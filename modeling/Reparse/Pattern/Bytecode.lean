import Reparse.Text.Quoted

/-!
# Bytecode of patterns

A pattern is matched by a flat list of instructions.  A character and a range
stand alone, a star applies to the one instruction after it, and a union or a
sequence is enclosed by its two brackets.  The list is the flattening of a
tree, and every program made by the builders below keeps its brackets paired.

Beside each instruction stands the index just past it, with all that belongs to
it.  The matcher steps there when it has finished with a part, or given up on it.
The table of these indices is not put together from the tables of the parts.
Each builder links the whole flat list again, from left to right, and goes by the
brackets alone.
-/

namespace Reparse

namespace Pattern

inductive Op where
  /-- Exactly this character. -/
  | char (expected : Char)
  /-- One character between the two, both included. -/
  | range (first last : Char)
  /-- The next instruction, as often as it matches. -/
  | star
  /-- The first part that matches, up to the closing bracket. -/
  | unionStart
  | unionEnd
  /-- All parts one after another, up to the closing bracket. -/
  | concatStart
  | concatEnd
deriving DecidableEq, Repr

namespace Op

def isClosing : Op → Bool
  | .unionEnd | .concatEnd => true
  | _ => false

def describe : Op → String
  | .char expected => "Char(" ++ Quoted.char expected ++ ")"
  | .range first last => "Range(" ++ Quoted.char first ++ ", " ++ Quoted.char last ++ ")"
  | .star => "KleeneStar"
  | .unionStart => "UnionStart"
  | .unionEnd => "UnionEnd"
  | .concatStart => "ConcatStart"
  | .concatEnd => "ConcatEnd"

end Op

/-- A program for the matcher.  `next` has for each instruction the index past it. -/
structure Bytecode where
  ops : Array Op
  next : Array Nat
deriving DecidableEq, Repr, Inhabited

namespace Bytecode

mutual

/-- Enter the index past the instruction at an index, and those past all instructions inside of
it.  The answer begins with the index past it.  The fuel falls with each step into or over an
instruction. -/
def link (ops : Array Op) : Nat → Nat → Array Nat → Nat × Array Nat
  | 0, _, next => (ops.size, next)
  | fuel + 1, index, next =>
    match ops[index]? with
    | none => (ops.size, next)
    | some .star =>
      let (stop, linked) := link ops fuel (index + 1) next
      (stop, linked.setIfInBounds index stop)
    | some .unionStart | some .concatStart =>
      let (closing, linked) := linkParts ops fuel (index + 1) next
      let stop := min (closing + 1) ops.size
      (stop, linked.setIfInBounds index stop)
    | some _ => (index + 1, next.setIfInBounds index (index + 1))
termination_by structural fuel => fuel

/-- Link the instructions from an index on, up to a closing bracket of either kind.  The answer
begins with the index of the bracket. -/
def linkParts (ops : Array Op) : Nat → Nat → Array Nat → Nat × Array Nat
  | 0, index, next => (index, next)
  | fuel + 1, index, next =>
    match ops[index]? with
    | none => (index, next)
    | some op =>
      if op.isClosing then (index, next)
      else
        let (stop, linked) := link ops fuel index next
        linkParts ops fuel stop linked
termination_by structural fuel => fuel

end

/-- Link the instructions from an index on, up to the end.  Each round moves on by one
instruction at least. -/
def linkAll (ops : Array Op) : Nat → Nat → Array Nat → Array Nat
  | 0, _, next => next
  | rounds + 1, index, next =>
    if index < ops.size then
      let (stop, linked) := link ops (2 * ops.size + 2) index next
      linkAll ops rounds stop linked
    else next

/-- The program of a flat list. -/
def ofOps (ops : List Op) : Bytecode where
  ops := ops.toArray
  next := linkAll ops.toArray ops.length 0 (Array.replicate ops.length 0)

def size (code : Bytecode) : Nat := code.ops.size

/-- Index of the instruction that follows the one at an index. -/
def skip (code : Bytecode) (index : Nat) : Nat := code.next[index]?.getD code.size

/-- No part of a union or a sequence starts here. -/
def isEnd (code : Bytecode) (index : Nat) : Bool :=
  match code.ops[index]? with
  | some op => op.isClosing
  | none => true

def describe (code : Bytecode) : String :=
  "[" ++ ", ".intercalate (code.ops.toList.map Op.describe) ++ "]"

/-! ## Builders -/

/-- Put parts between two brackets. -/
def enclose (opening : Op) (parts : List Bytecode) (closing : Op) : Bytecode :=
  ofOps (opening :: parts.flatMap (·.ops.toList) ++ [closing])

def char (expected : Char) : Bytecode := ofOps [.char expected]

/-- One character between the two. -/
def range (first last : Char) : Bytecode := ofOps [.range first last]

/-- All parts in sequence. -/
def concat (parts : List Bytecode) : Bytecode := enclose .concatStart parts .concatEnd

/-- The first part that matches. -/
def union (parts : List Bytecode) : Bytecode := enclose .unionStart parts .unionEnd

/-- The characters of a text.  The empty text matches and consumes nothing. -/
def literal (text : List Char) : Bytecode :=
  match text with
  | [single] => char single
  | _ => concat (text.map char)

/-- Any number of repetitions. -/
def star (inner : Bytecode) : Bytecode := ofOps (.star :: inner.ops.toList)

/-- The part or nothing. -/
def optional (inner : Bytecode) : Bytecode := union [inner, literal []]

/-- Exactly `count` repetitions. -/
def times (count : Nat) (inner : Bytecode) : Bytecode := concat (List.replicate count inner)

/-- At least `count` repetitions. -/
def atLeast (count : Nat) (inner : Bytecode) : Bytecode :=
  concat (List.replicate count inner ++ [star inner])

/-- Between `least` and `most` repetitions, both included. -/
def between (least most : Nat) (inner : Bytecode) : Bytecode :=
  concat (List.replicate least inner ++ List.replicate (most - least) (optional inner))

end Bytecode

end Pattern

end Reparse
