import Reparse.Lexing.Token
import Reparse.Pattern.Bytecode

/-!
# Matching

The matcher runs a program over a source of characters that can be asked for
its position and be moved to another one.  It is itself written over these
three operations alone.  A string is one such source, and a token that reads
from a rope is another.

A sequence stops where a part fails.  A union tries each part from the same
position, and is back there if none matches.  A star repeats its part for as
long as the part matches and consumes something.  It goes back to where a
failed attempt began, and never fails.  Nothing is tried a second time with
fewer repetitions.
-/

namespace Reparse

namespace Pattern

/-- What the matcher may do with a source of characters. -/
inductive Scanning : Type → Type where
  /-- Consume one character, if there is one. -/
  | nextChar : Scanning (Option Char)
  /-- Number of characters in front of the next one. -/
  | position : Scanning Nat
  /-- Move to a position, forwards or backwards. -/
  | seek (position : Nat) : Scanning Unit

/-- A computation of the matcher. -/
abbrev Scan := Program Scanning

namespace Scan

def nextChar : Scan (Option Char) := .perform .nextChar

def position : Scan Nat := .perform .position

def seek (position : Nat) : Scan Unit := .perform (.seek position)

/-- Consume one character, and answer whether it belongs to a class. -/
def accept (belongs : Char → Bool) : Scan Bool := do
  match ← nextChar with
  | some char => return belongs char
  | none => return false

/-- Try a part once, and answer whether it consumed something.  If it fails the
source is back where it was. -/
def advance (part : Scan Bool) : Scan Bool := do
  let before ← position
  if ← part then return (← position) != before
  else
    seek before
    return false

/-- Repeat a part greedily. -/
def repeatGreedily (part : Scan Bool) : Scan Unit :=
  .loop () fun _ => return ((), ← advance part)

end Scan

namespace Bytecode

mutual

/-- Run the instruction at an index.  The fuel falls with each step into or
over an instruction. -/
def runAt (code : Bytecode) : Nat → Nat → Scan Bool
  | 0, _ => return false
  | fuel + 1, index =>
    match code.ops[index]? with
    | some (.char expected) => Scan.accept (· == expected)
    | some (.range first last) =>
      Scan.accept fun char => decide (first ≤ char) && decide (char ≤ last)
    | some .star => do
      Scan.repeatGreedily (runAt code fuel (index + 1))
      return true
    | some .unionStart => do
      let start ← Scan.position
      runUnion code fuel (index + 1) start
    | some .concatStart => runConcat code fuel (index + 1)
    | _ => return false
termination_by structural fuel => fuel

/-- Run the parts from an index on until one fails. -/
def runConcat (code : Bytecode) : Nat → Nat → Scan Bool
  | 0, _ => return false
  | fuel + 1, index =>
    if code.isEnd index then return true
    else do
      if ← runAt code fuel index then runConcat code fuel (code.skip index)
      else return false
termination_by structural fuel => fuel

/-- Run the parts from an index on, each from the same start, until one matches. -/
def runUnion (code : Bytecode) : Nat → Nat → Nat → Scan Bool
  | 0, _, _ => return false
  | fuel + 1, index, start =>
    if code.isEnd index then return false
    else do
      if ← runAt code fuel index then return true
      else
        Scan.seek start
        runUnion code fuel (code.skip index) start
termination_by structural fuel => fuel

end

/-- Whether the program matches here.  If it does the source is moved past the match. -/
def matchPrefix (code : Bytecode) : Scan Bool :=
  code.runAt (2 * code.size + 2) 0

/-- Whether the program matches all that is left of the source. -/
def matchAll (code : Bytecode) : Scan Bool := do
  if ← code.matchPrefix then return (← Scan.nextChar).isNone
  else return false

end Bytecode

/-! ## Sources -/

/-- A string and a position in it. -/
structure StringSource where
  chars : Array Char
  position : Nat := 0
deriving DecidableEq, Repr

namespace StringSource

def ofString (text : String) : StringSource := ⟨text.toList.toArray, 0⟩

def handle {α : Type} : Scanning α → StringSource → α × StringSource
  | .nextChar, source =>
    match source.chars[source.position]? with
    | some char => (some char, { source with position := source.position + 1 })
    | none => (none, source)
  | .position, source => (source.position, source)
  | .seek position, source => ((), { source with position := min position source.chars.size })

def run {α : Type} (scan : Scan α) (source : StringSource) : α × StringSource :=
  Program.run handle (fun source => source.chars.size + 1) scan source

end StringSource

/-- The matcher as a reader of a rope.  A move is a read or a step back. -/
def scanRope {α : Type} : Scanning α → Program Reading α
  | .nextChar => .perform .nextChar
  | .position => .perform .position
  | .seek position => do
    let current ← Program.perform .position
    if position < current then .perform (.back (current - position))
    else do
      let _ ← Program.perform (.next (position - current))
      return ()

/-- A token that yields the text matched by a program. -/
def token (code : Bytecode) (message : String) : Token String := do
  let start ← Token.position
  if ← ExceptT.lift (code.matchPrefix.expand scanRope) then
    let length := (← Token.position) - start
    Token.back length
    Token.next length
  else Token.refuse message

end Pattern

end Reparse
