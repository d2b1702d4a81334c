import Reparse.Program
import Reparse.Rope.Navigation

/-!
# Tokens

A token reads characters at a position of a text, and either yields a value or
fails.  It sees nothing else: neither the state of a parse nor the leaves that
the text is made of.  A token that yields a value has moved to the place where
it stopped, and one that fails has not moved at all.

Around the rules of a grammar the text is swept clear of skip tokens.  Each
round takes the first skip token that matches.  The sweep ends when none does,
or when the first that does has consumed nothing.
-/

namespace Reparse

/-- Why a token failed: with a message, or merely at an index. -/
inductive LexError where
  | message (text : String)
  | failed (position : Nat)
deriving DecidableEq, Repr

def LexError.describe : LexError → String
  | .message text => text
  | .failed position => s!"no token matched at {position}"

/-- What a token may do with the text. -/
inductive Reading : Type → Type where
  /-- Consume up to `count` characters. -/
  | next (count : Nat) : Reading String
  /-- Consume one character, if there is one. -/
  | nextChar : Reading (Option Char)
  /-- Look at the next character. -/
  | peek : Reading (Option Char)
  /-- Step back `count` characters, or to the start of the text. -/
  | back (count : Nat) : Reading Unit
  /-- The index of the next character. -/
  | position : Reading Nat

namespace Reading

/-- A token walks over one buffer, from settled place to settled place. -/
def handle (buffer : Buffer) {α : Type} : Reading α → Place → α × Place
  | .next count, place =>
    let (chars, stop) := buffer.forward place count
    (String.ofList chars, stop)
  | .nextChar, place =>
    match buffer.peek place with
    | some char => (some char, (buffer.forward place 1).2)
    | none => (none, place)
  | .peek, place => (buffer.peek place, place)
  | .back count, place => ((), buffer.backward place count)
  | .position, place => (buffer.indexOf place, place)

end Reading

namespace Buffer

/-- Length of the newest version that holds a place. -/
def lengthAround (buffer : Buffer) (place : Place) : Nat :=
  buffer.length (buffer.rootOf place.leaf)

/-- How often a loop may go round when it starts at a place. -/
def roundsFrom (buffer : Buffer) (place : Place) : Nat :=
  buffer.lengthAround place + 1

end Buffer

/-- A recogniser that yields an `α`. -/
abbrev Token (α : Type) := ExceptT LexError (Program Reading) α

namespace Token

variable {α β : Type}

def next (count : Nat) : Token String := ExceptT.lift (.perform (.next count))

def nextChar : Token (Option Char) := ExceptT.lift (.perform .nextChar)

def peek : Token (Option Char) := ExceptT.lift (.perform .peek)

def back (count : Nat) : Token Unit := ExceptT.lift (.perform (.back count))

def position : Token Nat := ExceptT.lift (.perform .position)

def atEnd : Token Bool := return (← peek).isNone

/-- Fail with a message. -/
def refuse (message : String) : Token α := throw (.message message)

/-- Fail without a message, at the index reached. -/
def fail : Token α := do throw (.failed (← position))

/-- Consume and collect characters while they belong to a class. -/
def takeWhile (belongs : Char → Bool) : Token (List Char) :=
  return (← Program.loopUntilFailure [] fun taken => do
    match ← peek with
    | some char =>
      if belongs char then
        let _ ← nextChar
        return (char :: taken, true)
      else return (taken, false)
    | none => return (taken, false)).reverse

/-- One character that belongs to a class. -/
def satisfy (belongs : Char → Bool) (message : String) : Token Char := do
  match ← nextChar with
  | some char => if belongs char then return char else refuse message
  | none => refuse message

/-- One given character. -/
def exactly (char : Char) (message : String) : Token Char := satisfy (· == char) message

/-- Run a token at a place.  A failure leaves no trace. -/
def lex (token : Token α) (buffer : Buffer) (place : Place) : Except LexError (α × Place) :=
  match Program.run (Reading.handle buffer) buffer.roundsFrom token.run place with
  | (.ok value, stop) => .ok (value, stop)
  | (.error error, _) => .error error

/-- The token would match here. -/
def isNext (token : Token α) (buffer : Buffer) (place : Place) : Bool :=
  (token.lex buffer place).toBool

/-- The first token that matches.  Where none does the message is the failure. -/
def lexFirst (tokens : List (Token α)) (buffer : Buffer) (place : Place) (message : String) :
    Except LexError (α × Place) :=
  match tokens.findSome? fun token => (token.lex buffer place).toOption with
  | some match_ => .ok match_
  | none => .error (.message message)

/-- Consume skip tokens for a limited number of rounds. -/
def skipWithin (tokens : List (Token α)) (buffer : Buffer) : Nat → Place → List α × Place
  | 0, place => ([], place)
  | rounds + 1, place =>
    match tokens.findSome? fun token => (token.lex buffer place).toOption with
    | some (value, stop) =>
      if stop = place then ([], place)
      else
        let (more, last) := skipWithin tokens buffer rounds stop
        (value :: more, last)
    | none => ([], place)

/-- Consume skip tokens, and answer their values and the place after them. -/
def skipFrom (tokens : List (Token α)) (buffer : Buffer) (place : Place) : List α × Place :=
  skipWithin tokens buffer (buffer.roundsFrom place) place

end Token

end Reparse
