import Reparse.Pattern.Compile

/-!
# Tokens given as data

A table of tokens names each of them and says how it is made: from a text, from
a pattern, from an earlier token, or from steps over the operations that tokens
have.  All of them yield text.

Tokens are made in the order of their names, and one token may refer to another
with an earlier name.  A pattern that is refused makes the whole table refused.
-/

namespace Reparse

namespace Scripted

/-- What a token that is given as data does next.  Its value is the text that
the steps put out one after another. -/
inductive TokenStep where
  /-- Consume characters and put them out. -/
  | next (count : Nat)
  /-- Consume a character, if there is one, and put it out. -/
  | nextChar
  /-- Put out the next character without consuming it. -/
  | peek
  | back (count : Nat)
  /-- Put out the index in angle brackets. -/
  | position
  /-- Put out a dollar sign at the end, and a dot elsewhere. -/
  | atEnd
  /-- Consume a given character. -/
  | want (expected : Char)
  /-- Consume characters of a set and put them out. -/
  | while (set : String)
  | fail
  | refuse (message : String)
deriving DecidableEq, Repr

def TokenStep.run : TokenStep → Token String
  | .next count => Token.next count
  | .nextChar => return ((← Token.nextChar).map String.singleton).getD ""
  | .peek => return ((← Token.peek).map String.singleton).getD ""
  | .back count => do
    Token.back count
    return ""
  | .position => return s!"<{← Token.position}>"
  | .atEnd => return if ← Token.atEnd then "$" else "."
  | .want expected => do
    let _ ← Token.exactly expected ("wanted " ++ String.singleton expected)
    return ""
  | .while set => return String.ofList (← Token.takeWhile fun char => set.toList.contains char)
  | .fail => Token.fail
  | .refuse message => Token.refuse message

/-- A pattern as it is written, or the code of one. -/
inductive PatternShape where
  | source (text : String)
  | code (compiled : Pattern.Bytecode)
deriving DecidableEq, Repr

def PatternShape.compile : PatternShape → Except Pattern.PatternError Pattern.Bytecode
  | .source text => Pattern.compile text
  | .code compiled => .ok compiled

/-- A token given as data, with patterns of the type `π`. -/
inductive TokenShape (π : Type) where
  /-- A text, or else the message that names it. -/
  | literal (text : String)
  /-- A text, or else a failure without a message. -/
  | bareLiteral (text : String)
  | matching (pattern : π) (message : String)
  /-- An earlier token, with its value in upper case. -/
  | upper (name : String)
  | steps (program : List TokenStep)
deriving DecidableEq, Repr

/-- Compile the pattern of a token. -/
def TokenShape.compile : TokenShape PatternShape →
    Except Pattern.PatternError (TokenShape Pattern.Bytecode)
  | .matching pattern message => return .matching (← pattern.compile) message
  | .literal text => .ok (.literal text)
  | .bareLiteral text => .ok (.bareLiteral text)
  | .upper name => .ok (.upper name)
  | .steps program => .ok (.steps program)

abbrev TokenTable := List (String × Token String)

/-- A token that is not in the table never matches. -/
def TokenTable.find (table : TokenTable) (name : String) : Token String :=
  (List.lookup name table).getD (Token.refuse "no such token")

def runSteps : List TokenStep → Token String
  | [] => return ""
  | step :: steps => do
    let text ← step.run
    return text ++ (← runSteps steps)

def literalToken (text : String) (mismatch : Token String) : Token String := do
  if (← Token.next text.length) = text then return text else mismatch

/-- Make a token, given those with earlier names. -/
def TokenShape.build (earlier : TokenTable) : TokenShape Pattern.Bytecode → Token String
  | .literal text => literalToken text (Token.refuse ("expected `" ++ text ++ "`"))
  | .bareLiteral text => literalToken text Token.fail
  | .matching code message => Pattern.token code message
  | .upper name => return String.map Char.toUpper (← TokenTable.find earlier name)
  | .steps program => runSteps program

/-- Compile the patterns of all tokens, in the order of their names. -/
def compileTokens (shapes : List (String × TokenShape PatternShape)) :
    Except Pattern.PatternError (List (String × TokenShape Pattern.Bytecode)) :=
  shapes.mapM fun (name, shape) => return (name, ← shape.compile)

/-- Make all tokens, in the order of their names. -/
def buildTokens (shapes : List (String × TokenShape Pattern.Bytecode)) : TokenTable :=
  shapes.foldl (fun table (name, shape) => (name, shape.build table) :: table) []

end Scripted

end Reparse
