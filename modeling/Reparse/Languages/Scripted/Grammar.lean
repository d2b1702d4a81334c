import Reparse.Parsing.Document
import Reparse.Parsing.Snapshot
import Reparse.Languages.Scripted.Token

/-!
# Grammars given as data

A scripted grammar is a table of tokens and a table of rules.  A rule is a list
of steps that collect parts: texts, numbers and sub-nodes.  Its node is labelled
with the parts, and has the sub-nodes as its children.

States are integers, and how they are hashed and compared can be chosen.  That
includes choices under which different states share their results, or none
shares even its own.
-/

namespace Reparse

namespace Scripted

/-! ## Steps and labels -/

/-- The state of a call: given, or relative to the caller's own. -/
inductive StateShape where
  | exactly (state : Int)
  | plus (change : Int)
deriving DecidableEq, Repr

def StateShape.resolve (state : Int) : StateShape → Int
  | .exactly given => given
  | .plus change => state + change

/-- What becomes of the node of a rule that is called. -/
inductive Call where
  /-- It is a part, even if it is an error. -/
  | keep
  /-- An error is given up, and the position restored. -/
  | attempt
  /-- An error is made the result of the caller. -/
  | demand
  /-- Its skip values are taken over, and it is a part. -/
  | merge
  /-- It is made the result of the caller. -/
  | adopt
deriving DecidableEq, Repr

inductive Step where
  | lex (token : String)
  | first (tokens : List String) (message : String)
  | call (kind : Call) (rule : Nat) (state : StateShape)
  /-- Try each list, going back whenever one gives up. -/
  | alternatives (branches : List (List Step))
  /-- Repeat until the steps give up or stay where they are. -/
  | many (steps : List Step)
  | ifNext (token : String) (yes no : List Step)
  | ifEnd (yes no : List Step)
  | ifState (state : Int) (yes no : List Step)
  | position
  | state
  | text (text : String)
  /-- A description of the running rule. -/
  | describe
  | refuse (message : String)
  | panic (payload : Option String)
  /-- A number of 32 bits, or the error of reading it. -/
  | number (text : String)
deriving Inhabited

/-- A part of a label.  A child stands for the next child of the node. -/
inductive Part where
  | text (text : String)
  | number (value : Int)
  | child
deriving DecidableEq, Repr

inductive Label where
  | tree (rule : Nat) (state : Int) (parts : List Part)
  | error (text : String)
deriving DecidableEq, Repr

abbrev vocabulary : Vocabulary where
  Rule := Nat
  State := Int
  Label := Label
  Skip := String

abbrev Node := vocabulary.Node

/-- How states are hashed. -/
inductive Hashing where
  | injective
  | constant
  | parity
deriving DecidableEq, Repr

/-- How states are compared. -/
inductive Comparing where
  | equal
  | lastDigit
  | never
deriving DecidableEq, Repr

def Hashing.hash : Hashing → Int → Nat
  | .injective, state => if state < 0 then 2 * state.natAbs - 1 else 2 * state.natAbs
  | .constant, _ => 0
  | .parity, state => (state % 2).toNat

def Comparing.same : Comparing → Int → Int → Bool
  | .equal, first, second => first == second
  | .lastDigit, first, second => first % 10 == second % 10
  | .never, _, _ => false

/-- A grammar as a table. -/
structure Script where
  tokens : List (String × TokenShape Pattern.Bytecode)
  rules : Array (List Step)
  skips : List String
  startRule : Nat
  startState : Int
  hashing : Hashing := .injective
  comparing : Comparing := .equal

/-! ## Running a rule -/

/-- Parts collected so far, the latest first, with the node of each child. -/
abbrev Parts := List (Part × Option Node)

/-- Steps go on with more parts, or end their rule with a result. -/
inductive Flow where
  | goOn (parts : Parts)
  | finish (content : Content Label String)

/-- The setting of a running rule. -/
structure Setting where
  tokens : TokenTable
  rule : Nat
  state : Int

abbrev StepBody := Body vocabulary Flow

def ruleName (rule : Nat) : String := s!"r{rule}"

/-- Run something that may give up, and answer whether it did. -/
def attempt {α : Type} (body : Body vocabulary α) : Body vocabulary (Except Abort α) :=
  ExceptT.mk do
    match ← body.run with
    | .ok value => return .ok (.ok value)
    | .error (.abort reason) => return .ok (.error reason)
    | .error stop => return .error stop

/-- A description of the running rule. -/
def describeRule (setting : Setting) : Body vocabulary String := do
  let index ← Body.position
  let place ← Body.place
  let cursor := s!"Cursor \x7b index: {index}, leaf: {place.leaf}, offset: {place.offset} \x7d"
  return "Rule \x7b snapshot: " ++
    Snapshot.description cursor (toString setting.state) (ruleName setting.rule) ++ ", .. \x7d"

def addText (parts : Parts) (text : String) : Flow := .goOn ((.text text, none) :: parts)

def addNumber (parts : Parts) (value : Int) : Flow := .goOn ((.number value, none) :: parts)

def addChild (parts : Parts) (node : Node) : Flow := .goOn ((.child, some node) :: parts)

def isError : Label → Bool
  | .error _ => true
  | _ => false

def runCall (setting : Setting) (kind : Call) (rule : Nat) (state : StateShape) (parts : Parts) :
    StepBody := do
  let saved ← Body.mark
  let node ← Body.parse rule (state.resolve setting.state)
  match kind with
  | .keep => return addChild parts node
  | .attempt =>
    if isError node.label then
      Body.restore saved
      return .goOn parts
    else return addChild parts node
  | .demand =>
    if isError node.label then return .finish (← Body.adopt node) else return addChild parts node
  | .merge => do
    let _ ← Body.adopt node
    return addChild parts node
  | .adopt => return .finish (← Body.adopt node)

/-- Largest number that a script can read. -/
def maxNumber : Nat := Numeral.greatestOf 31

/-- Repeat steps, given what one round of them does. -/
def repeatSteps (round : Parts → StepBody) (parts : Parts) : StepBody :=
  Body.loop (.goOn parts) fun flow => do
    match flow with
    | .finish content => return (.finish content, false)
    | .goOn parts =>
      let saved ← Body.mark
      let before ← Body.position
      match ← attempt (round parts) with
      | .error _ =>
        Body.restore saved
        return (.goOn parts, false)
      | .ok (.finish content) => return (.finish content, false)
      | .ok (.goOn more) => return (.goOn more, (← Body.position) != before)

mutual

def runStep (setting : Setting) : Step → Parts → StepBody
  | .lex token, parts => return addText parts (← Body.lex (setting.tokens.find token))
  | .first tokens message, parts =>
    return addText parts (← Body.lexFirst (tokens.map setting.tokens.find) message)
  | .call kind rule state, parts => runCall setting kind rule state parts
  | .alternatives branches, parts => do
    let saved ← Body.mark
    runBranches setting branches saved parts none
  | .many steps, parts => repeatSteps (runList setting steps) parts
  | .ifNext token yes no, parts => do
    if ← Body.isNext (setting.tokens.find token) then runList setting yes parts
    else runList setting no parts
  | .ifEnd yes no, parts => do
    if ← Body.atEnd then runList setting yes parts else runList setting no parts
  | .ifState state yes no, parts =>
    if setting.state = state then runList setting yes parts else runList setting no parts
  | .position, parts => return addNumber parts (← Body.position)
  | .state, parts => return addNumber parts setting.state
  | .text text, parts => return addText parts text
  | .describe, parts => return addText parts (← describeRule setting)
  | .refuse message, _ => Body.refuse message
  | .panic payload, _ => Body.panic payload
  | .number text, parts =>
    match Numeral.readInt (maxNumber + 1) maxNumber text.toList with
    | .ok value => return addNumber parts value
    | .error error => Body.foreign error.message

def runList (setting : Setting) : List Step → Parts → StepBody
  | [], parts => return .goOn parts
  | step :: steps, parts => do
    match ← runStep setting step parts with
    | .goOn more => runList setting steps more
    | .finish content => return .finish content

/-- Try the branches from one place.  The reason of the last one that gave up is
passed on when none is left. -/
def runBranches (setting : Setting) :
    List (List Step) → Nat → Parts → Option Abort → StepBody
  | [], _, parts, none => return .goOn parts
  | [], _, _, some reason => Body.giveUp reason
  | branch :: branches, saved, parts, _ => do
    match ← attempt (runList setting branch parts) with
    | .ok flow => return flow
    | .error reason =>
      Body.restore saved
      runBranches setting branches saved parts (some reason)

end

/-- Run all steps of a rule and make its node. -/
def runRule (setting : Setting) (steps : List Step) : Body vocabulary (Content Label String) := do
  match ← runList setting steps [] with
  | .finish content => return content
  | .goOn parts =>
    let inOrder := parts.reverse
    return ⟨.tree setting.rule setting.state (inOrder.map Prod.fst), inOrder.filterMap Prod.snd⟩

def grammar (script : Script) : Grammar vocabulary :=
  let tokens := buildTokens script.tokens
  { name := ruleName
    body rule state := runRule ⟨tokens, rule, state⟩ (script.rules[rule]?.getD [])
    hash := script.hashing.hash
    sameState := script.comparing.same
    nodesOf _ := []
    errorMessage message := .error ("message: " ++ message)
    lexerError position := .error s!"lexer: {position}"
    unhandledError fault := .error ("fault in " ++ fault.rule ++ ": " ++ fault.describe)
    isError := isError
    skips := script.skips.map tokens.find
    startRule := script.startRule
    startState := script.startState }

end Scripted

end Reparse
