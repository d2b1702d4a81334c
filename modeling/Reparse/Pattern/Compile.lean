import Reparse.Pattern.Syntax

/-!
# Compiling patterns

A pattern that parses is lowered to bytecode, node by node from the leaves up.
Of several mistakes the first one in the text is reported.  A count in braces
stands for that many copies, and is refused when the copies could take too many
instructions.  Last of all, nothing may be left over behind the pattern.
-/

namespace Reparse

namespace Pattern

/-- Why a pattern was refused, and where. -/
structure PatternError where
  position : Nat
  reason : String
deriving DecidableEq, Repr

def PatternError.message (error : PatternError) : String :=
  s!"invalid pattern at {error.position}: " ++ error.reason

/-- Most instructions that counted copies may take. -/
def maxOps : Nat := 65536

/-- An estimate of what the copies of a part take. -/
def copiesEstimate (part : Bytecode) (least most : Option Nat) : Nat :=
  (part.size + 3) * ((most <|> least).getD 0 + 1)

/-- The one operand of a postfix operator. -/
def single : List Bytecode → Bytecode
  | [part] => part
  | parts => .concat parts

/-- The code of a node, given the code of its children and where it ends. -/
def assemble (label : Label) (parts : List Bytecode) (stop : Nat) : Except PatternError Bytecode :=
  match label with
  | .literal text => .ok (.literal text)
  | .range first last => .ok (.range first last)
  | .charClass | .union => .ok (.union parts)
  | .concat => .ok (.concat parts)
  | .star => .ok (.star (single parts))
  | .plus => .ok (.atLeast 1 (single parts))
  | .optional => .ok (.optional (single parts))
  | .counted least most =>
    let part := single parts
    if maxOps < copiesEstimate part least most then
      .error ⟨stop, s!"pattern expands to more than {maxOps} instructions"⟩
    else
      match most with
      | some most => .ok (.between (least.getD 0) most part)
      | none => .ok (.atLeast (least.getD 0) part)
  | .error reason => .error ⟨stop, reason⟩

mutual

/-- The code of a tree.  The index of a cursor tells where its node ends. -/
def lower (index : Cursor → Nat) : Tree Label Unit → Except PatternError Bytecode
  | .node label children origin => do
    assemble label (← lowerAll index children) (index origin.stop)

def lowerAll (index : Cursor → Nat) : List (Tree Label Unit) → Except PatternError (List Bytecode)
  | [] => return []
  | tree :: trees => do
    let code ← lower index tree
    return code :: (← lowerAll index trees)

end

/-- Compile a pattern. -/
def compile (text : String) : Except PatternError Bytecode := do
  let (tree, session) := parse text
  let code ← lower session.store.index tree
  match text.toList[tree.length]? with
  | some rest => .error ⟨tree.length, "unexpected `" ++ String.singleton rest ++ "`"⟩
  | none => return code

end Pattern

end Reparse
