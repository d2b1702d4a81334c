import Reparse.Pattern.Compile
import Reparse.Proofs.Parsing.Outlines
import Reparse.Proofs.Pattern.Meanings

namespace Reparse

/-!
# Lowering

A parsed pattern without errors stands for a tree of instructions, whose program
it is lowered to unless a count in braces asks for too much.  The tree depends on
the outline of the pattern only.
-/

namespace Pattern

/-! ## Trees of outlines -/

/-- The tree of the one operand of a postfix operator. -/
def singleTree : List Instruction → Instruction
  | [part] => part
  | parts => .concat parts

/-- The tree of a node, given the trees of its children. -/
def assembleTree (label : Label) (parts : List Instruction) : Instruction :=
  match label with
  | .literal text => .literal text
  | .range first last => .range first last
  | .charClass | .union => .union parts
  | .concat => .concat parts
  | .star => .star (singleTree parts)
  | .plus => .atLeast 1 (singleTree parts)
  | .optional => (singleTree parts).optional
  | .counted least (some most) => .between (least.getD 0) most (singleTree parts)
  | .counted least none => .atLeast (least.getD 0) (singleTree parts)
  | .error _ => .concat []

mutual

/-- The tree that an outline stands for. -/
def treeOf : Outline Label → Instruction
  | ⟨label, _, children⟩ => assembleTree label (treesOf children)

def treesOf : List (Outline Label) → List Instruction
  | [] => []
  | outline :: outlines => treeOf outline :: treesOf outlines

end

mutual

/-- There is no error in an outline. -/
def isSound : Outline Label → Bool
  | ⟨label, _, children⟩ => !isError label && areSound children

def areSound : List (Outline Label) → Bool
  | [] => true
  | outline :: outlines => isSound outline && areSound outlines

end

theorem treeOf_eq (outline : Outline Label) :
    treeOf outline = assembleTree outline.label (treesOf outline.children) := by
  cases outline
  rfl

theorem isSound_iff (outline : Outline Label) :
    isSound outline = true ↔ isError outline.label = false ∧ areSound outline.children = true := by
  cases outline
  rw [isSound, Bool.and_eq_true, Bool.not_eq_true']

theorem treesOf_append (outlines outlines' : List (Outline Label)) :
    treesOf (outlines ++ outlines') = treesOf outlines ++ treesOf outlines' := by
  induction outlines with
  | nil => rfl
  | cons outline outlines inductionHypothesis =>
      rw [List.cons_append, treesOf, treesOf, inductionHypothesis, List.cons_append]

theorem areSound_append (outlines outlines' : List (Outline Label)) :
    areSound (outlines ++ outlines') = (areSound outlines && areSound outlines') := by
  induction outlines with
  | nil => rfl
  | cons outline outlines inductionHypothesis =>
      rw [List.cons_append, areSound, areSound, inductionHypothesis, Bool.and_assoc]

theorem single_code (parts : List Instruction) :
    single (parts.map Instruction.code) = (singleTree parts).code := by
  rcases parts with _ | ⟨first, _ | ⟨second, rest⟩⟩
  · exact Instruction.concat_code []
  · rfl
  · exact Instruction.concat_code (first :: second :: rest)

/-- A count does not take more instructions than are allowed, by the estimate. -/
def affords (index : Cursor → Nat) (node : Node) : Bool :=
  match node.label, lowerAll index node.children with
  | .counted least most, .ok parts => decide (copiesEstimate (single parts) least most ≤ maxOps)
  | _, _ => true

/-- No count in a pattern takes too many instructions. -/
def isAffordable (text : String) : Bool :=
  let (tree, session) := parse text
  (tree.preorder 0).all fun (_, node) => affords session.store.index node

theorem assemble_eq {label : Label} {parts : List Instruction} (noError : isError label = false)
    (affordable : ∀ least most, label = .counted least most →
      copiesEstimate (single (parts.map Instruction.code)) least most ≤ maxOps) (stop : Nat) :
    assemble label (parts.map Instruction.code) stop = .ok (assembleTree label parts).code := by
  cases label with
  | literal text => exact congrArg Except.ok (Instruction.literal_code text)
  | range first last => rfl
  | charClass => exact congrArg Except.ok (Instruction.union_code parts)
  | union => exact congrArg Except.ok (Instruction.union_code parts)
  | concat => exact congrArg Except.ok (Instruction.concat_code parts)
  | star =>
      rw [assemble, single_code, Instruction.star_code]
      rfl
  | plus =>
      rw [assemble, single_code, Instruction.atLeast_code]
      rfl
  | optional =>
      rw [assemble, single_code, Instruction.optional_code]
      rfl
  | counted least most =>
      have enough := affordable least most rfl
      rw [single_code] at enough
      simp only [assemble, single_code, if_neg (Nat.not_lt_of_le enough)]
      cases most with
      | none => exact congrArg Except.ok (Instruction.atLeast_code _ _)
      | some most => exact congrArg Except.ok (Instruction.between_code _ _ _)
  | error reason => cases noError

mutual

/-- A pattern without errors is lowered to the program of its tree. -/
theorem lower_eq (index : Cursor → Nat) : ∀ (depth : Nat) (tree : Node), isSound tree.outline = true →
    (∀ node ∈ tree.preorder depth, affords index node.2 = true) →
    lower index tree = .ok (treeOf tree.outline).code
  | depth, .node label children origin, sound, affordable => by
      rw [isSound_iff] at sound
      have lowered := lowerAll_eq index (depth + 1) children sound.2 fun node member =>
        affordable node (List.mem_cons_of_mem _ member)
      have here := affordable _ List.mem_cons_self
      rw [lower, lowered, Tree.outline, treeOf]
      refine assemble_eq sound.1 ?_ _
      rintro least most rfl
      simp only [affords, Tree.label, Tree.children, lowered, decide_eq_true_eq] at here
      exact here

theorem lowerAll_eq (index : Cursor → Nat) : ∀ (depth : Nat) (trees : List Node),
    areSound (Tree.outlines trees) = true →
    (∀ node ∈ Tree.preorderAll depth trees, affords index node.2 = true) →
    lowerAll index trees = .ok ((treesOf (Tree.outlines trees)).map Instruction.code)
  | _, [], _, _ => rfl
  | depth, tree :: trees, sound, affordable => by
      rw [Tree.outlines, areSound, Bool.and_eq_true] at sound
      rw [lowerAll, lower_eq index depth tree sound.1 fun node member =>
          affordable node (List.mem_append_left _ member),
        lowerAll_eq index depth trees sound.2 fun node member =>
          affordable node (List.mem_append_right _ member)]
      rfl

end

end Pattern

end Reparse
