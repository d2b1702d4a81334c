import Mathlib
import Reparse.Proofs.Pattern.Lowering

namespace Reparse

/-!
# How far patterns expand

A count is refused when an estimate of its copies passes a limit.  The estimate
reckons with three instructions for each copy besides those of the part.  Copies
that cannot be left out take fewer, and so a count without an upper bound keeps
within the limit.  A copy that may be left out has four brackets, and so a count
with an upper bound can pass the limit, by at most one instruction for each copy.

Nothing but counts is estimated.  Every plus doubles what it stands behind, and
so no limit holds for a program as a whole.
-/

namespace Pattern

variable {index : Cursor → Nat} {least most : Option Nat} {pattern : String} {code : Bytecode}

/-! ## Sizes of programs -/

namespace Bytecode

theorem size_ofOps (ops : List Op) : (ofOps ops).size = ops.length := List.size_toArray

theorem size_enclose (opening closing : Op) (parts : List Bytecode) :
    (enclose opening parts closing).size = (parts.map size).sum + 2 := by
  have inner : (parts.flatMap (·.ops.toList)).length = (parts.map size).sum := by
    rw [List.length_flatMap]
    rfl
  rw [enclose, size_ofOps, List.length_append, List.length_cons, inner]
  rfl

theorem size_concat (parts : List Bytecode) : (concat parts).size = (parts.map size).sum + 2 :=
  size_enclose _ _ parts

theorem size_star (part : Bytecode) : (star part).size = part.size + 1 := size_ofOps _

theorem size_optional (part : Bytecode) : (optional part).size = part.size + 4 :=
  size_enclose _ _ _

theorem size_atLeast (count : Nat) (part : Bytecode) :
    (atLeast count part).size = (count + 1) * part.size + 3 := by
  rw [atLeast, size_concat, List.map_append, List.map_replicate, List.sum_append,
    List.sum_replicate_nat, List.map_singleton, List.sum_singleton, size_star, Nat.succ_mul]
  rfl

theorem size_between (least most : Nat) (part : Bytecode) :
    (between least most part).size =
      least * part.size + (most - least) * (part.size + 4) + 2 := by
  rw [between, size_concat, List.map_append, List.map_replicate, List.map_replicate,
    List.sum_append, List.sum_replicate_nat, List.sum_replicate_nat, size_optional]

/-- Pluses behind one another double their operand each. -/
theorem size_iterate_plus (part : Bytecode) (count : Nat) :
    ((atLeast 1)^[count] part).size + 3 = 2 ^ count * (part.size + 3) := by
  induction count with
  | zero => rw [Function.iterate_zero_apply, Nat.pow_zero, Nat.one_mul]
  | succ count inductionHypothesis =>
      rw [Function.iterate_succ_apply', size_atLeast, Nat.pow_succ', Nat.mul_assoc,
        ← inductionHypothesis]
      omega

end Bytecode

/-! ## Copies and their estimate -/

theorem size_atLeast_le (least : Option Nat) (part : Bytecode) :
    (Bytecode.atLeast (least.getD 0) part).size ≤ copiesEstimate part least none := by
  have estimate : copiesEstimate part least none = (part.size + 3) * (least.getD 0 + 1) := rfl
  rw [Bytecode.size_atLeast, estimate, Nat.add_mul part.size, Nat.mul_comm part.size]
  omega

/-- A copy that may be left out takes one instruction more than it is estimated to take. -/
theorem size_between_le {least most : Nat} (ordered : least ≤ most) (part : Bytecode)
    (first : Option Nat) :
    (Bytecode.between least most part).size ≤ copiesEstimate part first (some most) + most := by
  rcases Nat.exists_eq_add_of_le ordered with ⟨optional, rfl⟩
  have estimate : copiesEstimate part first (some (least + optional)) =
      (part.size + 3) * (least + optional + 1) := rfl
  have copies : part.size * (least + optional + 1) =
      least * part.size + optional * part.size + part.size := by
    rw [Nat.mul_comm, Nat.succ_mul, Nat.add_mul]
  rw [Bytecode.size_between, Nat.add_sub_cancel_left, estimate, Nat.add_mul, copies, Nat.mul_add]
  omega

/-- What a count expands to may pass the limit although the estimate does not: a part of 62
instructions may be taken up to a thousand times. -/
theorem exists_count_above_limit : ∃ (part : Bytecode) (most : Nat), most ≤ maxRepeat ∧
    copiesEstimate part none (some most) ≤ maxOps ∧
      maxOps < (Bytecode.between 0 most part).size := by
  have size : (Bytecode.literal (List.replicate 60 'a')).size = 62 := by decide +kernel
  refine ⟨.literal (List.replicate 60 'a'), maxRepeat, Nat.le_refl _, ?_, ?_⟩
  · rw [copiesEstimate, size]
    decide
  · rw [Bytecode.size_between, size]
    decide

/-! ## Counts of patterns that compile -/

theorem parts_of_lower {label : Label} {children : List Node} {origin : Origin Unit}
    (lowered : lower index (.node label children origin) = .ok code) :
    ∃ parts, lowerAll index children = .ok parts ∧
      assemble label parts (index origin.stop) = .ok code := by
  rw [lower] at lowered
  cases codes : lowerAll index children with
  | error error =>
      rw [codes] at lowered
      cases lowered
  | ok parts =>
      rw [codes] at lowered
      exact ⟨parts, rfl, lowered⟩

theorem estimate_of_assemble {parts : List Bytecode} {stop : Nat}
    (assembled : assemble (.counted least most) parts stop = .ok code) :
    copiesEstimate (single parts) least most ≤ maxOps ∧
      code = most.elim (.atLeast (least.getD 0) (single parts))
        fun most => .between (least.getD 0) most (single parts) := by
  simp only [assemble] at assembled
  split at assembled
  · cases assembled
  · next within =>
      refine ⟨Nat.le_of_not_lt within, ?_⟩
      cases most <;> cases assembled <;> rfl

/-- The program of a count keeps within the limit but for one instruction for each copy. -/
theorem size_of_lowered_count {children : List Node} {origin : Origin Unit}
    (ordered : ∀ bound, most = some bound → least.getD 0 ≤ bound)
    (lowered : lower index (.node (.counted least most) children origin) = .ok code) :
    code.size ≤ maxOps + most.getD 0 := by
  rcases parts_of_lower lowered with ⟨parts, _, assembled⟩
  rcases estimate_of_assemble assembled with ⟨within, rfl⟩
  cases most with
  | none => exact Nat.le_trans (size_atLeast_le least (single parts)) within
  | some most =>
      exact Nat.le_trans (size_between_le (ordered most rfl) (single parts) least)
        (Nat.add_le_add_right within most)

mutual

/-- A tree is lowered only if all its counts are within their estimates. -/
theorem affords_of_lower (index : Cursor → Nat) : ∀ (depth : Nat) (tree : Node) {code : Bytecode},
    lower index tree = .ok code → ∀ node ∈ tree.preorder depth, affords index node.2 = true
  | depth, .node label children origin, code, lowered, node, member => by
      rcases parts_of_lower lowered with ⟨parts, codes, assembled⟩
      rcases List.mem_cons.mp member with rfl | member
      · cases label with
        | counted least most =>
            simp only [affords, Tree.label, Tree.children, codes, decide_eq_true_eq]
            exact (estimate_of_assemble assembled).1
        | _ => rfl
      · exact affordsAll_of_lowerAll index (depth + 1) children codes node member

theorem affordsAll_of_lowerAll (index : Cursor → Nat) : ∀ (depth : Nat) (trees : List Node)
    {codes : List Bytecode}, lowerAll index trees = .ok codes →
    ∀ node ∈ Tree.preorderAll depth trees, affords index node.2 = true
  | _, [], _, _, _, member => nomatch member
  | depth, tree :: trees, codes, lowered, node, member => by
      rw [lowerAll] at lowered
      cases first : lower index tree with
      | error error =>
          rw [first] at lowered
          cases lowered
      | ok code =>
          cases rest : lowerAll index trees with
          | error error =>
              rw [first, rest] at lowered
              cases lowered
          | ok others =>
              rcases List.mem_append.mp member with member | member
              · exact affords_of_lower index depth tree first node member
              · exact affordsAll_of_lowerAll index depth trees rest node member

end

/-- No pattern compiles in which a count asks for too much. -/
theorem isAffordable_of_compile (compiled : compile pattern = .ok code) :
    isAffordable pattern = true := by
  rw [compile] at compiled
  rw [isAffordable]
  generalize parse pattern = parsed at compiled ⊢
  rcases parsed with ⟨tree, session⟩
  cases lowered : lower session.store.index tree with
  | error error =>
      simp only [lowered] at compiled
      cases compiled
  | ok program =>
      simp only [List.all_eq_true]
      exact affords_of_lower _ 0 tree lowered

end Pattern

end Reparse
