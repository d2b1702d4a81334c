import Mathlib.Data.List.Basic
import Reparse.Proofs.Pattern.Denotation

namespace Reparse

/-!
# Where instructions start and end

A program keeps nothing of the tree that it was made of but the flat list, and
every builder links that list anew.  The tree can be had back.
No two trees have the same flattening, not even as the beginnings of two longer
lists, since every bracket is closed by one of its own kind.

The instructions of a tree are listed with the indices at which they start in
the program.  An index is in the list unless a closing bracket stands there, and
then it is in the list once.  To skip the instruction that starts at an index is
to come to the index behind all that belongs to it.

Linking comes to an end on any flat list, also on one with brackets that are not
balanced, and the fuel that it is given is never short.
-/

namespace Pattern

namespace Op

/-- Every bracket is closed by one of its kind, in the order of nesting.  The brackets that close
those still open are given, the innermost one first. -/
def areBalanced : List Op → List Op → Bool
  | [], pending => pending.isEmpty
  | .unionStart :: rest, pending => areBalanced rest (.unionEnd :: pending)
  | .concatStart :: rest, pending => areBalanced rest (.concatEnd :: pending)
  | .unionEnd :: rest, pending => pending.head? == some .unionEnd && areBalanced rest pending.tail
  | .concatEnd :: rest, pending => pending.head? == some .concatEnd && areBalanced rest pending.tail
  | _ :: rest, pending => areBalanced rest pending

end Op

/-! ## Linking a list of any kind -/

namespace Bytecode

variable {ops : Array Op} {fuel index : Nat}

theorem link_behind (beyond : ops.size ≤ index) (table : Array Nat) :
    link ops fuel index table = (ops.size, table) := by
  cases fuel with
  | zero => rfl
  | succ fuel => rw [link, Array.getElem?_eq_none beyond]

/-- Linking moves on in any list, with balanced brackets or not, and the fuel is enough that it is
given: more of it changes nothing. -/
theorem link_steady (ops : Array Op) (extra : Nat) :
    ∀ fuel index table,
      (index < ops.size → 2 * (ops.size - index) ≤ fuel →
        index < (link ops fuel index table).1 ∧
          link ops (fuel + extra) index table = link ops fuel index table) ∧
      (2 * (ops.size - index) + 1 ≤ fuel →
        index ≤ (linkParts ops fuel index table).1 ∧
          linkParts ops (fuel + extra) index table = linkParts ops fuel index table) := by
  intro fuel
  induction fuel with
  | zero => exact fun index table => ⟨fun inside enough => by omega, fun enough => by omega⟩
  | succ fuel inductionHypothesis =>
      refine fun index table => ⟨fun inside enough => ?_, fun enough => ?_⟩
      · have body : index < (link ops fuel (index + 1) table).1 ∧
            link ops (fuel + extra) (index + 1) table = link ops fuel (index + 1) table := by
          rcases Nat.lt_or_ge (index + 1) ops.size with more | beyond
          · rcases (inductionHypothesis (index + 1) table).1 more (by omega) with ⟨ahead, same⟩
            exact ⟨by omega, same⟩
          · rw [link_behind beyond, link_behind beyond]
            exact ⟨inside, rfl⟩
        rcases (inductionHypothesis (index + 1) table).2 (by omega) with ⟨ahead, same⟩
        rw [Nat.add_right_comm, link, link, Array.getElem?_eq_getElem inside]
        cases ops[index] with
        | char expected => exact ⟨Nat.lt_succ_self _, rfl⟩
        | range first last => exact ⟨Nat.lt_succ_self _, rfl⟩
        | unionEnd => exact ⟨Nat.lt_succ_self _, rfl⟩
        | concatEnd => exact ⟨Nat.lt_succ_self _, rfl⟩
        | star => exact ⟨body.1, by simp only [body.2]⟩
        | unionStart => exact ⟨by simp only; omega, by simp only [same]⟩
        | concatStart => exact ⟨by simp only; omega, by simp only [same]⟩
      · rw [Nat.add_right_comm, linkParts, linkParts]
        cases found : ops[index]? with
        | none => exact ⟨Nat.le_refl _, rfl⟩
        | some op =>
            have inside := (Array.getElem?_eq_some_iff.mp found).1
            rcases (inductionHypothesis index table).1 inside (by omega) with ⟨ahead, same⟩
            simp only [same]
            by_cases closes : op.isClosing = true
            · rw [if_pos closes, if_pos closes]
              exact ⟨Nat.le_refl _, rfl⟩
            · rw [if_neg closes, if_neg closes]
              generalize link ops fuel index table = outcome at ahead ⊢
              rcases (inductionHypothesis outcome.1 outcome.2).2 (by omega) with ⟨onward, same'⟩
              exact ⟨Nat.le_trans (Nat.le_of_lt ahead) onward, same'⟩

/-- A program is linked with as much fuel as linking its list can use. -/
theorem link_of_enough (enough : 2 * ops.size + 2 ≤ fuel) (inside : index < ops.size)
    (table : Array Nat) : link ops fuel index table = link ops (2 * ops.size + 2) index table := by
  have steady := (link_steady ops (fuel - (2 * ops.size + 2)) (2 * ops.size + 2) index table).1 inside
    (by omega)
  rw [Nat.add_sub_of_le enough] at steady
  exact steady.2

end Bytecode

namespace Instruction

variable {parts others : List Instruction} {rest rest' : List Op} {ops : Array Op}

/-! ## Brackets -/

mutual

/-- The brackets of a tree leave those open that were open before. -/
theorem areBalanced_ops : ∀ (tree : Instruction) (rest pending : List Op),
    Op.areBalanced (tree.ops ++ rest) pending = Op.areBalanced rest pending
  | .char _, _, _ => rfl
  | .range _ _, _, _ => rfl
  | .star body, rest, pending => areBalanced_ops body rest pending
  | .union parts, rest, pending => by
      rw [ops, List.cons_append, List.append_assoc, Op.areBalanced, areBalanced_opsAll parts]
      rfl
  | .concat parts, rest, pending => by
      rw [ops, List.cons_append, List.append_assoc, Op.areBalanced, areBalanced_opsAll parts]
      rfl

theorem areBalanced_opsAll : ∀ (parts : List Instruction) (rest pending : List Op),
    Op.areBalanced (opsAll parts ++ rest) pending = Op.areBalanced rest pending
  | [], _, _ => rfl
  | part :: parts, rest, pending => by
      rw [opsAll, List.append_assoc, areBalanced_ops part, areBalanced_opsAll parts]

end

/-! ## The tree of a flat list -/

/-- A tree does not begin with a closing bracket. -/
theorem closing_ne_ops (tree : Instruction) {closing : Op} (closes : closing.isClosing = true) :
    closing :: rest ≠ tree.ops ++ rest' := by
  intro same
  cases tree <;> cases congrArg List.head? same <;> cases closes

mutual

/-- The flattening of a tree tells the tree and, in a longer list, where it ends. -/
theorem ops_append_injective : ∀ (tree other : Instruction) {rest rest' : List Op},
    tree.ops ++ rest = other.ops ++ rest' → tree = other ∧ rest = rest'
  | .char _, other, rest, rest', same => by
      cases other <;> cases same
      exact ⟨rfl, rfl⟩
  | .range _ _, other, rest, rest', same => by
      cases other <;> cases same
      exact ⟨rfl, rfl⟩
  | .star body, other, rest, rest', same => by
      cases other with
      | star other =>
          rcases ops_append_injective body other (List.cons.inj same).2 with ⟨rfl, behind⟩
          exact ⟨rfl, behind⟩
      | _ => cases congrArg List.head? same
  | .union parts, other, rest, rest', same => by
      cases other with
      | union others =>
          rw [ops, ops, List.cons_append, List.cons_append, List.append_assoc,
            List.append_assoc] at same
          rcases opsAll_append_injective parts others rfl (List.cons.inj same).2 with ⟨rfl, behind⟩
          exact ⟨rfl, behind⟩
      | _ => cases congrArg List.head? same
  | .concat parts, other, rest, rest', same => by
      cases other with
      | concat others =>
          rw [ops, ops, List.cons_append, List.cons_append, List.append_assoc,
            List.append_assoc] at same
          rcases opsAll_append_injective parts others rfl (List.cons.inj same).2 with ⟨rfl, behind⟩
          exact ⟨rfl, behind⟩
      | _ => cases congrArg List.head? same

theorem opsAll_append_injective : ∀ (parts others : List Instruction) {closing : Op}
    {rest rest' : List Op}, closing.isClosing = true →
    opsAll parts ++ closing :: rest = opsAll others ++ closing :: rest' →
      parts = others ∧ rest = rest'
  | [], [], _, _, _, _, same => ⟨rfl, (List.cons.inj same).2⟩
  | [], other :: others, _, _, _, closes, same => by
      rw [opsAll, opsAll, List.append_assoc] at same
      exact absurd same (closing_ne_ops other closes)
  | part :: parts, [], _, _, _, closes, same => by
      rw [opsAll, opsAll, List.append_assoc] at same
      exact absurd same.symm (closing_ne_ops part closes)
  | part :: parts, other :: others, _, _, _, closes, same => by
      rw [opsAll, opsAll, List.append_assoc, List.append_assoc] at same
      rcases ops_append_injective part other same with ⟨rfl, remaining⟩
      rcases opsAll_append_injective parts others closes remaining with ⟨rfl, behind⟩
      exact ⟨rfl, behind⟩

end

theorem ops_injective {tree other : Instruction} (same : tree.ops = other.ops) : tree = other :=
  (ops_append_injective tree other (congrArg (· ++ []) same)).1

/-! ## The instructions that start in a program -/

mutual

/-- An instruction starts at every index but those of the closing brackets, and only one. -/
theorem map_fst_starts : ∀ (tree : Instruction) (here : Nat),
    (tree.starts here).map Prod.fst = tree.ops.findIdxs (fun op => !op.isClosing) here
  | .char _, _ => rfl
  | .range _ _, _ => rfl
  | .star body, here => congrArg (here :: ·) (map_fst_starts body (here + 1))
  | .union parts, here => by
      rw [starts, List.map_cons, map_fst_startsAll parts, ops, List.findIdxs_cons,
        List.findIdxs_append]
      simp [Op.isClosing]
  | .concat parts, here => by
      rw [starts, List.map_cons, map_fst_startsAll parts, ops, List.findIdxs_cons,
        List.findIdxs_append]
      simp [Op.isClosing]

theorem map_fst_startsAll : ∀ (parts : List Instruction) (here : Nat),
    (startsAll parts here).map Prod.fst = (opsAll parts).findIdxs (fun op => !op.isClosing) here
  | [], _ => rfl
  | part :: parts, here => by
      rw [startsAll, List.map_append, map_fst_starts part, map_fst_startsAll parts, opsAll,
        List.findIdxs_append, size]

end

mutual

/-- Where a tree stands, its instructions stand where they start. -/
theorem embeds_of_mem_starts : ∀ (tree : Instruction) {here index : Nat} {part : Instruction},
    Embeds ops tree.ops here → (index, part) ∈ tree.starts here → Embeds ops part.ops index
  | .char _, _, _, _, embeds, started => by
      cases List.mem_singleton.mp started
      exact embeds
  | .range _ _, _, _, _, embeds, started => by
      cases List.mem_singleton.mp started
      exact embeds
  | .star body, _, _, _, embeds, started => by
      rcases List.mem_cons.mp started with whole | within
      · cases whole
        exact embeds
      · exact embeds_of_mem_starts body embeds.tail within
  | .union parts, _, _, _, embeds, started => by
      rcases List.mem_cons.mp started with whole | within
      · cases whole
        exact embeds
      · exact embeds_of_mem_startsAll parts embeds.tail.left within
  | .concat parts, _, _, _, embeds, started => by
      rcases List.mem_cons.mp started with whole | within
      · cases whole
        exact embeds
      · exact embeds_of_mem_startsAll parts embeds.tail.left within

theorem embeds_of_mem_startsAll : ∀ (parts : List Instruction) {here index : Nat}
    {part : Instruction}, Embeds ops (opsAll parts) here → (index, part) ∈ startsAll parts here →
      Embeds ops part.ops index
  | [], _, _, _, _, started => absurd started List.not_mem_nil
  | first :: parts, _, _, _, embeds, started => by
      rw [opsAll] at embeds
      rcases List.mem_append.mp started with within | later
      · exact embeds_of_mem_starts first embeds.left within
      · exact embeds_of_mem_startsAll parts embeds.right later

end

end Instruction

/-- A program that the builders make is the flattening of one tree only, with balanced brackets
and a table with an entry for each index.  Every instruction of the tree has an index at which it
starts, where no other starts, and to skip it there is to come to the index behind its last
bracket.  The instruction at the index zero is the whole program. -/
theorem skip_passes_instructions (recipe : Recipe) :
    let code := recipe.code
    code.next.size = code.size ∧ Op.areBalanced code.ops.toList [] = true ∧
      ∃ tree : Instruction, (∀ other : Instruction, code.ops.toList = other.ops ↔ other = tree) ∧
        (tree.starts 0).map Prod.fst = code.ops.toList.findIdxs (fun op => !op.isClosing) ∧
        (∀ index part, (index, part) ∈ tree.starts 0 →
          part.ops <+: code.ops.toList.drop index ∧ code.skip index = index + part.ops.length) ∧
        (0, tree) ∈ tree.starts 0 ∧ code.skip 0 = code.size := by
  intro code
  have built : code = recipe.tree.code := recipe.code_eq
  have flat : code.ops.toList = recipe.tree.ops := by rw [built, Instruction.toList_ops_code]
  have extents : ∀ index part, (index, part) ∈ recipe.tree.starts 0 →
      part.ops <+: code.ops.toList.drop index ∧ code.skip index = index + part.ops.length := by
    intro index part started
    rw [built]
    have holds := Bytecode.holds_code recipe.tree
    exact ⟨Instruction.embeds_of_mem_starts recipe.tree holds.ops started,
      holds.skips index part started⟩
  refine ⟨?_, ?_, recipe.tree, fun other => ?_, ?_, extents, recipe.tree.mem_starts_self 0, ?_⟩
  · rw [built, Instruction.size_code, recipe.tree.links_code.size, Array.size_replicate]
  · rw [flat, ← List.append_nil recipe.tree.ops, Instruction.areBalanced_ops]
    rfl
  · rw [flat]
    exact ⟨fun same => (Instruction.ops_injective same).symm, fun same => by rw [same]⟩
  · rw [flat]
    exact recipe.tree.map_fst_starts 0
  · rw [(extents 0 recipe.tree (recipe.tree.mem_starts_self 0)).2, Nat.zero_add, built,
      Instruction.size_code]
    rfl

/-- The star reaches to the end of the sequence that it repeats, and so does the sequence. -/
example :
    let code := (Recipe.union [.star (.literal "ab".toList), .range '0' '9']).code
    [0, 1, 2, 3, 6].map code.skip = [8, 6, 6, 4, 7] := by
  decide

end Pattern

end Reparse
