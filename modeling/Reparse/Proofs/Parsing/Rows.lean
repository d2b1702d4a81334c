import Reparse.Proofs.Parsing.Findings
import Reparse.Proofs.Parsing.Seats
import Reparse.Proofs.Parsing.Steady

namespace Reparse

/-!
# Nodes in a row

The length of a node is recorded when the node is made, and its cursors are asked for its
span at any later time.  A node lies at an index if its cursors stand at the two ends of that
length, and its children lie within it in a row, one behind another.

Cursors that stand somewhere stay there while a session goes on parsing.  A node that is used
again therefore lies where it was found, with all that is in it.
-/

namespace Tree

variable {α κ : Type}

/-! ## Trees -/

section Rows

variable (stands : Cursor → Nat → Prop)

mutual

/-- A node lies at an index, with its children in a row in it. -/
def LiesAt : Tree α κ → Nat → Prop
  | .node _ children origin, index =>
    stands origin.start index ∧ stands origin.stop (index + origin.length) ∧
      ∃ first last, index ≤ first ∧ last ≤ index + origin.length ∧ LieInRow children first last

/-- Nodes lie one behind another from an index up to another.  Only the last of them may be
without length. -/
def LieInRow : List (Tree α κ) → Nat → Nat → Prop
  | [], first, last => first = last
  | tree :: trees, first, last =>
    LiesAt tree first ∧ (trees = [] ∨ 0 < tree.length) ∧
      LieInRow trees (first + tree.length) last

end

end Rows

variable {stands stands' : Cursor → Nat → Prop}

theorem liesAt_iff {tree : Tree α κ} {index : Nat} : tree.LiesAt stands index ↔
    stands tree.start index ∧ stands tree.stop (index + tree.length) ∧
      ∃ first last, index ≤ first ∧ last ≤ index + tree.length ∧
        LieInRow stands tree.children first last := by
  cases tree
  exact Iff.rfl

mutual

theorem LiesAt.mono (implies : ∀ cursor index, stands cursor index → stands' cursor index) :
    ∀ {tree : Tree α κ} {index : Nat}, tree.LiesAt stands index → tree.LiesAt stands' index
  | .node _ _ _, _, ⟨start, stop, first, last, after, before, row⟩ =>
    ⟨implies _ _ start, implies _ _ stop, first, last, after, before, LieInRow.mono implies row⟩

theorem LieInRow.mono (implies : ∀ cursor index, stands cursor index → stands' cursor index) :
    ∀ {trees : List (Tree α κ)} {first last : Nat}, LieInRow stands trees first last →
      LieInRow stands' trees first last
  | [], _, _, same => same
  | _ :: _, _, _, ⟨lies, positive, row⟩ =>
    ⟨LiesAt.mono implies lies, positive, LieInRow.mono implies row⟩

end

theorem LieInRow.le {trees : List (Tree α κ)} {first last : Nat}
    (row : LieInRow stands trees first last) : first ≤ last := by
  induction trees generalizing first with
  | nil => exact Nat.le_of_eq row
  | cons tree trees inductionHypothesis =>
      exact Nat.le_trans (Nat.le_add_right _ _) (inductionHypothesis row.2.2)

/-- A row of nodes that have length goes on with a node at its end. -/
theorem LieInRow.append {trees : List (Tree α κ)} {tree : Tree α κ} {first last : Nat}
    (row : LieInRow stands trees first last) (positive : ∀ tree ∈ trees, 0 < tree.length)
    (lies : tree.LiesAt stands last) :
    LieInRow stands (trees ++ [tree]) first (last + tree.length) := by
  induction trees generalizing first with
  | nil =>
      cases row
      exact ⟨lies, Or.inl rfl, rfl⟩
  | cons next trees inductionHypothesis =>
      exact ⟨row.1, Or.inr (positive next List.mem_cons_self), inductionHypothesis row.2.2
        fun tree member => positive tree (List.mem_cons_of_mem _ member)⟩

/-! ## Spans -/

/-- A node is as long as its span, and its children follow one another in it. -/
structure Tiled (store : Store) (node : Tree α κ) : Prop where
  length : (node.range store).stop = (node.range store).start + node.length
  inside : ∀ child ∈ node.children, (node.range store).start ≤ (child.range store).start ∧
    (child.range store).stop ≤ (node.range store).stop
  adjoin : node.children.IsChain fun child next =>
    (child.range store).stop = (next.range store).start
  positive : ∀ child ∈ node.children.dropLast, 0 < child.length

section Spans

variable {store : Store} {tree : Tree α κ} {trees : List (Tree α κ)} {index first last : Nat}

/-- The span of a node by the indices of its cursors. -/
theorem LiesAt.range_eq (lies : tree.LiesAt (store.index · = ·) index) :
    tree.range store = ⟨index, index + tree.length⟩ := by
  rcases liesAt_iff.mp lies with ⟨start, stop, _⟩
  rw [range, start, stop]

/-- What is in a row lies where the row is. -/
theorem LieInRow.inside (row : LieInRow stands trees first last) (member : tree ∈ trees) :
    ∃ index, first ≤ index ∧ index + tree.length ≤ last ∧ tree.LiesAt stands index := by
  induction trees generalizing first with
  | nil => exact absurd member List.not_mem_nil
  | cons next trees inductionHypothesis =>
      rcases row with ⟨lies, _, row⟩
      rcases List.mem_cons.mp member with rfl | later
      · exact ⟨first, Nat.le_refl _, row.le, lies⟩
      · rcases inductionHypothesis row later with ⟨index, after, before, lies⟩
        exact ⟨index, Nat.le_of_add_right_le after, before, lies⟩

theorem LieInRow.adjoin (row : LieInRow (store.index · = ·) trees first last) :
    trees.IsChain fun child next => (child.range store).stop = (next.range store).start := by
  induction trees generalizing first with
  | nil => exact .nil
  | cons tree trees inductionHypothesis =>
      rcases row with ⟨lies, _, row⟩
      cases trees with
      | nil => exact .singleton tree
      | cons next trees =>
          refine .cons_cons ?_ (inductionHypothesis row)
          rw [lies.range_eq, row.1.range_eq]

theorem LieInRow.positive (row : LieInRow stands trees first last) (member : tree ∈ trees.dropLast) :
    0 < tree.length := by
  induction trees generalizing first with
  | nil => exact absurd member List.not_mem_nil
  | cons next trees inductionHypothesis =>
      rcases row with ⟨_, positive, row⟩
      cases trees with
      | nil => exact absurd member List.not_mem_nil
      | cons _ _ =>
          rcases List.mem_cons.mp member with rfl | later
          · exact positive.resolve_left (List.cons_ne_nil _ _)
          · exact inductionHypothesis row later

theorem LiesAt.tiled (lies : tree.LiesAt (store.index · = ·) index) : tree.Tiled store := by
  rcases liesAt_iff.mp lies with ⟨start, stop, first, last, after, before, row⟩
  constructor
  · rw [lies.range_eq]
  · intro child member
    rcases row.inside member with ⟨own, after', before', lies'⟩
    rw [lies.range_eq, lies'.range_eq]
    exact ⟨Nat.le_trans after after', Nat.le_trans before' before⟩
  · exact row.adjoin
  · exact fun child member => row.positive member

mutual

theorem LiesAt.of_mem_preorder : ∀ {tree : Tree α κ} {index : Nat}, tree.LiesAt stands index →
    ∀ {depth : Nat} {found : Nat × Tree α κ}, found ∈ tree.preorder depth →
      ∃ own, found.2.LiesAt stands own
  | .node _ _ _, index, lies, _, _, member => by
    rw [preorder] at member
    rcases List.mem_cons.mp member with rfl | inside
    · exact ⟨index, lies⟩
    · rcases lies with ⟨_, _, _, _, _, _, row⟩
      exact LieInRow.of_mem_preorderAll row inside

theorem LieInRow.of_mem_preorderAll : ∀ {trees : List (Tree α κ)} {first last : Nat},
    LieInRow stands trees first last → ∀ {depth : Nat} {found : Nat × Tree α κ},
      found ∈ preorderAll depth trees → ∃ own, found.2.LiesAt stands own
  | [], _, _, _, _, _, member => absurd member List.not_mem_nil
  | _ :: _, _, _, ⟨lies, _, row⟩, _, _, member => by
    rw [preorderAll] at member
    rcases List.mem_append.mp member with first | later
    · exact LiesAt.of_mem_preorder lies first
    · exact LieInRow.of_mem_preorderAll row later

end

end Spans

end Tree

/-! ## Sessions -/

variable {V : Vocabulary}

/-- Cursors stand in the text of a site. -/
def Site.Points (site : Site) (store : Store) (cursor : Cursor) (index : Nat) : Prop :=
  cursor.StandsAt store site.rope.buffer site.shape index

namespace Session

/-- All kept nodes lie in the text. -/
def Lays (session : Session V) (site : Site) : Prop :=
  ∀ rule state entry, session.Holds rule state entry →
    ∃ index, entry.node.LiesAt (site.Points session.store) index

variable {session : Session V} {promise : Promise V} {site : Site} {place : Place} {index : Nat}

theorem Lays.fewer {other : Session V} (lays : session.Lays site)
    (sameStore : other.store = session.store)
    (fewer : ∀ rule state entry, other.Holds rule state entry →
      ∃ old, session.Holds rule state old ∧ old.node = entry.node) : other.Lays site := by
  intro rule state entry holds
  rcases fewer rule state entry holds with ⟨old, held, same⟩
  rw [sameStore, ← same]
  exact lays rule state old held

theorem Fulfils.seated (fulfils : session.Fulfils promise site.rope site.shape {}) :
    session.Seated := by
  refine ⟨fulfils.sound, fun rule state entry holds => ?_⟩
  rcases fulfils.kept rule state entry holds with
    ⟨startBuffer, stopBuffer, first, second, _, _, _, _, start, stop, _⟩
  exact ⟨stopBuffer.trans startBuffer.symm, ⟨first, start⟩, second, stop⟩

theorem Fulfils.rests (fulfils : session.Fulfils promise site.rope site.shape {})
    (stands : site.shape.Stands place index) : session.store.Rests ⟨site.rope.buffer, place⟩ :=
  fulfils.current.rests (fulfils.sound site.rope.buffer).formed stands

/-- A node that is used again lies where it was looked for. -/
theorem Lays.reuse (lays : session.Lays site)
    (current : (session.store.buffer site.rope.buffer).Current site.shape)
    (stands : site.shape.Stands place index) (rule : V.Rule) (key : StateKey V)
    (isStale : Range → Bool) :
    let outcome := session.reuse rule key ⟨site.rope.buffer, place⟩ isStale
    outcome.2.Lays site ∧ outcome.2.store = session.store ∧
      ∀ node stop, outcome.1 = some (node, stop) →
        node.LiesAt (site.Points outcome.2.store) index := by
  have cases := session.reuse_cases rule key ⟨site.rope.buffer, place⟩ isStale
  generalize session.reuse rule key ⟨site.rope.buffer, place⟩ isStale = outcome at cases ⊢
  rcases cases with ⟨memos, stats, consulted, held, rfl |
    ⟨state, entry, reused, _, holds, starts, _, rfl⟩⟩
  · exact ⟨lays.fewer rfl held, rfl, fun _ _ impossible => by cases impossible⟩
  · refine ⟨lays.fewer rfl held, rfl, fun node stop same => ?_⟩
    cases same
    rcases lays rule state entry holds with ⟨own, lies⟩
    have start : entry.node.start.StandsAt session.store site.rope.buffer site.shape own :=
      (Tree.liesAt_iff.mp lies).1
    exact (start.position_iff current stands).mp starts ▸ lies

/-- A node is made where its children lie in a row in it. -/
theorem Lays.keep (lays : session.Lays site)
    (fulfils : session.Fulfils promise site.rope site.shape {}) {last : Place} {length : Nat}
    (stands : site.shape.Stands place index) (stops : site.shape.Stands last (index + length))
    (rule : V.Rule) (key : StateKey V) (content : Content V.Label V.Skip)
    {front back : Nat} (after : index ≤ front) (before : back ≤ index + length)
    (row : Tree.LieInRow (site.Points session.store) content.children front back)
    (leading trailing : List V.Skip) :
    let made := session.keep rule key ⟨site.rope.buffer, place⟩ ⟨site.rope.buffer, last⟩ content
      leading trailing
    made.2.Lays site ∧ session.store.Keeps made.2.store ∧
      made.1.LiesAt (site.Points made.2.store) index := by
  intro made
  have enters : session.Enters made.2 rule key made.1 ⟨site.rope.buffer, place⟩
      ⟨site.rope.buffer, last⟩ content leading trailing :=
    fulfils.seated.keep_spec (fulfils.rests stands) (fulfils.rests stops) rfl rule key content
      leading trailing
  clear_value made
  have stays : ∀ cursor index, site.Points session.store cursor index →
      site.Points made.2.store cursor index := fun _ _ stands => stands.keeps enters.keeps
  have total : made.1.length = length := by
    have first : session.store.indexOf ⟨site.rope.buffer, place⟩ = index :=
      fulfils.current.indexOf stands.means
    have final : session.store.indexOf ⟨site.rope.buffer, last⟩ = index + length :=
      fulfils.current.indexOf stops.means
    rw [enters.length, first, final, Nat.add_sub_cancel_left]
  have lies : made.1.LiesAt (site.Points made.2.store) index := by
    rw [Tree.liesAt_iff, total, enters.children]
    exact ⟨⟨enters.start.1, place, enters.start.2, stands⟩,
      ⟨enters.stop.1, last, enters.stop.2, stops⟩, front, back, after, before, row.mono stays⟩
  refine ⟨fun rule' state entry holds => ?_, enters.keeps, lies⟩
  rcases enters.held rule' state entry holds with old | ⟨_, same, _⟩
  · rcases lays rule' state entry old with ⟨own, lies⟩
    exact ⟨own, lies.mono stays⟩
  · exact ⟨index, same ▸ lies⟩

end Session

end Reparse
