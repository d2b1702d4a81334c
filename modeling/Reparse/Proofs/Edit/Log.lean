import Reparse.Edit.Log

namespace Reparse

/-!
# What the log knows of the text

An index that an edit does not remove moves with the text around it.  The log
follows such moves: where two indices stood close to a pending edit before a
further one, they still do afterwards, and they also do when the further edit
itself came close.  A span that the log does not report has therefore kept its
characters, those near by, and its distance to the ends of the text as far as
they are near.

Recording keeps this true range by range.  A range on the left stays, one on
the right is moved, and any other is covered by the range of the edit.
-/

/-! ## Indices under an edit -/

namespace Edit

/-- An index that the edit does not remove, and where it comes to stand. -/
def Moves (edit : Edit) (index moved : Nat) : Prop :=
  index ≤ edit.start ∧ moved = index ∨ edit.removedStop ≤ index ∧ moved = edit.shift index

/-- The edit lies more than a margin away from a span, which moves as a whole. -/
def Misses (edit : Edit) (margin : Nat) (span moved : Range) : Prop :=
  span.start ≤ span.stop ∧
    (span.stop + margin < edit.start ∧ moved = span ∨
      edit.removedStop + margin < span.start ∧
        moved = ⟨edit.shift span.start, edit.shift span.stop⟩)

/-- Both ends of a span that the edit misses lie apart from it. -/
theorem Misses.apart {edit : Edit} {margin : Nat} {span moved : Range}
    (misses : edit.Misses margin span moved) :
    (span.start < edit.start ∧ moved.start = span.start ∨
        edit.removedStop < span.start ∧ moved.start = edit.shift span.start) ∧
      (span.stop < edit.start ∧ moved.stop = span.stop ∨
        edit.removedStop < span.stop ∧ moved.stop = edit.shift span.stop) := by
  rcases misses with ⟨forward, ⟨left, rfl⟩ | ⟨right, rfl⟩⟩
  · exact ⟨Or.inl ⟨by omega, rfl⟩, Or.inl ⟨by omega, rfl⟩⟩
  · exact ⟨Or.inr ⟨by omega, rfl⟩, Or.inr ⟨by omega, rfl⟩⟩

/-! ## Recording -/

/-- What has become of an older range among the ranges of a log. -/
def Accounts (edit : Edit) (ranges : List Range) (range : Range) : Prop :=
  range.stop < edit.start ∧ range ∈ ranges ∨
    edit.removedStop < range.start ∧ ⟨edit.shift range.start, edit.shift range.stop⟩ ∈ ranges ∨
    ∃ merged ∈ ranges, merged.start ≤ min edit.start range.start ∧ edit.insertedStop ≤ merged.stop ∧
      (edit.removedStop < range.stop → edit.shift range.stop ≤ merged.stop)

/-- The range of the edit only grows, and no range that stands on its own is lost. -/
def Gathers (before after : List Range × Range) : Prop :=
  after.2.start ≤ before.2.start ∧ before.2.stop ≤ after.2.stop ∧
    ∀ range ∈ before.1, range ∈ after.1

theorem Gathers.trans {first second third : List Range × Range} (one : Gathers first second)
    (two : Gathers second third) : Gathers first third :=
  ⟨Nat.le_trans two.1 one.1, Nat.le_trans one.2.1 two.2.1,
    fun range member => two.2.2 range (one.2.2 range member)⟩

variable {edit : Edit}

theorem gathers_sift (edit : Edit) (state : List Range × Range) (range : Range) :
    Gathers state (edit.sift state range) := by
  rcases state with ⟨kept, merged⟩
  rw [sift]
  split
  · exact ⟨Nat.le_refl _, Nat.le_refl _, fun _ member => List.mem_cons_of_mem _ member⟩
  · split
    · exact ⟨Nat.le_refl _, Nat.le_refl _, fun _ member => List.mem_cons_of_mem _ member⟩
    · refine ⟨Nat.min_le_left _ _, ?_, fun _ member => member⟩
      simp only [swallow]
      split
      · exact Nat.le_max_left _ _
      · exact Nat.le_refl _

theorem gathers_foldl (edit : Edit) (ranges : List Range) (state : List Range × Range) :
    Gathers state (ranges.foldl edit.sift state) := by
  induction ranges generalizing state with
  | nil => exact ⟨Nat.le_refl _, Nat.le_refl _, fun _ member => member⟩
  | cons range ranges inductionHypothesis =>
      exact (gathers_sift edit state range).trans (inductionHypothesis (edit.sift state range))

/-- Sifting a range accounts for it, whatever is sifted later. -/
theorem accounts_of_gathers {state after : List Range × Range} {range : Range}
    (starts : state.2.start ≤ edit.start) (stops : edit.insertedStop ≤ state.2.stop)
    (gathers : Gathers (edit.sift state range) after) :
    edit.Accounts (after.2 :: after.1) range := by
  rcases state with ⟨kept, merged⟩
  rcases gathers with ⟨starts', stops', keeps⟩
  rw [sift] at starts' stops' keeps
  by_cases left : range.stop < edit.start
  · rw [if_pos left] at keeps
    exact Or.inl ⟨left, List.mem_cons_of_mem _ (keeps range List.mem_cons_self)⟩
  · by_cases right : edit.removedStop < range.start
    · rw [if_neg left, if_pos right] at keeps
      exact Or.inr (Or.inl ⟨right, List.mem_cons_of_mem _ (keeps _ List.mem_cons_self)⟩)
    · rw [if_neg left, if_neg right] at starts' stops'
      refine Or.inr (Or.inr ⟨after.2, List.mem_cons_self, ?_, ?_, ?_⟩)
      · simp only [swallow] at starts' starts
        omega
      · simp only [swallow] at stops' stops
        split at stops' <;> omega
      · intro beyond
        simp only [swallow, if_pos beyond] at stops'
        exact Nat.le_trans (Nat.le_max_right _ _) stops'

theorem accounts_foldl (edit : Edit) (ranges : List Range) (state : List Range × Range)
    (starts : state.2.start ≤ edit.start) (stops : edit.insertedStop ≤ state.2.stop) :
    ∀ range ∈ ranges,
      let after := ranges.foldl edit.sift state
      edit.Accounts (after.2 :: after.1) range := by
  induction ranges generalizing state with
  | nil => exact fun _ member => absurd member List.not_mem_nil
  | cons head ranges inductionHypothesis =>
      intro range member
      have step := gathers_sift edit state head
      rcases List.mem_cons.mp member with rfl | later
      · exact accounts_of_gathers starts stops (gathers_foldl edit ranges _)
      · exact inductionHypothesis _ (Nat.le_trans step.1 starts) (Nat.le_trans stops step.2.1) range
          later

end Edit

namespace EditLog

variable {log : EditLog} {edit : Edit} {margin : Nat} {span moved : Range}

theorem mem_record (log : EditLog) (edit : Edit) (range : Range) :
    let after := log.ranges.foldl edit.sift ([], ⟨edit.start, edit.insertedStop⟩)
    range ∈ (log.record edit).ranges ↔ range ∈ after.2 :: after.1 := by
  intro after
  rw [record]
  exact ((sortBy_perm _ _).mem_iff).trans List.mem_reverse

theorem record_accounts (log : EditLog) (edit : Edit) {range : Range} (member : range ∈ log.ranges) :
    edit.Accounts (log.record edit).ranges range := by
  have found := Edit.accounts_foldl edit log.ranges ([], ⟨edit.start, edit.insertedStop⟩)
    (Nat.le_refl _) (Nat.le_refl _) range member
  simp only [Edit.Accounts, mem_record] at found ⊢
  exact found

/-- The range of an edit is entered, or covered by what is entered. -/
theorem record_covers (log : EditLog) (edit : Edit) :
    ∃ range ∈ (log.record edit).ranges,
      range.start ≤ edit.start ∧ edit.insertedStop ≤ range.stop := by
  have gathers := Edit.gathers_foldl edit log.ranges
    ([], ⟨edit.start, edit.insertedStop⟩)
  exact ⟨_, (mem_record log edit _).mpr List.mem_cons_self, gathers.1, gathers.2.1⟩

/-! ## Spans that the log does not report -/

theorem overlaps_eq_false_iff : log.overlaps span margin = false ↔
    ∀ range ∈ log.ranges, span.stop + margin < range.start ∨ range.stop + margin < span.start := by
  rw [overlaps, List.any_eq_false]
  refine forall_congr' fun range => forall_congr' fun _ => ?_
  rw [Range.touches, Bool.and_eq_true, decide_eq_true_eq, decide_eq_true_eq]
  omega

/-- What lies inside of a span that the log does not report is not reported either. -/
theorem quiet_within {inner : Range} (quiet : log.overlaps span margin = false)
    (starts : span.start ≤ inner.start) (stops : inner.stop ≤ span.stop) :
    log.overlaps inner margin = false := by
  refine overlaps_eq_false_iff.mpr fun range member => ?_
  have away := overlaps_eq_false_iff.mp quiet range member
  omega

/-- A span that the log does not report after an edit was missed by the edit. -/
theorem misses_of_record (ordered : edit.start ≤ edit.removedStop)
    (startMoves : edit.Moves span.start moved.start) (stopMoves : edit.Moves span.stop moved.stop)
    (forward : moved.start ≤ moved.stop) (quiet : (log.record edit).overlaps moved margin = false) :
    edit.Misses margin span moved := by
  rcases record_covers log edit with ⟨range, member, starts, stops⟩
  have away := overlaps_eq_false_iff.mp quiet range member
  rcases span with ⟨start, stop⟩
  rcases moved with ⟨start', stop'⟩
  simp only [Edit.Moves, Edit.Misses, Edit.shift, Edit.insertedStop, Range.mk.injEq] at *
  omega

/-- A stretch that begins where an index has moved to, and that the log does not report after an
edit, was missed by the edit. -/
theorem misses_behind {index moved length : Nat} (ordered : edit.start ≤ edit.removedStop)
    (moves : edit.Moves index moved)
    (quiet : (log.record edit).overlaps ⟨moved, moved + length⟩ margin = false) :
    edit.Misses margin ⟨index, index + length⟩ ⟨moved, moved + length⟩ := by
  rcases record_covers log edit with ⟨range, member, starts, stops⟩
  have away := overlaps_eq_false_iff.mp quiet range member
  simp only [Edit.Moves, Edit.Misses, Edit.shift, Edit.insertedStop, Range.mk.injEq] at *
  omega

/-- Nor did the log report it before the edit. -/
theorem quiet_of_record (ordered : edit.start ≤ edit.removedStop)
    (misses : edit.Misses margin span moved)
    (quiet : (log.record edit).overlaps moved margin = false) : log.overlaps span margin = false := by
  refine overlaps_eq_false_iff.mpr fun range member => ?_
  have away := overlaps_eq_false_iff.mp quiet
  rcases span with ⟨start, stop⟩
  rcases moved with ⟨start', stop'⟩
  rcases record_accounts log edit member with ⟨left, kept⟩ | ⟨right, shifted⟩ | ⟨merged, inside, rest⟩
  · have known := away _ kept
    simp only [Edit.Misses, Edit.shift, Edit.insertedStop, Range.mk.injEq] at *
    omega
  · have known := away _ shifted
    simp only [Edit.Misses, Edit.shift, Edit.insertedStop, Range.mk.injEq] at *
    omega
  · have known := away _ inside
    simp only [Edit.Misses, Edit.shift, Edit.insertedStop, Range.mk.injEq] at *
    omega

end EditLog

end Reparse
