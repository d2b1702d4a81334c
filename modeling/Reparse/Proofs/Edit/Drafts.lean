import Mathlib.Data.List.Pairwise
import Reparse.Proofs.Edit.Log

namespace Reparse

/-!
# Drafts

A draft is a text with a log of its edits.  Each of its characters knows where
it stood in the text that the draft began with, unless an edit has inserted it.
The log knows nothing of the characters, and yet it tells them apart.

The ranges of the log stand in order, and something of the old text lies between
any two of them.  They hold the inserted characters and no others.  A span that
the log does not report, with all the characters up to one beyond the margin, is
a piece of the old text as it was.  Where the text ends before that, the old one
ended there too.
-/

/-! ## Ranges that stand apart -/

namespace Range

/-- The range holds the character at an index. -/
def Holds (range : Range) (index : Nat) : Prop := range.start ≤ index ∧ index < range.stop

/-- At least one character lies between two ranges. -/
def Apart (first second : Range) : Prop := first.stop < second.start ∨ second.stop < first.start

instance : Std.Symm Apart := ⟨fun _ _ => Or.symm⟩

end Range

namespace Edit

/-- What becomes of an older range that the edit does not touch. -/
def image (edit : Edit) (range : Range) : Option Range :=
  if range.stop < edit.start then some range
  else if edit.removedStop < range.start then
    some ⟨edit.shift range.start, edit.shift range.stop⟩
  else none

/-- The ends of a range come from the edit or from ranges that it touches. -/
structure Merges (edit : Edit) (ranges : List Range) (merged : Range) : Prop where
  start : merged.start = edit.start ∨
    ∃ range ∈ ranges, edit.image range = none ∧ merged.start = min edit.start range.start
  stop : merged.stop = edit.insertedStop ∨
    ∃ range ∈ ranges, edit.image range = none ∧ edit.removedStop < range.stop ∧
      merged.stop = edit.shift range.stop

variable {edit : Edit} {ranges : List Range} {merged : Range}

theorem image_eq_none {range : Range} :
    edit.image range = none ↔ edit.start ≤ range.stop ∧ range.start ≤ edit.removedStop := by
  rw [image]
  split
  · next left => simp [Nat.not_le_of_lt left]
  · next notLeft =>
      split
      · next right => simp [Nat.not_le_of_lt right]
      · next notRight => simp [Nat.le_of_not_lt notLeft, Nat.le_of_not_lt notRight]

/-- A range that the edit does not touch lies on one side of it. -/
theorem image_eq_some {range moved : Range} (found : edit.image range = some moved) :
    range.stop < edit.start ∧ moved = range ∨
      edit.removedStop < range.start ∧
        moved = ⟨edit.shift range.start, edit.shift range.stop⟩ := by
  rw [image] at found
  split at found
  · next left => exact Or.inl ⟨left, (Option.some.inj found).symm⟩
  · split at found
    · next right => exact Or.inr ⟨right, (Option.some.inj found).symm⟩
    · cases found

theorem sift_eq (edit : Edit) (kept : List Range) (merged range : Range) :
    edit.sift (kept, merged) range =
      match edit.image range with
      | some moved => (moved :: kept, merged)
      | none => (kept, edit.swallow merged range) := by
  rw [sift, image]
  split
  · rfl
  · split <;> rfl

theorem Merges.swallow (merges : edit.Merges ranges merged) {range : Range} (member : range ∈ ranges)
    (touched : edit.image range = none) : edit.Merges ranges (edit.swallow merged range) := by
  rcases merges with ⟨start, stop⟩
  constructor
  · -- The new start is one of the two that it is the least of.
    rcases Nat.le_total merged.start range.start with le | le
    · rw [Edit.swallow, Nat.min_eq_left le]
      exact start
    · refine Or.inr ⟨range, member, touched, ?_⟩
      simp only [Edit.swallow, Nat.min_eq_right le]
      rcases start with isStart | ⟨other, _, _, isStart⟩ <;> omega
  · rw [Edit.swallow]
    split
    · next beyond =>
        rcases Nat.le_total merged.stop (edit.shift range.stop) with le | le
        · exact Or.inr ⟨range, member, touched, beyond, Nat.max_eq_right le⟩
        · simp only [Nat.max_eq_left le]
          exact stop
    · exact stop

/-- Sifting ranges collects the images of those that are not touched, and merges the others. -/
theorem foldl_sift (edit : Edit) (all ranges kept : List Range) (merged : Range)
    (inside : ∀ range ∈ ranges, range ∈ all) (merges : edit.Merges all merged) :
    ∃ merged', ranges.foldl edit.sift (kept, merged) =
        ((ranges.filterMap edit.image).reverse ++ kept, merged') ∧ edit.Merges all merged' := by
  induction ranges generalizing kept merged with
  | nil => exact ⟨merged, rfl, merges⟩
  | cons range ranges inductionHypothesis =>
      have later : ∀ other ∈ ranges, other ∈ all :=
        fun other member => inside other (List.mem_cons_of_mem _ member)
      rw [List.foldl_cons, sift_eq, List.filterMap_cons]
      cases found : edit.image range with
      | none =>
          exact inductionHypothesis kept _ later
            (merges.swallow (inside range List.mem_cons_self) found)
      | some moved =>
          rcases inductionHypothesis (moved :: kept) merged later merges with ⟨merged', same, merges'⟩
          refine ⟨merged', ?_, merges'⟩
          rw [same, List.reverse_cons, List.append_assoc]
          rfl

/-- Images of ranges that stand apart do so as well. -/
theorem apart_image {first second moved moved' : Range}
    (forward : first.start ≤ first.stop) (forward' : second.start ≤ second.stop)
    (apart : first.Apart second) (isImage : edit.image first = some moved)
    (isImage' : edit.image second = some moved') : moved.Apart moved' := by
  rw [Range.Apart] at apart ⊢
  rcases image_eq_some isImage with ⟨left, rfl⟩ | ⟨right, rfl⟩
  · rcases image_eq_some isImage' with ⟨_, rfl⟩ | ⟨right', rfl⟩
    · exact apart
    · simp only [shift, insertedStop]
      omega
  · rcases image_eq_some isImage' with ⟨left', rfl⟩ | ⟨right', rfl⟩
    · simp only [shift, insertedStop]
      omega
    · simp only [shift]
      omega

theorem forward_image {range moved : Range} (forward : range.start ≤ range.stop)
    (isImage : edit.image range = some moved) : moved.start ≤ moved.stop := by
  rcases image_eq_some isImage with ⟨left, rfl⟩ | ⟨right, rfl⟩
  · exact forward
  · simp only [shift]
    omega

/-- What is merged stands apart from every image, since the ranges that were merged stood apart
from its range. -/
theorem Merges.apart (merges : edit.Merges ranges merged) {range moved : Range}
    (forward : range.start ≤ range.stop)
    (apart : ∀ other ∈ ranges, edit.image other = none → range.Apart other)
    (isImage : edit.image range = some moved) : moved.Apart merged := by
  rcases merges with ⟨start, stop⟩
  rcases image_eq_some isImage with ⟨left, rfl⟩ | ⟨right, rfl⟩
  · refine Or.inl ?_
    rcases start with isStart | ⟨other, member, touched, isStart⟩
    · omega
    · have touches := image_eq_none.mp touched
      rcases apart other member touched with before | after <;> omega
  · refine Or.inr ?_
    simp only [shift]
    rcases stop with isStop | ⟨other, member, touched, beyond, isStop⟩
    · omega
    · have touches := image_eq_none.mp touched
      rw [shift] at isStop
      rcases apart other member touched with before | after <;> omega

theorem Merges.forward (merges : edit.Merges ranges merged) : merged.start ≤ merged.stop := by
  rcases merges with ⟨start, stop⟩
  have low : merged.start ≤ edit.start := by
    rcases start with isStart | ⟨other, _, _, isStart⟩ <;> omega
  have high : edit.start ≤ merged.stop := by
    rcases stop with isStop | ⟨other, _, _, beyond, isStop⟩ <;>
      simp only [shift, insertedStop] at isStop <;> omega
  exact Nat.le_trans low high

end Edit

namespace EditLog

/-- The ranges are in order, and none touches the next one. -/
structure Separated (log : EditLog) : Prop where
  forward : ∀ range ∈ log.ranges, range.start ≤ range.stop
  apart : log.ranges.Pairwise fun first second => first.stop < second.start

/-- Some range holds the character at an index. -/
def Covers (log : EditLog) (index : Nat) : Prop := ∃ range ∈ log.ranges, range.Holds index

variable {log : EditLog} {edit : Edit}

/-- Recording keeps the images of the ranges that the edit does not touch, and adds one. -/
theorem record_perm (log : EditLog) (edit : Edit) :
    ∃ merged, (log.record edit).ranges.Perm (merged :: log.ranges.filterMap edit.image) ∧
      edit.Merges log.ranges merged := by
  rcases edit.foldl_sift log.ranges log.ranges [] ⟨edit.start, edit.insertedStop⟩
    (fun _ member => member) ⟨Or.inl rfl, Or.inl rfl⟩ with ⟨merged, same, merges⟩
  refine ⟨merged, ?_, merges⟩
  rw [record, same, List.append_nil]
  refine (sortBy_perm _ _).trans ((List.reverse_perm _).trans ?_)
  exact (List.reverse_perm _).cons merged

theorem record_sorted (log : EditLog) (edit : Edit) :
    (log.record edit).ranges.Pairwise fun first second => first.start ≤ second.start := by
  refine (sortBy_sorted (fun first second => ?_) (fun first second third => ?_) _).imp
    of_decide_eq_true
  · simpa using Nat.le_total first.start second.start
  · simpa using Nat.le_trans

theorem Separated.record (separated : log.Separated) (edit : Edit) :
    (log.record edit).Separated := by
  rcases separated with ⟨forward, apart⟩
  rcases log.record_perm edit with ⟨merged, perm, merges⟩
  have eachApart : log.ranges.Pairwise Range.Apart := apart.imp Or.inl
  have kept : ∀ range ∈ (log.record edit).ranges, range.start ≤ range.stop := by
    intro range member
    rcases List.mem_cons.mp (perm.mem_iff.mp member) with rfl | isImage
    · exact merges.forward
    · rcases List.mem_filterMap.mp isImage with ⟨older, member, isImage⟩
      exact Edit.forward_image (forward older member) isImage
  have stand : (merged :: log.ranges.filterMap edit.image).Pairwise Range.Apart := by
    refine List.pairwise_cons.mpr ⟨fun moved isImage => ?_, ?_⟩
    · rcases List.mem_filterMap.mp isImage with ⟨older, member, isImage⟩
      refine symm (merges.apart (forward older member) (fun other among touched => ?_) isImage)
      refine eachApart.forall member among ?_
      rintro rfl
      rw [touched] at isImage
      cases isImage
    · refine List.pairwise_filterMap.mpr (eachApart.imp_of_mem ?_)
      intro first second member member' apart moved isImage moved' isImage'
      exact Edit.apart_image (forward _ member) (forward _ member') apart isImage isImage'
  have standing := (perm.pairwise_iff fun apart => symm apart).mpr stand
  refine ⟨kept, (standing.and (log.record_sorted edit)).imp_of_mem ?_⟩
  rintro first second _ member ⟨apart, le⟩
  have forwards := kept second member
  rw [Range.Apart] at apart
  omega

/-- The log covers what the edit has inserted, and what it covered before on either side. -/
theorem covers_record (ordered : edit.start ≤ edit.removedStop) (index : Nat) :
    (log.record edit).Covers index ↔
      edit.start ≤ index ∧ index < edit.insertedStop ∨
        index < edit.start ∧ log.Covers index ∨
        edit.insertedStop ≤ index ∧ log.Covers (index - edit.insertedStop + edit.removedStop) := by
  constructor
  · rintro ⟨range, member, starts, stops⟩
    rcases log.record_perm edit with ⟨merged, perm, start, stop⟩
    rcases List.mem_cons.mp (perm.mem_iff.mp member) with rfl | isImage
    · -- Outside of the edit an end of the merged range is that of a range that was touched.
      by_cases before : index < edit.start
      · rcases start with isStart | ⟨older, member, touched, isStart⟩
        · omega
        · have touches := Edit.image_eq_none.mp touched
          exact Or.inr (Or.inl ⟨before, older, member, by omega, by omega⟩)
      · by_cases within : index < edit.insertedStop
        · exact Or.inl ⟨by omega, within⟩
        · rcases stop with isStop | ⟨older, member, touched, beyond, isStop⟩
          · omega
          · have touches := Edit.image_eq_none.mp touched
            rw [Edit.shift] at isStop
            exact Or.inr (Or.inr ⟨by omega, older, member, by omega, by omega⟩)
    · rcases List.mem_filterMap.mp isImage with ⟨older, isOlder, isImage⟩
      rcases Edit.image_eq_some isImage with ⟨left, rfl⟩ | ⟨right, rfl⟩
      · exact Or.inr (Or.inl ⟨by omega, range, isOlder, starts, stops⟩)
      · simp only [Edit.shift] at starts stops
        exact Or.inr (Or.inr ⟨by omega, older, isOlder, by omega, by omega⟩)
  · rintro (⟨starts, stops⟩ | ⟨before, older, member, starts, stops⟩ |
      ⟨after, older, member, starts, stops⟩)
    · rcases log.record_covers edit with ⟨range, member, low, high⟩
      exact ⟨range, member, by omega, by omega⟩
    · rcases log.record_accounts edit member with ⟨_, kept⟩ | ⟨right, _⟩ | ⟨merged, kept, low, high, _⟩
      · exact ⟨older, kept, starts, stops⟩
      · omega
      · simp only [Edit.insertedStop] at high
        exact ⟨merged, kept, by omega, by omega⟩
    · rcases log.record_accounts edit member with ⟨left, _⟩ | ⟨_, kept⟩ | ⟨merged, kept, low, high, ends⟩
      · omega
      · exact ⟨_, kept, by simp only [Edit.shift]; omega, by simp only [Edit.shift]; omega⟩
      · have far := ends (by omega)
        rw [Edit.shift] at far
        simp only [Edit.insertedStop] at *
        exact ⟨merged, kept, by omega, by omega⟩

/-- A span that the log does not report after an edit stood somewhere before it, and was not
reported there. -/
theorem exists_of_record (ordered : edit.start ≤ edit.removedStop) {margin : Nat} {moved : Range}
    (forward : moved.start ≤ moved.stop) (quiet : (log.record edit).overlaps moved margin = false) :
    ∃ span, edit.Misses margin span moved ∧ log.overlaps span margin = false := by
  rcases log.record_covers edit with ⟨range, member, starts, stops⟩
  have misses : ∃ span, edit.Misses margin span moved := by
    rcases overlaps_eq_false_iff.mp quiet range member with left | right
    · exact ⟨moved, forward, Or.inl ⟨by omega, rfl⟩⟩
    · refine ⟨⟨moved.start - edit.insertedStop + edit.removedStop,
        moved.stop - edit.insertedStop + edit.removedStop⟩, ?_, Or.inr ⟨?_, ?_⟩⟩
      · simp only
        omega
      · simp only
        omega
      · rcases moved with ⟨start, stop⟩
        simp only [Edit.shift, Range.mk.injEq] at *
        omega
  rcases misses with ⟨span, misses⟩
  exact ⟨span, misses, quiet_of_record ordered misses quiet⟩

end EditLog

/-! ## Drafts -/

/-- A character of an edited text, and where it stood in the text before all edits, unless an
edit has inserted it. -/
structure Mark where
  char : Char
  origin : Option Nat
deriving DecidableEq, Repr

namespace Mark

/-- The characters of a text that nobody has edited yet. -/
def original (text : List Char) : List Mark := text.mapIdx fun index char => ⟨char, some index⟩

/-- Characters that an edit inserts. -/
def inserted (text : List Char) : List Mark := text.map fun char => ⟨char, none⟩

end Mark

/-- An edited text, and the log of its edits. -/
structure Draft where
  text : List Mark
  log : EditLog
deriving DecidableEq, Repr

namespace Draft

def ofText (text : List Char) : Draft := ⟨Mark.original text, {}⟩

/-- Replace the characters from `start` up to `removedStop`, and record that. -/
def replace (draft : Draft) (start removedStop : Nat) (insertion : List Char) : Draft where
  text := draft.text.take start ++ Mark.inserted insertion ++ draft.text.drop removedStop
  log := draft.log.record ⟨start, removedStop, insertion.length⟩

/-- The drafts that edits make of a text. -/
inductive Reached (text : List Char) : Draft → Prop where
  | begin : Reached text (ofText text)
  | replace {draft : Draft} {start removedStop : Nat} (insertion : List Char)
      (reached : Reached text draft) (ordered : start ≤ removedStop)
      (within : removedStop ≤ draft.text.length) :
      Reached text (draft.replace start removedStop insertion)

/-- The characters of a span, with up to `reach` others on either side. -/
def around (marks : List Mark) (reach : Nat) (span : Range) : List Mark :=
  (marks.take (span.stop + reach)).drop (span.start - reach)

/-- Around a span the text is a piece of an older text.  Where the reach is cut off by an end of
the text, the older text ends there too. -/
def IsPieceOf (marks : List Mark) (reach : Nat) (span : Range) (older : List Mark) : Prop :=
  ∃ first last, first ≤ last ∧ last ≤ older.length ∧
    around marks reach span = (older.take last).drop first ∧
    (span.start < reach → first = 0) ∧
    (marks.length < span.stop + reach → last = older.length)

variable {text : List Char} {draft : Draft} {start removedStop : Nat}

theorem Reached.separated (reached : Reached text draft) : draft.log.Separated := by
  induction reached with
  | begin => exact ⟨fun _ member => absurd member List.not_mem_nil, List.Pairwise.nil⟩
  | replace insertion reached ordered within inductionHypothesis =>
      exact inductionHypothesis.record _

/-- The characters of an edited text, by where they stood before the edit. -/
theorem getElem?_replace (ordered : start ≤ removedStop) (within : removedStop ≤ draft.text.length)
    (insertion : List Char) (index : Nat) :
    (draft.replace start removedStop insertion).text[index]? =
      if index < start then draft.text[index]?
      else if index < start + insertion.length then (Mark.inserted insertion)[index - start]?
      else draft.text[index - (start + insertion.length) + removedStop]? := by
  have startLength : (draft.text.take start).length = start := by
    rw [List.length_take, Nat.min_eq_left (Nat.le_trans ordered within)]
  have insertedLength : (Mark.inserted insertion).length = insertion.length := List.length_map ..
  rw [replace, List.append_assoc, List.getElem?_append, startLength]
  split
  · next before => rw [List.getElem?_take_of_lt before]
  · rw [List.getElem?_append, insertedLength, List.getElem?_drop]
    split
    · next inside => rw [if_pos (by omega)]
    · next after =>
        rw [if_neg (by omega)]
        congr 1
        omega

/-- The log covers the characters that edits have inserted, and no others. -/
theorem Reached.covers_iff (reached : Reached text draft) {index : Nat} {mark : Mark}
    (found : draft.text[index]? = some mark) : draft.log.Covers index ↔ mark.origin = none := by
  induction reached generalizing index mark with
  | begin =>
      rw [ofText, Mark.original, List.getElem?_mapIdx] at found
      rcases Option.map_eq_some_iff.mp found with ⟨char, _, rfl⟩
      exact ⟨fun ⟨_, member, _⟩ => absurd member List.not_mem_nil, fun impossible => by cases impossible⟩
  | @replace draft start removedStop insertion reached ordered within inductionHypothesis =>
      rw [getElem?_replace ordered within] at found
      have covers_iff : (draft.log.record ⟨start, removedStop, insertion.length⟩).Covers index ↔ _ :=
        EditLog.covers_record ordered index
      refine covers_iff.trans ?_
      simp only [Edit.insertedStop]
      by_cases before : index < start
      · rw [if_pos before] at found
        rw [← inductionHypothesis found]
        exact ⟨by rintro (_ | ⟨_, covers⟩ | _) <;> first | exact covers | omega,
          fun covers => Or.inr (Or.inl ⟨before, covers⟩)⟩
      · rw [if_neg before] at found
        by_cases inside : index < start + insertion.length
        · rw [if_pos inside, Mark.inserted, List.getElem?_map] at found
          rcases Option.map_eq_some_iff.mp found with ⟨char, _, rfl⟩
          exact ⟨fun _ => rfl, fun _ => Or.inl ⟨Nat.le_of_not_lt before, inside⟩⟩
        · rw [if_neg inside] at found
          rw [← inductionHypothesis found]
          exact ⟨by rintro (_ | _ | ⟨_, covers⟩) <;> first | exact covers | omega,
            fun covers => Or.inr (Or.inr ⟨Nat.le_of_not_lt inside, covers⟩)⟩

theorem length_replace (ordered : start ≤ removedStop) (within : removedStop ≤ draft.text.length)
    (insertion : List Char) :
    (draft.replace start removedStop insertion).text.length + (removedStop - start) =
      draft.text.length + insertion.length := by
  simp only [replace, Mark.inserted, List.length_append, List.length_take, List.length_drop,
    List.length_map]
  omega

theorem getElem?_around (marks : List Mark) (reach : Nat) (span : Range) (index : Nat) :
    (around marks reach span)[index]? =
      if span.start - reach + index < span.stop + reach then marks[span.start - reach + index]?
      else none := by
  rw [around, List.getElem?_drop]
  split
  · next inside => rw [List.getElem?_take_of_lt inside]
  · next outside => exact List.getElem?_take_eq_none (Nat.le_of_not_lt outside)

/-- Around a span that an edit misses the text is what it was around the span before. -/
theorem around_replace (ordered : start ≤ removedStop) (within : removedStop ≤ draft.text.length)
    {insertion : List Char} {margin : Nat} {span moved : Range}
    (misses : Edit.Misses ⟨start, removedStop, insertion.length⟩ margin span moved) :
    around (draft.replace start removedStop insertion).text (margin + 1) moved =
      around draft.text (margin + 1) span := by
  refine List.ext_getElem? fun index => ?_
  rw [getElem?_around, getElem?_around, getElem?_replace ordered within]
  rcases misses with ⟨forward, ⟨left, rfl⟩ | ⟨right, becomes⟩⟩
  · split
    · next inside =>
        simp only at left
        rw [if_pos (by omega)]
    · rfl
  · have movedStart : moved.start = span.start - removedStop + (start + insertion.length) :=
      congrArg Range.start becomes
    have movedStop : moved.stop = span.stop - removedStop + (start + insertion.length) :=
      congrArg Range.stop becomes
    simp only at right
    by_cases inside : span.start - (margin + 1) + index < span.stop + (margin + 1)
    · rw [if_pos inside, if_pos (by omega), if_neg (by omega), if_neg (by omega)]
      congr 1
      omega
    · rw [if_neg inside, if_neg (by omega)]

/-- An edit that misses a span leaves it a piece of the older text. -/
theorem IsPieceOf.replace {older : List Mark} {margin : Nat} {span moved : Range}
    {insertion : List Char} (ordered : start ≤ removedStop)
    (within : removedStop ≤ draft.text.length)
    (misses : Edit.Misses ⟨start, removedStop, insertion.length⟩ margin span moved)
    (piece : IsPieceOf draft.text (margin + 1) span older) :
    IsPieceOf (draft.replace start removedStop insertion).text (margin + 1) moved older := by
  rcases piece with ⟨first, last, forward, inside, same, atStart, atEnd⟩
  have length := length_replace ordered within insertion
  refine ⟨first, last, forward, inside, (around_replace ordered within misses).trans same, ?_, ?_⟩
  all_goals
    intro cut
    rcases misses with ⟨forward, ⟨left, rfl⟩ | ⟨right, rfl⟩⟩
  · exact atStart cut
  · simp only [Edit.shift, Edit.insertedStop] at right cut
    omega
  · simp only at left
    omega
  · simp only [Edit.shift, Edit.insertedStop] at right cut
    exact atEnd (by omega)

/-- Around any span a text that nobody has edited is a piece of itself. -/
theorem isPieceOf_self (marks : List Mark) (reach : Nat) {span : Range}
    (forward : span.start ≤ span.stop) : IsPieceOf marks reach span marks := by
  refine ⟨min (span.start - reach) marks.length, min (span.stop + reach) marks.length,
    by omega, Nat.min_le_right _ _, ?_, by omega, by omega⟩
  refine List.ext_getElem? fun index => ?_
  rw [getElem?_around, List.getElem?_drop, List.getElem?_take]
  by_cases inside : span.start - reach + index < marks.length
  · rw [Nat.min_eq_left (by omega)]
    by_cases near : span.start - reach + index < span.stop + reach
    · rw [if_pos near, if_pos (by omega)]
    · rw [if_neg near, if_neg (by omega)]
  · rw [List.getElem?_eq_none (Nat.le_of_not_lt inside), ite_self, if_neg (by omega)]

theorem Reached.isPieceOf (reached : Reached text draft) {margin : Nat} {span : Range}
    (forward : span.start ≤ span.stop) (quiet : draft.log.overlaps span margin = false) :
    IsPieceOf draft.text (margin + 1) span (Mark.original text) := by
  induction reached generalizing span with
  | begin => exact isPieceOf_self _ _ forward
  | replace insertion reached ordered within inductionHypothesis =>
      rcases EditLog.exists_of_record ordered forward quiet with ⟨older, misses, quietBefore⟩
      exact (inductionHypothesis misses.1 quietBefore).replace ordered within misses

/-- After any edits the log has its ranges in order and apart, holds the inserted characters and
no others, and reports every span that is no longer what it was with its surroundings. -/
theorem log_describes_text (reached : Reached text draft) :
    draft.log.Separated ∧
      (∀ index mark, draft.text[index]? = some mark →
        (draft.log.Covers index ↔ mark.origin = none)) ∧
      ∀ span margin, span.start ≤ span.stop → draft.log.overlaps span margin = false →
        IsPieceOf draft.text (margin + 1) span (Mark.original text) :=
  ⟨reached.separated, fun _ _ found => reached.covers_iff found,
    fun _ _ forward quiet => reached.isPieceOf forward quiet⟩

/-- Two edits, the second one in front of the first, and a span between them. -/
theorem log_describes_two_edits :
    let text := "abcdefgh".toList
    let draft := ((ofText text).replace 6 7 "x".toList).replace 1 2 "yz".toList
    Reached text draft ∧ draft.log.Separated ∧
      draft.text[7]? = some ⟨'x', none⟩ ∧ draft.log.Covers 7 ∧
      draft.text[8]? = some ⟨'h', some 7⟩ ∧ ¬draft.log.Covers 8 ∧
      draft.log.overlaps ⟨4, 5⟩ 0 = false ∧
      IsPieceOf draft.text 1 ⟨4, 5⟩ (Mark.original text) := by
  intro text draft
  have reached : Reached text draft :=
    .replace _ (.replace _ .begin (by decide) (by decide)) (by decide) (by decide)
  rcases log_describes_text reached with ⟨separated, covers, quiet⟩
  have uncovered : ¬draft.log.Covers 8 := by
    intro covered
    cases (covers 8 ⟨'h', some 7⟩ rfl).mp covered
  exact ⟨reached, separated, rfl, (covers 7 ⟨'x', none⟩ rfl).mpr rfl, rfl, uncovered, by decide,
    quiet ⟨4, 5⟩ 0 (by decide) (by decide)⟩

end Draft

end Reparse
