import Mathlib.Data.Set.Finite.List
import Mathlib.Data.Set.Finite.Lemmas
import Reparse.Parsing.Session

namespace Reparse

/-!
# Chains of spans

A sweep spares a node that starts inside of a span that was used again.  How far the node
may reach is told by chains.  Spans in the order of their starts make a chain if each one
after the first starts before the furthest end of those in front of it.  Spans that only
touch make no chain, and a span without text may stand alone between others or inside of
one.

What a sweep computes are the stretches that are covered by the longest chains, and it looks
only at the last stretch that starts no later than the node.  Both say one thing, which does
not mention any order: the node starts inside of a span, and each seam between two characters
inside of the node is inside of a span.
-/

namespace Session

/-! ## Chains -/

/-- Each span after the first starts before the furthest end of those in front of it. -/
def IsChain (chain : List Range) : Prop :=
  ∀ before range after, chain = before ++ range :: after → before ≠ [] →
    ∃ earlier ∈ before, range.start < earlier.stop

/-- Spans next to each other that make a chain, and make none with more spans on either side. -/
structure Longest (left chain right : List Range) : Prop where
  nonempty : chain ≠ []
  isChain : IsChain chain
  longest : ∀ more less, more <:+ left → less <+: right → IsChain (more ++ chain ++ less) →
    more = [] ∧ less = []

/-- A span starts inside of one of the given spans, and ends no later than the furthest end of the
longest chain that the given span is part of. -/
def Spares (ordered : List Range) (span : Range) : Prop :=
  ∃ left chain right, ordered = left ++ chain ++ right ∧ Longest left chain right ∧
    (∃ holder ∈ chain, holder.start ≤ span.start ∧ span.start < holder.stop) ∧
    ∃ widest ∈ chain, span.stop ≤ widest.stop

/-- A span starts inside of one of the given spans, and so is each seam in it between two
characters. -/
structure Seamless (spans : List Range) (span : Range) : Prop where
  starts : ∃ holder ∈ spans, holder.start ≤ span.start ∧ span.start < holder.stop
  seams : ∀ seam, span.start < seam → seam < span.stop →
    ∃ bridge ∈ spans, bridge.start < seam ∧ seam < bridge.stop

variable {chain left right ordered spans : List Range} {head span : Range}

theorem isChain_singleton (range : Range) : IsChain [range] := by
  intro before other after same someBefore
  cases before with
  | nil => exact absurd rfl someBefore
  | cons first before =>
      rw [List.cons_append, List.cons.injEq] at same
      exact absurd same.2.symm (List.append_ne_nil_of_right_ne_nil _ (List.cons_ne_nil _ _))

/-- Spans that all start before the end of a span make a chain with it. -/
theorem isChain_cons (inside : ∀ range ∈ chain, range.start < head.stop) :
    IsChain (head :: chain) := by
  intro before range after same someBefore
  cases before with
  | nil => exact absurd rfl someBefore
  | cons first before =>
      rw [List.cons_append, List.cons.injEq] at same
      rcases same with ⟨rfl, rfl⟩
      exact ⟨head, List.mem_cons_self,
        inside range (List.mem_append_right _ List.mem_cons_self)⟩

/-- A chain goes on with a span that starts before the end of one of its spans. -/
theorem IsChain.append (isChain : IsChain chain) {next : Range}
    (joins : ∃ earlier ∈ chain, next.start < earlier.stop) : IsChain (chain ++ [next]) := by
  intro before range after same someBefore
  rcases List.append_eq_append_iff.mp same with ⟨rest, prefixed, suffixed⟩ | ⟨rest, prefixed, suffixed⟩
  · cases rest with
    | nil =>
        rw [List.append_nil] at prefixed
        rw [List.nil_append, List.cons.injEq] at suffixed
        rw [prefixed, ← suffixed.1]
        exact joins
    | cons first rest =>
        rw [List.cons_append, List.cons.injEq] at suffixed
        exact absurd suffixed.2 (List.append_ne_nil_of_right_ne_nil _ (List.cons_ne_nil _ _)).symm
  · cases rest with
    | nil =>
        rw [List.append_nil] at prefixed
        rw [List.nil_append, List.cons.injEq] at suffixed
        rw [← prefixed, suffixed.1]
        exact joins
    | cons first rest =>
        rw [List.cons_append, List.cons.injEq] at suffixed
        rw [← suffixed.1] at prefixed
        exact isChain before range rest prefixed someBefore

/-- What holds of the first span of a chain, and goes from a span to those that start before its
end, holds of all spans of the chain. -/
theorem IsChain.induct (isChain : IsChain chain) (holds : Range → Prop)
    (first : ∀ range rest, chain = range :: rest → holds range)
    (step : ∀ earlier ∈ chain, ∀ range, holds earlier → range.start < earlier.stop → holds range) :
    ∀ range ∈ chain, holds range := by
  have upTo : ∀ before, before <+: chain → ∀ range ∈ before, holds range := by
    intro before
    induction before using List.reverseRecOn with
    | nil => exact fun _ range member => absurd member List.not_mem_nil
    | append_singleton before last inductionHypothesis =>
        intro prefixed range member
        have shorter : before <+: chain := (List.prefix_append _ _).trans prefixed
        rcases List.mem_append.mp member with earlier | isLast
        · exact inductionHypothesis shorter range earlier
        · rw [List.mem_singleton.mp isLast]
          rcases prefixed with ⟨after, same⟩
          rw [List.append_assoc, List.singleton_append] at same
          by_cases none : before = []
          · subst none
            exact first last after same.symm
          · rcases isChain before last after same.symm none with ⟨earlier, inside, joins⟩
            exact step earlier (shorter.subset inside) last
              (inductionHypothesis shorter earlier inside) joins
  exact upTo chain List.prefix_rfl

/-- Every chain is part of a longest one. -/
theorem exists_longest (left right : List Range) (isChain : IsChain chain) (nonempty : chain ≠ []) :
    ∃ left' longest right', left ++ chain ++ right = left' ++ longest ++ right' ∧
      Longest left' longest right' ∧ ∀ range ∈ chain, range ∈ longest := by
  induction size : left.length + right.length using Nat.strong_induction_on
    generalizing left chain right with
  | _ count inductionHypothesis =>
      by_cases longest : ∀ more less, more <:+ left → less <+: right →
          IsChain (more ++ chain ++ less) → more = [] ∧ less = []
      · exact ⟨left, chain, right, rfl, ⟨nonempty, isChain, longest⟩, fun _ member => member⟩
      · push Not at longest
        rcases longest with ⟨more, less, ⟨farLeft, rfl⟩, ⟨farRight, rfl⟩, longer, grown⟩
        have shorter : farLeft.length + farRight.length < count := by
          rw [← size, List.length_append, List.length_append]
          cases more with
          | nil =>
              have someLess := List.length_pos_iff.mpr (grown rfl)
              omega
          | cons first more =>
              rw [List.length_cons]
              omega
        have someChain : more ++ chain ++ less ≠ [] :=
          List.append_ne_nil_of_left_ne_nil (List.append_ne_nil_of_right_ne_nil _ nonempty) _
        rcases inductionHypothesis _ shorter farLeft farRight longer someChain rfl with
          ⟨left', longest, right', same, isLongest, members⟩
        refine ⟨left', longest, right', ?_, isLongest, fun range member => members range ?_⟩
        · rw [← same]
          simp only [List.append_assoc]
        · exact List.mem_append_left _ (List.mem_append_right _ member)

/-! ## Chains and seams -/

theorem exists_widest (nonempty : chain ≠ []) :
    ∃ widest ∈ chain, ∀ other ∈ chain, other.stop ≤ widest.stop :=
  Set.exists_max_image { range | range ∈ chain } Range.stop chain.finite_toSet
    (List.exists_mem_of_ne_nil chain nonempty)

/-- The first span of a chain starts no later than the others. -/
theorem start_head_le (sorted : chain.Pairwise fun first second => first.start ≤ second.start)
    {holder range : Range} {rest : List Range} (same : chain = range :: rest)
    (member : holder ∈ chain) : range.start ≤ holder.start := by
  subst same
  rcases List.mem_cons.mp member with rfl | later
  · exact Nat.le_refl _
  · exact (List.pairwise_cons.mp sorted).1 holder later

/-- A seam in front of the furthest end of a chain is inside of one of its spans, if it is behind
the start of one. -/
theorem IsChain.bridges (isChain : IsChain chain)
    (sorted : chain.Pairwise fun first second => first.start ≤ second.start)
    {holder widest : Range} (held : holder ∈ chain) (wide : widest ∈ chain) {seam : Nat}
    (behind : holder.start < seam) (before : seam < widest.stop) :
    ∃ bridge ∈ chain, bridge.start < seam ∧ seam < bridge.stop := by
  apply Classical.byContradiction
  intro none
  have ends : ∀ range ∈ chain, range.start < seam → range.stop ≤ seam := by
    intro range member starts
    apply Nat.le_of_not_lt
    intro inside
    exact none ⟨range, member, starts, inside⟩
  have starts : ∀ range ∈ chain, range.start < seam := by
    apply isChain.induct (·.start < seam)
    · intro range rest same
      exact Nat.lt_of_le_of_lt (start_head_le sorted same held) behind
    · intro earlier member range starts joins
      exact Nat.lt_of_lt_of_le joins (ends earlier member starts)
  exact absurd (ends widest wide (starts widest wide)) (Nat.not_le_of_lt before)

/-- No span reaches over the furthest end of a longest chain, from a seam behind the start of one of
its spans. -/
theorem Longest.ends (longest : Longest left chain right)
    (sorted : (left ++ chain ++ right).Pairwise fun first second => first.start ≤ second.start)
    {holder widest bridge : Range} (held : holder ∈ chain)
    (furthest : ∀ other ∈ chain, other.stop ≤ widest.stop) (wide : widest ∈ chain)
    (behind : holder.start < widest.stop) (member : bridge ∈ left ++ chain ++ right)
    (starts : bridge.start < widest.stop) : bridge.stop ≤ widest.stop := by
  apply Nat.le_of_not_lt
  intro reaches
  rcases List.pairwise_append.mp sorted with ⟨sortedFront, sortedRight, frontRight⟩
  rcases List.pairwise_append.mp sortedFront with ⟨sortedLeft, sortedChain, leftChain⟩
  rcases List.mem_append.mp member with inFront | inRight
  · rcases List.mem_append.mp inFront with inLeft | inChain
    · -- A span further left would make a longer chain.
      rcases List.append_of_mem inLeft with ⟨farLeft, between, rfl⟩
      have inside : ∀ range ∈ between ++ chain, range.start < bridge.stop := by
        intro range inside
        rcases List.mem_append.mp inside with isBetween | inChain
        · have early := leftChain range
            (List.mem_append_right _ (List.mem_cons_of_mem _ isBetween)) holder held
          omega
        · refine longest.isChain.induct (·.start < bridge.stop) ?_ ?_ range inChain
          · intro first rest same
            have early := start_head_le sortedChain same held
            omega
          · intro earlier isEarlier range _ joins
            have bound := furthest earlier isEarlier
            omega
      have longer : IsChain (bridge :: between ++ chain ++ []) := by
        rw [List.append_nil]
        exact isChain_cons inside
      have empty := (longest.longest (bridge :: between) [] (List.suffix_append _ _)
        List.nil_prefix longer).1
      cases empty
    · exact Nat.not_lt_of_le (furthest bridge inChain) reaches
  · -- The next span on the right starts no later, and would make a longer chain.
    cases right with
    | nil => cases inRight
    | cons next rest =>
        have early := start_head_le sortedRight rfl inRight
        have longer : IsChain ([] ++ chain ++ [next]) :=
          longest.isChain.append ⟨widest, wide, Nat.lt_of_le_of_lt early starts⟩
        have empty := (longest.longest [] [next] List.nil_suffix ⟨rest, rfl⟩ longer).2
        cases empty

/-- The longest chains, in whatever order spans of one start are put, spare what has no seam outside
of a span. -/
theorem spares_iff_seamless
    (sorted : ordered.Pairwise fun first second => first.start ≤ second.start) :
    Spares ordered span ↔ Seamless ordered span := by
  constructor
  · rintro ⟨left, chain, right, rfl, longest, ⟨holder, held, begins, inside⟩, widest, wide, ends⟩
    have sortedChain := (List.pairwise_append.mp (List.pairwise_append.mp sorted).1).2.1
    have within : ∀ range ∈ chain, range ∈ left ++ chain ++ right := fun range member =>
      List.mem_append_left _ (List.mem_append_right _ member)
    refine ⟨⟨holder, within holder held, begins, inside⟩, fun seam after before => ?_⟩
    rcases longest.isChain.bridges sortedChain held wide (Nat.lt_of_le_of_lt begins after)
      (Nat.lt_of_lt_of_le before ends) with ⟨bridge, member, around⟩
    exact ⟨bridge, within bridge member, around⟩
  · rintro ⟨⟨holder, member, begins, inside⟩, seams⟩
    rcases List.append_of_mem member with ⟨before, after, rfl⟩
    rcases exists_longest before after (isChain_singleton holder) (List.cons_ne_nil _ _) with
      ⟨left, chain, right, same, longest, members⟩
    rw [List.append_assoc, List.singleton_append] at same
    rw [same] at sorted seams ⊢
    have held := members holder List.mem_cons_self
    rcases exists_widest longest.nonempty with ⟨widest, wide, furthest⟩
    refine ⟨left, chain, right, rfl, longest, ⟨holder, held, begins, inside⟩, widest, wide, ?_⟩
    apply Nat.le_of_not_lt
    intro beyond
    have behind := Nat.lt_of_lt_of_le inside (furthest holder held)
    rcases seams widest.stop behind beyond with ⟨bridge, isSpan, starts, reaches⟩
    exact absurd (longest.ends sorted held furthest wide (Nat.lt_of_le_of_lt begins behind) isSpan
      starts) (Nat.not_le_of_lt reaches)

/-! ## Stretches -/

/-- A stretch begins with a span, and each character of it is inside of one.  Behind the start that
is a span which holds the character in front as well, so no seam of the stretch is left open. -/
structure Consists (spans : List Range) (stretch : Range) : Prop where
  begins : ∃ span ∈ spans, span.start = stretch.start
  covers : ∀ index, stretch.start ≤ index → index < stretch.stop →
    ∃ span ∈ spans, span.start ≤ index ∧ index < span.stop ∧
      (stretch.start < index → span.start < index)

/-- What stretches, from right to left, have to do with the spans that were joined to them. -/
structure Joined (spans stretches : List Range) : Prop where
  consists : ∀ stretch ∈ stretches, Consists spans stretch
  within : ∀ span ∈ spans, ∃ stretch ∈ stretches,
    stretch.start ≤ span.start ∧ span.stop ≤ stretch.stop
  apart : stretches.Pairwise fun later earlier =>
    earlier.start ≤ later.start ∧ earlier.stop ≤ later.start

variable {stretches done later earlier : List Range} {stretch range last : Range}

theorem Consists.mono {spans' : List Range} (consists : Consists spans stretch)
    (subset : spans ⊆ spans') : Consists spans' stretch := by
  constructor
  · rcases consists.begins with ⟨span, isSpan, begins⟩
    exact ⟨span, subset isSpan, begins⟩
  · intro index after before
    rcases consists.covers index after before with ⟨span, isSpan, covers⟩
    exact ⟨span, subset isSpan, covers⟩

/-- A span is a stretch on its own. -/
theorem Consists.single (isSpan : span ∈ spans) : Consists spans span :=
  ⟨⟨span, isSpan, rfl⟩, fun _ after before => ⟨span, isSpan, after, before, id⟩⟩

/-- A stretch goes on with a span that starts inside of it. -/
theorem Consists.widen (consists : Consists spans last) (isSpan : range ∈ spans)
    (overlaps : range.start < last.stop) :
    Consists spans ⟨last.start, max last.stop range.stop⟩ := by
  refine ⟨consists.begins, fun index after before => ?_⟩
  rcases Nat.lt_or_ge index last.stop with inLast | beyond
  · exact consists.covers index after inLast
  · have inRange : index < range.stop :=
      (lt_max_iff.mp before).resolve_left (Nat.not_lt_of_le beyond)
    have behind : range.start < index := Nat.lt_of_lt_of_le overlaps beyond
    exact ⟨range, isSpan, Nat.le_of_lt behind, inRange, fun _ => behind⟩

theorem joined_nil : Joined [] [] :=
  ⟨fun _ member => absurd member List.not_mem_nil, fun _ member => absurd member List.not_mem_nil,
    List.Pairwise.nil⟩

theorem Joined.congr {spans' : List Range} (joined : Joined spans stretches)
    (same : ∀ span, span ∈ spans ↔ span ∈ spans') : Joined spans' stretches := by
  constructor
  · intro stretch member
    exact (joined.consists stretch member).mono fun span => (same span).mp
  · intro span isSpan
    exact joined.within span ((same span).mpr isSpan)
  · exact joined.apart

theorem Joined.start_le (joined : Joined spans stretches)
    (behind : ∀ span ∈ spans, span.start ≤ range.start) (member : stretch ∈ stretches) :
    stretch.start ≤ range.start := by
  rcases (joined.consists stretch member).begins with ⟨span, isSpan, begins⟩
  rw [← begins]
  exact behind span isSpan

/-- A span that starts behind all stretches begins another one. -/
theorem Joined.push (joined : Joined spans stretches)
    (behind : ∀ stretch ∈ stretches, stretch.start ≤ range.start ∧ stretch.stop ≤ range.start) :
    Joined (range :: spans) (range :: stretches) := by
  constructor
  · intro stretch member
    rcases List.mem_cons.mp member with rfl | earlier
    · exact .single List.mem_cons_self
    · exact (joined.consists stretch earlier).mono (List.subset_cons_self _ _)
  · intro span member
    rcases List.mem_cons.mp member with rfl | isSpan
    · exact ⟨span, List.mem_cons_self, Nat.le_refl _, Nat.le_refl _⟩
    · rcases joined.within span isSpan with ⟨stretch, inside, covers⟩
      exact ⟨stretch, List.mem_cons_of_mem _ inside, covers⟩
  · exact List.pairwise_cons.mpr ⟨behind, joined.apart⟩

/-- A span that starts inside of the last stretch makes it wider. -/
theorem Joined.widen (joined : Joined spans (last :: done)) (begins : last.start ≤ range.start)
    (overlaps : range.start < last.stop) :
    Joined (range :: spans) (⟨last.start, max last.stop range.stop⟩ :: done) := by
  have older : ∀ stretch ∈ last :: done, Consists (range :: spans) stretch := fun stretch member =>
    (joined.consists stretch member).mono (List.subset_cons_self _ _)
  constructor
  · intro stretch member
    rcases List.mem_cons.mp member with rfl | earlier
    · exact (older last List.mem_cons_self).widen List.mem_cons_self overlaps
    · exact older stretch (List.mem_cons_of_mem _ earlier)
  · intro span member
    rcases List.mem_cons.mp member with rfl | isSpan
    · exact ⟨_, List.mem_cons_self, begins, Nat.le_max_right _ _⟩
    · rcases joined.within span isSpan with ⟨stretch, inside, starts, stops⟩
      rcases List.mem_cons.mp inside with rfl | earlier
      · exact ⟨_, List.mem_cons_self, starts, Nat.le_trans stops (Nat.le_max_left _ _)⟩
      · exact ⟨stretch, List.mem_cons_of_mem _ earlier, starts, stops⟩
  · exact List.pairwise_cons.mpr (List.pairwise_cons.mp joined.apart)

/-- One more span that starts no earlier than the others. -/
theorem Joined.joinRange (joined : Joined spans stretches)
    (behind : ∀ span ∈ spans, span.start ≤ range.start) :
    Joined (range :: spans) (joinRange stretches range) := by
  cases stretches with
  | nil => exact joined.push fun _ member => absurd member List.not_mem_nil
  | cons last done =>
      rw [Session.joinRange]
      split
      · next overlaps => exact joined.widen (joined.start_le behind List.mem_cons_self) overlaps
      · next touches =>
          -- The earlier stretches end before the last one starts.
          refine joined.push fun stretch member => ⟨joined.start_le behind member, ?_⟩
          rcases List.mem_cons.mp member with rfl | earlier
          · exact Nat.le_of_not_lt touches
          · exact Nat.le_trans ((List.pairwise_cons.mp joined.apart).1 stretch earlier).2
              (joined.start_le behind List.mem_cons_self)

theorem Joined.foldl {ranges : List Range} (joined : Joined spans stretches)
    (sorted : ranges.Pairwise fun first second => first.start ≤ second.start)
    (behind : ∀ span ∈ spans, ∀ range ∈ ranges, span.start ≤ range.start) :
    Joined (ranges.reverse ++ spans) (ranges.foldl Session.joinRange stretches) := by
  induction ranges generalizing spans stretches with
  | nil => exact joined
  | cons range ranges inductionHypothesis =>
      rcases List.pairwise_cons.mp sorted with ⟨least, rest⟩
      rw [List.reverse_cons, List.append_assoc, List.singleton_append, List.foldl_cons]
      apply inductionHypothesis
      · exact joined.joinRange fun span member => behind span member range List.mem_cons_self
      · exact rest
      · intro span member later isLater
        rcases List.mem_cons.mp member with rfl | isSpan
        · exact least later isLater
        · exact behind span isSpan later (List.mem_cons_of_mem _ isLater)

theorem sorted_rangeLe (ranges : List Range) :
    (sortBy rangeLe ranges).Pairwise fun first second => first.start ≤ second.start := by
  have meaning : ∀ first second : Range, rangeLe first second = true ↔
      first.start < second.start ∨ first.start = second.start ∧ first.stop ≤ second.stop := by
    intro first second
    simp only [rangeLe, Bool.or_eq_true, Bool.and_eq_true, decide_eq_true_eq]
  have sorted : (sortBy rangeLe ranges).Pairwise fun first second => rangeLe first second = true := by
    apply sortBy_sorted
    · intro first second
      rw [meaning, meaning]
      omega
    · intro first second third
      rw [meaning, meaning, meaning]
      omega
  refine sorted.imp fun before => ?_
  rw [meaning] at before
  omega

/-- The stretches of a sweep are what its spans are joined to. -/
theorem joined_covered (reused : List Range) : Joined reused (covered reused) := by
  have joined := joined_nil.foldl (sorted_rangeLe reused.reverse)
    fun _ member => absurd member List.not_mem_nil
  rw [List.append_nil] at joined
  refine joined.congr fun span => ?_
  rw [List.mem_reverse, (sortBy_perm rangeLe _).mem_iff, List.mem_reverse]

/-- Of the stretches around the last one that starts no later than an index, those on the right start
behind the index, and those on the left end in front of it. -/
theorem Joined.elsewhere (joined : Joined spans (later ++ stretch :: earlier)) {index : Nat}
    (starts : stretch.start ≤ index) (isLater : ∀ other ∈ later, index < other.start) :
    ∀ other ∈ later ++ stretch :: earlier, other = stretch ∨
      (index < other.start ∧ stretch.stop ≤ other.start) ∨ other.stop ≤ index := by
  rcases List.pairwise_append.mp joined.apart with ⟨_, apart, laterApart⟩
  intro other member
  rcases List.mem_append.mp member with inLater | inRest
  · exact Or.inr (Or.inl ⟨isLater other inLater,
      (laterApart other inLater stretch List.mem_cons_self).2⟩)
  · rcases List.mem_cons.mp inRest with same | inEarlier
    · exact Or.inl same
    · have ended := ((List.pairwise_cons.mp apart).1 other inEarlier).2
      exact Or.inr (Or.inr (Nat.le_trans ended starts))

/-- A stretch has no seam inside that no span is over. -/
theorem Consists.seamless (consists : Consists spans stretch) (starts : stretch.start ≤ span.start)
    (inside : span.start < stretch.stop) (ends : span.stop ≤ stretch.stop) : Seamless spans span := by
  constructor
  · rcases consists.covers span.start starts inside with ⟨holder, held, begins, around, _⟩
    exact ⟨holder, held, begins, around⟩
  · intro seam after before
    have behind : stretch.start < seam := Nat.lt_of_le_of_lt starts after
    rcases consists.covers seam (Nat.le_of_lt behind) (Nat.lt_of_lt_of_le before ends) with
      ⟨bridge, isSpan, _, around, strictly⟩
    exact ⟨bridge, isSpan, strictly behind, around⟩

/-- The last stretch that starts no later tells whether a span has a seam that no span is over. -/
theorem Joined.isCovered_iff (joined : Joined spans stretches) :
    isCovered stretches span = true ↔ Seamless spans span := by
  rw [isCovered]
  cases found : stretches.find? fun stretch => decide (stretch.start ≤ span.start) with
  | none =>
      refine iff_of_false Bool.false_ne_true fun seamless => ?_
      rcases seamless.starts with ⟨holder, held, begins, _⟩
      rcases joined.within holder held with ⟨stretch, member, starts, _⟩
      have late := List.find?_eq_none.mp found stretch member
      rw [decide_eq_true_eq] at late
      exact late (Nat.le_trans starts begins)
  | some stretch =>
      rcases List.find?_eq_some_iff_append.mp found with ⟨starts, later, earlier, rfl, isLater⟩
      rw [decide_eq_true_eq] at starts
      have behind : ∀ other ∈ later, span.start < other.start := by
        intro other inLater
        have late := isLater other inLater
        rw [Bool.not_eq_true', decide_eq_false_iff_not] at late
        exact Nat.lt_of_not_le late
      have elsewhere := joined.elsewhere starts behind
      simp only [Bool.and_eq_true, decide_eq_true_eq]
      constructor
      · rintro ⟨inside, ends⟩
        exact (joined.consists stretch (List.mem_append_right _ List.mem_cons_self)).seamless starts
          inside ends
      · rintro ⟨⟨holder, held, begins, around⟩, seams⟩
        have inside : span.start < stretch.stop := by
          rcases joined.within holder held with ⟨other, isOne, holds, reaches⟩
          rcases elsewhere other isOne with rfl | ⟨late, _⟩ | early
          · exact Nat.lt_of_lt_of_le around reaches
          · omega
          · omega
        refine ⟨inside, Nat.le_of_not_lt fun beyond => ?_⟩
        rcases seams stretch.stop inside beyond with ⟨bridge, isSpan, before, across⟩
        rcases joined.within bridge isSpan with ⟨other, isOne, holds, reaches⟩
        rcases elsewhere other isOne with rfl | ⟨_, late⟩ | early
        · omega
        · omega
        · omega

/-- What a sweep takes to be covered is what the longest chains spare. -/
theorem isCovered_iff_spares {reused : List Range} (same : ordered.Perm reused)
    (sorted : ordered.Pairwise fun first second => first.start ≤ second.start) :
    isCovered (covered reused) span = true ↔ Spares ordered span := by
  rw [((joined_covered reused).congr fun _ => same.mem_iff.symm).isCovered_iff,
    spares_iff_seamless sorted]

/-- A span that starts where another one ends belongs to what follows, and one without text that
stands inside of a chain does not end it. -/
example :
    let reused : List Range := [⟨3, 3⟩, ⟨5, 8⟩, ⟨2, 5⟩, ⟨0, 4⟩]
    covered reused = [⟨5, 8⟩, ⟨0, 5⟩] ∧ isCovered (covered reused) ⟨3, 5⟩ = true ∧
      isCovered (covered reused) ⟨5, 5⟩ = true ∧ isCovered (covered reused) ⟨4, 6⟩ = false := by
  decide

end Session

end Reparse
