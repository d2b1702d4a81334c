import Reparse.Proofs.Rope.Change

/-!
# Anchors are where their leaves list them

A split of a leaf moves the anchors that the list of the leaf names, and no
others.  An anchor that its leaf does not list would lose its character.  The
invariant of this module says that it never happens: every anchor in use sits at
a legal offset of a leaf, and is in the list of that leaf.  The lists may name
other anchors besides, and tidying may drop those.

Slots that wait to be used again are released ones, each waiting once.
Otherwise a new anchor could take the slot of one in use.
-/

namespace Reparse

/-! ## Lists -/

theorem mem_eraseRepsBy_loop (element : AnchorId) (rest : List AnchorId) (current : AnchorId)
    (done : List AnchorId) (member : element = current ∨ element ∈ rest ∨ element ∈ done) :
    element ∈ List.eraseRepsBy.loop (· == ·) current rest done := by
  induction rest generalizing current done with
  | nil =>
      rw [List.eraseRepsBy.loop, List.mem_reverse, List.mem_cons]
      rcases member with same | impossible | kept
      · exact Or.inl same
      · cases impossible
      · exact Or.inr kept
  | cons head tail inductionHypothesis =>
      rw [List.eraseRepsBy.loop]
      cases repeated : current == head with
      | true =>
          have same := eq_of_beq repeated
          apply inductionHypothesis
          rw [List.mem_cons] at member
          rcases member with isCurrent | (isHead | later) | kept
          · exact Or.inl isCurrent
          · exact Or.inl (isHead.trans same.symm)
          · exact Or.inr (Or.inl later)
          · exact Or.inr (Or.inr kept)
      | false =>
          apply inductionHypothesis
          rw [List.mem_cons] at member ⊢
          rcases member with isCurrent | (isHead | later) | kept
          · exact Or.inr (Or.inr (Or.inl isCurrent))
          · exact Or.inl isHead
          · exact Or.inr (Or.inl later)
          · exact Or.inr (Or.inr (Or.inr kept))

/-- Dropping repetitions loses no element. -/
theorem mem_eraseReps {element : AnchorId} {elements : List AnchorId} (member : element ∈ elements) :
    element ∈ elements.eraseReps := by
  cases elements with
  | nil => cases member
  | cons head tail =>
      rw [List.mem_cons] at member
      exact mem_eraseRepsBy_loop element tail head [] (member.imp_right Or.inl)

namespace AnchorList

theorem mem_ids_push (list : AnchorList) (anchor other : AnchorId) :
    other ∈ (list.push anchor).ids ↔ other ∈ list.ids ∨ other = anchor := by
  rw [push, Array.mem_push]

/-- Tidying keeps every anchor that still sits on the leaf. -/
theorem mem_ids_tidy {list : AnchorList} {sitsHere : AnchorId → Bool} {anchor : AnchorId}
    (member : anchor ∈ list.ids) (sits : sitsHere anchor = true) :
    anchor ∈ (list.tidy sitsHere).ids := by
  rw [tidy, List.mem_toArray, List.mem_filter]
  refine ⟨mem_eraseReps ?_, sits⟩
  rw [(sortBy_perm _ _).mem_iff, Array.mem_toList_iff]
  exact member

theorem mem_ids_attach_self (list : AnchorList) (sitsHere : AnchorId → Bool) (anchor : AnchorId) :
    anchor ∈ (list.attach sitsHere anchor).ids := by
  rw [attach]
  split <;> exact (mem_ids_push _ anchor anchor).mpr (Or.inr rfl)

theorem mem_ids_attach {list : AnchorList} {sitsHere : AnchorId → Bool} {other : AnchorId}
    (member : other ∈ list.ids) (sits : sitsHere other = true) (anchor : AnchorId) :
    other ∈ (list.attach sitsHere anchor).ids := by
  rw [attach]
  split
  · exact (mem_ids_push _ anchor other).mpr (Or.inl (mem_ids_tidy member sits))
  · exact (mem_ids_push _ anchor other).mpr (Or.inl member)

end AnchorList

/-! ## Operations on anchors -/

namespace Buffer

/-- The trees of two buffers are the same, and only anchors may differ. -/
structure SameTrees (first second : Buffer) : Prop where
  view : ∀ node, second.view node = first.view node
  parent : ∀ node, second.parent node = first.parent node

theorem SameTrees.refl (buffer : Buffer) : buffer.SameTrees buffer :=
  ⟨fun _ => rfl, fun _ => rfl⟩

theorem SameTrees.trans {first second third : Buffer} (one : first.SameTrees second)
    (two : second.SameTrees third) : first.SameTrees third :=
  ⟨fun node => (two.view node).trans (one.view node),
    fun node => (two.parent node).trans (one.parent node)⟩

theorem SameTrees.symm {first second : Buffer} (same : first.SameTrees second) :
    second.SameTrees first :=
  ⟨fun node => (same.view node).symm, fun node => (same.parent node).symm⟩

theorem SameTrees.extends_ {first second : Buffer} (same : first.SameTrees second) :
    first.Extends second :=
  fun node _ found => (same.view node).trans found

theorem SameTrees.wellFormed {first second : Buffer} (same : first.SameTrees second)
    (formed : first.WellFormed) : second.WellFormed :=
  formed.congr same.view same.parent

variable (buffer : Buffer)

/-- The buffer with a slot of the table written. -/
def assign (anchor : AnchorId) (place : Option Place) : Buffer :=
  { buffer with anchors := buffer.anchors.setIfInBounds anchor place }

theorem anchor?_assign {anchor : AnchorId} (within : anchor < buffer.anchors.size)
    (place : Option Place) (other : AnchorId) :
    (buffer.assign anchor place).anchor? other =
      if other = anchor then place else buffer.anchor? other := by
  rw [anchor?, assign, Array.getElem?_setIfInBounds]
  by_cases same : other = anchor
  · rw [if_pos same.symm, if_pos within, if_pos same]
    rfl
  · rw [if_neg (Ne.symm same), if_neg same, anchor?]

variable {buffer}

theorem lt_size_of_anchor? {anchor : AnchorId} {place : Place}
    (sits : buffer.anchor? anchor = some place) : anchor < buffer.anchors.size := by
  rcases Nat.lt_or_ge anchor buffer.anchors.size with within | beyond
  · exact within
  · rw [anchor?, Array.getElem?_eq_none beyond] at sits
    cases sits

/-- A leaf, and an offset that its text has or ends at. -/
def HasPlace (buffer : Buffer) (place : Place) : Prop :=
  ∃ text : Array Char, buffer.view place.leaf = some (.leaf text none {}) ∧ place.offset ≤ text.size

theorem HasPlace.mono {first second : Buffer} (grown : first.Extends second) {place : Place}
    (has : first.HasPlace place) : second.HasPlace place := by
  rcases has with ⟨text, found, within⟩
  exact ⟨text, grown _ _ found, within⟩

theorem sameTrees_attach (leaf : NodeId) (anchor : AnchorId) :
    buffer.SameTrees (buffer.attach leaf anchor) :=
  ⟨fun node => view_modifyAnchors buffer leaf node _, fun node => parent_modifyAnchors buffer leaf node _⟩

theorem mem_listed_attach_self {place : Place} (has : buffer.HasPlace place) (anchor : AnchorId) :
    anchor ∈ (buffer.attach place.leaf anchor).listed place.leaf := by
  rcases has with ⟨text, found, _⟩
  rcases buffer.listed_modifyAnchors_self found with ⟨list, _, after⟩
  rw [attach, after]
  exact list.mem_ids_attach_self _ anchor

theorem mem_listed_attach {other : AnchorId} {place : Place}
    (sits : buffer.anchor? other = some place) (has : buffer.HasPlace place)
    (member : other ∈ buffer.listed place.leaf) (leaf : NodeId) (anchor : AnchorId) :
    other ∈ (buffer.attach leaf anchor).listed place.leaf := by
  by_cases same : place.leaf = leaf
  · rcases has with ⟨text, found, _⟩
    rcases buffer.listed_modifyAnchors_self found with ⟨list, before, after⟩
    rw [attach, ← same, after]
    refine AnchorList.mem_ids_attach (before ▸ member) ?_ anchor
    rw [anchor?] at sits
    rw [sits, Option.any_some, beq_self_eq_true]
  · rw [attach, listed_modifyAnchors_ne _ same]
    exact member

/-- Every anchor in use sits in a leaf that lists it, and slots wait at most once. -/
structure Seated (buffer : Buffer) : Prop where
  placed : ∀ anchor place, buffer.anchor? anchor = some place → buffer.HasPlace place
  listed : ∀ anchor place, buffer.anchor? anchor = some place → anchor ∈ buffer.listed place.leaf
  vacant : ∀ anchor, anchor ∈ buffer.free →
    anchor < buffer.anchors.size ∧ buffer.anchor? anchor = none
  distinct : buffer.free.Nodup

theorem Seated.empty : Seated {} := by
  constructor
  · intro anchor place sits
    cases sits
  · intro anchor place sits
    cases sits
  · intro anchor waiting
    cases waiting
  · exact List.nodup_nil

/-- Operations that leave anchors and lists alone keep the invariant. -/
theorem Seated.grow {other : Buffer} (seated : buffer.Seated) (grown : buffer.Extends other)
    (anchors : other.anchors = buffer.anchors) (free : other.free = buffer.free)
    (lists : ∀ node, other.listed node = buffer.listed node) : other.Seated := by
  have same : ∀ anchor, other.anchor? anchor = buffer.anchor? anchor := by
    intro anchor
    rw [anchor?, anchor?, anchors]
  constructor
  · intro anchor place sits
    rw [same] at sits
    exact (seated.placed anchor place sits).mono grown
  · intro anchor place sits
    rw [same] at sits
    rw [lists]
    exact seated.listed anchor place sits
  · intro anchor waiting
    rw [free] at waiting
    rw [same, anchors]
    exact seated.vacant anchor waiting
  · rw [free]
    exact seated.distinct

theorem Seated.addLeaf (seated : buffer.Seated) (text : Array Char) :
    (buffer.addLeaf text).2.Seated :=
  seated.grow (buffer.extends_addLeaf text) rfl rfl (buffer.listed_addLeaf text)

theorem Seated.setParent (seated : buffer.Seated) (node : NodeId) (parent : Option NodeId) :
    (buffer.setParent node parent).Seated :=
  seated.grow (buffer.extends_setParent node parent) rfl rfl
    (fun other => buffer.listed_setParent node other parent)

theorem Seated.addBranch (seated : buffer.Seated) (left right : NodeId) :
    (buffer.addBranch left right).2.Seated :=
  seated.grow (buffer.extends_addBranch left right) rfl rfl (buffer.listed_addBranch left right)

/-- Writing a slot and entering it in its leaf keeps the invariant.  The other
conditions concern the free slots of the new buffer. -/
theorem Seated.seat (seated : buffer.Seated) {seatedBuffer : Buffer} {anchor : AnchorId}
    {place : Place} (has : buffer.HasPlace place) (nodes : seatedBuffer.nodes = buffer.nodes)
    (anchors : ∀ other, seatedBuffer.anchor? other =
      if other = anchor then some place else buffer.anchor? other)
    (vacant : ∀ other, other ∈ seatedBuffer.free →
      other < seatedBuffer.anchors.size ∧ seatedBuffer.anchor? other = none)
    (distinct : seatedBuffer.free.Nodup) :
    (seatedBuffer.attach place.leaf anchor).Seated := by
  have views : ∀ node, seatedBuffer.view node = buffer.view node := by
    intro node
    rw [view, nodes, view]
  have grown : buffer.Extends (seatedBuffer.attach place.leaf anchor) :=
    fun node content found =>
      (sameTrees_attach place.leaf anchor).extends_ node content ((views node).trans found)
  have stays : ∀ {other}, seatedBuffer.HasPlace other ↔ buffer.HasPlace other := by
    intro other
    simp only [HasPlace, views]
  constructor
  · intro other where_ sits
    have found : seatedBuffer.anchor? other = some where_ := sits
    rw [anchors] at found
    split at found
    · cases found
      exact has.mono grown
    · exact (seated.placed other where_ found).mono grown
  · intro other where_ sits
    have found : seatedBuffer.anchor? other = some where_ := sits
    by_cases same : other = anchor
    · rw [anchors, if_pos same] at found
      cases found
      subst same
      exact mem_listed_attach_self (stays.mpr has) other
    · have old := found
      rw [anchors, if_neg same] at old
      refine mem_listed_attach found (stays.mpr (seated.placed other where_ old)) ?_ _ _
      rw [Buffer.listed, nodes]
      exact seated.listed other where_ old
  · exact vacant
  · exact distinct

/-! ## Making an anchor -/

theorem sameTrees_addAnchor (place : Place) : buffer.SameTrees (buffer.addAnchor place).2 := by
  rw [addAnchor]
  split
  · exact ⟨(sameTrees_attach _ _).view, (sameTrees_attach _ _).parent⟩
  · exact ⟨(sameTrees_attach _ _).view, (sameTrees_attach _ _).parent⟩

/-- A new anchor takes a slot that was not in use, and no other anchor changes. -/
theorem anchor?_addAnchor (seated : buffer.Seated) (place : Place) :
    buffer.anchor? (buffer.addAnchor place).1 = none ∧
      ∀ other, (buffer.addAnchor place).2.anchor? other =
        if other = (buffer.addAnchor place).1 then some place else buffer.anchor? other := by
  rw [addAnchor]
  cases waiting : buffer.free with
  | cons anchor free =>
      have vacancy := seated.vacant anchor (by rw [waiting]; exact List.mem_cons_self)
      exact ⟨vacancy.2, fun other => buffer.anchor?_assign vacancy.1 (some place) other⟩
  | nil =>
      refine ⟨?_, fun other => ?_⟩
      · rw [anchor?, Array.getElem?_eq_none (Nat.le_refl _)]
        rfl
      · change (buffer.anchors.push (some place))[other]?.join = _
        rw [Array.getElem?_push]
        split <;> rfl

theorem Seated.addAnchor (seated : buffer.Seated) {place : Place} (has : buffer.HasPlace place) :
    (buffer.addAnchor place).2.Seated := by
  have fresh := anchor?_addAnchor seated place
  revert fresh
  rw [Buffer.addAnchor]
  cases waiting : buffer.free with
  | cons anchor free =>
      intro fresh
      have parts := List.nodup_cons.mp (waiting ▸ seated.distinct)
      refine seated.seat has rfl fresh.2 ?_ parts.2
      intro other member
      have vacancy := seated.vacant other (by rw [waiting]; exact List.mem_cons_of_mem _ member)
      refine ⟨?_, ?_⟩
      · rw [Array.size_setIfInBounds]
        exact vacancy.1
      · refine (fresh.2 other).trans ?_
        rw [if_neg (fun same : other = anchor => parts.1 (same ▸ member))]
        exact vacancy.2
  | nil =>
      intro fresh
      refine seated.seat has rfl fresh.2 ?_ List.nodup_nil
      intro other member
      cases member

/-! ## Moving an anchor -/

theorem sameTrees_moveAnchor (anchor : AnchorId) (place : Place) :
    buffer.SameTrees (buffer.moveAnchor anchor place) := by
  rw [moveAnchor]
  split
  · exact ⟨fun _ => rfl, fun _ => rfl⟩
  · exact ⟨(sameTrees_attach _ _).view, (sameTrees_attach _ _).parent⟩

theorem anchor?_moveAnchor {anchor : AnchorId} (within : anchor < buffer.anchors.size)
    (place : Place) (other : AnchorId) :
    (buffer.moveAnchor anchor place).anchor? other =
      if other = anchor then some place else buffer.anchor? other := by
  rw [moveAnchor]
  split
  · exact buffer.anchor?_assign within (some place) other
  · exact buffer.anchor?_assign within (some place) other

theorem Seated.moveAnchor (seated : buffer.Seated) {anchor : AnchorId} {old place : Place}
    (sits : buffer.anchor? anchor = some old) (has : buffer.HasPlace place) :
    (buffer.moveAnchor anchor place).Seated := by
  have within := lt_size_of_anchor? sits
  have after := buffer.anchor?_assign within (some place)
  have vacant : ∀ other, other ∈ (buffer.assign anchor (some place)).free →
      other < (buffer.assign anchor (some place)).anchors.size ∧
        (buffer.assign anchor (some place)).anchor? other = none := by
    intro other waiting
    have vacancy := seated.vacant other waiting
    refine ⟨Nat.lt_of_lt_of_eq vacancy.1 (Array.size_setIfInBounds).symm, ?_⟩
    rw [after, if_neg]
    · exact vacancy.2
    · intro same
      rw [same, sits] at vacancy
      cases vacancy.2
  rw [Buffer.moveAnchor]
  split
  · -- The leaf is the old one, which lists the anchor already.
    next sameLeaf =>
      rw [sits, Option.map_some, Option.some_inj] at sameLeaf
      constructor
      · intro other where_ found
        have moved := (after other).symm.trans found
        split at moved
        · cases moved
          exact has
        · exact seated.placed other where_ moved
      · intro other where_ found
        have moved := (after other).symm.trans found
        split at moved
        · next same =>
            cases moved
            rw [same, ← sameLeaf]
            exact seated.listed anchor old sits
        · exact seated.listed other where_ moved
      · exact vacant
      · exact seated.distinct
  · exact seated.seat has rfl after vacant seated.distinct

/-! ## Releasing an anchor -/

theorem sameTrees_releaseAnchor (anchor : AnchorId) :
    buffer.SameTrees (buffer.releaseAnchor anchor) := by
  rw [releaseAnchor]
  split <;> exact ⟨fun _ => rfl, fun _ => rfl⟩

theorem anchor?_releaseAnchor (anchor other : AnchorId) :
    (buffer.releaseAnchor anchor).anchor? other =
      if other = anchor then none else buffer.anchor? other := by
  rw [releaseAnchor]
  split
  · next place sits => exact buffer.anchor?_assign (lt_size_of_anchor? sits) none other
  · next vacancy =>
      by_cases same : other = anchor
      · rw [if_pos same, same]
        exact vacancy
      · rw [if_neg same]

theorem Seated.releaseAnchor (seated : buffer.Seated) (anchor : AnchorId) :
    (buffer.releaseAnchor anchor).Seated := by
  have after := buffer.anchor?_releaseAnchor anchor
  have sameTrees := buffer.sameTrees_releaseAnchor anchor
  have lists : ∀ node, (buffer.releaseAnchor anchor).listed node = buffer.listed node := by
    intro node
    rw [Buffer.releaseAnchor]
    split <;> rfl
  constructor
  · intro other place sits
    rw [after] at sits
    split at sits
    · cases sits
    · exact (seated.placed other place sits).mono sameTrees.extends_
  · intro other place sits
    rw [after] at sits
    rw [lists]
    split at sits
    · cases sits
    · exact seated.listed other place sits
  · intro other waiting
    rw [after]
    revert waiting
    rw [Buffer.releaseAnchor]
    cases sits : buffer.anchor? anchor with
    | none =>
        intro waiting
        have vacancy := seated.vacant other waiting
        rw [vacancy.2, ite_self]
        exact ⟨vacancy.1, rfl⟩
    | some place =>
        intro waiting
        refine ⟨?_, ?_⟩
        · rw [Array.size_setIfInBounds]
          rcases List.mem_cons.mp waiting with same | member
          · exact same ▸ lt_size_of_anchor? sits
          · exact (seated.vacant other member).1
        · rcases List.mem_cons.mp waiting with same | member
          · rw [if_pos same]
          · split
            · rfl
            · exact (seated.vacant other member).2
  · rw [Buffer.releaseAnchor]
    cases sits : buffer.anchor? anchor with
    | none => exact seated.distinct
    | some place =>
        refine List.nodup_cons.mpr ⟨fun waiting => ?_, seated.distinct⟩
        rw [(seated.vacant anchor waiting).2] at sits
        cases sits

end Buffer

end Reparse
