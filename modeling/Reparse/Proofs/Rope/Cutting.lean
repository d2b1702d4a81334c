import Reparse.Proofs.Rope.Seating

/-!
# Cutting a leaf in two

A leaf is cut into two halves, which are new leaves.  The anchors that its list names are
looked up one after another.  Those that sit in the leaf are moved to the half that now holds
their character, and entered in its list.  The others are passed over, and so is an anchor that
is named again after it was moved.
-/

namespace Reparse

/-! ## Halves of a leaf -/

/-- Where a place goes when a leaf is cut: to one of the halves, which are numbered
one after the other. -/
def Place.afterCut (leaf : NodeId) (cut : Nat) (left : NodeId) (place : Place) : Place :=
  if place.leaf = leaf then
    if place.offset < cut then ⟨left, place.offset⟩ else ⟨left + 1, place.offset - cut⟩
  else place

theorem Place.afterCut_of_ne {leaf : NodeId} {place : Place} (different : place.leaf ≠ leaf)
    (cut : Nat) (left : NodeId) : place.afterCut leaf cut left = place := by
  rw [afterCut, if_neg different]

theorem Place.leaf_afterCut {leaf : NodeId} {place : Place} (same : place.leaf = leaf)
    (cut : Nat) (left : NodeId) :
    (place.afterCut leaf cut left).leaf = left ∨ (place.afterCut leaf cut left).leaf = left + 1 := by
  rw [afterCut, if_pos same]
  split
  · exact Or.inl rfl
  · exact Or.inr rfl

namespace Buffer

variable {buffer : Buffer}

section Reseating

variable {leaf left : NodeId} {cut : Nat} {leftText rightText : Array Char}

/-- An anchor of the leaf is moved to its half, entered there and counted, and any other anchor
is passed over. -/
theorem reseat_cases (leaf : NodeId) (cut : Nat) (left : NodeId) (moved : Nat) (buffer : Buffer)
    (anchor : AnchorId) :
    (reseat leaf cut left (left + 1) (moved, buffer) anchor = (moved, buffer) ∧
      ∀ place, buffer.anchor? anchor = some place → place.leaf ≠ leaf) ∨
    ∃ place, buffer.anchor? anchor = some place ∧ place.leaf = leaf ∧
      reseat leaf cut left (left + 1) (moved, buffer) anchor =
        (moved + 1, (buffer.assign anchor (some (place.afterCut leaf cut left))).modifyAnchors
          (place.afterCut leaf cut left).leaf (·.push anchor)) := by
  cases sits : buffer.anchor? anchor with
  | none =>
      refine Or.inl ⟨by simp only [reseat, sits], fun place found => ?_⟩
      cases found
  | some place =>
      by_cases here : place.leaf = leaf
      · have target : (if place.offset < cut then (⟨left, place.offset⟩ : Place)
            else ⟨left + 1, place.offset - cut⟩) = place.afterCut leaf cut left := by
          rw [Place.afterCut, if_pos here]
        exact Or.inr ⟨place, rfl, here, by simp only [reseat, sits, if_pos here, target, assign]⟩
      · refine Or.inl ⟨by simp only [reseat, sits, if_neg here], fun other found => ?_⟩
        cases found
        exact here

theorem sameTrees_reseat (leaf : NodeId) (cut : Nat) (left : NodeId) (moved : Nat)
    (buffer : Buffer) (anchor : AnchorId) :
    buffer.SameTrees (reseat leaf cut left (left + 1) (moved, buffer) anchor).2 := by
  rcases reseat_cases leaf cut left moved buffer anchor with ⟨stays, _⟩ | ⟨place, _, _, moves⟩
  · rw [stays]
    exact SameTrees.refl buffer
  · rw [moves]
    exact ⟨fun node => view_modifyAnchors _ _ node _, fun node => parent_modifyAnchors _ _ node _⟩

/-- A place is taken to a leaf, where both halves are leaves. -/
theorem view_leaf_afterCut (leftFound : buffer.view left = some (.leaf leftText none {}))
    (rightFound : buffer.view (left + 1) = some (.leaf rightText none {})) {place : Place}
    (here : place.leaf = leaf) :
    ∃ text, buffer.view (place.afterCut leaf cut left).leaf = some (.leaf text none {}) := by
  rcases Place.leaf_afterCut here cut left with isLeft | isRight
  · exact ⟨leftText, by rw [isLeft]; exact leftFound⟩
  · exact ⟨rightText, by rw [isRight]; exact rightFound⟩

/-- Reseating one anchor moves it to its half, and enters it there. -/
theorem reseat_spec (leftFound : buffer.view left = some (.leaf leftText none {}))
    (rightFound : buffer.view (left + 1) = some (.leaf rightText none {})) (moved : Nat)
    (anchor : AnchorId) :
    let after := (reseat leaf cut left (left + 1) (moved, buffer) anchor).2
    after.anchors.size = buffer.anchors.size ∧ after.free = buffer.free ∧
      (∀ other, after.anchor? other =
        if other = anchor then (buffer.anchor? anchor).map (Place.afterCut leaf cut left)
        else buffer.anchor? other) ∧
      (∀ node, ∀ other ∈ buffer.listed node, other ∈ after.listed node) ∧
      (∀ place, buffer.anchor? anchor = some place → place.leaf = leaf →
        anchor ∈ after.listed (place.afterCut leaf cut left).leaf) := by
  intro after
  rcases reseat_cases leaf cut left moved buffer anchor with
    ⟨stays, elsewhere⟩ | ⟨place, sits, here, moves⟩
  · have stays : after = buffer := congrArg Prod.snd stays
    rw [stays]
    refine ⟨rfl, rfl, fun other => ?_, fun _ _ member => member,
      fun place found same => absurd same (elsewhere place found)⟩
    split
    · next same =>
        rw [same]
        cases sits : buffer.anchor? anchor with
        | none => rfl
        | some place => rw [Option.map_some, Place.afterCut_of_ne (elsewhere place sits)]
    · rfl
  · have becomes : after = (buffer.assign anchor (some (place.afterCut leaf cut left))).modifyAnchors
        (place.afterCut leaf cut left).leaf (·.push anchor) := congrArg Prod.snd moves
    have within := lt_size_of_anchor? sits
    rcases view_leaf_afterCut leftFound rightFound here with ⟨text, found⟩
    rcases (buffer.assign anchor (some (place.afterCut leaf cut left))).listed_modifyAnchors_self
      found with ⟨list, before, pushed⟩
    rw [becomes]
    refine ⟨Array.size_setIfInBounds, rfl, ?_, ?_, ?_⟩
    · intro other
      rw [anchor?_modifyAnchors, anchor?_assign _ within, sits, Option.map_some]
    · intro node other member
      by_cases same : node = (place.afterCut leaf cut left).leaf
      · rw [same, pushed]
        exact (AnchorList.mem_ids_push list anchor other).mpr (Or.inl (before ▸ same ▸ member))
      · rw [listed_modifyAnchors_ne _ same]
        exact member
    · intro other found _
      cases sits.symm.trans found
      rw [pushed]
      exact (AnchorList.mem_ids_push list anchor anchor).mpr (Or.inr rfl)

/-- Reseating a list of anchors moves those of the list, also where one is named twice. -/
theorem foldl_reseat_spec (cut : Nat) (ids : List AnchorId) (leftDifferent : left ≠ leaf)
    (rightDifferent : left + 1 ≠ leaf) (start : Nat × Buffer)
    (leftFound : start.2.view left = some (.leaf leftText none {}))
    (rightFound : start.2.view (left + 1) = some (.leaf rightText none {})) :
    let after := (ids.foldl (reseat leaf cut left (left + 1)) start).2
    start.2.SameTrees after ∧ after.anchors.size = start.2.anchors.size ∧
      after.free = start.2.free ∧
      (∀ other, after.anchor? other =
        if other ∈ ids then (start.2.anchor? other).map (Place.afterCut leaf cut left)
        else start.2.anchor? other) ∧
      (∀ node, ∀ other ∈ start.2.listed node, other ∈ after.listed node) ∧
      (∀ other ∈ ids, ∀ place, start.2.anchor? other = some place → place.leaf = leaf →
        other ∈ after.listed (place.afterCut leaf cut left).leaf) := by
  have settled : ∀ place : Place, (place.afterCut leaf cut left).afterCut leaf cut left =
      place.afterCut leaf cut left := by
    intro place
    by_cases here : place.leaf = leaf
    · refine Place.afterCut_of_ne ?_ cut left
      rcases Place.leaf_afterCut here cut left with isLeft | isRight
      · rw [isLeft]
        exact leftDifferent
      · rw [isRight]
        exact rightDifferent
    · rw [Place.afterCut_of_ne here, Place.afterCut_of_ne here]
  induction ids generalizing start with
  | nil =>
      refine ⟨SameTrees.refl _, rfl, rfl, fun other => ?_, fun _ _ member => member, ?_⟩
      · rw [if_neg List.not_mem_nil]
        rfl
      · intro other member
        cases member
  | cons head tail inductionHypothesis =>
      rcases start with ⟨moved, buffer⟩
      have trees := sameTrees_reseat leaf cut left moved buffer head
      rcases reseat_spec leftFound rightFound moved head with
        ⟨size, free, anchors, lists, entered⟩
      have rest := inductionHypothesis (reseat leaf cut left (left + 1) (moved, buffer) head)
        ((trees.view left).trans leftFound) ((trees.view (left + 1)).trans rightFound)
      rcases rest with ⟨laterTrees, laterSize, laterFree, laterAnchors, laterLists, laterEntered⟩
      refine ⟨trees.trans laterTrees, laterSize.trans size, laterFree.trans free, ?_, ?_, ?_⟩
      · intro other
        rw [List.foldl_cons, laterAnchors, anchors]
        by_cases same : other = head
        · subst same
          rw [if_pos rfl, if_pos List.mem_cons_self, Option.map_map]
          have twice : Place.afterCut leaf cut left ∘ Place.afterCut leaf cut left =
              Place.afterCut leaf cut left := funext settled
          rw [twice, ite_self]
        · rw [if_neg same]
          simp only [List.mem_cons, same, false_or]
      · intro node other member
        exact laterLists node other (lists node other member)
      · intro other member place sits here
        rcases List.mem_cons.mp member with same | later
        · subst same
          exact laterLists _ other (entered place sits here)
        · by_cases same : other = head
          · subst same
            exact laterLists _ other (entered place sits here)
          · refine laterEntered other later place ?_ here
            rw [anchors, if_neg same]
            exact sits

end Reseating

/-! ## Cutting a leaf -/

section Halving

variable {leaf : NodeId} {text : Array Char} {cut : Nat}

/-- The buffer with the two halves of a leaf, before any anchor is moved to them. -/
def halve (buffer : Buffer) (leaf : NodeId) (text : Array Char) (cut : Nat) : Buffer :=
  (((buffer.modifyAnchors leaf fun _ => {}).addLeaf (text.extract 0 cut)).2.addLeaf
    (text.extract cut text.size)).2

@[simp] theorem nodeCount_halve (buffer : Buffer) (leaf : NodeId) (text : Array Char) (cut : Nat) :
    (buffer.halve leaf text cut).nodeCount = buffer.nodeCount + 2 := by
  rw [halve, nodeCount_addLeaf, nodeCount_addLeaf, nodeCount_modifyAnchors]

theorem view_halve (buffer : Buffer) (leaf : NodeId) (text : Array Char) (cut : Nat)
    (node : NodeId) :
    (buffer.halve leaf text cut).view node =
      if node = buffer.nodeCount + 1 then some (.leaf (text.extract cut text.size) none {})
      else if node = buffer.nodeCount then some (.leaf (text.extract 0 cut) none {})
      else buffer.view node := by
  rw [halve, view_addLeaf, view_addLeaf, view_modifyAnchors, nodeCount_addLeaf,
    nodeCount_modifyAnchors]

theorem view_halve_left (buffer : Buffer) (leaf : NodeId) (text : Array Char) (cut : Nat) :
    (buffer.halve leaf text cut).view buffer.nodeCount =
      some (.leaf (text.extract 0 cut) none {}) := by
  rw [view_halve, if_neg (Nat.ne_of_lt (Nat.lt_succ_self _)), if_pos rfl]

theorem view_halve_right (buffer : Buffer) (leaf : NodeId) (text : Array Char) (cut : Nat) :
    (buffer.halve leaf text cut).view (buffer.nodeCount + 1) =
      some (.leaf (text.extract cut text.size) none {}) := by
  rw [view_halve, if_pos rfl]

theorem extends_halve (buffer : Buffer) (leaf : NodeId) (text : Array Char) (cut : Nat) :
    buffer.Extends (buffer.halve leaf text cut) := by
  intro node content known
  have below := lt_nodeCount_of_view known
  rw [view_halve, if_neg (Nat.ne_of_lt (Nat.lt_succ_of_lt below)), if_neg (Nat.ne_of_lt below)]
  exact known

@[simp] theorem parent_halve (buffer : Buffer) (leaf : NodeId) (text : Array Char) (cut : Nat)
    (node : NodeId) : (buffer.halve leaf text cut).parent node = buffer.parent node := by
  rw [halve, parent_addLeaf, parent_addLeaf, parent_modifyAnchors]

theorem listed_halve_ne (buffer : Buffer) (text : Array Char) (cut : Nat) {node : NodeId}
    (different : node ≠ leaf) :
    (buffer.halve leaf text cut).listed node = buffer.listed node := by
  rw [halve, listed_addLeaf, listed_addLeaf, listed_modifyAnchors_ne _ different]

/-- The buffer with the anchors of a leaf moved to its halves, and the number of those that
were moved. -/
def rehouse (buffer : Buffer) (leaf : NodeId) (text : Array Char) (cut : Nat) : Nat × Buffer :=
  (buffer.listed leaf).toList.foldl (reseat leaf cut buffer.nodeCount (buffer.nodeCount + 1))
    (0, buffer.halve leaf text cut)

/-- A leaf is halved, and then the anchors of its list are moved to the halves. -/
theorem splitLeaf_eq (found : buffer.view leaf = some (.leaf text none {})) (cut : Nat) :
    buffer.splitLeaf leaf cut = ((buffer.nodeCount, buffer.nodeCount + 1),
      { (buffer.rehouse leaf text cut).2 with
        revision := if (buffer.rehouse leaf text cut).1 = 0 then
            (buffer.rehouse leaf text cut).2.revision
          else (buffer.rehouse leaf text cut).2.revision + 1 }) := by
  rcases view_eq_leaf_iff.mp found with ⟨parent, anchors, stored⟩
  have ids : buffer.listed leaf = anchors.ids := by
    rw [listed, stored]
    rfl
  let emptied := buffer.modifyAnchors leaf fun _ => {}
  let withLeft := (emptied.addLeaf (text.extract 0 cut)).2
  have first : emptied.addLeaf (text.extract 0 cut) = (buffer.nodeCount, withLeft) :=
    Prod.ext (nodeCount_modifyAnchors buffer leaf _) rfl
  have second : withLeft.addLeaf (text.extract cut text.size) =
      (buffer.nodeCount + 1, buffer.halve leaf text cut) := by
    refine Prod.ext ?_ rfl
    rw [fst_addLeaf, nodeCount_addLeaf, nodeCount_modifyAnchors]
  simp only [splitLeaf, stored, rehouse, ids]
  rw [← Array.foldl_toList]
  simp only [emptied] at first
  simp only [first, second]

/-- What is not a leaf is not cut. -/
theorem splitLeaf_cases (buffer : Buffer) (leaf : NodeId) :
    (∃ text, buffer.view leaf = some (.leaf text none {})) ∨
      ∀ cut, buffer.splitLeaf leaf cut = ((leaf, leaf), buffer) := by
  cases stored : buffer.nodes[leaf]? with
  | none => exact Or.inr fun cut => by simp only [splitLeaf, stored]
  | some content =>
      cases content with
      | leaf text parent anchors =>
          exact Or.inl ⟨text, view_eq_leaf_iff.mpr ⟨parent, anchors, stored⟩⟩
      | branch left right leftLength length parent =>
          exact Or.inr fun cut => by simp only [splitLeaf, stored]

end Halving

/-- What cutting a leaf does.  Its two halves are new, and the anchors that sat in it
are in the halves. -/
structure LeafCut (before after : Buffer) (leaf : NodeId) (text : Array Char) (cut : Nat) : Prop where
  count : after.nodeCount = before.nodeCount + 2
  grown : before.Extends after
  left : after.view before.nodeCount = some (.leaf (text.extract 0 cut) none {})
  right : after.view (before.nodeCount + 1) = some (.leaf (text.extract cut text.size) none {})
  parent : ∀ node, after.parent node = before.parent node
  anchor : ∀ anchor, after.anchor? anchor =
    (before.anchor? anchor).map (Place.afterCut leaf cut before.nodeCount)
  seated : after.Seated

theorem splitLeaf_spec (seated : buffer.Seated) {leaf : NodeId} {text : Array Char}
    (found : buffer.view leaf = some (.leaf text none {})) (cut : Nat) :
    (buffer.splitLeaf leaf cut).1 = (buffer.nodeCount, buffer.nodeCount + 1) ∧
      buffer.LeafCut (buffer.splitLeaf leaf cut).2 leaf text cut := by
  have old := lt_nodeCount_of_view found
  have moved := foldl_reseat_spec cut (buffer.listed leaf).toList (Nat.ne_of_lt old).symm
    (Nat.ne_of_lt (Nat.lt_succ_of_lt old)).symm (0, buffer.halve leaf text cut)
    (buffer.view_halve_left leaf text cut) (buffer.view_halve_right leaf text cut)
  rw [buffer.splitLeaf_eq found cut]
  refine ⟨rfl, ?_⟩
  rw [← rehouse] at moved
  generalize buffer.rehouse leaf text cut = folded at moved ⊢
  rcases moved with ⟨trees, size, free, positions, kept, entered⟩
  have grown := (buffer.extends_halve leaf text cut).trans trees.extends_
  have left := (trees.view _).trans (buffer.view_halve_left leaf text cut)
  have right := (trees.view _).trans (buffer.view_halve_right leaf text cut)
  have enters : ∀ {anchor place}, buffer.anchor? anchor = some place → place.leaf = leaf →
      anchor ∈ (buffer.listed leaf).toList := by
    intro anchor place sits here
    rw [Array.mem_toList_iff, ← here]
    exact seated.listed anchor place sits
  have anchorsMoved : ∀ anchor, folded.2.anchor? anchor =
      (buffer.anchor? anchor).map (Place.afterCut leaf cut buffer.nodeCount) := by
    intro anchor
    rw [positions]
    split
    · rfl
    · next unlisted =>
        cases sits : buffer.anchor? anchor with
        | none => exact sits
        | some place =>
            rw [Option.map_some, Place.afterCut_of_ne fun here => unlisted (enters sits here)]
            exact sits
  refine ⟨?_, grown, left, right, fun node => ?_, anchorsMoved, ?_, ?_, ?_, ?_⟩
  · rw [← nodeCount_halve buffer leaf text cut]
    exact Nat.le_antisymm trees.symm.extends_.nodeCount_le trees.extends_.nodeCount_le
  · exact (trees.parent node).trans (buffer.parent_halve leaf text cut node)
  · intro anchor place sits
    have moved := (anchorsMoved anchor).symm.trans sits
    rw [Option.map_eq_some_iff] at moved
    rcases moved with ⟨before, sat, rfl⟩
    rcases seated.placed anchor before sat with ⟨ownText, ownFound, ownWithin⟩
    by_cases here : before.leaf = leaf
    · cases (here ▸ ownFound).symm.trans found
      rw [Place.afterCut, if_pos here]
      by_cases inLeft : before.offset < cut
      · rw [if_pos inLeft]
        refine ⟨_, left, ?_⟩
        rw [Array.size_extract]
        simp only
        omega
      · rw [if_neg inLeft]
        refine ⟨_, right, ?_⟩
        rw [Array.size_extract]
        simp only
        omega
    · rw [Place.afterCut_of_ne here]
      exact ⟨ownText, grown _ _ ownFound, ownWithin⟩
  · intro anchor place sits
    have moved := (anchorsMoved anchor).symm.trans sits
    rw [Option.map_eq_some_iff] at moved
    rcases moved with ⟨before, sat, rfl⟩
    by_cases here : before.leaf = leaf
    · exact entered anchor (enters sat here) before sat here
    · rw [Place.afterCut_of_ne here]
      apply kept
      rw [listed_halve_ne _ _ _ here]
      exact seated.listed anchor before sat
  · intro anchor waiting
    have vacancy := seated.vacant anchor (by rwa [free] at waiting)
    refine ⟨Nat.lt_of_lt_of_eq vacancy.1 size.symm, ?_⟩
    exact (anchorsMoved anchor).trans (by rw [vacancy.2]; rfl)
  · exact (free.symm ▸ seated.distinct : folded.2.free.Nodup)

end Buffer

end Reparse
