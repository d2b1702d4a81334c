import Reparse.Proofs.Rope.Navigating

/-!
# What a split leaves alone

A split relinks the children of the branches on its path, and moves the anchors of one
leaf.  It does so only in a version that owns its path, where each of these nodes leads
up to the root by its recorded parents.  No such node is part of another newest rope,
since from there the parents lead to another root.  A version that does not own its path
is split from a copy, which is a leaf of its own.

So splitting any version, newest or superseded, leaves every other newest rope as it is,
with all cursors in its leaves.  A cursor may be found in a rope without being in one of
its leaves: it is at the end of a leaf that was last of its text before, and what follows
that leaf was taken over by another rope.  A split can send such a cursor elsewhere.
-/

namespace Reparse

namespace Shape

/-- The children of the branches on the path to an index. -/
def besidePath : Shape → Nat → List NodeId
  | .leaf _ _, _ => []
  | .branch _ left right, index =>
    left.root :: right.root ::
      if index < left.text.length then left.besidePath index
      else if left.text.length < index then right.besidePath (index - left.text.length)
      else []

/-- The halves have new roots, or roots beside the path. -/
theorem root_cut (shape : Shape) (index next : Nat) (root : NodeId)
    (isRoot : root = (shape.cut index next).first.root ∨ root = (shape.cut index next).rest.root) :
    root ∈ shape.besidePath index ∨ next ≤ root := by
  induction shape generalizing index with
  | leaf node text =>
      refine Or.inr ?_
      rcases isRoot with rfl | rfl
      · exact Nat.le_refl _
      · exact Nat.le_succ _
  | branch node left right leftHypothesis rightHypothesis =>
      rw [besidePath, List.mem_cons, List.mem_cons]
      rcases Nat.lt_trichotomy index left.text.length with before | rfl | after
      · rw [cut_branch_left before] at isRoot
        rw [if_pos before]
        rcases isRoot with isFirst | rfl
        · exact (leftHypothesis index (Or.inl isFirst)).imp_left fun inside => Or.inr (Or.inr inside)
        · exact Or.inr (le_next_cut _ _ _)
      · rw [cut_branch_between] at isRoot
        exact Or.inl (isRoot.imp_right Or.inl)
      · rw [cut_branch_right after] at isRoot
        rw [if_neg (Nat.lt_asymm after), if_pos after]
        rcases isRoot with rfl | isRest
        · exact Or.inr (le_next_cut _ _ _)
        · exact (rightHypothesis _ (Or.inr isRest)).imp_left fun inside => Or.inr (Or.inr inside)

/-- A cut moves no place but those of a leaf at its path. -/
theorem cutPlace_of_notMem_path {shape : Shape} {index next : Nat} {place : Place}
    (notRoot : place.leaf ≠ shape.root) (outside : place.leaf ∉ shape.besidePath index) :
    shape.cutPlace index next place = place := by
  induction shape generalizing index with
  | leaf node text => exact Place.afterCut_of_ne notRoot index next
  | branch node left right leftHypothesis rightHypothesis =>
      rw [besidePath, List.mem_cons, List.mem_cons, not_or, not_or] at outside
      rcases outside with ⟨notLeft, notRight, further⟩
      rcases Nat.lt_trichotomy index left.text.length with before | rfl | after
      · rw [if_pos before] at further
        rw [cutPlace_branch_left before]
        exact leftHypothesis notLeft further
      · exact cutPlace_branch_between left right node next place
      · rw [if_neg (Nat.lt_asymm after), if_pos after] at further
        rw [cutPlace_branch_right after]
        exact rightHypothesis notRight further

end Shape

namespace Buffer

variable {buffer : Buffer} {shape other : Shape} {index : Nat}

/-! ## What a split touches -/

/-- A split along a path relinks no old node but those beside the path. -/
theorem parent_splitWithin (sound : buffer.Sound) (shown : buffer.Shows shape) {fuel : Nat}
    (enough : shape.height < fuel) (within : index ≤ shape.text.length) {node : NodeId}
    (old : node < buffer.nodeCount) (outside : node ∉ shape.besidePath index) :
    (buffer.splitWithin fuel shape.root index).2.parent node = buffer.parent node := by
  induction shape generalizing fuel index with
  | leaf own text =>
      cases fuel with
      | zero => rfl
      | succ fuel =>
          rcases view_eq_leaf_iff.mp shown with ⟨parent, anchors, found⟩
          rcases splitLeaf_spec sound.seated shown index with ⟨_, done⟩
          simp only [splitWithin, Shape.root_leaf, found]
          exact done.parent node
  | branch own left right leftHypothesis rightHypothesis =>
      cases fuel with
      | zero => rfl
      | succ fuel =>
          rcases shown with ⟨found, _, _, _, _, leftShown, rightShown⟩
          rcases view_eq_branch_iff.mp found with ⟨parent, found⟩
          rw [Shape.height] at enough
          rw [Shape.text_branch, List.length_append] at within
          rw [Shape.besidePath, List.mem_cons, List.mem_cons, not_or, not_or] at outside
          rcases outside with ⟨notLeft, notRight, further⟩
          rw [Shape.root_branch]
          rcases Nat.lt_trichotomy index left.text.length with before | rfl | after
          · rw [if_pos before] at further
            have below := leftHypothesis leftShown (show left.height < fuel by omega)
              (Nat.le_of_lt before) further
            rcases splitWithin_spec sound.formed sound.seated leftShown fuel (by omega) index
              (Nat.le_of_lt before) with ⟨roots, done⟩
            simp only [splitWithin, found, if_pos before, roots]
            rw [parent_addBranch _ done.rest.root_lt (rightShown.mono done.grown).root_lt, if_neg]
            · exact below
            · rintro (isRest | isRight)
              · rcases left.root_cut index buffer.nodeCount node (Or.inr isRest) with inside | new
                · exact further inside
                · exact absurd old (Nat.not_lt_of_le new)
              · exact notRight isRight
          · simp only [splitWithin, found, Nat.lt_irrefl, if_false]
          · rw [if_neg (Nat.lt_asymm after), if_pos after] at further
            have below := rightHypothesis rightShown (show right.height < fuel by omega) (by omega)
              further
            rcases splitWithin_spec sound.formed sound.seated rightShown fuel (by omega)
              (index - left.text.length) (by omega) with ⟨roots, done⟩
            simp only [splitWithin, found, if_neg (Nat.lt_asymm after), if_pos after, roots]
            rw [parent_addBranch _ (leftShown.mono done.grown).root_lt done.first.root_lt, if_neg]
            · exact below
            · rintro (isLeft | isFirst)
              · exact notLeft isLeft
              · rcases right.root_cut _ buffer.nodeCount node (Or.inl isFirst) with inside | new
                · exact further inside
                · exact absurd old (Nat.not_lt_of_le new)

/-- What a split of a version that owns its path leaves as it is. -/
structure Bypasses (before after : Buffer) (shape : Shape) (index : Nat) : Prop where
  parent : ∀ node, node < before.nodeCount → node ∉ shape.besidePath index →
    after.parent node = before.parent node
  anchor : ∀ anchor place, before.anchor? anchor = some place → place.leaf ≠ shape.root →
    place.leaf ∉ shape.besidePath index → after.anchor? anchor = some place

/-- Making the parts roots changes nothing that was not beside the path. -/
theorem Bypasses.loosen {after : Buffer} (bypasses : buffer.Bypasses after shape index)
    {first rest : NodeId}
    (harmless : ∀ part, part = first ∨ part = rest → part < buffer.nodeCount →
      part ∉ shape.besidePath index → buffer.parent part = none) :
    buffer.Bypasses ((after.setParent first none).setParent rest none) shape index := by
  refine ⟨fun node old outside => ?_, bypasses.anchor⟩
  rw [parent_release, parent_release]
  split
  · next isRest => exact (harmless node (Or.inr isRest) old outside).symm
  · split
    · next isFirst => exact (harmless node (Or.inl isFirst) old outside).symm
    · exact bypasses.parent node old outside

theorem bypasses_splitOwned (sound : buffer.Sound) (shown : buffer.Shows shape)
    (within : index ≤ shape.text.length) (loose : buffer.parent shape.root = none) :
    buffer.Bypasses (buffer.splitOwned shape.root index).2 shape index := by
  have atEnds : buffer.Bypasses (buffer.addLeaf #[]).2 shape index :=
    ⟨fun node _ _ => parent_addLeaf buffer #[] node, fun _ _ seated _ _ => seated⟩
  -- At either end the parts are the whole and a new leaf.
  have isWhole : ∀ part, part = buffer.nodeCount ∨ part = shape.root → part < buffer.nodeCount →
      buffer.parent part = none := by
    rintro part (rfl | rfl) old
    · exact absurd old (Nat.lt_irrefl _)
    · exact loose
  simp only [splitOwned, shown.length]
  split
  · exact atEnds.loosen fun part isPart old _ => isWhole part isPart old
  · split
    · exact atEnds.loosen fun part isPart old _ => isWhole part isPart.symm old
    · rcases splitWithin_spec sound.formed sound.seated shown buffer.nodeCount shown.height_lt index
        within with ⟨roots, done⟩
      simp only [roots]
      refine Bypasses.loosen ⟨fun node old outside => ?_, fun anchor place seated notRoot outside => ?_⟩
        fun part isPart old outside => ?_
      · exact parent_splitWithin sound shown shown.height_lt within old outside
      · rw [done.anchor, seated, Option.map_some,
          Shape.cutPlace_of_notMem_path notRoot outside]
      · rcases shape.root_cut index buffer.nodeCount part isPart with inside | new
        · exact absurd inside outside
        · exact absurd old (Nat.not_lt_of_le new)

/-! ## Where what is touched belongs -/

/-- The parent of a node of a current tree is in the tree. -/
theorem Current.parent_mem (current : buffer.Current other) {node branch : NodeId}
    (member : node ∈ other.nodes) (owned : buffer.parent node = some branch) :
    branch ∈ other.nodes := by
  rw [Shape.nodes_eq_cons, List.mem_cons] at member
  rcases member with rfl | inner
  · rw [current.loose] at owned
    cases owned
  · rcases current.linked.parent_mem inner with ⟨parent, inside, owned'⟩
    rw [owned] at owned'
    cases owned'
    exact inside

/-- Beside a path that is owned there is no node of another current tree, unless it has the
root as well. -/
theorem Current.root_mem_of_besidePath (current : buffer.Current other) (shown : buffer.Shows shape)
    {fuel : Nat} (enough : shape.height < fuel)
    (owned : buffer.ownsPathWithin fuel shape.root index = true) {node : NodeId}
    (beside : node ∈ shape.besidePath index) (member : node ∈ other.nodes) :
    shape.root ∈ other.nodes := by
  induction shape generalizing fuel index with
  | leaf own text => cases beside
  | branch own left right leftHypothesis rightHypothesis =>
      cases fuel with
      | zero => exact absurd enough (Nat.not_lt_zero _)
      | succ fuel =>
          rcases shown with ⟨found, _, _, _, _, leftShown, rightShown⟩
          rcases view_eq_branch_iff.mp found with ⟨parent, found⟩
          rw [Shape.height] at enough
          simp only [ownsPathWithin, Shape.root_branch, found, Bool.and_eq_true, beq_iff_eq] at owned
          rcases owned with ⟨⟨ownsLeft, ownsRight⟩, further⟩
          rw [Shape.besidePath, List.mem_cons, List.mem_cons] at beside
          rw [Shape.root_branch]
          rcases beside with rfl | rfl | beside
          · exact current.parent_mem member ownsLeft
          · exact current.parent_mem member ownsRight
          · split at beside
            · next before =>
                rw [if_pos before] at further
                exact current.parent_mem
                  (leftHypothesis leftShown (by omega) further beside) ownsLeft
            · next notBefore =>
                rw [if_neg notBefore] at further
                split at beside
                · next after =>
                    rw [if_pos after] at further
                    exact current.parent_mem
                      (rightHypothesis rightShown (by omega) further beside) ownsRight
                · cases beside

/-- A current tree has no other root without a parent. -/
theorem Current.root_eq_of_loose (current : buffer.Current other) {node : NodeId}
    (member : node ∈ other.nodes) (loose : buffer.parent node = none) : node = other.root := by
  rw [Shape.nodes_eq_cons, List.mem_cons] at member
  rcases member with same | inner
  · exact same
  · rcases current.linked.parent_mem inner with ⟨parent, _, owned⟩
    rw [loose] at owned
    cases owned

/-! ## Other trees -/

/-- A current tree was left as it is, with the anchors in its leaves. -/
structure Bystander (before after : Buffer) (other : Shape) : Prop where
  current : after.Current other
  anchor : ∀ anchor place, before.anchor? anchor = some place → place.leaf ∈ other.nodes →
    after.anchor? anchor = some place

theorem split_bystander (sound : buffer.Sound) (shown : buffer.Shows shape)
    (within : index ≤ shape.text.length) (current : buffer.Current other)
    (different : other.root ≠ shape.root) :
    ∃ parts after, buffer.split shape.root index = (.ok parts, after) ∧ buffer.Evolves after ∧
      buffer.Bystander after other := by
  rcases split_spec sound shown within with ⟨first, rest, after, done, evolves, _⟩
  refine ⟨_, after, done, evolves, ?_⟩
  by_cases owns : buffer.ownsPath shape.root index = true
  · rw [split_of_owned shown within owns] at done
    rw [ownsPath, Bool.and_eq_true, Option.isNone_iff_eq_none] at owns
    rcases owns with ⟨loose, owned⟩
    have apart : shape.root ∉ other.nodes := fun member =>
      different (current.root_eq_of_loose member loose).symm
    have outside : ∀ node ∈ other.nodes, node ∉ shape.besidePath index := fun node member beside =>
      apart (current.root_mem_of_besidePath shown shown.height_lt owned beside member)
    have bypasses := bypasses_splitOwned sound shown within loose
    have becomes := congrArg Prod.snd done
    subst becomes
    refine ⟨current.congr evolves.grown fun node member => ?_, fun anchor place seated member => ?_⟩
    · exact bypasses.parent node (current.shown.lt_nodeCount member) (outside node member)
    · exact bypasses.anchor anchor place seated (fun same => apart (same ▸ member))
        (outside _ member)
  · -- What is split is a new leaf with a copy of the text.
    rw [split_of_superseded shown within owns] at done
    rcases splitOwned_spec (sound.addLeaf _) (shows_copy shown) within with
      ⟨_, _, move, _, division⟩
    have new : ∀ node ∈ other.nodes, node ∉ (Shape.leaf buffer.nodeCount shape.text).nodes := by
      intro node member isNew
      rw [Shape.nodes, List.mem_singleton] at isNew
      exact Nat.ne_of_lt (current.shown.lt_nodeCount member) isNew
    have becomes := congrArg Prod.snd done
    subst becomes
    refine ⟨current.congr evolves.grown fun node member => ?_, fun anchor place seated member => ?_⟩
    · have old := current.shown.lt_nodeCount member
      refine (division.parent node ?_ (new node member)).trans (parent_addLeaf buffer _ node)
      rw [nodeCount_addLeaf]
      exact Nat.lt_succ_of_lt old
    · have kept := division.anchor anchor
      rw [anchor?_addLeaf, seated, Option.map_some, division.fixed place (new _ member)] at kept
      exact kept

end Buffer

namespace Store

variable {store : Store} {rope other : Rope} {shape : Shape} {cursor : Cursor} {index : Nat}

/-- The anchor of a cursor is in a leaf of the rope. -/
def Lodges (store : Store) (rope : Rope) (cursor : Cursor) : Prop :=
  cursor.buffer = rope.buffer ∧ ∃ place, store.place? cursor = some place ∧
    (store.buffer rope.buffer).Below rope.root place.leaf

/-- An anchor in a leaf of a current tree means an index of it. -/
theorem Hosts.means_of_lodges (hosts : store.Hosts rope shape) (lodges : store.Lodges rope cursor) :
    ∃ place index, store.place? cursor = some place ∧ shape.Means place index := by
  rcases lodges with ⟨sameBuffer, place, seated, below⟩
  rw [← hosts.root, hosts.current.shown.below_iff] at below
  have has := hosts.sound.hasPosition seated
  rw [HasPosition, sameBuffer] at has
  rcases has with ⟨text, found, within⟩
  rcases List.append_of_mem (hosts.current.shown.chunk_of_leaf below found) with
    ⟨before, after, chunks⟩
  exact ⟨place, _, seated, before, text.toList, after, chunks, within, rfl⟩

/-- A cursor whose anchor means an index of a current tree is at that index. -/
theorem Hosts.at_of_means (hosts : store.Hosts rope shape) (sameBuffer : cursor.buffer = rope.buffer)
    {place : Place} (seated : store.place? cursor = some place) (means : shape.Means place index) :
    store.At rope shape cursor index := by
  refine ⟨hosts, by rw [seated]; rfl, ?_, means.le_length⟩
  rw [position_of_place? seated, sameBuffer, hosts.current.settle means]

/-- A rope and the cursors in its leaves are what they were. -/
structure Undisturbed (before after : Store) (rope : Rope) : Prop where
  newest : after.Newest rope
  text : after.text rope = before.text rope
  leaves : after.leaves rope = before.leaves rope
  cursors : ∀ cursor, before.Lodges rope cursor → after.Lodges rope cursor ∧
    after.position cursor = before.position cursor ∧
    before.Navigates rope (before.text rope).toList cursor (before.index cursor) ∧
    after.Navigates rope (before.text rope).toList cursor (before.index cursor)

/-- A current tree stays what it was when its anchors stay where they were. -/
theorem Hosts.undisturbed {after : Store} (hosts : store.Hosts rope shape)
    (hosts' : after.Hosts rope shape)
    (places : ∀ cursor place, cursor.buffer = rope.buffer → store.place? cursor = some place →
      place.leaf ∈ shape.nodes → after.place? cursor = some place) :
    store.Undisturbed after rope := by
  have shown : store.Shows rope shape := ⟨hosts.root, hosts.current.shown⟩
  have shown' : after.Shows rope shape := ⟨hosts.root, hosts'.current.shown⟩
  have text : (store.text rope).toList = shape.text := by rw [shown.text, String.toList_ofList]
  refine ⟨?_, by rw [shown.text, shown'.text], by rw [shown.leaves, shown'.leaves], ?_⟩
  · have newest := hosts'.current.newest
    rw [hosts.root] at newest
    exact newest
  · intro cursor lodges
    rcases hosts.means_of_lodges lodges with ⟨place, index, seated, means⟩
    have stays := places cursor place lodges.1 seated means.mem_nodes
    have sits := hosts.at_of_means lodges.1 seated means
    have sits' := hosts'.at_of_means lodges.1 stays means
    have samePlace := (hosts'.stands sits.within).unique (hosts.stands sits.within)
    rw [text, sits.index_eq]
    refine ⟨⟨lodges.1, place, stays, ?_⟩, ?_, sits.navigates, sits'.navigates⟩
    · rw [← hosts.root, hosts'.current.shown.below_iff]
      exact means.mem_nodes
    · rw [sits.position, sits'.position, samePlace]

end Store

namespace Desk

/-- After any commands, splitting a rope, be it a newest or a superseded one, disturbs no
other newest rope: it stays the newest, with its text and its leaves, and every cursor in
one of its leaves has the same position, and goes on from there as before. -/
theorem split_disturbs_no_newest_rope (commands : List Command) :
    let desk := run commands
    ∀ rope ∈ desk.ropes, ∀ index ≤ desk.store.length rope, ∀ other ∈ desk.ropes, other ≠ rope →
      desk.store.Newest other →
      ∃ parts after, desk.store.split rope index = (.ok parts, after) ∧
        desk.store.Undisturbed after other := by
  intro desk rope member index within other member' different newest
  have agrees : desk.Agrees (Ledger.run commands) := run_agrees commands
  have sound : desk.store.Sound := agrees.sound
  rcases agrees.rooted rope member with ⟨shape, shown⟩
  rcases agrees.rooted other member' with ⟨shape', shown'⟩
  have current := newest.current sound (run_forked commands) shown'
  rw [shown.length] at within
  have hosts : desk.store.Hosts other shape' := ⟨sound, shown'.1, current⟩
  by_cases sameBuffer : other.buffer = rope.buffer
  · have differentRoot : shape'.root ≠ shape.root := by
      rw [shown.1, shown'.1]
      intro sameRoot
      cases rope
      cases other
      cases sameBuffer
      cases sameRoot
      exact different rfl
    rw [sameBuffer] at current
    rcases Buffer.split_bystander (sound rope.buffer) shown.2 within current differentRoot with
      ⟨parts, cut, done, evolves, bystander⟩
    have content : (desk.store.put rope.buffer cut).buffer other.buffer = cut := by
      rw [Store.buffer_put _ shown.lt_size, if_pos sameBuffer]
    refine ⟨(⟨rope.buffer, parts.1⟩, ⟨rope.buffer, parts.2⟩), desk.store.put rope.buffer cut, ?_, ?_⟩
    · rw [Store.split, Store.update_eq, ← shown.1, done]
      rfl
    · refine hosts.undisturbed ⟨(Store.evolves_put sound evolves).sound, shown'.1, ?_⟩ ?_
      · rw [content]
        exact bystander.current
      · intro cursor place inBuffer seated inside
        rw [Store.place?, inBuffer, sameBuffer] at seated
        rw [Store.place?, inBuffer, content]
        exact bystander.anchor cursor.anchor place seated inside
  · rcases Buffer.split_spec (sound rope.buffer) shown.2 within with
      ⟨first, rest, cut, done, evolves, _⟩
    have content : (desk.store.put rope.buffer cut).buffer other.buffer =
        desk.store.buffer other.buffer := by
      rw [Store.buffer_put _ shown.lt_size, if_neg sameBuffer]
    refine ⟨(⟨rope.buffer, first.root⟩, ⟨rope.buffer, rest.root⟩), desk.store.put rope.buffer cut,
      ?_, ?_⟩
    · rw [Store.split, Store.update_eq, ← shown.1, done]
      rfl
    · refine hosts.undisturbed ⟨(Store.evolves_put sound evolves).sound, shown'.1, ?_⟩ ?_
      · rw [content]
        exact current
      · intro cursor place inBuffer seated _
        rw [Store.place?, inBuffer, content, ← inBuffer]
        exact seated

/-- A cursor at the end of ab, of which the rope abcdef is made, is found at the start of
cdgh, which has taken over the leaf cd.  Splitting abcdef in front of cd ends that. -/
example :
    let history : List Command := [.newBuffer, .rope 0 "ab", .cursor 0 2, .rope 0 "cd",
      .rope 0 "ef", .concat 1 2, .concat 0 3, .rope 0 "gh", .concat 1 5]
    let store := (run history).store
    let later := (run (history ++ [.split 4 2])).store
    store.text ⟨0, 6⟩ = "cdgh" ∧ store.position ⟨0, 0⟩ = store.positionAt ⟨0, 6⟩ 0 ∧
      later.text ⟨0, 6⟩ = "cdgh" ∧ later.position ⟨0, 0⟩ ≠ later.positionAt ⟨0, 6⟩ 0 := by
  decide +kernel

end Desk

end Reparse
