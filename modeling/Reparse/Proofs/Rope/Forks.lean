import Reparse.Proofs.Rope.Persistence

/-!
# Branches fork

A branch always joins two different nodes, in every version of every buffer.  Two
trees that are joined under a new branch have different roots: a tree that would be
joined with itself is copied before.  A split makes the branches of its path again,
and there the argument is about parents.  Every node on the way is the recorded
parent of its children, so what is left over below a branch belongs to another
parent than the side that it is joined with.
-/

namespace Reparse

namespace Buffer

/-- Every branch joins two different nodes. -/
def Forked (buffer : Buffer) : Prop :=
  ∀ node left right leftLength length,
    buffer.view node = some (.branch left right leftLength length none) → left ≠ right

variable {buffer : Buffer}

theorem Forked.empty : Forked {} := by
  intro node left right leftLength length found
  cases found

theorem Forked.congr {other : Buffer} (forked : buffer.Forked)
    (views : ∀ node, other.view node = buffer.view node) : other.Forked := by
  intro node left right leftLength length found
  rw [views] at found
  exact forked node left right leftLength length found

theorem Forked.sameTrees {other : Buffer} (forked : buffer.Forked) (same : buffer.SameTrees other) :
    other.Forked :=
  forked.congr same.view

theorem Forked.setParent (forked : buffer.Forked) (node : NodeId) (parent : Option NodeId) :
    (buffer.setParent node parent).Forked :=
  forked.congr fun other => view_setParent buffer node other parent

/-- Leaves that are added do not matter. -/
theorem Forked.grow {after : Buffer} (forked : buffer.Forked) (grown : buffer.Extends after)
    (leaves : ∀ node, buffer.nodeCount ≤ node → node < after.nodeCount →
      ∃ text, after.view node = some (.leaf text none {})) : after.Forked := by
  intro node left right leftLength length found
  rcases Nat.lt_or_ge node buffer.nodeCount with old | new
  · rcases Option.isSome_iff_exists.mp (view_isSome_iff.mpr old) with ⟨content, before⟩
    rw [grown node content before] at found
    cases found
    exact forked node left right leftLength length before
  · rcases leaves node new (lt_nodeCount_of_view found) with ⟨text, isLeaf⟩
    cases isLeaf.symm.trans found

theorem Forked.addLeaf (forked : buffer.Forked) (text : Array Char) :
    (buffer.addLeaf text).2.Forked := by
  refine forked.grow (buffer.extends_addLeaf text) fun node new within => ⟨text, ?_⟩
  rw [nodeCount_addLeaf] at within
  rw [view_addLeaf, if_pos (Nat.le_antisymm (Nat.le_of_lt_succ within) new)]

theorem Forked.addBranch (forked : buffer.Forked) {left right : NodeId} (different : left ≠ right) :
    (buffer.addBranch left right).2.Forked := by
  intro node first second leftLength length found
  rw [view_addBranch] at found
  split at found
  · cases found
    exact different
  · exact forked node first second leftLength length found

theorem LeafCut.forked {after : Buffer} {leaf : NodeId} {text : Array Char} {cut : Nat}
    (done : buffer.LeafCut after leaf text cut) (forked : buffer.Forked) : after.Forked := by
  refine forked.grow done.grown fun node new within => ?_
  rw [done.count] at within
  rcases Nat.lt_succ_iff_lt_or_eq.mp within with earlier | rfl
  · rw [Nat.le_antisymm (Nat.le_of_lt_succ earlier) new]
    exact ⟨_, done.left⟩
  · exact ⟨_, done.right⟩

/-! ## Splitting along a path -/

/-- Where a path is owned, both halves have new roots or roots with a parent inside the tree. -/
theorem root_cut_of_owned {shape : Shape} (shown : buffer.Shows shape) {fuel : Nat}
    (enough : shape.height < fuel) {index : Nat}
    (owned : buffer.ownsPathWithin fuel shape.root index = true) (root : NodeId)
    (isRoot : root = (shape.cut index buffer.nodeCount).first.root ∨
      root = (shape.cut index buffer.nodeCount).rest.root) :
    buffer.nodeCount ≤ root ∨ ∃ branch, buffer.parent root = some branch ∧ branch ≤ shape.root := by
  induction shape generalizing fuel index with
  | leaf node text =>
      rw [Shape.cut] at isRoot
      rcases isRoot with rfl | rfl
      · exact Or.inl (Nat.le_refl _)
      · exact Or.inl (Nat.le_succ _)
  | branch node left right leftHypothesis rightHypothesis =>
      cases fuel with
      | zero => exact absurd enough (Nat.not_lt_zero _)
      | succ fuel =>
          rcases shown with ⟨found, leftBelow, rightBelow, _, _, leftShown, rightShown⟩
          rcases view_eq_branch_iff.mp found with ⟨parent, found⟩
          rw [Shape.height] at enough
          simp only [ownsPathWithin, Shape.root_branch, found, Bool.and_eq_true, beq_iff_eq] at owned
          rcases owned with ⟨⟨ownsLeft, ownsRight⟩, further⟩
          rcases Nat.lt_trichotomy index left.text.length with before | rfl | after
          · rw [Shape.cut_branch_left before] at isRoot
            rw [if_pos before] at further
            rcases isRoot with isFirst | rfl
            · rcases leftHypothesis leftShown (by omega) further (Or.inl isFirst) with
                new | ⟨branch, parented, inside⟩
              · exact Or.inl new
              · exact Or.inr ⟨branch, parented, Nat.le_of_lt (Nat.lt_of_le_of_lt inside leftBelow)⟩
            · exact Or.inl (Shape.le_next_cut _ _ _)
          · rw [Shape.cut_branch_between] at isRoot
            rcases isRoot with rfl | rfl
            · exact Or.inr ⟨node, ownsLeft, Nat.le_refl _⟩
            · exact Or.inr ⟨node, ownsRight, Nat.le_refl _⟩
          · rw [Shape.cut_branch_right after] at isRoot
            rw [if_neg (Nat.lt_asymm after), if_pos after] at further
            rcases isRoot with rfl | isRest
            · exact Or.inl (Shape.le_next_cut _ _ _)
            · rcases rightHypothesis rightShown (by omega) further (Or.inr isRest) with
                new | ⟨branch, parented, inside⟩
              · exact Or.inl new
              · exact Or.inr ⟨branch, parented, Nat.le_of_lt (Nat.lt_of_le_of_lt inside rightBelow)⟩

/-- A node whose parent is a branch is not the root of a part that was cut off below it. -/
theorem ne_of_owned_above {part other branch : NodeId} {bound : Nat}
    (origin : buffer.nodeCount ≤ part ∨
      ∃ owner, buffer.parent part = some owner ∧ owner ≤ bound)
    (below : bound < branch) (old : other < buffer.nodeCount)
    (owned : buffer.parent other = some branch) : part ≠ other := by
  rintro rfl
  rcases origin with new | ⟨owner, parented, inside⟩
  · exact absurd old (Nat.not_lt_of_le new)
  · rw [owned] at parented
    cases parented
    exact absurd below (Nat.not_lt_of_le inside)

theorem Forked.splitWithin {shape : Shape} (forked : buffer.Forked) (sound : buffer.Sound)
    (shown : buffer.Shows shape) {fuel : Nat} (enough : shape.height < fuel) {index : Nat}
    (within : index ≤ shape.text.length)
    (owned : buffer.ownsPathWithin fuel shape.root index = true) :
    (buffer.splitWithin fuel shape.root index).2.Forked := by
  induction shape generalizing fuel index with
  | leaf node text =>
      cases fuel with
      | zero => exact forked
      | succ fuel =>
          rcases view_eq_leaf_iff.mp shown with ⟨parent, anchors, found⟩
          rcases splitLeaf_spec sound.seated shown index with ⟨_, done⟩
          simp only [Buffer.splitWithin, Shape.root_leaf, found]
          exact done.forked forked
  | branch node left right leftHypothesis rightHypothesis =>
      cases fuel with
      | zero => exact forked
      | succ fuel =>
          rcases shown with ⟨found, leftBelow, rightBelow, _, _, leftShown, rightShown⟩
          rcases view_eq_branch_iff.mp found with ⟨parent, found⟩
          rw [Shape.height] at enough
          rw [Shape.text_branch, List.length_append] at within
          simp only [ownsPathWithin, Shape.root_branch, found, Bool.and_eq_true, beq_iff_eq] at owned
          rcases owned with ⟨⟨ownsLeft, ownsRight⟩, further⟩
          rw [Shape.root_branch]
          rcases Nat.lt_trichotomy index left.text.length with before | rfl | after
          · rw [if_pos before] at further
            have below := leftHypothesis leftShown (by omega) (Nat.le_of_lt before) further
            have roots := (splitWithin_spec sound.formed sound.seated leftShown fuel (by omega) index
              (Nat.le_of_lt before)).1
            simp only [Buffer.splitWithin, found, if_pos before, roots]
            exact below.addBranch (ne_of_owned_above
              (root_cut_of_owned leftShown (by omega) further _ (Or.inr rfl)) leftBelow
              rightShown.root_lt ownsRight)
          · simp only [Buffer.splitWithin, found, Nat.lt_irrefl, if_false]
            exact forked
          · rw [if_neg (Nat.lt_asymm after), if_pos after] at further
            have below := rightHypothesis rightShown (by omega) (by omega) further
            have roots := (splitWithin_spec sound.formed sound.seated rightShown fuel (by omega)
              (index - left.text.length) (by omega)).1
            simp only [Buffer.splitWithin, found, if_neg (Nat.lt_asymm after), if_pos after, roots]
            exact below.addBranch (ne_of_owned_above
              (root_cut_of_owned rightShown (by omega) further _ (Or.inl rfl)) rightBelow
              leftShown.root_lt ownsLeft).symm

theorem Forked.splitOwned {shape : Shape} (forked : buffer.Forked) (sound : buffer.Sound)
    (shown : buffer.Shows shape) {index : Nat} (within : index ≤ shape.text.length)
    (owned : buffer.ownsPathWithin buffer.nodeCount shape.root index = true) :
    (buffer.splitOwned shape.root index).2.Forked := by
  rw [Buffer.splitOwned]
  refine Forked.setParent (Forked.setParent ?_ _ _) _ _
  split
  · exact forked.addLeaf #[]
  · split
    · exact forked.addLeaf #[]
    · exact forked.splitWithin sound shown shown.height_lt within owned

/-! ## Operations on trees -/

theorem Forked.split {shape : Shape} (forked : buffer.Forked) (sound : buffer.Sound)
    (shown : buffer.Shows shape) (index : Nat) : (buffer.split shape.root index).2.Forked := by
  rcases Nat.lt_or_ge shape.text.length index with beyond | within
  · rw [split_error shown beyond]
    exact forked
  · by_cases owns : buffer.ownsPath shape.root index = true
    · rw [split_of_owned shown within owns]
      rw [ownsPath, Bool.and_eq_true] at owns
      exact forked.splitOwned sound shown within owns.2
    · -- The copy is a leaf, and a leaf owns its path.
      rw [split_of_superseded shown within owns]
      exact (forked.addLeaf _).splitOwned (sound.addLeaf _) (shows_copy shown) within
        (ownsPathWithin_of_linked (shows_copy shown) trivial _ _)

theorem Forked.join (forked : buffer.Forked) {root other : NodeId} (different : root ≠ other) :
    (buffer.join root other).2.Forked := by
  rw [Buffer.join]
  split
  · exact forked
  · split
    · exact forked
    · exact forked.addBranch different

theorem Forked.concat {shape : Shape} (forked : buffer.Forked) (shown : buffer.Shows shape)
    (piece : Piece) : (buffer.concat shape.root piece).2.Forked := by
  have apart : shape.root ≠ buffer.nodeCount := Nat.ne_of_lt shown.root_lt
  rw [Buffer.concat]
  cases piece with
  | text chars => exact (forked.addLeaf chars).join apart
  | tree other =>
      by_cases same : other = shape.root
      · rw [adopt, if_pos same]
        exact (forked.addLeaf _).join apart
      · rw [adopt, if_neg same]
        exact forked.join (Ne.symm same)

theorem Forked.replace {shape : Shape} {text : List Char} {piece : Piece} (forked : buffer.Forked)
    (sound : buffer.Sound) (shown : buffer.Shows shape) (reads : buffer.Reads text piece)
    (start stop : Nat) : (buffer.replace shape.root start stop piece).2.Forked := by
  rcases Nat.lt_or_ge stop start with inverted | ordered
  · rw [replace_inverted inverted]
    exact forked
  · rcases Nat.lt_or_ge shape.text.length stop with beyond | within
    · rw [replace_outOfBounds shown ordered beyond]
      exact forked
    · rcases split_spec sound shown (Nat.le_trans ordered within) with
        ⟨left, rest, cutOnce, firstCut, once, leftShown, restShown, _, restText⟩
      have restWithin : stop - start ≤ rest.text.length := by
        rw [restText, List.length_drop]
        omega
      rcases split_spec once.sound restShown restWithin with
        ⟨removed, right, cutTwice, secondCut, twice, _, rightShown, _, _⟩
      rcases concat_spec twice.sound (leftShown.mono twice.grown)
          (reads.mono (once.trans twice).grown) with ⟨front, frontRoot, _, frontShown, _⟩
      have forkedOnce := forked.split sound shown start
      rw [firstCut] at forkedOnce
      have forkedTwice := forkedOnce.split once.sound restShown (stop - start)
      rw [secondCut] at forkedTwice
      have forkedFront := forkedTwice.concat (leftShown.mono twice.grown) piece
      simp only [Buffer.replace, if_neg (Nat.not_lt_of_le ordered), shown.length,
        if_neg (Nat.not_lt_of_le within), firstCut, secondCut, frontRoot]
      exact forkedFront.concat frontShown (.tree right.root)

end Buffer

namespace Store

variable {store : Store}

/-- Every branch of every buffer joins two different nodes. -/
def Forked (store : Store) : Prop := ∀ id, (store.buffer id).Forked

theorem Forked.put (forked : store.Forked) (id : BufferId) {content : Buffer}
    (changed : content.Forked) : (store.put id content).Forked :=
  forall_buffer_put (motive := fun _ buffer => buffer.Forked) changed forked

theorem Forked.newBuffer (forked : store.Forked) : store.newBuffer.2.Forked := by
  intro id
  rw [buffer_newBuffer]
  exact forked id

theorem Forked.rope (forked : store.Forked) (id : BufferId) (text : String) :
    (store.rope id text).2.Forked := by
  simp only [Store.rope, update_eq]
  exact forked.put id ((forked id).addLeaf _)

theorem Forked.concat (forked : store.Forked) {first second : Rope} {shape : Shape}
    (shown : store.Shows first shape) : (store.concat first second).2.Forked := by
  simp only [Store.concat, update_eq, ← shown.1]
  exact forked.put _ ((forked _).concat shown.2 _)

theorem Forked.split (forked : store.Forked) (sound : store.Sound) {rope : Rope} {shape : Shape}
    (shown : store.Shows rope shape) (index : Nat) : (store.split rope index).2.Forked := by
  simp only [Store.split, update_eq, ← shown.1]
  exact forked.put _ ((forked _).split (sound _) shown.2 index)

theorem Forked.replace (forked : store.Forked) (sound : store.Sound) {rope insertion : Rope}
    {shape other : Shape} (shown : store.Shows rope shape) (shown' : store.Shows insertion other)
    (start stop : Nat) : (store.replace rope start stop insertion).2.Forked := by
  simp only [Store.replace, update_eq, ← shown.1]
  exact forked.put _ ((forked _).replace (sound _) shown.2 (shown'.piece_reads _) start stop)

theorem Forked.cursorAt (forked : store.Forked) (position : Position) :
    (store.cursorAt position).2.Forked := by
  simp only [Store.cursorAt, update_eq]
  exact forked.put _ ((forked _).sameTrees (Buffer.sameTrees_addAnchor _))

theorem Forked.seat (forked : store.Forked) (cursor : Cursor) (place : Place) :
    (store.seat cursor place).Forked := by
  simp only [Store.seat, update_eq]
  exact forked.put _ ((forked _).sameTrees (Buffer.sameTrees_moveAnchor _ _))

theorem Forked.release (forked : store.Forked) (cursor : Cursor) : (store.release cursor).Forked := by
  simp only [Store.release, update_eq]
  exact forked.put _ ((forked _).sameTrees (Buffer.sameTrees_releaseAnchor _))

end Store

namespace Desk

variable {desk : Desk} {ledger : Ledger}

theorem forked_onCursor (forked : desk.store.Forked) (number : Nat) {change : Cursor → Desk}
    (keeps : ∀ cursor, (change cursor).store.Forked) :
    (desk.onCursor number change).store.Forked :=
  onCursor_cases (motive := fun next => next.store.Forked) number forked fun cursor _ => keeps cursor

/-- No command makes a branch over one node. -/
theorem Agrees.forked_after (agrees : desk.Agrees ledger) (forked : desk.store.Forked)
    (command : Command) : (desk.after command).store.Forked := by
  cases command with
  | newBuffer => exact forked.newBuffer
  | rope id text =>
      rw [after, perform]
      split
      · exact forked.rope id text
      · exact forked
  | newRope text => exact forked.newBuffer.rope _ text
  | concat first second =>
      refine concat_cases (motive := fun next => next.store.Forked) first second forked
        fun left right _ found _ => ?_
      rcases agrees.rope found with ⟨shape, shown, _⟩
      exact forked.concat shown
  | split number index =>
      refine split_cases (motive := fun next => next.store.Forked) number index forked
        fun rope _ found => ?_
      rcases agrees.rope found with ⟨shape, shown, _⟩
      exact forked.split agrees.sound shown index
  | replace number start stop replacement =>
      refine replace_cases (motive := fun next => next.store.Forked) number start stop replacement
        forked fun rope insertion _ found foundOther => ?_
      rcases agrees.rope found with ⟨shape, shown, _⟩
      rcases agrees.rope foundOther with ⟨other, shown', _⟩
      exact forked.replace agrees.sound shown shown' start stop
  | cursor number index =>
      exact cursor_cases (motive := fun next => next.store.Forked) number index forked
        fun rope _ _ => forked.cursorAt _
  | copy number => exact forked_onCursor forked number fun cursor => forked.cursorAt _
  | read number count => exact forked_onCursor forked number fun cursor => forked.cursorAt _
  | back number count => exact forked_onCursor forked number fun cursor => forked.cursorAt _
  | advance number count => exact forked_onCursor forked number fun cursor => forked.seat _ _
  | advanceChar number =>
      refine forked_onCursor forked number fun cursor => ?_
      simp only [Store.advanceChar]
      split
      · exact forked.seat _ _
      · exact forked
  | retreat number count => exact forked_onCursor forked number fun cursor => forked.seat _ _
  | release number => exact forked_onCursor forked number fun cursor => forked.release cursor

theorem forked_foldl (agrees : desk.Agrees ledger) (forked : desk.store.Forked)
    (commands : List Command) : (commands.foldl after desk).store.Forked := by
  induction commands generalizing desk ledger with
  | nil => exact forked
  | cons command rest inductionHypothesis =>
      exact inductionHypothesis (leads_after agrees command).agrees (agrees.forked_after forked command)

/-- Whatever commands are given, branches fork. -/
theorem run_forked (commands : List Command) : (run commands).store.Forked :=
  forked_foldl Agrees.empty (fun _ => Buffer.Forked.empty) commands

end Desk

end Reparse
