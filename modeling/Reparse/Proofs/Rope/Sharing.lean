import Reparse.Proofs.Rope.Resting

/-!
# Joining ropes that may share nodes

A rope of two others is a branch over their roots.  Nothing is copied, and nothing is
asked of the two but that their roots differ.  One of them may be an older version, whose
nodes a newer one has taken over, and one may be a part of the other.

The joined rope is a newest rope exactly if both were intact and have no node in common.
An intact version is one that no newer version has taken a node from.  Its root may have a
parent, since the join takes the root over.  Cursors of such a rope go about as on the
list of its characters.

If the two have a node in common, then a leaf of it is at two indices of the joined rope.
The leaf has one parent, and its place one index, so a cursor that is asked for at the
other index is not there.
-/

namespace Reparse

theorem Shape.chunks_ne_nil (shape : Shape) : shape.chunks ≠ [] := by
  induction shape with
  | leaf node text => exact List.cons_ne_nil _ _
  | branch node left right leftHypothesis rightHypothesis =>
      exact List.append_ne_nil_of_left_ne_nil leftHypothesis _

/-- The start of a leaf with text is where the text before the leaf ends. -/
theorem Shape.stands_of_chunks {shape : Shape} {before after : List (NodeId × List Char)}
    {chunk : NodeId × List Char} (chunks : shape.chunks = before ++ chunk :: after)
    (someText : chunk.2 ≠ []) : shape.Stands ⟨chunk.1, 0⟩ (extent before) :=
  ⟨before, chunk.2, after, chunks, Nat.zero_le _, rfl, Or.inl (List.length_pos_iff.mpr someText)⟩

namespace Buffer

/-- Every branch below a node is the parent of both its children: no newer version has
taken one of them over. -/
def Intact (buffer : Buffer) (root : NodeId) : Prop :=
  ∀ node left right leftLength length parent, buffer.Below root node →
    buffer.nodes[node]? = some (.branch left right leftLength length parent) →
    buffer.parent left = some node ∧ buffer.parent right = some node

/-- No node is below both of two nodes. -/
def Apart (buffer : Buffer) (first second : NodeId) : Prop :=
  ∀ node, buffer.Below first node → ¬ buffer.Below second node

variable {buffer : Buffer} {shape first second : Shape}

theorem Shows.intact_iff (shown : buffer.Shows shape) :
    buffer.Intact shape.root ↔ buffer.Linked shape := by
  constructor
  · intro intact
    refine shown.linked_of_owns fun node _ _ _ _ _ member => ?_
    exact intact node _ _ _ _ _ (shown.below_iff.mpr member)
  · intro linked node _ _ _ _ _ below
    exact linked.owns shown (shown.below_iff.mp below)

theorem Shows.apart_iff (firstShown : buffer.Shows first) (secondShown : buffer.Shows second) :
    buffer.Apart first.root second.root ↔ ∀ node ∈ first.nodes, node ∉ second.nodes :=
  forall_congr' fun node => by rw [firstShown.below_iff, secondShown.below_iff]

/-! ## When the joined tree is newest -/

/-- A new branch over two intact trees that share no node is the root of a current tree. -/
theorem current_addBranch (formed : buffer.WellFormed) (forked : buffer.Forked)
    (firstShown : buffer.Shows first) (secondShown : buffer.Shows second)
    (firstText : first.text ≠ []) (secondText : second.text ≠ [])
    (firstLinked : buffer.Linked first) (secondLinked : buffer.Linked second)
    (apart : ∀ node ∈ first.nodes, node ∉ second.nodes) :
    (buffer.addBranch first.root second.root).2.Current
      (.branch buffer.nodeCount first second) := by
  have distinct : (first.nodes ++ second.nodes).Nodup :=
    List.nodup_append.mpr ⟨firstLinked.nodup formed forked firstShown,
      secondLinked.nodup formed forked secondShown,
      fun node member other member' same => apart node member (same ▸ member')⟩
  have new : ∀ node ∈ first.nodes ++ second.nodes, node ≠ buffer.nodeCount := by
    intro node member
    rcases List.mem_append.mp member with inFirst | inSecond
    · exact Nat.ne_of_lt (firstShown.lt_nodeCount inFirst)
    · exact Nat.ne_of_lt (secondShown.lt_nodeCount inSecond)
  refine ⟨buffer.shows_addBranch firstShown secondShown firstText secondText,
    firstLinked.addBranch secondLinked firstShown secondShown distinct, ?_,
    List.nodup_cons.mpr ⟨fun member => new _ member rfl, distinct⟩⟩
  rw [Shape.root_branch, parent_addBranch buffer firstShown.root_lt secondShown.root_lt, if_neg]
  · exact buffer.parent_eq_none_of_le (Nat.le_refl _)
  · rintro (same | same)
    · exact new _ (List.mem_append_left _ first.root_mem_nodes) same.symm
    · exact new _ (List.mem_append_right _ second.root_mem_nodes) same.symm

/-- A tree that is linked under a new branch was linked before. -/
theorem Linked.of_addBranch (linked : (buffer.addBranch first.root second.root).2.Linked shape)
    (firstShown : buffer.Shows first) (secondShown : buffer.Shows second)
    (firstApart : first.root ∉ shape.inner) (secondApart : second.root ∉ shape.inner) :
    buffer.Linked shape := by
  refine linked.congr fun node member => ?_
  rw [parent_addBranch buffer firstShown.root_lt secondShown.root_lt, if_neg]
  rintro (same | same)
  · exact firstApart (same ▸ member)
  · exact secondApart (same ▸ member)

/-- The joined tree is newest exactly if both trees were intact and share no node. -/
theorem newest_addBranch_iff (sound : buffer.Sound) (forked : buffer.Forked)
    (firstShown : buffer.Shows first) (secondShown : buffer.Shows second)
    (firstText : first.text ≠ []) (secondText : second.text ≠ [])
    (different : first.root ≠ second.root) :
    (buffer.addBranch first.root second.root).2.Newest buffer.nodeCount ↔
      buffer.Intact first.root ∧ buffer.Intact second.root ∧
        buffer.Apart first.root second.root := by
  rw [firstShown.intact_iff, secondShown.intact_iff, firstShown.apart_iff secondShown]
  constructor
  · intro newest
    have formed := sound.formed.addBranch firstShown secondShown firstText secondText
    have shown := buffer.shows_addBranch firstShown secondShown firstText secondText
    have current := Newest.current newest formed (forked.addBranch different) shown
    rcases current.linked with ⟨_, _, firstLinked, secondLinked⟩
    rcases List.nodup_append.mp (List.nodup_cons.mp current.distinct).2 with
      ⟨firstDistinct, secondDistinct, apart⟩
    refine ⟨firstLinked.of_addBranch firstShown secondShown
      (Shape.root_notMem_inner firstDistinct) fun member => ?_,
      secondLinked.of_addBranch firstShown secondShown (fun member => ?_)
      (Shape.root_notMem_inner secondDistinct), fun node member member' => ?_⟩
    · exact apart _ (Shape.inner_subset_nodes member) _ second.root_mem_nodes rfl
    · exact apart _ first.root_mem_nodes _ (Shape.inner_subset_nodes member) rfl
    · exact apart node member node member' rfl
  · rintro ⟨firstLinked, secondLinked, apart⟩
    exact (current_addBranch sound.formed forked firstShown secondShown firstText secondText
      firstLinked secondLinked apart).newest

/-! ## A leaf at two indices -/

/-- What is below a node of a shape are leaves of the shape. -/
theorem Shows.chunks_subset (shown : buffer.Shows shape) {part : Shape}
    (partShown : buffer.Shows part) (member : part.root ∈ shape.nodes) :
    part.chunks ⊆ shape.chunks := by
  induction shape with
  | leaf own text =>
      rw [Shape.nodes, List.mem_singleton] at member
      rw [partShown.unique shown member]
      exact List.Subset.refl _
  | branch own left right leftHypothesis rightHypothesis =>
      rw [Shape.nodes, List.mem_cons, List.mem_append] at member
      rcases member with same | inLeft | inRight
      · rw [partShown.unique shown same]
        exact List.Subset.refl _
      · exact List.subset_append_of_subset_left _ (leftHypothesis shown.2.2.2.2.2.1 inLeft)
      · exact List.subset_append_of_subset_right _ (rightHypothesis shown.2.2.2.2.2.2 inRight)

/-- Two trees with a common node have a common leaf. -/
theorem exists_shared_chunk (formed : buffer.WellFormed) (firstShown : buffer.Shows first)
    (secondShown : buffer.Shows second) {node : NodeId} (inFirst : node ∈ first.nodes)
    (inSecond : node ∈ second.nodes) : ∃ chunk ∈ first.chunks, chunk ∈ second.chunks := by
  rcases formed.shown node (firstShown.lt_nodeCount inFirst) with ⟨part, rfl, partShown⟩
  rcases List.exists_mem_of_ne_nil _ part.chunks_ne_nil with ⟨chunk, member⟩
  exact ⟨chunk, firstShown.chunks_subset partShown inFirst member,
    secondShown.chunks_subset partShown inSecond member⟩

/-- Where one place stands at two indices, one of the two is not its index. -/
theorem Shows.index_astray (shown : buffer.Shows shape) {place : Place} {index index' : Nat}
    (one : shape.Stands place index) (two : shape.Stands place index') (different : index ≠ index') :
    ∃ asked ≤ shape.text.length,
      buffer.indexOf (buffer.settle (buffer.locate shape.root asked)) ≠ asked := by
  by_cases right : buffer.indexOf (buffer.settle place) = index
  · refine ⟨index', two.means.le_length, ?_⟩
    rw [← shown.eq_locate two, right]
    exact different
  · refine ⟨index, one.means.le_length, ?_⟩
    rw [← shown.eq_locate one]
    exact right

/-- A branch over two trees with a common node has an index whose place is at another one. -/
theorem Shows.astray_of_shared {own node : NodeId} (formed : buffer.WellFormed)
    (shown : buffer.Shows (.branch own first second)) (inFirst : node ∈ first.nodes)
    (inSecond : node ∈ second.nodes) :
    ∃ asked ≤ (Shape.branch own first second).text.length,
      buffer.indexOf (buffer.settle (buffer.locate own asked)) ≠ asked := by
  have parts := shown
  rcases parts with ⟨_, _, _, firstText, _, firstShown, secondShown⟩
  rcases exists_shared_chunk formed firstShown secondShown inFirst inSecond with
    ⟨chunk, inFirst, inSecond⟩
  have someText := firstShown.chunk_ne_nil firstText inFirst
  rcases List.append_of_mem inFirst with ⟨before, after, firstChunks⟩
  rcases List.append_of_mem inSecond with ⟨before', after', secondChunks⟩
  have inFront : (Shape.branch own first second).chunks =
      before ++ chunk :: (after ++ second.chunks) := by
    rw [Shape.chunks, firstChunks, List.append_assoc, List.cons_append]
  have behind : (Shape.branch own first second).chunks =
      (first.chunks ++ before') ++ chunk :: after' := by
    rw [Shape.chunks, secondChunks, List.append_assoc]
  have later : extent before < extent (first.chunks ++ before') := by
    have positive := List.length_pos_iff.mpr someText
    rw [firstChunks, List.append_assoc, List.cons_append, extent_append, extent_cons]
    omega
  exact shown.index_astray (Shape.stands_of_chunks inFront someText)
    (Shape.stands_of_chunks behind someText) (Nat.ne_of_lt later)

end Buffer

namespace Store

variable {store : Store} {rope first second : Rope} {shape shape' : Shape}

/-- Every branch below the root of the rope is the parent of both its children. -/
def Intact (store : Store) (rope : Rope) : Prop := (store.buffer rope.buffer).Intact rope.root

/-- The ropes have no node in common. -/
def Apart (store : Store) (first second : Rope) : Prop :=
  first.buffer = second.buffer → (store.buffer first.buffer).Apart first.root second.root

theorem apart_iff (shown : store.Shows first shape) (shown' : store.Shows second shape')
    (sameBuffer : second.buffer = first.buffer) :
    store.Apart first second ↔ ∀ node ∈ shape.nodes, node ∉ shape'.nodes := by
  have here : (store.buffer first.buffer).Shows shape' := sameBuffer ▸ shown'.2
  rw [Apart, sameBuffer, forall_prop_of_true rfl, ← shown.1, ← shown'.1, shown.2.apart_iff here]

/-- Two ropes of one buffer that have text are joined by a new branch over their roots. -/
theorem concat_of_sameBuffer (shown : store.Shows first shape) (shown' : store.Shows second shape')
    (sameBuffer : second.buffer = first.buffer) (different : second.root ≠ first.root)
    (text : shape.text ≠ []) (text' : shape'.text ≠ []) :
    store.concat first second = (⟨first.buffer, (store.buffer first.buffer).nodeCount⟩,
      store.put first.buffer ((store.buffer first.buffer).addBranch shape.root shape'.root).2) := by
  have length := shown.2.length
  have length' := shown'.2.length
  rw [sameBuffer] at length'
  rw [← shown.1, ← shown'.1] at different
  have joins : (store.buffer first.buffer).concat shape.root (.tree shape'.root) =
      (store.buffer first.buffer).addBranch shape.root shape'.root := by
    rw [Buffer.concat, Buffer.adopt, if_neg different]
    simp only [Buffer.join, length, length', List.length_eq_zero_iff, text, text', if_false]
  simp only [Store.concat, update_eq, piece, if_pos sameBuffer, ← shown.1, ← shown'.1, joins]
  rfl

/-- A cursor is at the settled position at which it was asked for. -/
theorem Shows.position_cursor (shown : store.Shows rope shape) (sound : store.Sound) {index : Nat}
    (within : index ≤ shape.text.length) :
    ∃ cursor after, store.cursor rope index = (.ok cursor, after) ∧ store.SameTrees after ∧
      after.position cursor = store.positionAt rope index := by
  have rests := shown.rests_positionAt sound within
  rcases sound.cursorAt_keeps rests.has with ⟨_, keeps, inBuffer, sits⟩
  refine ⟨(store.cursorAt (store.positionAt rope index)).1,
    (store.cursorAt (store.positionAt rope index)).2, ?_, keeps.trees,
    (keeps.trees.rests rests).position_eq inBuffer sits⟩
  rw [cursor_eq, shown.length, if_neg (Nat.not_lt_of_le within)]

section Joined

variable (sound : store.Sound) (forked : store.Forked) (shown : store.Shows first shape)
  (shown' : store.Shows second shape') (sameBuffer : second.buffer = first.buffer)
  (different : second.root ≠ first.root) (text : shape.text ≠ []) (text' : shape'.text ≠ [])

include shown shown' sameBuffer different text text'

theorem shows_concat_of_sameBuffer :
    (store.concat first second).2.Shows (store.concat first second).1
      (.branch (store.buffer first.buffer).nodeCount shape shape') := by
  have here : (store.buffer first.buffer).Shows shape' := sameBuffer ▸ shown'.2
  rw [concat_of_sameBuffer shown shown' sameBuffer different text text']
  exact shows_put shown.lt_size (Buffer.shows_addBranch _ shown.2 here text text')

include sound

/-- The joined rope is a newest rope exactly if both were intact and share no node. -/
theorem newest_concat_iff (forked : store.Forked) :
    (store.concat first second).2.Newest (store.concat first second).1 ↔
      store.Intact first ∧ store.Intact second ∧ store.Apart first second := by
  have here : (store.buffer first.buffer).Shows shape' := sameBuffer ▸ shown'.2
  rw [concat_of_sameBuffer shown shown' sameBuffer different text text', Store.Newest,
    store.buffer_put shown.lt_size, if_pos rfl, Buffer.newest_addBranch_iff (sound _) (forked _)
      shown.2 here text text' (shown.1 ▸ shown'.1 ▸ different.symm), Intact, Intact, Apart,
    sameBuffer, shown.1, shown'.1, forall_prop_of_true rfl]

/-- If the ropes share a node, some cursor of the joined rope is not where it was asked for. -/
theorem concat_astray_of_shared (shared : ¬ store.Apart first second) :
    ∃ index ≤ (shape.text ++ shape'.text).length, ∃ cursor after,
      (store.concat first second).2.cursor (store.concat first second).1 index =
        (.ok cursor, after) ∧ after.index cursor ≠ index := by
  have joined := shows_concat_of_sameBuffer shown shown' sameBuffer different text text'
  rcases concat_spec sound shown shown' with ⟨_, _, _, evolves⟩
  obtain ⟨node, inFirst, inSecond⟩ : ∃ node ∈ shape.nodes, node ∈ shape'.nodes := by
    rw [apart_iff shown shown' sameBuffer] at shared
    push Not at shared
    exact shared
  rcases joined.2.astray_of_shared (evolves.sound _).formed inFirst inSecond with
    ⟨index, within, astray⟩
  rcases joined.position_cursor evolves.sound within with ⟨cursor, after, made, same, arrived⟩
  refine ⟨index, within, cursor, after, made, ?_⟩
  have root := joined.1
  rw [Shape.root_branch] at root
  rw [Store.index, arrived, same.indexOf, Store.positionAt, Store.indexOf, ← root]
  exact astray

end Joined

end Store

namespace Desk

/-- After any commands, two ropes of one buffer with text and different roots can be joined,
and what the joined rope is depends on their nodes.  It is a newest rope exactly if both were
intact and share no node, and then its cursors go about as on the list of its characters.  If
they share a node, one of its cursors is not at the index at which it was asked for. -/
theorem joined_ropes_navigate_unless_shared (commands : List Command) :
    let desk := run commands
    let store := desk.store
    ∀ first ∈ desk.ropes, ∀ second ∈ desk.ropes, second.buffer = first.buffer →
      second.root ≠ first.root → 0 < store.length first → 0 < store.length second →
      let text := (store.text first).toList ++ (store.text second).toList
      let (whole, joined) := store.concat first second
      (joined.Newest whole ↔ store.Intact first ∧ store.Intact second ∧ store.Apart first second) ∧
        (joined.Newest whole → ∀ index ≤ text.length, ∃ cursor after,
          joined.cursor whole index = (.ok cursor, after) ∧
            after.Navigates whole text cursor index) ∧
        (¬ store.Apart first second → ∃ index ≤ text.length, ∃ cursor after,
          joined.cursor whole index = (.ok cursor, after) ∧ after.index cursor ≠ index) := by
  intro desk store first member second member' sameBuffer different length length' text
  have agrees : desk.Agrees (Ledger.run commands) := run_agrees commands
  have sound : store.Sound := agrees.sound
  have forked : store.Forked := run_forked commands
  rcases agrees.rooted first member with ⟨shape, shown⟩
  rcases agrees.rooted second member' with ⟨shape', shown'⟩
  rw [shown.length, List.length_pos_iff] at length
  rw [shown'.length, List.length_pos_iff] at length'
  have isText : text = shape.text ++ shape'.text := by
    simp only [text]
    rw [shown.text, shown'.text, String.toList_ofList, String.toList_ofList]
  have joined := Store.shows_concat_of_sameBuffer shown shown' sameBuffer different length length'
  rcases Store.concat_spec sound shown shown' with ⟨_, _, _, evolves⟩
  rw [isText]
  refine ⟨Store.newest_concat_iff sound shown shown' sameBuffer different length length' forked,
    fun newest index within => ?_,
    Store.concat_astray_of_shared sound shown shown' sameBuffer different length length'⟩
  have hosts : (store.concat first second).2.Hosts (store.concat first second).1
      (.branch (store.buffer first.buffer).nodeCount shape shape') :=
    ⟨evolves.sound, joined.1, newest.current evolves.sound (forked.concat shown) joined⟩
  rcases hosts.cursor_spec within with ⟨cursor, after, made, sits⟩
  exact ⟨cursor, after, made, sits.navigates⟩

/-- Of the text abcdab, joined from abcd and a part of it, the start is at the index 4. -/
example :
    let store := (run [.newBuffer, .rope 0 "ab", .rope 0 "cd", .concat 0 1, .concat 2 0]).store
    store.text ⟨0, 3⟩ = "abcdab" ∧ store.indexOf (store.positionAt ⟨0, 3⟩ 0) = 4 := by
  decide +kernel

end Desk

end Reparse
