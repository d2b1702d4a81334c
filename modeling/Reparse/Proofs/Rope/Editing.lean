import Reparse.Proofs.Rope.Splitting

/-!
# What splitting and joining do

Each operation is described once, for any shapes that its buffer shows.  The
description has a part that holds for every version: the texts of the results, and
that the buffer only grows.  The other part holds for trees whose branches are the
parents of their children: the results are such trees again, and the places of
anchors go along with their characters.

A version that does not own the path of a split is split from a copy, and then
only the first part says anything about the version.
-/

namespace Reparse

namespace Buffer

variable {buffer : Buffer}

/-- What every operation keeps: well-formed trees, and anchors where they are listed. -/
structure Sound (buffer : Buffer) : Prop where
  formed : buffer.WellFormed
  seated : buffer.Seated

theorem Sound.empty : Sound {} := ⟨WellFormed.empty, Seated.empty⟩

theorem Sound.addLeaf (sound : buffer.Sound) (text : Array Char) : (buffer.addLeaf text).2.Sound :=
  ⟨sound.formed.addLeaf text, sound.seated.addLeaf text⟩

theorem Sound.release (sound : buffer.Sound) (node : NodeId) : (buffer.setParent node none).Sound :=
  ⟨sound.formed.release node, sound.seated.setParent node none⟩

theorem parent_release (buffer : Buffer) (node other : NodeId) :
    (buffer.setParent node none).parent other =
      if other = node then none else buffer.parent other := by
  by_cases same : other = node
  · rw [if_pos same, same]
    rcases Nat.lt_or_ge node buffer.nodeCount with within | beyond
    · exact parent_setParent_self buffer within none
    · exact parent_eq_none_of_le _ (by rwa [nodeCount_setParent])
  · rw [if_neg same, parent_setParent_ne buffer same]

/-- What every operation on trees does to its buffer: nodes are only added, and as many
anchors are in use as before. -/
structure Evolves (before after : Buffer) : Prop where
  grown : before.Extends after
  sound : after.Sound
  kept : ∀ anchor, (after.anchor? anchor).isSome = (before.anchor? anchor).isSome

theorem Evolves.refl (sound : buffer.Sound) : buffer.Evolves buffer :=
  ⟨Extends.refl buffer, sound, fun _ => rfl⟩

theorem Evolves.trans {first second third : Buffer} (one : first.Evolves second)
    (two : second.Evolves third) : first.Evolves third :=
  ⟨one.grown.trans two.grown, two.sound, fun anchor => (two.kept anchor).trans (one.kept anchor)⟩

theorem evolves_addLeaf (sound : buffer.Sound) (text : Array Char) :
    buffer.Evolves (buffer.addLeaf text).2 :=
  ⟨buffer.extends_addLeaf text, sound.addLeaf text, fun _ => rfl⟩

/-! ## Dividing a tree -/

/-- A tree parted in two, with what becomes of the place of each anchor. -/
structure Parting (before after : Buffer) (shape : Shape) (index : Nat) (first rest : Shape)
    (move : Place → Place) : Prop where
  grown : before.Extends after
  sound : after.Sound
  firstShown : after.Shows first
  restShown : after.Shows rest
  firstText : first.text = shape.text.take index
  restText : rest.text = shape.text.drop index
  origin : ∀ node ∈ first.nodes ++ rest.nodes, node ∈ shape.nodes ∨ before.nodeCount ≤ node
  distinct : shape.nodes.Nodup → (first.nodes ++ rest.nodes).Nodup
  parent : ∀ node, node < before.nodeCount → node ∉ shape.nodes →
    after.parent node = before.parent node
  linked : before.Linked shape → shape.nodes.Nodup → after.Linked first ∧ after.Linked rest
  anchor : ∀ anchor, after.anchor? anchor = (before.anchor? anchor).map move
  fixed : ∀ place : Place, place.leaf ∉ shape.nodes → move place = place
  spot : shape.nodes.Nodup → ∀ past own place, shape.spot past own = some place →
    (if own < index then first.spot past own else rest.spot past (own - index)) = some (move place)
  atStart : index = 0 → rest = shape ∧ move = id

/-- A parting of which both sides are trees of their own. -/
structure Division (before after : Buffer) (shape : Shape) (index : Nat) (first rest : Shape)
    (move : Place → Place) : Prop
    extends Parting before after shape index first rest move where
  firstLoose : after.parent first.root = none
  restLoose : after.parent rest.root = none

section Division

variable {before after : Buffer} {shape first rest : Shape} {index : Nat} {move : Place → Place}

theorem Parting.evolves (parted : before.Parting after shape index first rest move) :
    before.Evolves after :=
  ⟨parted.grown, parted.sound, fun anchor => by rw [parted.anchor, Option.isSome_map]⟩

/-- The roots of both sides are made roots in the end. -/
theorem Parting.loosen (parted : before.Parting after shape index first rest move) :
    before.Division ((after.setParent first.root none).setParent rest.root none) shape index first
      rest move := by
  have later : after.Extends ((after.setParent first.root none).setParent rest.root none) :=
    (after.extends_setParent _ _).trans (extends_setParent _ _ _)
  have parents : ∀ node, ((after.setParent first.root none).setParent rest.root none).parent node =
      if node = rest.root then none else if node = first.root then none else after.parent node := by
    intro node
    rw [parent_release, parent_release]
  refine ⟨⟨parted.grown.trans later, (parted.sound.release _).release _, parted.firstShown.mono later,
    parted.restShown.mono later, parted.firstText, parted.restText, parted.origin, parted.distinct,
    ?_, ?_, parted.anchor, parted.fixed, parted.spot, parted.atStart⟩, ?_, ?_⟩
  · intro node old outside
    have apart : ∀ other ∈ first.nodes ++ rest.nodes, node ≠ other := by
      rintro other member rfl
      rcases parted.origin node member with inside | new
      · exact outside inside
      · exact absurd old (Nat.not_lt_of_le new)
    rw [parents, if_neg (apart _ (List.mem_append_right _ rest.root_mem_nodes)),
      if_neg (apart _ (List.mem_append_left _ first.root_mem_nodes))]
    exact parted.parent node old outside
  · intro whole names
    rcases List.nodup_append.mp (parted.distinct names) with ⟨firstNames, restNames, apart⟩
    rcases parted.linked whole names with ⟨firstLinked, restLinked⟩
    refine ⟨firstLinked.congr fun node inner => ?_, restLinked.congr fun node inner => ?_⟩
    · rw [parents, if_neg, if_neg]
      · rintro rfl
        exact Shape.root_notMem_inner firstNames inner
      · exact apart node (Shape.inner_subset_nodes inner) _ rest.root_mem_nodes
    · rw [parents, if_neg, if_neg]
      · exact (apart _ first.root_mem_nodes node (Shape.inner_subset_nodes inner)).symm
      · rintro rfl
        exact Shape.root_notMem_inner restNames inner
  · rw [parents, if_pos rfl, ite_self]
  · rw [parents, if_pos rfl]

/-- An empty leaf and the whole tree are a division too, on either side. -/
theorem splitOwned_spec (sound : buffer.Sound) (shown : buffer.Shows shape)
    (within : index ≤ shape.text.length) :
    ∃ first rest move, (buffer.splitOwned shape.root index).1 = (first.root, rest.root) ∧
      buffer.Division (buffer.splitOwned shape.root index).2 shape index first rest move := by
  have grown := buffer.extends_addLeaf #[]
  have leafShown : (buffer.addLeaf #[]).2.Shows (.leaf buffer.nodeCount []) :=
    buffer.view_addLeaf_new #[]
  have new : buffer.nodeCount ∉ shape.nodes :=
    fun member => Nat.lt_irrefl _ (shown.lt_nodeCount member)
  have keepsLinks : buffer.Linked shape → (buffer.addLeaf #[]).2.Linked shape :=
    fun linked => linked.congr fun node _ => parent_addLeaf buffer #[] node
  have keepsAnchors : ∀ anchor, (buffer.addLeaf #[]).2.anchor? anchor =
      (buffer.anchor? anchor).map id := by
    intro anchor
    rw [Option.map_id, id, anchor?_addLeaf]
  by_cases atStart : index = 0
  · refine ⟨.leaf buffer.nodeCount [], shape, id, ?_, ?_⟩
    · simp only [splitOwned, if_pos atStart]
      rfl
    · simp only [splitOwned, if_pos atStart]
      refine Parting.loosen ⟨grown, sound.addLeaf #[], leafShown, shown.mono grown, ?_, ?_, ?_, ?_,
        fun node _ _ => parent_addLeaf buffer #[] node,
        fun linked _ => ⟨trivial, keepsLinks linked⟩, keepsAnchors, fun _ _ => rfl, ?_,
        fun _ => ⟨rfl, rfl⟩⟩
      · rw [atStart]
        rfl
      · rw [atStart]
        rfl
      · intro node member
        rcases List.mem_cons.mp member with rfl | old
        · exact Or.inr (Nat.le_refl _)
        · exact Or.inl old
      · exact fun names => List.nodup_cons.mpr ⟨new, names⟩
      · intro _ past own place holds
        rw [if_neg (by omega), atStart]
        exact holds
  · by_cases atEnd : index = shape.text.length
    · refine ⟨shape, .leaf buffer.nodeCount [], id, ?_, ?_⟩
      · simp only [splitOwned, if_neg atStart, shown.length, if_pos atEnd]
        rfl
      · simp only [splitOwned, if_neg atStart, shown.length, if_pos atEnd]
        refine Parting.loosen ⟨grown, sound.addLeaf #[], shown.mono grown, leafShown, ?_, ?_, ?_, ?_,
          fun node _ _ => parent_addLeaf buffer #[] node,
          fun linked _ => ⟨keepsLinks linked, trivial⟩, keepsAnchors, fun _ _ => rfl, ?_,
          fun zero => absurd zero atStart⟩
        · rw [atEnd, List.take_length]
        · rw [atEnd, List.drop_length, Shape.text_leaf]
        · intro node member
          rcases List.mem_append.mp member with old | isNew
          · exact Or.inl old
          · exact Or.inr (Nat.le_of_eq (List.mem_singleton.mp isNew).symm)
        · intro names
          refine List.nodup_append.mpr ⟨names, List.nodup_cons.mpr ⟨List.not_mem_nil, List.nodup_nil⟩,
            fun node inside other isNew same => new ?_⟩
          rw [← List.mem_singleton.mp isNew, ← same]
          exact inside
        · intro _ past own place holds
          rw [if_pos (atEnd ▸ Shape.lt_length_of_spot holds)]
          exact holds
    · have cutSpec := splitWithin_spec sound.formed sound.seated shown buffer.nodeCount
        shown.height_lt index within
      refine ⟨(shape.cut index buffer.nodeCount).first, (shape.cut index buffer.nodeCount).rest,
        shape.cutPlace index buffer.nodeCount, ?_⟩
      simp only [splitOwned, if_neg atStart, shown.length, if_neg atEnd]
      generalize buffer.splitWithin buffer.nodeCount shape.root index = answer at cutSpec ⊢
      rcases answer with ⟨⟨firstRoot, restRoot⟩, cut⟩
      rcases cutSpec with ⟨roots, done⟩
      cases roots
      refine ⟨rfl, Parting.loosen ⟨done.grown, ⟨done.formed, done.seated⟩, done.first, done.rest,
        (shape.text_cut index _).1, (shape.text_cut index _).2, ?_, ?_, ?_, done.linked, done.anchor,
        fun place outside => Shape.cutPlace_of_notMem outside, ?_, fun zero => absurd zero atStart⟩⟩
      · intro node member
        rcases Shape.mem_nodes_cut member with inner | isNew
        · exact Or.inl (Shape.inner_subset_nodes inner)
        · exact Or.inr isNew.1
      · exact fun names => Shape.nodup_cut index names fun node member => shown.lt_nodeCount member
      · exact fun node old outside =>
          done.parent node old fun inner => outside (Shape.inner_subset_nodes inner)
      · exact fun names past own place holds =>
          Shape.spot_cut names (Nat.lt_of_le_of_ne within atEnd) holds

end Division

/-- A linked tree owns every path of its own. -/
theorem ownsPathWithin_of_linked {shape : Shape} (shown : buffer.Shows shape)
    (linked : buffer.Linked shape) (fuel index : Nat) :
    buffer.ownsPathWithin fuel shape.root index = true := by
  induction shape generalizing fuel index with
  | leaf node text =>
      cases fuel with
      | zero => rfl
      | succ fuel =>
          rcases view_eq_leaf_iff.mp shown with ⟨parent, anchors, found⟩
          simp only [ownsPathWithin, Shape.root_leaf, found]
  | branch node left right leftHypothesis rightHypothesis =>
      cases fuel with
      | zero => rfl
      | succ fuel =>
          rcases shown with ⟨found, _, _, _, _, leftShown, rightShown⟩
          rcases view_eq_branch_iff.mp found with ⟨parent, found⟩
          rcases linked with ⟨ownsLeft, ownsRight, leftLinked, rightLinked⟩
          simp only [ownsPathWithin, Shape.root_branch, found, ownsLeft, ownsRight, beq_self_eq_true,
            Bool.true_and]
          split
          · exact leftHypothesis leftShown leftLinked fuel index
          · split
            · exact rightHypothesis rightShown rightLinked fuel _
            · rfl

theorem split_error {shape : Shape} (shown : buffer.Shows shape) {index : Nat}
    (beyond : shape.text.length < index) :
    buffer.split shape.root index = (.error (.outOfBounds index shape.text.length), buffer) := by
  simp only [split, shown.length, if_pos beyond]

/-- A version that owns its path is split itself. -/
theorem split_of_owned {shape : Shape} (shown : buffer.Shows shape) {index : Nat}
    (within : index ≤ shape.text.length) (owned : buffer.ownsPath shape.root index = true) :
    buffer.split shape.root index =
      (.ok (buffer.splitOwned shape.root index).1, (buffer.splitOwned shape.root index).2) := by
  simp only [split, shown.length, if_neg (Nat.not_lt_of_le within), if_pos owned]

theorem shows_copy {shape : Shape} (shown : buffer.Shows shape) :
    (buffer.addLeaf (buffer.text shape.root).toArray).2.Shows (.leaf buffer.nodeCount shape.text) := by
  rw [text_of_shows shown]
  exact buffer.view_addLeaf_new shape.text.toArray

/-- Any other version is split from a copy, which is as long. -/
theorem split_of_superseded {shape : Shape} (shown : buffer.Shows shape) {index : Nat}
    (within : index ≤ shape.text.length) (superseded : ¬ buffer.ownsPath shape.root index = true) :
    let grown := (buffer.addLeaf (buffer.text shape.root).toArray).2
    buffer.split shape.root index =
      (.ok (grown.splitOwned buffer.nodeCount index).1, (grown.splitOwned buffer.nodeCount index).2) := by
  have copied : (buffer.addLeaf (buffer.text shape.root).toArray).2.length buffer.nodeCount =
      shape.text.length := (shows_copy shown).length
  simp only [split, shown.length, if_neg (Nat.not_lt_of_le within), if_neg superseded, fst_addLeaf,
    copied]

/-- A version splits into the text before the index and the text after it. -/
theorem split_spec {shape : Shape} (sound : buffer.Sound) (shown : buffer.Shows shape) {index : Nat}
    (within : index ≤ shape.text.length) :
    ∃ first rest after, buffer.split shape.root index = (.ok (first.root, rest.root), after) ∧
      buffer.Evolves after ∧ after.Shows first ∧ after.Shows rest ∧
      first.text = shape.text.take index ∧ rest.text = shape.text.drop index := by
  by_cases owned : buffer.ownsPath shape.root index = true
  · rcases splitOwned_spec sound shown within with ⟨first, rest, move, roots, done⟩
    refine ⟨first, rest, _, ?_, done.evolves, done.firstShown, done.restShown, done.firstText,
      done.restText⟩
    rw [split_of_owned shown within owned, roots]
  · rcases splitOwned_spec (sound.addLeaf _) (shows_copy shown) within with
      ⟨first, rest, move, roots, done⟩
    refine ⟨first, rest, _, ?_, (evolves_addLeaf sound _).trans done.evolves, done.firstShown,
      done.restShown, done.firstText, done.restText⟩
    rw [split_of_superseded shown within owned, ← roots]
    rfl

/-- A linked tree of its own is split itself, and not a copy of it. -/
theorem split_of_linked {shape : Shape} (shown : buffer.Shows shape) (linked : buffer.Linked shape)
    (loose : buffer.parent shape.root = none) {index : Nat} (within : index ≤ shape.text.length) :
    buffer.split shape.root index =
      (.ok (buffer.splitOwned shape.root index).1, (buffer.splitOwned shape.root index).2) := by
  refine split_of_owned shown within ?_
  rw [ownsPath, loose, ownsPathWithin_of_linked shown linked]
  rfl

end Buffer

/-! ## Joining two trees -/

namespace Shape

/-- Two shapes one after the other, where neither side of a branch may be empty. -/
def joined (first second : Shape) (next : NodeId) : Shape :=
  if second.text = [] then first
  else if first.text = [] then second
  else .branch next first second

theorem text_joined (first second : Shape) (next : NodeId) :
    (first.joined second next).text = first.text ++ second.text := by
  rw [joined]
  split
  · next empty => rw [empty, List.append_nil]
  · split
    · next empty => rw [empty, List.nil_append]
    · rfl

theorem mem_nodes_joined {first second : Shape} {next node : NodeId}
    (member : node ∈ (first.joined second next).nodes) :
    node ∈ first.nodes ++ second.nodes ∨ node = next := by
  rw [List.mem_append]
  rw [joined] at member
  split at member
  · exact Or.inl (Or.inl member)
  · split at member
    · exact Or.inl (Or.inr member)
    · rw [nodes, List.mem_cons, List.mem_append] at member
      exact member.symm

theorem nodup_joined {first second : Shape} {next : NodeId}
    (distinct : (first.nodes ++ second.nodes).Nodup) (new : next ∉ first.nodes ++ second.nodes) :
    (first.joined second next).nodes.Nodup := by
  rcases List.nodup_append.mp distinct with ⟨firstDistinct, secondDistinct, _⟩
  rw [joined]
  split
  · exact firstDistinct
  · split
    · exact secondDistinct
    · exact List.nodup_cons.mpr ⟨new, distinct⟩

theorem spot_joined_first {past : Bool} {first second : Shape} {next : NodeId} {own : Nat}
    {place : Place} (holds : first.spot past own = some place) :
    (first.joined second next).spot past own = some place := by
  have within := lt_length_of_spot holds
  rw [joined]
  split
  · exact holds
  · split
    · next empty =>
        rw [empty] at within
        exact absurd within (Nat.not_lt_zero _)
    · rw [spot, if_pos within]
      exact holds

theorem spot_joined_second {past : Bool} {first second : Shape} {next : NodeId} {own : Nat}
    {place : Place} (holds : second.spot past own = some place) :
    (first.joined second next).spot past (first.text.length + own) = some place := by
  have within := lt_length_of_spot holds
  rw [joined]
  split
  · next empty =>
      rw [empty] at within
      exact absurd within (Nat.not_lt_zero _)
  · split
    · next empty =>
        rw [empty, List.length_nil, Nat.zero_add]
        exact holds
    · rw [spot, if_neg (Nat.not_lt.mpr (Nat.le_add_right _ _)), Nat.add_sub_cancel_left]
      exact holds

end Shape

namespace Buffer

variable {buffer : Buffer}

/-- Two trees joined into one. -/
structure Junction (before after : Buffer) (first second whole : Shape) : Prop where
  grown : before.Extends after
  sound : after.Sound
  shown : after.Shows whole
  text : whole.text = first.text ++ second.text
  origin : ∀ node ∈ whole.nodes, node ∈ first.nodes ++ second.nodes ∨ before.nodeCount ≤ node
  distinct : (first.nodes ++ second.nodes).Nodup → whole.nodes.Nodup
  parent : ∀ node, node ∉ first.nodes ++ second.nodes → after.parent node = before.parent node
  loose : before.parent first.root = none → before.parent second.root = none →
    after.parent whole.root = none
  linked : before.Linked first → before.Linked second → (first.nodes ++ second.nodes).Nodup →
    after.Linked whole
  anchor : ∀ anchor, after.anchor? anchor = before.anchor? anchor
  spotFirst : ∀ past own place, first.spot past own = some place → whole.spot past own = some place
  spotSecond : ∀ past own place, second.spot past own = some place →
    whole.spot past (first.text.length + own) = some place

theorem Junction.evolves {before after : Buffer} {first second whole : Shape}
    (joined : before.Junction after first second whole) : before.Evolves after :=
  ⟨joined.grown, joined.sound, fun anchor => by rw [joined.anchor]⟩

theorem join_spec {first second : Shape} (sound : buffer.Sound) (firstShown : buffer.Shows first)
    (secondShown : buffer.Shows second) :
    ∃ whole, (buffer.join first.root second.root).1 = whole.root ∧
      buffer.Junction (buffer.join first.root second.root).2 first second whole := by
  have new : buffer.nodeCount ∉ first.nodes ++ second.nodes := by
    intro member
    rcases List.mem_append.mp member with inFirst | inSecond
    · exact Nat.lt_irrefl _ (firstShown.lt_nodeCount inFirst)
    · exact Nat.lt_irrefl _ (secondShown.lt_nodeCount inSecond)
  have origin : ∀ node ∈ (first.joined second buffer.nodeCount).nodes,
      node ∈ first.nodes ++ second.nodes ∨ buffer.nodeCount ≤ node :=
    fun node member => (Shape.mem_nodes_joined member).imp_right fun same => Nat.le_of_eq same.symm
  refine ⟨first.joined second buffer.nodeCount, ?_⟩
  by_cases secondEmpty : second.text = []
  · have isFirst : first.joined second buffer.nodeCount = first := by
      rw [Shape.joined, if_pos secondEmpty]
    have stays : buffer.join first.root second.root = (first.root, buffer) := by
      rw [join, secondShown.length, secondEmpty, List.length_nil, if_pos rfl]
    rw [stays]
    refine ⟨by rw [isFirst], Extends.refl _, sound, by rw [isFirst]; exact firstShown,
      Shape.text_joined first second _, origin, fun names => Shape.nodup_joined names new,
      fun _ _ => rfl, ?_, ?_, fun _ => rfl, fun _ _ _ => Shape.spot_joined_first,
      fun _ _ _ => Shape.spot_joined_second⟩
    · intro firstLoose _
      rw [isFirst]
      exact firstLoose
    · intro firstLinked _ _
      rw [isFirst]
      exact firstLinked
  · by_cases firstEmpty : first.text = []
    · have isSecond : first.joined second buffer.nodeCount = second := by
        rw [Shape.joined, if_neg secondEmpty, if_pos firstEmpty]
      have stays : buffer.join first.root second.root = (second.root, buffer) := by
        rw [join, secondShown.length, firstShown.length, firstEmpty, List.length_nil, if_pos rfl,
          if_neg (fun none => secondEmpty (List.length_eq_zero_iff.mp none))]
      rw [stays]
      refine ⟨by rw [isSecond], Extends.refl _, sound, by rw [isSecond]; exact secondShown,
        Shape.text_joined first second _, origin, fun names => Shape.nodup_joined names new,
        fun _ _ => rfl, ?_, ?_, fun _ => rfl, fun _ _ _ => Shape.spot_joined_first,
        fun _ _ _ => Shape.spot_joined_second⟩
      · intro _ secondLoose
        rw [isSecond]
        exact secondLoose
      · intro _ secondLinked _
        rw [isSecond]
        exact secondLinked
    · have isBranch : first.joined second buffer.nodeCount =
          .branch buffer.nodeCount first second := by
        rw [Shape.joined, if_neg secondEmpty, if_neg firstEmpty]
      have becomes : buffer.join first.root second.root =
          buffer.addBranch first.root second.root := by
        rw [join, secondShown.length, firstShown.length,
          if_neg (fun none => secondEmpty (List.length_eq_zero_iff.mp none)),
          if_neg (fun none => firstEmpty (List.length_eq_zero_iff.mp none))]
      rw [becomes]
      refine ⟨by rw [isBranch]; rfl, buffer.extends_addBranch _ _,
        ⟨sound.formed.addBranch firstShown secondShown firstEmpty secondEmpty,
          sound.seated.addBranch _ _⟩, ?_, Shape.text_joined first second _, origin,
        fun names => Shape.nodup_joined names new, ?_, ?_, ?_, fun _ => rfl,
        fun _ _ _ => Shape.spot_joined_first, fun _ _ _ => Shape.spot_joined_second⟩
      · rw [isBranch]
        exact buffer.shows_addBranch firstShown secondShown firstEmpty secondEmpty
      · intro node outside
        rw [parent_addBranch buffer firstShown.root_lt secondShown.root_lt, if_neg]
        rintro (rfl | rfl)
        · exact outside (List.mem_append_left _ first.root_mem_nodes)
        · exact outside (List.mem_append_right _ second.root_mem_nodes)
      · intro _ _
        rw [isBranch, Shape.root_branch, parent_addBranch buffer firstShown.root_lt
          secondShown.root_lt, if_neg]
        · exact buffer.parent_eq_none_of_le (Nat.le_refl _)
        · rintro (same | same)
          · exact new (same ▸ List.mem_append_left _ first.root_mem_nodes)
          · exact new (same ▸ List.mem_append_right _ second.root_mem_nodes)
      · intro firstLinked secondLinked names
        rw [isBranch]
        exact firstLinked.addBranch secondLinked firstShown secondShown names

/-! ## Pieces -/

/-- The text that a piece stands for. -/
def Reads (buffer : Buffer) (text : List Char) : Piece → Prop
  | .tree root => ∃ shape : Shape, shape.root = root ∧ buffer.Shows shape ∧ shape.text = text
  | .text chars => chars = text.toArray

theorem Reads.mono {first second : Buffer} (grown : first.Extends second) {text : List Char}
    {piece : Piece} (reads : first.Reads text piece) : second.Reads text piece := by
  cases piece with
  | tree root =>
      rcases reads with ⟨shape, same, shown, read⟩
      exact ⟨shape, same, shown.mono grown, read⟩
  | text chars => exact reads

/-- A piece becomes a tree, which is a new leaf unless it was another tree already. -/
theorem adopt_spec {text : List Char} {piece : Piece} (sound : buffer.Sound)
    (reads : buffer.Reads text piece) (root : NodeId) :
    ∃ shape : Shape, (buffer.adopt root piece).1 = shape.root ∧ shape.text = text ∧
      (buffer.adopt root piece).2.Shows shape ∧ buffer.Evolves (buffer.adopt root piece).2 ∧
      (∀ node, (buffer.adopt root piece).2.parent node = buffer.parent node) ∧
      (∀ anchor, (buffer.adopt root piece).2.anchor? anchor = buffer.anchor? anchor) ∧
      (shape = .leaf buffer.nodeCount text ∨ piece = .tree shape.root ∧ shape.root ≠ root) := by
  have leaf : ∃ shape : Shape, (buffer.addLeaf text.toArray).1 = shape.root ∧ shape.text = text ∧
      (buffer.addLeaf text.toArray).2.Shows shape ∧
      buffer.Evolves (buffer.addLeaf text.toArray).2 ∧
      (∀ node, (buffer.addLeaf text.toArray).2.parent node = buffer.parent node) ∧
      (∀ anchor, (buffer.addLeaf text.toArray).2.anchor? anchor = buffer.anchor? anchor) ∧
      (shape = .leaf buffer.nodeCount text ∨ piece = .tree shape.root ∧ shape.root ≠ root) :=
    ⟨.leaf buffer.nodeCount text, rfl, rfl, buffer.view_addLeaf_new _, evolves_addLeaf sound _,
      buffer.parent_addLeaf _, buffer.anchor?_addLeaf _, Or.inl rfl⟩
  cases piece with
  | text chars =>
      cases reads
      exact leaf
  | tree other =>
      rcases reads with ⟨shape, rfl, shown, rfl⟩
      by_cases same : shape.root = root
      · rw [adopt, if_pos same, text_of_shows shown]
        exact leaf
      · rw [adopt, if_neg same]
        exact ⟨shape, rfl, rfl, shown, Evolves.refl sound, fun _ => rfl, fun _ => rfl,
          Or.inr ⟨rfl, same⟩⟩

/-- A version followed by a piece has the text of both. -/
theorem concat_spec {shape : Shape} {text : List Char} {piece : Piece} (sound : buffer.Sound)
    (shown : buffer.Shows shape) (reads : buffer.Reads text piece) :
    ∃ whole : Shape, (buffer.concat shape.root piece).1 = whole.root ∧
      buffer.Evolves (buffer.concat shape.root piece).2 ∧
      (buffer.concat shape.root piece).2.Shows whole ∧ whole.text = shape.text ++ text := by
  rcases adopt_spec sound reads shape.root with ⟨other, root, otherText, otherShown, adopted, _⟩
  rw [concat]
  rcases join_spec adopted.sound (shown.mono adopted.grown) otherShown with ⟨whole, wholeRoot, done⟩
  rw [← root] at wholeRoot done
  exact ⟨whole, wholeRoot, adopted.trans done.evolves, done.shown, otherText ▸ done.text⟩

/-! ## Replacing a range -/

theorem replace_inverted {root start stop : Nat} {piece : Piece} (inverted : stop < start) :
    buffer.replace root start stop piece = (.error (.inverted start stop), buffer) := by
  simp only [replace, if_pos inverted]

theorem replace_outOfBounds {shape : Shape} (shown : buffer.Shows shape) {start stop : Nat}
    {piece : Piece} (ordered : start ≤ stop) (beyond : shape.text.length < stop) :
    buffer.replace shape.root start stop piece =
      (.error (.outOfBounds stop shape.text.length), buffer) := by
  simp only [replace, if_neg (Nat.not_lt_of_le ordered), shown.length, if_pos beyond]

/-- Replacing a range of a version splices the text of the piece, and answers the old range. -/
theorem replace_spec {shape : Shape} {text : List Char} {piece : Piece} {start stop : Nat}
    (sound : buffer.Sound) (shown : buffer.Shows shape) (reads : buffer.Reads text piece)
    (ordered : start ≤ stop) (within : stop ≤ shape.text.length) :
    ∃ replaced removed after, buffer.replace shape.root start stop piece =
        (.ok ⟨replaced.root, removed.root⟩, after) ∧
      buffer.Evolves after ∧ after.Shows replaced ∧ after.Shows removed ∧
      replaced.text = shape.text.take start ++ text ++ shape.text.drop stop ∧
      removed.text = (shape.text.take stop).drop start := by
  rcases split_spec sound shown (Nat.le_trans ordered within) with
    ⟨left, rest, cutOnce, firstCut, once, leftShown, restShown, leftText, restText⟩
  have restWithin : stop - start ≤ rest.text.length := by
    rw [restText, List.length_drop]
    omega
  rcases split_spec once.sound restShown restWithin with
    ⟨removed, right, cutTwice, secondCut, twice, removedShown, rightShown, removedText, rightText⟩
  rcases concat_spec twice.sound (leftShown.mono twice.grown) (reads.mono (once.trans twice).grown) with
    ⟨front, frontRoot, joinedOnce, frontShown, frontText⟩
  have rightReads : (cutTwice.concat left.root piece).2.Reads right.text (.tree right.root) :=
    ⟨right, rfl, rightShown.mono joinedOnce.grown, rfl⟩
  rcases concat_spec joinedOnce.sound frontShown rightReads with
    ⟨whole, wholeRoot, joinedTwice, wholeShown, wholeText⟩
  refine ⟨whole, removed, _, ?_, ((once.trans twice).trans joinedOnce).trans joinedTwice, wholeShown,
    removedShown.mono (joinedOnce.trans joinedTwice).grown, ?_, ?_⟩
  · rw [replace, if_neg (Nat.not_lt_of_le ordered), shown.length, if_neg (Nat.not_lt_of_le within),
      firstCut]
    simp only [secondCut, frontRoot, wholeRoot]
  · rw [wholeText, frontText, leftText, rightText, restText, List.drop_drop,
      Nat.add_sub_cancel' ordered]
  · rw [removedText, restText, List.drop_take]

end Buffer

end Reparse
