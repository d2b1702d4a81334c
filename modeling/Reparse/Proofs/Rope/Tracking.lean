import Mathlib.Data.List.Basic
import Reparse.Proofs.Rope.Stores
import Reparse.Proofs.Rope.Travel

/-!
# Edits of the newest version

A current tree is split, joined and edited without copies, and all parts are
current trees of their own.  Every other current tree of the buffer is left alone:
it stays current, and it is none of the parts.  What an edit does to the place of
an anchor is one function, and it takes each place that stays with a character to
the place that stays with the same character, in the new version or among the
characters cut out.
-/

namespace Reparse

namespace Buffer

variable {buffer : Buffer}

/-- Current trees other than the given ones stay current, and are none of the new ones. -/
def Spares (before after : Buffer) (old new : List NodeId) : Prop :=
  ∀ other : Shape, before.Current other → other.root ∉ old →
    after.Current other ∧ other.root ∉ new

/-! ## Splitting -/

/-- Both parts of a current tree are current trees. -/
structure Cleaving (before after : Buffer) (shape : Shape) (index : Nat) (first rest : Shape)
    (move : Place → Place) : Prop
    extends Division before after shape index first rest move where
  firstCurrent : after.Current first
  restCurrent : after.Current rest
  different : first.root ≠ rest.root
  spares : before.Spares after [shape.root] [first.root, rest.root]

theorem split_current {shape : Shape} (sound : buffer.Sound) (current : buffer.Current shape)
    {index : Nat} (within : index ≤ shape.text.length) :
    ∃ first rest move after, buffer.split shape.root index = (.ok (first.root, rest.root), after) ∧
      buffer.Cleaving after shape index first rest move := by
  rcases splitOwned_spec sound current.shown within with ⟨first, rest, move, roots, done⟩
  refine ⟨first, rest, move, (buffer.splitOwned shape.root index).2, ?_, done, ?_, ?_, ?_, ?_⟩
  · rw [split_of_linked current.shown current.linked current.loose within, ← roots]
  · exact ⟨done.firstShown, (done.linked current.linked current.distinct).1, done.firstLoose,
      (List.nodup_append.mp (done.distinct current.distinct)).1⟩
  · exact ⟨done.restShown, (done.linked current.linked current.distinct).2, done.restLoose,
      (List.nodup_append.mp (done.distinct current.distinct)).2.1⟩
  · exact (List.nodup_append.mp (done.distinct current.distinct)).2.2 _ first.root_mem_nodes _
      rest.root_mem_nodes
  · intro other otherCurrent apart
    have otherApart : ∀ node ∈ other.nodes, node ∉ shape.nodes := fun node member =>
      otherCurrent.apart current (fun same => apart (List.mem_singleton.mpr same)) member
    refine ⟨otherCurrent.congr done.grown fun node member => ?_, fun isPart => ?_⟩
    · exact done.parent node (otherCurrent.shown.lt_nodeCount member) (otherApart node member)
    · have inParts : other.root ∈ first.nodes ++ rest.nodes := by
        rw [List.mem_append]
        rcases List.mem_pair.mp isPart with same | same
        · exact Or.inl (same ▸ first.root_mem_nodes)
        · exact Or.inr (same ▸ rest.root_mem_nodes)
      rcases done.origin _ inParts with inside | new
      · exact otherApart _ other.root_mem_nodes inside
      · exact absurd otherCurrent.shown.root_lt (Nat.not_lt_of_le new)

/-! ## Joining -/

/-- A tree joined from two current trees is current. -/
structure Union (before after : Buffer) (first second whole : Shape) : Prop
    extends Junction before after first second whole where
  current : after.Current whole
  spares : before.Spares after [first.root, second.root] [whole.root]

theorem join_current {first second : Shape} (sound : buffer.Sound)
    (firstCurrent : buffer.Current first) (secondCurrent : buffer.Current second)
    (different : first.root ≠ second.root) :
    ∃ whole after, buffer.join first.root second.root = (whole.root, after) ∧
      buffer.Union after first second whole := by
  rcases join_spec sound firstCurrent.shown secondCurrent.shown with ⟨whole, root, done⟩
  have names : (first.nodes ++ second.nodes).Nodup := by
    refine List.nodup_append.mpr ⟨firstCurrent.distinct, secondCurrent.distinct, ?_⟩
    intro node inFirst other inSecond same
    exact firstCurrent.apart secondCurrent different inFirst (same ▸ inSecond)
  refine ⟨whole, (buffer.join first.root second.root).2, by rw [← root], done, ?_, ?_⟩
  · exact ⟨done.shown, done.linked firstCurrent.linked secondCurrent.linked names,
      done.loose firstCurrent.loose secondCurrent.loose, done.distinct names⟩
  · intro other otherCurrent apart
    rw [List.mem_pair, not_or] at apart
    have otherApart : ∀ node ∈ other.nodes, node ∉ first.nodes ++ second.nodes := by
      intro node member inParts
      rcases List.mem_append.mp inParts with inFirst | inSecond
      · exact otherCurrent.apart firstCurrent apart.1 member inFirst
      · exact otherCurrent.apart secondCurrent apart.2 member inSecond
    refine ⟨otherCurrent.congr done.grown fun node member => ?_, fun isWhole => ?_⟩
    · exact done.parent node (otherApart node member)
    · have inWhole : other.root ∈ whole.nodes := List.mem_singleton.mp isWhole ▸ whole.root_mem_nodes
      rcases done.origin _ inWhole with inside | new
      · exact otherApart _ other.root_mem_nodes inside
      · exact absurd otherCurrent.shown.root_lt (Nat.not_lt_of_le new)

/-! ## Trees that come in -/

/-- A current tree was made of new nodes only. -/
structure Adds (before after : Buffer) (shape : Shape) (text : List Char) : Prop where
  evolves : before.Evolves after
  current : after.Current shape
  text : shape.text = text
  spares : before.Spares after [] [shape.root]
  anchor : ∀ anchor, after.anchor? anchor = before.anchor? anchor

theorem adds_addLeaf (sound : buffer.Sound) (text : List Char) :
    buffer.Adds (buffer.addLeaf text.toArray).2 (.leaf buffer.nodeCount text) text := by
  refine ⟨evolves_addLeaf sound _, ⟨buffer.view_addLeaf_new _, trivial, ?_, ?_⟩, rfl, ?_,
    buffer.anchor?_addLeaf _⟩
  · rw [parent_addLeaf]
    exact buffer.parent_eq_none_of_le (Nat.le_refl _)
  · exact List.nodup_cons.mpr ⟨List.not_mem_nil, List.nodup_nil⟩
  · intro other current _
    refine ⟨current.congr (buffer.extends_addLeaf _) fun node _ => parent_addLeaf _ _ node, ?_⟩
    intro isNew
    exact Nat.ne_of_lt current.shown.root_lt (List.mem_singleton.mp isNew)

/-- What a piece is that an edit may take: a text, or a current tree other than the edited
one. -/
def Offers (buffer : Buffer) (text : List Char) : Piece → Prop
  | .tree root => ∃ shape : Shape, shape.root = root ∧ buffer.Current shape ∧ shape.text = text
  | .text chars => chars = text.toArray

theorem Current.offers (current : buffer.Current shape) :
    buffer.Offers shape.text (.tree shape.root) :=
  ⟨shape, rfl, current, rfl⟩

theorem offers_text (buffer : Buffer) (text : List Char) :
    buffer.Offers text (.text text.toArray) :=
  rfl

/-- The roots that a piece uses up. -/
def Piece.roots : Piece → List NodeId
  | .tree root => [root]
  | .text _ => []

/-- A piece is still on offer after a tree was split that it is not. -/
theorem Offers.spared {before after : Buffer} {text : List Char} {piece : Piece}
    {old new : List NodeId} (offers : before.Offers text piece) (spares : before.Spares after old new)
    (apart : ∀ root ∈ Piece.roots piece, root ∉ old) :
    after.Offers text piece ∧ ∀ root ∈ Piece.roots piece, root ∉ new := by
  cases piece with
  | text chars => exact ⟨offers, fun root member => absurd member List.not_mem_nil⟩
  | tree root =>
      rcases offers with ⟨shape, rfl, current, read⟩
      rcases spares shape current (apart _ (List.mem_singleton.mpr rfl)) with ⟨stays, notNew⟩
      refine ⟨⟨shape, rfl, stays, read⟩, fun root member => ?_⟩
      rw [List.mem_singleton.mp member]
      exact notNew

theorem concat_current {shape : Shape} {text : List Char} {piece : Piece} (sound : buffer.Sound)
    (current : buffer.Current shape) (offers : buffer.Offers text piece)
    (different : shape.root ∉ Piece.roots piece) :
    ∃ whole after, buffer.concat shape.root piece = (whole.root, after) ∧
      buffer.Evolves after ∧ after.Current whole ∧ whole.text = shape.text ++ text ∧
      buffer.Spares after (shape.root :: Piece.roots piece) [whole.root] ∧
      (∀ anchor, after.anchor? anchor = buffer.anchor? anchor) ∧
      (∀ past own place, shape.spot past own = some place → whole.spot past own = some place) ∧
      ∀ other : Shape, piece = .tree other.root → buffer.Shows other →
        ∀ past own place, other.spot past own = some place →
          whole.spot past (shape.text.length + own) = some place := by
  cases piece with
  | text chars =>
      cases offers
      have adds := adds_addLeaf sound text
      rcases adds.spares shape current List.not_mem_nil with ⟨stays, apart⟩
      rcases join_current adds.evolves.sound stays adds.current
        (fun same => apart (List.mem_singleton.mpr same)) with ⟨whole, after, becomes, done⟩
      refine ⟨whole, after, becomes, adds.evolves.trans done.evolves, done.current, done.text, ?_,
        fun anchor => (done.anchor anchor).trans (adds.anchor anchor), done.spotFirst, ?_⟩
      · intro other otherCurrent notShape
        rcases adds.spares other otherCurrent List.not_mem_nil with ⟨otherStays, notLeaf⟩
        refine done.spares other otherStays ?_
        rw [List.mem_pair, not_or]
        exact ⟨fun same => notShape (List.mem_singleton.mpr same),
          fun same => notLeaf (List.mem_singleton.mpr same)⟩
      · rintro other ⟨⟩
  | tree root =>
      rcases offers with ⟨second, rfl, secondCurrent, rfl⟩
      have apart : shape.root ≠ second.root := fun same => different (List.mem_singleton.mpr same)
      rcases join_current sound current secondCurrent apart with ⟨whole, after, becomes, done⟩
      refine ⟨whole, after, ?_, done.evolves, done.current, done.text, done.spares, done.anchor,
        done.spotFirst, ?_⟩
      · rw [concat, adopt, if_neg apart.symm]
        exact becomes
      · intro other isTree otherShown
        injection isTree with same
        rw [← secondCurrent.shown.unique otherShown same]
        exact done.spotSecond

/-! ## Replacing a range -/

/-- Where an edit takes the index of a character: into the new version, or among the
characters cut out. -/
inductive Landing where
  | kept (index : Nat)
  | removed (index : Nat)
deriving DecidableEq, Repr

/-- Where the character at an index lands. -/
def land (start stop inserted index : Nat) : Landing :=
  if index < start then .kept index
  else if index < stop then .removed (index - start)
  else .kept (index - (stop - start) + inserted)

/-- The newest version was edited. -/
structure Replacement (before after : Buffer) (shape : Shape) (start stop : Nat) (text : List Char)
    (used : List NodeId) (replaced removed : Shape) (move : Place → Place) : Prop where
  evolves : before.Evolves after
  replacedCurrent : after.Current replaced
  removedCurrent : after.Current removed
  different : replaced.root ≠ removed.root
  replacedText : replaced.text = shape.text.take start ++ text ++ shape.text.drop stop
  removedText : removed.text = (shape.text.take stop).drop start
  spares : before.Spares after (shape.root :: used) [replaced.root, removed.root]
  anchor : ∀ anchor, after.anchor? anchor = (before.anchor? anchor).map move
  fixed : ∀ place : Place, place.leaf < before.nodeCount → place.leaf ∉ shape.nodes →
    move place = place
  spot : ∀ past own place, shape.spot past own = some place →
    match land start stop text.length own with
    | .kept index => replaced.spot past index = some (move place)
    | .removed index => removed.spot past index = some (move place)
  /-- The tree of an empty version is left behind, with all that sits in it. -/
  void : shape.text = [] → after.Current shape ∧ shape.root ≠ replaced.root ∧ move = id

theorem replace_current {shape : Shape} {text : List Char} {piece : Piece} {start stop : Nat}
    (sound : buffer.Sound) (current : buffer.Current shape) (offers : buffer.Offers text piece)
    (different : shape.root ∉ Piece.roots piece) (ordered : start ≤ stop)
    (within : stop ≤ shape.text.length) :
    ∃ replaced removed after move, buffer.replace shape.root start stop piece =
        (.ok ⟨replaced.root, removed.root⟩, after) ∧
      buffer.Replacement after shape start stop text (Piece.roots piece) replaced removed move := by
  rcases split_current sound current (Nat.le_trans ordered within) with
    ⟨left, rest, move, cutOnce, firstCut, once⟩
  have restWithin : stop - start ≤ rest.text.length := by
    rw [once.restText, List.length_drop]
    omega
  rcases split_current once.sound once.restCurrent restWithin with
    ⟨removed, right, moveOn, cutTwice, secondCut, twice⟩
  rcases twice.spares left once.firstCurrent (fun same => once.different (List.mem_singleton.mp same))
    with ⟨leftCurrent, leftApart⟩
  rcases offers.spared once.spares (fun root member same =>
    different (List.mem_singleton.mp same ▸ member)) with ⟨offersOnce, apartOnce⟩
  rcases offersOnce.spared twice.spares (fun root member same =>
    apartOnce root member (List.mem_cons_of_mem _ same)) with ⟨offersTwice, apartTwice⟩
  rcases concat_current twice.sound leftCurrent offersTwice
      (fun member => apartOnce _ member List.mem_cons_self) with
    ⟨front, joinedOnce, firstJoin, firstEvolves, frontCurrent, frontText, firstSpares, firstAnchors,
      frontSpot, _⟩
  have partApart : ∀ root ∈ [removed.root, right.root], root ∉ left.root :: Piece.roots piece := by
    intro root member same
    rcases List.mem_cons.mp same with isLeft | inPiece
    · exact leftApart (isLeft ▸ member)
    · exact apartTwice root inPiece member
  rcases firstSpares removed twice.firstCurrent (partApart _ List.mem_cons_self) with
    ⟨removedOnce, removedNotFront⟩
  rcases firstSpares right twice.restCurrent
    (partApart _ (List.mem_cons_of_mem _ (List.mem_singleton.mpr rfl))) with
    ⟨rightCurrent, rightNotFront⟩
  rw [List.mem_singleton] at removedNotFront rightNotFront
  rcases concat_current firstEvolves.sound frontCurrent rightCurrent.offers
      (fun same => rightNotFront (List.mem_singleton.mp same).symm) with
    ⟨whole, joinedTwice, secondJoin, secondEvolves, wholeCurrent, wholeText, secondSpares,
      secondAnchors, wholeSpot, wholeSpotRight⟩
  rcases secondSpares removed removedOnce (by
    rw [Piece.roots, List.mem_pair, not_or]
    exact ⟨removedNotFront, twice.different⟩) with ⟨removedCurrent, removedNotWhole⟩
  refine ⟨whole, removed, joinedTwice, moveOn ∘ move, ?_, ?_⟩
  · rw [replace, if_neg (Nat.not_lt_of_le ordered), current.shown.length,
      if_neg (Nat.not_lt_of_le within), firstCut]
    simp only [secondCut, firstJoin, secondJoin]
  · constructor
    · exact ((once.evolves.trans twice.evolves).trans firstEvolves).trans secondEvolves
    · exact wholeCurrent
    · exact removedCurrent
    · exact fun same => removedNotWhole (List.mem_singleton.mpr same.symm)
    · rw [wholeText, frontText, once.firstText, twice.restText, once.restText, List.drop_drop,
        Nat.add_sub_cancel' ordered]
    · rw [twice.firstText, once.restText, List.drop_take]
    · intro other otherCurrent apart
      rw [List.mem_cons, not_or] at apart
      rcases once.spares other otherCurrent (fun same => apart.1 (List.mem_singleton.mp same)) with
        ⟨inOnce, notOnce⟩
      rw [List.mem_pair, not_or] at notOnce
      rcases twice.spares other inOnce (fun same => notOnce.2 (List.mem_singleton.mp same)) with
        ⟨inTwice, notTwice⟩
      rw [List.mem_pair, not_or] at notTwice
      rcases firstSpares other inTwice (fun same => (List.mem_cons.mp same).elim notOnce.1 apart.2)
        with ⟨inFirst, notFront⟩
      rcases secondSpares other inFirst (by
        rw [Piece.roots, List.mem_pair, not_or]
        exact ⟨fun same => notFront (List.mem_singleton.mpr same), notTwice.2⟩) with
        ⟨inSecond, notWhole⟩
      refine ⟨inSecond, ?_⟩
      rw [List.mem_pair, not_or]
      exact ⟨fun same => notWhole (List.mem_singleton.mpr same), notTwice.1⟩
    · intro anchor
      rw [secondAnchors, firstAnchors, twice.anchor, once.anchor, Option.map_map]
    · intro place old outside
      rw [Function.comp_apply, once.fixed place outside, twice.fixed place]
      intro inRest
      rcases once.origin _ (List.mem_append_right _ inRest) with inside | new
      · exact outside inside
      · exact absurd old (Nat.not_lt_of_le new)
    · intro past own place holds
      have first := once.spot current.distinct past own place holds
      rw [land]
      by_cases before : own < start
      · rw [if_pos before] at first
        rw [if_pos before]
        have stays : moveOn (move place) = move place := twice.fixed _
          (once.firstCurrent.apart once.restCurrent once.different (Shape.leaf_mem_of_spot first))
        rw [Function.comp_apply, stays]
        exact wholeSpot past own _ (frontSpot past own _ first)
      · rw [if_neg before] at first
        rw [if_neg before]
        have second := twice.spot once.restCurrent.distinct past _ _ first
        by_cases inside : own < stop
        · rw [if_pos (by omega)] at second
          rw [if_pos inside]
          exact second
        · rw [if_neg (by omega)] at second
          rw [if_neg inside]
          have landed := wholeSpotRight right rfl rightCurrent.shown past _ _ second
          have startLength : left.text.length = start := by
            rw [once.firstText, List.length_take, Nat.min_eq_left (Nat.le_trans ordered within)]
          rw [frontText, List.length_append, startLength] at landed
          have sameIndex : start + text.length + (own - start - (stop - start)) =
              own - (stop - start) + text.length := by omega
          rw [← sameIndex]
          exact landed
    · intro empty
      rw [empty, List.length_nil] at within
      rcases once.atStart (by omega) with ⟨restSame, stays⟩
      rcases twice.atStart (by omega) with ⟨rightSame, staysOn⟩
      have isShape : right = shape := rightSame.trans restSame
      rw [isShape] at rightCurrent rightNotFront secondJoin
      have unchanged : joinedOnce.concat front.root (.tree shape.root) = (front.root, joinedOnce) := by
        simp only [concat, adopt, if_neg rightNotFront, join, rightCurrent.shown.length, empty,
          List.length_nil, if_pos]
      rw [unchanged] at secondJoin
      injection secondJoin with sameRoot sameBuffer
      rw [← sameBuffer, ← sameRoot, stays, staysOn]
      exact ⟨rightCurrent, rightNotFront, rfl⟩

/-- A character lands where its index does. -/
theorem getElem?_land (text insertion : List Char) {start stop : Nat} (ordered : start ≤ stop)
    (within : stop ≤ text.length) (index : Nat) :
    match land start stop insertion.length index with
    | .kept moved => (text.take start ++ insertion ++ text.drop stop)[moved]? = text[index]?
    | .removed offset => ((text.take stop).drop start)[offset]? = text[index]? := by
  have startLength : (text.take start).length = start := by
    rw [List.length_take, Nat.min_eq_left (Nat.le_trans ordered within)]
  rw [land]
  by_cases before : index < start
  · rw [if_pos before]
    simp only
    rw [List.append_assoc, List.getElem?_append_left (by rw [startLength]; exact before),
      List.getElem?_take_of_lt before]
  · rw [if_neg before]
    by_cases inside : index < stop
    · rw [if_pos inside]
      simp only
      rw [List.getElem?_drop, Nat.add_sub_cancel' (Nat.le_of_not_lt before),
        List.getElem?_take_of_lt inside]
    · rw [if_neg inside]
      simp only
      rw [List.getElem?_append_right (by rw [List.length_append, startLength]; omega),
        List.getElem?_drop, List.length_append, startLength]
      congr 1
      omega

end Buffer

namespace Store

variable {store : Store}

/-- A current tree was made in one buffer of a store. -/
structure Adds (before after : Store) (id : BufferId) (made : Rope) (shape : Shape)
    (text : List Char) : Prop where
  buffer : made.buffer = id
  root : shape.root = made.root
  adds : (before.buffer id).Adds (after.buffer id) shape text
  elsewhere : ∀ other, other ≠ id → after.buffer other = before.buffer other
  size : after.buffers.size = before.buffers.size

theorem Adds.evolves {before after : Store} {id : BufferId} {made : Rope} {shape : Shape}
    {text : List Char} (sound : before.Sound) (done : before.Adds after id made shape text) :
    before.Evolves after := by
  intro other
  by_cases same : other = id
  · rw [same]
    exact done.adds.evolves
  · rw [done.elsewhere other same]
    exact Buffer.Evolves.refl (sound other)

theorem adds_rope (sound : store.Sound) {id : BufferId} (within : id < store.buffers.size)
    (text : String) :
    store.Adds (store.rope id text).2 id (store.rope id text).1
      (.leaf (store.buffer id).nodeCount text.toList) text.toList := by
  simp only [rope, update_eq]
  refine ⟨rfl, rfl, ?_, ?_, ?_⟩
  · rw [buffer_put store within, if_pos rfl]
    exact Buffer.adds_addLeaf (sound id) text.toList
  · intro other different
    rw [buffer_put store within, if_neg different]
  · exact Array.size_setIfInBounds

/-- An edit of a current tree by a rope of another buffer, or by another current tree of
its own buffer. -/
theorem replace_current (sound : store.Sound) {rope insertion : Rope} {shape other : Shape}
    (root : shape.root = rope.root) (current : (store.buffer rope.buffer).Current shape)
    (shown : store.Shows insertion other)
    (fresh : insertion.buffer = rope.buffer →
      (store.buffer rope.buffer).Current other ∧ other.root ≠ shape.root)
    {start stop : Nat} (ordered : start ≤ stop) (within : stop ≤ shape.text.length) :
    ∃ replaced removed after move,
      store.replace rope start stop insertion =
        (.ok ⟨⟨rope.buffer, replaced.root⟩, ⟨rope.buffer, removed.root⟩⟩,
          store.put rope.buffer after) ∧
      (store.buffer rope.buffer).Replacement after shape start stop other.text
        (if insertion.buffer = rope.buffer then [insertion.root] else []) replaced removed move := by
  by_cases same : insertion.buffer = rope.buffer
  · rcases fresh same with ⟨otherCurrent, different⟩
    rcases Buffer.replace_current (sound rope.buffer) current otherCurrent.offers
        (fun isOther => different (List.mem_singleton.mp isOther).symm) ordered within with
      ⟨replaced, removed, after, move, becomes, done⟩
    refine ⟨replaced, removed, after, move, ?_, ?_⟩
    · rw [replace, update_eq, piece, if_pos same, ← root, ← shown.1, becomes]
      rfl
    · rw [if_pos same, ← shown.1]
      exact done
  · rcases Buffer.replace_current (sound rope.buffer) current (Buffer.offers_text _ other.text)
        List.not_mem_nil ordered within with
      ⟨replaced, removed, after, move, becomes, done⟩
    refine ⟨replaced, removed, after, move, ?_, ?_⟩
    · rw [replace, update_eq, piece, if_neg same, ← root, ← shown.1, Buffer.text_of_shows shown.2,
        becomes]
      rfl
    · rw [if_neg same]
      exact done

end Store

end Reparse
