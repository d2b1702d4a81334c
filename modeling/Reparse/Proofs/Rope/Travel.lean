import Reparse.Proofs.Rope.Current

/-!
# Indices and places of the newest version

A place of a tree means an index: the characters before its leaf, and its offset.
The end of one leaf and the start of the next mean the same index, and of the two
the second one stands at it.  In a current tree every walk answers the place that
stands at the index it should arrive at.  That is the place found from the root,
so walks can be reckoned with as if they were steps on a list.
-/

namespace Reparse

namespace Shape

/-- The place is in a leaf of the shape, at this index of the whole text. -/
def Means (shape : Shape) (place : Place) (index : Nat) : Prop :=
  ∃ before text after, shape.chunks = before ++ (place.leaf, text) :: after ∧
    place.offset ≤ text.length ∧ index = extent before + place.offset

/-- The place means the index and is not at the end of a leaf that another one follows. -/
def Stands (shape : Shape) (place : Place) (index : Nat) : Prop :=
  ∃ before text after, shape.chunks = before ++ (place.leaf, text) :: after ∧
    place.offset ≤ text.length ∧ index = extent before + place.offset ∧
    (place.offset < text.length ∨ after = [])

variable {shape : Shape}

theorem Stands.means {place : Place} {index : Nat} (stands : shape.Stands place index) :
    shape.Means place index := by
  rcases stands with ⟨before, text, after, chunks, within, same, _⟩
  exact ⟨before, text, after, chunks, within, same⟩

theorem length_of_chunks {before after : List (NodeId × List Char)} {leaf : NodeId}
    {text : List Char} (chunks : shape.chunks = before ++ (leaf, text) :: after) :
    shape.text.length = extent before + text.length + extent after := by
  rw [← shape.extent_chunks, chunks, extent_append, extent_cons, Nat.add_assoc]

theorem Means.le_length {place : Place} {index : Nat} (means : shape.Means place index) :
    index ≤ shape.text.length := by
  rcases means with ⟨before, text, after, chunks, within, same⟩
  rw [length_of_chunks chunks, same]
  omega

theorem Means.mem_nodes {place : Place} {index : Nat} (means : shape.Means place index) :
    place.leaf ∈ shape.nodes := by
  rcases means with ⟨before, text, after, chunks, _, _⟩
  have member : (place.leaf, text) ∈ shape.chunks := by
    rw [chunks]
    exact List.mem_append_right _ List.mem_cons_self
  exact chunk_mem_nodes member

/-- Of two marks in a list, where the text before one of them reaches past the other, that
other one stands at the end of a leaf that is not the last. -/
theorem Stands.not_before {place other : Place} {index : Nat}
    {before after before' after' extra : List (NodeId × List Char)} {text text' : List Char}
    (longer : before = before' ++ (other.leaf, text') :: extra)
    (sameTail : after' = extra ++ (place.leaf, text) :: after)
    (same : index = extent before + place.offset) (same' : index = extent before' + other.offset)
    (settled : other.offset < text'.length ∨ after' = []) : False := by
  rw [longer, extent_append, extent_cons] at same
  simp only at same
  rcases settled with inside | last
  · omega
  · rw [sameTail, List.append_eq_nil_iff] at last
    cases last.2

/-- Only one place stands at an index. -/
theorem Stands.unique {place other : Place} {index : Nat} (one : shape.Stands place index)
    (two : shape.Stands other index) : place = other := by
  rcases one with ⟨before, text, after, chunks, _, same, settled⟩
  rcases two with ⟨before', text', after', chunks', _, same', settled'⟩
  rcases mark_in_append (chunks.symm.trans chunks') with ⟨extra, longer, sameTail⟩ | ⟨extra, longer, sameTail⟩
  · exact (Stands.not_before longer sameTail same same' settled').elim
  · cases extra with
    | nil =>
        rw [List.append_nil] at longer
        rw [List.nil_append] at sameTail
        rw [longer] at same'
        rcases List.cons.inj sameTail with ⟨sameChunk, _⟩
        have sameOffset : place.offset = other.offset := by omega
        have sameLeaf : place.leaf = other.leaf := (Prod.mk.inj sameChunk).1
        cases place
        cases other
        cases sameOffset
        cases sameLeaf
        rfl
    | cons head extra =>
        rw [List.cons_append] at sameTail
        rcases List.cons.inj sameTail with ⟨rfl, rest⟩
        exact (Stands.not_before longer rest same' same settled).elim

/-- A place that stays with a character means the index of the character, or the one
after it. -/
theorem means_of_spot {past : Bool} {own : Nat} {place : Place}
    (holds : shape.spot past own = some place) :
    shape.Means place (if past then own + 1 else own) := by
  induction shape generalizing own with
  | leaf node text =>
      rw [spot] at holds
      split at holds
      · next isPast =>
          rw [if_pos isPast]
          split at holds
          · next last =>
              cases holds
              exact ⟨[], text, [], rfl, Nat.le_refl _, by rw [extent_nil, last, Nat.zero_add]⟩
          · cases holds
      · next inFront =>
          rw [if_neg inFront]
          split at holds
          · next inside =>
              cases holds
              exact ⟨[], text, [], rfl, Nat.le_of_lt inside, by rw [extent_nil, Nat.zero_add]⟩
          · cases holds
  | branch node left right leftHypothesis rightHypothesis =>
      rw [spot] at holds
      split at holds
      · rcases leftHypothesis holds with ⟨before, text, after, chunks, within, same⟩
        refine ⟨before, text, after ++ right.chunks, ?_, within, same⟩
        rw [Shape.chunks, chunks, List.append_assoc, List.cons_append]
      · next notInLeft =>
          rcases rightHypothesis holds with ⟨before, text, after, chunks, within, same⟩
          refine ⟨left.chunks ++ before, text, after, ?_, within, ?_⟩
          · rw [Shape.chunks, chunks, List.append_assoc]
          · rw [extent_append, left.extent_chunks]
            split at same
            · next isPast =>
                rw [if_pos isPast]
                omega
            · next inFront =>
                rw [if_neg inFront]
                omega

end Shape

namespace Buffer

variable {buffer : Buffer} {shape : Shape}

/-- The place found from the root stands at its index. -/
theorem Shows.stands_locate (shown : buffer.Shows shape) {index : Nat}
    (within : index ≤ shape.text.length) :
    shape.Stands (buffer.locate shape.root index) index := by
  have enough := shown.height_lt
  rw [locate]
  generalize buffer.nodeCount = fuel at enough
  induction shape generalizing fuel index with
  | leaf node text =>
      cases fuel with
      | zero => exact absurd enough (Nat.not_lt_zero _)
      | succ fuel =>
          rcases view_eq_leaf_iff.mp shown with ⟨parent, anchors, found⟩
          simp only [locateWithin, Shape.root_leaf, found]
          exact ⟨[], text, [], rfl, within, (Nat.zero_add _).symm, Or.inr rfl⟩
  | branch node left right leftHypothesis rightHypothesis =>
      cases fuel with
      | zero => exact absurd enough (Nat.not_lt_zero _)
      | succ fuel =>
          rcases shown with ⟨found, _, _, _, _, leftShown, rightShown⟩
          rcases view_eq_branch_iff.mp found with ⟨parent, found⟩
          rw [Shape.height] at enough
          rw [Shape.text_branch, List.length_append] at within
          simp only [locateWithin, Shape.root_branch, found]
          split
          · next inLeft =>
              rcases leftHypothesis leftShown (Nat.le_of_lt inLeft) fuel (by omega) with
                ⟨before, text, after, chunks, fits, same, settled⟩
              refine ⟨before, text, after ++ right.chunks, ?_, fits, same, Or.inl ?_⟩
              · rw [Shape.chunks, chunks, List.append_assoc, List.cons_append]
              · rcases settled with inside | last
                · exact inside
                · have total := Shape.length_of_chunks chunks
                  rw [last, extent_nil] at total
                  omega
          · have inRight : index - left.text.length ≤ right.text.length := by
              omega
            rcases rightHypothesis rightShown inRight fuel (by omega) with
              ⟨before, text, after, chunks, fits, same, settled⟩
            refine ⟨left.chunks ++ before, text, after, ?_, fits, ?_, settled⟩
            · rw [Shape.chunks, chunks, List.append_assoc]
            · rw [extent_append, left.extent_chunks]
              omega

/-- The place found from the root stays with the character at its index. -/
theorem Shows.spot_locate (shown : buffer.Shows shape) {index : Nat}
    (within : index < shape.text.length) :
    shape.spot false index = some (buffer.locate shape.root index) := by
  have enough := shown.height_lt
  rw [locate]
  generalize buffer.nodeCount = fuel at enough
  induction shape generalizing fuel index with
  | leaf node text =>
      cases fuel with
      | zero => exact absurd enough (Nat.not_lt_zero _)
      | succ fuel =>
          rcases view_eq_leaf_iff.mp shown with ⟨parent, anchors, found⟩
          rw [Shape.text_leaf] at within
          rw [Shape.spot, if_neg Bool.false_ne_true, if_pos within]
          simp only [locateWithin, Shape.root_leaf, found]
  | branch node left right leftHypothesis rightHypothesis =>
      cases fuel with
      | zero => exact absurd enough (Nat.not_lt_zero _)
      | succ fuel =>
          rcases shown with ⟨found, _, _, _, _, leftShown, rightShown⟩
          rcases view_eq_branch_iff.mp found with ⟨parent, found⟩
          rw [Shape.height] at enough
          rw [Shape.text_branch, List.length_append] at within
          simp only [Shape.spot, locateWithin, Shape.root_branch, found]
          split
          · next inLeft => exact leftHypothesis leftShown inLeft fuel (by omega)
          · next notInLeft => exact rightHypothesis rightShown (by omega) fuel (by omega)

/-- The place that stands at an index is the one found from the root. -/
theorem Shows.eq_locate (shown : buffer.Shows shape) {place : Place} {index : Nat}
    (stands : shape.Stands place index) : place = buffer.locate shape.root index :=
  stands.unique (shown.stands_locate stands.means.le_length)

/-- Leaves of a tree have text unless the whole tree has none. -/
theorem Shows.chunk_ne_nil (shown : buffer.Shows shape) (someText : shape.text ≠ [])
    {chunk : NodeId × List Char} (member : chunk ∈ shape.chunks) : chunk.2 ≠ [] := by
  induction shape with
  | leaf node text =>
      rw [Shape.chunks, List.mem_singleton] at member
      rw [member]
      exact someText
  | branch node left right leftHypothesis rightHypothesis =>
      rcases shown with ⟨_, _, _, leftText, rightText, leftShown, rightShown⟩
      rw [Shape.chunks, List.mem_append] at member
      rcases member with inLeft | inRight
      · exact leftHypothesis leftShown leftText inLeft
      · exact rightHypothesis rightShown rightText inRight

/-- A leaf that follows another one has text. -/
theorem Shows.next_ne_nil (shown : buffer.Shows shape) {before after : List (NodeId × List Char)}
    {chunk next : NodeId × List Char} (chunks : shape.chunks = before ++ chunk :: next :: after) :
    next.2 ≠ [] := by
  have someText : shape.text ≠ [] := by
    cases shape with
    | leaf node text =>
        have lengths := congrArg List.length chunks
        simp only [Shape.chunks, List.length_append, List.length_cons, List.length_nil] at lengths
        omega
    | branch node left right =>
        rw [Shape.text_branch]
        intro empty
        exact shown.2.2.2.1 (List.append_eq_nil_iff.mp empty).1
  refine shown.chunk_ne_nil someText ?_
  rw [chunks]
  exact List.mem_append_right _ (List.mem_cons_of_mem _ List.mem_cons_self)

theorem Shows.length_chunk (shown : buffer.Shows shape) {chunk : NodeId × List Char}
    (member : chunk ∈ shape.chunks) : buffer.length chunk.1 = chunk.2.length :=
  length_eq_of_view (shown.view_chunk member)

theorem Shows.length_chunk_pos (shown : buffer.Shows shape) (someText : shape.text ≠ [])
    {leaf : NodeId} {text : List Char} (member : (leaf, text) ∈ shape.chunks) :
    0 < buffer.length leaf := by
  rw [shown.length_chunk member]
  exact List.length_pos_iff.mpr (shown.chunk_ne_nil someText member)

/-! ## Questions about one place -/

theorem Current.indexOf (current : buffer.Current shape) {place : Place} {index : Nat}
    (means : shape.Means place index) : buffer.indexOf place = index := by
  rcases means with ⟨before, text, after, chunks, _, same⟩
  rw [same]
  exact current.indexWithin chunks place.offset

theorem Current.rootOf_leaf (current : buffer.Current shape) {place : Place} {index : Nat}
    (means : shape.Means place index) : buffer.rootOf place.leaf = shape.root :=
  current.rootOf means.mem_nodes

theorem Shows.peek (shown : buffer.Shows shape) {place : Place} {index : Nat}
    (stands : shape.Stands place index) : buffer.peek place = shape.text[index]? := by
  rcases stands with ⟨before, text, after, chunks, within, same, settled⟩
  have member : (place.leaf, text) ∈ shape.chunks := by
    rw [chunks]
    exact List.mem_append_right _ List.mem_cons_self
  rw [Buffer.peek, shown.leafText_chunk member, ← shape.flatMap_chunks, chunks, List.flatMap_append,
    List.flatMap_cons, List.getElem?_toArray, same, extent,
    List.getElem?_append_right (Nat.le_add_right _ _), Nat.add_sub_cancel_left]
  rcases settled with inside | last
  · rw [List.getElem?_append_left inside]
  · rw [last, List.flatMap_nil, List.append_nil]

/-- Settling a place does not change what it means. -/
theorem Current.settle (current : buffer.Current shape) {place : Place} {index : Nat}
    (means : shape.Means place index) : buffer.settle place = buffer.locate shape.root index := by
  apply current.shown.eq_locate
  rcases means with ⟨before, text, after, chunks, within, same⟩
  have member : (place.leaf, text) ∈ shape.chunks := by
    rw [chunks]
    exact List.mem_append_right _ List.mem_cons_self
  have length : buffer.length place.leaf = text.length := current.shown.length_chunk member
  rcases Nat.exists_eq_succ_of_ne_zero (Nat.ne_of_gt (Nat.zero_lt_of_lt current.shown.root_lt)) with
    ⟨fuel, count⟩
  rw [Buffer.settle, count, settleWithin]
  split
  · next inside => exact ⟨before, text, after, chunks, within, same, Or.inl (length ▸ inside)⟩
  · next atEnd =>
      have full : place.offset = text.length := by
        rw [length] at atEnd
        omega
      rw [current.nextLeaf chunks]
      cases after with
      | nil =>
          rw [List.head?_nil, Option.map_none]
          simp only [length]
          exact ⟨before, text, [], chunks, Nat.le_refl _, full ▸ same, Or.inr rfl⟩
      | cons next after =>
          have nextMember : next ∈ shape.chunks := by
            rw [chunks]
            exact List.mem_append_right _ (List.mem_cons_of_mem _ List.mem_cons_self)
          have inside : 0 < buffer.length next.1 := by
            rw [current.shown.length_chunk nextMember]
            exact List.length_pos_iff.mpr (current.shown.next_ne_nil chunks)
          rw [List.head?_cons, Option.map_some]
          simp only [settleWithin, if_pos inside]
          refine ⟨before ++ [(place.leaf, text)], next.2, after, ?_, Nat.zero_le _, ?_, Or.inl ?_⟩
          · rw [chunks, List.append_assoc, List.singleton_append]
          · rw [same, full, extent_append, extent_cons, extent_nil]
            rfl
          · rw [← current.shown.length_chunk nextMember]
            exact inside

/-! ## Walks -/

theorem Current.forwardWithin (current : buffer.Current shape) (fuel : Nat)
    {before after : List (NodeId × List Char)} {leaf : NodeId} {text : List Char} {offset : Nat}
    (chunks : shape.chunks = before ++ (leaf, text) :: after) (within : offset ≤ text.length)
    (count : Nat) (running : 0 < fuel) (enough : count < fuel + (text.length - offset)) :
    buffer.forwardWithin fuel ⟨leaf, offset⟩ count =
      ((text.drop offset ++ after.flatMap Prod.snd).take count,
        buffer.locate shape.root (min (extent before + offset + count) shape.text.length)) := by
  induction fuel generalizing before after leaf text offset count with
  | zero => cases running
  | succ fuel inductionHypothesis =>
      have total := Shape.length_of_chunks chunks
      have member : (leaf, text) ∈ shape.chunks := by
        rw [chunks]
        exact List.mem_append_right _ List.mem_cons_self
      have taken : ∀ length, (text.toArray.extract offset (offset + length)).toList =
          (text.drop offset).take length := by
        intro length
        rw [List.extract_toArray, List.extract_eq_take_drop, Nat.add_sub_cancel_left]
      simp only [Buffer.forwardWithin, current.shown.leafText_chunk member, List.size_toArray, taken]
      by_cases short : count ≤ text.length - offset
      · have least : min count (text.length - offset) = count := Nat.min_eq_left short
        have means : shape.Means ⟨leaf, offset + count⟩ (extent before + offset + count) :=
          ⟨before, text, after, chunks, by simp only; omega, Nat.add_assoc _ _ _⟩
        rw [least, if_pos rfl, current.settle means, Nat.min_eq_left means.le_length,
          List.take_append_of_le_length (by rw [List.length_drop]; exact short)]
      · have least : min count (text.length - offset) = text.length - offset :=
          Nat.min_eq_right (by omega)
        have whole : (text.drop offset).take (text.length - offset) = text.drop offset :=
          List.take_of_length_le (Nat.le_of_eq List.length_drop)
        rw [least, if_neg (by omega), whole, current.nextLeaf chunks, List.take_append,
          List.take_of_length_le (by rw [List.length_drop]; omega), List.length_drop]
        cases after with
        | nil =>
            rw [List.head?_nil, Option.map_none, List.flatMap_nil, List.take_nil, List.append_nil]
            rw [extent_nil] at total
            have stands : shape.Stands ⟨leaf, text.length⟩ shape.text.length :=
              ⟨before, text, [], chunks, Nat.le_refl _, total, Or.inr rfl⟩
            rw [Nat.min_eq_right (by omega), ← current.shown.eq_locate stands]
        | cons next after =>
            have someText := List.length_pos_iff.mpr (current.shown.next_ne_nil chunks)
            have onward : shape.chunks = (before ++ [(leaf, text)]) ++ (next.1, next.2) :: after := by
              rw [chunks, List.append_assoc, List.singleton_append]
            have walk := inductionHypothesis onward (Nat.zero_le _) (count - (text.length - offset))
              (by omega) (by omega)
            rw [List.head?_cons, Option.map_some, List.flatMap_cons]
            simp only [walk, List.drop_zero, extent_append, extent_cons, extent_nil]
            refine congrArg (Prod.mk _) (congrArg _ (congrArg (min · _) ?_))
            omega

/-- A walk forward reads the text from the index on, and arrives that much later. -/
theorem Current.forward (current : buffer.Current shape) {place : Place} {index : Nat}
    (means : shape.Means place index) (count : Nat) :
    buffer.forward place count = ((shape.text.drop index).take count,
      buffer.locate shape.root (min (index + count) shape.text.length)) := by
  rcases means with ⟨before, text, after, chunks, within, same⟩
  have rest : shape.text.drop index = text.drop place.offset ++ after.flatMap Prod.snd := by
    rw [← shape.flatMap_chunks, chunks, List.flatMap_append, List.flatMap_cons, same, extent,
      List.drop_append, List.drop_of_length_le (Nat.le_add_right _ _), List.nil_append,
      Nat.add_sub_cancel_left, List.drop_append_of_le_length within]
  rw [Buffer.forward, rest, same]
  exact current.forwardWithin (count + 2) chunks within count (Nat.succ_pos _) (by omega)

theorem Current.backwardWithin (current : buffer.Current shape) (fuel : Nat)
    {before after : List (NodeId × List Char)} {leaf : NodeId} {text : List Char} {offset : Nat}
    (chunks : shape.chunks = before ++ (leaf, text) :: after) (within : offset ≤ text.length)
    (count : Nat) (running : 0 < fuel) (enough : count < fuel + offset) :
    shape.Means (buffer.backwardWithin fuel ⟨leaf, offset⟩ count)
      (extent before + offset - count) := by
  induction fuel generalizing before after leaf text offset count with
  | zero => cases running
  | succ fuel inductionHypothesis =>
      rw [Buffer.backwardWithin]
      split
      · next inside =>
          refine ⟨before, text, after, chunks, Nat.le_trans (Nat.sub_le _ _) within, ?_⟩
          simp only at inside ⊢
          omega
      · next outside =>
          simp only at outside
          rw [current.prevLeaf chunks]
          rcases List.eq_nil_or_concat before with rfl | ⟨earlier, previous, rfl⟩
          · change shape.Means ⟨leaf, 0⟩ _
            refine ⟨[], text, after, chunks, Nat.zero_le _, ?_⟩
            simp only [extent_nil]
            omega
          · rw [List.concat_eq_append] at chunks ⊢
            have member : previous ∈ shape.chunks := by
              rw [chunks]
              exact List.mem_append_left _ (List.mem_append_right _ List.mem_cons_self)
            have split_ : shape.chunks = earlier ++ (previous.1, previous.2) :: (leaf, text) :: after := by
              rw [chunks, List.append_assoc, List.singleton_append]
            have someText : 0 < previous.2.length := by
              refine List.length_pos_iff.mpr (current.shown.chunk_ne_nil ?_ member)
              intro empty
              have total := Shape.length_of_chunks split_
              have nextText := List.length_pos_iff.mpr (current.shown.next_ne_nil split_)
              rw [empty, extent_cons, List.length_nil] at total
              omega
            rw [List.getLast?_concat, Option.map_some]
            simp only [current.shown.length_chunk member, extent_append, extent_cons, extent_nil]
            have walk := inductionHypothesis split_ (Nat.le_refl _) (count - offset) (by omega)
              (by omega)
            have sameIndex : extent earlier + (previous.2.length + 0) + offset - count =
                extent earlier + previous.2.length - (count - offset) := by omega
            rw [sameIndex]
            exact walk

/-- A walk backward arrives that much earlier, or at the start. -/
theorem Current.backward (current : buffer.Current shape) {place : Place} {index : Nat}
    (means : shape.Means place index) (count : Nat) :
    buffer.backward place count = buffer.locate shape.root (index - count) := by
  rcases means with ⟨before, text, after, chunks, within, same⟩
  rw [Buffer.backward, same]
  exact current.settle
    (current.backwardWithin (count + 2) chunks within count (Nat.succ_pos _) (by omega))

end Buffer

end Reparse
