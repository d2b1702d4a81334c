import Reparse.Proofs.Edit.Log
import Reparse.Proofs.Rope.Tracking

namespace Reparse

/-!
# Places under an edit

A place in the newest version stays in front of a character, or past the last
character of a leaf.  An edit takes it along with that character, so a place that
is still in the document afterwards has moved as its index has.  A version
without text has no character to stay with.  Its places are left behind.

Two places of which the first stays in front of a character and the second comes
later keep that order, since characters do.
-/

namespace Shape

variable {shape : Shape}

/-- A place in a leaf stays with the character behind it, or with the one it is past. -/
theorem spot_of_chunks (past : Bool) {before after : List (NodeId × List Char)} {leaf : NodeId}
    {text : List Char} {offset : Nat} (chunks : shape.chunks = before ++ (leaf, text) :: after)
    (inside : offset < text.length) (last : past = true → offset + 1 = text.length) :
    shape.spot past (extent before + offset) =
      some ⟨leaf, if past then text.length else offset⟩ := by
  induction shape generalizing before after with
  | leaf node own =>
      rw [Shape.chunks] at chunks
      cases before with
      | nil =>
          rw [List.nil_append] at chunks
          cases chunks
          rw [extent_nil, Nat.zero_add, spot]
          cases past with
          | false => rw [if_neg Bool.false_ne_true, if_pos inside, if_neg Bool.false_ne_true]
          | true => rw [if_pos rfl, if_pos (last rfl), if_pos rfl]
      | cons head tail =>
          rw [List.cons_append, List.cons.injEq] at chunks
          exact absurd chunks.2.symm (List.append_ne_nil_of_right_ne_nil _ (List.cons_ne_nil _ _))
  | branch node left right leftHypothesis rightHypothesis =>
      rw [Shape.chunks] at chunks
      rw [spot]
      rcases mark_in_append chunks with ⟨rest, inLeft, _⟩ | ⟨rest, prefixed, inRight⟩
      · have total := length_of_chunks inLeft
        rw [if_pos (by omega)]
        exact leftHypothesis inLeft
      · rw [prefixed, extent_append, left.extent_chunks, if_neg (by omega)]
        have sameIndex : left.text.length + extent rest + offset - left.text.length =
            extent rest + offset := by omega
        rw [sameIndex]
        exact rightHypothesis inRight

/-- A place that stays with the character behind it stands at the index of the character. -/
theorem stands_of_spot {own : Nat} {place : Place} (holds : shape.spot false own = some place) :
    shape.Stands place own := by
  have inside : ∃ before text after, shape.chunks = before ++ (place.leaf, text) :: after ∧
      place.offset < text.length ∧ own = extent before + place.offset := by
    induction shape generalizing own with
    | leaf node text =>
        rw [spot, if_neg Bool.false_ne_true] at holds
        split at holds
        · next inside =>
            cases holds
            exact ⟨[], text, [], rfl, inside, by rw [extent_nil, Nat.zero_add]⟩
        · cases holds
    | branch node left right leftHypothesis rightHypothesis =>
        rw [spot] at holds
        split at holds
        · rcases leftHypothesis holds with ⟨before, text, after, chunks, inside, same⟩
          refine ⟨before, text, after ++ right.chunks, ?_, inside, same⟩
          rw [Shape.chunks, chunks, List.append_assoc, List.cons_append]
        · rcases rightHypothesis holds with ⟨before, text, after, chunks, inside, same⟩
          refine ⟨left.chunks ++ before, text, after, ?_, inside, ?_⟩
          · rw [Shape.chunks, chunks, List.append_assoc]
          · rw [extent_append, left.extent_chunks]
            omega
  rcases inside with ⟨before, text, after, chunks, inside, same⟩
  exact ⟨before, text, after, chunks, Nat.le_of_lt inside, same, Or.inl inside⟩

/-- Two places of a version, of which the first comes first, unless they are one. -/
def Leads (shape : Shape) (first second : Place) (index index' : Nat) : Prop :=
  first = second ∨ shape.spot false index = some first ∧ index < index'

end Shape

namespace Buffer

variable {buffer : Buffer} {host : Shape} {place : Place} {index : Nat}

/-- The place that stands at the index of a character stays with it. -/
theorem Shows.spot_of_stands {shape : Shape} (shown : buffer.Shows shape)
    (stands : shape.Stands place index) (inside : index < shape.text.length) :
    shape.spot false index = some place := by
  rw [shown.eq_locate stands]
  exact shown.spot_locate inside

/-- Nothing follows the last leaf, so all places at the end of a text are settled. -/
theorem Shows.stands_of_means {shape : Shape} (shown : buffer.Shows shape)
    (means : shape.Means place shape.text.length) : shape.Stands place shape.text.length := by
  rcases means with ⟨before, text, after, chunks, within, same⟩
  refine ⟨before, text, after, chunks, within, same, Or.inr ?_⟩
  have total := Shape.length_of_chunks chunks
  cases after with
  | nil => rfl
  | cons next after =>
      have someText := List.length_pos_iff.mpr (shown.next_ne_nil chunks)
      rw [extent_cons] at total
      omega

/-- A place means an index of a current tree. -/
structure Sits (buffer : Buffer) (host : Shape) (place : Place) (index : Nat) : Prop where
  current : buffer.Current host
  means : host.Means place index

/-- Every place of a version stays with a character, if there is one. -/
theorem Sits.spot (sits : buffer.Sits host place index) :
    host.spot false index = some place ∨
      (∃ own, index = own + 1 ∧ host.spot true own = some place) ∨ host.text = [] := by
  rcases sits with ⟨current, before, text, after, chunks, within, same⟩
  rcases place with ⟨leaf, offset⟩
  simp only at chunks within same
  by_cases inside : offset < text.length
  · refine Or.inl ?_
    rw [same]
    exact Shape.spot_of_chunks false chunks inside (fun impossible => by cases impossible)
  · by_cases empty : text = []
    · refine Or.inr (Or.inr ?_)
      refine Classical.byContradiction fun someText => ?_
      have member : (leaf, text) ∈ host.chunks := by
        rw [chunks]
        exact List.mem_append_right _ List.mem_cons_self
      exact current.shown.chunk_ne_nil someText member empty
    · have positive := List.length_pos_iff.mpr empty
      refine Or.inr (Or.inl ⟨extent before + (text.length - 1), by omega, ?_⟩)
      have atEnd : offset = text.length := by omega
      rw [atEnd]
      exact Shape.spot_of_chunks true chunks (by omega) (fun _ => by omega)

theorem Sits.indexOf (sits : buffer.Sits host place index) : buffer.indexOf place = index :=
  sits.current.indexOf sits.means

theorem Sits.rootOf (sits : buffer.Sits host place index) :
    buffer.rootOf place.leaf = host.root :=
  sits.current.rootOf_leaf sits.means

/-- A place sits in one tree only. -/
theorem Sits.host_eq {other : Shape} {index' : Nat} (sits : buffer.Sits host place index)
    (sits' : buffer.Sits other place index') : host = other := by
  refine sits.current.shown.unique sits'.current.shown ?_
  rw [← sits.rootOf, sits'.rootOf]

theorem Sits.index_eq {other : Shape} {index' : Nat} (sits : buffer.Sits host place index)
    (sits' : buffer.Sits other place index') : index = index' := by
  rw [← sits.indexOf, sits'.indexOf]

theorem Sits.sameTrees {after : Buffer} (sits : buffer.Sits host place index)
    (same : buffer.SameTrees after) : after.Sits host place index :=
  ⟨sits.current.sameTrees same, sits.means⟩

/-- A place that stands at an index sits there. -/
theorem Current.sits {shape : Shape} (current : buffer.Current shape)
    (stands : shape.Stands place index) : buffer.Sits shape place index :=
  ⟨current, stands.means⟩

/-! ## Edits -/

section Replacement

variable {after : Buffer} {shape replaced removed : Shape} {start stop : Nat} {text : List Char}
  {used : List NodeId} {move : Place → Place}

/-- The place of a character that an edit keeps. -/
theorem Replacement.sits_of_spot
    (done : buffer.Replacement after shape start stop text used replaced removed move)
    {past : Bool} {own : Nat} (holds : shape.spot past own = some place) :
    (∃ moved, land start stop text.length own = .kept moved ∧
      replaced.spot past moved = some (move place)) ∨
    after.Sits removed (move place)
      (if past then own - start + 1 else own - start) := by
  have landed := done.spot past own place holds
  cases landing : land start stop text.length own with
  | kept moved =>
      rw [landing] at landed
      exact Or.inl ⟨moved, rfl, landed⟩
  | removed offset =>
      rw [landing] at landed
      refine Or.inr ⟨done.removedCurrent, ?_⟩
      have isOffset : offset = own - start := by
        rw [land] at landing
        split at landing
        · cases landing
        · split at landing
          · cases landing
            rfl
          · cases landing
      rw [← isOffset]
      exact Shape.means_of_spot landed

/-- Every place still sits somewhere after an edit.  If that is in the new version it
was in the old one, and its index has moved with the text. -/
theorem Replacement.sits
    (done : buffer.Replacement after shape start stop text used replaced removed move)
    (current : buffer.Current shape) (ordered : start ≤ stop)
    (sits : buffer.Sits host place index) (unused : host.root ∉ used) :
    ∃ host' moved, after.Sits host' (move place) moved ∧
      (host'.root = replaced.root → host = shape ∧
        Edit.Moves ⟨start, stop, text.length⟩ index moved) := by
  by_cases elsewhere : host.root = shape.root
  · have isShape : host = shape := sits.current.shown.unique current.shown elsewhere
    subst isShape
    have outside : ∀ moved, after.Sits removed (move place) moved →
        ∃ host' moved, after.Sits host' (move place) moved ∧
          (host'.root = replaced.root → host = host ∧
            Edit.Moves ⟨start, stop, text.length⟩ index moved) :=
      fun moved cut => ⟨removed, moved, cut, fun same => absurd same.symm done.different⟩
    rcases sits.spot with inFront | ⟨own, isPast, past⟩ | empty
    · rcases done.sits_of_spot inFront with ⟨moved, landing, kept⟩ | cut
      · refine ⟨replaced, moved, ⟨done.replacedCurrent, Shape.means_of_spot kept⟩,
          fun _ => ⟨rfl, ?_⟩⟩
        simp only [Edit.Moves, Edit.shift, Edit.insertedStop]
        rw [land] at landing
        split at landing
        · cases landing
          omega
        · split at landing
          · cases landing
          · cases landing
            omega
      · exact outside _ cut
    · rcases done.sits_of_spot past with ⟨moved, landing, kept⟩ | cut
      · refine ⟨replaced, moved + 1, ⟨done.replacedCurrent, Shape.means_of_spot kept⟩,
          fun _ => ⟨rfl, ?_⟩⟩
        simp only [Edit.Moves, Edit.shift, Edit.insertedStop]
        rw [land] at landing
        split at landing
        · cases landing
          omega
        · split at landing
          · cases landing
          · cases landing
            omega
      · exact outside _ cut
    · rcases done.void empty with ⟨stays, apart, fixed⟩
      rw [fixed]
      exact ⟨host, index, ⟨stays, sits.means⟩, fun same => absurd same apart⟩
  · have apart : host.root ∉ shape.root :: used := fun member =>
      (List.mem_cons.mp member).elim elsewhere unused
    rcases done.spares host sits.current apart with ⟨stays, isNeither⟩
    rw [List.mem_pair, not_or] at isNeither
    have fixed : move place = place := done.fixed place
      (sits.current.shown.lt_nodeCount sits.means.mem_nodes)
      (sits.current.apart current elsewhere sits.means.mem_nodes)
    rw [fixed]
    exact ⟨host, index, ⟨stays, sits.means⟩, fun same => absurd same isNeither.1⟩

/-- A place that stays with a character, and is still in the document after an edit, stays with
the character still. -/
theorem Replacement.kept_of_spot
    (done : buffer.Replacement after shape start stop text used replaced removed move)
    {past : Bool} {own moved : Nat} (holds : shape.spot past own = some place)
    (lands : after.Sits replaced (move place) moved) :
    ∃ target, land start stop text.length own = .kept target ∧
      replaced.spot past target = some (move place) ∧ moved = if past then target + 1 else target := by
  rcases done.sits_of_spot holds with ⟨target, landing, kept⟩ | cut
  · exact ⟨target, landing, kept,
      lands.index_eq ⟨done.replacedCurrent, Shape.means_of_spot kept⟩⟩
  · exact absurd (congrArg Shape.root (lands.host_eq cut)) done.different

/-- A place before another one is so after an edit, if both are still in the document. -/
theorem Replacement.precedes
    (done : buffer.Replacement after shape start stop text used replaced removed move)
    (ordered : start ≤ stop) {first second : Place} {index index' moved moved' : Nat}
    (sits' : buffer.Sits shape second index') (inFront : shape.spot false index = some first)
    (before : index < index') (lands : after.Sits replaced (move first) moved)
    (lands' : after.Sits replaced (move second) moved') :
    replaced.spot false moved = some (move first) ∧ moved < moved' := by
  rcases done.kept_of_spot inFront lands with ⟨target, landing, kept, rfl⟩
  refine ⟨kept, ?_⟩
  rcases sits'.spot with inFront' | ⟨own, isPast, past⟩ | empty
  · rcases done.kept_of_spot inFront' lands' with ⟨target', landing', _, rfl⟩
    grind [land]
  · rcases done.kept_of_spot past lands' with ⟨target', landing', _, rfl⟩
    grind [land]
  · have within := Shape.lt_length_of_spot inFront
    rw [empty, List.length_nil] at within
    exact absurd within (Nat.not_lt_zero _)

/-- Places that keep their order in a version keep it in the next. -/
theorem Replacement.leads
    (done : buffer.Replacement after shape start stop text used replaced removed move)
    (ordered : start ≤ stop) {first second : Place}
    {index index' moved moved' : Nat} (sits' : buffer.Sits shape second index')
    (leads : shape.Leads first second index index')
    (lands : after.Sits replaced (move first) moved)
    (lands' : after.Sits replaced (move second) moved') :
    replaced.Leads (move first) (move second) moved moved' := by
  rcases leads with same | ⟨inFront, before⟩
  · exact Or.inl (by rw [same])
  · exact Or.inr (done.precedes ordered sits' inFront before lands lands')

/-- A place that is apart from an edit stands after it where it should. -/
theorem Replacement.stands
    (done : buffer.Replacement after shape start stop text used replaced removed move)
    (current : buffer.Current shape) (ordered : start ≤ stop) (within : stop ≤ shape.text.length)
    {moved : Nat} (stands : shape.Stands place index)
    (apart : index < start ∧ moved = index ∨
      stop < index ∧ moved = Edit.shift ⟨start, stop, text.length⟩ index) :
    replaced.Stands (move place) moved := by
  have fits := stands.means.le_length
  simp only [Edit.shift, Edit.insertedStop] at apart
  have land_eq : ∀ own, own < start ∨ stop ≤ own → land start stop text.length own =
      .kept (if own < start then own else own - (stop - start) + text.length) := by
    intro own outside
    rw [land]
    split
    · rfl
    · rw [if_neg (by omega)]
  rcases Nat.lt_or_eq_of_le fits with inside | atEnd
  · have holds := current.shown.spot_of_stands stands inside
    have landed := done.spot false index place holds
    rw [land_eq index (by omega)] at landed
    have isMoved : (if index < start then index else index - (stop - start) + text.length) =
        moved := by
      split <;> omega
    rw [isMoved] at landed
    exact Shape.stands_of_spot landed
  · -- The place is past the last character, which the edit keeps.
    have later : stop < index := by omega
    rcases (current.sits stands).spot with inFront | ⟨own, rfl, past⟩ | empty
    · exact absurd (Shape.lt_length_of_spot inFront) (by omega)
    · have landed := done.spot true own place past
      rw [land_eq own (by omega), if_neg (by omega)] at landed
      have means := Shape.means_of_spot landed
      have isMoved : (if true = true then own - (stop - start) + text.length + 1
          else own - (stop - start) + text.length) = moved := by
        rw [if_pos rfl]
        omega
      have isEnd : moved = replaced.text.length := by
        rw [done.replacedText]
        simp only [List.length_append, List.length_take, List.length_drop]
        omega
      rw [isMoved, isEnd] at means
      rw [isEnd]
      exact done.replacedCurrent.shown.stands_of_means means
    · rw [empty, List.length_nil] at within fits
      exact absurd within (by omega)

end Replacement

end Buffer

end Reparse
