import Reparse.Proofs.Languages.Words.Promises
import Reparse.Proofs.Languages.Words.Visits
import Reparse.Proofs.Parsing.Footing

namespace Reparse

/-!
# Kept nodes of word lists while edits are pending

An edit may cut out the end of a node and leave its start in the document.  Nobody knows then
what the node is good for, but some things can still be said of it.  Where the log of edits
reports nothing its rule could be invoked at its start.  If the log does not report what its
rule would find there now, then it does not report what the node was made of, and the node ends
where it should.

After a parse each kept node is one that a parse of the whole text comes to, so all of this
holds, and no edit takes it away.
-/

namespace Words

/-- What is known of a kept node whose start is at an index of the document, by the places of its
cursors. -/
structure Claim (margin : Nat) (log : EditLog) (shape : Shape) (rule : Rule) (first second : Place)
    (index : Nat) : Prop where
  /-- The start is in front of a character, unless nothing was consumed. -/
  front : shape.spot false index = some first ∨ first = second
  starts : log.overlaps ⟨index, index⟩ margin = false → shape.Stands first index
  opens : log.overlaps ⟨index, index⟩ margin = false → OpensAt shape.text rule index
  stops : ∀ outline, Derives (.node rule) (shape.text.drop index) outline →
    log.overlaps ⟨index, index + outline.length⟩ margin = false →
    shape.Stands second (index + outline.length)

/-- What is known of a kept node. -/
def Claims (store : Store) (margin : Nat) (log : EditLog) (shape : Shape) (rule : Rule)
    (node : Node) : Prop :=
  ∀ first second index, store.place? node.start = some first → store.place? node.stop = some second →
    shape.Means first index → Claim margin log shape rule first second index

theorem Claim.foothold {margin : Nat} {log : EditLog} {shape : Shape} {rule : Rule}
    {first second : Place} {index : Nat} (claim : Claim margin log shape rule first second index) :
    Foothold margin log shape first second index :=
  ⟨claim.front, claim.starts⟩

theorem Claims.footed {store : Store} {margin : Nat} {log : EditLog} {shape : Shape} {rule : Rule}
    {node : Node} (claims : Claims store margin log shape rule node) :
    node.Footed store margin log shape :=
  fun first second index seated seated' means =>
    (claims first second index seated seated' means).foothold

/-- A kept node is one that a parse of the whole text comes to. -/
def Placed (store : Store) (id : BufferId) (shape : Shape) (rule : Rule) (node : Node) : Prop :=
  ∃ index outline, Visits shape.text (.node rule) index ∧
    Derives (.node rule) (shape.text.drop index) outline ∧
    node.start.StandsAt store id shape index ∧
    node.stop.StandsAt store id shape (index + outline.length)

variable {margin : Nat} {log : EditLog} {shape : Shape} {rule : Rule} {first second : Place}
  {index : Nat} {store : Store} {id : BufferId} {node : Node}

theorem Placed.starts (placed : Placed store id shape rule node) :
    ∃ index, node.start.StandsAt store id shape index := by
  rcases placed with ⟨index, _, _, _, starts, _⟩
  exact ⟨index, starts⟩

theorem Placed.keeps {after : Store} (placed : Placed store id shape rule node)
    (keeps : store.Keeps after) : Placed after id shape rule node := by
  rcases placed with ⟨index, outline, visits, derives, starts, stops⟩
  exact ⟨index, outline, visits, derives, starts.keeps keeps, stops.keeps keeps⟩

/-- All that can be said of a kept node holds when the parse has ended. -/
theorem Placed.claims (placed : Placed store id shape rule node)
    (current : (store.buffer id).Current shape) (margin : Nat) (log : EditLog) :
    Claims store margin log shape rule node := by
  rcases placed with ⟨own, outline, visits, derives, ⟨_, place, seated, starts⟩,
    ⟨_, place', seated', stops⟩⟩
  intro first second index there there' means
  cases there.symm.trans seated
  cases there'.symm.trans seated'
  cases (current.indexOf means).symm.trans (current.indexOf starts.means)
  refine ⟨?_, fun _ => starts, fun _ => visits.opensAt, fun outline' derives' _ => ?_⟩
  · rcases Nat.lt_or_eq_of_le starts.means.le_length with inside | atEnd
    · exact Or.inl (current.shown.spot_of_stands starts inside)
    · have empty := derives.length_le
      rw [List.length_drop, atEnd, Nat.sub_self] at empty
      rw [Nat.eq_zero_of_le_zero empty, Nat.add_zero] at stops
      exact Or.inr (starts.unique stops)
  · rw [derives'.length_eq derives]
    exact stops

/-- Cursors may come and go while the node stays where it is. -/
theorem Claims.congr {after : Store} (claims : Claims store margin log shape rule node)
    (start : after.place? node.start = store.place? node.start)
    (stop : after.place? node.stop = store.place? node.stop) :
    Claims after margin log shape rule node := by
  rw [Claims, start, stop]
  exact claims

/-! ## Edits -/

section Edits

variable {buffer content : Buffer} {replaced removed : Shape} {start stop moved : Nat}
  {text : List Char} {used : List NodeId} {move : Place → Place}

/-- What is derived in the text after an edit was derived before, if the edit has missed it. -/
theorem derives_of_misses {outline : Outline Label} (wide : 1 ≤ margin) (ordered : start ≤ stop)
    (within : stop ≤ shape.text.length) (index_le : index ≤ shape.text.length)
    (moved_le : moved ≤ ((⟨start, stop, text.length⟩ : Edit).apply shape.text text).length)
    (misses : (⟨start, stop, text.length⟩ : Edit).Misses margin ⟨index, index + outline.length⟩
      ⟨moved, moved + outline.length⟩)
    (derives : Derives (.node rule)
      (((⟨start, stop, text.length⟩ : Edit).apply shape.text text).drop moved) outline) :
    Derives (.node rule) (shape.text.drop index) outline := by
  have same := misses.surroundings_eq rfl ordered within
  have ends := derives.length_le
  have total : ((⟨start, stop, text.length⟩ : Edit).apply shape.text text).length =
      start + text.length + (shape.text.length - stop) := by
    rw [Edit.apply, List.length_append, List.length_append, List.length_take, List.length_drop,
      Nat.min_eq_left (Nat.le_trans ordered within)]
  rw [List.length_drop] at ends
  have fits : index + outline.length ≤ shape.text.length := by
    rcases misses.2 with ⟨left, _⟩ | ⟨right, shifted⟩
    · simp only at left
      omega
    · simp only [Edit.shift, Edit.insertedStop, Range.mk.injEq] at right shifted
      omega
  exact (findings margin wide).persists (Nat.le_add_right _ _) (Nat.le_add_right _ _)
    (by simp only; omega) fits same.symm (Nat.add_sub_cancel_left _ _) derives

/-- What is known of a kept node is known after an edit, with the edit in the log. -/
theorem Claim.edit (claim : Claim margin log shape rule first second index) (wide : 1 ≤ margin)
    (current : buffer.Current shape) (ordered : start ≤ stop) (within : stop ≤ shape.text.length)
    (done : buffer.Replacement content shape start stop text used replaced removed move)
    (means : shape.Means first index) (means' : replaced.Means (move first) moved)
    (moves : Edit.Moves ⟨start, stop, text.length⟩ index moved) :
    Claim margin (log.record ⟨start, stop, text.length⟩) replaced rule (move first) (move second)
      moved := by
  let edit : Edit := ⟨start, stop, text.length⟩
  have isText : replaced.text = edit.apply shape.text text := done.replacedText
  have before := means.le_length
  have after := means'.le_length
  have missed : (log.record edit).overlaps ⟨moved, moved⟩ margin = false →
      edit.Misses margin ⟨index, index⟩ ⟨moved, moved⟩ :=
    EditLog.misses_of_record ordered moves moves (Nat.le_refl _)
  have foothold := claim.foothold.edit current ordered within done means' moves
  refine ⟨foothold.front, foothold.starts, ?_, ?_⟩
  · intro quiet
    have misses := missed quiet
    have same := misses.surroundings_eq rfl ordered within
    have opens := claim.opens (EditLog.quiet_of_record ordered misses quiet)
    rw [isText] at after ⊢
    rw [OpensAt, prior_of_surroundings before after (Nat.succ_pos _) same,
      next_of_surroundings (Nat.le_refl _) (Nat.le_refl _) before after (Nat.succ_pos _) same]
    exact opens
  · intro outline derives quiet
    have misses := EditLog.misses_behind ordered moves quiet
    rw [isText] at after derives
    have derived := derives_of_misses wide ordered within before after misses derives
    have stands := claim.stops outline derived (EditLog.quiet_of_record ordered misses quiet)
    exact done.stands current ordered within stands misses.apart.2

theorem Claims.edit {after : Store} (claims : Claims store margin log shape rule node)
    (wide : 1 ≤ margin) (current : buffer.Current shape) (ordered : start ≤ stop)
    (within : stop ≤ shape.text.length)
    (done : buffer.Replacement content shape start stop text used replaced removed move)
    (starts : node.start.Follows store after shape replaced move ⟨start, stop, text.length⟩)
    (stops : node.stop.Follows store after shape replaced move ⟨start, stop, text.length⟩) :
    Claims after margin (log.record ⟨start, stop, text.length⟩) replaced rule node := by
  rcases starts with ⟨first, before, now, back⟩
  rcases stops with ⟨second, before', now', _⟩
  intro one two moved there there' means'
  cases now.symm.trans there
  cases now'.symm.trans there'
  rcases back moved means' with ⟨index, means, moves⟩
  exact (claims first second index before before' means).edit wide current ordered within done means
    means' moves

end Edits

end Words

end Reparse
