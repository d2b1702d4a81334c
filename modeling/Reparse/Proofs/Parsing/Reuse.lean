import Reparse.Proofs.Parsing.Entries

namespace Reparse

/-!
# Using kept nodes and making new ones

In a parse no edit is pending for any kept node.  A node that is used again is
found by its start, and its end is asked to be in the document.  So both of its
ends are there, and what was promised of it holds of the span that is entered in
the journal.

A node that is made gets two cursors of its own at the ends of what its rule has
consumed, and the next number.
-/

variable {V : Vocabulary}

theorem Buffer.Sits.settles {buffer : Buffer} {host : Shape} {place : Place} {index : Nat}
    (sits : buffer.Sits host place index) : host.Stands (buffer.settle place) index := by
  rw [sits.current.settle sits.means]
  exact sits.current.shown.stands_locate sits.means.le_length

theorem Buffer.Sits.hasPlace {buffer : Buffer} {host : Shape} {place : Place} {index : Nat}
    (sits : buffer.Sits host place index) : buffer.HasPlace place := by
  rcases sits.means with ⟨before, text, after, chunks, within, _⟩
  have member : (place.leaf, text) ∈ host.chunks := by
    rw [chunks]
    exact List.mem_append_right _ List.mem_cons_self
  exact ⟨text.toArray, sits.current.shown.view_chunk member, within⟩

namespace Session

variable {session : Session V} {promise : Promise V} {rope : Rope} {shape : Shape}

/-! ## Reuse -/

/-- What looking for a kept node does to a session.  If one is used again it was found by
its start, and its end is in the same document. -/
theorem reuse_cases (session : Session V) (rule : V.Rule) (key : StateKey V) (start : Position)
    (isStale : Range → Bool) :
    let after := session.reuse rule key start isStale
    ∃ memos stats consulted,
      (∀ rule state entry, { session with memos }.Holds rule state entry →
        ∃ old, session.Holds rule state old ∧ old.node = entry.node) ∧
      (after = (none, { session with memos, stats, consulted }) ∨
        ∃ state entry reused, key.isSame state = true ∧ session.Holds rule state entry ∧
          session.store.position entry.node.start = start ∧
          session.store.sameDocument start (session.store.position entry.node.stop) = true ∧
          after = (some (entry.node, session.store.position entry.node.stop),
            { session with
              memos, stats, consulted, reused
              journal := .reused entry.node.id
                ⟨session.store.indexOf start,
                  session.store.indexOf (session.store.position entry.node.stop)⟩ ::
                session.journal })) := by
  have held : ∀ rule' state entry, (session.onMemo rule
      (·.find key session.store start session.generation)).2.Holds rule' state entry →
      ∃ old, session.Holds rule' state old ∧ old.node = entry.node :=
    fun _ _ _ holds => of_holds_find holds
  have answer : ∀ node, (session.onMemo rule
      (·.find key session.store start session.generation)).1 = some node →
      ∃ state entry, key.isSame state = true ∧ session.Holds rule state entry ∧ entry.node = node ∧
        session.store.position node.start = start :=
    fun _ found => of_find_eq_some found
  have search : ∃ memos, (session.onMemo rule
      (·.find key session.store start session.generation)).2 = { session with memos } :=
    ⟨_, rfl⟩
  simp only [reuse]
  generalize session.onMemo rule (·.find key session.store start session.generation) = outcome
    at search held answer ⊢
  rcases outcome with ⟨_ | node, searched⟩
  · rcases search with ⟨memos, rfl⟩
    exact ⟨memos, _, _, held, Or.inl rfl⟩
  · rcases search with ⟨memos, rfl⟩
    rcases answer node rfl with ⟨state, entry, isSame, holds, rfl, starts⟩
    simp only
    split
    · have asked : ∃ consulted, (if session.store.sameDocument start
            (session.store.position entry.node.stop) = true then
          { session with memos, consulted := session.consulted + 1 }
        else { session with memos }) = { session with memos, consulted } := by
        split <;> exact ⟨_, rfl⟩
      rcases asked with ⟨consulted, asked⟩
      rw [asked]
      exact ⟨_, _, _, fun rule' state' entry' holds' =>
        held rule' state' entry' (of_holds_erase holds'), Or.inl rfl⟩
    · next fresh =>
        rw [Bool.or_eq_true, not_or, Bool.not_eq_true, Bool.not_eq_false'] at fresh
        rw [if_pos fresh.1]
        exact ⟨memos, _, _, held, Or.inr ⟨state, entry, _, isSame, holds, starts, fresh.1, rfl⟩⟩

/-- Looking for a kept node runs no body. -/
theorem reuse_runs_nothing (session : Session V) (rule : V.Rule) (key : StateKey V)
    (start : Position) (isStale : Range → Bool) :
    let after := session.reuse rule key start isStale
    after.2.refused = session.refused ∧ after.2.endless = session.endless := by
  have cases := session.reuse_cases rule key start isStale
  generalize session.reuse rule key start isStale = outcome at cases ⊢
  rcases cases with ⟨_, _, _, _, rfl | ⟨_, _, _, _, _, _, _, rfl⟩⟩
  · exact ⟨rfl, rfl⟩
  · exact ⟨rfl, rfl⟩

/-- A node was used again from one index up to another. -/
structure Reuses (session after : Session V) (promise : Promise V) (rope : Rope) (shape : Shape)
    (rule : V.Rule) (key : StateKey V) (index : Nat) (node : V.Node) (stop : Position)
    (last : Nat) : Prop where
  promised : ∃ state entry, key.isSame state = true ∧ session.Holds rule state entry ∧
    entry.node = node ∧ (index ≤ last → promise.good rule state node shape.text ⟨index, last⟩)
  buffer : stop.buffer = rope.buffer
  stands : shape.Stands stop.place last
  forward : promise.forward → index ≤ last
  journal : after.journal = .reused node.id ⟨index, last⟩ :: session.journal

theorem Fulfils.reuse_spec (fulfils : session.Fulfils promise rope shape {}) {place : Place}
    {index : Nat} (stands : shape.Stands place index) (rule : V.Rule) (key : StateKey V)
    (isStale : Range → Bool) :
    let after := session.reuse rule key ⟨rope.buffer, place⟩ isStale
    after.2.Fulfils promise rope shape {} ∧ after.2.store = session.store ∧
      after.2.nextId = session.nextId ∧ after.2.refused = session.refused ∧
      match after.1 with
      | none => after.2.journal = session.journal
      | some (node, stop) =>
        ∃ last, session.Reuses after.2 promise rope shape rule key index node stop last := by
  have cases := session.reuse_cases rule key ⟨rope.buffer, place⟩ isStale
  generalize session.reuse rule key ⟨rope.buffer, place⟩ isStale = outcome at cases ⊢
  rcases cases with ⟨memos, stats, consulted, held, rfl |
    ⟨state, entry, reused, isSame, holds, starts, attached, rfl⟩⟩
  · exact ⟨fulfils.fewer rfl held, rfl, rfl, rfl, rfl⟩
  · rcases fulfils.kept rule state entry holds with ⟨startBuffer, stopBuffer, first, second, front,
      back, start, last, startPlace, stopPlace, startSits, stopSits, claim⟩
    have stopIs : session.store.position entry.node.stop =
        ⟨rope.buffer, (session.store.buffer rope.buffer).settle second⟩ := by
      rw [Store.position_of_place? stopPlace, stopBuffer]
    have startIs : (session.store.buffer rope.buffer).settle first = place := by
      rw [Store.position_of_place? startPlace, startBuffer] at starts
      exact congrArg Position.place starts
    have frontSits := startSits.current.sits startSits.settles
    rw [startIs] at frontSits
    have backSits := stopSits.current.sits stopSits.settles
    have shapeSits := fulfils.current.sits stands
    have isFront := frontSits.host_eq shapeSits
    have isStart := frontSits.index_eq shapeSits
    subst isFront
    subst isStart
    rw [stopIs] at attached ⊢
    have sameRoot : back.root = rope.root := by
      rw [← backSits.rootOf, ← fulfils.root, ← shapeSits.rootOf]
      exact ((session.store.sameDocument_iff _ _).mp attached).2.symm
    have isBack : back = front :=
      stopSits.current.shown.unique fulfils.current.shown (sameRoot.trans fulfils.root.symm)
    subst isBack
    rcases claim sameRoot sameRoot with ⟨leads, good⟩
    refine ⟨fulfils.fewer rfl held, rfl, rfl, rfl, last,
      ⟨state, entry, isSame, holds, rfl, fun ordered => good ordered rfl⟩, rfl, stopSits.settles,
      fun forward => ?_, ?_⟩
    · rcases leads forward with same | ⟨_, before⟩
      · subst same
        exact Nat.le_of_eq (startSits.index_eq stopSits)
      · exact Nat.le_of_lt before
    · have startIndex : session.store.indexOf ⟨rope.buffer, place⟩ = start := shapeSits.indexOf
      have stopIndex : session.store.indexOf
          ⟨rope.buffer, (session.store.buffer rope.buffer).settle second⟩ = last := backSits.indexOf
      rw [startIndex, stopIndex]

/-! ## Nodes that are made -/

/-- A node was made of a content, from one index up to another. -/
structure Makes (session after : Session V) (node : V.Node) (content : Content V.Label V.Skip)
    (before skipped : List V.Skip) (start stop : Nat) : Prop where
  trees : session.store.SameTrees after.store
  label : node.label = content.label
  children : node.children = content.children
  length : node.length = stop - start
  id : node.id = session.nextId
  skips : node.origin.before = before ∧ node.origin.after = skipped
  nextId : after.nextId = session.nextId + 1
  refused : after.refused = session.refused
  journal : after.journal = .made session.nextId ⟨start, stop⟩ :: session.journal

theorem Fulfils.keep_spec (fulfils : session.Fulfils promise rope shape {}) {first last : Place}
    {start stop : Nat} (starts : shape.Stands first start) (stops : shape.Stands last stop)
    (forward : promise.forward → start ≤ stop) (rule : V.Rule) (key : StateKey V)
    (content : Content V.Label V.Skip) (before skipped : List V.Skip)
    (good : ∀ node, node.label = content.label → node.children = content.children →
      node.length = stop - start → node.id = session.nextId →
      ∀ state, (state = key.state ∨ key.isSame state = true) → start ≤ stop →
        promise.good rule state node shape.text ⟨start, stop⟩) :
    let after := session.keep rule key ⟨rope.buffer, first⟩ ⟨rope.buffer, last⟩ content before skipped
    after.2.Fulfils promise rope shape {} ∧
      session.Makes after.2 after.1 content before skipped start stop := by
  have firstSits := fulfils.current.sits starts
  have lastSits := fulfils.current.sits stops
  have startIndex : session.store.indexOf ⟨rope.buffer, first⟩ = start := firstSits.indexOf
  have stopIndex : session.store.indexOf ⟨rope.buffer, last⟩ = stop := lastSits.indexOf
  have hasFirst : session.store.HasPosition ⟨rope.buffer, first⟩ := firstSits.hasPlace
  rcases Store.cursorAt_spec fulfils.sound hasFirst with ⟨firstNew, firstBuffer, withFirst⟩
  have hasLast : (session.store.cursorAt ⟨rope.buffer, first⟩).2.HasPosition ⟨rope.buffer, last⟩ :=
    (lastSits.sameTrees (withFirst.trees rope.buffer)).hasPlace
  rcases Store.cursorAt_spec withFirst.sound hasLast with ⟨lastNew, lastBuffer, withLast⟩
  simp only [keep, startIndex, stopIndex]
  generalize session.store.cursorAt ⟨rope.buffer, first⟩ = seated at *
  rcases seated with ⟨one, storeOne⟩
  generalize storeOne.cursorAt ⟨rope.buffer, last⟩ = seated at *
  rcases seated with ⟨two, storeTwo⟩
  simp only at *
  have trees := withFirst.trees.trans withLast.trees
  have different : one ≠ two := by
    rintro rfl
    rw [withFirst.place, if_pos rfl] at lastNew
    cases lastNew
  have onePlace : storeTwo.place? one = some first := by
    rw [withLast.place, if_neg different, withFirst.place, if_pos rfl]
  have twoPlace : storeTwo.place? two = some last := by
    rw [withLast.place, if_pos rfl]
  refine ⟨?_, ⟨trees, rfl, rfl, rfl, rfl, ⟨rfl, rfl⟩, rfl, rfl, rfl⟩⟩
  refine ⟨withLast.sound, fulfils.current.sameTrees (trees rope.buffer), fulfils.root, ?_⟩
  intro rule' state entry holds
  rcases of_holds_insert holds with old | ⟨rfl, rfl, same⟩
  · have held : session.Holds rule' state entry := old
    have stays : ∀ cursor place, session.store.place? cursor = some place →
        storeTwo.place? cursor = session.store.place? cursor := by
      intro cursor place sits
      have notFirst : cursor ≠ one := by
        rintro rfl
        rw [firstNew] at sits
        cases sits
      have notLast : cursor ≠ two := by
        rintro rfl
        rw [withFirst.place, if_neg notFirst, sits] at lastNew
        cases lastNew
      rw [withLast.place, if_neg notLast, withFirst.place, if_neg notFirst]
    have seats := fulfils.kept rule' state entry held
    rcases seats with ⟨_, _, place, place', _, _, _, _, startPlace, stopPlace, _⟩
    exact (fulfils.kept rule' state entry held).congr
      (fun host current => current.sameTrees (trees rope.buffer)) (stays _ _ startPlace)
      (stays _ _ stopPlace)
  · refine ⟨firstBuffer, lastBuffer, first, last, shape, shape, start, stop, onePlace, twoPlace,
      firstSits.sameTrees (trees rope.buffer), lastSits.sameTrees (trees rope.buffer),
      fun _ _ => ⟨fun isForward => ?_, fun ordered _ => ?_⟩⟩
    · rcases Nat.lt_or_eq_of_le (forward isForward) with before | same
      · refine Or.inr ⟨?_, before⟩
        rw [fulfils.current.shown.eq_locate starts]
        exact fulfils.current.shown.spot_locate (Nat.lt_of_lt_of_le before stops.means.le_length)
      · exact Or.inl (starts.unique (same ▸ stops))
    · exact good _ rfl rfl rfl rfl state same ordered

end Session

end Reparse
