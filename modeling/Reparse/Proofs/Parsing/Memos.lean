import Mathlib.Data.List.Basic
import Reparse.Parsing.Session

namespace Reparse

/-!
# What the memos hold

Every operation on the memos of a session is described by the entries that may
be held afterwards.  Looking a node up changes stamps only, and finds a node at
its own start, under a state that was compared with the one asked for.  Keeping a
node adds one entry, under the given state or under one compared with it.
Everything else only drops entries.

The index of a bucket plays no part in this.  It says where to look, and what
is found there is compared with the start that was asked for.
-/

variable {V : Vocabulary}

namespace Bucket

variable {bucket : Bucket V} {entry : Entry V}

theorem mem_live : entry ∈ bucket.live ↔ ∃ slot : Nat, bucket.entries[slot]? = some (some entry) := by
  rw [live, List.mem_filterMap]
  simp only [id_eq, exists_eq_right, Array.mem_toList_iff, Array.mem_iff_getElem?]

@[simp] theorem entries_refresh (bucket : Bucket V) (store : Store) (revision : Nat) :
    (bucket.refresh store revision).entries = bucket.entries := by
  rw [refresh]
  split <;> rfl

@[simp] theorem state_refresh (bucket : Bucket V) (store : Store) (revision : Nat) :
    (bucket.refresh store revision).state = bucket.state := by
  rw [refresh]
  split <;> rfl

/-- A slot is answered for an entry that starts where it is looked for. -/
theorem slot?_eq_some {store : Store} {start : Position} {slot : Nat}
    (found : bucket.slot? store start = some slot) :
    ∃ entry, bucket.entries[slot]? = some (some entry) ∧
      store.position entry.node.start = start := by
  simp only [slot?, bind, Option.bind_eq_some_iff, Option.join_eq_some_iff] at found
  rcases found with ⟨slot', _, entry, stored, found⟩
  split at found
  · next starts =>
      cases found
      exact ⟨entry, stored, starts⟩
  · cases found

@[simp] theorem state_find (bucket : Bucket V) (store : Store) (start : Position) (generation : Nat) :
    (bucket.find store start generation).2.state = bucket.state := by
  simp only [find]
  split <;> exact bucket.state_refresh _ _

/-- Finding changes no entry but for its stamp. -/
theorem of_mem_live_find {store : Store} {start : Position} {generation : Nat}
    (member : entry ∈ (bucket.find store start generation).2.live) :
    ∃ old ∈ bucket.live, old.node = entry.node := by
  simp only [find] at member
  rw [mem_live] at member
  rcases member with ⟨slot, stored⟩
  split at stored
  · next found _ =>
      rw [Array.getElem?_modify] at stored
      split at stored
      · simp only [entries_refresh, Option.map_eq_some_iff] at stored
        rcases stored with ⟨old, held, stamped, rfl, same⟩
        exact ⟨stamped, mem_live.mpr ⟨slot, held⟩, same ▸ rfl⟩
      · rw [entries_refresh] at stored
        exact ⟨entry, mem_live.mpr ⟨slot, stored⟩, rfl⟩
  · rw [entries_refresh] at stored
    exact ⟨entry, mem_live.mpr ⟨slot, stored⟩, rfl⟩

/-- What is found is held, and starts where it was looked for. -/
theorem of_find_eq_some {store : Store} {start : Position} {generation : Nat} {node : V.Node}
    (found : (bucket.find store start generation).1 = some node) :
    (∃ entry ∈ bucket.live, entry.node = node) ∧ store.position node.start = start := by
  simp only [find] at found
  split at found
  · next slot here =>
      rcases slot?_eq_some here with ⟨entry, stored, starts⟩
      simp only [stored, Option.join_some, Option.map_some, Option.some.injEq] at found
      rw [entries_refresh] at stored
      exact ⟨⟨entry, mem_live.mpr ⟨slot, stored⟩, found⟩, found ▸ starts⟩
  · cases found

@[simp] theorem state_erase (bucket : Bucket V) (store : Store) (start : Position) :
    (bucket.erase store start).state = bucket.state := by
  simp only [erase]
  split <;> exact bucket.state_refresh _ _

theorem of_mem_live_erase {store : Store} {start : Position}
    (member : entry ∈ (bucket.erase store start).live) : entry ∈ bucket.live := by
  simp only [erase] at member
  rw [mem_live] at member ⊢
  rcases member with ⟨slot, stored⟩
  refine ⟨slot, ?_⟩
  split at stored
  · rw [Array.getElem?_setIfInBounds] at stored
    split at stored
    · split at stored
      · cases stored
      · cases stored
    · rw [entries_refresh] at stored
      exact stored
  · rw [entries_refresh] at stored
    exact stored

@[simp] theorem state_insert (bucket : Bucket V) (store : Store) (start : Position)
    (entry : Entry V) : (bucket.insert store start entry).state = bucket.state := by
  simp only [insert]
  split <;> exact bucket.state_refresh _ _

theorem of_mem_live_insert {store : Store} {start : Position} {added : Entry V}
    (member : entry ∈ (bucket.insert store start added).live) :
    entry ∈ bucket.live ∨ entry = added := by
  have overwritten : ∀ {slot place : Nat},
      (bucket.entries.setIfInBounds place (some added))[slot]? = some (some entry) →
        entry ∈ bucket.live ∨ entry = added := by
    intro slot place stored
    rw [Array.getElem?_setIfInBounds] at stored
    split at stored
    · split at stored
      · cases stored
        exact Or.inr rfl
      · cases stored
    · exact Or.inl (mem_live.mpr ⟨slot, stored⟩)
  simp only [insert] at member
  rw [mem_live] at member
  rcases member with ⟨slot, stored⟩
  split at stored
  · exact overwritten (by simpa only [entries_refresh] using stored)
  · exact overwritten (by simpa only [entries_refresh] using stored)
  · rw [Array.getElem?_push, entries_refresh] at stored
    split at stored
    · cases stored
      exact Or.inr rfl
    · exact Or.inl (mem_live.mpr ⟨slot, stored⟩)

/-- Dropping leaves the other entries, in their order. -/
theorem live_dropWhere (bucket : Bucket V) (doomed : Entry V → Bool) :
    (bucket.dropWhere doomed).live = bucket.live.filter fun entry => !doomed entry := by
  simp only [live, dropWhere, Array.toList_map, List.filterMap_map]
  induction bucket.entries.toList with
  | nil => rfl
  | cons head entries inductionHypothesis =>
      cases head with
      | none => exact inductionHypothesis
      | some entry =>
          cases isDoomed : doomed entry with
          | false => simpa [isDoomed] using inductionHypothesis
          | true => simpa [isDoomed] using inductionHypothesis

theorem mem_live_dropWhere (bucket : Bucket V) (doomed : Entry V → Bool) (entry : Entry V) :
    entry ∈ (bucket.dropWhere doomed).live ↔ entry ∈ bucket.live ∧ doomed entry = false := by
  rw [live_dropWhere, List.mem_filter, Bool.not_eq_true']

end Bucket

namespace Memo

variable {memo : Memo V} {key : StateKey V}

/-- A memo has a bucket. -/
def Contains (memo : Memo V) (bucket : Bucket V) : Prop :=
  ∃ (hash : Nat) (chain : List (Bucket V)), memo.chains[hash]? = some chain ∧ bucket ∈ chain

/-- Changing the first bucket of a kind leaves the others as they are. -/
theorem changeFirst_eq_some {α : Type} {wanted : Bucket V → Bool}
    {change : Bucket V → α × Bucket V} {chain changed : List (Bucket V)} {answer : α}
    (found : changeFirst wanted change chain = some (answer, changed)) :
    ∃ bucket ∈ chain, wanted bucket = true ∧ answer = (change bucket).1 ∧
      ∀ other ∈ changed, other ∈ chain ∨ other = (change bucket).2 := by
  induction chain generalizing changed with
  | nil => cases found
  | cons head tail inductionHypothesis =>
      rw [changeFirst] at found
      split at found
      · next isWanted =>
          cases found
          refine ⟨head, List.mem_cons_self, isWanted, rfl, fun other member => ?_⟩
          rcases List.mem_cons.mp member with same | later
          · exact Or.inr same
          · exact Or.inl (List.mem_cons_of_mem _ later)
      · split at found
        · next answer' rest later =>
            cases found
            rcases inductionHypothesis later with ⟨bucket, member, isWanted, same, others⟩
            refine ⟨bucket, List.mem_cons_of_mem _ member, isWanted, same, fun other member => ?_⟩
            rcases List.mem_cons.mp member with isHead | inTail
            · exact Or.inl (isHead ▸ List.mem_cons_self)
            · exact (others other inTail).imp_left (List.mem_cons_of_mem _)
        · cases found

/-- Changing the bucket of a state, if there is one. -/
theorem onBucket_spec {α : Type} (memo : Memo V) (key : StateKey V)
    (change : Bucket V → α × Bucket V) :
    ((memo.onBucket key change).1 = none ∧ (memo.onBucket key change).2 = memo) ∨
      ∃ bucket, memo.Contains bucket ∧ key.isSame bucket.state = true ∧
        (memo.onBucket key change).1 = some (change bucket).1 ∧
        ∀ other, (memo.onBucket key change).2.Contains other →
          memo.Contains other ∨ other = (change bucket).2 := by
  rw [onBucket]
  split
  · exact Or.inl ⟨rfl, rfl⟩
  · next chain atHash =>
      split
      · next answer changed found =>
          rcases changeFirst_eq_some found with ⟨bucket, member, isSame, same, others⟩
          refine Or.inr ⟨bucket, ⟨key.hash, chain, atHash, member⟩, isSame, congrArg some same, ?_⟩
          rintro other ⟨hash, chain', there, inside⟩
          simp only [Std.TreeMap.getElem?_insert] at there
          split at there
          · cases there
            exact (others other inside).imp_left fun old => ⟨key.hash, chain, atHash, old⟩
          · exact Or.inl ⟨hash, chain', there, inside⟩
      · exact Or.inl ⟨rfl, rfl⟩

/-- A memo holds an entry under a state. -/
def Holds (memo : Memo V) (state : V.State) (entry : Entry V) : Prop :=
  ∃ bucket, memo.Contains bucket ∧ bucket.state = state ∧ entry ∈ bucket.live

variable {store : Store} {start : Position} {state : V.State} {entry : Entry V}

theorem Holds.mem_entries (holds : memo.Holds state entry) : entry ∈ memo.entries := by
  rcases holds with ⟨bucket, ⟨hash, chain, there, inside⟩, _, live⟩
  simp only [entries, buckets, List.mem_flatMap, Prod.exists,
    Std.TreeMap.mem_toList_iff_getElem?_eq_some]
  exact ⟨bucket, ⟨hash, chain, there, inside⟩, live⟩

theorem of_holds_find {generation : Nat}
    (holds : (memo.find key store start generation).2.Holds state entry) :
    ∃ old, memo.Holds state old ∧ old.node = entry.node := by
  simp only [find] at holds
  rcases holds with ⟨bucket, there, rfl, live⟩
  rcases memo.onBucket_spec key (·.find store start generation) with
    ⟨_, unchanged⟩ | ⟨changed, contained, _, _, others⟩
  · rw [unchanged] at there
    exact ⟨entry, ⟨bucket, there, rfl, live⟩, rfl⟩
  · rcases others bucket there with old | rfl
    · exact ⟨entry, ⟨bucket, old, rfl, live⟩, rfl⟩
    · rcases Bucket.of_mem_live_find live with ⟨old, oldLive, same⟩
      exact ⟨old, ⟨changed, contained, (changed.state_find _ _ _).symm, oldLive⟩, same⟩

theorem of_find_eq_some {generation : Nat} {node : V.Node}
    (found : (memo.find key store start generation).1 = some node) :
    ∃ state entry, key.isSame state = true ∧ memo.Holds state entry ∧ entry.node = node ∧
      store.position node.start = start := by
  simp only [find] at found
  rcases memo.onBucket_spec key (·.find store start generation) with
    ⟨nothing, _⟩ | ⟨bucket, contained, isSame, answer, _⟩
  · rw [nothing] at found
    cases found
  · rw [answer, Option.join_some] at found
    rcases Bucket.of_find_eq_some found with ⟨⟨entry, live, same⟩, starts⟩
    exact ⟨bucket.state, entry, isSame, ⟨bucket, contained, rfl, live⟩, same, starts⟩

theorem of_holds_erase (holds : (memo.erase key store start).Holds state entry) :
    memo.Holds state entry := by
  rcases holds with ⟨bucket, there, rfl, live⟩
  rw [erase] at there
  rcases memo.onBucket_spec key (fun bucket => ((), bucket.erase store start)) with
    ⟨_, unchanged⟩ | ⟨changed, contained, _, _, others⟩
  · rw [unchanged] at there
    exact ⟨bucket, there, rfl, live⟩
  · rcases others bucket there with old | rfl
    · exact ⟨bucket, old, rfl, live⟩
    · exact ⟨changed, contained, (changed.state_erase _ _).symm, Bucket.of_mem_live_erase live⟩

theorem of_holds_insert {added : Entry V}
    (holds : (memo.insert key store start added).Holds state entry) :
    memo.Holds state entry ∨
      entry = added ∧ (state = key.state ∨ key.isSame state = true) := by
  rcases holds with ⟨bucket, there, rfl, live⟩
  have spec := memo.onBucket_spec key (fun bucket => ((), bucket.insert store start added))
  rw [insert] at there
  split at there
  · next after becomes =>
      rw [becomes] at spec
      rcases spec with ⟨nothing, _⟩ | ⟨changed, contained, isSame, _, others⟩
      · cases nothing
      · rcases others bucket there with old | rfl
        · exact Or.inl ⟨bucket, old, rfl, live⟩
        · rcases Bucket.of_mem_live_insert live with old | rfl
          · exact Or.inl ⟨changed, contained, (changed.state_insert _ _ _).symm, old⟩
          · exact Or.inr ⟨rfl, Or.inr ((changed.state_insert _ _ _).symm ▸ isSame)⟩
  · rcases there with ⟨hash, chain, found, member⟩
    simp only [Std.TreeMap.getElem?_insert] at found
    split at found
    · cases found
      rcases List.mem_append.mp member with old | isNew
      · cases atHash : memo.chains[key.hash]? with
        | none =>
            rw [atHash] at old
            exact absurd old List.not_mem_nil
        | some others =>
            rw [atHash] at old
            exact Or.inl ⟨bucket, ⟨key.hash, others, atHash, old⟩, rfl, live⟩
      · rw [List.mem_singleton] at isNew
        subst isNew
        rcases Bucket.of_mem_live_insert live with old | rfl
        · rcases Bucket.mem_live.mp old with ⟨slot, stored⟩
          cases stored
        · exact Or.inr ⟨rfl, Or.inl (Bucket.state_insert _ _ _ _)⟩
    · exact Or.inl ⟨bucket, ⟨hash, chain, found, member⟩, rfl, live⟩

/-- What is left of a chain. -/
theorem flatMap_live_dropWhere (chain : List (Bucket V)) (doomed : Entry V → Bool) :
    ((chain.map (·.dropWhere doomed)).filter fun bucket => !bucket.live.isEmpty).flatMap Bucket.live =
      (chain.flatMap Bucket.live).filter fun entry => !doomed entry := by
  induction chain with
  | nil => rfl
  | cons bucket chain inductionHypothesis =>
      rw [List.map_cons, List.flatMap_cons, List.filter_append, ← bucket.live_dropWhere,
        ← inductionHypothesis]
      cases left : (bucket.dropWhere doomed).live with
      | nil => rw [List.filter_cons_of_neg (by simp [left]), List.nil_append]
      | cons entry entries =>
          rw [List.filter_cons_of_pos (by simp [left]), List.flatMap_cons, left]

/-- Dropping leaves the other entries, in their order. -/
theorem entries_dropWhere (memo : Memo V) (doomed : Entry V → Bool) :
    (memo.dropWhere doomed).entries = memo.entries.filter fun entry => !doomed entry := by
  simp only [entries, buckets, dropWhere, Std.TreeMap.toList_filterMap, List.flatMap_assoc,
    List.filter_flatMap]
  induction memo.chains.toList with
  | nil => rfl
  | cons pair pairs inductionHypothesis =>
      rcases pair with ⟨hash, chain⟩
      rw [List.flatMap_cons, ← List.filter_flatMap, ← flatMap_live_dropWhere, ← inductionHypothesis,
        List.filterMap_cons]
      cases left : (chain.map (·.dropWhere doomed)).filter fun bucket => !bucket.live.isEmpty with
      | nil => rfl
      | cons bucket buckets => rfl

theorem of_holds_dropWhere {doomed : Entry V → Bool}
    (holds : (memo.dropWhere doomed).Holds state entry) :
    memo.Holds state entry ∧ doomed entry = false := by
  rcases holds with ⟨bucket, ⟨hash, chain, found, member⟩, rfl, live⟩
  simp only [dropWhere, Std.TreeMap.getElem?_filterMap', Option.bind_eq_some_iff] at found
  rcases found with ⟨old, atHash, kept⟩
  split at kept
  · cases kept
  · cases kept
    rcases List.mem_map.mp (List.mem_filter.mp member).1 with ⟨before, inside, rfl⟩
    rcases (before.mem_live_dropWhere doomed entry).mp live with ⟨oldLive, spared⟩
    exact ⟨⟨before, ⟨hash, old, atHash, inside⟩, rfl, oldLive⟩, spared⟩

end Memo

namespace Session

variable {session : Session V} {rule other : V.Rule} {state : V.State} {entry : Entry V}

/-- The memo of a rule holds an entry under a state. -/
def Holds (session : Session V) (rule : V.Rule) (state : V.State) (entry : Entry V) : Prop :=
  ∃ memo, (rule, memo) ∈ session.memos ∧ memo.Holds state entry

theorem Holds.mem_entries (holds : session.Holds rule state entry) : entry ∈ session.entries := by
  rcases holds with ⟨memo, member, inside⟩
  exact List.mem_flatMap.mpr ⟨(rule, memo), member, inside.mem_entries⟩

/-- The empty memo that a rule starts with holds nothing. -/
theorem holds_getD (holds : ((session.memos.lookup rule).getD {}).Holds state entry) :
    session.Holds rule state entry := by
  cases found : session.memos.lookup rule with
  | none =>
      rw [found] at holds
      rcases holds with ⟨bucket, ⟨hash, chain, there, _⟩, _, _⟩
      rw [Option.getD_none, Std.TreeMap.getElem?_emptyc] at there
      cases there
  | some memo =>
      rw [found] at holds
      rcases List.lookup_eq_some_iff.mp found with ⟨before, after, same, _⟩
      refine ⟨memo, ?_, holds⟩
      rw [same]
      exact List.mem_append_right _ List.mem_cons_self

/-- Changing the memo of a rule leaves the others as they are. -/
theorem of_holds_onMemo {α : Type} {change : Memo V → α × Memo V}
    (holds : (session.onMemo rule change).2.Holds other state entry) :
    session.Holds other state entry ∨ other = rule ∧
      (change ((session.memos.lookup rule).getD {})).2.Holds state entry := by
  rcases holds with ⟨memo, member, inside⟩
  simp only [onMemo] at member
  rcases List.mem_cons.mp member with same | kept
  · cases same
    exact Or.inr ⟨rfl, inside⟩
  · exact Or.inl ⟨memo, (List.mem_filter.mp kept).1, inside⟩

theorem of_holds_find {key : StateKey V} {store : Store} {start : Position} {generation : Nat}
    (holds : (session.onMemo rule (·.find key store start generation)).2.Holds other state entry) :
    ∃ old, session.Holds other state old ∧ old.node = entry.node := by
  rcases of_holds_onMemo holds with same | ⟨rfl, inside⟩
  · exact ⟨entry, same, rfl⟩
  · rcases Memo.of_holds_find inside with ⟨old, held, same⟩
    exact ⟨old, holds_getD held, same⟩

theorem of_find_eq_some {key : StateKey V} {store : Store} {start : Position} {generation : Nat}
    {node : V.Node} (found : (session.onMemo rule (·.find key store start generation)).1 = some node) :
    ∃ state entry, key.isSame state = true ∧ session.Holds rule state entry ∧ entry.node = node ∧
      store.position node.start = start := by
  rcases Memo.of_find_eq_some found with ⟨state, entry, isSame, held, same, starts⟩
  exact ⟨state, entry, isSame, holds_getD held, same, starts⟩

theorem of_holds_erase {key : StateKey V} {store : Store} {start : Position}
    (holds : (session.onMemo rule fun memo => ((), memo.erase key store start)).2.Holds other state
      entry) : session.Holds other state entry := by
  rcases of_holds_onMemo holds with same | ⟨rfl, inside⟩
  · exact same
  · exact holds_getD (Memo.of_holds_erase inside)

theorem of_holds_insert {key : StateKey V} {store : Store} {start : Position} {added : Entry V}
    (holds : (session.onMemo rule fun memo => ((), memo.insert key store start added)).2.Holds other
      state entry) :
    session.Holds other state entry ∨
      other = rule ∧ entry = added ∧ (state = key.state ∨ key.isSame state = true) := by
  rcases of_holds_onMemo holds with same | ⟨rfl, inside⟩
  · exact Or.inl same
  · rcases Memo.of_holds_insert inside with old | isNew
    · exact Or.inl (holds_getD old)
    · exact Or.inr ⟨rfl, isNew⟩

/-- Dropping leaves the other entries, in their order. -/
theorem entries_dropWhere (session : Session V) (doomed : Entry V → Bool) :
    (session.dropWhere doomed).2.entries = session.entries.filter fun entry => !doomed entry := by
  simp only [entries, dropWhere, List.flatMap_map, List.filter_flatMap, Memo.entries_dropWhere]

/-- Dropping answers the number of entries that it drops. -/
theorem dropWhere_fst (session : Session V) (doomed : Entry V → Bool) :
    (session.dropWhere doomed).1 = (session.entries.filter doomed).length := by
  have counts := session.entries.length_eq_length_filter_add doomed
  rw [← session.entries_dropWhere doomed] at counts
  exact Nat.sub_eq_of_eq_add counts

theorem of_holds_dropWhere {doomed : Entry V → Bool}
    (holds : (session.dropWhere doomed).2.Holds rule state entry) :
    session.Holds rule state entry ∧ doomed entry = false := by
  rcases holds with ⟨memo, member, inside⟩
  simp only [dropWhere] at member
  rcases List.mem_map.mp member with ⟨⟨rule', before⟩, old, same⟩
  cases same
  rcases Memo.of_holds_dropWhere inside with ⟨held, spared⟩
  exact ⟨⟨before, old, held⟩, spared⟩

/-- Keeping a node refuses nothing. -/
@[simp] theorem refused_keep (session : Session V) (rule : V.Rule) (key : StateKey V)
    (start stop : Position) (content : Content V.Label V.Skip) (before after : List V.Skip) :
    (session.keep rule key start stop content before after).2.refused = session.refused := by
  simp only [keep, onMemo]

/-- Sweeping changes the memos, and ends the generation. -/
theorem sweep_eq (session : Session V) :
    ∃ memos reused, session.sweep.2 = { session with memos, reused } := by
  rw [Session.sweep]
  split <;> exact ⟨_, _, rfl⟩

theorem of_holds_sweep (holds : session.sweep.2.Holds rule state entry) :
    session.Holds rule state entry := by
  rw [sweep] at holds
  split at holds
  · exact holds
  · exact (of_holds_dropWhere holds).1

end Session

end Reparse
