import Reparse.Languages.Words
import Reparse.Proofs.Parsing.Tables

namespace Reparse

/-!
# What a sweep keeps

A sweep keeps the entries of its generation and those that the longest chains of used spans
spare.  It drops all others, and answers how many they are.

What it keeps is found as before.  That takes more than to leave the entry where it is.  An index
that is up to date must still lead to it, and one that is made again later must not lead to
another entry instead.  The latter holds as the index takes the last slot of those that start at a
position, and dropping only makes them fewer.  The bucket is found as well, since a chain loses
only buckets that are empty.
-/

variable {V : Vocabulary}

namespace Bucket

/-- The entry that is found at a position. -/
def found? (bucket : Bucket V) (store : Store) (start : Position) : Option (Entry V) :=
  let current := bucket.refresh store (store.buffer start.buffer).revision
  (current.slot? store start).bind fun slot => current.entries[slot]?.join

variable {bucket : Bucket V} {store : Store} {start : Position} {entry : Entry V}
  {doomed : Entry V → Bool} {revision slot : Nat}

theorem find_fst (bucket : Bucket V) (store : Store) (start : Position) (generation : Nat) :
    (bucket.find store start generation).1 = (bucket.found? store start).map Entry.node := by
  simp only [find, found?]
  split
  · next found => rw [found, Option.bind_some]
  · next none => rw [none, Option.bind_none, Option.map_none]

/-- What is found is led to by the index, and starts at the position. -/
theorem found?_eq_some_iff : bucket.found? store start = some entry ↔
    ∃ slot, (bucket.refresh store (store.buffer start.buffer).revision).index[start]? = some slot ∧
      bucket.Stores slot entry ∧ store.position entry.node.start = start := by
  simp only [found?, slot?, bind, Option.bind_eq_some_iff, Option.join_eq_some_iff, entries_refresh]
  constructor
  · rintro ⟨slot, ⟨slot', indexed, stored, holds, found⟩, held⟩
    split at found
    · next isStart =>
        cases found
        cases holds.symm.trans held
        exact ⟨slot, indexed, held, isStart⟩
    · cases found
  · rintro ⟨slot, indexed, holds, isStart⟩
    exact ⟨slot, ⟨slot, indexed, entry, holds, if_pos isStart⟩, holds⟩

/-- An index leads to an entry that is not dropped, whether it is kept or made again. -/
theorem indexed_dropWhere (indexed : (bucket.refresh store revision).index[start]? = some slot)
    (holds : bucket.Stores slot entry) (isStart : store.position entry.node.start = start)
    (spared : doomed entry = false) :
    ((bucket.dropWhere doomed).refresh store revision).index[start]? = some slot := by
  by_cases upToDate : bucket.revision = revision
  · have same : (bucket.dropWhere doomed).revision = revision := upToDate
    rw [refresh_of_eq upToDate] at indexed
    rw [refresh_of_eq same]
    exact (bucket.getElem?_index_dropWhere doomed start slot).mpr ⟨indexed, entry, holds, spared⟩
  · have differs : (bucket.dropWhere doomed).revision ≠ revision := upToDate
    rw [refresh, if_neg upToDate, getElem?_reindex] at indexed
    rw [refresh, if_neg differs, getElem?_reindex]
    rcases indexed with ⟨_, _, _, latest⟩
    refine ⟨entry, (bucket.stores_dropWhere doomed slot entry).mpr ⟨holds, spared⟩, isStart, ?_⟩
    intro other entry' kept
    exact latest other entry' ((bucket.stores_dropWhere doomed other entry').mp kept).1

theorem found?_dropWhere (found : bucket.found? store start = some entry)
    (spared : doomed entry = false) :
    (bucket.dropWhere doomed).found? store start = some entry := by
  rw [found?_eq_some_iff] at found ⊢
  rcases found with ⟨slot, indexed, holds, isStart⟩
  exact ⟨slot, indexed_dropWhere indexed holds isStart spared,
    (bucket.stores_dropWhere doomed slot entry).mpr ⟨holds, spared⟩, isStart⟩

theorem mem_live_of_found? (found : bucket.found? store start = some entry) : entry ∈ bucket.live := by
  rcases found?_eq_some_iff.mp found with ⟨slot, _, holds, _⟩
  exact mem_live.mpr ⟨slot, holds⟩

end Bucket

namespace Memo

/-- The entry that is found for a state at a position. -/
def found? (memo : Memo V) (key : StateKey V) (store : Store) (start : Position) :
    Option (Entry V) := do
  let chain ← memo.chains[key.hash]?
  let bucket ← chain.find? fun bucket => key.isSame bucket.state
  bucket.found? store start

variable {memo : Memo V} {key : StateKey V} {store : Store} {start : Position} {entry : Entry V}
  {doomed : Entry V → Bool}

theorem map_fst_changeFirst {α : Type} (wanted : Bucket V → Bool) (change : Bucket V → α × Bucket V)
    (chain : List (Bucket V)) :
    (changeFirst wanted change chain).map Prod.fst =
      (chain.find? wanted).map fun bucket => (change bucket).1 := by
  induction chain with
  | nil => rfl
  | cons bucket chain inductionHypothesis =>
      rw [changeFirst]
      split
      · next isWanted => rw [List.find?_cons_of_pos isWanted, Option.map_some, Option.map_some]
      · next notWanted =>
          rw [List.find?_cons_of_neg notWanted, ← inductionHypothesis]
          cases changeFirst wanted change chain <;> rfl

/-- Changing the bucket of a state answers what the change of the first such bucket does. -/
theorem onBucket_fst {α : Type} (memo : Memo V) (key : StateKey V) (change : Bucket V → α × Bucket V) :
    (memo.onBucket key change).1 =
      (memo.chains[key.hash]?.bind fun chain => chain.find? fun bucket => key.isSame bucket.state).map
        fun bucket => (change bucket).1 := by
  unfold onBucket
  cases memo.chains[key.hash]? with
  | none => rfl
  | some chain =>
      simp only [Option.bind_some, ← map_fst_changeFirst]
      cases changeFirst (fun bucket => key.isSame bucket.state) change chain <;> rfl

theorem find_fst (memo : Memo V) (key : StateKey V) (store : Store) (start : Position)
    (generation : Nat) :
    (memo.find key store start generation).1 = (memo.found? key store start).map Entry.node := by
  have answers := memo.onBucket_fst key (·.find store start generation)
  simp only [find, answers, found?, bind, ← Option.bind_assoc]
  cases memo.chains[key.hash]?.bind fun chain => chain.find? fun bucket => key.isSame bucket.state with
  | none => rfl
  | some bucket => exact bucket.find_fst store start generation

/-- The first bucket for a state stays the first one, unless it is left empty. -/
theorem find?_dropWhere {chain : List (Bucket V)} {bucket : Bucket V}
    (isFirst : (chain.find? fun bucket => key.isSame bucket.state) = some bucket)
    (left : (bucket.dropWhere doomed).live ≠ []) :
    (((chain.map (·.dropWhere doomed)).filter fun bucket => !bucket.live.isEmpty).find?
      fun bucket => key.isSame bucket.state) = some (bucket.dropWhere doomed) := by
  rcases List.find?_eq_some_iff_append.mp isFirst with ⟨isSame, before, after, same, others⟩
  rw [List.find?_filter, List.find?_map, Option.map_eq_some_iff]
  refine ⟨bucket, List.find?_eq_some_iff_append.mpr ⟨?_, before, after, same, ?_⟩, rfl⟩
  · have nonempty : (!(bucket.dropWhere doomed).live.isEmpty) = true := by
      rw [Bool.not_eq_true', List.isEmpty_eq_false_iff]
      exact left
    exact decide_eq_true ⟨nonempty, isSame⟩
  · intro other member
    have differs := others other member
    rw [Bool.not_eq_true'] at differs ⊢
    exact decide_eq_false fun both => absurd both.2 (Bool.eq_false_iff.mp differs)

theorem found?_dropWhere (found : memo.found? key store start = some entry)
    (spared : doomed entry = false) :
    (memo.dropWhere doomed).found? key store start = some entry := by
  simp only [found?, bind, Option.bind_eq_some_iff] at found ⊢
  rcases found with ⟨chain, atHash, bucket, isFirst, found⟩
  have left : (bucket.dropWhere doomed).live ≠ [] := List.ne_nil_of_mem
    ((bucket.mem_live_dropWhere doomed entry).mpr ⟨Bucket.mem_live_of_found? found, spared⟩)
  have stays := find?_dropWhere isFirst left
  refine ⟨_, ?_, bucket.dropWhere doomed, stays, Bucket.found?_dropWhere found spared⟩
  simp only [dropWhere, Std.TreeMap.getElem?_filterMap', atHash, Option.bind_some]
  rw [if_neg]
  rw [List.isEmpty_iff]
  exact List.ne_nil_of_mem (List.mem_of_find?_eq_some stays)

end Memo

namespace Session

/-- The entry that is found for an invocation. -/
def found? (session : Session V) (rule : V.Rule) (key : StateKey V) (start : Position) :
    Option (Entry V) :=
  ((session.memos.lookup rule).getD {}).found? key session.store start

/-- The node that a parse meets for an invocation, before it is asked whether it is stale. -/
def lookUp (session : Session V) (rule : V.Rule) (key : StateKey V) (start : Position) :
    Option V.Node :=
  (session.onMemo rule (·.find key session.store start session.generation)).1

variable {session : Session V} {rule : V.Rule} {key : StateKey V} {start : Position}
  {entry : Entry V} {doomed : Entry V → Bool} {reused ordered : List Range}

theorem lookUp_eq (session : Session V) (rule : V.Rule) (key : StateKey V) (start : Position) :
    session.lookUp rule key start = (session.found? rule key start).map Entry.node :=
  Memo.find_fst _ key session.store start session.generation

theorem lookup_map_snd {α β γ : Type} [BEq α] (change : β → γ) (name : α) (pairs : List (α × β)) :
    (pairs.map fun pair => (pair.1, change pair.2)).lookup name =
      (pairs.lookup name).map change := by
  induction pairs with
  | nil => rfl
  | cons pair pairs inductionHypothesis =>
      rw [List.map_cons, List.lookup_cons, List.lookup_cons, inductionHypothesis]
      cases name == pair.1 <;> rfl

theorem found?_dropWhere (found : session.found? rule key start = some entry)
    (spared : doomed entry = false) :
    (session.dropWhere doomed).2.found? rule key start = some entry := by
  simp only [found?, dropWhere] at found ⊢
  rw [lookup_map_snd fun memo : Memo V => memo.dropWhere doomed]
  cases isMemo : session.memos.lookup rule with
  | none =>
      rw [isMemo, Option.getD_none] at found
      simp [Memo.found?, bind] at found
  | some memo =>
      rw [isMemo, Option.getD_some] at found
      exact Memo.found?_dropWhere found spared

/-- A sweep keeps the entries of its generation and those that the longest chains of used spans
spare, in whatever order spans of one start are put.  It answers how many it drops, and what it
keeps is found where it was found before. -/
theorem sweep_keeps_what_is_spared (begun : session.reused = some reused)
    (same : ordered.Perm reused)
    (sorted : ordered.Pairwise fun first second => first.start ≤ second.start) :
    ∃ keeps : Entry V → Bool,
      (∀ entry, keeps entry = true ↔ entry.generation = session.generation ∨
        Spares ordered (entry.node.range session.store)) ∧
      session.sweep.2.entries = session.entries.filter keeps ∧
      session.sweep.1 = (session.entries.filter fun entry => !keeps entry).length ∧
      ∀ rule key start entry, session.found? rule key start = some entry → keeps entry = true →
        session.sweep.2.found? rule key start = some entry ∧
          session.sweep.2.lookUp rule key start = some entry.node := by
  let doomed : Entry V → Bool := fun entry => decide (entry.generation ≠ session.generation) &&
    !isCovered (covered reused) (entry.node.range session.store)
  let ended : Session V := { session with reused := none }
  have swept : session.sweep = ended.dropWhere doomed := by
    rw [sweep, begun]
  rw [swept]
  refine ⟨fun entry => !doomed entry, fun entry => ?_, ended.entries_dropWhere doomed, ?_, ?_⟩
  · rw [← isCovered_iff_spares same sorted, Bool.not_eq_true', Bool.and_eq_false_iff,
      decide_eq_false_iff_not, not_not, Bool.not_eq_false']
  · simp only [Bool.not_not]
    exact ended.dropWhere_fst doomed
  · intro rule key start entry found kept
    have found' : ended.found? rule key start = some entry := found
    rw [Bool.not_eq_true'] at kept
    have stays := found?_dropWhere found' kept
    refine ⟨stays, ?_⟩
    rw [lookUp_eq, stays, Option.map_some]

/-- Two spans that overlap spare what starts in the first one and ends in the second one.  A span
without text spares nothing, not even what starts where it stands. -/
theorem sweep_along_a_chain :
    let parser : Parser Words.vocabulary := ⟨Words.grammar, {}⟩
    let parsed := ((Document.ofString "[a b] cd e").parse parser).2.session
    let session := { parsed.beginSweep with reused := some [⟨3, 7⟩, ⟨9, 9⟩, ⟨0, 4⟩] }
    (session.entries.map fun entry => entry.node.range session.store) =
        [⟨1, 4⟩, ⟨0, 10⟩, ⟨1, 3⟩, ⟨3, 4⟩, ⟨0, 6⟩, ⟨6, 9⟩, ⟨9, 10⟩] ∧
      (session.sweep.2.entries.map fun entry => entry.node.range session.store) =
        [⟨1, 4⟩, ⟨1, 3⟩, ⟨3, 4⟩, ⟨0, 6⟩] ∧
      ∃ keeps : Entry Words.vocabulary → Bool,
        (∀ entry, keeps entry = true ↔ entry.generation = session.generation ∨
          Spares [⟨0, 4⟩, ⟨3, 7⟩, ⟨9, 9⟩] (entry.node.range session.store)) ∧
        session.sweep.2.entries = session.entries.filter keeps ∧
        (session.entries.filter fun entry => !keeps entry).length = 3 ∧
        ∀ rule key start entry, session.found? rule key start = some entry → keeps entry = true →
          session.sweep.2.lookUp rule key start = some entry.node := by
  intro parser parsed session
  have begun : session.reused = some [⟨3, 7⟩, ⟨9, 9⟩, ⟨0, 4⟩] := rfl
  have same : [⟨0, 4⟩, ⟨3, 7⟩, ⟨9, 9⟩].Perm ([⟨3, 7⟩, ⟨9, 9⟩, ⟨0, 4⟩] : List Range) := by decide
  rcases sweep_keeps_what_is_spared begun same (by decide) with ⟨keeps, spares, entries, count, found⟩
  have dropped : session.sweep.1 = 3 := by decide +kernel
  exact ⟨by decide +kernel, by decide +kernel, keeps, spares, entries, count ▸ dropped,
    fun rule key start entry isFound kept => (found rule key start entry isFound kept).2⟩

end Session

end Reparse
