import Mathlib.Data.List.Induction
import Reparse.Proofs.Parsing.Memos

namespace Reparse

/-!
# Buckets as tables

The index of a bucket is only a hint.  Where it is exact, though, a bucket is a table of
entries under the positions at which they start.  It is made exact when the index is made
again, if no two entries start at one position, and every operation of a parse keeps it so.
Finding changes the stamp of the entry at a position, erasing takes it away, and inserting
puts another one in its place.

An index can be exact for the places where cursors are as well as for the positions that the
places are settled to, so what it tells of an entry is left open.
-/

variable {V : Vocabulary}

namespace Bucket

/-- A slot holds an entry. -/
def Stores (bucket : Bucket V) (slot : Nat) (entry : Entry V) : Prop :=
  bucket.entries[slot]? = some (some entry)

/-- The index has every entry under what it tells of it, and nothing else. -/
def Exact (bucket : Bucket V) (tells : Entry V → Option Position) : Prop :=
  ∀ position slot, bucket.index[position]? = some slot ↔
    ∃ entry, bucket.Stores slot entry ∧ tells entry = some position

/-- No two entries are told of alike. -/
def Distinct (bucket : Bucket V) (tells : Entry V → Option Position) : Prop :=
  ∀ slot slot' entry entry' position, bucket.Stores slot entry → bucket.Stores slot' entry' →
    tells entry = some position → tells entry' = some position → slot = slot'

/-- The free slots hold nothing, and each is listed once. -/
structure Spare (bucket : Bucket V) : Prop where
  vacant : ∀ slot ∈ bucket.free, bucket.entries[slot]? = some none
  distinct : bucket.free.Nodup

/-- Where an entry starts. -/
def starts (store : Store) (entry : Entry V) : Option Position :=
  some (store.position entry.node.start)

/-- A bucket whose index is exact once it is brought up to a revision. -/
structure Tidy (bucket : Bucket V) (store : Store) (revision : Nat) : Prop where
  behind : bucket.revision ≤ revision
  indexed : (bucket.refresh store revision).Exact (starts store)
  spare : bucket.Spare

variable {bucket : Bucket V} {store : Store} {start : Position} {entry : Entry V}
  {tells : Entry V → Option Position} {revision slot : Nat}

theorem Exact.distinct (exact : bucket.Exact tells) : bucket.Distinct tells := by
  intro slot slot' entry entry' position holds holds' told told'
  have one := (exact position slot).mpr ⟨entry, holds, told⟩
  have two := (exact position slot').mpr ⟨entry', holds', told'⟩
  exact Option.some.inj (one.symm.trans two)

/-- An index is exact for whatever tells the same of the entries that are held. -/
theorem Exact.congr {tells' : Entry V → Option Position} (exact : bucket.Exact tells)
    (same : ∀ slot entry, bucket.Stores slot entry → tells' entry = tells entry) :
    bucket.Exact tells' := by
  intro position slot
  rw [exact]
  refine exists_congr fun entry => and_congr_right fun holds => ?_
  rw [same slot entry holds]

theorem mem_live_iff : entry ∈ bucket.live ↔ ∃ slot, bucket.Stores slot entry := mem_live

@[simp] theorem stores_refresh : (bucket.refresh store revision).Stores slot entry ↔
    bucket.Stores slot entry := by
  rw [Stores, Stores, entries_refresh]

@[simp] theorem live_refresh (bucket : Bucket V) (store : Store) (revision : Nat) :
    (bucket.refresh store revision).live = bucket.live := by
  rw [live, live, entries_refresh]

@[simp] theorem free_refresh (bucket : Bucket V) (store : Store) (revision : Nat) :
    (bucket.refresh store revision).free = bucket.free := by
  rw [refresh]
  split <;> rfl

@[simp] theorem revision_refresh (bucket : Bucket V) (store : Store) (revision : Nat) :
    (bucket.refresh store revision).revision = revision := by
  rw [refresh]
  split
  · assumption
  · rfl

theorem refresh_of_eq (same : bucket.revision = revision) : bucket.refresh store revision = bucket :=
  if_pos same

theorem Spare.refresh (spare : bucket.Spare) (store : Store) (revision : Nat) :
    (bucket.refresh store revision).Spare := by
  constructor
  · rw [free_refresh, entries_refresh]
    exact spare.vacant
  · rw [free_refresh]
    exact spare.distinct

/-! ## Making the index again -/

theorem getElem?_insert_index (index : Std.TreeMap Position Nat) (position other : Position)
    (slot : Nat) :
    (index.insert position slot)[other]? = if position = other then some slot else index[other]? := by
  rw [Std.TreeMap.getElem?_insert]
  simp only [Std.compare_eq_iff_eq]

theorem getElem?_erase_index (index : Std.TreeMap Position Nat) (position other : Position) :
    (index.erase position)[other]? = if position = other then none else index[other]? := by
  rw [Std.TreeMap.getElem?_erase]
  simp only [Std.compare_eq_iff_eq]

/-- Entries are entered one after the other, so the index is left with the last one of those that
start at a position. -/
theorem getElem?_foldl_insert (store : Store) (entries : List (Option (Entry V)))
    (position : Position) (slot : Nat) :
    (entries.zipIdx.foldl (fun index (entry, slot) =>
        match entry with
        | some stored => index.insert (store.position stored.node.start) slot
        | none => index) ({} : Std.TreeMap Position Nat))[position]? = some slot ↔
      ∃ entry : Entry V, entries[slot]? = some (some entry) ∧
        store.position entry.node.start = position ∧
        ∀ (other : Nat) (entry' : Entry V), entries[other]? = some (some entry') →
          store.position entry'.node.start = position → other ≤ slot := by
  induction entries using List.reverseRecOn with
  | nil => simp
  | append_singleton entries last inductionHypothesis =>
      -- A slot is one of the earlier ones, or the one that is entered now.
      have slots : ∀ (other : Nat) (entry : Entry V),
          (entries ++ [last])[other]? = some (some entry) ↔
            entries[other]? = some (some entry) ∨ other = entries.length ∧ last = some entry := by
        intro other entry
        rcases Nat.lt_trichotomy other entries.length with before | same | beyond
        · rw [List.getElem?_append_left before]
          exact (or_iff_left fun here => absurd here.1 (Nat.ne_of_lt before)).symm
        · subst same
          simp
        · rw [List.getElem?_eq_none (by rw [List.length_append, List.length_singleton]; omega),
            List.getElem?_eq_none (Nat.le_of_lt beyond)]
          simp [Nat.ne_of_gt beyond]
      have earlier : ∀ {other : Nat} {entry : Entry V}, entries[other]? = some (some entry) →
          other < entries.length := fun held => (List.getElem?_eq_some_iff.mp held).1
      rw [List.zipIdx_append, List.foldl_append, List.zipIdx_cons, List.zipIdx_nil, List.foldl_cons,
        List.foldl_nil]
      simp only [slots, Nat.zero_add]
      cases last with
      | none => simpa using inductionHypothesis
      | some stored =>
          rw [getElem?_insert_index]
          by_cases here : store.position stored.node.start = position
          · rw [if_pos here]
            constructor
            · rintro ⟨⟩
              refine ⟨stored, Or.inr ⟨rfl, rfl⟩, here, ?_⟩
              rintro other entry (held | ⟨same, _⟩) _
              · exact Nat.le_of_lt (earlier held)
              · exact Nat.le_of_eq same
            · rintro ⟨entry, held | ⟨same, _⟩, _, latest⟩
              · exact absurd (latest entries.length stored (Or.inr ⟨rfl, rfl⟩) here)
                  (Nat.not_le_of_lt (earlier held))
              · rw [same]
          · rw [if_neg here, inductionHypothesis]
            constructor
            · rintro ⟨entry, held, starts, latest⟩
              refine ⟨entry, Or.inl held, starts, ?_⟩
              rintro other entry' (held' | ⟨_, same⟩) starts'
              · exact latest other entry' held' starts'
              · cases same
                exact absurd starts' here
            · rintro ⟨entry, held | ⟨_, same⟩, starts, latest⟩
              · exact ⟨entry, held, starts, fun other entry' held' =>
                  latest other entry' (Or.inl held')⟩
              · cases same
                exact absurd starts here

/-- An index that is made again has the last one of the entries that start at a position. -/
theorem getElem?_reindex (bucket : Bucket V) (store : Store) (position : Position) (slot : Nat) :
    (bucket.reindex store)[position]? = some slot ↔
      ∃ entry, bucket.Stores slot entry ∧ store.position entry.node.start = position ∧
        ∀ other entry', bucket.Stores other entry' →
          store.position entry'.node.start = position → other ≤ slot := by
  have entered := getElem?_foldl_insert store bucket.entries.toList position slot
  simp only [Array.getElem?_toList] at entered
  exact entered

/-- An index that is made again is exact, if no two entries start at one position. -/
theorem exact_reindex (distinct : bucket.Distinct (starts store)) :
    { bucket with revision, index := bucket.reindex store }.Exact (starts store) := by
  intro position slot
  refine Iff.trans (bucket.getElem?_reindex store position slot) ⟨?_, ?_⟩
  · rintro ⟨entry, holds, isStart, _⟩
    exact ⟨entry, holds, congrArg some isStart⟩
  · rintro ⟨entry, holds, told⟩
    refine ⟨entry, holds, Option.some.inj told, fun other entry' holds' isStart' => ?_⟩
    exact Nat.le_of_eq (distinct other slot entry' entry position holds' holds
      (congrArg some isStart') told)

/-- What makes a bucket tidy: an index that is up to date is exact, and one that is not can be
made again. -/
theorem tidy_of (behind : bucket.revision ≤ revision)
    (exact : bucket.revision = revision → bucket.Exact (starts store))
    (distinct : bucket.Distinct (starts store)) (spare : bucket.Spare) :
    bucket.Tidy store revision := by
  refine ⟨behind, ?_, spare⟩
  rw [refresh]
  split
  · next same => exact exact same
  · exact exact_reindex distinct

theorem Tidy.distinct (tidy : bucket.Tidy store revision) : bucket.Distinct (starts store) := by
  intro slot slot' entry entry' position holds holds'
  exact tidy.indexed.distinct slot slot' entry entry' position (stores_refresh.mpr holds)
    (stores_refresh.mpr holds')

/-- Cursors may be added while a table is in use. -/
theorem Tidy.congr {store' : Store} (tidy : bucket.Tidy store revision)
    (same : ∀ entry ∈ bucket.live,
      store'.position entry.node.start = store.position entry.node.start) :
    bucket.Tidy store' revision := by
  have told : ∀ slot entry, bucket.Stores slot entry → starts store' entry = starts store entry :=
    fun slot entry holds => congrArg some (same entry (mem_live.mpr ⟨slot, holds⟩))
  refine tidy_of tidy.behind (fun upToDate => ?_) ?_ tidy.spare
  · have exact := tidy.indexed
    rw [refresh_of_eq upToDate] at exact
    exact exact.congr told
  · intro slot slot' entry entry' position holds holds' starts starts'
    rw [told _ _ holds] at starts
    rw [told _ _ holds'] at starts'
    exact tidy.distinct slot slot' entry entry' position holds holds' starts starts'

/-! ## Operations on a table -/

/-- The index leads to the entry that starts at a position. -/
theorem Exact.slot?_eq_some_iff (exact : bucket.Exact (starts store)) :
    bucket.slot? store start = some slot ↔
      ∃ entry, bucket.Stores slot entry ∧ store.position entry.node.start = start := by
  constructor
  · intro found
    exact slot?_eq_some found
  · rintro ⟨entry, holds, isStart⟩
    have indexed := (exact start slot).mpr ⟨entry, holds, congrArg some isStart⟩
    have held : bucket.entries[slot]?.join = some entry := by
      rw [show bucket.entries[slot]? = some (some entry) from holds, Option.join_some]
    simp only [slot?, indexed, held, bind, Option.bind_some, if_pos isStart]

theorem Exact.slot?_eq_none (exact : bucket.Exact (starts store))
    (none : bucket.slot? store start = none) (member : entry ∈ bucket.live) :
    store.position entry.node.start ≠ start := by
  rcases mem_live.mp member with ⟨slot, holds⟩
  intro isStart
  rw [exact.slot?_eq_some_iff.mpr ⟨entry, holds, isStart⟩] at none
  cases none

/-- What a bucket holds after the content of one slot was changed. -/
def Revises (before after : Bucket V) (slot : Nat) (content : Option (Entry V)) : Prop :=
  ∀ other entry, after.Stores other entry ↔
    if other = slot then content = some entry else before.Stores other entry

/-- A slot may be changed for a position if no entry of another position is in it, and all that
starts at the position is. -/
theorem Exact.revise {before after : Bucket V} {content : Option (Entry V)}
    (exact : before.Exact (starts store)) (revises : before.Revises after slot content)
    (index : ∀ position, after.index[position]? =
      if start = position then content.map fun _ => slot else before.index[position]?)
    (isStart : ∀ entry, content = some entry → store.position entry.node.start = start)
    (alone : ∀ other entry, before.Stores other entry →
      (store.position entry.node.start = start ↔ other = slot)) :
    after.Exact (starts store) ∧ ∀ entry, entry ∈ after.live ↔
      content = some entry ∨ entry ∈ before.live ∧ store.position entry.node.start ≠ start := by
  constructor
  · intro position other
    rw [index]
    by_cases here : start = position
    · rw [if_pos here, Option.map_eq_some_iff]
      constructor
      · rintro ⟨entry, isContent, rfl⟩
        exact ⟨entry, (revises _ _).mpr (by rw [if_pos rfl, isContent]),
          congrArg some ((isStart entry isContent).trans here)⟩
      · rintro ⟨entry, holds, told⟩
        have atStart := (Option.some.inj told).trans here.symm
        rw [revises] at holds
        split at holds
        · next same => exact ⟨entry, holds, same.symm⟩
        · next different => exact absurd ((alone other entry holds).mp atStart) different
    · rw [if_neg here, exact]
      refine exists_congr fun entry => and_congr_left fun told => ?_
      have elsewhere : store.position entry.node.start ≠ start :=
        fun atStart => here (atStart.symm.trans (Option.some.inj told))
      rw [revises]
      by_cases same : other = slot
      · rw [if_pos same]
        constructor
        · exact fun holds => absurd ((alone other entry holds).mpr same) elsewhere
        · exact fun isContent => absurd (isStart entry isContent) elsewhere
      · rw [if_neg same]
  · intro entry
    rw [mem_live_iff, mem_live_iff]
    constructor
    · rintro ⟨other, holds⟩
      rw [revises] at holds
      split at holds
      · exact Or.inl holds
      · next different =>
          exact Or.inr ⟨⟨other, holds⟩, fun atStart => different ((alone other entry holds).mp atStart)⟩
    · rintro (isContent | ⟨⟨other, holds⟩, elsewhere⟩)
      · exact ⟨slot, (revises _ _).mpr (by rw [if_pos rfl, isContent])⟩
      · refine ⟨other, (revises _ _).mpr ?_⟩
        rw [if_neg fun same => elsewhere ((alone other entry holds).mpr same)]
        exact holds

/-- All that starts where an entry does is the entry. -/
theorem Exact.alone (exact : bucket.Exact (starts store)) (holds : bucket.Stores slot entry)
    (isStart : store.position entry.node.start = start) (other : Nat) (entry' : Entry V)
    (holds' : bucket.Stores other entry') :
    store.position entry'.node.start = start ↔ other = slot := by
  constructor
  · exact fun isStart' => exact.distinct other slot entry' entry start holds' holds
      (congrArg some isStart') (congrArg some isStart)
  · rintro rfl
    have same : entry' = entry := Option.some.inj (Option.some.inj (holds'.symm.trans holds))
    rw [same, isStart]

theorem Stores.lt_size (holds : bucket.Stores slot entry) : slot < bucket.entries.size :=
  (Array.getElem?_eq_some_iff.mp holds).1

theorem revises_setIfInBounds {after : Bucket V} {content : Option (Entry V)}
    (within : slot < bucket.entries.size)
    (entries : after.entries = bucket.entries.setIfInBounds slot content) :
    bucket.Revises after slot content := by
  intro other entry
  rw [Stores, entries, Array.getElem?_setIfInBounds]
  by_cases same : slot = other
  · rw [if_pos same, if_pos within, if_pos same.symm, Option.some_inj]
  · rw [if_neg same, if_neg (Ne.symm same), Stores]

theorem index_of_indexed (indexed : bucket.index[start]? = some slot) (position : Position) :
    bucket.index[position]? = if start = position then some slot else bucket.index[position]? := by
  split
  · next here => rw [← here, indexed]
  · rfl

/-- Nothing starts at a position that is not in the index. -/
theorem Exact.unindexed (exact : bucket.Exact (starts store)) (unindexed : bucket.index[start]? = none)
    (empty : ∀ entry, ¬bucket.Stores slot entry) (other : Nat) (entry : Entry V)
    (holds : bucket.Stores other entry) : store.position entry.node.start = start ↔ other = slot := by
  constructor
  · intro isStart
    rw [(exact start other).mpr ⟨entry, holds, congrArg some isStart⟩] at unindexed
    cases unindexed
  · rintro rfl
    exact absurd holds (empty entry)

/-- A bucket that is up to date and exact is tidy. -/
theorem tidy_of_exact (upToDate : bucket.revision = revision) (exact : bucket.Exact (starts store))
    (spare : bucket.Spare) : bucket.Tidy store revision := by
  refine ⟨Nat.le_of_eq upToDate, ?_, spare⟩
  rw [refresh_of_eq upToDate]
  exact exact

/-- A new bucket holds nothing. -/
theorem tidy_fresh (state : V.State) (store : Store) (revision : Nat) :
    Tidy ⟨state, revision, {}, #[], []⟩ store revision := by
  refine tidy_of_exact rfl (fun position slot => ⟨fun found => ?_, ?_⟩)
    ⟨fun slot member => absurd member List.not_mem_nil, List.nodup_nil⟩
  · cases (Std.TreeMap.getElem?_emptyc (a := position)).symm.trans found
  · rintro ⟨entry, stores, _⟩
    cases stores

/-- An entry is put into a slot that may be changed for its position. -/
theorem Exact.put {before after : Bucket V} {added : Entry V} (exact : before.Exact (starts store))
    (revises : before.Revises after slot (some added)) (upToDate : after.revision = revision)
    (index : ∀ position, after.index[position]? =
      if start = position then some slot else before.index[position]?)
    (isStart : store.position added.node.start = start)
    (alone : ∀ other entry, before.Stores other entry →
      (store.position entry.node.start = start ↔ other = slot))
    (spare : after.Spare) : after.Tidy store revision ∧ ∀ entry, entry ∈ after.live ↔
      entry = added ∨ entry ∈ before.live ∧ store.position entry.node.start ≠ start := by
  have isAdded : ∀ entry, some added = some entry → store.position entry.node.start = start := by
    rintro _ ⟨⟩
    exact isStart
  rcases exact.revise revises index isAdded alone with ⟨exact', live'⟩
  refine ⟨tidy_of_exact upToDate exact' spare, fun entry => ?_⟩
  rw [live', Option.some_inj, eq_comm]

/-- The table that an operation works on: it is up to date, exact and holds what the bucket
does. -/
theorem Tidy.current (tidy : bucket.Tidy store revision) :
    let table := bucket.refresh store revision
    table.revision = revision ∧ table.Exact (starts store) ∧ table.Spare ∧
      table.live = bucket.live :=
  ⟨bucket.revision_refresh store revision, tidy.indexed, tidy.spare.refresh store revision,
    bucket.live_refresh store revision⟩

/-- Finding stamps the entry at the position. -/
theorem Tidy.find_spec (tidy : bucket.Tidy store (store.buffer start.buffer).revision)
    (generation : Nat) :
    let after := bucket.find store start generation
    after.2.Tidy store (store.buffer start.buffer).revision ∧
      match after.1 with
      | none => after.2.live = bucket.live ∧
          ∀ entry ∈ bucket.live, store.position entry.node.start ≠ start
      | some node => ∃ found ∈ bucket.live, store.position found.node.start = start ∧
          found.node = node ∧ ∀ entry, entry ∈ after.2.live ↔
            entry = { found with generation } ∨
              entry ∈ bucket.live ∧ store.position entry.node.start ≠ start := by
  rcases tidy.current with ⟨upToDate, exact, spare, live⟩
  simp only [find]
  generalize bucket.refresh store (store.buffer start.buffer).revision = table
    at upToDate exact spare live ⊢
  rw [← live]
  cases found : table.slot? store start with
  | none => exact ⟨tidy_of_exact upToDate exact spare, rfl, fun entry member =>
      exact.slot?_eq_none found member⟩
  | some slot =>
      rcases exact.slot?_eq_some_iff.mp found with ⟨entry, holds, isStart⟩
      have stored : table.entries[slot]? = some (some entry) := holds
      have indexed := (exact start slot).mpr ⟨entry, holds, congrArg some isStart⟩
      have revises : table.Revises
          { table with entries := table.entries.modify slot (·.map ({ · with generation })) } slot
          (some { entry with generation }) := by
        intro other entry'
        rw [Stores, Array.getElem?_modify]
        by_cases same : slot = other
        · rw [if_pos same, ← same, stored, if_pos rfl]
          simp
        · rw [if_neg same, if_neg (Ne.symm same), Stores]
      simp only [stored, Option.join_some, Option.map_some]
      have put := exact.put revises upToDate (index_of_indexed indexed) isStart
        (exact.alone holds isStart) ⟨fun own member => by
          rw [Array.getElem?_modify, spare.vacant own member]
          split <;> rfl, spare.distinct⟩
      exact ⟨put.1, entry, mem_live.mpr ⟨slot, holds⟩, isStart, rfl, put.2⟩

/-- Erasing takes away the entry at the position. -/
theorem Tidy.erase_spec (tidy : bucket.Tidy store (store.buffer start.buffer).revision) :
    let after := bucket.erase store start
    after.Tidy store (store.buffer start.buffer).revision ∧ ∀ entry, entry ∈ after.live ↔
      entry ∈ bucket.live ∧ store.position entry.node.start ≠ start := by
  rcases tidy.current with ⟨upToDate, exact, spare, live⟩
  simp only [erase]
  generalize bucket.refresh store (store.buffer start.buffer).revision = table
    at upToDate exact spare live ⊢
  rw [← live]
  cases found : table.slot? store start with
  | none => exact ⟨tidy_of_exact upToDate exact spare, fun entry =>
      ⟨fun member => ⟨member, exact.slot?_eq_none found member⟩, And.left⟩⟩
  | some slot =>
      rcases exact.slot?_eq_some_iff.mp found with ⟨entry, holds, isStart⟩
      have revises : table.Revises
          { table with
            index := table.index.erase start
            entries := table.entries.setIfInBounds slot none
            free := slot :: table.free } slot none :=
        revises_setIfInBounds holds.lt_size rfl
      rcases exact.revise revises (getElem?_erase_index table.index start) (by rintro _ ⟨⟩)
        (exact.alone holds isStart) with ⟨exact', live'⟩
      refine ⟨tidy_of_exact upToDate exact' ⟨fun own member => ?_, ?_⟩, fun entry' => ?_⟩
      · simp only [Array.getElem?_setIfInBounds]
        rcases List.mem_cons.mp member with rfl | old
        · rw [if_pos rfl, if_pos holds.lt_size]
        · have vacant := spare.vacant own old
          split
          · rw [if_pos holds.lt_size]
          · exact vacant
      · refine List.nodup_cons.mpr ⟨fun member => ?_, spare.distinct⟩
        cases holds.symm.trans (spare.vacant slot member)
      · rw [live']
        simp only [reduceCtorEq, false_or]

/-- Inserting puts an entry in the place of the one at the position. -/
theorem Tidy.insert_spec (tidy : bucket.Tidy store (store.buffer start.buffer).revision)
    {added : Entry V} (isStart : store.position added.node.start = start) :
    let after := bucket.insert store start added
    after.Tidy store (store.buffer start.buffer).revision ∧ ∀ entry, entry ∈ after.live ↔
      entry = added ∨ entry ∈ bucket.live ∧ store.position entry.node.start ≠ start := by
  rcases tidy.current with ⟨upToDate, exact, spare, live⟩
  simp only [insert]
  generalize bucket.refresh store (store.buffer start.buffer).revision = table
    at upToDate exact spare live ⊢
  rw [← live]
  cases indexed : table.index[start]? with
  | some slot =>
      rcases (exact start slot).mp indexed with ⟨entry, holds, told⟩
      have revises : table.Revises
          { table with entries := table.entries.setIfInBounds slot (some added) } slot
          (some added) := revises_setIfInBounds holds.lt_size rfl
      refine exact.put revises upToDate (index_of_indexed indexed) isStart
        (exact.alone holds (Option.some.inj told)) ⟨fun own member => ?_, spare.distinct⟩
      have vacant := spare.vacant own member
      simp only [Array.getElem?_setIfInBounds]
      split
      · next same =>
          rw [← same] at vacant
          cases holds.symm.trans vacant
      · exact vacant
  | none =>
      cases isFree : table.free with
      | cons slot free =>
          have vacant : table.entries[slot]? = some none :=
            spare.vacant slot (isFree ▸ List.mem_cons_self)
          have within : slot < table.entries.size := (Array.getElem?_eq_some_iff.mp vacant).1
          have names := spare.distinct
          rw [isFree, List.nodup_cons] at names
          have revises : table.Revises
              { table with
                index := table.index.insert start slot
                entries := table.entries.setIfInBounds slot (some added)
                free } slot (some added) := revises_setIfInBounds within rfl
          refine exact.put revises upToDate
            (fun position => getElem?_insert_index table.index start position slot) isStart
            (exact.unindexed indexed fun entry holds => by cases vacant.symm.trans holds)
            ⟨fun own member => ?_, names.2⟩
          simp only [Array.getElem?_setIfInBounds]
          split
          · next same => exact absurd (same ▸ member) names.1
          · exact spare.vacant own (isFree ▸ List.mem_cons_of_mem _ member)
      | nil =>
          have revises : table.Revises
              { table with
                index := table.index.insert start table.entries.size
                entries := table.entries.push (some added)
                free := [] } table.entries.size (some added) := by
            intro other entry
            rw [Stores, Array.getElem?_push]
            split
            · rw [Option.some_inj]
            · rfl
          exact exact.put revises upToDate
            (fun position => getElem?_insert_index table.index start position _) isStart
            (exact.unindexed indexed fun entry holds => Nat.lt_irrefl _ holds.lt_size)
            ⟨fun own member => absurd member List.not_mem_nil, List.nodup_nil⟩

/-! ## Dropping entries -/

section Dropping

variable (bucket : Bucket V) (doomed : Entry V → Bool)

theorem getElem?_dropWhere (slot : Nat) : (bucket.dropWhere doomed).entries[slot]? =
    bucket.entries[slot]?.map fun entry => if entry.any doomed then none else entry := by
  simp only [dropWhere, Array.getElem?_map]

theorem stores_dropWhere (slot : Nat) (entry : Entry V) : (bucket.dropWhere doomed).Stores slot entry ↔
    bucket.Stores slot entry ∧ doomed entry = false := by
  rw [Stores, getElem?_dropWhere, Option.map_eq_some_iff, Stores]
  constructor
  · rintro ⟨old, held, kept⟩
    split at kept
    · cases kept
    · next spared =>
        subst kept
        rw [Option.any_some, Bool.not_eq_true] at spared
        exact ⟨held, spared⟩
  · rintro ⟨held, spared⟩
    refine ⟨some entry, held, ?_⟩
    rw [Option.any_some, spared, if_neg Bool.false_ne_true]

/-- The index keeps what leads to an entry that is not dropped. -/
theorem getElem?_index_dropWhere (position : Position) (slot : Nat) :
    (bucket.dropWhere doomed).index[position]? = some slot ↔
      bucket.index[position]? = some slot ∧
        ∃ entry, bucket.Stores slot entry ∧ doomed entry = false := by
  have found : (bucket.dropWhere doomed).index[position]? =
      bucket.index[position]?.filter fun slot =>
        ((bucket.dropWhere doomed).entries[slot]?.join).isSome := by
    simp only [dropWhere, Std.TreeMap.getElem?_filter']
  rw [found, Option.filter_eq_some_iff, Option.isSome_iff_exists]
  refine and_congr_right fun _ => exists_congr fun entry => ?_
  rw [Option.join_eq_some_iff]
  exact bucket.stores_dropWhere doomed slot entry

variable {bucket}

theorem Exact.dropWhere (exact : bucket.Exact tells) : (bucket.dropWhere doomed).Exact tells := by
  intro position slot
  rw [getElem?_index_dropWhere, exact]
  constructor
  · rintro ⟨⟨entry, holds, told⟩, entry', holds', spared⟩
    cases holds.symm.trans holds'
    exact ⟨entry, (bucket.stores_dropWhere doomed slot entry).mpr ⟨holds, spared⟩, told⟩
  · rintro ⟨entry, kept, told⟩
    rcases (bucket.stores_dropWhere doomed slot entry).mp kept with ⟨holds, spared⟩
    exact ⟨⟨entry, holds, told⟩, entry, holds, spared⟩

theorem Distinct.dropWhere (distinct : bucket.Distinct tells) :
    (bucket.dropWhere doomed).Distinct tells := by
  intro slot slot' entry entry' position holds holds'
  exact distinct slot slot' entry entry' position ((stores_dropWhere ..).mp holds).1
    ((stores_dropWhere ..).mp holds').1

theorem sublist_filterMap_snd {α : Type} (wanted : α → Bool) (pairs : List (α × Nat)) :
    (pairs.filterMap fun (item, slot) => if wanted item then some slot else none).Sublist
      (pairs.map Prod.snd) := by
  induction pairs with
  | nil => exact .slnil
  | cons pair pairs inductionHypothesis =>
      rcases pair with ⟨item, slot⟩
      rw [List.filterMap_cons, List.map_cons]
      by_cases isWanted : wanted item = true
      · simp only [if_pos isWanted]
        exact inductionHypothesis.cons_cons slot
      · simp only [if_neg isWanted]
        exact inductionHypothesis.cons slot

theorem Spare.dropWhere (spare : bucket.Spare) : (bucket.dropWhere doomed).Spare := by
  have free : (bucket.dropWhere doomed).free =
      (bucket.entries.toList.zipIdx.filterMap fun (entry, slot) =>
        if entry.any doomed then some slot else none).reverse ++ bucket.free := rfl
  have freed : ∀ slot, slot ∈ (bucket.entries.toList.zipIdx.filterMap fun (entry, slot) =>
      if entry.any doomed then some slot else none) ↔
      ∃ entry, bucket.Stores slot entry ∧ doomed entry = true := by
    intro slot
    simp only [List.mem_filterMap, Prod.exists, List.mem_zipIdx_iff_getElem?, Array.getElem?_toList]
    constructor
    · rintro ⟨entry, other, held, kept⟩
      split at kept
      · next isDoomed =>
          cases kept
          cases entry with
          | none => cases isDoomed
          | some entry => exact ⟨entry, held, isDoomed⟩
      · cases kept
    · rintro ⟨entry, holds, isDoomed⟩
      exact ⟨some entry, slot, holds, by rw [Option.any_some, if_pos isDoomed]⟩
  constructor
  · intro slot member
    rw [free, List.mem_append, List.mem_reverse, freed] at member
    rw [getElem?_dropWhere]
    rcases member with ⟨entry, holds, isDoomed⟩ | old
    · rw [show bucket.entries[slot]? = some (some entry) from holds, Option.map_some,
        Option.any_some, if_pos isDoomed]
    · rw [spare.vacant slot old]
      rfl
  · rw [free, List.nodup_append]
    refine ⟨?_, spare.distinct, ?_⟩
    · have names : (bucket.entries.toList.zipIdx.map Prod.snd).Nodup := by
        rw [List.zipIdx_map_snd]
        exact List.nodup_range'
      exact List.pairwise_reverse.mpr
        ((names.sublist (sublist_filterMap_snd _ _)).imp Ne.symm)
    · rintro slot member other old rfl
      rw [List.mem_reverse, freed] at member
      rcases member with ⟨entry, holds, _⟩
      cases holds.symm.trans (spare.vacant slot old)

theorem Tidy.dropWhere (tidy : bucket.Tidy store revision) :
    (bucket.dropWhere doomed).Tidy store revision := by
  refine tidy_of tidy.behind (fun upToDate => ?_) (tidy.distinct.dropWhere doomed)
    (tidy.spare.dropWhere doomed)
  have same : bucket.revision = revision := upToDate
  have exact := tidy.indexed
  rw [refresh_of_eq same] at exact
  exact exact.dropWhere doomed

end Dropping

theorem nodup_map_filterMap_id {α β : Type} {tells : α → β} (items : List (Option α))
    (distinct : ∀ (slot slot' : Nat) (item item' : α), items[slot]? = some (some item) →
      items[slot']? = some (some item') → tells item = tells item' → slot = slot') :
    ((items.filterMap id).map tells).Nodup := by
  induction items with
  | nil => exact List.nodup_nil
  | cons head items inductionHypothesis =>
      have rest := inductionHypothesis fun slot slot' item item' holds holds' same =>
        Nat.succ.inj (distinct (slot + 1) (slot' + 1) item item' holds holds' same)
      cases head with
      | none => exact rest
      | some item =>
          refine List.nodup_cons.mpr ⟨fun member => ?_, rest⟩
          rcases List.mem_map.mp member with ⟨other, inside, same⟩
          rw [List.mem_filterMap] at inside
          rcases inside with ⟨_, inside, rfl⟩
          rcases List.getElem?_of_mem inside with ⟨slot, holds⟩
          exact Nat.succ_ne_zero _ (distinct (slot + 1) 0 other item holds rfl same)

/-- Entries that are told apart are listed once each. -/
theorem nodup_live {α : Type} {tells : Entry V → α} (distinct : ∀ slot slot' entry entry',
      bucket.Stores slot entry → bucket.Stores slot' entry' → tells entry = tells entry' →
      slot = slot') : (bucket.live.map tells).Nodup := by
  refine nodup_map_filterMap_id _ fun slot slot' entry entry' holds holds' same => ?_
  rw [Array.getElem?_toList] at holds holds'
  exact distinct slot slot' entry entry' holds holds' same

end Bucket

end Reparse
