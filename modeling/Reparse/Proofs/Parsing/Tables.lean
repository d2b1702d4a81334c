import Mathlib.Data.List.Nodup
import Reparse.Proofs.Parsing.Maps

namespace Reparse

/-!
# The memos of a session as one table

A grammar that tells no states apart needs one bucket for each rule.  All its states are the
same, so what is kept can be told by a rule and a position alone.  If all buckets are tidy then
a session is a table of entries under a rule and a position, and what holds of it as a map is
told here without the states.
-/

variable {V : Vocabulary}

/-- A key for states that are not told apart. -/
structure StateKey.Plain (key : StateKey V) (hash : Nat) : Prop where
  hash : key.hash = hash
  same : ∀ state, key.isSame state = true

namespace Sameness

/-- All states are the same, and have one hash. -/
def plain (hash : Nat) : Sameness V := ⟨fun _ => hash, fun _ _ => true⟩

theorem plain_lawful (hash : Nat) : (plain hash : Sameness V).Lawful :=
  ⟨fun _ => rfl, fun _ => rfl, fun _ _ => rfl, fun _ => rfl⟩

end Sameness

theorem StateKey.Plain.eq {key : StateKey V} {hash : Nat} (plain : key.Plain hash) :
    key = (Sameness.plain hash).key key.state := by
  rcases key with ⟨state, _, isSame⟩
  rcases plain with ⟨rfl, same⟩
  rw [Sameness.key, StateKey.mk.injEq]
  exact ⟨rfl, rfl, funext same⟩

namespace Memo

variable {memo : Memo V} {hash : Nat} {store : Store} {id : BufferId} {entry : Entry V}

/-- A memo has no bucket or one. -/
def Single (memo : Memo V) (hash : Nat) : Prop :=
  ∀ other chain, memo.chains[other]? = some chain → other = hash ∧ ∃ bucket, chain = [bucket]

/-- An entry is in one of the buckets. -/
def Caches (memo : Memo V) (entry : Entry V) : Prop :=
  ∃ bucket, memo.Contains bucket ∧ entry ∈ bucket.live

/-- A memo whose bucket is a table. -/
structure Tidy (memo : Memo V) (hash : Nat) (store : Store) (id : BufferId) : Prop where
  single : memo.Single hash
  buckets : ∀ bucket, memo.Contains bucket → bucket.Tidy store (store.buffer id).revision

/-- Buckets whose states are all the same are not more than one. -/
theorem single_iff_sorted : memo.Single hash ↔ memo.Sorted (.plain hash) := by
  constructor
  · refine fun single => ⟨fun other chain found => ?_, fun other chain found bucket _ => ?_,
      fun other chain found => ?_⟩
    · rcases (single other chain found).2 with ⟨bucket, rfl⟩
      exact List.cons_ne_nil _ _
    · exact (single other chain found).1.symm
    · rcases (single other chain found).2 with ⟨bucket, rfl⟩
      exact List.pairwise_singleton _ _
  · intro sorted other chain found
    rcases List.exists_cons_of_ne_nil (sorted.filled other chain found) with ⟨bucket, rest, rfl⟩
    refine ⟨(sorted.hash other _ found bucket List.mem_cons_self).symm, bucket, ?_⟩
    rcases rest with _ | ⟨second, rest⟩
    · rfl
    · cases (List.pairwise_cons.mp (sorted.apart other _ found)).1 second List.mem_cons_self

theorem tidy_iff_maps : memo.Tidy hash store id ↔ memo.Maps (.plain hash) store id :=
  ⟨fun tidy => ⟨single_iff_sorted.mp tidy.single, tidy.buckets⟩,
    fun maps => ⟨single_iff_sorted.mpr maps.sorted, maps.buckets⟩⟩

theorem caches_iff_keeps (hash : Nat) (state : V.State) :
    memo.Caches entry ↔ memo.Keeps (.plain hash) state entry :=
  exists_congr fun _ => and_congr_right fun _ => (and_iff_right rfl).symm

end Memo

namespace Session

variable {session : Session V} {rule other : V.Rule} {hash : Nat} {id : BufferId} {start : Position}
  {key : StateKey V} {state : V.State} {entry : Entry V}

/-- An entry is kept for a rule. -/
def Caches (session : Session V) (rule : V.Rule) (entry : Entry V) : Prop :=
  ∃ memo, (rule, memo) ∈ session.memos ∧ memo.Caches entry

/-- Each rule has one memo, which is a table. -/
structure Tidy (session : Session V) (hash : Nat) (id : BufferId) : Prop where
  names : (session.memos.map Prod.fst).Nodup
  memos : ∀ rule memo, (rule, memo) ∈ session.memos → memo.Tidy hash session.store id

/-- The entry is kept for a rule, and starts at a position. -/
def Takes (session : Session V) (rule : V.Rule) (start : Position) (other : V.Rule)
    (entry : Entry V) : Prop :=
  other = rule ∧ session.store.position entry.node.start = start

theorem tidy_iff_maps : session.Tidy hash id ↔ session.Maps (.plain hash) id :=
  ⟨fun tidy => ⟨tidy.names, fun rule memo member =>
      Memo.tidy_iff_maps.mp (tidy.memos rule memo member)⟩,
    fun maps => ⟨maps.names, fun rule memo member =>
      Memo.tidy_iff_maps.mpr (maps.memos rule memo member)⟩⟩

theorem caches_iff_keeps (hash : Nat) (state : V.State) :
    session.Caches rule entry ↔ session.Keeps (.plain hash) rule state entry :=
  exists_congr fun _ => and_congr_right fun _ => Memo.caches_iff_keeps hash state

theorem takes_iff_occupies (hash : Nat) (state own : V.State) :
    session.Takes rule start other entry ↔
      session.Occupies (.plain hash) rule state start other own entry :=
  and_congr_right fun _ => (and_iff_right rfl).symm

theorem Holds.caches (holds : session.Holds rule state entry) : session.Caches rule entry :=
  (caches_iff_keeps 0 state).mpr (holds.keeps rfl)

/-- What a map holds afterwards, told without the states. -/
theorem caches_of_keeps {after : Session V} (state : V.State) (added : Entry V → Prop)
    (keeps : ∀ other own entry, after.Keeps (.plain hash) other own entry ↔
      other = rule ∧ (Sameness.plain hash).same own state = true ∧ added entry ∨
        session.Keeps (.plain hash) other own entry ∧
          ¬session.Occupies (.plain hash) rule state start other own entry)
    (other : V.Rule) (entry : Entry V) : after.Caches other entry ↔
      other = rule ∧ added entry ∨
        session.Caches other entry ∧ ¬session.Takes rule start other entry := by
  rw [caches_iff_keeps hash state, keeps, caches_iff_keeps hash state,
    takes_iff_occupies hash state state]
  exact or_congr_left (and_congr_right fun _ => and_iff_right rfl)

/-! ## Looking for a node -/

/-- A session with the same memos and the same texts is the same table. -/
theorem Tidy.of_eq {session' : Session V} (tidy : session.Tidy hash id)
    (memos : session'.memos = session.memos) (store : session'.store = session.store) :
    session'.Tidy hash id :=
  tidy_iff_maps.mpr ((tidy_iff_maps.mp tidy).of_eq memos store)

/-- Looking for a node drops what is stale at its place, or stamps what is used again. -/
theorem Tidy.reuse_spec (tidy : session.Tidy hash start.buffer) (plain : key.Plain hash)
    (rule : V.Rule) (isStale : Range → Bool) :
    let after := session.reuse rule key start isStale
    after.2.Tidy hash start.buffer ∧ after.2.store = session.store ∧
      after.2.generation = session.generation ∧
      match after.1 with
      | none => after.2.reused = session.reused ∧ ∀ other entry, after.2.Caches other entry ↔
          session.Caches other entry ∧ ¬session.Takes rule start other entry
      | some (node, stop) => ∃ found, session.Caches rule found ∧ found.node = node ∧
          session.store.position node.start = start ∧ session.store.position node.stop = stop ∧
          isStale ⟨session.store.indexOf start, session.store.indexOf stop⟩ = false ∧
          after.2.reused = session.reused.map
            (⟨session.store.indexOf start, session.store.indexOf stop⟩ :: ·) ∧
          ∀ other entry, after.2.Caches other entry ↔
            other = rule ∧ entry = { found with generation := session.generation } ∨
              session.Caches other entry ∧ ¬session.Takes rule start other entry := by
  have spec := (tidy_iff_maps.mp tidy).reuse_spec (Sameness.plain_lawful hash) rule key.state isStale
  rw [← plain.eq] at spec
  generalize session.reuse rule key start isStale = outcome at spec ⊢
  rcases outcome with ⟨_ | ⟨node, stop⟩, after⟩
  · rcases spec with ⟨maps, store, generation, reused, _, _, keeps⟩
    refine ⟨tidy_iff_maps.mpr maps, store, generation, reused, fun other entry => ?_⟩
    rw [caches_iff_keeps hash key.state, keeps, caches_iff_keeps hash key.state,
      takes_iff_occupies hash key.state key.state]
  · rcases spec with ⟨maps, store, generation, found, held, isNode, isStart, isStop, _, quiet, reused,
      keeps⟩
    exact ⟨tidy_iff_maps.mpr maps, store, generation, found,
      (caches_iff_keeps hash key.state).mpr held, isNode, isStart, isStop, quiet, reused, caches_of_keeps key.state _ keeps⟩

/-! ## Keeping a node -/

/-- Keeping a node puts an entry at its place, with cursors of its own. -/
theorem Tidy.keep_spec (tidy : session.Tidy hash start.buffer) (plain : key.Plain hash)
    (sound : session.store.Sound) {stop : Position} (startRests : session.store.Rests start)
    (stopRests : session.store.Rests stop)
    (placed : ∀ rule entry, session.Caches rule entry →
      ∃ place, session.store.place? entry.node.start = some place)
    (rule : V.Rule) (content : Content V.Label V.Skip) (before skipped : List V.Skip) :
    let after := session.keep rule key start stop content before skipped
    after.2.Tidy hash start.buffer ∧ after.2.store.Sound ∧ session.store.Keeps after.2.store ∧
      after.2.generation = session.generation ∧ after.2.reused = session.reused ∧
      after.1.start.buffer = start.buffer ∧ after.2.store.place? after.1.start = some start.place ∧
      after.1.stop.buffer = stop.buffer ∧ after.2.store.place? after.1.stop = some stop.place ∧
      ∀ other entry, after.2.Caches other entry ↔
        other = rule ∧ entry = ⟨after.1, session.generation⟩ ∨
          session.Caches other entry ∧ ¬session.Takes rule start other entry := by
  have spec := (tidy_iff_maps.mp tidy).keep_spec (Sameness.plain_lawful hash) sound startRests
    stopRests (fun rule _ entry holds => placed rule entry holds.caches) rule key.state content before skipped
  rw [← plain.eq] at spec
  rcases spec with ⟨maps, sound', keeps, generation, reused, startBuffer, startPlace, stopBuffer,
    stopPlace, entries⟩
  exact ⟨tidy_iff_maps.mpr maps, sound', keeps, generation, reused, startBuffer, startPlace,
    stopBuffer, stopPlace, caches_of_keeps key.state _ entries⟩

/-- A rule has one entry for a position. -/
theorem Tidy.caches_unique {entry' : Entry V} (tidy : session.Tidy hash id)
    (caches : session.Caches rule entry) (caches' : session.Caches rule entry')
    (same : session.store.position entry.node.start = session.store.position entry'.node.start) :
    entry = entry' := by
  rcases caches with ⟨memo, member, bucket, contains, live⟩
  have keeps : session.Keeps (.plain hash) rule bucket.state entry :=
    ⟨memo, member, bucket, contains, rfl, live⟩
  exact (tidy_iff_maps.mp tidy).unique (Sameness.plain_lawful hash) keeps
    ((caches_iff_keeps hash bucket.state).mp caches') same

/-! ## Sweeping -/

/-- What is left after a sweep was stored or used in its generation, or starts inside of a node
that was used again. -/
theorem Tidy.sweep_spec {reused : List Range} (tidy : session.Tidy hash id)
    (begun : session.reused = some reused) :
    session.sweep.2.Tidy hash id ∧ session.sweep.2.store = session.store ∧
      session.sweep.2.generation = session.generation ∧
      (∀ rule entry, session.Caches rule entry → entry.generation = session.generation →
        session.sweep.2.Caches rule entry) ∧
      ∀ rule entry, session.sweep.2.Caches rule entry → session.Caches rule entry ∧
        (entry.generation = session.generation ∨ ∃ range ∈ reused,
          range.start ≤ (entry.node.range session.store).start ∧
            (entry.node.range session.store).start < range.stop) := by
  rcases (tidy_iff_maps.mp tidy).sweep_spec begun with ⟨maps, store, generation, left⟩
  refine ⟨tidy_iff_maps.mpr maps, store, generation, ?_, ?_⟩
  · rintro rule entry ⟨memo, member, bucket, contains, live⟩ stamped
    have keeps : session.Keeps (.plain hash) rule bucket.state entry :=
      ⟨memo, member, bucket, contains, rfl, live⟩
    exact (caches_iff_keeps hash bucket.state).mpr
      ((left rule bucket.state entry).mpr ⟨keeps, Or.inl stamped⟩)
  · rintro rule entry ⟨memo, member, bucket, contains, live⟩
    have keeps : session.sweep.2.Keeps (.plain hash) rule bucket.state entry :=
      ⟨memo, member, bucket, contains, rfl, live⟩
    rcases (left rule bucket.state entry).mp keeps with ⟨held, spared⟩
    exact ⟨(caches_iff_keeps hash bucket.state).mpr held,
      spared.imp_right fun inside => ((joined_covered reused).isCovered_iff.mp inside).starts⟩

/-! ## The spans of what is kept -/

/-- The rule and the span of each node that is kept. -/
def spans (session : Session V) : List (V.Rule × Range) :=
  session.memos.flatMap fun (rule, memo) =>
    memo.entries.map fun entry => (rule, entry.node.range session.store)

theorem spans_eq_map_rows (session : Session V) :
    session.spans = session.rows.map fun row => (row.1, row.2.2.node.range session.store) := by
  simp only [spans, rows, List.map_flatMap, List.map_map, ← Memo.map_snd_rows, Function.comp_def]

theorem length_spans (session : Session V) : session.spans.length = session.cachedNodes := by
  rw [spans_eq_map_rows, List.length_map, length_rows]

theorem mem_spans {span : Range} : (rule, span) ∈ session.spans ↔
    ∃ entry, session.Caches rule entry ∧ entry.node.range session.store = span := by
  rw [spans_eq_map_rows, List.mem_map]
  constructor
  · rintro ⟨⟨rule, state, entry⟩, member, same⟩
    cases same
    exact ⟨entry, (mem_rows.mp member).caches, rfl⟩
  · rintro ⟨entry, ⟨memo, member, bucket, contains, live⟩, rfl⟩
    exact ⟨(rule, bucket.state, entry), mem_rows.mpr ⟨memo, member, bucket, contains, rfl, live⟩, rfl⟩

/-- Each span is listed once, if nodes with the same span start at the same position. -/
theorem Tidy.nodup_spans (tidy : session.Tidy hash id)
    (apart : ∀ rule entry entry', session.Caches rule entry → session.Caches rule entry' →
      entry.node.range session.store = entry'.node.range session.store →
      session.store.position entry.node.start = session.store.position entry'.node.start) :
    session.spans.Nodup := by
  have rows := (tidy_iff_maps.mp tidy).pairwise_rows (Sameness.plain_lawful hash)
  rw [spans_eq_map_rows]
  refine List.pairwise_map.mpr (rows.imp_of_mem ?_)
  rintro ⟨rule, state, entry⟩ ⟨rule', state', entry'⟩ member member' different same
  rcases Prod.mk.inj same with ⟨rfl, range⟩
  exact different rfl rfl
    (apart rule entry entry' (mem_rows.mp member).caches (mem_rows.mp member').caches range)

end Session

end Reparse
