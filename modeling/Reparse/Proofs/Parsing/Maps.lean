import Reparse.Proofs.Parsing.Chains
import Reparse.Proofs.Parsing.Stretches
import Reparse.Proofs.Rope.Revisions
import Reparse.Proofs.Rope.Resting

namespace Reparse

/-!
# The memos of a session as one map

A session has a memo for each rule.  If all memos are maps then it holds entries under a
rule, a state and a position, and everything that a parse does to it is told by what it
holds afterwards.  Looking for a node stamps the entry that is used again, or leaves
nothing at its place.  Keeping a node puts an entry at its place.

Each entry has a place of its own, so the number of kept nodes is the number of places
at which one is found.
-/

variable {V : Vocabulary}

namespace Session

variable {session : Session V} {sameness : Sameness V} {rule other : V.Rule}
  {state own : V.State} {id : BufferId} {start : Position} {entry : Entry V}

/-- An entry is kept for a rule and a state. -/
def Keeps (session : Session V) (sameness : Sameness V) (rule : V.Rule) (state : V.State)
    (entry : Entry V) : Prop :=
  ∃ memo, (rule, memo) ∈ session.memos ∧ memo.Keeps sameness state entry

/-- Each rule has one memo, which is a map. -/
structure Maps (session : Session V) (sameness : Sameness V) (id : BufferId) : Prop where
  names : (session.memos.map Prod.fst).Nodup
  memos : ∀ rule memo, (rule, memo) ∈ session.memos → memo.Maps sameness session.store id

/-- An entry is for the rule and for a state that is the same, and starts at a position. -/
def Occupies (session : Session V) (sameness : Sameness V) (rule : V.Rule) (state : V.State)
    (start : Position) (other : V.Rule) (own : V.State) (entry : Entry V) : Prop :=
  other = rule ∧ Memo.Occupies sameness session.store state start own entry

/-- What is kept for a state is held under one that is the same. -/
theorem Keeps.holds (keeps : session.Keeps sameness rule state entry) :
    ∃ own, sameness.same own state = true ∧ session.Holds rule own entry := by
  rcases keeps with ⟨memo, member, bucket, contains, same, live⟩
  exact ⟨bucket.state, same, memo, member, bucket, contains, rfl, live⟩

/-- What is kept for a state is kept for one that is the same. -/
theorem Keeps.congr (keeps : session.Keeps sameness rule own entry) (lawful : sameness.Lawful)
    (same : sameness.same own state = true) : session.Keeps sameness rule state entry := by
  rcases keeps with ⟨memo, member, bucket, contains, isOwn, live⟩
  exact ⟨memo, member, bucket, contains, lawful.trans isOwn same, live⟩

theorem Holds.keeps (holds : session.Holds rule own entry) (same : sameness.same own state = true) :
    session.Keeps sameness rule state entry := by
  rcases holds with ⟨memo, member, bucket, contains, rfl, live⟩
  exact ⟨memo, member, bucket, contains, same, live⟩

/-! ## One memo -/

theorem lookup_eq_some_iff {α β : Type} [DecidableEq α] {pairs : List (α × β)}
    (names : (pairs.map Prod.fst).Nodup) (name : α) (value : β) :
    pairs.lookup name = some value ↔ (name, value) ∈ pairs := by
  induction pairs with
  | nil => simp
  | cons pair pairs inductionHypothesis =>
      rcases pair with ⟨head, content⟩
      rw [List.map_cons, List.nodup_cons] at names
      rw [List.lookup_cons, List.mem_cons, Prod.mk.injEq]
      by_cases same : name = head
      · subst same
        simp only [beq_self_eq_true, Option.some_inj, true_and]
        refine ⟨fun isContent => Or.inl isContent.symm, ?_⟩
        rintro (isContent | later)
        · exact isContent.symm
        · exact absurd (List.mem_map_of_mem (f := Prod.fst) later) names.1
      · rw [show (name == head) = false from beq_eq_false_iff_ne.mpr same]
        simp only [same, false_and, false_or]
        exact inductionHypothesis names.2

/-- The memo of a rule, which is empty at first, is a map. -/
theorem Maps.memo (maps : session.Maps sameness id) (rule : V.Rule) :
    ((session.memos.lookup rule).getD {}).Maps sameness session.store id ∧
      ∀ state entry, ((session.memos.lookup rule).getD {}).Keeps sameness state entry ↔
        session.Keeps sameness rule state entry := by
  cases found : session.memos.lookup rule with
  | none =>
      refine ⟨Memo.maps_empty sameness session.store id, fun state entry => ⟨?_, ?_⟩⟩
      · rintro ⟨bucket, contains, _⟩
        exact absurd contains (Memo.not_contains_empty bucket)
      · rintro ⟨memo, member, _⟩
        rw [(lookup_eq_some_iff maps.names rule memo).mpr member] at found
        cases found
  | some memo =>
      have there := (lookup_eq_some_iff maps.names rule memo).mp found
      refine ⟨maps.memos rule memo there, fun state entry => ⟨fun keeps => ⟨memo, there, keeps⟩, ?_⟩⟩
      rintro ⟨memo', member, keeps⟩
      rw [(lookup_eq_some_iff maps.names rule memo').mpr member] at found
      cases found
      exact keeps

variable {α : Type} {change : Memo V → α × Memo V}

/-- Changing the memo of one rule. -/
theorem Maps.onMemo (maps : session.Maps sameness id)
    (changed : (change ((session.memos.lookup rule).getD {})).2.Maps sameness session.store id) :
    (session.onMemo rule change).2.Maps sameness id := by
  refine ⟨?_, fun other memo member => ?_⟩
  · simp only [Session.onMemo, List.map_cons, List.nodup_cons]
    refine ⟨fun member => ?_, maps.names.sublist (List.filter_sublist.map Prod.fst)⟩
    rcases List.mem_map.mp member with ⟨⟨other, memo⟩, kept, same⟩
    exact of_decide_eq_true (List.mem_filter.mp kept).2 same
  · simp only [Session.onMemo] at member
    rcases List.mem_cons.mp member with same | kept
    · cases same
      exact changed
    · exact maps.memos other memo (List.mem_filter.mp kept).1

theorem keeps_onMemo (session : Session V) (change : Memo V → α × Memo V) (other : V.Rule)
    (own : V.State) (entry : Entry V) :
    (session.onMemo rule change).2.Keeps sameness other own entry ↔
      other = rule ∧ (change ((session.memos.lookup rule).getD {})).2.Keeps sameness own entry ∨
        other ≠ rule ∧ session.Keeps sameness other own entry := by
  constructor
  · rintro ⟨memo, member, keeps⟩
    simp only [Session.onMemo] at member
    rcases List.mem_cons.mp member with same | kept
    · cases same
      exact Or.inl ⟨rfl, keeps⟩
    · rcases List.mem_filter.mp kept with ⟨there, different⟩
      exact Or.inr ⟨of_decide_eq_true different, memo, there, keeps⟩
  · rintro (⟨rfl, keeps⟩ | ⟨different, memo, there, keeps⟩)
    · exact ⟨_, List.mem_cons_self, keeps⟩
    · exact ⟨memo, List.mem_cons_of_mem _ (List.mem_filter.mpr ⟨there, decide_eq_true different⟩),
        keeps⟩

/-- What is kept after the memo of one rule was changed at a place. -/
theorem Maps.keeps_onMemo_at (maps : session.Maps sameness id) (state : V.State)
    (start : Position) (added : Entry V → Prop)
    (keeps : ∀ own entry,
      (change ((session.memos.lookup rule).getD {})).2.Keeps sameness own entry ↔
        sameness.same own state = true ∧ added entry ∨
          ((session.memos.lookup rule).getD {}).Keeps sameness own entry ∧
            ¬Memo.Occupies sameness session.store state start own entry)
    (other : V.Rule) (own : V.State) (entry : Entry V) :
    (session.onMemo rule change).2.Keeps sameness other own entry ↔
      other = rule ∧ sameness.same own state = true ∧ added entry ∨
        session.Keeps sameness other own entry ∧
          ¬session.Occupies sameness rule state start other own entry := by
  rw [keeps_onMemo, keeps, (maps.memo rule).2, Occupies]
  by_cases same : other = rule
  · subst same
    simp only [true_and, ne_eq, not_true, false_and, or_false]
  · simp only [same, false_and, ne_eq, not_false_eq_true, true_and, false_or, and_true]

section Operations

variable (maps : session.Maps sameness start.buffer) (lawful : sameness.Lawful)
include maps lawful

theorem Maps.find_spec (rule : V.Rule) (state : V.State) (generation : Nat) :
    let after := session.onMemo rule (·.find (sameness.key state) session.store start generation)
    after.2.Maps sameness start.buffer ∧
      match after.1 with
      | none =>
          (∀ other own entry, after.2.Keeps sameness other own entry ↔
            session.Keeps sameness other own entry) ∧
          ∀ entry, session.Keeps sameness rule state entry →
            session.store.position entry.node.start ≠ start
      | some node => ∃ found, session.Keeps sameness rule state found ∧ found.node = node ∧
          session.store.position node.start = start ∧
          ∀ other own entry, after.2.Keeps sameness other own entry ↔
            other = rule ∧ sameness.same own state = true ∧ entry = { found with generation } ∨
              session.Keeps sameness other own entry ∧
                ¬session.Occupies sameness rule state start other own entry := by
  rcases maps.memo rule with ⟨mapsMemo, kept⟩
  rcases mapsMemo.find_spec lawful state generation with ⟨found, outcome⟩
  refine ⟨maps.onMemo found, ?_⟩
  rw [show (session.onMemo rule (·.find (sameness.key state) session.store start generation)).1 =
    (((session.memos.lookup rule).getD {}).find (sameness.key state) session.store start
      generation).1 from rfl]
  cases answer : (((session.memos.lookup rule).getD {}).find (sameness.key state) session.store start
      generation).1 with
  | none =>
      simp only [answer, kept] at outcome ⊢
      refine ⟨fun other own entry => ?_, outcome.2⟩
      rw [keeps_onMemo, outcome.1]
      by_cases same : other = rule
      · subst same
        simp only [true_and, ne_eq, not_true, false_and, or_false]
      · simp only [same, false_and, ne_eq, not_false_eq_true, true_and, false_or]
  | some node =>
      simp only [answer] at outcome ⊢
      rcases outcome with ⟨found, held, isStart, rfl, entries⟩
      exact ⟨found, (kept state found).mp held, rfl, isStart,
        maps.keeps_onMemo_at state start _ entries⟩

theorem Maps.erase_spec (rule : V.Rule) (state : V.State) :
    let after :=
      (session.onMemo rule fun memo => ((), memo.erase (sameness.key state) session.store start)).2
    after.Maps sameness start.buffer ∧ ∀ other own entry, after.Keeps sameness other own entry ↔
      session.Keeps sameness other own entry ∧
        ¬session.Occupies sameness rule state start other own entry := by
  rcases (maps.memo rule).1.erase_spec lawful state with ⟨erased, entries⟩
  refine ⟨maps.onMemo erased, fun other own entry => ?_⟩
  refine Iff.trans (maps.keeps_onMemo_at state start (fun _ => False) (fun own entry => ?_) other own
    entry) ?_
  · simp only [entries, and_false, false_or]
  · rw [and_false, and_false, false_or]

theorem Maps.insert_spec (rule : V.Rule) (state : V.State) {added : Entry V}
    (isStart : session.store.position added.node.start = start) :
    let after := (session.onMemo rule fun memo =>
      ((), memo.insert (sameness.key state) session.store start added)).2
    after.Maps sameness start.buffer ∧ ∀ other own entry, after.Keeps sameness other own entry ↔
      other = rule ∧ sameness.same own state = true ∧ entry = added ∨
        session.Keeps sameness other own entry ∧
          ¬session.Occupies sameness rule state start other own entry := by
  rcases (maps.memo rule).1.insert_spec lawful state isStart with ⟨grown, entries⟩
  exact ⟨maps.onMemo grown, maps.keeps_onMemo_at state start _ entries⟩

end Operations

/-! ## Looking for a node -/

/-- A session with the same memos and the same texts is the same map. -/
theorem Maps.of_eq {session' : Session V} (maps : session.Maps sameness id)
    (memos : session'.memos = session.memos) (store : session'.store = session.store) :
    session'.Maps sameness id := by
  constructor
  · rw [memos]
    exact maps.names
  · rw [memos, store]
    exact maps.memos

/-- A rule has one entry for a state and a position. -/
theorem Maps.unique {entry' : Entry V} (maps : session.Maps sameness id) (lawful : sameness.Lawful)
    (keeps : session.Keeps sameness rule state entry)
    (keeps' : session.Keeps sameness rule state entry')
    (same : session.store.position entry.node.start = session.store.position entry'.node.start) :
    entry = entry' := by
  rcases maps.memo rule with ⟨mapsMemo, kept⟩
  exact mapsMemo.unique lawful ((kept state entry).mpr keeps) ((kept state entry').mpr keeps') same

/-- Looking for a node stamps what is used again.  If there is none, what is kept at its place is
not in one piece or stale, and dropped. -/
theorem Maps.reuse_spec (maps : session.Maps sameness start.buffer) (lawful : sameness.Lawful)
    (rule : V.Rule) (state : V.State) (isStale : Range → Bool) :
    let after := session.reuse rule (sameness.key state) start isStale
    after.2.Maps sameness start.buffer ∧ after.2.store = session.store ∧
      after.2.generation = session.generation ∧
      match after.1 with
      | none => after.2.reused = session.reused ∧ after.2.journal = session.journal ∧
          (∀ entry, session.Keeps sameness rule state entry →
            session.store.position entry.node.start = start →
            session.store.sameDocument start (session.store.position entry.node.stop) = true →
            isStale ⟨session.store.indexOf start,
              session.store.indexOf (session.store.position entry.node.stop)⟩ = true) ∧
          ∀ other own entry, after.2.Keeps sameness other own entry ↔
            session.Keeps sameness other own entry ∧
              ¬session.Occupies sameness rule state start other own entry
      | some (node, stop) => ∃ found, session.Keeps sameness rule state found ∧ found.node = node ∧
          session.store.position node.start = start ∧ session.store.position node.stop = stop ∧
          session.store.sameDocument start stop = true ∧
          isStale ⟨session.store.indexOf start, session.store.indexOf stop⟩ = false ∧
          after.2.reused = session.reused.map
            (⟨session.store.indexOf start, session.store.indexOf stop⟩ :: ·) ∧
          ∀ other own entry, after.2.Keeps sameness other own entry ↔
            other = rule ∧ sameness.same own state = true ∧
                entry = { found with generation := session.generation } ∨
              session.Keeps sameness other own entry ∧
                ¬session.Occupies sameness rule state start other own entry := by
  have spec := maps.find_spec lawful rule state session.generation
  have search : ∃ memos, (session.onMemo rule
      (·.find (sameness.key state) session.store start session.generation)).2 =
        { session with memos } := ⟨_, rfl⟩
  simp only [reuse]
  generalize session.onMemo rule
    (·.find (sameness.key state) session.store start session.generation) = outcome at spec search ⊢
  rcases outcome with ⟨_ | node, searched⟩
  · rcases search with ⟨memos, rfl⟩
    rcases spec with ⟨maps', same, nothing⟩
    refine ⟨maps'.of_eq rfl rfl, rfl, rfl, rfl, rfl,
      fun entry keeps isStart => absurd isStart (nothing entry keeps),
      fun other own entry => Iff.trans (same other own entry) ?_⟩
    refine ⟨fun keeps => ⟨keeps, ?_⟩, And.left⟩
    rintro ⟨rfl, isSame, isStart⟩
    exact nothing entry (keeps.congr lawful isSame) isStart
  · rcases search with ⟨memos, rfl⟩
    rcases spec with ⟨maps', found, held, isNode, isStart, entries⟩
    simp only at isStart ⊢
    -- One entry is kept at the place, so the one that was found is meant.
    have only : ∀ entry, session.Keeps sameness rule state entry →
        session.store.position entry.node.start = start → entry.node = node := by
      intro entry keeps atStart
      rw [maps.unique lawful keeps held (atStart.trans (isNode ▸ isStart).symm), isNode]
    split
    · next stale =>
        have asked : ∃ consulted, (if session.store.sameDocument start
              (session.store.position node.stop) = true then
            { session with memos, consulted := session.consulted + 1 }
          else { session with memos }) = { session with memos, consulted } := by
          split <;> exact ⟨_, rfl⟩
        rcases asked with ⟨consulted, asked⟩
        rw [asked]
        have mapsAsked : Maps { session with memos, consulted } sameness start.buffer :=
          maps'.of_eq rfl rfl
        rcases mapsAsked.erase_spec lawful rule state with ⟨mapsErased, erased⟩
        refine ⟨mapsErased.of_eq rfl rfl, rfl, rfl, rfl, rfl, fun entry keeps atStart attached => ?_,
          fun other own entry => Iff.trans (erased other own entry) ?_⟩
        · rw [only entry keeps atStart] at attached ⊢
          rw [attached, Bool.not_true, Bool.false_or] at stale
          exact stale
        constructor
        · rintro ⟨keeps, elsewhere⟩
          rcases (entries other own entry).mp keeps with ⟨rfl, isSame, rfl⟩ | kept
          · exact absurd ⟨rfl, isSame, isNode ▸ isStart⟩ elsewhere
          · exact kept
        · rintro ⟨keeps, elsewhere⟩
          exact ⟨(entries other own entry).mpr (Or.inr ⟨keeps, elsewhere⟩), elsewhere⟩
    · next fresh =>
        rw [Bool.or_eq_true, not_or, Bool.not_eq_true, Bool.not_eq_false', Bool.not_eq_true] at fresh
        rw [if_pos fresh.1]
        exact ⟨maps'.of_eq rfl rfl, rfl, rfl, found, held, isNode, isStart, rfl, fresh.1, fresh.2, rfl,
          entries⟩

/-! ## Keeping a node -/

/-- Keeping a node puts an entry at its place, with cursors of its own. -/
theorem Maps.keep_spec (maps : session.Maps sameness start.buffer) (lawful : sameness.Lawful)
    (sound : session.store.Sound) {stop : Position} (startRests : session.store.Rests start)
    (stopRests : session.store.Rests stop)
    (placed : ∀ rule state entry, session.Holds rule state entry →
      ∃ place, session.store.place? entry.node.start = some place)
    (rule : V.Rule) (state : V.State) (content : Content V.Label V.Skip)
    (before skipped : List V.Skip) :
    let after := session.keep rule (sameness.key state) start stop content before skipped
    after.2.Maps sameness start.buffer ∧ after.2.store.Sound ∧
      session.store.Keeps after.2.store ∧ after.2.generation = session.generation ∧
      after.2.reused = session.reused ∧ after.1.start.buffer = start.buffer ∧
      after.2.store.place? after.1.start = some start.place ∧ after.1.stop.buffer = stop.buffer ∧
      after.2.store.place? after.1.stop = some stop.place ∧
      ∀ other own entry, after.2.Keeps sameness other own entry ↔
        other = rule ∧ sameness.same own state = true ∧ entry = ⟨after.1, session.generation⟩ ∨
          session.Keeps sameness other own entry ∧
            ¬session.Occupies sameness rule state start other own entry := by
  rcases sound.cursorAt_keeps startRests.has with ⟨soundOne, keepsOne, bufferOne, placeOne⟩
  have revisionsOne := session.store.sameRevisions_cursorAt start
  simp only [keep]
  generalize session.store.cursorAt start = seated at *
  rcases seated with ⟨one, storeOne⟩
  simp only at *
  rcases soundOne.cursorAt_keeps (keepsOne.trees.rests stopRests).has with
    ⟨soundTwo, keepsTwo, bufferTwo, placeTwo⟩
  have revisionsTwo := storeOne.sameRevisions_cursorAt stop
  generalize storeOne.cursorAt stop = seated at *
  rcases seated with ⟨two, storeTwo⟩
  simp only at *
  have keeps := keepsOne.trans keepsTwo
  have positions : ∀ rule state entry, session.Holds rule state entry →
      storeTwo.position entry.node.start = session.store.position entry.node.start := by
    intro rule state entry holds
    rcases placed rule state entry holds with ⟨place, sits⟩
    exact keeps.position sits
  let span : Range := ⟨session.store.indexOf start, session.store.indexOf stop⟩
  let origin : Origin V.Skip :=
    ⟨one, two, span.stop - span.start, session.nextId, before, skipped⟩
  let grown : Session V := { session with
    store := storeTwo
    nextId := session.nextId + 1
    journal := .made session.nextId span :: session.journal }
  have mapsGrown : grown.Maps sameness start.buffer := by
    refine ⟨maps.names, fun rule memo member => (maps.memos rule memo member).congr ?_ ?_⟩
    · rw [revisionsTwo, revisionsOne]
    · exact fun bucket contains entry live =>
        positions rule bucket.state entry ⟨memo, member, bucket, contains, rfl, live⟩
  let added : Entry V := ⟨.node content.label content.children origin, session.generation⟩
  have isStart : grown.store.position added.node.start = start :=
    (keeps.trees.rests startRests).position_eq bufferOne (keepsTwo.places one _ placeOne)
  rcases mapsGrown.insert_spec lawful rule state isStart with ⟨maps', entries⟩
  refine ⟨maps', soundTwo, keeps, rfl, rfl, bufferOne, keepsTwo.places one _ placeOne, bufferTwo,
    placeTwo, fun other own entry => Iff.trans (entries other own entry) (or_congr_right ?_)⟩
  refine and_congr_right fun keeps => not_congr (and_congr_right fun _ => and_congr_right fun _ => ?_)
  rcases keeps.holds with ⟨state, _, holds⟩
  rw [show grown.store.position entry.node.start = session.store.position entry.node.start from
    positions other state entry holds]

/-! ## Dropping and sweeping -/

/-- Dropping entries leaves a map. -/
theorem Maps.dropWhere (maps : session.Maps sameness id) (doomed : Entry V → Bool) :
    (session.dropWhere doomed).2.Maps sameness id := by
  constructor
  · simp only [Session.dropWhere, List.map_map, Function.comp_def]
    exact maps.names
  · intro rule memo member
    simp only [Session.dropWhere] at member
    rcases List.mem_map.mp member with ⟨⟨rule, before⟩, old, same⟩
    cases same
    exact (maps.memos rule before old).dropWhere

theorem keeps_dropWhere (session : Session V) (sameness : Sameness V) (doomed : Entry V → Bool)
    (rule : V.Rule) (state : V.State) (entry : Entry V) :
    (session.dropWhere doomed).2.Keeps sameness rule state entry ↔
      session.Keeps sameness rule state entry ∧ doomed entry = false := by
  constructor
  · rintro ⟨memo, member, keeps⟩
    simp only [Session.dropWhere] at member
    rcases List.mem_map.mp member with ⟨⟨rule, before⟩, old, same⟩
    cases same
    rcases Memo.keeps_dropWhere.mp keeps with ⟨held, spared⟩
    exact ⟨⟨before, old, held⟩, spared⟩
  · rintro ⟨⟨memo, member, keeps⟩, spared⟩
    exact ⟨memo.dropWhere doomed, List.mem_map.mpr ⟨(rule, memo), member, rfl⟩,
      Memo.keeps_dropWhere.mpr ⟨keeps, spared⟩⟩

/-- A sweep keeps what was stored or used in its generation, and what lies inside of stretches
of text that used nodes cover. -/
theorem Maps.sweep_spec {reused : List Range} (maps : session.Maps sameness id)
    (begun : session.reused = some reused) :
    session.sweep.2.Maps sameness id ∧ session.sweep.2.store = session.store ∧
      session.sweep.2.generation = session.generation ∧
      ∀ rule state entry, session.sweep.2.Keeps sameness rule state entry ↔
        session.Keeps sameness rule state entry ∧ (entry.generation = session.generation ∨
          isCovered (covered reused) (entry.node.range session.store) = true) := by
  have ended : Maps { session with reused := none } sameness id := maps.of_eq rfl rfl
  rw [Session.sweep, begun]
  refine ⟨ended.dropWhere _, rfl, rfl, fun rule state entry => ?_⟩
  refine Iff.trans (keeps_dropWhere _ sameness _ rule state entry) (and_congr Iff.rfl ?_)
  rw [Bool.and_eq_false_iff, decide_eq_false_iff_not, not_not, Bool.not_eq_false']

/-! ## Counting -/

/-- What is kept, with the rules and states that it was kept for first. -/
def rows (session : Session V) : List (V.Rule × V.State × Entry V) :=
  session.memos.flatMap fun (rule, memo) => memo.rows.map (Prod.mk rule)

theorem length_rows (session : Session V) : session.rows.length = session.cachedNodes := by
  simp only [rows, cachedNodes, entries, List.length_flatMap, List.length_map, ← Memo.map_snd_rows]

theorem mem_rows : (rule, state, entry) ∈ session.rows ↔ session.Holds rule state entry := by
  simp only [rows, List.mem_flatMap, List.mem_map, Prod.mk.injEq, Prod.exists, Holds, ← Memo.mem_rows]
  constructor
  · rintro ⟨rule, memo, member, state, entry, inside, rfl, rfl, rfl⟩
    exact ⟨memo, member, inside⟩
  · rintro ⟨memo, member, inside⟩
    exact ⟨rule, memo, member, state, entry, inside, rfl, rfl, rfl⟩

/-- Each row is for a place of its own. -/
theorem Maps.pairwise_rows (maps : session.Maps sameness id) (lawful : sameness.Lawful) :
    session.rows.Pairwise fun one two => one.1 = two.1 → sameness.same one.2.1 two.2.1 = true →
      session.store.position one.2.2.node.start ≠ session.store.position two.2.2.node.start := by
  refine List.pairwise_flatMap.mpr ⟨?_, ?_⟩
  · rintro ⟨rule, memo⟩ member
    refine List.pairwise_map.mpr (((maps.memos rule memo member).pairwise_rows lawful).imp ?_)
    exact fun {one two} apart _ => apart
  · refine (List.pairwise_map.mp maps.names).imp fun {pair pair'} different => ?_
    intro one member two member' same
    rcases List.mem_map.mp member with ⟨row, _, rfl⟩
    rcases List.mem_map.mp member' with ⟨row', _, rfl⟩
    exact absurd same different

end Session

end Reparse
