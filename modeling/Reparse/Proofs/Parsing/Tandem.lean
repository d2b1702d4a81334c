import Reparse.Parsing.Snapshot
import Reparse.Proofs.Languages.Calculator.Discretion
import Reparse.Proofs.Parsing.Transparency
import Reparse.Proofs.Rope.Persistence

/-!
# Two parsers after the same calls

A parser that keeps nodes and one that never does begin with the same ropes, which
are not edited from then on.  Both get the same calls.  The caller may tell the first
one to drop any kept nodes at any time.  He may hand states to it that refer to nodes
it has answered, and then the second one gets such nodes of its own.

Every call is answered alike by both, as long as every body that the second one
needs is run and comes to an end.
-/

namespace Reparse

variable {V : Vocabulary} {parser : Parser V} {alike : StateRelation V}

/-- A session with kept nodes, and one without, after the same calls. -/
inductive Tandem (parser : Parser V) (alike : StateRelation V) : Session V → Session V → Prop where
  /-- Ropes are made in any way, and nothing is parsed yet. -/
  | start (commands : List Command) :
      Tandem parser alike { store := (Desk.run commands).store } { store := (Desk.run commands).store }
  /-- A snapshot is put at some position of some text. -/
  | moveTo {caching plain : Session V} (tandem : Tandem parser alike caching plain)
      (snapshot : Snapshot V) {position : Position} (has : caching.store.HasPosition position) :
      Tandem parser alike (snapshot.moveTo position caching).2 plain
  | parse {caching plain : Session V} (tandem : Tandem parser alike caching plain)
      (snapshot : Snapshot V) {place : Place}
      (live : caching.store.place? snapshot.cursor = some place) (isStale : Range → Bool)
      (rule : V.Rule) {state state' : V.State}
      (states : alike (Tree.Matches caching.store plain.store) state state') :
      Tandem parser alike (snapshot.parse parser isStale rule state caching).2
        (parser.recompute parser.config.maxDepth rule state'
          (caching.store.position snapshot.cursor) plain).2
  | exec {caching plain : Session V} (tandem : Tandem parser alike caching plain)
      (snapshot : Snapshot V) {place : Place}
      (live : caching.store.place? snapshot.cursor = some place) (isStale : Range → Bool)
      {state' : V.State}
      (states : alike (Tree.Matches caching.store plain.store) snapshot.state state') :
      Tandem parser alike (snapshot.exec parser isStale caching).2
        (parser.recompute parser.config.maxDepth snapshot.rule state'
          (caching.store.position snapshot.cursor) plain).2
  | evict {caching plain : Session V} (tandem : Tandem parser alike caching plain)
      (isStale : V.Node → Bool) : Tandem parser alike (caching.evict isStale).2 plain
  | beginSweep {caching plain : Session V} (tandem : Tandem parser alike caching plain) :
      Tandem parser alike caching.beginSweep plain
  | sweep {caching plain : Session V} (tandem : Tandem parser alike caching plain) :
      Tandem parser alike caching.sweep.2 plain
  | clearCache {caching plain : Session V} (tandem : Tandem parser alike caching plain) :
      Tandem parser alike caching.clearCache plain

namespace Session

variable {caching plain other : Session V} {start : Position}

/-- Two sessions over the same text. -/
structure Beside (caching plain : Session V) : Prop where
  seated : caching.Seated
  seated' : plain.Seated
  trees : caching.store.SameTrees plain.store

/-- Every kept node can be relied upon, and every body was run to its end. -/
structure Reliable (session : Session V) (parser : Parser V) (alike : StateRelation V) : Prop where
  faithful : session.Faithful parser alike
  whole : session.Complete

/-! ## Between the calls -/

/-- Kept nodes may be dropped. -/
theorem Beside.fewer (beside : caching.Beside plain) (store : other.store = caching.store)
    (fewer : ∀ rule state entry, other.Holds rule state entry → caching.Holds rule state entry) :
    other.Beside plain :=
  ⟨beside.seated.fewer store fun _ _ entry holds => ⟨entry, fewer _ _ entry holds, rfl⟩,
    beside.seated', store ▸ beside.trees⟩

theorem Reliable.fewer (reliable : caching.Reliable parser alike) (store : other.store = caching.store)
    (refused : other.refused = caching.refused) (endless : other.endless = caching.endless)
    (fewer : ∀ rule state entry, other.Holds rule state entry → caching.Holds rule state entry) :
    other.Reliable parser alike :=
  ⟨reliable.faithful.fewer (store ▸ Store.Keeps.refl _) fun _ _ entry holds =>
    ⟨entry, fewer _ _ entry holds, rfl⟩, endless.trans reliable.whole.ends,
    refused.trans reliable.whole.ran⟩

/-- Cursors may be added. -/
theorem Beside.withStore (beside : caching.Beside plain) {store : Store} (sound : store.Sound)
    (keeps : caching.store.Keeps store) : { caching with store }.Beside plain :=
  ⟨beside.seated.withStore sound keeps, beside.seated', keeps.trees.symm.trans beside.trees⟩

theorem Reliable.withStore (reliable : caching.Reliable parser alike) {store : Store}
    (keeps : caching.store.Keeps store) : { caching with store }.Reliable parser alike :=
  ⟨reliable.faithful.fewer keeps fun _ _ entry holds => ⟨entry, holds, rfl⟩,
    reliable.whole.ends, reliable.whole.ran⟩

/-! ## A call -/

/-- A call leads both sessions on, whatever it is answered. -/
theorem Beside.call (beside : caching.Beside plain) (parser : Parser V)
    (starts : caching.store.Rests start) (isStale : Range → Bool) (rule : V.Rule) (state state' : V.State) :
    let reply := parser.parse isStale rule state start caching
    let fresh := parser.recompute parser.config.maxDepth rule state' start plain
    reply.2.Beside fresh.2 ∧ caching.Leads reply.2 ∧ plain.Leads fresh.2 ∧
      reply.2.store.Rests reply.1.2 := by
  rcases parser.invoke_steady isStale parser.config.maxDepth rule state start caching beside.seated
    starts with ⟨seated, leads, _, stops⟩
  rcases parser.recompute_steady parser.config.maxDepth rule state' start plain beside.seated'
    (beside.trees.rests starts) with ⟨seated', leads', _, _⟩
  exact ⟨⟨seated, seated', leads.keeps.trees.symm.trans (beside.trees.trans leads'.keeps.trees)⟩,
    leads, leads', stops⟩

/-- If the second session is complete afterwards, then the call is answered alike. -/
theorem Reliable.call (reliable : caching.Reliable parser alike)
    (discreet : parser.grammar.Discreet alike) (beside : caching.Beside plain)
    (starts : caching.store.Rests start) (isStale : Range → Bool) (rule : V.Rule)
    {state state' : V.State}
    (states : alike (Tree.Matches caching.store plain.store) state state') :
    let reply := parser.parse isStale rule state start caching
    let fresh := parser.recompute parser.config.maxDepth rule state' start plain
    fresh.2.Complete →
      reply.2.Reliable parser alike ∧ reply.1.1.Matches reply.2.store fresh.2.store fresh.1.1 ∧
        reply.1.2 = fresh.1.2 := by
  intro reply fresh complete
  rcases beside.call parser starts isStale rule state state' with ⟨_, leads, leads', _⟩
  rcases parser.invoke_transparent discreet isStale parser.config.maxDepth with
    ⟨keeps, transparent⟩
  have later : alike (Tree.Matches reply.2.store fresh.2.store) state state' :=
    discreet.mono (fun _ _ nodes => nodes.mono leads.keeps leads'.keeps) states
  rcases transparent parser.config.maxDepth rule state start caching beside.seated starts
    reliable.faithful reliable.whole state' plain beside.seated' beside.trees reply.2.store
    fresh.2.store (Store.Keeps.refl _) (Store.Keeps.refl _)
    (fun deeper => absurd deeper (Nat.lt_irrefl _)) complete later with ⟨nodes, stop, whole⟩
  exact ⟨⟨keeps rule state start caching beside.seated starts reliable.faithful whole, whole⟩, nodes,
    stop⟩

end Session

/-! ## All calls -/

namespace Tandem

variable {caching plain : Session V}

theorem beside (tandem : Tandem parser alike caching plain) : caching.Beside plain := by
  induction tandem with
  | start commands =>
      have seated : ({ store := (Desk.run commands).store } : Session V).Seated :=
        ⟨(Desk.run_agrees commands).sound, fun _ _ _ ⟨_, member, _⟩ => absurd member List.not_mem_nil⟩
      exact ⟨seated, seated, Store.SameTrees.refl _⟩
  | moveTo tandem snapshot has inductionHypothesis =>
      rcases inductionHypothesis.seated.sound.cursorAt_keeps has with ⟨sound, keeps, _, _⟩
      exact inductionHypothesis.withStore sound keeps
  | parse tandem snapshot live isStale rule states inductionHypothesis =>
      have starts := inductionHypothesis.seated.sound.rests_position live
      rcases inductionHypothesis.call parser starts isStale rule _ _ with
        ⟨beside, _, _, stops⟩
      rcases beside.seated.sound.cursorAt_keeps stops.has with ⟨sound, keeps, _, _⟩
      exact beside.withStore sound keeps
  | exec tandem snapshot live isStale states inductionHypothesis =>
      have starts := inductionHypothesis.seated.sound.rests_position live
      exact (inductionHypothesis.call parser starts isStale snapshot.rule _ _).1
  | evict tandem isStale inductionHypothesis =>
      exact inductionHypothesis.fewer rfl fun _ _ _ holds => (Session.of_holds_dropWhere holds).1
  | beginSweep tandem inductionHypothesis =>
      exact inductionHypothesis.fewer rfl fun _ _ _ holds => holds
  | @sweep caching plain tandem inductionHypothesis =>
      rcases caching.sweep_eq with ⟨memos, reused, swept⟩
      exact inductionHypothesis.fewer (by rw [swept]) fun _ _ _ => Session.of_holds_sweep
  | clearCache tandem inductionHypothesis =>
      exact inductionHypothesis.fewer rfl fun _ _ _ ⟨_, member, _⟩ => absurd member List.not_mem_nil

/-- If the second session is complete, it was so before each call. -/
theorem reliable (tandem : Tandem parser alike caching plain) (discreet : parser.grammar.Discreet alike)
    (complete : plain.Complete) : caching.Reliable parser alike := by
  induction tandem with
  | start commands =>
      exact ⟨fun _ _ _ ⟨_, member, _⟩ => absurd member List.not_mem_nil, rfl, rfl⟩
  | moveTo tandem snapshot has inductionHypothesis =>
      rcases tandem.beside.seated.sound.cursorAt_keeps has with ⟨_, keeps, _, _⟩
      exact (inductionHypothesis complete).withStore keeps
  | parse tandem snapshot live isStale rule states inductionHypothesis =>
      have beside := tandem.beside
      have starts := beside.seated.sound.rests_position live
      rcases beside.call parser starts isStale rule _ _ with ⟨later, _, leads, stops⟩
      rcases (inductionHypothesis (leads.complete complete)).call discreet beside starts isStale rule
        states complete with ⟨reliable, _, _⟩
      rcases later.seated.sound.cursorAt_keeps stops.has with ⟨_, keeps, _, _⟩
      exact reliable.withStore keeps
  | exec tandem snapshot live isStale states inductionHypothesis =>
      have beside := tandem.beside
      have starts := beside.seated.sound.rests_position live
      rcases beside.call parser starts isStale snapshot.rule snapshot.state _ with
        ⟨_, _, leads, _⟩
      exact ((inductionHypothesis (leads.complete complete)).call discreet beside starts isStale
        snapshot.rule states complete).1
  | evict tandem isStale inductionHypothesis =>
      exact (inductionHypothesis complete).fewer rfl rfl rfl fun _ _ _ holds =>
        (Session.of_holds_dropWhere holds).1
  | beginSweep tandem inductionHypothesis =>
      exact (inductionHypothesis complete).fewer rfl rfl rfl fun _ _ _ holds => holds
  | @sweep caching plain tandem inductionHypothesis =>
      rcases caching.sweep_eq with ⟨memos, reused, swept⟩
      exact (inductionHypothesis complete).fewer (by rw [swept]) (by rw [swept])
        (by rw [swept]) fun _ _ _ => Session.of_holds_sweep
  | clearCache tandem inductionHypothesis =>
      exact (inductionHypothesis complete).fewer rfl rfl rfl fun _ _ _ ⟨_, member, _⟩ =>
        absurd member List.not_mem_nil

/-- Whatever was called before, a parse from any snapshot comes to an end if recomputing does.
It answers the node that recomputing answers, and ends at the same position.  So does running the
rule of a snapshot. -/
theorem answers_match (tandem : Tandem parser alike caching plain)
    (discreet : parser.grammar.Discreet alike) (snapshot : Snapshot V) {place : Place}
    (live : caching.store.place? snapshot.cursor = some place) (isStale : Range → Bool)
    (rule : V.Rule) {state state' : V.State}
    (states : alike (Tree.Matches caching.store plain.store) state state') :
    let fresh := parser.recompute parser.config.maxDepth rule state'
      (caching.store.position snapshot.cursor) plain
    let parsed := snapshot.parse parser isStale rule state caching
    let executed := ({ snapshot with rule, state } : Snapshot V).exec parser isStale caching
    fresh.2.Complete →
      (parsed.2.Complete ∧ parsed.1.1.Matches parsed.2.store fresh.2.store fresh.1.1 ∧
        parsed.1.1.range parsed.2.store = fresh.1.1.range fresh.2.store ∧
        parsed.2.store.position parsed.1.2.cursor = fresh.1.2) ∧
      executed.2.Complete ∧ executed.1.Matches executed.2.store fresh.2.store fresh.1.1 ∧
        executed.1.range executed.2.store = fresh.1.1.range fresh.2.store := by
  intro fresh parsed executed complete
  have beside := tandem.beside
  have starts := beside.seated.sound.rests_position live
  rcases beside.call parser starts isStale rule state state' with ⟨later, _, leads, stops⟩
  rcases (tandem.reliable discreet (leads.complete complete)).call discreet beside starts isStale rule
    states complete with ⟨reliable, nodes, stop⟩
  rcases later.seated.sound.cursorAt_keeps stops.has with ⟨_, keeps, inBuffer, sits⟩
  have moved := nodes.mono keeps (Store.Keeps.refl fresh.2.store)
  exact ⟨⟨⟨reliable.whole.ends, reliable.whole.ran⟩, moved,
    moved.range (keeps.trees.symm.trans later.trees),
    ((keeps.trees.rests stops).position_eq inBuffer sits).trans stop⟩, reliable.whole, nodes,
    nodes.range later.trees⟩

/-- A sum is parsed, and then its first number again.  The parser that keeps nodes has it, and has
the operation behind this very node.  The other parser makes both again, and the state that it is
handed refers to a node of its own. -/
theorem answers_match_sum :
    let parser : Parser Calculator.vocabulary := ⟨Calculator.grammar, { maxDepth := 8 }⟩
    let depth := parser.config.maxDepth
    let plain : Session Calculator.vocabulary := { store := (Desk.run [.newRope "1+2"]).store }
    let unplaced : Snapshot Calculator.vocabulary := ⟨⟨0, 0⟩, .expression, .operand 0⟩
    let placed := unplaced.moveTo ⟨0, ⟨0, 0⟩⟩ plain
    let sum := (placed.1.parse parser (fun _ => false) .expression (.operand 0) placed.2).2
    let plainSum := (parser.recompute depth .expression (.operand 0)
      (placed.2.store.position placed.1.cursor) plain).2
    let number := placed.1.parse parser (fun _ => false) .atom (.operand 0) sum
    let plainNumber := parser.recompute depth .atom (.operand 0)
      (sum.store.position placed.1.cursor) plainSum
    let behind := number.1.2.parse parser (fun _ => false) .operation (.operation 0 number.1.1)
      number.2
    let fresh := parser.recompute depth .operation (.operation 0 plainNumber.1.1)
      (number.2.store.position number.1.2.cursor) plainNumber.2
    behind.2.stats.hits = 2 ∧ behind.2.stats.misses = sum.stats.misses ∧
      number.1.1.id ≠ plainNumber.1.1.id ∧
      behind.1.1.Matches behind.2.store fresh.2.store fresh.1.1 := by
  intro parser depth plain unplaced placed sum plainSum number plainNumber behind fresh
  have has : plain.store.HasPosition ⟨0, ⟨0, 0⟩⟩ := ⟨"1+2".toList.toArray, by rfl, by decide⟩
  have began : Tandem parser Calculator.SlotsAlike placed.2 plain :=
    (start [.newRope "1+2"]).moveTo unplaced has
  have parsed : Tandem parser Calculator.SlotsAlike sum plainSum :=
    began.parse placed.1 (show _ = some ⟨0, 0⟩ by decide +kernel) (fun _ => false) .expression
      (.operand 0)
  have live : sum.store.place? placed.1.cursor = some ⟨0, 0⟩ := by decide +kernel
  have again : Tandem parser Calculator.SlotsAlike number.2 plainNumber.2 :=
    parsed.parse placed.1 live (fun _ => false) .atom (.operand 0)
  have liveBehind : number.2.store.place? number.1.2.cursor = some ⟨0, 1⟩ := by decide +kernel
  have complete : plainNumber.2.Complete := ⟨by decide +kernel, by decide +kernel⟩
  have completeBehind : fresh.2.Complete := ⟨by decide +kernel, by decide +kernel⟩
  refine ⟨by decide +kernel, by decide +kernel, by decide +kernel, ?_⟩
  -- No session is evaluated here, since both sides name the same calls.
  with_reducible refine (again.answers_match Calculator.discreet number.1.2 liveBehind
    (fun _ => false) .operation (.operation 0 ?_) completeBehind).1.2.1
  with_reducible exact (parsed.answers_match Calculator.discreet placed.1 live (fun _ => false)
    .atom (.operand 0) complete).1.2.1

end Tandem

end Reparse
