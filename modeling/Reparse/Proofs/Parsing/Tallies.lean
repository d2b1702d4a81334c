import Reparse.Languages.Words
import Reparse.Proofs.Parsing.History

namespace Reparse

/-!
# What the counters count

An invocation is answered with a kept node, or it is not.  Here the invocations of both kinds
are counted beside the parser, as the bodies ask for them, and without a look at the parser's
own counters.

The hits are the invocations that were answered.  The executions are the others, and besides
them the nodes that were evicted since the counters were last reset.  An evicted node counts
as an invalidation, though no invocation has met it.  Its place is counted once more when an
invocation comes there and misses it.

A node is made for each invocation that was not answered.  So the numbers of nodes keep the
same count, and that one is not changed by an eviction.
-/

variable {V : Vocabulary}

/-- How many invocations were answered with a kept node, and how many were not. -/
structure Tally where
  answered : Nat := 0
  unanswered : Nat := 0
deriving DecidableEq, Repr

namespace Tally

instance : Add Tally :=
  ⟨fun one two => ⟨one.answered + two.answered, one.unanswered + two.unanswered⟩⟩

variable (one two : Tally)

@[simp] theorem answered_add : (one + two).answered = one.answered + two.answered := rfl

@[simp] theorem unanswered_add : (one + two).unanswered = one.unanswered + two.unanswered := rfl

end Tally

/-! ## Counting beside a parser -/

/-- The tally of an invocation, with those that its body asks for. -/
abbrev Count (V : Vocabulary) := V.Rule → V.State → Position → Session V → Tally

/-- The tally of an action. -/
def Action.tally {α : Type} (count : Count V) (id : BufferId) (frame : Frame V) :
    Action V α → Tally
  | .parse rule state => count rule state ⟨id, frame.place⟩ frame.session
  | _ => {}

namespace Frame

variable {α : Type}

/-- Do what a body asks for, and add up the tallies. -/
def handleTallied (id : BufferId) (descend : Descent V) (count : Count V) (action : Action V α) :
    Frame V × Tally → α × (Frame V × Tally)
  | (frame, tally) =>
    let (answer, after) := frame.handle id descend action
    (answer, after, tally + action.tally count id frame)

/-- The tally of a body. -/
def tally (frame : Frame V) (id : BufferId) (descend : Descent V) (count : Count V)
    (body : Body V α) : Tally :=
  (Program.run (handleTallied id descend count) (fun state => rounds id state.1) body.run
    (frame, {})).2.2

end Frame

namespace Parser

/-- The tally of a rule that may invoke others, or is refused. -/
def countRule (parser : Parser V) (descend : Option (Descent V × Count V)) (rule : V.Rule)
    (state : V.State) (buffer : BufferId) (frame : Frame V) : Tally :=
  match descend with
  | none => {}
  | some (descend, count) => frame.tally buffer descend count (parser.grammar.body rule state)

/-- The tally of an invocation that no kept node answers. -/
def countExecution (parser : Parser V) (descend : Option (Descent V × Count V)) : Count V :=
  fun rule state start session =>
    let (_, place) :=
      Token.skipFrom parser.grammar.skips (session.store.buffer start.buffer) start.place
    { unanswered := 1 } + parser.countRule descend rule state start.buffer { session, place }

/-- The tally of an invocation. -/
def countVisit (parser : Parser V) (isStale : Range → Bool)
    (descend : Option (Descent V × Count V)) : Count V :=
  fun rule state start session =>
    match session.reuse rule (parser.grammar.stateKey state) start isStale with
    | (some _, _) => { answered := 1 }
    | (none, session) => parser.countExecution descend rule state start session

/-- The tally of an invocation when a given number of bodies may still nest. -/
def count (parser : Parser V) (isStale : Range → Bool) : Nat → Count V
  | 0 => parser.countVisit isStale none
  | depth + 1 =>
    parser.countVisit isStale (some (parser.invoke isStale depth, parser.count isStale depth))

end Parser

/-! ## What the counters of a session tell -/

namespace Session

/-- The counters, and the numbers given to nodes, have grown by a tally. -/
structure Grows (session after : Session V) (tally : Tally) : Prop where
  hits : after.stats.hits = session.stats.hits + tally.answered
  executions : after.stats.executions = session.stats.executions + tally.unanswered
  made : after.nextId = session.nextId + tally.unanswered

variable {session after : Session V}

theorem grows_self (session : Session V) : session.Grows session {} := ⟨rfl, rfl, rfl⟩

theorem Grows.trans {last : Session V} {one two : Tally} (first : session.Grows after one)
    (second : after.Grows last two) : session.Grows last (one + two) where
  hits := by rw [second.hits, first.hits, Tally.answered_add, Nat.add_assoc]
  executions := by rw [second.executions, first.executions, Tally.unanswered_add, Nat.add_assoc]
  made := by rw [second.made, first.made, Tally.unanswered_add, Nat.add_assoc]

/-- Looking for a kept node counts as a hit if there is an answer, and as an execution if there is
none, be it that a node is missing or that one is stale. -/
theorem reuse_counts (session : Session V) (rule : V.Rule) (key : StateKey V) (start : Position)
    (isStale : Range → Bool) :
    let outcome := session.reuse rule key start isStale
    outcome.2.nextId = session.nextId ∧
      outcome.2.stats.hits = session.stats.hits + (if outcome.1.isSome then 1 else 0) ∧
      outcome.2.stats.executions =
        session.stats.executions + (if outcome.1.isSome then 0 else 1) := by
  have search : ∃ memos, (session.onMemo rule
      (·.find key session.store start session.generation)).2 = { session with memos } :=
    ⟨_, rfl⟩
  have missed : ({ session.stats with misses := session.stats.misses + 1 } : Stats).executions =
      session.stats.executions + 1 := Nat.add_right_comm ..
  simp only [reuse]
  generalize session.onMemo rule (·.find key session.store start session.generation) = found
    at search ⊢
  rcases found with ⟨_ | node, searched⟩
  · rcases search with ⟨memos, rfl⟩
    exact ⟨rfl, rfl, missed⟩
  · rcases search with ⟨memos, rfl⟩
    have asked : ∃ consulted, (if session.store.sameDocument start
          (session.store.position node.stop) = true then
        { session with memos, consulted := session.consulted + 1 }
      else { session with memos }) = { session with memos, consulted } := by
      split <;> exact ⟨_, rfl⟩
    rcases asked with ⟨consulted, asked⟩
    simp only [asked]
    split <;> exact ⟨rfl, rfl, rfl⟩

/-- Keeping a node gives it the next number, and counts nothing. -/
theorem keep_counts (session : Session V) (rule : V.Rule) (key : StateKey V) (start stop : Position)
    (content : Content V.Label V.Skip) (before after : List V.Skip) :
    let made := session.keep rule key start stop content before after
    made.2.nextId = session.nextId + 1 ∧ made.2.stats = session.stats :=
  ⟨rfl, rfl⟩

end Session

/-! ## What an invocation counts -/

/-- An invocation is counted by its tally. -/
def Descent.CountedBy (descend : Descent V) (count : Count V) : Prop :=
  ∀ rule state start (session : Session V),
    session.Grows (descend rule state start session).2 (count rule state start session)

namespace Frame

variable {α : Type} {id : BufferId} {descend : Descent V} {count : Count V}

/-- An action is counted by its tally. -/
theorem handle_counts (counted : descend.CountedBy count) (action : Action V α) (frame : Frame V) :
    frame.session.Grows (frame.handle id descend action).2.session
      (action.tally count id frame) := by
  have settled : ∀ {β : Type} (lexed : Except LexError (β × Place)),
      frame.session.Grows (frame.settleLexed lexed).2.session {} := by
    rintro β (error | ⟨value, place⟩)
    · exact frame.session.grows_self
    · exact frame.session.grows_self
  cases action with
  | lex token => exact settled _
  | lexFirst tokens message => exact settled _
  | parse rule state => exact counted rule state ⟨id, frame.place⟩ frame.session
  | isNext token => exact frame.session.grows_self
  | adoptSkips node => exact frame.session.grows_self
  | mark => exact frame.session.grows_self
  | restore mark => exact frame.session.grows_self
  | place => exact frame.session.grows_self
  | position => exact frame.session.grows_self
  | atEnd => exact frame.session.grows_self

/-- Adding up tallies does not change what a body does. -/
theorem run_tallied (id : BufferId) (descend : Descent V) (count : Count V) (body : Body V α)
    (frame : Frame V) (tally : Tally) :
    (Program.run (handleTallied id descend count) (fun state => rounds id state.1) body.run
      (frame, tally)).2.1 = (frame.run id descend body).2 := by
  refine (Program.run_simulates (fun (state : Frame V × Tally) frame => state.1 = frame) ?_ ?_
    body.run (frame, tally) frame (rfl)).2
  · rintro state _ rfl
    exact rfl
  · rintro β action state _ rfl
    exact ⟨rfl, rfl⟩

/-- A body is counted by its tally. -/
theorem run_counts (counted : descend.CountedBy count) (id : BufferId) (body : Body V α)
    (frame : Frame V) :
    frame.session.Grows (frame.run id descend body).2.session
      (frame.tally id descend count body) := by
  rw [← run_tallied id descend count body frame {}]
  exact Program.run_preserves
    (fun state : Frame V × Tally => frame.session.Grows state.1.session state.2)
    (fun action state grown => grown.trans (handle_counts counted action state.1)) body.run
    (frame, {}) frame.session.grows_self

end Frame

namespace Parser

variable {descend : Option (Descent V × Count V)}

theorem runRule_counts (parser : Parser V) (counted : ∀ further count,
      descend = some (further, count) → Descent.CountedBy further count) (rule : V.Rule)
    (state : V.State) (id : BufferId) (frame : Frame V) :
    frame.session.Grows (parser.runRule (descend.map Prod.fst) rule state id frame).2.session
      (parser.countRule descend rule state id frame) := by
  rcases descend with _ | ⟨further, count⟩
  · exact frame.session.grows_self
  · have ran := Frame.run_counts (counted further count rfl) id
      (parser.grammar.body rule state) frame
    simp only [Option.map_some, runRule, countRule]
    generalize frame.run id further (parser.grammar.body rule state) = outcome at ran ⊢
    rcases outcome with ⟨stop | content, reached⟩
    · -- That a body goes on for ever is noted in the session, and nothing is counted for it.
      have noted : (reached.noteStop stop).session.stats = reached.session.stats ∧
          (reached.noteStop stop).session.nextId = reached.session.nextId := by
        rw [Frame.noteStop]
        split <;> exact ⟨rfl, rfl⟩
      exact ⟨noted.1 ▸ ran.hits, noted.1 ▸ ran.executions, noted.2 ▸ ran.made⟩
    · exact ran

/-- Where no kept node is the answer, one is made. -/
theorem execute_counts (parser : Parser V) (counted : ∀ further count,
      descend = some (further, count) → Descent.CountedBy further count) (rule : V.Rule)
    (state : V.State) (start : Position) {session searched : Session V}
    (nextId : searched.nextId = session.nextId) (hits : searched.stats.hits = session.stats.hits)
    (executions : searched.stats.executions = session.stats.executions + 1) :
    session.Grows (parser.execute (descend.map Prod.fst) rule state start searched).2
      (parser.countExecution descend rule state start searched) := by
  simp only [execute, countExecution]
  generalize Token.skipFrom parser.grammar.skips _ start.place = skipped
  have ran := parser.runRule_counts counted rule state start.buffer
    { session := searched, place := skipped.2 }
  generalize parser.runRule _ rule state start.buffer _ = outcome at ran ⊢
  rcases outcome with ⟨content, ⟨reached, place, before, after, _⟩⟩
  simp only at ran ⊢
  generalize Token.skipFrom parser.grammar.skips _ place = trailing
  have kept := reached.keep_counts rule (parser.grammar.stateKey state) start
    ⟨start.buffer, trailing.2⟩ content (skipped.1 ++ before) (after ++ trailing.1)
  generalize reached.keep rule _ start _ content _ _ = made at kept ⊢
  rcases kept with ⟨next, stats⟩
  constructor
  · rw [stats, ran.hits, hits, Tally.answered_add, Nat.zero_add]
  · rw [stats, ran.executions, executions, Tally.unanswered_add, Nat.add_assoc]
  · rw [next, ran.made, nextId, Tally.unanswered_add, Nat.add_assoc, Nat.add_comm 1]

theorem visit_counts (parser : Parser V) (isStale : Range → Bool)
    (descend : Option (Descent V × Count V)) (counted : ∀ further count,
      descend = some (further, count) → Descent.CountedBy further count) :
    Descent.CountedBy (parser.visit isStale (descend.map Prod.fst))
      (parser.countVisit isStale descend) := by
  intro rule state start session
  have looked := session.reuse_counts rule (parser.grammar.stateKey state) start isStale
  simp only [visit, countVisit]
  generalize session.reuse rule (parser.grammar.stateKey state) start isStale = outcome at looked ⊢
  rcases outcome with ⟨_ | found, searched⟩
  · exact parser.execute_counts counted rule state start looked.1 looked.2.1 looked.2.2
  · exact ⟨looked.2.1, looked.2.2, looked.1⟩

/-- Every invocation is counted by its tally. -/
theorem invoke_counts (parser : Parser V) (isStale : Range → Bool) (depth : Nat) :
    Descent.CountedBy (parser.invoke isStale depth) (parser.count isStale depth) := by
  induction depth with
  | zero => exact parser.visit_counts isStale none fun _ _ impossible => by cases impossible
  | succ depth inductionHypothesis =>
      refine parser.visit_counts isStale
        (some (parser.invoke isStale depth, parser.count isStale depth)) ?_
      rintro further count same
      cases same
      exact inductionHypothesis

end Parser

/-! ## Since the counters were last reset -/

namespace Document

/-- The tally of the next parse. -/
def tally (document : Document V) (parser : Parser V) : Tally :=
  let margin := parser.config.editMargin
  let session := (document.evictEdited margin).beginSweep
  parser.count (document.isEdited margin) parser.config.maxDepth parser.grammar.startRule
    parser.grammar.startState (session.store.positionAt document.rope 0) session

/-- How many nodes the next parse evicts before it begins. -/
def evictions (document : Document V) (margin : Nat) : Nat :=
  document.session.cachedNodes - (document.evictEdited margin).cachedNodes

end Document

/-- What has been counted since the counters were last reset, and the number that the next node
had then. -/
structure Census (V : Vocabulary) where
  document : Document V
  tally : Tally := {}
  evicted : Nat := 0
  firstId : Nat := 0

namespace Census

/-- What may be asked of a parser, by itself and through a document.  The texts and cursors that
it works on may be changed in any way. -/
inductive Command (V : Vocabulary) where
  | document (command : Document.Command)
  | invoke (isStale : Range → Bool) (rule : V.Rule) (state : V.State) (start : Position)
  | edit (change : Store → Store)
  | evict (isStale : V.Node → Bool)
  | beginSweep
  | sweep
  | clearCache
  | resetStats

def start (text : String) : Census V := { document := .ofString text }

/-- The census after a change of the session that counts nothing. -/
def withSession (census : Census V) (session : Session V) : Census V :=
  { census with document := { census.document with session } }

def step (parser : Parser V) (census : Census V) : Command V → Census V
  | .document (.replace start stop text) =>
    { census with document := (census.document.replace parser.grammar start stop text).2 }
  | .document .parse =>
    { census with
      document := (census.document.parse parser).2
      tally := census.tally + census.document.tally parser
      evicted := census.evicted + census.document.evictions parser.config.editMargin }
  | .document .compact => { census with document := census.document.compact }
  | .invoke isStale rule state start =>
    let session := census.document.session
    let (_, invoked) := parser.parse isStale rule state start session
    { census.withSession invoked with
      tally := census.tally + parser.count isStale parser.config.maxDepth rule state start session }
  | .edit change =>
    let session := census.document.session
    census.withSession { session with store := change session.store }
  | .evict isStale =>
    let (evicted, session) := census.document.session.evict isStale
    { census.withSession session with evicted := census.evicted + evicted }
  | .beginSweep => census.withSession census.document.session.beginSweep
  | .sweep => census.withSession census.document.session.sweep.2
  | .clearCache => census.withSession census.document.session.clearCache
  | .resetStats =>
    let session := census.document.session.resetStats
    ⟨{ census.document with session }, {}, 0, session.nextId⟩

def run (parser : Parser V) (census : Census V) (commands : List (Command V)) : Census V :=
  commands.foldl (step parser) census

/-- The counters, and the numbers given to nodes, are those of the census. -/
structure Balances (census : Census V) : Prop where
  hits : census.document.session.stats.hits = census.tally.answered
  executions : census.document.session.stats.executions = census.tally.unanswered + census.evicted
  made : census.document.session.nextId = census.firstId + census.tally.unanswered

variable {census : Census V}

/-- Only the counters and the next number of a session count. -/
theorem Balances.congr {other : Census V} (balances : census.Balances)
    (tally : other.tally = census.tally) (evicted : other.evicted = census.evicted)
    (firstId : other.firstId = census.firstId)
    (stats : other.document.session.stats = census.document.session.stats)
    (nextId : other.document.session.nextId = census.document.session.nextId) : other.Balances where
  hits := by rw [stats, tally, balances.hits]
  executions := by rw [stats, tally, evicted, balances.executions]
  made := by rw [nextId, firstId, tally, balances.made]

/-- An invocation adds its tally. -/
theorem Balances.grow {session : Session V} {tally : Tally} (balances : census.Balances)
    (grows : census.document.session.Grows session tally) :
    Balances { census.withSession session with tally := census.tally + tally } where
  hits := by rw [withSession, grows.hits, balances.hits, Tally.answered_add]
  executions := by
    rw [withSession, grows.executions, balances.executions, Tally.unanswered_add,
      Nat.add_right_comm]
  made := by rw [withSession, grows.made, balances.made, Tally.unanswered_add, Nat.add_assoc]

/-- Each node that is evicted counts as an execution. -/
theorem Balances.evict (balances : census.Balances) (isStale : V.Node → Bool) :
    Balances { census.withSession (census.document.session.evict isStale).2 with
      evicted := census.evicted + (census.document.session.evict isStale).1 } := by
  refine ⟨balances.hits, ?_, balances.made⟩
  have executions := balances.executions
  have counted : (census.document.session.evict isStale).2.stats.executions =
      census.document.session.stats.executions + (census.document.session.evict isStale).1 :=
    (Nat.add_assoc ..).symm
  rw [withSession, counted, executions, Nat.add_assoc]

theorem Balances.parse (balances : census.Balances) (parser : Parser V) :
    (census.step parser (.document .parse)).Balances := by
  let margin := parser.config.editMargin
  let begun := (census.document.evictEdited margin).beginSweep
  have evicted : Balances { census.withSession (census.document.evictEdited margin) with
      evicted := census.evicted + census.document.evictions margin } := by
    rw [Document.evictions, Document.evictEdited]
    split
    · rw [Nat.sub_self]
      exact balances
    · exact balances.evict _
  have begins : Balances { census.withSession begun with
      evicted := census.evicted + census.document.evictions margin } :=
    evicted.congr rfl rfl rfl rfl rfl
  have grown := begins.grow (parser.invoke_counts (census.document.isEdited margin)
    parser.config.maxDepth parser.grammar.startRule parser.grammar.startState
    (begun.store.positionAt census.document.rope 0) begun)
  refine grown.congr rfl rfl rfl ?_ ?_
  all_goals
    simp only [step, Document.parse, Parser.parse, withSession]
    generalize parser.invoke _ _ _ _ _ _ = reply
    rcases reply.2.sweep_eq with ⟨memos, reused, swept⟩
    rw [swept]

theorem Balances.step (balances : census.Balances) (parser : Parser V) (command : Command V) :
    (census.step parser command).Balances := by
  cases command with
  | document command =>
      cases command with
      | parse => exact balances.parse parser
      | replace first last text =>
          rcases census.document.replace_session parser.grammar first last text with ⟨store, same⟩
          refine balances.congr rfl rfl rfl ?_ ?_
          all_goals rw [Census.step, same]
      | compact => exact balances.congr rfl rfl rfl rfl rfl
  | invoke isStale rule state start =>
      exact balances.grow (parser.invoke_counts isStale parser.config.maxDepth rule state start _)
  | edit change => exact balances.congr rfl rfl rfl rfl rfl
  | evict isStale => exact balances.evict isStale
  | beginSweep => exact balances.congr rfl rfl rfl rfl rfl
  | sweep =>
      rcases census.document.session.sweep_eq with ⟨memos, reused, swept⟩
      refine balances.congr rfl rfl rfl ?_ ?_
      all_goals rw [Census.step, withSession, swept]
  | clearCache => exact balances.congr rfl rfl rfl rfl rfl
  | resetStats => exact ⟨rfl, rfl, rfl⟩

theorem Balances.run (balances : census.Balances) (parser : Parser V)
    (commands : List (Command V)) : (census.run parser commands).Balances := by
  induction commands generalizing census with
  | nil => exact balances
  | cons command commands inductionHypothesis =>
      exact inductionHypothesis (balances.step parser command)

/-- After any commands, the hits are the invocations answered since the counters were last reset.
The executions are the invocations not answered and the nodes evicted, so they are the invocations
not answered exactly if nothing was evicted.  Each invocation that is not answered makes a node. -/
theorem counters_tell_tallies (parser : Parser V) (text : String) (commands : List (Command V)) :
    let census := (start text).run parser commands
    let session := census.document.session
    session.stats.hits = census.tally.answered ∧
      session.stats.executions = census.tally.unanswered + census.evicted ∧
      (session.stats.executions = census.tally.unanswered ↔ census.evicted = 0) ∧
      session.nextId = census.firstId + census.tally.unanswered := by
  have begins : (start text : Census V).Balances := ⟨rfl, rfl, rfl⟩
  have balances := begins.run parser commands
  refine ⟨balances.hits, balances.executions, ?_, balances.made⟩
  rw [balances.executions, Nat.add_eq_left]

/-- Two nodes are evicted after the edit, and the second parse runs two bodies.  It is said to have
run four. -/
example :
    let parser : Parser Words.vocabulary := { grammar := Words.grammar }
    let census := (start "a b").run parser
      [.document .parse, .resetStats, .document (.replace 0 0 "x"), .document .parse]
    census.tally = ⟨1, 2⟩ ∧ census.evicted = 2 ∧
      census.document.session.stats.executions = 4 := by
  decide +kernel

end Census

end Reparse
