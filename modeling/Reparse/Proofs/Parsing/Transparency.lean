import Reparse.Proofs.Parsing.Bodies
import Reparse.Proofs.Parsing.Matching
import Reparse.Proofs.Parsing.Steady

/-!
# Keeping nodes makes no difference

A parser that keeps nodes is set beside one that never looks for a kept node.  Each
kept node can be relied upon: recomputing would reproduce it.  That is not to be had
for a fixed store, since more cursors come to exist as the parse goes on.  So it is
said of any stores in which the cursors of today are where they are today.

A node that is made in the middle of a run is compared in the stores at the end of
both runs.  A run that does not lead up to these stores is lost, and so is a run
without kept nodes that comes upon a refused or endless body.
-/

namespace Reparse

variable {V : Vocabulary}

/-! ## Kept nodes that can be relied upon -/

/-- A relation between states that may refer to related nodes. -/
abbrev StateRelation (V : Vocabulary) := (V.Node → V.Node → Prop) → V.State → V.State → Prop

variable {parser : Parser V} {alike : StateRelation V}

/-- Whenever the invocation that a node was kept for is recomputed, to the end and at any depth,
the node is what comes out, and what follows begins where it ends. -/
def Parser.Reproduces (parser : Parser V) (alike : StateRelation V) (store : Store) (rule : V.Rule)
    (state : V.State) (node : V.Node) : Prop :=
  ∀ (depth : Nat) (plain : Session V) (state' : V.State) (one other : Store), store.Keeps one →
    one.SameTrees plain.store → plain.Seated →
    let reply := parser.recompute depth rule state' (one.position node.start) plain
    reply.2.store.Keeps other → reply.2.Complete → alike (Tree.Matches one other) state state' →
      node.Matches one other reply.1.1 ∧ one.position node.stop = reply.1.2

theorem Parser.Reproduces.mono {store later : Store} {rule : V.Rule} {state : V.State} {node : V.Node}
    (reproduces : parser.Reproduces alike store rule state node) (keeps : store.Keeps later) :
    parser.Reproduces alike later rule state node :=
  fun depth plain state' one other further => reproduces depth plain state' one other
    (keeps.trans further)

/-- Every kept node can be relied upon. -/
def Session.Faithful (session : Session V) (parser : Parser V) (alike : StateRelation V) : Prop :=
  ∀ rule state entry, session.Holds rule state entry →
    parser.Reproduces alike session.store rule state entry.node

theorem Session.Faithful.fewer {session other : Session V} (faithful : session.Faithful parser alike)
    (keeps : session.store.Keeps other.store)
    (fewer : ∀ rule state entry, other.Holds rule state entry →
      ∃ old, session.Holds rule state old ∧ old.node = entry.node) : other.Faithful parser alike := by
  intro rule state entry holds
  rcases fewer rule state entry holds with ⟨old, held, same⟩
  rw [← same]
  exact (faithful rule state old held).mono keeps

/-- A reply is what recomputing answers at a given depth, and complete if that is.  If fewer
bodies may nest in the invocation than in recomputing, as `shallow` says, then this holds only
where it has refused none. -/
def Parser.Agrees (parser : Parser V) (alike : StateRelation V) (depth : Nat) (shallow : Prop)
    (rule : V.Rule) (state : V.State) (start : Position) (store : Store) (reply : Reply V) : Prop :=
  ∀ state' plain, plain.Seated → store.SameTrees plain.store →
    let reply' := parser.recompute depth rule state' start plain
    ∀ one other, reply.2.store.Keeps one → reply'.2.store.Keeps other →
      (shallow → reply.2.refused = []) → reply'.2.Complete →
      alike (Tree.Matches one other) state state' →
        reply.1.1.Matches one other reply'.1.1 ∧ reply.1.2 = reply'.1.2 ∧ reply.2.Complete

namespace Descent

/-- An invocation that is complete keeps nothing that cannot be relied upon. -/
def KeepsFaithful (descend : Descent V) (parser : Parser V) (alike : StateRelation V) : Prop :=
  ∀ rule state start session, session.Seated → session.store.Rests start →
    session.Faithful parser alike →
    let reply := descend rule state start session
    reply.2.Complete → reply.2.Faithful parser alike

/-- An invocation of a session whose kept nodes can be relied upon goes as recomputing goes. -/
def Transparent (descend : Descent V) (parser : Parser V) (alike : StateRelation V) (depth : Nat)
    (shallow : Prop) : Prop :=
  ∀ rule state start session, session.Seated → session.store.Rests start →
    session.Faithful parser alike → session.Complete →
    parser.Agrees alike depth shallow rule state start session.store (descend rule state start session)

theorem Transparent.imp {descend : Descent V} {depth : Nat} {shallow shallow' : Prop}
    (transparent : descend.Transparent parser alike depth shallow) (implies : shallow → shallow') :
    descend.Transparent parser alike depth shallow' :=
  fun rule state start session seated starts faithful whole state' plain seated' trees one other keeps
      keeps' ran =>
    transparent rule state start session seated starts faithful whole state' plain seated' trees one
      other keeps keeps' (ran ∘ implies)

end Descent

/-! ## Bodies side by side -/

namespace Frame

variable {id : BufferId} {further plain : Descent V} {one other : Store} {shallow : Prop}
  {frame frame' : Frame V}

/-- Two running bodies that have got equally far. -/
structure Abreast (frame frame' : Frame V) (id : BufferId) (parser : Parser V)
    (alike : StateRelation V) : Prop where
  rests : frame.Rests id
  rests' : frame'.Rests id
  trees : frame.session.store.SameTrees frame'.session.store
  faithful : frame.session.Faithful parser alike
  whole : frame.session.Complete
  place : frame.place = frame'.place
  before : frame.before = frame'.before
  after : frame.after = frame'.after
  marks : frame.marks = frame'.marks

/-- A body with kept nodes beside one without, compared in the stores that they end with. -/
def comparison (id : BufferId) (parser : Parser V) (alike : StateRelation V) (one other : Store)
    (shallow : Prop) : Comparison (Frame V) (Frame V) where
  lost frame := frame.Rests id ∧
    ¬ (frame.session.store.Keeps one ∧ (shallow → frame.session.refused = []))
  lost' frame := frame.Rests id ∧ ¬ (frame.session.store.Keeps other ∧ frame.session.Complete)
  related frame frame' := frame.Abreast frame' id parser alike

def runner (id : BufferId) (descend : Descent V) : Runner V (Frame V) where
  handle := handle id descend
  rounds := rounds id

theorem session_settleLexed {α : Type} (frame : Frame V) (lexed : Except LexError (α × Place)) :
    (frame.settleLexed lexed).2.session = frame.session := by
  rcases lexed with error | ⟨value, place⟩ <;> rfl

/-- Lexing the same at the same place. -/
theorem Abreast.settleLexed {α : Type} (abreast : frame.Abreast frame' id parser alike)
    (lexed : Except LexError (α × Place))
    (rests : (frame.settleLexed lexed).2.Rests id) (rests' : (frame'.settleLexed lexed).2.Rests id) :
    (frame.settleLexed lexed).1 = (frame'.settleLexed lexed).1 ∧
      (frame.settleLexed lexed).2.Abreast (frame'.settleLexed lexed).2 id parser alike := by
  rcases lexed with error | ⟨value, place⟩
  · exact ⟨rfl, abreast⟩
  · exact ⟨rfl, rests, rests', abreast.trees, abreast.faithful, abreast.whole, rfl, abreast.before,
      abreast.after, abreast.marks⟩

theorem mirrors {depth : Nat} (steady : further.Steady) (keeps : further.KeepsFaithful parser alike)
    (transparent : further.Transparent parser alike depth shallow) :
    (runner id further).Mirrors (runner id (parser.recompute depth)) (Tree.Matches one other)
      (alike (Tree.Matches one other)) (comparison id parser alike one other shallow) := by
  have steady' := parser.recompute_steady depth
  constructor
  · rintro α action frame ⟨rests, astray⟩
    rcases rests.handle steady action with ⟨rests', leads⟩
    exact ⟨rests', fun ⟨later, ran⟩ => astray ⟨leads.keeps.trans later, leads.ran ∘ ran⟩⟩
  · rintro α action frame ⟨rests, astray⟩
    rcases rests.handle steady' action with ⟨rests', leads⟩
    exact ⟨rests', fun ⟨later, complete⟩ =>
      astray ⟨leads.keeps.trans later, leads.complete complete⟩⟩
  · intro frame frame' abreast
    have rounds := (abreast.trees id).roundsFrom frame.place
    rw [abreast.place] at rounds
    exact (congrArg _ abreast.place).trans rounds.symm
  · intro α answers action action' frame frame' actions abreast
    rcases abreast.rests.handle steady action with ⟨rests, leads⟩
    rcases abreast.rests'.handle steady' action' with ⟨rests', leads'⟩
    have trees := leads.keeps.trees.symm.trans (abreast.trees.trans leads'.keeps.trees)
    cases actions with
    | @lex β token token' same =>
        have lexed : token.lex (frame.session.store.buffer id) frame.place =
            token'.lex (frame'.session.store.buffer id) frame'.place := by
          rw [same, (abreast.trees id).lex, abreast.place]
        simp only [runner, handle, lexed] at rests ⊢
        exact Or.inr (Or.inr (abreast.settleLexed _ rests rests'))
    | @isNext β token token' same =>
        refine Or.inr (Or.inr ⟨?_, abreast⟩)
        simp only [runner, handle]
        rw [same, (abreast.trees id).isNext, abreast.place]
    | @lexFirst β tokens tokens' message message' same =>
        have lexed : Token.lexFirst tokens (frame.session.store.buffer id) frame.place message =
            Token.lexFirst tokens' (frame'.session.store.buffer id) frame'.place message' := by
          rw [same, (abreast.trees id).lexFirst, abreast.place]
        simp only [runner, handle, lexed] at rests ⊢
        exact Or.inr (Or.inr (abreast.settleLexed _ rests rests'))
    | @parse rule state state' states =>
        have answered := transparent rule state ⟨id, frame.place⟩ frame.session abreast.rests.seated
          abreast.rests.place abreast.faithful abreast.whole state' frame'.session
          abreast.rests'.seated abreast.trees one other
        have faithful := keeps rule state ⟨id, frame.place⟩ frame.session abreast.rests.seated
          abreast.rests.place abreast.faithful
        simp only [runner, handle, ← abreast.place] at rests rests' trees ⊢
        generalize further rule state ⟨id, frame.place⟩ frame.session = reply at *
        generalize parser.recompute depth rule state' ⟨id, frame.place⟩ frame'.session = reply' at *
        by_cases kept : reply.2.store.Keeps one ∧ (shallow → reply.2.refused = [])
        · by_cases kept' : reply'.2.store.Keeps other ∧ reply'.2.Complete
          · rcases answered kept.1 kept'.1 kept.2 kept'.2 states with ⟨nodes, stop, whole⟩
            exact Or.inr (Or.inr ⟨nodes, rests, rests', trees, faithful whole, whole,
              congrArg Position.place stop, abreast.before, abreast.after, abreast.marks⟩)
          · exact Or.inr (Or.inl ⟨rests', kept'⟩)
        · exact Or.inl ⟨rests, kept⟩
    | @adoptSkips node node' nodes =>
        rcases corresponds_matches one other node node' nodes with ⟨_, _, before, after, _⟩
        refine Or.inr (Or.inr ⟨rfl, rests, rests', abreast.trees, abreast.faithful, abreast.whole,
          abreast.place, ?_, ?_, abreast.marks⟩)
        · simp only [runner, handle, abreast.before, before]
        · simp only [runner, handle, abreast.after, after]
    | mark =>
        refine Or.inr (Or.inr ⟨?_, rests, rests', abreast.trees, abreast.faithful, abreast.whole,
          abreast.place, abreast.before, abreast.after, ?_⟩)
        · simp only [runner, handle, abreast.marks]
        · simp only [runner, handle, abreast.marks, abreast.place]
    | restore mark =>
        refine Or.inr (Or.inr ⟨rfl, rests, rests', abreast.trees, abreast.faithful, abreast.whole,
          ?_, abreast.before, abreast.after, abreast.marks⟩)
        simp only [runner, handle, abreast.marks, abreast.place]
    | place => exact Or.inr (Or.inr ⟨abreast.place, abreast⟩)
    | position =>
        refine Or.inr (Or.inr ⟨?_, abreast⟩)
        simp only [runner, handle]
        rw [(abreast.trees id).indexOf, abreast.place]
    | atEnd =>
        refine Or.inr (Or.inr ⟨?_, abreast⟩)
        simp only [runner, handle]
        rw [(abreast.trees id).peek, abreast.place]

/-- A program that is complete keeps nothing that cannot be relied upon. -/
theorem Rests.run_keepsFaithful {α : Type} (rests : frame.Rests id) (steady : further.Steady)
    (keeps : further.KeepsFaithful parser alike) (faithful : frame.session.Faithful parser alike)
    (program : Program (Action V) α) :
    let after := (Program.run (Frame.handle id further) (rounds id) program frame).2
    after.session.Complete → after.session.Faithful parser alike := by
  refine (Program.run_preserves (fun frame : Frame V => frame.Rests id ∧
    (frame.session.Complete → frame.session.Faithful parser alike)) ?_ program frame
      ⟨rests, fun _ => faithful⟩).2
  rintro β action frame ⟨rests, faithful⟩
  rcases rests.handle steady action with ⟨rests', leads⟩
  refine ⟨rests', fun whole => ?_⟩
  have before := faithful (leads.complete whole)
  cases action with
  | parse rule state => exact keeps rule state _ _ rests.seated rests.place before whole
  | lex token => exact (session_settleLexed _ _).symm ▸ before
  | lexFirst tokens message => exact (session_settleLexed _ _).symm ▸ before
  | isNext token => exact before
  | adoptSkips node => exact before
  | mark => exact before
  | restore mark => exact before
  | place => exact before
  | position => exact before
  | atEnd => exact before

end Frame

/-- Nodes that are made of matching contents, in the same places, match but for the skip values. -/
theorem Session.Enters.resembles {session plain kept kept' : Session V} {one other : Store}
    {rule : V.Rule} {key key' : StateKey V} {node node' : V.Node} {start stop : Position}
    {content content' : Content V.Label V.Skip} {before before' skipped skipped' : List V.Skip}
    (enters : session.Enters kept rule key node start stop content before skipped)
    (enters' : plain.Enters kept' rule key' node' start stop content' before' skipped')
    (trees : session.store.SameTrees plain.store) (reaches : kept.store.Keeps one)
    (reaches' : kept'.store.Keeps other) (contents : content.Alike (Tree.Matches one other) content') :
    node.label = node'.label ∧ one.SamePlace other node.start node'.start ∧
      one.SamePlace other node.stop node'.stop ∧ node.length = node'.length ∧
        List.Forall₂ (Tree.Matches one other) node.children node'.children := by
  have atStart : one.SamePlace other node.start node'.start :=
    ⟨enters.start.1.trans enters'.start.1.symm, _, reaches.places _ _ enters.start.2,
      reaches'.places _ _ enters'.start.2⟩
  have atStop : one.SamePlace other node.stop node'.stop :=
    ⟨enters.stop.1.trans enters'.stop.1.symm, _, reaches.places _ _ enters.stop.2,
      reaches'.places _ _ enters'.stop.2⟩
  have length : node.length = node'.length := by
    rw [enters.length, enters'.length, trees.indexOf, trees.indexOf]
  have children : List.Forall₂ (Tree.Matches one other) node.children node'.children := by
    rw [enters.children, enters'.children]
    exact contents.2
  exact ⟨enters.label.trans (contents.1.trans enters'.label.symm), atStart, atStop, length, children⟩

/-- If they were given the same skip values, then they match. -/
theorem Session.Enters.matches {session plain kept kept' : Session V} {one other : Store}
    {rule : V.Rule} {key key' : StateKey V} {node node' : V.Node} {start stop : Position}
    {content content' : Content V.Label V.Skip} {before skipped : List V.Skip}
    (enters : session.Enters kept rule key node start stop content before skipped)
    (enters' : plain.Enters kept' rule key' node' start stop content' before skipped)
    (trees : session.store.SameTrees plain.store) (reaches : kept.store.Keeps one)
    (reaches' : kept'.store.Keeps other) (contents : content.Alike (Tree.Matches one other) content') :
    node.Matches one other node' := by
  rcases enters.resembles enters' trees reaches reaches' contents with
    ⟨label, atStart, atStop, length, children⟩
  exact Tree.matches_iff.mpr ⟨label, ⟨atStart, atStop, length,
    enters.skips.1.trans enters'.skips.1.symm, enters.skips.2.trans enters'.skips.2.symm⟩, children⟩

theorem Grammar.children_failureOf (grammar : Grammar V) (rule : V.Rule) (stop : Stop) :
    (grammar.failureOf rule stop).children = [] := by
  rcases stop with (_ | _ | _) | _ | _ <;> rfl

namespace Parser

variable {id : BufferId} {further : Descent V} {one other : Store} {shallow : Prop}
  {frame frame' : Frame V} {depth : Nat}

/-- What becomes of the result of a body. -/
def conclude (parser : Parser V) (rule : V.Rule) :
    Except Stop (Content V.Label V.Skip) × Frame V → Content V.Label V.Skip × Frame V
  | (.ok content, reached) => (content, reached)
  | (.error stop, reached) => (parser.grammar.failureOf rule stop, reached.noteStop stop)

theorem runRule_some (parser : Parser V) (descend : Descent V) (rule : V.Rule) (state : V.State)
    (frame : Frame V) :
    parser.runRule (some descend) rule state id frame =
      parser.conclude rule ((Frame.runner id descend).run (parser.grammar.body rule state) frame) := by
  have unfolded : (Frame.runner id descend).run (parser.grammar.body rule state) frame =
      frame.run id descend (parser.grammar.body rule state) := rfl
  rw [runRule, unfolded]
  rcases frame.run id descend (parser.grammar.body rule state) with ⟨_ | content, reached⟩ <;> rfl

/-- Related results of a body become contents that match. -/
theorem conclude_alike (parser : Parser V) {nodes : V.Node → V.Node → Prop} (rule : V.Rule)
    {ran ran' : Except Stop (Content V.Label V.Skip) × Frame V}
    (same : SameResult (Content.Alike nodes) ran.1 ran'.1) :
    (parser.conclude rule ran).1.Alike nodes (parser.conclude rule ran').1 := by
  rcases ran with ⟨stop | content, reached⟩ <;> rcases ran' with ⟨stop' | content', reached'⟩
  · cases same
    refine ⟨rfl, ?_⟩
    simp only [conclude, Grammar.children_failureOf, List.Forall₂.nil]
  · exact same.elim
  · exact same.elim
  · exact same

/-- Alike bodies that begin abreast end abreast, with contents that match. -/
theorem runRule_agree (discreet : parser.grammar.Discreet alike) (steady : further.Steady)
    (keeps : further.KeepsFaithful parser alike)
    (transparent : further.Transparent parser alike depth shallow) (rule : V.Rule)
    {state state' : V.State} (states : alike (Tree.Matches one other) state state')
    (abreast : frame.Abreast frame' id parser alike) :
    (Frame.comparison id parser alike one other shallow).Agree
      (Content.Alike (Tree.Matches one other))
      (parser.runRule (some further) rule state id frame)
      (parser.runRule (some (parser.recompute depth)) rule state' id frame') := by
  have bodies := discreet.bodies (corresponds_matches one other) rule states
  rw [runRule_some, runRule_some]
  refine (bodies.agree (Frame.mirrors steady keeps transparent) frame frame' abreast).andThen
    (parser.conclude rule) (parser.conclude rule) ?_ ?_ ?_
  · rintro ⟨stop | content, reached⟩ ⟨rests, astray⟩
    · rcases rests.noteStop stop with ⟨rests', leads⟩
      exact ⟨rests', fun ⟨later, ran⟩ => astray ⟨leads.keeps.trans later, leads.ran ∘ ran⟩⟩
    · exact ⟨rests, astray⟩
  · rintro ⟨stop | content, reached⟩ ⟨rests, astray⟩
    · rcases rests.noteStop stop with ⟨rests', leads⟩
      exact ⟨rests', fun ⟨later, complete⟩ =>
        astray ⟨leads.keeps.trans later, leads.complete complete⟩⟩
    · exact ⟨rests, astray⟩
  · rintro (stop | content) (stop' | content') reached reached' same related
    · cases same
      by_cases isEndless : stop = .endless
      · -- Recomputing does not come to an end, so nothing is said of this body.
        refine Or.inr (Or.inl ⟨(related.rests'.noteStop stop).1, fun ⟨_, complete⟩ => ?_⟩)
        have ends := complete.ends
        simp only [conclude, Frame.noteStop, if_pos isEndless] at ends
        cases ends
      · refine Or.inr (Or.inr ⟨parser.conclude_alike rule rfl, ?_⟩)
        simp only [conclude, Frame.noteStop, if_neg isEndless]
        exact related
    · exact same.elim
    · exact same.elim
    · exact Or.inr (Or.inr ⟨parser.conclude_alike rule same, related⟩)

theorem execute_transparent (discreet : parser.grammar.Discreet alike) (steady : further.Steady)
    (keeps : further.KeepsFaithful parser alike)
    (transparent : further.Transparent parser alike depth shallow) :
    Descent.Transparent (parser.execute (some further)) parser alike (depth + 1) shallow := by
  intro rule state start session seated starts faithful whole state' plain seated' trees
  have furtherSteady : ∀ other, some further = some other → other.Steady := by
    rintro _ ⟨⟩
    exact steady
  have plainSteady : ∀ other, some (parser.recompute depth) = some other → other.Steady := by
    rintro _ ⟨⟩
    exact parser.recompute_steady depth
  have spec := parser.execute_spec furtherSteady rule state seated starts
  have spec' := parser.execute_spec plainSteady rule state' seated' (trees.rests starts)
  have leading := Token.skipFrom_preserves (seated.sound start.buffer).formed.rests_reading
    parser.grammar.skips starts
  simp only at spec
  simp only [(trees start.buffer).skipFrom] at spec'
  generalize Token.skipFrom parser.grammar.skips (session.store.buffer start.buffer) start.place =
    skipped at spec spec' leading
  have abreast : Frame.Abreast { session, place := skipped.2 } { session := plain, place := skipped.2 }
      start.buffer parser alike :=
    ⟨Frame.rests_begin seated leading, Frame.rests_begin seated' ((trees start.buffer).rests leading),
      trees, faithful, whole, rfl, rfl, rfl, rfl⟩
  simp only [recompute]
  generalize parser.execute (some further) rule state start session = reply at spec ⊢
  generalize parser.execute (some (parser.recompute depth)) rule state' start plain = reply' at spec' ⊢
  intro one other reaches reaches' ran complete states
  have agree := runRule_agree discreet steady keeps transparent rule states abreast
  generalize parser.runRule (some further) rule state start.buffer _ = outcome at spec agree
  generalize parser.runRule (some (parser.recompute depth)) rule state' start.buffer _ = outcome'
    at spec' agree
  rcases spec with ⟨stops, leads, trailing, rests, kept, enters, becomes⟩
  rcases spec' with ⟨stops', leads', trailing', rests', kept', enters', becomes'⟩
  have isKept : reply.2 = kept := becomes
  have isKept' : reply'.2 = kept' := becomes'
  rw [isKept] at reaches ran ⊢
  rw [isKept'] at reaches' complete
  rcases agree with ⟨_, astray⟩ | ⟨_, astray⟩ | ⟨contents, related⟩
  · exact absurd ⟨enters.keeps.trans reaches, fun isShallow => enters.refused ▸ ran isShallow⟩ astray
  · exact absurd ⟨enters'.keeps.trans reaches', enters'.endless ▸ complete.ends,
      enters'.refused ▸ complete.ran⟩ astray
  · have trailed : Token.skipFrom parser.grammar.skips
          (outcome'.2.session.store.buffer start.buffer) outcome'.2.place =
        Token.skipFrom parser.grammar.skips (outcome.2.session.store.buffer start.buffer)
          outcome.2.place := by
      rw [(related.trees _).skipFrom, related.place]
    rw [trailed] at stops' enters'
    rw [← related.before, ← related.after] at enters'
    exact ⟨enters.matches enters' related.trees reaches reaches' contents, stops.trans stops'.symm,
      enters.endless.trans related.whole.ends, enters.refused.trans related.whole.ran⟩

theorem runRule_keepsFaithful (steady : further.Steady) (keeps : further.KeepsFaithful parser alike)
    (rests : frame.Rests id) (faithful : frame.session.Faithful parser alike) (rule : V.Rule)
    (state : V.State) :
    let ran := parser.runRule (some further) rule state id frame
    ran.2.session.Complete → ran.2.session.Faithful parser alike := by
  have ran : (frame.run id further (parser.grammar.body rule state)).2.Rests id ∧
      ((frame.run id further (parser.grammar.body rule state)).2.session.Complete →
        (frame.run id further (parser.grammar.body rule state)).2.session.Faithful parser alike) :=
    ⟨(rests.run steady _).1, rests.run_keepsFaithful steady keeps faithful _⟩
  simp only [runRule]
  split
  · next becomes =>
      rw [becomes] at ran
      exact ran.2
  · next stop reached becomes =>
      rw [becomes] at ran
      rcases ran.1.noteStop stop with ⟨_, leads⟩
      intro whole
      refine (ran.2 (leads.complete whole)).fewer leads.keeps fun rule state entry holds => ⟨entry, ?_, rfl⟩
      rw [Frame.noteStop] at holds
      split at holds <;> exact holds

/-- A node that is made can be relied upon, since recomputing runs a body that is alike. -/
theorem execute_keepsFaithful (discreet : parser.grammar.Discreet alike) (steady : further.Steady)
    (keeps : further.KeepsFaithful parser alike)
    (transparent : ∀ depth, further.Transparent parser alike depth True) :
    Descent.KeepsFaithful (parser.execute (some further)) parser alike := by
  intro rule state start session seated starts faithful
  have furtherSteady : ∀ other, some further = some other → other.Steady := by
    rintro _ ⟨⟩
    exact steady
  have leads := (parser.execute_steady furtherSteady rule state start session seated starts).2.1
  have again := fun depth whole => parser.execute_transparent discreet steady keeps (transparent depth)
    rule state start session seated starts faithful whole
  have leading := Token.skipFrom_preserves (seated.sound start.buffer).formed.rests_reading
    parser.grammar.skips starts
  have faithfully := parser.runRule_keepsFaithful steady keeps (Frame.rests_begin seated leading)
    faithful rule state
  have spec := parser.execute_spec furtherSteady rule state seated starts
  generalize parser.execute (some further) rule state start session = reply at leads again spec ⊢
  rcases spec with ⟨stops, earlier, trailing, rests, kept, enters, becomes⟩
  have isKept : reply.2 = kept := becomes
  intro _ whole
  rw [isKept] at leads whole ⊢
  intro rule' state' entry holds
  rcases enters.held rule' state' entry holds with old | ⟨rfl, isNode, isState⟩
  · exact (faithfully ⟨enters.endless ▸ whole.ends, enters.refused ▸ whole.ran⟩ rule' state' entry
      old).mono enters.keeps
  · intro depth plain other one last reaches trees seated'
    have arrives := leads.keeps.trans reaches
    have begins : one.position entry.node.start = start := by
      rw [isNode]
      exact (arrives.trees.rests starts).position_eq enters.start.1
        (reaches.places _ _ enters.start.2)
    have ends : one.position entry.node.stop = reply.1.2 := by
      rw [isNode]
      refine ((enters.keeps.trans reaches).trees.rests trailing).position_eq enters.stop.1
        (reaches.places _ _ enters.stop.2) |>.trans stops.symm
    have asked : ∀ nodes, alike nodes state' other → alike nodes state other := by
      intro nodes states
      rcases isState with rfl | isSame
      · exact states
      · exact (discreet.same isSame nodes other).mp states
    rw [begins, ends, isNode]
    cases depth with
    | zero =>
        intro reply' _ complete
        exact absurd complete.ran (parser.execute_none rule' other start plain)
    | succ depth =>
        have agrees := again depth (leads.complete whole) other plain seated'
          (arrives.trees.trans trees) one last (isKept.symm ▸ reaches)
        generalize parser.recompute (depth + 1) rule' other start plain = reply' at agrees ⊢
        intro _ reaches' complete states
        rcases agrees reaches' (fun _ => isKept.symm ▸ whole.ran) complete (asked _ states) with
          ⟨nodes, stop, _⟩
        exact ⟨nodes, stop⟩

/-- Where no body may be run, recomputing is incomplete or may go deeper. -/
theorem execute_none_transparent (depth : Nat) :
    Descent.Transparent (parser.execute none) parser alike depth (0 < depth) := by
  intro rule state start session _ _ _ _ state' plain _ _ reply' one other _ _ ran complete _
  cases depth with
  | zero => exact absurd complete.ran (parser.execute_none rule state' start plain)
  | succ depth => exact absurd (ran depth.succ_pos) (parser.execute_none rule state start session)

theorem execute_none_keepsFaithful : Descent.KeepsFaithful (parser.execute none) parser alike :=
  fun rule state start session _ _ _ whole =>
    absurd whole.ran (parser.execute_none rule state start session)

variable {descend : Option (Descent V)}

/-- Looking for a kept node first makes no difference, since a kept node can be relied upon. -/
theorem visit_transparent (discreet : parser.grammar.Discreet alike) (isStale : Range → Bool)
    (transparent : Descent.Transparent (parser.execute descend) parser alike depth shallow) :
    Descent.Transparent (parser.visit isStale descend) parser alike depth shallow := by
  intro rule state start session seated starts faithful whole
  have cases := session.reuse_cases rule (parser.grammar.stateKey state) start isStale
  simp only [visit]
  generalize session.reuse rule (parser.grammar.stateKey state) start isStale = outcome at cases ⊢
  rcases cases with ⟨memos, stats, consulted, held, rfl |
    ⟨state, entry, reused, isSame, holds, isStart, attached, rfl⟩⟩
  · exact transparent rule state start { session with memos, stats, consulted }
      (seated.fewer rfl held) starts (faithful.fewer (Store.Keeps.refl _) held) ⟨whole.ends, whole.ran⟩
  · intro state' plain seated' trees _ one other reaches reaches' ran complete states
    rcases seated.kept rule _ entry holds with ⟨_, ⟨_, startSits⟩, _, stopSits⟩
    have begins := (reaches.position startSits).trans isStart
    have ends := reaches.position stopSits
    have kept := faithful rule _ entry holds depth plain state' one other reaches
      (reaches.trees.symm.trans trees) seated'
    rw [begins, ends] at kept
    rcases kept reaches' complete ((discreet.same isSame _ _).mpr states) with ⟨nodes, stop⟩
    exact ⟨nodes, stop, whole.ends, whole.ran⟩

theorem visit_keepsFaithful (isStale : Range → Bool)
    (keeps : Descent.KeepsFaithful (parser.execute descend) parser alike) :
    Descent.KeepsFaithful (parser.visit isStale descend) parser alike := by
  intro rule state start session seated starts faithful
  have cases := session.reuse_cases rule (parser.grammar.stateKey state) start isStale
  simp only [visit]
  generalize session.reuse rule (parser.grammar.stateKey state) start isStale = outcome at cases ⊢
  rcases cases with ⟨memos, stats, consulted, held, rfl |
    ⟨state, entry, reused, isSame, holds, isStart, attached, rfl⟩⟩
  · exact keeps rule state start { session with memos, stats, consulted } (seated.fewer rfl held) starts
      (faithful.fewer (Store.Keeps.refl _) held)
  · exact fun _ => faithful.fewer (Store.Keeps.refl _) held

/-- Both facts go through the recursion together: a node that is made at one depth can be
relied upon because invocations further down are transparent, and those are transparent because
what they have kept can be relied upon. -/
theorem invoke_transparent (discreet : parser.grammar.Discreet alike) (isStale : Range → Bool)
    (nesting : Nat) :
    Descent.KeepsFaithful (parser.invoke isStale nesting) parser alike ∧
      ∀ depth, Descent.Transparent (parser.invoke isStale nesting) parser alike depth
        (nesting < depth) := by
  induction nesting with
  | zero =>
      exact ⟨visit_keepsFaithful isStale execute_none_keepsFaithful, fun depth =>
        visit_transparent discreet isStale (execute_none_transparent depth)⟩
  | succ nesting inductionHypothesis =>
      rcases inductionHypothesis with ⟨keeps, transparent⟩
      have steady := parser.invoke_steady isStale nesting
      refine ⟨visit_keepsFaithful isStale (execute_keepsFaithful discreet steady keeps fun depth =>
        (transparent depth).imp fun _ => trivial), fun depth => ?_⟩
      cases depth with
      | zero =>
          intro rule state start session _ _ _ _ state' plain _ _ reply' one other _ _ _ complete
          exact absurd complete.ran (parser.execute_none rule state' start plain)
      | succ depth =>
          exact (visit_transparent discreet isStale
            (execute_transparent discreet steady keeps (transparent depth))).imp Nat.succ_lt_succ

end Parser

end Reparse
