import Reparse.Proofs.Languages.Words.Discretion
import Reparse.Proofs.Parsing.Adopting
import Reparse.Proofs.Parsing.Tandem

/-!
# What backtracking leaves behind

A body may remember its place, attempt something, go back to that place and go on.  Going
back restores the place and nothing else.  The attempt may have left three things behind:
cursors in the store, kept nodes in the session, and the skip values of nodes that were
adopted.

Cursors are of no consequence, and kept nodes are of none where they can be relied upon.
So the node that is made in the end is the one that would have been made without the
attempt, except that the skip values taken over during the attempt are among its own.
-/

namespace Reparse

variable {V : Vocabulary} {α β γ : Type}

/-- Does not remember the place. -/
def Action.Unmarking : Action V α → Prop
  | .mark => False
  | _ => True

/-! ## Going back -/

namespace Frame

variable {id : BufferId} {descend : Descent V}

/-- Remember the place. -/
def remember (frame : Frame V) : Frame V := { frame with marks := frame.marks.push frame.place }

/-- Back at the place remembered, with the session that an attempt has left. -/
def backWith (frame : Frame V) (session : Session V) : Frame V := { frame.remember with session }

theorem marks_of_only {program : Program (Action V) α} (only : program.Only Action.Unmarking)
    (frame : Frame V) :
    (Program.run (handle id descend) (rounds id) program frame).2.marks = frame.marks := by
  refine only.run_preserves (fun reached : Frame V => reached.marks = frame.marks) ?_ frame rfl
  rintro β action reached unmarking same
  have settled : ∀ {β : Type} (lexed : Except LexError (β × Place)),
      (reached.settleLexed lexed).2.marks = reached.marks := by
    rintro β (error | ⟨value, place⟩) <;> rfl
  cases action with
  | mark => exact unmarking.elim
  | lex token => exact (settled _).trans same
  | lexFirst tokens message => exact (settled _).trans same
  | isNext token => exact same
  | parse rule state => exact same
  | adoptSkips node => exact same
  | restore mark => exact same
  | place => exact same
  | position => exact same
  | atEnd => exact same

end Frame

namespace Body

/-- Remember the place after a first part, and go on. -/
def remembering (first : Body V α) (rest : α → Nat → Body V β) : Body V β := do
  let found ← first
  let mark ← Body.mark
  rest found mark

/-- Try something, whatever comes of it, and go back. -/
def retreat (abandoned : Program (Action V) γ) (mark : Nat) (rest : Body V β) : Body V β := do
  let _ ← ExceptT.lift abandoned
  Body.restore mark
  rest

/-- Remember the place after a first part, try something, go back, and go on. -/
def backtracking (first : Body V α) (abandoned : α → Nat → Program (Action V) γ)
    (rest : α → Nat → Body V β) : Body V β :=
  remembering first fun found mark => retreat (abandoned found mark) mark (rest found mark)

/-- Neither part of a body can tell nodes apart that look the same. -/
structure DiscreetParts (alike : StateRelation V) (answers : (V.Node → V.Node → Prop) → α → α → Prop)
    (first : Body V α) (rest : α → Nat → Body V (Content V.Label V.Skip)) : Prop where
  first : ∀ nodes, Corresponds nodes → Alike nodes (alike nodes) (answers nodes) first first
  rest : ∀ nodes, Corresponds nodes → ∀ found found' mark, answers nodes found found' →
    Alike nodes (alike nodes) (Content.Alike nodes) (rest found mark) (rest found' mark)

theorem DiscreetParts.remembering {alike : StateRelation V}
    {answers : (V.Node → V.Node → Prop) → α → α → Prop} {first : Body V α}
    {rest : α → Nat → Body V (Content V.Label V.Skip)}
    (parts : DiscreetParts alike answers first rest) {nodes : V.Node → V.Node → Prop}
    (corresponds : Corresponds nodes) :
    Alike nodes (alike nodes) (Content.Alike nodes) (remembering first rest) (remembering first rest) := by
  refine alike_bind (parts.first nodes corresponds) fun found found' same => ?_
  refine alike_bind (alike_act .mark) ?_
  rintro mark _ rfl
  exact parts.rest nodes corresponds found found' mark same

end Body

namespace Frame

variable {id : BufferId} {descend : Descent V}

theorem run_remembering (first : Body V α) (rest : α → Nat → Body V β) (frame : Frame V) :
    (runner id descend).run (Body.remembering first rest) frame =
      match (runner id descend).run first frame with
      | (.ok found, reached) =>
        (runner id descend).run (rest found reached.marks.size) reached.remember
      | (.error stop, reached) => (.error stop, reached) := by
  rw [Body.remembering, Runner.run_bind]
  rcases (runner id descend).run first frame with ⟨stop | found, reached⟩ <;> rfl

/-- What follows upon going back begins at the place that was remembered, with the session and
the skip values that the attempt has left. -/
theorem run_retreat {abandoned : Program (Action V) γ} (only : abandoned.Only Action.Unmarking)
    (rest : Body V β) (frame : Frame V) :
    let left := (Program.run (handle id descend) (rounds id) abandoned frame.remember).2
    (runner id descend).run (Body.retreat abandoned frame.marks.size rest) frame.remember =
      (runner id descend).run rest
        { frame.backWith left.session with before := left.before, after := left.after } := by
  have marks : (Program.run (handle id descend) (rounds id) abandoned frame.remember).2.marks =
      frame.remember.marks := marks_of_only only frame.remember
  have unfolded : ∀ left,
      (Program.run (handle id descend) (rounds id) abandoned frame.remember).2 = left →
      (runner id descend).run (Body.retreat abandoned frame.marks.size rest) frame.remember =
        (runner id descend).run rest
          { left with place := left.marks[frame.marks.size]?.getD left.place } := by
    rintro _ rfl
    rfl
  simp only
  rw [unfolded _ rfl]
  generalize (Program.run (handle id descend) (rounds id) abandoned frame.remember).2 = left at marks ⊢
  have isPlace : left.marks[frame.marks.size]?.getD left.place = frame.place := by
    rw [marks, remember, Array.getElem?_push_size, Option.getD_some]
  rw [isPlace, marks]
  rfl

/-! ## With an attempt, and without -/

section Attempts

variable {parser : Parser V} {alike : StateRelation V} {further : Descent V} {depth : Nat}
  {one other : Store} {frame frame' : Frame V}

/-- Where bodies are alike and come to an end, they end abreast. -/
theorem Abreast.run {answers : α → α → Prop} {body body' : Body V α}
    (abreast : frame.Abreast frame' id parser alike) (steady : further.Steady)
    (keeps : further.KeepsFaithful parser alike)
    (transparent : further.Transparent parser alike depth True)
    (bodies : Body.Alike (Tree.Matches one other) (alike (Tree.Matches one other)) answers body body') :
    let ran := (runner id further).run body frame
    let ran' := (runner id (parser.recompute depth)).run body' frame'
    ran.2.session.store.Keeps one → ran.2.session.Complete → ran'.2.session.store.Keeps other →
      ran'.2.session.Complete →
        SameResult answers ran.1 ran'.1 ∧ ran.2.Abreast ran'.2 id parser alike := by
  intro ran ran' reaches whole reaches' whole'
  rcases bodies.agree (mirrors steady keeps transparent) frame frame' abreast with
    ⟨_, astray⟩ | ⟨_, astray⟩ | agree
  · exact absurd ⟨reaches, fun _ => whole.ran⟩ astray
  · exact absurd ⟨reaches', whole'⟩ astray
  · exact agree

/-- The bodies have got equally far, but the first one has taken over the skip values of further
nodes on the way. -/
def AbreastBut (frame frame' : Frame V) (adopted : List V.Node) (id : BufferId) (parser : Parser V)
    (alike : StateRelation V) : Prop :=
  ∃ early late earlyAfter lateAfter,
    frame.before = early ++ Tree.skipsBefore adopted ++ late ∧
      frame.after = earlyAfter ++ Tree.skipsAfter adopted ++ lateAfter ∧
        Abreast { frame with before := early ++ late, after := earlyAfter ++ lateAfter } frame' id parser
          alike

theorem Abreast.but_nothing (abreast : frame.Abreast frame' id parser alike) :
    frame.AbreastBut frame' [] id parser alike := by
  have same : ∀ skips : List V.Skip, skips = skips ++ [] ++ [] := fun skips => by
    rw [List.append_nil, List.append_nil]
  refine ⟨frame.before, [], frame.after, [], same _, same _, ?_⟩
  rw [List.append_nil, List.append_nil]
  exact abreast

/-- After an attempt the body can go back to the place that it has remembered. -/
theorem Rests.goBack (rests : frame.Rests id) (steady : further.Steady)
    (abandoned : Program (Action V) γ) :
    let left := (Program.run (Frame.handle id further) (rounds id) abandoned frame.remember).2
    (frame.backWith left.session).Rests id ∧ frame.session.Leads left.session := by
  have remembers : frame.remember.Rests id := (rests.handle steady Action.mark).1
  rcases remembers.run steady abandoned with ⟨rests', leads⟩
  have settled : ∀ place, (frame.session.store.buffer id).Rests place → Buffer.Rests _ place :=
    fun _ => (leads.keeps.trees id).rests
  exact ⟨⟨rests'.seated, settled _ remembers.place, fun place member =>
    settled place (remembers.marks place member)⟩, leads⟩

/-- If the attempt has come to an end, then going back puts the body abreast again. -/
theorem Abreast.goBack (abreast : frame.Abreast frame' id parser alike) (steady : further.Steady)
    (keeps : further.KeepsFaithful parser alike) (abandoned : Program (Action V) γ) :
    let left := (Program.run (handle id further) (rounds id) abandoned frame.remember).2
    left.session.Complete →
      (frame.backWith left.session).Abreast frame'.remember id parser alike := by
  intro left whole
  have remembers : frame.remember.Rests id := (abreast.rests.handle steady Action.mark).1
  rcases abreast.rests.goBack steady abandoned with ⟨rests, leads⟩
  refine ⟨rests, (abreast.rests'.handle (parser.recompute_steady 0) Action.mark).1,
    leads.keeps.trees.symm.trans abreast.trees,
    remembers.run_keepsFaithful steady keeps abreast.faithful abandoned whole, whole, abreast.place,
    abreast.before, abreast.after, ?_⟩
  simp only [backWith, remember, abreast.place, abreast.marks]

/-- What follows upon going back goes as it would have gone at once, but for the skip values that
were taken over in vain. -/
theorem Abreast.retreat {results : β → β → Prop} {abandoned : Program (Action V) γ}
    {body body' : Body V β} (abreast : frame.Abreast frame' id parser alike) (steady : further.Steady)
    (keeps : further.KeepsFaithful parser alike)
    (transparent : further.Transparent parser alike depth True)
    (bodies : Body.Alike (Tree.Matches one other) (alike (Tree.Matches one other)) results body body')
    (unmarking : abandoned.Only Action.Unmarking) :
    let ran := (runner id further).run (Body.retreat abandoned frame.marks.size body) frame.remember
    let ran' := (runner id (parser.recompute depth)).run body' frame'.remember
    ran.2.session.store.Keeps one → ran.2.session.Complete → ran'.2.session.store.Keeps other →
      ran'.2.session.Complete →
        SameResult results ran.1 ran'.1 ∧
          ran.2.AbreastBut ran'.2 (adoptions id further abandoned frame.remember) id parser alike := by
  rcases run_adopts id further abandoned frame.remember with ⟨before, after⟩
  rcases abreast.rests.goBack steady abandoned with ⟨rests, _⟩
  have back := abreast.goBack steady keeps abandoned
  rw [run_retreat unmarking]
  generalize (Program.run _ _ abandoned frame.remember).2 = left at before after rests back ⊢
  generalize adoptions id further abandoned frame.remember = adopted at before after ⊢
  have onward := (rests.run steady body.run).2
  rcases run_more id further body (frame.backWith left.session) (Tree.skipsBefore adopted)
    (Tree.skipsAfter adopted) with ⟨late, lateAfter, isBefore, isAfter, burdened⟩
  have isLaden : left.before = (frame.backWith left.session).before ++ Tree.skipsBefore adopted ∧
      left.after = (frame.backWith left.session).after ++ Tree.skipsAfter adopted := ⟨before, after⟩
  rw [isLaden.1, isLaden.2, burdened]
  intro ran ran' reaches whole reaches' whole'
  rcases (back (onward.complete whole)).run steady keeps transparent bodies reaches whole reaches'
    whole' with ⟨same, abreast⟩
  refine ⟨same, _, late, _, lateAfter, rfl, rfl, ?_⟩
  simp only [ran, ← isBefore, ← isAfter]
  exact abreast

/-- The nodes whose skip values a body takes over in an attempt that it goes back on.  There is no
such attempt if the body has stopped before. -/
def adoptedInVain (id : BufferId) (descend : Descent V) (first : Body V α)
    (abandoned : α → Nat → Program (Action V) γ) (frame : Frame V) : List V.Node :=
  match (runner id descend).run first frame with
  | (.ok found, reached) =>
    adoptions id descend (abandoned found reached.marks.size) reached.remember
  | (.error _, _) => []

/-- A body that goes back on an attempt ends abreast of one that never makes the attempt, but for the
skip values taken over in vain. -/
theorem Abreast.backtracking {answers : α → α → Prop} {results : β → β → Prop} {first : Body V α}
    {abandoned : α → Nat → Program (Action V) γ} {rest : α → Nat → Body V β}
    (abreast : frame.Abreast frame' id parser alike) (steady : further.Steady)
    (keeps : further.KeepsFaithful parser alike)
    (transparent : further.Transparent parser alike depth True)
    (firstAlike :
      Body.Alike (Tree.Matches one other) (alike (Tree.Matches one other)) answers first first)
    (restAlike : ∀ found found' mark, answers found found' →
      Body.Alike (Tree.Matches one other) (alike (Tree.Matches one other)) results (rest found mark)
        (rest found' mark))
    (unmarking : ∀ found mark, (abandoned found mark).Only Action.Unmarking) :
    let ran := (runner id further).run (Body.backtracking first abandoned rest) frame
    let ran' := (runner id (parser.recompute depth)).run (Body.remembering first rest) frame'
    ran.2.session.store.Keeps one → ran.2.session.Complete → ran'.2.session.store.Keeps other →
      ran'.2.session.Complete →
        SameResult results ran.1 ran'.1 ∧
          ran.2.AbreastBut ran'.2 (adoptedInVain id further first abandoned frame) id parser alike := by
  have steady' := parser.recompute_steady depth
  rw [Body.backtracking, run_remembering, run_remembering, adoptedInVain]
  have went := abreast.run steady keeps transparent firstAlike
  have stands : ((runner id further).run first frame).2.Rests id :=
    (abreast.rests.run steady first.run).1
  have stands' : ((runner id (parser.recompute depth)).run first frame').2.Rests id :=
    (abreast.rests'.run steady' first.run).1
  generalize (runner id further).run first frame = outcome at went stands ⊢
  generalize (runner id (parser.recompute depth)).run first frame' = outcome' at went stands' ⊢
  -- Whatever follows the first part, the end of it is complete only if the first part is.
  rcases outcome with ⟨stop | found, reached⟩ <;> rcases outcome' with ⟨stop' | found', reached'⟩
  · intro ran ran' reaches whole reaches' whole'
    rcases went reaches whole reaches' whole' with ⟨same, abreast⟩
    exact ⟨same, abreast.but_nothing⟩
  · intro ran ran' reaches whole reaches' whole'
    have onward' : reached'.session.Leads ran'.2.session :=
      ((stands'.handle steady' Action.mark).1.run steady' (rest found' reached'.marks.size).run).2
    exact (went reaches whole (onward'.keeps.trans reaches') (onward'.complete whole')).1.elim
  · intro ran ran' reaches whole reaches' whole'
    have onward : reached.session.Leads ran.2.session :=
      ((stands.handle steady Action.mark).1.run steady (Body.retreat _ _ _).run).2
    exact (went (onward.keeps.trans reaches) (onward.complete whole) reaches' whole').1.elim
  · intro ran ran' reaches whole reaches' whole'
    have onward : reached.session.Leads ran.2.session :=
      ((stands.handle steady Action.mark).1.run steady (Body.retreat _ _ _).run).2
    have onward' : reached'.session.Leads ran'.2.session :=
      ((stands'.handle steady' Action.mark).1.run steady' (rest found' reached'.marks.size).run).2
    rcases went (onward.keeps.trans reaches) (onward.complete whole) (onward'.keeps.trans reaches')
      (onward'.complete whole') with ⟨same, abreast⟩
    have isMark : reached'.marks.size = reached.marks.size := congrArg Array.size abreast.marks.symm
    simp only [ran', isMark] at reaches' whole' ⊢
    exact abreast.retreat steady keeps transparent (restAlike found found' _ same) (unmarking _ _)
      reaches whole reaches' whole'

end Attempts

end Frame

/-! ## Invocations -/

namespace Tree

variable {κ : Type} {one other third : Store} {adopted : List (Tree α κ)} {tree tree' shared : Tree α κ}

/-- The tree with other skip values at its root. -/
def withSkips (tree : Tree α κ) (before after : List κ) : Tree α κ :=
  .node tree.label tree.children { tree.origin with before, after }

/-- The trees match, but the first one has the skip values of further nodes among its own. -/
def MatchesBut (one other : Store) (adopted : List (Tree α κ)) (tree tree' : Tree α κ) : Prop :=
  ∃ early late earlyAfter lateAfter,
    tree.origin.before = early ++ skipsBefore adopted ++ late ∧
      tree.origin.after = earlyAfter ++ skipsAfter adopted ++ lateAfter ∧
        (tree.withSkips (early ++ late) (earlyAfter ++ lateAfter)).Matches one other tree'

theorem MatchesBut.join (same : tree.MatchesBut one third adopted shared)
    (same' : tree'.Matches other third shared) : tree.MatchesBut one other adopted tree' := by
  rcases same with ⟨early, late, earlyAfter, lateAfter, before, after, same⟩
  exact ⟨early, late, earlyAfter, lateAfter, before, after, same.join same'⟩

theorem MatchesBut.of_nothing (same : tree.MatchesBut one other [] tree') :
    tree.Matches one other tree' := by
  rcases same with ⟨early, late, earlyAfter, lateAfter, before, after, same⟩
  simp only [skipsBefore, skipsAfter, List.flatMap_nil, List.append_nil] at before after
  rw [← before, ← after] at same
  cases tree
  exact same

end Tree

namespace Parser

variable {parser : Parser V} {alike : StateRelation V} {further further' : Descent V}
  {session plain : Session V} {start : Position}

/-- The parser with one body for all rules. -/
def withBody (parser : Parser V) (body : Body V (Content V.Label V.Skip)) : Parser V :=
  { parser with grammar := { parser.grammar with body := fun _ _ => body } }

/-- Answer an invocation by running a given body. -/
def answer (parser : Parser V) (descend : Descent V) (body : Body V (Content V.Label V.Skip)) :
    Descent V :=
  (parser.withBody body).execute (some descend)

section WithBody

variable (parser : Parser V) (body : Body V (Content V.Label V.Skip))

theorem withBody_body (rule : V.Rule) (state : V.State) :
    (parser.withBody body).grammar.body rule state = body :=
  rfl

theorem withBody_skips : (parser.withBody body).grammar.skips = parser.grammar.skips := rfl

theorem withBody_stateKey (state : V.State) :
    (parser.withBody body).grammar.stateKey state = parser.grammar.stateKey state :=
  rfl

theorem withBody_conclude (rule : V.Rule) :
    (parser.withBody body).conclude rule = parser.conclude rule := by
  funext ran
  rcases ran with ⟨(_ | _ | _) | _, reached⟩ <;> rfl

end WithBody

/-- An invocation for which no node was kept is answered by running the body of its rule. -/
theorem execute_eq_answer (parser : Parser V) (descend : Descent V) (rule : V.Rule) (state : V.State)
    (start : Position) (session : Session V) :
    parser.execute (some descend) rule state start session =
      parser.answer descend (parser.grammar.body rule state) rule state start session := by
  simp only [answer, execute, runRule_some, withBody_body, withBody_skips, withBody_stateKey,
    withBody_conclude]

/-- The frame that a body begins with. -/
def begun (parser : Parser V) (start : Position) (session : Session V) : Frame V :=
  { session
    place := (Token.skipFrom parser.grammar.skips (session.store.buffer start.buffer) start.place).2 }

theorem abreast_begun (parser : Parser V) (beside : session.Beside plain)
    (reliable : session.Reliable parser alike) (starts : session.store.Rests start) :
    (parser.begun start session).Abreast (parser.begun start plain) start.buffer parser alike := by
  have leading := Token.skipFrom_preserves (beside.seated.sound start.buffer).formed.rests_reading
    parser.grammar.skips starts
  have same := (beside.trees start.buffer).skipFrom parser.grammar.skips start.place
  have rests' := Frame.rests_begin beside.seated' ((beside.trees start.buffer).rests leading)
  rw [← same] at rests'
  exact ⟨Frame.rests_begin beside.seated leading, rests', beside.trees, reliable.faithful,
    reliable.whole, congrArg Prod.snd same.symm, rfl, rfl, rfl⟩

theorem conclude_of_complete {rule : V.Rule} {ran : Except Stop (Content V.Label V.Skip) × Frame V}
    (complete : (parser.conclude rule ran).2.session.Complete) : (parser.conclude rule ran).2 = ran.2 := by
  rcases ran with ⟨stop | content, reached⟩
  · by_cases isEndless : stop = .endless
    · have ends := complete.ends
      simp only [conclude, Frame.noteStop, if_pos isEndless] at ends
      cases ends
    · simp only [conclude, Frame.noteStop, if_neg isEndless]
  · rfl

/-- What an invocation with a given body comes to. -/
theorem answer_spec (parser : Parser V) (steady : further.Steady) (seated : session.Seated)
    (starts : session.store.Rests start) (body : Body V (Content V.Label V.Skip)) (rule : V.Rule)
    (state : V.State) :
    let leading := Token.skipFrom parser.grammar.skips (session.store.buffer start.buffer) start.place
    let ran := parser.conclude rule
      ((Frame.runner start.buffer further).run body (parser.begun start session))
    let trailing :=
      Token.skipFrom parser.grammar.skips (ran.2.session.store.buffer start.buffer) ran.2.place
    let reply := parser.answer further body rule state start session
    reply.1.2 = ⟨start.buffer, trailing.2⟩ ∧
      ran.2.session.Enters reply.2 rule (parser.grammar.stateKey state) reply.1.1 start reply.1.2 ran.1
        (leading.1 ++ ran.2.before) (ran.2.after ++ trailing.1) := by
  have only : ∀ other, some further = some other → other.Steady := by
    rintro _ ⟨⟩
    exact steady
  have spec := (parser.withBody body).execute_spec only rule state seated starts
  simp only [runRule_some, withBody_body, withBody_skips, withBody_stateKey, withBody_conclude] at spec
  rcases spec with ⟨stops, _, _, _, kept, enters, becomes⟩
  have isKept : (parser.answer further body rule state start session).2 = kept := becomes
  simp only
  rw [isKept]
  refine ⟨stops, ?_⟩
  rw [answer, stops]
  exact enters

/-- If two bodies end abreast but for what the first one has adopted, then the nodes made of them
match but for that. -/
theorem answer_matchesBut (parser : Parser V) {adopted : List V.Node}
    {body body' : Body V (Content V.Label V.Skip)} (steady : further.Steady) (steady' : further'.Steady)
    (beside : session.Beside plain) (starts : session.store.Rests start) (rule : V.Rule) (state : V.State)
    (ends : ∀ one other,
      let ran := (Frame.runner start.buffer further).run body (parser.begun start session)
      let ran' := (Frame.runner start.buffer further').run body' (parser.begun start plain)
      ran.2.session.store.Keeps one → ran.2.session.Complete → ran'.2.session.store.Keeps other →
        ran'.2.session.Complete →
          SameResult (Content.Alike (Tree.Matches one other)) ran.1 ran'.1 ∧
            ran.2.AbreastBut ran'.2 adopted start.buffer parser alike) :
    let reply := parser.answer further body rule state start session
    let reply' := parser.answer further' body' rule state start plain
    reply.2.Complete → reply'.2.Complete →
      reply.1.1.MatchesBut reply.2.store reply'.2.store adopted reply'.1.1 ∧ reply.1.2 = reply'.1.2 := by
  have spec := parser.answer_spec steady beside.seated starts body rule state
  have spec' := parser.answer_spec steady' beside.seated' (beside.trees.rests starts) body' rule state
  simp only at spec spec' ⊢
  rw [(beside.trees start.buffer).skipFrom] at spec'
  generalize parser.answer further body rule state start session = reply at spec ⊢
  generalize parser.answer further' body' rule state start plain = reply' at spec' ⊢
  generalize (Frame.runner start.buffer further).run body _ = ran at spec ends
  generalize (Frame.runner start.buffer further').run body' _ = ran' at spec' ends
  rcases spec with ⟨stops, enters⟩
  rcases spec' with ⟨stops', enters'⟩
  intro whole whole'
  have concluded := conclude_of_complete ⟨enters.endless ▸ whole.ends, enters.refused ▸ whole.ran⟩
  have concluded' := conclude_of_complete ⟨enters'.endless ▸ whole'.ends, enters'.refused ▸ whole'.ran⟩
  rw [concluded] at stops enters
  rw [concluded'] at stops' enters'
  rcases ends reply.2.store reply'.2.store enters.keeps
    ⟨enters.endless ▸ whole.ends, enters.refused ▸ whole.ran⟩ enters'.keeps
    ⟨enters'.endless ▸ whole'.ends, enters'.refused ▸ whole'.ran⟩ with
    ⟨same, early, late, earlyAfter, lateAfter, before, after, abreast⟩
  have isPlace : ran.2.place = ran'.2.place := abreast.place
  have trailed : Token.skipFrom parser.grammar.skips (ran'.2.session.store.buffer start.buffer)
        ran.2.place =
      Token.skipFrom parser.grammar.skips (ran.2.session.store.buffer start.buffer) ran.2.place :=
    (abreast.trees start.buffer).skipFrom parser.grammar.skips ran.2.place
  rw [← isPlace, trailed] at stops' enters'
  generalize Token.skipFrom parser.grammar.skips _ start.place = leading at enters enters'
  generalize Token.skipFrom parser.grammar.skips _ ran.2.place = trailing at stops stops' enters enters'
  have isStop : reply.1.2 = reply'.1.2 := stops.trans stops'.symm
  rw [← isStop] at enters'
  rcases enters.resembles enters' abreast.trees (Store.Keeps.refl _) (Store.Keeps.refl _)
    (parser.conclude_alike rule same) with ⟨label, atStart, atStop, length, children⟩
  refine ⟨⟨leading.1 ++ early, late, earlyAfter, lateAfter ++ trailing.1, ?_, ?_, ?_⟩, isStop⟩
  · rw [enters.skips.1, before]
    simp only [List.append_assoc]
  · rw [enters.skips.2, after]
    simp only [List.append_assoc]
  · refine Tree.matches_iff.mpr ⟨label, ⟨atStart, atStop, length, ?_, ?_⟩, children⟩
    · rw [enters'.skips.1, ← abreast.before]
      simp only [Tree.withSkips, Tree.origin, List.append_assoc]
    · rw [enters'.skips.2, ← abreast.after]
      simp only [Tree.withSkips, Tree.origin, List.append_assoc]

section Backtracking

variable {answers : (V.Node → V.Node → Prop) → α → α → Prop} {first : Body V α}
  {abandoned : α → Nat → Program (Action V) γ} {rest : α → Nat → Body V (Content V.Label V.Skip)}

/-- A body makes an attempt and goes back on it.  Its node is the one that it would have made without
the attempt, in the same place, except that the skip values of the nodes adopted in the attempt are
among its own.  So it is if both invocations are complete, and if some parser that keeps no nodes
completes the second one. -/
theorem backtracking_leaves_adopted_skips (discreet : parser.grammar.Discreet alike)
    (parts : Body.DiscreetParts alike answers first rest)
    (unmarking : ∀ found mark, (abandoned found mark).Only Action.Unmarking)
    (beside : session.Beside plain) (reliable : session.Reliable parser alike)
    (starts : session.store.Rests start) (isStale : Range → Bool) (nesting depth : Nat) (rule : V.Rule)
    (state : V.State) :
    let further := parser.invoke isStale nesting
    let whole := parser.answer further (Body.backtracking first abandoned rest) rule state start session
    let spared := parser.answer further (Body.remembering first rest) rule state start session
    let fresh :=
      parser.answer (parser.recompute depth) (Body.remembering first rest) rule state start plain
    let adopted := Frame.adoptedInVain start.buffer further first abandoned (parser.begun start session)
    whole.2.Complete → spared.2.Complete → fresh.2.Complete →
      whole.1.1.MatchesBut whole.2.store spared.2.store adopted spared.1.1 ∧
        whole.1.2 = spared.1.2 := by
  have steady := parser.invoke_steady isStale nesting
  have steady' := parser.recompute_steady depth
  rcases parser.invoke_transparent discreet isStale nesting with ⟨keeps, transparent⟩
  have transparently := (transparent depth).imp fun _ => trivial
  simp only
  generalize parser.invoke isStale nesting = further at steady keeps transparently ⊢
  have abreast := parser.abreast_begun beside reliable starts
  -- Both invocations are compared with the one of a parser that keeps no nodes.
  have whole := parser.answer_matchesBut steady steady' beside starts rule state fun one other =>
    have corresponds := corresponds_matches one other
    abreast.backtracking steady keeps transparently (parts.first _ corresponds)
      (parts.rest _ corresponds) unmarking
  have spared := parser.answer_matchesBut steady steady' beside starts rule state
    fun one other reaches complete reaches' complete' =>
      (abreast.run steady keeps transparently (parts.remembering (corresponds_matches one other)) reaches
        complete reaches' complete').imp_right Frame.Abreast.but_nothing
  simp only at whole spared
  generalize parser.answer further (Body.remembering first rest) rule state start session = sparing
    at spared ⊢
  generalize parser.answer (parser.recompute depth) _ rule state start plain = fresh at whole spared ⊢
  generalize parser.answer further _ rule state start session = trying at whole ⊢
  intro isWhole isSpared isFresh
  rcases whole isWhole isFresh with ⟨matchesBut, stops⟩
  rcases spared isSpared isFresh with ⟨same, stops'⟩
  exact ⟨matchesBut.join same.of_nothing, stops.trans stops'.symm⟩

/-- An attempt that adopts no nodes leaves no trace in the node. -/
theorem backtracking_leaves_no_trace (discreet : parser.grammar.Discreet alike)
    (parts : Body.DiscreetParts alike answers first rest)
    (unmarking : ∀ found mark, (abandoned found mark).Only Action.Unmarking)
    (unadopting : ∀ found mark, (abandoned found mark).Only fun action => action.adopted = [])
    (beside : session.Beside plain) (reliable : session.Reliable parser alike)
    (starts : session.store.Rests start) (isStale : Range → Bool) (nesting depth : Nat) (rule : V.Rule)
    (state : V.State) :
    let further := parser.invoke isStale nesting
    let whole := parser.answer further (Body.backtracking first abandoned rest) rule state start session
    let spared := parser.answer further (Body.remembering first rest) rule state start session
    let fresh :=
      parser.answer (parser.recompute depth) (Body.remembering first rest) rule state start plain
    whole.2.Complete → spared.2.Complete → fresh.2.Complete →
      whole.1.1.Matches whole.2.store spared.2.store spared.1.1 ∧ whole.1.2 = spared.1.2 := by
  have leaves := backtracking_leaves_adopted_skips discreet parts unmarking beside reliable starts isStale
    nesting depth rule state
  have none : Frame.adoptedInVain start.buffer (parser.invoke isStale nesting) first abandoned
      (parser.begun start session) = [] := by
    rw [Frame.adoptedInVain]
    split
    · exact Frame.adoptions_of_only (unadopting _ _) _
    · rfl
  simp only at leaves ⊢
  rw [none] at leaves
  generalize parser.answer (parser.invoke isStale nesting) (Body.backtracking first abandoned rest) rule
    state start session = trying at leaves ⊢
  generalize parser.answer (parser.invoke isStale nesting) (Body.remembering first rest) rule state start
    session = sparing at leaves ⊢
  intro isWhole isSpared isFresh
  rcases leaves isWhole isSpared isFresh with ⟨matchesBut, stops⟩
  exact ⟨matchesBut.of_nothing, stops⟩

end Backtracking

/-- An item is parsed and adopted in an attempt, and again after going back.  The space behind the
item is then among the skip values of the node twice. -/
theorem backtracking_leaves_space_twice :
    let parser : Parser Words.vocabulary := { grammar := Words.grammar }
    let session : Session Words.vocabulary := { store := (Desk.run [.newRope "a "]).store }
    let start : Position := ⟨0, ⟨0, 0⟩⟩
    let adopting : Words.RuleBody := do Body.adopt (← Body.parse (V := Words.vocabulary) .item ())
    let first : Body Words.vocabulary Unit := pure ()
    let further := parser.invoke (fun _ => false) 1
    let whole := parser.answer further
      (Body.backtracking first (fun _ _ => adopting.run) fun _ _ => adopting) .items () start session
    let spared := parser.answer further (Body.remembering first fun _ _ => adopting) .items () start session
    let adopted := Frame.adoptedInVain 0 further first (fun _ _ => adopting.run) (parser.begun start session)
    whole.1.1.origin.after = [' ', ' '] ∧ spared.1.1.origin.after = [' '] ∧
      Tree.skipsAfter adopted = [' '] ∧
      whole.1.1.MatchesBut whole.2.store spared.2.store adopted spared.1.1 := by
  intro parser session start adopting first further whole spared adopted
  refine ⟨by decide +kernel, by decide +kernel, by decide +kernel, ?_⟩
  have adoptingAlike : ∀ nodes, Corresponds (V := Words.vocabulary) nodes →
      Body.Alike nodes (Words.StatesAlike nodes) (Content.Alike nodes) adopting adopting :=
    fun nodes corresponds => Body.alike_bind (Body.alike_parse (V := Words.vocabulary) .item trivial)
      fun _ _ same => Body.alike_adopt corresponds same
  have parts : Body.DiscreetParts Words.StatesAlike (fun _ => Eq) first fun _ _ => adopting :=
    ⟨fun _ _ => Body.alike_pure rfl, fun nodes corresponds _ _ _ _ => adoptingAlike nodes corresponds⟩
  have unmarking : adopting.run.Only Action.Unmarking := by
    refine ⟨⟨trivial, fun _ => trivial⟩, ?_⟩
    rintro (stop | node)
    · exact trivial
    · exact ⟨⟨trivial, fun _ => trivial⟩, fun answer => by cases answer <;> exact trivial⟩
  have begins : Tandem parser Words.StatesAlike session session := .start [.newRope "a "]
  have reliable := begins.reliable Words.discreet ⟨rfl, rfl⟩
  have starts : session.store.Rests start :=
    ⟨⟨"a ".toList.toArray, by rfl, by decide⟩, by unfold Buffer.Settled; decide +kernel⟩
  have wholeEnds : whole.2.Complete := ⟨by decide +kernel, by decide +kernel⟩
  have sparedEnds : spared.2.Complete := ⟨by decide +kernel, by decide +kernel⟩
  with_reducible exact (backtracking_leaves_adopted_skips Words.discreet parts (fun _ _ => unmarking)
    begins.beside reliable starts (fun _ => false) 1 1 .items () wholeEnds sparedEnds
    ⟨by decide +kernel, by decide +kernel⟩).1

end Parser

end Reparse
