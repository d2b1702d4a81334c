import Reparse.Proofs.Languages.Words.Rules
import Reparse.Proofs.Languages.Words.Visits

namespace Reparse

/-!
# What a parse of a list of words does to its session

A parse looks for a node that was kept, and makes one if there is none.  Before it makes the
node it does the same for the tasks that the rule leads to.  This is told here as a relation of
the session before a task and the session after it.  It has a case for each way to go on, so
what a parse leaves in the memos can be shown by induction.

Each invocation that does not refuse a body is such a run.
-/

namespace Words

/-- A task at an index takes a session to another one. -/
inductive Runs (site : Site) (isStale : Range → Bool) :
    Task → Nat → Session vocabulary → Session vocabulary → Prop where
  /-- A node is used again. -/
  | found {rule : Rule} {index : Nat} {place : Place} {node : Node} {stop : Position}
      {session after : Session vocabulary} (stands : site.shape.Stands place index)
      (reuses : session.reuse rule (grammar.stateKey ()) ⟨site.rope.buffer, place⟩ isStale =
        (some (node, stop), after))
      (derives : Derives (.node rule) (site.rest index) node.outline)
      (buffer : stop.buffer = site.rope.buffer)
      (stops : site.shape.Stands stop.place (index + node.length)) :
      Runs site isStale (.node rule) index session after
  /-- A node is made and kept. -/
  | made {rule : Rule} {index : Nat} {place last : Place} {outline : Outline Label}
      {session searched reached : Session vocabulary} (stands : site.shape.Stands place index)
      (misses : session.reuse rule (grammar.stateKey ()) ⟨site.rope.buffer, place⟩ isStale =
        (none, searched))
      (body : Runs site isStale (.body rule) (index + blanks (site.rest index)) searched reached)
      (derives : Derives (.node rule) (site.rest index) outline)
      (stops : site.shape.Stands last (index + outline.length))
      (content : Content Label Char) (before skipped : List Char) :
      Runs site isStale (.node rule) index session
        (reached.keep rule (grammar.stateKey ()) ⟨site.rope.buffer, place⟩
          ⟨site.rope.buffer, last⟩ content before skipped).2
  | closes {index : Nat} {session : Session vocabulary} (closes : Closes (site.rest index)) :
      Runs site isStale (.body .items) index session session
  | stuck {index : Nat} {item : Outline Label} {session after : Session vocabulary}
      (goesOn : ¬Closes (site.rest index))
      (first : Derives (.node .item) (site.rest index) item) (empty : item.length = 0)
      (runs : Runs site isStale (.node .item) index session after) :
      Runs site isStale (.body .items) index session after
  | further {index : Nat} {item : Outline Label} {session between after : Session vocabulary}
      (goesOn : ¬Closes (site.rest index))
      (first : Derives (.node .item) (site.rest index) item) (some : item.length ≠ 0)
      (runs : Runs site isStale (.node .item) index session between)
      (more : Runs site isStale (.body .items) (index + item.length) between after) :
      Runs site isStale (.body .items) index session after
  | bracket {index : Nat} {session after : Session vocabulary}
      (opens : opening (site.rest index) = .bracket)
      (runs : Runs site isStale (.node .items) (index + 1) session after) :
      Runs site isStale (.body .item) index session after
  | plain {index : Nat} {session : Session vocabulary} (opens : opening (site.rest index) ≠ .bracket) :
      Runs site isStale (.body .item) index session session

/-- Invocations find what is derived, and are runs. -/
structure Walks (margin : Nat) (wide : 1 ≤ margin) (site : Site) (isStale : Range → Bool)
    (descend : Descent vocabulary) : Prop where
  descends : (findings margin wide).Descends site descend
  runs : ∀ {known place index session} (rule), (findings margin wide).Tells site session known →
    site.shape.Stands place index →
    let reply := descend rule () ⟨site.rope.buffer, place⟩ session
    reply.2.refused ≠ [] ∨ Runs site isStale (.node rule) index session reply.2

/-- A body has run from the session that it began with. -/
def Ran (site : Site) (isStale : Range → Bool) (task : Task) (index : Nat)
    (session : Session vocabulary) (_ : Except Stop (Content Label Char))
    (frame : Frame vocabulary) : Prop :=
  Runs site isStale task index session frame.session

variable {margin : Nat} {wide : 1 ≤ margin} {site : Site} {isStale : Range → Bool}
  {known : Known vocabulary} {frame : Frame vocabulary} {index : Nat} {rule : Rule} {place : Place}
  {session : Session vocabulary} {descend : Descent vocabulary}

/-- A rule is invoked in a body. -/
theorem Walks.yields_parse {α : Type} (walks : Walks margin wide site isStale descend)
    (reaches : (findings margin wide).Reaches site frame index known)
    {next : Node → Body vocabulary α} {post : Except Stop α → Frame vocabulary → Prop}
    (holds : ∀ node session place more,
      (findings margin wide).Finds site rule index node ⟨site.rope.buffer, place⟩ session more →
      Runs site isStale (.node rule) index frame.session session →
      Frame.Yields { frame with session, place } site.rope.buffer descend (next node) post) :
    frame.Yields site.rope.buffer descend (Body.parse rule () >>= next) post := by
  have asks : (findings margin wide).Asks known rule () rule := rfl
  have answers := walks.descends.finds reaches.tells asks (registered known) trivial reaches.stands
  have runs := walks.runs rule reaches.tells reaches.stands
  refine Frame.yields_parse walks.descends.keeps ?_
  rcases answers with refused | ⟨more, _, finds⟩
  · exact Or.inl refused
  · rcases runs with refused | runs
    · exact Or.inl refused
    · generalize descend rule () ⟨site.rope.buffer, frame.place⟩ frame.session = reply
        at finds runs ⊢
      rcases reply with ⟨⟨node, ⟨buffer, place⟩⟩, session⟩
      cases finds.buffer
      exact Or.inr (holds node session place more finds runs)

/-! ## Bodies -/

/-- A token that is no bracket leaves the session as it is. -/
theorem yields_plain {α : Type} (keeps : descend.KeepsRefused)
    (reaches : (findings margin wide).Reaches site frame index known)
    (opens : opening (site.rest index) ≠ .bracket) (token : Token α) {next : α → RuleBody}
    (holds : ∀ (frame : Frame vocabulary) value, Frame.Yields frame site.rope.buffer descend
      (next value) fun _ last => last.session = frame.session) :
    frame.Yields site.rope.buffer descend (Body.lex token >>= next)
      (Ran site isStale (.body .item) index frame.session) := by
  refine Frame.yields_lex keeps reaches.current reaches.stands ?_
  cases token.read site.shape.text index with
  | error error => exact .plain opens
  | ok answer =>
      intro place stands
      refine Program.Yields.imp (holds { frame with place } answer.1) fun result last same => ?_
      rw [Ran, same]
      exact .plain opens

/-- A list in brackets is run behind the bracket. -/
theorem ran_brackets (walks : Walks margin wide site isStale descend)
    (reaches : (findings margin wide).Reaches site frame index known)
    (bracket : (site.rest index).head? = some '[') :
    frame.Yields site.rope.buffer descend
      (do
        let _ ← Body.lex (symbol '[')
        let inner ← Body.parse .items ()
        let _ ← Body.lex (symbol ']')
        Body.adopt inner)
      (Ran site isStale (.body .item) index frame.session) := by
  have keeps := walks.descends.keeps
  have opens : opening (site.rest index) = .bracket := if_pos bracket
  refine reaches.yields_lex_exactly keeps (fun _ place inside => ?_) (absurd bracket)
  refine walks.yields_parse inside fun inner session place more finds runs => ?_
  have behind : (findings margin wide).Reaches site { frame with session, place }
      (index + 1 + inner.length) more := ⟨finds.tells, finds.stands⟩
  have ran : Runs site isStale (.body .item) index frame.session session := .bracket opens runs
  refine behind.yields_lex_exactly keeps (fun closing place closed => ?_) fun noClosing => ran
  exact Frame.yields_adopt fun before after => ran

theorem ran_item (walks : Walks margin wide site isStale descend)
    (reaches : (findings margin wide).Reaches site frame index known) :
    frame.Yields site.rope.buffer descend item
      (Ran site isStale (.body .item) index frame.session) := by
  have keeps := walks.descends.keeps
  refine reaches.yields_isNext_exactly keeps (ran_brackets walks reaches) fun noBracket => ?_
  have opens : opening (site.rest index) ≠ .bracket := by
    intro bracket
    have first := head?_of_opening (site.rest index)
    rw [bracket] at first
    exact noBracket first
  refine reaches.yields_isNext_exactly keeps (fun sign => ?_) fun noSign => ?_
  · exact yields_plain keeps reaches opens tag fun frame value => Program.yields_pure rfl
  refine reaches.yields_isNext_exactly keeps (fun bang => ?_) fun noBang => ?_
  · exact yields_plain keeps reaches opens _ fun frame value => Program.yields_throw rfl
  refine reaches.yields_isNext_exactly keeps (fun question => ?_) fun noQuestion => ?_
  · exact yields_plain keeps reaches opens _ fun frame value => Frame.yields_giveUp rfl
  · exact yields_plain keeps reaches opens word fun frame value => Program.yields_pure rfl

/-- The loop over a list has come to an index.  What is run from there on completes the run. -/
structure Resumes (margin : Nat) (wide : 1 ≤ margin) (site : Site) (isStale : Range → Bool)
    (start : Nat) (session : Session vocabulary) (frame : Frame vocabulary) (here : Nat) : Prop where
  reaches : ∃ known, (findings margin wide).Reaches site frame here known
  completes : ∀ after, Runs site isStale (.body .items) here frame.session after →
    Runs site isStale (.body .items) start session after

theorem ran_items (walks : Walks margin wide site isStale descend)
    (reaches : (findings margin wide).Reaches site frame index known) :
    frame.Yields site.rope.buffer descend items
      (Ran site isStale (.body .items) index frame.session) := by
  have keeps := walks.descends.keeps
  refine Frame.yields_bind keeps (Frame.yields_loop keeps
    (fun (_ : List Node) last measure => ∃ here,
      Resumes margin wide site isStale index frame.session last here ∧
        measure = site.shape.text.length - here)
    ?_ ⟨index, ⟨⟨known, reaches⟩, fun _ runs => runs⟩, rfl⟩ reaches.lt_rounds)
  rintro found last measure ⟨here, ⟨⟨more, reaches⟩, completes⟩, rfl⟩
  have finishes : ∀ {all : List Node} {last : Frame vocabulary},
      Runs site isStale (.body .items) index frame.session last.session →
      last.Yields site.rope.buffer descend (pure ⟨.group, all.reverse⟩ : RuleBody)
        (Ran site isStale (.body .items) index frame.session) := fun runs => Program.yields_pure runs
  refine Frame.yields_atEnd keeps reaches.current reaches.stands ?_
  rw [← Site.head?_rest]
  cases first : (site.rest here).head? with
  | none => exact Program.yields_pure (finishes (completes _ (.closes (Or.inl first))))
  | some char =>
      refine reaches.yields_isNext_exactly keeps (fun closing => ?_) fun noClosing => ?_
      · exact Program.yields_pure (finishes (completes _ (.closes (Or.inr closing))))
      have goesOn : ¬Closes (site.rest here) := by
        rintro (ended | closing)
        · cases first.symm.trans ended
        · exact noClosing closing
      refine walks.yields_parse reaches fun next session place further finds runs => ?_
      have item : Derives (.node .item) (site.rest here) next.outline := finds.whole
      have within := finds.stands.means.le_length
      refine Program.yields_pure ?_
      by_cases empty : next.length = 0
      · rw [empty, bne_self_eq_false]
        exact finishes (completes _ (.stuck goesOn item (next.outline_length.trans empty) runs))
      · rw [bne_iff_ne.mpr empty]
        refine ⟨site.shape.text.length - (here + next.length), by omega, here + next.length,
          ⟨⟨further, finds.tells, finds.stands⟩, fun after rest => ?_⟩, rfl⟩
        rw [← next.outline_length] at empty rest
        exact completes after (.further goesOn item empty runs rest)

theorem ran_body (walks : Walks margin wide site isStale descend) (rule : Rule)
    (reaches : (findings margin wide).Reaches site frame index known) :
    frame.Yields site.rope.buffer descend (grammar.body rule ())
      (Ran site isStale (.body rule) index frame.session) := by
  cases rule with
  | items => exact ran_items walks reaches
  | item => exact ran_item walks reaches

/-! ## Invocations -/

/-- A body that is run finds what is derived, and is a run. -/
theorem Walks.runRule (walks : Walks margin wide site isStale descend) (config : Config)
    (rule : Rule) (reaches : (findings margin wide).Reaches site frame
      (grammar.skipEnd site.shape.text index) known) :
    let outcome := (⟨grammar, config⟩ : Parser vocabulary).runRule (some descend) rule ()
      site.rope.buffer frame
    outcome.2.session.refused ≠ [] ∨
      Runs site isStale (.body rule) (index + blanks (site.rest index)) frame.session
          outcome.2.session ∧
        ∃ more length, (findings margin wide).Reaches site outcome.2
            (grammar.skipEnd site.shape.text index + length) more ∧
          (findings margin wide).Inner rule site.shape.text (grammar.skipEnd site.shape.text index)
            ⟨outcome.1.label, length, Tree.outlines outcome.1.children⟩ := by
  have asks : (findings margin wide).Asks known rule () rule := rfl
  have sound := Findings.Sound.runRule (findings_sound margin wide) walks.descends config asks
    (registered known) trivial reaches
  have yields := ran_body walks rule reaches
  rw [skipEnd_eq] at yields
  simp only [Frame.Yields, Program.Yields] at yields
  simp only [Parser.runRule, Frame.run] at sound ⊢
  generalize Program.run (Frame.handle site.rope.buffer descend) (Frame.rounds site.rope.buffer)
    (grammar.body rule ()).run frame = outcome at yields sound ⊢
  rcases outcome with ⟨stop | content, last⟩
  · simp only at yields sound ⊢
    rcases sound with refused | ⟨more, length, _, reached, inner⟩
    · exact Or.inl refused
    · rcases yields with refused | ran
      · exact Or.inl (by rw [Frame.refused_noteStop]; exact refused)
      · have ends : last.noteStop stop = last := by
          rw [Frame.noteStop]
          split
          · next endless =>
              have noted := reached.tells.ends
              rw [Frame.noteStop, if_pos endless] at noted
              cases noted
          · rfl
        rw [ends] at reached ⊢
        exact Or.inr ⟨ran, more, length, reached, inner⟩
  · rcases sound with refused | ⟨more, length, _, reached, inner⟩
    · exact Or.inl refused
    · exact yields.imp_right fun ran => ⟨ran, more, length, reached, inner⟩

/-- A node that is made is kept at the end of a run. -/
theorem Walks.execute (walks : Walks margin wide site isStale descend) (config : Config)
    {searched : Session vocabulary} (tells : (findings margin wide).Tells site searched known)
    (stands : site.shape.Stands place index)
    (misses : session.reuse rule (grammar.stateKey ()) ⟨site.rope.buffer, place⟩ isStale =
      (none, searched)) :
    let reply := (⟨grammar, config⟩ : Parser vocabulary).execute (some descend) rule ()
      ⟨site.rope.buffer, place⟩ searched
    reply.2.refused ≠ [] ∨ Runs site isStale (.node rule) index session reply.2 := by
  have leading := tells.skips stands
  simp only [Parser.execute, Option.isNone_some, Bool.false_eq_true, if_false]
  generalize Token.skipFrom grammar.skips (searched.store.buffer site.rope.buffer) place = skipped
    at leading ⊢
  rcases skipped with ⟨before, first⟩
  have begins : (findings margin wide).Reaches site { session := searched, place := first }
      (grammar.skipEnd site.shape.text index) known := ⟨tells, leading⟩
  have ran := walks.runRule config rule begins
  simp only at ran ⊢
  generalize (⟨grammar, config⟩ : Parser vocabulary).runRule (some descend) rule ()
    site.rope.buffer { session := searched, place := first } = outcome at ran ⊢
  rcases outcome with ⟨content, ⟨reached, last, taken, following, marks⟩⟩
  rcases ran with refused | ⟨ran, more, length, reaches, inner⟩
  · rw [Session.refused_keep]
    exact Or.inl refused
  · refine Or.inr ?_
    have trailing := reaches.tells.skips reaches.stands
    simp only at trailing ⊢
    generalize Token.skipFrom grammar.skips (reached.store.buffer site.rope.buffer) last = skipped
      at trailing ⊢
    rcases skipped with ⟨after, stop⟩
    have whole := (findings margin wide).whole_of_inner inner
    have ahead : index ≤ grammar.skipEnd site.shape.text
        (grammar.skipEnd site.shape.text index + length) :=
      Nat.le_trans (Nat.le_add_right_of_le ((findings margin wide).skips_forward _ _))
        ((findings margin wide).skips_forward _ _)
    rw [← Nat.add_sub_cancel' ahead] at trailing
    exact .made stands misses ran whole trailing content (before ++ taken) (following ++ after)

theorem Walks.visit (config : Config) {descend : Option (Descent vocabulary)}
    (walks : ∀ further, descend = some further → Walks margin wide site isStale further)
    (tells : (findings margin wide).Tells site session known)
    (stands : site.shape.Stands place index) :
    let reply := (⟨grammar, config⟩ : Parser vocabulary).visit isStale descend rule ()
      ⟨site.rope.buffer, place⟩ session
    reply.2.refused ≠ [] ∨ Runs site isStale (.node rule) index session reply.2 := by
  have asks : (findings margin wide).Asks known rule () rule := rfl
  rcases tells.reuse asks stands isStale with ⟨searched, found⟩
  simp only [Parser.visit]
  generalize outcome : session.reuse rule (grammar.stateKey ()) ⟨site.rope.buffer, place⟩ isStale =
    answer at searched found ⊢
  rcases answer with ⟨_ | ⟨node, stop⟩, after⟩
  · simp only at searched ⊢
    cases descend with
    | none => exact Or.inl ((⟨grammar, config⟩ : Parser vocabulary).execute_none rule () _ after)
    | some further => exact (walks further rfl).execute config searched stands outcome
  · have finds := found node stop rfl
    exact Or.inr (.found stands outcome finds.whole finds.buffer finds.stands)

/-- Invocations are runs, to any depth. -/
theorem walks_invoke (wide : 1 ≤ margin) (site : Site) (isStale : Range → Bool) (config : Config)
    (depth : Nat) :
    Walks margin wide site isStale ((⟨grammar, config⟩ : Parser vocabulary).invoke isStale depth) := by
  have sound : (findings margin wide).Sound := findings_sound margin wide
  induction depth with
  | zero =>
      refine ⟨sound.descends_invoke site config isStale 0, ?_⟩
      intro known place index session rule tells stands
      exact Walks.visit config (fun _ impossible => by cases impossible) tells stands
  | succ depth inductionHypothesis =>
      refine ⟨sound.descends_invoke site config isStale (depth + 1), ?_⟩
      intro known place index session rule tells stands
      refine Walks.visit config (fun further same => ?_) tells stands
      cases same
      exact inductionHypothesis

end Words

end Reparse
