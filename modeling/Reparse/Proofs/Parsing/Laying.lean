import Reparse.Proofs.Parsing.Rows

namespace Reparse

/-!
# Rules that lay their nodes in rows

The body of a rule may put any nodes into its content.  Where it puts the nodes of its own
invocations there, in the order in which it made them and with nothing consumed between them,
the content is a row, and the node that is made of it has its children in a row.  This is asked
of each body of a grammar, given that the invocations in it lay their nodes so.  Then it holds of
every invocation, whether its body is run or a node was kept for it.
-/

variable {V : Vocabulary} {grammar : Grammar V}

/-- A node was made or used again.  It lies at an index, and all that lay somewhere does so still. -/
structure Session.Lies (session : Session V) (site : Site) (index : Nat) (node : V.Node)
    (after : Session V) : Prop where
  keeps : session.store.Keeps after.store
  lays : after.Lays site
  lies : node.LiesAt (site.Points after.store) index

/-- Only the store that there was before counts. -/
theorem Session.Lies.of_sameStore {session other after : Session V} {site : Site} {index : Nat}
    {node : V.Node} (lies : session.Lies site index node after) (same : session.store = other.store) :
    other.Lies site index node after :=
  ⟨same ▸ lies.keeps, lies.lays, lies.lies⟩

/-- A body that began at an index has made a content that is a row from there on, or has no
children. -/
def Grammar.Rows (grammar : Grammar V) (site : Site) (session : Session V) (rule : V.Rule) (index : Nat)
    (result : Except Stop (Content V.Label V.Skip)) (frame : Frame V) : Prop :=
  session.store.Keeps frame.session.store ∧ frame.session.Lays site ∧
    ((grammar.contentOf rule result).children = [] ∨
      ∃ here front back, site.shape.Stands frame.place here ∧ index ≤ front ∧ back ≤ here ∧
        Tree.LieInRow (site.Points frame.session.store) (grammar.contentOf rule result).children
          front back)

namespace Findings

variable (findings : Findings grammar)

/-- Invocations find what they are asked for, and their nodes lie where they are invoked. -/
structure Places (site : Site) (descend : Descent V) : Prop where
  descends : findings.Descends site descend
  lies : ∀ {known rule state goal place index session}, findings.Tells site session known →
    session.Lays site → findings.Asks known rule state goal → grammar.Registered known state →
    findings.Wanted goal site.shape.text index → site.shape.Stands place index →
    let reply := descend rule state ⟨site.rope.buffer, place⟩ session
    reply.2.refused ≠ [] ∨ session.Lies site index reply.1.1 reply.2

/-- Each body makes a row, if invocations lay their nodes where they are invoked. -/
def Lays : Prop :=
  ∀ {site descend}, findings.Places site descend → ∀ {known frame index rule state goal},
    findings.Asks known rule state goal → grammar.Registered known state →
    findings.Wanted goal site.shape.text index → frame.session.Lays site →
    findings.Reaches site frame (grammar.skipEnd site.shape.text index) known →
    frame.Yields site.rope.buffer descend (grammar.body rule state)
      (grammar.Rows site frame.session rule (grammar.skipEnd site.shape.text index))

variable {findings} {site : Site} {known : Known V} {session : Session V} {frame : Frame V}
  {rule : V.Rule} {state : V.State} {goal : findings.Goal} {place : Place} {index : Nat}
  {descend : Descent V}

/-- Where something was found no body has gone on for ever. -/
theorem Reaches.noteStop {stop : Stop}
    (reaches : findings.Reaches site (frame.noteStop stop) index known) :
    frame.noteStop stop = frame := by
  rw [Frame.noteStop]
  split
  · next endless =>
      have ends := reaches.tells.ends
      rw [Frame.noteStop, if_pos endless] at ends
      cases ends
  · rfl

/-- A rule is invoked in a body. -/
theorem Places.yields_parse {α : Type} (places : findings.Places site descend)
    (reaches : findings.Reaches site frame index known) (lays : frame.session.Lays site)
    (asks : findings.Asks known rule state goal) (registered : grammar.Registered known state)
    (wanted : findings.Wanted goal site.shape.text index) {next : V.Node → Body V α}
    {post : Except Stop α → Frame V → Prop}
    (holds : ∀ node session place more, known.Extends more →
      findings.Finds site goal index node ⟨site.rope.buffer, place⟩ session more →
      frame.session.Lies site index node session →
      Frame.Yields { frame with session, place } site.rope.buffer descend (next node) post) :
    frame.Yields site.rope.buffer descend (Body.parse rule state >>= next) post := by
  have answers := places.descends.finds reaches.tells asks registered wanted reaches.stands
  have lies := places.lies reaches.tells lays asks registered wanted reaches.stands
  refine Frame.yields_parse places.descends.keeps ?_
  rcases answers with refused | ⟨more, grows, finds⟩
  · exact Or.inl refused
  · rcases lies with refused | lies
    · exact Or.inl refused
    · generalize descend rule state ⟨site.rope.buffer, frame.place⟩ frame.session = reply
        at finds lies ⊢
      rcases reply with ⟨⟨node, ⟨buffer, place⟩⟩, session⟩
      cases finds.buffer
      exact Or.inr (holds node session place more grows finds lies)

/-- The row ends where the body does, at the latest. -/
theorem Reaches.row {result : Except Stop (Content V.Label V.Skip)} {length : Nat}
    (reaches : findings.Reaches site frame (index + length) known)
    (rows : grammar.Rows site session rule index result frame) :
    ∃ front back, index ≤ front ∧ back ≤ index + length ∧
      Tree.LieInRow (site.Points frame.session.store) (grammar.contentOf rule result).children
        front back := by
  rcases rows.2.2 with none | ⟨here, front, back, stands, after, before, row⟩
  · rw [none]
    exact ⟨index, index, Nat.le_refl _, Nat.le_add_right _ _, rfl⟩
  · have same : here = index + length :=
      (reaches.current.indexOf stands.means).symm.trans
        (reaches.current.indexOf reaches.stands.means)
    exact ⟨front, back, after, same ▸ before, row⟩

/-! ## Invocations -/

/-- A body that is run finds what it is asked for, and makes a row. -/
theorem Places.runRule (places : findings.Places site descend) (sound : findings.Sound)
    (lays : findings.Lays) (config : Config) (asks : findings.Asks known rule state goal)
    (registered : grammar.Registered known state)
    (wanted : findings.Wanted goal site.shape.text index) (laid : frame.session.Lays site)
    (reaches : findings.Reaches site frame (grammar.skipEnd site.shape.text index) known) :
    let outcome := (⟨grammar, config⟩ : Parser V).runRule (some descend) rule state
      site.rope.buffer frame
    let begins := grammar.skipEnd site.shape.text index
    outcome.2.session.refused ≠ [] ∨ ∃ more length,
      findings.Reaches site outcome.2 (begins + length) more ∧
      frame.session.store.Keeps outcome.2.session.store ∧ outcome.2.session.Lays site ∧
      ∃ front back, begins ≤ front ∧ back ≤ begins + length ∧
        Tree.LieInRow (site.Points outcome.2.session.store) outcome.1.children front back := by
  have found := sound.runRule places.descends config asks registered wanted reaches
  have yields := lays places asks registered wanted laid reaches
  simp only [Frame.Yields, Program.Yields] at yields
  simp only [Parser.runRule, Frame.run] at found ⊢
  generalize Program.run (Frame.handle site.rope.buffer descend) (Frame.rounds site.rope.buffer)
    (grammar.body rule state).run frame = outcome at yields found ⊢
  rcases outcome with ⟨stop | content, last⟩
  · simp only at yields found ⊢
    rcases found with refused | ⟨more, length, _, reached, _⟩
    · exact Or.inl refused
    · rcases yields with refused | rows
      · exact Or.inl (by rw [Frame.refused_noteStop]; exact refused)
      · have ends := reached.noteStop
        rw [ends] at reached ⊢
        exact Or.inr ⟨more, length, reached, rows.1, rows.2.1, reached.row rows⟩
  · simp only at yields found ⊢
    rcases found with refused | ⟨more, length, _, reached, _⟩
    · exact Or.inl refused
    · rcases yields with refused | rows
      · exact Or.inl refused
      · exact Or.inr ⟨more, length, reached, rows.1, rows.2.1, reached.row rows⟩

/-- The node of a rule that is run lies where the rule is invoked. -/
theorem Places.execute (places : findings.Places site descend) (sound : findings.Sound)
    (lays : findings.Lays) (config : Config) (tells : findings.Tells site session known)
    (laid : session.Lays site) (asks : findings.Asks known rule state goal)
    (registered : grammar.Registered known state)
    (wanted : findings.Wanted goal site.shape.text index) (stands : site.shape.Stands place index) :
    let reply := (⟨grammar, config⟩ : Parser V).execute (some descend) rule state
      ⟨site.rope.buffer, place⟩ session
    reply.2.refused ≠ [] ∨ session.Lies site index reply.1.1 reply.2 := by
  have leading := tells.skips stands
  simp only [Parser.execute, Option.isNone_some, Bool.false_eq_true, if_false]
  generalize Token.skipFrom grammar.skips (session.store.buffer site.rope.buffer) place = skipped
    at leading ⊢
  rcases skipped with ⟨before, first⟩
  have begins : findings.Reaches site { session, place := first }
      (grammar.skipEnd site.shape.text index) known := ⟨tells, leading⟩
  have ran := places.runRule sound lays config asks registered wanted laid begins
  simp only at ran ⊢
  generalize (⟨grammar, config⟩ : Parser V).runRule (some descend) rule state
    site.rope.buffer { session, place := first } = outcome at ran ⊢
  rcases outcome with ⟨content, ⟨reached, last, taken, following, marks⟩⟩
  rcases ran with refused | ⟨more, length, reaches, keeps, laid', front, back, after, ends, row⟩
  · rw [Session.refused_keep]
    exact Or.inl refused
  · refine Or.inr ?_
    have trailing := reaches.tells.skips reaches.stands
    simp only at trailing ⊢
    generalize Token.skipFrom grammar.skips (reached.store.buffer site.rope.buffer) last = skipped
      at trailing ⊢
    rcases skipped with ⟨behind, stop⟩
    have opens : index ≤ grammar.skipEnd site.shape.text index := findings.skips_forward _ _
    have closes : grammar.skipEnd site.shape.text index + length ≤ grammar.skipEnd site.shape.text
        (grammar.skipEnd site.shape.text index + length) := findings.skips_forward _ _
    rw [← Nat.add_sub_cancel' (Nat.le_trans (Nat.le_add_right_of_le opens) closes)] at trailing
    have made := laid'.keep reaches.tells.fulfils stands trailing rule (grammar.stateKey state)
      content (Nat.le_trans opens after) (by omega) row (before ++ taken) (following ++ behind)
    exact ⟨keeps.trans made.2.1, made.1, made.2.2⟩

theorem Places.visit (sound : findings.Sound) (lays : findings.Lays)
    {descend : Option (Descent V)} (config : Config) (isStale : Range → Bool)
    (places : ∀ further, descend = some further → findings.Places site further)
    (tells : findings.Tells site session known) (laid : session.Lays site)
    (asks : findings.Asks known rule state goal) (registered : grammar.Registered known state)
    (wanted : findings.Wanted goal site.shape.text index) (stands : site.shape.Stands place index) :
    let reply := (⟨grammar, config⟩ : Parser V).visit isStale descend rule state
      ⟨site.rope.buffer, place⟩ session
    reply.2.refused ≠ [] ∨ session.Lies site index reply.1.1 reply.2 := by
  have searched := (tells.reuse asks stands isStale).1
  have found := laid.reuse tells.current stands rule (grammar.stateKey state) isStale
  simp only [Parser.visit]
  generalize session.reuse rule (grammar.stateKey state) ⟨site.rope.buffer, place⟩ isStale = outcome
    at searched found ⊢
  rcases outcome with ⟨_ | ⟨node, stop⟩, after⟩
  · rcases found with ⟨laid', sameStore, _⟩
    simp only at searched laid' sameStore ⊢
    cases descend with
    | none => exact Or.inl ((⟨grammar, config⟩ : Parser V).execute_none rule state _ after)
    | some further =>
        exact ((places further rfl).execute sound lays config searched laid' asks registered wanted
          stands).imp_right fun lies => lies.of_sameStore sameStore
  · rcases found with ⟨laid', sameStore, lies⟩
    simp only at laid' sameStore lies ⊢
    exact Or.inr ⟨sameStore ▸ .refl session.store, laid', lies node stop rfl⟩

/-- Every invocation lays its node where it is invoked, to any depth. -/
theorem Sound.places_invoke (sound : findings.Sound) (lays : findings.Lays) (site : Site)
    (config : Config) (isStale : Range → Bool) (depth : Nat) :
    findings.Places site ((⟨grammar, config⟩ : Parser V).invoke isStale depth) := by
  induction depth with
  | zero =>
      refine ⟨sound.descends_invoke site config isStale 0, ?_⟩
      intro known rule state goal place index session tells laid asks registered wanted stands
      exact Places.visit sound lays config isStale (fun _ impossible => by cases impossible) tells
        laid asks registered wanted stands
  | succ depth inductionHypothesis =>
      refine ⟨sound.descends_invoke site config isStale (depth + 1), ?_⟩
      intro known rule state goal place index session tells laid asks registered wanted stands
      refine Places.visit sound lays config isStale (fun further same => ?_) tells laid asks
        registered wanted stands
      cases same
      exact inductionHypothesis

end Findings

end Reparse
