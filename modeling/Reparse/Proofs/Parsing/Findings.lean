import Reparse.Proofs.Parsing.Bodies
import Reparse.Proofs.Parsing.Documents
import Reparse.Proofs.Parsing.Outlines

namespace Reparse

/-!
# What rules are to find

The rules of a grammar can be read as a definition of what they are to find at an
index of a text.  The definition speaks of no session, no place and no earlier
invocation.  A grammar does as it says if each body finds what it is to find,
given that the rules which it invokes do.  Then so does every invocation, whether
its body is run or a node was kept for it.

A state may refer to a node by number, and a node kept for one such state may be
used again for another one.  It is therefore not enough to know what a kept node
was made of.  The outlines of all nodes made so far are recorded under their
numbers, and a number stands for one outline for ever.

A body that is refused for its depth leaves a node behind that says nothing about
the text.  Nothing is said once that has happened.
-/

variable {V : Vocabulary}

/-! ## Known outlines -/

/-- The outlines of the nodes made so far, by their numbers. -/
abbrev Known (V : Vocabulary) := Nat → Option (Outline V.Label)

namespace Known

/-- What was known stays known. -/
def Extends (known more : Known V) : Prop :=
  ∀ id outline, known id = some outline → more id = some outline

def add (known : Known V) (id : Nat) (outline : Outline V.Label) : Known V :=
  fun other => if other = id then some outline else known other

theorem Extends.refl (known : Known V) : known.Extends known := fun _ _ found => found

theorem Extends.trans {first second third : Known V} (one : first.Extends second)
    (two : second.Extends third) : first.Extends third :=
  fun id outline found => two id outline (one id outline found)

theorem extends_add {known : Known V} {id : Nat} (unknown : known id = none)
    (outline : Outline V.Label) : known.Extends (known.add id outline) := by
  intro other outline' found
  have different : other ≠ id := by
    rintro rfl
    rw [unknown] at found
    cases found
  rw [add, if_neg different]
  exact found

end Known

/-- The nodes that a state refers to are known by their own outlines. -/
def Grammar.Registered (grammar : Grammar V) (known : Known V) (state : V.State) : Prop :=
  ∀ node ∈ grammar.nodesOf state, known node.id = some node.outline

/-- Where the skip tokens at an index end. -/
def Grammar.skipEnd (grammar : Grammar V) (text : List Char) (index : Nat) : Nat :=
  (Token.skipOver grammar.skips text (text.length + 1) index).2

/-- The content of the node of a rule, also where its body stopped early. -/
def Grammar.contentOf (grammar : Grammar V) (rule : V.Rule) :
    Except Stop (Content V.Label V.Skip) → Content V.Label V.Skip
  | .ok content => content
  | .error stop => grammar.failureOf rule stop

/-! ## Findings -/

/-- What the rules of a grammar are to find.  A rule with a state `asks` for a goal.  A goal
has outlines for the body of a rule, and for the node with the skip values around it.  Only
goals that are `wanted` at an index are looked for there.  What is found depends on the text
as far around the node as the margin says, and one character further. -/
structure Findings (grammar : Grammar V) where
  Goal : Type
  Asks : Known V → V.Rule → V.State → Goal → Prop
  Wanted : Goal → List Char → Nat → Prop
  Inner : Goal → List Char → Nat → Outline V.Label → Prop
  Whole : Goal → List Char → Nat → Outline V.Label → Prop
  margin : Nat
  asks_mono : ∀ {known more rule state goal}, known.Extends more → Asks known rule state goal →
    Asks more rule state goal
  asks_unique : ∀ {known rule state goal goal'}, Asks known rule state goal →
    Asks known rule state goal' → goal = goal'
  asks_of_sameState : ∀ {known rule state state' goal}, grammar.sameState state' state = true →
    Asks known rule state goal → Asks known rule state' goal
  skips_forward : ∀ text index, index ≤ grammar.skipEnd text index
  whole_of_inner : ∀ {goal text index label length children},
    Inner goal text (grammar.skipEnd text index) ⟨label, length, children⟩ →
    Whole goal text index
      ⟨label, grammar.skipEnd text (grammar.skipEnd text index + length) - index, children⟩
  persists : ∀ {goal text text' span span' outline}, span.start ≤ span.stop →
    span'.start ≤ span'.stop → span.stop ≤ text.length → span'.stop ≤ text'.length →
    surroundings text' (margin + 1) span' = surroundings text (margin + 1) span →
    span.stop - span.start = outline.length → Whole goal text span.start outline →
    Whole goal text' span'.start outline

/-- Where a parse takes place. -/
structure Site where
  rope : Rope
  shape : Shape

namespace Site

/-- The text from an index on. -/
abbrev rest (site : Site) (index : Nat) : List Char := site.shape.text.drop index

theorem rest_add (site : Site) (index length : Nat) :
    site.rest (index + length) = (site.rest index).drop length := by
  rw [rest, rest, List.drop_drop]

theorem head?_rest (site : Site) (index : Nat) :
    (site.rest index).head? = site.shape.text[index]? := List.head?_drop

end Site

namespace Findings

variable {grammar : Grammar V} (findings : Findings grammar)

/-- A kept node is what its rule is to find at its start. -/
def promise (known : Known V) : Promise V where
  margin := findings.margin
  forward := True
  good rule state node text span := known node.id = some node.outline ∧
    span.stop - span.start = node.length ∧
    ∃ goal, findings.Asks known rule state goal ∧ findings.Whole goal text span.start node.outline
  persists := by
    rintro rule state node text text' span span' forward forward' within within' same
      ⟨named, length, goal, asks, whole⟩
    rw [← Tree.outline_length] at length
    have again := findings.persists forward forward' within within' same length whole
    rw [Tree.outline_length] at length
    exact ⟨named, (length_of_surroundings within within' same).trans length, goal, asks, again⟩

/-- All that a session keeps is as promised, the numbers to come are not taken, and each
body has come to an end. -/
structure Tells (site : Site) (session : Session V) (known : Known V) : Prop where
  fulfils : session.Fulfils (findings.promise known) site.rope site.shape {}
  unknown : ∀ id, session.nextId ≤ id → known id = none
  ends : session.endless = false

/-- A node was found at an index, and the parse goes on behind it. -/
structure Finds (site : Site) (goal : findings.Goal) (index : Nat) (node : V.Node) (stop : Position)
    (session : Session V) (known : Known V) : Prop where
  tells : findings.Tells site session known
  named : known node.id = some node.outline
  buffer : stop.buffer = site.rope.buffer
  stands : site.shape.Stands stop.place (index + node.length)
  whole : findings.Whole goal site.shape.text index node.outline

/-- A body stands at an index of the text. -/
structure Reaches (site : Site) (frame : Frame V) (index : Nat) (known : Known V) : Prop where
  tells : findings.Tells site frame.session known
  stands : site.shape.Stands frame.place index

/-- The body of a rule has come to an end, and found the content of its node. -/
def Ends (site : Site) (known : Known V) (rule : V.Rule) (goal : findings.Goal) (index : Nat)
    (result : Except Stop (Content V.Label V.Skip)) (frame : Frame V) : Prop :=
  result ≠ .error .endless ∧
    ∃ more length, known.Extends more ∧ findings.Reaches site frame (index + length) more ∧
      findings.Inner goal site.shape.text index ⟨(grammar.contentOf rule result).label, length,
        Tree.outlines (grammar.contentOf rule result).children⟩

/-- An invocation finds what it is asked for, unless a body is refused. -/
def Answers (site : Site) (known : Known V) (goal : findings.Goal) (index : Nat)
    (reply : Reply V) : Prop :=
  reply.2.refused ≠ [] ∨
    ∃ more, known.Extends more ∧ findings.Finds site goal index reply.1.1 reply.1.2 reply.2 more

/-- Invocations find what their states ask for, where it is wanted. -/
structure Descends (site : Site) (descend : Descent V) : Prop where
  keeps : descend.KeepsRefused
  finds : ∀ {known rule state goal place index session}, findings.Tells site session known →
    findings.Asks known rule state goal → grammar.Registered known state →
    findings.Wanted goal site.shape.text index → site.shape.Stands place index →
    findings.Answers site known goal index (descend rule state ⟨site.rope.buffer, place⟩ session)

/-- Each body finds what is wanted of it, if invocations do. -/
def Sound : Prop :=
  ∀ {site descend}, findings.Descends site descend → ∀ {known frame index rule state goal},
    findings.Asks known rule state goal → grammar.Registered known state →
    findings.Wanted goal site.shape.text index →
    findings.Reaches site frame (grammar.skipEnd site.shape.text index) known →
    frame.Yields site.rope.buffer descend (grammar.body rule state)
      (findings.Ends site known rule goal (grammar.skipEnd site.shape.text index))

variable {findings} {site : Site} {known : Known V} {session : Session V} {frame : Frame V}
  {rule : V.Rule} {state : V.State} {goal : findings.Goal} {place last : Place} {index length : Nat}
  {descend : Descent V}

theorem Tells.current (tells : findings.Tells site session known) :
    (session.store.buffer site.rope.buffer).Current site.shape :=
  tells.fulfils.current

theorem Reaches.current (reaches : findings.Reaches site frame index known) :
    (frame.session.store.buffer site.rope.buffer).Current site.shape :=
  reaches.tells.current

theorem Reaches.within (reaches : findings.Reaches site frame index known) :
    index ≤ site.shape.text.length :=
  reaches.stands.means.le_length

/-- A loop goes on for more rounds than there are characters left. -/
theorem Reaches.lt_rounds (reaches : findings.Reaches site frame index known) :
    site.shape.text.length - index < Frame.rounds site.rope.buffer frame := by
  rw [Frame.rounds, reaches.current.roundsFrom reaches.stands]
  exact Nat.lt_succ_of_le (Nat.sub_le _ _)

/-- A rule is invoked in a body. -/
theorem Descends.yields_parse {α : Type} (descends : findings.Descends site descend)
    (reaches : findings.Reaches site frame index known)
    (asks : findings.Asks known rule state goal) (registered : grammar.Registered known state)
    (wanted : findings.Wanted goal site.shape.text index)
    {next : V.Node → Body V α} {post : Except Stop α → Frame V → Prop}
    (holds : ∀ node session place more, known.Extends more →
      findings.Finds site goal index node ⟨site.rope.buffer, place⟩ session more →
      Frame.Yields { frame with session, place } site.rope.buffer descend (next node) post) :
    frame.Yields site.rope.buffer descend (Body.parse rule state >>= next) post := by
  refine Frame.yields_parse descends.keeps ?_
  rcases descends.finds reaches.tells asks registered wanted reaches.stands with refused |
    ⟨more, grows, finds⟩
  · exact Or.inl refused
  · generalize descend rule state ⟨site.rope.buffer, frame.place⟩ frame.session = reply at finds ⊢
    rcases reply with ⟨⟨node, ⟨buffer, place⟩⟩, session⟩
    cases finds.buffer
    exact Or.inr (holds node session place more grows finds)

section Signs

variable {α : Type} {char : Char} {message : String} {post : Except Stop α → Frame V → Prop}

/-- A body asks whether a sign follows. -/
theorem Reaches.yields_isNext_exactly (reaches : findings.Reaches site frame index known)
    (keeps : descend.KeepsRefused) {next : Bool → Body V α}
    (follows : (site.rest index).head? = some char →
      frame.Yields site.rope.buffer descend (next true) post)
    (missing : (site.rest index).head? ≠ some char →
      frame.Yields site.rope.buffer descend (next false) post) :
    frame.Yields site.rope.buffer descend
      (Body.isNext (Token.exactly char message) >>= next) post := by
  refine Frame.yields_isNext keeps reaches.current reaches.stands ?_
  rw [Token.read_exactly]
  by_cases isNext : (site.rest index).head? = some char
  · rw [if_pos isNext]
    exact follows isNext
  · rw [if_neg isNext]
    exact missing isNext

/-- A sign is consumed, or the body gives up where it stands. -/
theorem Reaches.yields_lex_exactly (reaches : findings.Reaches site frame index known)
    (keeps : descend.KeepsRefused) {next : Char → Body V α}
    (follows : (site.rest index).head? = some char → ∀ place,
      findings.Reaches site { frame with place } (index + 1) known →
      Frame.Yields { frame with place } site.rope.buffer descend (next char) post)
    (missing : (site.rest index).head? ≠ some char →
      post (.error (.abort (LexError.message message).toAbort)) frame) :
    frame.Yields site.rope.buffer descend
      (Body.lex (Token.exactly char message) >>= next) post := by
  refine Frame.yields_lex keeps reaches.current reaches.stands ?_
  rw [Token.read_exactly]
  by_cases isNext : (site.rest index).head? = some char
  · rw [if_pos isNext]
    exact fun place stands => follows isNext place ⟨reaches.tells, stands⟩
  · rw [if_neg isNext]
    exact missing isNext

end Signs

/-! ## Kept nodes and new ones -/

/-- Looking for a kept node. -/
theorem Tells.reuse (tells : findings.Tells site session known)
    (asks : findings.Asks known rule state goal) (stands : site.shape.Stands place index)
    (isStale : Range → Bool) :
    let after := session.reuse rule (grammar.stateKey state) ⟨site.rope.buffer, place⟩ isStale
    findings.Tells site after.2 known ∧ ∀ node stop, after.1 = some (node, stop) →
      findings.Finds site goal index node stop after.2 known := by
  rcases tells.fulfils.reuse_spec stands rule (grammar.stateKey state) isStale with
    ⟨fulfils, _, nextId, _, outcome⟩
  have ends := (session.reuse_runs_nothing rule (grammar.stateKey state) ⟨site.rope.buffer, place⟩
    isStale).2.trans tells.ends
  generalize session.reuse rule (grammar.stateKey state) ⟨site.rope.buffer, place⟩ isStale = after
    at fulfils nextId outcome ends ⊢
  have stillTells : findings.Tells site after.2 known := ⟨fulfils, nextId ▸ tells.unknown, ends⟩
  refine ⟨stillTells, fun node stop found => ?_⟩
  rcases after with ⟨_, after⟩
  cases found
  rcases outcome with ⟨last, done⟩
  have forward : index ≤ last := done.forward trivial
  -- The node was kept for another state, which asked for the same goal.
  rcases done.promised with ⟨state', entry, isSame, _, _, good⟩
  rcases good forward with ⟨named, length, goal', asks', whole⟩
  have sameGoal : goal' = goal :=
    findings.asks_unique asks' (findings.asks_of_sameState isSame asks)
  subst sameGoal
  have stands' := done.stands
  have isLast : last = index + node.length := by
    rw [← length]
    exact (Nat.add_sub_cancel' forward).symm
  rw [isLast] at stands'
  exact ⟨stillTells, named, done.buffer, stands', whole⟩

/-- Making a node of what was found. -/
theorem Tells.keep (tells : findings.Tells site session known)
    (asks : findings.Asks known rule state goal)
    (starts : site.shape.Stands place index) (stops : site.shape.Stands last (index + length))
    (content : Content V.Label V.Skip)
    (whole : findings.Whole goal site.shape.text index
      ⟨content.label, length, Tree.outlines content.children⟩) (before skipped : List V.Skip) :
    let made := session.keep rule (grammar.stateKey state) ⟨site.rope.buffer, place⟩
      ⟨site.rope.buffer, last⟩ content before skipped
    ∃ more, known.Extends more ∧
      findings.Finds site goal index made.1 ⟨site.rope.buffer, last⟩ made.2 more := by
  have outline : ∀ node : V.Node, node.label = content.label → node.children = content.children →
      node.length = index + length - index →
      node.outline = ⟨content.label, length, Tree.outlines content.children⟩ := by
    intro node label children length'
    rw [Tree.outline_eq, label, children, length', Nat.add_sub_cancel_left]
  have grows := Known.extends_add (tells.unknown _ (Nat.le_refl _))
    ⟨content.label, length, Tree.outlines content.children⟩
  have added : session.Fulfils (findings.promise
      (known.add session.nextId ⟨content.label, length, Tree.outlines content.children⟩))
      site.rope site.shape {} := by
    refine tells.fulfils.weaken rfl (fun _ _ entry holds => ⟨entry, holds, rfl⟩) rfl id ?_
    rintro rule state node text span ⟨named, length, goal, asks, whole⟩
    exact ⟨grows _ _ named, length, goal, findings.asks_mono grows asks, whole⟩
  have good : ∀ node : V.Node, node.label = content.label → node.children = content.children →
      node.length = index + length - index → node.id = session.nextId →
      ∀ state', state' = state ∨ (grammar.stateKey state).isSame state' = true →
        index ≤ index + length →
        (findings.promise (known.add session.nextId
          ⟨content.label, length, Tree.outlines content.children⟩)).good rule state' node
          site.shape.text ⟨index, index + length⟩ := by
    intro node label children length' id state' sameState forward
    have isOutline := outline node label children length'
    refine ⟨?_, length'.symm, goal, ?_, isOutline ▸ whole⟩
    · rw [isOutline, id, Known.add, if_pos rfl]
    · rcases sameState with rfl | isSame
      · exact findings.asks_mono grows asks
      · exact findings.asks_of_sameState isSame (findings.asks_mono grows asks)
  rcases added.keep_spec starts stops (fun _ => Nat.le_add_right _ _) rule
    (grammar.stateKey state) content before skipped good with ⟨fulfils, done⟩
  have isOutline := outline _ done.label done.children done.length
  refine ⟨_, grows, ⟨fulfils, fun id le => ?_, tells.ends⟩, ?_, rfl, ?_, isOutline ▸ whole⟩
  · rw [done.nextId] at le
    rw [Known.add, if_neg (Nat.ne_of_gt le)]
    exact tells.unknown id (Nat.le_of_succ_le le)
  · rw [isOutline, done.id, Known.add, if_pos rfl]
  · rw [done.length, Nat.add_sub_cancel_left]
    exact stops

/-! ## Invocations -/

/-- A body that is run finds what it is asked for, and comes to an end. -/
theorem Sound.runRule (sound : findings.Sound) (descends : findings.Descends site descend)
    (config : Config) (asks : findings.Asks known rule state goal)
    (registered : grammar.Registered known state)
    (wanted : findings.Wanted goal site.shape.text index)
    (reaches : findings.Reaches site frame (grammar.skipEnd site.shape.text index) known) :
    let outcome := (⟨grammar, config⟩ : Parser V).runRule (some descend) rule state
      site.rope.buffer frame
    outcome.2.session.refused ≠ [] ∨ ∃ more length, known.Extends more ∧
      findings.Reaches site outcome.2 (grammar.skipEnd site.shape.text index + length) more ∧
      findings.Inner goal site.shape.text (grammar.skipEnd site.shape.text index)
        ⟨outcome.1.label, length, Tree.outlines outcome.1.children⟩ := by
  have yields := sound descends asks registered wanted reaches
  rw [Frame.Yields, Program.Yields] at yields
  simp only [Parser.runRule, Frame.run]
  generalize Program.run (Frame.handle site.rope.buffer descend) (Frame.rounds site.rope.buffer)
    (grammar.body rule state).run frame = outcome at yields ⊢
  rcases outcome with ⟨stop | content, frame⟩
  · have keeps : stop ≠ .endless → frame.noteStop stop = frame := fun ends => if_neg ends
    simp only at yields ⊢
    rcases yields with refused | ⟨ends, found⟩
    · rw [Frame.refused_noteStop]
      exact Or.inl refused
    · rw [keeps fun same => ends (congrArg Except.error same)]
      exact Or.inr found
  · exact yields.imp_right And.right

/-- Skipping ends where the skip tokens do. -/
theorem Tells.skips (tells : findings.Tells site session known)
    (stands : site.shape.Stands place index) :
    site.shape.Stands
      (Token.skipFrom grammar.skips (session.store.buffer site.rope.buffer) place).2
      (grammar.skipEnd site.shape.text index) :=
  (Token.skipFrom_eq tells.current grammar.skips stands).2

/-- A rule that is run finds what it is asked for. -/
theorem Sound.execute (sound : findings.Sound) (descends : findings.Descends site descend)
    (config : Config) (tells : findings.Tells site session known)
    (asks : findings.Asks known rule state goal) (registered : grammar.Registered known state)
    (wanted : findings.Wanted goal site.shape.text index) (stands : site.shape.Stands place index) :
    findings.Answers site known goal index ((⟨grammar, config⟩ : Parser V).execute (some descend)
      rule state ⟨site.rope.buffer, place⟩ session) := by
  have leading := tells.skips stands
  simp only [Answers, Parser.execute, Option.isNone_some, Bool.false_eq_true, if_false]
  generalize Token.skipFrom grammar.skips (session.store.buffer site.rope.buffer) place = skipped
    at leading ⊢
  rcases skipped with ⟨before, first⟩
  have begins : findings.Reaches site { session, place := first }
      (grammar.skipEnd site.shape.text index) known := ⟨tells, leading⟩
  have ran := sound.runRule descends config asks registered wanted begins
  simp only at ran ⊢
  generalize (⟨grammar, config⟩ : Parser V).runRule (some descend) rule state
    site.rope.buffer { session, place := first } = outcome at ran ⊢
  rcases outcome with ⟨content, ⟨session, reached, taken, following, marks⟩⟩
  rcases ran with refused | ⟨more, length, grows, reaches, inner⟩
  · rw [Session.refused_keep]
    exact Or.inl refused
  · refine Or.inr ?_
    have trailing := reaches.tells.skips reaches.stands
    simp only at trailing ⊢
    generalize Token.skipFrom grammar.skips (session.store.buffer site.rope.buffer) reached = skipped
      at trailing ⊢
    rcases skipped with ⟨after, last⟩
    have ahead : index ≤ grammar.skipEnd site.shape.text
        (grammar.skipEnd site.shape.text index + length) :=
      Nat.le_trans (Nat.le_add_right_of_le (findings.skips_forward _ _)) (findings.skips_forward _ _)
    rw [← Nat.add_sub_cancel' ahead] at trailing
    rcases reaches.tells.keep (findings.asks_mono grows asks) stands trailing content
      (findings.whole_of_inner inner) (before ++ taken) (following ++ after) with
      ⟨further, grows', finds⟩
    exact ⟨further, grows.trans grows', finds⟩

/-- An invocation finds what it is asked for, whether or not a node was kept for it. -/
theorem Sound.visit (sound : findings.Sound) {descend : Option (Descent V)} (config : Config)
    (isStale : Range → Bool)
    (descends : ∀ further, descend = some further → findings.Descends site further)
    (tells : findings.Tells site session known) (asks : findings.Asks known rule state goal)
    (registered : grammar.Registered known state)
    (wanted : findings.Wanted goal site.shape.text index) (stands : site.shape.Stands place index) :
    findings.Answers site known goal index ((⟨grammar, config⟩ : Parser V).visit isStale descend
      rule state ⟨site.rope.buffer, place⟩ session) := by
  rcases tells.reuse asks stands isStale with ⟨searched, found⟩
  simp only [Parser.visit]
  generalize session.reuse rule (grammar.stateKey state) ⟨site.rope.buffer, place⟩ isStale = outcome
    at searched found ⊢
  rcases outcome with ⟨_ | ⟨node, stop⟩, session⟩
  · simp only at searched ⊢
    cases descend with
    | none => exact Or.inl ((⟨grammar, config⟩ : Parser V).execute_none rule state _ session)
    | some further =>
        exact sound.execute (descends further rfl) config searched asks registered wanted stands
  · exact Or.inr ⟨known, .refl known, found node stop rfl⟩

/-- Invocations find what they are asked for, to any depth. -/
theorem Sound.descends_invoke (sound : findings.Sound) (site : Site) (config : Config)
    (isStale : Range → Bool) (depth : Nat) :
    findings.Descends site ((⟨grammar, config⟩ : Parser V).invoke isStale depth) := by
  refine ⟨Parser.invoke_keepsRefused _ isStale depth, ?_⟩
  induction depth with
  | zero =>
      intro known rule state goal place index session tells asks registered wanted stands
      exact sound.visit config isStale (fun _ impossible => by cases impossible) tells asks
        registered wanted stands
  | succ depth inductionHypothesis =>
      intro known rule state goal place index session tells asks registered wanted stands
      refine sound.visit config isStale (fun further same => ?_) tells asks registered wanted stands
      cases same
      exact ⟨Parser.invoke_keepsRefused _ isStale depth, inductionHypothesis⟩

/-- The first parse of a text finds what it is asked for, and comes to an end. -/
theorem Sound.parse_new (sound : findings.Sound) (config : Config) (isStale : Range → Bool)
    (asks : findings.Asks (fun _ => none) rule state goal)
    (registered : grammar.Registered (fun _ => none) state) (text : String)
    (wanted : findings.Wanted goal text.toList 0) :
    let start := ({} : Store).newRope text
    let parsed := (⟨grammar, config⟩ : Parser V).parse isStale rule state
      (start.2.positionAt start.1 0) { store := start.2 }
    parsed.2.refused ≠ [] ∨
      parsed.2.endless = false ∧ findings.Whole goal text.toList 0 parsed.1.1.outline := by
  rcases Session.newRope_fulfils (findings.promise fun _ => none) ({} : Session V) Store.Sound.empty
    rfl text with ⟨shape, fulfils, isText⟩
  rcases fulfils.positionAt_start with ⟨place, start, stands⟩
  rw [← isText] at wanted ⊢
  have tells : findings.Tells ⟨(({} : Store).newRope text).1, shape⟩
      { store := (({} : Store).newRope text).2 } fun _ => none := ⟨fulfils, fun _ _ => rfl, rfl⟩
  have answers := (sound.descends_invoke _ config isStale config.maxDepth).finds tells asks registered
    wanted stands
  simp only at start
  simp only [Parser.parse, start]
  rcases answers with refused | ⟨more, _, finds⟩
  · exact Or.inl refused
  · exact Or.inr ⟨finds.tells.ends, finds.whole⟩

end Findings

end Reparse
