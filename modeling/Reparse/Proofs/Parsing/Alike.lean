import Mathlib.Data.List.Forall2
import Reparse.Parsing.Grammar
import Reparse.Proofs.Program

/-!
# What a body can tell apart

A body sees of a node its label, its length, its skip values and its children.  It
cannot see the number of the node, or its cursors.  To say so, two runs of bodies
are compared.  Where one run is answered a node, the other run may be answered
another node, as long as the two correspond.  If the bodies are alike, then both
runs do alike things until the end, and their results correspond as well.

This is said of any two runners that answer alike, and not of the parser.  A
runner may be lost, after which nothing is promised of it.

A grammar is discreet if alike states have alike bodies, and if it takes two
states for the same only when neither is alike to a state that the other is not
alike to.
-/

namespace Reparse

variable {V : Vocabulary} {σ τ α β : Type}

/-! ## Nodes that correspond -/

/-- Nodes that are related look the same to a body. -/
def Corresponds (nodes : V.Node → V.Node → Prop) : Prop :=
  ∀ one other, nodes one other →
    one.label = other.label ∧ one.length = other.length ∧
      one.origin.before = other.origin.before ∧ one.origin.after = other.origin.after ∧
      List.Forall₂ nodes one.children other.children

/-- Contents with the same label, and with children that are related. -/
def Content.Alike (nodes : V.Node → V.Node → Prop) (one other : Content V.Label V.Skip) : Prop :=
  one.label = other.label ∧ List.Forall₂ nodes one.children other.children

/-! ## Actions and answers that are alike -/

/-- Two actions ask for the same, if related states and nodes count as the same.  Then
their answers are to be the same, or to be related nodes. -/
inductive Action.Alike (nodes : V.Node → V.Node → Prop) (states : V.State → V.State → Prop) :
    {α : Type} → (α → α → Prop) → Action V α → Action V α → Prop where
  | lex {α : Type} {token token' : Token α}
      (same : ∀ buffer place, token.lex buffer place = token'.lex buffer place) :
      Alike nodes states Eq (.lex token) (.lex token')
  | isNext {α : Type} {token token' : Token α}
      (same : ∀ buffer place, token.isNext buffer place = token'.isNext buffer place) :
      Alike nodes states Eq (.isNext token) (.isNext token')
  | lexFirst {α : Type} {tokens tokens' : List (Token α)} {message message' : String}
      (same : ∀ buffer place, Token.lexFirst tokens buffer place message =
        Token.lexFirst tokens' buffer place message') :
      Alike nodes states Eq (.lexFirst tokens message) (.lexFirst tokens' message')
  | parse (rule : V.Rule) {state state' : V.State} (alike : states state state') :
      Alike nodes states nodes (.parse rule state) (.parse rule state')
  | adoptSkips {node node' : V.Node} (alike : nodes node node') :
      Alike nodes states Eq (.adoptSkips node) (.adoptSkips node')
  | mark : Alike nodes states Eq .mark .mark
  | restore (mark : Nat) : Alike nodes states Eq (.restore mark) (.restore mark)
  | place : Alike nodes states Eq .place .place
  | position : Alike nodes states Eq .position .position
  | atEnd : Alike nodes states Eq .atEnd .atEnd

/-- Both bodies stopped for the same reason, or both made something, and what they made is
related. -/
def SameResult (answers : α → α → Prop) : Except Stop α → Except Stop α → Prop
  | .ok answer, .ok answer' => answers answer answer'
  | .error stop, .error stop' => stop = stop'
  | _, _ => False

/-! ## Runners -/

/-- Whoever runs a body: what an action does to its state, and how many rounds it grants. -/
structure Runner (V : Vocabulary) (σ : Type) where
  handle : {α : Type} → Action V α → σ → α × σ
  rounds : σ → Nat

def Runner.run (runner : Runner V σ) (body : Body V α) (state : σ) : Except Stop α × σ :=
  Program.run runner.handle runner.rounds body.run state

/-- How the states of two runners are compared. -/
structure Comparison (σ τ : Type) where
  lost : σ → Prop
  lost' : τ → Prop
  related : σ → τ → Prop

/-- The answers are related and so are the states, unless one of the states is lost. -/
def Comparison.Agree (comparison : Comparison σ τ) (answers : α → α → Prop) (outcome : α × σ)
    (outcome' : α × τ) : Prop :=
  comparison.lost outcome.2 ∨ comparison.lost' outcome'.2 ∨
    (answers outcome.1 outcome'.1 ∧ comparison.related outcome.2 outcome'.2)

/-- Two runners answer alike actions alike.  A state that is lost stays lost. -/
structure Runner.Mirrors (one : Runner V σ) (other : Runner V τ)
    (nodes : V.Node → V.Node → Prop) (states : V.State → V.State → Prop)
    (comparison : Comparison σ τ) : Prop where
  stays : ∀ {α : Type} (action : Action V α) (state : σ), comparison.lost state →
    comparison.lost (one.handle action state).2
  stays' : ∀ {α : Type} (action : Action V α) (state : τ), comparison.lost' state →
    comparison.lost' (other.handle action state).2
  rounds : ∀ state state', comparison.related state state' →
    one.rounds state = other.rounds state'
  acts : ∀ {α : Type} {answers : α → α → Prop} {action action' : Action V α} (state : σ) (state' : τ),
    action.Alike nodes states answers action' → comparison.related state state' →
    comparison.Agree answers (one.handle action state) (other.handle action' state')

namespace Body

/-- No two runners that answer alike can make a difference between the bodies. -/
structure Alike (nodes : V.Node → V.Node → Prop) (states : V.State → V.State → Prop)
    (answers : α → α → Prop) (body body' : Body V α) : Prop where
  agree : ∀ {σ τ : Type} {one : Runner V σ} {other : Runner V τ} {comparison : Comparison σ τ},
    one.Mirrors other nodes states comparison →
    ∀ (state : σ) (state' : τ), comparison.related state state' →
      comparison.Agree (SameResult answers) (one.run body state) (other.run body' state')

end Body

/-- Alike states, which may refer to related nodes, have bodies that are alike.  States that
count as the same are alike to the same states. -/
structure Grammar.Discreet (grammar : Grammar V)
    (alike : (V.Node → V.Node → Prop) → V.State → V.State → Prop) : Prop where
  mono : ∀ {nodes nodes' : V.Node → V.Node → Prop}, (∀ one other, nodes one other → nodes' one other) →
    ∀ {state state'}, alike nodes state state' → alike nodes' state state'
  bodies : ∀ {nodes : V.Node → V.Node → Prop}, Corresponds nodes →
    ∀ (rule : V.Rule) {state state'}, alike nodes state state' →
      Body.Alike nodes (alike nodes) (Content.Alike nodes) (grammar.body rule state)
        (grammar.body rule state')
  same : ∀ {state state'}, grammar.sameState state state' = true →
    ∀ nodes other, alike nodes state other ↔ alike nodes state' other

/-! ## Runs side by side -/

section Runs

variable {one : Runner V σ} {other : Runner V τ} {nodes : V.Node → V.Node → Prop}
  {states : V.State → V.State → Prop} {comparison : Comparison σ τ}

/-- What comes next may take related outcomes for granted, if it leaves lost states lost. -/
theorem Comparison.Agree.andThen {answers : α → α → Prop} {results : β → β → Prop}
    {outcome : α × σ} {outcome' : α × τ} (agree : comparison.Agree answers outcome outcome')
    (next : α × σ → β × σ) (next' : α × τ → β × τ)
    (stays : ∀ outcome, comparison.lost outcome.2 → comparison.lost (next outcome).2)
    (stays' : ∀ outcome, comparison.lost' outcome.2 → comparison.lost' (next' outcome).2)
    (goes : ∀ answer answer' state state', answers answer answer' → comparison.related state state' →
      comparison.Agree results (next (answer, state)) (next' (answer', state'))) :
    comparison.Agree results (next outcome) (next' outcome') := by
  rcases agree with isLost | isLost | ⟨same, related⟩
  · exact Or.inl (stays outcome isLost)
  · exact Or.inr (Or.inl (stays' outcome' isLost))
  · exact goes _ _ _ _ same related

/-- The steps that follow a first one. -/
def Program.stepsAfter (step : α → σ → (α × Bool) × σ) (rounds : Nat) : (α × Bool) × σ → α × σ
  | ((next, true), after) => repeatStep step rounds next after
  | ((next, false), after) => (next, after)

theorem Program.repeatStep_succ (step : α → σ → (α × Bool) × σ) (rounds : Nat) (answer : α)
    (state : σ) :
    repeatStep step (rounds + 1) answer state = stepsAfter step rounds (step answer state) := by
  rw [repeatStep]
  rcases step answer state with ⟨⟨next, _ | _⟩, after⟩ <;> rfl

/-- Steps that go alike are repeated alike. -/
theorem Comparison.repeatStep_agree {answers : α → α → Prop} {step : α → σ → (α × Bool) × σ}
    {step' : α → τ → (α × Bool) × τ}
    (stays : ∀ answer state, comparison.lost state → comparison.lost (step answer state).2)
    (stays' : ∀ answer state, comparison.lost' state → comparison.lost' (step' answer state).2)
    (alike : ∀ answer answer' state state', answers answer answer' → comparison.related state state' →
      comparison.Agree (fun next next' => answers next.1 next'.1 ∧ next.2 = next'.2)
        (step answer state) (step' answer' state'))
    (count : Nat) (answer answer' : α) (state : σ) (state' : τ) (same : answers answer answer')
    (related : comparison.related state state') :
    comparison.Agree answers (Program.repeatStep step count answer state)
      (Program.repeatStep step' count answer' state') := by
  induction count generalizing answer answer' state state' with
  | zero => exact Or.inr (Or.inr ⟨same, related⟩)
  | succ count inductionHypothesis =>
      rw [Program.repeatStep_succ, Program.repeatStep_succ]
      refine (alike answer answer' state state' same related).andThen (Program.stepsAfter step count)
        (Program.stepsAfter step' count) ?_ ?_ ?_
      · rintro ⟨⟨next, _ | _⟩, after⟩ isLost
        · exact isLost
        · exact Program.repeatStep_preserves stays count next after isLost
      · rintro ⟨⟨next, _ | _⟩, after⟩ isLost
        · exact isLost
        · exact Program.repeatStep_preserves stays' count next after isLost
      · rintro ⟨next, again⟩ ⟨next', again'⟩ after after' ⟨sameNext, sameFlag⟩ related
        simp only at sameFlag
        subst sameFlag
        cases again with
        | false => exact Or.inr (Or.inr ⟨sameNext, related⟩)
        | true => exact inductionHypothesis next next' after after' sameNext related

namespace Runner

theorem Mirrors.run_stays (mirrors : one.Mirrors other nodes states comparison)
    (program : Program (Action V) α) (state : σ) (isLost : comparison.lost state) :
    comparison.lost (Program.run one.handle one.rounds program state).2 :=
  Program.run_preserves comparison.lost (fun action state => mirrors.stays action state) program state
    isLost

theorem Mirrors.run_stays' (mirrors : one.Mirrors other nodes states comparison)
    (program : Program (Action V) α) (state : τ) (isLost : comparison.lost' state) :
    comparison.lost' (Program.run other.handle other.rounds program state).2 :=
  Program.run_preserves comparison.lost' (fun action state => mirrors.stays' action state) program
    state isLost

/-- Go on with what a body has made. -/
def resume (runner : Runner V σ) (next : α → Body V β) : Except Stop α × σ → Except Stop β × σ
  | (.ok answer, after) => runner.run (next answer) after
  | (.error stop, after) => (.error stop, after)

theorem run_bind (runner : Runner V σ) (first : Body V α) (next : α → Body V β) (state : σ) :
    runner.run (first >>= next) state = runner.resume next (runner.run first state) := by
  rw [run, Program.run_bind, run]
  rcases Program.run runner.handle runner.rounds first.run state with ⟨_ | answer, after⟩ <;> rfl

/-- The outcome of one round of a loop. -/
def roundOf : Except Stop (α × Bool) × σ → (Except Stop α × Bool) × σ
  | (.ok (next, again), after) => ((.ok next, again), after)
  | (.error stop, after) => ((.error stop, false), after)

theorem run_attempt (runner : Runner V σ) (part : α → Body V (α × Bool)) (answer : α) (state : σ) :
    Program.run runner.handle runner.rounds (Program.attempt part (.ok answer)) state =
      roundOf (runner.run (part answer) state) := by
  rw [Program.run_attempt, run]
  rcases Program.run runner.handle runner.rounds (part answer).run state with
    ⟨_ | ⟨next, again⟩, after⟩ <;> rfl

end Runner

end Runs

/-! ## Building bodies that are alike -/

namespace Body

variable {nodes : V.Node → V.Node → Prop} {states : V.State → V.State → Prop}
  {answers : α → α → Prop} {results : β → β → Prop}

theorem alike_pure {answer answer' : α} (related : answers answer answer') :
    Alike nodes states answers (pure answer : Body V α) (pure answer') :=
  ⟨fun _ _ _ states => Or.inr (Or.inr ⟨related, states⟩)⟩

theorem alike_throw (stop : Stop) :
    Alike nodes states answers (throw stop : Body V α) (throw stop) :=
  ⟨fun _ _ _ states => Or.inr (Or.inr ⟨rfl, states⟩)⟩

theorem alike_act {action action' : Action V α}
    (alike : action.Alike nodes states answers action') :
    Alike nodes states answers (act action) (act action') :=
  ⟨fun mirrors state state' related => mirrors.acts state state' alike related⟩

theorem alike_bind {first first' : Body V α} {next next' : α → Body V β}
    (alike : Alike nodes states answers first first')
    (alikeNext : ∀ answer answer', answers answer answer' →
      Alike nodes states results (next answer) (next' answer')) :
    Alike nodes states results (first >>= next) (first' >>= next') := by
  refine ⟨fun {σ τ one other comparison} mirrors state state' related => ?_⟩
  rw [one.run_bind, other.run_bind]
  refine (alike.agree mirrors state state' related).andThen (one.resume next) (other.resume next') ?_ ?_ ?_
  · rintro ⟨_ | answer, after⟩ isLost
    · exact isLost
    · exact mirrors.run_stays _ after isLost
  · rintro ⟨_ | answer, after⟩ isLost
    · exact isLost
    · exact mirrors.run_stays' _ after isLost
  · rintro (stop | answer) (stop' | answer') after after' same related
    · exact Or.inr (Or.inr ⟨same, related⟩)
    · exact same.elim
    · exact same.elim
    · exact (alikeNext answer answer' same).agree mirrors after after' related

theorem alike_bind_same {first first' : Body V α} {next next' : α → Body V β}
    (same : Alike nodes states Eq first first')
    (alikeNext : ∀ answer, Alike nodes states results (next answer) (next' answer)) :
    Alike nodes states results (first >>= next) (first' >>= next') := by
  refine alike_bind same ?_
  rintro answer _ rfl
  exact alikeNext answer

/-- Loops are alike whose rounds are alike, and are asked for as often. -/
theorem alike_loopUntilFailure {start start' : α} {part part' : α → Body V (α × Bool)}
    (related : answers start start')
    (alike : ∀ answer answer', answers answer answer' →
      Alike nodes states (fun next next' => answers next.1 next'.1 ∧ next.2 = next'.2)
        (part answer) (part' answer')) :
    Alike nodes states answers (Program.loopUntilFailure start part)
      (Program.loopUntilFailure start' part') := by
  refine ⟨fun {σ τ one other comparison} mirrors state state' states => ?_⟩
  have unfolded : ∀ {ρ : Type} (runner : Runner V ρ) (start : α) (part : α → Body V (α × Bool)) state,
      runner.run (Program.loopUntilFailure start part) state =
        Program.repeatStep
          (fun result => Program.run runner.handle runner.rounds (Program.attempt part result))
          (runner.rounds state) (.ok start) state :=
    fun _ _ _ _ => rfl
  rw [unfolded, unfolded, mirrors.rounds state state' states]
  refine Comparison.repeatStep_agree (fun result => mirrors.run_stays _)
    (fun result => mirrors.run_stays' _) ?_ _ (Except.ok start) (Except.ok start') state state' related states
  rintro (stop | answer) (stop' | answer') after after' same related
  · exact Or.inr (Or.inr ⟨⟨same, rfl⟩, related⟩)
  · exact same.elim
  · exact same.elim
  · rw [one.run_attempt, other.run_attempt]
    refine ((alike answer answer' same).agree mirrors after after' related).andThen Runner.roundOf
      Runner.roundOf ?_ ?_ ?_
    · rintro ⟨_ | _, after⟩ isLost <;> exact isLost
    · rintro ⟨_ | _, after⟩ isLost <;> exact isLost
    · rintro (stop | next) (stop' | next') after after' same related
      · exact Or.inr (Or.inr ⟨⟨same, rfl⟩, related⟩)
      · exact same.elim
      · exact same.elim
      · exact Or.inr (Or.inr ⟨same, related⟩)

theorem alike_loop {start start' : α} {part part' : α → Body V (α × Bool)}
    (related : answers start start')
    (alike : ∀ answer answer', answers answer answer' →
      Alike nodes states (fun next next' => answers next.1 next'.1 ∧ next.2 = next'.2)
        (part answer) (part' answer')) :
    Alike nodes states answers (loop start part) (loop start' part') := by
  have round : ∀ {next next' : α × Bool}, answers next.1 next'.1 ∧ next.2 = next'.2 →
      Alike nodes states
        (fun result result' : (α × Bool) × Bool =>
          (answers result.1.1 result'.1.1 ∧ result.1.2 = result'.1.2) ∧ result.2 = result'.2)
        (pure (next, next.2)) (pure (next', next'.2)) :=
    fun nexts => alike_pure ⟨nexts, nexts.2⟩
  refine @alike_bind V _ _ nodes states (fun next next' => answers next.1 next'.1 ∧ next.2 = next'.2)
    answers _ _ _ _ (alike_loopUntilFailure ⟨related, rfl⟩ fun answer answer' same =>
      alike_bind (alike _ _ same.1) fun _ _ => round) ?_
  rintro ⟨answer, again⟩ ⟨answer', again'⟩ ⟨same, sameFlag⟩
  simp only at sameFlag
  subst sameFlag
  cases again with
  | false => exact alike_pure same
  | true => exact alike_throw .endless

/-! The parts that the bodies of a grammar are made of. -/

theorem alike_giveUp (reason : Abort) :
    Alike nodes states answers (giveUp reason : Body V α) (giveUp reason) :=
  alike_throw _

theorem alike_ofLexed (result : Except LexError α) :
    Alike nodes states Eq (ofLexed result : Body V α) (ofLexed result) := by
  rcases result with error | value
  · exact alike_giveUp _
  · exact alike_pure rfl

theorem alike_lex (token : Token α) :
    Alike nodes states Eq (lex token : Body V α) (lex token) := by
  exact alike_bind_same (alike_act (.lex fun _ _ => rfl)) alike_ofLexed

theorem alike_isNext (token : Token α) :
    Alike nodes states Eq (isNext token : Body V Bool) (isNext token) :=
  alike_act (.isNext fun _ _ => rfl)

theorem alike_mark : Alike nodes states Eq (mark : Body V Nat) mark :=
  alike_act .mark

theorem alike_restore (mark : Nat) : Alike nodes states Eq (restore mark : Body V Unit) (restore mark) :=
  alike_act (.restore mark)

theorem alike_atEnd : Alike nodes states Eq (atEnd : Body V Bool) atEnd :=
  alike_act .atEnd

theorem alike_parse (rule : V.Rule) {state state' : V.State} (alike : states state state') :
    Alike nodes states nodes (parse rule state) (parse rule state') :=
  alike_act (.parse rule alike)

theorem alike_adopt (corresponds : Corresponds nodes) {node node' : V.Node}
    (related : nodes node node') :
    Alike nodes states (Content.Alike nodes) (adopt node) (adopt node') := by
  rcases corresponds node node' related with ⟨label, _, _, _, children⟩
  exact alike_bind (alike_act (.adoptSkips related)) fun _ _ _ => alike_pure ⟨label, children⟩

end Body

end Reparse
