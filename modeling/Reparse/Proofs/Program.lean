import Reparse.Program

namespace Reparse

/-!
# Laws of programs

A program is data, and what holds of it follows from what holds of its
operations.  Whatever every operation preserves is preserved by the program.  If
two runners agree on every operation, and grant loops as many rounds, then they
agree on the program.
-/

universe u v

namespace Program

variable {Op : Type → Type u} {σ : Type}

theorem repeatStep_preserves {α : Type} {step : α → σ → (α × Bool) × σ} {good : σ → Prop}
    (preserves : ∀ answer state, good state → good (step answer state).2) (rounds : Nat)
    (answer : α) (state : σ) (holds : good state) : good (repeatStep step rounds answer state).2 := by
  induction rounds generalizing answer state with
  | zero => exact holds
  | succ rounds inductionHypothesis =>
      have after := preserves answer state holds
      rw [repeatStep]
      split
      · next next' state' becomes =>
          rw [becomes] at after
          exact inductionHypothesis next' state' after
      · next next' state' becomes =>
          rw [becomes] at after
          exact after

theorem run_preserves {handle : {β : Type} → Op β → σ → β × σ} {rounds : σ → Nat} (good : σ → Prop)
    (preserves : ∀ {β : Type} (operation : Op β) (state : σ), good state →
      good (handle operation state).2) {α : Type} (program : Program Op α) (state : σ)
    (holds : good state) : good (run handle rounds program state).2 := by
  induction program generalizing state with
  | pure answer => exact holds
  | perform operation => exact preserves operation state holds
  | bind first next firstHypothesis nextHypothesis =>
      exact nextHypothesis _ _ (firstHypothesis state holds)
  | loop start body bodyHypothesis =>
      exact repeatStep_preserves (fun answer state holds => bodyHypothesis answer state holds) _ _ _
        holds

/-- Every operation that the program may perform is allowed. -/
def Only (allowed : {β : Type} → Op β → Prop) {α : Type} : Program Op α → Prop
  | .pure _ => True
  | .perform operation => allowed operation
  | .bind first next => first.Only allowed ∧ ∀ answer, (next answer).Only allowed
  | .loop _ body => ∀ answer, (body answer).Only allowed

/-- Whatever every allowed operation preserves is preserved by a program that performs no others. -/
theorem Only.run_preserves {allowed : {β : Type} → Op β → Prop}
    {handle : {β : Type} → Op β → σ → β × σ} {rounds : σ → Nat} (good : σ → Prop)
    (preserves : ∀ {β : Type} (operation : Op β) (state : σ), allowed operation → good state →
      good (handle operation state).2) {α : Type} {program : Program Op α}
    (only : program.Only allowed) (state : σ) (holds : good state) :
    good (run handle rounds program state).2 := by
  induction program generalizing state with
  | pure answer => exact holds
  | perform operation => exact preserves operation state only holds
  | bind first next firstHypothesis nextHypothesis =>
      exact nextHypothesis _ (only.2 _) _ (firstHypothesis only.1 state holds)
  | loop start body bodyHypothesis =>
      exact repeatStep_preserves
        (fun answer state holds => bodyHypothesis answer (only answer) state holds) _ _ _ holds

section Simulation

variable {τ : Type} {handle : {β : Type} → Op β → σ → β × σ} {rounds : σ → Nat}
  {handle' : {β : Type} → Op β → τ → β × τ} {rounds' : τ → Nat}

theorem repeatStep_simulates {related : σ → τ → Prop} {α : Type} {step : α → σ → (α × Bool) × σ}
    {step' : α → τ → (α × Bool) × τ}
    (simulates : ∀ answer state state', related state state' →
      (step answer state).1 = (step' answer state').1 ∧
        related (step answer state).2 (step' answer state').2)
    (count : Nat) (answer : α) (state : σ) (state' : τ) (start : related state state') :
    (repeatStep step count answer state).1 = (repeatStep step' count answer state').1 ∧
      related (repeatStep step count answer state).2 (repeatStep step' count answer state').2 := by
  induction count generalizing answer state state' with
  | zero => exact ⟨rfl, start⟩
  | succ count inductionHypothesis =>
      rcases simulates answer state state' start with ⟨same, after⟩
      rw [repeatStep, repeatStep]
      generalize step answer state = outcome at same after ⊢
      generalize step' answer state' = outcome' at same after ⊢
      rcases outcome with ⟨⟨next, again⟩, state⟩
      rcases outcome' with ⟨⟨next', again'⟩, state'⟩
      cases same
      cases again with
      | false => exact ⟨rfl, after⟩
      | true => exact inductionHypothesis next state state' after

/-- Two runners of a program that agree on every operation agree on the program. -/
theorem run_simulates (related : σ → τ → Prop) (sameRounds : ∀ state state', related state state' →
      rounds state = rounds' state')
    (simulates : ∀ {β : Type} (operation : Op β) (state : σ) (state' : τ), related state state' →
      (handle operation state).1 = (handle' operation state').1 ∧
        related (handle operation state).2 (handle' operation state').2)
    {α : Type} (program : Program Op α) (state : σ) (state' : τ) (start : related state state') :
    (run handle rounds program state).1 = (run handle' rounds' program state').1 ∧
      related (run handle rounds program state).2 (run handle' rounds' program state').2 := by
  induction program generalizing state state' with
  | pure answer => exact ⟨rfl, start⟩
  | perform operation => exact simulates operation state state' start
  | bind first next firstHypothesis nextHypothesis =>
      rcases firstHypothesis state state' start with ⟨same, after⟩
      rw [run, run]
      generalize run handle rounds first state = outcome at same after ⊢
      generalize run handle' rounds' first state' = outcome' at same after ⊢
      rcases outcome with ⟨answer, state⟩
      rcases outcome' with ⟨answer', state'⟩
      cases same
      exact nextHypothesis answer state state' after
  | loop start' body bodyHypothesis =>
      rw [run, run, sameRounds state state' start]
      exact repeatStep_simulates (fun answer state state' related =>
        bodyHypothesis answer state state' related) _ _ state state' start

end Simulation

/-- A program over other operations is run by running what each operation stands for. -/
theorem run_expand {Target : Type → Type v} (meaning : {β : Type} → Op β → Program Target β)
    (handle : {β : Type} → Target β → σ → β × σ) (rounds : σ → Nat) {α : Type}
    (program : Program Op α) (state : σ) :
    run handle rounds (program.expand meaning) state =
      run (fun operation state => run handle rounds (meaning operation) state) rounds program
        state := by
  induction program generalizing state with
  | pure answer => rfl
  | perform operation => rfl
  | bind first next firstHypothesis nextHypothesis =>
      rw [expand, run, run, firstHypothesis]
      exact nextHypothesis _ _
  | loop start body bodyHypothesis =>
      rw [expand, run, run]
      congr 1
      funext answer state
      exact bodyHypothesis answer state

/-! ## Programs that may fail -/

section Failing

variable {ε α β : Type} {handle : {β : Type} → Op β → σ → β × σ} {rounds : σ → Nat}

theorem run_bind (first : ExceptT ε (Program Op) α) (next : α → ExceptT ε (Program Op) β)
    (state : σ) :
    run handle rounds (first >>= next).run state =
      match run handle rounds first.run state with
      | (.ok answer, after) => run handle rounds (next answer).run after
      | (.error failure, after) => (.error failure, after) := by
  have unfolded : run handle rounds (first >>= next).run state =
      run handle rounds (ExceptT.bindCont next (run handle rounds first.run state).1)
        (run handle rounds first.run state).2 := rfl
  rw [unfolded]
  rcases run handle rounds first.run state with ⟨_ | answer, after⟩ <;> rfl

theorem run_seq (first : Program Op α) (next : α → Program Op β) (state : σ) :
    run handle rounds (first >>= next) state =
      run handle rounds (next (run handle rounds first state).1)
        (run handle rounds first state).2 :=
  rfl

theorem run_attempt (body : α → ExceptT ε (Program Op) (α × Bool)) (answer : α) (state : σ) :
    run handle rounds (attempt body (.ok answer)) state =
      match run handle rounds (body answer).run state with
      | (.ok (next, again), after) => ((.ok next, again), after)
      | (.error failure, after) => ((.error failure, false), after) := by
  rw [attempt, run_seq]
  generalize run handle rounds (body answer).run state = outcome
  rcases outcome with ⟨_ | ⟨next, again⟩, after⟩ <;> rfl

end Failing

/-! ## What programs yield

A state may be lost, so that nothing is promised of what is made in it or after it.  What
a program yields is said of all states but these.
-/

section Yields

variable {ε α β : Type}

/-- A program ends as the goal says, unless it ends in a lost state. -/
def Yields (handle : {β : Type} → Op β → σ → β × σ) (rounds : σ → Nat) (lost : σ → Prop)
    (program : ExceptT ε (Program Op) α) (state : σ) (goal : Except ε α → σ → Prop) : Prop :=
  lost (run handle rounds program.run state).2 ∨
    goal (run handle rounds program.run state).1 (run handle rounds program.run state).2

/-- One goal for success, and another one for failure. -/
def either (succeeds : α → σ → Prop) (fails : ε → σ → Prop) : Except ε α → σ → Prop
  | .ok answer, state => succeeds answer state
  | .error failure, state => fails failure state

variable {handle : {β : Type} → Op β → σ → β × σ} {rounds : σ → Nat} {lost : σ → Prop}
  {goal : Except ε α → σ → Prop}

theorem Yields.imp {program : ExceptT ε (Program Op) α} {state : σ}
    {goal' : Except ε α → σ → Prop} (yields : Yields handle rounds lost program state goal)
    (implies : ∀ result after, goal result after → goal' result after) :
    Yields handle rounds lost program state goal' :=
  yields.imp_right (implies _ _)

theorem yields_pure {answer : α} {state : σ} (holds : goal (.ok answer) state) :
    Yields handle rounds lost (Pure.pure answer) state goal :=
  Or.inr holds

theorem yields_throw {failure : ε} {state : σ} (holds : goal (.error failure) state) :
    Yields handle rounds lost (throw failure) state goal :=
  Or.inr holds

theorem yields_bind (stays : ∀ {β : Type} (operation : Op β) (state : σ), lost state →
      lost (handle operation state).2)
    {first : ExceptT ε (Program Op) α} {next : α → ExceptT ε (Program Op) β} {state : σ}
    {goal : Except ε β → σ → Prop}
    (yields : Yields handle rounds lost first state
      (either (fun answer after => Yields handle rounds lost (next answer) after goal)
        fun failure after => goal (.error failure) after)) :
    Yields handle rounds lost (first >>= next) state goal := by
  rw [Yields, run_bind]
  rw [Yields] at yields
  generalize run handle rounds first.run state = outcome at yields ⊢
  rcases outcome with ⟨failure | answer, after⟩
  · exact yields
  · rcases yields with isLost | yields
    · exact Or.inl (run_preserves lost stays (next answer).run after isLost)
    · exact yields

/-- A loop ends before the rounds run out if a measure falls in each of them. -/
theorem yields_loop (stays : ∀ {β : Type} (operation : Op β) (state : σ), lost state →
      lost (handle operation state).2)
    (invariant : α → σ → Nat → Prop) {body : α → ExceptT ε (Program Op) (α × Bool)}
    (round : ∀ answer state measure, invariant answer state measure →
      Yields handle rounds lost (body answer) state
        (either (fun next after => match next with
            | (next, true) => ∃ smaller, smaller < measure ∧ invariant next after smaller
            | (next, false) => goal (.ok next) after)
          fun failure after => goal (.error failure) after))
    {start : α} {state : σ} {measure : Nat} (initial : invariant start state measure)
    (enough : measure < rounds state) :
    Yields handle rounds lost (loopUntilFailure start body) state goal := by
  have unfolded : run handle rounds (loopUntilFailure start body).run state =
      repeatStep (fun answer => run handle rounds (attempt body answer)) (rounds state) (.ok start)
        state := rfl
  rw [Yields, unfolded]
  clear unfolded
  generalize rounds state = count at enough
  induction count generalizing start state measure with
  | zero => exact absurd enough (Nat.not_lt_zero _)
  | succ count inductionHypothesis =>
      have known := round start state measure initial
      rw [Yields] at known
      rw [repeatStep]
      simp only [run_attempt]
      generalize run handle rounds (body start).run state = outcome at known ⊢
      rcases outcome with ⟨failure | ⟨next, _ | _⟩, after⟩
      · exact known
      · exact known
      · rcases known with isLost | ⟨smaller, less, holds⟩
        · exact Or.inl (repeatStep_preserves
            (fun answer state isLost => run_preserves lost stays _ state isLost) _ _ _ isLost)
        · exact inductionHypothesis holds (Nat.lt_of_lt_of_le less (Nat.le_of_lt_succ enough))

end Yields

end Program

end Reparse
