/-!
# Programs over a set of operations

Tokens, grammar rules and the matcher are written as programs.  A program is
plain data: it performs operations, goes on with what they answer, and may
repeat a part of itself.  What the operations do is left to whoever runs it.
The same program can therefore be run over a string or over a rope, and a law
about every token, or about every rule, is a law about every program.

A loop repeats its body for as long as the body asks for it, but for no more
rounds than the runner grants at the start of the loop.  Runners here grant
one round more than there are characters in the text.  A loop that makes
progress in each round never notices the limit.
-/

namespace Reparse

universe u v

/-- A computation that answers an `α` and touches its surroundings only by
operations from `Op`. -/
inductive Program (Op : Type → Type u) : Type → Type (max 1 u) where
  | pure {α : Type} (answer : α) : Program Op α
  | perform {α : Type} (operation : Op α) : Program Op α
  | bind {α β : Type} (first : Program Op α) (next : α → Program Op β) : Program Op β
  | loop {α : Type} (start : α) (body : α → Program Op (α × Bool)) : Program Op α

namespace Program

variable {Op : Type → Type u} {σ α ε : Type}

instance : Monad (Program Op) where
  pure := .pure
  bind := .bind

/-- Run a step until it answers `false`, at most the given number of times. -/
@[specialize] def repeatStep (step : α → σ → (α × Bool) × σ) : Nat → α → σ → α × σ
  | 0, answer, state => (answer, state)
  | rounds + 1, answer, state =>
    match step answer state with
    | ((next, true), after) => repeatStep step rounds next after
    | ((next, false), after) => (next, after)

/-- Run a program from a state, given what each operation does to the state
and how many rounds a loop is granted. -/
@[specialize] def run (handle : {β : Type} → Op β → σ → β × σ) (rounds : σ → Nat) {α : Type} :
    Program Op α → σ → α × σ
  | .pure answer, state => (answer, state)
  | .perform operation, state => handle operation state
  | .bind first next, state =>
    match run handle rounds first state with
    | (answer, after) => run handle rounds (next answer) after
  | .loop start body, state =>
    repeatStep (fun answer => run handle rounds (body answer)) (rounds state) start state

/-- Replace each operation by a program over other operations. -/
def expand {Target : Type → Type v} (meaning : {β : Type} → Op β → Program Target β)
    {α : Type} : Program Op α → Program Target α
  | .pure answer => .pure answer
  | .perform operation => meaning operation
  | .bind first next => .bind (expand meaning first) fun answer => expand meaning (next answer)
  | .loop start body => .loop start fun answer => expand meaning (body answer)

/-- One round of a body that may fail.  After a failure there is no other round. -/
def attempt (body : α → ExceptT ε (Program Op) (α × Bool)) :
    Except ε α → Program Op (Except ε α × Bool)
  | .ok answer => do
    match ← (body answer).run with
    | .ok (next, again) => return (.ok next, again)
    | .error failure => return (.error failure, false)
  | .error failure => return (.error failure, false)

/-- Repeat a body that may fail.  A failure ends the loop and is its answer. -/
def loopUntilFailure (start : α) (body : α → ExceptT ε (Program Op) (α × Bool)) :
    ExceptT ε (Program Op) α :=
  ExceptT.mk (.loop (.ok start) (attempt body))

end Program

end Reparse
