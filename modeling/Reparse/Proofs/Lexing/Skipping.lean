import Mathlib.Data.Fintype.Pigeonhole
import Reparse.Proofs.Lexing.Tokens
import Reparse.Proofs.Rope.Navigating

namespace Reparse

/-!
# When skipping ends

Skipping goes from index to index.  A round takes the first token that matches, and the
next round starts where it stopped.  The only test is whether the round has moved.  A
token may step back, and so a round may lead back to where skipping was before.

What skipping is, without a bound on the rounds, is told by a relation.  It has at most
one outcome, and where it has stopped it skips nothing more.  Indices within a text are
as many as the text has characters, and one.  So skipping that never comes to an index
for the second time ends within that number of rounds, and skipping that does come back
goes round for ever.  If no round steps back then skipping ends, and not before its start.
-/

namespace Token

variable {α : Type} {tokens : List (Token α)} {text : List Char} {index stop : Nat}
  {values : List α}

/-! ## Rounds -/

/-- What a round skips and where it stops.  A round that does not move skips nothing. -/
def skipOnce (tokens : List (Token α)) (text : List Char) (index : Nat) : Option (α × Nat) :=
  (tokens.findSome? fun token => (token.read text index).toOption).filter (·.2 ≠ index)

theorem skipOver_succ (tokens : List (Token α)) (text : List Char) (rounds index : Nat) :
    skipOver tokens text (rounds + 1) index =
      match skipOnce tokens text index with
      | some (value, next) =>
        (value :: (skipOver tokens text rounds next).1, (skipOver tokens text rounds next).2)
      | none => ([], index) := by
  rw [skipOver, skipOnce]
  cases tokens.findSome? fun token => (token.read text index).toOption with
  | none => rfl
  | some answer =>
      rcases answer with ⟨value, next⟩
      by_cases still : next = index
      · simp [Option.filter, still]
      · simp [Option.filter, still]

theorem skipOnce_moves {value : α} {next : Nat}
    (once : skipOnce tokens text index = some (value, next)) : next ≠ index := by
  rw [skipOnce, Option.filter_eq_some_iff] at once
  exact of_decide_eq_true once.2

theorem onText_le {β : Type} (reading : Reading β) (within : index ≤ text.length) :
    (reading.onText text index).2 ≤ text.length := by
  cases reading with
  | next count => exact Nat.min_le_right _ _
  | nextChar =>
      rw [Reading.onText]
      cases found : text[index]? with
      | none => exact within
      | some char => exact (List.getElem?_eq_some_iff.mp found).1
  | peek => exact within
  | back count => exact Nat.le_trans (Nat.sub_le _ _) within
  | position => exact within

/-- A token that starts in the text stops in the text. -/
theorem read_le {token : Token α} {value : α} (within : index ≤ text.length)
    (matched : token.read text index = .ok (value, stop)) : stop ≤ text.length := by
  have after : (token.runOver text index).2 ≤ text.length :=
    Program.run_preserves (· ≤ text.length) (fun reading _ inside => onText_le reading inside)
      token.run index within
  unfold read at matched
  split at matched
  · next found =>
      cases matched
      rw [found] at after
      exact after
  · cases matched

theorem skipOnce_le {value : α} {next : Nat} (within : index ≤ text.length)
    (once : skipOnce tokens text index = some (value, next)) : next ≤ text.length := by
  rw [skipOnce, Option.filter_eq_some_iff] at once
  rcases List.exists_of_findSome?_eq_some once.1 with ⟨token, _, matched⟩
  cases result : token.read text index with
  | error error =>
      rw [result] at matched
      cases matched
  | ok answer =>
      rw [result] at matched
      cases matched
      exact read_le within result

/-! ## Skipping without a bound -/

/-- What is skipped from an index, and where skipping stops. -/
inductive Skips (tokens : List (Token α)) (text : List Char) : Nat → List α → Nat → Prop where
  | stays {index : Nat} (still : skipOnce tokens text index = none) : Skips tokens text index [] index
  | moves {index next stop : Nat} {value : α} {values : List α}
      (once : skipOnce tokens text index = some (value, next))
      (rest : Skips tokens text next values stop) : Skips tokens text index (value :: values) stop

/-- Where skipping is after a number of rounds, unless it has ended before. -/
def skippedTo (tokens : List (Token α)) (text : List Char) : Nat → Nat → Option Nat
  | 0, index => some index
  | rounds + 1, index => do
    let (_, next) ← skipOnce tokens text index
    skippedTo tokens text rounds next

/-- Skipping comes to an index for the second time. -/
def ComesBack (tokens : List (Token α)) (text : List Char) (index : Nat) : Prop :=
  ∃ earlier later here, earlier < later ∧ skippedTo tokens text earlier index = some here ∧
    skippedTo tokens text later index = some here

namespace Skips

theorem unique {values' : List α} {stop' : Nat} (skips : Skips tokens text index values stop)
    (skips' : Skips tokens text index values' stop') : values = values' ∧ stop = stop' := by
  induction skips generalizing values' with
  | stays still =>
      cases skips' with
      | stays _ => exact ⟨rfl, rfl⟩
      | moves once _ => cases still.symm.trans once
  | moves once rest inductionHypothesis =>
      cases skips' with
      | stays still => cases still.symm.trans once
      | moves once' rest' =>
          cases Option.some.inj (once.symm.trans once')
          rcases inductionHypothesis rest' with ⟨rfl, rfl⟩
          exact ⟨rfl, rfl⟩

/-- Nothing more is skipped where skipping has stopped. -/
theorem still (skips : Skips tokens text index values stop) : skipOnce tokens text stop = none := by
  induction skips with
  | stays still => exact still
  | moves _ _ inductionHypothesis => exact inductionHypothesis

theorem le_length (skips : Skips tokens text index values stop) (within : index ≤ text.length) :
    stop ≤ text.length := by
  induction skips with
  | stays _ => exact within
  | moves once _ inductionHypothesis => exact inductionHypothesis (skipOnce_le within once)

/-- Rounds that are more than what is skipped are enough. -/
theorem skipOver_eq (skips : Skips tokens text index values stop) {rounds : Nat}
    (enough : values.length < rounds) : skipOver tokens text rounds index = (values, stop) := by
  induction skips generalizing rounds with
  | stays still =>
      cases rounds with
      | zero => exact absurd enough (Nat.not_lt_zero _)
      | succ rounds => rw [skipOver_succ, still]
  | moves once _ inductionHypothesis =>
      cases rounds with
      | zero => exact absurd enough (Nat.not_lt_zero _)
      | succ rounds =>
          rw [skipOver_succ, once]
          simp only [inductionHypothesis (Nat.lt_of_succ_lt_succ enough)]

/-- From wherever skipping comes it goes on to the same end. -/
theorem onwards (skips : Skips tokens text index values stop) {rounds here : Nat}
    (comes : skippedTo tokens text rounds index = some here) :
    ∃ rest, Skips tokens text here rest stop ∧ values.length = rounds + rest.length := by
  induction rounds generalizing index values with
  | zero =>
      cases comes
      exact ⟨values, skips, (Nat.zero_add _).symm⟩
  | succ rounds inductionHypothesis =>
      rw [skippedTo] at comes
      cases skips with
      | stays still =>
          rw [still] at comes
          cases comes
      | moves once rest =>
          rw [once] at comes
          rcases inductionHypothesis rest comes with ⟨last, skips, length⟩
          refine ⟨last, skips, ?_⟩
          rw [List.length_cons, length]
          omega

/-- Skipping that ends never comes to an index for the second time. -/
theorem not_comesBack (skips : Skips tokens text index values stop) :
    ¬ ComesBack tokens text index := by
  rintro ⟨earlier, later, here, before, comes, comesBack⟩
  rcases skips.onwards comes with ⟨rest, skips', length⟩
  rcases skips.onwards comesBack with ⟨rest', skips'', length'⟩
  have same : rest = rest' := (skips'.unique skips'').1
  subst same
  omega

end Skips

/-! ## Ending -/

/-- Skipping ends where some round is not reached. -/
theorem skips_of_ended {rounds : Nat} (ended : skippedTo tokens text rounds index = none) :
    ∃ values stop, Skips tokens text index values stop ∧ values.length < rounds := by
  induction rounds generalizing index with
  | zero => cases ended
  | succ rounds inductionHypothesis =>
      rw [skippedTo] at ended
      cases once : skipOnce tokens text index with
      | none => exact ⟨[], index, .stays once, Nat.succ_pos _⟩
      | some answer =>
          rcases answer with ⟨value, next⟩
          rw [once] at ended
          rcases inductionHypothesis ended with ⟨values, stop, skips, short⟩
          exact ⟨value :: values, stop, .moves once skips, Nat.succ_lt_succ short⟩

theorem skippedTo_le {rounds here : Nat} (within : index ≤ text.length)
    (comes : skippedTo tokens text rounds index = some here) : here ≤ text.length := by
  induction rounds generalizing index with
  | zero =>
      cases comes
      exact within
  | succ rounds inductionHypothesis =>
      rw [skippedTo] at comes
      cases once : skipOnce tokens text index with
      | none =>
          rw [once] at comes
          cases comes
      | some answer =>
          rw [once] at comes
          exact inductionHypothesis (skipOnce_le within once) comes

/-- A round that is reached has all earlier ones before it. -/
theorem skippedTo_of_later {earlier later here : Nat} (before : earlier ≤ later)
    (comes : skippedTo tokens text later index = some here) :
    ∃ there, skippedTo tokens text earlier index = some there := by
  induction earlier generalizing later index with
  | zero => exact ⟨index, rfl⟩
  | succ earlier inductionHypothesis =>
      cases later with
      | zero => exact absurd before (Nat.not_succ_le_zero _)
      | succ later =>
          rw [skippedTo] at comes ⊢
          cases once : skipOnce tokens text index with
          | none =>
              rw [once] at comes
              cases comes
          | some answer =>
              rw [once] at comes
              exact inductionHypothesis (Nat.le_of_succ_le_succ before) comes

/-- Skipping that reaches more rounds than there are indices has come to one of them twice. -/
theorem comesBack_of_skippedTo {here : Nat} (within : index ≤ text.length)
    (comes : skippedTo tokens text (text.length + 1) index = some here) :
    ComesBack tokens text index := by
  have reached : ∀ round : Fin (text.length + 2), ∃ there : Fin (text.length + 1),
      skippedTo tokens text round index = some there.val := by
    intro round
    rcases skippedTo_of_later (Nat.le_of_lt_succ round.isLt) comes with ⟨there, found⟩
    exact ⟨⟨there, Nat.lt_succ_of_le (skippedTo_le within found)⟩, found⟩
  choose visited isVisited using reached
  have fewer : Fintype.card (Fin (text.length + 1)) < Fintype.card (Fin (text.length + 2)) := by
    rw [Fintype.card_fin, Fintype.card_fin]
    exact Nat.lt_succ_self _
  rcases Fintype.exists_ne_map_eq_of_card_lt visited fewer with ⟨one, other, different, same⟩
  have comesBack : ∀ {earlier later : Fin (text.length + 2)}, earlier < later →
      visited earlier = visited later → ComesBack tokens text index := by
    intro earlier later before same
    exact ⟨earlier, later, visited earlier, before, isVisited earlier, same ▸ isVisited later⟩
  rcases lt_or_gt_of_ne different with before | behind
  · exact comesBack before same
  · exact comesBack behind same.symm

/-- Skipping ends within the rounds that it is granted, or comes back and never ends. -/
theorem skips_or_comesBack (within : index ≤ text.length) :
    (∃ values stop, Skips tokens text index values stop ∧ values.length < text.length + 1) ∨
      ComesBack tokens text index := by
  cases comes : skippedTo tokens text (text.length + 1) index with
  | none => exact Or.inl (skips_of_ended comes)
  | some here => exact Or.inr (comesBack_of_skippedTo within comes)

theorem exists_skips_iff (within : index ≤ text.length) :
    (∃ values stop, Skips tokens text index values stop) ↔ ¬ ComesBack tokens text index := by
  constructor
  · rintro ⟨values, stop, skips⟩
    exact skips.not_comesBack
  · intro never
    rcases skips_or_comesBack within with ⟨values, stop, skips, _⟩ | comesBack
    · exact ⟨values, stop, skips⟩
    · exact absurd comesBack never

/-- The rounds that are granted are enough for all skipping that ends. -/
theorem Skips.skipOver (skips : Skips tokens text index values stop) (within : index ≤ text.length) :
    Token.skipOver tokens text (text.length + 1) index = (values, stop) := by
  rcases skips_or_comesBack within with ⟨values', stop', skips', short⟩ | comesBack
  · rcases skips.unique skips' with ⟨rfl, rfl⟩
    exact skips.skipOver_eq short
  · exact absurd comesBack skips.not_comesBack

/-! ## Rounds that do not step back -/

/-- No round that begins at an index or behind it steps back. -/
def Onward (tokens : List (Token α)) (text : List Char) (index : Nat) : Prop :=
  ∀ here value next, index ≤ here → skipOnce tokens text here = some (value, next) → here ≤ next

theorem Onward.behind {next : Nat} (onward : Onward tokens text index) (ahead : index ≤ next) :
    Onward tokens text next :=
  fun here value stop behind => onward here value stop (Nat.le_trans ahead behind)

/-- A round that moves and does not step back has less text before it. -/
theorem Onward.skips (onward : Onward tokens text index) (within : index ≤ text.length) :
    ∃ values stop, Skips tokens text index values stop ∧ index ≤ stop := by
  induction left : text.length - index using Nat.strong_induction_on generalizing index with
  | _ left inductionHypothesis =>
      cases once : skipOnce tokens text index with
      | none => exact ⟨[], index, .stays once, Nat.le_refl _⟩
      | some answer =>
          rcases answer with ⟨value, next⟩
          have ahead := onward index value next (Nat.le_refl _) once
          have moved := skipOnce_moves once
          have inside := skipOnce_le within once
          rcases inductionHypothesis (text.length - next) (by omega) (onward.behind ahead) inside rfl
            with ⟨values, stop, skips, behind⟩
          exact ⟨value :: values, stop, .moves once skips, Nat.le_trans ahead behind⟩

/-- A token that steps back is skipped backwards, from the end of the text to its start. -/
example : Skips [back 1] ['a', 'b'] 2 [(), ()] 0 := by
  have first : skipOnce [back 1] ['a', 'b'] 2 = some ((), 1) := by decide +kernel
  have second : skipOnce [back 1] ['a', 'b'] 1 = some ((), 0) := by decide +kernel
  have last : skipOnce [back 1] ['a', 'b'] 0 = none := by decide +kernel
  exact .moves first (.moves second (.stays last))

/-- One token takes what the other one gives back, and skipping goes round for ever. -/
example : ComesBack [exactly 'a' "", exactly 'b' "" <* back 2] ['a', 'b'] 0 :=
  ⟨0, 2, 0, by decide, by decide +kernel, by decide +kernel⟩

end Token

namespace Desk

/-- After any commands, in a newest rope, whatever the tokens do: skipping ends unless it comes to
an index for the second time.  Where it ends it yields what the rounds skip, stops in the text,
and skips nothing when it is run again from there.  If no round behind the start steps back it
does end, and not before the start. -/
theorem skipping_ends_unless_it_comes_back (commands : List Command) :
    let desk := run commands
    let store := desk.store
    ∀ rope ∈ desk.ropes, store.Newest rope → ∀ {α : Type} (tokens : List (Token α)),
      let text := (store.text rope).toList
      let skipFrom := fun index =>
        Token.skipFrom tokens (store.buffer rope.buffer) (store.positionAt rope index).place
      ∀ index ≤ text.length,
        ((∃ values stop, Token.Skips tokens text index values stop) ↔
          ¬ Token.ComesBack tokens text index) ∧
        (∀ values stop, Token.Skips tokens text index values stop → stop ≤ text.length ∧
          skipFrom index = (values, (store.positionAt rope stop).place) ∧
          Token.Skips tokens text stop [] stop ∧
          skipFrom stop = ([], (store.positionAt rope stop).place)) ∧
        (Token.Onward tokens text index →
          ∃ values stop, Token.Skips tokens text index values stop ∧ index ≤ stop) := by
  intro desk store rope member newest α tokens text skipFrom index within
  obtain ⟨shape, hosts, isText⟩ : ∃ shape, store.Hosts rope shape ∧ text = shape.text :=
    exists_hosts commands member newest
  have skipped : ∀ index values stop, index ≤ text.length →
      Token.Skips tokens text index values stop →
      skipFrom index = (values, (store.positionAt rope stop).place) := by
    intro index values stop within skips
    have start := hosts.stands (isText ▸ within)
    have same := Token.skipFrom_eq hosts.current tokens start
    rw [← isText, skips.skipOver within] at same
    rcases same with ⟨yields, stands⟩
    simp only [skipFrom, (hosts.positionAt_of_stands start).1]
    exact Prod.ext yields (hosts.positionAt_of_stands stands).1.symm
  refine ⟨Token.exists_skips_iff within, ?_, fun onward => onward.skips within⟩
  intro values stop skips
  have inside := skips.le_length within
  exact ⟨inside, skipped _ _ _ within skips, .stays skips.still,
    skipped _ _ _ inside (.stays skips.still)⟩

end Desk

end Reparse
