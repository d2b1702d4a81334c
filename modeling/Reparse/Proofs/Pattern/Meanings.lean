import Reparse.Proofs.Pattern.Denotation
import Reparse.Proofs.Pattern.Expressions

namespace Reparse

/-!
# Meanings of trees

Each way to make a tree out of others has its counterpart among the meanings of
expressions.  A repetition that is bounded from above is written as copies that
may be left out.  Once a copy fails the next one fails at the same place, so this
is to repeat until the first failure.

A token for the program of a tree reads what the tree means.
-/

namespace Pattern

/-- A task ends as a meaning says. -/
structure Instruction.Task.Means (task : Instruction.Task) (meaning : Meaning) : Prop where
  matched : ∀ {text index stop}, index ≤ text.length → meaning text index = some stop →
    Instruction.Denotes text task index true stop
  failed : ∀ {text index}, index ≤ text.length → meaning text index = none →
    ∃ stop, Instruction.Denotes text task index false stop

namespace Instruction

variable {tree : Instruction} {parts parts' : List Instruction} {meaning meaning' : Meaning}
  {text : List Char} {index stop count : Nat}

/-- A tree matches as a meaning says. -/
abbrev Means (tree : Instruction) (meaning : Meaning) : Prop := (Task.single tree).Means meaning

theorem means_one (belongs : Char → Bool)
    (taken : ∀ text index char, text[index]? = some char →
      Denotes text (.single tree) index (belongs char) (index + 1))
    (ended : ∀ text index, text[index]? = none → Denotes text (.single tree) index false index) :
    tree.Means (.one belongs) := by
  constructor
  · intro text index stop _ found
    rw [Meaning.one] at found
    split at found
    · next holds =>
        rcases (Option.any_eq_true _ _).mp holds with ⟨char, isChar, isOne⟩
        cases found
        exact isOne ▸ taken text index char isChar
    · cases found
  · intro text index _ missing
    rw [Meaning.one] at missing
    split at missing
    · cases missing
    · next fails =>
        cases found : text[index]? with
        | none => exact ⟨index, ended text index found⟩
        | some char =>
            rw [found, Option.any_some, Bool.not_eq_true] at fails
            exact ⟨index + 1, fails ▸ taken text index char found⟩

theorem means_char (expected : Char) : (char expected).Means (.one (· == expected)) :=
  means_one _ (fun _ _ _ found => .char found) fun _ _ ended => .charAtEnd ended

theorem means_range (first last : Char) : (range first last).Means
    (.one fun char => decide (first ≤ char) && decide (char ≤ last)) :=
  means_one _ (fun _ _ _ found => .range found) fun _ _ ended => .rangeAtEnd ended

theorem means_concat (means : (Task.sequence parts).Means meaning) : (concat parts).Means meaning where
  matched inside found := .concat (means.matched inside found)
  failed inside missing := (means.failed inside missing).imp fun _ denotes => .concat denotes

theorem means_union (means : (Task.choice parts).Means meaning) : (union parts).Means meaning where
  matched inside found := .union (means.matched inside found)
  failed inside missing := (means.failed inside missing).imp fun _ denotes => .union denotes

theorem sequence_of_concat (means : (concat parts).Means meaning) :
    (Task.sequence parts).Means meaning where
  matched inside found := by
    cases means.matched inside found with
    | concat sequence => exact sequence
  failed inside missing := by
    rcases means.failed inside missing with ⟨stop, denotes⟩
    cases denotes with
    | concat sequence => exact ⟨stop, sequence⟩

theorem choice_of_union (means : (union parts).Means meaning) :
    (Task.choice parts).Means meaning where
  matched inside found := by
    cases means.matched inside found with
    | union choice => exact choice
  failed inside missing := by
    rcases means.failed inside missing with ⟨stop, denotes⟩
    cases denotes with
    | union choice => exact ⟨stop, choice⟩

/-! ### Sequences -/

theorem means_sequence_nil : (Task.sequence []).Means .empty where
  matched _ found := by
    cases found
    exact .sequenceDone
  failed _ missing := by cases missing

theorem sequence_append_failed (denotes : Denotes text (.sequence parts) index false stop) :
    Denotes text (.sequence (parts ++ parts')) index false stop := by
  induction parts generalizing index with
  | nil => cases denotes
  | cons part parts inductionHypothesis =>
      cases denotes with
      | sequenceFailed first => exact .sequenceFailed first
      | sequenceGoesOn first rest => exact .sequenceGoesOn first (inductionHypothesis rest)

theorem sequence_append {answer : Bool} {middle : Nat}
    (denotes : Denotes text (.sequence parts) index true middle)
    (rest : Denotes text (.sequence parts') middle answer stop) :
    Denotes text (.sequence (parts ++ parts')) index answer stop := by
  induction parts generalizing index with
  | nil =>
      cases denotes
      exact rest
  | cons part parts inductionHypothesis =>
      cases denotes with
      | sequenceGoesOn first others => exact .sequenceGoesOn first (inductionHypothesis others)

theorem means_sequence_append (means : (Task.sequence parts).Means meaning)
    (means' : (Task.sequence parts').Means meaning') :
    (Task.sequence (parts ++ parts')).Means (meaning.andThen meaning') where
  matched inside found := by
    rcases Option.bind_eq_some_iff.mp found with ⟨middle, first, rest⟩
    have denotes := means.matched inside first
    exact sequence_append denotes (means'.matched (denotes.within inside) rest)
  failed := by
    intro text index inside missing
    rw [Meaning.andThen] at missing
    cases first : meaning text index with
    | none => exact (means.failed inside first).imp fun _ denotes => sequence_append_failed denotes
    | some middle =>
        rw [first] at missing
        have denotes := means.matched inside first
        exact (means'.failed (denotes.within inside) missing).imp fun _ rest =>
          sequence_append denotes rest

theorem means_sequence_single (means : tree.Means meaning) :
    (Task.sequence [tree]).Means meaning where
  matched inside found := .sequenceGoesOn (means.matched inside found) .sequenceDone
  failed inside missing := (means.failed inside missing).imp fun _ denotes => .sequenceFailed denotes

theorem means_sequence_cons (means : tree.Means meaning)
    (means' : (Task.sequence parts).Means meaning') :
    (Task.sequence (tree :: parts)).Means (meaning.andThen meaning') :=
  means_sequence_append (means_sequence_single means) means'

/-! ### Choices -/

theorem means_choice_nil : (Task.choice []).Means .nowhere where
  matched _ found := by cases found
  failed _ _ := ⟨_, .choiceNone⟩

theorem choice_append_matched (denotes : Denotes text (.choice parts) index true stop) :
    Denotes text (.choice (parts ++ parts')) index true stop := by
  induction parts with
  | nil => cases denotes
  | cons part parts inductionHypothesis =>
      cases denotes with
      | choiceFirst first => exact .choiceFirst first
      | choiceLater first rest => exact .choiceLater first (inductionHypothesis rest)

theorem choice_append {answer : Bool} {failed : Nat}
    (denotes : Denotes text (.choice parts) index false failed)
    (rest : Denotes text (.choice parts') index answer stop) :
    Denotes text (.choice (parts ++ parts')) index answer stop := by
  induction parts with
  | nil => exact rest
  | cons part parts inductionHypothesis =>
      cases denotes with
      | choiceLater first others => exact .choiceLater first (inductionHypothesis others)

theorem means_choice_append (means : (Task.choice parts).Means meaning)
    (means' : (Task.choice parts').Means meaning') :
    (Task.choice (parts ++ parts')).Means (meaning.orElse meaning') where
  matched := by
    intro text index stop inside found
    rw [Meaning.orElse] at found
    cases first : meaning text index with
    | none =>
        rw [first] at found
        rcases means.failed inside first with ⟨_, denotes⟩
        exact choice_append denotes (means'.matched inside found)
    | some _ =>
        rw [first] at found
        cases found
        exact choice_append_matched (means.matched inside first)
  failed := by
    intro text index inside missing
    rcases Option.or_eq_none_iff.mp missing with ⟨first, second⟩
    rcases means.failed inside first with ⟨_, denotes⟩
    exact (means'.failed inside second).imp fun _ rest => choice_append denotes rest

theorem means_choice_single (means : tree.Means meaning) : (Task.choice [tree]).Means meaning where
  matched inside found := .choiceFirst (means.matched inside found)
  failed inside missing := by
    rcases means.failed inside missing with ⟨_, denotes⟩
    exact ⟨_, .choiceLater denotes .choiceNone⟩

/-- A union of characters is a class. -/
theorem means_anyOf (chars : List Char) : (union (chars.map char)).Means (.one chars.contains) := by
  refine means_union ?_
  induction chars with
  | nil =>
      have nothing : (Meaning.one ([] : List Char).contains) = .nowhere := Meaning.one_false
      rw [nothing]
      exact means_choice_nil
  | cons first chars inductionHypothesis =>
      have either : Meaning.one (first :: chars).contains =
          (Meaning.one (· == first)).orElse (.one chars.contains) := by
        rw [Meaning.one_orElse_one]
        exact congrArg Meaning.one (funext fun _ => List.contains_cons)
      rw [either]
      exact means_choice_append (means_choice_single (means_char first)) inductionHypothesis

/-! ### Repetitions -/

theorem means_times (means : tree.Means meaning) (count : Nat) :
    (Task.sequence (List.replicate count tree)).Means (meaning.times count) := by
  induction count with
  | zero => exact means_sequence_nil
  | succ count inductionHypothesis => exact means_sequence_cons means inductionHypothesis

/-- No more rounds move ahead than there are characters left. -/
theorem denotes_star (means : tree.Means meaning) (inside : index ≤ text.length)
    (enough : text.length - index ≤ count) :
    Denotes text (.single (.star tree)) index true (meaning.upTo count text index) := by
  induction count generalizing index with
  | zero =>
      -- At the end of the text a part can only fail or stay.
      have atEnd : index = text.length := by omega
      rw [Meaning.upTo]
      cases found : meaning text index with
      | none =>
          rcases means.failed inside found with ⟨_, denotes⟩
          exact .starFailed denotes
      | some stop =>
          have denotes := means.matched inside found
          have forward := denotes.forward rfl
          have within := denotes.within inside
          have idle : stop = index := by omega
          exact .starIdle (idle ▸ denotes)
  | succ count inductionHypothesis =>
      cases found : meaning text index with
      | none =>
          rcases means.failed inside found with ⟨_, denotes⟩
          rw [Meaning.upTo_of_stays (Or.inl found)]
          exact .starFailed denotes
      | some stop =>
          have denotes := means.matched inside found
          by_cases idle : stop = index
          · subst idle
            rw [Meaning.upTo_of_stays (Or.inr found)]
            exact .starIdle denotes
          · have forward := denotes.forward rfl
            rw [Meaning.upTo, found]
            exact .starAgain denotes idle (inductionHypothesis (denotes.within inside) (by omega))

theorem means_star (means : tree.Means meaning) : (star tree).Means meaning.star where
  matched inside found := by
    cases found
    exact denotes_star means inside (Nat.sub_le _ _)
  failed _ missing := by cases missing

theorem upTo_one (meaning : Meaning) (text : List Char) (index : Nat) :
    meaning.upTo 1 text index = (meaning text index).getD index := by
  rw [Meaning.upTo]
  cases meaning text index <;> rfl

/-- A part that may be left out never fails. -/
theorem denotes_optional (means : tree.Means meaning) (inside : index ≤ text.length) :
    Denotes text (.single tree.optional) index true ((meaning text index).getD index) := by
  cases found : meaning text index with
  | none =>
      rcases means.failed inside found with ⟨_, denotes⟩
      exact .union (.choiceLater denotes (.choiceFirst (.concat .sequenceDone)))
  | some stop => exact .union (.choiceFirst (means.matched inside found))

theorem denotes_optionals (means : tree.Means meaning) (inside : index ≤ text.length) :
    Denotes text (.sequence (List.replicate count tree.optional)) index true
      (meaning.upTo count text index) := by
  induction count generalizing index with
  | zero => exact .sequenceDone
  | succ count inductionHypothesis =>
      have first := denotes_optional means inside
      rw [List.replicate_succ]
      cases found : meaning text index with
      | none =>
          -- The copies that are left fail at the same place.
          have rest := inductionHypothesis inside
          rw [Meaning.upTo_of_stays (Or.inl found)] at rest ⊢
          rw [found] at first
          exact .sequenceGoesOn first rest
      | some stop =>
          rw [found] at first
          rw [Meaning.upTo, found]
          exact .sequenceGoesOn first (inductionHypothesis (first.within inside))

theorem means_atMost (means : tree.Means meaning) (count : Nat) :
    (Task.sequence (List.replicate count tree.optional)).Means (meaning.atMost count) where
  matched inside found := by
    cases found
    exact denotes_optionals means inside
  failed _ missing := by cases missing

theorem means_optional (means : tree.Means meaning) : tree.optional.Means (meaning.atMost 1) where
  matched inside found := by
    cases found
    have one := denotes_optional means inside
    rw [← upTo_one] at one
    exact one
  failed _ missing := by cases missing

theorem means_atLeast (means : tree.Means meaning) (count : Nat) :
    (atLeast count tree).Means ((meaning.times count).andThen meaning.star) :=
  means_concat (means_sequence_append (means_times means count)
    (means_sequence_single (means_star means)))

theorem means_plus (means : tree.Means meaning) :
    (atLeast 1 tree).Means (meaning.andThen meaning.star) := by
  have once := means_atLeast means 1
  rw [Meaning.times, Meaning.times, Meaning.andThen_empty] at once
  exact once

theorem means_between (means : tree.Means meaning) (least most : Nat) :
    (between least most tree).Means
      ((meaning.times least).andThen (meaning.atMost (most - least))) :=
  means_concat (means_sequence_append (means_times means least) (means_atMost means _))

theorem means_literal {chars : List Char} (some : chars ≠ []) :
    (literal chars).Means (.literal chars) := by
  have sequence : ∀ chars : List Char,
      (Task.sequence (chars.map .char)).Means (.literal chars) := by
    intro chars
    induction chars with
    | nil => exact means_sequence_nil
    | cons first chars inductionHypothesis =>
        exact means_sequence_cons (means_char first) inductionHypothesis
  rcases chars with _ | ⟨first, _ | ⟨second, rest⟩⟩
  · exact absurd rfl some
  · have single : Meaning.literal [first] = .one (· == first) := by
      funext text index
      rw [Meaning.literal, Meaning.andThen]
      cases Meaning.one (· == first) text index <;> rfl
    rw [single]
    exact means_char first
  · exact means_concat (sequence _)

end Instruction

/-! ## Tokens for programs -/

variable {tree : Instruction} {meaning : Meaning} {belongs : Char → Bool} {text : List Char}
  {index : Nat}

theorem read_token_of_means (means : tree.Means meaning) (within : index ≤ text.length)
    (message : String) :
    (token tree.code message).read text index =
      match meaning text index with
      | some stop => .ok (String.ofList ((text.drop index).take (stop - index)), stop)
      | none => .error (.message message) := by
  have finds := finds_matchPrefix tree within
  rw [Scan.Finds] at finds
  rw [read_token within]
  generalize tree.code.matchPrefix.runOver text index = outcome at finds ⊢
  rcases outcome with ⟨answer, stop⟩
  cases found : meaning text index with
  | none =>
      rcases means.failed within found with ⟨_, denotes⟩
      rcases finds.unique denotes with ⟨rfl, _⟩
      rfl
  | some last =>
      have denotes := means.matched within found
      have forward := denotes.forward rfl
      rcases finds.unique denotes with ⟨rfl, rfl⟩
      simp only at forward ⊢
      rw [Nat.sub_sub_self forward]

/-- A token for one character of a class. -/
theorem read_token_one (means : tree.Means (.one belongs)) (within : index ≤ text.length)
    (message : String) :
    (token tree.code message).read text index =
      match text[index]? with
      | some char =>
        if belongs char then .ok (String.singleton char, index + 1) else .error (.message message)
      | none => .error (.message message) := by
  rw [read_token_of_means means within, Meaning.one]
  cases found : text[index]? with
  | none => rfl
  | some char =>
      rcases List.getElem?_eq_some_iff.mp found with ⟨inside, isChar⟩
      rw [Option.any_some]
      by_cases isOne : belongs char = true
      · simp only [isOne, if_true]
        rw [List.drop_eq_getElem_cons inside, isChar, Nat.add_sub_cancel_left]
        rfl
      · simp only [isOne, Bool.false_eq_true, if_false]

/-- Repeating takes all characters of a class that follow. -/
theorem one_upTo {count : Nat} (enough : text.length - index ≤ count) :
    (Meaning.one belongs).upTo count text index =
      index + ((text.drop index).takeWhile belongs).length := by
  induction count generalizing index with
  | zero =>
      rw [List.drop_eq_nil_of_le (by omega)]
      rfl
  | succ count inductionHypothesis =>
      rw [Meaning.upTo, Meaning.one]
      cases found : text[index]? with
      | none =>
          rw [List.drop_eq_nil_of_le (List.getElem?_eq_none_iff.mp found)]
          rfl
      | some char =>
          rcases List.getElem?_eq_some_iff.mp found with ⟨inside, isChar⟩
          rw [List.drop_eq_getElem_cons inside, isChar, List.takeWhile_cons, Option.any_some]
          by_cases isOne : belongs char = true
          · simp only [isOne, if_true]
            rw [inductionHypothesis (by omega), List.length_cons]
            omega
          · simp only [isOne, Bool.false_eq_true, if_false]
            rfl

theorem one_star (belongs : Char → Bool) (text : List Char) (index : Nat) :
    (Meaning.one belongs).star text index =
      some (index + ((text.drop index).takeWhile belongs).length) :=
  congrArg some (one_upTo (Nat.sub_le _ _))

theorem take_takeWhile (belongs : Char → Bool) (text : List Char) :
    text.take (text.takeWhile belongs).length = text.takeWhile belongs :=
  (List.prefix_iff_eq_take.mp (List.takeWhile_prefix belongs)).symm

/-- A token for the characters of a class that follow. -/
theorem read_token_star (means : tree.Means (.star (.one belongs))) (within : index ≤ text.length)
    (message : String) :
    (token tree.code message).read text index =
      .ok (String.ofList ((text.drop index).takeWhile belongs),
        index + ((text.drop index).takeWhile belongs).length) := by
  rw [read_token_of_means means within, one_star]
  simp only [Nat.add_sub_cancel_left, take_takeWhile]

/-- A token for the characters of a class that follow, if there are any. -/
theorem read_token_plus (means : tree.Means ((Meaning.one belongs).andThen (.star (.one belongs))))
    (within : index ≤ text.length) (message : String) :
    (token tree.code message).read text index =
      if (text.drop index).takeWhile belongs = [] then .error (.message message)
      else .ok (String.ofList ((text.drop index).takeWhile belongs),
        index + ((text.drop index).takeWhile belongs).length) := by
  rw [read_token_of_means means within, Meaning.andThen, Meaning.one]
  cases found : text[index]? with
  | none =>
      rw [List.drop_eq_nil_of_le (List.getElem?_eq_none_iff.mp found)]
      rfl
  | some char =>
      rcases List.getElem?_eq_some_iff.mp found with ⟨inside, isChar⟩
      have taken := take_takeWhile belongs (text.drop index)
      rw [List.drop_eq_getElem_cons inside, isChar, List.takeWhile_cons] at taken ⊢
      rw [Option.any_some]
      by_cases isOne : belongs char = true
      · simp only [isOne, if_true] at taken ⊢
        rw [Option.bind_some, one_star, if_neg (List.cons_ne_nil _ _)]
        have length : index + 1 + ((text.drop (index + 1)).takeWhile belongs).length =
            index + (char :: (text.drop (index + 1)).takeWhile belongs).length := by
          rw [List.length_cons]
          omega
        simp only [length, Nat.add_sub_cancel_left, taken]
      · simp only [isOne, Bool.false_eq_true, if_false, if_true]
        rfl

end Pattern

end Reparse
