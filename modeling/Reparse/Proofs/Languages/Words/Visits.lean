import Mathlib.Logic.Relation
import Reparse.Proofs.Languages.Words.Derivations

namespace Reparse

/-!
# Where the rules for lists of words are invoked

A parse of a text without any kept node invokes its rules at certain indices.  From the whole
text it comes to a list, from a list to each of its items in turn, and from an item in
brackets to the list inside.  An item that has consumed nothing is the last one of its list.

Whether a rule is invoked at an index can be told from the characters on both sides, wherever
the text around it was consumed.  A list begins behind an opening bracket.  An item begins at
a character that is neither blank nor a closing bracket, and a letter begins one only if no
letter and no number sign is in front of it.  So a rule that could be invoked at an index
inside of what another one has consumed was invoked there, on the way to it.
-/

namespace Words

variable {text : List Char} {task task' : Task} {rule rule' : Rule} {index index' : Nat}
  {outline outline' : Outline Label}

/-! ## Characters on both sides of an index -/

theorem getLast?_take_succ {char : Char} (found : text[index]? = some char) :
    (text.take (index + 1)).getLast? = some char := by
  rw [List.take_add_one, found, Option.toList_some, List.getLast?_append, List.getLast?_singleton,
    Option.some_or]

theorem getLast?_take_add {length : Nat} (positive : length ≠ 0)
    (within : length ≤ (text.drop index).length) :
    (text.take (index + length)).getLast? = ((text.drop index).take length).getLast? := by
  have some : (text.drop index).take length ≠ [] := by
    rw [← List.length_pos_iff, List.length_take, Nat.min_eq_left within]
    exact Nat.pos_of_ne_zero positive
  rw [List.take_add, List.getLast?_append_of_ne_nil _ some]

/-- The characters that a run begins with are of its class. -/
theorem getElem?_of_lt_leading {belongs : Char → Bool} (inside : index < Text.leading belongs text) :
    ∃ char, text[index]? = some char ∧ belongs char = true := by
  induction text generalizing index with
  | nil => exact absurd inside (Nat.not_lt_zero _)
  | cons char text inductionHypothesis =>
      rw [Text.leading_cons] at inside
      split at inside
      · next isOne =>
          cases index with
          | zero => exact ⟨char, rfl, isOne⟩
          | succ index => exact inductionHypothesis (Nat.lt_of_succ_lt_succ inside)
      · exact absurd inside (Nat.not_lt_zero _)

theorem blanks_drop_blanks (text : List Char) : blanks (text.drop (blanks text)) = 0 :=
  Text.leading_eq_zero (Text.head?_drop_leading text)

/-- Letters go on from a letter and from a number sign. -/
def isJoined (char : Char) : Bool := Text.isAlphanumeric char || char == '#'

/-- No word goes on across an index. -/
def Parted (text : List Char) (index : Nat) : Prop :=
  ∀ char ∈ (text.drop index).head?, Text.isAlphanumeric char = true →
    ∀ prior ∈ (text.take index).getLast?, isJoined prior = false

/-- A rule could be invoked between two characters, of which either may be missing. -/
def Opens : Rule → Option Char → Option Char → Prop
  | .items, before, _ => before = none ∨ before = some '['
  | .item, before, after => ∃ char, after = some char ∧ isBlank char = false ∧ char ≠ ']' ∧
    (Text.isAlphanumeric char = true → ∀ prior ∈ before, isJoined prior = false)

/-- A rule could be invoked at an index of a text. -/
abbrev OpensAt (text : List Char) (rule : Rule) (index : Nat) : Prop :=
  Opens rule (text.take index).getLast? (text.drop index).head?

theorem isJoined_of_isBlank {char : Char} (blank : isBlank char = true) : isJoined char = false := by
  rw [isBlank, Bool.or_eq_true, beq_iff_eq, beq_iff_eq] at blank
  rcases blank with rfl | rfl <;> decide +kernel

theorem Parted.of_prior (prior : ∀ prior ∈ (text.take index).getLast?, isJoined prior = false) :
    Parted text index :=
  fun _ _ _ => prior

theorem Parted.of_next
    (next : ∀ char ∈ (text.drop index).head?, Text.isAlphanumeric char = false) :
    Parted text index := by
  intro char found letter
  rw [next char found] at letter
  cases letter

/-- An index behind blanks. -/
theorem Parted.of_blanks {before : Nat} (some : blanks (text.drop before) ≠ 0) :
    Parted text (before + blanks (text.drop before)) := by
  refine .of_prior fun prior found => ?_
  rcases Nat.exists_eq_succ_of_ne_zero some with ⟨last, isLast⟩
  rcases getElem?_of_lt_leading (show last < Text.leading isBlank (text.drop before) by
    rw [← blanks, isLast]
    exact Nat.lt_succ_self _) with ⟨char, there, blank⟩
  rw [List.getElem?_drop] at there
  rw [isLast, Nat.add_succ, getLast?_take_succ there] at found
  cases found
  exact isJoined_of_isBlank blank

theorem Parted.drop {length : Nat} (parted : Parted (text.drop index) length)
    (positive : length ≠ 0) : Parted text (index + length) := by
  intro char found letter prior isPrior
  rw [← List.drop_drop] at found
  have within : length < (text.drop index).length := by
    refine Nat.lt_of_not_le fun beyond => ?_
    rw [List.drop_of_length_le beyond] at found
    cases found
  rw [getLast?_take_add positive (Nat.le_of_lt within)] at isPrior
  exact parted char found letter prior isPrior

theorem length_pos_of_head? {char : Char} (found : text.head? = some char) : 0 < text.length := by
  cases text with
  | nil => cases found
  | cons head tail => exact Nat.succ_pos _

/-- The sign that an item begins with. -/
theorem head?_of_opening (text : List Char) :
    match opening text with
    | .bracket => text.head? = some '['
    | .sign => text.head? = some '#'
    | .bang => text.head? = some '!'
    | .question => text.head? = some '?'
    | .other => text.head? ≠ some '[' := by
  by_cases bracket : text.head? = some '['
  · rw [opening, if_pos bracket]
    exact bracket
  by_cases sign : text.head? = some '#'
  · rw [opening, if_neg bracket, if_pos sign]
    exact sign
  by_cases bang : text.head? = some '!'
  · rw [opening, if_neg bracket, if_neg sign, if_pos bang]
    exact bang
  by_cases question : text.head? = some '?'
  · rw [opening, if_neg bracket, if_neg sign, if_neg bang, if_pos question]
    exact question
  · rw [opening, if_neg bracket, if_neg sign, if_neg bang, if_neg question]
    exact bracket

theorem next_of_letters (text : List Char) :
    ∀ char ∈ (text.drop (letters text).length).head?, Text.isAlphanumeric char = false :=
  Text.head?_drop_leading text

/-! ## Where nodes end -/

namespace Derives

/-- What is found in a text has one length. -/
theorem length_eq (derives : Derives task text outline) (derives' : Derives task text outline') :
    outline.length = outline'.length := by
  have anyLabels : Admits (fun _ _ => True) text := ⟨fun _ => trivial, fun _ _ _ _ => trivial⟩
  exact (derives.unique anyLabels derives').length

/-- What is found in a text ends in it. -/
theorem length_le (derives : Derives task text outline) : outline.length ≤ text.length := by
  induction derives with
  | @node rule text content body inductionHypothesis =>
      have leading : blanks text ≤ text.length := (List.takeWhile_prefix isBlank).length_le
      have trailing : blanks (text.drop (blanks text + content.length)) ≤
          (text.drop (blanks text + content.length)).length :=
        (List.takeWhile_prefix isBlank).length_le
      rw [List.length_drop] at inductionHypothesis trailing
      simp only
      omega
  | done | stuck | loneSign | noWord => exact Nat.zero_le _
  | further goesOn first some rest firstHypothesis restHypothesis =>
      rw [List.length_drop] at restHypothesis
      simp only
      omega
  | @group text inner opens items closing inductionHypothesis =>
      have positive := length_pos_of_head? closing
      rw [List.length_drop] at positive
      simp only
      omega
  | @unclosed text inner opens items noClosing inductionHypothesis =>
      have bracket := head?_of_opening text
      rw [opens] at bracket
      have positive := length_pos_of_head? bracket
      rw [List.length_drop] at inductionHypothesis
      simp only
      omega
  | @tag text opens some =>
      have sign := head?_of_opening text
      rw [opens] at sign
      have positive := length_pos_of_head? sign
      have inside : (letters (text.drop 1)).length ≤ (text.drop 1).length :=
        (List.takeWhile_prefix Text.isAlphanumeric).length_le
      rw [List.length_drop] at inside
      simp only
      omega
  | @bang text opens | @question text opens =>
      have sign := head?_of_opening text
      rw [opens] at sign
      exact length_pos_of_head? sign
  | word opens some => exact (List.takeWhile_prefix Text.isAlphanumeric).length_le

/-- No blank follows a node. -/
theorem blanks_behind (derives : Derives (.node rule) text outline) :
    blanks (text.drop outline.length) = 0 := by
  cases derives with
  | @node _ _ content body =>
      simp only
      rw [← List.drop_drop]
      exact blanks_drop_blanks _

/-- An item that has consumed nothing stands at no letter. -/
theorem next_of_empty (derives : Derives (.body .item) text outline) (empty : outline.length = 0) :
    ∀ char ∈ text.head?, Text.isAlphanumeric char = false := by
  cases derives with
  | group => exact absurd empty (Nat.succ_ne_zero _)
  | unclosed | tag => exact absurd empty (by simp only; omega)
  | bang | question => exact absurd empty Nat.one_ne_zero
  | word opens some => exact absurd (List.length_eq_zero_iff.mp empty) some
  | loneSign lone position =>
      intro char found
      have sign := head?_of_opening text
      rw [lone.1] at sign
      cases sign.symm.trans found
      decide +kernel
  | noWord opens none =>
      have next := next_of_letters text
      rw [none, List.length_nil, List.drop_zero] at next
      exact next

/-- No letter follows a list. -/
theorem next_of_list (derives : Derives (.body .items) text outline) :
    ∀ char ∈ (text.drop outline.length).head?, Text.isAlphanumeric char = false := by
  generalize isTask : Task.body .items = task at derives
  induction derives with
  | done closes =>
      intro char found
      rcases closes with ended | closing
      · cases ended.symm.trans found
      · cases closing.symm.trans found
        decide +kernel
  | @stuck text item goesOn first empty =>
      cases first with
      | @node _ _ content body =>
          simp only [Nat.add_eq_zero_iff] at empty
          rw [empty.1.1] at body
          exact body.next_of_empty empty.1.2
  | further goesOn first some rest firstHypothesis restHypothesis =>
      rw [← List.drop_drop]
      exact restHypothesis rfl
  | node | group | unclosed | tag | loneSign | bang | question | word | noWord => cases isTask

/-- No blank follows the items of a list. -/
theorem blanks_behind_list (derives : Derives (.body .items) text outline)
    (noBlank : blanks text = 0) : blanks (text.drop outline.length) = 0 := by
  generalize isTask : Task.body .items = task at derives
  induction derives with
  | done closes => exact noBlank
  | stuck goesOn first empty => exact noBlank
  | further goesOn first some rest firstHypothesis restHypothesis =>
      rw [← List.drop_drop]
      exact restHypothesis first.blanks_behind rfl
  | node | group | unclosed | tag | loneSign | bang | question | word | noWord => cases isTask

/-- No letter follows a list with the blanks around it. -/
theorem next_of_items (derives : Derives (.node .items) text outline) :
    ∀ char ∈ (text.drop outline.length).head?, Text.isAlphanumeric char = false := by
  cases derives with
  | @node _ _ content body =>
      have noBlank := body.blanks_behind_list (blanks_drop_blanks text)
      have next := body.next_of_list
      rw [List.drop_drop] at noBlank next
      simp only [noBlank, Nat.add_zero]
      exact next

/-- No word goes on behind an item. -/
theorem parted_body (derives : Derives (.body .item) text outline) (some : outline.length ≠ 0) :
    Parted text outline.length := by
  cases derives with
  | group opens items closing =>
      refine .of_prior fun prior found => ?_
      rw [List.head?_drop] at closing
      cases (getLast?_take_succ closing).symm.trans found
      decide +kernel
  | @unclosed _ inner opens items noClosing =>
      refine .of_next ?_
      simp only
      rw [← List.drop_drop]
      exact items.next_of_items
  | tag opens some =>
      refine .of_next ?_
      simp only
      rw [← List.drop_drop]
      exact next_of_letters _
  | word opens some => exact .of_next (next_of_letters text)
  | bang opens | question opens =>
      have sign := head?_of_opening text
      rw [opens] at sign
      simp only at sign
      rw [List.head?_eq_getElem?] at sign
      refine .of_prior fun prior found => ?_
      cases (getLast?_take_succ sign).symm.trans found
      decide +kernel
  | loneSign | noWord => exact absurd rfl some

theorem parted_behind (derives : Derives (.node .item) text outline) (some : outline.length ≠ 0) :
    Parted text outline.length := by
  cases derives with
  | @node _ _ content body =>
      by_cases noTrailing : blanks (text.drop (blanks text + content.length)) = 0
      · simp only [noTrailing, Nat.add_zero] at some ⊢
        by_cases noContent : content.length = 0
        · rw [noContent, Nat.add_zero] at some ⊢
          have parted : Parted text (0 + blanks text) := .of_blanks some
          rw [Nat.zero_add] at parted
          exact parted
        · exact (body.parted_body noContent).drop noContent
      · exact .of_blanks noTrailing

end Derives

/-! ## The way of a parse -/

/-- What a parse comes to next, from a task at an index.  A list goes on behind an item with a
length. -/
inductive Step (text : List Char) : Task × Nat → Task × Nat → Prop where
  | body (rule : Rule) (index : Nat) :
      Step text (.node rule, index) (.body rule, index + blanks (text.drop index))
  | item {index : Nat} (goesOn : ¬Closes (text.drop index)) :
      Step text (.body .items, index) (.node .item, index)
  | next {index : Nat} {item : Outline Label} (goesOn : ¬Closes (text.drop index))
      (first : Derives (.node .item) (text.drop index) item) (some : item.length ≠ 0) :
      Step text (.body .items, index) (.body .items, index + item.length)
  | inner {index : Nat} (opens : opening (text.drop index) = .bracket) :
      Step text (.body .item, index) (.node .items, index + 1)

/-- What a parse comes to on the way through a task at an index. -/
abbrev Leads (text : List Char) : Task × Nat → Task × Nat → Prop := Relation.ReflTransGen (Step text)

/-- What a parse of a text comes to. -/
abbrev Visits (text : List Char) (task : Task) (index : Nat) : Prop :=
  Leads text (.node .items, 0) (task, index)

/-- The way through a task stays within the characters that it consumes. -/
theorem Step.within (step : Step text (task, index) (task', index'))
    (derives : Derives task (text.drop index) outline) :
    ∃ outline', Derives task' (text.drop index') outline' ∧ index ≤ index' ∧
      index' + outline'.length ≤ index + outline.length := by
  cases step with
  | body rule =>
      cases derives with
      | @node _ _ content body =>
          rw [List.drop_drop] at body
          exact ⟨content, body, Nat.le_add_right _ _, by simp only; omega⟩
  | item goesOn =>
      cases derives with
      | done closes => exact absurd closes goesOn
      | stuck _ first empty => exact ⟨_, first, Nat.le_refl _, by simp only; omega⟩
      | further _ first some rest => exact ⟨_, first, Nat.le_refl _, by simp only; omega⟩
  | next goesOn first some =>
      cases derives with
      | done closes => exact absurd closes goesOn
      | stuck _ first' empty => exact absurd ((first.length_eq first').trans empty) some
      | further _ first' _ rest =>
          rw [← first.length_eq first', List.drop_drop] at rest
          have same := first.length_eq first'
          exact ⟨_, rest, Nat.le_add_right _ _, by simp only; omega⟩
  | inner opens =>
      have found := derives.item_cases
      simp only [opens] at found
      rcases found with ⟨inner, items, rfl⟩
      rw [List.drop_drop] at items
      refine ⟨inner, items, Nat.le_add_right _ _, ?_⟩
      split <;> simp only <;> omega

theorem Leads.within {origin : Task × Nat} (leads : Leads text origin (task', index'))
    (derives : Derives origin.1 (text.drop origin.2) outline) :
    ∃ outline', Derives task' (text.drop index') outline' ∧ origin.2 ≤ index' ∧
      index' + outline'.length ≤ origin.2 + outline.length := by
  induction leads using Relation.ReflTransGen.head_induction_on generalizing outline with
  | refl => exact ⟨outline, derives, Nat.le_refl _, Nat.le_refl _⟩
  | head step _ inductionHypothesis =>
      rcases step.within derives with ⟨outline', derives', after, inside⟩
      rcases inductionHypothesis derives' with ⟨outline'', derives'', after', inside'⟩
      exact ⟨outline'', derives'', Nat.le_trans after after', Nat.le_trans inside' inside⟩

/-! ## What a parse comes to -/

/-- No blank follows where the body of a rule begins, or where a list goes on. -/
theorem blanks_of_visits (visits : Visits text (.body rule) index) :
    blanks (text.drop index) = 0 := by
  rcases Relation.ReflTransGen.cases_tail visits with same | ⟨before, _, step⟩
  · cases same
  · cases step with
    | body rule index =>
        rw [← List.drop_drop]
        exact blanks_drop_blanks _
    | next goesOn first some =>
        rw [← List.drop_drop]
        exact first.blanks_behind

/-- An item is visited on the way through a list. -/
theorem Visits.list_of_item (visits : Visits text (.node .item) index) :
    Visits text (.body .items) index ∧ ¬Closes (text.drop index) := by
  rcases Relation.ReflTransGen.cases_tail visits with same | ⟨before, earlier, step⟩
  · cases same
  · cases step with
    | item goesOn => exact ⟨earlier, goesOn⟩

/-- The body of an item begins where the item does. -/
theorem Visits.item_of_body (visits : Visits text (.body .item) index) :
    Visits text (.node .item) index := by
  rcases Relation.ReflTransGen.cases_tail visits with same | ⟨before, earlier, step⟩
  · cases same
  · cases step with
    | body rule index =>
        rw [blanks_of_visits (Visits.list_of_item earlier).1]
        exact earlier

theorem Visits.body_of_item (visits : Visits text (.node .item) index) :
    Visits text (.body .item) index := by
  have body := visits.tail (.body .item index)
  rw [blanks_of_visits visits.list_of_item.1] at body
  exact body

/-- A list that is not the whole text is visited behind its opening bracket. -/
theorem Visits.front_of_items (visits : Visits text (.node .items) index) :
    index = 0 ∨ ∃ front, index = front + 1 ∧ text[front]? = some '[' := by
  rcases Relation.ReflTransGen.cases_tail visits with same | ⟨before, _, step⟩
  · cases same
    exact Or.inl rfl
  · cases step with
    | @inner front opens =>
        have bracket := head?_of_opening (text.drop front)
        rw [opens, List.head?_drop] at bracket
        exact Or.inr ⟨front, rfl, bracket⟩

/-- No word goes on where a list does. -/
theorem Visits.parted (visits : Visits text (.body .items) index) : Parted text index := by
  rcases Relation.ReflTransGen.cases_tail visits with same | ⟨before, earlier, step⟩
  · cases same
  · cases step with
    | body rule before =>
        by_cases noBlank : blanks (text.drop before) = 0
        · rw [noBlank, Nat.add_zero]
          refine .of_prior fun prior found => ?_
          rcases Visits.front_of_items earlier with rfl | ⟨front, rfl, bracket⟩
          · cases found
          · cases (getLast?_take_succ bracket).symm.trans found
            decide +kernel
        · exact .of_blanks noBlank
    | next goesOn first some => exact (first.parted_behind some).drop some

/-- Where a rule is invoked it could be. -/
theorem Visits.opensAt (visits : Visits text (.node rule) index) : OpensAt text rule index := by
  cases rule with
  | items =>
      rcases visits.front_of_items with rfl | ⟨front, rfl, bracket⟩
      · exact Or.inl rfl
      · exact Or.inr (getLast?_take_succ bracket)
  | item =>
      rcases visits.list_of_item with ⟨list, goesOn⟩
      have noBlank := blanks_of_visits list
      have parted := Visits.parted list
      cases first : (text.drop index).head? with
      | none => exact absurd (Or.inl first) goesOn
      | some char =>
          refine ⟨char, first, ?_, ?_, parted char first⟩
          · have next : ∀ char ∈ ((text.drop index).drop (blanks (text.drop index))).head?,
                isBlank char = false := Text.head?_drop_leading (text.drop index)
            rw [noBlank, List.drop_zero] at next
            exact next char first
          · rintro rfl
            exact goesOn (Or.inr first)

/-- No item begins at a blank. -/
theorem OpensAt.notBlank (opens : OpensAt text .item (index + index'))
    (inside : index' < blanks (text.drop index)) : False := by
  rcases opens with ⟨char, found, notBlank, _⟩
  rcases getElem?_of_lt_leading inside with ⟨blank, there, isBlank⟩
  rw [List.head?_drop] at found
  rw [List.getElem?_drop] at there
  cases found.symm.trans there
  rw [isBlank] at notBlank
  cases notBlank

/-- No item begins inside a word. -/
theorem OpensAt.notLetter {char prior : Char} (opens : OpensAt text .item (index + 1))
    (found : text[index + 1]? = some char) (letter : Text.isAlphanumeric char = true)
    (before : text[index]? = some prior) (joined : isJoined prior = true) : False := by
  rcases opens with ⟨char', found', _, _, parted⟩
  rw [List.head?_drop] at found'
  cases found.symm.trans found'
  have apart := parted letter prior (getLast?_take_succ before)
  rw [joined] at apart
  cases apart

theorem getElem?_of_lt_letters {start own : Nat} (inside : own < (letters (text.drop start)).length) :
    ∃ char, text[start + own]? = some char ∧ Text.isAlphanumeric char = true := by
  rcases getElem?_of_lt_leading inside with ⟨char, there, letter⟩
  rw [List.getElem?_drop] at there
  exact ⟨char, there, letter⟩

/-- An item begins with the first letter of a run or with none. -/
theorem OpensAt.first_of_letters {start own : Nat} (opens : OpensAt text .item (start + own))
    (inside : own < (letters (text.drop start)).length) : own = 0 := by
  cases own with
  | zero => rfl
  | succ own =>
      rcases getElem?_of_lt_letters inside with ⟨char, there, letter⟩
      rcases getElem?_of_lt_letters (Nat.lt_of_succ_lt inside) with ⟨prior, before, joined⟩
      have inside : OpensAt text .item (start + own + 1) := opens
      exact (inside.notLetter there letter before (by rw [isJoined, joined, Bool.true_or])).elim

/-- No item begins inside a tag. -/
theorem OpensAt.notInTag {own : Nat} (opens : OpensAt text .item (index + 1 + own))
    (sign : text[index]? = some '#') (inside : own < (letters (text.drop (index + 1))).length) :
    False := by
  cases opens.first_of_letters inside
  rcases getElem?_of_lt_letters inside with ⟨char, there, letter⟩
  exact OpensAt.notLetter opens there letter sign (by decide +kernel)

/-- Items that could begin inside of what was consumed were visited on the way. -/
theorem visits_item_of_covered (derives : Derives task (text.drop index) outline)
    (visits : Visits text task index) {own : Nat} (inside : own < outline.length)
    (opens : OpensAt text .item (index + own)) : Visits text (.node .item) (index + own) := by
  generalize isRest : text.drop index = rest at derives
  induction derives generalizing index own with
  | @node rule rest content body inductionHypothesis =>
      subst isRest
      simp only at inside
      rcases Nat.lt_or_ge own (blanks (text.drop index)) with leading | behind
      · exact (opens.notBlank leading).elim
      rcases Nat.lt_or_ge own (blanks (text.drop index) + content.length) with within | trailing
      · rcases Nat.exists_eq_add_of_le behind with ⟨own, rfl⟩
        rw [← Nat.add_assoc] at opens ⊢
        exact inductionHypothesis (visits.tail (.body rule index)) (by omega) opens
          (List.drop_drop ..).symm
      · rcases Nat.exists_eq_add_of_le trailing with ⟨own, rfl⟩
        rw [← Nat.add_assoc index] at opens
        exact (opens.notBlank (by rw [← List.drop_drop]; omega)).elim
  | done closes => exact absurd inside (Nat.not_lt_zero _)
  | stuck goesOn first empty => exact absurd inside (Nat.not_lt_zero _)
  | @further rest item others goesOn first some more firstHypothesis moreHypothesis =>
      subst isRest
      simp only at inside
      rcases Nat.lt_or_ge own item.length with within | behind
      · exact firstHypothesis (visits.tail (.item goesOn)) within opens rfl
      · rcases Nat.exists_eq_add_of_le behind with ⟨own, rfl⟩
        rw [← Nat.add_assoc] at opens ⊢
        exact moreHypothesis (visits.tail (.next goesOn first some)) (by omega) opens
          (List.drop_drop ..).symm
  | @group rest inner bracket items closing inductionHypothesis =>
      subst isRest
      simp only at inside
      cases own with
      | zero => exact Visits.item_of_body visits
      | succ own =>
          have opens' : OpensAt text .item (index + 1 + own) := by
            rw [Nat.add_right_comm]
            exact opens
          rcases Nat.lt_or_ge own inner.length with within | behind
          · have visited := inductionHypothesis (visits.tail (.inner bracket)) within opens'
              (List.drop_drop ..).symm
            rw [Nat.add_right_comm] at visited
            exact visited
          · have isLast : own = inner.length := by omega
            rw [isLast, Nat.add_assoc] at opens'
            rcases opens' with ⟨char, found, _, notClosing, _⟩
            rw [← List.drop_drop, closing] at found
            exact absurd (Option.some.inj found).symm notClosing
  | @unclosed rest inner bracket items noClosing inductionHypothesis =>
      subst isRest
      simp only at inside
      cases own with
      | zero => exact Visits.item_of_body visits
      | succ own =>
          have opens' : OpensAt text .item (index + 1 + own) := by
            rw [Nat.add_right_comm]
            exact opens
          have visited := inductionHypothesis (visits.tail (.inner bracket)) (by omega) opens'
            (List.drop_drop ..).symm
          rw [Nat.add_right_comm] at visited
          exact visited
  | @tag rest sign some =>
      subst isRest
      simp only at inside
      cases own with
      | zero => exact Visits.item_of_body visits
      | succ own =>
          have number := head?_of_opening (text.drop index)
          rw [sign, List.head?_drop] at number
          have letter : own < (letters (text.drop (index + 1))).length := by
            rw [← List.drop_drop]
            omega
          rw [← Nat.add_assoc, Nat.add_right_comm] at opens
          exact (opens.notInTag number letter).elim
  | @word rest other some =>
      subst isRest
      cases opens.first_of_letters inside
      exact Visits.item_of_body visits
  | bang | question =>
      cases Nat.lt_one_iff.mp inside
      exact Visits.item_of_body visits
  | loneSign | noWord => exact absurd inside (Nat.not_lt_zero _)

/-- A list in brackets is visited from the item that opens them. -/
theorem Visits.items_of_bracket (visits : Visits text (.node .item) index)
    (bracket : text[index]? = some '[') : Visits text (.node .items) (index + 1) := by
  have opens : opening (text.drop index) = .bracket := by
    rw [opening, List.head?_drop, if_pos bracket]
  exact visits.body_of_item.tail (.inner opens)

theorem opensAt_of_bracket (bracket : text[index]? = some '[') : OpensAt text .item index := by
  rw [← List.head?_drop] at bracket
  exact ⟨'[', bracket, by decide +kernel, by decide, fun letter => by cases letter⟩

/-- A list that goes on behind a bracket begins there. -/
theorem Visits.items_of_list (visits : Visits text (.body .items) (index + 1))
    (bracket : text[index]? = some '[') : Visits text (.node .items) (index + 1) := by
  generalize isNext : index + 1 = next at visits ⊢
  rcases Relation.ReflTransGen.cases_tail visits with same | ⟨before, earlier, step⟩
  · cases same
  · cases step with
    | body rule before =>
        by_cases noBlank : blanks (text.drop before) = 0
        · rw [noBlank, Nat.add_zero]
          exact earlier
        · rcases Nat.exists_eq_succ_of_ne_zero noBlank with ⟨last, isLast⟩
          have isIndex : index = before + last := by omega
          have opens := opensAt_of_bracket bracket
          rw [isIndex] at opens
          exact (opens.notBlank (by omega)).elim
    | @next before item goesOn first some =>
        rcases Nat.exists_eq_succ_of_ne_zero some with ⟨last, isLast⟩
        have isIndex : index = before + last := by omega
        have opens := opensAt_of_bracket bracket
        rw [isIndex] at opens
        have inside : last < item.length := by omega
        have visited := visits_item_of_covered first (earlier.tail (.item goesOn)) inside opens
        rw [← isNext]
        exact (isIndex ▸ visited).items_of_bracket bracket

/-- Inside of what a node has consumed each rule was invoked wherever it could be. -/
theorem visits_of_covered (derives : Derives (.node rule) (text.drop index) outline)
    (visits : Visits text (.node rule) index) {own : Nat} (inside : own < outline.length)
    (opens : OpensAt text rule' (index + own)) : Visits text (.node rule') (index + own) := by
  cases rule' with
  | item => exact visits_item_of_covered derives visits inside opens
  | items =>
      have within : index + own < text.length := by
        have whole := derives.length_le
        rw [List.length_drop] at whole
        omega
      cases isPlace : index + own with
      | zero => exact .refl
      | succ front =>
          have bracket : text[front]? = some '[' := by
            have last := getLast?_take_succ (List.getElem?_eq_getElem (show front < text.length by omega))
            rw [OpensAt, isPlace, last] at opens
            rw [List.getElem?_eq_getElem (show front < text.length by omega)]
            exact opens.resolve_left (Option.some_ne_none _)
          cases own with
          | zero =>
              -- The list begins where the node does, and the bracket is in front of both.
              cases rule with
              | items =>
                  rw [Nat.add_zero] at isPlace
                  rw [← isPlace]
                  exact visits
              | item =>
                  rw [Nat.add_zero] at isPlace
                  subst isPlace
                  exact visits.list_of_item.1.items_of_list bracket
          | succ own =>
              cases Nat.succ.inj isPlace
              have opens' := opensAt_of_bracket bracket
              have visited := visits_item_of_covered derives visits (Nat.lt_of_succ_lt inside) opens'
              exact visited.items_of_bracket bracket

end Words

end Reparse
