import Reparse.Proofs.Languages.Calculator.Promises

namespace Reparse

/-!
# The rules of the calculator

Each rule finds what the derivations say, if the rules that it invokes do.  The
argument follows the body from step to step.  The loop over the operations of an
expression ends because each of them consumes its operator, and it is left at
the place behind the last of them.
-/

namespace Calculator

variable {margin : Nat} {site : Site} {known : Known vocabulary} {frame : Frame vocabulary}
  {index : Nat} {descend : Descent vocabulary}

theorem derives_of_finds {goal : Goal} {node : Node} {stop : Position} {session : Session vocabulary}
    (finds : (findings margin).Finds site goal index node stop session known) :
    Derives (.node goal) (site.rest index) node.outline :=
  finds.whole

theorem registered_operand (known : Known vocabulary) (power : Nat) :
    grammar.Registered known (.operand power) :=
  fun _ member => absurd member List.not_mem_nil

/-- An expression in parentheses is found as it is, and one without the parenthesis behind it is
an error. -/
theorem yields_parentheses (descends : (findings margin).Descends site descend)
    (reaches : (findings margin).Reaches site frame index known)
    (opening : (site.rest index).head? = some '(') :
    frame.Yields site.rope.buffer descend
      (do
        let _ ← Body.lex (symbol '(')
        let inner ← Body.parse .expression (.operand 0)
        let _ ← Body.lex (symbol ')')
        Body.adopt inner)
      ((findings margin).Ends site known .atom .atom index) := by
  have keeps := descends.keeps
  refine reaches.yields_lex_exactly keeps (fun _ place inside => ?_) (absurd opening)
  refine descends.yields_parse inside (.expression 0) (registered_operand _ _) trivial ?_
  intro inner session place more grows finds
  have expression := derives_of_finds finds
  have behind : (findings margin).Reaches site { frame with session, place }
      (index + (1 + inner.outline.length)) more := by
    rw [← Nat.add_assoc, Tree.outline_length]
    exact ⟨finds.tells, finds.stands⟩
  rw [Site.rest_add] at expression
  refine behind.yields_lex_exactly keeps (fun closing place closed => ?_) fun noClosing => ?_
  · rw [Site.rest_add] at closing
    refine Frame.yields_adopt fun before after => ?_
    have found := Derives.parentheses opening expression closing
    rw [Tree.outline_label, Tree.outline_children] at found
    exact ⟨by simp, more, _, grows, ⟨closed.tells, closed.stands⟩, found⟩
  · rw [Site.rest_add] at noClosing
    exact ⟨by simp, more, _, grows, behind, Derives.unclosed opening expression noClosing⟩

/-- A number has digits, and a value that fits. -/
theorem yields_number (keeps : descend.KeepsRefused)
    (reaches : (findings margin).Reaches site frame index known)
    (opening : (site.rest index).head? ≠ some '(') :
    frame.Yields site.rope.buffer descend
      (do
        match Numeral.readNat maxNumber (← Body.lex number).toList with
        | .ok value => return ⟨.number value, []⟩
        | .error error => Body.foreign error.message)
      ((findings margin).Ends site known .atom .atom index) := by
  refine Frame.yields_lex keeps reaches.current reaches.stands ?_
  rw [read_number reaches.within]
  by_cases none : digits (site.rest index) = []
  · rw [if_pos none]
    exact ⟨by simp, known, 0, .refl known, reaches, .noNumber opening none⟩
  · rw [if_neg none]
    intro place stands
    have found := Derives.number opening none
    simp only [String.toList_ofList]
    rw [numberLabel] at found
    -- The largest number is not to be computed, so what is read goes by a name.
    generalize Numeral.readNat maxNumber (digits (site.rest index)) = result at found ⊢
    have reached : (findings margin).Reaches site { frame with place }
        (index + (digits (site.rest index)).length) known := ⟨reaches.tells, stands⟩
    cases result with
    | ok value => exact Program.yields_pure ⟨by simp, known, _, .refl known, reached, found⟩
    | error error =>
        have content : grammar.contentOf .atom (.error (.abort (.foreign error.message))) =
          ⟨.error (Fault.foreign (grammar.name .atom) error.message).describe, []⟩ := rfl
        refine Frame.yields_giveUp ⟨by simp, known, _, .refl known, reached, ?_⟩
        rw [content]
        exact found

/-- An atom is a number, or an expression in parentheses. -/
theorem yields_atom (descends : (findings margin).Descends site descend)
    (reaches : (findings margin).Reaches site frame index known) :
    frame.Yields site.rope.buffer descend atom
      ((findings margin).Ends site known .atom .atom index) :=
  reaches.yields_isNext_exactly descends.keeps (yields_parentheses descends reaches)
    (yields_number descends.keeps reaches)

/-- An operation is an operator that binds tighter than the floor, and an expression. -/
theorem yields_operation (descends : (findings margin).Descends site descend)
    (reaches : (findings margin).Reaches site frame index known) (floor : Nat) (left : Node) :
    frame.Yields site.rope.buffer descend (operation (.operation floor left))
      ((findings margin).Ends site known .operation (.operation floor left.outline) index) := by
  have keeps := descends.keeps
  refine Frame.yields_lex keeps reaches.current reaches.stands ?_
  rw [read_operatorSign reaches.within]
  cases first : (site.rest index).head? with
  | none =>
      refine ⟨by simp, known, 0, .refl known, reaches, .noOperator ?_⟩
      intro char found
      rw [first] at found
      cases found
  | some char =>
      by_cases isOne : isOperator char = true
      · simp only [isOne, if_true]
        intro place stands
        have inside : (findings margin).Reaches site { frame with place } (index + 1) known := ⟨reaches.tells, stands⟩
        by_cases isLoose : power char ≤ floor
        · rw [if_pos isLoose]
          exact Frame.yields_giveUp
            ⟨by simp, known, 1, .refl known, inside, .loose first isOne isLoose⟩
        · rw [if_neg isLoose]
          refine descends.yields_parse inside (.expression (power char))
            (registered_operand _ _) trivial ?_
          intro right session place more grows finds
          have expression := derives_of_finds finds
          have stands := finds.stands
          rw [Site.rest_add] at expression
          rw [Nat.add_assoc] at stands
          have found : Derives (.body (.operation floor left.outline)) (site.rest index) _ :=
            .operation first isOne (Nat.lt_of_not_le isLoose) expression
          rw [Tree.outline_length] at found
          exact Program.yields_pure
            ⟨by simp, more, 1 + right.length, grows, ⟨finds.tells, stands⟩, found⟩
      · simp only [isOne, Bool.false_eq_true, if_false]
        refine ⟨by simp, known, 0, .refl known, reaches, .noOperator ?_⟩
        intro char' found
        cases Option.some.inj (first.symm.trans found)
        exact Bool.not_eq_true _ ▸ isOne

/-- The loop of an expression has come to an index with what stands to the left of it.  What
is found from there on completes what the body finds. -/
structure Continues (margin : Nat) (site : Site) (known : Known vocabulary) (power start : Nat) (left : Node)
    (frame : Frame vocabulary) (here : Nat) (more : Known vocabulary) : Prop where
  grows : known.Extends more
  reaches : (findings margin).Reaches site frame here more
  named : more left.id = some left.outline
  noBlank : ∀ char ∈ (site.rest here).head?, Text.isBlank char = false
  after : start ≤ here
  completes : ∀ last, Derives (.rest power left.outline) (site.rest here) last →
    Derives (.body (.expression power)) (site.rest start)
      ⟨last.label, here - start + last.length, last.children⟩

namespace Continues

variable {power start here : Nat} {left next : Node} {more further : Known vocabulary}
  {session : Session vocabulary} {place : Place}

/-- The loop begins behind an atom. -/
theorem begins (grows : known.Extends more)
    (finds : (findings margin).Finds site .atom index left ⟨site.rope.buffer, place⟩ session more)
    (noError : isError left.outline.label = false) :
    Continues margin site known power index left { frame with session, place }
      (index + left.length) more := by
  refine ⟨grows, ⟨finds.tells, finds.stands⟩, finds.named, ?_, Nat.le_add_right _ _, ?_⟩
  · rw [Site.rest_add, ← Tree.outline_length]
    exact (derives_of_finds finds).no_blank
  · intro last rest
    rw [Site.rest_add, ← Tree.outline_length] at rest
    rw [Nat.add_sub_cancel_left, ← Tree.outline_length]
    exact .expression (derives_of_finds finds) noError rest

/-- The loop goes on behind an operation. -/
theorem goes_on (continues : Continues margin site known power start left frame here more)
    (grows : more.Extends further)
    (finds : (findings margin).Finds site (.operation power left.outline) here next
      ⟨site.rope.buffer, place⟩ session further)
    (noError : isError next.outline.label = false) (marks : Array Place) :
    Continues margin site known power start next { frame with marks, session, place }
      (here + next.length) further := by
  refine ⟨continues.grows.trans grows, ⟨finds.tells, finds.stands⟩, finds.named, ?_,
    Nat.le_add_right_of_le continues.after, ?_⟩
  · rw [Site.rest_add, ← Tree.outline_length]
    exact (derives_of_finds finds).no_blank
  · intro last rest
    rw [Site.rest_add, ← Tree.outline_length] at rest
    have found := continues.completes _ (.further (derives_of_finds finds) noError rest)
    simp only [Tree.outline_length, ← Nat.add_assoc] at found
    rw [Nat.sub_add_comm continues.after]
    exact found

/-- What stands to the left is the whole expression if no operation follows. -/
theorem ends (continues : Continues margin site known power start left frame here more)
    (grows : more.Extends further)
    (finds : (findings margin).Finds site (.operation power left.outline) here next
      ⟨site.rope.buffer, place⟩ session further)
    (failed : isError next.outline.label = true) {last : Frame vocabulary}
    (sameSession : last.session = session) (samePlace : last.place = frame.place) :
    (findings margin).Ends site known .expression (.expression power) start (.ok left.content)
      last := by
  have ends := (derives_of_finds finds).ends_of_isError failed continues.noBlank
  have found := continues.completes _ (.last ends)
  have stands := continues.reaches.stands
  have tells := finds.tells
  rw [Tree.outline_label, Tree.outline_children] at found
  rw [← Nat.add_sub_cancel' continues.after, ← samePlace] at stands
  rw [← sameSession] at tells
  exact ⟨by simp, further, _, continues.grows.trans grows, ⟨tells, stands⟩, found⟩

end Continues

/-- An expression is an atom, and the operations behind it that bind tightly enough. -/
theorem yields_expression (descends : (findings margin).Descends site descend)
    (reaches : (findings margin).Reaches site frame index known) (power : Nat) :
    frame.Yields site.rope.buffer descend (expression (.operand power))
      ((findings margin).Ends site known .expression (.expression power) index) := by
  have keeps := descends.keeps
  refine descends.yields_parse reaches (.atom _)
    (registered_operand _ _) trivial ?_
  intro first session place more grows finds
  by_cases failed : isError first.label = true
  · rw [if_pos failed]
    refine Frame.yields_adopt fun before after => ?_
    have found : Derives (.body (.expression power)) (site.rest index) _ :=
      .failed (derives_of_finds finds) (by simpa using failed)
    rw [Tree.outline_eq] at found
    exact ⟨by simp, more, first.length, grows, ⟨finds.tells, finds.stands⟩, found⟩
  · rw [if_neg failed]
    have initial : Continues margin site known power index first { frame with session, place }
        (index + first.length) more := .begins grows finds (by simpa using failed)
    -- What is left of the text falls from round to round, since no operation is empty.
    refine Frame.yields_bind keeps (Frame.yields_loop keeps
      (fun left frame measure => ∃ here more, Continues margin site known power index left frame here more ∧
        measure = site.shape.text.length - here)
      ?_ ⟨_, more, initial, rfl⟩ initial.reaches.lt_rounds)
    rintro left frame measure ⟨here, more, continues, rfl⟩
    refine Frame.yields_mark keeps ?_
    have marked : (findings margin).Reaches site { frame with marks := frame.marks.push frame.place } here more :=
      ⟨continues.reaches.tells, continues.reaches.stands⟩
    refine descends.yields_parse marked (.operation power continues.named) ?_ trivial ?_
    · intro other member
      cases List.mem_singleton.mp member
      exact continues.named
    intro next session place further grows finds
    by_cases isLast : isError next.label = true
    · rw [if_pos isLast]
      refine Frame.yields_restore keeps (Array.getElem?_push_size ..) ?_
      exact Program.yields_pure (Frame.yields_adopt fun before after =>
        continues.ends grows finds (by simpa using isLast) rfl rfl)
    · rw [if_neg isLast]
      have noError : isError next.outline.label = false := by simpa using isLast
      have consumes := (derives_of_finds finds).length_pos noError
      have within := finds.stands.means.le_length
      rw [Tree.outline_length] at consumes
      exact Program.yields_pure ⟨site.shape.text.length - (here + next.length), by omega,
        here + next.length, further, continues.goes_on grows finds noError _, rfl⟩

/-- Each body finds what is derived. -/
theorem findings_sound (margin : Nat) : (findings margin).Sound := by
  intro site descend descends known frame index rule slot goal asks registered _ reaches
  cases asks with
  | expression power => exact yields_expression descends reaches power
  | atom slot => exact yields_atom descends reaches
  | @operation floor left outline named =>
      have known := registered left List.mem_cons_self
      cases Option.some.inj (named.symm.trans known)
      exact yields_operation descends reaches floor left

end Calculator

end Reparse
