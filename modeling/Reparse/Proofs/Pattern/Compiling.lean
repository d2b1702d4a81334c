import Mathlib.Tactic.Convert
import Reparse.Proofs.Pattern.Layouts
import Reparse.Proofs.Pattern.Rules

namespace Reparse

/-!
# Compiling what is written

However an expression is written, the pattern compiles, and the program matches
what the expression means.  The parse is followed from the left to the right of
the pattern, and by induction over how it is written.  An expression that is as
tight as an operand is one piece, unless it is a letter.  One that is as tight as
a sequence can be put in front of any chain of pieces and letters.  A looser one
is an alternative among others.
-/

namespace Pattern

variable {text rest written written' : List Char} {index power stop : Nat} {task : Task}
  {prior meaning meaning' : Meaning} {left : Outline Label}

/-! ## Chains -/

/-- Letters and other pieces one after another, which may follow what is to their left or a run
of letters. -/
structure IsChain (written : List Char) (meaning : Meaning) : Prop where
  refuses : ∀ {text index rest}, Remains text index (written ++ rest) → Closes rest →
    Refuses text index Operator.concat.power
  follows : ∀ {text index rest left prior power}, Remains text index (written ++ rest) →
    Closes rest → power < Operator.concat.power → Carries left prior → ∃ next,
      Carries next (prior.andThen meaning) ∧
        LeadsTo text (.rest power left) index (.rest power next) (index + written.length)
  beside : ∀ {chars run text index rest}, Spelling chars run → chars ≠ [] →
    Remains text index (run ++ (written ++ rest)) → Closes rest →
    operatorAt text index = some .concat
  continues : ∀ {chars run text index rest task prior power}, Spelling chars run → chars ≠ [] →
    Remains text index (run ++ (written ++ rest)) → Closes rest → power < Operator.concat.power →
    Seat power task prior → ∃ next, Carries next (prior.andThen ((Meaning.literal chars).andThen meaning)) ∧
      LeadsTo text task index (.rest power next) (index + (run.length + written.length))

/-- A run of letters is one operand. -/
theorem run_operand {chars run : List Char} (spelling : Spelling chars run) (nonempty : chars ≠ [])
    (ends : EndsRun rest) (remains : Remains text index (run ++ rest)) :
    operatorAt text index = some .concat ∧
      Begins text index (.literal chars) (index + run.length) := by
  have read := read_literal spelling nonempty ends remains
  rcases spelling.head nonempty with ⟨first, others, isRun, noSpecial⟩
  rw [isRun] at remains
  rcases derives_literal noSpecial remains read with ⟨derives, beside⟩
  have carries : Carries ⟨.literal chars, run.length, []⟩ (.literal chars) := .literal nonempty
  exact ⟨beside, fun power _ => ⟨_, carries, leadsTo_operand power derives rfl⟩⟩

theorem Closes.endsRun (closes : Closes rest) : EndsRun rest := by
  cases rest with
  | nil => exact .atEnd
  | cons char rest =>
      rcases closes char rfl with rfl | rfl
      · exact .special rfl rfl
      · exact .special rfl rfl

theorem Spelling.length_pos {chars run : List Char} (spelling : Spelling chars run)
    (nonempty : chars ≠ []) : 0 < run.length := by
  rcases spelling.head nonempty with ⟨first, others, rfl, _⟩
  exact Nat.succ_pos _

theorem isChain_nil : IsChain [] .empty where
  refuses remains closes := (closes.refuses remains).mono (Nat.le_succ _)
  follows remains closes _ carries := by
    rw [Meaning.andThen_empty]
    exact ⟨_, carries, .refl _ _ _⟩
  beside spelling nonempty remains closes := (run_operand spelling nonempty closes.endsRun remains).1
  continues := by
    intro chars run text index rest task prior power spelling nonempty remains closes loose seat
    rcases run_operand spelling nonempty closes.endsRun remains with ⟨beside, begins⟩
    have refuses := (closes.refuses remains.advance).mono (Nat.le_succ Operator.union.power)
    rw [Meaning.andThen_empty]
    exact seat.operand loose beside begins refuses (spelling.length_pos nonempty)

theorem Spelling.append {chars chars' : List Char} (spelling : Spelling chars written)
    (spelling' : Spelling chars' written') : Spelling (chars ++ chars') (written ++ written') := by
  induction spelling with
  | nil => exact spelling'
  | cons spells spelling inductionHypothesis =>
      rw [List.append_assoc]
      exact .cons spells inductionHypothesis

theorem Spells.spelling {char : Char} (spells : Spells isSpecial char written) :
    Spelling [char] written := by
  have single := Spelling.cons spells .nil
  rw [List.append_nil] at single
  exact single

/-- Letters join the run in front of them. -/
theorem IsChain.letters {chars : List Char} (chain : IsChain written' meaning)
    (spelling : Spelling chars written) (nonempty : chars ≠ []) :
    IsChain (written ++ written') ((Meaning.literal chars).andThen meaning) where
  refuses remains closes := by
    rw [List.append_assoc] at remains
    exact refuses_concat (chain.beside spelling nonempty remains closes)
  follows remains closes loose carries := by
    rw [List.append_assoc] at remains
    rw [List.length_append]
    exact chain.continues spelling nonempty remains closes loose (.beside carries)
  beside spelling' nonempty' remains closes := by
    rw [List.append_assoc, ← List.append_assoc] at remains
    exact chain.beside (spelling'.append spelling) (List.append_ne_nil_of_left_ne_nil nonempty' _)
      remains closes
  continues := by
    intro chars' run text index rest task prior power spelling' nonempty' remains closes loose seat
    -- The two runs are read as one, so the rest of the chain is put in front of the longer one.
    rw [List.append_assoc, ← List.append_assoc] at remains
    rw [List.length_append, ← Nat.add_assoc run.length, ← List.length_append,
      ← Meaning.andThen_assoc (.literal _), ← Meaning.literal_append]
    exact chain.continues (spelling'.append spelling)
      (List.append_ne_nil_of_left_ne_nil nonempty' _) remains closes loose seat

/-- A piece ends the run in front of it. -/
theorem IsChain.unit (chain : IsChain written' meaning') (unit : IsUnit written meaning) :
    IsChain (written ++ written') (meaning.andThen meaning') := by
  have follows : ∀ {text index rest left prior power},
      Remains text index ((written ++ written') ++ rest) → Closes rest →
      power < Operator.concat.power → Carries left prior → ∃ next,
        Carries next (prior.andThen (meaning.andThen meaning')) ∧
          LeadsTo text (.rest power left) index (.rest power next)
            (index + (written ++ written').length) := by
    intro text index rest left prior power remains closes loose carries
    rw [List.append_assoc] at remains
    rcases (Seat.beside carries).operand loose (unit.beside remains) (unit.begins remains)
      (chain.refuses remains.advance closes) unit.nonempty with ⟨next, carries', leads⟩
    rcases chain.follows remains.advance closes loose carries' with ⟨last, carries'', leads'⟩
    rw [Meaning.andThen_assoc] at carries''
    rw [List.length_append, ← Nat.add_assoc]
    exact ⟨last, carries'', leads.trans leads'⟩
  refine ⟨fun remains closes => ?_, follows, fun spelling nonempty remains closes => ?_, ?_⟩
  · rw [List.append_assoc] at remains
    exact refuses_concat (unit.beside remains)
  · rw [List.append_assoc] at remains
    exact (run_operand spelling nonempty (unit.ends _) remains).1
  · intro chars run text index rest task prior power spelling nonempty remains closes loose seat
    -- First the run takes its place, and then the piece follows it.
    have behind := remains.advance
    rw [List.append_assoc] at remains
    rcases run_operand spelling nonempty (unit.ends _) remains with ⟨beside, begins⟩
    rcases seat.operand loose beside begins (refuses_concat (unit.beside remains.advance))
      (spelling.length_pos nonempty) with ⟨next, carries, leads⟩
    rcases follows behind closes loose carries with ⟨last, carries', leads'⟩
    rw [Meaning.andThen_assoc] at carries'
    rw [← Nat.add_assoc]
    exact ⟨last, carries', leads.trans leads'⟩

/-! ## Sequences -/

/-- What is written can be put in front of any chain, and begins a pattern with it. -/
structure IsSequence (written : List Char) (meaning : Meaning) : Prop where
  chain : ∀ {written' meaning'}, IsChain written' meaning' →
    IsChain (written ++ written') (meaning.andThen meaning')
  begins : ∀ {text index rest written' meaning' power}, IsChain written' meaning' →
    Remains text index (written ++ (written' ++ rest)) → Closes rest →
    power < Operator.concat.power → ∃ next, Carries next (meaning.andThen meaning') ∧
      LeadsTo text (.goal (.pattern power)) index (.rest power next)
        (index + (written.length + written'.length))

theorem isSequence_letters {chars : List Char} (spelling : Spelling chars written)
    (nonempty : chars ≠ []) : IsSequence written (.literal chars) where
  chain chain := chain.letters spelling nonempty
  begins chain remains closes loose :=
    chain.continues spelling nonempty remains closes loose .start

theorem IsUnit.isSequence (unit : IsUnit written meaning) : IsSequence written meaning where
  chain chain := chain.unit unit
  begins chain remains closes loose := by
    rcases unit.begins remains _ (Nat.lt_succ_of_lt loose) with ⟨next, carries, leads⟩
    rcases chain.follows remains.advance closes loose carries with ⟨last, carries', leads'⟩
    rw [← Nat.add_assoc]
    exact ⟨last, carries', leads.trans leads'⟩

theorem IsSequence.append (first : IsSequence written meaning)
    (second : IsSequence written' meaning') :
    IsSequence (written ++ written') (meaning.andThen meaning') where
  chain chain := by
    rw [List.append_assoc, Meaning.andThen_assoc]
    exact first.chain (second.chain chain)
  begins chain remains closes loose := by
    rw [List.append_assoc, ← List.append_assoc written'] at remains
    rw [List.length_append, Nat.add_assoc, ← List.length_append, Meaning.andThen_assoc]
    exact first.begins (second.chain chain) remains closes loose

/-! ## Alternatives -/

/-- What is written begins a pattern, and follows a bar. -/
structure IsAlternative (written : List Char) (meaning : Meaning) : Prop where
  begins : ∀ {text index rest}, Remains text index (written ++ rest) → Closes rest → ∃ next,
    Carries next meaning ∧
      LeadsTo text (.goal (.pattern 0)) index (.rest 0 next) (index + written.length)
  follows : ∀ {text index rest left prior}, Remains text index ('|' :: (written ++ rest)) →
    Closes rest → Carries left prior → ∃ next, Carries next (prior.orElse meaning) ∧
      LeadsTo text (.rest 0 left) index (.rest 0 next) (index + 1 + written.length)

theorem IsSequence.isAlternative (sequence : IsSequence written meaning) :
    IsAlternative written meaning := by
  have begins : ∀ {text index rest power}, Remains text index (written ++ rest) → Closes rest →
      power < Operator.concat.power → ∃ next, Carries next meaning ∧
        LeadsTo text (.goal (.pattern power)) index (.rest power next) (index + written.length) := by
    intro text index rest power remains closes loose
    rcases sequence.begins isChain_nil remains closes loose with ⟨next, carries, leads⟩
    rw [Meaning.andThen_empty] at carries
    exact ⟨next, carries, leads⟩
  refine ⟨fun remains closes => begins remains closes (Nat.succ_pos _), ?_⟩
  intro text index rest left prior remains closes carries
  have found : operatorAt text index = some .union := by
    rw [operatorAt_eq remains]
    rfl
  have bar : (symbol "|").read text index = .ok ("|", index + 1) :=
    read_symbol_here remains rfl
  rcases begins remains.tail closes (Nat.lt_succ_self Operator.union.power) with
    ⟨right, carries', leads⟩
  have derives := leads.ends (closes.refuses remains.tail.advance)
  have joined := carries.union (carries'.withLength written.length) (1 + written.length)
  have tight : 0 < Operator.union.power := Nat.one_pos
  have operator := leadsTo_operator (.operator found tight (.union bar derives))
    joined.noError (Nat.add_pos_left Nat.one_pos _)
  rw [Nat.add_assoc]
  exact ⟨_, joined, operator⟩

theorem IsAlternative.append (first : IsAlternative written meaning)
    (second : IsAlternative written' meaning') :
    IsAlternative (written ++ '|' :: written') (meaning.orElse meaning') where
  begins := by
    intro text index rest remains closes
    rw [List.append_assoc] at remains
    rcases first.begins remains (by rintro _ ⟨⟩; exact Or.inl rfl) with ⟨next, carries, leads⟩
    rcases second.follows remains.advance closes carries with ⟨last, carries', leads'⟩
    rw [List.length_append, List.length_cons, Nat.add_comm written'.length, ← Nat.add_assoc,
      ← Nat.add_assoc]
    exact ⟨last, carries', leads.trans leads'⟩
  follows := by
    intro text index rest left prior remains closes carries
    rw [List.append_assoc] at remains
    rcases first.follows remains (by rintro _ ⟨⟩; exact Or.inl rfl) carries with
      ⟨next, carries', leads⟩
    rcases second.follows remains.tail.advance closes carries' with ⟨last, carries'', leads'⟩
    rw [Meaning.orElse_assoc] at carries''
    rw [List.length_append, List.length_cons, Nat.add_comm written'.length, ← Nat.add_assoc,
      ← Nat.add_assoc]
    exact ⟨last, carries'', leads.trans leads'⟩

/-- Parentheses make one piece of what they enclose. -/
theorem IsAlternative.isUnit (alternative : IsAlternative written meaning) :
    IsUnit ('(' :: (written ++ [')'])) meaning where
  nonempty := Nat.succ_pos _
  ends rest := .special rfl rfl
  beside remains := by
    rw [operatorAt_eq remains]
    rfl
  begins := by
    intro text index rest remains power _
    rw [List.cons_append, List.append_assoc] at remains
    have opens : (symbol "(").read text index = .ok ("(", index + 1) :=
      read_symbol_here remains rfl
    rcases alternative.begins remains.tail (by rintro _ ⟨⟩; exact Or.inr rfl) with
      ⟨inner, carries, leads⟩
    have behind := remains.tail.advance
    have derives := leads.ends (refuses_closing (by rintro _ ⟨⟩; rfl) behind)
    have closes : (symbol ")").read text (index + 1 + written.length) =
        .ok (")", index + 1 + written.length + 1) :=
      read_symbol_here behind rfl
    have grouped := carries.withLength (1 + written.length + 1)
    have leads := leadsTo_operand power (.group opens derives carries.noError closes)
      grouped.noError
    rw [length_enclosed]
    exact ⟨_, grouped, leads⟩

/-! ## Expressions -/

/-- How a phrase is taken by a parse. -/
def Phrase.Parses : Phrase → List Char → Prop
  | .single .postfixed expression, written =>
    (∃ char, Spells isSpecial char written ∧ expression.meaning = .literal [char]) ∨
      IsUnit written expression.meaning
  | .single .concat expression, written => IsSequence written expression.meaning
  | .single .union expression, written => IsAlternative written expression.meaning
  | .alternatives parts, written => IsAlternative written (Expression.meaningOfAny parts)
  | .sequence parts, written => IsSequence written (Expression.meaningOfAll parts)

/-- A postfix operator makes one piece of its operand and itself. -/
theorem isUnit_suffix {operand : Expression} {change : Meaning → Meaning} {suffix : List Char}
    (parses : (Phrase.single .postfixed operand).Parses written) (isSuffix : IsSuffix suffix change) :
    IsUnit (written ++ suffix) (change operand.meaning) := by
  rcases parses with ⟨char, spells, meaning⟩ | unit
  · rw [meaning]
    exact isUnit_letter spells isSuffix
  · exact unit.withSuffix isSuffix

/-- All that is written is taken by a parse. -/
theorem Written.parses {phrase : Phrase} (isWritten : Written phrase written) :
    phrase.Parses written := by
  -- Only a letter by itself is no piece, so it is told apart until something follows it.
  induction isWritten with
  | letter spells => exact Or.inl ⟨_, spells, rfl⟩
  | literal nonempty spelling => exact isSequence_letters spelling nonempty
  | charClass listing => exact Or.inr (isUnit_charClass listing)
  | union several alternatives inductionHypothesis => exact inductionHypothesis
  | concat several sequence inductionHypothesis => exact inductionHypothesis
  | star operand inductionHypothesis =>
      exact Or.inr (isUnit_suffix inductionHypothesis isSuffix_star)
  | plus operand inductionHypothesis =>
      exact Or.inr (isUnit_suffix inductionHypothesis isSuffix_plus)
  | optional operand inductionHypothesis =>
      exact Or.inr (isUnit_suffix inductionHypothesis isSuffix_optional)
  | counted operand counts inductionHypothesis =>
      exact Or.inr (isUnit_suffix inductionHypothesis (isSuffix_counted counts))
  | parentheses pattern inductionHypothesis => exact Or.inr inductionHypothesis.isUnit
  | asPart operand inductionHypothesis =>
      rcases inductionHypothesis with ⟨char, spells, meaning⟩ | unit
      · rw [Phrase.Parses, meaning]
        exact isSequence_letters spells.spelling (List.cons_ne_nil _ _)
      · exact unit.isSequence
  | asAlternative sequence inductionHypothesis => exact inductionHypothesis.isAlternative
  | lastAlternative last inductionHypothesis =>
      rw [Phrase.Parses, Expression.meaningOfAny, Expression.meaningOfAny, Meaning.orElse_nowhere]
      exact inductionHypothesis
  | moreAlternatives first others firstHypothesis othersHypothesis =>
      exact firstHypothesis.append othersHypothesis
  | lastPart last inductionHypothesis =>
      rw [Phrase.Parses, Expression.meaningOfAll, Expression.meaningOfAll, Meaning.andThen_empty]
      exact inductionHypothesis
  | moreParts first others firstHypothesis othersHypothesis =>
      exact firstHypothesis.append othersHypothesis

/-- A pattern that is written out has a derivation, which carries its meaning. -/
theorem Written.derives {expression : Expression}
    (isWritten : Written (.single .union expression) written) :
    ∃ outline, Derives written (.goal (.pattern 0)) 0 outline ∧ outline.length = written.length ∧
      Carries outline expression.meaning := by
  have remains := Remains.ofText written
  rw [← List.append_nil written] at remains
  rcases isWritten.parses.begins remains (by rintro _ ⟨⟩) with ⟨outline, carries, leads⟩
  have derives := leads.ends (refuses_closing (by rintro _ ⟨⟩) remains.advance)
  rw [List.append_nil] at derives
  exact ⟨_, derives, rfl, carries.withLength written.length⟩

/-! ## The compiler -/

/-- A program whose tree means what an expression does matches from any position of a string as
the expression says. -/
theorem run_of_means {tree : Instruction} (means : tree.Means meaning) {source : StringSource}
    (inside : source.position ≤ source.chars.size) :
    match meaning source.chars.toList source.position with
    | some stop => source.run tree.code.matchPrefix = (true, { source with position := stop })
    | none => (source.run tree.code.matchPrefix).1 = false := by
  have within : source.position ≤ source.chars.toList.length := by
    rw [Array.length_toList]
    exact inside
  have finds := finds_matchPrefix tree within
  rw [Scan.Finds] at finds
  rw [StringSource.run_eq]
  cases outcome : meaning source.chars.toList source.position with
  | some stop =>
      rcases finds.unique (means.matched within outcome) with ⟨answer, same⟩
      simp only [answer, same]
  | none =>
      rcases means.failed within outcome with ⟨stop, denotes⟩
      exact (finds.unique denotes).1

/-- However an expression is written, its pattern compiles if no rule is refused for its depth
and no count asks for too much.  From any position of any string, the program then matches just
where the expression has a match, and stops where that ends. -/
theorem compile_written {expression : Expression} {pattern : String}
    (isWritten : Written (.single .union expression) pattern.toList)
    (unrefused : (parse pattern).2.refused = []) (affordable : isAffordable pattern = true) :
    ends pattern = true ∧ ∃ code, compile pattern = .ok code ∧
      ∀ source : StringSource, source.position ≤ source.chars.size →
        match expression.meaning source.chars.toList source.position with
        | some stop => source.run code.matchPrefix = (true, { source with position := stop })
        | none => (source.run code.matchPrefix).1 = false := by
  rcases isWritten.derives with ⟨outline, derives, length, carries⟩
  rcases parse_of_derives derives unrefused with ⟨isOutline, ended⟩
  refine ⟨ended, (treeOf outline).code, ?_, fun source inside => run_of_means carries.means inside⟩
  rw [isAffordable] at affordable
  rw [compile]
  generalize parse pattern = parsed at isOutline affordable ⊢
  rcases parsed with ⟨tree, session⟩
  simp only [List.all_eq_true] at isOutline affordable ⊢
  subst isOutline
  rw [Tree.outline_length] at length
  have lowered := lower_eq session.store.index 0 tree carries.sound affordable
  have nothing : pattern.toList[tree.length]? = none :=
    List.getElem?_eq_none_iff.mpr (Nat.le_of_eq length.symm)
  rw [lowered]
  simp only [nothing]
  rfl

/-- A group that is counted and a letter with a star behind it: the third copy of the group is
left out, and the star takes what follows. -/
theorem compile_counted_group :
    let expression : Expression := .concat
      [.counted 2 (some 3) (.union [.literal ['a', '*'], .charClass [.range 'c' 'e']]),
        .star (.literal ['x'])]
    let pattern := "(a%*|[c-e])\x7b2,3\x7dx*"
    let source : StringSource := ⟨"-a*dxxa".toList.toArray, 1⟩
    Written (.single .union expression) pattern.toList ∧ (parse pattern).2.refused = [] ∧
      isAffordable pattern = true ∧ source.position ≤ source.chars.size ∧ ends pattern = true ∧
      ∃ code, compile pattern = .ok code ∧
        source.run code.matchPrefix = (true, { source with position := 6 }) := by
  intro expression pattern source
  have pair : Written (.single .concat (.literal ['a', '*'])) "a%*".toList :=
    @Written.literal ['a', '*'] ['a', '%', '*'] (List.cons_ne_nil _ _)
      (@Spelling.cons 'a' ['*'] ['a'] ['%', '*'] (.plain rfl (by decide))
        (@Spelling.cons '*' [] ['%', '*'] [] .escaped .nil))
  have range : Written (.single .postfixed (.charClass [.range 'c' 'e'])) "[c-e]".toList :=
    .charClass (@Listing.range 'c' 'e' [] ['c'] ['e'] [] (.plain rfl (by decide))
      (.plain rfl (by decide)) (by decide) .nil)
  have numbers : ∀ count, count ≤ maxRepeat → Numbers count (Nat.toDigits 10 count) :=
    fun _ => numbers_toDigits
  have either : Written (.alternatives [.literal ['a', '*'], .charClass [.range 'c' 'e']])
      ("a%*".toList ++ '|' :: "[c-e]".toList) :=
    .moreAlternatives (.asAlternative pair) (.lastAlternative (.asAlternative (.asPart range)))
  have group := Written.counted (.parentheses (.union (by decide) either))
    (.between (numbers 2 (by decide)) (numbers 3 (by decide)) (by decide))
  have star : Written (.single .postfixed (.star (.literal ['x']))) "x*".toList :=
    .star (.letter (.plain rfl (by decide)))
  have sequence := Written.moreParts (.asPart group) (.lastPart (.asPart star))
  have isWritten : Written (.single .union expression) pattern.toList := by
    convert Written.asAlternative (.concat (by decide) sequence) using 1
    decide +kernel
  have unrefused : (parse pattern).2.refused = [] := by decide +kernel
  have affordable : isAffordable pattern = true := by decide +kernel
  have inside : source.position ≤ source.chars.size := by decide
  rcases compile_written isWritten unrefused affordable with ⟨ended, code, compiled, runs⟩
  have meaning : expression.meaning source.chars.toList source.position = some 6 := by
    decide +kernel
  have ran := runs source inside
  rw [meaning] at ran
  exact ⟨isWritten, unrefused, affordable, inside, ended, code, compiled, ran⟩

end Pattern

end Reparse
