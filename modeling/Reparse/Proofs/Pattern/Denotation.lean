import Reparse.Proofs.Pattern.Instructions
import Reparse.Proofs.Pattern.Scanning

namespace Reparse

/-!
# What a program matches

The meaning of a tree of instructions is given by rules.  They say from each
index of a text whether the tree matches and where it ends, also when it fails.
No program, no counter and no bound on the number of rounds is mentioned.  The
rules give at most one outcome, and a match never ends before it starts.

The matcher goes through the program by indices, and steps over a part by its
width.  It finds the outcome that the rules give to the tree of the program.
So there is always one, and no star goes on for ever, since a round that is
followed by another one has moved ahead in the text.
-/

namespace Pattern

namespace Instruction

/-! ## Meaning -/

/-- What is matched: one instruction, all parts of a sequence, or one part of a union. -/
inductive Task where
  | single (tree : Instruction)
  | sequence (parts : List Instruction)
  | choice (parts : List Instruction)

/-- From an index a task matches or fails, and ends at an index. -/
inductive Denotes (text : List Char) : Task → Nat → Bool → Nat → Prop where
  | char {expected found : Char} {index : Nat} (here : text[index]? = some found) :
      Denotes text (.single (.char expected)) index (found == expected) (index + 1)
  | charAtEnd {expected : Char} {index : Nat} (ended : text[index]? = none) :
      Denotes text (.single (.char expected)) index false index
  | range {first last found : Char} {index : Nat} (here : text[index]? = some found) :
      Denotes text (.single (.range first last)) index
        (decide (first ≤ found) && decide (found ≤ last)) (index + 1)
  | rangeAtEnd {first last : Char} {index : Nat} (ended : text[index]? = none) :
      Denotes text (.single (.range first last)) index false index
  | starFailed {body : Instruction} {index stop : Nat}
      (attempt : Denotes text (.single body) index false stop) :
      Denotes text (.single (.star body)) index true index
  | starIdle {body : Instruction} {index : Nat}
      (attempt : Denotes text (.single body) index true index) :
      Denotes text (.single (.star body)) index true index
  | starAgain {body : Instruction} {index next stop : Nat} {answer : Bool}
      (attempt : Denotes text (.single body) index true next) (moved : next ≠ index)
      (rest : Denotes text (.single (.star body)) next answer stop) :
      Denotes text (.single (.star body)) index answer stop
  | union {parts : List Instruction} {index stop : Nat} {answer : Bool}
      (choice : Denotes text (.choice parts) index answer stop) :
      Denotes text (.single (.union parts)) index answer stop
  | concat {parts : List Instruction} {index stop : Nat} {answer : Bool}
      (sequence : Denotes text (.sequence parts) index answer stop) :
      Denotes text (.single (.concat parts)) index answer stop
  | sequenceDone {index : Nat} : Denotes text (.sequence []) index true index
  | sequenceFailed {part : Instruction} {parts : List Instruction} {index stop : Nat}
      (first : Denotes text (.single part) index false stop) :
      Denotes text (.sequence (part :: parts)) index false stop
  | sequenceGoesOn {part : Instruction} {parts : List Instruction} {index next stop : Nat}
      {answer : Bool} (first : Denotes text (.single part) index true next)
      (rest : Denotes text (.sequence parts) next answer stop) :
      Denotes text (.sequence (part :: parts)) index answer stop
  | choiceNone {index : Nat} : Denotes text (.choice []) index false index
  | choiceFirst {part : Instruction} {parts : List Instruction} {index stop : Nat}
      (first : Denotes text (.single part) index true stop) :
      Denotes text (.choice (part :: parts)) index true stop
  | choiceLater {part : Instruction} {parts : List Instruction} {index failed stop : Nat}
      {answer : Bool} (first : Denotes text (.single part) index false failed)
      (rest : Denotes text (.choice parts) index answer stop) :
      Denotes text (.choice (part :: parts)) index answer stop

namespace Denotes

variable {text : List Char} {task : Task} {index stop stop' : Nat} {answer answer' : Bool}

/-- A task that begins in the text ends in the text. -/
theorem within (denotes : Denotes text task index answer stop) (inside : index ≤ text.length) :
    stop ≤ text.length := by
  induction denotes with
  | char here => exact (List.getElem?_eq_some_iff.mp here).1
  | charAtEnd ended => exact inside
  | range here => exact (List.getElem?_eq_some_iff.mp here).1
  | rangeAtEnd ended => exact inside
  | starFailed attempt _ => exact inside
  | starIdle attempt _ => exact inside
  | starAgain attempt moved rest attemptHypothesis restHypothesis =>
      exact restHypothesis (attemptHypothesis inside)
  | union choice inductionHypothesis => exact inductionHypothesis inside
  | concat sequence inductionHypothesis => exact inductionHypothesis inside
  | sequenceDone => exact inside
  | sequenceFailed first inductionHypothesis => exact inductionHypothesis inside
  | sequenceGoesOn first rest firstHypothesis restHypothesis =>
      exact restHypothesis (firstHypothesis inside)
  | choiceNone => exact inside
  | choiceFirst first inductionHypothesis => exact inductionHypothesis inside
  | choiceLater first rest _ restHypothesis => exact restHypothesis inside

/-- A match never ends before it starts. -/
theorem forward (denotes : Denotes text task index answer stop) (matched : answer = true) :
    index ≤ stop := by
  induction denotes with
  | char here => exact Nat.le_succ _
  | charAtEnd ended => cases matched
  | range here => exact Nat.le_succ _
  | rangeAtEnd ended => cases matched
  | starFailed attempt _ => exact Nat.le_refl _
  | starIdle attempt _ => exact Nat.le_refl _
  | starAgain attempt moved rest attemptHypothesis restHypothesis =>
      exact Nat.le_trans (attemptHypothesis rfl) (restHypothesis matched)
  | union choice inductionHypothesis => exact inductionHypothesis matched
  | concat sequence inductionHypothesis => exact inductionHypothesis matched
  | sequenceDone => exact Nat.le_refl _
  | sequenceFailed first inductionHypothesis => cases matched
  | sequenceGoesOn first rest firstHypothesis restHypothesis =>
      exact Nat.le_trans (firstHypothesis rfl) (restHypothesis matched)
  | choiceNone => cases matched
  | choiceFirst first inductionHypothesis => exact inductionHypothesis rfl
  | choiceLater first rest _ restHypothesis => exact restHypothesis matched

/-- The rules give at most one outcome. -/
theorem unique (denotes : Denotes text task index answer stop)
    (denotes' : Denotes text task index answer' stop') : answer = answer' ∧ stop = stop' := by
  induction denotes generalizing answer' stop' with
  | char here =>
      cases denotes' with
      | char here' =>
          cases Option.some.inj (here.symm.trans here')
          exact ⟨rfl, rfl⟩
      | charAtEnd ended => cases here.symm.trans ended
  | charAtEnd ended =>
      cases denotes' with
      | char here => cases here.symm.trans ended
      | charAtEnd _ => exact ⟨rfl, rfl⟩
  | range here =>
      cases denotes' with
      | range here' =>
          cases Option.some.inj (here.symm.trans here')
          exact ⟨rfl, rfl⟩
      | rangeAtEnd ended => cases here.symm.trans ended
  | rangeAtEnd ended =>
      cases denotes' with
      | range here => cases here.symm.trans ended
      | rangeAtEnd _ => exact ⟨rfl, rfl⟩
  | starFailed attempt inductionHypothesis =>
      cases denotes' with
      | starFailed _ => exact ⟨rfl, rfl⟩
      | starIdle attempt' => cases (inductionHypothesis attempt').1
      | starAgain attempt' _ _ => cases (inductionHypothesis attempt').1
  | starIdle attempt inductionHypothesis =>
      cases denotes' with
      | starFailed attempt' => cases (inductionHypothesis attempt').1
      | starIdle _ => exact ⟨rfl, rfl⟩
      | starAgain attempt' moved' _ => exact absurd (inductionHypothesis attempt').2.symm moved'
  | starAgain attempt moved rest attemptHypothesis restHypothesis =>
      cases denotes' with
      | starFailed attempt' => cases (attemptHypothesis attempt').1
      | starIdle attempt' => exact absurd (attemptHypothesis attempt').2 moved
      | starAgain attempt' moved' rest' =>
          cases (attemptHypothesis attempt').2
          exact restHypothesis rest'
  | union choice inductionHypothesis =>
      cases denotes' with
      | union choice' => exact inductionHypothesis choice'
  | concat sequence inductionHypothesis =>
      cases denotes' with
      | concat sequence' => exact inductionHypothesis sequence'
  | sequenceDone =>
      cases denotes'
      exact ⟨rfl, rfl⟩
  | sequenceFailed first inductionHypothesis =>
      cases denotes' with
      | sequenceFailed first' => exact ⟨rfl, (inductionHypothesis first').2⟩
      | sequenceGoesOn first' _ => cases (inductionHypothesis first').1
  | sequenceGoesOn first rest firstHypothesis restHypothesis =>
      cases denotes' with
      | sequenceFailed first' => cases (firstHypothesis first').1
      | sequenceGoesOn first' rest' =>
          cases (firstHypothesis first').2
          exact restHypothesis rest'
  | choiceNone =>
      cases denotes'
      exact ⟨rfl, rfl⟩
  | choiceFirst first inductionHypothesis =>
      cases denotes' with
      | choiceFirst first' => exact ⟨rfl, (inductionHypothesis first').2⟩
      | choiceLater first' _ => cases (inductionHypothesis first').1
  | choiceLater first rest firstHypothesis restHypothesis =>
      cases denotes' with
      | choiceFirst first' => cases (firstHypothesis first').1
      | choiceLater first' rest' => exact restHypothesis rest'

end Denotes

/-! ## Trees in programs -/

@[simp] theorem length_ops (tree : Instruction) : tree.ops.length = tree.size := rfl

end Instruction

namespace Bytecode

variable {code : Bytecode} {op : Op} {here : Nat} {ops ops' : List Op}
  {starts starts' : List (Nat × Instruction)}

/-- Instructions stand in a program from an index on, and the program knows where those end that
start there. -/
structure Holds (code : Bytecode) (ops : List Op) (starts : List (Nat × Instruction)) (here : Nat) :
    Prop where
  ops : Embeds code.ops ops here
  skips : ∀ index part, (index, part) ∈ starts → code.skip index = index + part.size

theorem holds_code (tree : Instruction) : tree.code.Holds tree.ops (tree.starts 0) 0 := by
  refine ⟨List.prefix_rfl, fun index part started => ?_⟩
  have within := (Instruction.within_of_mem_starts tree started).2
  have pos := part.size_pos
  have entered := tree.links_code.entered index part started
    (by rw [Array.size_replicate]; omega)
  rw [skip, entered, Option.getD_some]

namespace Holds

theorem tail {first : Nat × Instruction} (holds : code.Holds (op :: ops) (first :: starts) here) :
    code.Holds ops starts (here + 1) :=
  ⟨holds.ops.tail, fun index part started =>
    holds.skips index part (List.mem_cons_of_mem _ started)⟩

theorem left (holds : code.Holds (ops ++ ops') (starts ++ starts') here) :
    code.Holds ops starts here :=
  ⟨holds.ops.left, fun index part started =>
    holds.skips index part (List.mem_append_left _ started)⟩

theorem right (holds : code.Holds (ops ++ ops') (starts ++ starts') here) :
    code.Holds ops' starts' (here + ops.length) :=
  ⟨holds.ops.right, fun index part started =>
    holds.skips index part (List.mem_append_right _ started)⟩

end Holds

end Bytecode

/-! ## Running a tree -/

/-- A part of the matcher finds the outcome of a task. -/
def Scan.Finds (scan : Scan Bool) (text : List Char) (task : Instruction.Task) (index : Nat) :
    Prop :=
  Instruction.Denotes text task index (scan.runOver text index).1 (scan.runOver text index).2

variable {text : List Char} {index : Nat}

theorem runOver_advance (part : Scan Bool) :
    part.advance.runOver text index =
      if (part.runOver text index).1 then
        ((part.runOver text index).2 != index, (part.runOver text index).2)
      else (false, min index text.length) := by
  have unfolded : part.advance.runOver text index =
      Scan.runOver (if (part.runOver text index).1 then do return (← Scan.position) != index
        else do
          Scan.seek index
          return false) text (part.runOver text index).2 := rfl
  rw [unfolded]
  split <;> rfl

/-- A greedy repetition ends as the star does.  Each round but the last one moves ahead, so the
rounds that are granted are enough. -/
theorem denotes_repeatGreedily {body : Instruction} {part : Scan Bool}
    (finds : ∀ index ≤ text.length, part.Finds text (.single body) index)
    (inside : index ≤ text.length) :
    Instruction.Denotes text (.single (.star body)) index true
      ((Scan.repeatGreedily part).runOver text index).2 := by
  have unfolded : (Scan.repeatGreedily part).runOver text index =
      Program.repeatStep (fun _ here =>
        (((), (part.advance.runOver text here).1), (part.advance.runOver text here).2))
        (text.length + 1) () index := rfl
  rw [unfolded]
  have enough : text.length - index < text.length + 1 := Nat.lt_succ_of_le (Nat.sub_le _ _)
  generalize text.length + 1 = rounds at enough
  clear unfolded
  induction rounds generalizing index with
  | zero => exact absurd enough (Nat.not_lt_zero _)
  | succ rounds inductionHypothesis =>
      have attempt := finds index inside
      rw [Scan.Finds] at attempt
      rw [Program.repeatStep, runOver_advance]
      generalize part.runOver text index = outcome at attempt ⊢
      rcases outcome with ⟨_ | _, next⟩
      · simp only [Bool.false_eq_true, if_false, Nat.min_eq_left inside]
        exact .starFailed attempt
      · by_cases idle : next = index
        · subst idle
          simp only [if_true, bne_self_eq_false]
          exact .starIdle attempt
        · have moved : (next != index) = true := bne_iff_ne.mpr idle
          simp only [if_true, moved]
          have ahead := attempt.forward rfl
          have within := attempt.within inside
          simp only at ahead within
          exact .starAgain attempt idle (inductionHypothesis within (by omega))

section Running

variable {code : Bytecode} {here fuel : Nat} {op : Op}

open Bytecode Instruction

theorem finds_accept (belongs : Char → Bool) {tree : Instruction}
    (taken : ∀ found, text[index]? = some found →
      Denotes text (.single tree) index (belongs found) (index + 1))
    (ended : text[index]? = none → Denotes text (.single tree) index false index) :
    (Scan.accept belongs).Finds text (.single tree) index := by
  rw [Scan.Finds, runOver_accept]
  cases found : text[index]? with
  | none =>
      rw [if_neg (Nat.not_lt_of_le (List.getElem?_eq_none_iff.mp found))]
      exact ended found
  | some char =>
      rw [if_pos (List.getElem?_eq_some_iff.mp found).1]
      exact taken char found

theorem isEnd_eq (found : code.ops[here]? = some op) : code.isEnd here = op.isClosing := by
  rw [isEnd, found]

/-- No tree begins with a closing bracket. -/
theorem isEnd_of_embeds {tree : Instruction} (embeds : Embeds code.ops tree.ops here) :
    code.isEnd here = false := by
  rcases found_of_embeds embeds with ⟨op, found, opens⟩
  rw [isEnd_eq found, opens]

mutual

/-- The matcher finds the outcome of a tree that stands in its program. -/
theorem finds_runAt : ∀ (tree : Instruction) {here fuel index : Nat},
    code.Holds tree.ops (tree.starts here) here → 2 * tree.size ≤ fuel → index ≤ text.length →
      (code.runAt fuel here).Finds text (.single tree) index
  | tree, _, 0, _, _, enough, _ => by
      have pos := tree.size_pos
      omega
  | .char expected, here, fuel + 1, index, holds, _, _ => by
      rw [runAt_char fuel holds.ops.found]
      exact finds_accept _ (fun _ found => .char found) fun ended => .charAtEnd ended
  | .range first last, here, fuel + 1, index, holds, _, _ => by
      rw [runAt_range fuel holds.ops.found]
      exact finds_accept _ (fun _ found => .range found) fun ended => .rangeAtEnd ended
  | .star body, here, fuel + 1, index, holds, enough, inside => by
      rw [size_star] at enough
      have more : 2 * body.size ≤ fuel := by omega
      rw [Scan.Finds, runAt_star fuel holds.ops.found]
      exact denotes_repeatGreedily (fun index inside => finds_runAt body holds.tail more inside)
        inside
  | .union parts, here, fuel + 1, index, holds, enough, inside => by
      rw [size_union] at enough
      have more : 2 * (opsAll parts).length + 1 ≤ fuel := by omega
      rw [Scan.Finds, runAt_union fuel holds.ops.found]
      exact .union (finds_runUnion parts holds.tail more inside)
  | .concat parts, here, fuel + 1, index, holds, enough, inside => by
      rw [size_concat] at enough
      have more : 2 * (opsAll parts).length + 1 ≤ fuel := by omega
      rw [Scan.Finds, runAt_concat fuel holds.ops.found]
      exact .concat (finds_runConcat parts holds.tail more inside)

theorem finds_runConcat : ∀ (parts : List Instruction) {here fuel index : Nat},
    code.Holds (opsAll parts ++ [.concatEnd]) (startsAll parts here) here →
      2 * (opsAll parts).length + 1 ≤ fuel → index ≤ text.length →
        (code.runConcat fuel here).Finds text (.sequence parts) index
  | [], here, fuel + 1, index, holds, _, _ => by
      rw [Scan.Finds, runConcat_end fuel (isEnd_eq holds.ops.found)]
      exact .sequenceDone
  | part :: parts, here, fuel + 1, index, holds, enough, inside => by
      rw [opsAll, startsAll, List.append_assoc] at holds
      rw [opsAll, List.length_append, length_ops] at enough
      have pos := part.size_pos
      have first : (code.runAt fuel here).Finds text (.single part) index :=
        finds_runAt part holds.left (by omega) inside
      rw [Scan.Finds] at first
      rw [Scan.Finds, runConcat_part fuel (isEnd_of_embeds holds.left.ops), holds.left.skips here part (part.mem_starts_self here)]
      generalize (code.runAt fuel here).runOver text index = outcome at first ⊢
      rcases outcome with ⟨_ | _, next⟩
      · exact .sequenceFailed first
      · exact .sequenceGoesOn first (finds_runConcat parts holds.right
          (by omega) (first.within inside))

theorem finds_runUnion : ∀ (parts : List Instruction) {here fuel index : Nat},
    code.Holds (opsAll parts ++ [.unionEnd]) (startsAll parts here) here →
      2 * (opsAll parts).length + 1 ≤ fuel → index ≤ text.length →
        (code.runUnion fuel here index).Finds text (.choice parts) index
  | [], here, fuel + 1, index, holds, _, _ => by
      rw [Scan.Finds, runUnion_end fuel (isEnd_eq holds.ops.found)]
      exact .choiceNone
  | part :: parts, here, fuel + 1, index, holds, enough, inside => by
      rw [opsAll, startsAll, List.append_assoc] at holds
      rw [opsAll, List.length_append, length_ops] at enough
      have pos := part.size_pos
      have first : (code.runAt fuel here).Finds text (.single part) index :=
        finds_runAt part holds.left (by omega) inside
      rw [Scan.Finds] at first
      rw [Scan.Finds, runUnion_part fuel (isEnd_of_embeds holds.left.ops) inside,
        holds.left.skips here part (part.mem_starts_self here)]
      generalize (code.runAt fuel here).runOver text index = outcome at first ⊢
      rcases outcome with ⟨_ | _, next⟩
      · exact .choiceLater first (finds_runUnion parts holds.right
          (by omega) inside)
      · exact .choiceFirst first

end

/-- The program of a tree finds the outcome of the tree. -/
theorem finds_matchPrefix (tree : Instruction) (inside : index ≤ text.length) :
    tree.code.matchPrefix.Finds text (.single tree) index := by
  rw [matchPrefix, size_code]
  exact finds_runAt tree (holds_code tree) (by omega) inside

end Running

/-! ## Strings -/

/-- A string is scanned as the list of its characters is. -/
theorem StringSource.run_eq {α : Type} (scan : Scan α) (source : StringSource) :
    source.run scan =
      ((scan.runOver source.chars.toList source.position).1,
        { source with position := (scan.runOver source.chars.toList source.position).2 }) := by
  have simulates : ∀ {β : Type} (scanning : Scanning β) (here : StringSource) (index : Nat),
      here.chars = source.chars ∧ here.position = index →
      (StringSource.handle scanning here).1 = (scanning.onText source.chars.toList index).1 ∧
        (StringSource.handle scanning here).2.chars = source.chars ∧
        (StringSource.handle scanning here).2.position =
          (scanning.onText source.chars.toList index).2 := by
    rintro β scanning ⟨_, here⟩ _ ⟨rfl, rfl⟩
    cases scanning with
    | nextChar =>
        simp only [StringSource.handle, Scanning.onText, Array.getElem?_toList]
        cases source.chars[here]? <;> exact ⟨rfl, rfl, rfl⟩
    | position => exact ⟨rfl, rfl, rfl⟩
    | seek position => exact ⟨rfl, rfl, congrArg (min position) Array.length_toList.symm⟩
  have sameRounds : ∀ (here : StringSource) (index : Nat),
      here.chars = source.chars ∧ here.position = index →
      here.chars.size + 1 = Token.roundsOver source.chars.toList index :=
    fun here _ same => congrArg Nat.succ (same.1 ▸ Array.length_toList.symm)
  have simulated := Program.run_simulates _ sameRounds simulates scan source source.position
    ⟨rfl, rfl⟩
  rw [StringSource.run, Scan.runOver]
  generalize Program.run StringSource.handle _ scan source = outcome at simulated ⊢
  rcases outcome with ⟨answer, chars, position⟩
  rcases simulated with ⟨rfl, rfl, rfl⟩
  rfl

/-- A program that the builders make matches what its tree means, from any position of a string.
The tree has a meaning there, so the matcher comes to an end. -/
theorem matchPrefix_iff_denotes (recipe : Recipe) (source : StringSource)
    (inside : source.position ≤ source.chars.size) :
    (∀ answer stop, source.run recipe.code.matchPrefix = (answer, { source with position := stop }) ↔
      Instruction.Denotes source.chars.toList (.single recipe.tree) source.position answer stop) ∧
    ∃ answer stop, source.run recipe.code.matchPrefix = (answer, { source with position := stop }) ∧
      stop ≤ source.chars.size ∧ (answer = true → source.position ≤ stop) := by
  have within : source.position ≤ source.chars.toList.length := by
    rw [Array.length_toList]
    exact inside
  have finds := finds_matchPrefix recipe.tree within
  rw [Scan.Finds] at finds
  rw [recipe.code_eq, StringSource.run_eq]
  generalize recipe.tree.code.matchPrefix.runOver source.chars.toList source.position = outcome
    at finds ⊢
  rcases outcome with ⟨answer, stop⟩
  refine ⟨fun answer' stop' => ⟨fun same => ?_, fun denotes => ?_⟩, answer, stop, rfl, ?_, finds.forward⟩
  · cases same
    exact finds
  · rcases finds.unique denotes with ⟨rfl, rfl⟩
    rfl
  · rw [← Array.length_toList]
    exact finds.within within

/-- A star takes three parts and goes back behind them, and then the digit fails one character
further on. -/
theorem matchPrefix_star_before_digit :
    let recipe : Recipe := .concat [.star (.union [.literal "a".toList, .literal "bc".toList]),
      .between 1 2 (.range '0' '9')]
    let source : StringSource := ⟨"xabcabd7".toList.toArray, 1⟩
    source.position ≤ source.chars.size ∧
      source.run recipe.code.matchPrefix = (false, { source with position := 6 }) ∧
      Instruction.Denotes source.chars.toList (.single recipe.tree) source.position false 6 := by
  intro recipe source
  have inside : source.position ≤ source.chars.size := by decide
  have ran : source.run recipe.code.matchPrefix = (false, { source with position := 6 }) := by
    decide +kernel
  exact ⟨inside, ran, ((matchPrefix_iff_denotes recipe source inside).1 false 6).mp ran⟩

end Pattern

end Reparse
