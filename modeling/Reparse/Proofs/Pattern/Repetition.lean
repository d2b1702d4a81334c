import Reparse.Proofs.Pattern.Meanings
import Reparse.Proofs.Pattern.Ropes

namespace Reparse

/-!
# Counted repetition

A repetition between two counts is written out as copies of its part, followed by copies
that may be left out.  Each of these is tried for itself, also behind one that has failed.
No count is kept anywhere, and still the outcome is that of matching the part in a row,
until it fails or has been matched often enough.

The reason is that a copy that fails leaves the source where it was.  The next copy is tried
at the same place, and fails there as well.  So the copies that succeed all stand in front
of those that fail.  A part that succeeds without consuming anything is counted like any
other, but a star does not repeat it.

This is said of any source that does what a list of characters does at an index, and then
of strings and of ropes.
-/

namespace Pattern

/-! ## Matching in a row -/

section Attempts

variable {σ : Type}

/-- Try again and again, from where the last attempt stopped, until an attempt fails or the
most of them have succeeded.  The answer is how many have, and where the last one stopped. -/
def inARow (attempt : σ → Bool × σ) : Nat → σ → Nat × σ
  | 0, here => (0, here)
  | most + 1, here =>
    match attempt here with
    | (true, next) =>
      let (count, last) := inARow attempt most next
      (count + 1, last)
    | (false, _) => (0, here)

/-- Further attempts from here go on to a place where they no longer succeed, or no longer
move. -/
inductive Exhausts (attempt : σ → Bool × σ) : σ → σ → Prop where
  | fails {here failed : σ} (fails : attempt here = (false, failed)) : Exhausts attempt here here
  | idles {here : σ} (idles : attempt here = (true, here)) : Exhausts attempt here here
  | again {here next stop : σ} (succeeds : attempt here = (true, next)) (moved : next ≠ here)
      (rest : Exhausts attempt next stop) : Exhausts attempt here stop

/-- The counted repetitions of a program, run from here, are what running the program itself in
a row comes to. -/
structure Iterates (run : Scan Bool → σ → Bool × σ) (code : Bytecode) (here : σ) : Prop where
  /-- It matches exactly if the part matches often enough in a row, and stops behind the last of
  these matches. -/
  between : ∀ least most, least ≤ most →
    let (count, last) := inARow (run code.matchPrefix) most here
    let (matched, stop) := run (code.between least most).matchPrefix here
    (matched = true ↔ least ≤ count) ∧ (matched = true → stop = last)
  times : ∀ count,
    run (code.times count).matchPrefix here = run (code.between count count).matchPrefix here
  /-- It matches exactly if the part matches that often in a row, and goes on from there for as
  long as the part matches and consumes something. -/
  atLeast : ∀ least,
    let (count, reached) := inARow (run code.matchPrefix) least here
    let (matched, stop) := run (code.atLeast least).matchPrefix here
    (matched = true ↔ count = least) ∧
      (matched = true → Exhausts (run code.matchPrefix) reached stop)

section Counted

variable {run : Scan Bool → σ → Bool × σ} {code : Bytecode} {here last : σ}
  {least most count : Nat}

theorem Iterates.between_of_row (iterates : Iterates run code here) (ordered : least ≤ most)
    (row : inARow (run code.matchPrefix) most here = (count, last)) (enough : least ≤ count) :
    run (code.between least most).matchPrefix here = (true, last) := by
  have between := iterates.between least most ordered
  rw [row] at between
  have matched := between.1.mpr enough
  exact Prod.ext matched (between.2 matched)

theorem Iterates.atLeast_of_row (iterates : Iterates run code here)
    (row : inARow (run code.matchPrefix) least here = (count, last)) (few : count ≠ least) :
    (run (code.atLeast least).matchPrefix here).1 = false := by
  have atLeast := iterates.atLeast least
  rw [row] at atLeast
  exact Bool.eq_false_iff.mpr fun matched => few (atLeast.1.mp matched)

end Counted

variable {attempt : σ → Bool × σ} {here next : σ}

theorem inARow_of_fails (fails : (attempt here).1 = false) (most : Nat) :
    inARow attempt most here = (0, here) := by
  cases most with
  | zero => rfl
  | succ most =>
      rw [inARow]
      rcases outcome : attempt here with ⟨_ | _, next⟩
      · rfl
      · rw [outcome] at fails
        cases fails

theorem inARow_succ (succeeds : attempt here = (true, next)) (most : Nat) :
    inARow attempt (most + 1) here =
      ((inARow attempt most next).1 + 1, (inARow attempt most next).2) := by
  rw [inARow, succeeds]

theorem count_inARow_le (attempt : σ → Bool × σ) (most : Nat) (here : σ) :
    (inARow attempt most here).1 ≤ most := by
  induction most generalizing here with
  | zero => exact Nat.le_refl _
  | succ most inductionHypothesis =>
      rcases outcome : attempt here with ⟨_ | _, next⟩
      · rw [inARow_of_fails (by rw [outcome])]
        exact Nat.zero_le _
      · rw [inARow_succ outcome]
        exact Nat.succ_le_succ (inductionHypothesis next)

end Attempts

/-! ## Over a list of characters -/

variable {text : List Char} {index : Nat}

namespace Instruction

/-- Where the matcher stops with the program of a tree. -/
def outcome (tree : Instruction) : Meaning := fun text index =>
  match tree.code.matchPrefix.runOver text index with
  | (true, stop) => some stop
  | (false, _) => none

theorem means_outcome (tree : Instruction) : tree.Means tree.outcome where
  matched := by
    intro text index stop inside found
    have finds := finds_matchPrefix tree inside
    rw [Scan.Finds] at finds
    rw [outcome] at found
    generalize tree.code.matchPrefix.runOver text index = ran at finds found
    rcases ran with ⟨_ | _, reached⟩
    · cases found
    · cases found
      exact finds
  failed := by
    intro text index inside missing
    have finds := finds_matchPrefix tree inside
    rw [Scan.Finds] at finds
    rw [outcome] at missing
    generalize tree.code.matchPrefix.runOver text index = ran at finds missing
    rcases ran with ⟨_ | _, reached⟩
    · exact ⟨reached, finds⟩
    · cases missing

/-- The matcher does what a tree means. -/
theorem outcome_of_means {tree : Instruction} {meaning : Meaning} (means : tree.Means meaning)
    (inside : index ≤ text.length) : tree.outcome text index = meaning text index := by
  have finds := finds_matchPrefix tree inside
  rw [Scan.Finds] at finds
  rw [outcome]
  generalize tree.code.matchPrefix.runOver text index = ran at finds ⊢
  rcases ran with ⟨answer, stop⟩
  cases found : meaning text index with
  | none =>
      rcases means.failed inside found with ⟨_, denotes⟩
      rcases finds.unique denotes with ⟨rfl, _⟩
      rfl
  | some last =>
      rcases finds.unique (means.matched inside found) with ⟨rfl, rfl⟩
      rfl

/-- What an outcome under a condition says about the run that it tells of. -/
theorem matched_iff_of_outcome {tree : Instruction} {holds : Prop} [Decidable holds] {last : Nat}
    (same : tree.outcome text index = if holds then some last else none) :
    let (matched, stop) := tree.code.matchPrefix.runOver text index
    (matched = true ↔ holds) ∧ (matched = true → stop = last) := by
  rw [outcome] at same
  generalize tree.code.matchPrefix.runOver text index = ran at same ⊢
  rcases ran with ⟨_ | _, stop⟩
  · by_cases condition : holds
    · rw [if_pos condition] at same
      cases same
    · simp only [Bool.false_eq_true, false_iff, false_implies, and_true]
      exact condition
  · by_cases condition : holds
    · rw [if_pos condition] at same
      exact ⟨⟨fun _ => condition, fun _ => rfl⟩, fun _ => Option.some.inj same⟩
    · rw [if_neg condition] at same
      cases same

variable {tree : Instruction}

/-- Copies of a part, and then copies of it that may be left out, are matches in a row. -/
theorem times_atMost_outcome (tree : Instruction) (text : List Char) {least most : Nat}
    (ordered : least ≤ most) (index : Nat) :
    let (count, last) := inARow (tree.code.matchPrefix.runOver text) most index
    ((tree.outcome.times least).andThen (tree.outcome.atMost (most - least))) text index =
      if least ≤ count then some last else none := by
  induction most generalizing least index with
  | zero =>
      cases Nat.le_zero.mp ordered
      rfl
  | succ most inductionHypothesis =>
      rcases ran : tree.code.matchPrefix.runOver text index with ⟨_ | _, next⟩
      · -- The part fails, and so does each copy of it.
        have missing : tree.outcome text index = none := by rw [outcome, ran]
        rw [inARow_of_fails (by rw [ran])]
        cases least with
        | zero =>
            simp only [Meaning.times, Meaning.empty_andThen, Meaning.atMost,
              Meaning.upTo_of_stays (Or.inl missing), Nat.le_refl, if_true]
        | succ least =>
            simp only [Meaning.times, Meaning.andThen, missing, Option.bind_none]
            rw [if_neg (Nat.not_succ_le_zero least)]
      · have found : tree.outcome text index = some next := by rw [outcome, ran]
        rw [inARow_succ ran]
        cases least with
        | zero =>
            have rest := inductionHypothesis (Nat.zero_le most) next
            simp only [Meaning.times, Meaning.empty_andThen, Meaning.atMost, Nat.zero_le, if_true,
              Nat.sub_zero] at rest ⊢
            rw [Meaning.upTo, found]
            exact rest
        | succ least =>
            have rest := inductionHypothesis (Nat.le_of_succ_le_succ ordered) next
            rw [Meaning.times, Meaning.andThen_assoc, Meaning.andThen, found, Option.bind_some,
              Nat.succ_sub_succ]
            simp only [Nat.succ_le_succ_iff]
            exact rest

theorem times_outcome (tree : Instruction) (text : List Char) (count : Nat) (index : Nat) :
    tree.outcome.times count text index =
      if (inARow (tree.code.matchPrefix.runOver text) count index).1 = count then
        some (inARow (tree.code.matchPrefix.runOver text) count index).2
      else none := by
  have all := times_atMost_outcome tree text (Nat.le_refl count) index
  have bounded := count_inARow_le (tree.code.matchPrefix.runOver text) count index
  have enough : count ≤ (inARow (tree.code.matchPrefix.runOver text) count index).1 ↔
      (inARow (tree.code.matchPrefix.runOver text) count index).1 = count := by omega
  have nothing : tree.outcome.atMost 0 = .empty := rfl
  simp only [Nat.sub_self, nothing, Meaning.andThen_empty, enough] at all
  exact all

/-- A star goes on for as long as the part matches and moves. -/
theorem exhausts_of_star {stop : Nat} {answer : Bool} (inside : index ≤ text.length)
    (denotes : Denotes text (.single (.star tree)) index answer stop) :
    Exhausts (tree.code.matchPrefix.runOver text) index stop := by
  -- The induction runs over the rounds of this star, and not into its part.
  generalize task : Task.single (.star tree) = starred at denotes
  have ran : ∀ {index stop : Nat} {answer : Bool}, index ≤ text.length →
      Denotes text (.single tree) index answer stop →
        tree.code.matchPrefix.runOver text index = (answer, stop) := by
    intro index stop answer inside denotes
    have finds := finds_matchPrefix tree inside
    rw [Scan.Finds] at finds
    exact Prod.ext (finds.unique denotes).1 (finds.unique denotes).2
  induction denotes with
  | starFailed attempt =>
      cases task
      exact .fails (ran inside attempt)
  | starIdle attempt =>
      cases task
      exact .idles (ran inside attempt)
  | starAgain attempt moved rest attemptHypothesis restHypothesis =>
      cases task
      exact .again (ran inside attempt) moved (restHypothesis (attempt.within inside) rfl)
  | _ => cases task

/-- Counted repetitions of a tree, over a list of characters. -/
theorem iterates_runOver (tree : Instruction) (inside : index ≤ text.length) :
    Iterates (fun scan => scan.runOver text) tree.code index := by
  constructor
  · intro least most ordered
    have row := times_atMost_outcome tree text ordered index
    rw [between_code]
    exact matched_iff_of_outcome
      ((outcome_of_means (means_between tree.means_outcome least most) inside).trans row)
  · intro count
    rw [Bytecode.times, Bytecode.between, Nat.sub_self, List.replicate_zero, List.append_nil]
  · intro least
    have all := times_outcome tree text least index
    have means := outcome_of_means (means_atLeast tree.means_outcome least) inside
    have within : ∀ stop, tree.outcome.times least text index = some stop → stop ≤ text.length :=
      fun _ found => ((means_times tree.means_outcome least).matched inside found).within inside
    rw [atLeast_code]
    rw [Meaning.andThen, all] at means
    rw [all] at within
    generalize inARow (tree.code.matchPrefix.runOver text) least index = row at means within ⊢
    rcases row with ⟨count, reached⟩
    by_cases enough : count = least
    · rw [if_pos enough] at within
      have star := denotes_star tree.means_outcome (within reached rfl)
        (Nat.sub_le text.length reached)
      simp only [if_pos enough, Option.bind_some] at means
      rcases matched_iff_of_outcome (means.trans (if_pos enough).symm) with ⟨succeeds, stops⟩
      refine ⟨succeeds, fun matched => ?_⟩
      rw [stops matched]
      exact exhausts_of_star (within reached rfl) star
    · simp only [if_neg enough, Option.bind_none] at means
      -- Nothing is found, and what would be found does not matter.
      have missed : (tree.atLeast least).outcome text index =
          if count = least then some reached else none := means.trans (if_neg enough).symm
      rcases matched_iff_of_outcome missed with ⟨succeeds, _⟩
      exact ⟨succeeds, fun matched => absurd (succeeds.mp matched) enough⟩

end Instruction

/-! ## Over strings and ropes -/

section Sources

variable {σ : Type} {run : {α : Type} → Scan α → σ → α × σ} {embed : Nat → σ}

/-- A source does at the place of each index what a list of characters does at the index. -/
structure Follows (run : {α : Type} → Scan α → σ → α × σ) (text : List Char) (embed : Nat → σ) :
    Prop where
  scans : ∀ {α : Type} (scan : Scan α) (index : Nat), index ≤ text.length →
    run scan (embed index) = ((scan.runOver text index).1, embed (scan.runOver text index).2)
  apart : ∀ {index index' : Nat}, index ≤ text.length → index' ≤ text.length →
    embed index = embed index' → index = index'

variable (follows : Follows run text embed)

include follows

/-- The place behind a match is that of an index of the text. -/
theorem Follows.attempt (tree : Instruction) (inside : index ≤ text.length) :
    ∃ answer stop, tree.code.matchPrefix.runOver text index = (answer, stop) ∧
      stop ≤ text.length ∧ run tree.code.matchPrefix (embed index) = (answer, embed stop) := by
  have finds := finds_matchPrefix tree inside
  exact ⟨_, _, rfl, finds.within inside, follows.scans _ index inside⟩

theorem Follows.inARow (tree : Instruction) (most : Nat) (inside : index ≤ text.length) :
    let (count, last) := Pattern.inARow (tree.code.matchPrefix.runOver text) most index
    Pattern.inARow (run tree.code.matchPrefix) most (embed index) = (count, embed last) ∧
      last ≤ text.length := by
  induction most generalizing index with
  | zero => exact ⟨rfl, inside⟩
  | succ most inductionHypothesis =>
      rcases follows.attempt tree inside with ⟨_ | _, next, ran, within, ran'⟩
      · rw [inARow_of_fails (by rw [ran]), inARow_of_fails (by rw [ran'])]
        exact ⟨rfl, inside⟩
      · have rest := inductionHypothesis within
        rw [inARow_succ ran, inARow_succ ran', rest.1]
        exact ⟨rfl, rest.2⟩

theorem Follows.exhausts (tree : Instruction) {stop : Nat} (inside : index ≤ text.length)
    (exhausts : Exhausts (tree.code.matchPrefix.runOver text) index stop) :
    Exhausts (run tree.code.matchPrefix) (embed index) (embed stop) := by
  induction exhausts with
  | @fails here failed fails =>
      rcases follows.attempt tree inside with ⟨_, _, ran, _, ran'⟩
      cases fails.symm.trans ran
      exact .fails ran'
  | @idles here idles =>
      rcases follows.attempt tree inside with ⟨_, _, ran, _, ran'⟩
      cases idles.symm.trans ran
      exact .idles ran'
  | @again here next stop succeeds moved rest inductionHypothesis =>
      rcases follows.attempt tree inside with ⟨_, _, ran, within, ran'⟩
      cases succeeds.symm.trans ran
      exact .again ran' (fun same => moved (follows.apart within inside same))
        (inductionHypothesis within)

/-- Counted repetitions of a program that the builders make, from any index. -/
theorem Follows.iterates (recipe : Recipe) (inside : index ≤ text.length) :
    Iterates run recipe.code (embed index) := by
  have row := fun most => follows.inARow recipe.tree most inside
  rcases Instruction.iterates_runOver recipe.tree inside with ⟨between, times, atLeast⟩
  rw [recipe.code_eq]
  constructor
  · intro least most ordered
    have counted := between least most ordered
    have first := row most
    simp only at counted ⊢
    rw [first.1, follows.scans _ index inside]
    exact ⟨counted.1, fun matched => congrArg embed (counted.2 matched)⟩
  · intro count
    rw [follows.scans _ index inside, follows.scans _ index inside]
    exact congrArg (fun ran => (ran.1, embed ran.2)) (times count)
  · intro least
    have counted := atLeast least
    have first := row least
    simp only at counted ⊢
    rw [first.1, follows.scans _ index inside]
    exact ⟨counted.1, fun matched => follows.exhausts recipe.tree first.2 (counted.2 matched)⟩

end Sources

theorem StringSource.follows (source : StringSource) :
    Follows StringSource.run source.chars.toList
      fun index => { source with position := index } where
  scans scan index _ := StringSource.run_eq scan { source with position := index }
  apart _ _ same := congrArg StringSource.position same

end Pattern

namespace Store

open Pattern

variable {store : Store} {rope : Rope} {shape : Shape}

theorem Hosts.follows (hosts : store.Hosts rope shape) :
    Follows
      (fun scan => Program.run (Reading.handle (store.buffer rope.buffer))
        (store.buffer rope.buffer).roundsFrom (scan.expand scanRope))
      shape.text fun index => (store.positionAt rope index).place := by
  constructor
  · intro α scan index inside
    have starts := (hosts.positionAt_of_stands (hosts.stands inside)).1
    rcases hosts.current.scan (hosts.stands inside) scan with ⟨answer, stands, _⟩
    rw [starts]
    exact Prod.ext answer (hosts.positionAt_of_stands stands).1.symm
  · intro index index' inside inside' same
    have starts := (hosts.positionAt_of_stands (hosts.stands inside)).1
    have starts' := (hosts.positionAt_of_stands (hosts.stands inside')).1
    have samePlace := starts.symm.trans (same.trans starts')
    rw [← hosts.current.indexOf (hosts.stands inside).means, samePlace,
      hosts.current.indexOf (hosts.stands inside').means]

end Store

namespace Pattern

/-- A counted repetition of a program that the builders make is to match the program in a row: over
any string from any position, and after any commands over a newest rope from any index, however its
text is cut into leaves. -/
theorem repetitions_count_matches (recipe : Recipe) :
    (∀ source : StringSource, source.position ≤ source.chars.size →
      Iterates StringSource.run recipe.code source) ∧
    ∀ commands : List Command,
      let store := (Desk.run commands).store
      ∀ rope ∈ (Desk.run commands).ropes, store.Newest rope → ∀ index ≤ store.length rope,
        let buffer := store.buffer rope.buffer
        let run := fun scan =>
          Program.run (Reading.handle buffer) buffer.roundsFrom (scan.expand scanRope)
        Iterates run recipe.code (store.positionAt rope index).place := by
  constructor
  · intro source inside
    exact source.follows.iterates recipe (Array.length_toList ▸ inside)
  · intro commands store rope member newest index inside buffer
    rcases Desk.exists_hosts commands member newest with ⟨shape, hosts, _⟩
    have shown : store.Shows rope shape := ⟨hosts.root, hosts.current.shown⟩
    rw [shown.length] at inside
    exact hosts.follows.iterates recipe inside

/-- Of three copies that would be taken two are there.  The third attempt fails behind a letter that
it has consumed, which is given back.  The rope has a seam in the middle of the first copy. -/
theorem repetitions_count_two_matches :
    let recipe : Recipe := .literal "ab".toList
    let source : StringSource := ⟨"xababac".toList.toArray, 1⟩
    let desk := Desk.run [.newBuffer, .rope 0 "xa", .rope 0 "babac", .concat 0 1]
    let rope : Rope := ⟨0, 2⟩
    let row := inARow (fun source => source.run recipe.code.matchPrefix) 3 source
    source.position ≤ source.chars.size ∧ rope ∈ desk.ropes ∧ desk.store.Newest rope ∧
      1 ≤ desk.store.length rope ∧ 1 ≤ 3 ∧ row = (2, { source with position := 5 }) ∧
      source.run (recipe.code.between 1 3).matchPrefix = (true, { source with position := 5 }) ∧
      (source.run (recipe.code.atLeast 3).matchPrefix).1 = false ∧
      let buffer := desk.store.buffer 0
      let run := fun scan =>
        Program.run (Reading.handle buffer) buffer.roundsFrom (scan.expand scanRope)
      Iterates run recipe.code (desk.store.positionAt rope 1).place := by
  intro recipe source desk rope row
  have inside : source.position ≤ source.chars.size := by decide
  have member : rope ∈ desk.ropes := by decide +kernel
  have current : (desk.store.buffer 0).Current
      (.branch 2 (.leaf 0 ['x', 'a']) (.leaf 1 ['b', 'a', 'b', 'a', 'c'])) :=
    ⟨⟨by rfl, by decide, by decide, by decide, by decide, by rfl, by rfl⟩,
      ⟨by decide +kernel, by decide +kernel, trivial, trivial⟩, by decide +kernel, by decide⟩
  have newest : desk.store.Newest rope := current.newest
  have within : 1 ≤ desk.store.length rope := by decide +kernel
  have twice : row = (2, { source with position := 5 }) := by decide +kernel
  rcases repetitions_count_matches recipe with ⟨strings, ropes⟩
  have iterates := strings source inside
  have ordered : 1 ≤ 3 := by decide
  exact ⟨inside, member, newest, within, ordered, twice,
    iterates.between_of_row ordered twice (by decide), iterates.atLeast_of_row twice (by decide),
    ropes [.newBuffer, .rope 0 "xa", .rope 0 "babac", .concat 0 1] rope member newest 1 within⟩

end Pattern

end Reparse
