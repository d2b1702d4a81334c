import Reparse.Proofs.Pattern.Denotation
import Reparse.Proofs.Rope.Navigating

namespace Reparse

/-!
# Matching over a rope is matching over a string

A string moves to a position by setting a number.  A rope moves by reading on or by
stepping back, from leaf to leaf, and finds its position by climbing to the root.  The
two are kept in step by one relation: the place of the rope stands where the position of
the string says.  Each operation keeps the relation, and so does everything that is made
of operations, whatever it does with the answers.

A token starts in the middle of a text, where a string starts at its beginning.  The
meaning of a program does not depend on what lies before the start, so the outcome is the
same, moved along by the index of the start.
-/

namespace Pattern

variable {text : List Char} {index : Nat}

/-! ## What lies before the start -/

/-- A task that begins behind some characters has the outcome that it has without them. -/
theorem Instruction.Denotes.shift {task : Instruction.Task} {skipped stop : Nat} {answer : Bool}
    (denotes : Instruction.Denotes (text.drop skipped) task index answer stop) :
    Instruction.Denotes text task (skipped + index) answer (skipped + stop) := by
  induction denotes with
  | char here => exact .char (List.getElem?_drop.symm.trans here)
  | charAtEnd ended => exact .charAtEnd (List.getElem?_drop.symm.trans ended)
  | range here => exact .range (List.getElem?_drop.symm.trans here)
  | rangeAtEnd ended => exact .rangeAtEnd (List.getElem?_drop.symm.trans ended)
  | starFailed attempt attemptHypothesis => exact .starFailed attemptHypothesis
  | starIdle attempt attemptHypothesis => exact .starIdle attemptHypothesis
  | starAgain attempt moved rest attemptHypothesis restHypothesis =>
      exact .starAgain attemptHypothesis (fun same => moved (Nat.add_left_cancel same))
        restHypothesis
  | union choice inductionHypothesis => exact .union inductionHypothesis
  | concat sequence inductionHypothesis => exact .concat inductionHypothesis
  | sequenceDone => exact .sequenceDone
  | sequenceFailed first inductionHypothesis => exact .sequenceFailed inductionHypothesis
  | sequenceGoesOn first rest firstHypothesis restHypothesis =>
      exact .sequenceGoesOn firstHypothesis restHypothesis
  | choiceNone => exact .choiceNone
  | choiceFirst first inductionHypothesis => exact .choiceFirst inductionHypothesis
  | choiceLater first rest firstHypothesis restHypothesis =>
      exact .choiceLater firstHypothesis restHypothesis

/-- A program that the builders make does in the middle of a text what it does at the start of
the rest of the text. -/
theorem runOver_matchPrefix_drop (recipe : Recipe) (within : index ≤ text.length) :
    recipe.code.matchPrefix.runOver text index =
      ((recipe.code.matchPrefix.runOver (text.drop index) 0).1,
        index + (recipe.code.matchPrefix.runOver (text.drop index) 0).2) := by
  have here := finds_matchPrefix recipe.tree within
  have rest : (recipe.tree.code.matchPrefix).Finds (text.drop index) (.single recipe.tree) 0 :=
    finds_matchPrefix recipe.tree (Nat.zero_le _)
  rw [recipe.code_eq]
  rcases here.unique rest.shift with ⟨answer, stop⟩
  exact Prod.ext answer stop

/-- A token yields what its program matches at the start of the rest of the text. -/
theorem read_token_drop (recipe : Recipe) (message : String) (within : index ≤ text.length) :
    match recipe.code.matchPrefix.runOver (text.drop index) 0 with
    | (true, length) => index + length ≤ text.length ∧
      (token recipe.code message).read text index =
        .ok (String.ofList ((text.drop index).take length), index + length)
    | (false, _) => (token recipe.code message).read text index = .error (.message message) := by
  have inside := (run_scanRope within recipe.code.matchPrefix).2
  rw [read_token within]
  rw [runOver_matchPrefix_drop recipe within] at inside ⊢
  generalize recipe.code.matchPrefix.runOver (text.drop index) 0 = outcome at inside ⊢
  rcases outcome with ⟨_ | _, length⟩
  · rfl
  · refine ⟨inside, ?_⟩
    simp only [Nat.add_sub_cancel_left, Nat.add_sub_cancel]

end Pattern

/-- Whatever is scanned over a newest rope is answered as over its text, and stops where it stops
there. -/
theorem Buffer.Current.scan {buffer : Buffer} {shape : Shape} {place : Place} {index : Nat}
    (current : buffer.Current shape) (stands : shape.Stands place index) {α : Type}
    (scan : Pattern.Scan α) :
    let scanned := Program.run (Reading.handle buffer) buffer.roundsFrom
      (scan.expand Pattern.scanRope) place
    let (answer, stop) := scan.runOver shape.text index
    scanned.1 = answer ∧ shape.Stands scanned.2 stop ∧ stop ≤ shape.text.length := by
  -- The program runs over the rope as it does over the text as a token, and there as over a string.
  have overText := Program.run_simulates shape.Stands (fun _ _ stands => current.roundsFrom stands)
    (fun reading _ _ stands => reading.handle_onText current stands)
    (scan.expand Pattern.scanRope) place index stands
  rcases Pattern.run_scanRope stands.means.le_length scan with ⟨asText, inside⟩
  rw [asText] at overText
  exact ⟨overText.1, overText.2, inside⟩

namespace Store

open Pattern

/-- A matcher that starts at a cursor of a rope does what it does on the text of the rope, as a
list of characters and an index in it. -/
structure Scans (store : Store) (rope : Rope) (text : List Char) (cursor : Cursor) (index : Nat) :
    Prop where
  /-- A pattern matches exactly if it matches at the start of the rest of the text.  It yields
  what it matches there, and stops that many characters on. -/
  token : ∀ (recipe : Recipe) (message : String),
    let lexed := (token recipe.code message).lex (store.buffer rope.buffer)
      (store.position cursor).place
    match (StringSource.ofString (String.ofList (text.drop index))).run recipe.code.matchPrefix with
    | (true, source) =>
      let stop := store.positionAt rope (index + source.position)
      lexed = .ok (String.ofList ((text.drop index).take source.position), stop.place) ∧
        store.indexOf stop = index + source.position ∧ index + source.position ≤ text.length
    | (false, _) => lexed = .error (.message message)
  /-- Whatever reads characters, asks for the position and seeks, in any order and with any
  regard to the answers, gets the answers that a string gives, and stops where it does. -/
  scan : ∀ {α : Type} (scan : Scan α),
    let buffer := store.buffer rope.buffer
    let scanned := Program.run (Reading.handle buffer) buffer.roundsFrom (scan.expand scanRope)
      (store.position cursor).place
    match (StringSource.mk text.toArray index).run scan with
    | (answer, source) =>
      let stop := store.positionAt rope source.position
      scanned = (answer, stop.place) ∧ store.indexOf stop = source.position ∧
        source.position ≤ text.length

variable {store : Store} {rope : Rope} {shape : Shape} {cursor : Cursor} {index : Nat}

theorem At.scans (sits : store.At rope shape cursor index) :
    store.Scans rope shape.text cursor index := by
  constructor
  · intro recipe message
    have lexed := (token recipe.code message).lex_eq sits.current sits.stands_place
    have read := read_token_drop recipe message sits.within
    rw [StringSource.run_eq]
    simp only [StringSource.ofString, String.toList_ofList]
    generalize recipe.code.matchPrefix.runOver (shape.text.drop index) 0 = outcome at read ⊢
    rcases outcome with ⟨_ | _, length⟩
    · simp only at read ⊢
      rw [read] at lexed
      exact lexed
    · rcases read with ⟨inside, read⟩
      rw [read] at lexed
      rcases lexed with ⟨stop, lexed, stands⟩
      rcases sits.toHosts.positionAt_of_stands stands with ⟨place, arrived⟩
      exact ⟨by rw [lexed, place], arrived, inside⟩
  · intro α scan
    rcases sits.current.scan sits.stands_place scan with ⟨answer, stands, inside⟩
    rw [StringSource.run_eq]
    simp only
    rcases sits.toHosts.positionAt_of_stands stands with ⟨place, arrived⟩
    exact ⟨Prod.ext answer place.symm, arrived, inside⟩

/-- What a token yields where its pattern matches the rest of the text. -/
theorem Scans.token_of_match {text : List Char} (scans : store.Scans rope text cursor index)
    {recipe : Recipe} (message : String) {source : StringSource}
    (matched : (StringSource.ofString (String.ofList (text.drop index))).run
      recipe.code.matchPrefix = (true, source)) :
    (Pattern.token recipe.code message).lex (store.buffer rope.buffer)
        (store.position cursor).place =
      .ok (String.ofList ((text.drop index).take source.position),
        (store.positionAt rope (index + source.position)).place) := by
  have lexed := scans.token recipe message
  rw [matched] at lexed
  exact lexed.1

end Store

namespace Desk

/-- After any commands, a newest rope is matched as its text is, from every index and from every
cursor that is in it, however the text is cut into leaves. -/
theorem newest_ropes_scan_as_strings (commands : List Command) :
    let desk := run commands
    let store := desk.store
    ∀ rope ∈ desk.ropes, store.Newest rope →
      let text := (store.text rope).toList
      (∀ index ≤ text.length, ∃ cursor after, store.cursor rope index = (.ok cursor, after) ∧
        after.Scans rope text cursor index) ∧
      ∀ cursor, store.Marks rope cursor → store.Scans rope text cursor (store.index cursor) := by
  intro desk store rope member newest text
  obtain ⟨shape, hosts, isText⟩ : ∃ shape, store.Hosts rope shape ∧ text = shape.text :=
    exists_hosts commands member newest
  rw [isText]
  refine ⟨fun index within => ?_, fun cursor marks => ?_⟩
  · rcases hosts.cursor_spec within with ⟨cursor, after, made, sits⟩
    exact ⟨cursor, after, made, sits.scans⟩
  · rcases hosts.at_of_marks marks with ⟨index, sits⟩
    rw [sits.index_eq]
    exact sits.scans

/-- A star goes over the seam of two leaves, and back over it to where its last attempt began. -/
theorem scans_over_a_seam :
    let desk := run [.newBuffer, .rope 0 "xab", .rope 0 "bab", .concat 0 1]
    let recipe : Pattern.Recipe :=
      .concat [.star (.union [.literal "a".toList, .literal "bbx".toList]), .literal "bbab".toList]
    ⟨0, 2⟩ ∈ desk.ropes ∧ desk.store.Newest ⟨0, 2⟩ ∧
      ∃ cursor after, desk.store.cursor ⟨0, 2⟩ 1 = (.ok cursor, after) ∧
        (Pattern.token recipe.code "no match").lex (after.buffer 0) (after.position cursor).place =
          .ok ("abbab", (after.positionAt ⟨0, 2⟩ 6).place) := by
  intro desk recipe
  have member : ⟨0, 2⟩ ∈ desk.ropes := by decide +kernel
  have current : (desk.store.buffer 0).Current
      (.branch 2 (.leaf 0 ['x', 'a', 'b']) (.leaf 1 ['b', 'a', 'b'])) :=
    ⟨⟨by rfl, by decide, by decide, by decide, by decide, by rfl, by rfl⟩,
      ⟨by decide +kernel, by decide +kernel, trivial, trivial⟩, by decide +kernel, by decide⟩
  have newest : desk.store.Newest ⟨0, 2⟩ := current.newest
  have text : (desk.store.text ⟨0, 2⟩).toList = ['x', 'a', 'b', 'b', 'a', 'b'] := by decide +kernel
  rcases (newest_ropes_scan_as_strings [.newBuffer, .rope 0 "xab", .rope 0 "bab", .concat 0 1]
    ⟨0, 2⟩ member newest).1 1 (by decide +kernel) with ⟨cursor, after, made, scans⟩
  have rest : String.ofList (['x', 'a', 'b', 'b', 'a', 'b'].drop 1) = "abbab" := by decide
  have matched : (Pattern.StringSource.ofString "abbab").run recipe.code.matchPrefix =
      (true, ⟨"abbab".toList.toArray, 5⟩) := by decide +kernel
  have yields : String.ofList ((['x', 'a', 'b', 'b', 'a', 'b'].drop 1).take 5) = "abbab" := by decide
  refine ⟨member, newest, cursor, after, made, ?_⟩
  rw [text] at scans
  rw [← rest] at matched
  rw [scans.token_of_match "no match" matched]
  simp only [yields]

end Desk

end Reparse
