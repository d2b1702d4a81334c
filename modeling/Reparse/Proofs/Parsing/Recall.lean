import Reparse.Proofs.Parsing.Courses

namespace Reparse

/-!
# What it takes to use a node again

The journal of a parser tells of each node where it was made, and where it was
used again.  Over the whole history of a document, every line that tells of a
reuse comes after the line that tells how the node was made.  The span was as
long then as it is now, and the text around it was the same as far as the margin
reaches, and one character further.  Where the text ends within that distance it
did so before.

This asks nothing of the grammar.  Its rules may go back over the text, look
ahead as far as they like, and compare states in any way.
-/

variable {V : Vocabulary}

/-- A line of the journal of a parse, with the text that was parsed. -/
structure Line where
  text : List Char
  note : Note
deriving DecidableEq, Repr

namespace Line

/-- The line tells how a node was made in the same surroundings. -/
def Accounts (line : Line) (margin id : Nat) (text : List Char) (span : Range) : Prop :=
  ∃ made, line.note = .made id made ∧ made.start ≤ made.stop ∧ made.stop ≤ line.text.length ∧
    surroundings text (margin + 1) span = surroundings line.text (margin + 1) made

/-- What a line may say after those before it.  A new node has a number of its own.  A node
that is used again, from its start up to an end not before it, was made before. -/
def Follows (line : Line) (margin : Nat) (before : List Line) : Prop :=
  match line.note with
  | .made id _ => ∀ other ∈ before, ∀ span, other.note ≠ .made id span
  | .reused id span => span.start ≤ span.stop → span.stop ≤ line.text.length ∧
      ∃ other ∈ before, other.Accounts margin id line.text span

/-- Every line, the latest of which is the first, follows from those before it. -/
def AllFollow (margin : Nat) : List Line → Prop
  | [] => True
  | line :: before => line.Follows margin before ∧ AllFollow margin before

end Line

/-- The promise that a kept node was made in the surroundings that it is in. -/
def Promise.ofLines (margin : Nat) (lines : List Line) : Promise V where
  margin := margin
  forward := False
  good _ _ node text span := ∃ line ∈ lines, line.Accounts margin node.id text span
  persists := by
    rintro _ _ _ _ _ _ _ _ _ _ _ same ⟨line, member, made, isMade, ordered, within, before⟩
    exact ⟨line, member, made, isMade, ordered, within, same.trans before⟩

namespace Session

variable {session : Session V} {margin : Nat} {rope : Rope} {shape : Shape}
  {earlier : List Line}

/-- The lines of the current generation, and those of the generations before. -/
def linesOver (session : Session V) (text : List Char) (earlier : List Line) : List Line :=
  session.journal.map (Line.mk text) ++ earlier

/-- The journal is in order, and each kept node is accounted for. -/
structure Recalls (session : Session V) (margin : Nat) (rope : Rope) (shape : Shape)
    (log : EditLog) (lines : List Line) : Prop where
  fulfils : session.Fulfils (.ofLines margin lines) rope shape log
  follow : Line.AllFollow margin lines
  numbered : ∀ line ∈ lines, ∀ id span, line.note = .made id span → id < session.nextId

/-- What is accounted for stays so when lines are added. -/
theorem Fulfils.addLine {lines more : List Line} {log : EditLog}
    (fulfils : session.Fulfils (.ofLines margin lines) rope shape log)
    (grown : ∀ line ∈ lines, line ∈ more) :
    session.Fulfils (.ofLines margin more) rope shape log :=
  fulfils.weaken rfl (fun _ _ entry holds => ⟨entry, holds, rfl⟩) rfl id
    fun _ _ _ _ _ ⟨line, member, accounts⟩ => ⟨line, grown line member, accounts⟩

/-- A session between the steps of a parse. -/
def Parses (session : Session V) (margin : Nat) (rope : Rope) (shape : Shape)
    (earlier : List Line) : Prop :=
  session.Recalls margin rope shape {} (session.linesOver shape.text earlier)

theorem Parses.current (parses : session.Parses margin rope shape earlier) :
    (session.store.buffer rope.buffer).Current shape :=
  parses.fulfils.current

/-- Looking for a kept node. -/
theorem Parses.reuse (parses : session.Parses margin rope shape earlier) {place : Place}
    (isPlace : shape.IsPlace place) (rule : V.Rule) (key : StateKey V) (isStale : Range → Bool) :
    let after := session.reuse rule key ⟨rope.buffer, place⟩ isStale
    after.2.Parses margin rope shape earlier ∧
      ∀ node stop, after.1 = some (node, stop) →
        stop.buffer = rope.buffer ∧ shape.IsPlace stop.place := by
  rcases isPlace with ⟨index, stands⟩
  rcases parses.fulfils.reuse_spec stands rule key isStale with ⟨fulfils, _, nextId, _, outcome⟩
  generalize session.reuse rule key ⟨rope.buffer, place⟩ isStale = after at fulfils nextId outcome ⊢
  rcases after with ⟨_ | ⟨node, stop⟩, after⟩
  · simp only at fulfils nextId outcome ⊢
    refine ⟨?_, fun _ _ impossible => by cases impossible⟩
    rw [Parses, linesOver, outcome]
    exact ⟨fulfils, parses.follow, nextId ▸ parses.numbered⟩
  · simp only at fulfils nextId outcome ⊢
    rcases outcome with ⟨last, done⟩
    refine ⟨?_, fun _ _ same => by cases same; exact ⟨done.buffer, last, done.stands⟩⟩
    rw [Parses, linesOver, done.journal]
    refine ⟨fulfils.addLine fun line member => List.mem_cons_of_mem _ member, ⟨?_, parses.follow⟩, ?_⟩
    · intro ordered
      rcases done.promised with ⟨_, _, _, _, _, good⟩
      exact ⟨done.stands.means.le_length, good ordered⟩
    · intro line member id span isMade
      rw [nextId]
      rcases List.mem_cons.mp member with rfl | old
      · cases isMade
      · exact parses.numbered line old id span isMade

/-- Making a node. -/
theorem Parses.keep (parses : session.Parses margin rope shape earlier) {first last : Place}
    (isFirst : shape.IsPlace first) (isLast : shape.IsPlace last) (rule : V.Rule)
    (key : StateKey V) (content : Content V.Label V.Skip) (before skipped : List V.Skip) :
    (session.keep rule key ⟨rope.buffer, first⟩ ⟨rope.buffer, last⟩ content before
      skipped).2.Parses margin rope shape earlier := by
  rcases isFirst with ⟨start, starts⟩
  rcases isLast with ⟨stop, stops⟩
  have added : session.Fulfils (.ofLines margin
      (⟨shape.text, .made session.nextId ⟨start, stop⟩⟩ :: session.linesOver shape.text earlier))
      rope shape {} :=
    parses.fulfils.addLine fun line member => List.mem_cons_of_mem _ member
  rcases added.keep_spec starts stops False.elim rule key content before skipped
    (fun node _ _ _ id _ _ ordered => ⟨_, List.mem_cons_self, ⟨start, stop⟩, by rw [id], ordered,
      stops.means.le_length, rfl⟩) with ⟨fulfils, done⟩
  rw [Parses, linesOver, done.journal]
  refine ⟨fulfils, ⟨?_, parses.follow⟩, ?_⟩
  · intro other member span isMade
    exact Nat.lt_irrefl _ (parses.numbered other member _ span isMade)
  · intro line member id span isMade
    rw [done.nextId]
    rcases List.mem_cons.mp member with rfl | old
    · cases isMade
      exact Nat.lt_succ_self _
    · exact Nat.lt_succ_of_lt (parses.numbered line old id span isMade)

end Session

/-! ## Invocations -/

section Invocations

variable {margin : Nat} {rope : Rope} {shape : Shape} {earlier : List Line}

/-- An invocation keeps the journal in order, and stays in the text. -/
def Descent.Recalls (descend : Descent V) (margin : Nat) (rope : Rope) (shape : Shape)
    (earlier : List Line) : Prop :=
  ∀ rule state place session, session.Parses margin rope shape earlier → shape.IsPlace place →
    let reply := descend rule state ⟨rope.buffer, place⟩ session
    reply.2.Parses margin rope shape earlier ∧ reply.1.2.buffer = rope.buffer ∧
      shape.IsPlace reply.1.2.place

/-- Looking for a node and keeping one leave the journal in order. -/
theorem Parser.leaves_parses (parser : Parser V) (isStale : Range → Bool) :
    parser.Leaves isStale (·.Parses margin rope shape earlier) rope shape where
  current _ parses := parses.current
  reuse _ rule state _ parses isPlace :=
    parses.reuse isPlace rule (parser.grammar.stateKey state) isStale
  keep _ rule state _ _ content before skipped parses isFirst isLast :=
    parses.keep isFirst isLast rule (parser.grammar.stateKey state) content before skipped
  noted _ _ _ parses :=
    ⟨parses.fulfils.fewer rfl fun _ _ entry holds => ⟨entry, holds, rfl⟩, parses.follow,
      parses.numbered⟩

theorem Parser.invoke_recalls (parser : Parser V) (isStale : Range → Bool) (depth : Nat) :
    Descent.Recalls (parser.invoke isStale depth) margin rope shape earlier :=
  (parser.leaves_parses isStale).invoke depth

end Invocations

end Reparse
