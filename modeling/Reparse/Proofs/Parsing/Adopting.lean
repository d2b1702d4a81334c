import Reparse.Proofs.Parsing.Transparency

/-!
# What a body adopts

A body that adopts a node takes over its skip values, and its own node gets them in the
end.  The body never looks at them.  So if it had taken over further ones before, these
would be found among the others, and nothing else would be different.
-/

namespace Reparse

variable {V : Vocabulary} {α : Type}

/-- The nodes whose skip values are taken over, at most one. -/
def Action.adopted : Action V α → List V.Node
  | .adoptSkips node => [node]
  | _ => []

namespace Tree

variable {κ : Type}

/-- The skip values in front of several nodes. -/
def skipsBefore (trees : List (Tree α κ)) : List κ := trees.flatMap fun tree => tree.origin.before

/-- The skip values behind several nodes. -/
def skipsAfter (trees : List (Tree α κ)) : List κ := trees.flatMap fun tree => tree.origin.after

theorem skipsBefore_append (trees more : List (Tree α κ)) :
    skipsBefore (trees ++ more) = skipsBefore trees ++ skipsBefore more :=
  List.flatMap_append

theorem skipsAfter_append (trees more : List (Tree α κ)) :
    skipsAfter (trees ++ more) = skipsAfter trees ++ skipsAfter more :=
  List.flatMap_append

end Tree

namespace Frame

variable {id : BufferId} {descend : Descent V}

/-- The frame of a body that has taken over further skip values earlier on. -/
def withEarlier (frame : Frame V) (before after : List V.Skip) : Frame V :=
  { frame with before := before ++ frame.before, after := after ++ frame.after }

/-- A body does not look at what it has taken over. -/
theorem handle_withEarlier (action : Action V α) (frame : Frame V) (before after : List V.Skip) :
    (handle id descend action (frame.withEarlier before after)).1 = (handle id descend action frame).1 ∧
      (handle id descend action (frame.withEarlier before after)).2 =
        (handle id descend action frame).2.withEarlier before after := by
  have settled : ∀ {β : Type} (lexed : Except LexError (β × Place)),
      ((frame.withEarlier before after).settleLexed lexed).1 = (frame.settleLexed lexed).1 ∧
        ((frame.withEarlier before after).settleLexed lexed).2 =
          (frame.settleLexed lexed).2.withEarlier before after := by
    rintro β (error | ⟨value, place⟩) <;> exact ⟨rfl, rfl⟩
  cases action with
  | lex token => exact settled _
  | lexFirst tokens message => exact settled _
  | adoptSkips node =>
      refine ⟨rfl, ?_⟩
      simp only [handle, withEarlier, List.append_assoc]
  | isNext token => exact ⟨rfl, rfl⟩
  | parse rule state => exact ⟨rfl, rfl⟩
  | mark => exact ⟨rfl, rfl⟩
  | restore mark => exact ⟨rfl, rfl⟩
  | place => exact ⟨rfl, rfl⟩
  | position => exact ⟨rfl, rfl⟩
  | atEnd => exact ⟨rfl, rfl⟩

theorem run_withEarlier (program : Program (Action V) α) (frame : Frame V) (before after : List V.Skip) :
    Program.run (handle id descend) (rounds id) program (frame.withEarlier before after) =
      ((Program.run (handle id descend) (rounds id) program frame).1,
        (Program.run (handle id descend) (rounds id) program frame).2.withEarlier before after) := by
  have simulates : ∀ start, start = frame.withEarlier before after →
      (Program.run (handle id descend) (rounds id) program start).1 =
          (Program.run (handle id descend) (rounds id) program frame).1 ∧
        (Program.run (handle id descend) (rounds id) program start).2 =
          (Program.run (handle id descend) (rounds id) program frame).2.withEarlier before after :=
    fun start => Program.run_simulates (fun one other : Frame V => one = other.withEarlier before after)
      (fun _ _ same => by rw [same]; rfl)
      (fun action _ other same => by rw [same]; exact handle_withEarlier action other before after)
      program start frame
  exact Prod.ext (simulates _ rfl).1 (simulates _ rfl).2

/-- If a body begins with further skip values at the end of those it has, then these stay where
they are, and all else is as it would have been. -/
theorem run_more (id : BufferId) (descend : Descent V) (body : Body V α) (frame : Frame V)
    (more moreAfter : List V.Skip) :
    let ran := (runner id descend).run body frame
    ∃ late lateAfter, ran.2.before = frame.before ++ late ∧ ran.2.after = frame.after ++ lateAfter ∧
      (runner id descend).run body
          { frame with before := frame.before ++ more, after := frame.after ++ moreAfter } =
        (ran.1, { ran.2 with
          before := frame.before ++ more ++ late
          after := frame.after ++ moreAfter ++ lateAfter }) := by
  have taken : ∀ before after, (runner id descend).run body
      { frame with before := before ++ [], after := after ++ [] } = _ :=
    run_withEarlier body.run { frame with before := [], after := [] }
  have plain := taken frame.before frame.after
  have burdened := taken (frame.before ++ more) (frame.after ++ moreAfter)
  simp only [withEarlier, List.append_nil] at plain burdened
  generalize Program.run _ _ body.run { frame with before := [], after := [] } = bare at plain burdened
  refine ⟨bare.2.before, bare.2.after, ?_, ?_, ?_⟩
  · rw [plain]
  · rw [plain]
  · rw [burdened, plain]

/-- Do what a body asks for, and write down the nodes whose skip values it takes over. -/
def handleNoting (id : BufferId) (descend : Descent V) (action : Action V α)
    (noted : Frame V × List V.Node) : α × (Frame V × List V.Node) :=
  match handle id descend action noted.1 with
  | (answer, after) => (answer, (after, noted.2 ++ action.adopted))

/-- The nodes whose skip values a program takes over, one after another. -/
def adoptions (id : BufferId) (descend : Descent V) (program : Program (Action V) α)
    (frame : Frame V) : List V.Node :=
  (Program.run (handleNoting id descend) (fun noted => rounds id noted.1) program (frame, [])).2.2

theorem handle_adopts (action : Action V α) (frame : Frame V) :
    (handle id descend action frame).2.before = frame.before ++ Tree.skipsBefore action.adopted ∧
      (handle id descend action frame).2.after = frame.after ++ Tree.skipsAfter action.adopted := by
  have still : frame.before = frame.before ++ [] ∧ frame.after = frame.after ++ [] :=
    ⟨(List.append_nil _).symm, (List.append_nil _).symm⟩
  have settled : ∀ {β : Type} (lexed : Except LexError (β × Place)),
      (frame.settleLexed lexed).2.before = frame.before ++ [] ∧
        (frame.settleLexed lexed).2.after = frame.after ++ [] := by
    rintro β (error | ⟨value, place⟩) <;> exact still
  cases action with
  | lex token => exact settled _
  | lexFirst tokens message => exact settled _
  | adoptSkips node =>
      simp only [handle, Action.adopted, Tree.skipsBefore, Tree.skipsAfter, List.flatMap_singleton,
        and_self]
  | isNext token => exact still
  | parse rule state => exact still
  | mark => exact still
  | restore mark => exact still
  | place => exact still
  | position => exact still
  | atEnd => exact still

/-- A program adds the skip values of what it adopts to those it began with, and no others. -/
theorem run_adopts (id : BufferId) (descend : Descent V) (program : Program (Action V) α)
    (frame : Frame V) :
    let adopted := adoptions id descend program frame
    let left := (Program.run (handle id descend) (rounds id) program frame).2
    left.before = frame.before ++ Tree.skipsBefore adopted ∧
      left.after = frame.after ++ Tree.skipsAfter adopted := by
  have erased := (Program.run_simulates (fun (noted : Frame V × List V.Node) plain => noted.1 = plain)
    (fun _ _ same => congrArg (rounds id) same)
    (fun action noted plain same => by subst same; exact ⟨rfl, rfl⟩)
    program (frame, []) frame rfl : _ ∧
      (Program.run (handleNoting id descend) (fun noted => rounds id noted.1) program (frame, [])).2.1 =
        (Program.run (handle id descend) (rounds id) program frame).2).2
  simp only
  rw [← erased, adoptions]
  refine Program.run_preserves (fun noted : Frame V × List V.Node =>
    noted.1.before = frame.before ++ Tree.skipsBefore noted.2 ∧
      noted.1.after = frame.after ++ Tree.skipsAfter noted.2) ?_ program _
    ⟨(List.append_nil _).symm, (List.append_nil _).symm⟩
  rintro β action ⟨reached, adopted⟩ ⟨before, after⟩
  simp only at before after
  simp only [handleNoting, Tree.skipsBefore_append, Tree.skipsAfter_append, ← List.append_assoc,
    ← before, ← after]
  exact handle_adopts action reached

/-- A program that adopts nothing takes over nothing. -/
theorem adoptions_of_only {program : Program (Action V) α}
    (only : program.Only fun action => action.adopted = []) (frame : Frame V) :
    adoptions id descend program frame = [] := by
  refine only.run_preserves (fun noted : Frame V × List V.Node => noted.2 = []) ?_ _ rfl
  rintro β action ⟨reached, adopted⟩ none same
  simp only at same
  simp only [handleNoting, same, none, List.append_nil]

end Frame

end Reparse
