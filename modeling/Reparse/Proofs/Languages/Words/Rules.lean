import Reparse.Proofs.Languages.Words.Promises

namespace Reparse

/-!
# The rules for lists of words

Each rule finds what the derivations say, if the rules that it invokes do.  An item is read
by what it begins with, and the proof asks the same questions in the same order as the body.
The loop over the items of a list ends because it goes on behind items with a length only.
-/

namespace Words

variable {margin : Nat} {wide : 1 ≤ margin} {site : Site} {known : Known vocabulary}
  {frame : Frame vocabulary} {index : Nat} {descend : Descent vocabulary}

theorem registered (known : Known vocabulary) : grammar.Registered known () :=
  fun _ member => absurd member List.not_mem_nil

/-! ## Items -/

/-- A list in brackets is found as it is, and one without the bracket behind it is an error. -/
theorem yields_brackets (descends : (findings margin wide).Descends site descend)
    (reaches : (findings margin wide).Reaches site frame index known)
    (bracket : (site.rest index).head? = some '[') :
    frame.Yields site.rope.buffer descend
      (do
        let _ ← Body.lex (symbol '[')
        let inner ← Body.parse .items ()
        let _ ← Body.lex (symbol ']')
        Body.adopt inner)
      ((findings margin wide).Ends site known .item .item index) := by
  have keeps := descends.keeps
  have opens : opening (site.rest index) = .bracket := if_pos bracket
  refine reaches.yields_lex_exactly keeps (fun _ place inside => ?_) (absurd bracket)
  refine descends.yields_parse inside (show Rule.items = .items from rfl) (registered _) trivial ?_
  intro inner session place more grows finds
  have items : Derives (.node .items) (site.rest (index + 1)) inner.outline := finds.whole
  have behind : (findings margin wide).Reaches site { frame with session, place }
      (index + (1 + inner.outline.length)) more := by
    rw [← Nat.add_assoc, Tree.outline_length]
    exact ⟨finds.tells, finds.stands⟩
  rw [Site.rest_add] at items
  refine behind.yields_lex_exactly keeps (fun closing place closed => ?_) fun noClosing => ?_
  · rw [Site.rest_add] at closing
    refine Frame.yields_adopt fun before after => ?_
    have found := Derives.group opens items closing
    rw [Tree.outline_label, Tree.outline_children] at found
    exact ⟨by simp, more, _, grows, ⟨closed.tells, closed.stands⟩, found⟩
  · rw [Site.rest_add] at noClosing
    exact ⟨by simp, more, _, grows, behind, Derives.unclosed opens items noClosing⟩

/-- A tag is a number sign with letters behind it, and a lone number sign fails. -/
theorem yields_tag (keeps : descend.KeepsRefused)
    (reaches : (findings margin wide).Reaches site frame index known)
    (sign : (site.rest index).head? = some '#')
    (opens : opening (site.rest index) = .sign) :
    frame.Yields site.rope.buffer descend (do return ⟨.word (← Body.lex tag), []⟩)
      ((findings margin wide).Ends site known .item .item index) := by
  refine Frame.yields_lex keeps reaches.current reaches.stands ?_
  rw [read_tag sign, ← Site.rest, Site.rest_add]
  by_cases none : letters ((site.rest index).drop 1) = []
  · rw [if_pos none]
    exact ⟨by simp, known, 0, .refl known, reaches, .loneSign ⟨opens, none⟩ _⟩
  · rw [if_neg none]
    intro place stands
    rw [Nat.add_assoc] at stands
    exact Program.yields_pure
      ⟨by simp, known, _, .refl known, ⟨reaches.tells, stands⟩, .tag opens none⟩

theorem yields_word (keeps : descend.KeepsRefused)
    (reaches : (findings margin wide).Reaches site frame index known)
    (opens : opening (site.rest index) = .other) :
    frame.Yields site.rope.buffer descend (do return ⟨.word (← Body.lex word), []⟩)
      ((findings margin wide).Ends site known .item .item index) := by
  refine Frame.yields_lex keeps reaches.current reaches.stands ?_
  rw [read_word]
  by_cases none : letters (site.rest index) = []
  · rw [if_pos none]
    exact ⟨by simp, known, 0, .refl known, reaches, .noWord opens none⟩
  · rw [if_neg none]
    intro place stands
    exact Program.yields_pure
      ⟨by simp, known, _, .refl known, ⟨reaches.tells, stands⟩, .word opens none⟩

/-- An item is read by what it begins with. -/
theorem yields_item (descends : (findings margin wide).Descends site descend)
    (reaches : (findings margin wide).Reaches site frame index known) :
    frame.Yields site.rope.buffer descend item
      ((findings margin wide).Ends site known .item .item index) := by
  have keeps := descends.keeps
  refine reaches.yields_isNext_exactly keeps (yields_brackets descends reaches) fun noBracket => ?_
  refine reaches.yields_isNext_exactly keeps (fun sign => ?_) fun noSign => ?_
  · exact yields_tag keeps reaches sign (by rw [opening, if_neg noBracket, if_pos sign])
  refine reaches.yields_isNext_exactly keeps (fun bang => ?_) fun noBang => ?_
  · refine reaches.yields_lex_exactly keeps (fun _ place reached => ?_) (absurd bang)
    exact Program.yields_throw ⟨by simp, known, 1, .refl known, reached,
      .bang (by rw [opening, if_neg noBracket, if_neg noSign, if_pos bang])⟩
  refine reaches.yields_isNext_exactly keeps (fun question => ?_) fun noQuestion => ?_
  · refine reaches.yields_lex_exactly keeps (fun _ place reached => ?_) (absurd question)
    exact Frame.yields_giveUp ⟨by simp, known, 1, .refl known, reached, .question
      (by rw [opening, if_neg noBracket, if_neg noSign, if_neg noBang, if_pos question])⟩
  · exact yields_word keeps reaches
      (by rw [opening, if_neg noBracket, if_neg noSign, if_neg noBang, if_neg noQuestion])

/-! ## Lists -/

/-- The loop over a list has come to an index with the items before it.  What is found from
there on completes what the body finds. -/
structure Continues (margin : Nat) (wide : 1 ≤ margin) (site : Site) (known : Known vocabulary)
    (start : Nat) (found : List Node) (frame : Frame vocabulary) (here : Nat)
    (more : Known vocabulary) : Prop where
  grows : known.Extends more
  reaches : (findings margin wide).Reaches site frame here more
  after : start ≤ here
  completes : ∀ length children,
    Derives (.body .items) (site.rest here) ⟨.group, length, children⟩ →
    Derives (.body .items) (site.rest start)
      ⟨.group, here - start + length, Tree.outlines found.reverse ++ children⟩

namespace Continues

variable {start here length : Nat} {found : List Node} {next : Node} {more : Known vocabulary}

theorem begins (reaches : (findings margin wide).Reaches site frame index known) :
    Continues margin wide site known index [] frame index known := by
  refine ⟨.refl known, reaches, Nat.le_refl _, fun length children derives => ?_⟩
  rw [Nat.sub_self, Nat.zero_add]
  exact derives

/-- The body has found what it should when nothing follows that would change it. -/
theorem ends {children : List (Outline Label)} {last : Frame vocabulary} {further : Known vocabulary}
    {all : List Node} (continues : Continues margin wide site known start found frame here more)
    (grows : more.Extends further)
    (reaches : (findings margin wide).Reaches site last (here + length) further)
    (derives : Derives (.body .items) (site.rest here) ⟨.group, length, children⟩)
    (content : Tree.outlines all.reverse = Tree.outlines found.reverse ++ children) :
    (findings margin wide).Ends site known .items .items start (.ok ⟨.group, all.reverse⟩) last := by
  have derives := continues.completes length children derives
  have stands := reaches.stands
  rw [← content] at derives
  rw [← Nat.add_sub_cancel' continues.after, Nat.add_assoc] at stands
  exact ⟨by simp, further, _, continues.grows.trans grows, ⟨reaches.tells, stands⟩, derives⟩

/-- A list that closes is complete. -/
theorem closes (continues : Continues margin wide site known start found frame here more)
    (closes : Closes (site.rest here)) :
    (findings margin wide).Ends site known .items .items start (.ok ⟨.group, found.reverse⟩)
      frame := by
  have reaches : (findings margin wide).Reaches site frame (here + 0) more := continues.reaches
  exact continues.ends (.refl more) reaches (.done closes) (List.append_nil _).symm

theorem outlines_cons (next : Node) (found : List Node) :
    Tree.outlines (next :: found).reverse = Tree.outlines found.reverse ++ [next.outline] := by
  rw [List.reverse_cons, Tree.outlines_append]
  rfl

/-- An item without length is the last one. -/
theorem sticks {session : Session vocabulary} {place : Place} {further : Known vocabulary}
    (continues : Continues margin wide site known start found frame here more)
    (goesOn : ¬Closes (site.rest here)) (grows : more.Extends further)
    (finds : (findings margin wide).Finds site .item here next ⟨site.rope.buffer, place⟩ session
      further)
    (empty : next.length = 0) :
    (findings margin wide).Ends site known .items .items start (.ok ⟨.group, (next :: found).reverse⟩)
      { frame with session, place } := by
  have stands : site.shape.Stands place (here + next.length) := finds.stands
  have item : Derives (.node .item) (site.rest here) next.outline := finds.whole
  rw [empty] at stands
  exact continues.ends grows ⟨finds.tells, stands⟩
    (.stuck goesOn item (next.outline_length.trans empty)) (outlines_cons next found)

/-- The list goes on behind any other item. -/
theorem goes_on {session : Session vocabulary} {place : Place} {further : Known vocabulary}
    (continues : Continues margin wide site known start found frame here more)
    (goesOn : ¬Closes (site.rest here)) (grows : more.Extends further)
    (finds : (findings margin wide).Finds site .item here next ⟨site.rope.buffer, place⟩ session
      further)
    (some : next.length ≠ 0) :
    Continues margin wide site known start (next :: found) { frame with session, place }
      (here + next.length) further := by
  have item : Derives (.node .item) (site.rest here) next.outline := finds.whole
  refine ⟨continues.grows.trans grows, ⟨finds.tells, finds.stands⟩,
    Nat.le_add_right_of_le continues.after, fun length children derives => ?_⟩
  rw [Site.rest_add, ← Tree.outline_length] at derives
  have found := continues.completes _ _
    (.further goesOn item (next.outline_length.symm ▸ some) derives)
  rw [outlines_cons, List.append_assoc, List.singleton_append, Nat.sub_add_comm continues.after,
    Nat.add_assoc, ← Tree.outline_length]
  exact found

end Continues

/-- A list is found item by item, up to its end or to an item without length. -/
theorem yields_items (descends : (findings margin wide).Descends site descend)
    (reaches : (findings margin wide).Reaches site frame index known) :
    frame.Yields site.rope.buffer descend items
      ((findings margin wide).Ends site known .items .items index) := by
  have keeps := descends.keeps
  -- What is left of the text falls from round to round, since the loop goes on behind items
  -- with a length only.
  refine Frame.yields_bind keeps (Frame.yields_loop keeps
    (fun found frame measure => ∃ here more,
      Continues margin wide site known index found frame here more ∧
        measure = site.shape.text.length - here)
    ?_ ⟨index, known, .begins reaches, rfl⟩ reaches.lt_rounds)
  rintro found frame measure ⟨here, more, continues, rfl⟩
  have finishes : ∀ {found : List Node} {frame : Frame vocabulary},
      (findings margin wide).Ends site known .items .items index (.ok ⟨.group, found.reverse⟩) frame →
      frame.Yields site.rope.buffer descend (pure ⟨.group, found.reverse⟩ : RuleBody)
        ((findings margin wide).Ends site known .items .items index) := Program.yields_pure
  refine Frame.yields_atEnd keeps continues.reaches.current continues.reaches.stands ?_
  rw [← Site.head?_rest]
  cases first : (site.rest here).head? with
  | none => exact Program.yields_pure (finishes (continues.closes (Or.inl first)))
  | some char =>
      refine continues.reaches.yields_isNext_exactly keeps (fun closing => ?_) fun noClosing => ?_
      · exact Program.yields_pure (finishes (continues.closes (Or.inr closing)))
      have goesOn : ¬Closes (site.rest here) := by
        rintro (ended | closing)
        · cases first.symm.trans ended
        · exact noClosing closing
      refine descends.yields_parse continues.reaches (show Rule.item = .item from rfl)
        (registered _) trivial ?_
      intro next session place further grows finds
      have within := finds.stands.means.le_length
      refine Program.yields_pure ?_
      by_cases empty : next.length = 0
      · rw [empty, bne_self_eq_false]
        exact finishes (continues.sticks goesOn grows finds empty)
      · rw [bne_iff_ne.mpr empty]
        exact ⟨site.shape.text.length - (here + next.length), by omega, here + next.length, further,
          continues.goes_on goesOn grows finds empty, rfl⟩

/-- Each rule finds what is derived. -/
theorem findings_sound (margin : Nat) (wide : 1 ≤ margin) : (findings margin wide).Sound := by
  intro site descend descends known frame index rule state goal asks _ _ reaches
  cases asks
  cases rule with
  | items => exact yields_items descends reaches
  | item => exact yields_item descends reaches

end Words

end Reparse
