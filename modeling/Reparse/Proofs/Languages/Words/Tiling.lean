import Reparse.Proofs.Languages.Words.Reparsing
import Reparse.Proofs.Languages.Words.Visits
import Reparse.Proofs.Parsing.Laying

namespace Reparse

/-!
# Lists of words tile their text

The items of a list are made one behind another, and a list goes on only behind items that have
length.  An item in brackets takes over the items of the list in it.  So the children of each node
are in a row within the node.

The first list of a text reaches to its end, with two exceptions.  A closing bracket that was not
opened ends the list, and an item that consumes nothing does so too.  Such an item is an error.
-/

namespace Words

variable {margin : Nat} {wide : 1 ≤ margin} {site : Site} {known : Known vocabulary}
  {frame : Frame vocabulary} {index : Nat} {descend : Descent vocabulary}

/-! ## Bodies -/

/-- A body that makes no children makes a row, if it has invoked no rule. -/
theorem rows_of_no_children {rule : Rule} {session : Session vocabulary}
    (laid : session.Lays site) {result : Except Stop (Content Label Char)}
    {last : Frame vocabulary} (same : last.session = session)
    (none : (grammar.contentOf rule result).children = []) :
    grammar.Rows site session rule index result last :=
  ⟨same ▸ .refl _, same ▸ laid, Or.inl none⟩

theorem lays_brackets (places : (findings margin wide).Places site descend)
    (laid : frame.session.Lays site)
    (reaches : (findings margin wide).Reaches site frame index known)
    (bracket : (site.rest index).head? = some '[') :
    frame.Yields site.rope.buffer descend
      (do
        let _ ← Body.lex (symbol '[')
        let inner ← Body.parse .items ()
        let _ ← Body.lex (symbol ']')
        Body.adopt inner)
      (grammar.Rows site frame.session .item index) := by
  have keeps := places.descends.keeps
  refine reaches.yields_lex_exactly keeps (fun _ place inside => ?_) (absurd bracket)
  refine places.yields_parse inside laid (show Rule.items = .items from rfl) (registered _) trivial ?_
  intro inner session place more _ finds lies
  have behind : (findings margin wide).Reaches site { frame with session, place }
      (index + 1 + inner.length) more := ⟨finds.tells, finds.stands⟩
  refine behind.yields_lex_exactly keeps (fun _ place closed => ?_) fun _ => ?_
  · refine Frame.yields_adopt fun before after => ⟨lies.keeps, lies.lays, Or.inr ?_⟩
    rcases Tree.liesAt_iff.mp lies.lies with ⟨_, _, first, last, after, before, row⟩
    exact ⟨_, first, last, closed.stands, by omega, by omega, row⟩
  · exact ⟨lies.keeps, lies.lays, Or.inl rfl⟩

/-- A token that is no bracket is all that its item consists of. -/
theorem lays_token {α : Type} (keeps : descend.KeepsRefused)
    (reaches : (findings margin wide).Reaches site frame index known)
    (laid : frame.session.Lays site) (token : Token α) {next : α → RuleBody}
    (holds : ∀ (after : Frame vocabulary) value, after.session = frame.session →
      after.Yields site.rope.buffer descend (next value)
        (grammar.Rows site frame.session .item index)) :
    frame.Yields site.rope.buffer descend (Body.lex token >>= next)
      (grammar.Rows site frame.session .item index) := by
  refine Frame.yields_lex keeps reaches.current reaches.stands ?_
  cases token.read site.shape.text index with
  | error error => exact rows_of_no_children laid rfl (by cases error <;> rfl)
  | ok answer => exact fun place stands => holds { frame with place } answer.1 rfl

theorem lays_item (places : (findings margin wide).Places site descend)
    (laid : frame.session.Lays site)
    (reaches : (findings margin wide).Reaches site frame index known) :
    frame.Yields site.rope.buffer descend item
      (grammar.Rows site frame.session .item index) := by
  have keeps := places.descends.keeps
  refine reaches.yields_isNext_exactly keeps (lays_brackets places laid reaches) fun noBracket => ?_
  refine reaches.yields_isNext_exactly keeps (fun sign => ?_) fun noSign => ?_
  · exact lays_token keeps reaches laid tag fun after value same =>
      Program.yields_pure (rows_of_no_children laid same rfl)
  refine reaches.yields_isNext_exactly keeps (fun bang => ?_) fun noBang => ?_
  · exact lays_token keeps reaches laid _ fun after value same =>
      Program.yields_throw (rows_of_no_children laid same rfl)
  refine reaches.yields_isNext_exactly keeps (fun question => ?_) fun noQuestion => ?_
  · exact lays_token keeps reaches laid _ fun after value same =>
      Frame.yields_giveUp (rows_of_no_children laid same rfl)
  · exact lays_token keeps reaches laid word fun after value same =>
      Program.yields_pure (rows_of_no_children laid same rfl)

/-- The loop over a list has come to an index.  The items that it has found are a row up to there,
and all of them have length. -/
structure Collects (margin : Nat) (wide : 1 ≤ margin) (site : Site) (session : Session vocabulary)
    (start : Nat) (found : List Node) (frame : Frame vocabulary) (here : Nat) : Prop where
  reaches : ∃ known, (findings margin wide).Reaches site frame here known
  keeps : session.store.Keeps frame.session.store
  laid : frame.session.Lays site
  row : Tree.LieInRow (site.Points frame.session.store) found.reverse start here
  positive : ∀ node ∈ found.reverse, 0 < node.length

namespace Collects

variable {session after : Session vocabulary} {start here : Nat} {found : List Node} {next : Node}
  {place : Place}

/-- The row of all items that have been found. -/
theorem rows (collects : Collects margin wide site session start found frame here) :
    grammar.Rows site session .items start (.ok ⟨.group, found.reverse⟩) frame := by
  rcases collects.reaches with ⟨known, reaches⟩
  exact ⟨collects.keeps, collects.laid, Or.inr
    ⟨here, start, here, reaches.stands, Nat.le_refl _, Nat.le_refl _, collects.row⟩⟩

/-- The next item continues the row. -/
theorem row_cons (collects : Collects margin wide site session start found frame here)
    (lies : frame.session.Lies site here next after) :
    Tree.LieInRow (site.Points after.store) (next :: found).reverse start (here + next.length) := by
  rw [List.reverse_cons]
  have row := collects.row.mono fun _ _ stands => Cursor.StandsAt.keeps stands lies.keeps
  exact row.append collects.positive lies.lies

theorem push (collects : Collects margin wide site session start found frame here)
    (finds : (findings margin wide).Finds site .item here next ⟨site.rope.buffer, place⟩ after known)
    (lies : frame.session.Lies site here next after) (positive : 0 < next.length) :
    Collects margin wide site session start (next :: found) { frame with session := after, place }
      (here + next.length) := by
  refine ⟨⟨known, finds.tells, finds.stands⟩, collects.keeps.trans lies.keeps, lies.lays,
    collects.row_cons lies, fun node member => ?_⟩
  rw [List.reverse_cons] at member
  rcases List.mem_append.mp member with old | new
  · exact collects.positive node old
  · rw [List.mem_singleton.mp new]
    exact positive

end Collects

theorem lays_items (places : (findings margin wide).Places site descend)
    (laid : frame.session.Lays site)
    (reaches : (findings margin wide).Reaches site frame index known) :
    frame.Yields site.rope.buffer descend items
      (grammar.Rows site frame.session .items index) := by
  have keeps := places.descends.keeps
  refine Frame.yields_bind keeps (Frame.yields_loop keeps
    (fun found last measure => ∃ here,
      Collects margin wide site frame.session index found last here ∧
        measure = site.shape.text.length - here)
    ?_ ⟨index, ⟨⟨known, reaches⟩, .refl _, laid, rfl, fun _ none => absurd none List.not_mem_nil⟩,
      rfl⟩ reaches.lt_rounds)
  rintro found last measure ⟨here, collects, rfl⟩
  have finishes : ∀ {all : List Node} {last : Frame vocabulary},
      grammar.Rows site frame.session .items index (.ok ⟨.group, all.reverse⟩) last →
      last.Yields site.rope.buffer descend (pure ⟨.group, all.reverse⟩ : RuleBody)
        (grammar.Rows site frame.session .items index) := Program.yields_pure
  rcases collects.reaches with ⟨more, reaches⟩
  refine Frame.yields_atEnd keeps reaches.current reaches.stands ?_
  cases site.shape.text[here]?.isNone with
  | true => exact Program.yields_pure (finishes collects.rows)
  | false =>
      refine reaches.yields_isNext_exactly keeps (fun closing => ?_) fun noClosing => ?_
      · exact Program.yields_pure (finishes collects.rows)
      refine places.yields_parse reaches collects.laid (show Rule.item = .item from rfl)
        (registered _) trivial ?_
      intro next session place further _ finds lies
      have within := finds.stands.means.le_length
      refine Program.yields_pure ?_
      by_cases empty : next.length = 0
      · rw [empty, bne_self_eq_false]
        exact finishes ⟨collects.keeps.trans lies.keeps, lies.lays, Or.inr
          ⟨_, index, _, finds.stands, Nat.le_refl _, Nat.le_refl _, collects.row_cons lies⟩⟩
      · rw [bne_iff_ne.mpr empty]
        exact ⟨site.shape.text.length - (here + next.length), by omega, here + next.length,
          collects.push finds lies (Nat.pos_of_ne_zero empty), rfl⟩

/-- Each rule lays its nodes in a row. -/
theorem findings_lays (margin : Nat) (wide : 1 ≤ margin) : (findings margin wide).Lays := by
  intro site descend places known frame index rule state goal asks _ _ laid reaches
  cases rule with
  | items => exact lays_items places laid reaches
  | item => exact lays_item places laid reaches

/-! ## Where the first list ends -/

namespace Derives

variable {text : List Char} {outline : Outline Label}

/-- An item that consumes nothing is an error. -/
theorem error_of_empty (derives : Derives (.node .item) text outline) (empty : outline.length = 0) :
    ∃ message, outline.label = .error message := by
  cases derives with
  | @node _ _ content body =>
      have consumed : content.length = 0 := by
        simp only at empty
        omega
      cases body with
      | group => exact absurd consumed (Nat.succ_ne_zero _)
      | unclosed | tag => exact absurd consumed (by simp only; omega)
      | bang | question => exact absurd consumed Nat.one_ne_zero
      | word opens some => exact absurd (List.length_eq_zero_iff.mp consumed) some
      | loneSign lone position => exact ⟨_, rfl⟩
      | noWord opens none => exact ⟨_, rfl⟩

/-- A list goes on until it closes, or an item is stuck. -/
theorem list_ends (derives : Derives (.body .items) text outline) :
    Closes (text.drop outline.length) ∨ ∃ item message, outline.children.getLast? = some item ∧
      item.length = 0 ∧ item.label = .error message := by
  generalize isTask : Task.body .items = task at derives
  induction derives with
  | done closes => exact Or.inl closes
  | @stuck text item goesOn first empty =>
      rcases first.error_of_empty empty with ⟨message, label⟩
      exact Or.inr ⟨item, message, rfl, empty, label⟩
  | @further text first others goesOn _ some rest firstHypothesis restHypothesis =>
      rw [← List.drop_drop]
      rcases restHypothesis rfl with closes | ⟨item, message, last, stuck⟩
      · exact Or.inl closes
      · refine Or.inr ⟨item, message, ?_, stuck⟩
        rw [List.getLast?_cons, last, Option.getD_some]
  | node | group | unclosed | tag | loneSign | bang | question | word | noWord => cases isTask

/-- A list with the blanks around it goes to the end of the text, up to a bracket, or up to an item
that is stuck. -/
theorem items_end (derives : Derives (.node .items) text outline) :
    outline.length = text.length ∨ text[outline.length]? = some ']' ∨
      ∃ item message, outline.children.getLast? = some item ∧ item.length = 0 ∧
        item.label = .error message := by
  have within := derives.length_le
  cases derives with
  | @node _ _ content body =>
      have noBlank := body.blanks_behind_list (blanks_drop_blanks text)
      have ends := body.list_ends
      rw [List.drop_drop] at noBlank ends
      simp only [noBlank, Nat.add_zero] at within ⊢
      rcases ends with (ended | closing) | stuck
      · rw [List.head?_drop, List.getElem?_eq_none_iff] at ended
        exact Or.inl (Nat.le_antisymm within ended)
      · rw [List.head?_drop] at closing
        exact Or.inr (Or.inl closing)
      · exact Or.inr (Or.inr stuck)

end Derives

/-! ## Parses -/

/-- The nodes of a tree tile their spans, and its root begins at the start of the text.  It is as long
as the text, unless a closing bracket or an error without length ends it before. -/
structure Tiles (text : List Char) (store : Store) (tree : Node) : Prop where
  nodes : ∀ depth node, (depth, node) ∈ tree.preorder 0 → node.Tiled store
  start : (tree.range store).start = 0
  root : tree.length = text.length ∨ text[tree.length]? = some ']' ∨
    ∃ item message, tree.children.getLast? = some item ∧ item.length = 0 ∧
      item.label = .error message

/-- A session that keeps nothing parses a text from its start. -/
theorem tiles_parse (config : Config) (session : Session vocabulary) {rope : Rope} {shape : Shape}
    (sound : session.store.Sound) (current : (session.store.buffer rope.buffer).Current shape)
    (root : shape.root = rope.root) (empty : session.memos = []) (ends : session.endless = false)
    (isStale : Range → Bool) :
    let reply := (⟨grammar, config⟩ : Parser vocabulary).parse isStale .items ()
      (session.store.positionAt rope 0) session
    reply.2.refused = [] → reply.2.endless = false ∧ Tiles shape.text reply.2.store reply.1.1 := by
  have nothing : ∀ rule state entry, ¬session.Holds rule state entry := by
    rintro rule state entry ⟨memo, member, _⟩
    rw [empty] at member
    exact List.not_mem_nil member
  have fulfils : session.Fulfils ((findings 1 (Nat.le_refl 1)).promise fun _ => none) rope shape {} :=
    ⟨sound, current, root, fun rule state entry holds => absurd holds (nothing rule state entry)⟩
  have tells : (findings 1 (Nat.le_refl 1)).Tells ⟨rope, shape⟩ session fun _ => none :=
    ⟨fulfils, fun _ _ => rfl, ends⟩
  have laid : session.Lays ⟨rope, shape⟩ := fun rule state entry holds =>
    absurd holds (nothing rule state entry)
  rcases fulfils.positionAt_start with ⟨place, origin, stands⟩
  have finding : (findings 1 (Nat.le_refl 1)).Sound := findings_sound 1 (Nat.le_refl 1)
  have places := finding.places_invoke (findings_lays 1 (Nat.le_refl 1)) ⟨rope, shape⟩ config isStale
    config.maxDepth
  have asks : (findings 1 (Nat.le_refl 1)).Asks (fun _ => none) .items () .items := rfl
  have found := places.descends.finds tells asks (registered _) trivial stands
  have laid := places.lies tells laid asks (registered _) trivial stands
  simp only [Parser.parse, origin]
  intro unrefused
  rcases found with refused | ⟨more, _, finds⟩
  · exact absurd unrefused refused
  rcases laid with refused | lies
  · exact absurd unrefused refused
  generalize (⟨grammar, config⟩ : Parser vocabulary).invoke isStale config.maxDepth .items ()
    ⟨rope.buffer, place⟩ session = reply at finds lies ⊢
  rcases reply with ⟨⟨tree, stop⟩, after⟩
  have tree_lies : tree.LiesAt (after.store.index · = ·) 0 :=
    lies.lies.mono fun cursor index stands => stands.index_eq finds.tells.current
  have derives : Derives (.node .items) shape.text tree.outline := finds.whole
  refine ⟨finds.tells.ends, fun depth node member => ?_, ?_, ?_⟩
  · rcases tree_lies.of_mem_preorder member with ⟨own, node_lies⟩
    exact node_lies.tiled
  · simp only [tree_lies.range_eq]
  · have goesTo := derives.items_end
    rw [Tree.outline_length, Tree.outline_children, Tree.outlines_eq_map, List.getLast?_map] at goesTo
    refine goesTo.imp_right (Or.imp_right ?_)
    rintro ⟨item, message, last, stuck, label⟩
    rcases Option.map_eq_some_iff.mp last with ⟨node, isLast, rfl⟩
    exact ⟨node, message, isLast, node.outline_length ▸ stuck, node.outline_label ▸ label⟩

/-- The tree of a parse that begins with nothing kept tiles its text, unless a body is refused for
its depth: the tree of a new document, and the tree of any newest rope after any commands, however
its text is cut into leaves. -/
theorem parses_tile_their_text (config : Config) :
    let parser : Parser vocabulary := ⟨grammar, config⟩
    (∀ text : String,
      let parsed := (Document.ofString text).parse parser
      parsed.2.session.refused = [] → parsed.2.session.endless = false ∧
        Tiles text.toList parsed.2.session.store parsed.1) ∧
    ∀ commands : List Command,
      let store := (Desk.run commands).store
      ∀ rope ∈ (Desk.run commands).ropes, store.Newest rope → ∀ isStale,
        let reply := parser.parse isStale .items () (store.positionAt rope 0) { store }
        reply.2.refused = [] → reply.2.endless = false ∧
          Tiles (store.text rope).toList reply.2.store reply.1.1 := by
  intro parser
  constructor
  · intro text
    rcases Document.fulfils_ofString (V := vocabulary) (.ofLines 0 []) text with
      ⟨shape, fulfils, isText⟩
    -- No edit is pending, so nothing is evicted.
    let document : Document vocabulary := .ofString text
    let session := (document.evictEdited config.editMargin).beginSweep
    have begun : session.Fulfils (.ofLines 0 []) document.rope shape {} :=
      Session.Fulfils.beginSweep fulfils
    have tiles := tiles_parse config session begun.sound begun.current begun.root rfl rfl
      (document.isEdited config.editMargin)
    intro parsed
    have tree : parsed.1 = (parser.parse (document.isEdited config.editMargin) .items ()
        (session.store.positionAt document.rope 0) session).1.1 := rfl
    have after : parsed.2.session = (parser.parse (document.isEdited config.editMargin) .items ()
        (session.store.positionAt document.rope 0) session).2.sweep.2 := rfl
    rw [tree, after, ← isText]
    generalize parser.parse (document.isEdited config.editMargin) .items ()
      (session.store.positionAt document.rope 0) session = reply at tiles ⊢
    rcases reply.2.sweep_eq with ⟨memos, reused, swept⟩
    rw [swept]
    exact tiles
  · intro commands store rope member newest isStale
    rcases Desk.exists_hosts commands member newest with ⟨shape, hosts, isText⟩
    simp only
    rw [isText]
    exact tiles_parse config { store } hosts.sound hosts.current hosts.root rfl rfl isStale

/-- The first text goes on behind its list, from a bracket that was not opened.  The second one has a
seam, and a bracket that is not closed, so its last item is an error with length. -/
theorem lists_tile_over_a_seam :
    let parser : Parser vocabulary := ⟨grammar, {}⟩
    let parsed := (Document.ofString "[a b] ]c").parse parser
    let desk := Desk.run [.newBuffer, .rope 0 "ab [", .rope 0 "c", .concat 0 1]
    let reply := parser.parse (fun _ => false) .items () (desk.store.positionAt ⟨0, 2⟩ 0)
      { store := desk.store }
    (parsed.2.session.refused = [] ∧ parsed.1.length = 6) ∧
      Tiles "[a b] ]c".toList parsed.2.session.store parsed.1 ∧
      ⟨0, 2⟩ ∈ desk.ropes ∧ desk.store.Newest ⟨0, 2⟩ ∧
      (reply.2.refused = [] ∧ reply.1.1.children.length = 2) ∧
      Tiles "ab [c".toList reply.2.store reply.1.1 := by
  rcases parses_tile_their_text {} with ⟨documents, ropes⟩
  have tiles := documents "[a b] ]c"
  have tiles' := ropes [.newBuffer, .rope 0 "ab [", .rope 0 "c", .concat 0 1] ⟨0, 2⟩
  -- What has been computed is named, so that it is looked at where it is asked for only.
  simp only at tiles tiles' ⊢
  generalize isParsed : (Document.ofString "[a b] ]c").parse _ = parsed at tiles ⊢
  generalize isDesk : Desk.run _ = desk at tiles' ⊢
  have parse : parsed.2.session.refused = [] ∧ parsed.1.length = 6 := by
    rw [← isParsed]
    decide +kernel
  have member : ⟨0, 2⟩ ∈ desk.ropes := by
    rw [← isDesk]
    decide +kernel
  have current : (desk.store.buffer 0).Current
      (.branch 2 (.leaf 0 ['a', 'b', ' ', '[']) (.leaf 1 ['c'])) := by
    rw [← isDesk]
    exact ⟨⟨by rfl, by decide, by decide, by decide, by decide, by rfl, by rfl⟩,
      ⟨by decide +kernel, by decide +kernel, trivial, trivial⟩, by decide +kernel, by decide⟩
  have text : (desk.store.text ⟨0, 2⟩).toList = "ab [c".toList := by
    rw [← isDesk]
    decide +kernel
  have tiles' := tiles' member current.newest fun _ => false
  rw [text] at tiles'
  generalize isReply : Parser.parse _ _ _ _ _ _ = reply at tiles' ⊢
  have parse' : reply.2.refused = [] ∧ reply.1.1.children.length = 2 := by
    rw [← isReply, ← isDesk]
    decide +kernel
  exact ⟨parse, (tiles parse.1).2, member, current.newest, parse', (tiles' parse'.1).2⟩

end Words

end Reparse
