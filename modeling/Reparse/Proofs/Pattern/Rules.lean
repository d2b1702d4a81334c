import Reparse.Proofs.Parsing.Findings
import Reparse.Proofs.Pattern.Derivations
import Reparse.Proofs.Pattern.Discretion

namespace Reparse

/-!
# The rules of patterns

Each rule finds what the derivations say, where there is one, if the rules that it
invokes do.  The argument follows the body from step to step, and the derivation
alongside it.  Both loops end because each of their rounds consumes something.

The parse of a pattern keeps nodes for one text only, and so whatever is promised
of them may depend on the whole of it.
-/

namespace Pattern

/-! ## Goals -/

/-- What a rule is to look for when it is invoked with a state. -/
inductive Asks (known : Known vocabulary) : Rule → State → Goal → Prop where
  | pattern (power : Nat) : Asks known .pattern (.operand power) (.pattern power)
  | operand (state : State) : Asks known .operand state .operand
  | operator (power : Nat) {left : Node} {outline : Outline Label}
      (named : known left.id = some outline) :
      Asks known .operator (.operator power left) (.operator power outline)
  | classItem (state : State) : Asks known .classItem state .classItem

namespace Asks

variable {known more : Known vocabulary} {rule : Rule} {state state' : State} {goal goal' : Goal}

theorem mono (grows : known.Extends more) (asks : Asks known rule state goal) :
    Asks more rule state goal := by
  cases asks with
  | pattern power => exact .pattern power
  | operand state => exact .operand state
  | operator power named => exact .operator power (grows _ _ named)
  | classItem state => exact .classItem state

theorem unique (asks : Asks known rule state goal) (asks' : Asks known rule state goal') :
    goal = goal' := by
  cases asks with
  | pattern power =>
      cases asks'
      rfl
  | operand state =>
      cases asks'
      rfl
  | operator power named =>
      cases asks' with
      | operator power named' => rw [Option.some.inj (named.symm.trans named')]
  | classItem state =>
      cases asks'
      rfl

end Asks

theorem skipEnd_eq (text : List Char) (index : Nat) : grammar.skipEnd text index = index := rfl

/-- The rules are to find what is derived from one text. -/
def findings (whole : List Char) : Findings grammar where
  Goal := Goal
  Asks := Asks
  Wanted goal text index := text = whole ∧ ∃ outline, Derives text (.goal goal) index outline
  Inner goal text index outline := text = whole ∧ Derives text (.goal goal) index outline
  Whole goal text index outline := text = whole ∧ Derives text (.goal goal) index outline
  margin := whole.length
  asks_mono := Asks.mono
  asks_unique := Asks.unique
  asks_of_sameState same asks := eq_of_sameState same ▸ asks
  skips_forward _ _ := Nat.le_refl _
  whole_of_inner := by
    intro goal text index label length children found
    rw [skipEnd_eq] at found
    rw [skipEnd_eq, skipEnd_eq, Nat.add_sub_cancel_left]
    exact found
  persists := by
    rintro goal text text' span span' outline forward forward' within within' same _ ⟨rfl, derives⟩
    rcases eq_of_surroundings forward forward' within within' (Nat.lt_succ_self _) same with
      ⟨rfl, start⟩
    exact ⟨rfl, start ▸ derives⟩

variable {site : Site} {known more : Known vocabulary} {frame : Frame vocabulary} {index : Nat}
  {descend : Descent vocabulary} {outline : Outline Label}

abbrev findingsAt (site : Site) : Findings grammar := findings site.shape.text

/-- A body that has come to an end behind what was derived. -/
theorem ends_of_derives {rule : Rule} {goal : Goal} {result : Except Stop (Content Label Unit)}
    {length : Nat} (ended : result ≠ .error .endless) (grows : known.Extends more)
    (derives : Derives site.shape.text (.goal goal) index ⟨(grammar.contentOf rule result).label,
      length, Tree.outlines (grammar.contentOf rule result).children⟩)
    (reaches : (findingsAt site).Reaches site frame (index + length) more) :
    (findingsAt site).Ends site known rule goal index result frame :=
  ⟨ended, more, length, grows, reaches, rfl, derives⟩

/-- A rule that is invoked finds what is derived. -/
theorem yields_parse {α : Type} (descends : (findingsAt site).Descends site descend)
    (reaches : (findingsAt site).Reaches site frame index known) {rule : Rule} {state : State}
    {goal : Goal} (asks : Asks known rule state goal) (registered : grammar.Registered known state)
    (derives : Derives site.shape.text (.goal goal) index outline)
    {next : Node → Body vocabulary α} {post : Except Stop α → Frame vocabulary → Prop}
    (holds : ∀ node session place more, known.Extends more → node.outline = outline →
      more node.id = some outline →
      (findingsAt site).Reaches site { frame with session, place } (index + outline.length) more →
      Frame.Yields { frame with session, place } site.rope.buffer descend (next node) post) :
    frame.Yields site.rope.buffer descend (Body.parse rule state >>= next) post := by
  refine descends.yields_parse reaches asks registered ⟨rfl, outline, derives⟩ ?_
  intro node session place more grows finds
  have same : node.outline = outline := finds.whole.2.unique derives
  have stands := finds.stands
  rw [← Tree.outline_length, same] at stands
  exact holds node session place more grows same (same ▸ finds.named) ⟨finds.tells, stands⟩

/-- A token is lexed that can be read here. -/
theorem yields_lex {α β : Type} (descends : (findingsAt site).Descends site descend)
    (reaches : (findingsAt site).Reaches site frame index known) {token : Token α} {value : α}
    {last : Nat} (read : token.read site.shape.text index = .ok (value, last))
    {next : α → Body vocabulary β} {post : Except Stop β → Frame vocabulary → Prop}
    (holds : ∀ place, (findingsAt site).Reaches site { frame with place } last known →
      Frame.Yields { frame with place } site.rope.buffer descend (next value) post) :
    frame.Yields site.rope.buffer descend (Body.lex token >>= next) post := by
  refine Frame.yields_lex descends.keeps reaches.current reaches.stands ?_
  rw [read]
  exact fun place stands => holds place ⟨reaches.tells, stands⟩

/-- It is asked whether a token can be read here. -/
theorem yields_isNext {α β : Type} {sought : Findings grammar}
    (descends : sought.Descends site descend)
    (reaches : sought.Reaches site frame index known) {token : Token α} {answer : Bool}
    (same : (token.read site.shape.text index).toBool = answer)
    {next : Bool → Body vocabulary β} {post : Except Stop β → Frame vocabulary → Prop}
    (holds : frame.Yields site.rope.buffer descend (next answer) post) :
    frame.Yields site.rope.buffer descend (Body.isNext token >>= next) post := by
  refine Frame.yields_isNext descends.keeps reaches.current reaches.stands ?_
  rw [same]
  exact holds

theorem registered_operand (known : Known vocabulary) (power : Nat) :
    grammar.Registered known (.operand power) :=
  fun _ member => absurd member List.not_mem_nil

/-! ## Operators -/

/-- If a token can be read here one answer is given, and else another one. -/
theorem yields_ifNext {α β : Type} {sought : Findings grammar}
    (descends : sought.Descends site descend)
    (reaches : sought.Reaches site frame index known) {token : Token α}
    {answer other : β} {others : Body vocabulary β} {post : Except Stop β → Frame vocabulary → Prop}
    (holds : post (.ok (if (token.read site.shape.text index).toBool then answer else other)) frame)
    (further : post (.ok other) frame → frame.Yields site.rope.buffer descend others post) :
    frame.Yields site.rope.buffer descend
      (Body.isNext token >>= fun found => if found = true then pure answer else others) post := by
  refine yields_isNext descends reaches rfl ?_
  by_cases found : (token.read site.shape.text index).toBool = true
  · rw [if_pos found] at holds ⊢
    exact Program.yields_pure holds
  · rw [if_neg found] at holds ⊢
    exact further holds

/-- Peeking tells the operator that stands here. -/
theorem yields_peekOperator {β : Type} {sought : Findings grammar}
    (descends : sought.Descends site descend)
    (reaches : sought.Reaches site frame index known) {operator : Option Operator}
    (found : operatorAt site.shape.text index = operator)
    {next : Option Operator → Body vocabulary β} {post : Except Stop β → Frame vocabulary → Prop}
    (holds : frame.Yields site.rope.buffer descend (next operator) post) :
    frame.Yields site.rope.buffer descend (peekOperator >>= next) post := by
  rw [← found, operatorAt] at holds
  refine Frame.yields_bind descends.keeps ?_
  refine yields_ifNext descends reaches holds fun holds => ?_
  refine yields_ifNext descends reaches holds fun holds => ?_
  refine yields_ifNext descends reaches holds fun holds => ?_
  refine yields_ifNext descends reaches holds fun holds => ?_
  refine yields_ifNext descends reaches holds fun holds => ?_
  refine yields_ifNext descends reaches holds fun holds => ?_
  exact Program.yields_pure holds

/-- Digits are read as a count. -/
theorem yields_readCount {β : Type} {written : String} {count : Option Nat}
    (counts : Counts written count) {next : Option Nat → Body vocabulary β}
    {post : Except Stop β → Frame vocabulary → Prop}
    (descends : (findingsAt site).Descends site descend)
    (holds : frame.Yields site.rope.buffer descend (next count) post) :
    frame.Yields site.rope.buffer descend (readCount written >>= next) post := by
  refine Frame.yields_bind descends.keeps ?_
  cases counts with
  | none isEmpty =>
      rw [readCount, if_pos isEmpty]
      exact Program.yields_pure holds
  | some notEmpty read =>
      rw [readCount, if_neg (Bool.not_eq_true _ ▸ notEmpty), read]
      exact Program.yields_pure holds

/-- The bounds of a count are read. -/
theorem yields_bounds {β : Type} {length : Nat} {least most : Option Nat}
    (descends : (findingsAt site).Descends site descend)
    (reaches : (findingsAt site).Reaches site frame index known)
    (bounded : Bounded site.shape.text index least most length)
    {next : Option Nat → Option Nat → Body vocabulary β}
    {post : Except Stop β → Frame vocabulary → Prop}
    (holds : ∀ place, (findingsAt site).Reaches site { frame with place } (index + length) known →
      Frame.Yields { frame with place } site.rope.buffer descend (next least most) post) :
    frame.Yields site.rope.buffer descend (do
      let least ← readCount (← Body.lex digits)
      if ← Body.isNext (symbol ",") then
        let _ ← Body.lex (symbol ",")
        let most ← readCount (← Body.lex digits)
        next least most
      else
        let most ← pure least
        next least most) post := by
  cases bounded with
  | exactly read counts single =>
      refine yields_lex descends reaches read fun place reaches => ?_
      refine yields_readCount counts descends ?_
      refine yields_isNext descends reaches single ?_
      exact holds place reaches
  | between read counts several read' counts' =>
      refine yields_lex descends reaches read fun place reaches => ?_
      refine yields_readCount counts descends ?_
      refine yields_isNext descends reaches (toBool_of_read several) ?_
      refine yields_lex descends reaches several fun place reaches => ?_
      refine yields_lex descends reaches read' fun place reaches => ?_
      refine yields_readCount counts' descends ?_
      rw [Nat.add_assoc, Nat.add_assoc, ← Nat.add_assoc _ 1] at reaches
      exact holds place reaches

/-- Bounds that are accepted make a node. -/
theorem yields_countedRepetition {length : Nat} {left : Node} {least most : Option Nat}
    {opening closing : String} (descends : (findingsAt site).Descends site descend)
    (reaches : (findingsAt site).Reaches site frame index known)
    (opens : (symbol "\x7b").read site.shape.text index = .ok (opening, index + 1))
    (bounded : Bounded site.shape.text (index + 1) least most length)
    (closes : (symbol "\x7d").read site.shape.text (index + 1 + length) =
      .ok (closing, index + 1 + length + 1))
    (accepted : Accepted least most) {post : Except Stop (Content Label Unit) → Frame vocabulary → Prop}
    (holds : ∀ place, (findingsAt site).Reaches site { frame with place } (index + 1 + length + 1) known →
      post (.ok ⟨.counted least most, [left]⟩) { frame with place }) :
    frame.Yields site.rope.buffer descend (countedRepetition left) post := by
  refine yields_lex descends reaches opens fun place reaches => ?_
  refine yields_bounds descends reaches bounded fun place reaches => ?_
  refine yields_lex descends reaches closes fun place reaches => ?_
  have holds := holds place reaches
  simp only [accepted.small]
  rcases least with _ | first
  · rcases most with _ | second
    · exact absurd ⟨rfl, rfl⟩ accepted.some
    · exact Program.yields_pure holds
  · rcases most with _ | second
    · exact Program.yields_pure holds
    · simp only [if_neg (Nat.not_lt_of_le (accepted.ordered first second rfl rfl))]
      exact Program.yields_pure holds

theorem outlines_joinOperands (label : Label) (left right : Node) :
    Tree.outlines (joinOperands label left right) =
      joinOutlines label left.outline right.outline := by
  rw [joinOperands, joinOutlines, Tree.outline_label]
  split
  · rw [Tree.outlines_append, Tree.outline_children]
    rfl
  · rfl

/-- An operator that stands here is applied to what stands to its left. -/
theorem yields_operator (descends : (findingsAt site).Descends site descend)
    (reaches : (findingsAt site).Reaches site frame index known) {power : Nat} {left : Node}
    (derives : Derives site.shape.text (.goal (.operator power left.outline)) index outline) :
    frame.Yields site.rope.buffer descend (operator (.operator power left))
      ((findingsAt site).Ends site known .operator (.operator power left.outline) index) := by
  have given := derives
  cases derives with
  | noOperator none =>
      refine yields_peekOperator descends reaches none ?_
      exact Frame.yields_giveUp (ends_of_derives (by simp) (.refl known) given reaches)
  | loose found isLoose =>
      refine yields_peekOperator descends reaches found ?_
      simp only [if_pos isLoose]
      exact Frame.yields_giveUp (ends_of_derives (by simp) (.refl known) given reaches)
  | operator found isTight applied =>
      refine yields_peekOperator descends reaches found ?_
      simp only [if_neg (Nat.not_le_of_lt isTight)]
      cases applied with
      | union read operand =>
          refine yields_lex descends reaches read fun place reaches => ?_
          refine yields_parse descends reaches (.pattern _) (registered_operand _ _) operand ?_
          rintro right session place more grows rfl _ reaches
          refine Program.yields_pure (ends_of_derives (by simp) grows ?_ (Nat.add_assoc .. ▸ reaches))
          rw [← outlines_joinOperands] at given
          exact given
      | concat operand =>
          refine yields_parse descends reaches (.pattern _) (registered_operand _ _) operand ?_
          rintro right session place more grows rfl _ reaches
          refine Program.yields_pure (ends_of_derives (by simp) grows ?_ reaches)
          rw [← outlines_joinOperands] at given
          exact given
      | postfixed read =>
          refine yields_lex descends reaches read fun place reaches => ?_
          exact Program.yields_pure (ends_of_derives (by simp) (.refl known) given reaches)
      | counted opens bounded closes accepted =>
          refine yields_countedRepetition descends reaches opens bounded closes accepted ?_
          intro place reaches
          rw [Nat.add_assoc, Nat.add_assoc, ← Nat.add_assoc 1] at reaches
          exact ends_of_derives (by simp) (.refl known) given reaches

/-! ## Operands -/

/-- An item of a class is a character or a range. -/
theorem yields_classItem (descends : (findingsAt site).Descends site descend)
    (reaches : (findingsAt site).Reaches site frame index known)
    (derives : Derives site.shape.text (.goal .classItem) index outline) :
    frame.Yields site.rope.buffer descend classItem
      ((findingsAt site).Ends site known .classItem .classItem index) := by
  have given := derives
  cases derives with
  | char read noRange =>
      refine yields_lex descends reaches read fun place reaches => ?_
      refine yields_isNext descends reaches noRange ?_
      exact Program.yields_pure (ends_of_derives (by simp) (.refl known) given reaches)
  | range read isRange read' ordered =>
      refine yields_lex descends reaches read fun place reaches => ?_
      refine yields_isNext descends reaches (toBool_of_read isRange) ?_
      refine yields_lex descends reaches isRange fun place reaches => ?_
      refine yields_lex descends reaches read' fun place reaches => ?_
      rw [Nat.add_assoc, Nat.add_assoc, ← Nat.add_assoc _ 1] at reaches
      simp only [if_neg ordered]
      exact Program.yields_pure (ends_of_derives (by simp) (.refl known) given reaches)

/-- The class is closed behind its items, the last of which was found first. -/
theorem yields_closeClass {found : List Node} {closing : String}
    (descends : (findingsAt site).Descends site descend)
    (reaches : (findingsAt site).Reaches site frame index known)
    (noError : ∀ last ∈ found.head?, isError last.label = false)
    (closes : (symbol "]").read site.shape.text index = .ok (closing, index + 1))
    {post : Except Stop (Content Label Unit) → Frame vocabulary → Prop}
    (holds : ∀ place, (findingsAt site).Reaches site { frame with place } (index + 1) known →
      post (.ok ⟨.charClass, found.reverse⟩) { frame with place }) :
    frame.Yields site.rope.buffer descend
      (match found with
      | last :: _ =>
        if isError last.label then Body.adopt last
        else do
          let _ ← Body.lex (symbol "]")
          return ⟨.charClass, found.reverse⟩
      | [] => do
        let _ ← Body.lex (symbol "]")
        return ⟨.charClass, []⟩) post := by
  cases found with
  | nil =>
      refine yields_lex descends reaches closes fun place reaches => ?_
      exact Program.yields_pure (holds place reaches)
  | cons last found =>
      have goesOn : ¬isError last.label = true := by
        rw [noError last rfl]
        exact Bool.false_ne_true
      simp only [if_neg goesOn]
      refine yields_lex descends reaches closes fun place reaches => ?_
      exact Program.yields_pure (holds place reaches)

/-- The loop of a class has come to an index with the items found so far, the last one first.
What is left of the class completes it. -/
structure Lists (site : Site) (known : Known vocabulary) (total : Outline Label) (stop : Nat)
    (found : List Node) (frame : Frame vocabulary) (here : Nat) : Prop where
  reaches : ∃ more, known.Extends more ∧ (findingsAt site).Reaches site frame here more
  items : ∃ others, Derives site.shape.text .items here others ∧
    Tree.outlines found.reverse ++ others.children = total.children ∧ here + others.length = stop
  noError : ∀ last ∈ found.head?, isError last.label = false

/-- The items of a class are read up to the closing bracket. -/
theorem yields_charClass {total : Outline Label} {closing : String}
    (descends : (findingsAt site).Descends site descend)
    (reaches : (findingsAt site).Reaches site frame index known)
    (items : Derives site.shape.text .items index total)
    (closes : (symbol "]").read site.shape.text (index + total.length) =
      .ok (closing, index + total.length + 1))
    {post : Except Stop (Content Label Unit) → Frame vocabulary → Prop}
    (holds : ∀ nodes frame more, Tree.outlines nodes = total.children → known.Extends more →
      (findingsAt site).Reaches site frame (index + total.length + 1) more →
      post (.ok ⟨.charClass, nodes⟩) frame) :
    frame.Yields site.rope.buffer descend charClass post := by
  have initial : Lists site known total (index + total.length) [] frame index :=
    ⟨⟨known, .refl known, reaches⟩, ⟨total, items, rfl, rfl⟩, by simp⟩
  refine Frame.yields_bind descends.keeps (Frame.yields_loop descends.keeps
    (fun found frame measure => ∃ here,
      Lists site known total (index + total.length) found frame here ∧
        measure = site.shape.text.length - here)
    ?_ ⟨index, initial, rfl⟩ ?_)
  · rintro found frame measure
      ⟨here, ⟨⟨more, grows, reaches⟩, ⟨others, items, children, stop⟩, noError⟩, rfl⟩
    cases items with
    | noItem closes' =>
        refine yields_isNext descends reaches closes' ?_
        refine Program.yields_pure ?_
        have isStop : here = index + total.length := stop
        subst isStop
        simp only [List.append_nil] at children
        exact yields_closeClass descends reaches noError closes fun place reaches =>
          holds _ _ more children grows reaches
    | item goesOn classItem noError' moves rest =>
        refine yields_isNext descends reaches goesOn ?_
        refine yields_parse descends reaches (.classItem _) (registered_operand _ _) classItem ?_
        rintro node session place further grows' rfl _ reaches
        have again : (!isError node.label) = true := by
          rw [← Tree.outline_label, noError']
          rfl
        rw [again]
        have within := reaches.within
        refine Program.yields_pure ⟨_, ?_, _, ⟨⟨further, grows.trans grows', reaches⟩,
          ⟨_, rest, ?_, ?_⟩, ?_⟩, rfl⟩
        · omega
        · rw [← children, List.reverse_cons, Tree.outlines_append, List.append_assoc]
          rfl
        · rw [← stop, Nat.add_assoc]
        · rintro _ ⟨⟩
          rw [← Tree.outline_label, noError']
  · exact reaches.lt_rounds

/-- An operand is a pattern in parentheses, a class or a literal. -/
theorem yields_operand (descends : (findingsAt site).Descends site descend)
    (reaches : (findingsAt site).Reaches site frame index known)
    (derives : Derives site.shape.text (.goal .operand) index outline) :
    frame.Yields site.rope.buffer descend operand
      ((findingsAt site).Ends site known .operand .operand index) := by
  have given := derives
  cases derives with
  | group opens pattern noError closes =>
      refine yields_isNext descends reaches (toBool_of_read opens) ?_
      refine yields_lex descends reaches opens fun place reaches => ?_
      refine yields_parse descends reaches (.pattern _) (registered_operand _ _) pattern ?_
      rintro inner session place more grows rfl _ reaches
      have goesOn : (!isError inner.label) = true := by
        rw [← Tree.outline_label, noError]
        rfl
      simp only [goesOn, if_true]
      refine yields_lex descends reaches closes fun place reaches => ?_
      rw [Nat.add_assoc, Nat.add_assoc, ← Nat.add_assoc 1] at reaches
      refine Frame.yields_adopt fun before after => ?_
      rw [Tree.outline_label, Tree.outline_children] at given
      exact ends_of_derives (by simp) grows given ⟨reaches.tells, reaches.stands⟩
  | charClass noGroup opens items closes =>
      refine yields_isNext descends reaches noGroup ?_
      refine yields_isNext descends reaches (toBool_of_read opens) ?_
      refine yields_lex descends reaches opens fun place reaches => ?_
      refine yields_charClass descends reaches items closes ?_
      intro nodes frame more children grows reaches
      rw [Nat.add_assoc, Nat.add_assoc, ← Nat.add_assoc 1] at reaches
      rw [← children] at given
      exact ends_of_derives (by simp) grows given reaches
  | literal noGroup noClass read =>
      refine yields_isNext descends reaches noGroup ?_
      refine yields_isNext descends reaches noClass ?_
      refine yields_lex descends reaches read fun place reaches => ?_
      exact Program.yields_pure (ends_of_derives (by simp) (.refl known) given reaches)

/-! ## Patterns -/

/-- The loop of a pattern has come to an index with what stands to the left of it.  The
operators that follow complete the pattern. -/
structure Continues (site : Site) (known : Known vocabulary) (power stop : Nat)
    (total : Outline Label) (left : Node) (frame : Frame vocabulary) (here : Nat) : Prop where
  reaches : ∃ more, known.Extends more ∧ more left.id = some left.outline ∧
    (findingsAt site).Reaches site frame here more
  rest : ∃ last, Derives site.shape.text (.rest power left.outline) here last ∧
    last.label = total.label ∧ last.children = total.children ∧ here + last.length = stop

/-- A pattern is an operand and the operators behind it that bind tight enough. -/
theorem yields_pattern (descends : (findingsAt site).Descends site descend)
    (reaches : (findingsAt site).Reaches site frame index known) {power : Nat}
    (derives : Derives site.shape.text (.goal (.pattern power)) index outline) :
    frame.Yields site.rope.buffer descend (pattern (.operand power))
      ((findingsAt site).Ends site known .pattern (.pattern power) index) := by
  have given := derives
  cases derives with
  | @pattern _ _ _ total operand noError rest =>
  refine yields_parse descends reaches (.operand _) (registered_operand _ _) operand ?_
  rintro first session place more grows rfl named reaches
  have goesOn : ¬isError first.label = true := by
    rw [← Tree.outline_label, noError]
    exact Bool.false_ne_true
  rw [if_neg goesOn]
  have initial : Continues site known power (index + first.outline.length + total.length) total
      first { frame with session, place } (index + first.outline.length) :=
    ⟨⟨more, grows, named, reaches⟩, ⟨total, rest, rfl, rfl, rfl⟩⟩
  -- What is left of the text falls from round to round.
  refine Frame.yields_bind descends.keeps (Frame.yields_loop descends.keeps
    (fun left frame measure => ∃ here,
      Continues site known power (index + first.outline.length + total.length) total left frame
        here ∧ measure = site.shape.text.length - here)
    ?_ ⟨_, initial, rfl⟩ ?_)
  · rintro left frame measure
      ⟨here, ⟨⟨more, grows, named, reaches⟩, last, rest, label, children, stop⟩, rfl⟩
    refine Frame.yields_mark descends.keeps ?_
    have marked : (findingsAt site).Reaches site
        { frame with marks := frame.marks.push frame.place } here more :=
      ⟨reaches.tells, reaches.stands⟩
    have registered : grammar.Registered more (.operator power left) := by
      intro other member
      cases List.mem_singleton.mp member
      exact named
    cases rest with
    | last operator failed idle =>
        refine yields_parse descends marked (.operator power named) registered operator ?_
        rintro next session place further grows' rfl _ after
        rw [Tree.outline_label] at failed
        rw [Tree.outline_length] at idle
        simp only [if_pos failed, idle, gt_iff_lt, Nat.lt_irrefl, if_false]
        refine Frame.yields_restore descends.keeps (Array.getElem?_push_size ..) ?_
        refine Program.yields_pure (Frame.yields_adopt fun before after' => ?_)
        have isStop : here = index + first.outline.length + total.length := stop
        rw [Nat.add_assoc] at isStop
        rw [← label, ← children, Tree.outline_label, Tree.outline_children] at given
        exact ends_of_derives (by simp) (grows.trans grows') given
          ⟨after.tells, isStop ▸ reaches.stands⟩
    | further operator noError' moves rest =>
        refine yields_parse descends marked (.operator power named) registered operator ?_
        rintro next session place further grows' rfl named' after
        have goesOn : ¬isError next.label = true := by
          rw [← Tree.outline_label, noError']
          exact Bool.false_ne_true
        rw [if_neg goesOn]
        have within := after.within
        refine Program.yields_pure ⟨_, ?_, _, ⟨⟨further, grows.trans grows', named',
          ⟨after.tells, after.stands⟩⟩, _, rest, label, children, ?_⟩, rfl⟩
        · omega
        · rw [← stop, Nat.add_assoc]
  · exact reaches.lt_rounds

/-- The rules find what the derivations say. -/
theorem findings_sound (whole : List Char) : (findings whole).Sound := by
  rintro site descend descends known frame index rule state goal asks registered
    ⟨rfl, outline, derives⟩ reaches
  cases asks with
  | pattern power => exact yields_pattern descends reaches derives
  | operand state => exact yields_operand descends reaches derives
  | @operator power left outline named =>
      have known := registered left List.mem_cons_self
      cases Option.some.inj (named.symm.trans known)
      exact yields_operator descends reaches derives
  | classItem state => exact yields_classItem descends reaches derives

/-! ## Parses -/

/-- A pattern that has a derivation is parsed as it says, and the parse comes to an end. -/
theorem parse_of_derives {text : String} {outline : Outline Label}
    (derives : Derives text.toList (.goal (.pattern 0)) 0 outline)
    (unrefused : (parse text).2.refused = []) :
    (parse text).1.outline = outline ∧ ends text = true := by
  have wanted : (findings text.toList).Wanted (.pattern 0) text.toList 0 := ⟨rfl, outline, derives⟩
  have sound : (findings text.toList).Sound := findings_sound text.toList
  have parsed := sound.parse_new {} (fun _ => false) (.pattern 0) (registered_operand _ _) text wanted
  simp only [ends, parse] at unrefused ⊢
  simp only at parsed
  generalize Parser.parse _ _ _ _ _ _ = reply at unrefused parsed ⊢
  rcases reply with ⟨⟨tree, stop⟩, session⟩
  rcases parsed with refused | ⟨ended, found⟩
  · exact absurd unrefused refused
  · exact ⟨found.2.unique derives, by rw [ended]; rfl⟩

end Pattern

end Reparse
