import Reparse.Languages.Scripted.Grammar
import Reparse.Proofs.Parsing.Footing
import Reparse.Proofs.Parsing.History
import Reparse.Proofs.Parsing.Sweeping

namespace Reparse

/-!
# What is found is what was kept

If states are compared by an equivalence that the hash agrees with, then the memos are a map
from rules, states and positions to nodes.  They are one in the whole course of a parse, as long
as they were one when it began.

Edits may spoil this for a node that ends in front of its start.  Its start can be at the end of
the text, and goes on to the text that is put behind it, although no leaf was cut.  Then the index
does not lead to it any more.  In a history in which no node has ended in front of its start,
though, the memos are a map whenever a parse begins.
-/

variable {V : Vocabulary}

/-! ## Finding -/

/-- A table finds what starts at the position. -/
theorem Bucket.Tidy.found?_eq_some_iff {bucket : Bucket V} {store : Store} {start : Position}
    {entry : Entry V} (tidy : bucket.Tidy store (store.buffer start.buffer).revision) :
    bucket.found? store start = some entry ↔
      entry ∈ bucket.live ∧ store.position entry.node.start = start := by
  rw [Bucket.found?_eq_some_iff, mem_live]
  constructor
  · rintro ⟨slot, _, stores, isStart⟩
    exact ⟨⟨slot, stores⟩, isStart⟩
  · rintro ⟨⟨slot, stores⟩, isStart⟩
    refine ⟨slot, (tidy.indexed start slot).mpr ⟨entry, ?_, congrArg some isStart⟩, stores, isStart⟩
    exact stores_refresh.mpr stores

/-- A map finds what is kept for the state and starts at the position. -/
theorem Memo.Maps.found?_eq_some_iff {memo : Memo V} {sameness : Sameness V} {store : Store}
    {start : Position} {entry : Entry V} (maps : memo.Maps sameness store start.buffer)
    (lawful : sameness.Lawful) (state : V.State) :
    memo.found? (sameness.key state) store start = some entry ↔
      memo.Keeps sameness state entry ∧ store.position entry.node.start = start := by
  simp only [Memo.found?, bind, Option.bind_eq_some_iff]
  constructor
  · rintro ⟨chain, atHash, bucket, isFirst, found⟩
    have contains : memo.Contains bucket := ⟨_, chain, atHash, List.mem_of_find?_eq_some isFirst⟩
    have isSame : sameness.same bucket.state state = true :=
      (List.find?_eq_some_iff_append.mp isFirst).1
    rcases (maps.buckets bucket contains).found?_eq_some_iff.mp found with ⟨live, isStart⟩
    exact ⟨⟨bucket, contains, isSame, live⟩, isStart⟩
  · rintro ⟨⟨bucket, ⟨hash, chain, there, member⟩, isSame, live⟩, isStart⟩
    have contains : memo.Contains bucket := ⟨hash, chain, there, member⟩
    have isHash : hash = (sameness.key state).hash :=
      (maps.sorted.hash hash chain there bucket member).symm.trans (lawful.hash isSame)
    refine ⟨chain, isHash ▸ there, bucket, ?_,
      (maps.buckets bucket contains).found?_eq_some_iff.mpr ⟨live, isStart⟩⟩
    -- Another bucket for the state could only stand in front of this one.
    cases first : chain.find? fun bucket => (sameness.key state).isSame bucket.state with
    | none => exact absurd isSame (List.find?_eq_none.mp first bucket member)
    | some other =>
        have isSame' : sameness.same other.state state = true :=
          (List.find?_eq_some_iff_append.mp first).1
        have contains' : memo.Contains other := ⟨hash, chain, there, List.mem_of_find?_eq_some first⟩
        rw [maps.sorted.unique lawful contains' contains (lawful.trans isSame' (lawful.symm isSame))]

namespace Session

variable {session : Session V} {sameness : Sameness V} {margin : Nat} {rope : Rope} {shape : Shape}
  {earlier : List Line} {rule : V.Rule} {state : V.State} {place : Place}

theorem Maps.found?_eq_some_iff {start : Position} {entry : Entry V}
    (maps : session.Maps sameness start.buffer) (lawful : sameness.Lawful) (rule : V.Rule)
    (state : V.State) :
    session.found? rule (sameness.key state) start = some entry ↔
      session.Keeps sameness rule state entry ∧ session.store.position entry.node.start = start := by
  rcases maps.memo rule with ⟨mapsMemo, kept⟩
  rw [Session.found?, mapsMemo.found?_eq_some_iff lawful, kept]

end Session

/-! ## In the course of a parse -/

/-- The line tells of no node that ends in front of its start. -/
def Line.isForward (line : Line) : Bool :=
  match line.note with
  | .made _ span => decide (span.start ≤ span.stop)
  | .reused _ _ => true

/-- The start of a node is in front of a character if it is in the document, unless the node ends
where it starts. -/
def Tree.Fronts (node : V.Node) (store : Store) (shape : Shape) : Prop :=
  ∀ first second index, store.place? node.start = some first → store.place? node.stop = some second →
    shape.Means first index → shape.spot false index = some first ∨ first = second

namespace Session

variable {session : Session V} {sameness : Sameness V} {margin : Nat} {rope : Rope} {shape : Shape}
  {earlier : List Line} {rule : V.Rule} {state : V.State} {place first last : Place}

/-- No node ended in front of its start, in the current generation or before. -/
def Forward (session : Session V) (text : List Char) (earlier : List Line) : Prop :=
  ∀ line ∈ session.linesOver text earlier, line.isForward = true

/-- A session in the course of a parse, which is a map. -/
structure Mapped (session : Session V) (sameness : Sameness V) (margin : Nat) (rope : Rope)
    (shape : Shape) (earlier : List Line) : Prop where
  parses : session.Parses margin rope shape earlier
  maps : session.Maps sameness rope.buffer
  starts : ∀ rule state entry, session.Holds rule state entry →
    ∃ index, entry.node.start.StandsAt session.store rope.buffer shape index
  fronts : session.Forward shape.text earlier → ∀ rule state entry, session.Holds rule state entry →
    entry.node.Fronts session.store shape

/-- Looking for a node. -/
theorem Mapped.reuse (mapped : session.Mapped sameness margin rope shape earlier)
    (lawful : sameness.Lawful) (isPlace : shape.IsPlace place) (rule : V.Rule) (state : V.State)
    (isStale : Range → Bool) :
    let after := session.reuse rule (sameness.key state) ⟨rope.buffer, place⟩ isStale
    after.2.Mapped sameness margin rope shape earlier ∧ ∀ node stop,
      after.1 = some (node, stop) → stop.buffer = rope.buffer ∧ shape.IsPlace stop.place := by
  have maps : session.Maps sameness (⟨rope.buffer, place⟩ : Position).buffer := mapped.maps
  rcases mapped.parses.reuse isPlace rule (sameness.key state) isStale with ⟨parses, found⟩
  rcases maps.reuse_spec lawful rule state isStale with ⟨maps', _⟩
  have cases := session.reuse_cases rule (sameness.key state) ⟨rope.buffer, place⟩ isStale
  generalize session.reuse rule (sameness.key state) ⟨rope.buffer, place⟩ isStale = outcome
    at parses found maps' cases ⊢
  refine ⟨?_, found⟩
  rcases cases with ⟨memos, stats, consulted, held, rfl | ⟨_, _, reused, _, _, _, _, rfl⟩⟩
  · refine ⟨parses, maps', fun rule state entry holds => ?_, fun forward rule state entry holds => ?_⟩
    · rcases held rule state entry holds with ⟨old, holds, same⟩
      exact same ▸ mapped.starts rule state old holds
    · rcases held rule state entry holds with ⟨old, holds, same⟩
      exact same ▸ mapped.fronts forward rule state old holds
  · refine ⟨parses, maps', fun rule state entry holds => ?_, fun forward rule state entry holds => ?_⟩
    · rcases held rule state entry holds with ⟨old, holds, same⟩
      exact same ▸ mapped.starts rule state old holds
    · rcases held rule state entry holds with ⟨old, holds, same⟩
      have before : session.Forward shape.text earlier :=
        fun line member => forward line (List.mem_cons_of_mem _ member)
      exact same ▸ mapped.fronts before rule state old holds

/-- Keeping a node. -/
theorem Mapped.keep (mapped : session.Mapped sameness margin rope shape earlier)
    (lawful : sameness.Lawful) (isFirst : shape.IsPlace first) (isLast : shape.IsPlace last)
    (rule : V.Rule) (state : V.State) (content : Content V.Label V.Skip)
    (before skipped : List V.Skip) :
    (session.keep rule (sameness.key state) ⟨rope.buffer, first⟩ ⟨rope.buffer, last⟩ content before
      skipped).2.Mapped sameness margin rope shape earlier := by
  have current := mapped.parses.current
  have sound := mapped.parses.fulfils.sound
  have parses := mapped.parses.keep isFirst isLast rule (sameness.key state) content before skipped
  rcases isFirst with ⟨start, starts⟩
  rcases isLast with ⟨stop, stops⟩
  have rests : ∀ {place : Place} {index : Nat}, shape.Stands place index →
      session.store.Rests ⟨rope.buffer, place⟩ :=
    current.rests (sound rope.buffer).formed
  have maps : session.Maps sameness (⟨rope.buffer, first⟩ : Position).buffer := mapped.maps
  have spec := maps.keep_spec lawful sound (rests starts) (rests stops)
    (fun rule state entry holds => by
      rcases mapped.starts rule state entry holds with ⟨_, _, place, seated, _⟩
      exact ⟨place, seated⟩) rule state content before skipped
  have isSpan : (⟨session.store.indexOf ⟨rope.buffer, first⟩,
      session.store.indexOf ⟨rope.buffer, last⟩⟩ : Range) = ⟨start, stop⟩ := by
    rw [show session.store.indexOf ⟨rope.buffer, first⟩ = start from current.indexOf starts.means,
      show session.store.indexOf ⟨rope.buffer, last⟩ = stop from current.indexOf stops.means]
  have journal : (session.keep rule (sameness.key state) ⟨rope.buffer, first⟩ ⟨rope.buffer, last⟩
      content before skipped).2.journal = .made session.nextId ⟨start, stop⟩ :: session.journal :=
    isSpan ▸ rfl
  have holds : ∀ other own entry, (session.keep rule (sameness.key state) ⟨rope.buffer, first⟩
      ⟨rope.buffer, last⟩ content before skipped).2.Holds other own entry →
      session.Holds other own entry ∨ entry.node = (session.keep rule (sameness.key state)
        ⟨rope.buffer, first⟩ ⟨rope.buffer, last⟩ content before skipped).1 := by
    intro other own entry held
    rcases of_holds_insert held with old | ⟨_, rfl, _⟩
    · exact Or.inl old
    · exact Or.inr rfl
  generalize session.keep rule (sameness.key state) ⟨rope.buffer, first⟩ ⟨rope.buffer, last⟩ content
    before skipped = made at parses spec journal holds ⊢
  rcases made with ⟨node, after⟩
  rcases spec with ⟨maps', _, keeps, _, _, startBuffer, startPlace, _, stopPlace, _⟩
  simp only at parses maps' keeps startBuffer startPlace stopPlace journal holds ⊢
  refine ⟨parses, maps', fun other own entry held => ?_, fun forward other own entry held => ?_⟩
  · rcases holds other own entry held with old | rfl
    · rcases mapped.starts other own entry old with ⟨index, standsAt⟩
      exact ⟨index, standsAt.keeps keeps⟩
    · exact ⟨start, startBuffer, first, startPlace, starts⟩
  · have lines : after.linesOver shape.text earlier =
        ⟨shape.text, .made session.nextId ⟨start, stop⟩⟩ :: session.linesOver shape.text earlier := by
      rw [linesOver, journal]
      rfl
    rw [Forward, lines] at forward
    rcases holds other own entry held with old | rfl
    · have before : session.Forward shape.text earlier :=
        fun line member => forward line (List.mem_cons_of_mem _ member)
      rcases mapped.parses.fulfils.cursors old with ⟨_, _, one, two, startSeat, stopSeat, _⟩
      intro first' second' index seated seated' means
      cases (keeps.places _ _ startSeat).symm.trans seated
      cases (keeps.places _ _ stopSeat).symm.trans seated'
      exact mapped.fronts before other own entry old one two index startSeat stopSeat means
    · intro one two index seated seated' means
      cases startPlace.symm.trans seated
      cases stopPlace.symm.trans seated'
      cases (current.indexOf starts.means).symm.trans (current.indexOf means)
      have ordered : start ≤ stop := of_decide_eq_true (forward _ List.mem_cons_self)
      rcases Nat.lt_or_eq_of_le ordered with before | same
      · exact Or.inl (current.shown.spot_of_stands starts
          (Nat.lt_of_lt_of_le before stops.means.le_length))
      · exact Or.inr (starts.unique (same ▸ stops))

end Session

/-- A session that is a map is one in the whole course of a parse. -/
theorem Parser.leaves_mapped (parser : Parser V) (lawful : parser.grammar.sameness.Lawful)
    (isStale : Range → Bool) (margin : Nat) (rope : Rope) (shape : Shape) (earlier : List Line) :
    parser.Leaves isStale (·.Mapped parser.grammar.sameness margin rope shape earlier) rope
      shape where
  current _ mapped := mapped.parses.current
  reuse _ rule state _ mapped isPlace := mapped.reuse lawful isPlace rule state isStale
  keep _ rule state _ _ content before skipped mapped isFirst isLast :=
    mapped.keep lawful isFirst isLast rule state content before skipped
  noted session refused endless mapped :=
    ⟨(parser.leaves_parses isStale).noted session refused endless mapped.parses,
      mapped.maps.of_eq rfl rfl, mapped.starts, mapped.fronts⟩

/-! ## In a history -/

section Histories

variable {sameness : Sameness V} {margin : Nat} {shape : Shape} {document : Document V}
  {earlier : List Line}

/-- The session is a map when a parse begins. -/
theorem Document.Tends.mapped (tends : document.Tends sameness margin shape)
    (lawful : sameness.Lawful)
    (recalls : document.session.Recalls margin document.rope shape document.log earlier) :
    (document.evictEdited margin).beginSweep.Mapped sameness margin document.rope shape earlier := by
  have fulfils : document.Fulfils (.ofLines margin earlier) shape := recalls.fulfils
  rcases tends.begins fulfils lawful with ⟨maps, same, origin⟩
  refine ⟨(History.Recalls.begin recalls).1, maps,
    fun rule state entry holds => (origin rule state entry holds).2,
    fun _ rule state entry holds => ?_⟩
  rcases (origin rule state entry holds).1 with ⟨own, held⟩
  rw [same]
  exact fun first second index seated seated' means =>
    (tends.footed rule own entry held first second index seated seated' means).front

/-- What is known of the memos when a parse has ended. -/
theorem Session.Mapped.tends {session : Session V} {rope : Rope} {tree : Option V.Node}
    (mapped : session.Mapped sameness margin rope shape earlier)
    (forward : session.Forward shape.text earlier) :
    Document.Tends ⟨session.sweep.2, rope, {}, tree⟩ sameness margin shape := by
  have current := mapped.parses.current
  have swept : session.sweep.2.Maps sameness rope.buffer ∧ session.sweep.2.store = session.store := by
    cases begun : session.reused with
    | none =>
        rw [Session.sweep, begun]
        exact ⟨mapped.maps, rfl⟩
    | some reused =>
        rcases mapped.maps.sweep_spec begun with ⟨maps, store, _⟩
        exact ⟨maps, store⟩
  rcases swept with ⟨maps, store⟩
  have starts : ∀ rule state entry, session.sweep.2.Holds rule state entry →
      ∃ index, entry.node.start.StandsAt session.sweep.2.store rope.buffer shape index := by
    intro rule state entry holds
    rw [store]
    exact mapped.starts rule state entry (of_holds_sweep holds)
  refine ⟨maps.dormant (store ▸ current) starts, fun rule state entry holds => ?_, fun _ => starts⟩
  have held := of_holds_sweep holds
  intro first second index seated seated' means
  simp only [store] at seated seated'
  refine ⟨mapped.fronts forward rule state entry held first second index seated seated' means,
    fun _ => ?_⟩
  rcases mapped.starts rule state entry held with ⟨own, _, place, seat, stands⟩
  cases seat.symm.trans seated
  cases (current.indexOf stands.means).symm.trans (current.indexOf means)
  exact stands

namespace History

variable {history : History V} {parser : Parser V}

/-- The lines account for all that is kept, and the memos are tended if no node ended in front of
its start. -/
def Tends (history : History V) (sameness : Sameness V) (margin : Nat) : Prop :=
  ∃ shape, history.document.session.Recalls margin history.document.rope shape history.document.log
      history.lines ∧
    ((∀ line ∈ history.lines, line.isForward = true) →
      history.document.Tends sameness margin shape)

theorem tends_start (text : String) (sameness : Sameness V) (margin : Nat) :
    (start text : History V).Tends sameness margin := by
  rcases start_recalls text margin with ⟨shape, recalls⟩
  exact ⟨shape, recalls, fun _ => Document.tends_empty rfl sameness margin shape⟩

theorem Tends.replace (tends : history.Tends sameness margin) (start stop : Nat) (text : String) :
    (history.step parser (.replace start stop text)).Tends sameness margin := by
  rcases tends with ⟨shape, ⟨fulfils, follow, numbered⟩, tends⟩
  have kept : history.document.Fulfils (.ofLines margin history.lines) shape := fulfils
  rcases kept.replace_cases parser.grammar start stop text with ⟨store, prepares,
    ⟨_, becomes⟩ | ⟨ordered, within, content, used, replaced, removed, move, sound, advances, done,
      avoids, becomes⟩⟩
  · refine ⟨shape, ?_, fun forward => ?_⟩
    · simp only [step, becomes]
      exact ⟨prepares.fulfils, follow, numbered⟩
    · simp only [step, becomes]
      exact (tends forward).prepares prepares
  · refine ⟨replaced, ?_, fun forward => ?_⟩
    · simp only [step, becomes]
      exact ⟨prepares.fulfils.edit ordered within sound done avoids, follow, numbered⟩
    · simp only [step, becomes]
      exact ((tends forward).prepares prepares).edit prepares.fulfils ordered within advances done
        avoids

theorem Tends.compact (tends : history.Tends sameness margin) :
    (history.step parser .compact).Tends sameness margin := by
  rcases tends with ⟨shape, ⟨fulfils, follow, numbered⟩, _⟩
  have kept : history.document.Fulfils (.ofLines margin history.lines) shape := fulfils
  rcases kept.compact with ⟨shape', fulfils', _⟩
  exact ⟨shape', ⟨fulfils', follow, numbered⟩, fun _ =>
    Document.tends_empty rfl sameness margin shape'⟩

theorem Tends.parse (tends : history.Tends parser.grammar.sameness parser.config.editMargin)
    (lawful : parser.grammar.sameness.Lawful) :
    (history.step parser .parse).Tends parser.grammar.sameness parser.config.editMargin := by
  rcases tends with ⟨shape, recalls, tends⟩
  have kept : history.document.Fulfils (.ofLines parser.config.editMargin history.lines) shape :=
    recalls.fulfils
  have text : history.document.text.toList = shape.text := by
    rw [kept.text_eq, String.toList_ofList]
  rcases Recalls.begin recalls with ⟨parses, place, origin, isPlace⟩
  have done := parser.invoke_recalls (history.document.isEdited parser.config.editMargin)
    parser.config.maxDepth parser.grammar.startRule parser.grammar.startState place _ parses isPlace
  have mapped := fun forward =>
    (parser.leaves_mapped lawful (history.document.isEdited parser.config.editMargin)
      parser.config.editMargin history.document.rope shape history.lines).invoke
        parser.config.maxDepth parser.grammar.startRule parser.grammar.startState place _
        ((tends forward).mapped lawful recalls) isPlace
  simp only [step, Document.parse, Parser.parse, origin]
  generalize parser.invoke (history.document.isEdited parser.config.editMargin) parser.config.maxDepth
    parser.grammar.startRule parser.grammar.startState ⟨history.document.rope.buffer, place⟩
    (history.document.evictEdited parser.config.editMargin).beginSweep = reply at done mapped ⊢
  rcases reply with ⟨⟨tree, stop⟩, parsed⟩
  rcases Recalls.sweep done.1 with ⟨lines, recalls⟩
  refine ⟨shape, ?_, fun forward => ?_⟩
  · rw [text, lines]
    exact recalls
  · rw [text, lines] at forward
    have before : ∀ line ∈ history.lines, line.isForward = true :=
      fun line member => forward line (List.mem_append_right _ member)
    exact (mapped before).1.tends forward

theorem Tends.run (tends : history.Tends parser.grammar.sameness parser.config.editMargin)
    (lawful : parser.grammar.sameness.Lawful) (commands : List Document.Command) :
    (history.run parser commands).Tends parser.grammar.sameness parser.config.editMargin := by
  induction commands generalizing history with
  | nil => exact tends
  | cons command commands inductionHypothesis =>
      refine inductionHypothesis ?_
      cases command with
      | replace start stop text => exact tends.replace start stop text
      | parse => exact tends.parse lawful
      | compact => exact tends.compact

/-- In a history in which no node ended in front of its start the memos are a map whenever a parse
begins, and every invocation leaves them one.  A parse begins with what was kept, but for the nodes
that pending edits have touched.  From then on a node is found for an invocation exactly if one is
kept for its rule, a state that is the same, and the position where it starts.  There is one such
node at most, and each of those that are counted is at a place of its own. -/
theorem kept_nodes_are_found (parser : Parser V) (lawful : parser.grammar.sameness.Lawful)
    (text : String) (commands : List Document.Command)
    (forward : ∀ line ∈ ((start text).run parser commands).lines, line.isForward = true) :
    let history := (start text).run parser commands
    let document := history.document
    let sameness := parser.grammar.sameness
    let margin := parser.config.editMargin
    ∃ shape : Shape,
      let InCourse (session : Session V) : Prop :=
        session.Mapped sameness margin document.rope shape history.lines
      let begun := (document.evictEdited margin).beginSweep
      InCourse begun ∧
      (∀ rule state entry, begun.Keeps sameness rule state entry ↔
        document.session.Keeps sameness rule state entry ∧ (document.log.isEmpty = true ∨
          document.session.store.sameDocument (document.session.store.position entry.node.start)
              (document.session.store.positionAt document.rope 0) = true ∧
            document.log.overlaps (entry.node.range document.session.store) margin = false)) ∧
      ∀ session, InCourse session →
        (session.cachedNodes = session.rows.length ∧
          session.rows.Pairwise fun one two => one.1 = two.1 → sameness.same one.2.1 two.2.1 = true →
            session.store.position one.2.2.node.start ≠ session.store.position two.2.2.node.start) ∧
        ∀ rule state place, shape.IsPlace place →
          let start : Position := ⟨document.rope.buffer, place⟩
          (∀ entry, session.found? rule (parser.grammar.stateKey state) start = some entry ↔
            session.Keeps sameness rule state entry ∧
              session.store.position entry.node.start = start) ∧
          ∀ isStale depth, InCourse (parser.invoke isStale depth rule state start session).2 := by
  intro history document sameness margin
  rcases (tends_start text sameness margin).run lawful commands with ⟨shape, recalls, tends⟩
  have tended := tends forward
  refine ⟨shape, tended.mapped lawful recalls, ?_, fun session mapped => ⟨⟨?_, ?_⟩, ?_⟩⟩
  · exact (Document.evictEdited_keeps tended.dormant margin).2.2.2
  · exact session.length_rows.symm
  · exact mapped.maps.pairwise_rows lawful
  · intro rule state place isPlace start
    have maps : session.Maps sameness start.buffer := mapped.maps
    refine ⟨fun entry => maps.found?_eq_some_iff lawful rule state, fun isStale depth => ?_⟩
    exact ((parser.leaves_mapped lawful isStale margin document.rope shape history.lines).invoke depth
      rule state place session mapped isPlace).1

/-- The first of two words is found again after an edit of the other. -/
example :
    let parser : Parser Words.vocabulary := { grammar := Words.grammar }
    let history := (start "ab cd").run parser [.parse, .replace 5 5 "e"]
    let begun := (history.document.evictEdited 1).beginSweep
    let front := begun.store.positionAt history.document.rope 0
    parser.grammar.sameness.Lawful ∧ (∀ line ∈ history.lines, line.isForward = true) ∧
      (begun.found? .item (parser.grammar.stateKey ()) front).isSome = true :=
  ⟨⟨fun _ => rfl, fun _ => rfl, fun _ _ => rfl, fun _ => rfl⟩, by decide +kernel,
    by decide +kernel⟩

/-- A rule at the end of the text goes back over it.  Text is put behind it, and no leaf is cut.
The start of its node is at the new leaf then, but the node is not found there. -/
example :
    let script : Scripted.Script := {
      tokens := [("a", .literal "a"), ("back", .steps [.back 2])]
      rules := #[[.many [.lex "a"], .call .keep 1 (.exactly 0), .many [.lex "a"]], [.lex "back"]]
      skips := [], startRule := 0, startState := 0 }
    let parser : Parser Scripted.vocabulary := { grammar := Scripted.grammar script }
    let history := (start "aaa").run parser [.parse, .replace 3 3 "b"]
    let document := history.document
    let begun := (document.evictEdited 1).beginSweep
    let front := begun.store.positionAt document.rope 3
    history.lines.map Line.isForward = [true, false] ∧
      (begun.rows.map fun row => (row.1, row.2.1)) = [(1, 0)] ∧
      (∀ row ∈ begun.rows, begun.store.position row.2.2.node.start = front) ∧
      (begun.found? 1 (parser.grammar.stateKey 0) front).isNone = true := by
  decide +kernel

end History

end Histories

end Reparse
