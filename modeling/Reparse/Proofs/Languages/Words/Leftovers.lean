import Mathlib.Data.List.Perm.Subperm
import Reparse.Proofs.Languages.Words.Accounts
import Reparse.Proofs.Languages.Words.Reparsing

namespace Reparse

/-!
# No leftovers in the memos of a list of words

What a parse leaves in the memos was stamped by it, or starts inside of a node that it has used
again.  A node of the latter kind may have been kept from an earlier text, but its rule could be
invoked at its start, so the parse that once made the used node came there as well.  Hence the
node is one that a parse of the current text comes to.

A new document has nothing to use again.  Its parse stamps all that it comes to, so it has a node
for each node that an edited document with the same text keeps.
-/

namespace Words

/-! ## After a parse -/

/-- Each node that is kept is one that a parse of the text comes to. -/
structure Pruned (session : Session vocabulary) (id : BufferId) (shape : Shape) : Prop where
  tidy : session.Tidy 0 id
  current : (session.store.buffer id).Current shape
  placed : ∀ rule entry, session.Caches rule entry →
    Placed session.store id shape rule entry.node
  stamps : ∀ rule entry, session.Caches rule entry → entry.generation ≤ session.generation

section Pruned

variable {session : Session vocabulary} {id : BufferId} {shape : Shape} {rule : Rule}
  {entry : Entry vocabulary}

/-- A kept node has the span of what its rule consumes. -/
theorem Pruned.span (pruned : Pruned session id shape) (caches : session.Caches rule entry) :
    ∃ index outline, Visits shape.text (.node rule) index ∧
      Derives (.node rule) (shape.text.drop index) outline ∧
      entry.node.start.StandsAt session.store id shape index ∧
      entry.node.range session.store = ⟨index, index + outline.length⟩ := by
  rcases pruned.placed rule entry caches with ⟨index, outline, visits, derives, starts, stops⟩
  refine ⟨index, outline, visits, derives, starts, ?_⟩
  rw [Tree.range, starts.index_eq pruned.current, stops.index_eq pruned.current]

theorem Pruned.nodup_spans (pruned : Pruned session id shape) : session.spans.Nodup := by
  refine pruned.tidy.nodup_spans fun rule entry entry' caches caches' same => ?_
  rcases pruned.span caches with ⟨index, _, _, _, starts, span⟩
  rcases pruned.span caches' with ⟨index', _, _, _, starts', span'⟩
  rw [span, span', Range.mk.injEq] at same
  exact starts.position_eq (same.1 ▸ starts') pruned.current

end Pruned

section Parses

variable {margin : Nat} {log : EditLog} {site : Site} {begin after : Session vocabulary}

/-- What a parse without kept nodes would come to is stamped, but for what the log spares. -/
def Marked (margin : Nat) (log : EditLog) (site : Site) (begin after : Session vocabulary) : Prop :=
  ∀ rule index, Visits site.shape.text (.node rule) index → Stamped site after rule index ∨
    (∃ rule entry, begin.Caches rule entry) ∧ Spared margin log site rule index

/-- A parse of the whole text stamps all that it has to. -/
theorem Runs.marked (begins : Begins margin log site begin)
    (runs : Runs site (log.overlaps · margin) (.node .items) 0 begin after) :
    Marked margin log site begin after := by
  have covers := (runs.covers begins .refl begins.accounts).2
    (fun rule index => (∃ rule entry, begin.Caches rule entry) ∧ Spared margin log site rule index)
    (fun kept _ _ spared => ⟨kept, spared⟩)
  refine (covers ?_).2
  rintro rule index _ _ ⟨entry, caches, stamped, _⟩
  exact absurd stamped (Nat.ne_of_lt (begins.unstamped rule entry caches))

/-- What was not stamped, but lies inside of a node that was used again, is as it should be. -/
theorem Accounts.placed_inside (begins : Begins margin log site begin)
    (accounts : Accounts margin log site begin after)
    (marked : Marked margin log site begin after)
    {rule : Rule} {entry : Entry vocabulary} (held : after.Caches rule entry)
    (kept : begin.Caches rule entry) {used : Rule} {front own : Nat} {outline : Outline Label}
    (serves : Serves margin log site used front outline) (inside : own < outline.length)
    (starts : entry.node.start.StandsAt begin.store site.rope.buffer site.shape (front + own)) :
    Placed begin.store site.rope.buffer site.shape rule entry.node := by
  have current := accounts.current begins
  have quiet : log.overlaps ⟨front + own, front + own⟩ margin = false :=
    EditLog.quiet_within serves.quiet (Nat.le_add_right _ _)
      (Nat.add_le_add_left (Nat.le_of_lt inside) front)
  have opens : OpensAt site.shape.text rule (front + own) := by
    rcases starts with ⟨_, first, seated, stands⟩
    rcases begins.stops rule entry kept with ⟨_, last, seated'⟩
    exact (begins.claims rule entry kept first last _ seated seated' stands.means).opens quiet
  have visits := visits_of_covered serves.derives serves.visits inside opens
  rcases marked rule _ visits with ⟨entry', held', stamped, starts'⟩ | ⟨_, spared⟩
  · -- The entry of the rule for this index was stamped, and it is the one that was not.
    have same : entry = entry' := accounts.tidy.caches_unique held held'
      ((starts.keeps accounts.keeps).position_eq starts' current)
    have unstamped := begins.unstamped rule entry kept
    rw [same, stamped, accounts.generation] at unstamped
    exact absurd unstamped (Nat.lt_irrefl _)
  · rcases spared with ⟨other, start, whole, serves', leads⟩
    rcases leads.within serves'.derives with ⟨part, derives, behind, within⟩
    have quietPart : log.overlaps ⟨front + own, front + own + part.length⟩ margin = false :=
      EditLog.quiet_within serves'.quiet behind within
    exact begins.placed kept ⟨visits, derives, quietPart⟩ starts

/-- The sweep leaves what a parse of the text comes to.  All that was stamped is left. -/
theorem Accounts.sweep (begins : Begins margin log site begin)
    (accounts : Accounts margin log site begin after)
    (marked : Marked margin log site begin after) :
    Pruned after.sweep.2 site.rope.buffer site.shape ∧
      ∀ rule index, Stamped site after rule index → Stamped site after.sweep.2 rule index := by
  have current := accounts.current begins
  rcases accounts.reused with ⟨reused, isReused, serves⟩
  rcases accounts.tidy.sweep_spec isReused with ⟨tidy, store, generation, stays, left⟩
  refine ⟨⟨tidy, store ▸ current, fun rule entry caches => ?_, fun rule entry caches => ?_⟩, ?_⟩
  · rcases left rule entry caches with ⟨held, reason⟩
    rw [store]
    rcases accounts.entries rule entry held with ⟨_, placed⟩ | kept
    · exact placed
    · rcases reason with stamped | ⟨range, member, behind, before⟩
      · have unstamped := begins.unstamped rule entry kept
        rw [stamped, accounts.generation] at unstamped
        exact absurd unstamped (Nat.lt_irrefl _)
      · rcases serves range member with ⟨used, outline, serves, stop⟩
        rcases begins.starts rule entry kept with ⟨index, starts⟩
        have isIndex := (starts.keeps accounts.keeps).index_eq current
        simp only [Tree.range, isIndex] at behind before
        rcases Nat.exists_eq_add_of_le behind with ⟨own, rfl⟩
        have inside : own < outline.length := by omega
        exact (accounts.placed_inside begins marked held kept serves inside starts).keeps
          accounts.keeps
  · rw [generation, accounts.generation]
    rcases accounts.entries rule entry (left rule entry caches).1 with ⟨stamped, _⟩ | kept
    · exact Nat.le_of_eq stamped
    · exact Nat.le_of_lt (begins.unstamped rule entry kept)
  · rintro rule index ⟨entry, caches, stamped, starts⟩
    exact ⟨entry, stays rule entry caches stamped, stamped.trans generation.symm, store ▸ starts⟩

end Parses

/-! ## Between parses -/

/-- What is known of the memos of a document between two parses. -/
structure Tended (margin : Nat) (document : Document vocabulary) (shape : Shape) : Prop where
  idle : document.session.Idle 0 document.rope.buffer shape
  claims : ∀ rule entry, document.session.Caches rule entry →
    Claims document.session.store margin document.log shape rule entry.node
  stamps : ∀ rule entry, document.session.Caches rule entry →
    entry.generation ≤ document.session.generation
  settled : document.log.isEmpty = true → ∀ rule entry, document.session.Caches rule entry →
    ∃ index, entry.node.start.StandsAt document.session.store document.rope.buffer shape index

section Tended

variable {margin : Nat} {document : Document vocabulary} {shape : Shape}
  {promise : Promise vocabulary} {store : Store}

theorem Tended.tends (tended : Tended margin document shape) :
    document.Tends (.plain 0) margin shape :=
  ⟨Session.idle_iff_dormant.mp tended.idle,
    fun rule _ entry holds => (tended.claims rule entry holds.caches).footed,
    fun noEdits rule _ entry holds => tended.settled noEdits rule entry holds.caches⟩

theorem tended_empty (empty : document.session.memos = []) (margin : Nat) (shape : Shape) :
    Tended margin document shape := by
  have nothing : ∀ rule entry, ¬document.session.Caches rule entry := by
    rintro rule entry ⟨memo, member, _⟩
    rw [empty] at member
    exact absurd member List.not_mem_nil
  exact ⟨Session.idle_iff_dormant.mpr (Session.dormant_empty empty _ _ shape),
    fun rule entry caches => absurd caches (nothing rule entry),
    fun rule entry caches => absurd caches (nothing rule entry),
    fun _ rule entry caches => absurd caches (nothing rule entry)⟩

/-- After a parse everything is where it should be. -/
theorem Pruned.tended (pruned : Pruned document.session document.rope.buffer shape) (margin : Nat) :
    Tended margin document shape := by
  have starts := fun rule entry (caches : document.session.Caches rule entry) =>
    (pruned.placed rule entry caches).starts
  have dormant := (Session.tidy_iff_maps.mp pruned.tidy).dormant pruned.current
    fun rule _ entry holds => starts rule entry holds.caches
  exact ⟨Session.idle_iff_dormant.mpr dormant,
    fun rule entry caches => (pruned.placed rule entry caches).claims pruned.current margin _,
    pruned.stamps, fun _ => starts⟩

/-- An edit is prepared, which leaves all cursors of kept nodes in place. -/
theorem Tended.prepares (tended : Tended margin document shape)
    (prepares : document.Prepares promise shape store) :
    Tended margin { document with session := { document.session with store } } shape := by
  have tends := tended.tends.prepares prepares
  refine ⟨Session.idle_iff_dormant.mpr tends.dormant, fun rule entry caches => ?_, tended.stamps,
    fun noEdits rule entry caches => ?_⟩
  · rcases caches.holds with ⟨state, holds⟩
    rcases prepares.cursors holds with ⟨start, stop⟩
    exact (tended.claims rule entry caches).congr start stop
  · rcases caches.holds with ⟨state, holds⟩
    exact tends.settled noEdits rule state entry holds

/-- An edit is made. -/
theorem Tended.edit {content : Buffer} {used : List NodeId} {replaced removed : Shape}
    {move : Place → Place} {start stop : Nat} {text : List Char}
    (tended : Tended margin document shape) (fulfils : document.Fulfils promise shape)
    (wide : 1 ≤ margin) (ordered : start ≤ stop) (within : stop ≤ shape.text.length)
    (advances : (document.session.store.buffer document.rope.buffer).Advances content)
    (done : (document.session.store.buffer document.rope.buffer).Replacement content shape start stop
      text used replaced removed move)
    (avoids : document.session.Avoids document.rope.buffer used) :
    Tended margin (document.withEdit document.session.store content replaced.root
      ⟨start, stop, text.length⟩) replaced := by
  have inside : document.session.Fulfils promise document.rope shape document.log := fulfils
  have tends := tended.tends.edit fulfils ordered within advances done avoids
  refine ⟨Session.idle_iff_dormant.mpr tends.dormant, fun rule entry caches => ?_, tended.stamps,
    fun noEdits rule entry caches => ?_⟩
  · have held : document.session.Caches rule entry := caches
    rcases held.holds with ⟨state, holds⟩
    rcases inside.follows ordered done avoids holds with ⟨starts, stops⟩
    exact (tended.claims rule entry held).edit wide inside.current ordered within done starts stops
  · rcases caches.holds with ⟨state, holds⟩
    exact tends.settled noEdits rule state entry holds

/-- When the next parse begins, every node that is kept starts in the document. -/
theorem Tended.begins (tended : Tended margin document shape)
    (fulfils : document.Fulfils promise shape) :
    Begins margin document.log ⟨document.rope, shape⟩
      (document.evictEdited margin).beginSweep := by
  have inside : document.session.Fulfils promise document.rope shape document.log := fulfils
  rcases tended.tends.begins fulfils (Sameness.plain_lawful 0) with ⟨maps, same, origin⟩
  have generation := (Document.evictEdited_keeps tended.tends.dormant margin).2.2.1
  have held : ∀ rule entry, (document.evictEdited margin).beginSweep.Caches rule entry →
      document.session.Caches rule entry := by
    intro rule entry caches
    rcases caches.holds with ⟨state, holds⟩
    rcases (origin rule state entry holds).1 with ⟨own, holds⟩
    exact holds.caches
  refine ⟨Session.tidy_iff_maps.mpr maps, same ▸ inside.sound, same ▸ inside.current, rfl,
    fun rule entry caches => ?_, fun rule entry caches => ?_, fun rule entry caches => ?_,
    fun rule entry caches => ?_⟩
  · refine Nat.lt_succ_of_le (Nat.le_trans (tended.stamps rule entry (held rule entry caches)) ?_)
    exact Nat.le_of_eq generation.symm
  · rcases caches.holds with ⟨state, holds⟩
    exact (origin rule state entry holds).2
  · rcases (held rule entry caches).holds with ⟨state, holds⟩
    rcases inside.cursors holds with ⟨_, stopBuffer, _, second, _, stopPlace, _⟩
    exact ⟨stopBuffer, second, same ▸ stopPlace⟩
  · rw [same]
    exact tended.claims rule entry (held rule entry caches)

end Tended

/-! ## Histories -/

section Histories

variable {config : Config} {wide : 1 ≤ config.editMargin} {document : Document vocabulary}
  {shape : Shape} {known : Known vocabulary}

/-- A parse leaves what a parse of the text comes to.  If nothing was kept it leaves all of it. -/
theorem Tended.parse (tended : Tended config.editMargin document shape)
    (remembers : (findings config.editMargin wide).Remembers document shape known) :
    let parsed := (document.parse ⟨grammar, config⟩).2
    parsed.session.refused ≠ [] ∨ Pruned parsed.session document.rope.buffer shape ∧
      (document.session.memos = [] → ∀ rule index, Visits shape.text (.node rule) index →
        Stamped ⟨document.rope, shape⟩ parsed.session rule index) := by
  have begins := tended.begins remembers.fulfils
  have margin : (findings config.editMargin wide).margin = config.editMargin := rfl
  rcases remembers.begin margin with ⟨tells, place, origin, stands⟩
  have walks := walks_invoke wide ⟨document.rope, shape⟩ (document.isEdited config.editMargin) config
    config.maxDepth
  have runs := walks.runs .items tells stands
  have nothing : document.session.memos = [] →
      ¬∃ rule entry, (document.evictEdited config.editMargin).beginSweep.Caches rule entry := by
    rintro empty ⟨rule, entry, caches⟩
    rcases caches.holds with ⟨state, holds⟩
    rcases (tended.tends.begins remembers.fulfils (Sameness.plain_lawful 0)).2.2 rule state entry holds
      with ⟨⟨own, memo, member, _⟩, _⟩
    rw [empty] at member
    exact absurd member List.not_mem_nil
  simp only [Document.parse, Parser.parse, origin]
  generalize made : (⟨grammar, config⟩ : Parser vocabulary).invoke
    (document.isEdited config.editMargin) config.maxDepth grammar.startRule grammar.startState
    ⟨document.rope.buffer, place⟩ (document.evictEdited config.editMargin).beginSweep = reply
  have isReply : (⟨grammar, config⟩ : Parser vocabulary).invoke (document.isEdited config.editMargin)
      config.maxDepth .items () ⟨document.rope.buffer, place⟩
      (document.evictEdited config.editMargin).beginSweep = reply := made
  rw [isReply] at runs
  rcases reply with ⟨⟨tree, stop⟩, parsed⟩
  rcases runs with refused | runs
  · refine Or.inl ?_
    rcases parsed.sweep_eq with ⟨_, _, swept⟩
    rw [swept]
    exact refused
  · have accounts := runs.accounts begins .refl begins.accounts
    have marked := runs.marked begins
    rcases accounts.sweep begins marked with ⟨pruned, stays⟩
    refine Or.inr ⟨pruned, fun empty rule index visits => stays rule index ?_⟩
    exact (marked rule index visits).resolve_right fun both => nothing empty both.1

/-- A document keeps what it should and nothing else, unless a body was refused. -/
def Trim (margin : Nat) (wide : 1 ≤ margin) (document : Document vocabulary) : Prop :=
  document.session.refused ≠ [] ∨ ∃ shape known,
    (findings margin wide).Remembers document shape known ∧ Tended margin document shape

theorem trim_ofString (margin : Nat) (wide : 1 ≤ margin) (text : String) :
    Trim margin wide (.ofString text) := by
  rcases (findings margin wide).holds_ofString text with refused | ⟨shape, known, remembers⟩
  · exact Or.inl refused
  · exact Or.inr ⟨shape, known, remembers, tended_empty rfl margin shape⟩

theorem Trim.replace {margin : Nat} {wide : 1 ≤ margin} (trim : Trim margin wide document)
    (start stop : Nat) (text : String) :
    Trim margin wide (document.replace grammar start stop text).2 := by
  rcases trim with refused | ⟨shape, known, ⟨fulfils, unknown, ends⟩, tended⟩
  · rcases document.replace_session grammar start stop text with ⟨store, same⟩
    refine Or.inl ?_
    rw [same]
    exact refused
  · rcases fulfils.replace_cases grammar start stop text with ⟨store, prepares,
      ⟨_, becomes⟩ | ⟨ordered, within, content, used, replaced, removed, move, sound, advances, done,
        avoids, becomes⟩⟩
    · rw [becomes]
      exact Or.inr ⟨shape, known, ⟨prepares.fulfils, unknown, ends⟩, tended.prepares prepares⟩
    · rw [becomes]
      refine Or.inr ⟨replaced, known, ⟨?_, unknown, ends⟩, ?_⟩
      · exact prepares.fulfils.edit ordered within sound done avoids
      · exact (tended.prepares prepares).edit prepares.fulfils wide ordered within advances done avoids

theorem Trim.compact {margin : Nat} {wide : 1 ≤ margin} (trim : Trim margin wide document) :
    Trim margin wide document.compact := by
  rcases trim with refused | ⟨shape, known, ⟨fulfils, unknown, ends⟩, _⟩
  · exact Or.inl refused
  · rcases fulfils.compact with ⟨shape', fulfils', _⟩
    exact Or.inr ⟨shape', known, ⟨fulfils', unknown, ends⟩, tended_empty rfl margin shape'⟩

theorem Trim.parse (trim : Trim config.editMargin wide document) :
    Trim config.editMargin wide (document.parse ⟨grammar, config⟩).2 := by
  rcases trim with refused | ⟨shape, known, remembers, tended⟩
  · exact Or.inl (document.parse_keepsRefused ⟨grammar, config⟩ refused)
  · rcases tended.parse remembers with refused | ⟨pruned, _⟩
    · exact Or.inl refused
    · rcases remembers.parse (findings_sound config.editMargin wide) (starts config.editMargin wide) rfl
        with refused | ⟨⟨more, remembers'⟩, _⟩
      · exact Or.inl refused
      · exact Or.inr ⟨shape, more, remembers', Pruned.tended pruned config.editMargin⟩

theorem trim_run (config : Config) (wide : 1 ≤ config.editMargin) (text : String)
    (commands : List Document.Command) :
    Trim config.editMargin wide ((History.start text).run ⟨grammar, config⟩ commands).document := by
  have initial : Trim config.editMargin wide (History.start text).document :=
    trim_ofString config.editMargin wide text
  generalize History.start text = history at initial ⊢
  induction commands generalizing history with
  | nil => exact initial
  | cons command commands inductionHypothesis =>
      refine inductionHypothesis _ ?_
      cases command with
      | replace start stop text => exact initial.replace start stop text
      | parse => exact initial.parse
      | compact => exact initial.compact

/-- A new document keeps all that a parse of its text comes to. -/
theorem fresh_spans (config : Config) (wide : 1 ≤ config.editMargin) (text : String) :
    let fresh := ((Document.ofString text : Document vocabulary).parse ⟨grammar, config⟩).2
    fresh.session.refused = [] → ∀ rule index outline, Visits text.toList (.node rule) index →
      Derives (.node rule) (text.toList.drop index) outline →
      (rule, ⟨index, index + outline.length⟩) ∈ fresh.session.spans := by
  intro fresh unrefused rule index outline visits derives
  rcases (findings config.editMargin wide).holds_ofString text with refused |
    ⟨shape, known, remembers⟩
  · exact absurd rfl refused
  have isText : shape.text = text.toList := by
    have shown := remembers.fulfils.text_eq
    rw [Document.text_ofString] at shown
    rw [shown, String.toList_ofList]
  rcases (tended_empty rfl config.editMargin shape).parse remembers with refused | ⟨pruned, whole⟩
  · exact absurd unrefused refused
  rcases whole rfl rule index (isText ▸ visits) with ⟨entry, caches, _, starts⟩
  refine Session.mem_spans.mpr ⟨entry, caches, ?_⟩
  rcases pruned.span caches with ⟨own, outline', _, derives', starts', span⟩
  cases (starts'.index_eq pruned.current).symm.trans (starts.index_eq pruned.current)
  rw [isText] at derives'
  rw [span, derives'.length_eq derives]

/-- The memos hold no leftovers.  After each parse in the history of a document, whatever is kept
for a rule from one index up to another is kept as well by the first parse of a new document with
the same text, unless a body is refused for its depth, be it in the history or in the new document.
Hence no more nodes are kept than the new document keeps. -/
theorem no_leftovers (config : Config) (wide : 1 ≤ config.editMargin) (text : String)
    (commands : List Document.Command) :
    let parser : Parser vocabulary := ⟨grammar, config⟩
    let document := ((History.start text).run parser commands).document
    let fresh : Document vocabulary := .ofString document.text
    let parsed := (document.parse parser).2.session
    let freshParsed := (fresh.parse parser).2.session
    parsed.refused = [] → freshParsed.refused = [] →
      (parsed.endless = false ∧ freshParsed.endless = false) ∧
        (∀ span ∈ parsed.spans, span ∈ freshParsed.spans) ∧
        parsed.cachedNodes ≤ freshParsed.cachedNodes := by
  intro parser document fresh parsed freshParsed unrefused freshUnrefused
  have ends := (derives_of_reparsed config wide text commands unrefused freshUnrefused).1
  rcases trim_run config wide text commands with refused | ⟨shape, known, remembers, tended⟩
  · exact absurd unrefused (document.parse_keepsRefused parser refused)
  have isText : shape.text = document.text.toList := by
    rw [remembers.fulfils.text_eq, String.toList_ofList]
  rcases tended.parse remembers with refused | ⟨pruned, _⟩
  · exact absurd unrefused refused
  have contained : ∀ span ∈ parsed.spans, span ∈ freshParsed.spans := by
    rintro ⟨rule, span⟩ member
    rcases Session.mem_spans.mp member with ⟨entry, caches, rfl⟩
    rcases pruned.span caches with ⟨index, outline, visits, derives, _, isSpan⟩
    rw [isText] at visits derives
    rw [isSpan]
    exact fresh_spans config wide document.text freshUnrefused rule index outline visits derives
  refine ⟨ends, contained, ?_⟩
  rw [← Session.length_spans, ← Session.length_spans]
  exact (List.subperm_of_subset pruned.nodup_spans contained).length_le

/-- A list in brackets is used again after an edit behind it.  The words inside of it are kept,
although the parse does not come to them. -/
theorem no_leftovers_in_brackets :
    let parser : Parser vocabulary := ⟨grammar, {}⟩
    let document := ((History.start "[a b] cd").run parser [.parse, .replace 8 8 "e"]).document
    let fresh : Document vocabulary := .ofString document.text
    let parsed := (document.parse parser).2.session
    let freshParsed := (fresh.parse parser).2.session
    (parsed.refused = [] ∧ freshParsed.refused = []) ∧ (Rule.item, ⟨1, 3⟩) ∈ parsed.spans ∧
      (∀ span ∈ parsed.spans, span ∈ freshParsed.spans) ∧
      parsed.cachedNodes ≤ freshParsed.cachedNodes := by
  have contained := no_leftovers {} (by decide) "[a b] cd" [.parse, .replace 8 8 "e"]
    (by decide +kernel) (by decide +kernel)
  exact ⟨⟨by decide +kernel, by decide +kernel⟩, by decide +kernel, contained.2⟩

/-- It is not enough that the history refuses nothing.  Words are put into brackets around a list,
which is used again together with the items that it is made of.  The new document refuses to go
into this list.  It takes the bracket behind it for the end of the outer list, and the next one
for the end of the text. -/
theorem leftovers_of_deeper_list :
    let parser : Parser vocabulary := ⟨grammar, { maxDepth := 4 }⟩
    let document := ((History.start "b [a] c d").run parser
      [.parse, .replace 0 0 "[", .replace 8 8 "]"]).document
    let fresh : Document vocabulary := .ofString document.text
    let parsed := (document.parse parser).2.session
    let freshParsed := (fresh.parse parser).2.session
    document.text = "[b [a] c] d" ∧ parsed.refused = [] ∧
      (Rule.items, ⟨4, 5⟩) ∈ parsed.spans ∧ (Rule.items, ⟨4, 5⟩) ∉ freshParsed.spans ∧
      parsed.cachedNodes = 9 ∧ freshParsed.cachedNodes = 8 := by
  decide +kernel

end Histories

end Words

end Reparse
