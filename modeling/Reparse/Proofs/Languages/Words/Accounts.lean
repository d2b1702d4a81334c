import Reparse.Proofs.Languages.Words.Pending
import Reparse.Proofs.Languages.Words.Runs

namespace Reparse

/-!
# What a parse of a list of words leaves in the memos

Each entry that a parse has stored or used is stamped, and its node is one that a parse of the
whole text comes to.  The other entries are as they were when the parse began.

Not all that the parse of a new text would come to is stamped.  Inside of a node that was used
again nothing was looked for.  But such a node was not reported by the log of edits, so all
that lies in it is spared by the log as well.
-/

namespace Words

/-- A parse begins.  Nothing bears its stamp, and what is kept starts in the document. -/
structure Begins (margin : Nat) (log : EditLog) (site : Site) (begin : Session vocabulary) :
    Prop where
  tidy : begin.Tidy 0 site.rope.buffer
  sound : begin.store.Sound
  current : (begin.store.buffer site.rope.buffer).Current site.shape
  reused : begin.reused = some []
  unstamped : ∀ rule entry, begin.Caches rule entry → entry.generation < begin.generation
  starts : ∀ rule entry, begin.Caches rule entry →
    ∃ index, entry.node.start.StandsAt begin.store site.rope.buffer site.shape index
  stops : ∀ rule entry, begin.Caches rule entry → entry.node.stop.buffer = site.rope.buffer ∧
    ∃ place, begin.store.place? entry.node.stop = some place
  claims : ∀ rule entry, begin.Caches rule entry →
    Claims begin.store margin log site.shape rule entry.node

/-- A parse of the whole text comes to a node that the log does not report. -/
structure Serves (margin : Nat) (log : EditLog) (site : Site) (rule : Rule) (index : Nat)
    (outline : Outline Label) : Prop where
  visits : Visits site.shape.text (.node rule) index
  derives : Derives (.node rule) (site.rest index) outline
  quiet : log.overlaps ⟨index, index + outline.length⟩ margin = false

/-- A parse has come from the session that it began with to another one. -/
structure Accounts (margin : Nat) (log : EditLog) (site : Site) (begin session : Session vocabulary) :
    Prop where
  tidy : session.Tidy 0 site.rope.buffer
  sound : session.store.Sound
  keeps : begin.store.Keeps session.store
  generation : session.generation = begin.generation
  entries : ∀ rule entry, session.Caches rule entry →
    entry.generation = begin.generation ∧
        Placed session.store site.rope.buffer site.shape rule entry.node ∨
      begin.Caches rule entry
  reused : ∃ reused, session.reused = some reused ∧ ∀ range ∈ reused, ∃ rule outline,
    Serves margin log site rule range.start outline ∧ range.stop = range.start + outline.length

/-- The entry of a rule for an index bears the stamp of the current generation. -/
def Stamped (site : Site) (session : Session vocabulary) (rule : Rule) (index : Nat) : Prop :=
  ∃ entry, session.Caches rule entry ∧ entry.generation = session.generation ∧
    entry.node.start.StandsAt session.store site.rope.buffer site.shape index

/-- An entry for one rule and one index was stamped, and no other one. -/
structure Stamps (site : Site) (before after : Session vocabulary) (rule : Rule) (index : Nat) :
    Prop where
  here : Stamped site after rule index
  kept : ∀ other own, Stamped site before other own → Stamped site after other own
  only : ∀ other own, Stamped site after other own →
    Stamped site before other own ∨ other = rule ∧ own = index

variable {margin : Nat} {log : EditLog} {site : Site} {begin session : Session vocabulary}
  {rule : Rule} {index : Nat} {place : Place}

theorem plain_key : (grammar.stateKey ()).Plain 0 := ⟨rfl, fun _ => rfl⟩

namespace Begins

variable (begins : Begins margin log site begin)
include begins

theorem accounts : Accounts margin log site begin begin :=
  ⟨begins.tidy, begins.sound, .refl begin.store, rfl, fun _ _ caches => Or.inr caches,
    [], begins.reused, fun _ member => absurd member List.not_mem_nil⟩

/-- A kept node that the log does not report is one that the parse comes to. -/
theorem placed {entry : Entry vocabulary} {outline : Outline Label}
    (caches : begin.Caches rule entry) (serves : Serves margin log site rule index outline)
    (starts : entry.node.start.StandsAt begin.store site.rope.buffer site.shape index) :
    Placed begin.store site.rope.buffer site.shape rule entry.node := by
  rcases begins.stops rule entry caches with ⟨inBuffer, last, seated⟩
  rcases starts with ⟨inBuffer', first, seated', stands⟩
  have claim := begins.claims rule entry caches first last index seated' seated stands.means
  exact ⟨index, outline, serves.visits, serves.derives, ⟨inBuffer', first, seated', stands⟩,
    inBuffer, last, seated, claim.stops outline serves.derives serves.quiet⟩

end Begins

namespace Accounts

variable (begins : Begins margin log site begin) (accounts : Accounts margin log site begin session)
include begins accounts

theorem current : (session.store.buffer site.rope.buffer).Current site.shape :=
  begins.current.sameTrees (accounts.keeps.trees site.rope.buffer)

theorem starts {other : Rule} {entry : Entry vocabulary} (caches : session.Caches other entry) :
    ∃ own, entry.node.start.StandsAt session.store site.rope.buffer site.shape own := by
  rcases accounts.entries other entry caches with ⟨_, placed⟩ | kept
  · exact placed.starts
  · rcases begins.starts other entry kept with ⟨own, standsAt⟩
    exact ⟨own, standsAt.keeps accounts.keeps⟩

theorem position_iff {other : Rule} {entry : Entry vocabulary} {own : Nat}
    (standsAt : entry.node.start.StandsAt session.store site.rope.buffer site.shape own)
    (stands : site.shape.Stands place index) :
    session.Takes rule ⟨site.rope.buffer, place⟩ other entry ↔ other = rule ∧ own = index :=
  and_congr_right fun _ => standsAt.position_iff (accounts.current begins) stands

/-! ## Steps -/

/-- An entry takes the place of the one for its rule and its index. -/
theorem adds {after : Session vocabulary} {added : Entry vocabulary}
    (stands : site.shape.Stands place index) (keeps : session.store.Keeps after.store)
    (generation : after.generation = session.generation)
    (stamped : added.generation = session.generation)
    (placed : Placed after.store site.rope.buffer site.shape rule added.node)
    (starts : added.node.start.StandsAt after.store site.rope.buffer site.shape index)
    (caches : ∀ other entry, after.Caches other entry ↔ other = rule ∧ entry = added ∨
      session.Caches other entry ∧ ¬session.Takes rule ⟨site.rope.buffer, place⟩ other entry) :
    (∀ other entry, after.Caches other entry → entry.generation = begin.generation ∧
        Placed after.store site.rope.buffer site.shape other entry.node ∨
      begin.Caches other entry) ∧ Stamps site session after rule index := by
  have current := accounts.current begins
  have reached := current.sameTrees (keeps.trees site.rope.buffer)
  have origin : ∀ other entry, after.Caches other entry →
      other = rule ∧ entry = added ∨ session.Caches other entry := fun other entry member =>
    ((caches other entry).mp member).imp_right And.left
  have here : Stamped site after rule index :=
    ⟨added, (caches rule added).mpr (Or.inl ⟨rfl, rfl⟩), stamped.trans generation.symm, starts⟩
  refine ⟨fun other entry member => ?_, here, ?_, ?_⟩
  · rcases origin other entry member with ⟨rfl, rfl⟩ | old
    · exact Or.inl ⟨stamped.trans accounts.generation, placed⟩
    · exact (accounts.entries other entry old).imp_left fun both => ⟨both.1, both.2.keeps keeps⟩
  · rintro other own ⟨entry, member, stamped', starts'⟩
    by_cases taken : other = rule ∧ own = index
    · rcases taken with ⟨rfl, rfl⟩
      exact here
    · refine ⟨entry, (caches other entry).mpr (Or.inr ⟨member, ?_⟩), stamped'.trans generation.symm,
        starts'.keeps keeps⟩
      rw [accounts.position_iff begins starts' stands]
      exact taken
  · rintro other own ⟨entry, member, stamped', starts'⟩
    rcases origin other entry member with ⟨rfl, rfl⟩ | old
    · exact Or.inr ⟨rfl, (starts'.index_eq reached).symm.trans (starts.index_eq reached)⟩
    · rcases accounts.starts begins old with ⟨own', earlier⟩
      have same := ((earlier.keeps keeps).index_eq reached).symm.trans (starts'.index_eq reached)
      exact Or.inl ⟨entry, old, stamped'.trans generation, same ▸ earlier⟩

/-- A node is looked for in vain.  What was kept for the rule and the index is gone. -/
theorem search {searched : Session vocabulary} (stands : site.shape.Stands place index)
    (misses : session.reuse rule (grammar.stateKey ()) ⟨site.rope.buffer, place⟩
      (log.overlaps · margin) = (none, searched)) :
    Accounts margin log site begin searched ∧
      (∀ other own, Stamped site searched other own → Stamped site session other own) ∧
      ∀ other own, Stamped site session other own →
        Stamped site searched other own ∨ other = rule ∧ own = index := by
  have tidy : session.Tidy 0 (⟨site.rope.buffer, place⟩ : Position).buffer := accounts.tidy
  have spec := tidy.reuse_spec plain_key rule (log.overlaps · margin)
  rw [misses] at spec
  rcases spec with ⟨tidy', store, generation, reused, caches⟩
  simp only at tidy' store generation reused caches
  refine ⟨⟨tidy', store ▸ accounts.sound, store ▸ accounts.keeps,
    generation.trans accounts.generation, fun other entry found => ?_, reused ▸ accounts.reused⟩,
    ?_, ?_⟩
  · rw [store]
    exact accounts.entries other entry ((caches other entry).mp found).1
  · rintro other own ⟨entry, found, stamped, standsAt⟩
    rw [generation] at stamped
    rw [store] at standsAt
    exact ⟨entry, ((caches other entry).mp found).1, stamped, standsAt⟩
  · rintro other own ⟨entry, found, stamped, standsAt⟩
    by_cases taken : other = rule ∧ own = index
    · exact Or.inr taken
    · refine Or.inl ⟨entry, (caches other entry).mpr ⟨found, ?_⟩, stamped.trans generation.symm, ?_⟩
      · rw [accounts.position_iff begins standsAt stands]
        exact taken
      · rw [store]
        exact standsAt

/-- A node is used again.  It was stamped before, or it was kept when the parse began and the log
does not report it. -/
theorem use {node : Node} {stop : Position} {after : Session vocabulary}
    (stands : site.shape.Stands place index)
    (reuses : session.reuse rule (grammar.stateKey ()) ⟨site.rope.buffer, place⟩
      (log.overlaps · margin) = (some (node, stop), after))
    (visits : Visits site.shape.text (.node rule) index)
    (derives : Derives (.node rule) (site.rest index) node.outline)
    (buffer : stop.buffer = site.rope.buffer)
    (stops : site.shape.Stands stop.place (index + node.length)) :
    Accounts margin log site begin after ∧ Stamps site session after rule index ∧
      (Stamped site session rule index ∨ (∃ entry, begin.Caches rule entry) ∧
        Serves margin log site rule index node.outline) := by
  have current := accounts.current begins
  have tidy : session.Tidy 0 (⟨site.rope.buffer, place⟩ : Position).buffer := accounts.tidy
  have spec := tidy.reuse_spec plain_key rule (log.overlaps · margin)
  rw [reuses] at spec
  rcases spec with ⟨tidy', store, generation, found, held, isNode, isStart, _, quiet, reused, caches⟩
  simp only at tidy' store generation isStart quiet reused caches
  rcases stop with ⟨home, last⟩
  subst buffer
  have first : session.store.indexOf ⟨site.rope.buffer, place⟩ = index :=
    current.indexOf stands.means
  have final : session.store.indexOf ⟨site.rope.buffer, last⟩ = index + node.outline.length := by
    rw [node.outline_length]
    exact current.indexOf stops.means
  rw [first, final] at quiet reused
  have serves : Serves margin log site rule index node.outline := ⟨visits, derives, quiet⟩
  subst isNode
  -- The node was stamped, or the log tells that it is where it should be.
  have standsAt : found.node.start.StandsAt session.store site.rope.buffer site.shape index := by
    rcases accounts.starts begins held with ⟨own, standsAt⟩
    exact (standsAt.position_iff current stands).mp isStart ▸ standsAt
  have placed : Placed session.store site.rope.buffer site.shape rule found.node := by
    rcases accounts.entries rule found held with ⟨_, placed⟩ | kept
    · exact placed
    · rcases begins.starts rule found kept with ⟨own, standsAt'⟩
      have same := ((standsAt'.keeps accounts.keeps).position_iff current stands).mp isStart
      exact (begins.placed kept serves (same ▸ standsAt')).keeps accounts.keeps
  have keeps : session.store.Keeps after.store := store ▸ .refl session.store
  let stamped : Entry vocabulary := { found with generation := session.generation }
  have isStamped : stamped.generation = session.generation := rfl
  rcases accounts.adds begins stands keeps generation isStamped (placed.keeps keeps)
    (standsAt.keeps keeps) caches with ⟨entries, stamps⟩
  refine ⟨⟨tidy', store ▸ accounts.sound, store ▸ accounts.keeps,
    generation.trans accounts.generation, entries, ?_⟩, stamps, ?_⟩
  · rcases accounts.reused with ⟨ranges, isRanges, each⟩
    rw [isRanges, Option.map_some] at reused
    refine ⟨_, reused, fun range member => ?_⟩
    rcases List.mem_cons.mp member with rfl | old
    · exact ⟨rule, found.node.outline, serves, rfl⟩
    · exact each range old
  · rcases accounts.entries rule found held with ⟨stamped, _⟩ | kept
    · exact Or.inl ⟨found, held, stamped.trans accounts.generation.symm, standsAt⟩
    · exact Or.inr ⟨⟨found, kept⟩, serves⟩

/-- A node is kept where the parse has come to. -/
theorem keep {last : Place} {outline : Outline Label} (stands : site.shape.Stands place index)
    (visits : Visits site.shape.text (.node rule) index)
    (derives : Derives (.node rule) (site.rest index) outline)
    (stops : site.shape.Stands last (index + outline.length)) (content : Content Label Char)
    (before skipped : List Char) :
    let after := (session.keep rule (grammar.stateKey ()) ⟨site.rope.buffer, place⟩
      ⟨site.rope.buffer, last⟩ content before skipped).2
    Accounts margin log site begin after ∧ Stamps site session after rule index := by
  have current := accounts.current begins
  have tidy : session.Tidy 0 (⟨site.rope.buffer, place⟩ : Position).buffer := accounts.tidy
  have rests : ∀ {place : Place} {index : Nat}, site.shape.Stands place index →
      session.store.Rests ⟨site.rope.buffer, place⟩ :=
    current.rests (accounts.sound site.rope.buffer).formed
  have spec := tidy.keep_spec plain_key accounts.sound (rests stands) (rests stops)
    (fun other entry held => by
      rcases accounts.starts begins held with ⟨own, _, place, seated, _⟩
      exact ⟨place, seated⟩)
    rule content before skipped
  generalize session.keep rule (grammar.stateKey ()) ⟨site.rope.buffer, place⟩
    ⟨site.rope.buffer, last⟩ content before skipped = made at spec ⊢
  rcases made with ⟨node, after⟩
  rcases spec with ⟨tidy', sound, keeps, generation, reused, startBuffer, startPlace, stopBuffer,
    stopPlace, caches⟩
  simp only at tidy' sound keeps generation reused startBuffer startPlace stopBuffer stopPlace caches ⊢
  have standsAt : node.start.StandsAt after.store site.rope.buffer site.shape index :=
    ⟨startBuffer, place, startPlace, stands⟩
  have placed : Placed after.store site.rope.buffer site.shape rule node :=
    ⟨index, outline, visits, derives, standsAt, stopBuffer, last, stopPlace, stops⟩
  rcases accounts.adds begins stands keeps generation rfl placed standsAt caches with
    ⟨entries, stamps⟩
  exact ⟨⟨tidy', sound, accounts.keeps.trans keeps, generation.trans accounts.generation, entries,
    reused ▸ accounts.reused⟩, stamps⟩

end Accounts

/-! ## Runs -/

/-- The log spares what lies inside of a node that it does not report. -/
def Spared (margin : Nat) (log : EditLog) (site : Site) (rule : Rule) (index : Nat) : Prop :=
  ∃ other own outline, Serves margin log site other own outline ∧
    Leads site.shape.text (.node other, own) (.node rule, index)

/-- Whatever a stamped node leads to is stamped as well, or exempt. -/
def Closed (site : Site) (session : Session vocabulary) (exempt : Rule → Nat → Prop) : Prop :=
  ∀ rule index rule' index', Stamped site session rule index →
    Leads site.shape.text (.node rule, index) (.node rule', index') →
    Stamped site session rule' index' ∨ exempt rule' index'

/-- What a task leads to is stamped or exempt. -/
def Covers (site : Site) (session : Session vocabulary) (exempt : Rule → Nat → Prop)
    (origin : Task × Nat) : Prop :=
  ∀ rule index, Leads site.shape.text origin (.node rule, index) →
    Stamped site session rule index ∨ exempt rule index

section Runs

variable {task : Task} {after : Session vocabulary} {exempt : Rule → Nat → Prop}

/-- A run keeps account of what it does. -/
theorem Runs.accounts (begins : Begins margin log site begin)
    (runs : Runs site (log.overlaps · margin) task index session after)
    (visits : Visits site.shape.text task index) (accounts : Accounts margin log site begin session) :
    Accounts margin log site begin after := by
  induction runs with
  | found stands reuses derives buffer stops =>
      exact (accounts.use begins stands reuses visits derives buffer stops).1
  | @made rule index _ _ _ _ _ _ stands misses body derives stops content before skipped
      inductionHypothesis =>
      have searched := (accounts.search begins stands misses).1
      have reached := inductionHypothesis (visits.tail (.body rule index)) searched
      exact (reached.keep begins stands visits derives stops content before skipped).1
  | closes closes => exact accounts
  | stuck goesOn first empty runs inductionHypothesis =>
      exact inductionHypothesis (visits.tail (.item goesOn)) accounts
  | further goesOn first some runs more runsHypothesis moreHypothesis =>
      exact moreHypothesis (visits.tail (.next goesOn first some))
        (runsHypothesis (visits.tail (.item goesOn)) accounts)
  | bracket opens runs inductionHypothesis =>
      exact inductionHypothesis (visits.tail (.inner opens)) accounts
  | plain opens => exact accounts

/-- What a node leads to is the node and what its body leads to. -/
theorem leads_of_node {rule : Rule} {next : Task × Nat}
    (leads : Leads site.shape.text (.node rule, index) next) :
    next = (.node rule, index) ∨
      Leads site.shape.text (.body rule, index + blanks (site.rest index)) next := by
  rcases Relation.ReflTransGen.cases_head leads with same | ⟨between, step, more⟩
  · exact Or.inl same.symm
  · cases step with
    | body => exact Or.inr more

theorem Covers.mono {origin : Task × Nat} (covers : Covers site session exempt origin)
    (kept : ∀ rule own, Stamped site session rule own → Stamped site after rule own) :
    Covers site after exempt origin :=
  fun rule own leads => (covers rule own leads).imp_left (kept rule own)

/-- A body leads to what its steps lead to. -/
theorem covers_of_steps {rule : Rule} (steps : ∀ next, Step site.shape.text (.body rule, index) next →
    Covers site session exempt next) : Covers site session exempt (.body rule, index) := by
  intro rule' index' leads
  rcases Relation.ReflTransGen.cases_head leads with same | ⟨next, step, more⟩
  · cases same
  · exact steps next step rule' index' more

/-- Once a node is stamped it need not be exempt any more. -/
theorem Stamps.settles {before : Session vocabulary} (stamps : Stamps site before after rule index)
    (closed : Closed site before fun other own => exempt other own ∨ other = rule ∧ own = index)
    (covers : Covers site before (fun other own => exempt other own ∨ other = rule ∧ own = index)
      (.body rule, index + blanks (site.rest index))) :
    Closed site after exempt ∧ Covers site after exempt (.node rule, index) := by
  have settled : ∀ {other own}, (Stamped site before other own ∨ exempt other own ∨
      other = rule ∧ own = index) → Stamped site after other own ∨ exempt other own := by
    rintro other own (stamped | isExempt | ⟨rfl, rfl⟩)
    · exact Or.inl (stamps.kept other own stamped)
    · exact Or.inr isExempt
    · exact Or.inl stamps.here
  have covered : Covers site after exempt (.node rule, index) := by
    intro other own leads
    rcases leads_of_node leads with same | below
    · cases same
      exact Or.inl stamps.here
    · exact settled (covers other own below)
  refine ⟨fun other own rule' index' stamped leads => ?_, covered⟩
  rcases stamps.only other own stamped with earlier | ⟨rfl, rfl⟩
  · exact settled (closed other own rule' index' earlier leads)
  · exact covered rule' index' leads

/-- Stamps that were made stay, and what a run leads to is stamped in its course. -/
theorem Runs.covers (begins : Begins margin log site begin)
    (runs : Runs site (log.overlaps · margin) task index session after)
    (visits : Visits site.shape.text task index) (accounts : Accounts margin log site begin session) :
    (∀ rule own, Stamped site session rule own → Stamped site after rule own) ∧
      ∀ exempt : Rule → Nat → Prop, ((∃ rule entry, begin.Caches rule entry) →
          ∀ rule own, Spared margin log site rule own → exempt rule own) →
        Closed site session exempt → Closed site after exempt ∧
          Covers site after exempt (task, index) := by
  induction runs with
  | @found rule index _ _ _ session after stands reuses derives buffer stops =>
      rcases accounts.use begins stands reuses visits derives buffer stops with
        ⟨_, stamps, origin⟩
      refine ⟨stamps.kept, fun exempt spares closed => ?_⟩
      have covers : Covers site after exempt (.node rule, index) := by
        intro rule' index' leads
        rcases origin with stamped | ⟨⟨entry, caches⟩, serves⟩
        · exact (closed rule index rule' index' stamped leads).imp_left (stamps.kept rule' index')
        · exact Or.inr (spares ⟨rule, entry, caches⟩ rule' index' ⟨rule, index, _, serves, leads⟩)
      refine ⟨fun other own rule' index' stamped leads => ?_, covers⟩
      rcases stamps.only other own stamped with before | ⟨rfl, rfl⟩
      · exact (closed other own rule' index' before leads).imp_left (stamps.kept rule' index')
      · exact covers rule' index' leads
  | @made rule index _ _ _ session searched reached stands misses body derives stops content before
      skipped inductionHypothesis =>
      rcases accounts.search begins stands misses with ⟨accounts', fewer, others⟩
      have inner := visits.tail (.body rule index)
      rcases inductionHypothesis inner accounts' with ⟨kept, closes⟩
      have reached' := body.accounts begins inner accounts'
      rcases reached'.keep begins stands visits derives stops content before skipped with
        ⟨_, stamps⟩
      refine ⟨fun other own stamped => ?_, fun exempt spares closed => ?_⟩
      · rcases others other own stamped with still | ⟨rfl, rfl⟩
        · exact stamps.kept other own (kept other own still)
        · exact stamps.here
      · -- The node is not stamped while its body is run, so it is exempt meanwhile.
        have closed' : Closed site searched fun other own =>
            exempt other own ∨ other = rule ∧ own = index := by
          intro other own rule' index' stamped leads
          rcases closed other own rule' index' (fewer other own stamped) leads with before | isExempt
          · exact (others rule' index' before).imp_right Or.inr
          · exact Or.inr (Or.inl isExempt)
        rcases closes _ (fun some other own spared => Or.inl (spares some other own spared)) closed'
          with ⟨closed'', covers⟩
        exact stamps.settles closed'' covers
  | closes closes =>
      refine ⟨fun _ _ stamped => stamped, fun exempt _ closed => ⟨closed, covers_of_steps ?_⟩⟩
      intro next step
      cases step with
      | item goesOn => exact absurd closes goesOn
      | next goesOn => exact absurd closes goesOn
  | stuck goesOn first empty runs inductionHypothesis =>
      rcases inductionHypothesis (visits.tail (.item goesOn)) accounts with ⟨kept, closes⟩
      refine ⟨kept, fun exempt spares closed => ?_⟩
      rcases closes exempt spares closed with ⟨closed', covers⟩
      refine ⟨closed', covers_of_steps fun next step => ?_⟩
      cases step with
      | item => exact covers
      | next _ first' some => exact absurd ((first'.length_eq first).trans empty) some
  | further goesOn first some runs more runsHypothesis moreHypothesis =>
      rcases runsHypothesis (visits.tail (.item goesOn)) accounts with ⟨kept, closes⟩
      have between := runs.accounts begins (visits.tail (.item goesOn)) accounts
      rcases moreHypothesis (visits.tail (.next goesOn first some)) between with ⟨kept', closes'⟩
      refine ⟨fun other own stamped => kept' other own (kept other own stamped),
        fun exempt spares closed => ?_⟩
      rcases closes exempt spares closed with ⟨closedItem, coversItem⟩
      rcases closes' exempt spares closedItem with ⟨closedRest, coversRest⟩
      refine ⟨closedRest, covers_of_steps fun next step => ?_⟩
      cases step with
      | item => exact coversItem.mono kept'
      | next _ first' _ =>
          rw [first'.length_eq first]
          exact coversRest
  | bracket opens runs inductionHypothesis =>
      rcases inductionHypothesis (visits.tail (.inner opens)) accounts with ⟨kept, closes⟩
      refine ⟨kept, fun exempt spares closed => ?_⟩
      rcases closes exempt spares closed with ⟨closed', covers⟩
      refine ⟨closed', covers_of_steps fun next step => ?_⟩
      cases step with
      | inner => exact covers
  | plain opens =>
      refine ⟨fun _ _ stamped => stamped, fun exempt _ closed => ⟨closed, covers_of_steps ?_⟩⟩
      intro next step
      cases step with
      | inner bracket => exact absurd bracket opens

end Runs

end Words

end Reparse
