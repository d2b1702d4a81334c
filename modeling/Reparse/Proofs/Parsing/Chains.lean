import Mathlib.Data.List.Pairwise
import Reparse.Proofs.Parsing.Buckets

namespace Reparse

/-!
# The memo of a rule as a map

A memo looks up the hash of a state, and then compares the state with those of the
buckets under that hash.  This finds the bucket of the state if states that are the
same have the same hash, and if being the same is an equivalence.  Then each bucket
is under the hash of its own state, no two buckets have the same state, and every
operation leaves it so.

If the buckets are tables as well then the memo is a map.  It holds entries under a
state and a position, and what an operation does to it is told by what it holds
afterwards.
-/

variable {V : Vocabulary}

/-- How states are looked up: by a hash, and by comparing. -/
structure Sameness (V : Vocabulary) where
  hash : V.State → Nat
  same : V.State → V.State → Bool

namespace Sameness

/-- States are compared by an equivalence, and the hash agrees with it. -/
structure Lawful (sameness : Sameness V) : Prop where
  refl : ∀ state, sameness.same state state = true
  symm : ∀ {state other}, sameness.same state other = true → sameness.same other state = true
  trans : ∀ {one two three}, sameness.same one two = true → sameness.same two three = true →
    sameness.same one three = true
  hash : ∀ {state other}, sameness.same state other = true →
    sameness.hash state = sameness.hash other

def key (sameness : Sameness V) (state : V.State) : StateKey V where
  state := state
  hash := sameness.hash state
  isSame other := sameness.same other state

variable {sameness : Sameness V} {one two : V.State}

/-- States that are the same are the same as any third one, or neither of them is. -/
theorem Lawful.congr (lawful : sameness.Lawful) (same : sameness.same one two = true)
    (state : V.State) : sameness.same one state = sameness.same two state := by
  rw [Bool.eq_iff_iff]
  exact ⟨lawful.trans (lawful.symm same), lawful.trans same⟩

end Sameness

/-- How the states of a grammar are looked up. -/
def Grammar.sameness (grammar : Grammar V) : Sameness V := ⟨grammar.hash, grammar.sameState⟩

namespace Memo

variable {memo : Memo V} {sameness : Sameness V} {store : Store} {id : BufferId}
  {start : Position} {state other : V.State} {entry : Entry V}

/-- Each bucket is under the hash of its state, and no two have the same state. -/
structure Sorted (memo : Memo V) (sameness : Sameness V) : Prop where
  filled : ∀ (hash : Nat) (chain : List (Bucket V)), memo.chains[hash]? = some chain → chain ≠ []
  hash : ∀ (hash : Nat) (chain : List (Bucket V)), memo.chains[hash]? = some chain →
    ∀ bucket ∈ chain, sameness.hash bucket.state = hash
  apart : ∀ (hash : Nat) (chain : List (Bucket V)), memo.chains[hash]? = some chain →
    chain.Pairwise fun one two => sameness.same one.state two.state = false

/-- An entry is kept for a state. -/
def Keeps (memo : Memo V) (sameness : Sameness V) (state : V.State) (entry : Entry V) : Prop :=
  ∃ bucket, memo.Contains bucket ∧ sameness.same bucket.state state = true ∧ entry ∈ bucket.live

/-- A memo that is a map from states and positions to entries. -/
structure Maps (memo : Memo V) (sameness : Sameness V) (store : Store) (id : BufferId) : Prop where
  sorted : memo.Sorted sameness
  buckets : ∀ bucket, memo.Contains bucket → bucket.Tidy store (store.buffer id).revision

/-! ## The bucket of a state -/

theorem changeFirst_cases {α : Type} (wanted : Bucket V → Bool) (change : Bucket V → α × Bucket V)
    (chain : List (Bucket V)) :
    changeFirst wanted change chain = none ∧ (∀ bucket ∈ chain, wanted bucket = false) ∨
      ∃ before bucket after, chain = before ++ bucket :: after ∧ wanted bucket = true ∧
        changeFirst wanted change chain =
          some ((change bucket).1, before ++ (change bucket).2 :: after) := by
  induction chain with
  | nil => exact Or.inl ⟨rfl, fun _ member => absurd member List.not_mem_nil⟩
  | cons head chain inductionHypothesis =>
      rw [changeFirst]
      by_cases isWanted : wanted head = true
      · rw [if_pos isWanted]
        exact Or.inr ⟨[], head, chain, rfl, isWanted, rfl⟩
      · rw [if_neg isWanted]
        rw [Bool.not_eq_true] at isWanted
        rcases inductionHypothesis with ⟨none, others⟩ | ⟨before, bucket, after, same, wanted, found⟩
        · rw [none]
          refine Or.inl ⟨rfl, fun bucket member => ?_⟩
          rcases List.mem_cons.mp member with rfl | later
          · exact isWanted
          · exact others bucket later
        · rw [found]
          exact Or.inr ⟨head :: before, bucket, after, by rw [same]; rfl, wanted, rfl⟩

/-- A state has one bucket at most. -/
theorem Sorted.unique (sorted : memo.Sorted sameness) (lawful : sameness.Lawful)
    {one two : Bucket V} (contains : memo.Contains one) (contains' : memo.Contains two)
    (same : sameness.same one.state two.state = true) : one = two := by
  rcases contains with ⟨hash, chain, found, member⟩
  rcases contains' with ⟨hash', chain', found', member'⟩
  have sameHash : hash = hash' := by
    rw [← sorted.hash hash chain found one member, ← sorted.hash hash' chain' found' two member']
    exact lawful.hash same
  subst sameHash
  cases found.symm.trans found'
  have symmetric : Std.Symm fun one two : Bucket V =>
      sameness.same one.state two.state = false := by
    refine ⟨fun one two differs => ?_⟩
    rw [Bool.eq_false_iff] at differs ⊢
    exact fun same => differs (lawful.symm same)
  refine Classical.byContradiction fun different => ?_
  rw [(sorted.apart hash chain found).forall member member' different] at same
  cases same

/-- The other buckets of a chain have states of their own. -/
theorem differs_in_chain (lawful : sameness.Lawful) {before after : List (Bucket V)}
    {bucket other : Bucket V}
    (apart : (before ++ bucket :: after).Pairwise fun one two =>
      sameness.same one.state two.state = false)
    (same : sameness.same bucket.state state = true) (member : other ∈ before ∨ other ∈ after) :
    sameness.same other.state state = false := by
  rcases List.pairwise_append.mp apart with ⟨_, back, across⟩
  rw [Bool.eq_false_iff]
  intro also
  rcases member with inFront | later
  · have differs := across other inFront bucket List.mem_cons_self
    rw [lawful.trans also (lawful.symm same)] at differs
    cases differs
  · have differs := (List.pairwise_cons.mp back).1 other later
    rw [lawful.trans same (lawful.symm also)] at differs
    cases differs

/-- A chain with another bucket of the same state in the place of one. -/
theorem pairwise_exchange {before after : List (Bucket V)} {bucket changed : Bucket V}
    (stays : changed.state = bucket.state)
    (apart : (before ++ bucket :: after).Pairwise fun one two =>
      sameness.same one.state two.state = false) :
    (before ++ changed :: after).Pairwise fun one two =>
      sameness.same one.state two.state = false := by
  rw [List.pairwise_append, List.pairwise_cons] at apart ⊢
  rcases apart with ⟨front, ⟨behind, back⟩, across⟩
  refine ⟨front, ⟨fun other member => stays ▸ behind other member, back⟩, ?_⟩
  intro one inFront other member
  rcases List.mem_cons.mp member with rfl | later
  · rw [stays]
    exact across one inFront bucket List.mem_cons_self
  · exact across one inFront other (List.mem_cons_of_mem _ later)

theorem getElem?_insert_chain (chains : Std.TreeMap Nat (List (Bucket V))) (hash other : Nat)
    (chain : List (Bucket V)) :
    (chains.insert hash chain)[other]? = if hash = other then some chain else chains[other]? := by
  rw [Std.TreeMap.getElem?_insert]
  simp only [Nat.compare_eq_eq]

/-- A chain may be put in that is sorted. -/
theorem Sorted.insert (sorted : memo.Sorted sameness) {hash : Nat} {chain : List (Bucket V)}
    (filled : chain ≠ []) (isHash : ∀ bucket ∈ chain, sameness.hash bucket.state = hash)
    (apart : chain.Pairwise fun one two => sameness.same one.state two.state = false) :
    Sorted ⟨memo.chains.insert hash chain⟩ sameness := by
  constructor
  · intro other found there
    rw [getElem?_insert_chain] at there
    split at there
    · cases there
      exact filled
    · exact sorted.filled other found there
  · intro other found there bucket member
    rw [getElem?_insert_chain] at there
    split at there
    · next same =>
        cases there
        exact (isHash bucket member).trans same
    · exact sorted.hash other found there bucket member
  · intro other found there
    rw [getElem?_insert_chain] at there
    split at there
    · cases there
      exact apart
    · exact sorted.apart other found there

/-- What a memo contains after a chain was put in. -/
theorem contains_insert {hash : Nat} {chain : List (Bucket V)} {bucket : Bucket V} :
    Contains ⟨memo.chains.insert hash chain⟩ bucket ↔ bucket ∈ chain ∨
      ∃ (other : Nat) (found : List (Bucket V)), other ≠ hash ∧ memo.chains[other]? = some found ∧
        bucket ∈ found := by
  simp only [Contains, getElem?_insert_chain]
  constructor
  · rintro ⟨other, found, there, member⟩
    split at there
    · cases there
      exact Or.inl member
    · next different => exact Or.inr ⟨other, found, Ne.symm different, there, member⟩
  · rintro (member | ⟨other, found, different, there, member⟩)
    · exact ⟨hash, chain, if_pos rfl, member⟩
    · exact ⟨other, found, (if_neg (Ne.symm different)).trans there, member⟩

/-- Changing the bucket of a state, if there is one.  The others stay. -/
theorem Sorted.onBucket {α : Type} (sorted : memo.Sorted sameness) (lawful : sameness.Lawful)
    (state : V.State) (change : Bucket V → α × Bucket V)
    (stays : ∀ bucket, (change bucket).2.state = bucket.state) :
    let after := memo.onBucket (sameness.key state) change
    after = (none, memo) ∧
        (∀ bucket, memo.Contains bucket → sameness.same bucket.state state = false) ∨
      ∃ bucket, memo.Contains bucket ∧ sameness.same bucket.state state = true ∧
        after.1 = some (change bucket).1 ∧ after.2.Sorted sameness ∧
        ∀ other, after.2.Contains other ↔ other = (change bucket).2 ∨
          memo.Contains other ∧ sameness.same other.state state = false := by
  -- The bucket of the state is in the chain under its hash, if there is one at all.
  have home : ∀ (hash : Nat) (chain : List (Bucket V)) bucket, memo.chains[hash]? = some chain →
      bucket ∈ chain → sameness.same bucket.state state = true → hash = sameness.hash state :=
    fun hash chain bucket found member same =>
      (sorted.hash hash chain found bucket member).symm.trans (lawful.hash same)
  have isHash : (sameness.key state).hash = sameness.hash state := rfl
  simp only [Memo.onBucket, isHash]
  cases found : memo.chains[sameness.hash state]? with
  | none =>
      refine Or.inl ⟨rfl, ?_⟩
      rintro bucket ⟨hash, chain, there, member⟩
      rw [Bool.eq_false_iff]
      intro same
      rw [home hash chain bucket there member same, found] at there
      cases there
  | some chain =>
      rcases changeFirst_cases (fun bucket => (sameness.key state).isSame bucket.state) change chain
        with ⟨none, others⟩ | ⟨before, bucket, after, rfl, isSame, becomes⟩
      · simp only [none]
        refine Or.inl ⟨trivial, ?_⟩
        rintro bucket ⟨hash, chain', there, member⟩
        by_cases same : sameness.same bucket.state state = true
        · rw [home hash chain' bucket there member same, found] at there
          cases there
          exact others bucket member
        · exact Bool.eq_false_iff.mpr same
      · simp only [becomes]
        have same : sameness.same bucket.state state = true := isSame
        have within : bucket ∈ before ++ bucket :: after :=
          List.mem_append_right _ List.mem_cons_self
        have apart := sorted.apart _ _ found
        refine Or.inr ⟨bucket, ⟨_, _, found, within⟩, same, rfl,
          sorted.insert (List.append_ne_nil_of_right_ne_nil _ (List.cons_ne_nil _ _)) ?_ ?_,
          fun other => ?_⟩
        · intro other member
          rcases List.mem_append.mp member with inFront | later
          · exact sorted.hash _ _ found other (List.mem_append_left _ inFront)
          · rcases List.mem_cons.mp later with rfl | later
            · rw [stays]
              exact sorted.hash _ _ found bucket within
            · exact sorted.hash _ _ found other
                (List.mem_append_right _ (List.mem_cons_of_mem _ later))
        · exact pairwise_exchange (stays bucket) apart
        · rw [contains_insert, List.mem_append, List.mem_cons]
          constructor
          · rintro ((inFront | isChanged | later) | ⟨hash, chain, different, there, member⟩)
            · exact Or.inr ⟨⟨_, _, found, List.mem_append_left _ inFront⟩,
                differs_in_chain lawful apart same (Or.inl inFront)⟩
            · exact Or.inl isChanged
            · exact Or.inr ⟨⟨_, _, found, List.mem_append_right _ (List.mem_cons_of_mem _ later)⟩,
                differs_in_chain lawful apart same (Or.inr later)⟩
            · refine Or.inr ⟨⟨hash, chain, there, member⟩, Bool.eq_false_iff.mpr fun also => ?_⟩
              exact different (home hash chain other there member also)
          · rintro (isChanged | ⟨⟨hash, chain, there, member⟩, differs⟩)
            · exact Or.inl (Or.inr (Or.inl isChanged))
            · by_cases sameHash : hash = sameness.hash state
              · subst sameHash
                cases found.symm.trans there
                rcases List.mem_append.mp member with inFront | later
                · exact Or.inl (Or.inl inFront)
                · rcases List.mem_cons.mp later with rfl | later
                  · rw [same] at differs
                    cases differs
                  · exact Or.inl (Or.inr (Or.inr later))
              · exact Or.inr ⟨hash, chain, sameHash, there, member⟩

/-- A bucket is put behind those under the hash of its state, which have other states. -/
theorem Sorted.append (sorted : memo.Sorted sameness)
    (nothing : ∀ bucket, memo.Contains bucket → sameness.same bucket.state state = false)
    {added : Bucket V} (isState : added.state = state) :
    let after : Memo V := ⟨memo.chains.insert (sameness.hash state)
      ((memo.chains[sameness.hash state]?).getD [] ++ [added])⟩
    after.Sorted sameness ∧ ∀ bucket, after.Contains bucket ↔
      bucket = added ∨ memo.Contains bucket ∧ sameness.same bucket.state state = false := by
  have chain : ∀ bucket, bucket ∈ (memo.chains[sameness.hash state]?).getD [] ↔
      ∃ chain, memo.chains[sameness.hash state]? = some chain ∧ bucket ∈ chain := by
    intro bucket
    cases memo.chains[sameness.hash state]? <;> simp
  constructor
  · refine sorted.insert (List.append_ne_nil_of_right_ne_nil _ (List.cons_ne_nil _ _)) ?_ ?_
    · intro bucket member
      rcases List.mem_append.mp member with old | new
      · rcases (chain bucket).mp old with ⟨chain, found, inside⟩
        exact sorted.hash _ chain found bucket inside
      · rw [List.mem_singleton.mp new, isState]
    · refine List.pairwise_append.mpr ⟨?_, List.pairwise_singleton _ _, fun one old two new => ?_⟩
      · cases found : memo.chains[sameness.hash state]? with
        | none => exact .nil
        | some chain => exact sorted.apart _ chain found
      · rcases (chain one).mp old with ⟨chain, found, inside⟩
        rw [List.mem_singleton.mp new, isState]
        exact nothing one ⟨_, chain, found, inside⟩
  · intro bucket
    rw [contains_insert, List.mem_append, List.mem_singleton, chain]
    constructor
    · rintro ((⟨chain, found, inside⟩ | isAdded) | ⟨hash, chain, _, found, inside⟩)
      · have there : memo.Contains bucket := ⟨_, chain, found, inside⟩
        exact Or.inr ⟨there, nothing bucket there⟩
      · exact Or.inl isAdded
      · have there : memo.Contains bucket := ⟨hash, chain, found, inside⟩
        exact Or.inr ⟨there, nothing bucket there⟩
    · rintro (isAdded | ⟨⟨hash, chain, found, inside⟩, _⟩)
      · exact Or.inl (Or.inr isAdded)
      · by_cases here : hash = sameness.hash state
        · exact Or.inl (Or.inl ⟨chain, here ▸ found, inside⟩)
        · exact Or.inr ⟨hash, chain, here, found, inside⟩

/-! ## What is kept -/

theorem not_contains_empty (bucket : Bucket V) : ¬Contains ({} : Memo V) bucket := by
  rintro ⟨hash, chain, found, _⟩
  rw [Std.TreeMap.getElem?_emptyc] at found
  cases found

theorem maps_empty (sameness : Sameness V) (store : Store) (id : BufferId) :
    Maps ({} : Memo V) sameness store id := by
  have nothing : ∀ (hash : Nat) (chain : List (Bucket V)),
      ({} : Memo V).chains[hash]? ≠ some chain := by
    intro hash chain found
    rw [Std.TreeMap.getElem?_emptyc] at found
    cases found
  exact ⟨⟨fun hash chain found => absurd found (nothing hash chain),
      fun hash chain found => absurd found (nothing hash chain),
      fun hash chain found => absurd found (nothing hash chain)⟩,
    fun bucket contains => absurd contains (not_contains_empty bucket)⟩

/-- What is kept for a state is in the bucket for a state that is the same. -/
theorem Sorted.keeps_iff (sorted : memo.Sorted sameness) (lawful : sameness.Lawful)
    {bucket : Bucket V} (contains : memo.Contains bucket)
    (same : sameness.same bucket.state other = true) (entry : Entry V) :
    memo.Keeps sameness other entry ↔ entry ∈ bucket.live := by
  constructor
  · rintro ⟨bucket', contains', same', live⟩
    have isBucket := sorted.unique lawful contains' contains
      (lawful.trans same' (lawful.symm same))
    exact isBucket ▸ live
  · exact fun live => ⟨bucket, contains, same, live⟩

/-- What a memo keeps after the bucket of a state was changed, or made. -/
theorem keeps_of_contains {after : Memo V} (lawful : sameness.Lawful) {changed : Bucket V}
    (same : sameness.same changed.state state = true)
    (contains : ∀ bucket, after.Contains bucket ↔ bucket = changed ∨
      memo.Contains bucket ∧ sameness.same bucket.state state = false)
    (other : V.State) (entry : Entry V) :
    after.Keeps sameness other entry ↔
      sameness.same other state = true ∧ entry ∈ changed.live ∨
        sameness.same other state = false ∧ memo.Keeps sameness other entry := by
  constructor
  · rintro ⟨bucket, there, isSame, live⟩
    have answer := lawful.congr isSame state
    rcases (contains bucket).mp there with rfl | ⟨old, differs⟩
    · exact Or.inl ⟨answer.symm.trans same, live⟩
    · exact Or.inr ⟨answer.symm.trans differs, bucket, old, isSame, live⟩
  · rintro (⟨isSame, live⟩ | ⟨differs, bucket, old, isSame, live⟩)
    · exact ⟨changed, (contains changed).mpr (Or.inl rfl),
        lawful.trans same (lawful.symm isSame), live⟩
    · have answer := lawful.congr isSame state
      exact ⟨bucket, (contains bucket).mpr (Or.inr ⟨old, answer.trans differs⟩), isSame, live⟩

/-- An entry is for a state that is the same, and starts at a position. -/
def Occupies (sameness : Sameness V) (store : Store) (state : V.State) (start : Position)
    (other : V.State) (entry : Entry V) : Prop :=
  sameness.same other state = true ∧ store.position entry.node.start = start

/-! ## Operations -/

/-- The bucket of a state was changed, and is still a table. -/
theorem Maps.change {after : Memo V} (maps : memo.Maps sameness store id) {changed : Bucket V}
    (sorted : after.Sorted sameness)
    (contains : ∀ bucket, after.Contains bucket ↔ bucket = changed ∨
      memo.Contains bucket ∧ sameness.same bucket.state state = false)
    (tidy : changed.Tidy store (store.buffer id).revision) : after.Maps sameness store id := by
  refine ⟨sorted, fun bucket there => ?_⟩
  rcases (contains bucket).mp there with rfl | ⟨old, _⟩
  · exact tidy
  · exact maps.buckets bucket old

/-- The entries of one bucket were changed at a position.  All that is kept elsewhere stays. -/
theorem keeps_at {after : Memo V} (sorted : memo.Sorted sameness) (lawful : sameness.Lawful)
    {bucket changed : Bucket V} (there : memo.Contains bucket)
    (same : sameness.same bucket.state state = true) (stays : changed.state = bucket.state)
    (contains : ∀ bucket, after.Contains bucket ↔ bucket = changed ∨
      memo.Contains bucket ∧ sameness.same bucket.state state = false)
    (added : Entry V → Prop)
    (live : ∀ entry, entry ∈ changed.live ↔
      added entry ∨ entry ∈ bucket.live ∧ store.position entry.node.start ≠ start)
    (other : V.State) (entry : Entry V) :
    after.Keeps sameness other entry ↔
      sameness.same other state = true ∧ added entry ∨
        memo.Keeps sameness other entry ∧ ¬Occupies sameness store state start other entry := by
  have isSame : sameness.same changed.state state = true := stays ▸ same
  rw [keeps_of_contains lawful isSame contains, live, Occupies]
  cases answer : sameness.same other state with
  | true =>
      have own := sorted.keeps_iff lawful there (lawful.trans same (lawful.symm answer)) entry
      simp [own]
  | false => simp

/-! ## Looking up, dropping and keeping -/

section Operations

variable (maps : memo.Maps sameness store start.buffer) (lawful : sameness.Lawful)
include maps lawful

/-- Finding stamps the entry that is kept for the state at the position. -/
theorem Maps.find_spec (state : V.State) (generation : Nat) :
    let after := memo.find (sameness.key state) store start generation
    after.2.Maps sameness store start.buffer ∧
      match after.1 with
      | none => (∀ other entry, after.2.Keeps sameness other entry ↔ memo.Keeps sameness other entry) ∧
          ∀ entry, memo.Keeps sameness state entry → store.position entry.node.start ≠ start
      | some node => ∃ found, memo.Keeps sameness state found ∧
          store.position found.node.start = start ∧ found.node = node ∧
          ∀ other entry, after.2.Keeps sameness other entry ↔
            sameness.same other state = true ∧ entry = { found with generation } ∨
              memo.Keeps sameness other entry ∧ ¬Occupies sameness store state start other entry := by
  simp only [find]
  rcases maps.sorted.onBucket lawful state
    (fun bucket => bucket.find store start generation)
    (fun bucket => bucket.state_find store start generation) with
    ⟨unchanged, nothing⟩ | ⟨bucket, there, same, answer, sorted, contains⟩
  · rw [unchanged]
    refine ⟨maps, fun _ _ => Iff.rfl, ?_⟩
    rintro entry ⟨bucket, there, same, _⟩
    rw [nothing bucket there] at same
    cases same
  · rw [answer]
    rcases (maps.buckets bucket there).find_spec generation with ⟨tidy, outcome⟩
    have stays := bucket.state_find store start generation
    have keeps := keeps_of_contains lawful (stays.symm ▸ same) contains
    refine ⟨maps.change sorted contains tidy, ?_⟩
    have held := maps.sorted.keeps_iff lawful there same
    generalize bucket.find store start generation = found at outcome stays contains keeps ⊢
    rcases found with ⟨_ | node, changed⟩
    · simp only [Option.join_some] at outcome ⊢
      refine ⟨fun other entry => ?_, fun entry kept => outcome.2 entry ((held entry).mp kept)⟩
      rw [keeps, outcome.1]
      cases answer : sameness.same other state with
      | true =>
          have own := maps.sorted.keeps_iff lawful there
            (lawful.trans same (lawful.symm answer)) entry
          simp [own]
      | false => simp
    · simp only [Option.join_some] at outcome ⊢
      rcases outcome with ⟨found, live, isStart, isNode, entries⟩
      exact ⟨found, (held found).mpr live, isStart, isNode,
        keeps_at maps.sorted lawful there same stays contains _ entries⟩

/-- Erasing takes away what is kept for the state at the position. -/
theorem Maps.erase_spec (state : V.State) :
    let after := memo.erase (sameness.key state) store start
    after.Maps sameness store start.buffer ∧ ∀ other entry, after.Keeps sameness other entry ↔
      memo.Keeps sameness other entry ∧ ¬Occupies sameness store state start other entry := by
  simp only [erase]
  rcases maps.sorted.onBucket lawful state (fun bucket => ((), bucket.erase store start))
    (fun bucket => bucket.state_erase store start) with
    ⟨unchanged, nothing⟩ | ⟨bucket, there, same, _, sorted, contains⟩
  · rw [unchanged]
    refine ⟨maps, fun other entry => ⟨fun kept => ⟨kept, ?_⟩, And.left⟩⟩
    rcases kept with ⟨bucket, there, isSame, _⟩
    rintro ⟨isState, _⟩
    have also := lawful.trans isSame isState
    rw [nothing bucket there] at also
    cases also
  · rcases (maps.buckets bucket there).erase_spec with ⟨tidy, live⟩
    refine ⟨maps.change sorted contains tidy, fun other entry => ?_⟩
    have entries := keeps_at maps.sorted lawful there same (bucket.state_erase store start) contains
      (fun _ => False) (fun entry => (live entry).trans (iff_of_eq (false_or _)).symm) other
      entry
    rw [entries, and_false, false_or]

/-- Inserting puts an entry in the place of what is kept for the state at the position. -/
theorem Maps.insert_spec (state : V.State) {added : Entry V}
    (isStart : store.position added.node.start = start) :
    let after := memo.insert (sameness.key state) store start added
    after.Maps sameness store start.buffer ∧ ∀ other entry, after.Keeps sameness other entry ↔
      sameness.same other state = true ∧ entry = added ∨
        memo.Keeps sameness other entry ∧ ¬Occupies sameness store state start other entry := by
  simp only [insert]
  rcases maps.sorted.onBucket lawful state
    (fun bucket => ((), bucket.insert store start added))
    (fun bucket => bucket.state_insert store start added) with
    ⟨unchanged, nothing⟩ | ⟨bucket, there, same, answer, sorted, contains⟩
  · rw [unchanged]
    have isFresh := Bucket.tidy_fresh state store (store.buffer start.buffer).revision
    rcases isFresh.insert_spec isStart with ⟨tidy, live⟩
    have stays := Bucket.state_insert ⟨state, (store.buffer start.buffer).revision, {}, #[], []⟩ store
      start added
    rcases maps.sorted.append nothing stays with ⟨sorted, contains⟩
    refine ⟨maps.change sorted contains tidy, fun other entry => ?_⟩
    refine Iff.trans (keeps_of_contains lawful (stays.symm ▸ lawful.refl state) contains other
      entry) ?_
    rw [live]
    simp only [Bucket.live, List.filterMap_nil, List.not_mem_nil, false_and, or_false]
    refine or_congr_right ⟨?_, ?_⟩
    · rintro ⟨differs, kept⟩
      refine ⟨kept, fun occupies => ?_⟩
      rw [occupies.1] at differs
      cases differs
    · rintro ⟨kept, _⟩
      refine ⟨?_, kept⟩
      rcases kept with ⟨bucket, there, same, _⟩
      rw [← lawful.congr same]
      exact nothing bucket there
  · rcases (maps.buckets bucket there).insert_spec isStart with ⟨tidy, live⟩
    generalize memo.onBucket (sameness.key state) (fun bucket => ((), bucket.insert store start added))
      = outcome at answer sorted contains ⊢
    rcases outcome with ⟨isSome, changed⟩
    cases answer
    exact ⟨maps.change sorted contains tidy,
      keeps_at maps.sorted lawful there same (bucket.state_insert store start added) contains _ live⟩

end Operations

/-! ## Dropping entries -/

section Dropping

variable {doomed : Entry V → Bool} {bucket : Bucket V}

/-- What is left of a bucket. -/
theorem of_contains_dropWhere (contains : (memo.dropWhere doomed).Contains bucket) :
    ∃ old, memo.Contains old ∧ bucket = old.dropWhere doomed := by
  rcases contains with ⟨other, chain, found, member⟩
  simp only [dropWhere, Std.TreeMap.getElem?_filterMap', Option.bind_eq_some_iff] at found
  rcases found with ⟨old, there, kept⟩
  split at kept
  · cases kept
  · cases kept
    rcases List.mem_map.mp (List.mem_filter.mp member).1 with ⟨before, inside, same⟩
    exact ⟨before, ⟨other, old, there, inside⟩, same.symm⟩

/-- A bucket is left, unless nothing is left in it. -/
theorem contains_dropWhere (contains : memo.Contains bucket)
    (left : (bucket.dropWhere doomed).live ≠ []) :
    (memo.dropWhere doomed).Contains (bucket.dropWhere doomed) := by
  rcases contains with ⟨hash, chain, found, member⟩
  have kept : bucket.dropWhere doomed ∈ (chain.map (·.dropWhere doomed)).filter
      fun bucket => !bucket.live.isEmpty := by
    refine List.mem_filter.mpr ⟨List.mem_map_of_mem member, ?_⟩
    rw [Bool.not_eq_true', List.isEmpty_eq_false_iff]
    exact left
  refine ⟨hash, _, ?_, kept⟩
  simp only [dropWhere, Std.TreeMap.getElem?_filterMap', found, Option.bind_some]
  rw [if_neg]
  rw [List.isEmpty_iff]
  exact List.ne_nil_of_mem kept

theorem Sorted.dropWhere (sorted : memo.Sorted sameness) :
    (memo.dropWhere doomed).Sorted sameness := by
  have origin : ∀ (hash : Nat) (chain : List (Bucket V)),
      (memo.dropWhere doomed).chains[hash]? = some chain → chain ≠ [] ∧
        ∃ old, memo.chains[hash]? = some old ∧ chain.Sublist (old.map (·.dropWhere doomed)) := by
    intro hash chain found
    simp only [Memo.dropWhere, Std.TreeMap.getElem?_filterMap', Option.bind_eq_some_iff] at found
    rcases found with ⟨old, there, kept⟩
    split at kept
    · cases kept
    · next some =>
        cases kept
        exact ⟨fun none => some (List.isEmpty_iff.mpr none), old, there, List.filter_sublist⟩
  refine ⟨fun hash chain found => (origin hash chain found).1,
    fun hash chain found bucket member => ?_, fun hash chain found => ?_⟩
  · rcases (origin hash chain found).2 with ⟨old, there, sublist⟩
    rcases List.mem_map.mp (sublist.subset member) with ⟨before, inside, rfl⟩
    exact sorted.hash hash old there before inside
  · rcases (origin hash chain found).2 with ⟨old, there, sublist⟩
    exact (List.pairwise_map.mpr (sorted.apart hash old there)).sublist sublist

theorem Maps.dropWhere (maps : memo.Maps sameness store id) :
    (memo.dropWhere doomed).Maps sameness store id := by
  refine ⟨maps.sorted.dropWhere, fun bucket contains => ?_⟩
  rcases of_contains_dropWhere contains with ⟨old, contained, rfl⟩
  exact (maps.buckets old contained).dropWhere doomed

/-- What is dropped is not kept any more, and all else is. -/
theorem keeps_dropWhere : (memo.dropWhere doomed).Keeps sameness state entry ↔
    memo.Keeps sameness state entry ∧ doomed entry = false := by
  constructor
  · rintro ⟨bucket, contains, same, live⟩
    rcases of_contains_dropWhere contains with ⟨old, contained, rfl⟩
    rcases (old.mem_live_dropWhere doomed entry).mp live with ⟨held, spared⟩
    exact ⟨⟨old, contained, same, held⟩, spared⟩
  · rintro ⟨⟨bucket, contains, same, live⟩, spared⟩
    have left := (bucket.mem_live_dropWhere doomed entry).mpr ⟨live, spared⟩
    exact ⟨bucket.dropWhere doomed, contains_dropWhere contains (List.ne_nil_of_mem left), same, left⟩

end Dropping

/-- Cursors may be added while a memo is in use. -/
theorem Maps.congr {store' : Store} (maps : memo.Maps sameness store id)
    (revision : (store'.buffer id).revision = (store.buffer id).revision)
    (same : ∀ bucket, memo.Contains bucket → ∀ entry ∈ bucket.live,
      store'.position entry.node.start = store.position entry.node.start) :
    memo.Maps sameness store' id := by
  refine ⟨maps.sorted, fun bucket contains => ?_⟩
  rw [revision]
  exact (maps.buckets bucket contains).congr (same bucket contains)

/-- One entry is kept for a state and a position. -/
theorem Maps.unique {entry' : Entry V} (maps : memo.Maps sameness store id) (lawful : sameness.Lawful)
    (keeps : memo.Keeps sameness state entry) (keeps' : memo.Keeps sameness state entry')
    (same : store.position entry.node.start = store.position entry'.node.start) :
    entry = entry' := by
  rcases keeps with ⟨bucket, contains, isState, live⟩
  have live' := (maps.sorted.keeps_iff lawful contains isState entry').mp keeps'
  rcases Bucket.mem_live.mp live with ⟨slot, stores⟩
  rcases Bucket.mem_live.mp live' with ⟨slot', stores'⟩
  have sameSlot := (maps.buckets bucket contains).distinct slot slot' entry entry' _ stores
    stores' (congrArg some same) rfl
  subst sameSlot
  exact Option.some.inj (Option.some.inj (stores.symm.trans stores'))

/-! ## Counting -/

/-- What is kept, with the states that it was kept for first. -/
def rows (memo : Memo V) : List (V.State × Entry V) :=
  memo.buckets.flatMap fun bucket => bucket.live.map (Prod.mk bucket.state)

theorem map_snd_rows (memo : Memo V) : memo.rows.map Prod.snd = memo.entries := by
  simp only [rows, entries, List.map_flatMap, List.map_map, Function.comp_def, List.map_id']

theorem mem_buckets {bucket : Bucket V} : bucket ∈ memo.buckets ↔ memo.Contains bucket := by
  simp only [buckets, Contains, List.mem_flatMap, Prod.exists,
    Std.TreeMap.mem_toList_iff_getElem?_eq_some]

theorem mem_rows : (state, entry) ∈ memo.rows ↔ memo.Holds state entry := by
  simp only [rows, List.mem_flatMap, mem_buckets, List.mem_map, Prod.mk.injEq, Holds]
  constructor
  · rintro ⟨bucket, contains, entry, live, rfl, rfl⟩
    exact ⟨bucket, contains, rfl, live⟩
  · rintro ⟨bucket, contains, rfl, live⟩
    exact ⟨bucket, contains, entry, live, rfl, rfl⟩

/-- Buckets of one chain have states of their own, and those of different chains have different
hashes. -/
theorem Sorted.pairwise_buckets (sorted : memo.Sorted sameness) (lawful : sameness.Lawful) :
    memo.buckets.Pairwise fun one two => sameness.same one.state two.state = false := by
  have found : ∀ {pair : Nat × List (Bucket V)}, pair ∈ memo.chains.toList →
      memo.chains[pair.1]? = some pair.2 := Std.TreeMap.mem_toList_iff_getElem?_eq_some.mp
  refine List.pairwise_flatMap.mpr ⟨fun pair member => sorted.apart _ _ (found member), ?_⟩
  refine memo.chains.distinct_keys_toList.imp_of_mem fun {one two} inOne inTwo different => ?_
  intro bucket member bucket' member'
  rw [Bool.eq_false_iff]
  intro same
  refine different ?_
  rw [← sorted.hash _ _ (found inOne) bucket member, ← sorted.hash _ _ (found inTwo) bucket' member',
    lawful.hash same]
  exact Std.ReflCmp.compare_self

/-- Each row is for a state and a position of its own. -/
theorem Maps.pairwise_rows (maps : memo.Maps sameness store id) (lawful : sameness.Lawful) :
    memo.rows.Pairwise fun one two => sameness.same one.1 two.1 = true →
      store.position one.2.node.start ≠ store.position two.2.node.start := by
  refine List.pairwise_flatMap.mpr ⟨fun bucket member => ?_, ?_⟩
  · have distinct := (maps.buckets bucket (mem_buckets.mp member)).distinct
    have apart : (bucket.live.map fun entry => store.position entry.node.start).Nodup :=
      Bucket.nodup_live fun slot slot' entry entry' stores stores' same =>
        distinct slot slot' entry entry' _ stores stores' (congrArg some same) rfl
    refine List.pairwise_map.mpr ((List.pairwise_map.mp apart).imp ?_)
    exact fun {one two} different _ => different
  · refine (maps.sorted.pairwise_buckets lawful).imp fun {bucket bucket'} different => ?_
    intro one member two member' same
    rcases List.mem_map.mp member with ⟨entry, _, rfl⟩
    rcases List.mem_map.mp member' with ⟨entry', _, rfl⟩
    rw [different] at same
    cases same

end Memo

end Reparse
