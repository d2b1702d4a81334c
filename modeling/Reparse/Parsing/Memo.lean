import Std.Data.TreeMap
import Reparse.Parsing.Grammar

/-!
# The memo of a rule

The results of a rule are kept in buckets, one for each state that the rule was
invoked with.  A state is looked up by its hash, and then compared with the
states of all buckets under that hash.

A bucket finds a result by the position where it starts.  The index from
positions to slots goes out of date when an edit moves cursors, and it is made
again from the starts of the stored nodes as soon as the revision of the buffer
is seen to have changed.  Where two nodes have come to start at one position the
index takes the later slot, and the other node is found no more until it is
dropped.  Freed slots are used again, the last one first.

Each entry is stamped with the generation that stored or found it last.
-/

namespace Reparse

/-- Positions are ordered by buffer, then by leaf, then by offset. -/
def Position.order : Position → Position → Ordering :=
  compareLex (compareOn fun position => position.buffer)
    (compareLex (compareOn fun position => position.place.leaf)
      (compareOn fun position => position.place.offset))

instance : Ord Position := ⟨Position.order⟩

instance : Std.TransOrd Position :=
  inferInstanceAs (Std.TransCmp (compareLex _ (compareLex _ _)))

instance : Std.LawfulEqOrd Position where
  eq_of_compare := by
    rintro ⟨_, _, _⟩ ⟨_, _, _⟩ same
    change Position.order _ _ = .eq at same
    simp only [Position.order, compareLex, compareOn, Ordering.then_eq_eq,
      Nat.compare_eq_eq] at same
    obtain ⟨rfl, rfl, rfl⟩ := same
    rfl

variable {V : Vocabulary}

/-- A stored node. -/
structure Entry (V : Vocabulary) where
  node : V.Node
  generation : Nat

/-- The results of a rule for one state. -/
structure Bucket (V : Vocabulary) where
  state : V.State
  revision : Nat
  index : Std.TreeMap Position Nat := {}
  entries : Array (Option (Entry V)) := #[]
  free : List Nat := []

namespace Bucket

def live (bucket : Bucket V) : List (Entry V) := bucket.entries.toList.filterMap id

/-- The index from the current starts of all entries. -/
def reindex (bucket : Bucket V) (store : Store) : Std.TreeMap Position Nat :=
  bucket.entries.toList.zipIdx.foldl
    (fun index (entry, slot) =>
      match entry with
      | some stored => index.insert (store.position stored.node.start) slot
      | none => index) {}

/-- Bring the index up to a revision of the buffer. -/
def refresh (bucket : Bucket V) (store : Store) (revision : Nat) : Bucket V :=
  if bucket.revision = revision then bucket
  else { bucket with revision, index := bucket.reindex store }

/-- The slot of the entry that starts at a position.  The index is only a hint:
a cursor may have moved on without a new revision. -/
def slot? (bucket : Bucket V) (store : Store) (start : Position) : Option Nat := do
  let slot ← bucket.index[start]?
  let entry ← bucket.entries[slot]?.join
  if store.position entry.node.start = start then some slot else none

/-- Find the node that starts at a position, and stamp its entry. -/
def find (bucket : Bucket V) (store : Store) (start : Position) (generation : Nat) :
    Option V.Node × Bucket V :=
  let current := bucket.refresh store (store.buffer start.buffer).revision
  match current.slot? store start with
  | some slot =>
    let node := (current.entries[slot]?.join).map Entry.node
    let entries := current.entries.modify slot (·.map ({ · with generation }))
    (node, { current with entries })
  | none => (none, current)

/-- Drop the node that starts at a position. -/
def erase (bucket : Bucket V) (store : Store) (start : Position) : Bucket V :=
  let current := bucket.refresh store (store.buffer start.buffer).revision
  match current.slot? store start with
  | some slot =>
    { current with
      index := current.index.erase start
      entries := current.entries.setIfInBounds slot none
      free := slot :: current.free }
  | none => current

/-- Store a node.  The slot that the index has for its start is overwritten, or
else a free one is used, or else a new one. -/
def insert (bucket : Bucket V) (store : Store) (start : Position) (entry : Entry V) : Bucket V :=
  let current := bucket.refresh store (store.buffer start.buffer).revision
  match current.index[start]?, current.free with
  | some slot, _ => { current with entries := current.entries.setIfInBounds slot (some entry) }
  | none, slot :: free =>
    { current with
      index := current.index.insert start slot
      entries := current.entries.setIfInBounds slot (some entry)
      free }
  | none, [] =>
    { current with
      index := current.index.insert start current.entries.size
      entries := current.entries.push (some entry) }

/-- Drop the entries of a kind, and what the index has for them. -/
def dropWhere (bucket : Bucket V) (doomed : Entry V → Bool) : Bucket V :=
  let isDoomed (entry : Option (Entry V)) := entry.any doomed
  let entries := bucket.entries.map fun entry => if isDoomed entry then none else entry
  let freed := bucket.entries.toList.zipIdx.filterMap fun (entry, slot) =>
    if isDoomed entry then some slot else none
  { bucket with
    entries
    index := bucket.index.filter fun _ slot => (entries[slot]?.join).isSome
    free := freed.reverse ++ bucket.free }

end Bucket

/-- How a state is looked up: by its hash, and by comparing. -/
structure StateKey (V : Vocabulary) where
  state : V.State
  hash : Nat
  isSame : V.State → Bool

namespace Grammar

def stateKey (grammar : Grammar V) (state : V.State) : StateKey V where
  state := state
  hash := grammar.hash state
  isSame other := grammar.sameState other state

end Grammar

/-- The results of one rule. -/
structure Memo (V : Vocabulary) where
  chains : Std.TreeMap Nat (List (Bucket V)) := {}

namespace Memo

/-- Change the first bucket of a kind, and answer what the change answers. -/
def changeFirst {α : Type} (wanted : Bucket V → Bool) (change : Bucket V → α × Bucket V) :
    List (Bucket V) → Option (α × List (Bucket V))
  | [] => none
  | bucket :: rest =>
    if wanted bucket then
      let (answer, changed) := change bucket
      some (answer, changed :: rest)
    else
      match changeFirst wanted change rest with
      | some (answer, changed) => some (answer, bucket :: changed)
      | none => none

/-- Change the bucket of a state, if there is one. -/
def onBucket {α : Type} (memo : Memo V) (key : StateKey V) (change : Bucket V → α × Bucket V) :
    Option α × Memo V :=
  match memo.chains[key.hash]? with
  | none => (none, memo)
  | some chain =>
    match changeFirst (fun bucket => key.isSame bucket.state) change chain with
    | some (answer, changed) => (some answer, ⟨memo.chains.insert key.hash changed⟩)
    | none => (none, memo)

/-- The node kept for a state at a position. -/
def find (memo : Memo V) (key : StateKey V) (store : Store) (start : Position)
    (generation : Nat) : Option V.Node × Memo V :=
  let (found, changed) := memo.onBucket key (·.find store start generation)
  (found.join, changed)

/-- Drop the node kept for a state at a position. -/
def erase (memo : Memo V) (key : StateKey V) (store : Store) (start : Position) : Memo V :=
  (memo.onBucket key fun bucket => ((), bucket.erase store start)).2

/-- Keep a node for a state at a position. -/
def insert (memo : Memo V) (key : StateKey V) (store : Store) (start : Position)
    (entry : Entry V) : Memo V :=
  match memo.onBucket key fun bucket => ((), bucket.insert store start entry) with
  | (some _, changed) => changed
  | (none, _) =>
    let fresh : Bucket V := ⟨key.state, (store.buffer start.buffer).revision, {}, #[], []⟩
    let chain := (memo.chains[key.hash]?).getD []
    ⟨memo.chains.insert key.hash (chain ++ [fresh.insert store start entry])⟩

/-- Drop the entries of a kind, and then the buckets that are left empty. -/
def dropWhere (memo : Memo V) (doomed : Entry V → Bool) : Memo V :=
  ⟨memo.chains.filterMap fun _ chain =>
    let kept := (chain.map (·.dropWhere doomed)).filter fun bucket => !bucket.live.isEmpty
    if kept.isEmpty then none else some kept⟩

def buckets (memo : Memo V) : List (Bucket V) := memo.chains.toList.flatMap Prod.snd

def entries (memo : Memo V) : List (Entry V) := memo.buckets.flatMap Bucket.live

end Memo

end Reparse
