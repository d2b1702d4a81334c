import Reparse.Parsing.Memo

/-!
# Parser sessions

A session is what a parser remembers from one parse to the next: the texts it
works on, a memo for each rule, and its counters.

A node that was kept is used again unless it has gone stale.  It is stale when
its end was cut out of the document, or when the caller's predicate says so of
its span.  A stale node is dropped as soon as it is met, and may also be
dropped before a parse begins.

Sweeping clears out what a parse did not need.  A generation begins, the parse
stamps every entry that it stores or uses, and the sweep drops the entries
without that stamp.  It spares those that lie inside a node that was used
again, since the parse had no reason to visit them.
-/

namespace Reparse

/-- How often a kept node was used again, was missing, or was found stale. -/
structure Stats where
  hits : Nat := 0
  misses : Nat := 0
  invalidations : Nat := 0
deriving DecidableEq, Repr

/-- Number of rule invocations that were not answered from a memo. -/
def Stats.executions (stats : Stats) : Nat := stats.misses + stats.invalidations

/-- A line of the log of a parser: a node was made, or a kept one was used again,
at a span of the text as it was then. -/
inductive Note where
  | made (id : Nat) (span : Range)
  | reused (id : Nat) (span : Range)
deriving DecidableEq, Repr

/-- The state of a parser.  `reused` holds the spans of the nodes used again in
the current generation, the latest first.  `refused` holds the numbers of the
nodes that stand for bodies not run because of their depth.  `consulted` counts
how often the caller's predicate was asked.  `journal` is the log of the current
generation, the latest line first.  A session is `endless` when a body in it
would have gone on for ever.  The program never answers again from there, so
nothing that such a session holds is an answer of the program. -/
structure Session (V : Vocabulary) where
  store : Store := {}
  nextId : Nat := 0
  memos : List (V.Rule × Memo V) := []
  stats : Stats := {}
  generation : Nat := 0
  reused : Option (List Range) := none
  refused : List Nat := []
  consulted : Nat := 0
  journal : List Note := []
  endless : Bool := false

namespace Session

variable {V : Vocabulary}

/-- Change the memo of a rule, which is empty at first. -/
def onMemo {α : Type} (session : Session V) (rule : V.Rule) (change : Memo V → α × Memo V) :
    α × Session V :=
  let (answer, changed) := change ((session.memos.lookup rule).getD {})
  let others := session.memos.filter fun (other, _) => decide (other ≠ rule)
  (answer, { session with memos := (rule, changed) :: others })

def entries (session : Session V) : List (Entry V) :=
  session.memos.flatMap fun (_, memo) => memo.entries

/-- Number of nodes kept for all rules. -/
def cachedNodes (session : Session V) : Nat := session.entries.length

def countHit (session : Session V) : Session V :=
  { session with stats := { session.stats with hits := session.stats.hits + 1 } }

def countMiss (session : Session V) : Session V :=
  { session with stats := { session.stats with misses := session.stats.misses + 1 } }

def countInvalidations (session : Session V) (count : Nat) : Session V :=
  { session with
    stats := { session.stats with invalidations := session.stats.invalidations + count } }

/-- The node kept for an invocation, if it may be used again, and the position
after it. -/
def reuse (session : Session V) (rule : V.Rule) (key : StateKey V) (start : Position)
    (isStale : Range → Bool) : Option (V.Node × Position) × Session V :=
  let generation := session.generation
  let store := session.store
  match session.onMemo rule (·.find key store start generation) with
  | (none, searched) => (none, searched.countMiss)
  | (some node, searched) =>
    let stop := store.position node.stop
    let range : Range := ⟨store.indexOf start, store.indexOf stop⟩
    let attached := store.sameDocument start stop
    let asked :=
      if attached then { searched with consulted := searched.consulted + 1 } else searched
    if !attached || isStale range then
      let ((), dropped) := asked.onMemo rule fun memo => ((), memo.erase key store start)
      (none, dropped.countInvalidations 1)
    else
      let reused := asked.reused.map (range :: ·)
      let journal := .reused node.id range :: asked.journal
      (some (node, stop), { asked with reused, journal }.countHit)

/-- Make a node of what a rule has made, and keep it. -/
def keep (session : Session V) (rule : V.Rule) (key : StateKey V) (start stop : Position)
    (content : Content V.Label V.Skip) (before after : List V.Skip) : V.Node × Session V :=
  let span : Range := ⟨session.store.indexOf start, session.store.indexOf stop⟩
  let (first, withFirst) := session.store.cursorAt start
  let (last, store) := withFirst.cursorAt stop
  let origin := ⟨first, last, span.stop - span.start, session.nextId, before, after⟩
  let node : V.Node := .node content.label content.children origin
  let entry : Entry V := ⟨node, session.generation⟩
  let journal := .made session.nextId span :: session.journal
  let grown := { session with store, nextId := session.nextId + 1, journal }
  let ((), kept) := grown.onMemo rule fun memo => ((), memo.insert key store start entry)
  (node, kept)

/-- Drop all entries of a kind, and answer how many there were. -/
def dropWhere (session : Session V) (doomed : Entry V → Bool) : Nat × Session V :=
  let memos := session.memos.map fun (rule, memo) => (rule, memo.dropWhere doomed)
  let dropped := { session with memos }
  (session.cachedNodes - dropped.cachedNodes, dropped)

/-- Drop every node of a kind, whether or not a later parse would meet it. -/
def evict (session : Session V) (isStale : V.Node → Bool) : Nat × Session V :=
  let (evicted, dropped) := session.dropWhere fun entry => isStale entry.node
  (evicted, dropped.countInvalidations evicted)

/-- Begin a generation. -/
def beginSweep (session : Session V) : Session V :=
  { session with generation := session.generation + 1, reused := some [], journal := [] }

/-- Join spans, given from left to right, that overlap by at least a character.
The answer runs from right to left. -/
def joinRange : List Range → Range → List Range
  | [], range => [range]
  | last :: done, range =>
    if range.start < last.stop then ⟨last.start, max last.stop range.stop⟩ :: done
    else range :: last :: done

def rangeLe (first second : Range) : Bool :=
  decide (first.start < second.start) ||
    (decide (first.start = second.start) && decide (first.stop ≤ second.stop))

/-- The stretches of text that reused nodes cover, from right to left. -/
def covered (reused : List Range) : List Range :=
  (sortBy rangeLe reused.reverse).foldl joinRange []

/-- A span starts inside the last stretch that begins no later, and ends there.
A node that starts at the end of a stretch belongs to what follows it. -/
def isCovered (stretches : List Range) (span : Range) : Bool :=
  match stretches.find? fun stretch => decide (stretch.start ≤ span.start) with
  | some stretch => decide (span.start < stretch.stop) && decide (span.stop ≤ stretch.stop)
  | none => false

/-- Drop the entries that no parse of this generation has stored or used, and
that lie outside the nodes it used.  If none has begun nothing is dropped. -/
def sweep (session : Session V) : Nat × Session V :=
  match session.reused with
  | none => (0, session)
  | some reused =>
    let stretches := covered reused
    let generation := session.generation
    let store := session.store
    { session with reused := none }.dropWhere fun entry =>
      decide (entry.generation ≠ generation) && !isCovered stretches (entry.node.range store)

/-- Forget every node. -/
def clearCache (session : Session V) : Session V := { session with memos := [] }

def resetStats (session : Session V) : Session V := { session with stats := {} }

end Session

end Reparse
