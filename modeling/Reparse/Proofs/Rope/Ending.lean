import Reparse.Proofs.Rope.Sharing

/-!
# Where walks end

In every buffer a climb ends, since parents have larger numbers than their children, and a
walk of a given number of characters ends, since a leaf that follows another one has text.
The way from leaf to leaf need not end.  A climb goes up by the newest parents, the descent
after it goes down by children that were fixed before, and the two may belong to different
versions.

Whether the way from a leaf ends can be told from the reads that start there.  It ends
exactly if they are bounded, and otherwise a read returns as many characters as were asked
for, however many that are.

In a newest rope the way ends after as many steps as the rope has leaves, in both
directions, and no read returns more than the text.  A leaf that is joined with a tree that
starts with this leaf follows itself, and one that is joined to a tree that ends with it
precedes itself.
-/

namespace Reparse

/-- The leaf that is reached from a leaf in a number of steps, if the way is that long. -/
def follow (step : NodeId → Option NodeId) : Nat → NodeId → Option NodeId
  | 0, leaf => some leaf
  | steps + 1, leaf => step leaf >>= follow step steps

/-- The way from a leaf never comes to a last leaf. -/
def Endless (step : NodeId → Option NodeId) (leaf : NodeId) : Prop :=
  ∀ steps, (follow step steps leaf).isSome

section Ways

variable {step : NodeId → Option NodeId} {leaf next : NodeId}

theorem follow_succ (onward : step leaf = some next) (steps : Nat) :
    follow step (steps + 1) leaf = follow step steps next := by
  rw [follow, onward]
  rfl

theorem Endless.onward (endless : Endless step leaf) :
    ∃ next, step leaf = some next ∧ Endless step next := by
  cases onward : step leaf with
  | none =>
      have first := endless 1
      simp only [follow, onward, Option.bind_eq_bind, Option.bind_none, Option.isSome_none,
        Bool.false_eq_true] at first
  | some next =>
      refine ⟨next, rfl, fun steps => ?_⟩
      rw [← follow_succ onward]
      exact endless (steps + 1)

/-- A leaf that follows itself goes on for ever. -/
theorem endless_of_self (self : step leaf = some leaf) : Endless step leaf := by
  intro steps
  induction steps with
  | zero => rfl
  | succ steps inductionHypothesis => rwa [follow_succ self]

end Ways

namespace Buffer

variable {buffer : Buffer}

/-! ## Climbs and walks end in every buffer -/

/-- A climb takes no more steps than there are nodes with larger numbers.  What holds at a root
with any fuel, and is carried down from a parent with one more, holds where the fuel suffices. -/
theorem WellFormed.climb (formed : buffer.WellFormed) {motive : Nat → NodeId → Prop}
    (atRoot : ∀ fuel node, buffer.parent node = none → motive fuel node)
    (below : ∀ fuel node parent, buffer.parent node = some parent → motive fuel parent →
      motive (fuel + 1) node) {fuel : Nat} {node : NodeId}
    (enough : buffer.nodeCount ≤ fuel + node) : motive fuel node := by
  induction fuel generalizing node with
  | zero =>
      rw [Nat.zero_add] at enough
      exact atRoot 0 node (buffer.parent_eq_none_of_le enough)
  | succ fuel inductionHypothesis =>
      cases owned : buffer.parent node with
      | none => exact atRoot (fuel + 1) node owned
      | some parent =>
          have above := formed.lt_of_parent owned
          exact below fuel node parent owned (inductionHypothesis (by lia))

theorem WellFormed.nextLeafWithin_add (formed : buffer.WellFormed) {fuel : Nat} {node : NodeId}
    (enough : buffer.nodeCount ≤ fuel + node) (extra : Nat) :
    buffer.nextLeafWithin (fuel + extra) node = buffer.nextLeafWithin fuel node := by
  refine formed.climb
    (motive := fun fuel node =>
      buffer.nextLeafWithin (fuel + extra) node = buffer.nextLeafWithin fuel node)
    ?_ ?_ enough
  · intro fuel node loose
    have ends : ∀ fuel, buffer.nextLeafWithin fuel node = none := by
      intro fuel
      cases fuel <;> simp only [nextLeafWithin, loose]
    rw [ends, ends]
  · intro fuel node parent owned same
    rw [Nat.succ_add_eq_add_succ, Nat.add_succ]
    simp only [nextLeafWithin, owned, same]

theorem WellFormed.prevLeafWithin_add (formed : buffer.WellFormed) {fuel : Nat} {node : NodeId}
    (enough : buffer.nodeCount ≤ fuel + node) (extra : Nat) :
    buffer.prevLeafWithin (fuel + extra) node = buffer.prevLeafWithin fuel node := by
  refine formed.climb
    (motive := fun fuel node =>
      buffer.prevLeafWithin (fuel + extra) node = buffer.prevLeafWithin fuel node)
    ?_ ?_ enough
  · intro fuel node loose
    have ends : ∀ fuel, buffer.prevLeafWithin fuel node = none := by
      intro fuel
      cases fuel <;> simp only [prevLeafWithin, loose]
    rw [ends, ends]
  · intro fuel node parent owned same
    rw [Nat.succ_add_eq_add_succ, Nat.add_succ]
    simp only [prevLeafWithin, owned, same]

/-- More fuel does not take a walk forward any further. -/
theorem WellFormed.forwardWithin_add (formed : buffer.WellFormed) {fuel count : Nat}
    {place : Place} (has : buffer.HasPlace place) (running : 0 < fuel)
    (enough : count < fuel + (buffer.length place.leaf - place.offset)) (extra : Nat) :
    buffer.forwardWithin (fuel + extra) place count = buffer.forwardWithin fuel place count := by
  induction fuel generalizing place count with
  | zero => cases running
  | succ fuel inductionHypothesis =>
      have size := has.size_leafText
      rw [Nat.succ_add_eq_add_succ, Nat.add_succ]
      simp only [forwardWithin, size]
      split
      · rfl
      · next short =>
          cases follows : buffer.nextLeaf place.leaf with
          | none => rfl
          | some next =>
              have positive := formed.length_nextLeafWithin_pos follows
              have left : count - min count (buffer.length place.leaf - place.offset) <
                  fuel + (buffer.length next - 0) := by omega
              have walk := inductionHypothesis (formed.hasPlace_nextLeafWithin follows) (by omega) left
              simp only [walk]

/-- More fuel does not take a walk backward any further. -/
theorem WellFormed.backwardWithin_add (formed : buffer.WellFormed) {fuel count : Nat}
    {place : Place} (running : 0 < fuel) (enough : count < fuel + place.offset) (extra : Nat) :
    buffer.backwardWithin (fuel + extra) place count = buffer.backwardWithin fuel place count := by
  induction fuel generalizing place count with
  | zero => cases running
  | succ fuel inductionHypothesis =>
      rw [Nat.succ_add_eq_add_succ, Nat.add_succ, backwardWithin, backwardWithin]
      split
      · rfl
      · next short =>
          cases precedes : buffer.prevLeaf place.leaf with
          | none => rfl
          | some prev =>
              have positive := formed.length_prevLeafWithin_pos precedes
              exact inductionHypothesis (by omega) (by simp only; omega)

/-! ## Bounded reads and endless ways -/

theorem length_forward_le (place : Place) (count : Nat) :
    (buffer.forward place count).1.length ≤ count := by
  rw [forward]
  generalize count + 2 = fuel
  induction fuel generalizing place count with
  | zero => exact Nat.zero_le _
  | succ fuel inductionHypothesis =>
      have taken : ∀ amount, ((buffer.leafText place.leaf).extract place.offset
          (place.offset + amount)).toList.length ≤ amount := by
        intro amount
        simp only [Array.length_toList, Array.size_extract]
        omega
      simp only [forwardWithin]
      split
      · next whole =>
          exact Nat.le_trans (taken _) (Nat.le_of_eq whole.symm)
      · cases follows : buffer.nextLeaf place.leaf with
        | none => exact Nat.le_trans (taken _) (Nat.min_le_left _ _)
        | some next =>
            have first := taken (min count ((buffer.leafText place.leaf).size - place.offset))
            have rest := inductionHypothesis ⟨next, 0⟩
              (count - min count ((buffer.leafText place.leaf).size - place.offset))
            simp only [List.length_append]
            omega

/-- On an endless way a read returns as much as was asked for. -/
theorem WellFormed.length_forward_of_endless (formed : buffer.WellFormed) {place : Place}
    (has : buffer.HasPlace place) (endless : Endless buffer.nextLeaf place.leaf) (count : Nat) :
    (buffer.forward place count).1.length = count := by
  have walk : ∀ fuel (place : Place) count, buffer.HasPlace place →
      Endless buffer.nextLeaf place.leaf → 0 < fuel →
      count < fuel + (buffer.length place.leaf - place.offset) →
      (buffer.forwardWithin fuel place count).1.length = count := by
    intro fuel
    induction fuel with
    | zero =>
        intro place count _ _ running
        cases running
    | succ fuel inductionHypothesis =>
        intro place count has endless _ enough
        have size := has.size_leafText
        rcases endless.onward with ⟨next, follows, onward⟩
        have positive := formed.length_nextLeafWithin_pos follows
        simp only [forwardWithin, size, follows]
        split
        · simp only [Array.length_toList, Array.size_extract, size]
          omega
        · have rest := inductionHypothesis ⟨next, 0⟩
            (count - min count (buffer.length place.leaf - place.offset))
            (formed.hasPlace_nextLeafWithin follows) onward (by omega) (by simp only; omega)
          simp only [List.length_append, rest, Array.length_toList, Array.size_extract, size]
          omega
  exact walk _ place count has endless (Nat.succ_pos _) (by omega)

/-- Where the way comes to a last leaf, no read returns more than the leaves on it hold. -/
theorem forward_bounded {steps : Nat} {leaf : NodeId}
    (ends : follow buffer.nextLeaf steps leaf = none) :
    ∃ bound, ∀ offset count, (buffer.forward ⟨leaf, offset⟩ count).1.length ≤ bound := by
  have walk : ∃ bound, ∀ fuel offset count,
      (buffer.forwardWithin fuel ⟨leaf, offset⟩ count).1.length ≤ bound := by
    induction steps generalizing leaf with
    | zero => cases ends
    | succ steps inductionHypothesis =>
        have taken : ∀ offset stop, ((buffer.leafText leaf).extract offset stop).toList.length ≤
            (buffer.leafText leaf).size := by
          intro offset stop
          simp only [Array.length_toList, Array.size_extract]
          omega
        cases follows : buffer.nextLeaf leaf with
        | none =>
            refine ⟨(buffer.leafText leaf).size, fun fuel offset count => ?_⟩
            cases fuel with
            | zero => exact Nat.zero_le _
            | succ fuel =>
                simp only [forwardWithin, follows]
                split
                · exact taken _ _
                · exact taken _ _
        | some next =>
            rw [follow_succ follows] at ends
            rcases inductionHypothesis ends with ⟨bound, bounded⟩
            refine ⟨(buffer.leafText leaf).size + bound, fun fuel offset count => ?_⟩
            cases fuel with
            | zero => exact Nat.zero_le _
            | succ fuel =>
                simp only [forwardWithin, follows]
                split
                · exact Nat.le_trans (taken _ _) (Nat.le_add_right _ _)
                · rw [List.length_append]
                  exact Nat.add_le_add (taken _ _) (bounded _ _ _)
  rcases walk with ⟨bound, bounded⟩
  exact ⟨bound, fun offset count => bounded _ offset count⟩

/-- The way from a leaf is endless exactly if every read from it returns as much as was asked
for, and otherwise there is a bound on them. -/
theorem WellFormed.endless_iff (formed : buffer.WellFormed) {place : Place}
    (has : buffer.HasPlace place) :
    Endless buffer.nextLeaf place.leaf ↔
      ∀ count, (buffer.forward place count).1.length = count := by
  refine ⟨formed.length_forward_of_endless has, fun full steps => ?_⟩
  rw [Option.isSome_iff_ne_none]
  intro ends
  rcases forward_bounded ends with ⟨bound, bounded⟩
  have more := bounded place.offset (bound + 1)
  rw [full (bound + 1)] at more
  exact Nat.not_succ_le_self _ more

/-! ## Newest ropes end -/

section Newest

variable {shape : Shape} {before after : List (NodeId × List Char)} {leaf : NodeId}
  {text : List Char}

/-- In a current tree the way forward passes the leaves that follow. -/
theorem Current.follow_next (current : buffer.Current shape)
    (chunks : shape.chunks = before ++ (leaf, text) :: after) (steps : Nat) :
    follow buffer.nextLeaf steps leaf = ((leaf, text) :: after)[steps]?.map Prod.fst := by
  induction steps generalizing before leaf text after with
  | zero => rfl
  | succ steps inductionHypothesis =>
      rw [follow, current.nextLeaf chunks, List.getElem?_cons_succ]
      cases after with
      | nil => rfl
      | cons next after =>
          have onward : shape.chunks = (before ++ [(leaf, text)]) ++ (next.1, next.2) :: after := by
            rw [chunks, List.append_assoc, List.singleton_append]
          exact inductionHypothesis onward

/-- In a current tree the way backward passes the leaves that precede. -/
theorem Current.follow_prev (current : buffer.Current shape)
    (chunks : shape.chunks = before ++ (leaf, text) :: after) (steps : Nat) :
    follow buffer.prevLeaf steps leaf = ((leaf, text) :: before.reverse)[steps]?.map Prod.fst := by
  induction steps generalizing before leaf text after with
  | zero => rfl
  | succ steps inductionHypothesis =>
      rw [follow, current.prevLeaf chunks, List.getElem?_cons_succ]
      rcases List.eq_nil_or_concat before with rfl | ⟨earlier, previous, rfl⟩
      · rfl
      · rw [List.concat_eq_append] at chunks ⊢
        rw [List.getLast?_concat, List.reverse_append, List.reverse_singleton]
        have onward : shape.chunks = earlier ++ (previous.1, previous.2) :: (leaf, text) :: after := by
          rw [chunks, List.append_assoc, List.singleton_append]
        exact inductionHypothesis onward

theorem Current.follow_ends (current : buffer.Current shape) (member : (leaf, text) ∈ shape.chunks) :
    follow buffer.nextLeaf shape.chunks.length leaf = none ∧
      follow buffer.prevLeaf shape.chunks.length leaf = none := by
  rcases List.append_of_mem member with ⟨before, after, chunks⟩
  have count := congrArg List.length chunks
  rw [List.length_append, List.length_cons] at count
  rw [current.follow_next chunks, current.follow_prev chunks, List.getElem?_eq_none,
    List.getElem?_eq_none]
  · exact ⟨rfl, rfl⟩
  · rw [List.length_cons, List.length_reverse, count]
    omega
  · rw [List.length_cons, count]
    omega

theorem Current.length_forward_le (current : buffer.Current shape)
    (member : (leaf, text) ∈ shape.chunks) {offset : Nat} (within : offset ≤ text.length)
    (count : Nat) : (buffer.forward ⟨leaf, offset⟩ count).1.length ≤ shape.text.length := by
  rcases List.append_of_mem member with ⟨before, after, chunks⟩
  have means : shape.Means ⟨leaf, offset⟩ (extent before + offset) :=
    ⟨before, text, after, chunks, within, rfl⟩
  rw [current.forward means, List.length_take, List.length_drop]
  omega

end Newest

/-! ## A leaf next to itself -/

section Rings

variable {first second : Shape} {leaf : NodeId} {text : List Char}
  {rest : List (NodeId × List Char)}

/-- A leaf that is joined in front of a tree that starts with it follows itself. -/
theorem nextLeaf_addBranch (firstShown : buffer.Shows first) (secondShown : buffer.Shows second)
    (different : second.root ≠ first.root)
    (starts : second.chunks = (first.root, text) :: rest) :
    (buffer.addBranch first.root second.root).2.nextLeaf first.root = some first.root := by
  have grown := buffer.extends_addBranch first.root second.root
  have owned := parent_addBranch buffer firstShown.root_lt secondShown.root_lt first.root
  rw [if_pos (Or.inl rfl)] at owned
  rcases view_eq_branch_iff.mp (buffer.view_addBranch_new first.root second.root) with
    ⟨above, found⟩
  rcases firstLeafWithin_of_shows (secondShown.mono grown) _ (secondShown.mono grown).height_lt with
    ⟨text', rest', chunks⟩
  rw [starts] at chunks
  injection chunks with chunk
  injection chunk with same
  rw [nextLeaf, nodeCount_addBranch, nextLeafWithin]
  simp only [owned, children, found, different, false_and, if_false, nodeCount_addBranch] at same ⊢
  rw [← same]

/-- A leaf that is joined to a tree that ends with it precedes itself. -/
theorem prevLeaf_addBranch (firstShown : buffer.Shows first) (secondShown : buffer.Shows second)
    (different : first.root ≠ second.root)
    (ends : first.chunks = rest ++ [(second.root, text)]) :
    (buffer.addBranch first.root second.root).2.prevLeaf second.root = some second.root := by
  have grown := buffer.extends_addBranch first.root second.root
  have owned := parent_addBranch buffer firstShown.root_lt secondShown.root_lt second.root
  rw [if_pos (Or.inr rfl)] at owned
  rcases view_eq_branch_iff.mp (buffer.view_addBranch_new first.root second.root) with
    ⟨above, found⟩
  rcases lastLeafWithin_of_shows (firstShown.mono grown) _ (firstShown.mono grown).height_lt with
    ⟨text', rest', chunks⟩
  rw [ends] at chunks
  rcases List.append_inj' chunks rfl with ⟨_, last⟩
  have same := congrArg Prod.fst (List.singleton_inj.mp last)
  rw [prevLeaf, nodeCount_addBranch, prevLeafWithin]
  simp only [owned, children, found, different, false_and, if_false, nodeCount_addBranch] at same ⊢
  rw [← same]

end Rings

end Buffer

namespace Store

variable {store : Store} {first second : Rope} {shape shape' : Shape}

/-- Reads from the start of a rope whose first leaf follows itself never end. -/
theorem Shows.endless_read {rope : Rope} (shown : store.Shows rope shape) (sound : store.Sound)
    {leaf : NodeId} {text : List Char} {rest : List (NodeId × List Char)}
    (starts : shape.chunks = (leaf, text) :: rest) (someText : text ≠ [])
    (self : (store.buffer rope.buffer).nextLeaf leaf = some leaf) :
    ∃ cursor after, store.cursor rope 0 = (.ok cursor, after) ∧
      ∀ count, (after.read cursor count).1.1.length = count := by
  have formed := (sound rope.buffer).formed
  have member : (leaf, text) ∈ shape.chunks := starts ▸ List.mem_cons_self
  have stands : shape.Stands ⟨leaf, 0⟩ 0 :=
    Shape.stands_of_chunks (starts.trans (List.nil_append _).symm) someText
  have settled : (store.buffer rope.buffer).Settled ⟨leaf, 0⟩ := by
    refine Or.inl ?_
    rw [shown.2.length_chunk member]
    exact List.length_pos_iff.mpr someText
  rcases shown.position_cursor sound (Nat.zero_le _) with ⟨cursor, after, made, same, arrived⟩
  rw [positionAt, ← shown.1, ← shown.2.eq_locate stands, settled.settle] at arrived
  refine ⟨cursor, after, made, fun count => ?_⟩
  simp only [Store.read, Store.readFrom, arrived, (same rope.buffer).forward, String.length_ofList]
  exact formed.length_forward_of_endless (shown.2.hasPlace_chunk member (Nat.zero_le _))
    (endless_of_self self) count

end Store

namespace Desk

/-- After any commands every climb and every walk ends: more fuel changes no answer.  A read
returns no more than was asked for, and it always returns that much exactly if the way from
its leaf is endless. -/
theorem walks_end (commands : List Command) (id : BufferId) :
    let buffer := (run commands).store.buffer id
    (∀ node extra, buffer.nextLeafWithin (buffer.nodeCount + extra) node = buffer.nextLeaf node ∧
      buffer.prevLeafWithin (buffer.nodeCount + extra) node = buffer.prevLeaf node) ∧
    ∀ place, buffer.HasPlace place →
      (∀ count extra, buffer.forwardWithin (count + 2 + extra) place count =
        buffer.forward place count) ∧
      (∀ count extra, buffer.settle (buffer.backwardWithin (count + 2 + extra) place count) =
        buffer.backward place count) ∧
      (∀ count, (buffer.forward place count).1.length ≤ count) ∧
      (Endless buffer.nextLeaf place.leaf ↔
        ∀ count, (buffer.forward place count).1.length = count) := by
  intro buffer
  have agrees : (run commands).Agrees (Ledger.run commands) := run_agrees commands
  have formed : buffer.WellFormed := (agrees.sound id).formed
  refine ⟨fun node extra => ⟨formed.nextLeafWithin_add (Nat.le_add_right _ _) extra,
    formed.prevLeafWithin_add (Nat.le_add_right _ _) extra⟩, fun place has => ?_⟩
  refine ⟨fun count extra => ?_, fun count extra => ?_, Buffer.length_forward_le place,
    formed.endless_iff has⟩
  · exact formed.forwardWithin_add has (Nat.succ_pos _) (by omega) extra
  · rw [Buffer.backward, formed.backwardWithin_add (Nat.succ_pos _) (by omega)]

/-- After any commands the ways between the leaves of a newest rope end in both directions,
after as many steps as there are leaves, and no read returns more than the text holds. -/
theorem newest_ropes_end (commands : List Command) :
    let desk := run commands
    ∀ rope ∈ desk.ropes, desk.store.Newest rope →
      let buffer := desk.store.buffer rope.buffer
      let leaves := buffer.leaves rope.root
      ∀ leaf ∈ leaves, follow buffer.nextLeaf leaves.length leaf = none ∧
        follow buffer.prevLeaf leaves.length leaf = none ∧
        ∀ offset ≤ buffer.length leaf, ∀ count,
          (buffer.forward ⟨leaf, offset⟩ count).1.length ≤ desk.store.length rope := by
  intro desk rope member newest buffer leaves leaf inRope
  have agrees : desk.Agrees (Ledger.run commands) := run_agrees commands
  rcases agrees.rooted rope member with ⟨shape, shown⟩
  have current : buffer.Current shape := newest.current agrees.sound (run_forked commands) shown
  have isLeaves : leaves = shape.chunks.map Prod.fst := by
    rw [← Buffer.leaves_of_shows shown.2, shown.1]
  rw [isLeaves, List.mem_map] at inRope
  rcases inRope with ⟨⟨_, text⟩, inShape, rfl⟩
  rw [isLeaves, List.length_map, shown.length]
  rcases current.follow_ends inShape with ⟨forwards, backwards⟩
  refine ⟨forwards, backwards, fun offset within count => ?_⟩
  rw [current.shown.length_chunk inShape] at within
  exact current.length_forward_le inShape within count

/-- After any commands, two ropes of one buffer can be joined of which one is a leaf at the
seam of the other.  From this leaf the way towards the other rope is endless. -/
theorem leaf_joined_to_itself_is_endless (commands : List Command) :
    let desk := run commands
    let store := desk.store
    ∀ first ∈ desk.ropes, ∀ second ∈ desk.ropes, second.buffer = first.buffer →
      second.root ≠ first.root → 0 < store.length first → 0 < store.length second →
      let buffer := store.buffer first.buffer
      let joined := (store.concat first second).2.buffer first.buffer
      ((buffer.leaves second.root).head? = some first.root →
        Endless joined.nextLeaf first.root) ∧
      ((buffer.leaves first.root).getLast? = some second.root →
        Endless joined.prevLeaf second.root) := by
  intro desk store first member second member' sameBuffer different length length' buffer joined
  have agrees : desk.Agrees (Ledger.run commands) := run_agrees commands
  rcases agrees.rooted first member with ⟨shape, shown⟩
  rcases agrees.rooted second member' with ⟨shape', shown'⟩
  rw [shown.length, List.length_pos_iff] at length
  rw [shown'.length, List.length_pos_iff] at length'
  have here : (store.buffer first.buffer).Shows shape' := sameBuffer ▸ shown'.2
  have isJoined : joined = (buffer.addBranch shape.root shape'.root).2 := by
    simp only [joined]
    rw [Store.concat_of_sameBuffer shown shown' sameBuffer different length length',
      store.buffer_put shown.lt_size, if_pos rfl]
  rw [← shown.1, ← shown'.1] at different ⊢
  rw [isJoined, Buffer.leaves_of_shows here, Buffer.leaves_of_shows shown.2, List.head?_map,
    List.getLast?_map, Option.map_eq_some_iff, Option.map_eq_some_iff]
  constructor
  · rintro ⟨⟨leaf, text⟩, isHead, same⟩
    rcases List.head?_eq_some_iff.mp isHead with ⟨rest, chunks⟩
    cases same
    exact endless_of_self (Buffer.nextLeaf_addBranch shown.2 here different chunks)
  · rintro ⟨⟨leaf, text⟩, isLast, same⟩
    rcases List.getLast?_eq_some_iff.mp isLast with ⟨rest, chunks⟩
    cases same
    exact endless_of_self (Buffer.prevLeaf_addBranch shown.2 here different.symm chunks)

/-- After any commands, a rope of one leaf can be joined in front of another rope that starts
with this leaf.  Reads from the start of the joined rope never end. -/
theorem reads_of_leaf_joined_before_itself (commands : List Command) :
    let desk := run commands
    let store := desk.store
    ∀ first ∈ desk.ropes, ∀ second ∈ desk.ropes, second.buffer = first.buffer →
      second.root ≠ first.root → 0 < store.length first →
      ((store.buffer second.buffer).leaves second.root).head? = some first.root →
      let (whole, joined) := store.concat first second
      ∃ cursor after, joined.cursor whole 0 = (.ok cursor, after) ∧
        ∀ count, (after.read cursor count).1.1.length = count := by
  intro desk store first member second member' sameBuffer different length starts
  have agrees : desk.Agrees (Ledger.run commands) := run_agrees commands
  have sound : store.Sound := agrees.sound
  rcases agrees.rooted first member with ⟨shape, shown⟩
  rcases agrees.rooted second member' with ⟨shape', shown'⟩
  rw [shown.length, List.length_pos_iff] at length
  rw [← shown'.1, Buffer.leaves_of_shows shown'.2, List.head?_map, Option.map_eq_some_iff] at starts
  rcases starts with ⟨⟨leaf, text⟩, isHead, same⟩
  rcases List.head?_eq_some_iff.mp isHead with ⟨rest, chunks⟩
  have here : (store.buffer first.buffer).Shows shape' := sameBuffer ▸ shown'.2
  -- The rope in front is this one leaf.
  have isLeaf : shape = .leaf leaf text := by
    have member : (leaf, text) ∈ shape'.chunks := chunks ▸ List.mem_cons_self
    exact shown.2.unique (here.view_chunk member) (shown.1.trans same.symm)
  subst isLeaf
  have text' : shape'.text ≠ [] := by
    rw [← shape'.flatMap_chunks, chunks, List.flatMap_cons]
    exact List.append_ne_nil_of_left_ne_nil length _
  have joined := Store.shows_concat_of_sameBuffer shown shown' sameBuffer different length text'
  rcases Store.concat_spec sound shown shown' with ⟨_, _, _, evolves⟩
  refine joined.endless_read evolves.sound (List.singleton_append) length ?_
  rw [Store.concat_of_sameBuffer shown shown' sameBuffer different length text',
    store.buffer_put shown.lt_size, if_pos rfl]
  refine Buffer.nextLeaf_addBranch shown.2 here ?_ chunks
  rw [shown.1, shown'.1]
  exact different

/-- Of the text ababcd, joined from ab and a text that starts with the same leaf, nine
characters are read. -/
example :
    let store := (run [.newBuffer, .rope 0 "ab", .rope 0 "cd", .concat 0 1, .concat 0 2]).store
    store.text ⟨0, 3⟩ = "ababcd" ∧
      (store.readFrom (store.positionAt ⟨0, 3⟩ 0) 9).1 = "ababababa" := by
  decide +kernel

end Desk

end Reparse
