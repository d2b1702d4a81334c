import Reparse.Proofs.Parsing.Alike
import Reparse.Proofs.Rope.Resting

/-!
# Nodes that match

Two parsers that work on the same text make nodes of their own, each with cursors in
its own store.  Two such nodes match if they are the same tree but for the numbers:
the labels, the lengths, the skip values and the places of the ends agree all the way
down.  Nodes that match look the same to a body.

Parsing adds cursors to a store and moves none, so nodes that match go on to do so.
-/

namespace Reparse

variable {α κ : Type} {one other third one' other' : Store}

/-- Two cursors, each in a store of its own, sit at the same place. -/
def Store.SamePlace (one other : Store) (cursor cursor' : Cursor) : Prop :=
  cursor.buffer = cursor'.buffer ∧
    ∃ place, one.place? cursor = some place ∧ other.place? cursor' = some place

/-- The same but for the number. -/
structure Origin.Matches (one other : Store) (origin origin' : Origin κ) : Prop where
  start : one.SamePlace other origin.start origin'.start
  stop : one.SamePlace other origin.stop origin'.stop
  length : origin.length = origin'.length
  before : origin.before = origin'.before
  after : origin.after = origin'.after

namespace Tree

mutual

/-- The same tree but for the numbers of its nodes.  The cursors of each tree are in a store
of its own. -/
def Matches (one other : Store) : Tree α κ → Tree α κ → Prop
  | .node label children origin, .node label' children' origin' =>
    label = label' ∧ origin.Matches one other origin' ∧ MatchesAll one other children children'

def MatchesAll (one other : Store) : List (Tree α κ) → List (Tree α κ) → Prop
  | [], [] => True
  | [], _ :: _ => False
  | _ :: _, [] => False
  | tree :: trees, tree' :: trees' => Matches one other tree tree' ∧ MatchesAll one other trees trees'

end

theorem matchesAll_iff {trees trees' : List (Tree α κ)} :
    MatchesAll one other trees trees' ↔ List.Forall₂ (Matches one other) trees trees' := by
  induction trees generalizing trees' with
  | nil => cases trees' <;> simp [MatchesAll]
  | cons tree trees inductionHypothesis =>
      cases trees' with
      | nil => simp [MatchesAll]
      | cons tree' trees' => rw [MatchesAll, List.forall₂_cons, inductionHypothesis]

theorem matches_iff {tree tree' : Tree α κ} :
    tree.Matches one other tree' ↔
      tree.label = tree'.label ∧ tree.origin.Matches one other tree'.origin ∧
        List.Forall₂ (Matches one other) tree.children tree'.children := by
  cases tree
  cases tree'
  rw [Matches, matchesAll_iff]
  rfl

end Tree

theorem Store.SamePlace.mono (keeps : one.Keeps one') (keeps' : other.Keeps other')
    {cursor cursor' : Cursor} (same : one.SamePlace other cursor cursor') :
    one'.SamePlace other' cursor cursor' := by
  rcases same with ⟨inBuffer, place, sits, sits'⟩
  exact ⟨inBuffer, place, keeps.places _ _ sits, keeps'.places _ _ sits'⟩

/-- Cursors at the same place as a further one are at the same place. -/
theorem Store.SamePlace.join {cursor cursor' shared : Cursor}
    (same : one.SamePlace third cursor shared) (same' : other.SamePlace third cursor' shared) :
    one.SamePlace other cursor cursor' := by
  rcases same with ⟨inBuffer, place, sits, sharedSits⟩
  rcases same' with ⟨inBuffer', place', sits', sharedSits'⟩
  have isPlace : place' = place := Option.some.inj (sharedSits'.symm.trans sharedSits)
  exact ⟨inBuffer.trans inBuffer'.symm, place, sits, isPlace ▸ sits'⟩

theorem Store.SamePlace.position (trees : one.SameTrees other) {cursor cursor' : Cursor}
    (same : one.SamePlace other cursor cursor') : one.position cursor = other.position cursor' := by
  rcases same with ⟨inBuffer, place, sits, sits'⟩
  rw [Store.position_of_place? sits, Store.position_of_place? sits', inBuffer, (trees _).settle]

theorem Origin.Matches.mono (keeps : one.Keeps one') (keeps' : other.Keeps other')
    {origin origin' : Origin κ} (same : origin.Matches one other origin') :
    origin.Matches one' other' origin' :=
  ⟨same.start.mono keeps keeps', same.stop.mono keeps keeps', same.length, same.before, same.after⟩

theorem Origin.Matches.join {origin origin' shared : Origin κ}
    (same : origin.Matches one third shared) (same' : origin'.Matches other third shared) :
    origin.Matches one other origin' :=
  ⟨same.start.join same'.start, same.stop.join same'.stop, same.length.trans same'.length.symm,
    same.before.trans same'.before.symm, same.after.trans same'.after.symm⟩

namespace Tree

mutual

/-- Trees that match a further one match. -/
theorem Matches.join :
    ∀ {tree tree' shared : Tree α κ}, tree.Matches one third shared → tree'.Matches other third shared →
      tree.Matches one other tree'
  | .node _ _ _, .node _ _ _, .node _ _ _, same, same' => by
      rw [Matches] at same same' ⊢
      exact ⟨same.1.trans same'.1.symm, same.2.1.join same'.2.1, MatchesAll.join same.2.2 same'.2.2⟩

theorem MatchesAll.join :
    ∀ {trees trees' shared : List (Tree α κ)}, MatchesAll one third trees shared →
      MatchesAll other third trees' shared → MatchesAll one other trees trees'
  | [], [], _, _, _ => by
      rw [MatchesAll]
      trivial
  | _ :: _, _, [], same, _ => by
      rw [MatchesAll] at same
      exact same.elim
  | _, _ :: _, [], _, same' => by
      rw [MatchesAll] at same'
      exact same'.elim
  | [], _, _ :: _, same, _ => by
      rw [MatchesAll] at same
      exact same.elim
  | _, [], _ :: _, _, same' => by
      rw [MatchesAll] at same'
      exact same'.elim
  | _ :: _, _ :: _, _ :: _, same, same' => by
      rw [MatchesAll] at same same' ⊢
      exact ⟨Matches.join same.1 same'.1, MatchesAll.join same.2 same'.2⟩

end

mutual

theorem Matches.mono (keeps : one.Keeps one') (keeps' : other.Keeps other') :
    ∀ {tree tree' : Tree α κ}, tree.Matches one other tree' → tree.Matches one' other' tree'
  | .node _ _ _, .node _ _ _, same => by
      rw [Matches] at same ⊢
      exact ⟨same.1, same.2.1.mono keeps keeps', MatchesAll.mono keeps keeps' same.2.2⟩

theorem MatchesAll.mono (keeps : one.Keeps one') (keeps' : other.Keeps other') :
    ∀ {trees trees' : List (Tree α κ)}, MatchesAll one other trees trees' →
      MatchesAll one' other' trees trees'
  | [], [], _ => by
      rw [MatchesAll]
      trivial
  | [], _ :: _, same => by
      rw [MatchesAll] at same
      exact same.elim
  | _ :: _, [], same => by
      rw [MatchesAll] at same
      exact same.elim
  | _ :: _, _ :: _, same => by
      rw [MatchesAll] at same ⊢
      exact ⟨Matches.mono keeps keeps' same.1, MatchesAll.mono keeps keeps' same.2⟩

end

/-- Nodes that match have the same span. -/
theorem Matches.range (trees : one.SameTrees other) {tree tree' : Tree α κ}
    (same : tree.Matches one other tree') : tree.range one = tree'.range other := by
  rcases matches_iff.mp same with ⟨_, origins, _⟩
  have start : one.index tree.start = other.index tree'.start := by
    rw [Store.index, Store.index, ← trees.indexOf]
    exact congrArg _ (origins.start.position trees)
  have stop : one.index tree.stop = other.index tree'.stop := by
    rw [Store.index, Store.index, ← trees.indexOf]
    exact congrArg _ (origins.stop.position trees)
  rw [Tree.range, Tree.range, start, stop]

end Tree

/-- Bodies cannot tell nodes apart that match. -/
theorem corresponds_matches {V : Vocabulary} (one other : Store) :
    Corresponds (V := V) (Tree.Matches one other) := by
  intro tree tree' same
  rcases Tree.matches_iff.mp same with ⟨label, origins, children⟩
  exact ⟨label, origins.length, origins.before, origins.after, children⟩

end Reparse
