import Reparse.Proofs.Edit.Log

namespace Reparse

/-!
# The text around a span

A kept node depends on the characters of its span and on some next to them.
The surroundings of a span hold both.  They also tell how near the ends of the
text are, since near an end there are fewer characters on that side.

An edit that misses a span by a margin leaves its surroundings as they are, up
to one character beyond the margin.
-/

/-- The characters of a span, with those next to it on either side. -/
structure Surroundings where
  left : List Char
  inside : List Char
  right : List Char
deriving DecidableEq, Repr

/-- The characters of a span, with up to `reach` characters on either side. -/
def surroundings (text : List Char) (reach : Nat) (span : Range) : Surroundings where
  left := (text.take span.start).drop (span.start - reach)
  inside := (text.take span.stop).drop span.start
  right := (text.drop span.stop).take reach

variable {text : List Char} {reach : Nat}

theorem surroundings_take {span : Range} {length : Nat} (forward : span.start ≤ span.stop)
    (near : span.stop + reach ≤ length) :
    surroundings (text.take length) reach span = surroundings text reach span := by
  have startNear : span.start ≤ length := by omega
  have stopNear : span.stop ≤ length := by omega
  have rightNear : reach ≤ length - span.stop := by omega
  have back : (text.take length).drop span.stop = (text.drop span.stop).take (length - span.stop) :=
    List.drop_take
  rw [surroundings, back, List.take_take, List.take_take, List.take_take, Nat.min_eq_left startNear,
    Nat.min_eq_left stopNear, Nat.min_eq_left rightNear]
  rfl

theorem surroundings_drop {start stop : Nat} (length : Nat) (near : reach ≤ start) :
    surroundings (text.drop length) reach ⟨start, stop⟩ =
      surroundings text reach ⟨length + start, length + stop⟩ := by
  simp only [surroundings, List.drop_drop, List.take_drop, Nat.add_sub_assoc near]

/-- Spans of one text and another that have the same surroundings are equally long. -/
theorem length_of_surroundings {text' : List Char} {span span' : Range}
    (within : span.stop ≤ text.length) (within' : span'.stop ≤ text'.length)
    (same : surroundings text' reach span' = surroundings text reach span) :
    span'.stop - span'.start = span.stop - span.start := by
  have inside := congrArg (List.length ∘ Surroundings.inside) same
  simp only [Function.comp_apply, surroundings, List.length_drop, List.length_take,
    Nat.min_eq_left within, Nat.min_eq_left within'] at inside
  exact inside

/-- A span and the characters to the right of it. -/
theorem take_drop_of_forward {span : Range} (forward : span.start ≤ span.stop) :
    (text.drop span.start).take (span.stop - span.start + reach) =
      (surroundings text reach span).inside ++ (surroundings text reach span).right := by
  have inside : (text.take span.stop).drop span.start =
      (text.drop span.start).take (span.stop - span.start) :=
    List.drop_take
  rw [List.take_add, List.drop_drop, Nat.add_sub_cancel' forward, ← inside]
  rfl

/-- Spans of one text and another that have the same surroundings are followed by the same
characters. -/
theorem ahead_of_surroundings {text' : List Char} {span span' : Range}
    (forward : span.start ≤ span.stop) (forward' : span'.start ≤ span'.stop)
    (within : span.stop ≤ text.length) (within' : span'.stop ≤ text'.length)
    (same : surroundings text' reach span' = surroundings text reach span) :
    (text'.drop span'.start).take (span.stop - span.start + reach) =
      (text.drop span.start).take (span.stop - span.start + reach) := by
  rw [take_drop_of_forward forward, ← same, ← take_drop_of_forward forward',
    length_of_surroundings within within' same]

/-- Spans of one text and another that have the same surroundings begin with the same character. -/
theorem next_of_surroundings {text' : List Char} {span span' : Range}
    (forward : span.start ≤ span.stop) (forward' : span'.start ≤ span'.stop)
    (within : span.stop ≤ text.length) (within' : span'.stop ≤ text'.length) (wide : 0 < reach)
    (same : surroundings text' reach span' = surroundings text reach span) :
    (text'.drop span'.start).head? = (text.drop span.start).head? := by
  have ahead := congrArg List.head? (ahead_of_surroundings forward forward' within within' same)
  rw [List.head?_take, List.head?_take, if_neg (by omega), if_neg (by omega)] at ahead
  exact ahead

/-- The character in front of a span is the last one on its left. -/
theorem getLast?_left {span : Range} (within : span.start ≤ text.length) (wide : 0 < reach) :
    (surroundings text reach span).left.getLast? = (text.take span.start).getLast? := by
  simp only [surroundings, List.getLast?_drop, List.length_take, Nat.min_eq_left within]
  split
  · next none =>
      have first : span.start = 0 := by omega
      rw [first, List.take_zero, List.getLast?_nil]
  · rfl

/-- Spans of one text and another that have the same surroundings are preceded by the same
character. -/
theorem prior_of_surroundings {text' : List Char} {span span' : Range}
    (within : span.start ≤ text.length) (within' : span'.start ≤ text'.length) (wide : 0 < reach)
    (same : surroundings text' reach span' = surroundings text reach span) :
    (text'.take span'.start).getLast? = (text.take span.start).getLast? := by
  rw [← getLast?_left within wide, ← getLast?_left within' wide, same]

/-- Surroundings that reach beyond both ends of a text tell all of it, and where the span is. -/
theorem eq_of_surroundings {text' : List Char} {span span' : Range}
    (forward : span.start ≤ span.stop) (forward' : span'.start ≤ span'.stop)
    (within : span.stop ≤ text.length) (within' : span'.stop ≤ text'.length)
    (far : text.length < reach)
    (same : surroundings text' reach span' = surroundings text reach span) :
    text' = text ∧ span'.start = span.start := by
  have left : (text'.take span'.start).drop (span'.start - reach) =
      (text.take span.start).drop (span.start - reach) := congrArg Surroundings.left same
  have right : (text'.drop span'.stop).take reach = (text.drop span.stop).take reach :=
    congrArg Surroundings.right same
  have leftLength := congrArg List.length left
  have rightLength := congrArg List.length right
  simp only [List.length_drop, List.length_take] at leftLength rightLength
  have start : span'.start = span.start := by omega
  have startNear : span.start - reach = 0 := by omega
  rw [start, startNear, List.drop_zero, List.drop_zero] at left
  have ahead := ahead_of_surroundings forward forward' within within' same
  have inside := length_of_surroundings within within' same
  rw [List.take_of_length_le (by rw [List.length_drop]; omega),
    List.take_of_length_le (by rw [List.length_drop]; omega), start] at ahead
  refine ⟨?_, start⟩
  rw [← List.take_append_drop span.start text', left, ahead, List.take_append_drop]

/-- The text after an edit. -/
def Edit.apply (edit : Edit) (text insertion : List Char) : List Char :=
  text.take edit.start ++ insertion ++ text.drop edit.removedStop

/-- An edit keeps the surroundings of a span that it misses. -/
theorem Edit.Misses.surroundings_eq {edit : Edit} {margin : Nat} {span moved : Range}
    (misses : edit.Misses margin span moved) {insertion : List Char}
    (length : insertion.length = edit.inserted) (ordered : edit.start ≤ edit.removedStop)
    (within : edit.removedStop ≤ text.length) :
    surroundings (edit.apply text insertion) (margin + 1) moved =
      surroundings text (margin + 1) span := by
  have startLength : (text.take edit.start).length = edit.start := by
    rw [List.length_take, Nat.min_eq_left (Nat.le_trans ordered within)]
  rcases misses with ⟨forward, ⟨left, rfl⟩ | ⟨right, rfl⟩⟩
  · have front : (edit.apply text insertion).take edit.start = text.take edit.start := by
      rw [apply, List.append_assoc]
      exact List.take_left' startLength
    rw [← surroundings_take forward (Nat.succ_le_of_lt left), front,
      surroundings_take forward (Nat.succ_le_of_lt left)]
  · have back : (edit.apply text insertion).drop edit.insertedStop = text.drop edit.removedStop := by
      refine List.drop_left' ?_
      rw [List.length_append, startLength, length, insertedStop]
    rcases span with ⟨start, stop⟩
    simp only at forward right
    have far : margin + 1 ≤ start - edit.removedStop := by omega
    have startAfter : edit.shift start = edit.insertedStop + (start - edit.removedStop) := by
      rw [shift, Nat.add_comm]
    have stopAfter : edit.shift stop = edit.insertedStop + (stop - edit.removedStop) := by
      rw [shift, Nat.add_comm]
    rw [startAfter, stopAfter, ← surroundings_drop _ far, back, surroundings_drop _ far]
    congr 2 <;> omega

end Reparse
