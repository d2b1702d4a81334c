import Reparse.Sorting

/-!
# The log of pending edits

Between two parses the log keeps the ranges of the current text that edits
have written.  Each edit moves the ranges to its right by the change in
length, and swallows the ranges that it touches.  The log therefore always
speaks about the text as it is now.

A range holds inserted characters.  A pure deletion leaves an empty range at
the point where the characters were.
-/

namespace Reparse

/-- The characters from `start` up to `stop`. -/
structure Range where
  start : Nat
  stop : Nat
deriving DecidableEq, Repr, Inhabited

namespace Range

/-- The span comes within `margin` characters of the range. -/
def touches (range span : Range) (margin : Nat) : Bool :=
  decide (range.start ≤ span.stop + margin) && decide (span.start ≤ range.stop + margin)

end Range

/-- What one edit did: the characters from `start` up to `removedStop` were
replaced by `inserted` others. -/
structure Edit where
  start : Nat
  removedStop : Nat
  inserted : Nat
deriving DecidableEq, Repr

namespace Edit

def insertedStop (edit : Edit) : Nat := edit.start + edit.inserted

/-- Where the edit moves an index that lies after the removed characters. -/
def shift (edit : Edit) (index : Nat) : Nat := index - edit.removedStop + edit.insertedStop

/-- The range of one edit after it has swallowed an older range that it touches. -/
def swallow (edit : Edit) (merged range : Range) : Range where
  start := min merged.start range.start
  stop := if edit.removedStop < range.stop then max merged.stop (edit.shift range.stop)
    else merged.stop

/-- Sort an older range: it stays, it moves, or it is swallowed.  The first part
of the answer collects the ranges that stand on their own, in reverse. -/
def sift (edit : Edit) : List Range × Range → Range → List Range × Range
  | (kept, merged), range =>
    if range.stop < edit.start then (range :: kept, merged)
    else if edit.removedStop < range.start then
      (⟨edit.shift range.start, edit.shift range.stop⟩ :: kept, merged)
    else (kept, edit.swallow merged range)

end Edit

/-- The ranges written since the last parse, from left to right. -/
structure EditLog where
  ranges : List Range := []
deriving DecidableEq, Repr

namespace EditLog

def isEmpty (log : EditLog) : Bool := log.ranges.isEmpty

/-- Enter an edit of the current text. -/
def record (log : EditLog) (edit : Edit) : EditLog :=
  let (kept, merged) := log.ranges.foldl edit.sift ([], ⟨edit.start, edit.insertedStop⟩)
  ⟨sortBy (fun first second => decide (first.start ≤ second.start)) (merged :: kept).reverse⟩

/-- The span comes within `margin` characters of a pending edit. -/
def overlaps (log : EditLog) (span : Range) (margin : Nat) : Bool :=
  log.ranges.any fun range => range.touches span margin

end EditLog

end Reparse
