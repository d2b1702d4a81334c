/-!
# White space

The characters with the property White_Space in the Unicode character database.
-/

namespace Reparse

namespace Text

/-- Space, tab and line ends, the no-break spaces and the spaces of a given
width.  Characters without any width are not among them. -/
def isBlank (char : Char) : Bool :=
  let code := char.toNat
  decide (9 ≤ code ∧ code ≤ 13) || decide (8192 ≤ code ∧ code ≤ 8202) ||
    [32, 133, 160, 5760, 8232, 8233, 8239, 8287, 12288].contains code

/-- What core takes for white space is blank. -/
theorem isBlank_of_isWhitespace {char : Char} (blank : char.isWhitespace = true) :
    isBlank char = true := by
  simp only [Char.isWhitespace, Bool.or_eq_true, decide_eq_true_eq] at blank
  rcases blank with ((rfl | rfl) | rfl) | rfl <;> decide

end Text

end Reparse
