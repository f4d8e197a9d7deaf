/-!
# Blank text

White space in the sense of the Unicode property `White_Space`: 25 code points.  A text made of
them alone counts as missing wherever composition asks for a name, a description or a selection.
-/

namespace Federation

/-- The characters of the Unicode property `White_Space`. -/
def isBlank (c : Char) : Bool :=
  let n := c.toNat
  (0x09 ≤ n && n ≤ 0x0D) || n == 0x20 || n == 0x85 || n == 0xA0 || n == 0x1680 ||
    (0x2000 ≤ n && n ≤ 0x200A) || n == 0x2028 || n == 0x2029 || n == 0x202F || n == 0x205F ||
    n == 0x3000

/-- A text is blank when every character of it is white space; the empty text is blank. -/
def isBlankText (s : String) : Bool := s.toList.all isBlank

/-- The white space that the core library knows is white space here too. -/
theorem isBlank_of_isWhitespace {c : Char} (h : c.isWhitespace = true) : isBlank c = true := by
  unfold Char.isWhitespace at h
  have : c = ' ' ∨ c = '\t' ∨ c = '\r' ∨ c = '\n' := by simpa [or_assoc] using h
  rcases this with rfl | rfl | rfl | rfl <;> decide

@[simp] theorem isBlankText_empty : isBlankText "" = true := by decide

end Federation
