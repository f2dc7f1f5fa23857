/-
  Blanks: which characters separate words, and how a text is freed from them.

  A blank is a character with the White_Space property of the Unicode character database, the
  no-break and the typographic spaces included.  `trim` takes blanks off both ends, `squeeze`
  leaves single spaces between words and none elsewhere.
-/
import SignChart.Text.Basic

namespace SignChart

/-- The characters of the White_Space property. -/
def isBlank (c : Char) : Bool :=
  let n := c.toNat
  (9 ≤ n && n ≤ 13) || n == 0x20 || n == 0x85 || n == 0xA0 || n == 0x1680
    || (0x2000 ≤ n && n ≤ 0x200A) || n == 0x2028 || n == 0x2029 || n == 0x202F || n == 0x205F
    || n == 0x3000

/-- An ASCII letter. -/
def isLetter (c : Char) : Bool := c.isAlpha

/-- An ASCII letter or digit. -/
def isLetterOrDigit (c : Char) : Bool := c.isAlphanum

namespace Text

/-- The text from its first character that is no blank. -/
def trimStart (t : Text) : Text := t.dropWhile isBlank

/-- The text up to its last character that is no blank. -/
def trimEnd (t : Text) : Text := (t.reverse.dropWhile isBlank).reverse

/-- The text without blanks at its ends. -/
def trim (t : Text) : Text := t.trimStart.trimEnd

/-- The words of a text read on from a place where `gap` says whether blanks were just passed
that still have to be shown as one space.  Blanks that no word follows are not shown. -/
def squeezeFrom (gap : Bool) : Text → Text
  | [] => []
  | c :: r =>
    if isBlank c then squeezeFrom true r
    else if gap then ' ' :: c :: squeezeFrom false r
    else c :: squeezeFrom false r

/-- The words of a text with one space between neighbours. -/
def squeeze (t : Text) : Text := squeezeFrom false t.trimStart

end Text

/-- The property holds of every blank that is known to the core library. -/
theorem isBlank_of_isWhitespace {c : Char} (h : c.isWhitespace = true) : isBlank c = true := by
  simp only [Char.isWhitespace, Bool.or_eq_true, decide_eq_true_eq] at h
  rcases h with ((rfl | rfl) | rfl) | rfl <;> decide

end SignChart
