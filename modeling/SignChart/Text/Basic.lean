/-
  Text is the list of its characters; positions in it are counted in UTF-8 bytes.

  Every reader of this library walks the list once from the left, so a position is never needed
  to read, only to report where something was found.  `byteSize` measures such a position and
  `splitAtByte` goes the other way: it finds the cut that lies a number of bytes into a text, and
  refuses a number that falls inside a character or past the end (`splitAtByte_eq_some_iff`).
-/
namespace SignChart

/-- A text, as the list of its characters. -/
abbrev Text := List Char

namespace Text

/-- The length of a text in UTF-8 bytes. -/
def byteSize : Text → Nat
  | [] => 0
  | c :: t => c.utf8Size + byteSize t

@[simp] theorem byteSize_nil : byteSize [] = 0 := rfl

@[simp] theorem byteSize_cons (c : Char) (t : Text) :
    byteSize (c :: t) = c.utf8Size + byteSize t := rfl

@[simp] theorem byteSize_append (s t : Text) : byteSize (s ++ t) = byteSize s + byteSize t := by
  induction s with
  | nil => simp
  | cons c s ih => simp [ih, Nat.add_assoc]

/-- The text up to byte `n` and the text from there on; nothing when `n` is no character's edge. -/
def splitAtByte : Text → Nat → Option (Text × Text)
  | t, 0 => some ([], t)
  | [], _ + 1 => none
  | c :: r, n + 1 =>
    if c.utf8Size ≤ n + 1 then
      (splitAtByte r (n + 1 - c.utf8Size)).map fun (before, after) => (c :: before, after)
    else none

/-- The two parts give the text back, and the first is as long as asked for; no other cut is. -/
theorem splitAtByte_eq_some_iff {t : Text} {n : Nat} {p : Text × Text} :
    splitAtByte t n = some p ↔ t = p.1 ++ p.2 ∧ byteSize p.1 = n := by
  induction t generalizing n p with
  | nil =>
    obtain ⟨a, b⟩ := p
    cases n <;> cases a <;> simp [splitAtByte, eq_comm]
  | cons c r ih =>
    obtain ⟨a, b⟩ := p
    have hc := Char.utf8Size_pos c
    cases n with
    | zero =>
      cases a with
      | nil => simp [splitAtByte, eq_comm]
      | cons d a => simp [splitAtByte]; intros; have := Char.utf8Size_pos d; omega
    | succ n =>
      cases a with
      | nil => simp [splitAtByte]
      | cons d a =>
        simp only [splitAtByte, Option.ite_none_right_eq_some, Option.map_eq_some_iff, ih,
          Prod.exists, Prod.mk.injEq, List.cons.injEq, List.cons_append, byteSize_cons]
        grind

/-- Every occurrence of the adjacent pair `a b`, read from the left, replaced by `new`. -/
def replacePair (a b : Char) (new : Text) : Text → Text
  | [] => []
  | [c] => [c]
  | c :: d :: r =>
    if c = a ∧ d = b then new ++ replacePair a b new r else c :: replacePair a b new (d :: r)

/-- ASCII letters in lower case, all else unchanged. -/
def asciiLower (t : Text) : Text := t.map Char.toLower

end Text
end SignChart
