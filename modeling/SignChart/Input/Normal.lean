/-
  The normal form of what a user types.

  `normalize` reads LaTeX notation, if the text has a backslash, and plain notation into one plain form
  with single spaces between words, and drops what only names the function: `f(x) =` or `y =` in front,
  in any case and spacing, as often as it is written.
-/
import SignChart.Input.Plain

namespace SignChart

/-- The text after the character `c`, in either case, and the blanks that follow it. -/
def after? (c : Char) : Text → Option Text
  | [] => none
  | d :: r => if d.toLower = c then some (Text.trimStart r) else none

theorem length_of_after? {c : Char} {t r : Text} (h : after? c t = some r) : r.length < t.length := by
  cases t with
  | nil => simp [after?] at h
  | cons d t =>
    simp only [after?, Option.ite_none_right_eq_some, Option.some.injEq] at h
    have := Text.length_trimStart_le t
    simp only [← h.2, List.length_cons]
    omega

/-- The text after a name of the function: `f(x)` or `y`. -/
def afterName? (t : Text) : Option Text :=
  match after? 'f' t with
  | some r => after? '(' r |>.bind (after? 'x') |>.bind (after? ')')
  | none => after? 'y' t

/-- The text after a name of the function and an equality sign. -/
def afterEquals? (t : Text) : Option Text := (afterName? t).bind (after? '=')

theorem length_of_afterEquals? {t r : Text} (h : afterEquals? t = some r) : r.length < t.length := by
  simp only [afterEquals?, afterName?, Option.bind_eq_some_iff] at h
  obtain ⟨s, hs, h⟩ := h
  have := length_of_after? h
  split at hs
  · next u hu =>
    simp only [Option.bind_eq_some_iff] at hs
    obtain ⟨v, ⟨w, hw, hv⟩, hs⟩ := hs
    have := length_of_after? hu
    have := length_of_after? hw
    have := length_of_after? hv
    have := length_of_after? hs
    omega
  · have := length_of_after? hs
    omega

/-- A text without the names of the function in front of it. -/
def dropNames (t : Text) : Text :=
  match _h : afterEquals? t with
  | some r => dropNames r
  | none => t
termination_by t.length
decreasing_by exact length_of_afterEquals? _h

/-- The normal form of a text. -/
def normalize (raw : Text) : Text :=
  let text := raw.squeeze
  let plain := if '\\' ∈ text then latexToPlain text else text
  dropNames (plainSpelling plain).squeeze

end SignChart
