/-
  What a normal form looks like.

  The stages of `normalize` remove one kind of text each, and what one of them writes could be what another has
  removed: an argument inside a command, stars that come to stand side by side, a call that is rewritten, a
  name behind a name.  Nothing of it is left (`isPlain_normalize`).

  `NormalForm` says the same in terms of the stages, which leave such a text as it is.  Here it is said of the text
  alone: which characters and pairs do not occur (`symbols`, `stars`, `single`), how its words are spelled
  (`words`), and what it does not begin with (`unnamed`).
-/
import SignChart.Proofs.Input.NormalForm

namespace SignChart

section
variable {c d : Char} {a b p r t w : Text}

/-! ## Words and names -/

/-- A word of a text: a run of letters that no letter stands next to. -/
def IsWordOf (t w : Text) : Prop :=
  ∃ a b, t = a ++ (w ++ b) ∧ (∀ c ∈ w, isLetter c = true) ∧ (∀ c ∈ a.getLast?, isLetter c = false) ∧
    ∀ c ∈ b.head?, isLetter c = false

/-- Blanks only. -/
def Blanks (t : Text) : Prop := ∀ c ∈ t, isBlank c = true

/-- `f(x)=` or `y=`, in any case and spacing. -/
inductive NamesFunction : Text → Prop
  | call {f x : Char} {s t u v : Text} (hf : f.toLower = 'f') (hx : x.toLower = 'x') (hs : Blanks s) (ht : Blanks t)
      (hu : Blanks u) (hv : Blanks v) :
      NamesFunction (f :: (s ++ '(' :: (t ++ x :: (u ++ ')' :: (v ++ ['='])))))
  | name {y : Char} {s : Text} (hy : y.toLower = 'y') (hs : Blanks s) : NamesFunction (y :: (s ++ ['=']))

/-- A text in plain notation and in one spelling, without a name of the function. -/
structure IsPlain (t : Text) : Prop where
  backslash : '\\' ∉ t
  braces : '{' ∉ t ∧ '}' ∉ t
  symbols : ∀ c ∈ ['·', '⋅', '×', '÷', '−', '–', 'π', 'τ', '²', '³'], c ∉ t
  stars : ¬ ['*', '*'] <:+: t
  head : ∀ c ∈ t.head?, isBlank c = false
  last : ∀ c ∈ t.getLast?, isBlank c = false
  blanks : ∀ c ∈ t, isBlank c = true → c = ' '
  single : ¬ [' ', ' '] <:+: t
  words : ∀ w, IsWordOf t w → w.asciiLower ∈ ["sqrt".toList, "pi".toList, "tau".toList] → w = w.asciiLower
  unnamed : ∀ p, NamesFunction p → ¬ p <+: t

/-! ## Characters -/

theorem SymbolFree.not_mem (h : SymbolFree t) (hc : asciiSymbol c ≠ [c]) : c ∉ t := fun hm => hc (h c hm)

theorem SingleStars.not_infix (h : SingleStars t) : ¬ ['*', '*'] <:+: t := fun hstars =>
  (List.isChain_cons_cons.1 (h.part hstars)).1 ⟨rfl, rfl⟩

/-! ## Blanks -/

theorem SingleSpaced.eq_space (h : SingleSpaced t) (hc : c ∈ t) (hblank : isBlank c = true) : c = ' ' := by
  obtain ⟨s, r, rfl⟩ := List.append_of_mem hc
  exact ((h.suffix (List.suffix_append s (c :: r))).1 hblank).1

theorem SingleSpaced.getLast? (h : SingleSpaced t) (hc : c ∈ t.getLast?) : isBlank c = false := by
  obtain ⟨s, rfl⟩ := List.getLast?_eq_some_iff.1 hc
  rw [Bool.eq_false_iff]
  intro hblank
  obtain ⟨-, d, hd, -⟩ := (h.suffix (List.suffix_append s [c])).1 hblank
  exact absurd hd (by simp)

theorem SingleSpaced.not_infix (h : SingleSpaced t) : ¬ [' ', ' '] <:+: t := by
  rintro ⟨s, r, rfl⟩
  rw [List.append_assoc] at h
  obtain ⟨-, d, hd, hsolid⟩ := (h.suffix (List.suffix_append s _)).1 isBlank_space
  obtain rfl := Option.some.inj hd
  exact absurd hsolid (by decide)

/-! ## Spelling -/

/-- A text that ends in no letter is spelled by itself. -/
theorem usualCases_append_of_getLast? (ha : ∀ c ∈ a.getLast?, isLetter c = false) (r : Text) :
    usualCases (a ++ r) = usualCases a ++ usualCases r := by
  rcases List.eq_nil_or_concat a with rfl | ⟨a, c, rfl⟩
  · rfl
  · have hc : isLetter c = false := ha c (by simp)
    have hend : usualCases (a ++ [c]) = usualCases a ++ [c] := usualCases_append a [] hc []
    rw [List.concat_eq_append, hend, List.append_assoc, List.append_assoc]
    exact usualCases_append a r hc []

/-- Where a text is written in usual case, so is every word of it. -/
theorem usualCase_of_isWordOf (h : usualCases t = t) (hw : IsWordOf t w) : usualCase w = w := by
  obtain ⟨a, b, rfl, hletters, hbefore, hbehind⟩ := hw
  have hword : usualCases (w ++ b) = usualCase w ++ usualCases b := by
    rw [usualCases, usualCaseFrom_letters hletters, List.nil_append, usualCaseFrom_eq_append w hbehind]
  have hlength : (usualCase w).length = w.length := by rw [← usualCases_word hletters, length_usualCases]
  rw [usualCases_append_of_getLast? hbefore, hword] at h
  have hrest := (List.append_inj h (length_usualCases a)).2
  exact (List.append_inj hrest hlength).1

/-! ## Names of the function -/

/-- A character is read with the blanks behind it. -/
theorem after?_blanks {x : Char} (hc : c.toLower = d) (hb : Blanks b) (hx : isBlank x = false) (r : Text) :
    after? d (c :: (b ++ x :: r)) = some (x :: r) := by
  rw [after?, if_pos hc, Text.trimStart, List.dropWhile_append_of_pos hb]
  exact congrArg some (trimStart_of_unindented (unindented_cons hx r))

/-- In front of an equality sign a name of the function is read. -/
theorem afterName?_of_namesFunction (hp : NamesFunction p) (r : Text) : afterName? (p ++ r) = some ('=' :: r) := by
  cases hp with
  | @call f x s t u v hf hx hs ht hu hv =>
    have hsolid : isBlank x = false := by
      refine not_isBlank_of_isLetter ?_
      rw [← isLetter_toLower, hx]
      rfl
    simp only [List.cons_append, List.append_assoc, List.nil_append]
    rw [afterName?, after?_blanks hf hs (by decide)]
    dsimp only
    rw [after?_blanks (c := '(') (by decide) ht hsolid, Option.bind_some, after?_blanks hx hu (by decide),
      Option.bind_some, after?_blanks (c := ')') (by decide) hv (by decide)]
  | @name y s hy hs =>
    have hf : after? 'f' (y :: (s ++ '=' :: r)) = none := by
      rw [after?, hy, if_neg (by decide)]
    simp only [List.cons_append, List.append_assoc, List.nil_append]
    rw [afterName?, hf]
    exact after?_blanks hy hs (by decide) r

theorem not_isPrefix_of_unnamed (h : afterEquals? t = none) (hp : NamesFunction p) : ¬ p <+: t := by
  rintro ⟨r, rfl⟩
  rw [afterEquals?, afterName?_of_namesFunction hp, Option.bind_some] at h
  exact absurd h (by simp [after?])

/-- **The normal form.**  Whatever the text, nothing is left of what its normal form is freed from. -/
theorem isPlain_normalize (s : Text) : IsPlain (normalize s) := by
  have h := normalForm_normalize s
  have hsymbols : ∀ c ∈ ['·', '⋅', '×', '÷', '−', '–', 'π', 'τ', '²', '³'], asciiSymbol c ≠ [c] := by
    simp [asciiSymbol]
  exact {
    backslash := h.plain
    braces := ⟨h.symbolFree.not_mem (by decide), h.symbolFree.not_mem (by decide)⟩
    symbols := fun c hc => h.symbolFree.not_mem (hsymbols c hc)
    stars := h.singleStars.not_infix
    head := h.unindented
    last := fun _ => h.spaced.getLast?
    blanks := fun _ => h.spaced.eq_space
    single := h.spaced.not_infix
    words := fun w hw hlower => by
      have hcase : usualCase w = w.asciiLower := if_pos hlower
      exact (usualCase_of_isWordOf h.usual hw).symm.trans hcase
    unnamed := fun _ => not_isPrefix_of_unnamed h.unnamed }

end

end SignChart
