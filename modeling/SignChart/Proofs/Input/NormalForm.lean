/-
  When the normal form of a text is its own normal form.

  Nothing that one pass writes is rewritten by another, but for one thing: a call of `frac` is written as a
  group, and a word `frac` in front of it becomes a call.

  1. **Left alone.**  `NormalForm` says that the text has single spaces, no backslash, no symbol, no doubled
     star, its words in their usual case and no name of the function in front.  Every normal form is of this
     kind (`normalForm_normalize`).

  2. **Calls.**  A text without a call of `frac` is left as it is (`fractionsFrom_of_no_call`), any other gets
     shorter (`length_fractionsFrom_lt`).  So the second pass changes the text exactly if the first has left a
     call in it (`normalize_normalize_iff`).
-/
import SignChart.Input.Normal
import SignChart.Proofs.Input.Separation
import SignChart.Proofs.Text.Squeezing

namespace SignChart

section
variable {a : Bool} {c d : Char} {r s t w : Text}

/-! ## LaTeX -/

theorem trim_isInfix (t : Text) : t.trim <:+: t := by
  have hend : t.trim <+: t.trimStart :=
    List.reverse_suffix.1 (by rw [Text.trim, Text.trimEnd, List.reverse_reverse]; exact List.dropWhile_suffix _)
  exact hend.isInfix.trans (List.dropWhile_suffix isBlank).isInfix

/-- A group is its parentheses and what is in them. -/
theorem mem_parenthesized : c ∈ parenthesized t ↔ c = '(' ∨ c ∈ t ∨ c = ')' := by
  simp [parenthesized]

theorem mem_quotient : c ∈ quotient s t ↔ c ∈ parenthesized s ∨ c = '/' ∨ c ∈ parenthesized t := by
  simp [quotient]

theorem getLast?_parenthesized (t : Text) : (parenthesized t).getLast? = some ')' := List.getLast?_concat

theorem getLast?_quotient (s t : Text) : (quotient s t).getLast? = some ')' := by
  have h : quotient s t = (parenthesized s ++ '/' :: '(' :: t) ++ [')'] := by simp [quotient, parenthesized]
  rw [h]
  exact List.getLast?_concat

theorem backslash_not_mem_of_letters (h : ∀ c ∈ t, isLetter c = true) : '\\' ∉ t :=
  fun hb => absurd (h _ hb) (by decide)

/-- No command stands for a text with a backslash. -/
theorem backslash_not_mem_written {name text : Text} (h : LatexCommand.ofName name = .written text) :
    '\\' ∉ text := by
  have hsymbols : ∀ p ∈ latexSymbols, '\\' ∉ p.2.toList := by decide
  have hnames : ∀ n ∈ latexNames, '\\' ∉ n.toList := by decide
  have hspace : '\\' ∉ [' '] := by decide
  unfold LatexCommand.ofName at h
  simp only at h
  repeat' split at h
  all_goals cases h
  · next symbol hs =>
    obtain ⟨l, l', hl, _⟩ := List.lookup_eq_some_iff.1 hs
    exact hsymbols _ (hl ▸ List.mem_append_right _ List.mem_cons_self)
  · exact hspace
  · next hn => exact fun hb => hnames _ hn (String.toList_ofList.symm ▸ hb)
  · next hl => exact backslash_not_mem_of_letters (List.all_eq_true.1 hl)
  · exact hspace

/-- No backslash is left. -/
theorem backslash_not_mem_latexToPlain (t : Text) : '\\' ∉ latexToPlain t := by
  have htrim : ∀ {t : Text}, '\\' ∉ t → '\\' ∉ t.trim := fun h hm => h ((trim_isInfix _).subset hm)
  have hparen : ∀ {t : Text}, '\\' ∉ t → '\\' ∉ parenthesized t := by
    intro t h hm
    rcases mem_parenthesized.1 hm with h' | h' | h'
    · exact absurd h' (by decide)
    · exact h h'
    · exact absurd h' (by decide)
  have hcons : ∀ {c : Char} {t : Text}, ¬c = '\\' → '\\' ∉ t → '\\' ∉ c :: t :=
    fun hc h => List.not_mem_cons_of_ne_of_not_mem (Ne.symm hc) h
  have happend : ∀ {s t : Text}, '\\' ∉ s → '\\' ∉ t → '\\' ∉ s ++ t :=
    fun hs ht hm => (List.mem_append.1 hm).elim hs ht
  fun_induction latexToPlain t with
  | case1 => exact List.not_mem_nil
  | case2 r hname num den ih₁ ih₂ ih₃ =>
    exact happend (happend (hparen (htrim ih₁)) (hcons (by decide) (hparen (htrim ih₂)))) ih₃
  | case3 r hname index radicand body root ih₁ ih₂ ih₃ =>
    refine happend ?_ ih₃
    have hbody : '\\' ∉ body := hparen (htrim ih₁)
    clear_value body
    simp only [root]
    split
    · next i hi =>
      exact happend hbody (hcons (by decide) (hparen (hcons (by decide)
        (hcons (by decide) (hparen (htrim (ih₂ i hi)))))))
    · exact happend (by decide) hbody
  | case4 r hname name ih₁ ih₂ => exact happend (htrim ih₁) ih₂
  | case5 r hname rest ih => exact ih
  | case6 r text hname ih => exact happend (backslash_not_mem_written hname) ih
  | case7 c r hc hcaret g hg inner ih₁ ih₂ =>
    refine happend (hcons hc ?_) ih₂
    split
    · exact htrim ih₁
    · exact hparen (htrim ih₁)
  | case8 c r hc hcaret hg ih => exact hcons hc ih
  | case9 c r hc hcaret hbrace ih => exact ih
  | case10 c r hc hcaret hbrace ih => exact hcons hc ih

/-! ## Symbols -/

/-- No two stars stand side by side. -/
def SingleStars (t : Text) : Prop := t.IsChain fun c d => ¬(c = '*' ∧ d = '*')

theorem SingleStars.part (h : SingleStars t) (hs : s <:+: t) : SingleStars s := List.IsChain.infix h hs

/-- A character is left as it is, or written in characters that are. -/
theorem asciiSymbol_eq (c : Char) : asciiSymbol c = [c] ∨ asciiSymbol c ∈
    [['*'], ['/'], ['-'], ['p', 'i'], ['t', 'a', 'u'], ['^', '2'], ['^', '3'], ['('], [')']] := by
  unfold asciiSymbol
  split
  all_goals first | exact Or.inl rfl | (right; simp)

/-- Symbols are written with these characters. -/
theorem mem_of_asciiSymbol_ne (hc : asciiSymbol c ≠ [c]) (h : d ∈ asciiSymbol c) :
    d ∈ ['*', '/', '-', 'p', 'i', 't', 'a', 'u', '^', '2', '3', '(', ')'] := by
  have hall : ∀ w ∈ [['*'], ['/'], ['-'], ['p', 'i'], ['t', 'a', 'u'], ['^', '2'], ['^', '3'], ['('], [')']],
      ∀ d ∈ w, d ∈ ['*', '/', '-', 'p', 'i', 't', 'a', 'u', '^', '2', '3', '(', ')'] := by simp
  exact hall _ ((asciiSymbol_eq c).resolve_left hc) d h

/-- What is written for a symbol is no symbol. -/
theorem asciiSymbol_of_mem (h : d ∈ asciiSymbol c) : asciiSymbol d = [d] := by
  by_cases hc : asciiSymbol c = [c]
  · rw [hc] at h
    obtain rfl := List.mem_singleton.1 h
    exact hc
  · have hd := mem_of_asciiSymbol_ne hc h
    simp only [List.mem_cons, List.not_mem_nil, or_false] at hd
    rcases hd with rfl | rfl | rfl | rfl | rfl | rfl | rfl | rfl | rfl | rfl | rfl | rfl | rfl <;> rfl

theorem asciiSymbol_of_isLetter (h : isLetter c = true) : asciiSymbol c = [c] := by
  unfold asciiSymbol
  split
  all_goals first | rfl | exact absurd h (by decide)

/-- A star is in front of what was written only if it was there before. -/
theorem star_of_head?_replacePair (h : '*' ∈ (Text.replacePair '*' '*' ['^'] t).head?) : '*' ∈ t.head? := by
  cases t with
  | nil => exact h
  | cons c r =>
    cases r with
    | nil => exact h
    | cons d r =>
      rw [Text.replacePair] at h
      split at h
      · exact absurd (Option.some.inj h) (by decide)
      · exact h

/-- Of two stars side by side a caret is made, until no two are left. -/
theorem singleStars_replacePair (t : Text) : SingleStars (Text.replacePair '*' '*' ['^'] t) := by
  fun_induction Text.replacePair '*' '*' ['^'] t with
  | case1 => exact .nil
  | case2 c => exact .singleton c
  | case3 c d r hpair ih =>
    exact List.isChain_cons.2 ⟨fun y _ h => absurd h.1 (by decide), ih⟩
  | case4 c d r hpair ih =>
    refine List.isChain_cons.2 ⟨?_, ih⟩
    rintro y hy ⟨rfl, rfl⟩
    exact hpair ⟨rfl, Option.some.inj (star_of_head?_replacePair hy)⟩

/-- Where no two stars are side by side there is no pair to replace. -/
theorem replacePair_of_singleStars {new : Text} (h : SingleStars t) : Text.replacePair '*' '*' new t = t := by
  fun_induction Text.replacePair '*' '*' new t with
  | case1 => rfl
  | case2 => rfl
  | case3 c d r hpair ih => exact absurd hpair (List.isChain_cons_cons.1 h).1
  | case4 c d r hpair ih => rw [ih (List.isChain_cons_cons.1 h).2]

theorem mem_replacePair {x y : Char} {new : Text} (h : c ∈ Text.replacePair x y new t) : c ∈ t ∨ c ∈ new := by
  fun_induction Text.replacePair x y new t with
  | case1 => exact Or.inl h
  | case2 => exact Or.inl h
  | case3 d e r hpair ih =>
    rcases List.mem_append.1 h with h | h
    · exact Or.inr h
    · exact (ih h).imp_left fun h => List.mem_cons_of_mem _ (List.mem_cons_of_mem _ h)
  | case4 d e r hpair ih =>
    rcases List.mem_cons.1 h with rfl | h
    · exact Or.inl List.mem_cons_self
    · exact (ih h).imp_left (List.mem_cons_of_mem d)

/-- The text has no symbol. -/
def SymbolFree (t : Text) : Prop := ∀ c ∈ t, asciiSymbol c = [c]

/-- No symbol is left. -/
theorem symbolFree_asciiSymbols (t : Text) : SymbolFree (asciiSymbols t) := by
  intro c hc
  rcases mem_replacePair hc with h | h
  · obtain ⟨d, _, hd⟩ := List.mem_flatMap.1 h
    exact asciiSymbol_of_mem hd
  · obtain rfl := List.mem_singleton.1 h
    rfl

/-- A text without symbols and doubled stars is left as it is. -/
theorem asciiSymbols_of_symbolFree (h : SymbolFree t) (hs : SingleStars t) : asciiSymbols t = t := by
  have hflat : t.flatMap asciiSymbol = t :=
    (List.flatMap_congr h).trans (List.flatMap_singleton' t)
  rw [asciiSymbols, hflat, replacePair_of_singleStars hs]

/-- Symbols are written with few characters. -/
theorem mem_of_mem_asciiSymbols
    (hd : d ∉ ['*', '/', '-', 'p', 'i', 't', 'a', 'u', '^', '2', '3', '(', ')']) (h : d ∈ asciiSymbols t) :
    d ∈ t := by
  rcases mem_replacePair h with h | h
  · obtain ⟨c, hc, h⟩ := List.mem_flatMap.1 h
    by_cases hsame : asciiSymbol c = [c]
    · rw [hsame] at h
      exact List.mem_singleton.1 h ▸ hc
    · exact absurd (mem_of_asciiSymbol_ne hsame h) hd
  · obtain rfl := List.mem_singleton.1 h
    exact absurd (by simp) hd

/-! ## Fractions -/

/-- A call of `frac` stands somewhere in the text.  `afterLetter` says that the text follows a letter. -/
def hasFractionCall (afterLetter : Bool) : Text → Bool
  | [] => false
  | c :: r => (!afterLetter && (fractionCall? (c :: r)).isSome) || hasFractionCall (isLetter c) r

/-- The group of a call lies in the text, behind five characters at least. -/
theorem of_fractionCall? {g : Group} (h : fractionCall? t = some g) :
    ∃ s u, t = s ++ (g.content ++ (u ++ g.beyond)) ∧ 5 ≤ s.length := by
  unfold fractionCall? at h
  split at h
  · next hname =>
    have hlength : 4 ≤ (t.take 4).length := by
      have := congrArg List.length hname
      rw [Text.asciiLower, List.length_map] at this
      exact this.ge
    obtain ⟨blanks, hblanks⟩ := List.dropWhile_suffix isBlank (l := t.drop 4)
    obtain ⟨u, hu⟩ : ∃ u, Text.trimStart (t.drop 4) = '(' :: (g.content ++ (u ++ g.beyond)) := by
      cases hr : Text.trimStart (t.drop 4) with
      | nil => rw [hr] at h; exact absurd h (by simp [Group.paren?, Group.forward?])
      | cons c r =>
        rw [hr, Group.paren?, Group.forward?] at h
        split at h
        · next hc =>
          subst hc
          split at h
          · next hread => cases h; exact ⟨[')'], by rw [eq_of_untilClose hread]; rfl⟩
          · cases h; exact ⟨[], by simp⟩
        · exact absurd h (by simp)
    refine ⟨t.take 4 ++ blanks ++ ['('], u, ?_, ?_⟩
    · rw [List.append_assoc, List.append_assoc, List.singleton_append, ← hu]
      exact ((congrArg (t.take 4 ++ ·) hblanks).trans (List.take_append_drop 4 t)).symm
    · simp only [List.length_append, List.length_singleton]
      omega
  · exact absurd h (by simp)

/-- Two pieces have one character between them. -/
theorem eq_of_splitOutside_pair {sep : Char} {num den : Text} (h : splitOutside sep t = [num, den]) :
    ∃ c, t = num ++ c :: den := by
  have hjoin := joinCut_cut (.char sep) t
  simp only [splitOutside, List.cons.injEq, List.map_eq_singleton_iff] at h
  obtain ⟨hnum, ⟨c, den'⟩, hmore, rfl⟩ := h
  rw [joinCut, hnum, hmore] at hjoin
  exact ⟨c, by simpa using hjoin.symm⟩

/-- A call begins here, where no letter is in front of it, or further on. -/
theorem hasFractionCall_cons : hasFractionCall a (c :: r) = true ↔
    (a = false ∧ ∃ g, fractionCall? (c :: r) = some g) ∨ hasFractionCall (isLetter c) r = true := by
  rw [hasFractionCall, Bool.or_eq_true, Bool.and_eq_true, Bool.not_eq_true', Option.isSome_iff_exists]

/-- Without a call nothing is rewritten. -/
theorem fractionsFrom_of_no_call (h : ¬ hasFractionCall a t = true) : fractionsFrom a t = t := by
  fun_induction fractionsFrom a t with
  | case1 => rfl
  | case2 a c r g hcall written ih₁ ih₂ ih₃ ih₄ =>
    split at hcall
    · exact absurd hcall (by simp)
    · next ha => exact absurd (hasFractionCall_cons.2 (Or.inl ⟨Bool.eq_false_iff.2 ha, g, hcall⟩)) h
  | case3 a c r hcall ih => rw [ih fun h' => h (hasFractionCall_cons.2 (Or.inr h'))]

/-- A text gets no longer, and shorter if there is a call to rewrite. -/
theorem length_fractionsFrom (a : Bool) (t : Text) : (fractionsFrom a t).length ≤ t.length ∧
    (hasFractionCall a t = true → (fractionsFrom a t).length < t.length) := by
  fun_induction fractionsFrom a t with
  | case1 => exact ⟨Nat.le_refl _, fun h => absurd h (by simp [hasFractionCall])⟩
  | case2 a c r g hcall written ih₁ ih₂ ih₃ ih₄ =>
    -- at most four characters are written besides the arguments
    have hwritten : written.length ≤ g.content.length + 4 := by
      simp only [written]
      split
      · next num den hs =>
        obtain ⟨sep, hcontent⟩ := eq_of_splitOutside_pair hs
        have h₁ := (ih₁ num den hs).1.trans (Text.length_trim_le num)
        have h₂ := (ih₂ num den hs).1.trans (Text.length_trim_le den)
        have h := congrArg List.length hcontent
        simp only [quotient, parenthesized, List.length_append, List.length_cons, List.length_nil] at h ⊢
        omega
      · have h := ih₃.1.trans (Text.length_trim_le g.content)
        simp only [parenthesized, List.length_append, List.length_cons, List.length_nil]
        omega
    have hlt : (written ++ fractionsFrom false g.beyond).length < (c :: r).length := by
      split at hcall
      · exact absurd hcall (by simp)
      · obtain ⟨s, u, heq, hs⟩ := of_fractionCall? hcall
        have h := congrArg List.length heq
        have h₄ := ih₄.1
        simp only [List.length_append] at h ⊢
        omega
    exact ⟨hlt.le, fun _ => hlt⟩
  | case3 a c r hcall ih =>
    refine ⟨Nat.succ_le_succ ih.1, fun h => ?_⟩
    rcases hasFractionCall_cons.1 h with ⟨rfl, g, hg⟩ | h
    · exact absurd (hg.symm.trans hcall) (by simp)
    · exact Nat.succ_lt_succ (ih.2 h)

/-- What the calls are rewritten with are parentheses and strokes. -/
theorem mem_fractionsFrom (h : d ∈ fractionsFrom a t) : d ∈ t ∨ d ∈ ['(', ')', '/'] := by
  fun_induction fractionsFrom a t with
  | case1 => exact Or.inl h
  | case2 a c r g hcall written ih₁ ih₂ ih₃ ih₄ =>
    split at hcall
    · exact absurd hcall (by simp)
    obtain ⟨s, u, heq, _⟩ := of_fractionCall? hcall
    have hparen : ∀ {v : Text}, (d ∈ fractionsFrom false v.trim → d ∈ v.trim ∨ d ∈ ['(', ')', '/']) →
        v ⊆ g.content → d ∈ parenthesized (fractionsFrom false v.trim) →
        d ∈ g.content ∨ d ∈ ['(', ')', '/'] := by
      intro v ih hsub h
      rcases mem_parenthesized.1 h with rfl | h | rfl
      · exact Or.inr (by decide)
      · exact (ih h).imp_left fun h => hsub ((trim_isInfix v).subset h)
      · exact Or.inr (by decide)
    have hwritten : d ∈ written → d ∈ g.content ∨ d ∈ ['(', ')', '/'] := by
      intro hd
      simp only [written] at hd
      split at hd
      · next num den hs =>
        obtain ⟨sep, hcontent⟩ := eq_of_splitOutside_pair hs
        rcases mem_quotient.1 hd with hd | rfl | hd
        · exact hparen (ih₁ num den hs) (hcontent ▸ List.subset_append_left _ _) hd
        · exact Or.inr (by decide)
        · exact hparen (ih₂ num den hs)
            (hcontent ▸ fun _ h => List.mem_append_right _ (List.mem_cons_of_mem _ h)) hd
      · exact hparen ih₃ (List.Subset.refl _) hd
    rw [heq]
    simp only [List.mem_append]
    rcases List.mem_append.1 h with h | h
    · exact (hwritten h).imp_left fun h => Or.inr (Or.inl h)
    · exact (ih₄ h).imp_left fun h => Or.inr (Or.inr (Or.inr h))
  | case3 a c r hcall ih =>
    rcases List.mem_cons.1 h with rfl | h
    · exact Or.inl List.mem_cons_self
    · exact (ih h).imp_left (List.mem_cons_of_mem c)

theorem singleStars_parenthesized (h : SingleStars t) : SingleStars (parenthesized t) := by
  refine List.isChain_append.2 ⟨List.isChain_cons.2 ⟨fun _ _ h => absurd h.1 (by decide), h⟩, .singleton _, ?_⟩
  rintro x _ y ⟨⟩ ⟨_, h⟩
  exact absurd h (by decide)

theorem singleStars_quotient (hs : SingleStars s) (ht : SingleStars t) : SingleStars (quotient s t) := by
  refine List.isChain_append.2 ⟨singleStars_parenthesized hs,
    List.isChain_cons.2 ⟨fun _ _ h => absurd h.1 (by decide), singleStars_parenthesized ht⟩, ?_⟩
  rintro x _ y ⟨⟩ ⟨_, h⟩
  exact absurd h (by decide)

/-- A star is in front of what was rewritten only if it was there before. -/
theorem star_of_head?_fractionsFrom (h : '*' ∈ (fractionsFrom a t).head?) : '*' ∈ t.head? := by
  rw [fractionsFrom.eq_def] at h
  split at h
  · exact h
  split at h
  · simp only at h
    split at h <;> exact absurd (Option.some.inj h) (by decide)
  · exact h

/-- A fraction that is rewritten brings no two stars together. -/
theorem singleStars_fractionsFrom (h : SingleStars t) : SingleStars (fractionsFrom a t) := by
  fun_induction fractionsFrom a t with
  | case1 => exact h
  | case2 a c r g hcall written ih₁ ih₂ ih₃ ih₄ =>
    split at hcall
    · exact absurd hcall (by simp)
    obtain ⟨s, u, heq, _⟩ := of_fractionCall? hcall
    have hcontent : SingleStars g.content := h.part ⟨s, u ++ g.beyond, by rw [heq, List.append_assoc]⟩
    have hbeyond : SingleStars g.beyond :=
      h.suffix ⟨s ++ (g.content ++ u), by rw [heq]; simp only [List.append_assoc]⟩
    have hwritten : SingleStars written ∧ ')' ∈ written.getLast? := by
      simp only [written]
      split
      · next num den hs =>
        obtain ⟨sep, hpair⟩ := eq_of_splitOutside_pair hs
        refine ⟨singleStars_quotient (ih₁ num den hs ?_) (ih₂ num den hs ?_), getLast?_quotient _ _⟩
        · exact hcontent.part ((trim_isInfix num).trans (hpair ▸ List.infix_append [] num _))
        · exact hcontent.part ((trim_isInfix den).trans ⟨num ++ [sep], [], by simp [hpair]⟩)
      · exact ⟨singleStars_parenthesized (ih₃ (hcontent.part (trim_isInfix _))), getLast?_parenthesized _⟩
    refine List.isChain_append.2 ⟨hwritten.1, ih₄ hbeyond, ?_⟩
    rintro x hx y _ ⟨rfl, _⟩
    exact absurd (Option.some.inj (hwritten.2.symm.trans hx)) (by decide)
  | case3 a c r hcall ih =>
    obtain ⟨hhead, hr⟩ := List.isChain_cons.1 h
    refine List.isChain_cons.2 ⟨?_, ih hr⟩
    rintro y hy ⟨rfl, rfl⟩
    exact hhead '*' (star_of_head?_fractionsFrom hy) ⟨rfl, rfl⟩

/-! ## Words -/

/-- The number of a letter in lower case. -/
theorem toNat_toLower (c : Char) :
    c.toLower.toNat = if 65 ≤ c.toNat ∧ c.toNat ≤ 90 then c.toNat + 32 else c.toNat := by
  have hiff : (c.val ≥ 'A'.val ∧ c.val ≤ 'Z'.val) ↔ (65 ≤ c.toNat ∧ c.toNat ≤ 90) := by
    simp only [ge_iff_le, UInt32.le_iff_toNat_le, Char.toNat_val]
    exact Iff.rfl
  unfold Char.toLower
  by_cases h : c.val ≥ 'A'.val ∧ c.val ≤ 'Z'.val
  · have hc := hiff.1 h
    rw [dif_pos h, if_pos hc]
    show (c.val + ('a'.val - 'A'.val)).toNat = _
    rw [UInt32.toNat_add]
    show (c.toNat + 32) % _ = _
    omega
  · rw [dif_neg h, if_neg (mt hiff.2 h)]

/-- The case of a letter does not make it another kind of character. -/
theorem isLetter_toLower : isLetter c.toLower = isLetter c := by
  rw [Bool.eq_iff_iff, isLetter_iff, isLetter_iff, toNat_toLower]
  split <;> omega

theorem toLower_eq_iff (hd : isLetter d = false) : c.toLower = d ↔ c = d := by
  have hd := mt isLetter_iff.2 (Bool.eq_false_iff.1 hd)
  rw [← Char.toNat_inj, ← Char.toNat_inj, toNat_toLower]
  split <;> omega

theorem usualCase_letters (h : ∀ c ∈ w, isLetter c = true) : ∀ c ∈ usualCase w, isLetter c = true := by
  unfold usualCase
  split
  · intro c hc
    obtain ⟨d, hd, rfl⟩ := List.mem_map.1 hc
    exact isLetter_toLower.trans (h d hd)
  · exact h

/-- A word in its case is left alone. -/
theorem usualCase_usualCase (w : Text) : usualCase (usualCase w) = usualCase w := by
  have hwords : ∀ u ∈ [['s', 'q', 'r', 't'], ['p', 'i'], ['t', 'a', 'u']], usualCase u = u := by decide
  by_cases h : w.asciiLower ∈ [['s', 'q', 'r', 't'], ['p', 'i'], ['t', 'a', 'u']]
  · rw [show usualCase w = w.asciiLower from if_pos h]
    exact hwords _ h
  · rw [show usualCase w = w from if_neg h]
    exact if_neg h

/-- Letters go on the word. -/
theorem usualCaseFrom_letters : ∀ {u : Text}, (∀ c ∈ u, isLetter c = true) → ∀ w r : Text,
    usualCaseFrom w (u ++ r) = usualCaseFrom (w ++ u) r
  | [], _, w, r => by rw [List.append_nil]; rfl
  | c :: u, h, w, r => by
    have hu := usualCaseFrom_letters (fun d hd => h d (List.mem_cons_of_mem c hd)) (w ++ [c]) r
    rw [List.cons_append, usualCaseFrom, if_pos (h c List.mem_cons_self), hu, List.append_assoc]
    rfl

/-- Any other character ends it. -/
theorem usualCaseFrom_break (w r : Text) (hc : isLetter c = false) :
    usualCaseFrom w (c :: r) = usualCase w ++ c :: usualCases r := by
  rw [usualCaseFrom, if_neg (by rw [hc]; exact Bool.false_ne_true)]
  rfl

/-- A character that is no letter ends a word, and stays as it is. -/
theorem usualCases_break (r : Text) (hc : isLetter c = false) : usualCases (c :: r) = c :: usualCases r :=
  usualCaseFrom_break [] r hc

theorem usualCases_word (h : ∀ c ∈ w, isLetter c = true) : usualCases w = usualCase w := by
  have hw := usualCaseFrom_letters h [] []
  rw [List.append_nil] at hw
  exact hw

/-- Words are put in their case on each side of a character that is no letter. -/
theorem usualCases_append (t r : Text) (hc : isLetter c = false) : ∀ w : Text,
    usualCaseFrom w (t ++ c :: r) = usualCaseFrom w t ++ c :: usualCases r := by
  induction t with
  | nil => exact fun w => usualCaseFrom_break w r hc
  | cons d t ih =>
    intro w
    by_cases hd : isLetter d = true
    · rw [List.cons_append, usualCaseFrom, if_pos hd, ih, usualCaseFrom, if_pos hd]
    · have hd := Bool.eq_false_iff.2 hd
      rw [List.cons_append, usualCaseFrom_break w _ hd, usualCaseFrom_break w _ hd, List.append_assoc]
      exact congrArg (usualCase w ++ d :: ·) (ih [])

/-- Words in their usual case are left as they are. -/
theorem usualCases_usualCaseFrom (t : Text) : ∀ w : Text, (∀ c ∈ w, isLetter c = true) →
    usualCases (usualCaseFrom w t) = usualCaseFrom w t := by
  induction t with
  | nil => exact fun w hw => (usualCases_word (usualCase_letters hw)).trans (usualCase_usualCase w)
  | cons c r ih =>
    intro w hw
    by_cases hc : isLetter c = true
    · rw [usualCaseFrom, if_pos hc]
      exact ih (w ++ [c]) (List.forall_mem_append.2 ⟨hw, List.forall_mem_singleton.2 hc⟩)
    · have hc := Bool.eq_false_iff.2 hc
      rw [usualCaseFrom_break w r hc, usualCases, usualCases_append _ _ hc, ← usualCases,
        usualCases_word (usualCase_letters hw), usualCase_usualCase]
      exact congrArg (usualCase w ++ c :: ·) (ih [] (fun d hd => absurd hd List.not_mem_nil))

/-- The characters are the same, or both are letters. -/
def Alike (c d : Char) : Prop := c = d ∨ isLetter c = true ∧ isLetter d = true

/-- Only letters are written differently. -/
theorem usualCaseFrom_alike (t : Text) : ∀ w : Text, (∀ c ∈ w, isLetter c = true) →
    List.Forall₂ Alike (w ++ t) (usualCaseFrom w t) := by
  have hsame : ∀ w : Text, List.Forall₂ Alike w w := fun w => List.forall₂_same.2 fun c _ => Or.inl rfl
  have hword : ∀ w : Text, (∀ c ∈ w, isLetter c = true) → List.Forall₂ Alike w (usualCase w) := by
    intro w hw
    unfold usualCase
    split
    · exact List.forall₂_map_right_iff.2
        (List.forall₂_same.2 fun c hc => Or.inr ⟨hw c hc, isLetter_toLower.trans (hw c hc)⟩)
    · exact hsame w
  induction t with
  | nil => exact fun w hw => (List.append_nil w).symm ▸ hword w hw
  | cons c r ih =>
    intro w hw
    by_cases hc : isLetter c = true
    · rw [usualCaseFrom, if_pos hc, List.append_cons]
      exact ih (w ++ [c]) (List.forall_mem_append.2 ⟨hw, List.forall_mem_singleton.2 hc⟩)
    · rw [usualCaseFrom_break w r (Bool.eq_false_iff.2 hc)]
      exact List.rel_append (hword w hw) (.cons (Or.inl rfl) (ih [] fun _ hd => absurd hd List.not_mem_nil))

/-- Only letters change, and only their case. -/
theorem usualCases_alike (t : Text) : List.Forall₂ Alike t (usualCases t) :=
  usualCaseFrom_alike t [] fun _ hd => absurd hd List.not_mem_nil

theorem length_usualCases (t : Text) : (usualCases t).length = t.length := (usualCases_alike t).length_eq.symm

/-- A character that is no letter stays where it is. -/
theorem head?_of_alike (h : List.Forall₂ Alike s t) (hc : c ∈ t.head?) (hl : isLetter c = false) :
    c ∈ s.head? := by
  cases h with
  | nil => exact hc
  | cons h _ =>
    obtain rfl := Option.some.inj hc
    rcases h with rfl | ⟨_, h⟩
    · exact rfl
    · exact absurd (hl.symm.trans h) Bool.false_ne_true

theorem mem_of_alike (h : List.Forall₂ Alike s t) (hc : c ∈ t) (hl : isLetter c = false) : c ∈ s := by
  induction h with
  | nil => exact hc
  | cons h ht ih =>
    rcases List.mem_cons.1 hc with rfl | hc
    · exact List.mem_of_mem_head? (head?_of_alike (.cons h ht) rfl hl)
    · exact List.mem_cons_of_mem _ (ih hc)

theorem singleStars_of_alike (h : List.Forall₂ Alike s t) (hs : SingleStars s) : SingleStars t := by
  induction h with
  | nil => exact hs
  | cons h ht ih =>
    obtain ⟨hhead, hs⟩ := List.isChain_cons.1 hs
    refine List.isChain_cons.2 ⟨?_, ih hs⟩
    rintro y hy ⟨rfl, rfl⟩
    have hstar := head?_of_alike (.cons h ht) rfl (by decide)
    exact hhead '*' (head?_of_alike ht hy (by decide)) ⟨Option.some.inj hstar, rfl⟩

/-- What begins with no letter goes on no word. -/
theorem usualCaseFrom_eq_append (w : Text) (h : ∀ c ∈ t.head?, isLetter c = false) :
    usualCaseFrom w t = usualCase w ++ usualCases t := by
  cases t with
  | nil => exact (List.append_nil _).symm
  | cons c r =>
    rw [usualCaseFrom_break w r (h c rfl), usualCases_break r (h c rfl)]

theorem isLetter_of_isBlank (h : isBlank c = true) : isLetter c = false := by
  rw [Bool.eq_false_iff]
  exact fun hl => absurd (h.symm.trans (not_isBlank_of_isLetter hl)) (by decide)

theorem head?_squeezeFrom_true (h : c ∈ (Text.squeezeFrom true t).head?) : c = ' ' := by
  induction t with
  | nil => exact absurd h (by simp [Text.squeezeFrom])
  | cons d r ih =>
    by_cases hd : isBlank d = true
    · exact ih (squeezeFrom_cons_of_blank hd ▸ h)
    · rw [squeezeFrom_cons_of_not_blank (Bool.eq_false_iff.2 hd)] at h
      exact (Option.some.inj h).symm

theorem squeezeFrom_of_unindented (h : Unindented t) (hne : t ≠ []) :
    Text.squeezeFrom true t = ' ' :: Text.squeezeFrom false t := by
  cases t with
  | nil => exact absurd rfl hne
  | cons c r =>
    rw [squeezeFrom_cons_of_not_blank (h c rfl), squeezeFrom_cons_of_not_blank (h c rfl)]
    rfl

/-- A text whose first character is alike begins with a blank or not alike. -/
theorem unindented_of_alike (h : List.Forall₂ Alike s t) (hs : Unindented s) : Unindented t := by
  intro c hc
  by_cases hl : isLetter c = true
  · exact not_isBlank_of_isLetter hl
  · exact hs c (head?_of_alike h hc (Bool.eq_false_iff.2 hl))

/-- Letters are left as they are. -/
theorem squeezeFrom_letters : ∀ {w : Text}, (∀ c ∈ w, isLetter c = true) → ∀ r : Text,
    Text.squeezeFrom false (w ++ r) = w ++ Text.squeezeFrom false r
  | [], _, _ => rfl
  | c :: w, hw, r => by
    rw [List.cons_append, squeezeFrom_cons_of_not_blank (not_isBlank_of_isLetter (hw c List.mem_cons_self)),
      squeezeFrom_letters fun d hd => hw d (List.mem_cons_of_mem c hd)]
    rfl

/-- Words keep their case whether blanks are taken out before or after. -/
theorem usualCaseFrom_squeezeFrom (t : Text) :
    (∀ w : Text, (∀ c ∈ w, isLetter c = true) →
      usualCaseFrom w (Text.squeezeFrom false t) = Text.squeezeFrom false (usualCaseFrom w t)) ∧
    usualCases (Text.squeezeFrom true t) = Text.squeezeFrom true (usualCases t) := by
  induction t with
  | nil =>
    refine ⟨fun w hw => ?_, rfl⟩
    have h := squeezeFrom_letters (usualCase_letters hw) []
    rw [List.append_nil] at h
    exact (h.trans (List.append_nil _)).symm
  | cons c r ih =>
    have hfalse : isBlank c = false → ∀ w : Text, (∀ c ∈ w, isLetter c = true) →
        usualCaseFrom w (Text.squeezeFrom false (c :: r)) =
          Text.squeezeFrom false (usualCaseFrom w (c :: r)) := by
      intro hc w hw
      rw [squeezeFrom_cons_of_not_blank hc]
      show usualCaseFrom w (c :: Text.squeezeFrom false r) = _
      by_cases hl : isLetter c = true
      · rw [usualCaseFrom, if_pos hl, usualCaseFrom, if_pos hl]
        exact ih.1 (w ++ [c]) (List.forall_mem_append.2 ⟨hw, List.forall_mem_singleton.2 hl⟩)
      · have hl := Bool.eq_false_iff.2 hl
        rw [usualCaseFrom_break w _ hl, usualCaseFrom_break w _ hl,
          squeezeFrom_letters (usualCase_letters hw), squeezeFrom_cons_of_not_blank hc, usualCases,
          ih.1 [] fun _ hd => absurd hd List.not_mem_nil]
        rfl
    by_cases hc : isBlank c = true
    · have hl := isLetter_of_isBlank hc
      have htrue : usualCases (Text.squeezeFrom true r) = Text.squeezeFrom true (c :: usualCases r) := by
        rw [squeezeFrom_cons_of_blank hc]; exact ih.2
      refine ⟨fun w hw => ?_, ?_⟩
      · rw [squeezeFrom_cons_of_blank hc, usualCaseFrom_eq_append w, htrue, usualCaseFrom_break w r hl,
          squeezeFrom_letters (usualCase_letters hw), squeezeFrom_cons_of_blank hc,
          squeezeFrom_cons_of_blank hc]
        exact fun d hd => head?_squeezeFrom_true hd ▸ (by decide)
      · rw [squeezeFrom_cons_of_blank hc, htrue, usualCases_break r hl]
    · have hc := Bool.eq_false_iff.2 hc
      have hindent := unindented_cons hc r
      refine ⟨hfalse hc, ?_⟩
      have hne : usualCases (c :: r) ≠ [] := by
        intro h
        have hlength := length_usualCases (c :: r)
        rw [h] at hlength
        exact absurd hlength (by simp)
      rw [squeezeFrom_of_unindented hindent (List.cons_ne_nil _ _),
        squeezeFrom_of_unindented (unindented_of_alike (usualCases_alike _) hindent) hne,
        usualCases_break _ (by decide), usualCases, hfalse hc [] fun _ hd => absurd hd List.not_mem_nil]
      rfl

theorem usualCases_trimStart (t : Text) : usualCases t.trimStart = (usualCases t).trimStart := by
  induction t with
  | nil => rfl
  | cons c r ih =>
    by_cases hc : isBlank c = true
    · have hbreak : usualCases (c :: r) = c :: usualCases r :=
        usualCaseFrom_break [] r (isLetter_of_isBlank hc)
      rw [hbreak, Text.trimStart, Text.trimStart, List.dropWhile_cons_of_pos hc, List.dropWhile_cons_of_pos hc]
      exact ih
    · have hindent := unindented_cons (Bool.eq_false_iff.2 hc) r
      rw [trimStart_of_unindented hindent,
        trimStart_of_unindented (unindented_of_alike (usualCases_alike _) hindent)]

/-- Words are put in their case before or after blanks are squeezed. -/
theorem usualCases_squeeze (t : Text) : usualCases t.squeeze = (usualCases t).squeeze := by
  rw [Text.squeeze, Text.squeeze, ← usualCases_trimStart]
  exact (usualCaseFrom_squeezeFrom _).1 [] fun _ hd => absurd hd List.not_mem_nil

theorem star_of_head?_squeezeFrom (h : '*' ∈ (Text.squeezeFrom false t).head?) : '*' ∈ t.head? := by
  cases t with
  | nil => exact h
  | cons c r =>
    by_cases hc : isBlank c = true
    · rw [squeezeFrom_cons_of_blank hc] at h
      exact absurd (head?_squeezeFrom_true h) (by decide)
    · rw [squeezeFrom_cons_of_not_blank (Bool.eq_false_iff.2 hc)] at h
      exact h

/-- A blank between two stars is kept, so they do not come together. -/
theorem singleStars_squeezeFrom (gap : Bool) (h : SingleStars t) : SingleStars (Text.squeezeFrom gap t) := by
  induction t generalizing gap with
  | nil => exact h
  | cons c r ih =>
    obtain ⟨hhead, hr⟩ := List.isChain_cons.1 h
    by_cases hc : isBlank c = true
    · rw [squeezeFrom_cons_of_blank hc]
      exact ih true hr
    · rw [squeezeFrom_cons_of_not_blank (Bool.eq_false_iff.2 hc)]
      have hword : SingleStars (c :: Text.squeezeFrom false r) := by
        refine List.isChain_cons.2 ⟨?_, ih false hr⟩
        rintro y hy ⟨rfl, rfl⟩
        exact hhead '*' (star_of_head?_squeezeFrom hy) ⟨rfl, rfl⟩
      cases gap with
      | false => exact hword
      | true => exact List.isChain_cons.2 ⟨fun _ _ h => absurd h.1 (by decide), hword⟩

theorem singleStars_squeeze (h : SingleStars t) : SingleStars t.squeeze :=
  singleStars_squeezeFrom false (h.suffix (List.dropWhile_suffix isBlank))

/-! ## Names of the function -/

/-- A character of a name is found in any case, and blanks behind it are dropped. -/
theorem of_after? (h : after? d t = some r) : ∃ (e : Char) (u : Text), t = e :: u ∧ e.toLower = d ∧ r = u.trimStart := by
  cases t with
  | nil => exact absurd h (by simp [after?])
  | cons e u =>
    simp only [after?, Option.ite_none_right_eq_some, Option.some.injEq] at h
    exact ⟨e, u, rfl, h.1, h.2.symm⟩

theorem suffix_of_after? (h : after? d t = some r) : r <:+ t := by
  obtain ⟨e, u, rfl, _, rfl⟩ := of_after? h
  exact (List.dropWhile_suffix isBlank).trans (List.suffix_cons e u)

/-- What stands behind a name is an end of the text. -/
theorem suffix_of_afterName? (h : afterName? t = some r) : r <:+ t := by
  unfold afterName? at h
  split at h
  · next u hu =>
    simp only [Option.bind_eq_some_iff] at h
    obtain ⟨v, ⟨w, hw, hv⟩, h⟩ := h
    exact (suffix_of_after? h).trans ((suffix_of_after? hv).trans ((suffix_of_after? hw).trans
      (suffix_of_after? hu)))
  · exact suffix_of_after? h

/-- What is behind a name begins behind its equality sign and the blanks there. -/
theorem of_afterEquals? (h : afterEquals? t = some r) : ∃ s u : Text, t = s ++ '=' :: u ∧ r = u.trimStart := by
  obtain ⟨q, hq, hr⟩ := Option.bind_eq_some_iff.1 h
  obtain ⟨s, rfl⟩ := suffix_of_afterName? hq
  obtain ⟨e, u, rfl, he, rfl⟩ := of_after? hr
  obtain rfl := (toLower_eq_iff (by decide)).1 he
  exact ⟨s, u, rfl, rfl⟩

/-- What holds of a text, and passes to what follows the equality sign of a name, holds of the text without
names. -/
theorem dropNames_induction {motive : Text → Prop} (ht : motive t)
    (hstep : ∀ s u : Text, motive (s ++ '=' :: u) → motive u.trimStart) : motive (dropNames t) := by
  fun_induction dropNames t with
  | case1 t r hr ih =>
    obtain ⟨s, u, rfl, rfl⟩ := of_afterEquals? hr
    exact ih (hstep s u ht)
  | case2 t hr => exact ht

/-- When all names are dropped, none is left. -/
theorem afterEquals?_dropNames (t : Text) : afterEquals? (dropNames t) = none := by
  fun_induction dropNames t with
  | case1 t r hr ih => exact ih
  | case2 t hr => exact hr

/-- Where no name is, none is dropped. -/
theorem dropNames_of_unnamed (h : afterEquals? t = none) : dropNames t = t := by
  rw [dropNames.eq_def]
  split
  · next r hr => exact absurd (h.symm.trans hr) (by simp)
  · rfl

theorem dropNames_suffix (t : Text) : dropNames t <:+ t := by
  refine dropNames_induction (motive := (· <:+ t)) (List.suffix_refl t) fun s u h => ?_
  exact (List.dropWhile_suffix isBlank).trans (List.IsSuffix.trans ⟨s ++ ['='], by simp⟩ h)

/-! ## Normal forms -/

/-- No part of the text is rewritten, calls of `frac` apart. -/
structure NormalForm (t : Text) : Prop where
  spaced : SingleSpaced t
  unindented : Unindented t
  plain : '\\' ∉ t
  symbolFree : SymbolFree t
  singleStars : SingleStars t
  usual : usualCases t = t
  unnamed : afterEquals? t = none

/-- Dropping the names of a squeezed plain spelling leaves a normal form. -/
theorem normalForm_squeeze {p : Text} (hplain : '\\' ∉ p) :
    NormalForm (dropNames (plainSpelling p).squeeze) := by
  have hspelled : '\\' ∉ plainSpelling p ∧ SymbolFree (plainSpelling p) ∧ SingleStars (plainSpelling p) ∧
      usualCases (plainSpelling p) = plainSpelling p := by
    refine ⟨fun h => ?_, fun c hc => ?_, ?_, usualCases_usualCaseFrom _ [] fun _ h => absurd h List.not_mem_nil⟩
    · rcases mem_fractionsFrom (mem_of_alike (usualCases_alike _) h (by decide)) with h | h
      · exact hplain (mem_of_mem_asciiSymbols (by decide) h)
      · exact absurd h (by decide)
    · by_cases hl : isLetter c = true
      · exact asciiSymbol_of_isLetter hl
      · rcases mem_fractionsFrom (mem_of_alike (usualCases_alike _) hc (Bool.eq_false_iff.2 hl)) with h | h
        · exact symbolFree_asciiSymbols p c h
        · simp only [List.mem_cons, List.not_mem_nil, or_false] at h
          rcases h with rfl | rfl | rfl <;> rfl
    · exact singleStars_of_alike (usualCases_alike _) (singleStars_fractionsFrom (singleStars_replacePair _))
  obtain ⟨hplain, hsymbol, hstars, husual⟩ := hspelled
  generalize plainSpelling p = t at *
  have hsuffix := dropNames_suffix t.squeeze
  refine ⟨(singleSpaced_squeeze t).suffix hsuffix, ?_, fun h => ?_, fun c hc => ?_,
    (singleStars_squeeze hstars).suffix hsuffix, ?_, afterEquals?_dropNames _⟩
  · exact dropNames_induction (unindented_squeeze t) fun s u _ => unindented_trimStart u
  · rcases mem_squeeze (hsuffix.subset h) with h | h
    · exact hplain h
    · exact absurd h (by decide)
  · rcases mem_squeeze (hsuffix.subset hc) with h | rfl
    · exact hsymbol c h
    · rfl
  · refine dropNames_induction (motive := fun t => usualCases t = t) ?_ fun s u h => ?_
    · rw [usualCases_squeeze, husual]
    -- a word does not go across the equality sign
    · rw [usualCases, usualCases_append s u (by decide), ← usualCases] at h
      have hu := (List.append_inj h (length_usualCases s)).2
      rw [usualCases_trimStart, (List.cons.inj hu).2]

/-- The normal form of a text is one. -/
theorem normalForm_normalize (s : Text) : NormalForm (normalize s) := by
  refine normalForm_squeeze ?_
  split
  · exact backslash_not_mem_latexToPlain _
  · next h => exact h

/-- A normal form has only its calls of `frac` rewritten. -/
theorem NormalForm.normalize_eq (h : NormalForm t) : normalize t = dropNames (usualCases (fractions t)).squeeze := by
  rw [normalize, squeeze_of_singleSpaced h.spaced h.unindented]
  simp only [if_neg h.plain, plainSpelling, asciiSymbols_of_symbolFree h.symbolFree h.singleStars]

/-- **What is stable.**  The normal form of a text is its own normal form exactly if no call of `frac` is left in
it. -/
theorem normalize_normalize_iff (s : Text) :
    normalize (normalize s) = normalize s ↔ hasFractionCall false (normalize s) = false := by
  have h := normalForm_normalize s
  generalize normalize s = t at h
  rw [h.normalize_eq]
  constructor
  · intro heq
    rw [Bool.eq_false_iff]
    intro hcall
    have hlt : (fractions t).length < t.length := (length_fractionsFrom false t).2 hcall
    have hle := (dropNames_suffix (usualCases (fractions t)).squeeze).length_le
    have hsqueeze := length_squeeze_le (usualCases (fractions t))
    rw [length_usualCases] at hsqueeze
    rw [heq] at hle
    omega
  · intro hcall
    rw [fractions, fractionsFrom_of_no_call (Bool.eq_false_iff.1 hcall), h.usual,
      squeeze_of_singleSpaced h.spaced h.unindented, dropNames_of_unnamed h.unnamed]

end

/-- **A call that is left**: the group that a quotient begins with is read as that of the word in front. -/
theorem normalize_not_idempotent :
    normalize "frac frac(1,2)".toList = "frac (1)/(2)".toList ∧
      normalize (normalize "frac frac(1,2)".toList) = "(1)/(2)".toList ∧
      normalize (normalize "frac frac(1,2)".toList) ≠ normalize "frac frac(1,2)".toList := by
  have hfirst : normalize "frac frac(1,2)".toList = "frac (1)/(2)".toList := by cbv
  have hsecond : normalize "frac (1)/(2)".toList = "(1)/(2)".toList := by cbv
  rw [hfirst, hsecond]
  exact ⟨rfl, rfl, by decide⟩

end SignChart
