/-
  The exponent of a part.

  `splitPower` looks from the end of a part for digits, in parentheses or not, and a power in front of them; what is left is
  the base, if it is an atom.  The compiler reads the same part from the left, by rank.

  1. **Parts.**  Canonical text, and all that is made of it on the way to the factors, has no operands side by side
     (`CanonicalPart.separated`): the parts lie between symbols, and so whole words stay whole.

  2. **The first atom.**  The base is an atom that nothing goes on with.  A tree whose text begins with such an atom has it
     at its left edge (`Tree.exists_atom`).  A tower of powers, a sign or a cut through a group leaves no atom for a base.

  3. **The exponent.**  What is left is a power sign and the digits.  Since every parenthesis of a tree has a partner, the
     digits have none or both (`EndsInPower.parens`), and they spell the number that is counted (`readFloat_digits`).

  So the part spells the power of its base (`Tree.isPowerOf`), and its program is that of the base and two instructions more
  (`compile_splitPower`).
-/
import SignChart.Proofs.Factorization.Splitting
import SignChart.Proofs.Input.CanonicalForm
import SignChart.Proofs.Number.Bits
import SignChart.Proofs.Text.Cutting

namespace SignChart

section
variable {c : Char} {k : PieceKind} {l m o r s t u v w base digits first : Text} {more : List (Char × Text)}

/-! ## Parts -/

/-- A canonical text, or something that the program takes from one on its way to the factors: a token, a part of it, either
without outer parentheses. -/
inductive CanonicalPart : Text → Prop where
  | whole (s : Text) : CanonicalPart (canonical s)
  | token {t token : Text} {op : FactorOp} (h : CanonicalPart t) (ht : (op, token) ∈ factorTokens t) :
      CanonicalPart token
  | part {t part : Text} (h : CanonicalPart t) (hp : part ∈ tokenParts t) : CanonicalPart part
  | stripped {t : Text} (h : CanonicalPart t) : CanonicalPart (stripParens t)

theorem Separated.mono {k' : PieceKind} (h : Separated k t) (hk : k'.ends = false) : Separated k' t := by
  cases h with
  | nil => exact .nil _
  | symbol hc h => exact .symbol hc h
  | opening _ h => exact .opening hk h
  | closing h => exact .closing h
  | number _ hne hw h => exact .number hk hne hw h
  | value _ hw h => exact .value hk hw h
  | function _ hw hv hstop h => exact .function hk hw hv hstop h

/-- A word ends in front of the first character that is no part of one. -/
theorem exists_append_of_words (hw : ∀ d ∈ w, isWordChar d = true) (hc : isWordChar c = false)
    (h : w ++ t = u ++ c :: v) : ∃ a, u = w ++ a ∧ t = a ++ c :: v := by
  rcases List.append_eq_append_iff.1 h with ⟨a, rfl, ht⟩ | ⟨b, rfl, hb⟩
  · exact ⟨a, rfl, ht⟩
  · cases b with
    | nil => exact ⟨[], by simp, hb.symm⟩
    | cons d b =>
      obtain ⟨rfl, -⟩ := List.cons.inj hb
      exact absurd (hc.symm.trans (hw c (by simp))) Bool.false_ne_true

/-- A text without operands side by side may be cut at each character that is no part of a word. -/
theorem Separated.cut_at (h : Separated k s) (hc : isWordChar c = false) :
    ∀ {u v}, s = u ++ c :: v → Separated k u ∧ Separated (symbolKind c) v := by
  induction h with
  | nil => exact fun h => absurd h (by simp)
  | symbol hd h ih =>
    intro u v heq
    rcases List.cons_eq_append_iff.1 heq with ⟨rfl, hsame⟩ | ⟨u, rfl, hrest⟩
    · obtain ⟨rfl, rfl⟩ := List.cons.inj hsame
      refine ⟨.nil _, ?_⟩
      rwa [symbolKind, if_neg hd.2.2.2.1, if_neg hd.2.2.2.2]
    · exact ⟨.symbol hd (ih hrest).1, (ih hrest).2⟩
  | opening hk h ih =>
    intro u v heq
    rcases List.cons_eq_append_iff.1 heq with ⟨rfl, hsame⟩ | ⟨u, rfl, hrest⟩
    · obtain ⟨rfl, rfl⟩ := List.cons.inj hsame
      exact ⟨.nil _, h⟩
    · exact ⟨.opening hk (ih hrest).1, (ih hrest).2⟩
  | closing h ih =>
    intro u v heq
    rcases List.cons_eq_append_iff.1 heq with ⟨rfl, hsame⟩ | ⟨u, rfl, hrest⟩
    · obtain ⟨rfl, rfl⟩ := List.cons.inj hsame
      exact ⟨.nil _, h⟩
    · exact ⟨.closing (ih hrest).1, (ih hrest).2⟩
  | number hk hne hw h ih =>
    intro u v heq
    obtain ⟨a, rfl, hrest⟩ := exists_append_of_words (fun d hd => isWordChar_of_isNumeric (hw d hd)) hc heq
    exact ⟨.number hk hne hw (ih hrest).1, (ih hrest).2⟩
  | value hk hw h ih =>
    intro u v heq
    obtain ⟨a, rfl, hrest⟩ := exists_append_of_words (isWordChar_of_isName (isName_of_mem_valueWords hw)) hc heq
    exact ⟨.value hk hw (ih hrest).1, (ih hrest).2⟩
  | function hk hw hv hstop h ih =>
    intro u v heq
    obtain ⟨a, rfl, hrest⟩ := exists_append_of_words (isWordChar_of_isName hw) hc heq
    refine ⟨.function hk hw hv (fun d hd => hstop d ?_) (ih hrest).1, (ih hrest).2⟩
    rw [hrest]
    exact List.mem_head?_append_of_mem_head? hd

/-- The pieces between symbols have no operands side by side if the text has none. -/
theorem Separated.of_cut (hk : k.ends = false) (hsymbols : ∀ p ∈ more, p.1 = '*' ∨ p.1 = '/') :
    Separated k (joinCut (first, more)) → ∀ s ∈ first :: more.map Prod.snd, Separated .other s := by
  induction more generalizing first k with
  | nil =>
    intro h s hs
    obtain rfl := List.mem_singleton.1 hs
    rw [joinCut, List.flatMap_nil, List.append_nil] at h
    exact h.mono rfl
  | cons p more ih =>
    intro h s hs
    obtain ⟨hp, hsymbols⟩ := List.forall_mem_cons.1 hsymbols
    have hword : isWordChar p.1 = false ∧ symbolKind p.1 = .other := by rcases hp with h | h <;> rw [h] <;> decide
    obtain ⟨hfirst, hrest⟩ := h.cut_at hword.1 (joinCut_cons first p more)
    rcases List.mem_cons.1 hs with rfl | hs
    · exact hfirst.mono rfl
    · exact ih (by rw [hword.2]; rfl) hsymbols hrest s hs

/-- A text is wrapped if it is a balanced text in parentheses. -/
theorem unwrap?_eq_some_iff : unwrap? t = some s ↔ t = '(' :: (s ++ [')']) ∧ BalancedIn '(' ')' s := by
  rw [← forward?_closed_iff (by decide)]
  simp only [unwrap?, Option.bind_eq_bind, Option.bind_eq_some_iff, Option.ite_none_right_eq_some, Option.some.injEq]
  constructor
  · rintro ⟨⟨content, beyond, closed⟩, hg, ⟨rfl, rfl⟩, rfl⟩
    exact hg
  · exact fun hg => ⟨_, hg, ⟨rfl, rfl⟩, rfl⟩

theorem Separated.stripParens (h : Separated .other t) : Separated .other (stripParens t) := by
  fun_induction SignChart.stripParens t with
  | case1 t s hs ih =>
    rw [trim_of_not_blank h.not_blank] at hs
    obtain ⟨rfl, -⟩ := unwrap?_eq_some_iff.1 hs
    obtain ⟨-, hinner⟩ := h.cut_at (u := []) (c := '(') (by decide) rfl
    exact ih ((hinner.cut_at (c := ')') (by decide) rfl).1.mono rfl)
  | case2 t hnone =>
    rwa [trim_of_not_blank h.not_blank]

/-- What is cut at stars and slashes has no operands side by side. -/
theorem Separated.cut (sep : Separator) (hsep : ∀ prev c next, sep prev c next = true → c = '*' ∨ c = '/')
    (h : Separated .other t) : ∀ s ∈ (cut sep t).1 :: (cut sep t).2.map Prod.snd, Separated .other s := by
  refine Separated.of_cut (k := .other) rfl (fun p hp => ?_) ((joinCut_cut sep t).symm ▸ h)
  obtain ⟨-, -, _, _, hp⟩ := separates_of_mem_cutFrom sep 0 none t p hp
  exact hsep _ _ _ hp

/-- **Parts.**  No part has operands side by side. -/
theorem CanonicalPart.separated (h : CanonicalPart t) : Separated .other t := by
  induction h with
  | whole s => exact separated_canonical s
  | @token t token op _ ht ih =>
    have hpieces := ih.cut isFactorSign fun prev c next hc => by
      simp only [isFactorSign, isProductStar, Bool.or_eq_true, Bool.and_eq_true, decide_eq_true_eq] at hc
      exact hc.imp_left fun h => h.1.1
    rw [factorTokens] at ht
    split at ht
    · obtain ⟨-, rfl⟩ := Prod.mk.inj (List.mem_singleton.1 ht)
      exact ih
    · refine hpieces token ?_
      rcases List.mem_cons.1 ht with hfirst | hmore
      · rw [(Prod.mk.inj hfirst).2]
        exact List.mem_cons_self
      · obtain ⟨p, hp, heq⟩ := List.mem_map.1 hmore
        rw [← (Prod.mk.inj heq).2]
        exact List.mem_cons_of_mem _ (List.mem_map_of_mem hp)
  | @part t part _ hp ih =>
    have hpieces := ih.cut isProductStar fun prev c next hc => by
      simp only [isProductStar, Bool.and_eq_true, decide_eq_true_eq] at hc
      exact .inl hc.1.1
    rw [tokenParts] at hp
    split at hp
    · obtain rfl := List.mem_singleton.1 hp
      exact ih
    · exact hpieces part hp
  | stripped _ ih => exact ih.stripParens

/-! ## Reading an exponent from the end -/

theorem dropOne_append (c : Char) (t : Text) : ∃ p, (p = [] ∨ p = [c]) ∧ t = p ++ dropOne c t := by
  rw [dropOne]
  split
  · next h =>
    obtain ⟨r, rfl⟩ := List.head?_eq_some_iff.1 h
    exact ⟨[c], .inr rfl, rfl⟩
  · exact ⟨[], .inl rfl, rfl⟩

/-- What is read from the end: a base, a sign of a power, and digits in parentheses, of which any may be missing. -/
structure EndsInPower (t base digits l o r : Text) : Prop where
  text : t = base ++ (o ++ (l ++ (digits ++ r)))
  power : o ∈ Operator.spellings .pow
  opening : l = [] ∨ l = ['(']
  closing : r = [] ∨ r = [')']
  base_ne_nil : base ≠ []
  digits_ne_nil : digits ≠ []
  isDigit : ∀ c ∈ digits, c.isDigit = true

/-- The base is not all of the text. -/
theorem EndsInPower.base_ne (h : EndsInPower t base digits l o r) : base ≠ t := by
  intro heq
  have hlength := congrArg List.length (heq.trans h.text)
  have hdigits := List.length_pos_iff.2 h.digits_ne_nil
  simp only [List.length_append] at hlength
  omega

theorem trailingPower?_eq_some (h : trailingPower? t = some (base, digits)) :
    ∃ l o r, EndsInPower t base digits l o r := by
  obtain ⟨r, hr, hrev⟩ := dropOne_append ')' t.reverse
  obtain ⟨l, hl, hrest⟩ := dropOne_append '(' ((dropOne ')' t.reverse).dropWhile Char.isDigit)
  have hturn : ∀ {c : Char} {p : Text}, p = [] ∨ p = [c] → p.reverse = p := by rintro c p (rfl | rfl) <;> rfl
  have hspan := List.takeWhile_append_dropWhile (p := Char.isDigit) (l := dropOne ')' t.reverse)
  simp only [trailingPower?] at h
  split at h
  · next rev hpower =>
    obtain ⟨⟨hdigits, hbase, -⟩, h⟩ := Option.ite_none_right_eq_some.1 h
    obtain ⟨rfl, rfl⟩ := Prod.mk.inj (Option.some.inj h)
    obtain ⟨o, ho, hsign⟩ : ∃ o ∈ Operator.spellings .pow,
        dropOne '(' ((dropOne ')' t.reverse).dropWhile Char.isDigit) = o ++ rev := by
      split at hpower
      · next b heq =>
        obtain rfl := Option.some.inj hpower
        exact ⟨['*', '*'], by decide, heq⟩
      · next b heq =>
        obtain rfl := Option.some.inj hpower
        exact ⟨['^'], by decide, heq⟩
      · exact absurd hpower (by simp)
    have hsame : o.reverse = o := by
      have hall : ∀ o ∈ Operator.spellings .pow, o.reverse = o := by decide
      exact hall o ho
    refine ⟨l, o, r, ?_, ho, hl, hr, by simpa using hbase, by simpa using hdigits, fun c hc => ?_⟩
    · rw [← hspan, hrest, hsign, List.reverse_eq_iff] at hrev
      refine hrev.trans ?_
      simp only [List.reverse_append, hturn hr, hturn hl, hsame, List.append_assoc]
    · exact List.mem_takeWhile_imp (List.mem_reverse.1 hc)
  · exact absurd h (by simp)

/-! ## The first atom -/

/-- An atom is a word or a group. -/
theorem isAtomicBase_iff : isAtomicBase t = true ↔
    (∀ c ∈ t, isWordChar c = true) ∨ ∃ s, t = '(' :: (s ++ [')']) ∧ BalancedIn '(' ')' s := by
  rw [isAtomicBase, Bool.or_eq_true, isWrapped, Option.isSome_iff_exists, or_comm]
  exact or_congr List.all_eq_true (exists_congr fun s => unwrap?_eq_some_iff)

/-- An atom begins with a letter, a digit, a point or a parenthesis. -/
theorem head_of_atom (hbase : isAtomicBase base = true) (hne : base ≠ []) :
    ∃ d r, base = d :: r ∧ (isWordChar d = true ∨ d = '(') := by
  rcases isAtomicBase_iff.1 hbase with hword | ⟨s, rfl, -⟩
  · obtain ⟨d, r, rfl⟩ := List.exists_cons_of_ne_nil hne
    exact ⟨d, r, rfl, .inl (hword d List.mem_cons_self)⟩
  · exact ⟨_, _, rfl, .inr rfl⟩

theorem untilClose_of_balancedIn (hs : BalancedIn '(' ')' s) (r : Text) :
    untilClose '(' ')' 0 (s ++ ')' :: r) = some (s, r) :=
  (untilClose_eq_some_iff (by decide)).2 ⟨rfl, balancedIn_iff.1 hs⟩

/-- A tree does not end inside a group that it begins with. -/
theorem Tree.eq_nil_of_group {c : Category} (a : Tree c) (hu : Spelling a.terminals u) (hs : BalancedIn '(' ')' s)
    (h : '(' :: (s ++ [')']) = u ++ v) : v = [] := by
  obtain ⟨⟨d, hd, -⟩, -⟩ := a.edges hu
  obtain ⟨u, rfl⟩ := List.head?_eq_some_iff.1 hd
  obtain ⟨rfl, hinner⟩ := List.cons.inj h
  obtain ⟨s', r, hread, -⟩ := a.of_opening hu
  have hend := hread v
  rw [show u ++ v = s ++ [')'] from hinner.symm, untilClose_of_balancedIn hs] at hend
  exact (List.append_eq_nil_iff.1 (Prod.mk.inj (Option.some.inj hend)).2.symm).2

/-- What goes on with no atom: nothing, or what begins neither with a character of a word nor with an opening
parenthesis. -/
def EndsAtom (m : Text) : Prop := ∀ d ∈ m.head?, isWordChar d = false ∧ d ≠ '('

theorem Operator.endsAtom (o : Operator) (hw : w ∈ o.spellings) (v : Text) : EndsAtom (w ++ v) := by
  have hall : o.spellings.flatten.all (fun d => !isWordChar d && d != '(') = true := by cases o <;> rfl
  obtain ⟨d, w, rfl, -⟩ := (Terminal.Proper.op o).head hw
  intro d' hd
  obtain rfl := Option.some.inj hd
  have hd := List.all_eq_true.1 hall d (List.mem_flatten.2 ⟨_, hw, List.mem_cons_self⟩)
  simpa using hd

/-- In front of what goes on with no atom, a word ends. -/
theorem EndsAtom.eq_word (hm : EndsAtom m) (hw : ∀ d ∈ w, isWordChar d = true) (h : base ++ m = w) : base = w := by
  subst h
  cases m with
  | nil => exact (List.append_nil base).symm
  | cons d m => exact absurd ((hm d rfl).1.symm.trans (hw d (by simp))) Bool.false_ne_true

/-- An atom in front of a text is in front of the left operand. -/
theorem Tree.atom_of_left {c : Category} (a : Tree c) {o : Operator} (hu : Spelling a.terminals u)
    (hw : w ∈ o.spellings) (hbase : isAtomicBase base = true) (hm : EndsAtom m) (h : base ++ m = u ++ (w ++ v)) :
    ∃ m', u = base ++ m' ∧ EndsAtom m' := by
  rcases List.append_eq_append_iff.1 h with ⟨m', rfl, rfl⟩ | ⟨x, rfl, hx⟩
  · exact ⟨m', rfl, fun d hd => hm d (List.mem_head?_append_of_mem_head? hd)⟩
  cases x with
  | nil => exact ⟨[], by simp, fun d hd => absurd hd (by simp)⟩
  | cons d x =>
    -- the operator would be in the atom
    rcases isAtomicBase_iff.1 hbase with hword | ⟨s, hgroup, hs⟩
    · have hd := (o.endsAtom hw v d (by rw [hx]; rfl)).1
      exact absurd (hd.symm.trans (hword d (by simp))) Bool.false_ne_true
    · exact absurd (a.eq_nil_of_group hu hs hgroup.symm) (List.cons_ne_nil _ _)

/-- **The first atom.**  If the text of a tree begins with an atom that nothing goes on with, this is an atom of the tree. -/
theorem Tree.exists_atom {c : Category} (e : Tree c) (hc : c ≠ .arguments) (hne : base ≠ [])
    (hbase : isAtomicBase base = true) (hm : EndsAtom m) (ht : Spelling e.terminals (base ++ m)) :
    ∃ a : Tree .atom, Spelling a.terminals base ∧ (e.Fits → a.Fits) := by
  obtain ⟨d, r, hcons, hd⟩ := head_of_atom hbase hne
  induction e generalizing m with
  | last | more => exact absurd rfl hc
  | term a ih | factor a ih | power a ih | atom a ih => exact ih (by decide) hm ht
  | sum o _ a b iha _ | product o _ a b iha _ | raise a b iha _ =>
    obtain ⟨u, w, v, heq, hw, hu, -⟩ := spelling_binary.1 ht
    obtain ⟨m', rfl, hm'⟩ := a.atom_of_left hu hw hbase hm heq
    obtain ⟨a', ha', hfits⟩ := iha (by decide) hm' hu
    exact ⟨a', ha', fun h => hfits h.1⟩
  -- no atom begins with a sign
  | sign o ho a _ =>
    obtain ⟨w, v, heq, hw, -⟩ := spelling_cons.1 ht
    have hsign := o.endsAtom hw v d (by rw [← heq, hcons]; rfl)
    rcases hd with hd | hd
    · exact absurd (hsign.1.symm.trans hd) Bool.false_ne_true
    · exact absurd hd hsign.2
  | number n value hn hv =>
    obtain rfl := hm.eq_word (fun c hc => isWordChar_of_isNumeric (hn c hc)) (List.mem_singleton.1 (spelling_single.1 ht))
    exact ⟨.number base value hn hv, spelling_single.2 (List.mem_singleton_self _), id⟩
  | input n slot hn =>
    obtain rfl := hm.eq_word (isWordChar_of_isName (isName_of_lookup hn)) (List.mem_singleton.1 (spelling_single.1 ht))
    exact ⟨.input base slot hn, spelling_single.2 (List.mem_singleton_self _), id⟩
  | constant n value hn =>
    obtain rfl := hm.eq_word (isWordChar_of_isName (isName_of_lookup hn)) (List.mem_singleton.1 (spelling_single.1 ht))
    exact ⟨.constant base value hn, spelling_single.2 (List.mem_singleton_self _), id⟩
  -- the name of a function goes on with a parenthesis
  | call g f hg as _ =>
    obtain ⟨u, heq, -⟩ := spelling_call.1 ht
    rcases isAtomicBase_iff.1 hbase with hword | ⟨s, rfl, -⟩
    · obtain ⟨x, rfl, rfl⟩ := exists_append_of_words hword (by decide) heq
      cases x with
      | nil => exact absurd rfl (hm '(' rfl).2
      | cons d x =>
        have hname := isWordChar_of_isName (isName_of_lookup hg) d (by simp)
        exact absurd ((hm d rfl).1.symm.trans hname) Bool.false_ne_true
    · obtain ⟨d, g, rfl, hd⟩ := cons_of_isName (isName_of_lookup hg)
      exact absurd ((List.cons.inj heq).1 ▸ hd) (by decide)
  | group a _ =>
    obtain ⟨u, heq, hu⟩ := spelling_group.1 ht
    rcases isAtomicBase_iff.1 hbase with hword | ⟨s, rfl, hs⟩
    · obtain ⟨rfl, -⟩ := List.cons.inj (hcons ▸ heq)
      exact absurd (hword '(' (hcons ▸ List.mem_cons_self)) (by decide)
    · have hinner : s ++ ')' :: m = u ++ [')'] := by simpa using (List.cons.inj heq).2
      have hread := untilClose_of_balancedIn hs m
      rw [hinner, untilClose_of_balanced (a.balanced hu) []] at hread
      obtain ⟨rfl, rfl⟩ := Prod.mk.inj (Option.some.inj hread)
      exact ⟨.group a, spelling_group.2 ⟨u, rfl, hu⟩, id⟩

/-! ## The exponent -/

/-- A number without a point or an exponent part stands for itself. -/
theorem Literal.value_ofNat {n : Nat} (hpos : 1 ≤ n) (hmax : n ≤ maxMultiplicity) :
    Literal.value ⟨n, 0⟩ = Float.ofNat n := by
  have hlength : (Nat.toDigits 10 n).length ≤ 10 :=
    (Nat.length_toDigits_le_iff (by decide) (by decide)).2 (Nat.lt_of_le_of_lt hmax (by decide))
  have hlow : ¬ (n = 0 ∨ (0 : Int) + (Nat.toDigits 10 n).length < -330) := by omega
  have hhigh : ¬ (311 : Int) < 0 + (Nat.toDigits 10 n).length := by omega
  rw [Literal.value]
  simp only [if_neg hlow, if_neg hhigh]
  rfl

/-- A row of digits up to the greatest multiplicity spells its value. -/
theorem readFloat_digits (hne : digits ≠ []) (hdigits : ∀ c ∈ digits, c.isDigit = true)
    (hpos : 1 ≤ digitsValue digits) (hmax : digitsValue digits ≤ maxMultiplicity) :
    readFloat digits = .ok (Float.ofNat (digitsValue digits)) := by
  have hsign : readSign digits = (false, digits) := by
    unfold readSign
    split
    · exact absurd (hdigits '-' List.mem_cons_self) (by decide)
    · exact absurd (hdigits '+' List.mem_cons_self) (by decide)
    · rfl
  have hlower : digits.asciiLower = digits := by
    refine (List.map_congr_left fun c hc => toLower_of_not_upper ?_).trans (List.map_id' digits)
    have hdigit : 48 ≤ c.toNat ∧ c.toNat ≤ 57 := Char.isDigit_iff_toNat.1 (hdigits c hc)
    rw [Bool.eq_false_iff, Ne, isUpper_iff]
    omega
  have hword : ∀ w : Text, (∃ c ∈ w, c.isDigit = false) → digits.asciiLower ≠ w := by
    rintro w ⟨c, hc, hdigit⟩ rfl
    rw [hlower] at hc
    exact absurd ((hdigits c hc).symm.trans hdigit) (by decide)
  have hliteral : readLiteral digits = some ⟨digitsValue digits, 0⟩ := by
    have htake : digits.takeWhile Char.isDigit = digits := List.takeWhile_eq_self_iff.2 hdigits
    have hdrop : digits.dropWhile Char.isDigit = [] := List.dropWhile_eq_nil_iff.2 hdigits
    simp [readLiteral, htake, hdrop, hne, readExponent]
  have hunsigned : readUnsigned digits = some (Float.ofNat (digitsValue digits)) := by
    have hinf : ¬ (digits.asciiLower = "inf".toList ∨ digits.asciiLower = "infinity".toList) :=
      not_or.2 ⟨hword _ ⟨'i', by decide⟩, hword _ ⟨'i', by decide⟩⟩
    rw [readUnsigned, if_neg hinf, if_neg (hword _ ⟨'n', by decide⟩), hliteral, Option.map_some,
      Literal.value_ofNat hpos hmax]
  rw [readFloat, if_neg hne, hsign]
  simp only [hunsigned]
  rfl

/-- The digits of an exponent are in parentheses or not: each of these has its partner in the text, and so among
themselves. -/
theorem EndsInPower.parens (h : EndsInPower t base digits l o r) (ht : Balanced t) (hbase : Balanced base) :
    l = [] ∧ r = [] ∨ l = ['('] ∧ r = [')'] := by
  have hdigits : Balanced digits :=
    balanced_of_words fun c hc => isWordChar_of_isNumeric (isNumeric_of_isDigit (h.isDigit c hc))
  have hexponent : nesting 0 (l ++ (digits ++ r)) = some 0 := by
    rw [h.text, Balanced, nesting_append, hbase, Option.bind_some, nesting_append,
      Operator.balanced .pow h.power] at ht
    exact ht
  rcases h.opening with rfl | rfl <;> rcases h.closing with rfl | rfl
  · exact .inl ⟨rfl, rfl⟩
  · rw [List.nil_append, nesting_append, hdigits] at hexponent
    exact absurd hexponent (by decide)
  · rw [List.append_nil, List.singleton_append, nesting_opening, hdigits.nesting_eq] at hexponent
    exact absurd hexponent (by decide)
  · exact .inr ⟨rfl, rfl⟩

/-- The digits of an exponent, with or without parentheses, spell a factor. -/
theorem exists_exponent {value : Float} (hvalue : readFloat digits = .ok value)
    (hdigits : ∀ c ∈ digits, c.isDigit = true) (h : l = [] ∧ r = [] ∨ l = ['('] ∧ r = [')']) :
    ∃ b : Tree .factor, Spelling b.terminals (l ++ (digits ++ r)) ∧ b.Fits ∧ b.postorder = [.push value] ∧
      ∀ x, (b.value x : Float) = value := by
  let number : Tree .factor :=
    .power (.atom (.number digits value (fun c hc => isNumeric_of_isDigit (hdigits c hc)) hvalue))
  have hnumber : Spelling number.terminals digits := spelling_single.2 (List.mem_singleton_self _)
  rcases h with ⟨rfl, rfl⟩ | ⟨rfl, rfl⟩
  · exact ⟨number, by simpa using hnumber, trivial, rfl, fun _ => rfl⟩
  · exact ⟨.power (.atom (.group (.term (.factor number)))), spelling_group.2 ⟨digits, rfl, hnumber⟩, trivial, rfl,
      fun _ => rfl⟩

/-! ## Powers -/

/-- Trees of one postorder have one value, that of its run. -/
theorem value_eq_of_postorder_eq {a b : Tree .sum} (h : a.postorder = b.postorder) (ha : a.Fits) (hb : b.Fits)
    (x : Float) : (a.value x : Float) = b.value x := by
  let program : Program := a.postorder.map fun i => ⟨i, 0, []⟩
  have hprogram : program.instrs = a.postorder := by
    rw [Program.instrs, List.map_map]
    exact List.map_id _
  exact Except.ok.inj ((eval_of_instrs hprogram ha x).symm.trans (eval_of_instrs (hprogram.trans h) hb x))

/-- The text of a tree compiles without its outer parentheses to the same function. -/
theorem Tree.compile_stripParens (e : Tree .sum) (ht : Spelling e.terminals t) (hf : e.Fits) :
    ∃ g, compile (SignChart.stripParens t) = .ok g ∧ g.program.instrs = e.postorder ∧ ∀ x, g.eval x = .ok (e.value x) := by
  obtain ⟨a, ha, hpostorder, hfits⟩ := stripParens_tree e ht
  obtain ⟨g, hg, hinstrs, heval⟩ := compile_of_spelling a ha (hfits hf)
  refine ⟨g, hg, hinstrs.trans hpostorder, fun x => ?_⟩
  rw [heval x, value_eq_of_postorder_eq hpostorder (hfits hf) hf x]

/-- The function is a power of what a text computes: its program is that of the text, then the number `n` and a power. -/
def IsPowerOf (f : Evaluator) (base : Text) (n : Nat) : Prop :=
  ∃ g, compile base = .ok g ∧ f.program.instrs = g.program.instrs ++ [.push (Float.ofNat n), .operate .pow] ∧
    ∀ x, ∃ y, g.eval x = .ok y ∧ f.eval x = .ok (y.pow (Float.ofNat n))

/-- The text compiles to the function, up to places in the source. -/
def ComputesAs (t : Text) (f : Evaluator) : Prop :=
  ∃ g, compile t = .ok g ∧ g.program.instrs = f.program.instrs ∧ ∀ x, g.eval x = f.eval x

/-- What `splitPower` makes of a part that compiles to `f`. -/
structure SplitsPower (part base : Text) (n : Nat) (f : Evaluator) : Prop where
  positive : 1 ≤ n
  /-- The number that is pushed is the multiplicity. -/
  exact : HasValue.value (Float.ofNat n) = n
  whole : base = part → n = 1
  /-- The part is the base, a power and digits for the number. -/
  written : base ≠ part → ∃ digits l o r, EndsInPower part base digits l o r ∧
    digitsValue digits = n ∧ readFloat digits = .ok (Float.ofNat n)
  power : base ≠ part → IsPowerOf f base n
  /-- A linear factor that is reported has this multiplicity, and a base of which the part is this power. -/
  reported : ∀ p, linearFactor? part = some p → p.multiplicity = n ∧
    (base = part → ComputesAs p.base f) ∧ (base ≠ part → IsPowerOf f p.base n)

/-- A text that compiles and is split is the power of its base. -/
theorem Tree.isPowerOf {n : Nat} {f : Evaluator} (e : Tree .sum) (ht : Spelling e.terminals t) (hfits : e.Fits)
    (hf : compile t = .ok f) (h : EndsInPower t base digits l o r) (hbase : isAtomicBase base = true)
    (hvalue : readFloat digits = .ok (Float.ofNat n)) :
    IsPowerOf f base n ∧ IsPowerOf f (SignChart.stripParens base) n := by
  obtain ⟨a, ha, hafits⟩ := e.exists_atom (by decide) h.base_ne_nil hbase (Operator.endsAtom .pow h.power _) (h.text ▸ ht)
  obtain ⟨b, hb, hbfits, hpush, hbvalue⟩ :=
    exists_exponent hvalue h.isDigit (h.parens (e.balanced ht) (a.balanced ha))
  let p : Tree .sum := .term (.factor (.power (.raise a b)))
  have hp : Spelling p.terminals t := by
    rw [h.text]
    exact spelling_binary.2 ⟨_, _, _, rfl, h.power, ha, hb⟩
  obtain ⟨f', hf', hinstrs, heval⟩ := compile_of_spelling p hp ⟨hafits hfits, hbfits⟩
  obtain rfl : f' = f := Except.ok.inj (hf'.symm.trans hf)
  have hprogram : f'.program.instrs = a.postorder ++ [.push (Float.ofNat n), .operate .pow] := by
    rw [hinstrs]
    show a.postorder ++ b.postorder ++ [.operate .pow] = _
    rw [hpush, List.append_assoc]
    rfl
  have hpow : ∀ x, f'.eval x = .ok ((a.value x : Float).pow (Float.ofNat n)) := by
    intro x
    rw [heval x, ← hbvalue x]
    rfl
  have hatom : Spelling (Tree.term (.factor (.power (.atom a)))).terminals base := ha
  obtain ⟨g, hg, hginstrs, hgeval⟩ := compile_of_spelling _ hatom (hafits hfits)
  obtain ⟨g', hg', hginstrs', hgeval'⟩ := Tree.compile_stripParens _ hatom (hafits hfits)
  exact ⟨⟨g, hg, by rw [hginstrs]; exact hprogram, fun x => ⟨_, hgeval x, hpow x⟩⟩,
    g', hg', by rw [hginstrs']; exact hprogram, fun x => ⟨_, hgeval' x, hpow x⟩⟩

/-- A linear factor has the exponent that is split off, and its base has no outer parentheses. -/
theorem linearFactor?_eq_some {p : LinearFactor Float} (h : linearFactor? t = some p) :
    p.multiplicity = (splitPower t).2 ∧ p.base = stripParens (splitPower t).1 := by
  simp only [linearFactor?, Option.bind_eq_bind, Option.ite_none_left_eq_some, Option.ite_none_right_eq_some,
    Option.bind_eq_some_iff, Option.some.injEq] at h
  obtain ⟨-, f, -, ends, -, -, -, rfl⟩ := h
  exact ⟨rfl, rfl⟩

/-- Only a whole power of an atom is split. -/
theorem splitPower_eq (t : Text) : splitPower t = (t, 1) ∨ ∃ base digits,
    trailingPower? t = some (base, digits) ∧ splitPower t = (base, digitsValue digits) ∧
      isAtomicBase base = true ∧ 1 ≤ digitsValue digits ∧ digitsValue digits ≤ maxMultiplicity := by
  rw [splitPower]
  cases htrailing : trailingPower? t with
  | none => exact .inl rfl
  | some p =>
    obtain ⟨base, digits⟩ := p
    by_cases h : isAtomicBase base = true ∧ 1 ≤ digitsValue digits ∧ digitsValue digits ≤ maxMultiplicity
    · exact .inr ⟨base, digits, rfl, if_pos h, h⟩
    · exact .inl (if_neg h)

/-- **Splitting off an exponent keeps the function.**  If a canonical part compiles, with commas directly in calls only,
then what is left in front of the exponent compiles, and the part is its power. -/
theorem compile_splitPower {part base : Text} {n : Nat} {f : Evaluator} (hpart : CanonicalPart part)
    (hf : compile part = .ok f)
    (hcommas : ∀ toks : List Token, (Lexer.ofText part).tokens = toks.map .ok → CommasInCalls false [] toks)
    (hsplit : splitPower part = (base, n)) : SplitsPower part base n f := by
  obtain ⟨e, ht, hfits, -⟩ := tree_of_compile hpart.separated hf hcommas
  rcases splitPower_eq part with hwhole | ⟨base', digits, htrailing, hpower, hatomic, hpos, hmax⟩
  · obtain ⟨rfl, rfl⟩ := Prod.mk.inj (hwhole.symm.trans hsplit)
    obtain ⟨g, hg, hginstrs, hgeval⟩ := e.compile_stripParens ht hfits
    obtain ⟨f', hf', hinstrs, heval⟩ := compile_of_spelling e ht hfits
    obtain rfl : f' = f := Except.ok.inj (hf'.symm.trans hf)
    have hcomputes : ComputesAs (stripParens part) f' :=
      ⟨g, hg, hginstrs.trans hinstrs.symm, fun x => (hgeval x).trans (heval x).symm⟩
    exact
      { positive := Nat.le_refl 1
        exact := (Float.ofNat_spec (by decide)).2
        whole := fun _ => rfl
        written := fun h => absurd rfl h
        power := fun h => absurd rfl h
        reported := fun p hp => by
          obtain ⟨hn, hbase⟩ := linearFactor?_eq_some hp
          rw [hsplit] at hn hbase
          exact ⟨hn, fun _ => hbase ▸ hcomputes, fun h => absurd rfl h⟩ }
  · obtain ⟨rfl, rfl⟩ := Prod.mk.inj (hpower.symm.trans hsplit)
    obtain ⟨l, o, r, hends⟩ := trailingPower?_eq_some htrailing
    have hvalue := readFloat_digits hends.digits_ne_nil hends.isDigit hpos hmax
    obtain ⟨hbase, hstripped⟩ := e.isPowerOf ht hfits hf hends hatomic hvalue
    have hlarge : digitsValue digits < 2 ^ 53 := Nat.lt_of_le_of_lt hmax (by decide)
    exact
      { positive := hpos
        exact := (Float.ofNat_spec hlarge).2
        whole := fun h => absurd h hends.base_ne
        written := fun _ => ⟨digits, l, o, r, hends, rfl, hvalue⟩
        power := fun _ => hbase
        reported := fun p hp => by
          obtain ⟨hn, hstrip⟩ := linearFactor?_eq_some hp
          rw [hsplit] at hn hstrip
          exact ⟨hn, fun h => absurd h hends.base_ne, fun _ => hstrip ▸ hstripped⟩ }

/-- `compile_splitPower` at a factor of a denominator. -/
theorem compile_splitPower_denominator :
    CanonicalPart "(x-1)**(3)".toList ∧
    ∃ f, compile "(x-1)**(3)".toList = .ok f ∧
      (∀ toks : List Token, (Lexer.ofText "(x-1)**(3)".toList).tokens = toks.map .ok → CommasInCalls false [] toks) ∧
      splitPower "(x-1)**(3)".toList = ("(x-1)".toList, 3) ∧
      SplitsPower "(x-1)**(3)".toList "(x-1)".toList 3 f := by
  have hcanonical : canonical "2/(x(x-1)^(3))".toList = "2/(x*(x-1)**(3))".toList := by cbv
  have hstripped : stripParens "(x*(x-1)**(3))".toList = "x*(x-1)**(3)".toList := by cbv
  have hdenominator : (FactorOp.div, "(x*(x-1)**(3))".toList) ∈ factorTokens "2/(x*(x-1)**(3))".toList := by decide
  have hwhole : CanonicalPart "2/(x*(x-1)**(3))".toList := hcanonical ▸ .whole _
  have htoken : CanonicalPart "(x*(x-1)**(3))".toList := hwhole.token hdenominator
  have hpart : CanonicalPart "(x-1)**(3)".toList := (hstripped ▸ htoken.stripped).part (by decide)
  have htokens : (Lexer.ofText "(x-1)**(3)".toList).tokens =
      ([⟨.openParen, 0, ['(']⟩, ⟨.ident, 1, ['x']⟩, ⟨.op .sub, 2, ['-']⟩, ⟨.number, 3, ['1']⟩,
        ⟨.closeParen, 4, [')']⟩, ⟨.op .pow, 5, ['*', '*']⟩, ⟨.openParen, 7, ['(']⟩, ⟨.number, 8, ['3']⟩,
        ⟨.closeParen, 9, [')']⟩] : List Token).map .ok := by cbv
  have hcommas : ∀ toks : List Token, (Lexer.ofText "(x-1)**(3)".toList).tokens = toks.map .ok →
      CommasInCalls false [] toks := by
    intro toks h
    obtain rfl := (List.map_inj_right fun _ _ h => Except.ok.inj h).1 (htokens.symm.trans h)
    decide
  have hparse : parse standardTable "(x-1)**(3)".toList = .ok
      [⟨.load ['x'], 1, ['x']⟩, ⟨.push 1.0, 3, ['1']⟩, ⟨.operate .sub, 2, ['-']⟩, ⟨.push 3.0, 8, ['3']⟩,
        ⟨.operate .pow, 5, ['*', '*']⟩] := by
    rw [parse, htokens]; rfl
  obtain ⟨f, hf⟩ : ∃ f, compile "(x-1)**(3)".toList = .ok f := ⟨_, by rw [compile, hparse]; rfl⟩
  have hsplit : splitPower "(x-1)**(3)".toList = ("(x-1)".toList, 3) := by decide
  exact ⟨hpart, f, hf, hcommas, hsplit, compile_splitPower hpart hf hcommas hsplit⟩

end

end SignChart
