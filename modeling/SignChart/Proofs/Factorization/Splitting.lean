/-
  Taking an expression apart into tokens does not change what it computes.

  The cut is made by looking at single characters and their neighbours, the compiler decides by rank.  Both are
  compared on the syntax tree:

  1. **Passing.**  A separator that does not look like the operators of a tree outside its groups passes over
     the whole text of the tree (`Tree.passes`).  So a term is not taken for a sum (`isSum_term`), and a sum is
     seen (`isSum_sum`).

  2. **Factors.**  A term is its factors in a row, from left to right (`exists_factors`), and the cut gives
     their texts (`cut_factors`).

  3. **Outer parentheses.**  The text of a tree is one group only if the tree is one (`Tree.of_opening`), so
     that what is left without outer parentheses is a tree of the same postorder (`stripParens_tree`).

  4. **Values.**  So each token compiles by itself, and their programs make up the program of the whole
     (`compile_factorTokens`).
-/
import SignChart.Factorization
import SignChart.Proofs.Expr.Spelling

namespace SignChart

/-! ## Passing -/

/-- The separator cuts nowhere in the text when it stands outside all parentheses behind `prev`, whatever
comes next. -/
def Passes (sep : Separator) (prev : Option Char) (w : Text) : Prop :=
  ∀ rest, cutFrom sep 0 prev (w ++ rest) = prepend w (cutFrom sep 0 (charAfter prev w) rest)

/-- A plus or minus behind this character is a sign. -/
def SignDue (prev : Option Char) : Prop := ∀ c ∈ prev, c ∈ ['*', '/', '^', '(', '+', '-']

/-- The separator cuts at no spelling of the operator, where the operator may stand. -/
def PassesOperator (sep : Separator) (o : Operator) : Prop :=
  ∀ w ∈ o.spellings, ∀ prev, (o.isSign = true → SignDue prev) → Passes sep prev w

/-- The separator cuts at no character of a name or a number. -/
def PassesWords (sep : Separator) : Prop := ∀ prev c next, isWordChar c = true → sep prev c next = false

section
variable {sep : Separator} {prev : Option Char} {c : Char} {s t u v w : Text}

theorem passes_nil : Passes sep prev [] := fun _ => rfl

theorem Passes.append (hs : Passes sep prev s) (ht : Passes sep (charAfter prev s) t) :
    Passes sep prev (s ++ t) := by
  intro rest
  rw [List.append_assoc, hs, ht, prepend_append, charAfter_append]

theorem passes_char (ho : c ≠ '(') (hc : c ≠ ')') (h : ∀ next, sep prev c next = false) :
    Passes sep prev [c] := by
  intro rest
  rw [List.singleton_append, cutFrom]
  simp only [h, Bool.false_eq_true, and_false, if_false, if_neg ho, if_neg hc]
  rfl

theorem passes_words (hsep : PassesWords sep) (hw : ∀ c ∈ w, isWordChar c = true) : Passes sep prev w := by
  induction w generalizing prev with
  | nil => exact passes_nil
  | cons c r ih =>
    have hc := hw c List.mem_cons_self
    have hsymbol := (not_symbol_of_isWordChar hc).2
    simp only [List.mem_cons, not_or] at hsymbol
    exact (passes_char hsymbol.1 hsymbol.2.1 fun next => hsep prev c next hc).append
      (ih fun d hd => hw d (List.mem_cons_of_mem _ hd))

/-- Nothing in a group is cut. -/
theorem passes_group (h : Balanced w) : Passes sep prev ('(' :: (w ++ [')'])) := by
  intro rest
  have hinner := cutFrom_of_nesting sep 1 (Or.inl Int.one_pos) (')' :: rest) (some '(') h
  have hopen : cutFrom sep 0 prev ('(' :: (w ++ [')']) ++ rest) =
      prepend ['('] (cutFrom sep (1 + (0 : Nat)) (some '(') (w ++ ')' :: rest)) := by
    rw [List.cons_append, List.append_assoc, cutFrom]
    simp only [ne_eq, not_true_eq_false, false_and, if_false, if_true]
    rfl
  have hclose : cutFrom sep (1 + (0 : Nat)) (charAfter (some '(') w) (')' :: rest) =
      prepend [')'] (cutFrom sep 0 (some ')') rest) := by
    rw [cutFrom]
    simp only [ne_eq, not_true_eq_false, false_and, and_false, if_false]
    rfl
  have hlast : charAfter prev ('(' :: (w ++ [')'])) = some ')' := by
    rw [← List.cons_append, charAfter_append]; rfl
  rw [hopen, hinner, hclose, hlast, ← prepend_append, ← prepend_append]
  rfl

theorem signDue_of_operator {o : Operator} (hw : w ∈ o.spellings) : SignDue (charAfter prev w) := by
  have hlast : ∀ w ∈ o.spellings, ∃ c ∈ w.getLast?, c ∈ ['*', '/', '^', '(', '+', '-'] := by
    cases o <;> simp [Operator.spellings]
  obtain ⟨c, hc, hmem⟩ := hlast w hw
  rw [charAfter_of_getLast? hc]
  rintro d ⟨⟩
  exact hmem

/-- **Passing.**  A separator that cuts at none of the operators that a tree of this category can have outside
its groups cuts nowhere in the text of the tree. -/
theorem Tree.passes (hwords : PassesWords sep) {c : Category} (e : Tree c) (hc : c ≠ .arguments)
    (ht : Spelling e.terminals t) (hops : ∀ o : Operator, c.floor ≤ o.rank → PassesOperator sep o)
    (hprev : SignDue prev) : Passes sep prev t := by
  induction e generalizing t prev with
  | last | more => exact absurd rfl hc
  | term a ih => exact ih (by decide) ht (fun o h => hops o (Nat.le_trans (by decide) h)) hprev
  | factor a ih => exact ih (by decide) ht (fun o h => hops o (Nat.le_trans (by decide) h)) hprev
  | power a ih => exact ih (by decide) ht (fun o h => hops o (Nat.le_trans (by decide) h)) hprev
  | atom a ih => exact ih (by decide) ht (fun o h => hops o (Nat.le_trans (by decide) h)) hprev
  | sum o ho a b iha ihb =>
    obtain ⟨u, w, v, rfl, hw, hu, hv⟩ := spelling_binary.1 ht
    have hop := hops o (by rcases ho with rfl | rfl <;> decide) w hw (charAfter prev u)
      (by rcases ho with rfl | rfl <;> exact fun h => absurd h (by decide))
    exact (iha (by decide) hu hops hprev).append (hop.append
      (ihb (by decide) hv (fun o h => hops o (Nat.le_trans (by decide) h)) (signDue_of_operator hw)))
  | product o ho a b iha ihb =>
    obtain ⟨u, w, v, rfl, hw, hu, hv⟩ := spelling_binary.1 ht
    have hop := hops o (by rcases ho with rfl | rfl <;> decide) w hw (charAfter prev u)
      (by rcases ho with rfl | rfl <;> exact fun h => absurd h (by decide))
    exact (iha (by decide) hu hops hprev).append (hop.append
      (ihb (by decide) hv (fun o h => hops o (Nat.le_trans (by decide) h)) (signDue_of_operator hw)))
  | raise a b iha ihb =>
    obtain ⟨u, w, v, rfl, hw, hu, hv⟩ := spelling_binary.1 ht
    have hop := hops .pow (by decide) w hw (charAfter prev u) (fun h => absurd h (by decide))
    exact (iha (by decide) hu (fun o h => hops o (Nat.le_trans (by decide) h)) hprev).append (hop.append
      (ihb (by decide) hv hops (signDue_of_operator hw)))
  | sign o ho a ih =>
    obtain ⟨w, v, rfl, hw, hv⟩ := spelling_cons.1 ht
    have hop := hops o (by rcases ho with rfl | rfl <;> decide) w hw prev (fun _ => hprev)
    exact hop.append (ih (by decide) hv hops (signDue_of_operator hw))
  | number n value hn hv =>
    obtain rfl := List.mem_singleton.1 (spelling_single.1 ht)
    exact passes_words hwords fun c hc => isWordChar_of_isNumeric (hn c hc)
  | input n _ hn | constant n _ hn =>
    obtain rfl := List.mem_singleton.1 (spelling_single.1 ht)
    exact passes_words hwords (isWordChar_of_isName (isName_of_lookup hn))
  | call g f hg as ih =>
    obtain ⟨u, rfl, hu⟩ := spelling_call.1 ht
    exact (passes_words hwords (isWordChar_of_isName (isName_of_lookup hg))).append
      (passes_group (as.balanced hu))
  | group a ih =>
    obtain ⟨u, rfl, hu⟩ := spelling_group.1 ht
    exact passes_group (a.balanced hu)

/-! ## Sums and products -/

/-- The separator of `factorTokens`. -/
def isFactorSign : Separator := fun prev c next => isProductStar prev c next || c = '/'

theorem passesWords_isSumSign : PassesWords isSumSign := by
  intro prev c next hc
  have h := (not_symbol_of_isWordChar hc).2
  simp only [List.mem_cons, not_or] at h
  simp [isSumSign, h]

theorem passesWords_isFactorSign : PassesWords isFactorSign := by
  intro prev c next hc
  have h := (not_symbol_of_isWordChar hc).2
  simp only [List.mem_cons, not_or] at h
  simp [isFactorSign, isProductStar, h]

/-- What is no plus and no minus between operands is passed in the search for a sum. -/
theorem passes_isSumSign {o : Operator} (ho : 3 ≤ o.rank) : PassesOperator isSumSign o := by
  intro w hw prev hprev
  cases o with
  | add | sub => exact absurd ho (by decide)
  | neg | pos =>
    obtain rfl := List.mem_singleton.1 hw
    refine passes_char (by decide) (by decide) fun next => ?_
    have hany : (prev.any fun p => decide (p ∉ ['*', '/', '^', '(', '+', '-'])) = false := by
      cases prev with
      | none => rfl
      | some d => exact decide_eq_false (not_not.2 (hprev rfl d rfl))
    rw [isSumSign, hany, Bool.and_false]
  | mul | div =>
    obtain rfl := List.mem_singleton.1 hw
    exact passes_char (by decide) (by decide) fun next => rfl
  | pow =>
    rcases List.mem_cons.1 hw with rfl | hw
    · exact passes_char (by decide) (by decide) fun next => rfl
    · obtain rfl := List.mem_singleton.1 hw
      exact Passes.append (s := ['*']) (passes_char (by decide) (by decide) fun next => rfl)
        (passes_char (by decide) (by decide) fun next => rfl)

/-- Powers and signs are passed in the search for factors: a star of a doubled one has another beside it. -/
theorem passes_isFactorSign {o : Operator} (ho : 4 ≤ o.rank) : PassesOperator isFactorSign o := by
  intro w hw prev _
  cases o with
  | add | sub | mul | div => exact absurd ho (by decide)
  | neg | pos =>
    obtain rfl := List.mem_singleton.1 hw
    exact passes_char (by decide) (by decide) fun next => rfl
  | pow =>
    rcases List.mem_cons.1 hw with rfl | hw
    · exact passes_char (by decide) (by decide) fun next => rfl
    · obtain rfl := List.mem_singleton.1 hw
      intro rest
      simp [cutFrom, isFactorSign, isProductStar, prepend, charAfter]

/-- A term is no sum. -/
theorem isSum_term (e : Tree .term) (ht : Spelling e.terminals t) : isSum t = false := by
  have hpass : Passes isSumSign none t :=
    e.passes passesWords_isSumSign (by decide) ht (fun o h => passes_isSumSign h) fun c h => absurd h (by simp)
  have hpass := hpass []
  rw [List.append_nil] at hpass
  rw [isSum, cut, hpass]
  rfl

/-- A sum is one. -/
theorem isSum_sum {o : Operator} (ho : o = .add ∨ o = .sub) (a : Tree .sum) (b : Tree .term)
    (ht : Spelling (Tree.sum o ho a b).terminals t) : isSum t = true := by
  obtain ⟨u, w, v, rfl, hw, hu, _⟩ := spelling_binary.1 ht
  obtain ⟨_, last, hlast, hend⟩ := a.edges hu
  have hnot : last ∉ ['*', '/', '^', '(', '+', '-'] := by
    rcases hend with h | rfl
    · have := (not_symbol_of_isWordChar h).2
      simp only [List.mem_cons, not_or] at this ⊢
      simp [this]
    · decide
  -- the operator is cut at, and nothing in front of it takes the cut away
  have hcut : (cutFrom isSumSign ((0 : Nat) : Int) (charAfter none u) (w ++ v)).2 ≠ [] := by
    rw [charAfter_of_getLast? hlast]
    have hsep : ∀ c, c = '+' ∨ c = '-' → isSumSign (some last) c v.head? = true := by
      intro c hc
      rw [isSumSign, Option.any_some, decide_eq_true hnot, Bool.and_true]
      rcases hc with rfl | rfl <;> rfl
    rcases ho with rfl | rfl <;> obtain rfl := List.mem_singleton.1 hw <;>
      simp [cutFrom, hsep]
  have hsuffix := cutFrom_suffix isSumSign (w ++ v) none (a.balanced hu)
  rw [isSum, decide_eq_true_eq]
  intro hnil
  rw [cut] at hnil
  change (cutFrom isSumSign ((0 : Nat) : Int) none (u ++ (w ++ v))).2 = [] at hnil
  rw [hnil] at hsuffix
  exact hcut (List.suffix_nil.1 hsuffix)

/-! ## Factors -/

/-- The operator that a token is joined with. -/
def FactorOp.operator : FactorOp → Operator
  | .mul => .mul
  | .div => .div

/-- The value with one more token. -/
def FactorOp.apply : FactorOp → Float → Float → Float
  | .mul, a, b => a * b
  | .div, a, b => a / b

/-- Tokens written one after another behind the first. -/
def writeTokens (first : Text) (more : List (FactorOp × Text)) : Text :=
  first ++ more.flatMap fun p => p.1.symbol :: p.2

/-- A term as its factors: the first, and the others with their operators and texts. -/
structure Factors (e : Tree .term) (t : Text) where
  head : Tree .factor
  text : Text
  more : List (FactorOp × Text × Tree .factor)
  spelling : Spelling head.terminals text
  spellings : ∀ p ∈ more, Spelling p.2.2.terminals p.2.1
  text_eq : t = writeTokens text (more.map fun p => (p.1, p.2.1))
  postorder : e.postorder =
    head.postorder ++ more.flatMap fun p => p.2.2.postorder ++ [.operate p.1.operator]
  fits : e.Fits ↔ head.Fits ∧ ∀ p ∈ more, p.2.2.Fits
  value : ∀ x, (e.value x : Float) = more.foldl (fun v p => p.1.apply v (p.2.2.value x)) (head.value x)

theorem exists_factorOp {o : Operator} (ho : o = .mul ∨ o = .div) :
    ∃ op : FactorOp, op.operator = o ∧ o.spellings = [[op.symbol]] ∧
      ∀ a b, o.function.apply [a, b] = op.apply a b := by
  rcases ho with rfl | rfl
  · exact ⟨.mul, rfl, rfl, fun _ _ => rfl⟩
  · exact ⟨.div, rfl, rfl, fun _ _ => rfl⟩

/-- A term is its factors in a row, from left to right. -/
theorem exists_factors : ∀ (e : Tree .term) {t : Text}, Spelling e.terminals t → Nonempty (Factors e t)
  | .factor a, t, ht =>
    ⟨{ head := a, text := t, more := [], spelling := ht
       spellings := fun p hp => absurd hp List.not_mem_nil
       text_eq := by simp [writeTokens]
       postorder := by simp [Tree.postorder]
       fits := by simp [Tree.Fits]
       value := fun _ => rfl }⟩
  | .product o ho a b, t, ht => by
    obtain ⟨u, w, v, rfl, hw, hu, hv⟩ := spelling_binary.1 ht
    obtain ⟨f⟩ := exists_factors a hu
    obtain ⟨op, rfl, hspell, happly⟩ := exists_factorOp ho
    rw [hspell] at hw
    obtain rfl := List.mem_singleton.1 hw
    have hspellings : ∀ p ∈ f.more ++ [(op, v, b)], Spelling p.2.2.terminals p.2.1 := by
      intro p hp
      rcases List.mem_append.1 hp with hp | hp
      · exact f.spellings p hp
      · obtain rfl := List.mem_singleton.1 hp
        exact hv
    have htext : u ++ ([op.symbol] ++ v) =
        writeTokens f.text ((f.more ++ [(op, v, b)]).map fun p => (p.1, p.2.1)) := by
      refine (congrArg (· ++ ([op.symbol] ++ v)) f.text_eq).trans ?_
      simp [writeTokens]
    have hpostorder : a.postorder ++ b.postorder ++ [.operate op.operator] = f.head.postorder ++
        (f.more ++ [(op, v, b)]).flatMap fun p => p.2.2.postorder ++ [.operate p.1.operator] := by
      rw [f.postorder]
      simp
    have hfits : a.Fits ∧ b.Fits ↔ f.head.Fits ∧ ∀ p ∈ f.more ++ [(op, v, b)], p.2.2.Fits := by
      rw [f.fits]
      simp only [List.mem_append, List.mem_singleton, or_imp, forall_and, forall_eq, and_assoc]
    have hvalue : ∀ x, op.operator.function.apply [a.value x, b.value x] =
        (f.more ++ [(op, v, b)]).foldl (fun v p => p.1.apply v (p.2.2.value x)) (f.head.value x) := by
      intro x
      refine (happly _ _).trans ((congrArg (op.apply · (b.value x)) (f.value x)).trans ?_)
      exact (List.foldl_concat (fun (v : Float) (p : FactorOp × Text × Tree .factor) =>
        p.1.apply v (p.2.2.value x)) _ (op, v, b) f.more).symm
    exact ⟨⟨f.head, f.text, f.more ++ [(op, v, b)], f.spelling, hspellings, htext, hpostorder, hfits, hvalue⟩⟩

theorem Edged.not_star (h : Edged t) : (∃ a ∈ t.head?, a ≠ '*') ∧ ∃ b ∈ t.getLast?, b ≠ '*' := by
  obtain ⟨⟨a, ha, ha'⟩, ⟨b, hb, hb'⟩⟩ := h
  refine ⟨⟨a, ha, ?_⟩, ⟨b, hb, ?_⟩⟩
  · rintro rfl
    rcases ha' with h | h <;> exact absurd h (by decide)
  · rintro rfl
    rcases hb' with h | h <;> exact absurd h (by decide)

/-- The text of a factor: no separator of factors cuts it, and no star at its edge runs into another. -/
def FactorText (t : Text) : Prop :=
  Edged t ∧ ∀ prev, SignDue prev → Passes isFactorSign prev t

theorem Tree.factorText (e : Tree .factor) (ht : Spelling e.terminals t) : FactorText t :=
  ⟨e.edges ht, fun _ hprev =>
    e.passes passesWords_isFactorSign (by decide) ht (fun _ h => passes_isFactorSign h) hprev⟩

theorem FactorOp.symbol_eq (op : FactorOp) :
    op.symbol ∈ ['*', '/', '^', '(', '+', '-'] ∧ op.symbol ≠ '(' ∧ op.symbol ≠ ')' := by
  cases op <;> decide

/-- The cut gives the texts of the factors. -/
theorem cut_factors {more : List (FactorOp × Text)} : ∀ {first : Text} {prev : Option Char},
    FactorText first → (∀ p ∈ more, FactorText p.2) → SignDue prev →
      cutFrom isFactorSign 0 prev (writeTokens first more) =
        (first, more.map fun p => (p.1.symbol, p.2)) := by
  induction more with
  | nil =>
    intro first prev hfirst _ hprev
    rw [writeTokens, List.flatMap_nil, hfirst.2 prev hprev []]
    simp [prepend, cutFrom]
  | cons p more ih =>
    intro first prev hfirst hmore hprev
    obtain ⟨op, token⟩ := p
    have htoken := hmore (op, token) List.mem_cons_self
    have hdue : SignDue (some op.symbol) := fun c hc => Option.some.inj hc ▸ op.symbol_eq.1
    have hrest := ih htoken (fun p hp => hmore p (List.mem_cons_of_mem _ hp)) hdue
    obtain ⟨_, last, hlast, hlast'⟩ := hfirst.1.not_star
    obtain ⟨⟨a, ha, ha'⟩, _⟩ := htoken.1.not_star
    -- neither neighbour of the operator is a star
    have hsep : isFactorSign (some last) op.symbol (writeTokens token more).head? = true := by
      have hhead : (writeTokens token more).head? = some a := by
        rw [writeTokens, List.head?_append, Option.mem_def.1 ha]; rfl
      rw [hhead]
      cases op with
      | mul => simp [isFactorSign, isProductStar, FactorOp.symbol, ha', hlast']
      | div => simp [isFactorSign, FactorOp.symbol]
    have hwrite : writeTokens first ((op, token) :: more) = first ++ op.symbol :: writeTokens token more := by
      simp [writeTokens]
    rw [hwrite, hfirst.2 prev hprev, charAfter_of_getLast? hlast, cutFrom]
    simp only [if_neg op.symbol_eq.2.1, if_neg op.symbol_eq.2.2, hrest]
    rw [if_pos ⟨op.symbol_eq.2.1, op.symbol_eq.2.2, Int.le_refl 0, hsep⟩]
    simp [prepend]

theorem FactorOp.ofSymbol (op : FactorOp) : (if op.symbol = '/' then FactorOp.div else .mul) = op := by
  cases op <;> rfl

/-- The tokens of a term are its factors. -/
theorem factorTokens_of_factors {e : Tree .term} (ht : Spelling e.terminals t) (f : Factors e t) :
    factorTokens t = (.mul, f.text) :: f.more.map fun p => (p.1, p.2.1) := by
  have hmore : ∀ p ∈ f.more.map fun p => (p.1, p.2.1), FactorText p.2 := by
    intro p hp
    obtain ⟨q, hq, rfl⟩ := List.mem_map.1 hp
    exact q.2.2.factorText (f.spellings q hq)
  have hdue : SignDue none := fun c hc => absurd hc (by simp)
  have hcut := cut_factors (f.head.factorText f.spelling) hmore hdue
  rw [← f.text_eq] at hcut
  have htokens : factorTokens t = (.mul, (cut isFactorSign t).1) ::
      (cut isFactorSign t).2.map fun p => (if p.1 = '/' then .div else .mul, p.2) := by
    rw [factorTokens, isSum_term e ht]
    rfl
  rw [htokens, cut, hcut, List.map_map, List.map_map]
  simp only [Function.comp_def, FactorOp.ofSymbol]

/-! ## Outer parentheses -/

/-- The text is one group, of a sum with this postorder. -/
def IsGroupOf (is : List Instr) (fits : Prop) (s : Text) : Prop :=
  ∃ a : Tree .sum, Spelling a.terminals s ∧ a.postorder = is ∧ (fits → a.Fits)

/-- Behind the first operand something follows, so that its group does not end with the text. -/
theorem opening_of_append {r : Text} {P : Text → Prop} (heq : '(' :: r = u ++ w) (hu : Edged u) (hw : w ≠ [])
    (h : ∀ r₀, u = '(' :: r₀ → ∃ s r', ∀ rest, untilClose '(' ')' 0 (r₀ ++ rest) = some (s, r' ++ rest)) :
    ∃ s r', (∀ rest, untilClose '(' ')' 0 (r ++ rest) = some (s, r' ++ rest)) ∧ (r' = [] → P s) := by
  obtain ⟨⟨a, ha, _⟩, _⟩ := hu
  obtain ⟨r₀, rfl⟩ := List.head?_eq_some_iff.1 ha
  obtain ⟨rfl, rfl⟩ := List.cons.inj heq
  obtain ⟨s, r', h⟩ := h r₀ rfl
  refine ⟨s, r' ++ w, fun rest => ?_, fun hnil => absurd (List.append_eq_nil_iff.1 hnil).2 hw⟩
  show untilClose '(' ')' 0 (r₀ ++ w ++ rest) = _
  rw [List.append_assoc, h, List.append_assoc]

theorem not_opening_of_words {r : Text} (h : ∀ c ∈ w, isWordChar c = true) : '(' :: r ≠ w := by
  rintro rfl
  exact absurd (h '(' List.mem_cons_self) (by decide)

/-- **A group at the front.**  If the text of a tree begins with a parenthesis, its group ends within the text;
and if it ends with the text, the tree is this group. -/
theorem Tree.of_opening {c : Category} (e : Tree c) {r : Text} (ht : Spelling e.terminals ('(' :: r)) :
    ∃ s r', (∀ rest, untilClose '(' ')' 0 (r ++ rest) = some (s, r' ++ rest)) ∧
      (r' = [] → IsGroupOf e.postorder e.Fits s) := by
  have hoperator : ∀ {o : Operator} {w v : Text}, w ∈ o.spellings → w ++ v ≠ [] := by
    intro o w v hw
    obtain ⟨d, w', rfl, _⟩ := (Terminal.Proper.op o).head hw
    exact List.cons_ne_nil _ _
  induction e generalizing r with
  | term a ih | factor a ih | power a ih | atom a ih | last a ih => exact ih ht
  | sum o _ a b iha _ | product o _ a b iha _ | raise a b iha _ =>
    obtain ⟨u, w, v, heq, hw, hu, _⟩ := spelling_binary.1 ht
    refine opening_of_append heq (a.edges hu) (hoperator hw) fun r₀ h => ?_
    obtain ⟨s, r', h, _⟩ := iha (h ▸ hu)
    exact ⟨s, r', h⟩
  | sign o ho a _ =>
    obtain ⟨w, v, heq, hw, _⟩ := spelling_cons.1 ht
    rcases ho with rfl | rfl <;> obtain rfl := List.mem_singleton.1 hw <;>
      exact absurd (List.cons.inj heq).1 (by decide)
  | number n value hn hv =>
    exact absurd (List.mem_singleton.1 (spelling_single.1 ht))
      (not_opening_of_words fun c hc => isWordChar_of_isNumeric (hn c hc))
  | input n _ hn | constant n _ hn =>
    exact absurd (List.mem_singleton.1 (spelling_single.1 ht))
      (not_opening_of_words (isWordChar_of_isName (isName_of_lookup hn)))
  | call g f hg as _ =>
    obtain ⟨u, heq, _⟩ := spelling_call.1 ht
    obtain ⟨d, g', rfl, hd⟩ := cons_of_isName (isName_of_lookup hg)
    exact absurd ((List.cons.inj heq).1 ▸ hd) (by decide)
  | group a _ =>
    obtain ⟨u, heq, hu⟩ := spelling_group.1 ht
    obtain ⟨_, rfl⟩ := List.cons.inj heq
    refine ⟨u, [], fun rest => ?_, fun _ => ⟨a, hu, rfl, id⟩⟩
    rw [List.append_assoc]
    exact untilClose_of_balanced (a.balanced hu) rest
  | more a as iha _ =>
    obtain ⟨u, v, heq, hu, hv⟩ := spelling_append.1 ht
    obtain ⟨w, v, rfl, hw, _⟩ := spelling_cons.1 hv
    obtain rfl := List.mem_singleton.1 hw
    refine opening_of_append heq (a.edges hu) (List.cons_ne_nil _ _) fun r₀ h => ?_
    obtain ⟨s, r', h, _⟩ := iha (h ▸ hu)
    exact ⟨s, r', h⟩

theorem unwrap?_tree (e : Tree .sum) (ht : Spelling e.terminals t) (h : unwrap? t = some s) :
    IsGroupOf e.postorder e.Fits s := by
  simp only [unwrap?, Option.bind_eq_bind, Option.bind_eq_some_iff] at h
  obtain ⟨g, hg, h⟩ := h
  obtain ⟨⟨hclosed, hbeyond⟩, rfl⟩ : (g.closed = true ∧ g.beyond = []) ∧ g.content = s := by
    split at h
    · next hg => exact ⟨hg, Option.some.inj h⟩
    · exact absurd h (by simp)
  -- the text begins with the group that ends it
  obtain ⟨r, rfl, hread⟩ : ∃ r, t = '(' :: r ∧ untilClose '(' ')' 0 r = some (g.content, []) := by
    cases t with
    | nil => exact absurd hg (by simp [Group.paren?, Group.forward?])
    | cons c r =>
      rw [Group.paren?, Group.forward?] at hg
      split at hg
      · next hc =>
        subst hc
        split at hg
        · next content beyond hread =>
          obtain rfl := Option.some.inj hg
          obtain rfl : beyond = [] := hbeyond
          exact ⟨r, rfl, hread⟩
        · obtain rfl := Option.some.inj hg
          exact absurd hclosed Bool.false_ne_true
      · exact absurd hg (by simp)
  obtain ⟨s, r', hfront, hgroup⟩ := e.of_opening ht
  have hsame := hfront []
  rw [List.append_nil, List.append_nil, hread] at hsame
  obtain ⟨hs, hr⟩ := Prod.mk.inj (Option.some.inj hsame)
  rw [hs]
  exact hgroup hr.symm

/-- **Outer parentheses.**  Without them a text is that of a tree with the same postorder. -/
theorem stripParens_tree (e : Tree .sum) (ht : Spelling e.terminals t) :
    ∃ a : Tree .sum, Spelling a.terminals (stripParens t) ∧ a.postorder = e.postorder ∧ (e.Fits → a.Fits) := by
  fun_induction stripParens t generalizing e with
  | case1 t s hs ih =>
    rw [trim_of_not_blank (e.not_blank ht)] at hs
    obtain ⟨a, ha, hpost, hfits⟩ := unwrap?_tree e ht hs
    obtain ⟨b, hb, hpost', hfits'⟩ := ih a ha
    exact ⟨b, hb, hpost'.trans hpost, fun h => hfits' (hfits h)⟩
  | case2 t hnone =>
    rw [trim_of_not_blank (e.not_blank ht)]
    exact ⟨e, ht, rfl, id⟩

end

/-! ## The value of the tokens -/

/-- The token compiles to this function, which has a value everywhere, and without its outer parentheses it
compiles to the same operations. -/
structure CompilesTo (token : Text) (g : Evaluator) : Prop where
  compiles : compile token = .ok g
  stripped : ∃ g', compile (stripParens token) = .ok g' ∧ g'.program.instrs = g.program.instrs
  total : ∀ x, g.eval x = .ok (g.call x)

theorem call_of_eval {g : Evaluator} {x y : Float} (h : g.eval x = .ok y) : g.call x = y := by
  rw [Evaluator.call, h]

/-- The text of a tree compiles to its postorder, with and without outer parentheses. -/
theorem Tree.compilesTo (e : Tree .sum) {t : Text} (ht : Spelling e.terminals t) (hf : e.Fits) :
    ∃ g, CompilesTo t g ∧ g.program.instrs = e.postorder ∧ ∀ x, g.call x = (e.value x : Float) := by
  obtain ⟨g, hg, hinstrs, heval⟩ := compile_of_spelling e ht hf
  obtain ⟨a, ha, hpost, hfits⟩ := stripParens_tree e ht
  obtain ⟨g', hg', hinstrs', _⟩ := compile_of_spelling a ha (hfits hf)
  refine ⟨g, ⟨hg, ⟨g', hg', ?_⟩, fun x => ?_⟩, hinstrs, fun x => call_of_eval (heval x)⟩
  · rw [hinstrs', hinstrs, hpost]
  · rw [call_of_eval (heval x)]; exact heval x

/-- The functions of the factors behind the first, with their operations and values. -/
theorem exists_functions : ∀ more : List (FactorOp × Text × Tree .factor),
    (∀ p ∈ more, Spelling p.2.2.terminals p.2.1) → (∀ p ∈ more, p.2.2.Fits) →
    ∃ gs : List (FactorOp × Evaluator),
      List.Forall₂ (fun p q => p.1 = q.1 ∧ CompilesTo p.2 q.2) (more.map fun p => (p.1, p.2.1)) gs ∧
      (gs.flatMap fun q => q.2.program.instrs ++ [.operate q.1.operator]) =
        (more.flatMap fun p => p.2.2.postorder ++ [.operate p.1.operator]) ∧
      ∀ x v, gs.foldl (fun v q => q.1.apply v (q.2.call x)) v =
        more.foldl (fun v p => p.1.apply v (p.2.2.value x)) v
  | [], _, _ => ⟨[], .nil, rfl, fun _ _ => rfl⟩
  | (op, token, e) :: more, hspell, hfits => by
    obtain ⟨gs, htokens, hinstrs, hvalue⟩ := exists_functions more
      (fun p hp => hspell p (List.mem_cons_of_mem _ hp)) (fun p hp => hfits p (List.mem_cons_of_mem _ hp))
    obtain ⟨g, hg, hpost, hcall⟩ := (Tree.term (.factor e)).compilesTo
      (hspell _ List.mem_cons_self) (hfits _ List.mem_cons_self)
    refine ⟨(op, g) :: gs, .cons ⟨rfl, hg⟩ htokens, ?_, fun x v => ?_⟩
    · rw [List.flatMap_cons, List.flatMap_cons, hinstrs, hpost]; rfl
    · rw [List.foldl_cons, List.foldl_cons, hvalue, hcall]; rfl

/-- **Taking an expression apart keeps its function.**  The tokens of a canonical text that compiles, written
with their operators, give the text back.  Each of them compiles, without outer parentheses as well; and the
program of the text is that of the first, followed for each other token by its program and its operator, so
that the value is the product and quotient of the values of the tokens, from left to right. -/
theorem compile_factorTokens (s : Text) {f : Evaluator} (hf : compile (canonical s) = .ok f)
    (hcommas : ∀ toks : List Token, (Lexer.ofText (canonical s)).tokens = toks.map .ok →
      CommasInCalls false [] toks) :
    ∃ (first : Text) (more : List (FactorOp × Text)) (g : Evaluator) (gs : List (FactorOp × Evaluator)),
      factorTokens (canonical s) = (.mul, first) :: more ∧
      canonical s = writeTokens first more ∧
      CompilesTo first g ∧ List.Forall₂ (fun p q => p.1 = q.1 ∧ CompilesTo p.2 q.2) more gs ∧
      f.program.instrs =
        g.program.instrs ++ gs.flatMap (fun q => q.2.program.instrs ++ [.operate q.1.operator]) ∧
      ∀ x, f.eval x = .ok (gs.foldl (fun v q => q.1.apply v (q.2.call x)) (g.call x)) := by
  obtain ⟨e, ht, hfits, hinstrs⟩ := tree_of_compile (separated_canonical s) hf hcommas
  obtain ⟨f', hf', _, heval⟩ := compile_of_spelling e ht hfits
  obtain rfl : f' = f := Except.ok.inj (hf'.symm.trans hf)
  cases e with
  -- a sum is its own token
  | sum o ho a b =>
    obtain ⟨g, hg, hpost, hcall⟩ := (Tree.sum o ho a b).compilesTo ht hfits
    refine ⟨canonical s, [], g, [], ?_, (List.append_nil _).symm, hg, .nil, ?_, fun x => ?_⟩
    · rw [factorTokens, isSum_sum ho a b ht, if_pos rfl]
    · rw [hinstrs, hpost]; exact (List.append_nil _).symm
    · rw [heval x, ← hcall x]; rfl
  -- a term is taken apart into its factors
  | term a =>
    obtain ⟨d⟩ := exists_factors a ht
    obtain ⟨hhead, hmore⟩ := d.fits.1 hfits
    obtain ⟨g, hg, hpost, hcall⟩ := (Tree.term (.factor d.head)).compilesTo d.spelling hhead
    obtain ⟨gs, htokens, hpost', hcall'⟩ := exists_functions d.more d.spellings hmore
    refine ⟨d.text, _, g, gs, factorTokens_of_factors ht d, d.text_eq, hg, htokens, ?_, fun x => ?_⟩
    · rw [hinstrs, hpost', hpost]; exact d.postorder
    · rw [heval x, hcall', hcall]; exact congrArg Except.ok (d.value x)

/-- `compile_factorTokens` at a quotient by a factor that has a sign and a power. -/
theorem compile_factorTokens_signedQuotient :
    canonical "2x/-(x-1)^2".toList = "2*x/-(x-1)**2".toList ∧
    ∃ f, compile (canonical "2x/-(x-1)^2".toList) = .ok f ∧
      (∀ toks : List Token, (Lexer.ofText (canonical "2x/-(x-1)^2".toList)).tokens = toks.map .ok →
        CommasInCalls false [] toks) ∧
      ∃ (first : Text) (more : List (FactorOp × Text)) (g : Evaluator) (gs : List (FactorOp × Evaluator)),
        factorTokens (canonical "2x/-(x-1)^2".toList) = (.mul, first) :: more ∧
        canonical "2x/-(x-1)^2".toList = writeTokens first more ∧
        CompilesTo first g ∧ List.Forall₂ (fun p q => p.1 = q.1 ∧ CompilesTo p.2 q.2) more gs ∧
        f.program.instrs =
          g.program.instrs ++ gs.flatMap (fun q => q.2.program.instrs ++ [.operate q.1.operator]) ∧
        ∀ x, f.eval x = .ok (gs.foldl (fun v q => q.1.apply v (q.2.call x)) (g.call x)) := by
  have htokens : (Lexer.ofText (canonical "2x/-(x-1)^2".toList)).tokens =
      ([⟨.number, 0, ['2']⟩, ⟨.op .mul, 1, ['*']⟩, ⟨.ident, 2, ['x']⟩, ⟨.op .div, 3, ['/']⟩,
        ⟨.op .neg, 4, ['-']⟩, ⟨.openParen, 5, ['(']⟩, ⟨.ident, 6, ['x']⟩, ⟨.op .sub, 7, ['-']⟩,
        ⟨.number, 8, ['1']⟩, ⟨.closeParen, 9, [')']⟩, ⟨.op .pow, 10, ['*', '*']⟩,
        ⟨.number, 12, ['2']⟩] : List Token).map .ok := by cbv
  have hcommas : ∀ toks : List Token, (Lexer.ofText (canonical "2x/-(x-1)^2".toList)).tokens = toks.map .ok →
      CommasInCalls false [] toks := by
    intro toks h
    obtain rfl := (List.map_inj_right fun _ _ h => Except.ok.inj h).1 (htokens.symm.trans h)
    decide
  have hparse : parse standardTable (canonical "2x/-(x-1)^2".toList) = .ok
      [⟨.push 2.0, 0, ['2']⟩, ⟨.load ['x'], 2, ['x']⟩, ⟨.operate .mul, 1, ['*']⟩, ⟨.load ['x'], 6, ['x']⟩,
        ⟨.push 1.0, 8, ['1']⟩, ⟨.operate .sub, 7, ['-']⟩, ⟨.push 2.0, 12, ['2']⟩,
        ⟨.operate .pow, 10, ['*', '*']⟩, ⟨.operate .neg, 4, ['-']⟩, ⟨.operate .div, 3, ['/']⟩] := by
    rw [parse, htokens]; rfl
  obtain ⟨f, hf⟩ : ∃ f, compile (canonical "2x/-(x-1)^2".toList) = .ok f :=
    ⟨_, by rw [compile, hparse]; rfl⟩
  exact ⟨by cbv, f, hf, hcommas, compile_factorTokens _ hf hcommas⟩

end SignChart
