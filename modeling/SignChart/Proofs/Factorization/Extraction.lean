/-
  What taking an expression apart collects, and what becomes of each part.

  1. **Tokens.**  `product?` fails on a token exactly when one of its parts is neither a linear factor nor
     a constant (`product?_eq_none_iff`), and otherwise lists the linear factors of the parts in their order
     (`factors_of_product?`).

  2. **Expressions.**  `factorize` is a fold over the tokens.  What one step adds is `addToken_factors` and
     its companions; from them the factors of a whole expression are those of its tokens one after
     another (`factorize_factors`), its zeros and poles are the points of its factors (`factorize_listed`),
     and the tokens left over are those without a product (`mem_unparsed_iff`).

  3. **Parts.**  A part is kept if it is a linear factor of the result, or if its token is left over.
     The test for a constant compares the values at 0 and at 1 and no others, so a part that varies can
     still be taken for one: `kept_iff` says exactly when, and `parabola_not_kept` is such a part.
-/
import Mathlib
import SignChart.Factorization
import SignChart.Input.Canonical

namespace SignChart

/-! ## The product of a token -/

/-- A part that is neither a power of a linear expression nor a constant. -/
def Unrecognized (part : Text) : Prop :=
  linearFactor? (stripParens part) = none ∧ constant? (stripParens part) = none

theorem Product.add?_eq (p : Product Float) (part : Text) :
    p.add? part = match linearFactor? (stripParens part) with
      | some f => some ⟨p.factors ++ [f], p.sign * f.contribution⟩
      | none => (constant? (stripParens part)).map fun c => { p with sign := p.sign * .of c } :=
  rfl

theorem Product.add?_eq_none_iff (p : Product Float) (part : Text) :
    p.add? part = none ↔ Unrecognized part := by
  rw [Product.add?_eq, Unrecognized]
  cases linearFactor? (stripParens part) <;> simp

/-- One more part adds its linear factor, if it is one, and no other. -/
theorem Product.factors_of_add? {p q : Product Float} {part : Text} (h : p.add? part = some q) :
    q.factors = p.factors ++ (linearFactor? (stripParens part)).toList := by
  rw [Product.add?_eq] at h
  cases hf : linearFactor? (stripParens part) with
  | some f =>
    rw [hf] at h
    obtain rfl := Option.some.inj h
    rfl
  | none =>
    rw [hf] at h
    obtain ⟨c, _, rfl⟩ := Option.map_eq_some_iff.1 h
    simp

theorem foldlM_add?_eq_none_iff (parts : List Text) :
    ∀ p : Product Float, parts.foldlM Product.add? p = none ↔ ∃ part ∈ parts, Unrecognized part := by
  induction parts with
  | nil => intro p; simp
  | cons part rest ih =>
    intro p
    have hp := Product.add?_eq_none_iff p part
    simp only [List.foldlM_cons, List.mem_cons, exists_eq_or_imp]
    cases h : p.add? part with
    | none => simp [hp.1 h]
    | some q =>
      have hn : ¬ Unrecognized part := fun hu => by rw [hp.2 hu] at h; simp at h
      simp [ih q, hn]

theorem factors_of_foldlM_add? (parts : List Text) :
    ∀ p q : Product Float, parts.foldlM Product.add? p = some q →
      q.factors = p.factors ++ parts.filterMap fun part => linearFactor? (stripParens part) := by
  induction parts with
  | nil =>
    intro p q h
    obtain rfl := Option.some.inj h
    simp
  | cons part rest ih =>
    intro p q h
    rw [List.foldlM_cons] at h
    obtain ⟨r, hr, hq⟩ := Option.bind_eq_some_iff.1 h
    rw [ih r q hq, Product.factors_of_add? hr, List.append_assoc, List.filterMap_cons]
    cases linearFactor? (stripParens part) <;> rfl

/-- A token has no product exactly when it is empty or has a part that is not recognized. -/
theorem product?_eq_none_iff (token : Text) :
    product? token = none ↔
      stripParens token = [] ∨ ∃ part ∈ tokenParts (stripParens token), Unrecognized part := by
  show (if stripParens token = [] then none else _) = none ↔ _
  by_cases h : stripParens token = []
  · rw [if_pos h]; exact ⟨fun _ => Or.inl h, fun _ => rfl⟩
  · rw [if_neg h, foldlM_add?_eq_none_iff]
    exact ⟨Or.inr, fun h' => h'.resolve_left h⟩

/-- The factors of a token's product are the linear factors of its parts, in their order. -/
theorem factors_of_product? {token : Text} {p : Product Float} (h : product? token = some p) :
    p.factors =
      (tokenParts (stripParens token)).filterMap fun part => linearFactor? (stripParens part) := by
  have h' : (if stripParens token = [] then none
      else (tokenParts (stripParens token)).foldlM Product.add? ⟨[], .plus⟩) = some p := h
  by_cases he : stripParens token = []
  · rw [if_pos he] at h'; exact absurd h' (by simp)
  · rw [if_neg he] at h'
    exact factors_of_foldlM_add? _ _ _ h'

/-! ## The factorization of an expression -/

/-- A linear factor in its place. -/
def LinearFactor.place {α : Type} (type : PointType) (f : LinearFactor α) : Factor α :=
  ⟨type, f.root, f.multiplicity, f.sign, f.base⟩

/-- The critical point of a factor. -/
def Factor.point {α : Type} (f : Factor α) : Point α := ⟨f.type, f.value, f.multiplicity, false⟩

/-- The factors that a token adds. -/
def tokenFactors (op : FactorOp) (token : Text) : List (Factor Float) :=
  match product? token with
  | some p => p.factors.map (LinearFactor.place op.pointType)
  | none => []

/-- The points of one type among factors. -/
def pointsOf {α : Type} (type : PointType) (fs : List (Factor α)) : List (Point α) :=
  (fs.filter fun f => f.type = type).map Factor.point

theorem pointsOf_append {α : Type} (type : PointType) (fs gs : List (Factor α)) :
    pointsOf type (fs ++ gs) = pointsOf type fs ++ pointsOf type gs := by
  simp [pointsOf]

/-- Linear factors put in a place of one type are points of that type and of no other. -/
theorem pointsOf_map_place {α : Type} (type place : PointType) (fs : List (LinearFactor α)) :
    pointsOf type (fs.map (LinearFactor.place place)) =
      if place = type then fs.map fun f => ⟨place, f.root, f.multiplicity, false⟩ else [] := by
  induction fs with
  | nil => simp [pointsOf]
  | cons f rest ih =>
    rw [List.map_cons, ← List.singleton_append, pointsOf_append, ih]
    by_cases h : place = type <;> simp [pointsOf, LinearFactor.place, Factor.point, h]

theorem addToken_factors (s : Factorization Float) (op : FactorOp) (token : Text) :
    (s.addToken op token).factors = s.factors ++ tokenFactors op token := by
  unfold Factorization.addToken tokenFactors
  cases product? token with
  | none => simp
  | some p => cases op <;> rfl

/-- The points of one type that a factorization lists. -/
def Factorization.listed {α : Type} (s : Factorization α) : PointType → List (Point α)
  | .zero => s.zeros
  | .pole => s.poles

theorem addToken_listed (s : Factorization Float) (op : FactorOp) (token : Text) (type : PointType) :
    (s.addToken op token).listed type = s.listed type ++ pointsOf type (tokenFactors op token) := by
  unfold Factorization.addToken tokenFactors
  cases product? token with
  | none => cases type <;> simp [pointsOf, Factorization.listed]
  | some p =>
    simp only [pointsOf_map_place]
    cases op <;> cases type <;> simp [Factorization.addProduct, FactorOp.pointType, Factorization.listed]

theorem addToken_unparsed (s : Factorization Float) (op : FactorOp) (token : Text) :
    (s.addToken op token).unparsed =
      s.unparsed ++ if product? token = none then [⟨op, token⟩] else [] := by
  unfold Factorization.addToken
  cases product? token with
  | none => simp
  | some p => cases op <;> simp [Factorization.addProduct, FactorOp.pointType]

/-- **The run lemma.**  What holds before the first token and is kept by one more token holds of the
factorization of the whole expression. -/
theorem factorize_induction {motive : List (FactorOp × Text) → Factorization Float → Prop}
    (start : motive [] .empty)
    (step : ∀ tokens s op token,
      motive tokens s → motive (tokens ++ [(op, token)]) (s.addToken op token))
    (t : Text) : motive (factorTokens t) (factorize t) := by
  -- over what is left of the tokens, from any state reached so far
  have fold : ∀ (rest tokens : List (FactorOp × Text)) (s : Factorization Float), motive tokens s →
      motive (tokens ++ rest) (rest.foldl (fun s p => s.addToken p.1 p.2) s) := by
    intro rest
    induction rest with
    | nil => intro tokens s h; rwa [List.append_nil]
    | cons p rest ih =>
      intro tokens s h
      have h' := ih (tokens ++ [p]) (s.addToken p.1 p.2) (step tokens s p.1 p.2 h)
      rwa [List.append_assoc, List.singleton_append] at h'
  exact fold (factorTokens t) [] .empty start

/-- The factors of an expression are those of its tokens, one token after another. -/
theorem factorize_factors (t : Text) :
    (factorize t).factors = (factorTokens t).flatMap fun (op, token) => tokenFactors op token := by
  refine factorize_induction
    (motive := fun tokens s => s.factors = tokens.flatMap fun (op, token) => tokenFactors op token)
    rfl ?_ t
  intro tokens s op token h
  rw [addToken_factors, h, List.flatMap_append, List.flatMap_cons, List.flatMap_nil, List.append_nil]

/-- The zeros of an expression are the points of its factors in the numerator, its poles those of its
factors in the denominator. -/
theorem factorize_listed (t : Text) (type : PointType) :
    (factorize t).listed type = pointsOf type (factorize t).factors := by
  refine factorize_induction
    (motive := fun _ s => s.listed type = pointsOf type s.factors) (by cases type <;> rfl) ?_ t
  intro tokens s op token h
  rw [addToken_listed, addToken_factors, pointsOf_append, h]

/-- The tokens left over are those without a product. -/
theorem mem_unparsed_iff {t : Text} {op : FactorOp} {token : Text} :
    ⟨op, token⟩ ∈ (factorize t).unparsed ↔ (op, token) ∈ factorTokens t ∧ product? token = none := by
  refine factorize_induction
    (motive := fun tokens s =>
      ⟨op, token⟩ ∈ s.unparsed ↔ (op, token) ∈ tokens ∧ product? token = none)
    (by simp [Factorization.empty]) ?_ t
  intro tokens s op' token' h
  rw [addToken_unparsed, List.mem_append, List.mem_append, h]
  by_cases hp : product? token' = none
  · rw [if_pos hp]; grind
  · rw [if_neg hp]; grind

/-! ## What becomes of a part -/

/-- The linear factor of a part stands among the factors of the expression, with its critical point
among the zeros or the poles. -/
def Factorization.Holds (s : Factorization Float) (type : PointType) (f : LinearFactor Float) : Prop :=
  f.place type ∈ s.factors ∧ (f.place type).point ∈ s.listed type

/-- A part of a token is kept: it is one of the linear factors of the expression, or its whole token is
left over for the search. -/
def Kept (t : Text) (op : FactorOp) (token part : Text) : Prop :=
  (∃ f, linearFactor? (stripParens part) = some f ∧ (factorize t).Holds op.pointType f) ∨
    ⟨op, token⟩ ∈ (factorize t).unparsed

/-- A function depends on its argument: it has two finite values that differ by more than the tolerance
for constants. -/
def Evaluator.Varies (f : Evaluator) : Prop :=
  ∃ a b, (f.call a).isFinite = true ∧ (f.call b).isFinite = true ∧ 1e-6 < (f.call a - f.call b).abs

/-- The values at 0 and 1 are finite and do not differ by more than the tolerance for constants. -/
def Evaluator.LevelAtEnds (f : Evaluator) : Prop :=
  (f.call 0.0).isFinite = true ∧ (f.call 1.0).isFinite = true ∧ ¬ 1e-6 < (f.call 0.0 - f.call 1.0).abs

/-- The test for a constant looks at the two ends and nowhere else. -/
theorem constant?_ne_none_iff {part : Text} {f : Evaluator} (hf : compile part = .ok f) :
    constant? part ≠ none ↔ f.LevelAtEnds := by
  unfold constant? endValues? Evaluator.LevelAtEnds
  simp only [hf, Except.toOption, Option.bind_eq_bind, Option.bind_some]
  by_cases h0 : (f.call 0.0).isFinite <;> by_cases h1 : (f.call 1.0).isFinite <;> simp [h0, h1]

/-- What a linear factor says of its base: the base has a function that is finite at 0 and 1, and slope
and root are taken from these two values alone. -/
theorem of_linearFactor? {part : Text} {g : LinearFactor Float} (h : linearFactor? part = some g) :
    g.base = stripParens (splitPower part).1 ∧ 'x' ∈ g.base ∧
      ∃ f, compile g.base = .ok f ∧ ¬ (f.call 1.0 - f.call 0.0).abs < 1e-9 ∧
        g.root = snapZero (-f.call 0.0 / (f.call 1.0 - f.call 0.0)) := by
  unfold linearFactor? at h
  dsimp only at h
  split at h
  · simp at h
  · next hx =>
    obtain ⟨f, hf, h⟩ := Option.bind_eq_some_iff.1 h
    obtain ⟨⟨y, z⟩, hyz, h⟩ := Option.bind_eq_some_iff.1 h
    -- the two values that the slope is computed from
    have hends : y = f.call 0.0 ∧ z = f.call 1.0 := by
      simp only [endValues?] at hyz
      split at hyz
      · cases hyz; exact ⟨rfl, rfl⟩
      · simp at hyz
    obtain ⟨rfl, rfl⟩ := hends
    have hc : compile (stripParens (splitPower part).1) = .ok f := by
      cases hc : compile (stripParens (splitPower part).1) with
      | error e => rw [hc] at hf; simp [Except.toOption] at hf
      | ok f' => rw [hc] at hf; exact congrArg Except.ok (Option.some.inj hf)
    split at h
    · simp at h
    · next hslope =>
      split at h
      · obtain rfl := Option.some.inj h
        exact ⟨rfl, Decidable.not_not.1 hx, f, hc, hslope, rfl⟩
      · simp at h

/-- A part that is no power and whose function lies on a line is a linear factor. -/
theorem linearFactor?_of_line {part : Text} {f : Evaluator} {a b : Float} (hpower : splitPower part = (part, 1))
    (hstrip : stripParens part = part) (hx : 'x' ∈ part) (hf : compile part = .ok f)
    (hends : endValues? f = some (a, b)) (hslope : ¬ (b - a).abs < 1e-9)
    (hline : [-1.0, 2.0, 0.5].all (onLine f (b - a) a) = true) :
    linearFactor? part = some ⟨snapZero (-a / (b - a)), 1, .of (b - a), part⟩ := by
  have hok : (compile part).toOption = some f := by rw [hf]; rfl
  unfold linearFactor?
  rw [hpower]
  dsimp only
  rw [hstrip, if_neg (not_not.2 hx), hok, Option.bind_eq_bind, Option.bind_some, hends, Option.bind_eq_bind,
    Option.bind_some]
  dsimp only
  rw [if_neg hslope, if_pos hline]

/-- A token with a single part that is linear is its factor. -/
theorem product?_of_line {token part : Text} {f : LinearFactor Float} (htoken : stripParens token = part)
    (hne : part ≠ []) (hparts : tokenParts part = [part]) (hstrip : stripParens part = part)
    (hf : linearFactor? part = some f) : product? token = some ⟨[f], .plus * f.contribution⟩ := by
  rw [product?, htoken, if_neg hne, hparts, List.foldlM_cons, Product.add?_eq, hstrip, hf]
  rfl

/-- A linear part of a token with a product is one of the factors of the expression. -/
theorem holds_of_linearFactor? {t : Text} {op : FactorOp} {token part : Text} {f : LinearFactor Float}
    (htoken : (op, token) ∈ factorTokens t) (hpart : part ∈ tokenParts (stripParens token))
    (hf : linearFactor? (stripParens part) = some f) (hp : product? token ≠ none) :
    (factorize t).Holds op.pointType f := by
  obtain ⟨p, hp⟩ := Option.ne_none_iff_exists'.1 hp
  have hmem : f ∈ p.factors := by
    rw [factors_of_product? hp]
    exact List.mem_filterMap.2 ⟨part, hpart, hf⟩
  have hplace : f.place op.pointType ∈ (factorize t).factors := by
    rw [factorize_factors]
    refine List.mem_flatMap.2 ⟨(op, token), htoken, ?_⟩
    show f.place op.pointType ∈ tokenFactors op token
    rw [tokenFactors, hp]
    exact List.mem_map_of_mem hmem
  refine ⟨hplace, ?_⟩
  rw [factorize_listed]
  exact List.mem_map_of_mem (List.mem_filter.2 ⟨hplace, by simp [LinearFactor.place]⟩)

/-- A part is kept if it is linear or its token has no product, and not otherwise. -/
theorem kept_iff_or {t : Text} {op : FactorOp} {token part : Text}
    (htoken : (op, token) ∈ factorTokens t) (hpart : part ∈ tokenParts (stripParens token)) :
    Kept t op token part ↔ linearFactor? (stripParens part) ≠ none ∨ product? token = none := by
  constructor
  -- only a token without a product is left over
  · rintro (⟨g, hg, _⟩ | hu)
    · left; rw [hg]; simp
    · exact Or.inr (mem_unparsed_iff.1 hu).2
  · intro h
    by_cases hp : product? token = none
    · exact Or.inr (mem_unparsed_iff.2 ⟨htoken, hp⟩)
    · obtain ⟨g, hg⟩ := Option.ne_none_iff_exists'.1 (h.resolve_right hp)
      exact Or.inl ⟨g, hg, holds_of_linearFactor? htoken hpart hg hp⟩

theorem compile_nil : compile [] = .error (.eval ⟨.empty, none⟩) := by
  have htokens : (Lexer.ofText []).tokens = [] := by rw [Lexer.tokens]; rfl
  have hparse : parse standardTable [] = .ok [] := by rw [parse, htokens]; rfl
  rw [compile, hparse]
  rfl

/-- A token with a part that has a function is not empty. -/
theorem stripParens_ne_nil_of_compile {token part : Text} {f : Evaluator}
    (hpart : part ∈ tokenParts (stripParens token)) (hf : compile (stripParens part) = .ok f) :
    stripParens token ≠ [] := by
  intro he
  rw [he, show tokenParts [] = [[]] from rfl, List.mem_singleton] at hpart
  rw [hpart, show stripParens [] = [] by rw [stripParens]; rfl, compile_nil] at hf
  exact absurd hf (by simp)

/-- **What becomes of a part.**  A part with a function is kept exactly when it is linear, or its
values at 0 and 1 are not finite or differ, or another part of its token is not recognized.  A part that
varies is dropped in the one case that remains. -/
theorem kept_iff {t : Text} {op : FactorOp} {token part : Text} {f : Evaluator}
    (htoken : (op, token) ∈ factorTokens t) (hpart : part ∈ tokenParts (stripParens token))
    (hf : compile (stripParens part) = .ok f) :
    Kept t op token part ↔
      linearFactor? (stripParens part) ≠ none ∨ ¬ f.LevelAtEnds ∨
        ∃ other ∈ tokenParts (stripParens token), Unrecognized other := by
  rw [kept_iff_or htoken hpart, product?_eq_none_iff]
  have hne := stripParens_ne_nil_of_compile hpart hf
  have hlevel := constant?_ne_none_iff hf
  constructor
  · rintro (hl | he | ho)
    · exact Or.inl hl
    · exact absurd he hne
    · exact Or.inr (Or.inr ho)
  · rintro (hl | hl | ho)
    · exact Or.inl hl
    · by_cases hg : linearFactor? (stripParens part) = none
      · -- neither linear nor level: the part itself is not recognized
        have hc : constant? (stripParens part) = none :=
          Decidable.byContradiction fun hc => hl (hlevel.1 hc)
        exact Or.inr (Or.inr ⟨part, hpart, hg, hc⟩)
      · exact Or.inl hg
    · exact Or.inr (Or.inr ho)

/-! ### A part that is dropped

The parabola `x*x-x` is zero at 0 and at 1.  In a product it passes for the constant 0, and the zeros
that it has there are found neither as factors nor, since nothing is left over, by the search. -/

def parabola : Text := "x*x-x".toList

/-- The parabola in parentheses. -/
def parabolaToken : Text := "(x*x-x)".toList

/-- The parabola times a line. -/
def cubic : Text := "(x*x-x)*(x-3)".toList

theorem compile_parabola : ∃ f, compile parabola = .ok f ∧ ∀ x, f.call x = x * x - x := by
  have htokens : (Lexer.ofText parabola).tokens =
      [.ok ⟨.ident, 0, ['x']⟩, .ok ⟨.op .mul, 1, ['*']⟩, .ok ⟨.ident, 2, ['x']⟩,
        .ok ⟨.op .sub, 3, ['-']⟩, .ok ⟨.ident, 4, ['x']⟩] := by cbv
  have hparse : parse standardTable parabola = .ok
      [⟨.load ['x'], 0, ['x']⟩, ⟨.load ['x'], 2, ['x']⟩, ⟨.operate .mul, 1, ['*']⟩,
        ⟨.load ['x'], 4, ['x']⟩, ⟨.operate .sub, 3, ['-']⟩] := by
    rw [parse, htokens]; rfl
  exact ⟨_, by rw [compile, hparse]; rfl, fun x => rfl⟩

theorem parabolaToken_mem : (FactorOp.mul, parabolaToken) ∈ factorTokens cubic := by decide

theorem tokenParts_parabolaToken : tokenParts (stripParens parabolaToken) = [parabola] := by
  rw [show stripParens parabolaToken = parabola by cbv]
  decide

theorem stripParens_parabola : stripParens parabola = parabola := by cbv

theorem linearFactor?_parabola : linearFactor? parabola = none := by
  cases h : linearFactor? parabola with
  | none => rfl
  | some g =>
    obtain ⟨f, hf, hx⟩ := compile_parabola
    obtain ⟨hbase, _, f', hf', hslope, _⟩ := of_linearFactor? h
    rw [show splitPower parabola = (parabola, 1) by decide, stripParens_parabola] at hbase
    rw [hbase, hf] at hf'
    obtain rfl := Except.ok.inj hf'
    rw [hx, hx] at hslope
    exact absurd (by decide) hslope

/-- **A part that varies and is dropped**: the parabola in `cubic`. -/
theorem parabola_not_kept :
    canonical cubic = cubic ∧ (FactorOp.mul, parabolaToken) ∈ factorTokens cubic ∧
      parabola ∈ tokenParts (stripParens parabolaToken) ∧
      (∃ f, compile (stripParens parabola) = .ok f ∧ f.Varies) ∧
      ¬ Kept cubic .mul parabolaToken parabola := by
  obtain ⟨f, hf, hx⟩ := compile_parabola
  have hpart : parabola ∈ tokenParts (stripParens parabolaToken) := by
    rw [tokenParts_parabolaToken]; exact List.mem_singleton_self _
  refine ⟨by cbv, parabolaToken_mem, hpart, ⟨f, by rw [stripParens_parabola]; exact hf, ?_⟩, ?_⟩
  · refine ⟨2.0, 0.0, ?_, ?_, ?_⟩ <;> simp only [hx] <;> decide
  · have hlevel : constant? parabola ≠ none := by
      refine (constant?_ne_none_iff hf).2 ⟨?_, ?_, ?_⟩ <;> simp only [hx] <;> decide
    rw [kept_iff_or parabolaToken_mem hpart, product?_eq_none_iff, tokenParts_parabolaToken]
    rintro (hl | he | ⟨other, ho, hu⟩)
    · rw [stripParens_parabola] at hl
      exact hl linearFactor?_parabola
    · exact stripParens_ne_nil_of_compile hpart (by rw [stripParens_parabola]; exact hf) he
    · obtain rfl := List.mem_singleton.1 ho
      rw [Unrecognized, stripParens_parabola] at hu
      exact hlevel hu.2

/-- `kept_iff` at the dropped part: all three of its conditions fail. -/
theorem kept_iff_parabola :
    (FactorOp.mul, parabolaToken) ∈ factorTokens cubic ∧
      parabola ∈ tokenParts (stripParens parabolaToken) ∧
      ∃ f, compile (stripParens parabola) = .ok f ∧
        (Kept cubic .mul parabolaToken parabola ↔
          linearFactor? (stripParens parabola) ≠ none ∨ ¬ f.LevelAtEnds ∨
            ∃ other ∈ tokenParts (stripParens parabolaToken), Unrecognized other) := by
  obtain ⟨f, hf, _⟩ := compile_parabola
  have hpart : parabola ∈ tokenParts (stripParens parabolaToken) := by
    rw [tokenParts_parabolaToken]; exact List.mem_singleton_self _
  have hf' : compile (stripParens parabola) = .ok f := by rw [stripParens_parabola]; exact hf
  exact ⟨parabolaToken_mem, hpart, f, hf', kept_iff parabolaToken_mem hpart hf'⟩

end SignChart
