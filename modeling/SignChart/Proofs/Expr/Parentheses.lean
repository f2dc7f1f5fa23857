/-
  Which parenthesis is reported.

  The parser keeps one frame for every parenthesis that is open, and looks at the frames only where a parenthesis closes
  and at the end.  Partners are defined here without frames: a closing parenthesis and an opening one in front of it are
  partners if the tokens between them are balanced (`HasOpening`, `HasClosing`).

  1. **Step.**  Reading a token adds a frame, takes one away or leaves them alone, according to the kind of the token and
     to nothing else; only a closing parenthesis without a frame is a mismatch (`shifts_of_read`, `mismatch_of_read`).

  2. **Invariant.**  The frames are the opening parentheses without a partner, the last one first, and around them all
     parentheses have partners (`Pending`).  A closing parenthesis makes a group of what was read since the last one.

  3. **Run.**  A parser that reads tokens to the end succeeds, or fails at a token, with the frames of what it has read
     (`readAll_cases`, `pending_of_readsTo`).

  **`parens_of_parse`** reads off where the frames are empty and where they are not.
-/
import Mathlib
import SignChart.Expr.Postfix

namespace SignChart

/-! ## Partners -/

def openings (toks : List Token) : Nat := toks.countP fun tok => tok.kind = .openParen

def closings (toks : List Token) : Nat := toks.countP fun tok => tok.kind = .closeParen

/-- No beginning of the tokens closes more parentheses than it opens, and together they close as many. -/
structure BalancedTokens (toks : List Token) : Prop where
  beginning : ∀ before behind, toks = before ++ behind → closings before ≤ openings before
  total : closings toks = openings toks

/-- A closing parenthesis right behind these tokens has a partner among them. -/
def HasOpening (before : List Token) : Prop :=
  ∃ outer tok inner, before = outer ++ tok :: inner ∧ tok.kind = .openParen ∧ BalancedTokens inner

/-- An opening parenthesis right in front of these tokens has a partner among them. -/
def HasClosing (behind : List Token) : Prop :=
  ∃ inner tok outer, behind = inner ++ tok :: outer ∧ tok.kind = .closeParen ∧ BalancedTokens inner

/-- Every closing parenthesis has a partner. -/
def ClosingsPaired (toks : List Token) : Prop :=
  ∀ before tok behind, toks = before ++ tok :: behind → tok.kind = .closeParen → HasOpening before

/-- Every opening parenthesis has a partner. -/
def OpeningsPaired (toks : List Token) : Prop :=
  ∀ before tok behind, toks = before ++ tok :: behind → tok.kind = .openParen → HasClosing behind

/-- Tokens that are balanced, and in which all parentheses have partners. -/
structure Paired (toks : List Token) : Prop where
  balanced : BalancedTokens toks
  openings : OpeningsPaired toks
  closings : ClosingsPaired toks

section
variable {s t before behind toks : List Token} {tok : Token}

theorem openings_append (s t : List Token) : openings (s ++ t) = openings s + openings t := List.countP_append

theorem closings_append (s t : List Token) : closings (s ++ t) = closings s + closings t := List.countP_append

theorem openings_cons (tok : Token) (t : List Token) :
    openings (tok :: t) = openings t + if tok.kind = .openParen then 1 else 0 := by
  rw [openings, List.countP_cons]
  simp only [decide_eq_true_eq, openings]

theorem closings_cons (tok : Token) (t : List Token) :
    closings (tok :: t) = closings t + if tok.kind = .closeParen then 1 else 0 := by
  rw [closings, List.countP_cons]
  simp only [decide_eq_true_eq, closings]

/-- A place in two rows one behind the other is a place in one of them. -/
theorem place_append (h : s ++ t = before ++ tok :: behind) :
    (∃ rest, s = before ++ tok :: rest ∧ behind = rest ++ t) ∨ ∃ rest, t = rest ++ tok :: behind ∧ before = s ++ rest := by
  rcases List.append_eq_append_iff.1 h with ⟨rest, hbefore, ht⟩ | ⟨rest, hs, hrest⟩
  · exact .inr ⟨rest, ht, hbefore⟩
  · cases rest with
    | nil =>
      rw [List.append_nil] at hs
      exact .inr ⟨[], hrest.symm, by rw [hs, List.append_nil]⟩
    | cons d rest =>
      obtain ⟨rfl, hbehind⟩ := List.cons.inj hrest
      exact .inl ⟨rest, hs, hbehind⟩

theorem HasOpening.append (h : HasOpening t) (s : List Token) : HasOpening (s ++ t) := by
  obtain ⟨outer, tok, inner, rfl, hk, hb⟩ := h
  exact ⟨s ++ outer, tok, inner, (List.append_assoc ..).symm, hk, hb⟩

theorem HasClosing.append (h : HasClosing s) (t : List Token) : HasClosing (s ++ t) := by
  obtain ⟨inner, tok, outer, rfl, hk, hb⟩ := h
  exact ⟨inner, tok, outer ++ t, List.append_assoc .., hk, hb⟩

/-- Behind balanced tokens a closing parenthesis has no partner. -/
theorem BalancedTokens.not_hasOpening (h : BalancedTokens toks) : ¬ HasOpening toks := by
  rintro ⟨outer, tok, inner, rfl, hk, hb⟩
  have houter := h.beginning outer _ rfl
  have htotal := h.total
  rw [closings_append, openings_append, closings_cons, openings_cons, hk, hb.total] at htotal
  simp only [reduceCtorEq, if_true, if_false] at htotal
  omega

/-- In front of balanced tokens an opening parenthesis has no partner. -/
theorem BalancedTokens.not_hasClosing (h : BalancedTokens toks) : ¬ HasClosing toks := by
  rintro ⟨inner, tok, outer, rfl, hk, hb⟩
  have hbeginning := h.beginning (inner ++ [tok]) outer (List.append_cons ..)
  rw [closings_append, openings_append, closings_cons, openings_cons, hk, hb.total] at hbeginning
  simp only [reduceCtorEq, if_true, if_false, closings, openings, List.countP_nil] at hbeginning
  omega

end

namespace Paired
variable {s t toks : List Token} {tok : Token}

theorem nil : Paired [] where
  balanced := ⟨fun before behind h => by rw [(List.append_eq_nil_iff.1 h.symm).1]; exact Nat.le_refl _, rfl⟩
  openings := fun _ _ _ h => absurd h (by simp)
  closings := fun _ _ _ h => absurd h (by simp)

theorem append (hs : Paired s) (ht : Paired t) : Paired (s ++ t) where
  balanced := by
    refine ⟨fun before behind h => ?_, ?_⟩
    · rcases List.append_eq_append_iff.1 h with ⟨rest, rfl, hrest⟩ | ⟨rest, hrest, -⟩
      · rw [closings_append, openings_append]
        exact Nat.add_le_add (Nat.le_of_eq hs.balanced.total) (ht.balanced.beginning rest behind hrest)
      · exact hs.balanced.beginning before rest hrest
    · rw [closings_append, openings_append, hs.balanced.total, ht.balanced.total]
  openings := by
    intro before tok behind h hk
    rcases place_append h with ⟨rest, hrest, rfl⟩ | ⟨rest, hrest, -⟩
    · exact (hs.openings before tok rest hrest hk).append t
    · exact ht.openings rest tok behind hrest hk
  closings := by
    intro before tok behind h hk
    rcases place_append h with ⟨rest, hrest, -⟩ | ⟨rest, hrest, rfl⟩
    · exact hs.closings before tok rest hrest hk
    · exact (ht.closings rest tok behind hrest hk).append s

/-- A token that is no parenthesis. -/
theorem single (ho : tok.kind ≠ .openParen) (hc : tok.kind ≠ .closeParen) : Paired [tok] where
  balanced := by
    have hnone : ∀ before behind, [tok] = before ++ behind → SignChart.closings before = 0 := by
      intro before behind h
      rw [SignChart.closings, List.countP_eq_zero]
      intro c hmem
      obtain rfl : c = tok := List.mem_singleton.1 (h ▸ List.mem_append_left _ hmem)
      simpa using hc
    refine ⟨fun before behind h => by rw [hnone before behind h]; exact Nat.zero_le _, ?_⟩
    rw [hnone [tok] [] rfl, openings_cons, if_neg ho]
    rfl
  openings := by
    intro before o behind h hk
    obtain rfl : o = tok := List.mem_singleton.1 (h ▸ List.mem_append_right _ List.mem_cons_self)
    exact absurd hk ho
  closings := by
    intro before c behind h hk
    obtain rfl : c = tok := List.mem_singleton.1 (h ▸ List.mem_append_right _ List.mem_cons_self)
    exact absurd hk hc

/-- Paired tokens in parentheses: these are partners of each other. -/
theorem group {o c : Token} (ho : o.kind = .openParen) (hc : c.kind = .closeParen) (h : Paired toks) :
    Paired (o :: (toks ++ [c])) where
  balanced := by
    refine ⟨fun before behind hsplit => ?_, ?_⟩
    · cases before with
      | nil => exact Nat.le_refl _
      | cons o' before =>
        obtain ⟨rfl, htail⟩ := List.cons.inj hsplit
        rw [closings_cons, openings_cons, ho]
        simp only [reduceCtorEq, if_true, if_false]
        rcases List.append_eq_append_iff.1 htail with ⟨rest, rfl, hrest⟩ | ⟨rest, hrest, -⟩
        · have hlength := congrArg List.length hrest
          rw [List.length_singleton, List.length_append] at hlength
          have hlast : SignChart.closings rest ≤ rest.length := List.countP_le_length
          rw [closings_append, openings_append, h.balanced.total]
          omega
        · have := h.balanced.beginning before rest hrest
          omega
    · rw [closings_cons, openings_cons, closings_append, openings_append, closings_cons, openings_cons, ho, hc,
        h.balanced.total]
      simp [SignChart.closings, SignChart.openings]
  openings := by
    intro before tok behind hsplit hk
    cases before with
    | nil =>
      obtain ⟨-, rfl⟩ := List.cons.inj hsplit
      exact ⟨toks, c, [], rfl, hc, h.balanced⟩
    | cons o' before =>
      obtain ⟨-, htail⟩ := List.cons.inj hsplit
      rcases place_append htail with ⟨rest, hrest, rfl⟩ | ⟨rest, hrest, -⟩
      · exact (h.openings before tok rest hrest hk).append [c]
      · obtain rfl : tok = c := List.mem_singleton.1 (hrest ▸ List.mem_append_right _ List.mem_cons_self)
        exact absurd (hk.symm.trans hc) (by decide)
  closings := by
    intro before tok behind hsplit hk
    cases before with
    | nil =>
      obtain ⟨rfl, -⟩ := List.cons.inj hsplit
      exact absurd (hk.symm.trans ho) (by decide)
    | cons o' before =>
      obtain ⟨rfl, htail⟩ := List.cons.inj hsplit
      rcases place_append htail with ⟨rest, hrest, -⟩ | ⟨rest, hrest, rfl⟩
      · exact (h.closings before tok rest hrest hk).append [o]
      · -- the last one is the partner of the first
        obtain rfl : rest = [] := by
          cases rest with
          | nil => rfl
          | cons d rest => exact absurd hrest (by simp)
        exact ⟨[], o, toks, by simp, ho, h.balanced⟩

end Paired

/-! ## Frames -/

/-- Tokens with the opening parentheses among them that have no partner, the last one first. -/
inductive Pending : List Token → List Excerpt → Prop where
  | none {toks : List Token} (h : Paired toks) : Pending toks []
  | more {outer inner : List Token} {tok : Token} {es : List Excerpt} (h : Pending outer es)
      (hk : tok.kind = .openParen) (hinner : Paired inner) : Pending (outer ++ tok :: inner) (tok.source :: es)

namespace Pending
variable {toks more : List Token} {tok : Token} {e : Excerpt} {es : List Excerpt}

theorem append (h : Pending toks es) (hmore : Paired more) : Pending (toks ++ more) es := by
  cases h with
  | none h => exact .none (h.append hmore)
  | more h hk hinner =>
    rw [List.append_assoc, List.cons_append]
    exact .more h hk (hinner.append hmore)

theorem opening (h : Pending toks es) (hk : tok.kind = .openParen) : Pending (toks ++ [tok]) (tok.source :: es) :=
  .more h hk .nil

theorem closing (h : Pending toks (e :: es)) (hk : tok.kind = .closeParen) : Pending (toks ++ [tok]) es := by
  cases h with
  | @more outer inner o _ h ho hinner =>
    rw [List.append_assoc, List.cons_append]
    exact h.append (hinner.group ho hk)

/-- No closing parenthesis is pending. -/
theorem closings (h : Pending toks es) : ClosingsPaired toks := by
  induction h with
  | none h => exact h.closings
  | @more outer inner o es h ho hinner ih =>
    intro before tok behind hsplit hk
    rcases place_append hsplit with ⟨rest, hrest, -⟩ | ⟨rest, hrest, rfl⟩
    · exact ih before tok rest hrest hk
    · cases rest with
      | nil =>
        obtain ⟨rfl, -⟩ := List.cons.inj hrest
        exact absurd (hk.symm.trans ho) (by decide)
      | cons o' rest =>
        obtain ⟨-, hrest⟩ := List.cons.inj hrest
        have hinner := hinner.closings rest tok behind hrest hk
        rw [List.append_cons]
        exact hinner.append _

end Pending

/-! ## Reading -/

/-- What reading a token does to the open parentheses. -/
def Shifts (tok : Token) (es es' : List Excerpt) : Prop :=
  match tok.kind with
  | .openParen => es' = tok.source :: es
  | .closeParen => ∃ e, es = e :: es'
  | _ => es' = es

namespace Parser
variable {table : Table} {p q : Parser} {tok : Token} {loc : Excerpt}

/-- The open parentheses, the innermost first. -/
def opened (p : Parser) : List Excerpt := p.frames.map Frame.opened

theorem opened_occupy (p : Parser) : p.occupy.opened = p.opened := by
  show (p.frames.modifyHead _).map Frame.opened = p.frames.map Frame.opened
  cases p.frames <;> rfl

theorem shifts_of_accept (h : p.accept table tok = .ok q) : Shifts tok p.opened q.opened := by
  unfold accept at h
  unfold Shifts
  cases hk : tok.kind <;> rw [hk] at h <;> dsimp only at h ⊢
  case number =>
    split at h
    · cases h; rfl
    · exact absurd h (by simp)
  case ident =>
    split at h
    · cases h; rfl
    · cases h; rfl
    · exact absurd h (by simp)
  case op o =>
    cases h
    cases o.isSign <;> rfl
  case comma =>
    split at h
    · exact absurd h (by simp)
    · next f rest hf =>
      have hframes : p.opened = f.opened :: rest.map Frame.opened := congrArg (List.map Frame.opened) hf
      cases h
      exact hframes.symm
  case openParen => cases h; rfl
  case closeParen =>
    split at h
    · exact absurd h (by simp)
    · next f rest hf =>
      have hframes : p.opened = f.opened :: rest.map Frame.opened := congrArg (List.map Frame.opened) hf
      refine ⟨f.opened, hframes.trans ?_⟩
      split at h <;> (cases h; rfl)
  case foreign => exact absurd h (by simp)

/-- **Step.**  The kind of a token decides what becomes of the open parentheses. -/
theorem shifts_of_read (h : p.read table tok = .ok q) : Shifts tok p.opened q.opened := by
  unfold read at h
  split at h
  · exact opened_occupy p ▸ shifts_of_accept h
  · exact absurd h (by simp)
  · exact shifts_of_accept h
  · exact opened_occupy p ▸ shifts_of_accept h

theorem mismatch_of_accept (h : p.accept table tok = .error ⟨.parenMismatch, loc⟩) :
    tok.kind = .closeParen ∧ p.opened = [] ∧ tok.source = loc := by
  unfold accept at h
  cases hk : tok.kind <;> rw [hk] at h <;> dsimp only at h
  case closeParen =>
    split at h
    · next hf => exact ⟨rfl, congrArg (List.map Frame.opened) hf, by simpa using h⟩
    · split at h <;> exact absurd h (by simp)
  -- no other token gives this error
  case number | ident | comma => split at h <;> exact absurd h (by simp)
  all_goals exact absurd h (by simp)

/-- Only a closing parenthesis is a mismatch, where none is open. -/
theorem mismatch_of_read (h : p.read table tok = .error ⟨.parenMismatch, loc⟩) :
    tok.kind = .closeParen ∧ p.opened = [] ∧ tok.source = loc := by
  unfold read at h
  split at h
  · exact opened_occupy p ▸ mismatch_of_accept h
  · exact absurd h (by simp)
  · exact mismatch_of_accept h
  · exact opened_occupy p ▸ mismatch_of_accept h

theorem opened_of_finish {prog : Program} (h : p.finish = .ok prog) : p.opened = [] := by
  rw [finish] at h
  split at h
  · exact absurd h (by simp)
  · exact absurd h (by simp)
  · next hframes => exact congrArg (List.map Frame.opened) hframes

/-- At the end the innermost open parenthesis is a mismatch. -/
theorem mismatch_of_finish (h : p.finish = .error ⟨.parenMismatch, loc⟩) : ∃ es, p.opened = loc :: es := by
  rw [finish] at h
  split at h
  · exact absurd h (by simp)
  · next f fs _ hframes =>
    obtain rfl : f.opened = loc := by simpa using h
    exact ⟨fs.map Frame.opened, congrArg (List.map Frame.opened) hframes⟩
  · exact absurd h (by simp)

/-- A parser that has read some tokens. -/
inductive ReadsTo (table : Table) : List Token → Parser → Prop where
  | start : ReadsTo table [] start
  | next {toks : List Token} {p q : Parser} {tok : Token} (h : ReadsTo table toks p)
      (hread : p.read table tok = .ok q) : ReadsTo table (toks ++ [tok]) q

/-- **Invariant.**  The open parentheses are those without a partner. -/
theorem pending_of_readsTo {toks : List Token} (h : ReadsTo table toks p) : Pending toks p.opened := by
  induction h with
  | start => exact .none .nil
  | @next toks p q tok h hread ih =>
    have hshifts := shifts_of_read hread
    unfold Shifts at hshifts
    split at hshifts
    · next hk => exact hshifts ▸ ih.opening hk
    · next hk =>
      obtain ⟨e, he⟩ := hshifts
      exact (he ▸ ih).closing hk
    · next hopen hclose => exact hshifts ▸ ih.append (.single hopen hclose)

/-- **Run.**  Reading ends behind all tokens, at an error of the lexer, or at a token that cannot stand where it does. -/
theorem readAll_cases (items : List (Except LexError Token)) :
    ∀ {toks : List Token} {p : Parser}, ReadsTo table toks p → ∃ more q, ReadsTo table (toks ++ more) q ∧
      (items = more.map .ok ∧ p.readAll table items = q.finish ∨
        (∃ e rest, items = more.map .ok ++ .error e :: rest ∧
          p.readAll table items = .error ⟨.lex e.cause, e.source⟩) ∨
        ∃ tok rest e, items = more.map .ok ++ .ok tok :: rest ∧ q.read table tok = .error e ∧
          p.readAll table items = .error e) := by
  induction items with
  | nil => exact fun {toks p} h => ⟨[], p, (List.append_nil toks).symm ▸ h, .inl ⟨rfl, rfl⟩⟩
  | cons item rest ih =>
    intro toks p h
    have hhere : ReadsTo table (toks ++ []) p := (List.append_nil toks).symm ▸ h
    match item with
    | .error e => exact ⟨[], p, hhere, .inr (.inl ⟨e, rest, rfl, rfl⟩)⟩
    | .ok tok =>
      cases hread : p.read table tok with
      | error e =>
        have hall : p.readAll table (.ok tok :: rest) = .error e := by rw [readAll, hread]
        exact ⟨[], p, hhere, .inr (.inr ⟨tok, rest, e, rfl, hread, hall⟩)⟩
      | ok q =>
        have hall : p.readAll table (.ok tok :: rest) = q.readAll table rest := by rw [readAll, hread]
        obtain ⟨more, r, hr, hcases⟩ := ih (h.next hread)
        refine ⟨tok :: more, r, by rwa [List.append_cons], ?_⟩
        rw [hall]
        rcases hcases with ⟨rfl, hend⟩ | ⟨e, rest', rfl, hend⟩ | ⟨tok', rest', e, rfl, hread', hend⟩
        · exact .inl ⟨rfl, hend⟩
        · exact .inr (.inl ⟨e, rest', rfl, hend⟩)
        · exact .inr (.inr ⟨tok', rest', e, rfl, hread', hend⟩)

end Parser

/-! ## Parsing -/

/-- **Parentheses.**  The parentheses of a text that is parsed are balanced.  Where a text is refused because of a
parenthesis, this is the first closing one without a partner or, when all closing ones have one, the last opening one
without. -/
theorem parens_of_parse (table : Table) (src : Text) :
    (∀ prog, parse table src = .ok prog →
      ∃ toks : List Token, (Lexer.ofText src).tokens = toks.map .ok ∧ BalancedTokens toks) ∧
    ∀ loc, parse table src = .error ⟨.parenMismatch, loc⟩ →
      (∃ before tok rest, (Lexer.ofText src).tokens = before.map .ok ++ .ok tok :: rest ∧ tok.source = loc ∧
        tok.kind = .closeParen ∧ ¬ HasOpening before ∧ ClosingsPaired before) ∨
      ∃ before tok behind, (Lexer.ofText src).tokens = (before ++ tok :: behind).map .ok ∧ tok.source = loc ∧
        tok.kind = .openParen ∧ ¬ HasClosing behind ∧ OpeningsPaired behind ∧
        ClosingsPaired (before ++ tok :: behind) := by
  have hstart : Parser.ReadsTo table [] Parser.start := .start
  obtain ⟨toks, p, hp, hcases⟩ := Parser.readAll_cases (Lexer.ofText src).tokens hstart
  have hpending := Parser.pending_of_readsTo hp
  rw [List.nil_append] at hpending
  refine ⟨fun prog h => ?_, fun loc h => ?_⟩
  · rw [parse] at h
    rcases hcases with ⟨htoks, hend⟩ | ⟨e, rest, -, hend⟩ | ⟨tok, rest, e, -, -, hend⟩
    · rw [Parser.opened_of_finish (hend.symm.trans h)] at hpending
      cases hpending with
      | none hpaired => exact ⟨toks, htoks, hpaired.balanced⟩
    · exact absurd (hend.symm.trans h) (by simp)
    · exact absurd (hend.symm.trans h) (by simp)
  · rw [parse] at h
    have hclosings := hpending.closings
    rcases hcases with ⟨htoks, hend⟩ | ⟨e, rest, -, hend⟩ | ⟨tok, rest, e, htoks, hread, hend⟩
    · -- at the end of the text, the last frame is that of the last opening one without a partner
      obtain ⟨es, hopened⟩ := Parser.mismatch_of_finish (hend.symm.trans h)
      rw [hopened] at hpending
      cases hpending with
      | @more outer inner tok _ _ hk hinner =>
        exact .inr ⟨outer, tok, inner, htoks, rfl, hk, hinner.balanced.not_hasClosing, hinner.openings, hclosings⟩
    · exact absurd (hend.symm.trans h) (by simp)
    · -- at a token, no frame is left
      obtain rfl : e = ⟨.parenMismatch, loc⟩ := by simpa using hend.symm.trans h
      obtain ⟨hk, hopened, hloc⟩ := Parser.mismatch_of_read hread
      rw [hopened] at hpending
      cases hpending with
      | none hpaired =>
        exact .inl ⟨toks, tok, rest, htoks, hloc, hk, hpaired.balanced.not_hasOpening, hclosings⟩

/-- An opening parenthesis without a partner, and one with a partner behind it. -/
def unclosed : Text := "max((1,2)".toList

theorem parse_unclosed : parse standardTable unclosed = .error ⟨.parenMismatch, 3, ['(']⟩ := by
  have htokens : (Lexer.ofText unclosed).tokens =
      ([⟨.ident, 0, "max".toList⟩, ⟨.openParen, 3, ['(']⟩, ⟨.openParen, 4, ['(']⟩, ⟨.number, 5, ['1']⟩,
        ⟨.comma, 6, [',']⟩, ⟨.number, 7, ['2']⟩, ⟨.closeParen, 8, [')']⟩] : List Token).map .ok := by cbv
  rw [parse, htokens]
  rfl

theorem parse_closed : parse standardTable (unclosed ++ [')']) =
    .ok [⟨.push 1.0, 5, ['1']⟩, ⟨.push 2.0, 7, ['2']⟩, ⟨.call "max".toList 1, 0, "max".toList⟩] := by
  have htokens : (Lexer.ofText (unclosed ++ [')'])).tokens =
      ([⟨.ident, 0, "max".toList⟩, ⟨.openParen, 3, ['(']⟩, ⟨.openParen, 4, ['(']⟩, ⟨.number, 5, ['1']⟩,
        ⟨.comma, 6, [',']⟩, ⟨.number, 7, ['2']⟩, ⟨.closeParen, 8, [')']⟩, ⟨.closeParen, 9, [')']⟩] :
          List Token).map .ok := by cbv
  rw [parse, htokens]
  rfl

/-- `parens_of_parse` there, and where it is closed.  The parenthesis reported is not the last one that opens, but the
last without a partner. -/
theorem parens_of_parse_unclosed :
    (∃ toks : List Token, (Lexer.ofText (unclosed ++ [')'])).tokens = toks.map .ok ∧ BalancedTokens toks) ∧
    parse standardTable unclosed = .error ⟨.parenMismatch, 3, ['(']⟩ ∧
    ((∃ before tok rest, (Lexer.ofText unclosed).tokens = before.map .ok ++ .ok tok :: rest ∧
        tok.source = ⟨3, ['(']⟩ ∧ tok.kind = .closeParen ∧ ¬ HasOpening before ∧ ClosingsPaired before) ∨
      ∃ before tok behind, (Lexer.ofText unclosed).tokens = (before ++ tok :: behind).map .ok ∧
        tok.source = ⟨3, ['(']⟩ ∧ tok.kind = .openParen ∧ ¬ HasClosing behind ∧ OpeningsPaired behind ∧
        ClosingsPaired (before ++ tok :: behind)) :=
  ⟨(parens_of_parse standardTable (unclosed ++ [')'])).1 _ parse_closed, parse_unclosed,
    (parens_of_parse standardTable unclosed).2 _ parse_unclosed⟩

end SignChart
