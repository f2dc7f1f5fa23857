/-
  A blank between two factors.

  A blank that stands between two factors is meant as a product.  It is gone before the text is cut into pieces, so
  what is written for it is up to the cut:

  1. **Cleaning.**  A comma next to the blank is not decimal, so the two sides are cleaned by themselves
     (`clean_blank`).

  2. **Last runs.**  Only the last run of a text, be it a number, letters or a symbol, can be cut otherwise when
     something is put behind the text (`exists_lastRun`).

  3. **Words.**  Letters that are words for values stay what they are in front of more such words
     (`valueRun?_append`).  In front of the name of a function they belong to that name (`pieces_words_name`).

  4. **Canonical text.**  The last piece of a canonical text is the last piece of the text it is written from, if
     an operand ends with it (`getLast?_pieces_canonical`).

  So a star is written for the blank in all cases but one (`canonical_blank_iff`): a word for a value in front of
  the name of a function gets none, although pairs of these kinds are listed as factors.
-/
import SignChart.Proofs.Input.CanonicalForm

namespace SignChart

section
variable {a b r s t v w : Text} {c : Char} {k : PieceKind} {p q : Piece} {ps qs : List Piece} {ws : List Text}

/-! ## Cleaning -/

theorem clean_blank (a b : Text) : clean (a ++ ' ' :: b) = clean a ++ clean b := by
  have hfrom : ∀ (a : Text) (prev : Option Char), cleanFrom prev (a ++ ' ' :: b) = cleanFrom prev a ++ clean b := by
    intro a
    induction a with
    | nil =>
      intro prev
      rw [List.nil_append, cleanFrom_cons fun h => absurd h.1 (by decide), if_pos isBlank_space,
        cleanFrom_of_not_digit fun c hc => Option.some.inj hc ▸ rfl]
      rfl
    | cons c a ih =>
      intro prev
      have hhead : (a ++ ' ' :: b).head?.any Char.isDigit = a.head?.any Char.isDigit := by
        cases a with
        | nil => rfl
        | cons => rfl
      rw [List.cons_append, cleanFrom, cleanFrom, hhead, ih]
      split
      · rfl
      · split
        · rfl
        · rw [List.append_assoc]
  exact hfrom a none

/-! ## Last runs -/

/-- A run that does not reach the end of a text stays what it is when something is put behind the text. -/
theorem takeWhile_append_inside {f : Char → Bool} (h : s.dropWhile f ≠ []) (t : Text) :
    (s ++ t).takeWhile f = s.takeWhile f ∧ (s ++ t).dropWhile f = s.dropWhile f ++ t := by
  have htext : s ++ t = s.takeWhile f ++ (s.dropWhile f ++ t) := by
    rw [← List.append_assoc, List.takeWhile_append_dropWhile]
  rw [htext]
  refine takeWhile_append_of_stop (List.all_eq_true.1 List.all_takeWhile) fun c hc => ?_
  rw [List.head?_append_of_ne_nil _ h] at hc
  exact head?_dropWhile _ _ hc

/-- A longest run of one kind of characters, as they are cut into pieces. -/
inductive IsRun : Text → Prop where
  | number {w : Text} (hne : w ≠ []) (hw : ∀ c ∈ w, isNumeric c = true) : IsRun w
  | words {w : Text} {ws : List Text} (hne : w ≠ []) (hw : ∀ c ∈ w, isLetter c = true)
      (hws : valueRun? w = some ws) : IsRun w
  | name {w : Text} (hw : isName w) (hvalue : valueRun? (w.takeWhile isLetter) = none) : IsRun w
  | symbol {c : Char} (hc : isWordChar c = false) : IsRun [c]

/-- **Last runs.**  What is put behind a text changes the pieces of its last run at most. -/
theorem exists_lastRun (hs : s ≠ []) : ∃ ps v, IsRun v ∧ ∀ t, pieces (s ++ t) = ps ++ pieces (v ++ t) := by
  -- the text is one run, or its first run, with the pieces `qs`, stands in front of the last
  have hlast {s rest : Text} (qs : List Piece) (hs : rest = [] → IsRun s)
      (hrest : rest ≠ [] → ∃ ps v, IsRun v ∧ ∀ t, pieces (rest ++ t) = ps ++ pieces (v ++ t))
      (hfirst : rest ≠ [] → ∀ t, pieces (s ++ t) = qs ++ pieces (rest ++ t)) :
      ∃ ps v, IsRun v ∧ ∀ t, pieces (s ++ t) = ps ++ pieces (v ++ t) := by
    by_cases hne : rest = []
    · exact ⟨[], s, hs hne, fun t => rfl⟩
    · obtain ⟨ps, v, hv, hps⟩ := hrest hne
      exact ⟨qs ++ ps, v, hv, fun t => by rw [hfirst hne, hps, List.append_assoc]⟩
  fun_induction pieces s with
  | case1 => exact absurd rfl hs
  | case2 c r hn ih =>
    refine hlast [⟨.number, (c :: r).takeWhile isNumeric⟩]
      (fun hnil => .number hs (List.dropWhile_eq_nil_iff.1 hnil)) ih fun hne t => ?_
    obtain ⟨htake, hdrop⟩ := takeWhile_append_inside hne t
    rw [List.cons_append, pieces, dif_pos hn, ← List.cons_append, htake, hdrop]
    rfl
  | case3 c r hn hl words hwords ih =>
    refine hlast (words.map (⟨.value, ·⟩)) (fun hnil => ?_) ih fun hne t => ?_
    · have hletters := List.dropWhile_eq_nil_iff.1 hnil
      rw [List.takeWhile_eq_self_iff.2 hletters] at hwords
      exact .words hs hletters hwords
    · obtain ⟨htake, hdrop⟩ := takeWhile_append_inside hne t
      rw [List.cons_append, pieces, dif_neg hn, dif_pos hl, ← List.cons_append, htake, hdrop, hwords]
  | case4 c r hn hl hnone ih =>
    refine hlast [⟨.function, (c :: r).takeWhile isLetterOrDigit⟩] (fun hnil => ?_) ih fun hne t => ?_
    · have hname := isName_run hl r
      rw [List.takeWhile_eq_self_iff.2 (List.dropWhile_eq_nil_iff.1 hnil)] at hname
      exact .name hname hnone
    · obtain ⟨htake, hdrop⟩ := takeWhile_append_inside hne t
      have hinside : (c :: r).dropWhile isLetter ≠ [] := fun hnil => hne <| List.dropWhile_eq_nil_iff.2 fun d hd =>
        isLetterOrDigit_iff.2 (Or.inl (List.dropWhile_eq_nil_iff.1 hnil d hd))
      obtain ⟨hletters, -⟩ := takeWhile_append_inside hinside t
      rw [pieces_name (hletters ▸ hnone), htake, hdrop]
      rfl
  | case5 c r hn hl kind ih =>
    have hc := not_isWordChar (Bool.eq_false_iff.2 hn) (Bool.eq_false_iff.2 hl)
    refine hlast [⟨symbolKind c, [c]⟩] (fun hnil => by rw [hnil]; exact .symbol hc) ih fun _ t => ?_
    exact pieces_cons hc (r ++ t)

/-! ## Words -/

/-- No word for a value begins another, so the word that a text begins with is found. -/
theorem find?_valueWords (hw : w ∈ valueWords) (r : Text) : valueWords.find? (·.isPrefixOf (w ++ r)) = some w := by
  simp only [valueWords, List.mem_cons, List.not_mem_nil, or_false] at hw
  rcases hw with rfl | rfl | rfl | rfl <;> rfl

theorem valueRun?_cons (hw : w ∈ valueWords) (r : Text) : valueRun? (w ++ r) = (valueRun? r).map (w :: ·) := by
  have hne : w ++ r ≠ [] := List.append_ne_nil_of_left_ne_nil (ne_nil_of_isName (isName_of_mem_valueWords hw)) r
  have hfind := find?_valueWords hw r
  rw [valueRun?, if_neg hne]
  split
  · next u hu =>
    obtain rfl := Option.some.inj (hfind.symm.trans hu)
    rw [List.drop_left]
  · next hnone => exact absurd (hfind.symm.trans hnone) (by simp)

/-- **Words.**  Behind words for values other letters are such words if they are by themselves. -/
theorem valueRun?_append (r : Text) : ∀ {v : Text} {ws : List Text}, valueRun? v = some ws →
    valueRun? (v ++ r) = (valueRun? r).map (ws ++ ·) := by
  intro v
  fun_induction valueRun? v with
  | case1 =>
    intro ws h
    obtain rfl := Option.some.inj h
    exact Option.map_id'.symm
  | case2 v hne w hw ih =>
    intro ws h
    obtain ⟨ws, hws, rfl⟩ := Option.map_eq_some_iff.1 h
    have hprefix : w <+: v := List.isPrefixOf_iff_prefix.1 (List.find?_some (p := fun w : Text => w.isPrefixOf v) hw)
    conv => lhs; rw [← List.prefix_iff_eq_append.1 hprefix, List.append_assoc]
    rw [valueRun?_cons (List.mem_of_find?_eq_some hw), ih hws, Option.map_map]
    rfl
  | case3 => intro ws h; exact absurd h (by simp)

/-- A text with words for values at its front, or without letters there. -/
theorem pieces_words (h : valueRun? (t.takeWhile isLetter) = some ws) :
    pieces t = ws.map (⟨.value, ·⟩) ++ pieces (t.dropWhile isLetter) := by
  cases t with
  | nil =>
    rw [List.takeWhile_nil, valueRun?] at h
    obtain rfl := Option.some.inj h
    rfl
  | cons c r =>
    by_cases hl : isLetter c = true
    · rw [pieces, dif_neg (not_isNumeric_of_isLetter hl), dif_pos hl, h]
    · rw [List.takeWhile_cons_of_neg hl, valueRun?] at h
      obtain rfl := Option.some.inj h
      rw [List.dropWhile_cons_of_neg hl]
      rfl

/-- A text begins with the name of a function exactly if the letters at its front are no words for values. -/
theorem kind_function_iff : q ∈ (pieces t).head? →
    (q.kind = .function ↔ valueRun? (t.takeWhile isLetter) = none) := by
  have hempty {c : Char} {r : Text} (hl : ¬ isLetter c = true) : valueRun? ((c :: r).takeWhile isLetter) = some [] := by
    rw [List.takeWhile_cons_of_neg hl, valueRun?]
    rfl
  fun_cases pieces t with
  | case1 => exact fun hq => absurd hq (by simp)
  | case2 c r hn =>
    rintro ⟨⟩
    rw [hempty fun hl => not_isNumeric_of_isLetter hl hn]
    exact ⟨fun h => PieceKind.noConfusion h, fun h => absurd h (by simp)⟩
  | case3 c r hn hl words hwords =>
    obtain ⟨w, words, rfl⟩ := List.exists_cons_of_ne_nil
      ((valueRun?_words hwords).2 (by rw [List.takeWhile_cons_of_pos hl]; exact List.cons_ne_nil _ _))
    rintro ⟨⟩
    rw [hwords]
    exact ⟨fun h => PieceKind.noConfusion h, fun h => absurd h (by simp)⟩
  | case4 c r hn hl hnone =>
    rintro ⟨⟩
    exact ⟨fun _ => hnone, fun _ => rfl⟩
  | case5 c r hn hl kind =>
    rintro ⟨⟩
    rw [hempty hl]
    refine ⟨fun h => ?_, fun h => absurd h (by simp)⟩
    change symbolKind c = .function at h
    rw [symbolKind] at h
    split at h
    · exact PieceKind.noConfusion h
    · split at h <;> exact PieceKind.noConfusion h

/-- Letters that are words for values. -/
theorem pieces_letters (hw : ∀ c ∈ v, isLetter c = true) (hws : valueRun? v = some ws) :
    pieces v = ws.map (⟨.value, ·⟩) := by
  have h := pieces_words (t := v) (by rwa [List.takeWhile_eq_self_iff.2 hw])
  rwa [List.dropWhile_eq_nil_iff.2 hw, pieces, List.append_nil] at h

/-- Words for values in front of others, or of no letters. -/
theorem pieces_words_append (hw : ∀ c ∈ v, isLetter c = true) (hws : valueRun? v = some ws)
    (ht : valueRun? (t.takeWhile isLetter) ≠ none) : pieces (v ++ t) = pieces v ++ pieces t := by
  obtain ⟨us, hus⟩ := Option.ne_none_iff_exists'.1 ht
  have hwords : valueRun? ((v ++ t).takeWhile isLetter) = some (ws ++ us) := by
    rw [List.takeWhile_append_of_pos hw, valueRun?_append _ hws, hus]
    rfl
  rw [pieces_words hwords, List.dropWhile_append_of_pos hw, pieces_letters hw hws, pieces_words hus, List.map_append,
    List.append_assoc]

/-- Words for values in front of the name of a function: they are part of the name. -/
theorem pieces_words_name (hw : ∀ c ∈ v, isLetter c = true) (hws : valueRun? v = some ws)
    (ht : valueRun? (t.takeWhile isLetter) = none) :
    pieces (v ++ t) = ⟨.function, v ++ t.takeWhile isLetterOrDigit⟩ :: pieces (t.dropWhile isLetterOrDigit) := by
  have hword : ∀ c ∈ v, isLetterOrDigit c = true := fun c hc => isLetterOrDigit_iff.2 (Or.inl (hw c hc))
  have hname : valueRun? ((v ++ t).takeWhile isLetter) = none := by
    rw [List.takeWhile_append_of_pos hw, valueRun?_append _ hws, ht]
    rfl
  rw [pieces_name hname, List.takeWhile_append_of_pos hword, List.dropWhile_append_of_pos hword]

theorem IsRun.pieces_ne_nil (hv : IsRun v) : pieces v ≠ [] := by
  have hne : v ≠ [] := by
    cases hv with
    | number hne _ | words hne _ _ => exact hne
    | name hw _ => exact ne_nil_of_isName hw
    | symbol _ => exact List.cons_ne_nil _ _
  intro hnil
  have htext := pieces_text v
  rw [hnil] at htext
  exact hne htext.symm

/-- A run that an operand ends with is a number, letters that are words for values, or a parenthesis that closes. -/
theorem IsRun.of_ends (hv : IsRun v) (hp : p ∈ (pieces v).getLast?) (hends : p.kind.ends = true) :
    (p.kind = .number ∧ v ≠ [] ∧ ∀ c ∈ v, isNumeric c = true) ∨
      (p.kind = .value ∧ (∀ c ∈ v, isLetter c = true) ∧ ∃ ws, ws ≠ [] ∧ valueRun? v = some ws) ∨
      (p.kind = .closing ∧ v = [')']) := by
  have hnothing {f : Char → Bool} : ∀ c ∈ ([] : Text).head?, f c = false := fun c hc => absurd hc (by simp)
  have hsingle {q : Piece} (h : pieces (v ++ []) = q :: pieces []) : p = q := by
    rw [List.append_nil, pieces] at h
    rw [h] at hp
    exact (Option.some.inj hp).symm
  cases hv with
  | number hne hw => exact Or.inl ⟨congrArg Piece.kind (hsingle (pieces_number hne hw hnothing)), hne, hw⟩
  | @words _ ws hne hw hws =>
    have hkind : p.kind = .value := by
      rw [pieces_letters hw hws, List.getLast?_map] at hp
      obtain ⟨u, -, rfl⟩ := Option.map_eq_some_iff.1 hp
      rfl
    exact Or.inr (Or.inl ⟨hkind, hw, ws, (valueRun?_words hws).2 hne, hws⟩)
  | name hw hvalue =>
    rw [hsingle (pieces_function hw hvalue hnothing)] at hends
    exact absurd hends Bool.false_ne_true
  | @symbol c hc =>
    obtain rfl := hsingle (pieces_cons hc [])
    change (symbolKind c).ends = true at hends
    by_cases hclose : c = ')'
    · subst hclose
      exact Or.inr (Or.inr ⟨rfl, rfl⟩)
    · rw [symbolKind, if_neg hclose] at hends
      split at hends <;> exact absurd hends Bool.false_ne_true

/-- Behind such a run pieces stay what they are, unless words for values stand in front of the name of a function. -/
theorem IsRun.pieces_append (hv : IsRun v) (hp : p ∈ (pieces v).getLast?) (hends : p.kind.ends = true)
    (hq : q ∈ (pieces t).head?) (hnumber : q.kind ≠ .number) (hapart : ¬ (p.kind = .value ∧ q.kind = .function)) :
    pieces (v ++ t) = pieces v ++ pieces t := by
  rcases hv.of_ends hp hends with ⟨-, hne, hw⟩ | ⟨hvalue, hw, ws, -, hws⟩ | ⟨-, rfl⟩
  · have hstop : ∀ c ∈ t.head?, isNumeric c = false := by
      intro c hc
      obtain ⟨r, rfl⟩ := List.head?_eq_some_iff.1 hc
      refine Bool.eq_false_iff.2 fun hn => hnumber ?_
      rw [pieces, dif_pos hn] at hq
      exact Option.some.inj hq ▸ rfl
    have halone := pieces_number (r := []) hne hw fun c hc => absurd hc (by simp)
    rw [List.append_nil, pieces] at halone
    rw [pieces_number hne hw hstop, halone]
    rfl
  · exact pieces_words_append hw hws fun hnone => hapart ⟨hvalue, (kind_function_iff hq).2 hnone⟩
  · exact (pieces_cons rfl t).trans (by rw [pieces_cons rfl, pieces]; rfl)

/-! ## Canonical text -/

/-- A star, as a piece. -/
def star : Piece := ⟨.other, ['*']⟩

/-- The pieces of what is written from pieces behind a piece of kind `k`: these pieces with stars between factors, and
two stars for a power. -/
def respell (k : PieceKind) : List Piece → List Piece
  | [] => []
  | p :: ps => (if k.multiplies p.kind then [star] else []) ++
      ((if p.text = ['^'] then [star, star] else [p]) ++ respell p.kind ps)

theorem pieces_star (t : Text) : pieces ('*' :: t) = star :: pieces t := pieces_cons (by decide) t

/-- A piece that is seen in front of what is written behind it is seen, with its star, behind any other. -/
theorem pieces_written_cons (hp : '^' ∉ p.text)
    (hpieces : pieces (p.text ++ spread (writeFrom p.kind ps)) = p :: respell p.kind ps) (k : PieceKind) :
    pieces (spread (writeFrom k (p :: ps))) = respell k (p :: ps) := by
  have hne : p.text ≠ ['^'] := fun h => hp (h ▸ List.mem_singleton_self _)
  rw [spread_writeFrom k ps hp, respell, if_neg hne, List.singleton_append, ← hpieces]
  split
  · exact pieces_star _
  · rfl

/-- Words for values, each behind a star or none, in front of what is written behind them. -/
theorem pieces_written_words (hstop : ∀ c ∈ (spread (writeFrom .value ps)).head?, isLetter c = false)
    (hrest : pieces (spread (writeFrom .value ps)) = respell .value ps) :
    ∀ (words : List Text) (k : PieceKind), (∀ w ∈ words, w ∈ valueWords) → words ≠ [] →
      pieces (spread (writeFrom k (words.map (⟨.value, ·⟩) ++ ps))) = respell k (words.map (⟨.value, ·⟩) ++ ps) := by
  intro words
  induction words with
  | nil => intro k _ hne; exact absurd rfl hne
  | cons w rest ih =>
    intro k hw _
    have hmem := hw w List.mem_cons_self
    refine pieces_written_cons (not_power_of_isName (isName_of_mem_valueWords hmem)) ?_ k
    cases rest with
    | nil => exact (pieces_value hmem hstop).trans (congrArg _ hrest)
    | cons w' rest =>
      have htail := ih .value (fun v hv => hw v (List.mem_cons_of_mem _ hv)) (List.cons_ne_nil _ _)
      -- the next word comes with a star
      have hstar : ∀ c ∈ (spread (writeFrom .value ((w' :: rest).map (⟨.value, ·⟩) ++ ps))).head?,
          isLetter c = false := by
        intro c hc
        obtain rfl := Option.some.inj hc
        rfl
      exact (pieces_value hmem hstar).trans (congrArg _ htail)

/-- A character that belongs to no word is seen by itself, a power as two stars. -/
theorem pieces_written_symbol (hc : isWordChar c = false)
    (hrest : ∀ k : PieceKind, pieces (spread (writeFrom k ps)) = respell k ps) (k : PieceKind) :
    pieces (spread (writeFrom k (⟨symbolKind c, [c]⟩ :: ps))) = respell k (⟨symbolKind c, [c]⟩ :: ps) := by
  by_cases hpower : c = '^'
  · subst hpower
    have hkind : k.multiplies (symbolKind '^') = false := by cases k <;> rfl
    rw [writeFrom, respell, hkind, ← hrest]
    exact (pieces_star _).trans (congrArg _ (pieces_star _))
  · refine pieces_written_cons (by simpa using Ne.symm hpower) ?_ k
    exact (pieces_cons hc _).trans (congrArg _ (hrest _))

/-- **Pieces.**  The pieces of what is written from pieces are these pieces, with their stars. -/
theorem pieces_written (t : Text) : (∀ c ∈ t, isBlank c = false) →
    ∀ k : PieceKind, pieces (spread (writeFrom k (pieces t))) = respell k (pieces t) := by
  fun_induction pieces t with
  | case1 => intro _ k; exact pieces.eq_1
  | case2 c r hn ih =>
    intro hb k
    have hall : ∀ d ∈ (c :: r).takeWhile isNumeric, isNumeric d = true := List.all_eq_true.1 List.all_takeWhile
    have hne : (c :: r).takeWhile isNumeric ≠ [] := by
      rw [List.takeWhile_cons_of_pos hn]
      exact List.cons_ne_nil _ _
    have hrest : ∀ d ∈ (c :: r).dropWhile isNumeric, isBlank d = false := fun d hd =>
      hb d ((List.dropWhile_sublist _).subset hd)
    have hseparated := separated_pieces _ hrest .number (fun _ d hd => head?_dropWhile _ _ hd)
      fun h => PieceKind.noConfusion h
    refine pieces_written_cons (fun h => absurd (hall '^' h) (by decide)) ?_ k
    exact (pieces_number hne hall fun d hd => (hseparated.stop rfl d hd).2).trans (congrArg _ (ih hrest _))
  | case3 c r hn hl words hwords ih =>
    intro hb k
    obtain ⟨hmem, hne⟩ := valueRun?_words hwords
    have hrest : ∀ d ∈ (c :: r).dropWhile isLetter, isBlank d = false := fun d hd =>
      hb d ((List.dropWhile_sublist _).subset hd)
    have hseparated := separated_pieces _ hrest .value (fun h => PieceKind.noConfusion h)
      fun h => PieceKind.noConfusion h
    refine pieces_written_words (fun d hd => ?_) (ih hrest .value) words k hmem
      (hne (by rw [List.takeWhile_cons_of_pos hl]; exact List.cons_ne_nil _ _))
    exact not_isLetter_of_not_isLetterOrDigit (hseparated.stop rfl d hd).1
  | case4 c r hn hl hnone ih =>
    intro hb k
    have hrest : ∀ d ∈ (c :: r).dropWhile isLetterOrDigit, isBlank d = false := fun d hd =>
      hb d ((List.dropWhile_sublist _).subset hd)
    have hvalue : valueRun? (((c :: r).takeWhile isLetterOrDigit).takeWhile isLetter) = none := by
      rwa [takeWhile_isLetter_run]
    refine pieces_written_cons (not_power_of_isName (isName_run hl r)) ?_ k
    exact (pieces_function (isName_run hl r) hvalue fun d hd =>
      head?_spread (fun e he => head?_dropWhile _ _ he) hd).trans (congrArg _ (ih hrest _))
  | case5 c r hn hl kind ih =>
    intro hb k
    have hc := not_isWordChar (Bool.eq_false_iff.2 hn) (Bool.eq_false_iff.2 hl)
    exact pieces_written_symbol hc (ih fun d hd => hb d (List.mem_cons_of_mem _ hd)) k

theorem respell_ne_nil (p : Piece) (ps : List Piece) (k : PieceKind) : respell k (p :: ps) ≠ [] := by
  refine List.append_ne_nil_of_right_ne_nil _ (List.append_ne_nil_of_left_ne_nil ?_ _)
  split <;> exact List.cons_ne_nil _ _

/-- If an operand ends with the last piece that is seen, that is the last piece that was written. -/
theorem getLast?_respell (hends : p.kind.ends = true) :
    ∀ {ps : List Piece} {k : PieceKind}, p ∈ (respell k ps).getLast? → p ∈ ps.getLast? := by
  intro ps
  induction ps with
  | nil => intro k h; exact h
  | cons q ps ih =>
    intro k h
    rw [respell, ← List.append_assoc, List.getLast?_append] at h
    cases hlast : (respell q.kind ps).getLast? with
    | some r =>
      rw [hlast, Option.some_or] at h
      have hmem : p ∈ ps.getLast? := ih (k := q.kind) (hlast ▸ h)
      show p ∈ ([q] ++ ps).getLast?
      exact List.mem_getLast?_append_of_mem_getLast? hmem
    | none =>
      have hps : ps = [] := by
        cases ps with
        | nil => rfl
        | cons r ps => exact absurd (List.getLast?_eq_none_iff.1 hlast) (respell_ne_nil r ps _)
      rw [hlast, Option.none_or, List.getLast?_append] at h
      subst hps
      split at h
      · obtain rfl := Option.some.inj h
        exact absurd hends Bool.false_ne_true
      · exact h

/-- The last piece of a canonical text, if an operand ends with it, is the last piece of the clean text. -/
theorem getLast?_pieces_canonical (hends : p.kind.ends = true) (hp : p ∈ (pieces (canonical a)).getLast?) :
    p ∈ (pieces (clean a)).getLast? := by
  have hpieces : pieces (canonical a) = respell .other (pieces (clean a)) :=
    pieces_written (clean a) (fun _ h => not_isBlank_of_mem_cleanFrom h) .other
  rw [hpieces] at hp
  exact getLast?_respell hends hp

/-! ## Stars -/

/-- The kind of the last piece, or what stands in front if there is none. -/
def endKind (k : PieceKind) : List Piece → PieceKind
  | [] => k
  | p :: ps => endKind p.kind ps

theorem endKind_of_getLast? : ∀ {ps : List Piece} {k : PieceKind}, p ∈ ps.getLast? → endKind k ps = p.kind := by
  intro ps
  induction ps with
  | nil => intro k h; exact absurd h (by simp)
  | cons q ps ih =>
    intro k h
    cases ps with
    | nil => obtain rfl := Option.some.inj h; rfl
    | cons r ps => exact ih (k := q.kind) (by rwa [List.getLast?_cons_cons] at h)

/-- Pieces are written one part after the other. -/
theorem writeFrom_join (ps qs : List Piece) (k : PieceKind) :
    writeFrom k (ps ++ qs) = writeFrom k ps ++ writeFrom (endKind k ps) qs := by
  induction ps generalizing k with
  | nil => rfl
  | cons p ps ih => rw [List.cons_append, writeFrom, writeFrom, ih, ← List.append_assoc]; rfl

/-- Pieces that begin with a factor are written behind another with a star. -/
theorem writeFrom_factor (h : k.multiplies q.kind = true) :
    writeFrom k (q :: qs) = '*' :: writeFrom .other (q :: qs) := by
  rw [writeFrom, writeFrom, h, PieceKind.multiplies_eq_false rfl]
  rfl

/-- Writing leaves nothing out. -/
theorem sublist_writeFrom (ps : List Piece) (k : PieceKind) : (ps.flatMap Piece.text).Sublist (writeFrom k ps) := by
  induction ps generalizing k with
  | nil => exact .refl _
  | cons p ps ih =>
    rw [writeFrom, List.flatMap_cons]
    exact (List.sublist_append_right _ _).append (ih _)

/-- A name with words for values in it is written with fewer stars than the words and the name. -/
theorem sublist_writeFrom_words (hne : ws ≠ []) (ps qs : List Piece) (k : PieceKind) :
    (writeFrom k (ps ++ ⟨.function, ws.flatten ++ w⟩ :: qs)).Sublist
      (writeFrom k (ps ++ ws.map (⟨.value, ·⟩)) ++ writeFrom .other (⟨.function, w⟩ :: qs)) := by
  obtain ⟨u, ws, rfl⟩ := List.exists_cons_of_ne_nil hne
  have hwords : (ws.map (⟨.value, ·⟩)).flatMap Piece.text = ws.flatten := by
    rw [List.flatMap_map]
    exact List.flatMap_id'
  have hstar (j : PieceKind) : j.multiplies .function = j.multiplies .value := by cases j <;> rfl
  have hrest := hwords ▸ sublist_writeFrom (ws.map (⟨.value, ·⟩)) .value
  rw [writeFrom_join, writeFrom_join, writeFrom, List.map_cons, writeFrom, writeFrom,
    PieceKind.multiplies_eq_false (k := .other) rfl, hstar, List.flatten_cons]
  simp only [List.append_assoc, List.append_sublist_append_left]
  exact hrest.append (.refl _)

/-- The pieces of both sides are kept: the blank is written as a star. -/
theorem canonical_blank (hpieces : pieces (clean a ++ clean b) = pieces (clean a) ++ pieces (clean b))
    (hp : p ∈ (pieces (clean a)).getLast?) (hq : q ∈ (pieces (clean b)).head?)
    (hfactors : p.kind.multiplies q.kind = true) :
    canonical (a ++ ' ' :: b) = canonical a ++ '*' :: canonical b := by
  obtain ⟨qs, hqs⟩ := List.head?_eq_some_iff.1 hq
  show spread (writeFrom .other (pieces (clean (a ++ ' ' :: b)))) = _
  rw [clean_blank, hpieces, writeFrom_join, endKind_of_getLast? hp, hqs, writeFrom_factor hfactors, ← hqs,
    spread_append]
  rfl

/-- The words that the left side ends with become part of a name: no star is written for the blank. -/
theorem canonical_blank_ne (hne : ws ≠ []) (ha : pieces (clean a) = ps ++ ws.map (⟨.value, ·⟩))
    (hb : pieces (clean b) = ⟨.function, w⟩ :: qs)
    (hpieces : pieces (clean a ++ clean b) = ps ++ ⟨.function, ws.flatten ++ w⟩ :: qs) :
    canonical (a ++ ' ' :: b) ≠ canonical a ++ '*' :: canonical b := by
  have hsublist := (sublist_writeFrom_words (w := w) hne ps qs .other).flatMap
    fun c => if c = '^' then ['*', '*'] else [c]
  rw [← hpieces, ← clean_blank, ← ha, ← hb, List.flatMap_append] at hsublist
  have hlength : (canonical (a ++ ' ' :: b)).length ≤ (canonical a ++ canonical b).length := hsublist.length_le
  intro h
  rw [h, List.length_append, List.length_append, List.length_cons] at hlength
  omega

/-- **A blank between factors.**  Where the left side ends with an operand and the right side begins with a factor, the
blank is written as a star, unless the left side ends with a word for a value and the right side begins with the name
of a function. -/
theorem canonical_blank_iff (hp : p ∈ (pieces (canonical a)).getLast?) (hends : p.kind.ends = true)
    (hq : q ∈ (pieces (clean b)).head?)
    (hbegins : q.kind = .value ∨ q.kind = .function ∨ q.kind = .opening) :
    canonical (a ++ ' ' :: b) = canonical a ++ '*' :: canonical b ↔ ¬ (p.kind = .value ∧ q.kind = .function) := by
  replace hp := getLast?_pieces_canonical hends hp
  have hfactors : p.kind.multiplies q.kind = true := by
    rcases hbegins with h | h | h <;> rw [h] <;> revert hends <;> cases p.kind <;> decide
  have hne : clean a ≠ [] := by
    intro hnil
    rw [hnil, pieces] at hp
    exact absurd hp (by simp)
  obtain ⟨ps, v, hv, hps⟩ := exists_lastRun hne
  have ha : pieces (clean a) = ps ++ pieces v := by simpa using hps []
  have hlast : p ∈ (pieces v).getLast? := by
    rw [ha, List.getLast?_append_of_ne_nil _ hv.pieces_ne_nil] at hp
    exact hp
  constructor
  -- the words at the end of the left side become part of the name, and the stars between and behind them are missing
  · rintro h ⟨hvalue, hfunction⟩
    obtain ⟨hletters, ws, hws, hrun⟩ : (∀ c ∈ v, isLetter c = true) ∧ ∃ ws, ws ≠ [] ∧ valueRun? v = some ws := by
      rcases hv.of_ends hlast hends with ⟨hk, -⟩ | ⟨-, h⟩ | ⟨hk, -⟩
      · exact PieceKind.noConfusion (hvalue.symm.trans hk)
      · exact h
      · exact PieceKind.noConfusion (hvalue.symm.trans hk)
    have hnone := (kind_function_iff hq).1 hfunction
    refine canonical_blank_ne hws (ha.trans (by rw [pieces_letters hletters hrun])) (pieces_name hnone) ?_ h
    rw [hps, pieces_words_name hletters hrun hnone, valueRun?_flatten hrun]
  · intro h
    refine canonical_blank ?_ hp hq hfactors
    rw [hps, hv.pieces_append hlast hends hq ?_ h, ha, List.append_assoc]
    rcases hbegins with h | h | h <;> rw [h] <;> exact PieceKind.noConfusion

end

/-- `canonical_blank_iff` at a number in front of the name of a function. -/
theorem canonical_blank_sine :
    ⟨.number, ['2']⟩ ∈ (pieces (canonical "x^2".toList)).getLast? ∧
      ⟨.function, "sin".toList⟩ ∈ (pieces (clean "Sin(x)".toList)).head? ∧
      canonical "x^2 Sin(x)".toList = canonical "x^2".toList ++ '*' :: canonical "Sin(x)".toList := by
  have hp : (pieces (canonical "x^2".toList)).getLast? = some ⟨.number, ['2']⟩ := by cbv
  have hq : (pieces (clean "Sin(x)".toList)).head? = some ⟨.function, "sin".toList⟩ := by cbv
  exact ⟨hp, hq, (canonical_blank_iff hp rfl hq (Or.inr (Or.inl rfl))).2 fun h => PieceKind.noConfusion h.1⟩

/-- **A product that is lost**: an `x` in front of the sine becomes part of its name. -/
theorem canonical_blank_lost :
    (pieces (canonical ['x'])).getLast? = some ⟨.value, ['x']⟩ ∧
      (pieces (clean "sin(x)".toList)).head? = some ⟨.function, "sin".toList⟩ ∧
      canonical "x sin(x)".toList = "xsin(x)".toList ∧
      canonical "x sin(x)".toList ≠ canonical ['x'] ++ '*' :: canonical "sin(x)".toList := by
  have hx : canonical ['x'] = ['x'] := by cbv
  have hsine : canonical "sin(x)".toList = "sin(x)".toList := by cbv
  have hboth : canonical "x sin(x)".toList = "xsin(x)".toList := by cbv
  refine ⟨by cbv, by cbv, hboth, ?_⟩
  rw [hx, hsine, hboth]
  decide

end SignChart
