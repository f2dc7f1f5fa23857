/-
  What a lexer reads over.

  A lexer can be asked for the next token, to pass blanks, for a symbol, or for a run of characters of any class, in any
  order.  Each of these has its own way to move on, and each reports positions that it has counted itself.  That nothing
  but blanks is ever lost between two of them is an invariant of all, whatever they are mixed to:

  1. **Spans.**  `Covered` says of a text that some excerpts stand in it one behind the other, at their positions, with
     nothing but blanks between.  Two covered texts side by side are covered (`Covered.append`), and what is covered by
     an excerpt is inside the text, behind all before it (`Covered.inside`, `Covered.increasing`).

  2. **Step.**  Every use moves on over a text that is covered by what it gives (`Moves`, `moves_use`).  An error for a
     character that starts no token covers nothing: the lexer stays in front of that character.

  3. **Run.**  Moves follow one another (`Moves.trans`), so any uses do the same (`moves_uses`).

  **`uses_covered`** puts this together, and says of plain reading to the end that the tokens are the text without its
  blanks.
-/
import SignChart.Proofs.Expr.Spelling

namespace SignChart

/-! ## Spans -/

/-- The excerpts stand in a text that begins at byte `pos`, one behind the other, with blanks between and at both
ends. -/
def Covered (pos : Nat) : List Excerpt → Text → Prop
  | [], t => ∀ c ∈ t, isBlank c
  | e :: es, t => ∃ blanks behind, (∀ c ∈ blanks, isBlank c) ∧ t = blanks ++ e.text ++ behind ∧ e.text ≠ [] ∧
      e.start = pos + Text.byteSize blanks ∧ Covered (e.start + e.length) es behind

namespace Covered
variable {pos : Nat} {e : Excerpt} {es fs : List Excerpt} {s t : Text}

theorem single (ht : t ≠ []) : Covered pos [⟨pos, t⟩] t :=
  ⟨[], [], by simp, (List.append_nil t).symm, ht, rfl, by simp [Covered]⟩

/-- Covered texts side by side. -/
theorem append (hs : Covered pos es s) (ht : Covered (pos + Text.byteSize s) fs t) :
    Covered pos (es ++ fs) (s ++ t) := by
  induction es generalizing pos s with
  | nil =>
    cases fs with
    | nil =>
      intro c hc
      exact (List.mem_append.1 hc).elim (hs c) (ht c)
    | cons f fs =>
      obtain ⟨blanks, behind, hblanks, rfl, hne, hstart, hrest⟩ := ht
      refine ⟨s ++ blanks, behind, fun c hc => (List.mem_append.1 hc).elim (hs c) (hblanks c), ?_, hne, ?_, hrest⟩
      · simp only [List.append_assoc]
      · rw [hstart, Text.byteSize_append, Nat.add_assoc]
  | cons e es ih =>
    obtain ⟨blanks, behind, hblanks, rfl, hne, hstart, hrest⟩ := hs
    refine ⟨blanks, behind ++ t, hblanks, by simp only [List.append_assoc], hne, hstart, ih hrest ?_⟩
    rw [Text.byteSize_append, Text.byteSize_append] at ht
    rw [hstart, Excerpt.length]
    simpa only [Nat.add_assoc] using ht

/-- What is covered by an excerpt is a piece of the text, at the position of the excerpt. -/
theorem inside (h : Covered pos es t) :
    ∀ e ∈ es, e.text ≠ [] ∧ ∃ before behind, t = before ++ e.text ++ behind ∧ e.start = pos + Text.byteSize before := by
  induction es generalizing pos t with
  | nil => exact fun e he => absurd he List.not_mem_nil
  | cons f es ih =>
    obtain ⟨blanks, rest, -, rfl, hne, hstart, hrest⟩ := h
    intro e he
    rcases List.mem_cons.1 he with rfl | he
    · exact ⟨hne, blanks, rest, rfl, hstart⟩
    · obtain ⟨hne', before, behind, rfl, hstart'⟩ := ih hrest e he
      refine ⟨hne', blanks ++ f.text ++ before, behind, by simp only [List.append_assoc], ?_⟩
      rw [hstart', hstart, Excerpt.length, Text.byteSize_append, Text.byteSize_append]
      omega

/-- No excerpt begins before the one in front of it ends. -/
theorem increasing (h : Covered pos es t) : es.Pairwise fun e f => e.start + e.length ≤ f.start := by
  induction es generalizing pos t with
  | nil => exact .nil
  | cons e es ih =>
    obtain ⟨blanks, rest, -, -, -, -, hrest⟩ := h
    refine .cons (fun f hf => ?_) (ih hrest)
    obtain ⟨-, before, -, -, hstart⟩ := hrest.inside f hf
    omega

end Covered

/-! ## Uses -/

/-- What a lexer can be asked for. -/
inductive LexerUse where
  | next
  | trim
  | symbol
  | run (kind : TokenKind) (first more : Char → Bool)

/-- The characters that something given by a lexer was read from. An invalid character is not read. -/
def spanOf : Except LexError Token → Option Excerpt
  | .ok tok => some tok.source
  | .error ⟨.unsupported _, e⟩ => some e
  | .error ⟨.invalidCharacter, _⟩ => none

namespace Lexer

/-- A token that was found, or else nothing and the lexer as it was. -/
def orStay (l : Lexer) : Option (Token × Lexer) → Option (Except LexError Token) × Lexer
  | some (tok, m) => (some (.ok tok), m)
  | none => (none, l)

/-- What a lexer gives when it is used, and the lexer behind that. -/
def use (l : Lexer) : LexerUse → Option (Except LexError Token) × Lexer
  | .next => l.next?
  | .trim => (none, l.trim)
  | .symbol => l.orStay l.symbol?
  | .run kind first more => l.orStay (l.run? kind first more)

/-- All that a lexer gives when it is used several times, and the lexer behind that. -/
def uses (l : Lexer) : List LexerUse → List (Except LexError Token) × Lexer
  | [] => ([], l)
  | u :: us => ((l.use u).1.toList ++ ((l.use u).2.uses us).1, ((l.use u).2.uses us).2)

/-! ### Tokens -/

/-- What the next token can be. -/
inductive NextCase (l : Lexer) : Option (Except LexError Token) × Lexer → Prop where
  | failed (hl : l.failed = true) : NextCase l (none, l)
  | ended (hl : l.failed = false) (hrest : l.trim.rest = []) : NextCase l (none, l.trim)
  | invalid {c : Char} {r : Text} (hl : l.failed = false) (hrest : l.trim.rest = c :: r) :
      NextCase l (some (.error ⟨.invalidCharacter, l.trim.pos, [c]⟩), { l.trim with failed := true })
  | unsupported {tok : Token} {m : Lexer} {f : Foreign} (hl : l.failed = false) (htok : l.trim.token? = some (tok, m)) :
      NextCase l (some (.error ⟨.unsupported f, tok.source⟩), { m with failed := true })
  | token {tok : Token} {m : Lexer} (hl : l.failed = false) (htok : l.trim.token? = some (tok, m)) :
      NextCase l (some (.ok tok), { m with prev := some tok.kind })

theorem next?_cases (l : Lexer) : NextCase l l.next? := by
  unfold next?
  split
  · next hl => exact .failed hl
  · next hl =>
    have hl : l.failed = false := Bool.eq_false_iff.2 hl
    dsimp only
    split
    · next hrest => exact .ended hl hrest
    · next c r hrest =>
      split
      · exact .invalid hl hrest
      · next tok m htok =>
        split
        · exact .unsupported hl htok
        · exact .token hl htok

variable {l m n : Lexer} {tok : Token}

/-- A token is a number of characters that come next. -/
theorem take_of_symbol? (h : l.symbol? = some (tok, m)) : ∃ kind n, 0 < n ∧ l.rest ≠ [] ∧ l.take kind n = (tok, m) := by
  obtain ⟨⟨kind, n⟩, hsymbol, htake⟩ := Option.map_eq_some_iff.1 h
  refine ⟨kind, n, symbolAt_pos hsymbol, fun hnil => ?_, htake⟩
  rw [hnil] at hsymbol
  exact absurd hsymbol (by simp [symbolAt])

theorem take_of_run? {kind : TokenKind} {first more : Char → Bool} (h : l.run? kind first more = some (tok, m)) :
    ∃ kind n, 0 < n ∧ l.rest ≠ [] ∧ l.take kind n = (tok, m) := by
  unfold run? at h
  split at h
  · exact absurd h (by simp)
  · next n hn =>
    refine ⟨kind, n + 1, Nat.succ_pos n, fun hnil => ?_, Option.some.inj h⟩
    rw [hnil] at hn
    exact absurd hn (by simp [runLength])

theorem take_of_token? (h : l.token? = some (tok, m)) : ∃ kind n, 0 < n ∧ l.rest ≠ [] ∧ l.take kind n = (tok, m) := by
  unfold token? at h
  split at h
  · next r hr => exact take_of_symbol? (hr.trans h)
  · split at h
    · next r hr => exact take_of_run? (hr.trans h)
    · exact take_of_run? h

/-! ### Steps -/

/-- A lexer moved on over a text that is covered by what it gave, and fails from its first error on. -/
structure Moves (l : Lexer) (given : List (Except LexError Token)) (m : Lexer) : Prop where
  reads : ∃ read, l.rest = read ++ m.rest ∧ m.pos = l.pos + Text.byteSize read ∧
    Covered l.pos (given.filterMap spanOf) read
  failed : m.failed = true ↔ l.failed = true ∨ ∃ e, .error e ∈ given

theorem Moves.refl (l : Lexer) : Moves l [] l where
  reads := ⟨[], rfl, rfl, by simp [Covered]⟩
  failed := by simp

theorem Moves.trans {given given' : List (Except LexError Token)} (h : Moves l given m) (h' : Moves m given' n) :
    Moves l (given ++ given') n where
  reads := by
    obtain ⟨read, hrest, hpos, hcovered⟩ := h.reads
    obtain ⟨read', hrest', hpos', hcovered'⟩ := h'.reads
    rw [hpos] at hcovered'
    refine ⟨read ++ read', ?_, ?_, ?_⟩
    · rw [hrest, hrest', List.append_assoc]
    · rw [hpos', hpos, Text.byteSize_append, Nat.add_assoc]
    · rw [List.filterMap_append]
      exact hcovered.append hcovered'
  failed := by
    rw [h'.failed, h.failed, or_assoc]
    simp only [List.mem_append, exists_or]

theorem rest_trim (l : Lexer) : l.trim.rest = l.rest.dropWhile isBlank :=
  List.append_cancel_left ((blanks_append_trim l).trans List.takeWhile_append_dropWhile.symm)

theorem trim_spec (l : Lexer) : ∃ blanks, (∀ c ∈ blanks, isBlank c) ∧ l.rest = blanks ++ l.trim.rest ∧
    l.trim.pos = l.pos + Text.byteSize blanks := by
  refine ⟨l.rest.takeWhile isBlank, List.all_eq_true.1 List.all_takeWhile, (blanks_append_trim l).symm, ?_⟩
  rw [trim, drop, ← List.prefix_iff_eq_take.1 (List.takeWhile_prefix isBlank)]

/-- A token is covered by its own span. -/
theorem moves_take {kind : TokenKind} {k : Nat} (hk : 0 < k) (hl : l.rest ≠ []) (h : l.take kind k = (tok, m)) :
    Moves l [.ok tok] m := by
  obtain ⟨rfl, rfl⟩ := Prod.mk.inj h
  have hne : l.rest.take k ≠ [] := by
    rw [Ne, List.take_eq_nil_iff]
    exact not_or.2 ⟨Nat.pos_iff_ne_zero.1 hk, hl⟩
  exact ⟨⟨l.rest.take k, (List.take_append_drop k l.rest).symm, rfl, Covered.single hne⟩, by simp [drop]⟩

theorem moves_trim (l : Lexer) : Moves l [] l.trim where
  reads := by
    obtain ⟨blanks, hblanks, hrest, hpos⟩ := trim_spec l
    exact ⟨blanks, hrest, hpos, hblanks⟩
  failed := by simp [trim, drop]

theorem moves_token? (h : l.trim.token? = some (tok, m)) : Moves l [.ok tok] m := by
  obtain ⟨kind, k, hk, hl, htake⟩ := take_of_token? h
  exact (moves_trim l).trans (moves_take hk hl htake)

theorem moves_next? (l : Lexer) : Moves l l.next?.1.toList l.next?.2 := by
  have hcases := next?_cases l
  generalize l.next? = r at hcases
  cases hcases with
  | failed => exact .refl l
  | ended => exact moves_trim l
  | invalid => exact ⟨(moves_trim l).reads, by simp⟩
  | unsupported _ htok => exact ⟨(moves_token? htok).reads, by simp⟩
  | token _ htok => exact ⟨(moves_token? htok).reads, (moves_token? htok).failed⟩

theorem moves_orStay {o : Option (Token × Lexer)} (h : ∀ tok m, o = some (tok, m) → Moves l [.ok tok] m) :
    Moves l (l.orStay o).1.toList (l.orStay o).2 := by
  match o, h with
  | none, _ => exact .refl l
  | some (tok, m), h => exact h tok m rfl

/-- **Step.**  Whatever a lexer is asked for, it moves on over what is covered by what it gives. -/
theorem moves_use (l : Lexer) (u : LexerUse) : Moves l (l.use u).1.toList (l.use u).2 := by
  cases u with
  | next => exact moves_next? l
  | trim => exact moves_trim l
  | symbol =>
    refine moves_orStay fun tok m h => ?_
    obtain ⟨kind, k, hk, hl, htake⟩ := take_of_symbol? h
    exact moves_take hk hl htake
  | run kind first more =>
    refine moves_orStay fun tok m h => ?_
    obtain ⟨kind, k, hk, hl, htake⟩ := take_of_run? h
    exact moves_take hk hl htake

/-- **Run.**  So it does when it is asked several times. -/
theorem moves_uses (us : List LexerUse) : ∀ l : Lexer, Moves l (l.uses us).1 (l.uses us).2 := by
  induction us with
  | nil => exact .refl
  | cons u us ih => exact fun l => (moves_use l u).trans (ih (l.use u).2)

/-- An invalid character is the next one that is no blank, and the lexer stays in front of it. -/
theorem of_invalidCharacter {e : Excerpt} (h : l.next? = (some (.error ⟨.invalidCharacter, e⟩), m)) :
    ∃ blanks c behind, (∀ b ∈ blanks, isBlank b) ∧ isBlank c = false ∧ l.rest = blanks ++ c :: behind ∧
      e = ⟨l.pos + Text.byteSize blanks, [c]⟩ ∧ m.rest = c :: behind ∧ m.pos = e.start := by
  have hcases := next?_cases l
  rw [h] at hcases
  cases hcases with
  | @invalid c r _ hrest =>
    obtain ⟨blanks, hblanks, htext, hpos⟩ := trim_spec l
    rw [hrest] at htext
    have hc := List.head?_dropWhile_not isBlank l.rest
    rw [← rest_trim, hrest] at hc
    exact ⟨blanks, c, r, hblanks, hc, htext, by rw [hpos], hrest, rfl⟩

theorem next?_of_failed (h : l.failed = true) : l.next?.1 = none := by rw [next?, if_pos h]

end Lexer

/-! ## Plain reading -/

/-- The texts that stand in a text with blanks between them are the text without its blanks. -/
theorem filter_of_spaced {ws : List Text} {t : Text} (h : Spaced ws t) (hws : ∀ w ∈ ws, ∀ c ∈ w, isBlank c = false) :
    t.filter (fun c => !isBlank c) = ws.flatten := by
  have hblank : ∀ {s : Text}, (∀ c ∈ s, isBlank c = true) → s.filter (fun c => !isBlank c) = [] := fun h =>
    List.filter_eq_nil_iff.2 fun c hc => by simp [h c hc]
  induction h with
  | nil hb => exact hblank hb
  | @cons blanks w rest ws hb _ ih =>
    have hw : w.filter (fun c => !isBlank c) = w := List.filter_eq_self.2 fun c hc => by
      simp [hws w List.mem_cons_self c hc]
    rw [List.filter_append, List.filter_append, hblank hb, hw, ih fun v hv => hws v (List.mem_cons_of_mem _ hv)]
    rfl

/-- The tokens of a lexer hold no blanks. -/
theorem not_blank_of_lexed {toks : List Token} : ∀ {prev : Option TokenKind}, Lexed prev toks →
    ∀ tok ∈ toks, ∀ c ∈ tok.source.text, isBlank c = false := by
  induction toks with
  | nil => exact fun _ tok h => absurd h List.not_mem_nil
  | cons first rest ih =>
    rintro prev ⟨hproper, hspell, -, hrest⟩ tok h
    rcases List.mem_cons.1 h with rfl | h
    · exact hproper.not_blank hspell
    · exact ih hrest tok h

/-- **A lexer skips nothing but blanks.**  Of a source text, and of any uses of one lexer: what was read is covered by
what was given, so that the spans are pieces of the text, one behind the other.  If the next thing is an invalid
character, this is the next one that is no blank, and it is not read.  After an error there is no next thing.  And
where the text is read to its end without an error, the tokens are the text without its blanks. -/
theorem uses_covered (src : Text) (us : List LexerUse) :
    ∃ given l read spans, (Lexer.ofText src).uses us = (given, l) ∧ spans = given.filterMap spanOf ∧
      src = read ++ l.rest ∧ l.pos = Text.byteSize read ∧ Covered 0 spans read ∧
      (∀ e ∈ spans, e.text ≠ [] ∧ ∃ before behind, src = before ++ e.text ++ behind ∧ e.start = Text.byteSize before) ∧
      (spans.Pairwise fun e f => e.start + e.length ≤ f.start) ∧
      (∀ e m, l.next? = (some (.error ⟨.invalidCharacter, e⟩), m) →
        ∃ blanks c behind, (∀ b ∈ blanks, isBlank b) ∧ isBlank c = false ∧ l.rest = blanks ++ c :: behind ∧
          e = ⟨l.pos + Text.byteSize blanks, [c]⟩ ∧ m.rest = c :: behind ∧ m.pos = e.start) ∧
      ((∃ e, .error e ∈ given) → l.next?.1 = none) ∧
      ∀ toks : List Token, (Lexer.ofText src).tokens = toks.map .ok →
        (toks.map fun tok => tok.source.text).flatten = src.filter fun c => !isBlank c := by
  have hmoves := Lexer.moves_uses us (Lexer.ofText src)
  obtain ⟨read, hsrc, hpos, hcovered⟩ := hmoves.reads
  change src = _ at hsrc
  change Covered 0 _ read at hcovered
  refine ⟨_, _, read, _, rfl, rfl, hsrc, hpos.trans (Nat.zero_add _), hcovered, fun e he => ?_, hcovered.increasing,
    fun e m h => Lexer.of_invalidCharacter h, fun h => Lexer.next?_of_failed (hmoves.failed.2 (.inr h)), ?_⟩
  · obtain ⟨hne, before, behind, hread, hstart⟩ := hcovered.inside e he
    refine ⟨hne, before, behind ++ ((Lexer.ofText src).uses us).2.rest, ?_, hstart.trans (Nat.zero_add _)⟩
    rw [← List.append_assoc, ← hread]
    exact hsrc
  · intro toks htoks
    obtain ⟨hspaced, hlexed⟩ := spaced_of_tokens toks (Lexer.ofText src) rfl htoks
    refine (filter_of_spaced hspaced fun w hw => ?_).symm
    obtain ⟨tok, htok, rfl⟩ := List.mem_map.1 hw
    exact not_blank_of_lexed hlexed tok htok

/-- A number, a character of three bytes that starts no token, and a name. -/
def priced : Text := "2 €x".toList

/-- `uses_covered` there, where the number is read as any characters up to a space, and where it has a power in place of
the sign. -/
theorem uses_covered_priced :
    (∃ l m blanks behind,
      (Lexer.ofText priced).uses [.run .number (fun _ => true) (· ≠ ' ')] = ([.ok ⟨.number, 0, ['2']⟩], l) ∧
      l.next? = (some (.error ⟨.invalidCharacter, 2, ['€']⟩), m) ∧ l.rest = blanks ++ '€' :: behind ∧
      m.rest = '€' :: behind ∧ m.next?.1 = none) ∧
    ∃ toks : List Token, (Lexer.ofText "2 ** x".toList).tokens = toks.map .ok ∧
      (toks.map fun tok => tok.source.text).flatten = "2**x".toList := by
  refine ⟨?_, ?_⟩
  · have hread : (Lexer.ofText priced).uses [.run .number (fun _ => true) (· ≠ ' ')] =
        ([.ok ⟨.number, 0, ['2']⟩], ⟨" €x".toList, 1, none, false⟩) := rfl
    have hnext : (⟨" €x".toList, 1, none, false⟩ : Lexer).next? =
        (some (.error ⟨.invalidCharacter, 2, ['€']⟩), ⟨"€x".toList, 2, none, true⟩) := rfl
    have hfailed : (Lexer.ofText priced).uses [.run .number (fun _ => true) (· ≠ ' '), .next] =
        ([.ok ⟨.number, 0, ['2']⟩, .error ⟨.invalidCharacter, 2, ['€']⟩], ⟨"€x".toList, 2, none, true⟩) := rfl
    obtain ⟨given, l, -, -, huses, -, -, -, -, -, -, hinvalid, -, -⟩ :=
      uses_covered priced [.run .number (fun _ => true) (· ≠ ' ')]
    obtain ⟨rfl, rfl⟩ := Prod.mk.inj (hread.symm.trans huses)
    obtain ⟨given, l, -, -, huses, -, -, -, -, -, -, -, hafter, -⟩ :=
      uses_covered priced [.run .number (fun _ => true) (· ≠ ' '), .next]
    obtain ⟨rfl, rfl⟩ := Prod.mk.inj (hfailed.symm.trans huses)
    obtain ⟨blanks, c, behind, -, -, hl, he, hm, -⟩ := hinvalid _ _ hnext
    obtain rfl : '€' = c := by simpa using congrArg Excerpt.text he
    exact ⟨_, _, blanks, behind, hread, hnext, hl, hm, hafter ⟨_, List.mem_cons_of_mem _ List.mem_cons_self⟩⟩
  · have htokens : (Lexer.ofText "2 ** x".toList).tokens =
        ([⟨.number, 0, ['2']⟩, ⟨.op .pow, 2, ['*', '*']⟩, ⟨.ident, 5, ['x']⟩] : List Token).map .ok := by cbv
    obtain ⟨-, -, -, -, -, -, -, -, -, -, -, -, -, hplain⟩ := uses_covered "2 ** x".toList []
    exact ⟨_, htokens, hplain _ htokens⟩

end SignChart
