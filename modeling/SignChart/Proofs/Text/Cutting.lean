/-
  Cuts outside all parentheses.

  `cut` counts the parentheses that are open, closing ones without a partner as well, and cuts at each separator where the
  count is not above zero.

  1. **Fronts.**  A cut is known by the text in front of it.  Such a text may be any beginning that has no surplus of
     opening parentheses and has a separator behind it (`mem_fronts_cutFrom`).

  2. **Pieces.**  Where no beginning closes more than it opens, the surplus in front of a cut is zero.  So it is zero from
     each cut to the next, and what lies between them is balanced (`pieces_balanced`).

  3. **Bytes.**  The byte of an ASCII character stands for this character only (`getElem?_bytes`): a search through the
     bytes finds separators and parentheses, and never a part of another character.

  Together these tell where a text is cut, and that no cut is in a group (`splits_outside`).
-/
import SignChart.Proofs.Text.Matching
import SignChart.Proofs.Text.Nesting

namespace SignChart

section
variable {sep : Separator} {c : Char} {i : Nat} {s t u first : Text} {more : List (Char × Text)}

/-! ## Fronts -/

/-- The texts in front of the cuts, for a first piece and the separators with the pieces behind them. -/
def fronts : Text → List (Char × Text) → List Text
  | _, [] => []
  | first, (c, next) :: more => first :: (fronts next more).map (first ++ c :: ·)

theorem fronts_cons (c : Char) (first : Text) (more : List (Char × Text)) :
    fronts (c :: first) more = (fronts first more).map (c :: ·) := by
  cases more with
  | nil => rfl
  | cons p more => simp [fronts]

theorem joinCut_cons (first : Text) (p : Char × Text) (more : List (Char × Text)) :
    joinCut (first, p :: more) = first ++ p.1 :: joinCut (p.2, more) := by
  simp [joinCut]

/-- The depth counts the surplus. -/
theorem depth_eq (depth : Int) (c : Char) :
    (if c = '(' then depth + 1 else if c = ')' then depth - 1 else depth) = depth + surplus '(' ')' [c] := by
  split
  · next h => rw [h]; rfl
  split
  · next h => rw [h]; rfl
  · next ho hc => simp [surplus, ho, hc]

/-- What one character does: it may be cut at, and the other cuts are those of the text behind it. -/
theorem mem_fronts_cutFrom_cons (sep : Separator) (depth : Int) (prev : Option Char) (c : Char) (r u : Text) :
    u ∈ fronts (cutFrom sep depth prev (c :: r)).1 (cutFrom sep depth prev (c :: r)).2 ↔
      u = [] ∧ c ≠ '(' ∧ c ≠ ')' ∧ depth ≤ 0 ∧ sep prev c r.head? = true ∨
      ∃ u' ∈ fronts (cutFrom sep (depth + surplus '(' ')' [c]) (some c) r).1
        (cutFrom sep (depth + surplus '(' ')' [c]) (some c) r).2, c :: u' = u := by
  rw [cutFrom]
  simp only [depth_eq]
  split
  · next hcut =>
    rw [fronts, List.mem_cons, List.mem_map]
    exact or_congr_left (and_iff_left hcut).symm
  · next hcut =>
    rw [fronts_cons, List.mem_map]
    exact (or_iff_right fun h => hcut h.2).symm

/-- **Fronts.**  The text is cut behind each beginning that leaves no parenthesis open, in front of a separator. -/
theorem mem_fronts_cutFrom (sep : Separator) (depth : Int) (prev : Option Char) (t u : Text) :
    u ∈ fronts (cutFrom sep depth prev t).1 (cutFrom sep depth prev t).2 ↔ ∃ c v, t = u ++ c :: v ∧
      c ≠ '(' ∧ c ≠ ')' ∧ depth + surplus '(' ')' u ≤ 0 ∧ sep (charAfter prev u) c v.head? = true := by
  induction t generalizing depth prev u with
  | nil => simp [cutFrom, fronts]
  | cons x r ih =>
    rw [mem_fronts_cutFrom_cons]
    constructor
    · rintro (⟨rfl, ho, hc, hdepth, hsep⟩ | ⟨u, hu, rfl⟩)
      · exact ⟨x, r, rfl, ho, hc, (Int.add_zero depth).symm ▸ hdepth, hsep⟩
      · obtain ⟨c, v, rfl, ho, hc, hdepth, hsep⟩ := (ih _ _ _).1 hu
        rw [Int.add_assoc, ← surplus_cons] at hdepth
        exact ⟨c, v, rfl, ho, hc, hdepth, hsep⟩
    · rintro ⟨c, v, heq, ho, hc, hdepth, hsep⟩
      rcases List.cons_eq_append_iff.1 heq with ⟨rfl, hsame⟩ | ⟨u, rfl, rfl⟩
      · obtain ⟨rfl, rfl⟩ := List.cons.inj hsame
        exact .inl ⟨rfl, ho, hc, Int.add_zero depth ▸ hdepth, hsep⟩
      · rw [surplus_cons, ← Int.add_assoc] at hdepth
        exact .inr ⟨u, (ih _ _ _).2 ⟨c, v, rfl, ho, hc, hdepth, hsep⟩, rfl⟩

/-- The characters that are cut at are separators. -/
theorem separates_of_mem_cutFrom (sep : Separator) (depth : Int) (prev : Option Char) (t : Text) :
    ∀ p ∈ (cutFrom sep depth prev t).2, p.1 ≠ '(' ∧ p.1 ≠ ')' ∧ ∃ before behind, sep before p.1 behind = true := by
  induction t generalizing depth prev with
  | nil => exact fun p hp => absurd hp List.not_mem_nil
  | cons x r ih =>
    rw [cutFrom]
    simp only [depth_eq]
    split
    · next hcut => exact List.forall_mem_cons.2 ⟨⟨hcut.1, hcut.2.1, _, _, hcut.2.2.2⟩, ih _ _⟩
    · exact ih _ _

/-! ## Pieces -/

/-- No beginning of the text has more closing parentheses than opening ones. -/
def StaysInside (t : Text) : Prop := ∀ p, p <+: t → 0 ≤ surplus '(' ')' p

/-- So it is with the content of a group, closed or not. -/
theorem staysInside_content {g : Group} (h : Group.paren? t = some g) : StaysInside g.content := by
  obtain ⟨content, beyond, closed⟩ := g
  cases closed with
  | true => exact ((forward?_closed_iff (by decide)).1 h).2.beginning
  | false => exact ((forward?_open_iff (by decide)).1 h).2.2

/-- **Pieces.**  If the surplus in front of each cut is zero, the pieces in front of the cuts are balanced, and the last one
is if the text is. -/
theorem pieces_balanced (hseps : ∀ p ∈ more, p.1 ≠ '(' ∧ p.1 ≠ ')') :
    (∀ u ∈ fronts first more, surplus '(' ')' u = 0) → StaysInside (joinCut (first, more)) →
      (∀ s ∈ (first :: more.map Prod.snd).dropLast, BalancedIn '(' ')' s) ∧
        ∃ s ∈ (first :: more.map Prod.snd).getLast?,
          (BalancedIn '(' ')' s ↔ BalancedIn '(' ')' (joinCut (first, more))) := by
  induction more generalizing first with
  | nil =>
    intro _ _
    refine ⟨fun s hs => absurd hs List.not_mem_nil, first, rfl, ?_⟩
    rw [joinCut, List.flatMap_nil, List.append_nil]
  | cons p more ih =>
    obtain ⟨c, next⟩ := p
    intro hzero hinside
    obtain ⟨hc, hseps⟩ := List.forall_mem_cons.1 hseps
    obtain ⟨hfirst, hlater⟩ := List.forall_mem_cons.1 hzero
    rw [joinCut_cons] at hinside
    -- up to the first cut the surplus comes back to zero, and so it counts from there as from the start
    have hskip : ∀ u, surplus '(' ')' (first ++ c :: u) = surplus '(' ')' u := by
      intro u
      have hsep : surplus '(' ')' [c] = 0 := by simp [surplus, hc]
      rw [surplus_append, surplus_cons, hfirst, hsep, Int.zero_add, Int.zero_add]
    have hbalanced : BalancedIn '(' ')' first :=
      ⟨fun p hp => hinside p (hp.trans (List.prefix_append _ _)), hfirst⟩
    have hrest : StaysInside (joinCut (next, more)) := by
      intro p hp
      rw [← hskip p]
      exact hinside _ ((List.prefix_append_right_inj _).2 ((List.prefix_cons_inj c).2 hp))
    obtain ⟨hpieces, s, hs, hlast⟩ := ih hseps
      (fun u hu => (hskip u).symm.trans (hlater _ (List.mem_map_of_mem hu))) hrest
    refine ⟨fun s hs => ?_, s, hs, hlast.trans ?_⟩
    · rcases List.mem_cons.1 hs with rfl | hs
      · exact hbalanced
      · exact hpieces s hs
    · rw [joinCut_cons]
      refine ⟨fun h => ⟨hinside, (hskip _).trans h.total⟩, fun h => ⟨hrest, (hskip _).symm.trans h.total⟩⟩

/-- Pieces with the same separator between all of them, joined. -/
theorem intercalate_pieces {c : Char} (hseps : ∀ p ∈ more, p.1 = c) :
    [c].intercalate (first :: more.map Prod.snd) = joinCut (first, more) := by
  induction more generalizing first with
  | nil => simp [joinCut]
  | cons p more ih =>
    obtain ⟨hp, hseps⟩ := List.forall_mem_cons.1 hseps
    rw [joinCut_cons, List.map_cons, List.intercalate_cons_cons, ih hseps, hp]
    simp

/-! ## Bytes -/

/-- The bytes of a text. -/
def Text.bytes (t : Text) : List UInt8 := t.flatMap String.utf8EncodeChar

theorem Text.length_bytes (t : Text) : t.bytes.length = Text.byteSize t := by
  induction t with
  | nil => rfl
  | cons c r ih =>
    rw [Text.byteSize_cons, ← ih, Text.bytes, List.flatMap_cons, List.length_append, String.length_utf8EncodeChar]
    rfl

/-- A byte below 128 is a character of its own. -/
theorem encoding_of_ascii_byte {d : Char} {b : UInt8} (h : b ∈ String.utf8EncodeChar d) (hb : b.toNat < 128) :
    String.utf8EncodeChar d = [b] ∧ d.toNat = b.toNat := by
  have hval : d.val.toNat = d.toNat := rfl
  rw [String.utf8EncodeChar] at h ⊢
  simp only [hval] at h ⊢
  split at h
  · next hascii =>
    obtain rfl := List.mem_singleton.1 h
    rw [if_pos hascii, UInt8.toNat_ofNat']
    exact ⟨rfl, by omega⟩
  -- the bytes of any other character are above that
  split at h
  · simp only [List.mem_cons, List.not_mem_nil, or_false] at h
    rcases h with rfl | rfl <;> rw [UInt8.toNat_ofNat'] at hb <;> omega
  split at h
  · simp only [List.mem_cons, List.not_mem_nil, or_false] at h
    rcases h with rfl | rfl | rfl <;> rw [UInt8.toNat_ofNat'] at hb <;> omega
  · simp only [List.mem_cons, List.not_mem_nil, or_false] at h
    rcases h with rfl | rfl | rfl | rfl <;> rw [UInt8.toNat_ofNat'] at hb <;> omega

/-- **Bytes.**  Where the byte of an ASCII character is, the character is. -/
theorem getElem?_bytes (hc : c.toNat < 128) :
    t.bytes[i]? = some c.toUInt8 ↔ ∃ front rest, t = front ++ c :: rest ∧ Text.byteSize front = i := by
  have hbyte : c.toUInt8.toNat = c.toNat :=
    (UInt32.toNat_toUInt8 c.val).trans (Nat.mod_eq_of_lt (Nat.lt_trans hc (by decide)))
  constructor
  · intro h
    induction t generalizing i with
    | nil => exact absurd h (by simp [Text.bytes])
    | cons d r ih =>
      rw [Text.bytes, List.flatMap_cons, List.getElem?_append] at h
      split at h
      · next hi =>
        -- the byte belongs to the first character, which is then no longer than a byte
        obtain ⟨hd, hnat⟩ := encoding_of_ascii_byte (List.mem_of_getElem? h) (by omega)
        rw [hd, List.length_singleton] at hi
        have heq : d = c := Char.toNat_inj.1 (hnat.trans hbyte)
        exact ⟨[], r, by rw [heq]; rfl, by rw [Text.byteSize_nil]; omega⟩
      · next hi =>
        obtain ⟨front, rest, rfl, hfront⟩ := ih h
        rw [String.length_utf8EncodeChar] at hi hfront
        exact ⟨d :: front, rest, rfl, by rw [Text.byteSize_cons]; omega⟩
  · rintro ⟨front, rest, rfl, rfl⟩
    rw [Text.bytes, List.flatMap_append, List.flatMap_cons,
      String.utf8EncodeChar_eq_singleton (utf8Size_of_ascii hc), ← Text.bytes, ← Text.length_bytes]
    simp

/-! ## Splitting -/

/-- The bytes of the cuts are the lengths of the fronts. -/
theorem cutBytes_eq (start : Nat) (first : Text) (more : List (Char × Text)) :
    cutBytes start (first, more) = (fronts first more).map (start + Text.byteSize ·) := by
  induction more generalizing start first with
  | nil => rw [cutBytes]; rfl
  | cons p more ih =>
    obtain ⟨c, next⟩ := p
    rw [cutBytes, ih, fronts, List.map_cons, List.map_map]
    refine congrArg _ (List.map_congr_left fun u _ => ?_)
    simp only [Function.comp, Text.byteSize_append, Text.byteSize_cons]
    omega

/-- Byte `i` of the text is in a parenthesis that is open there: nothing in between closes it. -/
def InsideAt (t : Text) (i : Nat) : Prop :=
  ∃ before inner rest, t = before ++ '(' :: (inner ++ rest) ∧
    Text.byteSize (before ++ '(' :: inner) = i ∧ StaysInside inner

/-- What is open at the end of a front is told by the front alone. -/
theorem insideAt_iff (front rest : Text) : InsideAt (front ++ rest) (Text.byteSize front) ↔
    ∃ before inner, front = before ++ '(' :: inner ∧ StaysInside inner := by
  constructor
  · rintro ⟨before, inner, behind, ht, hsize, hinner⟩
    have hfront := Text.splitAtByte_eq_some_iff (p := (front, rest)).2 ⟨rfl, rfl⟩
    have hopening := Text.splitAtByte_eq_some_iff (p := (before ++ '(' :: inner, behind)).2 ⟨by simpa using ht, hsize⟩
    exact ⟨before, inner, (Prod.mk.inj (Option.some.inj (hfront.symm.trans hopening))).1, hinner⟩
  · rintro ⟨before, inner, rfl, hinner⟩
    exact ⟨before, inner, rest, by simp, rfl, hinner⟩

/-- Behind a text without a surplus no parenthesis is open, if none was closed that was not opened. -/
theorem surplus_nonpos_iff (h : StaysInside u) :
    surplus '(' ')' u ≤ 0 ↔ ¬ ∃ before inner, u = before ++ '(' :: inner ∧ StaysInside inner := by
  constructor
  · rintro hzero ⟨before, inner, rfl, hinner⟩
    have hbefore := h before (List.prefix_append _ _)
    have hinner := hinner inner List.prefix_rfl
    rw [surplus_append, surplus_cons, surplus_opening (by decide)] at hzero
    omega
  · intro hopen
    -- reading back from the end would stop at a parenthesis that is open
    cases hread : Group.endingAfter '(' ')' u with
    | mk content beyond closed =>
      cases closed with
      | true =>
        obtain ⟨rfl, hcontent⟩ := (endingAfter_closed_iff (by decide)).1 hread
        exact absurd ⟨beyond, content, rfl, hcontent.beginning⟩ hopen
      | false =>
        obtain ⟨rfl, -, hend⟩ := (endingAfter_open_iff (by decide)).1 hread
        exact hend u List.suffix_rfl

/-- In front of a cut the surplus is zero. -/
theorem mem_fronts_iff {sep : Char} (ht : StaysInside t) :
    u ∈ fronts (cut (.char sep) t).1 (cut (.char sep) t).2 ↔
      ∃ rest, t = u ++ sep :: rest ∧ sep ≠ '(' ∧ sep ≠ ')' ∧ surplus '(' ')' u = 0 := by
  rw [cut, mem_fronts_cutFrom]
  constructor
  · rintro ⟨c, rest, rfl, ho, hc, hdepth, hchar⟩
    obtain rfl : c = sep := beq_iff_eq.1 hchar
    have := ht u (List.prefix_append _ _)
    exact ⟨rest, rfl, ho, hc, by omega⟩
  · rintro ⟨rest, rfl, ho, hc, hzero⟩
    exact ⟨sep, rest, rfl, ho, hc, by omega, beq_self_eq_true sep⟩

/-- A separator is cut at if no parenthesis is open there. -/
theorem mem_positionsOutside_iff {sep : Char} (hsep : sep.toNat < 128) (ht : StaysInside t) :
    i ∈ positionsOutside sep t ↔ t.bytes[i]? = some sep.toUInt8 ∧ sep ≠ '(' ∧ sep ≠ ')' ∧ ¬ InsideAt t i := by
  have hpositions : i ∈ positionsOutside sep t ↔
      ∃ u ∈ fronts (cut (.char sep) t).1 (cut (.char sep) t).2, Text.byteSize u = i := by
    have hbytes := cutBytes_eq 0 (cut (.char sep) t).1 (cut (.char sep) t).2
    rw [Prod.mk.eta] at hbytes
    rw [positionsOutside, hbytes, List.mem_map]
    simp only [Nat.zero_add]
  have hopen : ∀ u rest, t = u ++ rest → (surplus '(' ')' u = 0 ↔ ¬ InsideAt t (Text.byteSize u)) := by
    rintro u rest rfl
    have hu : StaysInside u := fun p hp => ht p (hp.trans (List.prefix_append _ _))
    have := hu u List.prefix_rfl
    rw [insideAt_iff, ← surplus_nonpos_iff hu]
    omega
  rw [hpositions, getElem?_bytes hsep]
  constructor
  · rintro ⟨u, hu, rfl⟩
    obtain ⟨rest, htext, ho, hc, hzero⟩ := (mem_fronts_iff ht).1 hu
    exact ⟨⟨u, rest, htext, rfl⟩, ho, hc, (hopen u _ htext).1 hzero⟩
  · rintro ⟨⟨u, rest, htext, rfl⟩, ho, hc, hinside⟩
    exact ⟨u, (mem_fronts_iff ht).2 ⟨rest, htext, ho, hc, (hopen u _ htext).2 hinside⟩, rfl⟩

/-- What comes of a text that is split at `sep` outside all parentheses. -/
structure SplitsOutside (sep : Char) (t : Text) : Prop where
  /-- Nothing is lost. -/
  joined : [sep].intercalate (splitOutside sep t) = t
  /-- No piece begins or ends in a group, except that the text may end in one. -/
  balanced : StaysInside t → ∀ s ∈ (splitOutside sep t).dropLast, BalancedIn '(' ')' s
  last : StaysInside t →
    ∃ s ∈ (splitOutside sep t).getLast?, (BalancedIn '(' ')' s ↔ BalancedIn '(' ')' t)
  /-- The cuts are at the separators that no open parenthesis is around. -/
  cuts : StaysInside t → ∀ i, i ∈ positionsOutside sep t ↔
    t.bytes[i]? = some sep.toUInt8 ∧ sep ≠ '(' ∧ sep ≠ ')' ∧ ¬ InsideAt t i
  /-- Texts that stand in a group are split this way. -/
  content : ∀ r g, Group.paren? r = some g → g.content = t → StaysInside t

/-- **Splitting outside all parentheses** loses nothing and cuts no group. -/
theorem splits_outside (sep : Char) (hsep : sep.toNat < 128) (t : Text) : SplitsOutside sep t := by
  have hseps : ∀ p ∈ (cut (.char sep) t).2,
      p.1 ≠ '(' ∧ p.1 ≠ ')' ∧ ∃ before behind, Separator.char sep before p.1 behind :=
    separates_of_mem_cutFrom (.char sep) 0 none t
  have hjoin : joinCut ((cut (.char sep) t).1, (cut (.char sep) t).2) = t := joinCut_cut (.char sep) t
  have hpieces (ht : StaysInside t) := pieces_balanced (fun p hp => ⟨(hseps p hp).1, (hseps p hp).2.1⟩)
    (fun u hu => ((mem_fronts_iff ht).1 hu).choose_spec.2.2.2) (hjoin.symm ▸ ht)
  refine ⟨?_, fun ht => (hpieces ht).1, fun ht => ?_, fun ht i => mem_positionsOutside_iff hsep ht, ?_⟩
  · refine (intercalate_pieces fun p hp => ?_).trans hjoin
    obtain ⟨-, -, _, _, hchar⟩ := hseps p hp
    exact beq_iff_eq.1 hchar
  · have hlast := (hpieces ht).2
    rwa [hjoin] at hlast
  · rintro r g hg rfl
    exact staysInside_content hg

/-- `splits_outside` at a group that is not closed, so that the last piece is not balanced. -/
theorem splits_outside_unclosed : (',').toNat < 128 ∧ ∃ g, Group.paren? "(f(1,π),(3,4".toList = some g ∧
    SplitsOutside ',' g.content ∧ StaysInside g.content ∧
      splitOutside ',' g.content = ["f(1,π)".toList, "(3,4".toList] ∧ positionsOutside ',' g.content = [7] := by
  have hgroup : Group.paren? "(f(1,π),(3,4".toList = some ⟨"f(1,π),(3,4".toList, [], false⟩ := by decide
  have hsplits := splits_outside ',' (by decide) "f(1,π),(3,4".toList
  exact ⟨by decide, _, hgroup, hsplits, hsplits.content _ _ hgroup rfl, by decide, by cbv⟩

end

end SignChart
