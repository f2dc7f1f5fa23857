/-
  Squeezed text: single spaces between words and none elsewhere.

  1. **Twice is once.**  `SingleSpaced` says of every place of a text that a blank there is a space with a word
     behind it.  What was squeezed is of this kind (`singleSpaced_squeezeFrom`), and what is of this kind and
     begins with no blank is left as it is (`squeeze_of_singleSpaced`).

  2. **Parts.**  In front of a character that is no blank, the blanks at the end of a part are shown as one space
     (`spaceFrom`), so that a text is squeezed part by part (`squeezeFrom_append`).

  3. **Ends.**  The blanks at the ends of a part can be taken off before or after (`trim_spaceFrom`).
-/
import Mathlib
import SignChart.Text.Blank

namespace SignChart

/-- The text does not begin with a blank. -/
def Unindented (t : Text) : Prop := ∀ c ∈ t.head?, isBlank c = false

/-- Every blank is a space with a word behind it. -/
def SingleSpaced : Text → Prop
  | [] => True
  | c :: r => (isBlank c = true → c = ' ' ∧ ∃ d ∈ r.head?, isBlank d = false) ∧ SingleSpaced r

section
variable {gap : Bool} {c : Char} {r s t : Text}

theorem isBlank_space : isBlank ' ' = true := rfl

theorem unindented_trimStart (t : Text) : Unindented t.trimStart := by
  intro c hc
  have h := List.head?_dropWhile_not isBlank t
  rw [show List.dropWhile isBlank t = t.trimStart from rfl, Option.mem_def.1 hc] at h
  exact h

theorem unindented_cons (h : isBlank c = false) (r : Text) : Unindented (c :: r) := fun _ hd =>
  Option.some.inj hd ▸ h

/-- Where no blank comes first there is none to drop. -/
theorem trimStart_of_unindented (h : Unindented t) : t.trimStart = t := by
  cases t with
  | nil => rfl
  | cons c r => exact List.dropWhile_cons_of_neg (by rw [h c rfl]; exact Bool.false_ne_true)

/-- What holds of every place holds of the places in an end of the text. -/
theorem SingleSpaced.suffix : ∀ {t : Text}, SingleSpaced t → s <:+ t → SingleSpaced s
  | [], h, hs => by rw [List.suffix_nil.1 hs]; exact h
  | c :: r, h, hs => by
    rcases List.suffix_cons_iff.1 hs with rfl | hs
    · exact h
    · exact h.2.suffix hs

theorem squeezeFrom_cons_of_not_blank (h : isBlank c = false) :
    Text.squeezeFrom gap (c :: r) = (if gap then [' '] else []) ++ c :: Text.squeezeFrom false r := by
  rw [Text.squeezeFrom, h]
  cases gap <;> rfl

theorem squeezeFrom_cons_of_blank (h : isBlank c = true) :
    Text.squeezeFrom gap (c :: r) = Text.squeezeFrom true r := by
  rw [Text.squeezeFrom, if_pos h]

/-- Of several blanks one space is kept, and none at the end. -/
theorem singleSpaced_squeezeFrom : ∀ (gap : Bool) (t : Text), SingleSpaced (Text.squeezeFrom gap t)
  | _, [] => trivial
  | gap, c :: r => by
    by_cases hc : isBlank c = true
    · rw [squeezeFrom_cons_of_blank hc]
      exact singleSpaced_squeezeFrom true r
    · have hc : isBlank c = false := Bool.eq_false_iff.2 hc
      have hword : SingleSpaced (c :: Text.squeezeFrom false r) :=
        ⟨fun h => absurd (hc.symm.trans h) Bool.false_ne_true, singleSpaced_squeezeFrom false r⟩
      rw [squeezeFrom_cons_of_not_blank hc]
      cases gap with
      | false => exact hword
      | true => exact ⟨fun _ => ⟨rfl, c, rfl, hc⟩, hword⟩

/-- No blank is put in front of a text that begins with none. -/
theorem unindented_squeezeFrom (h : Unindented t) : Unindented (Text.squeezeFrom false t) := by
  cases t with
  | nil => exact h
  | cons c r =>
    rw [squeezeFrom_cons_of_not_blank (h c rfl)]
    rintro d ⟨⟩
    exact h c rfl

/-- Single spaces stay as they are. -/
theorem squeezeFrom_of_singleSpaced (h : SingleSpaced t) : Text.squeezeFrom false t = t := by
  induction t with
  | nil => rfl
  | cons c r ih =>
    by_cases hc : isBlank c = true
    · obtain ⟨rfl, d, hd, hd'⟩ := h.1 hc
      obtain ⟨r, rfl⟩ := List.head?_eq_some_iff.1 hd
      have hr := ih h.2
      rw [squeezeFrom_cons_of_not_blank hd'] at hr
      rw [squeezeFrom_cons_of_blank hc, squeezeFrom_cons_of_not_blank hd']
      exact congrArg (' ' :: ·) hr
    · rw [squeezeFrom_cons_of_not_blank (Bool.eq_false_iff.2 hc), ih h.2]
      rfl

/-- Single spaces between words are left as they are. -/
theorem squeeze_of_singleSpaced (h : SingleSpaced t) (hb : Unindented t) : t.squeeze = t := by
  rw [Text.squeeze, trimStart_of_unindented hb, squeezeFrom_of_singleSpaced h]

/-- A squeezed text has single spaces, and none at its front. -/
theorem singleSpaced_squeeze (t : Text) : SingleSpaced t.squeeze := singleSpaced_squeezeFrom false _

theorem unindented_squeeze (t : Text) : Unindented t.squeeze :=
  unindented_squeezeFrom (unindented_trimStart t)

/-- Squeezing puts nothing in but spaces. -/
theorem mem_squeezeFrom : ∀ {gap : Bool} {t : Text}, c ∈ Text.squeezeFrom gap t → c ∈ t ∨ c = ' '
  | _, [], h => absurd h List.not_mem_nil
  | gap, d :: r, h => by
    by_cases hd : isBlank d = true
    · rw [squeezeFrom_cons_of_blank hd] at h
      exact (mem_squeezeFrom h).imp_left (List.mem_cons_of_mem d)
    · rw [squeezeFrom_cons_of_not_blank (Bool.eq_false_iff.2 hd)] at h
      rcases List.mem_append.1 h with h | h
      · cases gap with
        | false => exact absurd h List.not_mem_nil
        | true => exact Or.inr (List.mem_singleton.1 h)
      · rcases List.mem_cons.1 h with rfl | h
        · exact Or.inl List.mem_cons_self
        · exact (mem_squeezeFrom h).imp_left (List.mem_cons_of_mem d)

/-- Squeezing adds no character other than the space. -/
theorem mem_squeeze (h : c ∈ t.squeeze) : c ∈ t ∨ c = ' ' :=
  (mem_squeezeFrom h).imp_left fun h => (List.dropWhile_suffix isBlank).subset h

/-- A text never gets longer. -/
theorem length_squeezeFrom_le : ∀ (gap : Bool) (t : Text),
    (Text.squeezeFrom gap t).length ≤ t.length + if gap then 1 else 0
  | gap, [] => Nat.zero_le _
  | gap, c :: r => by
    by_cases hc : isBlank c = true
    · have h := length_squeezeFrom_le true r
      rw [squeezeFrom_cons_of_blank hc, List.length_cons]
      exact h.trans (Nat.le_add_right _ _)
    · have h := length_squeezeFrom_le false r
      rw [squeezeFrom_cons_of_not_blank (Bool.eq_false_iff.2 hc), List.length_append, List.length_cons,
        List.length_cons]
      cases gap <;> simp at h ⊢ <;> omega

theorem length_squeeze_le (t : Text) : t.squeeze.length ≤ t.length :=
  (length_squeezeFrom_le false _).trans (List.dropWhile_sublist _).length_le

/-! ## Parts of a text -/

/-- A text with single spaces, also where blanks stand at its end. -/
def spaceFrom (gap : Bool) : Text → Text
  | [] => if gap then [' '] else []
  | c :: r =>
    if isBlank c then spaceFrom true r else (if gap then [' '] else []) ++ c :: spaceFrom false r

theorem spaceFrom_cons_of_blank (h : isBlank c = true) : spaceFrom gap (c :: r) = spaceFrom true r := by
  rw [spaceFrom, if_pos h]

theorem spaceFrom_cons_of_not_blank (h : isBlank c = false) :
    spaceFrom gap (c :: r) = (if gap then [' '] else []) ++ c :: spaceFrom false r := by
  rw [spaceFrom, h]
  rfl

/-- A part in front of a character that is no blank is squeezed by itself. -/
theorem squeezeFrom_append (gap : Bool) (s r : Text) (hc : isBlank c = false) :
    Text.squeezeFrom gap (s ++ c :: r) = spaceFrom gap s ++ c :: Text.squeezeFrom false r := by
  induction s generalizing gap with
  | nil => exact squeezeFrom_cons_of_not_blank hc
  | cons d s ih =>
    by_cases hd : isBlank d = true
    · rw [List.cons_append, squeezeFrom_cons_of_blank hd, spaceFrom_cons_of_blank hd]
      exact ih true
    · have hd := Bool.eq_false_iff.2 hd
      rw [List.cons_append, squeezeFrom_cons_of_not_blank hd, spaceFrom_cons_of_not_blank hd, ih false,
        List.append_assoc]
      rfl

/-- But for a space at its end a text is squeezed. -/
theorem spaceFrom_eq (gap : Bool) (t : Text) :
    spaceFrom gap t = Text.squeezeFrom gap t ∨ spaceFrom gap t = Text.squeezeFrom gap t ++ [' '] := by
  induction t generalizing gap with
  | nil => cases gap with
    | false => exact Or.inl rfl
    | true => exact Or.inr rfl
  | cons c r ih =>
    by_cases hc : isBlank c = true
    · rw [spaceFrom_cons_of_blank hc, squeezeFrom_cons_of_blank hc]
      exact ih true
    · have hc := Bool.eq_false_iff.2 hc
      rw [spaceFrom_cons_of_not_blank hc, squeezeFrom_cons_of_not_blank hc]
      rcases ih false with h | h <;> rw [h]
      · exact Or.inl rfl
      · exact Or.inr (by simp)

theorem mem_spaceFrom (h : c ∈ spaceFrom gap t) : c ∈ t ∨ c = ' ' := by
  rcases spaceFrom_eq gap t with ht | ht <;> rw [ht] at h
  · exact mem_squeezeFrom h
  · rcases List.mem_append.1 h with h | h
    · exact mem_squeezeFrom h
    · exact Or.inr (List.mem_singleton.1 h)

/-- A character that is no blank separates the blanks in front of it from those behind it. -/
theorem spaceFrom_append (gap : Bool) (s r : Text) (hc : isBlank c = false) :
    spaceFrom gap (s ++ c :: r) = spaceFrom gap s ++ c :: spaceFrom false r := by
  induction s generalizing gap with
  | nil => exact spaceFrom_cons_of_not_blank hc
  | cons d s ih =>
    by_cases hd : isBlank d = true
    · rw [List.cons_append, spaceFrom_cons_of_blank hd, spaceFrom_cons_of_blank hd, ih]
    · have hd := Bool.eq_false_iff.2 hd
      rw [List.cons_append, spaceFrom_cons_of_not_blank hd, spaceFrom_cons_of_not_blank hd, ih, List.append_assoc]
      rfl

/-- The same behind a part that does not end in a blank. -/
theorem squeezeFrom_append_of_solid (hlast : ∃ c ∈ s.getLast?, isBlank c = false) (gap : Bool) (r : Text) :
    Text.squeezeFrom gap (s ++ r) = spaceFrom gap s ++ Text.squeezeFrom false r := by
  obtain ⟨c, hc, hsolid⟩ := hlast
  obtain ⟨u, rfl⟩ := List.getLast?_eq_some_iff.1 hc
  rw [List.append_assoc, spaceFrom_append _ _ _ hsolid, List.append_assoc]
  exact squeezeFrom_append gap u r hsolid

/-- Only blanks are dropped. -/
theorem mem_spaceFrom_of_mem (hc : isBlank c = false) (h : c ∈ t) : c ∈ spaceFrom gap t := by
  obtain ⟨s, r, rfl⟩ := List.append_of_mem h
  rw [spaceFrom_append gap s r hc]
  exact List.mem_append_right _ List.mem_cons_self

/-- Squeezing takes nothing out but blanks. -/
theorem mem_squeeze_of_mem (hc : isBlank c = false) (h : c ∈ t) : c ∈ t.squeeze := by
  have hstart : c ∈ t.trimStart := by
    rw [← List.takeWhile_append_dropWhile (p := isBlank) (l := t)] at h
    refine (List.mem_append.1 h).resolve_left fun h => ?_
    exact absurd (hc.symm.trans (List.mem_takeWhile_imp h)) Bool.false_ne_true
  have hspace : c ∈ spaceFrom false t.trimStart := mem_spaceFrom_of_mem hc hstart
  rcases spaceFrom_eq false t.trimStart with ht | ht <;> rw [ht] at hspace
  · exact hspace
  · refine (List.mem_append.1 hspace).resolve_right fun h => ?_
    rw [List.mem_singleton.1 h] at hc
    exact absurd hc (by decide)

/-! ## The ends of a part -/

/-- The last character that is no blank ends the text. -/
theorem trimEnd_cons (c : Char) (r : Text) :
    Text.trimEnd (c :: r) = if isBlank c = true ∧ r.trimEnd = [] then [] else c :: r.trimEnd := by
  rw [Text.trimEnd, Text.trimEnd, List.reverse_cons, List.dropWhile_append]
  by_cases hr : r.reverse.dropWhile isBlank = []
  · rw [hr]
    by_cases hc : isBlank c = true <;> simp [hc]
  · rw [if_neg (by simpa using hr), if_neg fun h => hr (List.reverse_eq_nil_iff.1 h.2), List.reverse_append]
    rfl

theorem trimEnd_cons_of_not_blank (h : isBlank c = false) (r : Text) :
    Text.trimEnd (c :: r) = c :: r.trimEnd := by
  rw [trimEnd_cons, if_neg fun hc => absurd (h.symm.trans hc.1) Bool.false_ne_true]

theorem trimEnd_isPrefix (t : Text) : t.trimEnd <+: t := by
  have h := List.reverse_prefix.2 (List.dropWhile_suffix isBlank (l := t.reverse))
  rwa [List.reverse_reverse] at h

/-- The blanks at the front of a part can be dropped before or after. -/
theorem trimStart_spaceFrom (gap : Bool) (t : Text) : (spaceFrom gap t).trimStart = spaceFrom false t.trimStart := by
  induction t generalizing gap with
  | nil => cases gap <;> rfl
  | cons c r ih =>
    by_cases hc : isBlank c = true
    · rw [spaceFrom_cons_of_blank hc, ih, Text.trimStart, Text.trimStart, List.dropWhile_cons_of_pos hc]
    · have hc := Bool.eq_false_iff.2 hc
      rw [spaceFrom_cons_of_not_blank hc, trimStart_of_unindented (unindented_cons hc r),
        spaceFrom_cons_of_not_blank hc]
      cases gap <;> exact trimStart_of_unindented (unindented_cons hc _)

/-- The blanks at the end of a part can be dropped before or after. -/
theorem trimEnd_spaceFrom (gap : Bool) (t : Text) :
    (spaceFrom gap t).trimEnd = if t.trimEnd = [] then [] else spaceFrom gap t.trimEnd := by
  induction t generalizing gap with
  | nil => cases gap <;> rfl
  | cons c r ih =>
    by_cases hc : isBlank c = true
    · rw [spaceFrom_cons_of_blank hc, ih]
      by_cases hr : Text.trimEnd r = []
      · have hend : Text.trimEnd (c :: r) = [] := by rw [trimEnd_cons, if_pos ⟨hc, hr⟩]
        rw [if_pos hr, if_pos hend]
      · have hend : Text.trimEnd (c :: r) = c :: Text.trimEnd r := by rw [trimEnd_cons, if_neg fun h => hr h.2]
        rw [if_neg hr, hend, if_neg (List.cons_ne_nil c _), spaceFrom_cons_of_blank hc]
    · have hc := Bool.eq_false_iff.2 hc
      have hend : Text.trimEnd (c :: spaceFrom false r) = c :: spaceFrom false (Text.trimEnd r) := by
        rw [trimEnd_cons_of_not_blank hc, ih]
        split
        · next hr => rw [hr]; rfl
        · rfl
      rw [trimEnd_cons_of_not_blank hc, if_neg (List.cons_ne_nil c _), spaceFrom_cons_of_not_blank hc,
        spaceFrom_cons_of_not_blank hc]
      cases gap with
      | false => exact hend
      | true =>
        show Text.trimEnd (' ' :: c :: spaceFrom false r) = _
        rw [trimEnd_cons, hend, if_neg fun h => absurd h.2 (List.cons_ne_nil _ _)]
        rfl

/-- The blanks at the ends of a part can be taken off before or after. -/
theorem trim_spaceFrom (t : Text) : (spaceFrom false t).trim = spaceFrom false t.trim := by
  rw [Text.trim, trimStart_spaceFrom, trimEnd_spaceFrom, Text.trim]
  split
  · next h => rw [h]; rfl
  · rfl

/-- A part without blanks stays as it is. -/
theorem spaceFrom_of_no_blank (h : ∀ c ∈ t, isBlank c = false) : spaceFrom false t = t := by
  induction t with
  | nil => rfl
  | cons c r ih =>
    rw [spaceFrom_cons_of_not_blank (h c List.mem_cons_self), ih fun d hd => h d (List.mem_cons_of_mem c hd)]
    rfl

theorem space_mem_spaceFrom (h : ∃ c ∈ t, isBlank c = true) : ' ' ∈ spaceFrom gap t := by
  have hgap : ∀ t : Text, ' ' ∈ spaceFrom true t := by
    intro t
    induction t with
    | nil => exact List.mem_cons_self
    | cons c r ih =>
      by_cases hc : isBlank c = true
      · rw [spaceFrom_cons_of_blank hc]
        exact ih
      · rw [spaceFrom_cons_of_not_blank (Bool.eq_false_iff.2 hc)]
        exact List.mem_cons_self
  obtain ⟨c, hc, hblank⟩ := h
  induction t generalizing gap with
  | nil => exact absurd hc List.not_mem_nil
  | cons d r ih =>
    by_cases hd : isBlank d = true
    · rw [spaceFrom_cons_of_blank hd]
      exact hgap r
    · have hr := (List.mem_cons.1 hc).resolve_left fun h => hd (h ▸ hblank)
      rw [spaceFrom_cons_of_not_blank (Bool.eq_false_iff.2 hd)]
      exact List.mem_append_right _ (List.mem_cons_of_mem d (ih hr))

end

end SignChart
