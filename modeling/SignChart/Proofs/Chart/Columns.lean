/-
  Reading a chart back from its text.

  Every line of a chart is written by itself: fields are put in the middle of columns whose widths come from all labels,
  from the width that is asked for and from the texts of the values, and blanks at the end are dropped.  Still the lines
  stand one under the other, and blanks tell the fields apart.

  1. **Columns.**  Where a column begins depends on the layout and on its number alone (`Layout.segmentStart`,
     `Layout.pointStart`), as a field of a column fills it (`length_centre`).  In front of each pair of columns stand the
     pairs before it, which is the whole induction (`fields_eq_append`).

  2. **Lines.**  What is dropped at the end are spaces: behind a sign nothing else stands, and in the line of the values
     nothing else is blank.  So spaces at the end give the full line back (`padRight_trimEnd`, `shows_line`).

  3. **Words.**  A column of an interval has a blank at both ends, so the words of a line are those of its label and of
     its fields, one after the other (`words_fields`); and a value is one word (`isOneWord_text`).

  4. **Text.**  Lines are read back from the text where no label has a line end (`splitOn_render`): with one, a label
     is on two lines, and its row is no longer below the others (`not_showsChart_of_line_end`).

  **`chart_columns`** says this of the text of every chart whose labels have no line end and that can be written.  Columns
  are counted in characters.
-/
import SignChart.Proofs.Chart.Fields
import SignChart.Proofs.Text.Squeezing

namespace SignChart

/-! ## Words -/

/-- The words of a text: what stands between blanks. -/
def Text.words (t : Text) : List Text := (t.splitOnP isBlank).filter (· ≠ [])

/-- A text that is not empty and has no blanks. -/
structure IsOneWord (t : Text) : Prop where
  nonempty : t ≠ []
  solid : ∀ c ∈ t, isBlank c = false

section
variable {c : Char} {s t : Text}

/-- A blank separates words. -/
theorem words_append_blank (hc : isBlank c = true) (s t : Text) :
    Text.words (s ++ c :: t) = Text.words s ++ Text.words t := by
  rw [Text.words, List.splitOnP_append_cons s t hc, List.filter_append]
  rfl

theorem words_cons_blank (hc : isBlank c = true) (t : Text) : Text.words (c :: t) = Text.words t :=
  words_append_blank hc [] t

theorem IsOneWord.words_eq (h : IsOneWord t) : Text.words t = [t] := by
  rw [Text.words, List.splitOnP_eq_singleton h.solid]
  simp [h.nonempty]

theorem isOneWord_singleton (h : isBlank c = false) : IsOneWord [c] :=
  ⟨List.cons_ne_nil c [], List.forall_mem_singleton.2 h⟩

theorem words_replicate_append (n : Nat) (t : Text) : Text.words (List.replicate n ' ' ++ t) = Text.words t := by
  induction n with
  | zero => rfl
  | succ n ih => rw [List.replicate_succ, List.cons_append, words_cons_blank isBlank_space, ih]

/-- Blanks at the end make no word. -/
theorem words_append_of_blank (h : ∀ c ∈ t, isBlank c = true) (s : Text) : Text.words (s ++ t) = Text.words s := by
  induction t generalizing s with
  | nil => rw [List.append_nil]
  | cons c r ih =>
    have hr := ih (fun d hd => h d (List.mem_cons_of_mem _ hd)) []
    rw [words_append_blank (h c List.mem_cons_self), ← List.nil_append r, hr]
    exact List.append_nil _

theorem words_append_replicate (s : Text) (n : Nat) : Text.words (s ++ List.replicate n ' ') = Text.words s :=
  words_append_of_blank (fun _ h => List.eq_of_mem_replicate h ▸ isBlank_space) s

/-! ## Blanks at the end -/

/-- The blanks that are dropped at the end of a text. -/
def dropped (t : Text) : Text := (t.reverse.takeWhile isBlank).reverse

theorem trimEnd_append_dropped (t : Text) : t.trimEnd ++ dropped t = t := by
  rw [Text.trimEnd, dropped, ← List.reverse_append, List.takeWhile_append_dropWhile, List.reverse_reverse]

/-- What is dropped at the end of a text is its last blanks. -/
theorem mem_dropped (h : c ∈ dropped t) : c ∈ t ∧ isBlank c = true :=
  have h := List.mem_reverse.1 h
  ⟨List.mem_reverse.1 ((List.takeWhile_prefix isBlank).subset h), List.all_eq_true.1 List.all_takeWhile c h⟩

/-- Behind the last character that is no blank, only what follows is dropped. -/
theorem dropped_append (hc : isBlank c = false) (s t : Text) (ht : ∀ d ∈ t, isBlank d = true) :
    dropped (s ++ c :: t) = t := by
  have hrev : (s ++ c :: t).reverse = t.reverse ++ c :: s.reverse := by simp
  rw [dropped, hrev, List.takeWhile_append_of_pos fun d hd => ht d (List.mem_reverse.1 hd),
    List.takeWhile_cons_of_neg (by rw [hc]; decide), List.append_nil, List.reverse_reverse]

theorem mem_of_mem_trimEnd (h : c ∈ t.trimEnd) : c ∈ t := by
  rw [← trimEnd_append_dropped t]
  exact List.mem_append_left _ h

/-- The blanks that are not written at the end of a line are in no word of it. -/
theorem words_trimEnd (t : Text) : Text.words t.trimEnd = Text.words t := by
  conv_rhs => rw [← trimEnd_append_dropped t]
  exact (words_append_of_blank (fun c hc => (mem_dropped hc).2) _).symm

/-- Spaces that were dropped can be put back. -/
theorem padRight_trimEnd (h : ∀ c ∈ dropped t, c = ' ') : t.trimEnd.padRight t.length = t := by
  have hlength : t.length = t.trimEnd.length + (dropped t).length := by
    rw [← List.length_append, trimEnd_append_dropped]
  have hspaces : dropped t = List.replicate (dropped t).length ' ' := List.eq_replicate_of_mem h
  rw [Text.padRight, hlength, Nat.add_sub_cancel_left, ← hspaces, trimEnd_append_dropped]

/-- A character that is no space was there before. -/
theorem getElem?_of_padRight {n i : Nat} (h : (t.padRight n)[i]? = some c) (hc : c ≠ ' ') : t[i]? = some c := by
  rw [Text.padRight, List.getElem?_append] at h
  split at h
  · exact h
  · exact absurd (List.eq_of_mem_replicate (List.mem_of_getElem? h)) hc

/-- Words end where something begins with a blank. -/
theorem words_append_of_head (h : ∀ c ∈ t.head?, isBlank c = true) (s : Text) :
    Text.words (s ++ t) = Text.words s ++ Text.words t := by
  cases t with
  | nil => exact (congrArg _ (List.append_nil s)).trans (List.append_nil _).symm
  | cons c r => rw [words_append_blank (h c rfl), words_cons_blank (h c rfl)]

/-- Spaces around a text make no word. -/
theorem words_centre (t : Text) (n : Nat) : Text.words (t.centre n) = Text.words t := by
  rw [Text.centre, words_append_replicate, words_replicate_append]

/-- A field that is wide enough begins and ends with a space. -/
theorem centre_eq_cons_append {n : Nat} (h : t.length + 2 ≤ n) : ∃ u, t.centre n = ' ' :: (u ++ [' ']) := by
  obtain ⟨i, hi⟩ : ∃ i, (n - t.length) / 2 = i + 1 := ⟨(n - t.length) / 2 - 1, by omega⟩
  obtain ⟨j, hj⟩ : ∃ j, n - t.length - (i + 1) = j + 1 := ⟨n - t.length - (i + 1) - 1, by omega⟩
  refine ⟨List.replicate i ' ' ++ t ++ List.replicate j ' ', ?_⟩
  rw [Text.centre, hi, hj, List.replicate_succ, List.replicate_succ']
  simp

/-- Such a field keeps its words from what follows. -/
theorem words_centre_append {n : Nat} (h : s.length + 2 ≤ n) (t : Text) :
    Text.words (s.centre n ++ t) = Text.words s ++ Text.words t := by
  obtain ⟨u, hu⟩ := centre_eq_cons_append h
  have hs : Text.words s = Text.words (' ' :: u) := by
    rw [← words_centre s n, hu, ← List.cons_append, words_append_blank isBlank_space]
    exact List.append_nil _
  rw [hu, hs, ← List.cons_append, List.append_assoc, List.singleton_append, words_append_blank isBlank_space]

end

/-! ## Columns -/

/-- A number of characters of a text from some place on. -/
def Text.slice (t : Text) (start width : Nat) : Text := (t.drop start).take width

/-- A part of a text is what stands between the texts in front of it and behind it. -/
theorem slice_append {a b : Text} {start width : Nat} (ha : a.length = start) (hb : b.length = width) (r : Text) :
    Text.slice (a ++ (b ++ r)) start width = b := by
  rw [Text.slice, List.drop_left' ha, List.take_left' hb]

/-- A character of a part stands in the whole. -/
theorem getElem?_of_slice {t : Text} {start width i : Nat} (h : i < (t.slice start width).length) :
    t[start + i]? = (t.slice start width)[i]? := by
  rw [Text.slice, List.getElem?_take_of_lt (by rw [Text.slice, List.length_take] at h; omega), List.getElem?_drop]

/-- A field has its width, unless its text is longer. -/
theorem length_centre {t : Text} {w : Nat} (h : t.length ≤ w) : (t.centre w).length = w := by
  simp only [Text.centre, List.length_append, List.length_replicate]
  omega

theorem centre_length (t : Text) : t.centre t.length = t := by
  rw [Text.centre, Nat.sub_self]
  exact List.append_nil t

theorem length_padRight {t : Text} {w : Nat} (h : t.length ≤ w) : (t.padRight w).length = w := by
  simp only [Text.padRight, List.length_append, List.length_replicate]
  omega

namespace Layout

/-- The column at which an interval begins. -/
def segmentStart (l : Layout) (k : Nat) : Nat := l.label + 1 + (k * l.segment + (l.points.take k).sum)

/-- The column at which a point begins. -/
def pointStart (l : Layout) (k : Nat) : Nat := l.segmentStart k + l.segment

/-- The length of a line with all its blanks. -/
def width (l : Layout) : Nat := l.pointStart l.points.length

/-- A label and fields that have room in the columns of a layout. -/
structure Holds (l : Layout) (label : Text) (segments marks : List Text) : Prop where
  label : label.length ≤ l.label
  count : segments.length = l.points.length + 1
  segments : ∀ s ∈ segments, s.length ≤ l.segment
  marks : List.Forall₂ (fun m w => m.length ≤ w) marks l.points

/-- A line that shows a label and fields in the columns of a layout, when it is filled up with spaces. -/
structure Shows (l : Layout) (t label : Text) (segments marks : List Text) : Prop where
  length : (t.padRight l.width).length = l.width
  label : (t.padRight l.width).take l.label = label.padRight l.label
  segments : ∀ k s, segments[k]? = some s →
    (t.padRight l.width).slice (l.segmentStart k) l.segment = s.centre l.segment
  points : ∀ k m w, marks[k]? = some m → l.points[k]? = some w →
    (t.padRight l.width).slice (l.pointStart k) w = m.centre w
  /-- A mark of one character stands in the column of its point. -/
  marks : ∀ k c w, marks[k]? = some [c] → l.points[k]? = some w → c ≠ ' ' →
    ∃ i, i < w ∧ t[l.pointStart k + i]? = some c

/-- In front of the fields from number `k` on stand `k` fields of intervals and `k` of points. -/
theorem fields_eq_append {segment : Nat} (k : Nat) : ∀ {segments marks : List Text} {widths : List Nat},
    (∀ s ∈ segments, s.length ≤ segment) → List.Forall₂ (fun m w => m.length ≤ w) marks widths →
    k ≤ widths.length → widths.length < segments.length →
    ∃ a, fields segment segments (marks.zip widths) =
      a ++ fields segment (segments.drop k) ((marks.drop k).zip (widths.drop k)) ∧
      a.length = k * segment + (widths.take k).sum := by
  induction k with
  | zero => exact fun _ _ _ _ => ⟨[], rfl, by simp⟩
  | succ k ih =>
    intro segments marks widths hsegments hmarks hk hcount
    cases hmarks with
    | nil => exact absurd hk (by simp)
    | @cons m w marks widths hm hmarks =>
      cases segments with
      | nil => exact absurd hcount (by simp)
      | cons s segments =>
        simp only [List.length_cons, Nat.succ_le_succ_iff, Nat.succ_lt_succ_iff] at hk hcount
        obtain ⟨a, ha, hlength⟩ := ih (fun s hs => hsegments s (List.mem_cons_of_mem _ hs)) hmarks hk hcount
        refine ⟨s.centre segment ++ m.centre w ++ a, ?_, ?_⟩
        · rw [List.zip_cons_cons, fields, ha, List.append_assoc _ a]
          rfl
        · rw [List.length_append, List.length_append, length_centre (hsegments s List.mem_cons_self),
            length_centre hm, hlength, List.take_succ_cons, List.sum_cons, Nat.succ_mul]
          omega

theorem fields_cons (segment : Nat) (s : Text) (segments : List Text) (ms : List (Text × Nat)) :
    ∃ r, fields segment (s :: segments) ms = s.centre segment ++ r := by
  cases ms with
  | nil => exact ⟨_, rfl⟩
  | cons m ms => exact ⟨_, List.append_assoc _ _ _⟩

section
variable {l : Layout} {label : Text} {segments marks : List Text}

/-- What stands in front of a field of an interval, and what behind it. -/
theorem Holds.split (h : l.Holds label segments marks) {k : Nat} {s : Text} (hs : segments[k]? = some s) :
    ∃ a, a.length = l.segmentStart k ∧ l.fullLine label segments marks =
      a ++ fields l.segment (s :: segments.drop (k + 1)) ((marks.drop k).zip (l.points.drop k)) := by
  obtain ⟨hk, hget⟩ := List.getElem?_eq_some_iff.1 hs
  have hcount := h.count
  obtain ⟨a, ha, hlength⟩ := fields_eq_append k h.segments h.marks (by omega) (by omega)
  refine ⟨label.padRight l.label ++ ' ' :: a, ?_, ?_⟩
  · rw [List.length_append, length_padRight h.label, List.length_cons, hlength, segmentStart]
    omega
  · rw [fullLine, ha, List.drop_eq_getElem_cons hk, hget, List.append_assoc]
    rfl

/-- Behind the field of an interval stands that of the point that ends it. -/
theorem Holds.split_point (h : l.Holds label segments marks) {k w : Nat} {m : Text} (hm : marks[k]? = some m)
    (hw : l.points[k]? = some w) :
    ∃ a r, a.length = l.pointStart k ∧ l.fullLine label segments marks = a ++ (m.centre w ++ r) := by
  obtain ⟨hkm, hm⟩ := List.getElem?_eq_some_iff.1 hm
  obtain ⟨hkw, hw⟩ := List.getElem?_eq_some_iff.1 hw
  have hks : k < segments.length := h.count ▸ Nat.lt_succ_of_lt hkw
  obtain ⟨a, hlength, ha⟩ := h.split (List.getElem?_eq_getElem hks)
  refine ⟨a ++ segments[k].centre l.segment,
    fields l.segment (segments.drop (k + 1)) ((marks.drop (k + 1)).zip (l.points.drop (k + 1))), ?_, ?_⟩
  · rw [List.length_append, length_centre (h.segments _ (List.getElem_mem hks)), hlength, pointStart]
  · rw [ha, List.drop_eq_getElem_cons hkm, List.drop_eq_getElem_cons hkw, hm, hw, List.zip_cons_cons, fields,
      List.append_assoc, List.append_assoc]

/-- The field of the last interval ends a line. -/
theorem Holds.split_last (h : l.Holds label segments marks) {s : Text}
    (hs : segments[l.points.length]? = some s) :
    ∃ a, a.length = l.segmentStart l.points.length ∧
      l.fullLine label segments marks = a ++ s.centre l.segment := by
  obtain ⟨a, hlength, ha⟩ := h.split hs
  refine ⟨a, hlength, ?_⟩
  rw [ha, List.drop_length, List.zip_nil_right, ← h.count, List.drop_length, fields, fields, List.append_nil]

/-- All lines of a layout have the same length. -/
theorem Holds.length_fullLine (h : l.Holds label segments marks) :
    (l.fullLine label segments marks).length = l.width := by
  have hlast : l.points.length < segments.length := h.count ▸ Nat.lt_succ_self _
  obtain ⟨a, hlength, ha⟩ := h.split_last (List.getElem?_eq_getElem hlast)
  rw [ha, List.length_append, hlength, length_centre (h.segments _ (List.getElem_mem hlast))]
  rfl

theorem Holds.mark_le (h : l.Holds label segments marks) {k w : Nat} {m : Text} (hm : marks[k]? = some m)
    (hw : l.points[k]? = some w) : m.length ≤ w := by
  obtain ⟨hkm, rfl⟩ := List.getElem?_eq_some_iff.1 hm
  obtain ⟨hkw, rfl⟩ := List.getElem?_eq_some_iff.1 hw
  exact (List.forall₂_iff_get.1 h.marks).2 k hkm hkw

/-- The field of an interval stands where its column begins. -/
theorem Holds.slice_segment (h : l.Holds label segments marks) {k : Nat} {s : Text} (hs : segments[k]? = some s) :
    (l.fullLine label segments marks).slice (l.segmentStart k) l.segment = s.centre l.segment := by
  obtain ⟨a, hlength, ha⟩ := h.split hs
  obtain ⟨r, hr⟩ := fields_cons l.segment s (segments.drop (k + 1)) ((marks.drop k).zip (l.points.drop k))
  rw [ha, hr]
  exact slice_append hlength (length_centre (h.segments s (List.mem_of_getElem? hs))) r

/-- The field of a point stands where its column begins. -/
theorem Holds.slice_point (h : l.Holds label segments marks) {k w : Nat} {m : Text} (hm : marks[k]? = some m)
    (hw : l.points[k]? = some w) : (l.fullLine label segments marks).slice (l.pointStart k) w = m.centre w := by
  obtain ⟨a, r, hlength, ha⟩ := h.split_point hm hw
  rw [ha]
  exact slice_append hlength (length_centre (h.mark_le hm hw)) r

/-- A mark is somewhere in the column of its point. -/
theorem Holds.getElem?_mark (h : l.Holds label segments marks) {k w : Nat} {c : Char} (hm : marks[k]? = some [c])
    (hw : l.points[k]? = some w) : ∃ i, i < w ∧ (l.fullLine label segments marks)[l.pointStart k + i]? = some c := by
  have hroom : 1 ≤ w := h.mark_le hm hw
  have hslice := h.slice_point hm hw
  have hi : (w - 1) / 2 < ((l.fullLine label segments marks).slice (l.pointStart k) w).length := by
    rw [hslice, length_centre hroom]
    omega
  have hmid : (Text.centre [c] w)[(w - 1) / 2]? = some c := by
    rw [Text.centre, List.append_assoc, List.getElem?_append_right (by simp)]
    simp
  exact ⟨(w - 1) / 2, by omega, by rw [getElem?_of_slice hi, hslice, hmid]⟩

/-- A line whose fields have room shows them, where only spaces were dropped at its end. -/
theorem shows_line (h : l.Holds label segments marks)
    (hspaces : ∀ c ∈ dropped (l.fullLine label segments marks), c = ' ') :
    l.Shows (l.line label segments marks) label segments marks := by
  have hfull : (l.line label segments marks).padRight l.width = l.fullLine label segments marks := by
    rw [← h.length_fullLine]
    exact padRight_trimEnd hspaces
  refine ⟨?_, ?_, fun k s hs => ?_, fun k m w hm hw => ?_, fun k c w hm hw hc => ?_⟩
  · rw [hfull, h.length_fullLine]
  · rw [hfull]
    exact List.take_left' (length_padRight h.label)
  · rw [hfull, h.slice_segment hs]
  · rw [hfull, h.slice_point hm hw]
  · obtain ⟨i, hi, hmark⟩ := h.getElem?_mark hm hw
    exact ⟨i, hi, getElem?_of_padRight (hfull.symm ▸ hmark) hc⟩

/-- Behind a sign nothing else is dropped than the spaces at the end of its field. -/
theorem Holds.eq_space_of_dropped (h : l.Holds label segments marks) {c : Char} (hc : isBlank c = false)
    (hlast : segments[l.points.length]? = some [c]) :
    ∀ d ∈ dropped (l.fullLine label segments marks), d = ' ' := by
  obtain ⟨a, -, ha⟩ := h.split_last hlast
  have hspaces : ∀ n, ∀ d ∈ List.replicate n ' ', isBlank d = true := fun n d hd =>
    List.eq_of_mem_replicate hd ▸ isBlank_space
  rw [ha, Text.centre, List.append_assoc, ← List.append_assoc, List.singleton_append,
    dropped_append hc _ _ (hspaces _)]
  exact fun d hd => List.eq_of_mem_replicate hd

/-- What spaces and all parts of a line have, its characters have. -/
theorem forall_mem_fullLine (P : Char → Prop) (hspace : P ' ') (hlabel : ∀ c ∈ label, P c)
    (hsegments : ∀ s ∈ segments, ∀ c ∈ s, P c) (hmarks : ∀ m ∈ marks, ∀ c ∈ m, P c) :
    ∀ c ∈ l.fullLine label segments marks, P c := by
  have hreplicate : ∀ n, ∀ c ∈ List.replicate n ' ', P c := fun n c hc => List.eq_of_mem_replicate hc ▸ hspace
  have hcentre : ∀ {t : Text} {w : Nat}, (∀ c ∈ t, P c) → ∀ c ∈ t.centre w, P c := fun ht =>
    List.forall_mem_append.2 ⟨List.forall_mem_append.2 ⟨hreplicate _, ht⟩, hreplicate _⟩
  have hfields : ∀ (segments : List Text) (ms : List (Text × Nat)), (∀ s ∈ segments, ∀ c ∈ s, P c) →
      (∀ m ∈ ms, ∀ c ∈ m.1, P c) → ∀ c ∈ fields l.segment segments ms, P c := by
    intro segments ms hs hm
    fun_induction fields l.segment segments ms with
    | case1 => exact fun c hc => absurd hc List.not_mem_nil
    | case2 s rest ih =>
      rw [List.forall_mem_cons] at hs
      exact List.forall_mem_append.2 ⟨hcentre hs.1, ih hs.2 hm⟩
    | case3 s rest mark width ms ih =>
      rw [List.forall_mem_cons] at hs hm
      exact List.forall_mem_append.2 ⟨List.forall_mem_append.2 ⟨hcentre hs.1, hcentre hm.1⟩, ih hs.2 hm.2⟩
  refine List.forall_mem_append.2 ⟨List.forall_mem_append.2 ⟨hlabel, hreplicate _⟩, List.forall_mem_cons.2 ⟨hspace, ?_⟩⟩
  exact hfields segments _ hsegments fun m hm => hmarks _ (List.of_mem_zip hm).1

end

/-! ## Fields as words -/

/-- Fields of intervals by turns with marks of points, up to the last interval. -/
def alternate : List Text → List Text → List Text
  | [], _ => []
  | s :: rest, [] => s :: alternate rest []
  | s :: rest, m :: marks => s :: m :: alternate rest marks

/-- The words of fields are those of their texts, where the intervals' columns are wide enough to keep them apart. -/
theorem words_fields (segment : Nat) : ∀ (segments : List Text) (ms : List (Text × Nat)),
    (∀ s ∈ segments, s.length + 2 ≤ segment) →
    Text.words (fields segment segments ms) = (alternate segments (ms.map Prod.fst)).flatMap Text.words := by
  intro segments ms h
  fun_induction fields segment segments ms with
  | case1 => rfl
  | case2 s rest ih =>
    rw [List.forall_mem_cons] at h
    rw [words_centre_append h.1, ih h.2]
    rfl
  | case3 s rest mark width ms ih =>
    rw [List.forall_mem_cons] at h
    have hhead : ∀ c ∈ (fields segment rest ms).head?, isBlank c = true := by
      cases rest with
      | nil => exact fun c hc => absurd hc (by simp [fields])
      | cons s' rest =>
        obtain ⟨r, hr⟩ := fields_cons segment s' rest ms
        obtain ⟨u, hu⟩ := centre_eq_cons_append (h.2 s' List.mem_cons_self)
        rw [hr, hu]
        rintro c ⟨⟩
        exact isBlank_space
    rw [List.append_assoc, words_centre_append h.1, words_append_of_head hhead, words_centre, ih h.2]
    rfl

/-- The words of a line are its label, and then signs and marks by turns. -/
theorem words_line (l : Layout) (label : Text) {segments marks : List Text}
    (h : ∀ s ∈ segments, s.length + 2 ≤ l.segment) (hmarks : marks.length = l.points.length) :
    Text.words (l.line label segments marks) =
      Text.words label ++ (alternate segments marks).flatMap Text.words := by
  rw [line, words_trimEnd, fullLine, words_append_blank isBlank_space, Text.padRight, words_append_replicate,
    words_fields _ _ _ h, List.map_fst_zip hmarks.le]

/-- Fields that are single words are the words of their line. -/
theorem flatMap_words {ts : List Text} (h : ∀ t ∈ ts, IsOneWord t) : ts.flatMap Text.words = ts := by
  rw [List.flatMap_congr fun t ht => (h t ht).words_eq, List.flatMap_singleton']

theorem mem_alternate {t : Text} : ∀ {segments marks : List Text}, t ∈ alternate segments marks →
    t ∈ segments ∨ t ∈ marks := by
  intro segments marks
  fun_induction alternate segments marks <;> grind

/-- Empty fields have no words. -/
theorem flatMap_words_alternate {segments marks : List Text} (h : ∀ s ∈ segments, s = [])
    (hcount : marks.length ≤ segments.length) :
    (alternate segments marks).flatMap Text.words = marks.flatMap Text.words := by
  fun_induction alternate segments marks with
  | case1 marks => rw [List.eq_nil_of_length_eq_zero (Nat.le_zero.1 hcount)]
  | case2 s rest ih =>
    rw [List.forall_mem_cons] at h
    rw [List.flatMap_cons, ih h.2 (Nat.zero_le _), h.1]
    rfl
  | case3 s rest m marks ih =>
    rw [List.forall_mem_cons] at h
    rw [List.flatMap_cons, List.flatMap_cons, ih h.2 (Nat.le_of_succ_le_succ hcount), h.1, List.flatMap_cons]
    rfl

end Layout

/-! ## Values -/

theorem not_isBlank_of_isDigit {c : Char} (h : c.isDigit = true) : isBlank c = false := by
  have hrange : 48 ≤ c.toNat ∧ c.toNat ≤ 57 := by simpa [Char.isDigit, UInt32.le_iff_toNat_le] using h
  simp only [isBlank, Bool.or_eq_false_iff, Bool.and_eq_false_iff, decide_eq_false_iff_not, beq_eq_false_iff_ne]
  omega

/-- Digits, with or without a point among them, are one word. -/
theorem isOneWord_of_digits {t : Text} (hne : t ≠ []) (h : ∀ c ∈ t, c.isDigit = true ∨ c = '.') : IsOneWord t :=
  ⟨hne, fun c hc => (h c hc).elim not_isBlank_of_isDigit fun hpoint => hpoint ▸ rfl⟩

/-- The text of a decimal number is one word. -/
theorem isOneWord_decimal (d : Decimal) : IsOneWord d.text := by
  have hzeros : ∀ n, ∀ c ∈ List.replicate n '0', c.isDigit = true := fun n c hc => List.eq_of_mem_replicate hc ▸ rfl
  have hdigits : ∀ c ∈ Nat.toDigits 10 d.digits, c.isDigit = true := fun c hc =>
    Nat.isDigit_of_mem_toDigits (by decide) (by decide) hc
  rw [Decimal.text]
  split
  · exact isOneWord_of_digits (by simp [Nat.toDigits_ne_nil])
      (List.forall_mem_append.2 ⟨fun c hc => .inl (hdigits c hc), fun c hc => .inl (hzeros _ c hc)⟩)
  · next n _ =>
    -- with the zeros in front there is at least one digit more than places behind the point
    set padded := List.replicate (n + 1 + 1 - (Nat.toDigits 10 d.digits).length) '0' ++ Nat.toDigits 10 d.digits
      with hpadded
    have hlength : n + 1 < padded.length := by
      rw [hpadded, List.length_append, List.length_replicate]
      omega
    have hpad : ∀ c ∈ padded, c.isDigit = true := List.forall_mem_append.2 ⟨hzeros _, hdigits⟩
    have hwhole : ∀ c ∈ padded.take (padded.length - (n + 1)), c.isDigit = true := fun c hc =>
      hpad c (List.mem_of_mem_take hc)
    have hne : padded.take (padded.length - (n + 1)) ≠ [] := by
      rw [Ne, List.take_eq_nil_iff, not_or]
      exact ⟨by omega, List.ne_nil_of_length_pos (by omega)⟩
    dsimp only
    split
    · exact isOneWord_of_digits hne fun c hc => .inl (hwhole c hc)
    · next hfraction =>
      have hrest : ∀ c ∈ ((padded.drop (padded.length - (n + 1))).reverse.dropWhile (· = '0')).reverse,
          c.isDigit = true := fun c hc =>
        hpad c (List.mem_of_mem_drop (List.mem_reverse.1
          ((List.dropWhile_suffix _).subset (List.mem_reverse.1 hc))))
      refine isOneWord_of_digits (by simp) (List.forall_mem_append.2 ⟨fun c hc => .inl (hwhole c hc), ?_⟩)
      exact List.forall_mem_cons.2 ⟨.inr rfl, fun c hc => .inl (hrest c hc)⟩

/-- A number is written as one word. -/
theorem isOneWord_text (x : Float) : IsOneWord x.text := by
  have hsigned : ∀ (negative : Bool) {t : Text}, IsOneWord t → IsOneWord (if negative then '-' :: t else t) := by
    intro negative t ht
    cases negative with
    | false => exact ht
    | true => exact ⟨List.cons_ne_nil _ _, List.forall_mem_cons.2 ⟨rfl, ht.solid⟩⟩
  unfold Float.text
  split
  · exact ⟨by decide, by simp [isBlank]⟩
  · exact hsigned _ ⟨by decide, by simp [isBlank]⟩
  · exact hsigned _ ⟨by decide, by simp [isBlank]⟩
  · exact hsigned _ (isOneWord_decimal _)

/-! ## Charts -/

/-- A character has at least one byte. -/
theorem length_le_byteSize (t : Text) : t.length ≤ Text.byteSize t := by
  induction t with
  | nil => exact Nat.le_refl 0
  | cons c t ih =>
    have hc := Char.utf8Size_pos c
    rw [List.length_cons, Text.byteSize_cons]
    omega

/-- The column of the labels has room for all of them. -/
theorem label_le (c : Chart) (width : Nat) :
    (∀ r ∈ c.rows, r.label.length ≤ (c.layout width).label) ∧ valueLabel.length ≤ (c.layout width).label ∧
      functionLabel.length ≤ (c.layout width).label := by
  obtain ⟨hrows, hvalue, hfunction⟩ := (Chart.label_layout_le_iff c width _).1 le_rfl
  exact ⟨fun r hr => (length_le_byteSize _).trans (hrows r hr), (length_le_byteSize _).trans hvalue,
    (length_le_byteSize _).trans hfunction⟩

section
variable {c : Chart} {label : Text} {segments : List Text} {g : Point Float → Text}

/-- A line has room for fields of at most one character on the intervals, and of at most the value's width on the
points. -/
theorem holds_layout (width : Nat) (hlabel : label.length ≤ (c.layout width).label)
    (hcount : segments.length = c.points.length + 1) (hs : ∀ s ∈ segments, s.length ≤ 1)
    (hg : ∀ p, (g p).length ≤ max (roundKey p.value).text.length 1) :
    (c.layout width).Holds label segments (c.points.map g) where
  label := hlabel
  count := by rw [hcount, Chart.layout, Chart.values, List.length_map, List.length_map]
  segments s hs' := by
    have hwide : minWidth ≤ (c.layout width).segment := le_max_right width minWidth
    exact le_trans (hs s hs') (le_trans (by decide) hwide)
  marks := by
    rw [Chart.layout, Chart.values, List.map_map, List.forall₂_map_left_iff, List.forall₂_map_right_iff,
      List.forall₂_same]
    exact fun p _ => hg p

theorem mem_symbols {signs : List Sign} {t : Text} (h : t ∈ symbols signs) : ∃ s : Sign, t = [s.symbol] := by
  obtain ⟨s, -, rfl⟩ := List.mem_map.1 h
  exact ⟨s, rfl⟩

theorem Sign.not_isBlank_symbol (s : Sign) : isBlank s.symbol = false := by cases s <;> rfl

theorem PointType.not_isBlank_mark (t : PointType) : isBlank t.mark = false := by cases t <;> rfl

/-- A line of signs shows them. -/
theorem shows_signs (width : Nat) {signs : List Sign} (hlabel : label.length ≤ (c.layout width).label)
    (hcount : signs.length = c.points.length + 1) (hg : ∀ p, (g p).length ≤ 1) :
    (c.layout width).Shows ((c.layout width).line label (symbols signs) (c.points.map g)) label (symbols signs)
      (c.points.map g) := by
  have hholds : (c.layout width).Holds label (symbols signs) (c.points.map g) := by
    refine holds_layout width hlabel (by rw [symbols, List.length_map, hcount]) ?_
      fun p => le_trans (hg p) (le_max_right _ _)
    intro s hs
    obtain ⟨s, rfl⟩ := mem_symbols hs
    exact Nat.le_refl 1
  have hlast : (c.layout width).points.length < (symbols signs).length := hholds.count ▸ Nat.lt_succ_self _
  obtain ⟨s, hs⟩ := mem_symbols (List.getElem_mem hlast)
  exact Layout.shows_line hholds
    (hholds.eq_space_of_dropped s.not_isBlank_symbol (hs ▸ List.getElem?_eq_getElem hlast))

end

/-- Each value is one word. -/
theorem isOneWord_values (c : Chart) : ∀ v ∈ c.values, IsOneWord v :=
  List.forall_mem_map.2 fun _ _ => isOneWord_text _

/-- The column of a point has the width of its value. -/
theorem points_layout (c : Chart) (width : Nat) : (c.layout width).points = c.values.map List.length :=
  List.map_congr_left fun v hv => max_eq_left (List.length_pos_iff.2 (isOneWord_values c v hv).nonempty)

/-- Lines with an end after each are lines with ends in between, and an empty one. -/
theorem flatMap_eq_intercalate (ls : List Text) :
    ls.flatMap (fun t => t ++ ['\n']) = ['\n'].intercalate (ls ++ [[]]) := by
  induction ls with
  | nil => rfl
  | cons t ls ih =>
    obtain ⟨t', ls', h⟩ := List.exists_cons_of_ne_nil (List.append_ne_nil_of_right_ne_nil ls (List.cons_ne_nil [] []))
    rw [List.flatMap_cons, ih, List.cons_append, h, List.intercalate_cons_cons]

theorem not_isBlank_symbols {signs : List Sign} : ∀ s ∈ symbols signs, ∀ d ∈ s, isBlank d = false := by
  intro t ht
  obtain ⟨s, rfl⟩ := mem_symbols ht
  exact List.forall_mem_singleton.2 s.not_isBlank_symbol

theorem not_isBlank_rowMarks (c : Chart) (r : Row Float) : ∀ m ∈ c.rowMarks r, ∀ d ∈ m, isBlank d = false := by
  refine List.forall_mem_map.2 fun p _ => ?_
  split
  · exact List.forall_mem_singleton.2 r.type.not_isBlank_mark
  · exact fun d hd => absurd hd List.not_mem_nil

/-- Where no label has a line end, no line has. -/
theorem newline_not_mem_lines (c : Chart) (width : Nat) (h : ∀ r ∈ c.rows, '\n' ∉ r.label) :
    ∀ t ∈ c.lines width, '\n' ∉ t := by
  have hblank : ∀ d, isBlank d = false → d ≠ '\n' := by
    rintro d hd rfl
    exact absurd hd (by decide)
  have hline : ∀ {label : Text} {segments marks : List Text}, '\n' ∉ label →
      (∀ s ∈ segments, ∀ d ∈ s, isBlank d = false) → (∀ m ∈ marks, ∀ d ∈ m, isBlank d = false) →
      '\n' ∉ (c.layout width).line label segments marks := by
    intro label segments marks hlabel hs hm hmem
    exact Layout.forall_mem_fullLine (· ≠ '\n') (by decide) (fun d hd hd' => hlabel (hd' ▸ hd))
      (fun s hs' d hd => hblank d (hs s hs' d hd)) (fun m hm' d hd => hblank d (hm m hm' d hd)) _
      (mem_of_mem_trimEnd hmem) rfl
  rw [Chart.lines, List.cons_append, List.forall_mem_cons, List.forall_mem_append, List.forall_mem_map,
    List.forall_mem_singleton]
  refine ⟨hline (by decide) ?_ fun v hv => (isOneWord_values c v hv).solid,
    fun r hr => hline (h r hr) not_isBlank_symbols (not_isBlank_rowMarks c r),
    hline (by decide) not_isBlank_symbols ?_⟩
  · exact List.forall_mem_map.2 fun _ _ d hd => absurd hd List.not_mem_nil
  · exact List.forall_mem_map.2 fun p _ => List.forall_mem_singleton.2 p.type.not_isBlank_mark

section
variable {c : Chart}

/-- The line of the values shows them: of its characters only the spaces are blanks. -/
theorem shows_values (width : Nat) (hcount : c.segments.length = c.points.length + 1) :
    (c.layout width).Shows ((c.layout width).line valueLabel (c.segments.map fun _ => []) c.values)
      valueLabel (c.segments.map fun _ => []) c.values := by
  have hempty : ∀ s ∈ c.segments.map fun _ => ([] : Text), s.length ≤ 1 ∧ ∀ d ∈ s, isBlank d = true → d = ' ' :=
    List.forall_mem_map.2 fun _ _ => ⟨Nat.zero_le 1, fun d hd => absurd hd List.not_mem_nil⟩
  refine Layout.shows_line (holds_layout width (label_le c width).2.1 ?_ (fun s hs => (hempty s hs).1)
    fun p => le_max_left _ _) fun d hd => ?_
  · rw [List.length_map, hcount]
  · refine Layout.forall_mem_fullLine (fun d => isBlank d = true → d = ' ') (fun _ => rfl) ?_
      (fun s hs => (hempty s hs).2) ?_ d (mem_dropped hd).1 (mem_dropped hd).2
    · exact List.forall_mem_singleton.2 fun h => absurd h (by decide)
    · exact fun v hv d hd h => absurd (h.symm.trans ((isOneWord_values c v hv).solid d hd)) (by decide)

/-- Fields of at most one character leave blanks in the column of an interval. -/
theorem room_segment (width : Nat) {n : Nat} (h : n ≤ 1) : n + 2 ≤ (c.layout width).segment :=
  le_trans (Nat.add_le_add_right h 2) (le_max_right width minWidth)

/-- The words of the first line are its label and the values. -/
theorem words_values (width : Nat) (hcount : c.segments.length = c.points.length + 1) :
    Text.words ((c.layout width).line valueLabel (c.segments.map fun _ => []) c.values) =
      valueLabel :: c.values := by
  have hlabel : IsOneWord valueLabel := isOneWord_singleton rfl
  have hempty : ∀ s ∈ c.segments.map fun _ => ([] : Text), s = [] := List.forall_mem_map.2 fun _ _ => rfl
  have hcount : c.values.length ≤ (c.segments.map fun _ => ([] : Text)).length := by
    rw [Chart.values, List.length_map, List.length_map, hcount]
    exact Nat.le_succ _
  rw [Layout.words_line _ _ (fun s hs => hempty s hs ▸ room_segment width (Nat.zero_le 1)) (by simp [points_layout]),
    hlabel.words_eq, Layout.flatMap_words_alternate hempty hcount, Layout.flatMap_words (isOneWord_values c)]
  rfl

/-- The words of the last line are its label, and then signs and marks by turns. -/
theorem words_function (width : Nat) :
    Text.words ((c.layout width).line functionLabel (symbols c.segments) (c.points.map fun p => [p.type.mark])) =
      functionLabel :: Layout.alternate (symbols c.segments) (c.points.map fun p => [p.type.mark]) := by
  have hlabel : IsOneWord functionLabel := ⟨by decide, by simp [functionLabel, isBlank]⟩
  have hword : ∀ t ∈ Layout.alternate (symbols c.segments) (c.points.map fun p => [p.type.mark]), IsOneWord t := by
    intro t ht
    rcases Layout.mem_alternate ht with ht | ht
    · obtain ⟨s, rfl⟩ := mem_symbols ht
      exact isOneWord_singleton s.not_isBlank_symbol
    · obtain ⟨p, -, rfl⟩ := List.mem_map.1 ht
      exact isOneWord_singleton p.type.not_isBlank_mark
  have hroom : ∀ t ∈ symbols c.segments, t.length + 2 ≤ (c.layout width).segment := by
    intro t ht
    obtain ⟨s, rfl⟩ := mem_symbols ht
    exact room_segment width (Nat.le_refl 1)
  rw [Layout.words_line _ _ hroom (by simp [points_layout, Chart.values]), hlabel.words_eq,
    Layout.flatMap_words hword]
  rfl

end

/-- Lines of a chart that stand one under the other: that of the values, those of the rows and that of the function. -/
structure ShowsChart (c : Chart) (width : Nat) (header : Text) (body : List Text) (last : Text) : Prop where
  shows_header : (c.layout width).Shows header valueLabel (c.segments.map fun _ => []) c.values
  shows_body : List.Forall₂ (fun r t => (c.layout width).Shows t r.label (symbols r.segments) (c.rowMarks r)) c.rows body
  shows_last : (c.layout width).Shows last functionLabel (symbols c.segments) (c.points.map fun p => [p.type.mark])
  /-- The column of a point is the place of its value in the first line. -/
  values : ∀ k v, c.values[k]? = some v → (c.layout width).points[k]? = some v.length ∧
    Text.slice (header.padRight (c.layout width).width) ((c.layout width).pointStart k) v.length = v
  words_header : Text.words header = valueLabel :: c.values
  words_last : Text.words last =
    functionLabel :: Layout.alternate (symbols c.segments) (c.points.map fun p => [p.type.mark])

/-- The lines of a chart, where there is no limit to their fields. -/
theorem showsChart_lines (c : Chart) (width : Nat) (hsegments : c.segments.length = c.points.length + 1)
    (hrows : ∀ r ∈ c.rows, r.segments.length = c.points.length + 1) :
    ∃ header body last, c.lines width = header :: body ++ [last] ∧ ShowsChart c width header body last := by
  obtain ⟨hlabels, -, hfunction⟩ := label_le c width
  have hheader := shows_values width hsegments
  refine ⟨_, _, _, rfl, hheader, ?rows, shows_signs width hfunction hsegments fun _ => Nat.le_refl 1, ?values,
    words_values width hsegments, words_function width⟩
  case rows =>
    rw [List.forall₂_map_right_iff, List.forall₂_same]
    refine fun r hr => shows_signs width (hlabels r hr) (hrows r hr) fun p => ?_
    split
    · exact Nat.le_refl 1
    · exact Nat.zero_le 1
  case values =>
    intro k v hv
    have hwidth : (c.layout width).points[k]? = some v.length := by
      rw [points_layout, List.getElem?_map, hv]
      rfl
    exact ⟨hwidth, (hheader.points k v _ hv hwidth).trans (centre_length v)⟩

/-- Where no label has a line end, a text has the lines of its chart and nothing behind them. -/
theorem splitOn_render {c : Chart} {width : Nat} (hfits : c.Fits width) (h : ∀ r ∈ c.rows, '\n' ∉ r.label) :
    ∃ text, c.render? width = some text ∧ text.toList.splitOn '\n' = c.lines width ++ [[]] := by
  refine ⟨_, Chart.render?_of_fits hfits, ?_⟩
  rw [String.toList_ofList, flatMap_eq_intercalate]
  refine List.splitOn_intercalate '\n' ?_ (by simp)
  exact List.forall_mem_append.2 ⟨newline_not_mem_lines c width h, by simp⟩

/-- **The text of a chart.**  In a chart with one sign more than points, in its last line and in all rows, where no field
is too wide and no label has a line end, there is a text and its lines show the chart: that of the values, those of the
rows and that of the function have their fields in the same columns, marks stand below values, and blanks separate the
first line into the values behind their label and the last one into signs and marks by turns. -/
theorem chart_columns (c : Chart) (width : Nat) (hsegments : c.segments.length = c.points.length + 1)
    (hrows : ∀ r ∈ c.rows, r.segments.length = c.points.length + 1) (hwidth : width ≤ maxFieldWidth)
    (hlabels : ∀ r ∈ c.rows, Text.byteSize r.label ≤ maxFieldWidth ∧ '\n' ∉ r.label) :
    ∃ text header body last, c.render? width = some text ∧
      text.toList.splitOn '\n' = header :: body ++ [last, []] ∧ ShowsChart c width header body last := by
  obtain ⟨header, body, last, hlines, hshows⟩ := showsChart_lines c width hsegments hrows
  obtain ⟨text, htext, hsplit⟩ := splitOn_render ⟨hwidth, fun r hr => (hlabels r hr).1⟩ fun r hr => (hlabels r hr).2
  refine ⟨text, header, body, last, htext, ?_, hshows⟩
  rw [hsplit, hlines, List.append_assoc]
  rfl

/-- A chart with a zero, a pole and a row for each. -/
def quotientChart : Chart where
  points := [⟨.zero, -1, 1, false⟩, ⟨.pole, 2, 1, false⟩]
  segments := [.minus, .plus, .minus]
  domain := ⟨-2, 3⟩
  expression := "(x+1)/(2-x)".toList
  rows := [⟨"x+1".toList, [.minus, .plus, .plus], .zero, -1, 1⟩, ⟨"2-x".toList, [.plus, .plus, .minus], .pole, 2, 1⟩]

/-- `chart_columns` at this chart. -/
theorem chart_columns_quotient :
    quotientChart.segments.length = quotientChart.points.length + 1 ∧
    (∀ r ∈ quotientChart.rows, r.segments.length = quotientChart.points.length + 1) ∧ 5 ≤ maxFieldWidth ∧
    (∀ r ∈ quotientChart.rows, Text.byteSize r.label ≤ maxFieldWidth ∧ '\n' ∉ r.label) ∧
    ∃ text header first second last, quotientChart.render? 5 = some text ∧
      text.toList.splitOn '\n' = [header, first, second, last, []] ∧
      Text.words header = ["x".toList, "-1".toList, "2".toList] ∧
      Text.words last = ["f(x)".toList, ['-'], ['0'], ['+'], ['|'], ['-']] ∧
      (∃ i, i < 2 ∧ first[(quotientChart.layout 5).pointStart 0 + i]? = some '0') ∧
      ∃ i, i < 1 ∧ last[(quotientChart.layout 5).pointStart 1 + i]? = some '|' := by
  have hrows : ∀ r ∈ quotientChart.rows, r.segments.length = quotientChart.points.length + 1 := by decide
  have hlabels : ∀ r ∈ quotientChart.rows, Text.byteSize r.label ≤ maxFieldWidth ∧ '\n' ∉ r.label := by
    decide +kernel
  have hvalues : quotientChart.values = ["-1".toList, "2".toList] := by decide +kernel
  have hmarks : quotientChart.rows.map quotientChart.rowMarks = [[['0'], []], [[], ['|']]] := by decide +kernel
  obtain ⟨text, header, body, last, htext, hsplit, hshows⟩ := chart_columns quotientChart 5 rfl hrows (by decide) hlabels
  obtain ⟨hwidth, -⟩ := hshows.values 0 _ (congrArg (·[0]?) hvalues)
  obtain ⟨hwidth', -⟩ := hshows.values 1 _ (congrArg (·[1]?) hvalues)
  have hheader := hshows.words_header
  have hbody := hshows.shows_body
  rw [hvalues] at hheader
  cases hbody with
  | @cons _ first _ body hfirst hbody =>
    cases hbody with
    | @cons _ second _ body _ hbody =>
      cases hbody
      refine ⟨rfl, hrows, by decide, hlabels, text, header, first, second, last, htext, hsplit, hheader,
        hshows.words_last, ?_, hshows.shows_last.marks 1 _ _ rfl hwidth' (by decide)⟩
      exact hfirst.marks 0 _ _ (congrArg (fun ms => (ms.head?.getD [])[0]?) hmarks) hwidth (by decide)

example : (quotientChart.lines? 5).map (·.map String.ofList) =
    some ["x         -1     2", "x+1    -  0   +     +", "2-x    +      +  |  -", "f(x)   -  0   +  |  -"] := by
  decide +kernel

/-- A chart with a row of any label. -/
def labelledChart (label : Text) : Chart where
  points := [⟨.zero, 1, 1, false⟩]
  segments := [.minus, .plus]
  domain := ⟨-1, 3⟩
  expression := "x-1".toList
  rows := [⟨label, [.minus, .plus], .zero, 1, 1⟩]

/-- A label with a line end takes two lines, so that the text does not show its row, and with a label that is too long
there is no text.  Both are made of ASCII characters alone. -/
theorem not_showsChart_of_line_end :
    (∀ label, (labelledChart label).segments.length = (labelledChart label).points.length + 1 ∧
      (∀ r ∈ (labelledChart label).rows,
        r.label = label ∧ r.segments.length = (labelledChart label).points.length + 1)) ∧
    (labelledChart "a\nb".toList).render? 5 = some "x         1\na\nb    -  0  +\nf(x)   -  0  +\n" ∧
    (¬ ∃ text header body last, (labelledChart "a\nb".toList).render? 5 = some text ∧
      text.toList.splitOn '\n' = header :: body ++ [last, []] ∧
      ShowsChart (labelledChart "a\nb".toList) 5 header body last) ∧
    (labelledChart (List.replicate 65536 'a')).render? 5 = none := by
  have htext : (labelledChart "a\nb".toList).render? 5 =
      some "x         1\na\nb    -  0  +\nf(x)   -  0  +\n" := by decide +kernel
  refine ⟨fun label => ⟨rfl, by simp [labelledChart]⟩, htext, ?_, ?_⟩
  · rintro ⟨text, header, body, last, hrender, hsplit, hshows⟩
    obtain rfl := Option.some.inj (htext.symm.trans hrender)
    have hbody : body.length = 1 := hshows.shows_body.length_eq.symm
    have hcount := congrArg List.length hsplit
    rw [List.cons_append, List.length_cons, List.length_append, hbody] at hcount
    have hlines : ("x         1\na\nb    -  0  +\nf(x)   -  0  +\n".toList.splitOn '\n').length = 5 := by decide +kernel
    rw [hlines, List.length_cons, List.length_singleton] at hcount
    exact absurd hcount (by decide)
  · have hwide : ¬ (labelledChart (List.replicate 65536 'a')).Fits 5 := by
      intro h
      have hlabel := (length_le_byteSize _).trans (h.labels _ List.mem_cons_self)
      rw [List.length_replicate] at hlabel
      exact absurd hlabel (by decide)
    rw [Chart.render?, Chart.lines?_of_not_fits hwide (List.cons_ne_nil _ _)]
    rfl

end SignChart
