/-
  When a chart can be written.

  A field has at most `maxFieldWidth` columns, and one that is wider ends the whole chart, also where its text is
  short.  A chart has three kinds of columns: one for the labels, which is as wide as the longest of them in bytes, those
  of the intervals, whose width the user chooses, and those of the points, which are as wide as the values.

  1. **Lines.**  `Layout.line` writes a line as if there were no limit.  Where all columns of a layout keep to it
     (`Layout.Fits`) this is what is written (`line?_of_fits`).

  2. **Charts.**  A value is never too wide (`length_text_le`), so the labels and the width alone decide
     (`fits_layout_iff`), and they do: a chart with signs is written if and only if it fits (`render?_eq_some_iff`).
-/
import SignChart.Chart.Layout
import SignChart.Proofs.Number.Writing

namespace SignChart

section
variable {t : Text} {w : Nat}

/-- A field of at most the greatest width is written, and a wider one is not; so for fields that are filled up on the
right. -/
theorem centre?_of_le (h : w ≤ maxFieldWidth) (t : Text) : t.centre? w = some (t.centre w) := if_pos h

theorem centre?_of_lt (h : maxFieldWidth < w) (t : Text) : t.centre? w = none := if_neg (Nat.not_le.2 h)

theorem padRight?_of_le (h : w ≤ maxFieldWidth) (t : Text) : t.padRight? w = some (t.padRight w) := if_pos h

theorem padRight?_of_lt (h : maxFieldWidth < w) (t : Text) : t.padRight? w = none := if_neg (Nat.not_le.2 h)

end

/-! ## Lines -/

namespace Layout

/-- The fields of a line behind its label, where there is no limit. -/
def fields (segment : Nat) : List Text → List (Text × Nat) → Text
  | [], _ => []
  | s :: rest, [] => s.centre segment ++ fields segment rest []
  | s :: rest, (mark, width) :: marks => s.centre segment ++ mark.centre width ++ fields segment rest marks

/-- A line with the blanks at its end. -/
def fullLine (l : Layout) (label : Text) (segments marks : List Text) : Text :=
  label.padRight l.label ++ ' ' :: fields l.segment segments (marks.zip l.points)

/-- A line, where there is no limit. -/
def line (l : Layout) (label : Text) (segments marks : List Text) : Text :=
  (l.fullLine label segments marks).trimEnd

/-- No column is wider than a field can be. -/
structure Fits (l : Layout) : Prop where
  label : l.label ≤ maxFieldWidth
  segment : l.segment ≤ maxFieldWidth
  points : ∀ w ∈ l.points, w ≤ maxFieldWidth

section
variable {l : Layout} {segments marks : List Text}

/-- A line of which every field is narrow enough is written field by field. -/
theorem fields?_of_le {segment : Nat} (hsegment : segment ≤ maxFieldWidth) : ∀ (segments : List Text)
    {ms : List (Text × Nat)}, (∀ m ∈ ms, m.2 ≤ maxFieldWidth) →
    fields? segment segments ms = some (fields segment segments ms) := by
  intro segments ms h
  fun_induction fields segment segments ms with
  | case1 => rfl
  | case2 s rest ih =>
    rw [fields?, centre?_of_le hsegment, ih h]
    rfl
  | case3 s rest mark width ms ih =>
    rw [List.forall_mem_cons] at h
    rw [fields?, centre?_of_le hsegment, centre?_of_le h.1, ih h.2]
    rfl

/-- A chart that fits has all its lines written. -/
theorem line?_of_fits (h : l.Fits) (label : Text) (segments marks : List Text) :
    l.line? label segments marks = some (l.line label segments marks) := by
  have hpoints : ∀ m ∈ marks.zip l.points, m.2 ≤ maxFieldWidth := fun m hm =>
    h.points m.2 (List.of_mem_zip hm).2
  rw [line?, padRight?_of_le h.label, fields?_of_le h.segment segments hpoints]
  rfl

/-- A line cannot be written whose label or first interval is too wide. -/
theorem line?_eq_none (hne : segments ≠ []) (h : maxFieldWidth < l.label ∨ maxFieldWidth < l.segment) (label : Text) :
    l.line? label segments marks = none := by
  rcases h with h | h
  · rw [line?, padRight?_of_lt h]
    rfl
  · obtain ⟨s, rest, rfl⟩ := List.exists_cons_of_ne_nil hne
    have hfields : fields? l.segment (s :: rest) (marks.zip l.points) = none := by
      cases marks.zip l.points with
      | nil =>
        rw [fields?, centre?_of_lt h]
        rfl
      | cons m ms =>
        rw [fields?, centre?_of_lt h]
        rfl
    rw [line?, hfields]
    cases label.padRight? l.label <;> rfl

end

end Layout

/-! ## Charts -/

/-- A list of which every element has a result has the list of these. -/
theorem mapM_eq_some_map {α β : Type} {f : α → Option β} {g : α → β} (as : List α) (h : ∀ a ∈ as, f a = some (g a)) :
    as.mapM f = some (as.map g) := by
  induction as with
  | nil => rfl
  | cons a as ih =>
    rw [List.forall_mem_cons] at h
    rw [List.mapM_cons, h.1, ih h.2]
    rfl

/-- A greatest length is within a bound exactly if all lengths are. -/
theorem foldl_max_le_iff {α : Type} (f : α → Nat) (ts : List α) (n b : Nat) :
    ts.foldl (fun n t => max n (f t)) n ≤ b ↔ n ≤ b ∧ ∀ t ∈ ts, f t ≤ b := by
  induction ts generalizing n with
  | nil => simp
  | cons t ts ih => rw [List.foldl_cons, ih, max_le_iff, List.forall_mem_cons, and_assoc]

namespace Chart

/-- The lines of a chart, where there is no limit. -/
def lines (c : Chart) (width : Nat) : List Text :=
  let l := c.layout width
  l.line valueLabel (c.segments.map fun _ => []) c.values ::
    c.rows.map (fun r => l.line r.label (symbols r.segments) (c.rowMarks r)) ++
    [l.line functionLabel (symbols c.segments) (c.points.map fun p => [p.type.mark])]

/-- A width and labels that keep to the limit. -/
structure Fits (c : Chart) (width : Nat) : Prop where
  width : width ≤ maxFieldWidth
  labels : ∀ r ∈ c.rows, Text.byteSize r.label ≤ maxFieldWidth

section
variable {c : Chart} {width : Nat}

/-- The first column is as wide as the longest of all labels, those that every chart has among them. -/
theorem label_layout_le_iff (c : Chart) (width b : Nat) :
    (c.layout width).label ≤ b ↔ (∀ r ∈ c.rows, Text.byteSize r.label ≤ b) ∧ Text.byteSize valueLabel ≤ b ∧
      Text.byteSize functionLabel ≤ b := by
  rw [layout, foldl_max_le_iff, List.forall_mem_append, List.forall_mem_map, List.forall_mem_cons,
    List.forall_mem_singleton]
  exact and_iff_right (Nat.zero_le b)

/-- The columns of a chart keep to the limit if and only if its width and labels do. -/
theorem fits_layout_iff (c : Chart) (width : Nat) : (c.layout width).Fits ↔ c.Fits width := by
  constructor
  · intro h
    exact ⟨(le_max_left _ _).trans h.segment, ((label_layout_le_iff c width _).1 h.label).1⟩
  · intro h
    refine ⟨(label_layout_le_iff c width _).2 ⟨h.labels, by decide, by decide⟩, max_le h.width (by decide),
      List.forall_mem_map.2 fun v hv => ?_⟩
    obtain ⟨p, -, rfl⟩ := List.mem_map.1 hv
    exact max_le ((length_text_le _).trans (by decide)) (by decide)

/-- Within the greatest width all lines of a chart are written. -/
theorem lines?_of_fits (h : c.Fits width) : c.lines? width = some (c.lines width) := by
  have hl := (fits_layout_iff c width).2 h
  have hrows := mapM_eq_some_map c.rows fun r _ =>
    Layout.line?_of_fits hl r.label (symbols r.segments) (c.rowMarks r)
  unfold lines?
  dsimp only
  rw [hrows, Layout.line?_of_fits hl valueLabel, Layout.line?_of_fits hl functionLabel]
  rfl

/-- Of a chart that does not fit, the label or the first interval of the first line is too wide already. -/
theorem lines?_of_not_fits (h : ¬ c.Fits width) (hne : c.segments ≠ []) : c.lines? width = none := by
  have hwide : maxFieldWidth < (c.layout width).label ∨ maxFieldWidth < (c.layout width).segment := by
    by_contra hle
    rw [not_or, Nat.not_lt, Nat.not_lt, label_layout_le_iff] at hle
    exact h ⟨(le_max_left _ _).trans hle.2, hle.1.1⟩
  have hblank : c.segments.map (fun _ => ([] : Text)) ≠ [] := fun hnil => hne (List.map_eq_nil_iff.1 hnil)
  simp only [lines?, Layout.line?_eq_none hblank hwide]
  rfl

/-- Within the greatest width the text of a chart is that of its lines. -/
theorem render?_of_fits (h : c.Fits width) :
    c.render? width = some (String.ofList ((c.lines width).flatMap fun t => t ++ ['\n'])) := by
  rw [render?, lines?_of_fits h, Option.map_some]

/-- **Writing.**  A chart with signs is written if and only if it fits, and then as its lines with an end after each. -/
theorem render?_eq_some_iff (hne : c.segments ≠ []) {text : String} : c.render? width = some text ↔
    c.Fits width ∧ text = String.ofList ((c.lines width).flatMap fun t => t ++ ['\n']) := by
  by_cases h : c.Fits width
  · rw [render?_of_fits h, Option.some_inj]
    exact ⟨fun ht => ⟨h, ht.symm⟩, fun ht => ht.2.symm⟩
  · rw [render?, lines?_of_not_fits h hne]
    exact ⟨fun ht => absurd ht (by simp), fun ht => absurd ht.1 h⟩

end

end Chart

end SignChart
