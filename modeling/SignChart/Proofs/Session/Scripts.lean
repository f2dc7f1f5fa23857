/-
  Lines and scripts.

  What a session does for a line depends on its prompt first and then on the line.  Few lines ask for a chart: those that
  say so at the prompt for a command, and a new expression.  Of what is behind a script, nothing is read when the
  session is over by then, and otherwise it is answered by the session that the script leaves.

  1. **Charts.**  `asked?` is the session whose chart a line asks for, and `got?` the chart that it gets.  A chart is
     there already or is computed and kept (`ensureChart_ok`).

  2. **Scripts.**  A run is followed from its first line (`run_cons_of_goesOn`, `run_cons_of_over`), and from this from
     any place in it (`run_append_of_goesOn`, `run_append_of_over`).  Where a session is over, it is some line that
     ended it (`exists_of_run_over`).
-/
import SignChart.Proofs.Chart.Fields
import SignChart.Proofs.Chart.Shape
import SignChart.Session

namespace SignChart

/-- The session is over. -/
def Next.IsOver (next : Next) : Prop := ∀ s, next ≠ .goesOn s

theorem Next.isOver_quit : Next.quit.IsOver := nofun

theorem Next.isOver_failed (cause : Failure) : (Next.failed cause).IsOver := nofun

theorem Next.not_isOver_goesOn (s : Session) : ¬ (Next.goesOn s).IsOver := fun h => h s rfl

namespace Session

/-! ## Charts -/

/-- The session whose chart a line asks for, if it asks for one. -/
def asked? (s : Session) (line : Line) : Option Session :=
  match s.prompt with
  | .command =>
    match Command.ofName? line.text.trim.asciiLower with
    | some .solve | some .save => some s
    | _ => none
  | .expression =>
    if line.text.trim = [] then none else some { s with expression := some line.text.trim, chart := none }
  | _ => none

section
variable {s r : Session} {line : Line} {c : Chart}

/-- It is the session itself, or one with a new expression. -/
theorem asked?_eq_some (h : s.asked? line = some r) :
    r = s ∨ s.prompt = .expression ∧ line.text.trim ≠ [] ∧
      r = { s with expression := some line.text.trim, chart := none } := by
  unfold asked? at h
  split at h
  · split at h
    · exact Or.inl (Option.some.inj h).symm
    · exact Or.inl (Option.some.inj h).symm
    · exact absurd h (by simp)
  · split at h
    · exact absurd h (by simp)
    · exact Or.inr ⟨‹_›, ‹_›, (Option.some.inj h).symm⟩
  · exact absurd h (by simp)

/-- At the prompt for a command a session that goes back to it is the same. -/
theorem with_prompt_eq (h : s.prompt = .command) : { s with prompt := .command } = s := by
  cases s
  obtain rfl := h
  rfl

/-- A chart that fits can be reported. -/
theorem report?_of_fits (h : c.Fits s.width) : ∃ report, s.report? c = some report := by
  rw [report?, Report.chart?, Chart.render?_of_fits h]
  exact ⟨_, rfl⟩

end

section
variable [Similarity]

/-- The chart that a line asks for and gets. -/
def got? (s : Session) (line : Line) : Option Chart :=
  (s.asked? line).bind fun r => r.ensureChart.toOption.map Prod.snd

section
variable {s r t : Session} {line : Line} {c : Chart}

/-- A line gets the chart that it asks for where there is one. -/
theorem got?_of_ok (hasked : s.asked? line = some r) (hchart : r.ensureChart = .ok (t, c)) :
    s.got? line = some c := by
  rw [got?, hasked, Option.bind_some, hchart]
  rfl

theorem got?_of_error {text : String} (hasked : s.asked? line = some r) (hchart : r.ensureChart = .error text) :
    s.got? line = none := by
  rw [got?, hasked, Option.bind_some, hchart]
  rfl

/-- At the prompt for a command, a line that names one is answered by doing it. -/
theorem answer_of_command {command : Command} (hprompt : s.prompt = .command)
    (hcommand : Command.ofName? line.text.trim.asciiLower = some command) :
    s.answer line = ((s.obey line.saving command).1, .write "\n" :: (s.obey line.saving command).2) := by
  unfold answer take
  rw [hprompt]
  simp only [hcommand]

/-- At the prompt for an expression, a line that is not empty sets it and asks for its chart. -/
theorem answer_of_expression (hprompt : s.prompt = .expression) (hline : line.text.trim ≠ []) :
    s.answer line = showChart { s with expression := some line.text.trim, chart := none } := by
  unfold answer take
  rw [hprompt]
  exact if_neg hline

/-- A chart is there already, or it is computed now and kept. -/
theorem ensureChart_ok (h : s.ensureChart = .ok (r, c)) :
    s.chart = some c ∧ r = s ∨
      s.chart = none ∧ (∃ text, s.expression = some text ∧ Chart.ofInput text s.autoDomain = .ok c) ∧
        r = { s with chart := some c, autoDomain := some c.domain } := by
  unfold ensureChart at h
  split at h
  · obtain ⟨rfl, rfl⟩ := Prod.mk.inj (Except.ok.inj h)
    exact Or.inl ⟨‹_›, rfl⟩
  · split at h
    · exact absurd h (by simp)
    · split at h
      · obtain ⟨rfl, rfl⟩ := Prod.mk.inj (Except.ok.inj h)
        exact Or.inr ⟨‹_›, ⟨_, ‹_›, ‹_›⟩, rfl⟩
      · exact absurd h (by simp)

theorem width_of_ensureChart (h : s.ensureChart = .ok (r, c)) : r.width = s.width := by
  rcases ensureChart_ok h with ⟨-, rfl⟩ | ⟨-, -, rfl⟩
  · rfl
  · rfl

/-- Where a chart cannot be had, none was there. -/
theorem chart_of_error {text : String} (h : s.ensureChart = .error text) : s.chart = none := by
  unfold ensureChart at h
  split at h
  · exact absurd h (by simp)
  · assumption

theorem ensureChart_of_chart (h : s.chart = some c) : s.ensureChart = .ok (s, c) := by
  unfold ensureChart
  rw [h]

/-- A chart that is not there yet is computed for the expression, after the domain that is remembered. -/
theorem ensureChart_of_ofInput {text : Text} (hchart : s.chart = none) (hexpression : s.expression = some text)
    (h : Chart.ofInput text s.autoDomain = .ok c) :
    s.ensureChart = .ok ({ s with chart := some c, autoDomain := some c.domain }, c) := by
  unfold ensureChart
  rw [hchart, hexpression]
  simp only [h]

/-- Where the expression has no chart, it is told why. -/
theorem ensureChart_of_error {text : Text} {e : ChartError} (hchart : s.chart = none)
    (hexpression : s.expression = some text) (h : Chart.ofInput text s.autoDomain = .error e) :
    s.ensureChart = .error (chartError (canonicalText text) e) := by
  unfold ensureChart
  rw [hchart, hexpression]
  simp only [h]

/-- A chart that fits is shown, and the session goes on. -/
theorem showChart_of_fits (h : s.ensureChart = .ok (r, c)) (hfits : c.Fits s.width) :
    s.showChart.1 = .goesOn { r with prompt := .command } := by
  obtain ⟨report, hreport⟩ := report?_of_fits ((width_of_ensureChart h).symm ▸ hfits)
  unfold showChart
  simp only [h, hreport]
  rfl

/-- A chart that fits is saved, where there is a new file for it. -/
theorem saveChart_of_fits (h : s.ensureChart = .ok (r, c)) (hfits : c.Fits s.width) (file : String) :
    (s.saveChart (.written file)).1 = .goesOn { r with prompt := .command } := by
  obtain ⟨report, hreport⟩ := report?_of_fits ((width_of_ensureChart h).symm ▸ hfits)
  unfold saveChart
  simp only [h, hreport]
  rfl

end

/-! ## Scripts -/

/-- How many lines of a script are read before the session is over. -/
def linesRead (s : Session) : List Line → Nat
  | [] => 0
  | line :: rest =>
    match (s.answer line).1 with
    | .goesOn q => q.linesRead rest + 1
    | _ => 1

section
variable {s q : Session} {line : Line} {script : List Line} {effects : List Effect}

/-- A script goes on in the session that its first line leaves. -/
theorem run_cons_of_goesOn (h : s.answer line = (.goesOn q, effects)) (rest : List Line) :
    s.run (line :: rest) = ((q.run rest).1, effects ++ (q.run rest).2) ∧
      s.linesRead (line :: rest) = q.linesRead rest + 1 := by
  rw [run, linesRead, h]
  exact ⟨rfl, rfl⟩

/-- If its first line ends the session, a script is this line. -/
theorem run_cons_of_over (hover : (s.answer line).1.IsOver) (rest : List Line) :
    s.run (line :: rest) = s.answer line ∧ s.linesRead (line :: rest) = 1 := by
  obtain ⟨next, effects, h⟩ : ∃ next effects, s.answer line = (next, effects) := ⟨_, _, rfl⟩
  rw [h] at hover
  rw [run, linesRead, h]
  cases next with
  | goesOn q => exact absurd hover (Next.not_isOver_goesOn q)
  | quit => exact ⟨rfl, rfl⟩
  | failed cause => exact ⟨rfl, rfl⟩

/-- A line leaves a session, or the session is over. -/
theorem goesOn_or_isOver (s : Session) (line : Line) :
    (∃ q effects, s.answer line = (.goesOn q, effects)) ∨ (s.answer line).1.IsOver := by
  obtain ⟨next, effects, h⟩ : ∃ next effects, s.answer line = (next, effects) := ⟨_, _, rfl⟩
  rw [h]
  cases next with
  | goesOn q => exact Or.inl ⟨q, effects, rfl⟩
  | quit => exact Or.inr Next.isOver_quit
  | failed cause => exact Or.inr (Next.isOver_failed cause)

/-- What follows a script is answered by the session that the script leaves. -/
theorem run_append_of_goesOn (more : List Line) : ∀ {s : Session}, (s.run script).1 = .goesOn q →
    s.run (script ++ more) = ((q.run more).1, (s.run script).2 ++ (q.run more).2) ∧
      s.linesRead (script ++ more) = script.length + q.linesRead more := by
  induction script with
  | nil =>
    intro s h
    obtain rfl := Next.goesOn.inj h
    exact ⟨rfl, (Nat.zero_add _).symm⟩
  | cons line rest ih =>
    intro s h
    rw [List.cons_append, List.length_cons]
    rcases s.goesOn_or_isOver line with ⟨t, effects, hanswer⟩ | hover
    · obtain ⟨hrun, hread⟩ := run_cons_of_goesOn hanswer (rest ++ more)
      obtain ⟨hrun', -⟩ := run_cons_of_goesOn hanswer rest
      rw [hrun'] at h
      obtain ⟨ihrun, ihread⟩ := ih h
      rw [hrun, hrun', hread, ihrun, ihread, List.append_assoc]
      exact ⟨rfl, by omega⟩
    · rw [(run_cons_of_over hover rest).1] at h
      exact absurd h (hover q)

/-- Behind the end of a session nothing is read. -/
theorem run_append_of_over (more : List Line) : ∀ {s : Session}, (s.run script).1.IsOver →
    s.run (script ++ more) = s.run script ∧ s.linesRead (script ++ more) = s.linesRead script ∧
      s.linesRead script ≤ script.length := by
  induction script with
  | nil => exact fun {s} h => absurd h (Next.not_isOver_goesOn s)
  | cons line rest ih =>
    intro s h
    rw [List.cons_append, List.length_cons]
    rcases s.goesOn_or_isOver line with ⟨q, effects, hanswer⟩ | hover
    · obtain ⟨hrun, hread⟩ := run_cons_of_goesOn hanswer (rest ++ more)
      obtain ⟨hrun', hread'⟩ := run_cons_of_goesOn hanswer rest
      rw [hrun'] at h
      obtain ⟨ihrun, ihread, ihle⟩ := ih h
      rw [hrun, hrun', hread, hread', ihrun, ihread]
      exact ⟨rfl, rfl, by omega⟩
    · obtain ⟨hrun, hread⟩ := run_cons_of_over hover (rest ++ more)
      obtain ⟨hrun', hread'⟩ := run_cons_of_over hover rest
      exact ⟨hrun.trans hrun'.symm, hread.trans hread'.symm, by omega⟩

/-- Where a session is over, one line of the script ended it. -/
theorem exists_of_run_over : ∀ {s : Session}, (s.run script).1.IsOver →
    ∃ before line after q, script = before ++ line :: after ∧ (s.run before).1 = .goesOn q ∧
      (q.answer line).1 = (s.run script).1 := by
  induction script with
  | nil => exact fun {s} h => absurd h (Next.not_isOver_goesOn s)
  | cons line rest ih =>
    intro s h
    rcases s.goesOn_or_isOver line with ⟨t, effects, hanswer⟩ | hover
    · rw [(run_cons_of_goesOn hanswer rest).1] at h ⊢
      obtain ⟨before, last, after, q, rfl, hbefore, hlast⟩ := ih h
      refine ⟨line :: before, last, after, q, rfl, ?_, hlast⟩
      rw [(run_cons_of_goesOn hanswer before).1]
      exact hbefore
    · refine ⟨[], line, rest, s, rfl, rfl, ?_⟩
      rw [(run_cons_of_over hover rest).1]

/-- A script with one more line that leaves a session. -/
theorem run_concat_eq_goesOn_iff {t : Session} : (s.run (script ++ [line])).1 = .goesOn t ↔
    ∃ q, (s.run script).1 = .goesOn q ∧ (q.answer line).1 = .goesOn t := by
  have hline : ∀ q : Session, (q.run [line]).1 = (q.answer line).1 := fun q => by
    rcases q.goesOn_or_isOver line with ⟨r, effects, hanswer⟩ | hover
    · rw [(run_cons_of_goesOn hanswer []).1, hanswer]
      rfl
    · rw [(run_cons_of_over hover []).1]
  cases hscript : (s.run script).1 with
  | goesOn q =>
    rw [(run_append_of_goesOn [line] hscript).1, hline]
    exact ⟨fun h => ⟨q, rfl, h⟩, fun ⟨r, hr, h⟩ => Next.goesOn.inj hr ▸ h⟩
  | quit =>
    have hover : (s.run script).1.IsOver := hscript ▸ Next.isOver_quit
    rw [(run_append_of_over [line] hover).1, hscript]
    exact ⟨nofun, nofun⟩
  | failed cause =>
    have hover : (s.run script).1.IsOver := hscript ▸ Next.isOver_failed cause
    rw [(run_append_of_over [line] hover).1, hscript]
    exact ⟨nofun, nofun⟩

theorem run_concat_of_goesOn {t : Session} (hscript : (s.run script).1 = .goesOn q)
    (hanswer : (q.answer line).1 = .goesOn t) : (s.run (script ++ [line])).1 = .goesOn t :=
  run_concat_eq_goesOn_iff.2 ⟨q, hscript, hanswer⟩

theorem run_singleton (hanswer : (s.answer line).1 = .goesOn q) : (s.run [line]).1 = .goesOn q :=
  run_concat_of_goesOn (rfl : (s.run []).1 = .goesOn s) hanswer

end

end

/-! ## A chart for scripts -/

/-- The expression is taken apart into one factor, with its zero at 1. -/
theorem factorize_unitLine :
    factorize unitLine = Factorization.empty.addProduct .zero ⟨[⟨1.0, 1, .plus, unitLine⟩], .plus * .plus⟩ := by
  have htokens : factorTokens unitLine = [(.mul, unitLine)] := by decide
  have hproduct : product? unitLine = some ⟨[⟨1.0, 1, .plus, unitLine⟩], .plus * .plus⟩ :=
    product?_of_line stripParens_unitLine (by decide) (by decide) stripParens_unitLine linearFactor?_unitLine
  rw [factorize, htokens]
  show Factorization.empty.addToken .mul unitLine = _
  unfold Factorization.addToken
  rw [hproduct]
  rfl

/-- The expression `x-1` has a chart with a single point and no rows. -/
theorem ofInput_unitLine (previous : Option (Domain Float)) :
    ∃ c, Chart.ofInput unitLine previous = .ok c ∧ c.segments.length = 2 ∧ c.rows = [] := by
  have hnormal : normalize unitLine = unitLine := by cbv
  have hcanonical : canonical unitLine = unitLine := by cbv
  obtain ⟨f, hf, -⟩ := compile_unitLine
  have hchart : Chart.ofInput unitLine previous = .ok _ :=
    ofInput_of_compile previous (f := f) (by rw [hnormal, hcanonical]; decide) (by rw [hnormal]; decide)
      (by rw [hnormal, hcanonical]; decide) (by rw [hnormal, hcanonical, hf])
  rw [hnormal, hcanonical] at hchart
  have hpoints : (factorize unitLine).points.length = 1 := by
    rw [factorize_unitLine]
    decide +kernel
  have hunparsed : (factorize unitLine).unparsed = [] := by
    rw [factorize_unitLine]
    rfl
  have hcritical : (criticalPoints (factorize unitLine) f.call).length = 1 := by
    rw [criticalPoints, if_neg (not_or.2 ⟨List.ne_nil_of_length_pos (by omega), not_not.2 hunparsed⟩), hpoints]
  have hshape := wellShaped_ofFunction unitLine f.call previous
  refine ⟨_, hchart, hshape.segments.trans ?_, hshape.no_rows ?_⟩
  · rw [Chart.ofFunction, hcritical]
  · rw [Chart.ofFunction, hcritical]
    decide

/-- Without rows only the width can be too great. -/
theorem fits_of_no_rows {c : Chart} {width : Nat} (h : c.rows = []) (hwidth : width ≤ maxFieldWidth) : c.Fits width :=
  ⟨hwidth, h ▸ List.forall_mem_nil _⟩

end Session
end SignChart
