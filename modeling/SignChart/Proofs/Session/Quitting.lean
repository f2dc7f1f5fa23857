/-
  Leaving a session.

  A line that says `quit` ends a session at the prompt for a command, and nowhere else.  At any other prompt it is
  an answer like others, and none that leads to a further question: it is no number, and as an expression it has no
  chart.  So whatever a script of lines leads to, a `quit` behind it is an answer at most once, and the next one ends the
  session.  A session that no line ends would go on to ask for lines.

  The user is not alone in ending it.  A report that is saved needs a new file, and a chart needs fields that are not too
  wide.  Where they are missing the session fails, and what is typed behind that line is not read.

  1. **Lines.**  A session is over by a line that says `quit` at the prompt for a command, or by one that is in
     trouble (`over_cases`).  From every other prompt a `quit` leads back to that one (`back_of_answer_quit`), one case
     for each prompt.

  2. **Scripts.**  A script ends a session by one of its lines, or it leaves a session that answers what follows; so
     there are four ways out (`leaves_of_quits`).

  **`run_quits`**: two lines that say `quit` always end a session, and without trouble they end it well.  The trouble can
  come: two reports that are saved one right after the other want the same file (`second_save_fails`).
-/
import SignChart.Proofs.Input.NormalForm
import SignChart.Proofs.Session.Coherence

namespace SignChart

/-! ## A word that is no number and no expression -/

/-- The word, with each of its letters in either case. -/
def quitWords : List Text := [['q', 'Q'], ['u', 'U'], ['i', 'I'], ['t', 'T']].sections

section
variable {t : Text}

/-- A character in lower case stays as it is, or is 32 behind its capital. -/
theorem toLower_eq_cases {c d : Char} (h : c.toLower = d) : c = d ∨ c.toNat + 32 = d.toNat := by
  rw [← Char.toNat_inj, toNat_toLower] at h
  rw [← Char.toNat_inj]
  split at h
  · exact Or.inr h
  · exact Or.inl h

theorem mem_quitWords (h : t.asciiLower = "quit".toList) : t ∈ quitWords := by
  have hupper : ∀ (c lower upper : Char), c.toLower = lower → upper.toNat + 32 = lower.toNat → c ∈ [lower, upper] := by
    intro c lower upper hc hupper
    rcases toLower_eq_cases hc with rfl | hc
    · exact List.mem_cons_self
    · exact List.mem_cons_of_mem _ (List.mem_singleton.2 (Char.toNat_inj.1 (by omega)))
  have hlength : t.length = 4 := by simpa [Text.asciiLower] using congrArg List.length h
  obtain ⟨q, u, i, t, rfl⟩ := List.length_eq_four.1 hlength
  obtain ⟨hq, hu, hi, ht⟩ : q.toLower = 'q' ∧ u.toLower = 'u' ∧ i.toLower = 'i' ∧ t.toLower = 't' := by
    simpa [Text.asciiLower] using h
  exact List.mem_sections.2 (.cons (hupper q 'q' 'Q' hq rfl) (.cons (hupper u 'u' 'U' hu rfl)
    (.cons (hupper i 'i' 'I' hi rfl) (.cons (hupper t 't' 'T' ht rfl) .nil))))

/-- In no case of its letters is the word a number or a count. -/
theorem quitWords_spec : ∀ t ∈ quitWords, readFloat t = .error .invalid ∧ readCount t = .error .invalidDigit := by
  decide

/-- None of them is an expression that can have a chart. -/
theorem firstUnchartable?_of_quit (h : t ∈ quitWords) : firstUnchartable? (canonical (normalize t)) ≠ none := by
  have hall : (quitWords.all fun t => (firstUnchartable? (canonical (normalize t))).isSome) = true := by cbv
  exact Option.isSome_iff_ne_none.1 (List.all_eq_true.1 hall t h)

theorem not_auto_of_quit (h : t ∈ quitWords) : t.asciiLower ≠ "auto".toList := by
  have hall : ∀ t ∈ quitWords, Text.asciiLower t ≠ "auto".toList := by decide
  exact hall t h

/-- An expression with a chart has only characters that charts allow. -/
theorem firstUnchartable?_of_ofInput {raw : Text} {previous : Option (Domain Float)} {c : Chart}
    (h : Chart.ofInput raw previous = .ok c) : firstUnchartable? (canonical (normalize raw)) = none := by
  unfold Chart.ofInput at h
  dsimp only at h
  split at h
  · exact absurd h (by simp)
  split at h
  · exact absurd h (by simp)
  split at h
  · exact absurd h (by simp)
  · assumption

end

/-! ## Lines -/

/-- A line that asks to leave, at the prompt for a command: `quit` in any case, between blanks. -/
def SaysQuit (line : Line) : Prop := Command.ofName? line.text.trim.asciiLower = some .quit

instance (line : Line) : Decidable (SaysQuit line) := inferInstanceAs (Decidable (_ = _))

/-- A line that asks to leave is this word, between blanks. -/
theorem SaysQuit.mem_quitWords {line : Line} (h : SaysQuit line) : line.text.trim ∈ quitWords := by
  unfold SaysQuit Command.ofName? at h
  have hname := List.find?_some h
  exact SignChart.mem_quitWords (of_decide_eq_true hname).symm

namespace Session

section
variable [Similarity]

/-- A line gets a chart, but it cannot be written, or it is to be saved and there is no new file with it. -/
def InTrouble (s : Session) (line : Line) : Prop :=
  ∃ c, s.got? line = some c ∧ (¬ c.Fits s.width ∨
    s.prompt = .command ∧ Command.ofName? line.text.trim.asciiLower = some .save ∧
      ∀ file, line.saving ≠ .written file)

section
variable {s r : Session} {line : Line}

/-- A chart that was asked for ends the session only where it is too wide. -/
theorem of_showChart_over (hover : r.showChart.1.IsOver) :
    (∃ t c, r.ensureChart = .ok (t, c) ∧ ¬ c.Fits r.width) ∧ r.showChart.1 = .failed .wideField := by
  cases hchart : r.ensureChart with
  | error text =>
    unfold showChart at hover
    simp only [hchart] at hover
    exact absurd hover (Next.not_isOver_goesOn _)
  | ok found =>
    obtain ⟨t, c⟩ := found
    have hwide : ¬ c.Fits r.width := fun hfits =>
      Next.not_isOver_goesOn _ (showChart_of_fits hchart hfits ▸ hover)
    refine ⟨⟨t, c, rfl, hwide⟩, ?_⟩
    unfold showChart at hover ⊢
    simp only [hchart] at hover ⊢
    cases hreport : t.report? c with
    | none => rfl
    | some report =>
      simp only [hreport] at hover
      exact absurd hover (Next.not_isOver_goesOn _)

/-- A chart that is to be saved ends the session only where it is too wide or has no new file. -/
theorem of_saveChart_over {saving : Saving} (hover : (r.saveChart saving).1.IsOver) :
    (∃ t c, r.ensureChart = .ok (t, c) ∧ (¬ c.Fits r.width ∨ ∀ file, saving ≠ .written file)) ∧
      ∃ cause, (r.saveChart saving).1 = .failed cause := by
  cases hchart : r.ensureChart with
  | error text =>
    unfold saveChart at hover
    simp only [hchart] at hover
    exact absurd hover (Next.not_isOver_goesOn _)
  | ok found =>
    obtain ⟨t, c⟩ := found
    constructor
    · refine ⟨t, c, rfl, ?_⟩
      by_contra hsafe
      push Not at hsafe
      obtain ⟨hfits, file, rfl⟩ := hsafe
      exact Next.not_isOver_goesOn _ (saveChart_of_fits hchart hfits file ▸ hover)
    · unfold saveChart at hover ⊢
      simp only [hchart] at hover ⊢
      split at hover
      · exact ⟨_, rfl⟩
      · exact ⟨_, rfl⟩
      · exact ⟨_, rfl⟩
      · exact absurd hover (Next.not_isOver_goesOn _)

/-- The word is an expression that has no chart. -/
theorem back_of_showChart_quit (hexpression : r.expression = some line.text.trim) (hchart : r.chart = none)
    (hword : line.text.trim ∈ quitWords) : ∃ t, r.showChart.1 = .goesOn t ∧ t.prompt = .command := by
  have herror : ∃ e, Chart.ofInput line.text.trim r.autoDomain = .error e := by
    cases hinput : Chart.ofInput line.text.trim r.autoDomain with
    | error e => exact ⟨e, rfl⟩
    | ok c => exact absurd (firstUnchartable?_of_ofInput hinput) (firstUnchartable?_of_quit hword)
  obtain ⟨e, he⟩ := herror
  unfold showChart
  rw [ensureChart_of_error hchart hexpression he]
  exact ⟨_, rfl, rfl⟩

/-- Without a function a command ends, and with one it goes on. -/
theorem not_isOver_withFunction {next : Evaluator → Next × List Effect} (hnext : ∀ f, ¬ (next f).1.IsOver) :
    ¬ (s.withFunction next).1.IsOver := by
  unfold withFunction
  split
  · exact Next.not_isOver_goesOn _
  · split
    · exact hnext _
    · exact Next.not_isOver_goesOn _

/-- A command ends the session if it says so, or if its chart is in trouble. -/
theorem of_obey_over {command : Command} (hprompt : s.prompt = .command)
    (hcommand : Command.ofName? line.text.trim.asciiLower = some command)
    (hover : (s.obey line.saving command).1.IsOver) :
    command = .quit ∨ s.InTrouble line ∧ ∃ cause, (s.obey line.saving command).1 = .failed cause := by
  have hasked : command = .solve ∨ command = .save → s.asked? line = some s := by
    rintro (rfl | rfl) <;> simp [asked?, hprompt, hcommand]
  cases command with
  | quit => exact Or.inl rfl
  | help => exact absurd hover (Next.not_isOver_goesOn _)
  | set => exact absurd hover (Next.not_isOver_goesOn _)
  | domain => exact absurd hover (Next.not_isOver_goesOn _)
  | eval => exact absurd hover (not_isOver_withFunction fun _ => Next.not_isOver_goesOn _)
  | program => exact absurd hover (not_isOver_withFunction fun _ => Next.not_isOver_goesOn _)
  | solve =>
    obtain ⟨⟨t, c, hchart, hwide⟩, hfailed⟩ := of_showChart_over hover
    exact Or.inr ⟨⟨c, got?_of_ok (hasked (Or.inl rfl)) hchart, Or.inl hwide⟩, _, hfailed⟩
  | save =>
    obtain ⟨⟨t, c, hchart, htrouble⟩, hfailed⟩ := of_saveChart_over hover
    exact Or.inr ⟨⟨c, got?_of_ok (hasked (Or.inr rfl)) hchart, htrouble.imp_right fun h => ⟨hprompt, hcommand, h⟩⟩,
      hfailed⟩

/-- **Step.**  What ends a session is a line that says `quit` at the prompt for a command, or one in trouble. -/
theorem over_cases (hover : (s.answer line).1.IsOver) :
    s.prompt = .command ∧ SaysQuit line ∧ (s.answer line).1 = .quit ∨
      s.InTrouble line ∧ ∃ cause, (s.answer line).1 = .failed cause := by
  unfold answer take at hover ⊢
  cases hp : s.prompt with
  | command =>
    simp only [hp] at hover ⊢
    cases hcommand : Command.ofName? line.text.trim.asciiLower with
    | none =>
      simp only [hcommand] at hover
      exact absurd hover (Next.not_isOver_goesOn _)
    | some command =>
      simp only [hcommand] at hover ⊢
      rcases of_obey_over hp hcommand hover with rfl | htrouble
      · exact Or.inl ⟨trivial, hcommand, rfl⟩
      · exact Or.inr htrouble
  | expression =>
    simp only [hp] at hover ⊢
    split at hover
    · exact absurd hover (Next.not_isOver_goesOn _)
    · next hne =>
      rw [if_neg hne]
      obtain ⟨⟨t, c, hchart, hwide⟩, hfailed⟩ := of_showChart_over hover
      have hasked : s.asked? line = some { s with expression := some line.text.trim, chart := none } := by
        simp [asked?, hp, hne]
      exact Or.inr ⟨⟨c, got?_of_ok hasked (hp ▸ hchart), Or.inl hwide⟩, _, hfailed⟩
  | argument f =>
    simp only [hp] at hover
    split at hover
    · exact absurd hover (Next.not_isOver_goesOn _)
    · exact absurd hover (Next.not_isOver_goesOn _)
  | _ =>
    simp only [hp] at hover
    split at hover
    · exact absurd hover (Next.not_isOver_goesOn _)
    · split at hover
      · exact absurd hover (Next.not_isOver_goesOn _)
      · exact absurd hover (Next.not_isOver_goesOn _)

/-- At the prompt for a command the session ends. -/
theorem answer_quit (hprompt : s.prompt = .command) (hquit : SaysQuit line) :
    s.answer line = (.quit, [.write "\n"]) := by
  rw [answer_of_command hprompt hquit]
  rfl

/-- At any other prompt it is an answer that ends the command. -/
theorem back_of_answer_quit (hprompt : s.prompt ≠ .command) (hquit : SaysQuit line) :
    ∃ r, (s.answer line).1 = .goesOn r ∧ r.prompt = .command := by
  have hword := hquit.mem_quitWords
  have hne : line.text.trim ≠ [] := fun h => absurd (h ▸ hword) (by decide)
  obtain ⟨hfloat, hcount⟩ := quitWords_spec _ hword
  have hbound : readBound line.text.trim = .error .invalid := by
    rw [readBound, if_neg fun hauto => absurd hauto (not_auto_of_quit hword), hfloat]
    rfl
  unfold answer take
  cases hp : s.prompt with
  | command => exact absurd hp hprompt
  | expression =>
    simp only [if_neg hne]
    exact back_of_showChart_quit rfl rfl hword
  | lowerBound =>
    simp only [if_neg hne, hbound]
    exact ⟨_, rfl, rfl⟩
  | upperBound =>
    simp only [if_neg hne, hbound]
    exact ⟨_, rfl, rfl⟩
  | width =>
    simp only [if_neg hne, hcount]
    exact ⟨_, rfl, rfl⟩
  | argument f =>
    simp only [hfloat]
    exact ⟨_, rfl, rfl⟩

end

/-! ## Scripts -/

/-- How a session comes to its end on a script with lines behind it that say `quit`. -/
inductive Leaves (s : Session) (script : List Line) (first second : Line) : Prop
  /-- A line of the script says `quit` at a prompt for a command, and none of the lines behind it is read. -/
  | earlier (before after : List Line) (line : Line) (q : Session) (hscript : script = before ++ line :: after)
      (hbefore : (s.run before).1 = .goesOn q) (hprompt : q.prompt = .command) (hquit : SaysQuit line)
      (hend : (s.run script).1 = .quit)
      (hrest : ∀ rest, s.run (script ++ rest) = s.run script ∧ s.linesRead (script ++ rest) ≤ script.length)
  /-- A line of the script is in trouble.  The session fails, and none of the lines behind it is read. -/
  | failed (before after : List Line) (line : Line) (q : Session) (cause : Failure)
      (hscript : script = before ++ line :: after) (hbefore : (s.run before).1 = .goesOn q)
      (htrouble : q.InTrouble line) (hend : (s.run script).1 = .failed cause)
      (hrest : ∀ rest, s.run (script ++ rest) = s.run script ∧ s.linesRead (script ++ rest) ≤ script.length)
  /-- The script leaves it at the prompt for a command, and the first line ends it. -/
  | atOnce (q : Session) (hscript : (s.run script).1 = .goesOn q) (hprompt : q.prompt = .command)
      (hrest : ∀ rest, s.run (script ++ first :: rest) = (.quit, (s.run script).2 ++ [.write "\n"]) ∧
        s.linesRead (script ++ first :: rest) = script.length + 1)
  /-- The script leaves it at another prompt.  The first line is the answer and the second one ends it. -/
  | afterAnswer (q r : Session) (hscript : (s.run script).1 = .goesOn q) (hprompt : q.prompt ≠ .command)
      (hanswer : (q.answer first).1 = .goesOn r) (hback : r.prompt = .command)
      (hrest : ∀ rest, s.run (script ++ first :: second :: rest) =
          (.quit, (s.run script).2 ++ ((q.answer first).2 ++ [.write "\n"])) ∧
        s.linesRead (script ++ first :: second :: rest) = script.length + 2)

section
variable {s : Session} {script : List Line} {first second : Line}

/-- **Run.**  There is no other way out. -/
theorem leaves_of_quits (s : Session) (script : List Line) (hfirst : SaysQuit first) (hsecond : SaysQuit second) :
    Leaves s script first second := by
  by_cases hover : (s.run script).1.IsOver
  · obtain ⟨before, line, after, q, heq, hbefore, hline⟩ := exists_of_run_over hover
    have hrest : ∀ rest, s.run (script ++ rest) = s.run script ∧ s.linesRead (script ++ rest) ≤ script.length :=
      fun rest => by
        obtain ⟨hrun, hread, hle⟩ := run_append_of_over rest hover
        exact ⟨hrun, hread.trans_le hle⟩
    rcases over_cases (hline ▸ hover) with ⟨hprompt, hquit, hend⟩ | ⟨htrouble, cause, hend⟩
    · exact .earlier before after line q heq hbefore hprompt hquit (hline.symm.trans hend) hrest
    · exact .failed before after line q cause heq hbefore htrouble (hline.symm.trans hend) hrest
  · obtain ⟨q, hscript⟩ : ∃ q, (s.run script).1 = .goesOn q := by
      unfold Next.IsOver at hover
      push Not at hover
      exact hover
    by_cases hprompt : q.prompt = .command
    · refine .atOnce q hscript hprompt fun rest => ?_
      have hquit := answer_quit hprompt hfirst
      obtain ⟨hrun, hread⟩ := run_append_of_goesOn (first :: rest) hscript
      obtain ⟨hlast, hone⟩ := run_cons_of_over (hquit ▸ Next.isOver_quit : (q.answer first).1.IsOver) rest
      rw [hrun, hread, hlast, hone, hquit]
      exact ⟨rfl, rfl⟩
    · obtain ⟨r, hanswer, hback⟩ := back_of_answer_quit hprompt hfirst
      refine .afterAnswer q r hscript hprompt hanswer hback fun rest => ?_
      have hquit := answer_quit hback hsecond
      obtain ⟨hrun, hread⟩ := run_append_of_goesOn (first :: second :: rest) hscript
      obtain ⟨hnext, htwo⟩ :=
        run_cons_of_goesOn (Prod.ext hanswer rfl : q.answer first = (.goesOn r, _)) (second :: rest)
      obtain ⟨hlast, hone⟩ := run_cons_of_over (hquit ▸ Next.isOver_quit : (r.answer second).1.IsOver) rest
      rw [hrun, hread, hnext, htwo, hlast, hone, hquit]
      exact ⟨rfl, rfl⟩

/-- No line of a script is in trouble. -/
def Untroubled (s : Session) (script : List Line) : Prop :=
  ∀ before line after q, script = before ++ line :: after → (s.run before).1 = .goesOn q → ¬ q.InTrouble line

end

/-! ### Saving

A script that saves the chart of `x-1` and then is left at a prompt, and the same with a second report for the same
file. -/

section
variable {s q : Session} {line : Line} {rest : List Line} {c : Chart}

theorem untroubled_nil (s : Session) : Untroubled s [] := fun before line after _ h =>
  absurd h.symm (List.append_ne_nil_of_right_ne_nil before (List.cons_ne_nil line after))

/-- A script is without trouble if its first line is, and the rest behind it. -/
theorem untroubled_cons (hline : ¬ s.InTrouble line) (hanswer : (s.answer line).1 = .goesOn q)
    (hrest : Untroubled q rest) : Untroubled s (line :: rest) := by
  intro before at_ after t hscript hrun
  cases before with
  | nil =>
    obtain ⟨rfl, -⟩ := List.cons.inj hscript
    exact Next.goesOn.inj hrun ▸ hline
  | cons first before =>
    obtain ⟨rfl, rfl⟩ := List.cons.inj hscript
    rw [(run_cons_of_goesOn (Prod.ext hanswer rfl) before).1] at hrun
    exact hrest before at_ after t rfl hrun

/-- Only a line that asks for a chart can be in trouble. -/
theorem not_inTrouble_of_not_asked (h : s.asked? line = none) : ¬ s.InTrouble line := by
  rintro ⟨c, hgot, -⟩
  rw [got?, h] at hgot
  exact absurd hgot (by simp)

/-- A chart that fits is no trouble where it is not to be saved, and where it is in a file. -/
theorem not_inTrouble_of_fits (hgot : s.got? line = some c) (hfits : c.Fits s.width)
    (hsaving : s.prompt ≠ .command ∨ ∃ file, line.saving = .written file) : ¬ s.InTrouble line := by
  rintro ⟨d, hgot', hwide | ⟨hprompt, -, hfile⟩⟩
  · exact hwide (Option.some.inj (hgot.symm.trans hgot') ▸ hfits)
  · rcases hsaving with hne | ⟨file, hwritten⟩
    · exact hne hprompt
    · exact hfile file hwritten

end

end

section

local instance : Similarity := sameName

/-- A line that saves a report in a new file. -/
def savesTo (file : String) : Line := ⟨"save".toList, .written file⟩

/-- A chart that is there is saved. -/
theorem answer_save {s : Session} {c : Chart} (hprompt : s.prompt = .command) (hchart : s.chart = some c)
    (hfits : c.Fits s.width) (file : String) : (s.answer (savesTo file)).1 = .goesOn s := by
  have hcommand : Command.ofName? (savesTo file).text.trim.asciiLower = some .save := by
    show Command.ofName? (Text.asciiLower (Text.trim "save".toList)) = some .save
    decide
  rw [answer_of_command hprompt hcommand]
  exact (saveChart_of_fits (ensureChart_of_chart hchart) hfits file).trans (congrArg Next.goesOn (with_prompt_eq hprompt))

/-- A chart that does not fit cannot be shown. -/
theorem answer_solve_wide {s : Session} {c : Chart} (hprompt : s.prompt = .command) (hchart : s.chart = some c)
    (hwide : ¬ c.Fits s.width) (hne : c.segments ≠ []) :
    (s.answer (typed "solve".toList)).1 = .failed .wideField := by
  have hcommand : Command.ofName? (typed "solve".toList).text.trim.asciiLower = some .solve := by decide
  have hreport : s.report? c = none := by
    rw [report?, Report.chart?, Chart.render?, Chart.lines?_of_not_fits hwide hne]
    rfl
  rw [answer_of_command hprompt hcommand]
  simp only [obey, showChart, ensureChart_of_chart hchart, hreport]

/-- The session at the start with `x-1` set and its chart kept. -/
def showing (c : Chart) : Session :=
  { start with expression := some unitLine, chart := some c, autoDomain := some c.domain }

theorem width_showing (c : Chart) : (showing c).width ≤ maxFieldWidth := (by decide : start.width ≤ maxFieldWidth)

theorem answer_start_unitLine : ∃ c, c.segments.length = 2 ∧ c.rows = [] ∧
    Chart.ofInput unitLine none = .ok c ∧
    (Session.answer { start with prompt := .expression } (typed unitLine)).1 = .goesOn (showing c) := by
  obtain ⟨c, hc, hsegments, hrows, hline⟩ := answer_unitLine (s := { start with prompt := .expression }) rfl (by decide)
  exact ⟨c, hsegments, hrows, hc, hline⟩

end

end Session
end SignChart
