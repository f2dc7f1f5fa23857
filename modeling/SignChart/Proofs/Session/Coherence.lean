/-
  What a session remembers.

  A session keeps the chart of its expression until the expression changes, and the automatic domain of its last
  chart for longer.  Eight commands and their prompts share this state, and a line can fail at any of them.  All the
  same, after any script of lines the state is what the script says (`coherent_run`): a chart that is kept is that
  of the expression, the domain is that of the last chart anyone asked for and got.

  1. **Lines.**  Only some lines ask for a chart: those that say so, and a new expression.  `asked?` is the
     session whose chart a line asks for.  Every other line leaves alone what is remembered (`step_of_answer`).

  2. **Scripts.**  `charts` lists the charts that the lines of a script asked for and got.  A script with one more
     line does what this line does after the script (`run_concat`, `charts_concat`).

  3. **Coherence.**  Each line keeps `Remembers`, so that by induction on the script, from its end, all of
     them do (`remembers_run`).
-/
import SignChart.Proofs.Session.Scripts
import SignChart.Proofs.Text.Squeezing

namespace SignChart

/-! ## Trimmed text -/

/-- A trimmed text has no blanks to trim. -/
theorem trim_trim (t : Text) : t.trim.trim = t.trim := by
  have hstart : Unindented t.trim := by
    intro c hc
    obtain ⟨rest, hrest⟩ := trimEnd_isPrefix t.trimStart
    refine unindented_trimStart t c ?_
    rw [← hrest]
    exact List.mem_head?_append_of_mem_head? hc
  have hend : t.trim.trimEnd = t.trim := by
    rw [Text.trim, Text.trimEnd, Text.trimEnd, List.reverse_reverse, List.dropWhile_idempotent]
  rw [Text.trim, trimStart_of_unindented hstart, hend]

namespace Session

/-! ## Lines -/

/-- What no line changes that does not ask for a chart. -/
structure Keeps (s s' : Session) : Prop where
  expression : s'.expression = s.expression
  chart : s'.chart = s.chart
  autoDomain : s'.autoDomain = s.autoDomain
  width : s'.width = s.width ∨ minWidth ≤ s'.width

theorem Keeps.refl (s : Session) : Keeps s s := ⟨rfl, rfl, rfl, Or.inl rfl⟩

section
variable [Similarity]

/-- What is left when the chart of a session was asked for: with the chart, or without a change. -/
inductive Answered (r s : Session) : Prop
  | shown (q : Session) (c : Chart) (hchart : r.ensureChart = .ok (q, c)) (hs : s = { q with prompt := .command })
  | failed (text : String) (hchart : r.ensureChart = .error text) (hs : s = { r with prompt := .command })

/-- Showing a chart leaves it with the session, or nothing but an error. -/
theorem answered_showChart {r s : Session} (h : r.showChart.1 = .goesOn s) : Answered r s := by
  unfold showChart at h
  split at h
  · split at h
    · exact .shown _ _ ‹_› (Next.goesOn.inj h).symm
    · exact absurd h (by simp)
  · exact .failed _ ‹_› (Next.goesOn.inj h).symm

/-- A report that was not saved leaves no session. -/
theorem answered_saveChart {r s : Session} {saving : Saving} (h : (r.saveChart saving).1 = .goesOn s) :
    Answered r s := by
  unfold saveChart at h
  split at h
  · split at h
    · exact absurd h (by simp)
    · exact absurd h (by simp)
    · exact absurd h (by simp)
    · exact .shown _ _ ‹_› (Next.goesOn.inj h).symm
  · exact .failed _ ‹_› (Next.goesOn.inj h).symm

/-- What a line leads to.  Only the command to set an expression leads to the prompt for one. -/
inductive Step (s : Session) (line : Line) (s' : Session) : Prop
  | kept (hasked : s.asked? line = none) (hkeeps : Keeps s s')
      (hprompt : s'.prompt = .expression → s.prompt = .command ∧ Command.ofName? line.text.trim.asciiLower = some .set)
  | asked (r : Session) (hasked : s.asked? line = some r) (hanswered : Answered r s')

section
variable {s s' t : Session} {line : Line}

/-- A command that ends without a chart. -/
theorem step_done {effects : List Effect} (hasked : s.asked? line = none) (h : (t.done effects).1 = .goesOn s')
    (hkeeps : Keeps s t) : Step s line s' := by
  obtain rfl := Next.goesOn.inj h
  exact .kept hasked ⟨hkeeps.expression, hkeeps.chart, hkeeps.autoDomain, hkeeps.width⟩ fun h => absurd h (by simp)

/-- A line that leads to another prompt. -/
theorem step_ask {lines : List String} {prompt : Prompt} {question : String} (hasked : s.asked? line = none)
    (h : (t.ask lines prompt question).1 = .goesOn s') (hkeeps : Keeps s t)
    (hprompt : prompt = .expression → s.prompt = .command ∧ Command.ofName? line.text.trim.asciiLower = some .set) :
    Step s line s' := by
  obtain rfl := Next.goesOn.inj h
  exact .kept hasked ⟨hkeeps.expression, hkeeps.chart, hkeeps.autoDomain, hkeeps.width⟩ hprompt

/-- Commands that need the function of the expression end at once if there is none. -/
theorem step_withFunction {next : Evaluator → Next × List Effect} (hasked : s.asked? line = none)
    (hnext : ∀ f, (next f).1 = .goesOn s' → Step s line s') (h : (s.withFunction next).1 = .goesOn s') :
    Step s line s' := by
  unfold withFunction at h
  split at h
  · exact step_done hasked h (Keeps.refl s)
  · split at h
    · exact hnext _ h
    · exact step_done hasked h (Keeps.refl s)

/-- What a command leads to. -/
theorem step_of_obey {c : Command} (hp : s.prompt = .command) (hc : Command.ofName? line.text.trim.asciiLower = some c)
    (h : (s.obey line.saving c).1 = .goesOn s') : Step s line s' := by
  cases c with
  | solve => exact .asked s (by simp [asked?, hp, hc]) (answered_showChart h)
  | save => exact .asked s (by simp [asked?, hp, hc]) (answered_saveChart h)
  | quit => exact absurd h (by simp [obey])
  | help => exact step_done (by simp [asked?, hp, hc]) h (Keeps.refl s)
  | set => exact step_ask (by simp [asked?, hp, hc]) h (Keeps.refl s) fun _ => ⟨hp, hc⟩
  | domain => exact step_ask (by simp [asked?, hp, hc]) h (Keeps.refl s) nofun
  | eval =>
    have hasked : s.asked? line = none := by simp [asked?, hp, hc]
    refine step_withFunction hasked (fun f hf => ?_) h
    exact step_ask hasked hf (Keeps.refl s) nofun
  | program =>
    have hasked : s.asked? line = none := by simp [asked?, hp, hc]
    exact step_withFunction hasked (fun f hf => step_done hasked hf (Keeps.refl s)) h

/-- **Step.**  A line asks for a chart, or it leaves alone what is remembered. -/
theorem step_of_answer (h : (s.answer line).1 = .goesOn s') : Step s line s' := by
  unfold answer take at h
  cases hp : s.prompt with
  | command =>
    rw [hp] at h
    cases hc : Command.ofName? line.text.trim.asciiLower with
    | none =>
      have hasked : s.asked? line = none := by simp [asked?, hp, hc]
      simp only [hc] at h
      exact step_done hasked h (Keeps.refl s)
    | some c =>
      simp only [hc] at h
      exact step_of_obey hp hc h
  | expression =>
    rw [hp] at h
    dsimp only at h
    split at h
    · exact step_done (by simp [asked?, *]) h (Keeps.refl s)
    · exact .asked _ (by simp [asked?, *]) (answered_showChart h)
  | lowerBound =>
    have hasked : s.asked? line = none := by simp [asked?, hp]
    rw [hp] at h
    dsimp only at h
    split at h
    · exact step_ask hasked h (Keeps.refl s) nofun
    split at h
    · exact step_ask hasked h ⟨rfl, rfl, rfl, Or.inl rfl⟩ nofun
    · exact step_done hasked h (Keeps.refl s)
  | upperBound =>
    have hasked : s.asked? line = none := by simp [asked?, hp]
    rw [hp] at h
    dsimp only at h
    split at h
    · exact step_ask hasked h (Keeps.refl s) nofun
    split at h
    · exact step_ask hasked h ⟨rfl, rfl, rfl, Or.inl rfl⟩ nofun
    · exact step_done hasked h (Keeps.refl s)
  | width =>
    have hasked : s.asked? line = none := by simp [asked?, hp]
    rw [hp] at h
    dsimp only at h
    split at h
    · exact step_done hasked h (Keeps.refl s)
    split at h
    · exact step_done hasked h ⟨rfl, rfl, rfl, Or.inr (Nat.le_max_right ..)⟩
    · exact step_done hasked h (Keeps.refl s)
  | argument f =>
    have hasked : s.asked? line = none := by simp [asked?, hp]
    rw [hp] at h
    dsimp only at h
    split at h
    · exact step_done hasked h (Keeps.refl s)
    · exact step_done hasked h (Keeps.refl s)

end

/-! ## Scripts -/

section
variable {s q : Session} {line : Line} {lines : List Line}

/-- The charts that the lines of a script ask for and get. -/
def charts (s : Session) : List Line → List Chart
  | [] => []
  | line :: rest =>
    (s.got? line).toList ++
      match (s.answer line).1 with
      | .goesOn q => q.charts rest
      | _ => []

theorem charts_cons_of_goesOn {effects : List Effect} (h : s.answer line = (.goesOn q, effects)) (rest : List Line) :
    s.charts (line :: rest) = (s.got? line).toList ++ q.charts rest := by
  rw [charts, h]

theorem charts_cons_of_over (hover : (s.answer line).1.IsOver) (rest : List Line) :
    s.charts (line :: rest) = (s.got? line).toList := by
  obtain ⟨next, effects, h⟩ : ∃ next effects, s.answer line = (next, effects) := ⟨_, _, rfl⟩
  rw [h] at hover
  rw [charts, h]
  cases next with
  | goesOn q => exact absurd hover (Next.not_isOver_goesOn q)
  | quit => exact List.append_nil _
  | failed cause => exact List.append_nil _

/-- One more line adds the chart that it gets. -/
theorem charts_concat (line : Line) : ∀ {s : Session}, (s.run lines).1 = .goesOn q →
    s.charts (lines ++ [line]) = s.charts lines ++ (q.got? line).toList := by
  induction lines with
  | nil =>
    intro s h
    obtain rfl := Next.goesOn.inj h
    rcases s.goesOn_or_isOver line with ⟨t, effects, hanswer⟩ | hover
    · rw [List.nil_append, charts_cons_of_goesOn hanswer]
      exact List.append_nil _
    · rw [List.nil_append, charts_cons_of_over hover]
      rfl
  | cons first rest ih =>
    intro s h
    rcases s.goesOn_or_isOver first with ⟨t, effects, hanswer⟩ | hover
    · rw [(run_cons_of_goesOn hanswer rest).1] at h
      rw [List.cons_append, charts_cons_of_goesOn hanswer, charts_cons_of_goesOn hanswer, ih h, List.append_assoc]
    · rw [(run_cons_of_over hover rest).1] at h
      exact absurd h (hover q)

/-! ## Coherence -/

/-- At some line of a script the chart of an expression was computed anew, after a chart of the domain that
was remembered there. -/
def Computed (lines : List Line) (text : Text) (c : Chart) : Prop :=
  ∃ before line after q r, lines = before ++ line :: after ∧ (start.run before).1 = .goesOn q ∧
    q.asked? line = some r ∧ r.chart = none ∧ r.expression = some text ∧ Chart.ofInput text q.autoDomain = .ok c

/-- More lines do not undo what was computed. -/
theorem Computed.concat {text : Text} {c : Chart} (h : Computed lines text c) (line : Line) :
    Computed (lines ++ [line]) text c := by
  obtain ⟨before, at_, after, q, r, rfl, hrest⟩ := h
  exact ⟨before, at_, after ++ [line], q, r, by simp, hrest⟩

/-- An expression is set, and it is not empty and has no blanks around it. -/
def IsSet (expression : Option Text) : Prop := ∃ text, expression = some text ∧ text ≠ [] ∧ text.trim = text

/-- What is remembered after a script. -/
structure Remembers (lines : List Line) (s : Session) : Prop where
  expression : IsSet s.expression
  chart : ∀ c, s.chart = some c →
    s.autoDomain = some c.domain ∧ ∃ text, s.expression = some text ∧ Computed lines text c
  autoDomain : s.autoDomain = (start.charts lines).getLast?.map Chart.domain
  width : 3 ≤ s.width

/-- At the start the expression is set, and nothing else is remembered. -/
theorem remembers_start : Remembers [] start where
  expression := ⟨_, rfl, by decide, by decide⟩
  chart := nofun
  autoDomain := rfl
  width := by decide

section
variable {r t : Session}

/-- A line that asks for no chart keeps what is remembered true. -/
theorem Remembers.kept (hq : Remembers lines q) (hrun : (start.run lines).1 = .goesOn q)
    (hasked : q.asked? line = none) (hkeeps : Keeps q s) : Remembers (lines ++ [line]) s := by
  have hgot : q.got? line = none := by rw [got?, hasked]; rfl
  constructor
  · exact hkeeps.expression ▸ hq.expression
  · intro c hc
    rw [hkeeps.chart] at hc
    obtain ⟨hdomain, text, htext, hcomputed⟩ := hq.chart c hc
    exact ⟨hkeeps.autoDomain.trans hdomain, text, hkeeps.expression.trans htext, hcomputed.concat line⟩
  · rw [charts_concat line hrun, hgot, Option.toList_none, List.append_nil, hkeeps.autoDomain, hq.autoDomain]
  · rcases hkeeps.width with h | h
    · exact h ▸ hq.width
    · exact h

/-- The session whose chart is asked for has the width and the domain of the one before, and its expression is set. -/
theorem Remembers.of_asked (hq : Remembers lines q) (hasked : q.asked? line = some r) :
    r.autoDomain = q.autoDomain ∧ r.width = q.width ∧ IsSet r.expression := by
  rcases asked?_eq_some hasked with rfl | ⟨_, hline, rfl⟩
  · exact ⟨rfl, rfl, hq.expression⟩
  · exact ⟨rfl, rfl, _, rfl, hline, trim_trim line.text⟩

/-- A line that gets a chart keeps what is remembered true. -/
theorem Remembers.shown {c : Chart} (hq : Remembers lines q) (hrun : (start.run lines).1 = .goesOn q)
    (hasked : q.asked? line = some r) (hchart : r.ensureChart = .ok (t, c)) :
    Remembers (lines ++ [line]) { t with prompt := .command } := by
  obtain ⟨hdomain, hwidth, hset⟩ := hq.of_asked hasked
  have hlast : (start.charts (lines ++ [line])).getLast? = some c := by
    rw [charts_concat line hrun, got?_of_ok hasked hchart, Option.toList_some, List.getLast?_concat]
  rcases ensureChart_ok hchart with ⟨hc, rfl⟩ | ⟨hnone, ⟨text, htext, hinput⟩, rfl⟩
  -- the chart was there already, and so was its domain
  · have hsame : t = q := by
      rcases asked?_eq_some hasked with rfl | ⟨_, _, rfl⟩
      · rfl
      · exact absurd hc (by simp)
    subst hsame
    obtain ⟨hstored, text, htext, hcomputed⟩ := hq.chart c hc
    refine ⟨hset, fun d hd => ?_, by rw [hlast]; exact hstored, hq.width⟩
    obtain rfl := Option.some.inj (hc.symm.trans hd)
    exact ⟨hstored, text, htext, hcomputed.concat line⟩
  -- the chart is new
  · refine ⟨hset, fun d hd => ?_, by rw [hlast]; rfl, hwidth ▸ hq.width⟩
    obtain rfl := Option.some.inj hd
    exact ⟨rfl, text, htext, lines, line, [], q, r, rfl, hrun, hasked, hnone, htext, hdomain ▸ hinput⟩

/-- A line that asks for a chart and gets none keeps what is remembered true. -/
theorem Remembers.failed {text : String} (hq : Remembers lines q) (hrun : (start.run lines).1 = .goesOn q)
    (hasked : q.asked? line = some r) (hchart : r.ensureChart = .error text) :
    Remembers (lines ++ [line]) { r with prompt := .command } := by
  obtain ⟨hdomain, hwidth, hset⟩ := hq.of_asked hasked
  refine ⟨hset, fun d hd => absurd ((chart_of_error hchart).symm.trans hd) (by simp), ?_, hwidth ▸ hq.width⟩
  rw [charts_concat line hrun, got?_of_error hasked hchart, Option.toList_none, List.append_nil, ← hq.autoDomain]
  exact hdomain

/-- Every line keeps what is remembered true. -/
theorem Remembers.step (hq : Remembers lines q) (hrun : (start.run lines).1 = .goesOn q)
    (hstep : Step q line s) : Remembers (lines ++ [line]) s := by
  cases hstep with
  | kept hasked hkeeps _ => exact hq.kept hrun hasked hkeeps
  | asked r hasked hanswered =>
    cases hanswered with
    | shown t c hchart hs => exact hs ▸ hq.shown hrun hasked hchart
    | failed text hchart hs => exact hs ▸ hq.failed hrun hasked hchart

end

/-- **Run.**  After any script, what is remembered is true. -/
theorem remembers_run (lines : List Line) : ∀ s, (start.run lines).1 = .goesOn s → Remembers lines s := by
  induction lines using List.reverseRecOn with
  | nil =>
    intro s h
    obtain rfl := Next.goesOn.inj h
    exact remembers_start
  | append_singleton lines line ih =>
    intro s h
    obtain ⟨q, hq, hs⟩ := run_concat_eq_goesOn_iff.1 h
    exact (ih q hq).step hq (step_of_answer hs)

/-- The prompt for an expression is what the command to set one leads to. -/
theorem set_before (h : (start.run lines).1 = .goesOn s) (hprompt : s.prompt = .expression) :
    ∃ before command q, lines = before ++ [command] ∧ (start.run before).1 = .goesOn q ∧ q.prompt = .command ∧
      Command.ofName? command.text.trim.asciiLower = some .set := by
  cases lines using List.reverseRecOn with
  | nil =>
    obtain rfl := Next.goesOn.inj h
    have hstart : start.prompt = .command := rfl
    exact absurd (hstart.symm.trans hprompt) (by simp)
  | append_singleton before command =>
    obtain ⟨q, hq, hs⟩ := run_concat_eq_goesOn_iff.1 h
    refine ⟨before, command, q, rfl, hq, ?_⟩
    cases step_of_answer hs with
    | kept _ _ hset => exact hset hprompt
    | asked r _ hanswered =>
      cases hanswered with
      | shown t c _ hs => exact absurd hprompt (by simp [hs])
      | failed text _ hs => exact absurd hprompt (by simp [hs])

/-- Only a new expression changes the expression, or a chart that is there. -/
theorem new_of_change {s' : Session} (h : (s.answer line).1 = .goesOn s')
    (hchange : s'.expression ≠ s.expression ∨ s.chart ≠ none ∧ s'.chart ≠ s.chart) :
    s.prompt = .expression ∧ line.text.trim ≠ [] := by
  have hsame : ∀ t : Session, t.expression = s.expression → (s.chart ≠ none → t.chart = s.chart) →
      s' = { t with prompt := .command } → False := by
    rintro t hexpression hchart rfl
    rcases hchange with hne | ⟨hsome, hne⟩
    · exact hne hexpression
    · exact hne (hchart hsome)
  cases step_of_answer h with
  | kept _ hkeeps _ =>
    rcases hchange with hne | ⟨_, hne⟩
    · exact absurd hkeeps.expression hne
    · exact absurd hkeeps.chart hne
  | asked r hasked hanswered =>
    rcases asked?_eq_some hasked with rfl | ⟨hprompt, hline, _⟩
    · cases hanswered with
      | shown t c hchart hs =>
        rcases ensureChart_ok hchart with ⟨_, rfl⟩ | ⟨hnone, _, rfl⟩
        · exact (hsame _ rfl (fun _ => rfl) hs).elim
        · exact (hsame { r with chart := some c, autoDomain := some c.domain } rfl (fun hsome => absurd hnone hsome)
            hs).elim
      | failed text _ hs => exact (hsame _ rfl (fun _ => rfl) hs).elim
    · exact ⟨hprompt, hline⟩

/-- Asking for a chart that cannot be computed writes why, and changes nothing. -/
theorem answer_of_error {c : Command} {text : String} (hprompt : s.prompt = .command)
    (hc : Command.ofName? line.text.trim.asciiLower = some c) (hask : c = .solve ∨ c = .save)
    (herror : s.ensureChart = .error text) :
    s.answer line = (.goesOn s, .write "\n" :: .write text :: .write "\n" :: s.greeting) := by
  rw [answer_of_command hprompt hc]
  rcases hask with rfl | rfl
  · simp only [obey, showChart, herror, done, with_prompt_eq hprompt]
    rfl
  · simp only [obey, saveChart, herror, done, with_prompt_eq hprompt]
    rfl

/-- What is true of a session after a script. -/
structure Coherent (lines : List Line) (s : Session) : Prop extends Remembers lines s where
  /-- Only an answer to the command to set an expression changes the expression, or a chart that is there. -/
  set_only : ∀ line s', (s.answer line).1 = .goesOn s' →
    s'.expression ≠ s.expression ∨ s.chart ≠ none ∧ s'.chart ≠ s.chart →
    line.text.trim ≠ [] ∧ ∃ before command q, lines = before ++ [command] ∧ (start.run before).1 = .goesOn q ∧
      q.prompt = .command ∧ Command.ofName? command.text.trim.asciiLower = some .set
  /-- Where there is no chart, asking for it changes nothing. -/
  failed : ∀ line c text, s.prompt = .command → Command.ofName? line.text.trim.asciiLower = some c →
    c = .solve ∨ c = .save → s.ensureChart = .error text →
    s.answer line = (.goesOn s, .write "\n" :: .write text :: .write "\n" :: s.greeting)
  /-- A chart that cannot be put into a file or cannot be written leaves no session at all. -/
  ends : ∀ line cause, (s.answer line).1 = .failed cause → ∀ rest t, (start.run (lines ++ line :: rest)).1 ≠ .goesOn t

/-- **Coherence.**  After any script of lines the session is coherent with it. -/
theorem coherent_run (h : (start.run lines).1 = .goesOn s) : Coherent lines s where
  toRemembers := remembers_run lines s h
  set_only := fun line s' hanswer hchange => by
    obtain ⟨hprompt, hline⟩ := new_of_change hanswer hchange
    exact ⟨hline, set_before h hprompt⟩
  failed := fun line c text hprompt hc hask herror => answer_of_error hprompt hc hask herror
  ends := fun line cause hanswer rest t => by
    have hover : (s.answer line).1.IsOver := hanswer ▸ Next.isOver_failed cause
    rw [(run_append_of_goesOn (line :: rest) h).1, (run_cons_of_over hover rest).1]
    exact hover t

end

end

/-! ### A script

The chart of `x-1` is computed twice, each time for the expression that is set then, and in between the expression
has no chart. -/

/-- Two names are alike if they are the same. -/
@[reducible] def sameName : Similarity where
  likeness s t := if s = t then 1.0 else 0.0
  likeness_nonneg s t := by split <;> decide
  likeness_le_one s t := by split <;> decide
  likeness_self t := if_pos rfl

section

local instance : Similarity := sameName

/-- A line of this text, typed where no new file can be made. -/
def typed (text : Text) : Line := ⟨text, .refused⟩

section
variable {s : Session}

/-- The command to set an expression leads to its prompt. -/
theorem answer_set (hprompt : s.prompt = .command) :
    (s.answer (typed "set".toList)).1 = .goesOn { s with prompt := .expression } := by
  have hcommand : Command.ofName? (typed "set".toList).text.trim.asciiLower = some .set := by decide
  rw [answer_of_command hprompt hcommand]
  rfl

/-- A chart that is there is shown again. -/
theorem answer_solve {c : Chart} (hprompt : s.prompt = .command) (hchart : s.chart = some c)
    (hfits : c.Fits s.width) : (s.answer (typed "solve".toList)).1 = .goesOn s := by
  have hcommand : Command.ofName? (typed "solve".toList).text.trim.asciiLower = some .solve := by decide
  rw [answer_of_command hprompt hcommand]
  exact (showChart_of_fits (ensureChart_of_chart hchart) hfits).trans (congrArg Next.goesOn (with_prompt_eq hprompt))

/-- Without a new file for its report the session fails. -/
theorem answer_save_refused {c : Chart} (hprompt : s.prompt = .command) (hchart : s.chart = some c) :
    (s.answer (typed "save".toList)).1 = .failed .noFile := by
  have hcommand : Command.ofName? (typed "save".toList).text.trim.asciiLower = some .save := by decide
  rw [answer_of_command hprompt hcommand, obey, saveChart, ensureChart_of_chart hchart]
  rfl

/-- At the prompt for an expression, `x-1` is set and its chart is shown. -/
theorem answer_unitLine (hprompt : s.prompt = .expression) (hwidth : s.width ≤ maxFieldWidth) :
    ∃ c, Chart.ofInput unitLine s.autoDomain = .ok c ∧ c.segments.length = 2 ∧ c.rows = [] ∧
      (s.answer (typed unitLine)).1 = .goesOn
        { s with expression := some unitLine, chart := some c, autoDomain := some c.domain, prompt := .command } := by
  obtain ⟨c, hc, hsegments, hrows⟩ := ofInput_unitLine s.autoDomain
  have htrim : (typed unitLine).text.trim = unitLine := by decide
  refine ⟨c, hc, hsegments, hrows, ?_⟩
  rw [answer_of_expression hprompt (htrim ▸ by decide), htrim]
  exact showChart_of_fits (s := { s with expression := some unitLine, chart := none })
    (ensureChart_of_ofInput rfl rfl hc) (fits_of_no_rows hrows hwidth)

/-- An expression in `y` is set, but has no chart. -/
theorem ensureChart_of_y (hexpression : s.expression = some ['y']) (hchart : s.chart = none) :
    s.ensureChart = .error (chartError ['y'] (.disallowed 'y')) := by
  have hnormal : normalize ['y'] = ['y'] := by cbv
  have hcanonical : canonical ['y'] = ['y'] := by cbv
  have hinput : Chart.ofInput ['y'] s.autoDomain = .error (.disallowed 'y') := by
    rw [Chart.ofInput, hnormal]
    dsimp only
    rw [hcanonical]
    rfl
  have htext : canonicalText ['y'] = ['y'] := by rw [canonicalText, hnormal, hcanonical]
  exact htext ▸ ensureChart_of_error hchart hexpression hinput

/-- The expression is set all the same, and its chart is gone. -/
theorem answer_y (hprompt : s.prompt = .expression) : (s.answer (typed ['y'])).1 =
    .goesOn { s with expression := some ['y'], chart := none, prompt := .command } := by
  have htrim : (typed ['y']).text.trim = ['y'] := by decide
  rw [answer_of_expression hprompt (htrim ▸ by decide), htrim, showChart, ensureChart_of_y rfl rfl]
  rfl

end

/-- Sets `x-1`, shows its chart again, and then sets an expression that has none. -/
def losingChart : List Line :=
  [typed "set".toList, typed unitLine, typed "solve".toList, typed "set".toList, typed ['y']]

/-- The same, then asks for the chart in vain, sets `x-1` once more and shows the new chart again. -/
def regainingChart : List Line :=
  losingChart ++ [typed "solve".toList, typed "set".toList, typed unitLine, typed "solve".toList]

/-- `coherent_run` where a chart is computed and shown again, then lost to an expression that has none, and computed
once more after the domain of the first.  Where this one cannot be saved, nothing follows. -/
theorem coherent_run_again : ∃ c d q s,
    Chart.ofInput unitLine none = .ok c ∧ Chart.ofInput unitLine (some c.domain) = .ok d ∧
    (start.run losingChart).1 = .goesOn q ∧ Coherent losingChart q ∧
    q.expression = some ['y'] ∧ q.chart = none ∧ q.autoDomain = some c.domain ∧
    q.answer (typed "solve".toList) = (.goesOn q, .write "\n" ::
      .write (chartError ['y'] (.disallowed 'y')) :: .write "\n" :: q.greeting) ∧
    (start.run regainingChart).1 = .goesOn s ∧ Coherent regainingChart s ∧
    s.expression = some unitLine ∧ s.chart = some d ∧ s.autoDomain = some d.domain ∧
    (s.answer (typed "save".toList)).1 = .failed .noFile ∧
    ∀ rest t, (start.run (regainingChart ++ typed "save".toList :: rest)).1 ≠ .goesOn t := by
  have hwidth : start.width ≤ maxFieldWidth := by decide
  obtain ⟨c, hc, -, hrows, hline⟩ := answer_unitLine (s := { start with prompt := .expression }) rfl hwidth
  have hset : (start.run [typed "set".toList]).1 = .goesOn { start with prompt := .expression } :=
    run_singleton (answer_set rfl)
  have hshown := run_concat_of_goesOn hset hline
  have hagain := run_concat_of_goesOn hshown (answer_solve rfl rfl (fits_of_no_rows hrows hwidth))
  have hq : (start.run losingChart).1 = .goesOn _ :=
    run_concat_of_goesOn (run_concat_of_goesOn hagain (answer_set rfl)) (answer_y rfl)
  have hcoherent := coherent_run hq
  have hfailed := hcoherent.failed (typed "solve".toList) .solve _ rfl (by decide) (Or.inl rfl)
    (ensureChart_of_y rfl rfl)
  have hset' := run_concat_of_goesOn (run_concat_of_goesOn hq (congrArg Prod.fst hfailed)) (answer_set rfl)
  obtain ⟨d, hd, -, hrows', hline'⟩ := answer_unitLine (s := { start with
    prompt := .expression, expression := some ['y'], autoDomain := some c.domain }) rfl hwidth
  have hs : (start.run regainingChart).1 = .goesOn _ :=
    run_concat_of_goesOn (run_concat_of_goesOn hset' hline') (answer_solve rfl rfl (fits_of_no_rows hrows' hwidth))
  have hcoherent' := coherent_run hs
  have hrefused := answer_save_refused (s := { start with
    expression := some unitLine, chart := some d, autoDomain := some d.domain }) rfl rfl
  exact ⟨c, d, _, _, hc, hd, hq, hcoherent, rfl, rfl, rfl, hfailed, hs, hcoherent', rfl, rfl, rfl, hrefused,
    hcoherent'.ends _ _ hrefused⟩

end

end Session
end SignChart
