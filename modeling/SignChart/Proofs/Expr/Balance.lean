/-
  Counting operands.

  Nothing in `Parser.read` checks that an operator has its operands.  What is counted here makes up for it.

  1. **Gain.**  A program that runs puts as many values on the stack as its instructions gain together
     (`length_of_performAll`), and no function in it is called with a number of arguments that it does not
     take.

  2. **Balance.**  What open calls and waiting operators will still take, less what has been gained.  Releasing
     operators does not change it, and neither does opening a parenthesis or closing one.

  3. **Gap.**  The balance, and one more at the end of an operand.  A program of one value ends with the gap it
     starts with.
-/
import SignChart.Proofs.Expr.Ordering

namespace SignChart

/-! ## Gain -/

/-- The number of values that an action adds to a stack, less those that it takes.  A call without
arguments counts as if it had one. -/
def Action.gain : Action → Int
  | .push _ | .input _ _ => 1
  | .apply _ _ count => 1 - (Nat.max 1 count : Nat)
  | .undefined _ => 0

def Instr.gain (i : Instr) : Int := (standardTable.action i).gain

/-- The gain of instructions together. -/
def gain (is : List Instr) : Int := (is.map Instr.gain).sum

theorem gain_append (is js : List Instr) : gain (is ++ js) = gain is + gain js := by
  rw [gain, List.map_append, List.sum_append]; rfl

theorem gain_cons (i : Instr) (is : List Instr) : gain (i :: is) = i.gain + gain is := by
  rw [gain, List.map_cons, List.sum_cons]; rfl

theorem gain_operate (o : Operator) : (Instr.operate o).gain = if o.isSign then 0 else -1 := by
  cases o <;> rfl

theorem gain_load {t : Text} {m : Meaning} (h : standardTable.lookup t = some m)
    (hm : ∀ f, m ≠ .function f) : (Instr.load t).gain = 1 := by
  rw [Instr.gain, Table.action, Table.actionOf, h]
  cases m with
  | function f => exact absurd rfl (hm f)
  | input | constant => rfl

theorem gain_call {g : Text} {f : Function} (h : standardTable.lookup g = some (.function f)) (n : Nat) :
    (Instr.call g n).gain = 1 - (Nat.max 1 n : Nat) := by
  rw [Instr.gain, Table.action, Table.actionOf, h]; rfl

/-- The arity of a function. -/
def Meaning.arity? : Meaning → Option Arity
  | .function f => some f.arity
  | _ => none

/-- Every function takes an argument. -/
theorem pos_of_accepts {t : Text} {f : Function} {n : Nat} (h : standardTable.lookup t = some (.function f))
    (hn : f.arity.accepts n = true) : 1 ≤ n := by
  have hall : ∀ entry ∈ standardTable, ∀ a ∈ entry.2.arity?, 1 ≤ a.min := by decide
  have hmin : 1 ≤ f.arity.min := hall _ (mem_of_lookup h) f.arity rfl
  simp only [Arity.accepts, Bool.and_eq_true, decide_eq_true_eq] at hn
  omega

theorem pos_of_action {i : Instr} {name : Text} {f : Function} {n : Nat}
    (h : standardTable.action i = .apply name f n) (hn : f.arity.accepts n = true) : 1 ≤ n := by
  have of_name : ∀ t count, standardTable.actionOf t count = .apply name f n → 1 ≤ n := by
    intro t count h
    unfold Table.actionOf at h
    split at h
    · next g hg =>
      injection h with _ hf _
      subst hf
      exact pos_of_accepts hg hn
    all_goals exact Action.noConfusion h
  cases i with
  | push value => exact Action.noConfusion h
  | operate o => cases o <;> (injection h with _ _ hcount; subst hcount; decide)
  | load t => exact of_name t none h
  | call t count => exact of_name t (some count) h

/-- **Step.**  An action changes the height of the stack by its gain. -/
theorem length_of_perform {x : Float} {i : Instr} {stack stack' : List Float}
    (h : perform [x] (standardTable.action i) stack = .ok stack') :
    (stack'.length : Int) = stack.length + i.gain := by
  rw [Instr.gain]
  cases ha : standardTable.action i with
  | push value =>
    rw [ha] at h
    obtain rfl := Except.ok.inj h
    rfl
  | input slot name =>
    rw [ha, perform] at h
    split at h
    · obtain rfl := Except.ok.inj h
      rfl
    · exact absurd h (by simp)
  | undefined name =>
    rw [ha] at h
    exact absurd h (by simp [perform])
  | apply name f n =>
    rw [ha, perform] at h
    split at h
    · exact absurd h (by simp)
    split at h
    · exact absurd h (by simp)
    · next hn hlength =>
      have hpos : 1 ≤ n := pos_of_action ha (by simpa using hn)
      obtain rfl := Except.ok.inj h
      have hmax : Nat.max 1 n = n := Nat.max_eq_right hpos
      rw [Action.gain, hmax, List.length_cons, List.length_drop]
      omega

/-- **Run.**  A program changes the height of the stack by its gain, and calls functions with as many
arguments as they take. -/
theorem length_of_performAll {x : Float} : ∀ (p : Program) {stack stack' : List Float},
    performAll [x] (standardTable.link p) stack = .ok stack' →
      (stack'.length : Int) = stack.length + gain p.instrs ∧
        ∀ g n f, .call g n ∈ p.instrs → standardTable.lookup g = some (.function f) →
          f.arity.accepts n = true := by
  intro p
  induction p with
  | nil =>
    intro stack stack' h
    obtain rfl := Except.ok.inj h
    exact ⟨(Int.add_zero _).symm, fun g n f hm => absurd hm List.not_mem_nil⟩
  | cons step rest ih =>
    intro stack stack' h
    change performAll [x] ((step, standardTable.action step.instr) :: standardTable.link rest) stack = _ at h
    rw [performAll] at h
    cases hstep : perform [x] (standardTable.action step.instr) stack with
    | error cause => rw [hstep] at h; exact absurd h (by simp)
    | ok middle =>
      rw [hstep] at h
      obtain ⟨hlength, hcalls⟩ := ih h
      have hfirst := length_of_perform hstep
      refine ⟨?_, fun g n f hm hf => ?_⟩
      · show (stack'.length : Int) = stack.length + gain (step.instr :: Program.instrs rest)
        rw [gain_cons, hlength, hfirst, Int.add_assoc]
      · rcases List.mem_cons.1 hm with hm | hm
        -- the machine checks the arity before it applies a function
        · rw [← hm, Table.action, Table.actionOf, hf, perform] at hstep
          split at hstep
          · exact absurd hstep (by simp)
          · next hn => simpa using hn
        · exact hcalls g n f hm hf

/-! ## Balance -/

/-- The values that a parenthesis takes where it closes, less one: those of a call. -/
def Frame.owed (f : Frame) : Int := if f.callee.isSome then (f.count - 1 : Nat) else 0

def Frame.balance (f : Frame) : Int := f.owed - gain (Parser.operations f.outer)

/-- What open calls and waiting operators will still take, less what has been gained. -/
def Parser.balance (p : Parser) : Int :=
  (p.frames.map Frame.balance).sum - gain p.instrs - gain (Parser.operations p.waiting)

theorem balance_emit (p : Parser) (i : Instr) (source : Excerpt) :
    (p.emit i source).balance = p.balance - i.gain := by
  have hone : gain [i] = i.gain := Int.add_zero _
  rw [Parser.balance, Parser.instrs_emit, gain_append, hone, Parser.balance]
  show (p.frames.map Frame.balance).sum - _ - gain (Parser.operations p.waiting) = _
  omega

theorem balance_release (p : Parser) (leaves : Waiting → Bool) : (p.release leaves).balance = p.balance := by
  have hsplit : gain (Parser.operations p.waiting) =
      gain (Parser.operations (p.waiting.takeWhile leaves)) +
        gain (Parser.operations (p.waiting.dropWhile leaves)) := by
    rw [← gain_append, Parser.operations, Parser.operations, Parser.operations, ← List.map_append,
      List.takeWhile_append_dropWhile]
  rw [Parser.balance, Parser.instrs_release, gain_append, Parser.balance, hsplit]
  show (p.frames.map Frame.balance).sum - _ - gain (Parser.operations (p.waiting.dropWhile leaves)) = _
  omega

theorem balance_wait (p : Parser) (w : Waiting) :
    (p.wait w).balance = p.balance - (Instr.operate w.op).gain := by
  have hcons : gain (Parser.operations (w :: p.waiting)) =
      (Instr.operate w.op).gain + gain (Parser.operations p.waiting) := gain_cons _ _
  show (p.frames.map Frame.balance).sum - gain p.instrs - gain (Parser.operations (w :: p.waiting)) = _
  rw [hcons, Parser.balance]
  omega

/-- The arguments that a frame owes are at least as many with commas as without. -/
theorem owed_le_owed_fill (f : Frame) (n : Nat) : f.owed ≤ (f.fill n).owed := by
  have hcount : f.count ≤ (f.fill n).count := by
    rw [Frame.count, Frame.count]
    show (if f.empty then 0 else f.commas + 1) ≤ f.commas + n + 1
    split <;> omega
  show (if f.callee.isSome then ((f.count - 1 : Nat) : Int) else 0) ≤
    if f.callee.isSome then (((f.fill n).count - 1 : Nat) : Int) else 0
  split <;> omega

/-- Each comma in a call asks for one more argument. -/
theorem owed_lt_owed_fill {f : Frame} (h : f.callee.isSome = true) : f.owed + 1 ≤ (f.fill 1).owed := by
  have hcount : f.count - 1 + 1 ≤ (f.fill 1).count - 1 := by
    rw [Frame.count, Frame.count]
    show (if f.empty then 0 else f.commas + 1) - 1 + 1 ≤ f.commas + 1 + 1 - 1
    split <;> omega
  show (if f.callee.isSome then ((f.count - 1 : Nat) : Int) else 0) + 1 ≤
    if f.callee.isSome then (((f.fill 1).count - 1 : Nat) : Int) else 0
  rw [if_pos h, if_pos h]
  omega

theorem balance_occupy_le (p : Parser) : p.balance ≤ p.occupy.balance := by
  have hframes : (p.frames.map Frame.balance).sum ≤
      ((p.frames.modifyHead (Frame.fill 0)).map Frame.balance).sum := by
    cases p.frames with
    | nil => exact Int.le_refl 0
    | cons f rest =>
      have hle := owed_le_owed_fill f 0
      rw [List.modifyHead_cons, List.map_cons, List.map_cons, List.sum_cons, List.sum_cons]
      show f.owed - gain (Parser.operations f.outer) + _ ≤
        (f.fill 0).owed - gain (Parser.operations f.outer) + _
      omega
  show (p.frames.map Frame.balance).sum - gain p.instrs - gain (Parser.operations p.waiting) ≤
    ((p.frames.modifyHead (Frame.fill 0)).map Frame.balance).sum - gain p.instrs -
      gain (Parser.operations p.waiting)
  omega

theorem balance_entered (p : Parser) (opened : Excerpt) :
    (p.entered opened).balance = p.occupy.balance := by
  have hempty : (Frame.mk opened p.callee 0 true p.waiting).owed = 0 := by
    show (if p.callee.isSome then ((0 - 1 : Nat) : Int) else 0) = 0
    split <;> rfl
  show (Frame.mk opened p.callee 0 true p.waiting).owed - gain (Parser.operations p.waiting) +
      (p.occupy.frames.map Frame.balance).sum - gain p.instrs - 0 =
    (p.occupy.frames.map Frame.balance).sum - gain p.instrs - gain (Parser.operations p.waiting)
  rw [hempty]
  omega

/-- A name of a function. -/
def IsFunction (t : Text) : Prop := ∃ f, standardTable.lookup t = some (.function f)

/-- Where the parenthesis of a call closes, the call takes what was owed. -/
theorem gain_ending {f : Frame} (h : ∀ name, f.callee = some name → IsFunction name.text) :
    gain (Parser.ending f) = -f.owed := by
  rw [Parser.ending, Frame.owed]
  cases hc : f.callee with
  | none => rfl
  | some name =>
    obtain ⟨g, hg⟩ := h name hc
    show (Instr.call name.text f.count).gain + 0 = -((f.count - 1 : Nat) : Int)
    -- a call without arguments counts as if it had one; no function accepts it
    have hmax : Nat.max 1 f.count = f.count - 1 + 1 := by
      show max 1 f.count = _
      omega
    rw [gain_call hg, hmax]
    omega

/-- Behind a closing parenthesis the balance is what it was in front of it. -/
theorem balance_closed {p q : Parser} {f : Frame} {rest : List Frame} (hf : p.frames = f :: rest)
    (hc : ∀ name, f.callee = some name → IsFunction name.text) (hframes : q.frames = rest)
    (hwaiting : q.waiting = f.outer)
    (hinstrs : q.instrs = p.instrs ++ Parser.operations p.waiting ++ Parser.ending f) :
    q.balance = p.balance := by
  have hframe : f.balance = f.owed - gain (Parser.operations f.outer) := rfl
  rw [Parser.balance, Parser.balance, hframes, hwaiting, hinstrs, hf, gain_append, gain_append,
    gain_ending hc, List.map_cons, List.sum_cons, hframe]
  omega

/-- Behind a comma in a call one more argument is owed. -/
theorem balance_comma {p q : Parser} {f : Frame} {rest : List Frame} (hf : p.frames = f :: rest)
    (hc : f.callee.isSome = true) (hframes : q.frames = f.fill 1 :: rest) (hwaiting : q.waiting = [])
    (hinstrs : q.instrs = p.instrs ++ Parser.operations p.waiting) : p.balance + 1 ≤ q.balance := by
  have howed := owed_lt_owed_fill hc
  have hframe : f.balance = f.owed - gain (Parser.operations f.outer) := rfl
  have hfill : (f.fill 1).balance = (f.fill 1).owed - gain (Parser.operations f.outer) := rfl
  have hnil : gain (Parser.operations []) = 0 := rfl
  rw [Parser.balance, Parser.balance, hframes, hwaiting, hinstrs, hf, gain_append, hnil, List.map_cons,
    List.map_cons, List.sum_cons, List.sum_cons, hframe, hfill]
  omega

end SignChart
