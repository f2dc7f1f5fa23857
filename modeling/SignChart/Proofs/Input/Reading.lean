/-
  How LaTeX notation is read around an exponent.

  What a part of a text is written as can depend on what stands in front of it: behind `\frac` a caret is a
  numerator, behind a backslash it is a name.  Everywhere else it is an operator, and then its surroundings are
  read without regard to it.

  1. **Groups.**  The search for the end of a group passes over a text in which all groups are closed
     (`Skipped`), and goes on behind a text that leaves the group open (`untilClose_append_of_none`).

  2. **Places.**  `Settled n t` says that behind `t`, whose first `n` arguments belong to a command in front of it,
     no command wants its name or an argument.  It has one constructor for each way on that the reader takes.

  3. **Surroundings.**  The text that a text is written into is of the form `X ++ w ++ Z` (`Frames`).  By induction on
     the place, all ways to write an exponent are put into the same surroundings (`latexToPlain_place`).
-/
import SignChart.Proofs.Text.Squeezing
import SignChart.Input.Latex

namespace SignChart

section
variable {c o e : Char} {depth n : Nat} {r s t w x y : Text}

/-! ## Groups -/

/-- A group that a text leaves open goes on behind it. -/
theorem untilClose_append_of_none (h : untilClose o e depth s = none) :
    ∃ k, ∀ r, untilClose o e depth (s ++ r) = (untilClose o e k r).map fun p => (s ++ p.1, p.2) := by
  induction s generalizing depth with
  | nil => exact ⟨depth, fun r => by simp⟩
  | cons c s ih =>
    rw [untilClose_cons] at h
    split at h
    · exact absurd h (by simp)
    · next hend =>
      obtain ⟨k, hk⟩ := ih (Option.map_eq_none_iff.1 h)
      refine ⟨k, fun r => ?_⟩
      rw [List.cons_append, untilClose_cons, if_neg hend, hk, Option.map_map]
      rfl

/-- A group that ends in a text ends at the same place whatever follows. -/
theorem untilClose_append_of_some (h : untilClose o e depth s = some (w, x)) (r : Text) :
    untilClose o e depth (s ++ r) = some (w, x ++ r) := by
  induction s generalizing depth w with
  | nil => exact absurd h (by simp [untilClose])
  | cons c s ih =>
    rw [untilClose_cons] at h
    rw [List.cons_append, untilClose_cons]
    split at h
    · next hend =>
      obtain ⟨rfl, rfl⟩ := Prod.mk.inj (Option.some.inj h)
      rw [if_pos hend]
    · next hend =>
      obtain ⟨p, hp, he⟩ := Option.map_eq_some_iff.1 h
      obtain ⟨rfl, rfl⟩ := Prod.mk.inj he
      rw [if_neg hend, ih hp]
      rfl

/-- The search for the end of a group passes over the text. -/
def Skipped (o e : Char) (w : Text) : Prop :=
  ∀ depth r, untilClose o e depth (w ++ r) = (untilClose o e depth r).map fun p => (w ++ p.1, p.2)

/-- A character that is no delimiter is passed over. -/
theorem Skipped.cons (hc : c ≠ o ∧ c ≠ e) (h : Skipped o e w) : Skipped o e (c :: w) := by
  intro depth r
  rw [List.cons_append, untilClose_cons, if_neg fun h => hc.2 h.2.1, depthAfter, if_neg hc.1, if_neg hc.2, h,
    Option.map_map]
  rfl

/-- A text without delimiters is passed over whole. -/
theorem skipped_of_forall_ne (h : ∀ c ∈ w, c ≠ o ∧ c ≠ e) : Skipped o e w := by
  induction w with
  | nil => exact fun depth r => by simp
  | cons c w ih => exact .cons (h c List.mem_cons_self) (ih fun d hd => h d (List.mem_cons_of_mem c hd))

/-- A closed group is passed over with its delimiters. -/
theorem Skipped.group (hne : e ≠ o) (h : Skipped o e w) : Skipped o e (o :: (w ++ [e])) := by
  intro depth r
  rw [List.cons_append, List.append_assoc, untilClose_cons, if_neg fun h => h.1 rfl, depthAfter, if_pos rfl, h,
    List.singleton_append, untilClose_cons, if_neg fun h => absurd h.2.2 (Nat.succ_ne_zero depth), depthAfter,
    if_neg hne, if_pos rfl, Option.map_map, Option.map_map]
  simp [Function.comp_def]

/-- A group that a text leaves open, with a text that is passed over behind it. -/
theorem forward?_of_open (h : untilClose o e 0 s = none) (r : Text) :
    ∃ inside beyond closed, inside <+: r ∧ ∀ y, Skipped o e y →
      Group.forward? o e (o :: (s ++ (y ++ r))) = some ⟨s ++ (y ++ inside), beyond, closed⟩ := by
  obtain ⟨k, hk⟩ := untilClose_append_of_none h
  cases hr : untilClose o e k r with
  | none =>
    refine ⟨r, [], false, List.prefix_rfl, fun y hy => ?_⟩
    rw [Group.forward?, if_pos rfl, hk, hy, hr]
    rfl
  | some p =>
    refine ⟨p.1, p.2, true, ⟨_, (eq_of_untilClose hr).symm⟩, fun y hy => ?_⟩
    rw [Group.forward?, if_pos rfl, hk, hy, hr]
    rfl

/-- A closed group is the same whatever follows, which stands behind it. -/
theorem forward?_append {g : Group} (h : Group.forward? o e t = some g) (hclosed : g.closed = true) (r : Text) :
    Group.forward? o e (t ++ r) = some { g with beyond := g.beyond ++ r } := by
  cases t with
  | nil => exact absurd h (by simp [Group.forward?])
  | cons c t =>
    rw [Group.forward?] at h
    split at h
    · next hc =>
      split at h
      · next w x hwx =>
        obtain rfl := Option.some.inj h
        rw [List.cons_append, Group.forward?, if_pos hc, untilClose_append_of_some hwx]
      · obtain rfl := Option.some.inj h
        exact absurd hclosed Bool.false_ne_true
    · exact absurd h (by simp)

/-- No group is read exactly where none begins. -/
theorem forward?_eq_none : Group.forward? o e t = none ↔ ∀ c ∈ t.head?, c ≠ o := by
  cases t with
  | nil => simp [Group.forward?]
  | cons c r =>
    rw [Group.forward?]
    split
    · next hc => exact ⟨fun h => by split at h <;> simp at h, fun h => absurd hc (h c rfl)⟩
    · next hc => exact ⟨fun _ d hd => Option.some.inj hd ▸ hc, fun _ => rfl⟩

/-! ## Names and arguments -/

/-- If the first text has more than blanks, only its blanks are dropped. -/
theorem trimStart_append (h : t.trimStart ≠ []) (r : Text) : Text.trimStart (t ++ r) = t.trimStart ++ r := by
  rw [Text.trimStart, List.dropWhile_append, if_neg (by simpa [Text.trimStart] using h)]
  rfl

theorem trimStart_append_of_nil (h : t.trimStart = []) (hr : Unindented r) : Text.trimStart (t ++ r) = r := by
  rw [Text.trimStart, List.dropWhile_append, if_pos (by simpa [Text.trimStart] using h)]
  exact trimStart_of_unindented hr

/-- A name ends where no letter follows, so what follows is left as it is. -/
theorem readName_append (ht : t ≠ []) (hr : ∀ c ∈ r.head?, isLetter c = false) :
    readName (t ++ r) = ((readName t).1, (readName t).2 ++ r) := by
  have htake : r.takeWhile isLetter = [] := by
    cases r with
    | nil => rfl
    | cons c r => exact List.takeWhile_cons_of_neg (by rw [hr c rfl]; exact Bool.false_ne_true)
  have hdrop : r.dropWhile isLetter = r := by
    have h := List.takeWhile_append_dropWhile (p := isLetter) (l := r)
    rwa [htake] at h
  have hword : (t ++ r).takeWhile isLetter = t.takeWhile isLetter := by
    rw [List.takeWhile_append]
    split
    · next h => rw [htake, List.append_nil, (List.takeWhile_prefix isLetter).eq_of_length h]
    · rfl
  have hrest : (t ++ r).dropWhile isLetter = t.dropWhile isLetter ++ r := by
    rw [List.dropWhile_append]
    split
    · next h => rw [hdrop, List.isEmpty_iff.1 h, List.nil_append]
    · rfl
  rw [readName, readName, hword, hrest]
  split
  · rfl
  · cases t with
    | nil => exact absurd rfl ht
    | cons c t => rfl

/-- An argument that ends in a text is the same whatever follows. -/
theorem readArgument_append (hsome : t.trimStart ≠ []) (hname : t.trimStart ≠ ['\\'])
    (hclosed : ∀ g ∈ Group.brace? t.trimStart, g.closed = true) (hr : ∀ c ∈ r.head?, isLetter c = false) :
    readArgument (t ++ r) = ((readArgument t).1, (readArgument t).2 ++ r) := by
  rw [readArgument, readArgument, trimStart_append hsome]
  cases hg : Group.brace? t.trimStart with
  | some g => rw [Group.brace?, forward?_append hg (hclosed g hg)]
  | none =>
    cases ht : t.trimStart with
    | nil => exact absurd ht hsome
    | cons c u =>
      have hc := forward?_eq_none.1 hg
      rw [ht] at hc hname
      rw [show Group.brace? (c :: u ++ r) = none from forward?_eq_none.2 hc]
      simp only [List.cons_append]
      split
      · next hslash =>
        have hu : u ≠ [] := fun h => hname (by rw [hslash, h])
        rw [readName_append hu hr]
      · rfl

/-- An index that is closed, or missing, is read the same whatever follows. -/
theorem readIndex_append (hclosed : ∀ g ∈ Group.bracket? t.trimStart, g.closed = true)
    (hr : ∀ c ∈ r.head?, c ≠ '[' ∧ isBlank c = false) :
    readIndex (t ++ r) = ((readIndex t).1, (readIndex t).2 ++ r) := by
  have hnone : Group.bracket? r = none := forward?_eq_none.2 fun c hc => (hr c hc).1
  rw [readIndex, readIndex]
  by_cases ht : t.trimStart = []
  · rw [trimStart_append_of_nil ht fun c hc => (hr c hc).2, hnone, ht]
    rfl
  · rw [trimStart_append ht]
    cases hg : Group.bracket? t.trimStart with
    | some g => rw [Group.bracket?, forward?_append hg (hclosed g hg)]
    | none =>
      have hc := forward?_eq_none.1 hg
      have hnone : Group.bracket? (t.trimStart ++ r) = none := by
        refine forward?_eq_none.2 fun c hc' => hc c ?_
        rwa [List.head?_append_of_ne_nil _ ht] at hc'
      rw [hnone]

/-! ## Commands -/

theorem latexToPlain_nil : latexToPlain [] = [] := by rw [latexToPlain]

/-- The arguments of a command that takes `n` of them, and the text behind them. -/
def parts : Nat → Text → List Text
  | 0, t => [t]
  | n + 1, t => (readArgument t).1 :: parts n (readArgument t).2

/-- What is written for a root. -/
def rootText (index : Option Text) (radicand : Text) : Text :=
  match index with
  | some i => parenthesized radicand.trim ++ '^' :: parenthesized ('1' :: '/' :: parenthesized i.trim)
  | none => "sqrt".toList ++ parenthesized radicand.trim

/-- What is written for the group of an exponent. -/
def grouped (t : Text) : Text := if isAtom t then t else parenthesized t

/-- A fraction is written as the quotient of its two arguments, and the text behind them is read by itself. -/
theorem latexToPlain_fraction {name num den rest : Text} (hread : readName r = (name, t))
    (h : LatexCommand.ofName name = .fraction) (hparts : (parts 2 t).map latexToPlain = [num, den, rest]) :
    latexToPlain ('\\' :: r) = quotient num.trim den.trim ++ rest := by
  simp only [parts, List.map_cons, List.map_nil, List.cons.injEq, and_true] at hparts
  obtain ⟨rfl, rfl, rfl⟩ := hparts
  rw [latexToPlain.eq_def]
  simp only [if_pos, hread, h]

/-- A root is written from its index, if it has one, and its argument. -/
theorem latexToPlain_root {name u radicand rest : Text} {index : Option Text} (hread : readName r = (name, t))
    (h : LatexCommand.ofName name = .root) (hindex : readIndex t = (index, u))
    (hparts : (parts 1 u).map latexToPlain = [radicand, rest]) :
    latexToPlain ('\\' :: r) = rootText (index.map latexToPlain) radicand ++ rest := by
  simp only [parts, List.map_cons, List.map_nil, List.cons.injEq, and_true] at hparts
  obtain ⟨rfl, rfl⟩ := hparts
  have hfirst : (readIndex (readName r).2).1 = index := by rw [hread, hindex]
  rw [latexToPlain.eq_def]
  simp only [if_pos, hread, h, hindex]
  split
  · next i hi => rw [hfirst.symm.trans hi]; rfl
  · next hi => rw [hfirst.symm.trans hi]; rfl

/-- The argument of a named operator is written as it is, without blanks around it. -/
theorem latexToPlain_operatorName {name arg rest : Text} (hread : readName r = (name, t))
    (h : LatexCommand.ofName name = .operatorName) (hparts : (parts 1 t).map latexToPlain = [arg, rest]) :
    latexToPlain ('\\' :: r) = arg.trim ++ rest := by
  simp only [parts, List.map_cons, List.map_nil, List.cons.injEq, and_true] at hparts
  obtain ⟨rfl, rfl⟩ := hparts
  rw [latexToPlain.eq_def]
  simp only [if_pos, hread, h]

/-- The text behind a point that stands for an invisible delimiter. -/
def withoutPoint (t : Text) : Text := if t.head? = some '.' then t.tail else t

/-- A delimiter that grows is written as the character behind the command, and not at all if that is a point. -/
theorem latexToPlain_delimiter {name : Text} (hread : readName r = (name, t))
    (h : LatexCommand.ofName name = .delimiter) :
    latexToPlain ('\\' :: r) = latexToPlain (withoutPoint t) := by
  rw [latexToPlain.eq_def]
  simp only [if_pos, hread, h]
  rfl

/-- A command that stands for a text is written as this text. -/
theorem latexToPlain_written {name : Text} (hread : readName r = (name, t))
    (h : LatexCommand.ofName name = .written w) : latexToPlain ('\\' :: r) = w ++ latexToPlain t := by
  rw [latexToPlain.eq_def]
  simp only [if_pos, hread, h]

theorem ne_slash_of_power (h : c = '^' ∨ c = '_') : c ≠ '\\' := by
  rcases h with rfl | rfl <;> decide

/-- An exponent or an index in braces is converted by itself and put in parentheses unless it is an atom. -/
theorem latexToPlain_group {content rest : Text} (hc : c = '^' ∨ c = '_')
    (hgroup : '{' ∈ (Text.trimStart r).head?) (hparts : (parts 1 r).map latexToPlain = [content, rest]) :
    latexToPlain (c :: r) = c :: grouped content.trim ++ rest := by
  cases hg : Group.brace? (Text.trimStart r) with
  | none => exact absurd rfl (forward?_eq_none.1 hg '{' hgroup)
  | some g =>
    simp only [parts, readArgument, hg, List.map_cons, List.map_nil, List.cons.injEq, and_true] at hparts
    obtain ⟨rfl, rfl⟩ := hparts
    rw [latexToPlain.eq_def]
    simp only [if_neg (ne_slash_of_power hc), if_pos hc]
    split
    · next g' hg' =>
      obtain rfl := Option.some.inj (hg.symm.trans hg')
      rfl
    · next hnone => exact absurd (hg.symm.trans hnone) (by simp)

/-- Without braces behind it a caret or an underscore stays as it is, and what follows is read on. -/
theorem latexToPlain_power (hc : c = '^' ∨ c = '_') (hgroup : ∀ d ∈ (Text.trimStart r).head?, d ≠ '{') :
    latexToPlain (c :: r) = c :: latexToPlain r := by
  rw [latexToPlain.eq_def]
  simp only [if_neg (ne_slash_of_power hc), if_pos hc]
  split
  · next g hg => exact absurd ((forward?_eq_none.2 hgroup : Group.brace? _ = none).symm.trans hg) (by simp)
  · rfl

/-- What is written for a character that is no part of a command. -/
def plainText (c : Char) : Text := if c = '{' ∨ c = '}' then [] else [c]

/-- All other characters are written one by one. -/
theorem latexToPlain_plain (hc : c ∉ ['\\', '^', '_']) : latexToPlain (c :: r) = plainText c ++ latexToPlain r := by
  simp only [List.mem_cons, List.not_mem_nil, or_false, not_or] at hc
  rw [latexToPlain.eq_def, plainText]
  simp only [if_neg hc.1, if_neg fun h : c = '^' ∨ c = '_' => h.elim hc.2.1 hc.2.2]
  split <;> rfl

/-- What comes first after the blanks is in the first text, or comes first in the second. -/
theorem head?_trimStart_append (h : c ∈ (Text.trimStart (s ++ r)).head?) :
    c ∈ s ∨ c ∈ (Text.trimStart r).head? := by
  by_cases hs : s.trimStart = []
  · rw [Text.trimStart, List.dropWhile_append, if_pos (by simpa [Text.trimStart] using hs)] at h
    exact Or.inr h
  · rw [trimStart_append hs, List.head?_append_of_ne_nil _ hs] at h
    exact Or.inl ((List.dropWhile_suffix isBlank).subset (List.mem_of_mem_head? h))

/-- No character begins a command, or a group. -/
def LatexFree (t : Text) : Prop := ∀ c ∈ t, c ∉ ['\\', '{', '}']

/-- Text without commands and groups stays as it is. -/
theorem latexToPlain_append (hs : LatexFree s) (hr : ∀ c ∈ (Text.trimStart r).head?, c ≠ '{') :
    latexToPlain (s ++ r) = s ++ latexToPlain r := by
  induction s with
  | nil => rfl
  | cons c s ih =>
    have hs' : LatexFree s := fun d hd => hs d (List.mem_cons_of_mem c hd)
    by_cases hc : c = '^' ∨ c = '_'
    · rw [List.cons_append, latexToPlain_power hc, ih hs']
      · rfl
      · intro d hd hbrace
        rcases head?_trimStart_append hd with hd | hd
        · exact hs' d hd (by simp [hbrace])
        · exact hr d hd hbrace
    · have hc' := hs c List.mem_cons_self
      simp only [List.mem_cons, List.not_mem_nil, or_false, not_or] at hc hc'
      rw [List.cons_append, latexToPlain_plain (by simp [hc, hc'.1]), ih hs', plainText,
        if_neg fun h => h.elim hc'.2.1 hc'.2.2]
      rfl

/-- A text without commands and groups is converted to itself. -/
theorem latexToPlain_of_latexFree (h : LatexFree t) : latexToPlain t = t := by
  have happend := latexToPlain_append (r := []) h fun c hc => absurd hc (by simp [Text.trimStart])
  rwa [List.append_nil, latexToPlain_nil, List.append_nil] at happend

/-- An argument in braces is what stands between them. -/
theorem readArgument_group (h : LatexFree s) (r : Text) : readArgument ('{' :: (s ++ '}' :: r)) = (s, r) := by
  have hskipped : Skipped '{' '}' s := skipped_of_forall_ne fun c hc =>
    ⟨fun he => h c hc (by simp [he]), fun he => h c hc (by simp [he])⟩
  rw [readArgument, trimStart_of_unindented (unindented_cons rfl _), Group.brace?, Group.forward?, if_pos rfl,
    hskipped, untilClose_cons, if_pos ⟨by decide, rfl, rfl⟩]
  simp

/-! ## Places -/

/-- Behind a text, whose first `n` arguments belong to a command in front of it, no command wants its name or an
argument.  What follows is read by itself, inside the groups that the text leaves open. -/
inductive Settled : Nat → Text → Prop where
  | nil : Settled 0 []
  | plain {c : Char} {r : Text} (hc : c ∉ ['\\', '^', '_']) (h : Settled 0 r) : Settled 0 (c :: r)
  | power {c : Char} {r : Text} (hc : c = '^' ∨ c = '_') (hgroup : ∀ d ∈ (Text.trimStart r).head?, d ≠ '{')
      (h : Settled 0 r) : Settled 0 (c :: r)
  | group {c : Char} {r : Text} (hc : c = '^' ∨ c = '_') (hgroup : '{' ∈ (Text.trimStart r).head?)
      (h : Settled 1 r) : Settled 0 (c :: r)
  | fraction {r : Text} (hr : r ≠ []) (hname : LatexCommand.ofName (readName r).1 = .fraction)
      (h : Settled 2 (readName r).2) : Settled 0 ('\\' :: r)
  /-- Behind the index of a root, which may be missing. -/
  | root {r : Text} (hr : r ≠ []) (hname : LatexCommand.ofName (readName r).1 = .root)
      (hclosed : ∀ g ∈ Group.bracket? (Text.trimStart (readName r).2), g.closed = true)
      (h : Settled 1 (readIndex (readName r).2).2) : Settled 0 ('\\' :: r)
  /-- In the index of a root. -/
  | index {r s : Text} (hr : r ≠ []) (hname : LatexCommand.ofName (readName r).1 = .root)
      (hstart : Text.trimStart (readName r).2 = '[' :: s) (hopen : untilClose '[' ']' 0 s = none)
      (h : Settled 0 s) : Settled 0 ('\\' :: r)
  | operatorName {r : Text} (hr : r ≠ []) (hname : LatexCommand.ofName (readName r).1 = .operatorName)
      (h : Settled 1 (readName r).2) : Settled 0 ('\\' :: r)
  | delimiter {r : Text} (hr : r ≠ []) (hname : LatexCommand.ofName (readName r).1 = .delimiter)
      (h : Settled 0 (withoutPoint (readName r).2)) : Settled 0 ('\\' :: r)
  | written {r w : Text} (hr : r ≠ []) (hname : LatexCommand.ofName (readName r).1 = .written w)
      (h : Settled 0 (readName r).2) : Settled 0 ('\\' :: r)
  /-- In an argument. -/
  | inside {n : Nat} {t s : Text} (hstart : t.trimStart = '{' :: s) (hopen : untilClose '{' '}' 0 s = none)
      (h : Settled 0 s) : Settled (n + 1) t
  /-- Behind an argument. -/
  | behind {n : Nat} {t : Text} (hsome : t.trimStart ≠ []) (hname : t.trimStart ≠ ['\\'])
      (hclosed : ∀ g ∈ Group.brace? t.trimStart, g.closed = true) (h : Settled n (readArgument t).2) :
      Settled (n + 1) t

/-! ## Surroundings -/

/-- What can be written for an exponent: a caret and what is raised to, without a blank at its end. -/
structure IsPower (w : Text) : Prop where
  caret : '^' ∈ w.head?
  solid : ∃ c ∈ w.getLast?, isBlank c = false

/-- A function that puts an exponent into some surroundings. -/
def Frames (f : Text → Text) : Prop := ∃ x z, ∀ w, IsPower w → f w = x ++ (w ++ z)

/-- In front of a character, only the blanks of the first text are dropped. -/
theorem trimStart_append_of_solid (hr : ∃ c ∈ r.head?, isBlank c = false) (t : Text) :
    Text.trimStart (t ++ r) = t.trimStart ++ r := by
  by_cases ht : t.trimStart = []
  · obtain ⟨c, hc, hsolid⟩ := hr
    rw [trimStart_append_of_nil ht fun d hd => Option.mem_unique hc hd ▸ hsolid, ht, List.nil_append]
  · exact trimStart_append ht r

/-- Dropping the blanks around a text with an exponent in it leaves the exponent alone. -/
theorem IsPower.trim (hw : IsPower w) (x z : Text) :
    Text.trim (x ++ (w ++ z)) = x.trimStart ++ (w ++ z.trimEnd) := by
  have hhead : ∃ c ∈ (w ++ z).head?, isBlank c = false :=
    ⟨'^', List.mem_head?_append_of_mem_head? hw.caret, rfl⟩
  have hlast : ∃ c ∈ (x.trimStart ++ w).reverse.head?, isBlank c = false := by
    obtain ⟨c, hc, hsolid⟩ := hw.solid
    rw [List.head?_reverse]
    exact ⟨c, List.mem_getLast?_append_of_mem_getLast? hc, hsolid⟩
  have hend := congrArg List.reverse (trimStart_append_of_solid hlast z.reverse)
  rw [Text.trim, trimStart_append_of_solid hhead, ← List.append_assoc, ← List.append_assoc, Text.trimEnd,
    List.reverse_append, ← Text.trimStart, hend, List.reverse_append, List.reverse_reverse]
  rfl

theorem Frames.here (z : Text) : Frames fun w => w ++ z := ⟨[], z, fun _ _ => rfl⟩

theorem Frames.append_left {f : Text → Text} (h : Frames f) (t : Text) : Frames fun w => t ++ f w := by
  obtain ⟨x, z, h⟩ := h
  exact ⟨t ++ x, z, fun w hw => by dsimp only; rw [h w hw, List.append_assoc]⟩

theorem Frames.append_right {f : Text → Text} (h : Frames f) (t : Text) : Frames fun w => f w ++ t := by
  obtain ⟨x, z, h⟩ := h
  exact ⟨x, z ++ t, fun w hw => by dsimp only; rw [h w hw, List.append_assoc, List.append_assoc]⟩

/-- Parentheses are further surroundings, and so are the blanks that are dropped and the texts of the commands below.
-/
theorem Frames.parenthesized {f : Text → Text} (h : Frames f) : Frames fun w => parenthesized (f w) :=
  (h.append_right [')']).append_left ['(']

theorem Frames.trim {f : Text → Text} (h : Frames f) : Frames fun w => (f w).trim := by
  obtain ⟨x, z, h⟩ := h
  exact ⟨x.trimStart, z.trimEnd, fun w hw => by dsimp only; rw [h w hw, hw.trim]⟩

/-- Something with an exponent in it is no atom. -/
theorem Frames.grouped {f : Text → Text} (h : Frames f) : Frames fun w => grouped (f w) := by
  obtain ⟨x, z, hf⟩ := h.parenthesized
  obtain ⟨x', z', hf'⟩ := h
  refine ⟨x, z, fun w hw => ?_⟩
  have hcaret : '^' ∈ f w := by
    rw [hf' w hw]
    exact List.mem_append_right x' (List.mem_append_left z' (List.mem_of_mem_head? hw.caret))
  have hatom : isAtom (f w) = false := by
    rw [isAtom, Bool.and_eq_false_iff]
    exact Or.inr (List.all_eq_false.2 ⟨'^', hcaret, by decide⟩)
  exact (if_neg (by rw [hatom]; exact Bool.false_ne_true)).trans (hf w hw)

/-- The texts are two ways to write an exponent, `y` in LaTeX and `w` in plain notation. -/
structure Written (y w : Text) : Prop where
  isPower : IsPower w
  caret : '^' ∈ y.head?
  braces : Skipped '{' '}' y
  brackets : Skipped '[' ']' y
  reads : ∀ r, latexToPlain (y ++ r) = w ++ latexToPlain r

theorem Written.head?_append (h : Written y w) (r : Text) : (y ++ r).head? = some '^' :=
  List.mem_head?_append_of_mem_head? h.caret

/-- Behind the text, all ways to write an exponent are put into the same surroundings. -/
def Surrounds (n : Nat) (t : Text) : Prop :=
  ∀ r, ∃ ls f rs, ls.length + rs.length = n ∧ Frames f ∧
    ∀ y w, Written y w → (parts n (t ++ (y ++ r))).map latexToPlain = ls ++ f w :: rs

/-- Outside all arguments it is the one text behind the place that has the exponent. -/
theorem surrounds_zero : Surrounds 0 t ↔
    ∀ r, ∃ f, Frames f ∧ ∀ y w, Written y w → latexToPlain (t ++ (y ++ r)) = f w := by
  constructor
  · intro h r
    obtain ⟨ls, f, rs, hlength, hf, h⟩ := h r
    obtain ⟨hls, hrs⟩ := Nat.add_eq_zero_iff.1 hlength
    rw [List.eq_nil_of_length_eq_zero hls, List.eq_nil_of_length_eq_zero hrs] at h
    exact ⟨f, hf, fun y w hw => (List.cons.inj (h y w hw)).1⟩
  · intro h r
    obtain ⟨f, hf, h⟩ := h r
    exact ⟨[], f, [], rfl, hf, fun y w hw => congrArg (fun t => [t]) (h y w hw)⟩

/-- Of an argument and the text behind it, one has the exponent. -/
theorem surrounds_one (h : Surrounds 1 t) (r : Text) : ∃ f, Frames f ∧ ∃ u,
    (∀ y w, Written y w → (parts 1 (t ++ (y ++ r))).map latexToPlain = [f w, u]) ∨
      ∀ y w, Written y w → (parts 1 (t ++ (y ++ r))).map latexToPlain = [u, f w] := by
  obtain ⟨ls, f, rs, hlength, hf, h⟩ := h r
  refine ⟨f, hf, ?_⟩
  rcases ls with _ | ⟨a, ls⟩
  · obtain ⟨u, rfl⟩ := List.length_eq_one_iff.1 ((Nat.zero_add _).symm.trans hlength)
    exact ⟨u, Or.inl h⟩
  · rw [List.length_cons] at hlength
    rw [List.eq_nil_of_length_eq_zero (show ls.length = 0 by omega),
      List.eq_nil_of_length_eq_zero (show rs.length = 0 by omega)] at h
    exact ⟨a, Or.inr h⟩

/-- At the front of a text an exponent is followed by the rest. -/
theorem surrounds_nil : Surrounds 0 [] :=
  surrounds_zero.2 fun r => ⟨fun w => w ++ latexToPlain r, .here _, fun _ _ hw => hw.reads r⟩

/-- Behind any other character the place is that of the text after it. -/
theorem Surrounds.plain (hc : c ∉ ['\\', '^', '_']) (h : Surrounds 0 r) : Surrounds 0 (c :: r) :=
  surrounds_zero.2 fun q => by
    obtain ⟨f, hf, h⟩ := surrounds_zero.1 h q
    exact ⟨_, hf.append_left (plainText c), fun y w hw => by rw [List.cons_append, latexToPlain_plain hc, h y w hw]⟩

/-- What the text behind a text begins with, blanks aside, if it is an exponent. -/
theorem Written.head?_trimStart (h : Written y w) (t r : Text) :
    (Text.trimStart (t ++ (y ++ r))).head? = t.trimStart.head?.or (some '^') := by
  by_cases ht : t.trimStart = []
  · rw [trimStart_append_of_nil ht fun c hc => Option.some.inj ((h.head?_append r).symm.trans hc) ▸ rfl, ht,
      h.head?_append]
    rfl
  · rw [trimStart_append ht, List.head?_append, h.head?_append]

/-- A caret or an underscore that has no group behind it is written, and the exponent comes later. -/
theorem Surrounds.power (hc : c = '^' ∨ c = '_') (hgroup : ∀ d ∈ (Text.trimStart r).head?, d ≠ '{')
    (h : Surrounds 0 r) : Surrounds 0 (c :: r) :=
  surrounds_zero.2 fun q => by
    obtain ⟨f, hf, h⟩ := surrounds_zero.1 h q
    refine ⟨_, hf.append_left [c], fun y w hw => ?_⟩
    rw [List.cons_append, latexToPlain_power hc, h y w hw]
    · rfl
    · intro d hd
      rw [hw.head?_trimStart] at hd
      rcases Option.or_eq_some_iff.1 hd with hd | ⟨_, hd⟩
      · exact hgroup d hd
      · obtain rfl := Option.some.inj hd
        decide

/-- An exponent inside the braces of another, or behind them: both are read by themselves. -/
theorem Surrounds.group (hc : c = '^' ∨ c = '_') (hgroup : '{' ∈ (Text.trimStart r).head?)
    (h : Surrounds 1 r) : Surrounds 0 (c :: r) :=
  surrounds_zero.2 fun q => by
    have hstart : ∀ {y w}, Written y w → '{' ∈ (Text.trimStart (r ++ (y ++ q))).head? := fun hw => by
      rw [hw.head?_trimStart, Option.mem_def.1 hgroup]
      rfl
    obtain ⟨f, hf, u, h | h⟩ := surrounds_one h q
    · exact ⟨_, (hf.trim.grouped.append_left [c]).append_right u, fun y w hw =>
        latexToPlain_group hc (hstart hw) (h y w hw)⟩
    · exact ⟨_, hf.append_left (c :: SignChart.grouped u.trim), fun y w hw =>
        latexToPlain_group hc (hstart hw) (h y w hw)⟩

/-- The name of a command ends before an exponent. -/
theorem Written.readName_append (h : Written y w) (hr : r ≠ []) (q : Text) :
    readName (r ++ (y ++ q)) = ((readName r).1, (readName r).2 ++ (y ++ q)) :=
  SignChart.readName_append hr fun d hd => by
    obtain rfl := Option.some.inj ((h.head?_append q).symm.trans hd)
    rfl

theorem Frames.quotient_left {f : Text → Text} (h : Frames f) (den : Text) :
    Frames fun w => quotient (f w) den :=
  h.parenthesized.append_right ('/' :: SignChart.parenthesized den)

theorem Frames.quotient_right {f : Text → Text} (h : Frames f) (num : Text) :
    Frames fun w => quotient num (f w) :=
  (h.parenthesized.append_left ['/']).append_left (SignChart.parenthesized num)

theorem Frames.radicand {f : Text → Text} (h : Frames f) : ∀ index, Frames fun w => rootText index (f w)
  | none => h.trim.parenthesized.append_left "sqrt".toList
  | some i => h.trim.parenthesized.append_right ('^' :: SignChart.parenthesized
      ('1' :: '/' :: SignChart.parenthesized i.trim))

theorem Frames.index {f : Text → Text} (h : Frames f) (radicand : Text) :
    Frames fun w => rootText (some (f w)) radicand :=
  ((h.trim.parenthesized.append_left ['1', '/']).parenthesized.append_left ['^']).append_left
    (SignChart.parenthesized radicand.trim)

/-- The exponent may be in the numerator, in the denominator or behind the fraction. -/
theorem Surrounds.fraction (hr : r ≠ []) (hname : LatexCommand.ofName (readName r).1 = .fraction)
    (h : Surrounds 2 (readName r).2) : Surrounds 0 ('\\' :: r) :=
  surrounds_zero.2 fun q => by
    obtain ⟨ls, f, rs, hlength, hf, h⟩ := h q
    have hread : ∀ {y w num den rest}, Written y w →
        (parts 2 ((readName r).2 ++ (y ++ q))).map latexToPlain = [num, den, rest] →
          latexToPlain ('\\' :: r ++ (y ++ q)) = quotient num.trim den.trim ++ rest := fun hw h =>
      latexToPlain_fraction (hw.readName_append hr q) hname h
    -- the exponent stands in the numerator, in the denominator or behind the fraction
    rcases ls with _ | ⟨num, _ | ⟨den, ls⟩⟩
    · obtain ⟨den, rest, rfl⟩ := List.length_eq_two.1 ((Nat.zero_add _).symm.trans hlength)
      exact ⟨_, (hf.trim.quotient_left den.trim).append_right rest, fun y w hw => hread hw (h y w hw)⟩
    · obtain ⟨rest, rfl⟩ := List.length_eq_one_iff.1 (show rs.length = 1 by simp at hlength; omega)
      exact ⟨_, (hf.trim.quotient_right num.trim).append_right rest, fun y w hw => hread hw (h y w hw)⟩
    · simp only [List.length_cons] at hlength
      obtain rfl := List.eq_nil_of_length_eq_zero (show ls.length = 0 by omega)
      obtain rfl := List.eq_nil_of_length_eq_zero (show rs.length = 0 by omega)
      exact ⟨_, hf.append_left (quotient num.trim den.trim), fun y w hw => hread hw (h y w hw)⟩

/-- The exponent may be in the name of an operator or behind it. -/
theorem Surrounds.operatorName (hr : r ≠ []) (hname : LatexCommand.ofName (readName r).1 = .operatorName)
    (h : Surrounds 1 (readName r).2) : Surrounds 0 ('\\' :: r) :=
  surrounds_zero.2 fun q => by
    obtain ⟨f, hf, u, h | h⟩ := surrounds_one h q
    · exact ⟨_, hf.trim.append_right u, fun y w hw =>
        latexToPlain_operatorName (hw.readName_append hr q) hname (h y w hw)⟩
    · exact ⟨_, hf.append_left u.trim, fun y w hw =>
        latexToPlain_operatorName (hw.readName_append hr q) hname (h y w hw)⟩

/-- Behind an index that is closed, or missing, the exponent may be in the radicand or behind it. -/
theorem Surrounds.root (hr : r ≠ []) (hname : LatexCommand.ofName (readName r).1 = .root)
    (hclosed : ∀ g ∈ Group.bracket? (Text.trimStart (readName r).2), g.closed = true)
    (h : Surrounds 1 (readIndex (readName r).2).2) : Surrounds 0 ('\\' :: r) :=
  surrounds_zero.2 fun q => by
    have hindex : ∀ {y w}, Written y w → readIndex ((readName r).2 ++ (y ++ q)) =
        ((readIndex (readName r).2).1, (readIndex (readName r).2).2 ++ (y ++ q)) := fun hw =>
      readIndex_append hclosed fun c hc => by
        obtain rfl := Option.some.inj ((hw.head?_append q).symm.trans hc)
        exact ⟨by decide, rfl⟩
    obtain ⟨f, hf, u, h | h⟩ := surrounds_one h q
    · exact ⟨_, (hf.radicand _).append_right u, fun y w hw =>
        latexToPlain_root (hw.readName_append hr q) hname (hindex hw) (h y w hw)⟩
    · exact ⟨_, hf.append_left (rootText _ u), fun y w hw =>
        latexToPlain_root (hw.readName_append hr q) hname (hindex hw) (h y w hw)⟩

/-- An index that the text leaves open is a text by itself, with the exponent in it. -/
theorem Surrounds.index (hr : r ≠ []) (hname : LatexCommand.ofName (readName r).1 = .root)
    (hstart : Text.trimStart (readName r).2 = '[' :: s) (hopen : untilClose '[' ']' 0 s = none)
    (h : Surrounds 0 s) : Surrounds 0 ('\\' :: r) :=
  surrounds_zero.2 fun q => by
    obtain ⟨inside, beyond, closed, _, hgroup⟩ := forward?_of_open hopen q
    obtain ⟨f, hf, h⟩ := surrounds_zero.1 h inside
    refine ⟨_, (hf.index (latexToPlain (readArgument beyond).1)).append_right
      (latexToPlain (readArgument beyond).2), fun y w hw => ?_⟩
    have hindex : readIndex ((readName r).2 ++ (y ++ q)) = (some (s ++ (y ++ inside)), beyond) := by
      rw [readIndex, trimStart_append (by rw [hstart]; simp), hstart, List.cons_append, Group.bracket?,
        hgroup y hw.brackets]
    rw [List.cons_append, latexToPlain_root (hw.readName_append hr q) hname hindex rfl, Option.map_some, h y w hw]

/-- Behind a delimiter, and its point if it has one, the place is that of the text after it. -/
theorem Surrounds.delimiter (hr : r ≠ []) (hname : LatexCommand.ofName (readName r).1 = .delimiter)
    (h : Surrounds 0 (withoutPoint (readName r).2)) : Surrounds 0 ('\\' :: r) :=
  surrounds_zero.2 fun q => by
    obtain ⟨f, hf, h⟩ := surrounds_zero.1 h q
    refine ⟨f, hf, fun y w hw => ?_⟩
    have hpoint : withoutPoint ((readName r).2 ++ (y ++ q)) = withoutPoint (readName r).2 ++ (y ++ q) := by
      cases (readName r).2 with
      | nil =>
        rw [withoutPoint, List.nil_append, hw.head?_append]
        rfl
      | cons c t =>
        rw [withoutPoint, withoutPoint, List.cons_append, List.head?_cons, List.head?_cons]
        by_cases hc : some c = some '.'
        · rw [if_pos hc, if_pos hc]
          rfl
        · rw [if_neg hc, if_neg hc]
          rfl
    rw [List.cons_append, latexToPlain_delimiter (hw.readName_append hr q) hname, hpoint, h y w hw]

/-- The text that a command stands for comes in front of what follows. -/
theorem Surrounds.written {u : Text} (hr : r ≠ []) (hname : LatexCommand.ofName (readName r).1 = .written u)
    (h : Surrounds 0 (readName r).2) : Surrounds 0 ('\\' :: r) :=
  surrounds_zero.2 fun q => by
    obtain ⟨f, hf, h⟩ := surrounds_zero.1 h q
    refine ⟨_, hf.append_left u, fun y w hw => ?_⟩
    rw [List.cons_append, latexToPlain_written (hw.readName_append hr q) hname, h y w hw]

/-- In an argument that the text leaves open: this is the one that has the exponent, and the arguments after it are
what they are. -/
theorem Surrounds.inside (hstart : t.trimStart = '{' :: s) (hopen : untilClose '{' '}' 0 s = none)
    (h : Surrounds 0 s) : Surrounds (n + 1) t := by
  intro q
  obtain ⟨inside, beyond, closed, _, hgroup⟩ := forward?_of_open hopen q
  obtain ⟨f, hf, h⟩ := surrounds_zero.1 h inside
  refine ⟨[], f, (parts n beyond).map latexToPlain, ?_, hf, fun y w hw => ?_⟩
  · have hlength : ∀ (n : Nat) (t : Text), (parts n t).length = n + 1 := by
      intro n
      induction n with
      | zero => exact fun _ => rfl
      | succ n ih => exact fun t => congrArg (· + 1) (ih _)
    rw [List.length_map, hlength]
    exact Nat.zero_add _
  · have hargument : readArgument (t ++ (y ++ q)) = (s ++ (y ++ inside), beyond) := by
      rw [readArgument, trimStart_append (by rw [hstart]; simp), hstart, List.cons_append, Group.brace?,
        hgroup y hw.braces]
    rw [parts, hargument, List.map_cons, h y w hw]
    rfl

/-- An argument that the text closes has no exponent in it; the place is that behind it. -/
theorem Surrounds.behind (hsome : t.trimStart ≠ []) (hname : t.trimStart ≠ ['\\'])
    (hclosed : ∀ g ∈ Group.brace? t.trimStart, g.closed = true) (h : Surrounds n (readArgument t).2) :
    Surrounds (n + 1) t := by
  intro q
  obtain ⟨ls, f, rs, hlength, hf, h⟩ := h q
  refine ⟨latexToPlain (readArgument t).1 :: ls, f, rs, ?_, hf, fun y w hw => ?_⟩
  · rw [List.length_cons]
    omega
  · have hargument := readArgument_append (r := y ++ q) hsome hname hclosed fun c hc =>
      Option.some.inj ((hw.head?_append q).symm.trans hc) ▸ rfl
    rw [parts, hargument, List.map_cons, h y w hw]
    rfl

/-- By induction on the place, with one of the lemmas above for each way on. -/
theorem Settled.surrounds (h : Settled n t) : Surrounds n t := by
  induction h with
  | nil => exact surrounds_nil
  | plain hc _ ih => exact ih.plain hc
  | power hc hgroup _ ih => exact ih.power hc hgroup
  | group hc hgroup _ ih => exact ih.group hc hgroup
  | fraction hr hname _ ih => exact ih.fraction hr hname
  | root hr hname hclosed _ ih => exact ih.root hr hname hclosed
  | index hr hname hstart hopen _ ih => exact ih.index hr hname hstart hopen
  | operatorName hr hname _ ih => exact ih.operatorName hr hname
  | delimiter hr hname _ ih => exact ih.delimiter hr hname
  | written hr hname _ ih => exact ih.written hr hname
  | inside hstart hopen _ ih => exact ih.inside hstart hopen
  | behind hsome hname hclosed _ ih => exact ih.behind hsome hname hclosed

/-- **Exponents in a text.**  Where a caret is an operator, every way to write an exponent is put into the same
surroundings. -/
theorem latexToPlain_place (h : Settled 0 t) (r : Text) :
    ∃ x z, ∀ y w, Written y w → latexToPlain (t ++ (y ++ r)) = x ++ (w ++ z) := by
  obtain ⟨f, ⟨x, z, hf⟩, h⟩ := surrounds_zero.1 h.surrounds r
  exact ⟨x, z, fun y w hw => (h y w hw).trans (hf w hw.isPower)⟩

end

end SignChart
