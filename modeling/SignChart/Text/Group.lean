/-
  Balanced groups of delimiters.

  A group starts at an opening delimiter and ends at the closing one that brings the count of open
  delimiters back to zero.  `untilClose` finds that end, `Group.forward?` and `Group.endingAfter`
  read a whole group from its opening or its closing delimiter, and `cut` takes a text apart at
  separators that stand outside every parenthesis group.

  A group that is never closed is no error: reading it forward gives the rest of the text, reading
  it backward everything before.  Cutting loses nothing: `joinCut_cut`.
-/
import SignChart.Text.Blank

namespace SignChart

/-! ## Reading a group -/

/-- Which end of the group reading starts at. -/
inductive Direction where
  | forward
  | backward
deriving DecidableEq, Repr

/-- A group in a text. -/
structure Group where
  /-- The text between the delimiters. -/
  content : Text
  /-- The text that lies beyond the far end of the group. -/
  beyond : Text
  /-- The far delimiter was found. -/
  closed : Bool
deriving DecidableEq, Repr

/-- The text up to the `closing` that leaves no group open, and the text after it, when `depth` more
groups than the one being read are open. -/
def untilClose (opening closing : Char) : Nat → Text → Option (Text × Text)
  | _, [] => none
  | depth, c :: r =>
    if c = opening then (untilClose opening closing (depth + 1) r).map fun (s, t) => (c :: s, t)
    else if c = closing then
      match depth with
      | 0 => some ([], r)
      | d + 1 => (untilClose opening closing d r).map fun (s, t) => (c :: s, t)
    else (untilClose opening closing depth r).map fun (s, t) => (c :: s, t)

/-- The groups that are open behind a character. -/
def depthAfter (opening closing : Char) (depth : Nat) (c : Char) : Nat :=
  if c = opening then depth + 1 else if c = closing then depth - 1 else depth

theorem untilClose_cons (o e : Char) (depth : Nat) (c : Char) (r : Text) :
    untilClose o e depth (c :: r) = if c ≠ o ∧ c = e ∧ depth = 0 then some ([], r)
      else (untilClose o e (depthAfter o e depth c) r).map fun p => (c :: p.1, p.2) := by
  rw [untilClose.eq_def, depthAfter]
  dsimp only
  by_cases ho : c = o
  · rw [if_pos ho, if_pos ho, if_neg fun h => h.1 ho]
  by_cases he : c = e
  · cases depth with
    | zero => rw [if_neg ho, if_pos he, if_pos ⟨ho, he, rfl⟩]
    | succ k => rw [if_neg ho, if_pos he, if_neg ho, if_pos he, if_neg fun h => absurd h.2.2 (Nat.succ_ne_zero k)]; rfl
  · rw [if_neg ho, if_neg he, if_neg ho, if_neg he, if_neg fun h => he h.2.1]

/-- What was read, the delimiter that ended it, and what is left make up the text. -/
theorem eq_of_untilClose {o c : Char} {d : Nat} {t s r : Text} (h : untilClose o c d t = some (s, r)) :
    t = s ++ c :: r := by
  induction t generalizing d s r with
  | nil => simp [untilClose] at h
  | cons x t ih =>
    simp only [untilClose] at h
    split at h
    · obtain ⟨⟨s', r'⟩, h', he⟩ := Option.map_eq_some_iff.1 h
      cases he
      simp [ih h']
    split at h
    · next hc =>
      subst hc
      cases d with
      | zero => cases h; rfl
      | succ d =>
        obtain ⟨⟨s', r'⟩, h', he⟩ := Option.map_eq_some_iff.1 h
        cases he
        simp [ih h']
    · obtain ⟨⟨s', r'⟩, h', he⟩ := Option.map_eq_some_iff.1 h
      cases he
      simp [ih h']

namespace Group

/-- The group that the text starts with. -/
def forward? (opening closing : Char) : Text → Option Group
  | [] => none
  | c :: r =>
    if c = opening then
      match untilClose opening closing 0 r with
      | some (content, beyond) => some ⟨content, beyond, true⟩
      | none => some ⟨r, [], false⟩
    else none

/-- The group that ends at a closing delimiter with the text `before` in front of it. -/
def endingAfter (opening closing : Char) (before : Text) : Group :=
  match untilClose closing opening 0 before.reverse with
  | some (content, beyond) => ⟨content.reverse, beyond.reverse, true⟩
  | none => ⟨before, [], false⟩

/-- The group of the text `before ++ rest` whose near delimiter is the first character of `rest`. -/
def at? (before rest : Text) (opening closing : Char) : Direction → Option Group
  | .forward => forward? opening closing rest
  | .backward => if rest.head? = some closing then some (endingAfter opening closing before) else none

/-- A parenthesis group at the start of the text. -/
def paren? : Text → Option Group := forward? '(' ')'

/-- A brace group at the start of the text. -/
def brace? : Text → Option Group := forward? '{' '}'

/-- A bracket group at the start of the text. -/
def bracket? : Text → Option Group := forward? '[' ']'

/-- What lies beyond a forward group is shorter than the text. -/
theorem length_beyond_lt {o c : Char} {t : Text} {g : Group} (h : forward? o c t = some g) :
    g.beyond.length < t.length := by
  cases t with
  | nil => simp [forward?] at h
  | cons x r =>
    simp only [forward?] at h
    split at h
    · split at h
      · next content beyond he =>
        cases h
        have := congrArg List.length (eq_of_untilClose he)
        simp at this ⊢
        omega
      · cases h; simp
    · simp at h

/-- So is its content. -/
theorem length_content_lt {o c : Char} {t : Text} {g : Group} (h : forward? o c t = some g) :
    g.content.length < t.length := by
  cases t with
  | nil => simp [forward?] at h
  | cons x r =>
    simp only [forward?] at h
    split at h
    · split at h
      · next content beyond he =>
        cases h
        have := congrArg List.length (eq_of_untilClose he)
        simp at this ⊢
        omega
      · cases h; simp
    · simp at h

/-- The group at byte `start` of a text, with the byte where reading stopped: just past the closing
delimiter going forward, at the opening delimiter going backward, or at the end of the text. -/
def find? (t : Text) (start : Nat) (opening closing : Char) (dir : Direction) : Option (Group × Nat) := do
  let (before, rest) ← Text.splitAtByte t start
  let g ← at? before rest opening closing dir
  match dir with
  | .forward => return (g, Text.byteSize t - Text.byteSize g.beyond)
  | .backward => return (g, Text.byteSize g.beyond)

end Group

/-! ## Outer parentheses -/

/-- The inside of a text that is exactly one closed parenthesis group. -/
def unwrap? (t : Text) : Option Text := do
  let g ← Group.paren? t
  if g.closed ∧ g.beyond = [] then some g.content else none

/-- The text is exactly one closed parenthesis group. -/
def isWrapped (t : Text) : Bool := (unwrap? t).isSome

theorem length_of_unwrap? {t s : Text} (h : unwrap? t = some s) : s.length < t.length := by
  simp only [unwrap?, Option.bind_eq_bind, Option.bind_eq_some_iff] at h
  obtain ⟨g, hg, h⟩ := h
  split at h
  · cases h; exact Group.length_content_lt hg
  · simp at h

theorem Text.length_trim_le (t : Text) : t.trim.length ≤ t.length := by
  have h (s : Text) : (s.dropWhile isBlank).length ≤ s.length :=
    (List.dropWhile_sublist _).length_le
  have h1 := h t
  have h2 := h (t.dropWhile isBlank).reverse
  simp only [trim, trimEnd, trimStart, List.length_reverse] at h2 ⊢
  omega

/-- A text without the parentheses around all of it, however many layers there are. -/
def stripParens (t : Text) : Text :=
  match _h : unwrap? t.trim with
  | some s => stripParens s
  | none => t.trim
termination_by t.length
decreasing_by
  have := length_of_unwrap? _h
  have := Text.length_trim_le t
  omega

/-! ## Cutting outside groups -/

/-- Where a separator may stand: it is told the character, the ones before and after it, and answers
whether the text is cut there. -/
abbrev Separator := Option Char → Char → Option Char → Bool

/-- The pieces of a text between the separators outside all parentheses: the first piece, then each
separator with the piece after it.  `depth` counts open parentheses and goes below zero where closing
ones have no partner; `prev` is the character before the text. -/
def cutFrom (sep : Separator) : Int → Option Char → Text → Text × List (Char × Text)
  | _, _, [] => ([], [])
  | depth, prev, c :: r =>
    let depth' := if c = '(' then depth + 1 else if c = ')' then depth - 1 else depth
    let (piece, more) := cutFrom sep depth' (some c) r
    if c ≠ '(' ∧ c ≠ ')' ∧ depth ≤ 0 ∧ sep prev c r.head? then ([], (c, piece) :: more)
    else (c :: piece, more)

/-- The pieces of a text between separators outside all parentheses. -/
def cut (sep : Separator) (t : Text) : Text × List (Char × Text) := cutFrom sep 0 none t

/-- Pieces put together again. -/
def joinCut (p : Text × List (Char × Text)) : Text := p.1 ++ p.2.flatMap fun (c, s) => c :: s

theorem joinCut_cutFrom (sep : Separator) (depth : Int) (prev : Option Char) (t : Text) :
    joinCut (cutFrom sep depth prev t) = t := by
  induction t generalizing depth prev with
  | nil => rfl
  | cons c r ih =>
    have := ih (if c = '(' then depth + 1 else if c = ')' then depth - 1 else depth) (some c)
    simp only [cutFrom, joinCut] at this ⊢
    split <;> simp [this]

/-- Cutting loses nothing. -/
theorem joinCut_cut (sep : Separator) (t : Text) : joinCut (cut sep t) = t :=
  joinCut_cutFrom sep 0 none t

/-- The character `sep`, wherever it stands. -/
def Separator.char (sep : Char) : Separator := fun _ c _ => c == sep

/-- The pieces of a text between the characters `sep` outside all parentheses. -/
def splitOutside (sep : Char) (t : Text) : List Text :=
  let (first, more) := cut (.char sep) t
  first :: more.map Prod.snd

/-- The bytes at which `cut` cuts, when the text starts at byte `start`. -/
def cutBytes (start : Nat) : Text × List (Char × Text) → List Nat
  | (_, []) => []
  | (piece, (c, next) :: more) =>
    let pos := start + Text.byteSize piece
    pos :: cutBytes (pos + c.utf8Size) (next, more)
termination_by p => p.2.length

/-- The bytes at which the character `sep` stands outside all parentheses. -/
def positionsOutside (sep : Char) (t : Text) : List Nat := cutBytes 0 (cut (.char sep) t)

end SignChart
