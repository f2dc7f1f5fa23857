/-
  The search for zeros that taking an expression apart does not show.

  A function is sampled on grids.  Where it changes sign between two samples the zero is found by halving
  (`bisect`).  A zero of even multiplicity changes no sign, so a sample close to zero is looked at more
  closely (`stationaryZero?`): first at places left and right of it, then for a minimum of the
  magnitude that reaches zero.

  `candidates` lists all that a scan finds, `findZeros` keeps of them those that are new.  Arguments and
  values of a function may be different kinds of numbers where the search does not mix them.
-/
import SignChart.Point

namespace SignChart
variable {α β : Type} [Scalar α] [Scalar β]

/-! ## Where to look -/

/-- The half-widths of the intervals that are always scanned. -/
def baseRanges : List α := [10.0, 25.0, 50.0]

/-- The half-widths of the intervals to scan. Points further out add one that reaches past them, up
to 100. -/
def searchRanges (existing : List (Point α)) : List α :=
  let magnitudes := (existing.map fun p => Scalar.abs p.value).filter Scalar.isFinite
  let extra := Scalar.min (magnitudes.foldl Scalar.max 0.0 + (5.0 : α)) 100.0
  if (50.0 : α) < extra then baseRanges ++ [extra] else baseRanges

/-- The number of steps of a grid. -/
def gridSteps : Nat := 600

/-- A grid point. The product comes before the quotient, so that whole numbers are met exactly. -/
@[specialize] def gridPoint (range : α) (i : Nat) : α :=
  -range + (2.0 : α) * range * Scalar.ofNat i / Scalar.ofNat gridSteps

/-- The points of a grid, ends included. -/
def grid (range : α) : List α := (List.range (gridSteps + 1)).map (gridPoint range)

/-- The function is zero wherever it is finite on the first grid, and is finite somewhere on it. -/
@[specialize] def vanishes (f : α → β) : Bool :=
  let values := ((grid (10.0 : α)).map f).filter Scalar.isFinite
  !values.isEmpty && values.all (· == (0.0 : β))

/-! ## Halving -/

/-- A place between two others where the function is finite, with its value: the middle, or else a
quarter of the way from either end. -/
@[specialize] def between? (f : α → β) (lo hi : α) : Option (α × β) :=
  [(lo + hi) / (2.0 : α), lo + (hi - lo) * (0.25 : α), lo + (hi - lo) * (0.75 : α)].findSome? fun t =>
    let y := f t
    if Scalar.isFinite y then some (t, y) else none

/-- Halves the interval from `lo`, where the function has the sign `s`, to `hi` up to `fuel` times,
and stops at a value or a width that is small enough. A place where the function is larger than `limit`
is no zero but a pole. -/
@[specialize] def bisectFrom (f : α → β) (limit : β) (s : Sign) : Nat → α → α → Option α
  | 0, lo, hi =>
    let mid := (lo + hi) / (2.0 : α)
    if Scalar.abs (f mid) ≤ limit then some mid else none
  | fuel + 1, lo, hi =>
    match between? f lo hi with
    | none => none
    | some (mid, y) =>
      if Scalar.abs y < (1e-7 : β) ∨ hi - lo < (1e-6 : α) then
        if Scalar.abs y ≤ limit then some mid else none
      else if Sign.of y = s then bisectFrom f limit s fuel mid hi
      else bisectFrom f limit s fuel lo mid

/-- How often an interval is halved. -/
def halvings : Nat := 60

/-- The zero between `a` and `b`, if the function changes sign there and has no pole. -/
@[specialize] def bisect (f : α → β) (a b : α) : Option α :=
  let lo := Scalar.min a b
  let hi := Scalar.max a b
  let fLo := f lo
  let fHi := f hi
  if !Scalar.isFinite fLo || !Scalar.isFinite fHi then none
  else if fLo == (0.0 : β) then some lo
  else if fHi == (0.0 : β) then some hi
  else bisectFrom f (Scalar.max (Scalar.abs fLo) (Scalar.abs fHi)) (.of fLo) halvings lo hi

/-! ## Minima of the magnitude -/

/-- Thirds the interval from `lo` to `hi` up to `fuel` times, keeping the part with the lesser
magnitude. -/
@[specialize] def polishFrom (f : α → α) : Nat → α → α → α
  | 0, lo, hi => (lo + hi) / (2.0 : α)
  | fuel + 1, lo, hi =>
    let third := (hi - lo) / (3.0 : α)
    let a := lo + third
    let b := hi - third
    let fa := Scalar.abs (f a)
    let fb := Scalar.abs (f b)
    if !Scalar.isFinite fa || !Scalar.isFinite fb then (lo + hi) / (2.0 : α)
    else if fa ≤ fb then polishFrom f fuel lo b
    else polishFrom f fuel a hi

/-- The number of steps of a window. -/
def windowSteps : Nat := 100

/-- The least of some values with their places, the first of equals. -/
@[specialize] def lowest? : List (α × α) → Option (α × α)
  | [] => none
  | p :: rest =>
    some (rest.foldl (fun best q => if (Scalar.order best.2 q.2).isGT then q else best) p)

/-- A minimum of the magnitude within `width` of `x` that is clearly below both ends and touches
zero. -/
@[specialize] def minimumWithin? (f : α → α) (x width : α) : Option α :=
  let magnitude (t : α) : α := Scalar.abs (f t)
  let left := magnitude (x - width)
  let right := magnitude (x + width)
  if !Scalar.isFinite left || !Scalar.isFinite right then none
  else
    let step := (2.0 : α) * width / Scalar.ofNat windowSteps
    let places := (List.range (windowSteps + 1)).map fun i => x - width + step * Scalar.ofNat i
    let values := (places.map fun t => (t, magnitude t)).filter fun p => Scalar.isFinite p.2
    match lowest? values with
    | none => none
    | some (t, y) =>
      if y < left - (1e-3 : α) ∧ y < right - (1e-3 : α) ∧ y < (1e-4 : α) then
        some (polishFrom f halvings (t - step) (t + step))
      else none

/-- A minimum of the magnitude near `x` that touches zero. -/
@[specialize] def localMinimum? (f : α → α) (x : α) : Option α :=
  ([0.5, 0.25, 0.1, 0.05] : List α).findSome? (minimumWithin? f x)

/-! ## A closer look -/

/-- A zero that a scan found. -/
structure Candidate (α : Type) where
  value : α
  multiplicity : Nat
deriving DecidableEq, Repr

/-- The distance at which a function is looked at beside an exact zero. -/
def touchOffset : α := 1e-3

/-- The multiplicity of an exact zero at `x`: two if the function has one sign on both sides. -/
@[specialize] def touchMultiplicity (f : α → α) (x : α) : Nat :=
  let left := f (x - touchOffset)
  let right := f (x + touchOffset)
  if Scalar.isFinite left ∧ Scalar.isFinite right ∧ !(left == (0.0 : α)) ∧ !(right == (0.0 : α))
      ∧ Sign.of left = Sign.of right then 2
  else 1

/-- The zero that the values at the distance `h` from `x` show, where `y` is the value at `x`: an exact
one, a change of sign, or one that is touched at `x`. -/
@[specialize] def zeroAround? (f : α → α) (x y h : α) : Option (Candidate α) :=
  let left := f (x - h)
  let right := f (x + h)
  if !Scalar.isFinite left || !Scalar.isFinite right then none
  else if left == (0.0 : α) then some ⟨x - h, 1⟩
  else if right == (0.0 : α) then some ⟨x + h, 1⟩
  else if Sign.of left ≠ Sign.of right then (bisect f (x - h) (x + h)).map (⟨·, 1⟩)
  else
    let slope := (right - left) / ((2.0 : α) * h)
    if Scalar.abs slope < (1e-4 : α) ∧ Scalar.abs y ≤ Scalar.abs left ∧ Scalar.abs y ≤ Scalar.abs right
        ∧ Scalar.abs y < (1e-4 : α) then some ⟨x, 2⟩
    else none

/-- The magnitude below which a sample is looked at more closely. -/
def nearZero : α := 1e-3

/-- A closer look at a place `x` where the value `y` is small, but not zero. -/
@[specialize] def stationaryZero? (f : α → α) (x y : α) : Option (Candidate α) :=
  match ([touchOffset, 5e-3, 1e-2, 5e-2] : List α).findSome? (zeroAround? f x y) with
  | some c => some c
  | none => if Scalar.abs y < (nearZero : α) then (localMinimum? f x).map (⟨·, 2⟩) else none

/-! ## Scanning -/

/-- What a sample shows by itself. -/
@[specialize] def atSample (f : α → α) (x y : α) : List (Candidate α) :=
  if y == (0.0 : α) then [⟨x, touchMultiplicity f x⟩]
  else if Scalar.abs y < (nearZero : α) then (stationaryZero? f x y).toList
  else []

/-- What a sample shows together with the one before it, if that was finite. -/
@[specialize] def betweenSamples (f : α → α) (prev : Option (α × α)) (x y : α) : List (Candidate α) :=
  match prev with
  | none => []
  | some (px, py) =>
    if py == (0.0 : α) || y == (0.0 : α) || Sign.of py = Sign.of y then []
    else ((bisect f px x).map (⟨·, 1⟩)).toList

/-- All zeros that the samples at some places show; `prev` is the sample before them. -/
@[specialize] def scan (f : α → α) (prev : Option (α × α)) : List α → List (Candidate α)
  | [] => []
  | x :: rest =>
    let y := f x
    if Scalar.isFinite y then
      atSample f x y ++ betweenSamples f prev x y ++ scan f (some (x, y)) rest
    else scan f none rest

/-- All zeros that the scans of some ranges show. -/
@[specialize] def candidates (f : α → α) (ranges : List α) : List (Candidate α) :=
  ranges.flatMap fun range => scan f none (grid range)

/-! ## New zeros -/

/-- The zeros known at some stage, with their keys. -/
abbrev KnownZeros (α : Type) := List (PointKey × α)

/-- The zeros among some points. -/
def KnownZeros.ofPoints (ps : List (Point α)) : KnownZeros α :=
  (ps.filter fun p => p.type = .zero).map fun p => (p.key, p.value)

/-- A zero of the same key is known, or one that is closer than a hundred-thousandth. -/
@[specialize] def KnownZeros.has (known : KnownZeros α) (x : α) : Bool :=
  let key := PointKey.of .zero x
  known.any fun (k, z) => k = key || Scalar.abs (z - x) < (1e-5 : α)

/-- The candidates that are new, rounded, each as a point. -/
@[specialize] def newZeros (known : KnownZeros α) : List (Candidate α) → List (Point α)
  | [] => []
  | c :: rest =>
    let x := roundKey c.value
    if known.has x then newZeros known rest
    else ⟨.zero, x, c.multiplicity, true⟩ :: newZeros ((PointKey.of .zero x, x) :: known) rest

/-- The zeros of a function that are not among some points, in the order they are found. -/
@[specialize] def findZeros (f : α → α) (existing : List (Point α)) : List (Point α) :=
  if vanishes f then []
  else newZeros (.ofPoints existing) (candidates f (searchRanges existing))

end SignChart
