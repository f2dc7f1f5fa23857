/-
  The interval that a chart shows.

  The automatic domain leaves a margin around all critical points.  A single point keeps the span of the
  domain before it, if there was one, and only shifts it.  A user can set either bound;
  bounds the wrong way round, or too close, are spread around their centre.
-/
import SignChart.Point

namespace SignChart
variable {α : Type} [Scalar α]

/-! ## Domains -/

/-- An interval of the line. -/
structure Domain (α : Type) where
  min : α
  max : α
deriving DecidableEq, Repr

namespace Domain

/-- The domain of a chart without points. -/
def standard : Domain α := ⟨-5.0, 5.0⟩

def span (d : Domain α) : α := d.max - d.min

/-- Both bounds are finite, and in order. -/
def isValid (d : Domain α) : Bool := Scalar.isFinite d.min && Scalar.isFinite d.max && d.min < d.max

/-- A value lies inside, and on neither bound. -/
def contains (d : Domain α) (x : α) : Bool := d.min < x && x < d.max

/-- A domain in words. -/
def text (d : Domain α) : String :=
  let bound (x : α) : String := String.ofList (Scalar.text (roundKey x))
  s!"[{bound d.min}, {bound d.max}]"

end Domain

/-! ## The automatic domain -/

/-- The space between the outermost points and the bounds: a fifth of the span, and at least 1. -/
def marginFor (span : α) : α := Scalar.max (span * (0.2 : α)) 1.0

/-- A domain shifted, without change of its span, so far that a value keeps the margin to both
bounds. -/
def Domain.shiftTo (d : Domain α) (x : α) : Domain α :=
  let margin := marginFor d.span
  let shift : α :=
    if x < d.min + margin then x - (d.min + margin)
    else if d.max - margin < x then x - (d.max - margin)
    else 0.0
  ⟨d.min + shift, d.max + shift⟩

/-- The domain of four units around a value. -/
def Domain.around (x : α) : Domain α := ⟨x - (4.0 : α) / 2.0, x + (4.0 : α) / 2.0⟩

/-- The domain that shows all of some values. -/
def Domain.covering (first : α) (rest : List α) : Domain α :=
  let lo := rest.foldl Scalar.min first
  let hi := rest.foldl Scalar.max first
  let (lo, hi) := if hi - lo == (0.0 : α) then (lo - (1.0 : α), hi + (1.0 : α)) else (lo, hi)
  let margin := marginFor (hi - lo)
  ⟨lo - margin, hi + margin⟩

/-- The automatic domain of critical points, after the domain `previous`. -/
def autoDomain (points : List (Point α)) (previous : Option (Domain α)) : Domain α :=
  match (points.map Point.value).filter Scalar.isFinite with
  | [] => .standard
  | [x] => ((previous.filter Domain.isValid).getD (.around x)).shiftTo x
  | x :: rest => .covering x rest

/-! ## Bounds set by the user -/

/-- Bounds that a user set. A bound that is not set follows the automatic domain. -/
structure UserDomain (α : Type) where
  min : Option α
  max : Option α
deriving DecidableEq, Repr

namespace UserDomain

/-- No bound is set. -/
def free : UserDomain α := ⟨none, none⟩

def isEmpty (u : UserDomain α) : Bool := u.min.isNone && u.max.isNone

/-- A bound in words. -/
def boundText (bound : Option α) : String :=
  match bound with
  | some x => String.ofList (Scalar.text x)
  | none => "auto"

/-- The bounds in words. -/
def text (u : UserDomain α) : String := s!"[{boundText u.min}, {boundText u.max}]"

/-- The domain to show: the user's bounds where they are set, the automatic ones elsewhere. -/
def resolve (u : UserDomain α) (auto : Domain α) : Domain α :=
  let min := (u.min.filter Scalar.isFinite).getD auto.min
  let max := (u.max.filter Scalar.isFinite).getD auto.max
  if min < max then ⟨min, max⟩
  else
    let centre := (min + max) / (2.0 : α)
    let half := Scalar.max (Scalar.abs (max - min)) 1.0 / (2.0 : α)
    ⟨centre - half, centre + half⟩

end UserDomain

/-! ## Samples between boundaries -/

/-- The bounds of a domain with the points in between. -/
def boundaries (points : List (Point α)) (d : Domain α) : List α :=
  d.min :: points.map Point.value ++ [d.max]

/-- Each boundary with the next. -/
def intervals : List α → List (α × α)
  | x :: y :: rest => (x, y) :: intervals (y :: rest)
  | _ => []

/-- A value between two boundaries, either of which may be infinite. -/
def sampleBetween (left right : α) : α :=
  match Scalar.isFinite left, Scalar.isFinite right with
  | false, false => 0.0
  | true, false => left + (1.0 : α)
  | false, true => right - (1.0 : α)
  | true, true =>
    let gap := right - left
    let mid := left + gap / (2.0 : α)
    -- the middle of a narrow gap may lie too close to a boundary to tell it apart
    if mid - left < (1e-4 : α) then left + gap * (0.3 : α)
    else if right - mid < (1e-4 : α) then right - gap * (0.3 : α)
    else mid

end SignChart
