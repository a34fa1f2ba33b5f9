import QueryPlan.Double.Basic

/-!
# The shortest decimal of a double

The decimals `c · 10^k` for one `k` form a grid. The shortest decimal of a positive number `m · 2^e`
is taken from the coarsest grid that has a point inside the interval of reals that round to it.
`search` looks for that grid from a coarse one downwards. It stops at the grid of `10^(min e 0)` at
the latest, because the number itself is one of its points.
-/

namespace QueryPlan

/-- The positive number `coefficient · 2^power`, with the interval of reals that round to it. -/
structure Binary where
  /-- The whole-number factor. -/
  coefficient : Nat
  /-- The power of two. -/
  power : Int
  /-- The next smaller number lies at half the distance, as it does below a power of two. -/
  narrowBelow : Bool

/-- The decimal `coefficient · 10^power`. -/
structure Decimal where
  /-- The whole-number factor. -/
  coefficient : Nat
  /-- The power of ten. -/
  power : Int
deriving DecidableEq

namespace Binary

/-- A quarter of the distance to the next larger number in units of `10^k`, as a fraction. -/
def quarter (x : Binary) (k : Int) : Nat × Nat :=
  (Nat.pow 2 (x.power - 2).toNat * Nat.pow 10 (-k).toNat,
    Nat.pow 2 (2 - x.power).toNat * Nat.pow 10 k.toNat)

/-- The point `c` of the grid of `10^k` rounds to the number; the ends of the interval count when
the coefficient is even. -/
def covers (x : Binary) (k : Int) (c : Nat) : Bool :=
  let (num, den) := x.quarter k
  let low := (4 * x.coefficient - if x.narrowBelow then 1 else 2) * num
  let high := (4 * x.coefficient + 2) * num
  if x.coefficient % 2 = 0 then low ≤ c * den && c * den ≤ high
  else low < c * den && c * den < high

/-- The point of the grid of `10^k` that stands for the number, if one rounds to it: the nearer of
its two neighbours on the grid, and the larger one if both are equally near. -/
def onGrid? (x : Binary) (k : Int) : Option Nat :=
  let (num, den) := x.quarter k
  let value := 4 * x.coefficient * num
  let below := value / den
  match x.covers k below, x.covers k (below + 1) with
  | true, true => if 2 * (value % den) < den then below else some (below + 1)
  | true, false => some below
  | false, true => some (below + 1)
  | false, false => none

/-- The first grid with a point for the number, among those of `10^k` for `steps` values of `k`
downwards. -/
def search (x : Binary) (k : Int) : Nat → Decimal
  | 0 => ⟨(x.onGrid? k).getD 0, k⟩
  | steps + 1 =>
    match x.onGrid? k with
    | some c => ⟨c, k⟩
    | none => x.search (k - 1) steps

/-- A power of ten that is no smaller than the number: no coarser grid has a point that rounds to
it. -/
def top (x : Binary) : Int :=
  let bits := (x.coefficient.log2 : Int) + 1 + x.power
  if 0 ≤ bits then bits / 3 + 1 else bits / 4 + 1

/-- The decimal of fewest digits that rounds to the number, and of those the nearest. -/
def shortest (x : Binary) : Decimal :=
  x.search x.top (x.top - min x.power 0).toNat

end Binary

/-- The decimal written out by place: no exponent, and a point only before digits. -/
def Decimal.text (d : Decimal) : String :=
  let digits := Nat.toDigits 10 d.coefficient
  let places := (-d.power).toNat
  if 0 ≤ d.power then String.ofList (digits ++ List.replicate d.power.toNat '0')
  else
    let padded := List.replicate (places + 1 - digits.length) '0' ++ digits
    String.ofList
      (padded.take (padded.length - places) ++ '.' :: padded.drop (padded.length - places))

namespace Double

/-- The size of a finite double as a whole number times a power of two: the hidden bit is set unless
the exponent bits are all zero. -/
def binary (x : Double) : Binary :=
  if x.exponent = 0 then ⟨x.fraction, -1074, false⟩
  else ⟨0x10000000000000 + x.fraction, x.exponent - 1075, x.fraction == 0 && x.exponent != 1⟩

/-- A double as plans print it: the shortest decimal that reads back, by place; the sign of a zero
is kept, and a whole number has no fraction. -/
def text (x : Double) : String :=
  if x.isNaN then "NaN"
  else
    let size :=
      if x.isInfinite then "inf"
      else if x.isZero then "0"
      else x.binary.shortest.text
    if x.isNegative then "-" ++ size else size

end Double

end QueryPlan
