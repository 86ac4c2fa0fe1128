import Campaign.Number.Decimal

/-!
# The shortest decimal of a double

Among the decimals that round to a double, the one with the fewest digits, and of those the
nearest. A finite double other than zero is `m * 2 ^ q`; the reals that round to it form an
interval around it, whose ends belong to it when `m` is even. On the grid of decimals with a given
number of digits it is enough to look at the double's two neighbours, in exact arithmetic.
-/

namespace Campaign.Shortest

/-- The power of ten with an exponent, one if it is below zero. -/
def powerOfTen (k : Int) : Nat := Nat.pow 10 k.toNat

/-- Compares `a * 2 ^ q` with `d * 10 ^ k`. -/
def compareScaled (a : Nat) (q : Int) (d : Nat) (k : Int) : Ordering :=
  compare (a <<< q.toNat * powerOfTen (-k)) (d * powerOfTen k <<< (-q).toNat)

/-- The largest `d` with `d * 10 ^ k` at most `a * 2 ^ q`. -/
def floorScaled (a : Nat) (q : Int) (k : Int) : Nat :=
  a <<< q.toNat * powerOfTen (-k) / (powerOfTen k <<< (-q).toNat)

/-- Reals between two bounds, given in units of `2 ^ unit`. -/
structure Interval where
  low : Nat
  middle : Nat
  high : Nat
  unit : Int
  /-- Whether the bounds belong to the interval. -/
  closed : Bool

/-- Whether `d * 10 ^ k` lies in an interval. -/
def Interval.contains (i : Interval) (d : Nat) (k : Int) : Bool :=
  let below := compareScaled i.low i.unit d k
  let above := compareScaled i.high i.unit d k
  (below == .lt || (i.closed && below == .eq)) && (above == .gt || (i.closed && above == .eq))

/-- The reals that round to the finite positive double with the given exponent and fraction bits. -/
def Interval.ofBits (exponent fraction : Nat) : Interval :=
  let m := if exponent = 0 then fraction else fraction + 1 <<< 52
  let step := if fraction = 0 && 1 < exponent then 1 else 2
  ⟨4 * m - step, 4 * m, 4 * m + 2, (max exponent 1 : Int) - 1077, m % 2 == 0⟩

/-- The neighbour of the middle on the grid of multiples of `10 ^ k` that lies in the interval and
nearer to the middle, the even one of two that are equally near. -/
def Interval.onGrid? (i : Interval) (k : Int) : Option Nat :=
  let d := floorScaled i.middle i.unit k
  match i.contains d k, i.contains (d + 1) k with
  | false, false => none
  | true, false => some d
  | false, true => some (d + 1)
  | true, true =>
    match compareScaled (2 * i.middle) i.unit (2 * d + 1) k with
    | .lt => some d
    | .gt => some (d + 1)
    | .eq => some (if d % 2 = 0 then d else d + 1)

/-- The first grid, from coarse to fine, with a decimal in the interval: at most `tries` of them. -/
def Interval.search (i : Interval) : Nat → Int → Decimal
  | 0, k => ⟨false, floorScaled i.middle i.unit k, k⟩
  | tries + 1, k =>
    match i.onGrid? k with
    | some d => ⟨false, d, k⟩
    | none => i.search tries (k - 1)

/-- The number of decimal digits of a natural number. -/
def digitCount (n : Nat) : Nat := (Nat.toDigits 10 n).length

/-- The decimal without trailing zeros in its coefficient, at most `tries` of them. -/
def strip : Nat → Decimal → Decimal
  | 0, d => d
  | tries + 1, d =>
    if d.coefficient ≠ 0 ∧ d.coefficient % 10 = 0 then
      strip tries ⟨d.negative, d.coefficient / 10, d.exponent + 1⟩
    else d

/-- The shortest decimal of a finite double. -/
def ofFloat (x : Float) : Decimal :=
  let bits := x.toBits.toNat
  let negative := bits >>> 63 == 1
  let exponent := bits >>> 52 % 2048
  let fraction := bits % (1 <<< 52)
  if exponent = 0 ∧ fraction = 0 then ⟨negative, 0, 0⟩
  else
    let i := Interval.ofBits exponent fraction
    let top : Int := digitCount (i.middle <<< i.unit.toNat) - digitCount (1 <<< (-i.unit).toNat)
    { strip 400 (i.search 20 (top + 1)) with negative }

end Campaign.Shortest
