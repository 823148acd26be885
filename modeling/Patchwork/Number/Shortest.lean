/-! The shortest decimal that reads back as a given binary64 magnitude `m * 2 ^ q`, and among those of
that length the nearest. A decimal reads back if it lies between the midpoints to the two
neighbouring magnitudes; the midpoints count if `m` is even. All arithmetic is exact. -/
namespace Patchwork.Number

/-- The positive rational `digits * 10 ^ power`. -/
structure Decimal where
  digits : Nat
  power : Int
deriving DecidableEq

/-- The interval that reads back, and its target, as numerators over one denominator. -/
structure Rounding where
  low : Nat
  target : Nat
  high : Nat
  denominator : Nat
  closed : Bool

/-- Below a power of two the neighbour is half as far away as above it. -/
def rounding (m : Nat) (q : Int) : Rounding :=
  let narrow := m == 1 <<< 52 && -1074 < q
  let (middle, above, e) := if narrow then (4 * m, 2, q - 2) else (2 * m, 1, q - 1)
  let scale := 1 <<< e.toNat
  { low := (middle - 1) * scale
    target := middle * scale
    high := (middle + above) * scale
    denominator := 1 <<< (-e).toNat
    closed := m % 2 == 0 }

def tens (k : Nat) : Nat := Nat.pow 10 k

/-- Restates an interval in units of `10 ^ p`, the unit being the new denominator. -/
def Rounding.inUnits (r : Rounding) (p : Int) : Rounding :=
  let down := tens (-p).toNat
  { low := r.low * down
    target := r.target * down
    high := r.high * down
    denominator := r.denominator * tens p.toNat
    closed := r.closed }

def Rounding.holds (r : Rounding) (k : Nat) : Bool :=
  let x := k * r.denominator
  if r.closed then r.low ≤ x && x ≤ r.high else r.low < x && x < r.high

/-- The multiple of the unit that reads back and is nearest to the target; a tie goes up. -/
def Rounding.nearest? (r : Rounding) : Option Nat :=
  let below := r.target / r.denominator
  let nearer := if 2 * (r.target % r.denominator) < r.denominator then below else below + 1
  match r.holds below, r.holds (below + 1) with
  | true, true => some nearer
  | true, false => some below
  | false, true => some (below + 1)
  | false, false => none

def digitCount (n : Nat) : Nat := (Nat.toDigits 10 n).length

def Rounding.leadingPower (r : Rounding) : Int :=
  let whole := r.target / r.denominator
  if whole = 0 then -(digitCount ((r.denominator - 1) / r.target) : Int) else digitCount whole - 1

/-- Tries `count` ever finer grids, the first with unit `10 ^ p`. -/
def firstGrid (r : Rounding) : Nat → Int → Decimal
  | 0, p => ⟨(r.inUnits p).target / (r.inUnits p).denominator, p⟩
  | count + 1, p =>
      match (r.inUnits p).nearest? with
      | some k => ⟨k, p⟩
      | none => firstGrid r count (p - 1)

/-- Seventeen digits always suffice. -/
def shortest (m : Nat) (q : Int) : Decimal :=
  let r := rounding m q
  firstGrid r 17 r.leadingPower

end Patchwork.Number
