import Patchwork.Number.Basic
import Patchwork.Number.Shortest

/-! The text of a number on a page: an integer below `10 ^ 21` in full, any other number by its
shortest digits, positional while the first digit stands between `10 ^ -6` and `10 ^ 20`. -/
namespace Patchwork.Number

/-- Digits without trailing zeros, and the power of ten of the first one. -/
structure Scientific where
  digits : List Char
  power : Int

def scientific (m : Nat) (q : Int) : Scientific :=
  let d := shortest m q
  let written := Nat.toDigits 10 d.digits
  ⟨(written.reverse.dropWhile (· = '0')).reverse, d.power + written.length - 1⟩

/-- One digit before the point, and a sign in front of the exponent. -/
def Scientific.exponential (s : Scientific) : List Char :=
  let mantissa := match s.digits with
    | [] => []
    | [d] => [d]
    | d :: rest => d :: '.' :: rest
  mantissa ++ ['e', if s.power < 0 then '-' else '+'] ++ Nat.toDigits 10 s.power.natAbs

def Scientific.positional (s : Scientific) : List Char :=
  if s.power < 0 then
    ['0', '.'] ++ List.replicate (s.power.natAbs - 1) '0' ++ s.digits
  else
    let whole := s.power.toNat + 1
    s.digits.take whole ++ '.' :: s.digits.drop whole

/-- The integer `m * 2 ^ q`, if it is one. -/
def integer? (m : Nat) (q : Int) : Option Nat :=
  if 0 ≤ q then some (m <<< q.toNat)
  else
    let divisor := 1 <<< (-q).toNat
    if m % divisor = 0 then some (m / divisor) else none

def magnitudeText (m : Nat) (q : Int) : List Char :=
  match (integer? m q).filter (· < tens 21) with
  | some n => Nat.toDigits 10 n
  | none =>
      let s := scientific m q
      if s.power < -6 ∨ 21 ≤ s.power then s.exponential else s.positional

/-- A zero has no sign. -/
def text (n : Number) : String :=
  if n.isNaN then "NaN"
  else if n.isZero then "0"
  else
    let magnitude := if n.isInfinite then "Infinity".toList else magnitudeText n.significand n.exponent
    String.ofList (if n.negative then '-' :: magnitude else magnitude)

end Patchwork.Number
