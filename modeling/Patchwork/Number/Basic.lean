/-! Binary64 numbers by their bits. Equality of two `Number`s is equality of bits; the comparison
that a program sees is `Number.same`, under which a NaN differs from itself and both zeros agree. -/
namespace Patchwork

structure Number where
  bits : UInt64
deriving DecidableEq, Inhabited

namespace Number

def negative (n : Number) : Bool := n.bits.toNat >>> 63 == 1

def exponentField (n : Number) : Nat := (n.bits.toNat >>> 52) % (1 <<< 11)

def fractionField (n : Number) : Nat := n.bits.toNat % (1 <<< 52)

def isNaN (n : Number) : Bool := n.exponentField == 2047 && n.fractionField != 0

def isInfinite (n : Number) : Bool := n.exponentField == 2047 && n.fractionField == 0

def isZero (n : Number) : Bool := n.exponentField == 0 && n.fractionField == 0

/-- A finite number is `significand * 2 ^ exponent` up to its sign. -/
def significand (n : Number) : Nat :=
  if n.exponentField = 0 then n.fractionField else (1 <<< 52) + n.fractionField

def exponent (n : Number) : Int := (max n.exponentField 1 : Nat) - 1075

def same (a b : Number) : Bool :=
  !a.isNaN && !b.isNaN && (a.bits == b.bits || (a.isZero && b.isZero))

def add (a b : Number) : Number := ⟨(Float.ofBits a.bits + Float.ofBits b.bits).toBits⟩

/-- Widens a binary32 number, which is exact. -/
def ofSingle (bits : UInt32) : Number := ⟨(Float32.ofBits bits).toFloat.toBits⟩

/-- The quotient `n / 2 ^ shift` rounded to the nearest integer, a half to the even one. -/
def roundShift (n shift : Nat) : Nat :=
  let unit := 1 <<< shift
  let quotient := n / unit
  let twice := 2 * (n % unit)
  if twice < unit || (twice == unit && quotient % 2 == 0) then quotient else quotient + 1

/-- Magnitude bits of the number nearest to `n`. A significand that rounds up to the next power of
two carries into the exponent field, which is where it belongs. -/
def magnitudeBits (n : Nat) : Nat :=
  if n = 0 then 0
  else
    let top := n.log2
    let scaled := if top ≤ 52 then n <<< (52 - top) else roundShift n (top - 52)
    ((top + 1022) <<< 52) + scaled

/-- The number nearest to an integer of at most 1024 bits. -/
def ofInt (i : Int) : Number :=
  ⟨UInt64.ofNat ((if i < 0 then 1 <<< 63 else 0) + magnitudeBits i.natAbs)⟩

end Number
end Patchwork
