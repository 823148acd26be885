/-! Unsigned numerals in a given base: an optional plus sign and at least one digit, nothing else. -/
namespace Patchwork.Text

/-- The value of an ASCII digit or letter as a digit, below `base`. -/
def digitValue? (base : Nat) (c : Char) : Option Nat :=
  let value? :=
    if '0' ≤ c ∧ c ≤ '9' then some (c.toNat - '0'.toNat)
    else if 'a' ≤ c ∧ c ≤ 'z' then some (c.toNat - 'a'.toNat + 10)
    else if 'A' ≤ c ∧ c ≤ 'Z' then some (c.toNat - 'A'.toNat + 10)
    else none
  value?.filter (· < base)

def digitsValue? (base : Nat) (cs : List Char) (start : Nat) : Option Nat :=
  cs.foldlM (fun n c => (digitValue? base c).map (n * base + ·)) start

def numeral? (base : Nat) (cs : List Char) : Option Nat :=
  match cs with
  | '+' :: d :: rest => digitsValue? base (d :: rest) 0
  | d :: rest => digitsValue? base (d :: rest) 0
  | [] => none

def decimal (n : Nat) : List Char := Nat.toDigits 10 n

end Patchwork.Text
