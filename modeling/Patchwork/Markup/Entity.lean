import Patchwork.Text.Numeral

/-! Character references in markup. `escape` writes text so that it can stand in markup, `decode`
replaces every reference by the character it names and keeps everything else. -/
namespace Patchwork.Markup.Entity

/-- Where escaped text will stand. A quote needs escaping between quotes only. -/
inductive Place
  | content | attribute
deriving DecidableEq

def escapeChar (place : Place) (c : Char) : List Char :=
  if c = '&' then "&amp;".toList
  else if c = '<' then "&lt;".toList
  else if c = '>' then "&gt;".toList
  else if c = '"' ∧ place = .attribute then "&quot;".toList
  else [c]

def escape (place : Place) (cs : List Char) : List Char := cs.flatMap (escapeChar place)

def named : List (List Char × Char) :=
  [("amp".toList, '&'), ("lt".toList, '<'), ("gt".toList, '>'), ("quot".toList, '"'),
    ("apos".toList, '\''), ("nbsp".toList, '\u00A0')]

/-- The character with a given number, if the number is a Unicode scalar value. -/
def scalar? (n : Nat) : Option Char :=
  if n.isValidChar then some (Char.ofNat n) else none

def meaning? (name : List Char) : Option Char :=
  match named.lookup name with
  | some c => some c
  | none =>
      match name with
      | '#' :: 'x' :: digits | '#' :: 'X' :: digits => (Text.numeral? 16 digits).bind scalar?
      | '#' :: digits => (Text.numeral? 10 digits).bind scalar?
      | _ => none

/-- Reads the reference that an ampersand starts, given what follows the ampersand. The name extends
to the next semicolon, however far away. -/
def reference? (cs : List Char) : Option (Char × List Char) :=
  match cs.dropWhile (· ≠ ';') with
  | [] => none
  | _ :: rest => (meaning? (cs.takeWhile (· ≠ ';'))).map (·, rest)

theorem reference?_rest_length {cs rest : List Char} {c : Char}
    (read : reference? cs = some (c, rest)) : rest.length < cs.length := by
  unfold reference? at read
  split at read
  · contradiction
  next tail dropped =>
    obtain ⟨_, _, same⟩ := Option.map_eq_some_iff.mp read
    cases same
    have shorter := (List.dropWhile_suffix (l := cs) (· ≠ ';')).length_le
    rw [dropped] at shorter
    exact shorter

def decode (cs : List Char) : List Char :=
  match cs with
  | [] => []
  | c :: rest =>
      if c = '&' then
        match _ : reference? rest with
        | some (meant, after) => meant :: decode after
        | none => c :: decode rest
      else c :: decode rest
termination_by cs.length
decreasing_by
  all_goals simp only [List.length_cons]
  · have := reference?_rest_length ‹reference? rest = some _›
    omega
  · omega
  · omega

end Patchwork.Markup.Entity
