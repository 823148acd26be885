import Mathlib.Data.List.DropRight
import Patchwork.Proofs.MarkupRoundTrip
import Patchwork.Proofs.TextSearch

/-! Text that comes in pieces is read piece by piece. No character reference reaches across a bracket or a site,
and a site is cut out of any text around it. -/
namespace Patchwork

namespace Text

variable {base : Nat} {c : Char} {cs : List Char}

theorem digitsValue?_eq_none (bad : digitValue? base c = none) (member : c ∈ cs) (start : Nat) :
    digitsValue? base cs start = none := by
  induction cs generalizing start with
  | nil => cases member
  | cons d rest ih =>
      rw [digitsValue?, List.foldlM_cons]
      rcases List.mem_cons.mp member with rfl | later
      · rw [bad]
        rfl
      · cases digitValue? base d with
        | none => rfl
        | some value => exact ih later _

theorem numeral?_eq_none (bad : digitValue? base c = none) (unsigned : c ≠ '+') (member : c ∈ cs) :
    numeral? base cs = none := by
  unfold numeral?
  split
  next d rest =>
    refine digitsValue?_eq_none bad ?_ 0
    exact (List.mem_cons.mp member).resolve_left unsigned
  next => exact digitsValue?_eq_none bad member 0
  next => rfl

theorem digitValue?_of_isDigit (digit : c.isDigit = true) :
    digitValue? 10 c = some (c.toNat - '0'.toNat) := by
  have within : '0' ≤ c ∧ c ≤ '9' := by
    simpa [Char.isDigit, Char.le_def] using digit
  have small : c.toNat - '0'.toNat < 10 := by
    have last : c.toNat ≤ '9'.toNat := within.2
    have nine : '9'.toNat = 57 := rfl
    have zero : '0'.toNat = 48 := rfl
    omega
  rw [digitValue?, if_pos within]
  exact Option.filter_some_pos (decide_eq_true small)

theorem digitsValue?_of_isDigit (digits : ∀ c ∈ cs, c.isDigit = true) (start : Nat) :
    digitsValue? 10 cs start = some (Nat.ofDigitChars 10 cs start) := by
  induction cs generalizing start with
  | nil => rfl
  | cons d rest ih =>
      obtain ⟨first, digits⟩ := List.forall_mem_cons.mp digits
      rw [digitsValue?, List.foldlM_cons, digitValue?_of_isDigit first, Nat.ofDigitChars, List.foldl_cons,
        Nat.mul_comm 10 start]
      exact ih digits _

theorem isDigit_of_mem_decimal {n : Nat} (member : c ∈ decimal n) : c.isDigit = true :=
  Nat.isDigit_of_mem_toDigits (by omega) (by omega) member

theorem numeral?_decimal (n : Nat) : numeral? 10 (decimal n) = some n := by
  have digits : ∀ c ∈ decimal n, c.isDigit = true := fun c => isDigit_of_mem_decimal
  obtain ⟨d, rest, written⟩ := List.exists_cons_of_ne_nil (Nat.toDigits_ne_nil (n := n) (b := 10))
  have value := digitsValue?_of_isDigit digits 0
  rw [decimal, Nat.ofDigitChars_toDigits (by omega) (by omega)] at value
  rw [decimal] at digits ⊢
  rw [written] at digits value ⊢
  have unsigned : d ≠ '+' := by
    rintro rfl
    exact absurd (digits '+' (List.mem_cons_self ..)) (by decide)
  unfold numeral?
  split
  next same =>
    obtain ⟨rfl, -⟩ := List.cons.inj same
    exact absurd rfl unsigned
  next same =>
    rw [← same]
    exact value
  next same => cases same

end Text

namespace Markup

namespace Entity

variable {cs rest : List Char} {c : Char}

/-- A character that is in no reference. -/
structure Outside (c : Char) : Prop where
  delimits : c ≠ '&' ∧ c ≠ ';'
  unnamed : ∀ entry ∈ named, c ∉ entry.1
  marks : c ∉ ['#', 'x', 'X', '+']
  decimal : Text.digitValue? 10 c = none
  hexadecimal : Text.digitValue? 16 c = none

theorem outside_siteOpen : Outside siteOpen :=
  ⟨by decide, by decide, by decide, by decide, by decide⟩

theorem outside_bracket : Outside '<' :=
  ⟨by decide, by decide, by decide, by decide, by decide⟩

theorem Outside.meaning? (outside : Outside c) {name : List Char} (member : c ∈ name) : meaning? name = none := by
  have unlisted : named.lookup name = none := by
    rw [List.lookup_eq_none_iff]
    intro entry listed
    simp only [bne_iff_ne, ne_eq]
    rintro rfl
    exact outside.unnamed entry listed member
  obtain ⟨hash, x, X, plus⟩ : c ≠ '#' ∧ c ≠ 'x' ∧ c ≠ 'X' ∧ c ≠ '+' := by simpa using outside.marks
  have number : ∀ {base : Nat} {digits : List Char}, Text.digitValue? base c = none → c ∈ digits →
      (Text.numeral? base digits).bind scalar? = none := fun bad member => by
    rw [Text.numeral?_eq_none bad plus member]
    rfl
  unfold Entity.meaning?
  rw [unlisted]
  dsimp only
  split
  next => exact number outside.hexadecimal (by simpa [hash, x] using member)
  next => exact number outside.hexadecimal (by simpa [hash, X] using member)
  next => exact number outside.decimal (by simpa [hash] using member)
  next => rfl

/-- A reference that does not end before such a character is none. -/
theorem Outside.reference? (outside : Outside c) (cs rest : List Char) :
    reference? (cs ++ c :: rest) = (reference? cs).map fun read => (read.1, read.2 ++ c :: rest) := by
  unfold Entity.reference?
  cases found : cs.dropWhile (· ≠ ';') with
  | nil =>
      have named := Text.mem_takeWhile_of_passed found (decide_eq_true outside.delimits.2) rest
      rw [outside.meaning? named]
      split <;> rfl
  | cons d after =>
      obtain ⟨left, taken⟩ := Text.stopped_append found (c :: rest)
      rw [left, taken]
      dsimp only
      rw [Option.map_map]
      rfl

theorem decode_amp (cs : List Char) : decode ('&' :: cs) =
    match reference? cs with
    | some (meant, after) => meant :: decode after
    | none => '&' :: decode cs := by
  rw [decode, if_pos rfl]
  split
  next read => rw [read]
  next unread => rw [unread]

/-- A text is decoded up to such a character, and from there on. -/
theorem Outside.decode (outside : Outside c) (cs rest : List Char) :
    decode (cs ++ c :: rest) = decode cs ++ c :: decode rest := by
  fun_induction Entity.decode cs with
  | case1 => exact decode_cons outside.delimits.1
  | case2 cs meant after read ih =>
      rw [List.cons_append, decode_amp, outside.reference?, read]
      exact congrArg (meant :: ·) ih
  | case3 cs unread ih =>
      rw [List.cons_append, decode_amp, outside.reference?, unread]
      exact congrArg ('&' :: ·) ih
  | case4 d cs other ih =>
      rw [List.cons_append, decode_cons other, ih]
      rfl

theorem decode_append_of_plain (plain : '&' ∉ cs) (rest : List Char) : decode (cs ++ rest) = cs ++ decode rest := by
  induction cs with
  | nil => rfl
  | cons d cs ih =>
      obtain ⟨first, plain⟩ := not_or.mp (List.mem_cons.not.mp plain)
      rw [List.cons_append, decode_cons (Ne.symm first), ih plain]
      rfl

end Entity

variable {cs rest : List Char}

theorem siteIndex?_eq_none (member : siteOpen ∈ cs) : siteIndex? cs = none := by
  rw [siteIndex?, Text.numeral?_eq_none (by decide) (by decide) member]
  rfl

/-- A token that does not end before the next one starts is none. -/
theorem siteAfter?_append (cs rest : List Char) : siteAfter? (cs ++ siteOpen :: rest) =
    (siteAfter? cs).map fun read => (read.1, read.2.1, read.2.2 ++ siteOpen :: rest) := by
  unfold siteAfter?
  cases found : cs.dropWhile (· ≠ siteClose) with
  | nil =>
      have within := Text.mem_takeWhile_of_passed found (c := siteOpen) (decide_eq_true (by decide)) rest
      dsimp only
      rw [siteIndex?_eq_none within]
      split <;> rfl
  | cons d after =>
      obtain ⟨left, taken⟩ := Text.stopped_append found (siteOpen :: rest)
      rw [left, taken]
      dsimp only
      rw [Option.map_map]
      rfl

theorem siteAfter?_decimal {n : Nat} (fits : n < 1 <<< 64) (rest : List Char) :
    siteAfter? (Text.decimal n ++ siteClose :: rest) = some (n, Text.decimal n, rest) := by
  have inside : ∀ c ∈ Text.decimal n, decide (c ≠ siteClose) = true := by
    intro c member
    refine decide_eq_true ?_
    rintro rfl
    exact absurd (Text.isDigit_of_mem_decimal member) (by decide)
  have index : siteIndex? (Text.decimal n) = some n := by
    rw [siteIndex?, Text.numeral?_decimal]
    exact Option.filter_some_pos (decide_eq_true fits)
  unfold siteAfter?
  rw [List.dropWhile_append_of_pos inside, List.takeWhile_append_of_pos inside]
  simp [index]

theorem segments_nil : segments [] = [] := by
  rw [segments]
  rfl

theorem segments_of_opened {opening : Char} {after : List Char}
    (opened : cs.dropWhile (· ≠ siteOpen) = opening :: after) : segments cs =
      match siteAfter? after with
      | some (index, numeral, rest) =>
          literalUnlessEmpty (cs.takeWhile (· ≠ siteOpen)) ++ .site index numeral :: segments rest
      | none => .literal (cs.takeWhile (· ≠ siteOpen) ++ [opening]) :: segments after := by
  rw [segments]
  split
  next found =>
    rw [opened] at found
    cases found
  next found =>
    rw [opened] at found
    obtain ⟨rfl, rfl⟩ := List.cons.inj found
    split
    next read => rw [read]
    next unread => rw [unread]

theorem opened_append (plain : siteOpen ∉ cs) (rest : List Char) :
    (cs ++ siteOpen :: rest).dropWhile (· ≠ siteOpen) = siteOpen :: rest ∧
      (cs ++ siteOpen :: rest).takeWhile (· ≠ siteOpen) = cs := by
  have inside : ∀ c ∈ cs, decide (c ≠ siteOpen) = true := by
    intro c member
    apply decide_eq_true
    rintro rfl
    exact plain member
  rw [List.dropWhile_append_of_pos inside, List.takeWhile_append_of_pos inside]
  constructor <;> simp

/-- A site is cut out of the text around it. The induction is on the tokens and stray opening characters in front
of it. -/
theorem segments_append_token {n : Nat} (fits : n < 1 <<< 64) (cs rest : List Char) :
    segments (cs ++ (siteToken n ++ rest)) = segments cs ++ .site n (Text.decimal n) :: segments rest := by
  have token : siteToken n ++ rest = siteOpen :: (Text.decimal n ++ siteClose :: rest) := by
    simp [siteToken]
  rw [token]
  induction shorter : cs.length using Nat.strong_induction_on generalizing cs with
  | h length ih =>
    cases opened : cs.dropWhile (· ≠ siteOpen) with
    | nil =>
        have plain : siteOpen ∉ cs := by
          intro member
          exact of_decide_eq_true (List.dropWhile_eq_nil_iff.mp opened siteOpen member) rfl
        obtain ⟨left, taken⟩ := opened_append plain (Text.decimal n ++ siteClose :: rest)
        rw [segments_of_opened left, siteAfter?_decimal fits, taken, Template.segments_of_plain plain]
    | cons opening after =>
        obtain ⟨left, taken⟩ := Text.stopped_append opened (siteOpen :: (Text.decimal n ++ siteClose :: rest))
        rw [segments_of_opened left, segments_of_opened opened, siteAfter?_append, taken]
        have behind : after.length < length := by
          have less := (List.dropWhile_suffix (l := cs) (· ≠ siteOpen)).length_le
          rw [opened, List.length_cons] at less
          omega
        cases read : siteAfter? after with
        | none =>
            dsimp only [Option.map_none]
            rw [ih after.length behind after rfl]
            rfl
        | some found =>
            obtain ⟨index, numeral, tail⟩ := found
            have further := siteAfter?_rest_length read
            dsimp only [Option.map_some]
            rw [ih tail.length (by omega) tail rfl]
            simp

end Markup
end Patchwork
