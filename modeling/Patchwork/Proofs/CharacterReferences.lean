import Mathlib.Data.Nat.Digits.Defs
import Mathlib.Tactic.Ring
import Patchwork.Proofs.TextPieces
import Patchwork.Proofs.MarkupNormalForm

/-! Character references are recognised where they stand and nowhere else. A text is decoded from left to right:
an ampersand that starts a reference is replaced, together with the rest of the reference, by the character that it
names, and every other character stays. The number of a reference may have a plus sign. Escaped text has one reading,
which is the text that was escaped. -/
namespace Patchwork

namespace Text

variable {base d n : Nat} {c : Char} {cs : List Char}

def Spells (base : Nat) (cs : List Char) (n : Nat) : Prop :=
  ∃ ds : List Nat, (∀ d ∈ ds, d < base) ∧ cs.map Char.toLower = ds.map Nat.digitChar ∧ Nat.ofDigits base ds.reverse = n

/-- One digit or more, with or without a plus sign. -/
inductive Numeral (base : Nat) : List Char → Nat → Prop
  | plain {cs : List Char} {n : Nat} (some : cs ≠ []) (spells : Spells base cs n) : Numeral base cs n
  | plus {cs : List Char} {n : Nat} (some : cs ≠ []) (spells : Spells base cs n) : Numeral base ('+' :: cs) n

theorem digitValue?_beyond (beyond : 128 ≤ c.toNat) : digitValue? base c = none := by
  have above : ∀ x : Char, x.toNat < 128 → ¬ c ≤ x := by
    intro x small within
    have order : c.toNat ≤ x.toNat := within
    omega
  simp [digitValue?, above '9' (by decide), above 'z' (by decide), above 'Z' (by decide)]

theorem toLower_beyond (beyond : 128 ≤ c.toNat) : c.toLower = c := by
  apply Markup.toLower_of_not_isUpper
  by_contra upper
  have letter : c.isAlpha = true := Bool.or_eq_true_iff.mpr (.inl (by simpa using upper))
  have small := Markup.Token.toNat_lt_of_isAlpha letter
  omega

theorem digitValue?_sixteen : digitValue? 16 c = some d ↔ d < 16 ∧ c.toLower = Nat.digitChar d := by
  have ascii : ∀ k < 128, ∀ d < 16,
      digitValue? 16 (Char.ofNat k) = some d ↔ (Char.ofNat k).toLower = Nat.digitChar d := by decide +kernel
  have digit (read : digitValue? 16 c = some d) : d < 16 := by
    simpa using (Option.filter_eq_some_iff.mp read).2
  by_cases within : c.toNat < 128
  · have same := ascii c.toNat within d
    rw [Char.ofNat_toNat] at same
    exact ⟨fun read => ⟨digit read, (same (digit read)).mp read⟩, fun ⟨below, letter⟩ => (same below).mpr letter⟩
  · rw [digitValue?_beyond (by omega), toLower_beyond (by omega)]
    refine ⟨nofun, fun ⟨below, letter⟩ => ?_⟩
    have small : ∀ d < 16, (Nat.digitChar d).toNat < 128 := by decide
    exact absurd (letter ▸ small d below) within

theorem digitValue?_eq_some (small : base ≤ 16) :
    digitValue? base c = some d ↔ d < base ∧ c.toLower = Nat.digitChar d := by
  have fewer : digitValue? base c = (digitValue? 16 c).filter (· < base) := by
    rw [digitValue?, digitValue?, Option.filter_filter]
    congr 1
    funext value
    rw [Bool.eq_iff_iff]
    simp only [Bool.and_eq_true, decide_eq_true_eq]
    omega
  simp only [fewer, Option.filter_eq_some_iff, digitValue?_sixteen, decide_eq_true_eq]
  constructor
  · rintro ⟨⟨-, same⟩, below⟩
    exact ⟨below, same⟩
  · rintro ⟨below, same⟩
    exact ⟨⟨by omega, same⟩, below⟩

theorem digitsValue?_eq_some (small : base ≤ 16) (start : Nat) : digitsValue? base cs start = some n ↔
    ∃ ds : List Nat, (∀ d ∈ ds, d < base) ∧ cs.map Char.toLower = ds.map Nat.digitChar ∧
      start * base ^ ds.length + Nat.ofDigits base ds.reverse = n := by
  induction cs generalizing start with
  | nil =>
    rw [digitsValue?, List.foldlM_nil]
    constructor
    · intro same
      exact ⟨[], List.forall_mem_nil _, rfl, by simpa using same⟩
    · rintro ⟨ds, -, spelled, rfl⟩
      cases List.map_eq_nil_iff.mp spelled.symm
      simp
  | cons c cs ih =>
    have step (d : Nat) (rest : List Nat) : (start * base + d) * base ^ rest.length + Nat.ofDigits base rest.reverse =
        start * base ^ (d :: rest).length + Nat.ofDigits base (d :: rest).reverse := by
      rw [List.reverse_cons, Nat.ofDigits_append, Nat.ofDigits_singleton, List.length_cons, List.length_reverse]
      ring
    rw [digitsValue?, List.foldlM_cons, Option.bind_eq_bind, Option.bind_eq_some_iff]
    constructor
    · rintro ⟨next, read, further⟩
      obtain ⟨d, digit, rfl⟩ := Option.map_eq_some_iff.mp read
      obtain ⟨below, letter⟩ := (digitValue?_eq_some small).mp digit
      obtain ⟨rest, digits, spelled, rfl⟩ := (ih _).mp further
      refine ⟨d :: rest, List.forall_mem_cons.mpr ⟨below, digits⟩, ?_, (step d rest).symm⟩
      rw [List.map_cons, List.map_cons, letter, spelled]
    · rintro ⟨ds, digits, spelled, rfl⟩
      cases ds with
      | nil => cases spelled
      | cons d rest =>
        obtain ⟨below, digits⟩ := List.forall_mem_cons.mp digits
        obtain ⟨letter, spelled⟩ := List.cons.inj spelled
        refine ⟨start * base + d, ?_, (ih _).mpr ⟨rest, digits, spelled, step d rest⟩⟩
        rw [(digitValue?_eq_some small).mpr ⟨below, letter⟩, Option.map_some]

theorem digitsValue?_zero (small : base ≤ 16) : digitsValue? base cs 0 = some n ↔ Spells base cs n := by
  rw [digitsValue?_eq_some small, Spells]
  simp only [Nat.zero_mul, Nat.zero_add]

/-- Numerals have a value, and nothing else has one. -/
theorem numeral?_eq_some (small : base ≤ 16) : numeral? base cs = some n ↔ Numeral base cs n := by
  constructor
  · intro read
    unfold numeral? at read
    split at read
    next d rest => exact .plus (List.cons_ne_nil _ _) ((digitsValue?_zero small).mp read)
    next d rest _ => exact .plain (List.cons_ne_nil _ _) ((digitsValue?_zero small).mp read)
    next => cases read
  · rintro (⟨some, spells⟩ | ⟨some, spells⟩)
    all_goals
      obtain ⟨d, rest, rfl⟩ := List.exists_cons_of_ne_nil some
      have read := (digitsValue?_zero small).mpr spells
    · unfold numeral?
      split
      next d rest same =>
        -- the sign is no digit
        rw [same, digitsValue?_eq_none (by rfl) (List.mem_cons_self ..)] at read
        cases read
      next same => exact same ▸ read
      next same => cases same
    · exact read

end Text

namespace Markup.Entity

variable {cs name after : List Char} {c : Char}

/-- What stands between the ampersand and the semicolon of a reference: one of the listed names, or the number of a
Unicode scalar value. -/
inductive Names : List Char → Char → Prop
  | listed {name : List Char} {c : Char} (listed : (name, c) ∈ named) : Names name c
  | decimal {cs : List Char} {n : Nat} (numeral : Text.Numeral 10 cs n) (scalar : n.isValidChar) :
      Names ('#' :: cs) (Char.ofNat n)
  | hexadecimal {x : Char} {cs : List Char} {n : Nat} (mark : x = 'x' ∨ x = 'X') (numeral : Text.Numeral 16 cs n)
      (scalar : n.isValidChar) : Names ('#' :: x :: cs) (Char.ofNat n)

theorem lookup_number (cs : List Char) : named.lookup ('#' :: cs) = none := by
  rw [List.lookup_eq_none_iff]
  intro entry listed
  have heads : ∀ entry ∈ named, entry.1.head? ≠ some '#' := by decide
  rw [bne_iff_ne]
  intro same
  exact heads entry listed (same ▸ rfl)

theorem scalar?_bind {number : Option Nat} :
    number.bind scalar? = some c ↔ ∃ n : Nat, number = some n ∧ n.isValidChar ∧ Char.ofNat n = c := by
  simp [Option.bind_eq_some_iff, scalar?]

theorem meaning?_eq_some : meaning? name = some c ↔ Names name c := by
  constructor
  · intro means
    unfold meaning? at means
    split at means
    next listed =>
      obtain ⟨front, back, same, -⟩ := List.lookup_eq_some_iff.mp listed
      cases means
      exact .listed (same ▸ List.mem_append_right _ (List.mem_cons_self ..))
    next =>
      split at means
      next cs =>
        obtain ⟨n, numeral, scalar, rfl⟩ := scalar?_bind.mp means
        exact .hexadecimal (.inl rfl) ((Text.numeral?_eq_some (by decide)).mp numeral) scalar
      next cs =>
        obtain ⟨n, numeral, scalar, rfl⟩ := scalar?_bind.mp means
        exact .hexadecimal (.inr rfl) ((Text.numeral?_eq_some (by decide)).mp numeral) scalar
      next cs _ _ =>
        obtain ⟨n, numeral, scalar, rfl⟩ := scalar?_bind.mp means
        exact .decimal ((Text.numeral?_eq_some (by decide)).mp numeral) scalar
      next => cases means
  · intro names
    cases names with
    | listed listed =>
      have all : ∀ entry ∈ named, meaning? entry.1 = some entry.2 := by decide
      exact all _ listed
    | @decimal cs n numeral scalar =>
      have read := (Text.numeral?_eq_some (by decide)).mpr numeral
      -- Nothing but digits and a sign is read as a decimal numeral, so it begins with no mark.
      have unmarked : ∀ x ∈ cs, Text.digitValue? 10 x = none → x = '+' := by
        intro x member bad
        by_contra unsigned
        rw [Text.numeral?_eq_none bad unsigned member] at read
        cases read
      unfold meaning?
      rw [lookup_number]
      dsimp only
      split
      next same =>
        cases same
        exact absurd (unmarked 'x' (List.mem_cons_self ..) (by decide)) (by decide)
      next same =>
        cases same
        exact absurd (unmarked 'X' (List.mem_cons_self ..) (by decide)) (by decide)
      next same =>
        cases same
        exact scalar?_bind.mpr ⟨n, read, scalar, rfl⟩
      next other => exact absurd rfl (other _)
    | @hexadecimal x cs n mark numeral scalar =>
      have read := scalar?_bind.mpr ⟨n, (Text.numeral?_eq_some (by decide)).mpr numeral, scalar, rfl⟩
      unfold meaning?
      rw [lookup_number]
      rcases mark with rfl | rfl <;> exact read

example : meaning? "#+65".toList = some 'A' := by decide

theorem Names.whole (names : Names name c) : ';' ∉ name := by
  have number {base : Nat} {cs : List Char} {n : Nat} (small : base ≤ 16)
      (bad : Text.digitValue? base ';' = none) (numeral : Text.Numeral base cs n) : ';' ∉ cs := by
    intro member
    have read := (Text.numeral?_eq_some small).mpr numeral
    rw [Text.numeral?_eq_none bad (by decide) member] at read
    cases read
  cases names with
  | listed listed =>
    have all : ∀ entry ∈ named, ';' ∉ entry.1 := by decide
    exact all _ listed
  | decimal numeral _ =>
    simpa using number (by decide) (by decide) numeral
  | hexadecimal mark numeral _ =>
    have inside := number (by decide) (by decide) numeral
    rcases mark with rfl | rfl <;> simpa using inside

theorem reference?_eq_some : reference? cs = some (c, after) ↔ ∃ name, Names name c ∧ cs = name ++ ';' :: after := by
  constructor
  · intro read
    unfold reference? at read
    split at read
    next => cases read
    next d rest found =>
      obtain ⟨_, means, same⟩ := Option.map_eq_some_iff.mp read
      cases same
      exact ⟨_, meaning?_eq_some.mp means, (Text.cut_of_stopped found).2⟩
  · rintro ⟨name, names, rfl⟩
    exact reference?_append names.whole (meaning?_eq_some.mpr names)

/-- A text and what it is decoded to, read from left to right: a reference is replaced as a whole, and an ampersand
stays where no reference starts. -/
inductive Decodes : List Char → List Char → Prop
  | nil : Decodes [] []
  | reference {name cs out : List Char} {c : Char} (names : Names name c) (rest : Decodes cs out) :
      Decodes ('&' :: (name ++ ';' :: cs)) (c :: out)
  | ampersand {cs out : List Char} (bare : ∀ name c after, Names name c → cs ≠ name ++ ';' :: after)
      (rest : Decodes cs out) : Decodes ('&' :: cs) ('&' :: out)
  | other {d : Char} {cs out : List Char} (other : d ≠ '&') (rest : Decodes cs out) : Decodes (d :: cs) (d :: out)

theorem decodes_iff {out : List Char} : Decodes cs out ↔ decode cs = out := by
  constructor
  · intro decodes
    induction decodes with
    | nil => exact decode_nil
    | reference names _ ih => rw [decode_reference _ names.whole (meaning?_eq_some.mpr names), ih]
    | @ampersand cs _ bare _ ih =>
      have unread : reference? cs = none := by
        rw [Option.eq_none_iff_forall_ne_some]
        rintro ⟨c, after⟩ read
        obtain ⟨name, names, same⟩ := reference?_eq_some.mp read
        exact bare name c after names same
      rw [decode_amp, unread]
      exact congrArg ('&' :: ·) ih
    | other other _ ih => rw [decode_cons other, ih]
  · rintro rfl
    fun_induction decode cs with
    | case1 => exact .nil
    | case2 rest c after read ih =>
      obtain ⟨name, names, rfl⟩ := reference?_eq_some.mp read
      exact .reference names ih
    | case3 rest unread ih =>
      refine .ampersand (fun name c after names same => ?_) ih
      rw [reference?_eq_some.mpr ⟨name, names, same⟩] at unread
      cases unread
    | case4 d rest other ih => exact .other other ih

/-- Escaping is undone, whatever the text holds and wherever it will stand, and no other reading is left. -/
theorem escaped_read_back (place : Place) (s : List Char) :
    decode (escape place s) = s ∧ ∀ out, Decodes (escape place s) out ↔ out = s := by
  have back := decode_escape place s
  refine ⟨back, fun out => ?_⟩
  rw [decodes_iff, back]
  exact eq_comm

end Markup.Entity
end Patchwork
