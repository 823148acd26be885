import Patchwork.Text.Numeral

/-! Sites of a template inside text. A site is written as its number between two private-use
characters; text is cut into literals and sites again by `segments`. -/
namespace Patchwork.Markup

def siteOpen : Char := '\uE000'

def siteClose : Char := '\uE001'

/-- The token that stands for a site in the markup of a template. -/
def siteToken (index : Nat) : List Char := siteOpen :: Text.decimal index ++ [siteClose]

/-- A piece of text: literal characters, or a site together with the numeral it was written with. -/
inductive Segment
  | literal (cs : List Char)
  | site (index : Nat) (numeral : List Char)
deriving DecidableEq

def Segment.source : Segment → List Char
  | literal cs => cs
  | site _ numeral => siteOpen :: numeral ++ [siteClose]

/-- Site numbers are 64 bits wide. -/
def siteIndex? (numeral : List Char) : Option Nat := (Text.numeral? 10 numeral).filter (· < 1 <<< 64)

/-- Reads the rest of a token, given what follows the opening character. -/
def siteAfter? (cs : List Char) : Option (Nat × List Char × List Char) :=
  match cs.dropWhile (· ≠ siteClose) with
  | [] => none
  | _ :: rest =>
      let numeral := cs.takeWhile (· ≠ siteClose)
      (siteIndex? numeral).map (·, numeral, rest)

theorem siteAfter?_rest_length {cs numeral rest : List Char} {index : Nat}
    (read : siteAfter? cs = some (index, numeral, rest)) : rest.length < cs.length := by
  unfold siteAfter? at read
  split at read
  · contradiction
  next tail dropped =>
    obtain ⟨_, _, same⟩ := Option.map_eq_some_iff.mp read
    cases same
    have shorter := (List.dropWhile_suffix (l := cs) (· ≠ siteClose)).length_le
    rw [dropped] at shorter
    exact shorter

def literalUnlessEmpty : List Char → List Segment
  | [] => []
  | cs => [.literal cs]

/-- Cuts text at its site tokens. An opening character that starts no token ends a literal. -/
def segments (cs : List Char) : List Segment :=
  let before := cs.takeWhile (· ≠ siteOpen)
  match _ : cs.dropWhile (· ≠ siteOpen) with
  | [] => literalUnlessEmpty cs
  | opening :: after =>
      match _ : siteAfter? after with
      | some (index, numeral, rest) =>
          literalUnlessEmpty before ++ .site index numeral :: segments rest
      | none => .literal (before ++ [opening]) :: segments after
termination_by cs.length
decreasing_by
  all_goals
    have shorter := (List.dropWhile_suffix (l := cs) (· ≠ siteOpen)).length_le
    rw [‹cs.dropWhile _ = _›, List.length_cons] at shorter
  · have := siteAfter?_rest_length ‹siteAfter? after = some _›
    omega
  · omega

end Patchwork.Markup
