import Patchwork.Markup.Entity
import Patchwork.Text.Blank

/-! Tokens of markup: opening tags with their attributes, closing tags, and the text between them.
Every text scans; a `<` that starts neither a tag nor a comment is text, and a tag or a comment that
is not ended reaches to the end. Comments leave no token. -/
namespace Patchwork.Markup

inductive Token
  | text (cs : List Char)
  /-- The attributes are in the order in which they were written, repetitions included. -/
  | opening (tag : String) (attributes : List (String × List Char)) (selfClosing : Bool)
  | closing (tag : String)
deriving DecidableEq

namespace Token

def endsName (c : Char) : Bool := Text.isBlank c || c == '>' || c == '/' || c == '='

def nameOf (cs : List Char) : String :=
  String.ofList ((cs.takeWhile (!endsName ·)).map Char.toLower)

def afterName (cs : List Char) : List Char := cs.dropWhile (!endsName ·)

theorem length_afterName_le (cs : List Char) : (afterName cs).length ≤ cs.length :=
  (List.dropWhile_suffix _).length_le

def endsUnquoted (c : Char) : Bool := Text.isBlank c || c == '>'

def upTo (delimiter : Char) (cs : List Char) : List Char × List Char :=
  (cs.takeWhile (· ≠ delimiter), (cs.dropWhile (· ≠ delimiter)).drop 1)

theorem length_upTo_le (delimiter : Char) (cs : List Char) :
    (upTo delimiter cs).2.length ≤ cs.length := by
  have dropped := (List.dropWhile_suffix (l := cs) (· ≠ delimiter)).length_le
  simp only [upTo, List.length_drop]
  omega

/-- An attribute's value and what follows it. Between quotes, the same quote ends it. -/
def valueAt (cs : List Char) : List Char × List Char :=
  match cs with
  | '"' :: inner => upTo '"' inner
  | '\'' :: inner => upTo '\'' inner
  | _ => (cs.takeWhile (!endsUnquoted ·), cs.dropWhile (!endsUnquoted ·))

theorem length_valueAt_le (cs : List Char) : (valueAt cs).2.length ≤ cs.length := by
  unfold valueAt
  split
  next inner => exact Nat.le_succ_of_le (length_upTo_le _ inner)
  next inner => exact Nat.le_succ_of_le (length_upTo_le _ inner)
  next => exact (List.dropWhile_suffix _).length_le

def assigned (cs : List Char) : List Char × List Char :=
  match Text.trimStart cs with
  | '=' :: rest =>
      let (raw, after) := valueAt (Text.trimStart rest)
      (Entity.decode raw, after)
  | rest => ([], rest)

theorem length_assigned_le (cs : List Char) : (assigned cs).2.length ≤ cs.length := by
  have trimmed := Text.length_trimStart_le cs
  unfold assigned
  split
  next rest equal =>
    rw [equal, List.length_cons] at trimmed
    have value := length_valueAt_le (Text.trimStart rest)
    have start := Text.length_trimStart_le rest
    simp only
    omega
  next => exact trimmed

/-- An opening tag from behind its name on. -/
structure Body where
  attributes : List (String × List Char)
  selfClosing : Bool
  rest : List Char

theorem length_tail_lt {cs rest : List Char} {c : Char} (trimmed : Text.trimStart cs = c :: rest) :
    rest.length < cs.length := by
  have start := Text.length_trimStart_le cs
  rw [trimmed, List.length_cons] at start
  exact start

theorem length_after_value_le (cs : List Char) : (assigned (afterName cs)).2.length ≤ cs.length :=
  Nat.le_trans (length_assigned_le _) (length_afterName_le cs)

/-- A slash that does not end the tag and an equals sign without a name are skipped. -/
def body (cs : List Char) : Body :=
  match _ : Text.trimStart cs with
  | [] => ⟨[], false, []⟩
  | c :: rest =>
      if c = '>' then ⟨[], false, rest⟩
      else if c = '/' then
        if rest.head? = some '>' then ⟨[], true, rest.drop 1⟩ else body rest
      else if c = '=' then body rest
      else
        let further := body (assigned (afterName rest)).2
        { further with
          attributes := (nameOf (c :: rest), (assigned (afterName rest)).1) :: further.attributes }
termination_by cs.length
decreasing_by
  all_goals have shorter := length_tail_lt ‹Text.trimStart cs = _›
  · exact shorter
  · exact shorter
  · exact Nat.lt_of_le_of_lt (length_after_value_le rest) shorter

theorem length_body_le (cs : List Char) : (body cs).rest.length ≤ cs.length := by
  fun_induction body cs with
  | case1 => exact Nat.zero_le _
  | case2 cs rest trimmed => exact Nat.le_of_lt (length_tail_lt trimmed)
  | case3 cs rest _ trimmed =>
      have shorter := length_tail_lt trimmed
      simp only [List.length_drop]
      omega
  | case4 cs rest _ trimmed _ ih => exact Nat.le_of_lt (Nat.lt_of_le_of_lt ih (length_tail_lt trimmed))
  | case5 cs rest trimmed _ _ ih => exact Nat.le_of_lt (Nat.lt_of_le_of_lt ih (length_tail_lt trimmed))
  | case6 cs c rest trimmed _ _ _ further ih =>
      have shorter := length_tail_lt trimmed
      have valued := length_after_value_le rest
      exact Nat.le_of_lt (Nat.lt_of_le_of_lt (Nat.le_trans ih valued) shorter)

/-- Whether a tag or a declaration may start here, which ends text. -/
def interruptsText : List Char → Bool
  | '<' :: c :: _ => c.isAlpha || c == '/' || c == '!'
  | _ => false

def textOf : List Char → List Char
  | [] => []
  | c :: rest => if interruptsText (c :: rest) then [] else c :: textOf rest

def afterText : List Char → List Char
  | [] => []
  | c :: rest => if interruptsText (c :: rest) then c :: rest else afterText rest

theorem textOf_append_afterText (cs : List Char) : textOf cs ++ afterText cs = cs := by
  induction cs with
  | nil => rfl
  | cons c rest ih =>
      simp only [textOf, afterText]
      split
      · rfl
      · rw [List.cons_append, ih]

theorem length_afterText_le (cs : List Char) : (afterText cs).length ≤ cs.length := by
  have whole := congrArg List.length (textOf_append_afterText cs)
  rw [List.length_append] at whole
  omega

/-- What follows the end of a comment, given the comment from its first hyphen on. -/
def afterComment : List Char → List Char
  | '-' :: '-' :: '>' :: rest => rest
  | _ :: rest => afterComment rest
  | [] => []

theorem length_afterComment_le (cs : List Char) : (afterComment cs).length ≤ cs.length := by
  fun_induction afterComment cs with
  | case1 rest => simp only [List.length_cons]; omega
  | case2 c rest _ ih => exact Nat.le_succ_of_le ih
  | case3 => exact Nat.le_refl _

def startsComment : List Char → Bool
  | '<' :: '!' :: '-' :: '-' :: _ => true
  | _ => false

def startsClosing : List Char → Bool
  | '<' :: '/' :: c :: _ => c.isAlpha
  | _ => false

def startsOpening : List Char → Bool
  | '<' :: c :: _ => c.isAlpha
  | _ => false

def scan (cs : List Char) : List Token :=
  match cs with
  | [] => []
  | c :: rest =>
      if startsComment (c :: rest) then scan (afterComment (rest.drop 1))
      else if startsClosing (c :: rest) then
        .closing (nameOf (rest.drop 1)) :: scan (upTo '>' (afterName (rest.drop 1))).2
      else if startsOpening (c :: rest) then
        let tagBody := body (afterName rest)
        .opening (nameOf rest) tagBody.attributes tagBody.selfClosing :: scan tagBody.rest
      else .text (Entity.decode (c :: textOf rest)) :: scan (afterText rest)
termination_by cs.length
decreasing_by
  all_goals simp only [List.length_cons]
  · have := length_afterComment_le (rest.drop 1)
    rw [List.length_drop] at this
    omega
  · have ended := length_upTo_le '>' (afterName (rest.drop 1))
    have named := length_afterName_le (rest.drop 1)
    rw [List.length_drop] at named
    omega
  · have ended := length_body_le (afterName rest)
    have named := length_afterName_le rest
    omega
  · have := length_afterText_le rest
    omega

end Token
end Patchwork.Markup
