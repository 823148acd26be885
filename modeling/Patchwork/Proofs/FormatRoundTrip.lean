import Patchwork.Template

/-! A format is a template in one text. Any list of parts can be written as a format, with the braces of the
parts doubled, and is read back as it was, whatever braces meet where two parts join. -/
namespace Patchwork.Template

def doubledChar (c : Char) : List Char := if c = '{' ∨ c = '}' then [c, c] else [c]

def doubled (part : String) : String := String.ofList (part.toList.flatMap doubledChar)

/-- The format of a template: its parts with their braces doubled, and an empty pair of braces for each
site. -/
def format (parts : List String) : String := (String.ofList ['{', '}']).intercalate (parts.map doubled)

/-- A doubled brace is read as one and any other character as itself, whatever comes after it. -/
theorem formatParts_doubledChar (c : Char) (rest : List Char) :
    formatParts (doubledChar c ++ rest) = cons c (formatParts rest) := by
  unfold doubledChar
  split
  next brace =>
    rcases brace with rfl | rfl
    · rw [List.cons_append, List.singleton_append, formatParts]
    · rw [List.cons_append, List.singleton_append, formatParts]
  next plain =>
    obtain ⟨notOpening, notClosing⟩ := not_or.mp plain
    rw [List.singleton_append, formatParts]
    · rintro _ rfl
      contradiction
    · rintro _ rfl
      contradiction
    · rintro _ rfl
      contradiction

theorem formatParts_site (rest : List Char) :
    formatParts (['{', '}'] ++ rest) = [] :: formatParts rest := by
  rw [List.cons_append, List.singleton_append, formatParts]

theorem formatParts_doubled (cs : List Char) {rest part : List Char} {others : List (List Char)}
    (read : formatParts rest = part :: others) :
    formatParts (cs.flatMap doubledChar ++ rest) = (cs ++ part) :: others := by
  induction cs with
  | nil => exact read
  | cons c cs ih =>
      rw [List.flatMap_cons, List.append_assoc, formatParts_doubledChar, ih]
      rfl

/-- A format is read as the parts that it was made of. The induction is on the parts, and what comes after a
part is its end or the pair of braces of a site. -/
theorem formatParts_format (first : String) (rest : List String) :
    formatParts (format (first :: rest)).toList = (first :: rest).map String.toList := by
  rw [format, String.toList_intercalate, String.toList_ofList, List.map_map]
  induction rest generalizing first with
  | nil =>
      have ended : formatParts [] = [[]] := rfl
      simpa [doubled] using formatParts_doubled first.toList ended
  | cons second rest ih =>
      have further (tail : List Char) := formatParts_doubled first.toList (formatParts_site tail)
      simp only [List.map_cons, Function.comp_apply, List.intercalate_cons_cons, doubled, String.toList_ofList,
        List.append_assoc] at ih ⊢
      rw [further, ih, List.append_nil]

/-- A format stands for the template of its parts, whether the values fit or not. -/
theorem parseFormat_format (first : String) (rest : List String) (values : List Value) :
    parseFormat (format (first :: rest)) values = parse (first :: rest) values := by
  rw [parseFormat, formatParts_format, List.map_map]
  congr 1
  simp

example : (format [String.singleton '{', String.singleton '}']).toList = ['{', '{', '{', '}', '}', '}'] := by
  decide

end Patchwork.Template
