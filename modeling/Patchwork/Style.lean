import Patchwork.Dict
import Patchwork.Text.Blank

/-! Style declarations: a map from properties to values, written as `property: value;` and read back
leniently. -/
namespace Patchwork

abbrev Style := Dict String String

namespace Style

/-- The pieces between separators; there is one more of them than separators. -/
def pieces (separator : Char) : List Char → List (List Char)
  | [] => [[]]
  | c :: rest =>
      if c = separator then [] :: pieces separator rest
      else match pieces separator rest with
        | [] => [[c]]
        | piece :: others => (c :: piece) :: others

def splitOnce? (separator : Char) (cs : List Char) : Option (List Char × List Char) :=
  match cs.dropWhile (· ≠ separator) with
  | [] => none
  | _ :: after => some (cs.takeWhile (· ≠ separator), after)

/-- Property and value are trimmed. A declaration without a colon or a property counts for nothing. -/
def declaration? (cs : List Char) : Option (String × String) :=
  match splitOnce? ':' cs with
  | none => none
  | some (property, value) =>
      let property := Text.trim property
      if property.isEmpty then none
      else some (String.ofList property, String.ofList (Text.trim value))

/-- Of several declarations of one property the last one counts. -/
def parse (css : String) : Style :=
  Dict.ofList ((pieces ';' css.toList).filterMap declaration?)

def declarationText (property value : String) : String := property ++ ": " ++ value ++ ";"

def text (s : Style) : String :=
  " ".intercalate (s.toList.map fun (property, value) => declarationText property value)

end Style
end Patchwork
