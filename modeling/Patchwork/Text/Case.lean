/-! Letter case of ASCII only: every other character is its own lower case. -/
namespace Patchwork.Text

def lower (s : String) : String := s.map Char.toLower

def eqIgnoringCase (a b : String) : Bool := lower a == lower b

end Patchwork.Text
