import Patchwork.Error
import Patchwork.Event
import Patchwork.Number.Display
import Patchwork.Style

/-! Presentation trees: what a render is asked to show. A tree is never changed; the live nodes that
show it are. -/
namespace Patchwork

inductive Primitive
  | text (s : String)
  | number (n : Number)
  | bool (b : Bool)
deriving DecidableEq, Inhabited

namespace Primitive

def display : Primitive → String
  | text s => s
  | number n => n.text
  | bool b => if b then "true" else "false"

def same : Primitive → Primitive → Bool
  | number a, number b => a.same b
  | a, b => a == b

end Primitive

inductive AttrValue
  | text (s : String)
  /-- Present without content, or absent. -/
  | bool (b : Bool)
  | style (declarations : Style)
  /-- Bound as a listener if the attribute's name starts with `on`. -/
  | handler (h : Handler)
deriving DecidableEq, Inhabited

abbrev Attributes := Dict String AttrValue

/-- The argument of a component, compared by identity. -/
structure Parcel where
  id : Nat
  datum : Datum
deriving DecidableEq, Inhabited

abbrev Props := Option Parcel

namespace Props

def same : Props → Props → Bool
  | some a, some b => a.id == b.id
  | none, none => true
  | _, _ => false

def get? (props : Props) (type : DatumType) : Option Datum :=
  (props.map Parcel.datum).filter (·.type = type)

def require (props : Props) (type : DatumType) : Except RenderError Datum :=
  match props.get? type with
  | some datum => .ok datum
  | none => .error (.missingProps type)

end Props

/-- A component function. Two components are the same if their identities are, whatever code they
were given; the code says which body the program runs. -/
structure Component where
  identity : Nat
  code : String
deriving DecidableEq, Inhabited

namespace Component

def name (c : Component) : String := "slot" ++ toString c.identity

def same (a b : Component) : Bool := a.identity == b.identity

end Component

/-- A component that is to be rendered with an activation of its own. -/
structure ComponentRef where
  component : Component
  props : Props
deriving DecidableEq, Inhabited

def ComponentRef.same (a b : ComponentRef) : Bool :=
  a.component.same b.component && a.props.same b.props

/-- A node made elsewhere and shown as it is, compared by identity. A presentation layer adopts those
that wrap one of its own handles. -/
structure RawNode where
  id : Nat
  wraps : Option NodeId
deriving DecidableEq, Inhabited

def RawNode.same (a b : RawNode) : Bool := a.id == b.id

inductive Tree
  | element (tag : String) (attributes : Attributes) (children : List Tree)
  /-- Several roots in one, spliced into the parent's children. -/
  | fragment (children : List Tree)
  | text (p : Primitive)
  | component (reference : ComponentRef)
  | raw (node : RawNode)
deriving Inhabited

namespace Tree

mutual

/-- Equality as the program compares: numbers numerically, identities by identity. -/
def same : Tree → Tree → Bool
  | element tag attributes children, element tag' attributes' children' =>
      tag == tag' && attributes == attributes' && sameAll children children'
  | fragment children, fragment children' => sameAll children children'
  | text p, text p' => p.same p'
  | component r, component r' => r.same r'
  | raw n, raw n' => n.same n'
  | _, _ => false

def sameAll : List Tree → List Tree → Bool
  | [], [] => true
  | t :: ts, t' :: ts' => same t t' && sameAll ts ts'
  | _, _ => false

end

def isNode : Tree → Bool
  | element .. | fragment _ => true
  | _ => false

def isPrimitive : Tree → Bool
  | text _ => true
  | _ => false

def isComponent : Tree → Bool
  | component _ => true
  | _ => false

def primitive? : Tree → Option Primitive
  | text p => some p
  | _ => none

def tag? : Tree → Option String
  | element tag .. => some tag
  | _ => none

def kindName? : Tree → Option String
  | element tag .. => some tag
  | fragment _ => some "#fragment"
  | _ => none

def shape : Tree → Shape
  | element .. | fragment _ => .node
  | text _ => .primitive
  | component _ => .component
  | raw _ => .raw

end Tree
end Patchwork
