import Patchwork.Tree

/-! Values that can be interpolated into a template, and which of them are children. A list stands for
a fragment of its items, nulls left out. -/
namespace Patchwork

inductive Value
  /-- Neither a child nor attribute text. -/
  | null
  | primitive (p : Primitive)
  | tree (t : Tree)
  | list (items : List Value)
  | handler (h : Handler)
  | style (declarations : Style)
deriving Inhabited

namespace Value

def isNull : Value → Bool
  | null => true
  | _ => false

def isPrimitive : Value → Bool
  | primitive _ => true
  | tree t => t.isPrimitive
  | _ => false

def isNode : Value → Bool
  | tree t => t.isNode
  | _ => false

def isComponent : Value → Bool
  | tree t => t.isComponent
  | _ => false

def shape : Value → Shape
  | null => .null
  | primitive _ => .primitive
  | tree t => t.shape
  | list _ => .list
  | handler _ => .handler
  | style _ => .style

mutual

def same : Value → Value → Bool
  | null, null => true
  | primitive p, primitive p' => p.same p'
  | tree t, tree t' => t.same t'
  | list items, list items' => sameAll items items'
  | handler h, handler h' => h == h'
  | style s, style s' => s == s'
  | _, _ => false

def sameAll : List Value → List Value → Bool
  | [], [] => true
  | v :: vs, v' :: vs' => same v v' && sameAll vs vs'
  | _, _ => false

end

mutual

/-- The child that a value stands for. Handlers and styles stand for none. -/
def toTree : Value → Except RenderError Tree
  | null => .ok (.fragment [])
  | primitive p => .ok (.text p)
  | tree t => .ok t
  | list items => (toTrees items).map .fragment
  | handler _ => .error (.malformedTree .handler)
  | style _ => .error (.malformedTree .style)

def toTrees : List Value → Except RenderError (List Tree)
  | [] => .ok []
  | null :: rest => toTrees rest
  | item :: rest =>
      match toTree item with
      | .error e => .error e
      | .ok t => (toTrees rest).map (t :: ·)

end

def debugProps : Props → String
  | none => "Props(None)"
  | some _ => "Props(PTR)"

def debugTree : Tree → String
  | .component r =>
      "Component(" ++ Text.record "ComponentRef" [
        Text.field "component" ("Component(" ++ Text.quoted r.component.name ++ ")"),
        Text.field "props" (debugProps r.props)] ++ ")"
  | .raw _ => "Raw(RawNode(PTR))"
  | t => t.shape.describe

mutual

/-- The form of values that are known by identity. Page content appears by its description only. -/
def debug : Value → String
  | null => "Null"
  | tree t => "Child(" ++ debugTree t ++ ")"
  | list items => "List([" ++ ", ".intercalate (debugAll items) ++ "])"
  | handler _ => "Handler(Handler(PTR))"
  | v => v.shape.describe

def debugAll : List Value → List String
  | [] => []
  | v :: vs => debug v :: debugAll vs

end

end Value
end Patchwork
