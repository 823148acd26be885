import Patchwork.Layer

/-! Reading live content back as a tree, for example to compare what is shown with what was asked for.
Attributes come back as text; listeners, style properties and live values are not part of the tree. -/
namespace Patchwork.Layer

variable {D : Type} [Layer D]

def loadAttributes (d : D) (n : NodeId) : Logged Attributes :=
  (attributeNames d n).map fun names =>
    Dict.ofList (names.filterMap fun name => (attribute? d n name).map (name, AttrValue.text ·))

def loadChildrenBy (load : NodeId → Logged (Option Tree)) (d : D) (n : NodeId) :
    Logged (List Tree) := do
  let nodes ← childNodes d n
  let loaded ← nodes.mapM load
  return loaded.filterMap id

/-- The tree that a node shows, down to a number of levels; nothing if the layer has no such node. -/
def loadNodeWithin (d : D) : Nat → NodeId → Logged (Option Tree)
  | 0, _ => pure none
  | levels + 1, n =>
      match tagName? d n with
      | some tag => do
          let attributes ← loadAttributes d n
          let children ← loadChildrenBy (loadNodeWithin d levels) d n
          return some (.element tag attributes children)
      | none => pure ((text? d n).map (.text ∘ .text))

def loadNode (d : D) (n : NodeId) : Logged (Option Tree) := loadNodeWithin d (depth d) n

def loadChildren (d : D) (n : NodeId) : Logged (List Tree) :=
  loadChildrenBy (loadNodeWithin d (depth d)) d n

end Patchwork.Layer
