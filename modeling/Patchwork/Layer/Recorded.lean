import Patchwork.Layer

/-! A layer that keeps a record of the changes asked of it, whether or not they could be carried
out. -/
namespace Patchwork

inductive Edit
  | createElement (id : NodeId) (tag : String)
  | createText (id : NodeId) (text : String)
  | adopt (id : Option NodeId)
  | release (id : NodeId)
  | setText (id : NodeId) (text : String)
  | insertBefore (parent child : NodeId) (reference : Option NodeId)
  | removeChild (parent child : NodeId)
  | setAttribute (id : NodeId) (name value : String)
  | removeAttribute (id : NodeId) (name : String)
  | setStyle (id : NodeId) (property value : String)
  | removeStyle (id : NodeId) (property : String)
  | setValue (id : NodeId) (value : String)
  | addListener (id : NodeId) (category : Category)
  | removeListener (id : NodeId) (category : Category)
deriving DecidableEq

namespace Edit

/-- The removals among which no order is laid down, each with the text that orders them. -/
def removal? : Edit → Option ((Nat × NodeId) × String)
  | removeAttribute id name => some ((0, id), name)
  | removeStyle id property => some ((1, id), property)
  | removeListener id category => some ((2, id), category.name)
  | _ => none

/-- Puts an edit in front of a run of removals like it, in the order of their texts. -/
def settle (e : Edit) : List Edit → List Edit
  | [] => [e]
  | next :: rest =>
      match e.removal?, next.removal? with
      | some (kind, text), some (kind', text') =>
          if kind = kind' ∧ text' < text then next :: settle e rest else e :: next :: rest
      | _, _ => e :: next :: rest

def settled (edits : List Edit) : List Edit := edits.foldr settle []

end Edit

structure Recorded (D : Type) where
  layer : D
  /-- Newest first. -/
  edits : List Edit
deriving Inhabited

namespace Recorded

variable {D : Type} [Layer D]

/-- The edits in the order in which they were asked for. -/
def history (r : Recorded D) : List Edit := Edit.settled r.edits.reverse

def forgetEdits (r : Recorded D) : Recorded D := { r with edits := [] }

def record (e : Edit) (change : D → Logged D) : Recorded D → Logged (Recorded D)
  | ⟨layer, edits⟩ => (change layer).map fun layer => ⟨layer, e :: edits⟩

def recordMade (edit : α → Edit) (make : D → α × D) : Recorded D → α × Recorded D
  | ⟨layer, edits⟩ =>
      let (made, layer) := make layer
      (made, ⟨layer, edit made :: edits⟩)

instance : Layer (Recorded D) where
  createElement r tag := r.recordMade (.createElement · tag) (Layer.createElement · tag)
  createText r text := r.recordMade (.createText · text) (Layer.createText · text)
  adopt r raw := r.recordMade .adopt (Layer.adopt · raw)
  release r n := r.record (.release n) (Layer.release · n)
  tagName? r := Layer.tagName? r.layer
  text? r := Layer.text? r.layer
  setText r n text := r.record (.setText n text) (Layer.setText · n text)
  childNodes r := Layer.childNodes r.layer
  nextSibling? r := Layer.nextSibling? r.layer
  insertBefore r parent child reference :=
    r.record (.insertBefore parent child reference) (Layer.insertBefore · parent child reference)
  removeChild r parent child :=
    r.record (.removeChild parent child) (Layer.removeChild · parent child)
  attributeNames r := Layer.attributeNames r.layer
  attribute? r := Layer.attribute? r.layer
  setAttribute r n name value :=
    r.record (.setAttribute n name value) (Layer.setAttribute · n name value)
  removeAttribute r n name :=
    r.record (.removeAttribute n name) (Layer.removeAttribute · n name)
  setStyle r n property value :=
    r.record (.setStyle n property value) (Layer.setStyle · n property value)
  removeStyle r n property :=
    r.record (.removeStyle n property) (Layer.removeStyle · n property)
  value? r := Layer.value? r.layer
  setValue r n value := r.record (.setValue n value) (Layer.setValue · n value)
  addListener r n category h :=
    r.record (.addListener n category) (Layer.addListener · n category h)
  removeListener r n category h :=
    r.record (.removeListener n category) (Layer.removeListener · n category h)
  depth r := Layer.depth r.layer

end Recorded
end Patchwork
