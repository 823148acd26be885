import Patchwork.Layer
import Patchwork.Slots
import Patchwork.Text.Digest
import Std.Data.ExtTreeMap

/-! Applying attributes to live elements. The binder remembers what it applied to each node, so that
what is missing from the next attributes is taken away again, and each node has at most one listener
of a category. -/
namespace Patchwork

/-- What was last applied to a live element. -/
structure Bindings where
  attributes : List String
  styles : List String
  listeners : Dict Category Handler
  /-- The order in which listeners are taken away. -/
  slots : Slots.Table Category
deriving DecidableEq, Inhabited

def Bindings.empty : Bindings := ⟨[], [], .empty, Slots.empty⟩

/-- Bookkeeping per live element, kept apart from the attributes it came from. -/
abbrev Binder := Std.ExtTreeMap NodeId Bindings

namespace Binder

/-- What an attribute asks for on an element. -/
inductive Purpose
  | listener (h : Handler)
  /-- The live value of a form control. -/
  | control (text : String)
  | declarations (s : Style)
  | absent
  | plain (text : String)
deriving DecidableEq

/-- The text of an attribute that is not bound as a listener. -/
def stringify : AttrValue → String
  | .text s => s
  | .bool true => ""
  | .bool false => "false"
  | .style s => s.text
  | .handler _ => ""

def purpose (tag name : String) : AttrValue → Purpose
  | .handler h => .listener h
  | value =>
      if name = "value" ∧ isFormControl tag then .control (stringify value)
      else match value with
        | .style s => if name = "style" then .declarations s else .plain s.text
        | .bool false => .absent
        | _ => .plain (stringify value)

def plainNames (tag : String) (attributes : Attributes) : List String :=
  attributes.toList.filterMap fun (name, value) =>
    match purpose tag name value with
    | .plain _ => some name
    | _ => none

def styleNames (tag : String) (attributes : Attributes) : List String :=
  attributes.toList.flatMap fun (name, value) =>
    match purpose tag name value with
    | .declarations s => s.keys
    | _ => []

/-- Plain names in the order in which they are taken away. -/
def attributeOrder (names : List String) : List String :=
  Slots.sortBy Text.Digest.ofText (Slots.ofMembers Text.Digest.ofText 0 names) id names

def styleOrder (properties : List String) : List String :=
  Slots.sortBy Text.Digest.ofText (Slots.ofMembers Text.Digest.ofText properties.length properties) id
    properties

def categoryDigest (c : Category) : UInt64 := Text.Digest.ofNumber c.index

def listenerOrder (slots : Slots.Table Category) (listeners : Dict Category Handler) :
    List (Category × Handler) :=
  Slots.sortBy categoryDigest slots Prod.fst listeners.toList

variable {D : Type} [Layer D]

def removeAttributes (node : NodeId) : List String → D → Logged D
  | [], dom => pure dom
  | name :: rest, dom => do
      Logged.report (.removingAttribute name)
      removeAttributes node rest (← Layer.removeAttribute dom node name)

def removeStyles (node : NodeId) : List String → D → Logged D
  | [], dom => pure dom
  | property :: rest, dom => do
      Logged.report (.removingStyle property)
      removeStyles node rest (← Layer.removeStyle dom node property)

def setStyles (node : NodeId) : List (String × String) → D → Logged D
  | [], dom => pure dom
  | (property, value) :: rest, dom => do
      Logged.report (.settingStyle property (.of value))
      setStyles node rest (← Layer.setStyle dom node property value)

/-- The listeners of one node while its attributes are being applied, and the categories asked for so
far. -/
structure Binding (D : Type) where
  dom : D
  listeners : Dict Category Handler
  slots : Slots.Table Category
  categories : List Category

def Binding.record (b : Binding D) (dom : D) (category : Category) (h : Handler) : Binding D :=
  { b with
    dom
    listeners := b.listeners.insert category h
    slots := Slots.add categoryDigest b.slots category }

/-- Makes `h` the node's only listener of its category. -/
def bindListener (node : NodeId) (category : Category) (h : Handler) (b : Binding D) :
    Logged (Binding D) := do
  match b.listeners.get? category with
  | some previous =>
      if previous = h then return b
      Logged.report (.replacingListener category)
      let dom ← Layer.removeListener b.dom node category previous
      let dom ← Layer.addListener dom node category h
      return b.record dom category h
  | none =>
      Logged.report (.addingListener category)
      let dom ← Layer.addListener b.dom node category h
      return b.record dom category h

def applyHandler (node : NodeId) (tag name : String) (h : Handler) (b : Binding D) :
    Logged (Binding D) := do
  match Category.ofAttribute? name with
  | some (.ok category) =>
      if category ∈ b.categories then Logged.report (.multipleHandlers category tag name)
      bindListener node category h
        { b with categories := if category ∈ b.categories then b.categories
                               else category :: b.categories }
  | some (.error reason) =>
      Logged.report (.unsupportedBinding name tag reason)
      return b
  | none =>
      Logged.report (.misplacedHandler name tag)
      return b

/-- Writes one attribute. What already is as asked for is left alone, except for style properties. -/
def applyOne (node : NodeId) (tag name : String) (value : AttrValue) (b : Binding D) :
    Logged (Binding D) := do
  match purpose tag name value with
  | .listener h => applyHandler node tag name h b
  | .control text =>
      if Layer.value? b.dom node = some text then return b
      Logged.report (.updatingControl (.of text))
      return { b with dom := ← Layer.setValue b.dom node text }
  | .declarations s => return { b with dom := ← setStyles node s.toList b.dom }
  | .absent =>
      if (Layer.attribute? b.dom node name).isNone then return b
      Logged.report (.removingFlag name)
      return { b with dom := ← Layer.removeAttribute b.dom node name }
  | .plain text =>
      if Layer.attribute? b.dom node name = some text then return b
      Logged.report (.settingAttribute name (.of text))
      return { b with dom := ← Layer.setAttribute b.dom node name text }

def applyAll (node : NodeId) (tag : String) :
    List (String × AttrValue) → Binding D → Logged (Binding D)
  | [], b => pure b
  | (name, value) :: rest, b => do applyAll node tag rest (← applyOne node tag name value b)

def removeListeners (node : NodeId) : List (Category × Handler) → D → Logged D
  | [], dom => pure dom
  | (category, h) :: rest, dom => do
      Logged.report (.removingListener category)
      removeListeners node rest (← Layer.removeListener dom node category h)

/-- Gives a live element exactly these attributes. What was applied before and is not asked for any
more goes first, because style text and style properties share one declaration. -/
def apply (binder : Binder) (dom : D) (node : NodeId) (tag : String) (attributes : Attributes) :
    Logged (Binder × D) := do
  Logged.report (.applyingAttributes node tag)
  let before := binder[node]?.getD .empty
  let names := plainNames tag attributes
  let styles := styleNames tag attributes
  let dom ← removeAttributes node ((attributeOrder before.attributes).filter (· ∉ names)) dom
  let dom ← removeStyles node ((styleOrder before.styles).filter (· ∉ styles)) dom
  let bound ← applyAll node tag attributes.toList ⟨dom, before.listeners, before.slots, []⟩
  -- What is bound without having been asked for was bound before.
  let stale := (listenerOrder bound.slots bound.listeners).filter (·.1 ∉ bound.categories)
  let dom ← removeListeners node stale bound.dom
  let kept := bound.listeners.filter fun category _ => category ∈ bound.categories
  let slots := Slots.filter (· ∈ bound.categories) bound.slots
  return (binder.insert node ⟨names, styles, kept, slots⟩, dom)

def detachListeners (node : NodeId) : List (Category × Handler) → D → Logged D
  | [], dom => pure dom
  | (category, h) :: rest, dom => do
      detachListeners node rest (← Layer.removeListener dom node category h)

/-- Detaches a node's listeners and drops its bookkeeping. Its attributes stay, since the node is about
to be discarded. -/
def forget (binder : Binder) (dom : D) (node : NodeId) : Logged (Binder × D) := do
  Logged.report (.forgetting node)
  match binder[node]? with
  | none => return (binder, dom)
  | some bindings =>
      let dom ← detachListeners node (listenerOrder bindings.slots bindings.listeners) dom
      return (binder.erase node, dom)

def listener? (binder : Binder) (node : NodeId) (category : Category) : Option Handler :=
  binder[node]?.bind fun bindings => bindings.listeners.get? category

def listenerCount (binder : Binder) : Nat :=
  binder.foldl (fun count _ bindings => count + bindings.listeners.size) 0

end Binder
end Patchwork
