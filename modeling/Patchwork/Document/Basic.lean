import Patchwork.Arena
import Patchwork.Layer

/-! Documents: a live tree in memory. Parent and children are stored on both sides of each link. As in
a browser, the `style` attribute and the style properties are one declaration. -/
namespace Patchwork

structure Element where
  tag : String
  attributes : Dict String String
  styles : Style
  /-- The live value of a form control, once it was set. -/
  value : Option String
  /-- In the order in which they were attached. -/
  listeners : List (Category × Handler)
deriving DecidableEq, Inhabited

namespace Element

/-- Until it is set, the live value is that of the `value` attribute, or empty. -/
def liveValue? (e : Element) : Option String :=
  if isFormControl e.tag then some ((e.value <|> e.attributes.get? "value").getD "") else none

def handlers (e : Element) (category : Category) : List Handler :=
  (e.listeners.filter (·.1 = category)).map Prod.snd

end Element

inductive Content
  | element (e : Element)
  | text (s : String)
deriving DecidableEq, Inhabited

structure Node where
  content : Content
  parent : Option NodeId
  children : Array NodeId
deriving DecidableEq, Inhabited

namespace Node

def position? (p : Node) (child : NodeId) : Option Nat := p.children.findIdx? (· == child)

/-- Siblings with `child` put before `reference`, or at the end if that is not among them. -/
def placeBefore (child : NodeId) (reference : Option NodeId) (siblings : List NodeId) :
    List NodeId :=
  match reference with
  | none => siblings ++ [child]
  | some r =>
      match siblings.findIdx? (· == r) with
      | some i => siblings.insertIdx i child
      | none => siblings ++ [child]

def insertChild (p : Node) (child : NodeId) (reference : Option NodeId) : Node :=
  { p with
    children :=
      match reference with
      | none => p.children.push child
      | some r =>
          match p.position? r with
          | some i => p.children.insertIdxIfInBounds i child
          | none => p.children.push child }

theorem toList_insertChild (p : Node) (child : NodeId) (reference : Option NodeId) :
    (p.insertChild child reference).children.toList =
      placeBefore child reference p.children.toList := by
  obtain ⟨content, parent, ⟨siblings⟩⟩ := p
  cases reference with
  | none => simp only [insertChild, placeBefore, Array.toList_push]
  | some r =>
      simp only [insertChild, placeBefore, position?, List.findIdx?_toArray]
      cases siblings.findIdx? (· == r) with
      | none => simp only [List.push_toArray]
      | some i => simp only [List.insertIdxIfInBounds_toArray]

def removeChild (p : Node) (child : NodeId) : Node :=
  { p with children := p.children.filter (· ≠ child) }

theorem toList_removeChild (p : Node) (child : NodeId) :
    (p.removeChild child).children.toList = p.children.toList.filter (· ≠ child) := by
  simp only [removeChild, Array.toList_filter]

end Node

structure Document where
  nodes : Arena Node
deriving DecidableEq, Inhabited

namespace Document

def empty : Document := ⟨.empty⟩

def node? (d : Document) (n : NodeId) : Option Node := d.nodes.get? n.index

def contains (d : Document) (n : NodeId) : Bool := (d.node? n).isSome

def element? (d : Document) (n : NodeId) : Option Element :=
  match (d.node? n).map Node.content with
  | some (.element e) => some e
  | _ => none

def tagName? (d : Document) (n : NodeId) : Option String := (d.element? n).map Element.tag

def text? (d : Document) (n : NodeId) : Option String :=
  match (d.node? n).map Node.content with
  | some (.text s) => some s
  | _ => none

def parent? (d : Document) (n : NodeId) : Option NodeId := (d.node? n).bind Node.parent

def children (d : Document) (n : NodeId) : List NodeId :=
  ((d.node? n).map fun node => node.children.toList).getD []

def liveNodes (d : Document) : List NodeId := d.nodes.handles.map NodeId.mk

def nodeCount (d : Document) : Nat := d.nodes.count

def modify (d : Document) (n : NodeId) (f : Node → Node) : Document := ⟨d.nodes.modify n.index f⟩

def create (d : Document) (content : Content) : NodeId × Document :=
  let (index, nodes) := d.nodes.alloc ⟨content, none, #[]⟩
  (⟨index⟩, ⟨nodes⟩)

def createElement (d : Document) (tag : String) : NodeId × Document :=
  d.create (.element ⟨Text.lower tag, .empty, .empty, none, []⟩)

def createText (d : Document) (text : String) : NodeId × Document := d.create (.text text)

def createContainer (d : Document) : NodeId × Document := d.createElement "div"

def adopt? (d : Document) (raw : RawNode) : Option NodeId := raw.wraps.filter d.contains

def nextSibling? (d : Document) (n : NodeId) : Option NodeId := do
  let parent ← d.node? (← d.parent? n)
  parent.children[(← parent.position? n) + 1]?

def detach (d : Document) (child : NodeId) : Document :=
  match d.parent? child with
  | none => d
  | some parent =>
      (d.modify child ({ · with parent := none })).modify parent (·.removeChild child)

def release (d : Document) (n : NodeId) : Logged Document :=
  let detached := d.detach n
  ⟨⟨detached.nodes.free n.index⟩, if d.contains n then [] else [.releasedUnknown n]⟩

def onElement (d : Document) (n : NodeId) (f : Element → Logged Element) : Logged Document :=
  match (d.node? n).map Node.content with
  | some (.element e) => (f e).map fun e => d.modify n ({ · with content := .element e })
  | some (.text _) => ⟨d, [.notAnElement n]⟩
  | none => ⟨d, [.missingNode n]⟩

def setText (d : Document) (n : NodeId) (text : String) : Logged Document :=
  if (d.text? n).isSome then pure (d.modify n ({ · with content := .text text }))
  else ⟨d, [.notAText n]⟩

def insertBefore (d : Document) (parent child : NodeId) (reference : Option NodeId) :
    Logged Document := do
  Logged.report (.insertingBefore parent child reference)
  if !d.contains child then
    Logged.report (.insertingMissing child)
    return d
  match (d.node? parent).map Node.content with
  | none =>
      Logged.report (.missingNode parent)
      return d
  | some (.text _) =>
      Logged.report (.notAnElement parent)
      return d
  | some (.element _) =>
      let detached := d.detach child
      if let some r := reference then
        if ((detached.node? parent).bind (·.position? r)).isNone then
          Logged.report (.strangeReference r parent)
      Logged.report .inserted
      return (detached.modify parent (·.insertChild child reference)).modify child
        ({ · with parent := some parent })

def removeChild (d : Document) (parent child : NodeId) : Logged Document :=
  if d.parent? child = some parent then pure (d.detach child)
  else ⟨d, [.notItsParent child parent]⟩

def attributeNames (d : Document) (n : NodeId) : List String :=
  match d.element? n with
  | some e => e.attributes.keys ++ (if e.styles.isEmpty then [] else ["style"])
  | none => []

def attribute? (d : Document) (n : NodeId) (name : String) : Option String :=
  (d.element? n).bind fun e =>
    if name = "style" then (if e.styles.isEmpty then none else some e.styles.text)
    else e.attributes.get? name

def setAttribute (d : Document) (n : NodeId) (name value : String) : Logged Document :=
  d.onElement n fun e => pure <|
    if name = "style" then { e with styles := Style.parse value }
    else { e with attributes := e.attributes.insert name value }

def removeAttribute (d : Document) (n : NodeId) (name : String) : Logged Document :=
  d.onElement n fun e => pure <|
    if name = "style" then { e with styles := .empty }
    else { e with attributes := e.attributes.erase name }

def style? (d : Document) (n : NodeId) (property : String) : Option String :=
  (d.element? n).bind fun e => e.styles.get? property

def setStyle (d : Document) (n : NodeId) (property value : String) : Logged Document :=
  d.onElement n fun e => pure { e with styles := e.styles.insert property value }

def removeStyle (d : Document) (n : NodeId) (property : String) : Logged Document :=
  d.onElement n fun e => pure { e with styles := e.styles.erase property }

def value? (d : Document) (n : NodeId) : Option String := (d.element? n).bind Element.liveValue?

def setValue (d : Document) (n : NodeId) (value : String) : Logged Document :=
  d.onElement n fun e =>
    if isFormControl e.tag then pure { e with value := some value }
    else ⟨e, [.noValueProperty e.tag n]⟩

def handlers (d : Document) (n : NodeId) (category : Category) : List Handler :=
  ((d.element? n).map (Element.handlers · category)).getD []

def addListener (d : Document) (n : NodeId) (category : Category) (h : Handler) :
    Logged Document :=
  d.onElement n fun e => pure { e with listeners := e.listeners ++ [(category, h)] }

def removeListener (d : Document) (n : NodeId) (category : Category) (h : Handler) :
    Logged Document :=
  d.onElement n fun e =>
    if (category, h) ∈ e.listeners then pure { e with listeners := e.listeners.erase (category, h) }
    else ⟨e, [.listenerNotAttached category n]⟩

/-- The handlers met on the way from a node to its outermost ancestor, within a number of steps. -/
def handlersUpwards (d : Document) (category : Category) : Nat → NodeId → List Handler
  | 0, _ => []
  | steps + 1, n =>
      d.handlers n category ++
        match d.parent? n with
        | some p => d.handlersUpwards category steps p
        | none => []

/-- The handlers that an event at a node reaches, innermost first. No path upwards has more steps than
handles were issued. -/
def pathHandlers (d : Document) (target : NodeId) (category : Category) : List Handler :=
  d.handlersUpwards category d.nodes.issued target

instance : Layer Document where
  createElement := createElement
  createText := createText
  adopt d raw := (d.adopt? raw, d)
  release := release
  tagName? := tagName?
  text? := text?
  setText := setText
  childNodes d n := pure (d.children n)
  nextSibling? := nextSibling?
  insertBefore := insertBefore
  removeChild := removeChild
  attributeNames d n := pure (d.attributeNames n)
  attribute? := attribute?
  setAttribute := setAttribute
  removeAttribute := removeAttribute
  setStyle := setStyle
  removeStyle := removeStyle
  value? := value?
  setValue := setValue
  addListener := addListener
  removeListener := removeListener
  depth d := d.nodes.issued + 1

end Document
end Patchwork
