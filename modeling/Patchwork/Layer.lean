import Patchwork.Report
import Patchwork.Tree

/-! Live presentation layers: what a renderer writes to. A call that cannot be carried out is reported
and leaves the layer as it is; the renderer checks what it patches through the reading calls. -/
namespace Patchwork

/-- A live tree of elements and text nodes under handles. -/
class Layer (D : Type) where
  createElement : D → (tag : String) → NodeId × D
  createText : D → (text : String) → NodeId × D
  /-- The handle of a node made elsewhere, if it is one of this layer's. -/
  adopt : D → RawNode → Option NodeId × D
  release : D → NodeId → Logged D
  tagName? : D → NodeId → Option String
  text? : D → NodeId → Option String
  setText : D → NodeId → String → Logged D
  childNodes : D → NodeId → Logged (List NodeId)
  nextSibling? : D → NodeId → Option NodeId
  /-- Inserts or moves `child` before `reference`, or to the end if there is none. -/
  insertBefore : D → (parent child : NodeId) → (reference : Option NodeId) → Logged D
  removeChild : D → (parent child : NodeId) → Logged D
  attributeNames : D → NodeId → Logged (List String)
  attribute? : D → NodeId → (name : String) → Option String
  setAttribute : D → NodeId → (name value : String) → Logged D
  removeAttribute : D → NodeId → (name : String) → Logged D
  setStyle : D → NodeId → (property value : String) → Logged D
  removeStyle : D → NodeId → (property : String) → Logged D
  value? : D → NodeId → Option String
  setValue : D → NodeId → String → Logged D
  addListener : D → NodeId → Category → Handler → Logged D
  removeListener : D → NodeId → Category → Handler → Logged D
  /-- Bounds the length of every path down the live tree. -/
  depth : D → Nat

/-- Elements that have a live value besides their attributes. -/
def isFormControl (tag : String) : Bool := tag == "input" || tag == "select" || tag == "textarea"

end Patchwork
