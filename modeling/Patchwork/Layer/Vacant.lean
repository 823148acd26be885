import Patchwork.Layer

/-! A browser's layer that was never given a node: every handle is unknown to it. Reads answer with
nothing, most writes report the handle, and nothing ever changes. -/
namespace Patchwork

structure Vacant where
deriving DecidableEq, Inhabited

namespace Vacant

def contains (_ : Vacant) (_ : NodeId) : Bool := false

def debug (_ : Vacant) : String := Text.record "WebDom" [Text.field "nodes" "0", Text.field "listeners" "0", ".."]

def unknown (d : Vacant) (nodes : List NodeId) : Logged Vacant := ⟨d, nodes.map .unknownNode⟩

instance : Layer Vacant where
  createElement d _ := (⟨0⟩, d)
  createText d _ := (⟨0⟩, d)
  adopt d _ := (none, d)
  release d n := ⟨d, [.releasedUnknown n]⟩
  tagName? _ _ := none
  text? _ _ := none
  setText d n _ := ⟨d, [.unknownNode n, .notAText n]⟩
  childNodes _ n := ⟨[], [.unknownNode n]⟩
  nextSibling? _ _ := none
  insertBefore d parent child reference :=
    ⟨d, [.insertingBefore parent child reference, .unknownNode parent, .unknownNode child]⟩
  removeChild d parent child := d.unknown [parent, child]
  attributeNames _ n := ⟨[], [.unknownNode n]⟩
  attribute? _ _ _ := none
  setAttribute d n _ _ := d.unknown [n]
  removeAttribute d n _ := d.unknown [n]
  setStyle d n _ _ := ⟨d, [.unknownNode n, .notStyleable n]⟩
  removeStyle d n _ := d.unknown [n]
  value? _ _ := none
  setValue d n _ := d.unknown [n]
  addListener d n category _ := ⟨d, [.addingListenerTo n category, .unknownNode n]⟩
  removeListener d n category _ :=
    ⟨d, [.removingListenerFrom n category, .noListeners category n]⟩
  depth _ := 0

end Vacant
end Patchwork
