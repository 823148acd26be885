import Patchwork.Document.Basic
import Patchwork.Markup.Entity
import Patchwork.Markup.Forest

/-! What stands under a node of a document, as a tree, and what can be read off it: its markup, its
handles, its form controls and its listeners, all in document order. -/
namespace Patchwork

inductive Subtree
  | element (id : NodeId) (e : Element) (children : List Subtree)
  | text (id : NodeId) (s : String)
  | missing (id : NodeId)

namespace Document

def subtreeWithin (d : Document) : Nat → NodeId → Subtree
  | 0, n => .missing n
  | levels + 1, n =>
      match d.node? n with
      | none => .missing n
      | some node =>
          match node.content with
          | .text s => .text n s
          | .element e => .element n e (node.children.toList.map (d.subtreeWithin levels))

/-- What stands under a node. No path has more nodes than handles were issued. -/
def subtree (d : Document) (n : NodeId) : Subtree := d.subtreeWithin (Layer.depth d) n

end Document

namespace Subtree

def id : Subtree → NodeId
  | element id _ _ | text id _ | missing id => id

def children : Subtree → List Subtree
  | element _ _ children => children
  | text .. | missing _ => []

/-- An empty value is written as the bare name. -/
def attributeHtml (name value : String) : List Char :=
  ' ' :: name.toList ++
    if value.isEmpty then []
    else ['=', '"'] ++ Markup.Entity.escape .attribute value.toList ++ ['"']

def openingHtml (e : Element) : List Char :=
  '<' :: e.tag.toList ++
    e.attributes.toList.flatMap (fun (name, value) => attributeHtml name value) ++
    (if e.styles.isEmpty then [] else attributeHtml "style" e.styles.text) ++ ['>']

def closingHtml (e : Element) : List Char := ['<', '/'] ++ e.tag.toList ++ ['>']

mutual

def html : Subtree → List Char
  | text _ s => Markup.Entity.escape .content s.toList
  | missing _ => []
  | element _ e children =>
      openingHtml e ++
        if Markup.isVoid e.tag then []
        else htmlOfAll children ++ closingHtml e

def htmlOfAll : List Subtree → List Char
  | [] => []
  | t :: rest => html t ++ htmlOfAll rest

end

mutual

def gaps : Subtree → List NodeId
  | text .. => []
  | missing id => [id]
  | element _ e children => if Markup.isVoid e.tag then [] else gapsOfAll children

def gapsOfAll : List Subtree → List NodeId
  | [] => []
  | t :: rest => gaps t ++ gapsOfAll rest

end

mutual

def elements : Subtree → List (NodeId × Element)
  | text .. | missing _ => []
  | element id e children => (id, e) :: elementsOfAll children

def elementsOfAll : List Subtree → List (NodeId × Element)
  | [] => []
  | t :: rest => elements t ++ elementsOfAll rest

end

def controls (t : Subtree) : List (NodeId × String) :=
  t.elements.filterMap fun (id, e) => e.liveValue?.map (id, ·)

def bound (t : Subtree) : List (NodeId × Category × Nat) :=
  t.elements.flatMap fun (id, e) =>
    Category.all.filterMap fun c =>
      let count := (e.handlers c).length
      if count = 0 then none else some (id, c, count)

end Subtree

namespace Document

def toHtml (d : Document) (n : NodeId) : Logged String :=
  let t := d.subtree n
  ⟨String.ofList t.html, t.gaps.map .serialisingMissing⟩

def innerHtml (d : Document) (n : NodeId) : Logged String :=
  let ts := (d.children n).map d.subtree
  ⟨String.ofList (Subtree.htmlOfAll ts), (Subtree.gapsOfAll ts).map .serialisingMissing⟩

def roots (d : Document) : List NodeId :=
  d.liveNodes.filter fun n => !((d.parent? n).any d.contains)

/-- A node, given by its handle or by child positions from a handle on. -/
def resolvePath (d : Document) (start : NodeId) (positions : List Nat) : Option NodeId :=
  positions.foldlM (fun n i => (d.children n)[i]?) start

end Document
end Patchwork
