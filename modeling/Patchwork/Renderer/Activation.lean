import Patchwork.Arena
import Patchwork.Tree

/-! What is mounted: for every container and every activation, one entry per position with the live
nodes that show it. An activation is one mounted instance of a component, with its state cells. -/
namespace Patchwork

/-- What shows one position of a list of children. -/
inductive Mounted
  | text (node : NodeId)
  | element (node : NodeId) (tag : String) (children : List Mounted)
  | component (activation : ActivationId)
  /-- Adopted, so it is detached in the end but never released. -/
  | raw (node : NodeId) (raw : RawNode)
deriving Inhabited

/-- A mounted instance of a component. The same component at the same position keeps its activation. -/
structure Activation where
  /-- The activation whose output this one was first part of. -/
  owner : Option ActivationId
  component : Component
  props : Props
  cells : List CellId
  cursor : Nat
  /-- How many cells the last successful invocation used. -/
  previousCount : Option Nat
  parent : Option NodeId
  output : List Mounted
  /-- The tree of the last render that took effect. -/
  committed : Option Tree
  /-- The flush during which the last render took effect. -/
  renderedIn : Nat
  unmounted : Bool
deriving Inhabited

abbrev Activations := Arena Activation

/-- A state cell: what it holds, and the activation that is re-rendered when that changes. -/
structure Cell (δ : Type) where
  owner : ActivationId
  datum : δ

structure Setter (κ : Type) where
  cell : CellId
  type : κ
deriving DecidableEq, Inhabited

def Setter.same {κ : Type} (x y : Setter κ) : Bool := x.cell == y.cell

namespace Activations

def find? (as : Activations) (a : ActivationId) : Option Activation := as.get? a.index

def update (as : Activations) (a : ActivationId) (f : Activation → Activation) : Activations :=
  as.modify a.index f

def output (as : Activations) (a : ActivationId) : List Mounted :=
  ((as.find? a).map Activation.output).getD []

def registered (as : Activations) : List ActivationId :=
  (as.handles.map ActivationId.mk).filter fun a => (as.find? a).any (!·.unmounted)

def isRegistered (as : Activations) (a : ActivationId) : Bool := (as.find? a).any (!·.unmounted)

def debug (as : Activations) (a : ActivationId) : String :=
  match as.find? a with
  | none => a.debug
  | some record =>
      Text.record "Activation" [
        Text.field "id" a.debug,
        Text.field "owner" (debugOption ActivationId.debug record.owner),
        Text.field "component" (Text.quoted record.component.name),
        Text.field "parent" (Text.record "Cell" [Text.field "value" (debugOption NodeId.debug record.parent)]),
        Text.field "state_cells" (toString record.cells.length),
        Text.field "unmounted" (if record.unmounted then "true" else "false")]

/-- An output is nested no deeper than there are activations. -/
def depth (as : Activations) : Nat := as.issued

end Activations

namespace Mounted

mutual

def debug (as : Activations) : Mounted → String
  | text node => Text.record "Text" [Text.field "node" node.debug]
  | element node tag children =>
      Text.record "Element" [
        Text.field "node" node.debug,
        Text.field "tag" (Text.quoted tag),
        Text.field "children" ("[" ++ ", ".intercalate (debugAll as children) ++ "]")]
  | component a => "Component(" ++ as.debug a ++ ")"
  | raw node _ => Text.record "Raw" [Text.field "node" node.debug, Text.field "raw" "RawNode(PTR)"]

def debugAll (as : Activations) : List Mounted → List String
  | [] => []
  | m :: rest => debug as m :: debugAll as rest

end

/-- The live nodes that an entry places directly into its parent, through a number of outputs. -/
def nodesWithin (as : Activations) : Nat → Mounted → List NodeId
  | _, text node | _, element node _ _ | _, raw node _ => [node]
  | 0, component _ => []
  | levels + 1, component a => (as.output a).flatMap (nodesWithin as levels)

def nodes (as : Activations) (m : Mounted) : List NodeId := m.nodesWithin as as.depth

def firstNodeWithin (as : Activations) : Nat → Mounted → Option NodeId
  | _, text node | _, element node _ _ | _, raw node _ => some node
  | 0, component _ => none
  | levels + 1, component a => (as.output a).head?.bind (firstNodeWithin as levels)

def firstNode? (as : Activations) (m : Mounted) : Option NodeId := m.firstNodeWithin as as.depth

def lastNodeWithin (as : Activations) : Nat → Mounted → Option NodeId
  | _, text node | _, element node _ _ | _, raw node _ => some node
  | 0, component _ => none
  | levels + 1, component a => (as.output a).getLast?.bind (lastNodeWithin as levels)

def lastNode? (as : Activations) (m : Mounted) : Option NodeId := m.lastNodeWithin as as.depth

mutual

/-- The activations among an entry and its descendants, each followed by those inside it. -/
def activationsBy (inside : ActivationId → List ActivationId) : Mounted → List ActivationId
  | text _ | raw _ _ => []
  | component a => a :: inside a
  | element _ _ children => activationsOfAllBy inside children

def activationsOfAllBy (inside : ActivationId → List ActivationId) :
    List Mounted → List ActivationId
  | [] => []
  | m :: rest => activationsBy inside m ++ activationsOfAllBy inside rest

end

def activationsInside (as : Activations) : Nat → ActivationId → List ActivationId
  | 0, _ => []
  | levels + 1, a => activationsOfAllBy (activationsInside as levels) (as.output a)

def activations (as : Activations) (ms : List Mounted) : List ActivationId :=
  activationsOfAllBy (activationsInside as as.depth) ms

mutual

/-- Whether an activation is an entry's or inside it, found without listing the others. -/
def holdsBy (inside : ActivationId → Bool) (a : ActivationId) : Mounted → Bool
  | text _ | raw _ _ => false
  | component b => a = b || inside b
  | element _ _ children => anyHoldsBy inside a children

def anyHoldsBy (inside : ActivationId → Bool) (a : ActivationId) : List Mounted → Bool
  | [] => false
  | m :: rest => holdsBy inside a m || anyHoldsBy inside a rest

end

def holdsInside (as : Activations) (a : ActivationId) : Nat → ActivationId → Bool
  | 0, _ => false
  | levels + 1, b => anyHoldsBy (holdsInside as a levels) a (as.output b)

def holds (as : Activations) (ms : List Mounted) (a : ActivationId) : Bool :=
  anyHoldsBy (holdsInside as a as.depth) a ms

mutual

theorem holdsBy_iff {found : ActivationId → Bool} {inside : ActivationId → List ActivationId}
    {a : ActivationId} (agree : ∀ b, found b = true ↔ a ∈ inside b) :
    ∀ m, holdsBy found a m = true ↔ a ∈ activationsBy inside m
  | text _ | raw _ _ => by simp only [holdsBy, activationsBy, List.not_mem_nil, Bool.false_eq_true]
  | component b => by
      simp only [holdsBy, activationsBy, Bool.or_eq_true, decide_eq_true_eq, List.mem_cons,
        agree]
  | element _ _ children => by
      simp only [holdsBy, activationsBy]
      exact anyHoldsBy_iff agree children

theorem anyHoldsBy_iff {found : ActivationId → Bool} {inside : ActivationId → List ActivationId}
    {a : ActivationId} (agree : ∀ b, found b = true ↔ a ∈ inside b) :
    ∀ ms, anyHoldsBy found a ms = true ↔ a ∈ activationsOfAllBy inside ms
  | [] => by
      simp only [anyHoldsBy, activationsOfAllBy, List.not_mem_nil, Bool.false_eq_true]
  | m :: rest => by
      simp only [anyHoldsBy, activationsOfAllBy, Bool.or_eq_true, List.mem_append,
        holdsBy_iff agree m, anyHoldsBy_iff agree rest]

end

theorem holdsInside_iff (as : Activations) (a : ActivationId) :
    ∀ levels b, holdsInside as a levels b = true ↔ a ∈ activationsInside as levels b
  | 0, b => by
      simp only [holdsInside, activationsInside, List.not_mem_nil, Bool.false_eq_true]
  | levels + 1, b => by
      simp only [holdsInside, activationsInside]
      exact anyHoldsBy_iff (holdsInside_iff as a levels) (as.output b)

theorem holds_iff (as : Activations) (ms : List Mounted) (a : ActivationId) :
    holds as ms a = true ↔ a ∈ activations as ms :=
  anyHoldsBy_iff (holdsInside_iff as a as.depth) ms

end Mounted
end Patchwork
