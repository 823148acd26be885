/-! Handles of live nodes and of component activations, ordered by when they were issued. -/
namespace Patchwork

structure NodeId where
  index : Nat
deriving DecidableEq, Inhabited

namespace NodeId

instance : Ord NodeId := ⟨fun a b => compare a.index b.index⟩

instance : Std.TransOrd NodeId where
  eq_swap := Std.OrientedOrd.eq_swap (α := Nat)
  isLE_trans := Std.TransOrd.isLE_trans (α := Nat)

instance : Std.LawfulEqOrd NodeId where
  eq_of_compare {a b} same := by
    cases a; cases b
    exact congrArg _ (Std.LawfulEqOrd.eq_of_compare (α := Nat) same)

def text (n : NodeId) : String := "#" ++ toString n.index

def debug (n : NodeId) : String := "NodeId(" ++ toString n.index ++ ")"

end NodeId

/-- One mounted instance of a component. -/
structure ActivationId where
  index : Nat
deriving DecidableEq, Inhabited

namespace ActivationId

def text (a : ActivationId) : String := "activation " ++ toString a.index

def debug (a : ActivationId) : String := "ActivationId(" ++ toString a.index ++ ")"

end ActivationId

structure CellId where
  index : Nat
deriving DecidableEq, Inhabited

def debugOption (debug : α → String) : Option α → String
  | none => "None"
  | some a => "Some(" ++ debug a ++ ")"

end Patchwork
