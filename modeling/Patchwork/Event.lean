import Patchwork.Handle
import Patchwork.Text.Case
import Patchwork.Text.Quoted

/-! Events that can be bound through attributes whose name starts with `on`, and what a handler of
such an event receives. Names are read up to the case of ASCII letters. -/
namespace Patchwork

/-- What happened, in the order in which the categories are listed. -/
inductive Category
  | click | input | submit | change | focus | blur | keyDown | keyUp | mouseOver | mouseOut
deriving DecidableEq, Inhabited

namespace Category

def all : List Category :=
  [click, input, submit, change, focus, blur, keyDown, keyUp, mouseOver, mouseOut]

def index : Category → Nat
  | click => 0 | input => 1 | submit => 2 | change => 3 | focus => 4
  | blur => 5 | keyDown => 6 | keyUp => 7 | mouseOver => 8 | mouseOut => 9

theorem index_injective {a b : Category} (same : a.index = b.index) : a = b := by
  revert same; cases a <;> cases b <;> decide

instance : Ord Category := ⟨fun a b => compare a.index b.index⟩

instance : Std.TransOrd Category where
  eq_swap := Std.OrientedOrd.eq_swap (α := Nat)
  isLE_trans := Std.TransOrd.isLE_trans (α := Nat)

instance : Std.LawfulEqOrd Category where
  eq_of_compare same := index_injective (Std.LawfulEqOrd.eq_of_compare (α := Nat) same)

def name : Category → String
  | click => "click" | input => "input" | submit => "submit" | change => "change"
  | focus => "focus" | blur => "blur" | keyDown => "keydown" | keyUp => "keyup"
  | mouseOver => "mouseover" | mouseOut => "mouseout"

def debug : Category → String
  | click => "Click" | input => "Input" | submit => "Submit" | change => "Change"
  | focus => "Focus" | blur => "Blur" | keyDown => "KeyDown" | keyUp => "KeyUp"
  | mouseOver => "MouseOver" | mouseOut => "MouseOut"

/-- An event name that no category has, in lower case. -/
structure Unsupported where
  name : String
deriving DecidableEq

def Unsupported.message (e : Unsupported) : String :=
  "unsupported event category " ++ Text.quoted e.name

def parse (name : String) : Except Unsupported Category :=
  match all.find? fun c => Text.eqIgnoringCase c.name name with
  | some c => .ok c
  | none => .error ⟨Text.lower name⟩

/-- What an attribute of this name binds; nothing unless the name starts with `on`. -/
def ofAttribute? (key : String) : Option (Except Unsupported Category) :=
  match key.toList with
  | o :: n :: rest =>
      if o.toLower = 'o' ∧ n.toLower = 'n' then some (parse (String.ofList rest)) else none
  | _ => none

end Category

/-- A callback, compared by identity. What it does is the program's business. -/
structure Handler where
  id : Nat
deriving DecidableEq, Inhabited

/-- What a handler receives. The value is that of a form control. -/
structure Event where
  category : Category
  target : NodeId
  value : Option String

end Patchwork
