import Patchwork.Handle
import Patchwork.Datum

/-! Errors that end a render, and the failures of a flush. A tree that differs from what is mounted is
never an error. -/
namespace Patchwork

inductive Shape
  | null | primitive | node | component | raw | list | handler | style
deriving DecidableEq, Inhabited

def Shape.describe : Shape → String
  | null => "null"
  | primitive => "a primitive"
  | node => "a tree node"
  | component => "a component reference"
  | raw => "a raw node"
  | list => "a list"
  | handler => "an event handler"
  | style => "a style mapping"

inductive RenderError
  /-- State was asked for while no component was rendering. -/
  | invalidHookCall
  /-- The cell at `index` was created with another type than the one of this name. -/
  | hookTypeMismatch (index : Nat) (expected : String)
  | malformedTree (found : Shape)
  | templateArity (sites values : Nat)
  | component (message : String)
deriving DecidableEq, Inhabited

namespace RenderError

def message : RenderError → String
  | invalidHookCall => "\x60use_state\x60 must be called while a component is rendering"
  | hookTypeMismatch index expected =>
      "state cell " ++ toString index ++ " does not hold a \x60" ++ expected ++
        "\x60 (were hooks called in a different order?)"
  | malformedTree found =>
      "malformed tree: " ++ found.describe ++ " cannot be rendered as a child"
  | templateArity sites values =>
      "template has " ++ toString sites ++ " interpolation site(s) but " ++ toString values ++
        " value(s) were supplied"
  | component message => "component failed: " ++ message

def missingProps (expected : DatumType) : RenderError :=
  .component ("expected props of type \x60" ++ expected.name ++ "\x60")

end RenderError

/-- The activations whose re-render failed during one flush, in the order they were tried. -/
structure FlushError where
  failures : List (ActivationId × RenderError)
deriving DecidableEq, Inhabited

def FlushError.message (e : FlushError) : String :=
  toString e.failures.length ++ " scheduled re-render(s) failed" ++
    String.join (e.failures.map fun (id, error) => "\n  " ++ id.text ++ ": " ++ error.message)

end Patchwork
