import Patchwork.Renderer.Basic
import Patchwork.Renderer.Plan
import Patchwork.Tree.Flat

/-! Pairing what is mounted with the next tree, by position. Every component that will be shown is
invoked, and nothing live is touched. A position is patched if it holds an entry of the same kind that
is still live; anything else is planned anew. -/
namespace Patchwork.Renderer

variable {D σ : Type} {δ : StateData} [HasStateData σ δ] [Layer D]

/-- How an activation is invoked: with which component, which props, and whether it is fresh. -/
abbrev Invocation (D σ : Type) {δ : StateData} [HasStateData σ δ] :=
  ActivationId → Component → Props → RenderM D σ (Fallible Rendered)

def createActivation (reference : ComponentRef) (owner : Option ActivationId) :
    RenderM D σ ActivationId := do
  let index ← modifyGet fun s =>
    let (index, activations) := s.activations.alloc
      { owner
        component := reference.component
        props := reference.props
        cells := []
        cursor := 0
        previousCount := none
        parent := none
        output := []
        committed := none
        renderedIn := s.epoch
        unmounted := false }
    (index, { s with activations })
  let a : ActivationId := ⟨index⟩
  report (.creatingActivation a reference.component.name)
  onCalls fun c => { c with created := a :: c.created }
  return a

def checkText (node : NodeId) : RenderM D σ Bool := do
  let found := (Layer.text? (← get).dom node).isSome
  if !found then report (.expectedText node)
  return found

def checkElement (node : NodeId) (tag : String) : RenderM D σ Bool := do
  let live := Layer.tagName? (← get).dom node
  let found := live.any (Text.eqIgnoringCase · tag)
  if !found then report (.expectedElement tag live node)
  return found

def elementAt? (tag : String) : Option Mounted → Option (NodeId × List Mounted)
  | some (.element node mounted children) => if mounted = tag then some (node, children) else none
  | _ => none

def activationAt? (activations : Activations) (component : Component) :
    Option Mounted → Option ActivationId
  | some (.component a) =>
      if (activations.find? a).any (·.component.same component) then some a else none
  | _ => none

def planRendered (fresh : Bool) (rendered : Fallible Rendered) : Fallible Plan :=
  rendered.map (·.plan fresh)

mutual

def pair (invocation : Invocation D σ) (owner : Option ActivationId) (entry : Option Mounted) :
    Flat → RenderM D σ (Fallible Plan)
  | .text s => do
      match entry with
      | some (.text node) => return .ok (.text s (← checkText node))
      | _ => return .ok (.text s false)
  | .element tag attributes children => do
      match elementAt? tag entry with
      | none =>
          let plans ← pairAll invocation owner [] children
          return plans.map (.element tag attributes · false)
      | some (node, entries) =>
          let live ← checkElement node tag
          let plans ← pairAll invocation owner (if live then entries else []) children
          return plans.map (.element tag attributes · live)
  | .component reference => do
      match activationAt? (← get).activations reference.component entry with
      | some a => return planRendered false (← invocation a reference.component reference.props)
      | none =>
          let a ← createActivation reference owner
          return planRendered true (← invocation a reference.component reference.props)
  | .raw node => do
      match entry with
      | some (.raw _ mounted) => return .ok (.raw node (mounted.same node))
      | _ => return .ok (.raw node false)

/-- Plans a list of positions, up to the first that fails. -/
def pairAll (invocation : Invocation D σ) (owner : Option ActivationId) :
    List Mounted → List Flat → RenderM D σ (Fallible (List Plan))
  | _, [] => return .ok []
  | entries, position :: positions => do
      match ← pair invocation owner entries.head? position with
      | .error e => return .error e
      | .ok plan =>
          let plans ← pairAll invocation owner entries.tail positions
          return plans.map (plan :: ·)

end

end Patchwork.Renderer
