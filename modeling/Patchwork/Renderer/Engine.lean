import Patchwork.Renderer.Cells
import Patchwork.Renderer.Pairing
import Patchwork.Renderer.Patch
import Patchwork.Renderer.Program

/-! The renderer's calls, and the components they invoke. A component may itself call the renderer and
other components, so everything is defined over levels: what is called at one level is carried out at
the level below, and a call below the last level gives up. -/
namespace Patchwork.Renderer

variable {D σ : Type} {δ : StateData} [HasStateData σ δ] [Layer D]

/-- What a computation at some level can have done for it. -/
structure Level (D σ : Type) {δ : StateData} [HasStateData σ δ] where
  /-- Invokes a component as part of the current activation. -/
  invoke : Component → Props → RenderM D σ (Fallible Tree)
  /-- Invokes an activation and pairs its output with what it has mounted. -/
  invocation : Invocation D σ

/-- Renders a tree into a container, or updates what an earlier call rendered there. If a component
fails, nothing in the container changes. -/
def renderBy (invocation : Invocation D σ) (tree : Tree) (container : NodeId) :
    RenderM D σ (Fallible Unit) := do
  report (.rendering container)
  -- The entries are off the record during the pass, so a render from within finds the container empty.
  let mounted := ((← get).roots.get? container).getD []
  modify fun s => { s with roots := s.roots.erase container }
  let (mounted, result) ← inPass (fun c => { c with suspended := mounted :: c.suspended }) do
    match ← pairAll invocation none mounted tree.flatten with
    | .ok plans => return (← applyAll container none mounted plans, .ok ())
    | .error e =>
        unmountActivations (← get).calls.created.reverse
        return (mounted, .error e)
  if !mounted.isEmpty then
    modify fun s => { s with roots := s.roots.insert container mounted }
  report (.listenersBound (← get).listenerCount)
  return result

def unmountEntries (container : NodeId) : List Mounted → RenderM D σ Unit
  | [] => pure ()
  | entry :: rest => do
      detach container entry
      unmountEntry entry
      unmountEntries container rest

/-- Removes everything that was rendered into a container; answers whether there was anything. -/
def unmount (container : NodeId) : RenderM D σ Bool := do
  report (.unmountingContainer container)
  match (← get).roots.get? container with
  | none => return false
  | some mounted =>
      modify fun s => { s with roots := s.roots.erase container }
      unmountEntries container mounted
      return true

/-- Re-renders an activation in place, or leaves it as it was if a component fails. -/
def rerenderBy (invocation : Invocation D σ) (a : ActivationId) (record : Activation) :
    RenderM D σ (Fallible Unit) :=
  inPass (fun c => { c with held := a :: c.held }) do
    match ← invocation a record.component record.props with
    | .ok rendered =>
        commit rendered
        return .ok ()
    | .error e =>
        unmountActivations (← get).calls.created.reverse
        return .error e

/-- Re-renders pending activations; answers how many, and which failed. An activation that is gone, or
that was already rendered during this flush, is passed over. -/
def flushEach (invocation : Invocation D σ) (epoch : Nat) :
    List ActivationId → RenderM D σ (Nat × List (ActivationId × RenderError))
  | [] => return (0, [])
  | a :: rest => do
      let s ← get
      match (s.activations.find? a).filter fun _ => s.isLive a with
      | none =>
          report (.unmountedBeforeFlush a)
          flushEach invocation epoch rest
      | some record =>
          if record.renderedIn = epoch then
            report (.alreadyRendered a)
            flushEach invocation epoch rest
          else
            match ← rerenderBy invocation a record with
            | .ok () =>
                let (count, failures) ← flushEach invocation epoch rest
                return (count + 1, failures)
            | .error e =>
                report (.rerenderFailed a record.component.name e)
                let (count, failures) ← flushEach invocation epoch rest
                return (count, (a, e) :: failures)

def flushBy (invocation : Invocation D σ) : RenderM D σ (Except FlushError Nat) := do
  report .flushing
  -- What is requested from here on waits for the next flush.
  let (pending, scheduler) := (← get).scheduler.take
  let epoch := (← get).epoch + 1
  modify fun s => { s with scheduler, epoch }
  let (count, failures) ← flushEach invocation epoch pending
  report (.flushed count)
  return if failures.isEmpty then .ok count else .error ⟨failures⟩

def perform (level : Level D σ) {α : Type} : Action σ α → RenderM D σ α
  | .done a => return a
  | .load next => do perform level (next (← get).store)
  | .store store next => do
      modify fun s => { s with store }
      perform level next
  | .report reports next => do
      reportAll reports
      perform level next
  | .useState type initial next => do
      perform level (next (← useStateBy type (Subtype.val <$> perform level initial)))
  | .getCell setter next => do perform level (next (← getCell setter))
  | .updateCell setter change next => do
      updateCell setter change
      perform level next
  | .invoke component props next => do perform level (next (← level.invoke component props))
  | .render tree container next => do
      perform level (next (← renderBy level.invocation tree container))
  | .unmount container next => do perform level (next (← unmount container))
  | .flush next => do perform level (next (← flushBy level.invocation))

/-- Pairs an output with what its activation has mounted, which must not change meanwhile. -/
def pairOutput (invocation : Invocation D σ) (a : ActivationId) (tree : Tree) :
    RenderM D σ (Fallible (List Plan)) := do
  let mounted := (← get).activations.output a
  withCalls (fun c => { c with reading := a :: c.reading })
    (pairAll invocation (some a) mounted tree.flattenOutput)

/-- Invokes an activation by `body` and pairs its output. -/
def renderOutputBy (invocation : Invocation D σ)
    (body : Component → Props → RenderM D σ (Fallible Tree)) : Invocation D σ :=
  fun a component props => do
    report (.renderingActivation a component.name)
    match ← invoking a (body component props) with
    | .error e => return .error e
    | .ok tree =>
        let plans ← pairOutput invocation a tree
        return plans.map (⟨a, component, props, tree, ·⟩)

def Level.bottom : Level D σ where
  invoke _ _ := abort .exhausted
  invocation _ _ _ := abort .exhausted

/-- The level with a number of levels below it. A lower level is only made when it is called. -/
def level (program : Program σ) : (below : Nat) → Level D σ
  | 0 => .bottom
  | below + 1 =>
      { invoke := fun component props =>
          perform (level program below) (program.component component props)
        invocation := fun a component props =>
          renderOutputBy (fun a component props => (level program below).invocation a component props)
            (fun component props => perform (level program below) (program.component component props))
            a component props }

end Patchwork.Renderer
