import Patchwork.Document.Basic
import Patchwork.Layer.Recorded
import Patchwork.Layer.Load
import Patchwork.Renderer.Engine

/-! What a page calls: rendering, flushing, the deferred tasks and events. Each call carries out what
the program's components and handlers ask for. -/
namespace Patchwork

/-- A layer that knows which handlers an event reaches. -/
class EventPath (D : Type) where
  /-- The handlers that an event at a node reaches, innermost first. -/
  pathHandlers : D → NodeId → Category → List Handler

instance : EventPath Document := ⟨Document.pathHandlers⟩

instance [EventPath D] : EventPath (Recorded D) := ⟨fun r => EventPath.pathHandlers r.layer⟩

namespace Renderer

variable {D σ : Type} {δ : StateData} [HasStateData σ δ] [Layer D]

/-- How deep components may invoke one another: deeper than any stack reaches. -/
def maxLevels : Nat := 1 <<< 62

/-- How many deferred tasks one run may take: more than any run gets to. -/
def maxTasks : Nat := 1 <<< 62

def top (program : Program σ) : Level D σ := level program maxLevels

def render (program : Program σ) (tree : Tree) (container : NodeId) :
    RenderM D σ (Fallible Unit) :=
  renderBy (top program).invocation tree container

def renderComponent (program : Program σ) (component : Component) (container : NodeId)
    (props : Props) : RenderM D σ (Fallible Unit) :=
  render program (.component ⟨component, props⟩) container

def flush (program : Program σ) : RenderM D σ (Except FlushError Nat) :=
  flushBy (top program).invocation

/-- The task that an armed flush waits as. It does nothing once the renderer was dropped. -/
def runTask (program : Program σ) : RenderM D σ Unit := do
  if (← get).dropped then return
  if let .error e := ← flush program then report (.flushFailed e)

/-- Runs tasks until none waits; answers how many, on top of those that ran before. -/
def runTasks (program : Program σ) : (limit : Nat) → (before : Nat) → RenderM D σ Nat
  | 0, _ => abort .exhausted
  | limit + 1, before => do
      if (← get).waiting = 0 then return before
      modify fun s => { s with waiting := s.waiting - 1 }
      runTask program
      runTasks program limit (before + 1)

/-- Runs the deferred tasks in the order of queueing, those that they queue included. -/
def runUntilIdle (program : Program σ) : RenderM D σ Nat := do
  report .runningUntilIdle
  let count ← runTasks program maxTasks 0
  report (.ranTasks count)
  return count

/-- Calls handlers in order; answers whether one of them prevented the default. -/
def callHandlers (program : Program σ) (event : Event) : List Handler → RenderM D σ Bool
  | [] => return false
  | h :: rest => do
      let prevented ← perform (top program) (program.handler h event)
      let others ← callHandlers program event rest
      return prevented || others

/-- Simulates an event at a node; answers whether the default is to go ahead. Which handlers are called
is settled before the first one runs. A value is written to the target first, as if it was typed. -/
def dispatch [EventPath D] (program : Program σ) (target : NodeId) (category : Category)
    (value : Option String) : RenderM D σ Bool := do
  report (.dispatching target category value)
  if let some text := value then onDom (Layer.setValue · target text)
  let dom := (← get).dom
  let handlers := EventPath.pathHandlers dom target category
  report (.callingHandlers handlers.length)
  let prevented ← callHandlers program ⟨category, target, Layer.value? dom target⟩ handlers
  return !prevented

def snapshot (container : NodeId) : RenderM D σ (List Tree) := do
  logged (Layer.loadChildren (← get).dom container)

/-- Drops the renderer: nothing it was asked to do later happens any more. -/
def drop : RenderM D σ Unit := modify fun s => { s with dropped := true }

end Renderer
end Patchwork
