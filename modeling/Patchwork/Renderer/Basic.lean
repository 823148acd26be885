import Patchwork.Binder
import Patchwork.Renderer.Activation
import Patchwork.Scheduler

/-! The state of a renderer and the steps that work on it. A step reads and changes the state, reports
into it, and may give up altogether; an error of a render is a result and keeps the changes made before
it. -/
namespace Patchwork

/-- What the calls in progress keep: gone when the outermost call returns. -/
structure Calls where
  /-- The activation that hook calls are about. -/
  current : Option ActivationId
  /-- Activations whose output is being paired, and so must not change. -/
  reading : List ActivationId
  /-- Entries that were taken out of their container for the time of a render. -/
  suspended : List (List Mounted)
  /-- Activations that a call in progress works on. -/
  held : List ActivationId
  /-- Activations created by the innermost render in progress, newest first. -/
  created : List ActivationId
deriving Inhabited

def Calls.none : Calls := ⟨Option.none, [], [], [], []⟩

/-- Renders trees into containers of a live layer `D` and keeps them up to date; `σ` is what the
components' program itself remembers. -/
structure Renderer (D σ : Type) {δ : StateData} [HasStateData σ δ] where
  dom : D
  binder : Binder
  activations : Activations
  cells : Arena (Cell δ.Datum)
  roots : Dict NodeId (List Mounted)
  scheduler : Scheduler ActivationId
  /-- How many flush tasks wait in the microtask queue. -/
  waiting : Nat
  /-- How many flushes were begun. -/
  epoch : Nat
  /-- Whether the renderer was dropped. Its state cells live on in their setters. -/
  dropped : Bool
  store : σ
  /-- Newest first. -/
  reports : List Report
  calls : Calls

/-- Why a call was given up. -/
inductive Abort
  /-- An output was to be changed while it was being paired. -/
  | busy (activation : ActivationId)
  /-- Calls were nested deeper, or went on for longer, than allowed. -/
  | exhausted
deriving DecidableEq

abbrev RenderM (D σ : Type) {δ : StateData} [HasStateData σ δ] := StateT (Renderer D σ) (Except Abort)

/-- The result of a step that may fail to render. What the step changed before stays changed. -/
abbrev Fallible (α : Type) := Except RenderError α

namespace Renderer

variable {D σ : Type} {δ : StateData} [HasStateData σ δ]

def new (dom : D) (store : σ) : Renderer D σ :=
  { dom, store
    binder := ∅
    activations := .empty
    cells := .empty
    roots := .empty
    scheduler := .empty
    waiting := 0
    epoch := 0
    dropped := false
    reports := []
    calls := .none }

def abort (reason : Abort) : RenderM D σ α := fun _ => .error reason

def report (r : Report) : RenderM D σ Unit := modify fun s => { s with reports := r :: s.reports }

def reportAll (rs : List Report) : RenderM D σ Unit :=
  modify fun s => { s with reports := rs.reverseAux s.reports }

def history (s : Renderer D σ) : List Report := s.reports.reverse

def logged (l : Logged α) : RenderM D σ α := do
  reportAll l.reports
  return l.value

def onDom (f : D → Logged D) : RenderM D σ Unit :=
  modify fun s =>
    let changed := f s.dom
    { s with dom := changed.value, reports := changed.reports.reverseAux s.reports }

def makeNode (f : D → α × D) : RenderM D σ α :=
  modifyGet fun s =>
    let (made, dom) := f s.dom
    (made, { s with dom })

def cell? (s : Renderer D σ) (id : CellId) : Option (Cell δ.Datum) := s.cells.get? id.index

def datum (s : Renderer D σ) (id : CellId) : δ.Datum := ((s.cell? id).map Cell.datum).getD default

def updateActivation (a : ActivationId) (f : Activation → Activation) : RenderM D σ Unit :=
  modify fun s => { s with activations := s.activations.update a f }

/-- Replaces an activation's output, which must not be in use for pairing. -/
def setOutput (a : ActivationId) (output : List Mounted) : RenderM D σ Unit := do
  if a ∈ (← get).calls.reading then abort (.busy a)
  updateActivation a ({ · with output })

def takeOutput (a : ActivationId) : RenderM D σ (List Mounted) := do
  let output := (← get).activations.output a
  setOutput a []
  return output

def onCalls (f : Calls → Calls) : RenderM D σ Unit := modify fun s => { s with calls := f s.calls }

/-- Runs a step with changed call bookkeeping, and puts it back as it was, except that activations
created by the step stay on record. -/
def withCalls (f : Calls → Calls) (step : RenderM D σ α) : RenderM D σ α := do
  let before := (← get).calls
  onCalls f
  let result ← step
  onCalls fun now => { before with created := now.created }
  return result

/-- Runs a step as a render of its own: what the calls around it work on is held, and the activations
that the step creates are recorded apart. -/
def inPass (f : Calls → Calls) (step : RenderM D σ α) : RenderM D σ α := do
  let outer := (← get).calls.created
  let result ← withCalls (fun c => f { c with held := outer ++ c.held, created := [] }) step
  onCalls ({ · with created := outer })
  return result

/-- The lists of entries that something refers to: those in a container, those set aside by a render in
progress, and the activations that a call in progress works on. -/
def referring (s : Renderer D σ) : List (List Mounted) :=
  s.roots.toList.map Prod.snd ++ s.calls.suspended ++
    [(s.calls.held ++ s.calls.created).map .component]

def reachable (s : Renderer D σ) : List ActivationId :=
  s.referring.flatMap (Mounted.activations s.activations)

def isReachable (s : Renderer D σ) (a : ActivationId) : Bool :=
  s.referring.any (Mounted.holds s.activations · a)

theorem isReachable_iff (s : Renderer D σ) (a : ActivationId) :
    s.isReachable a = true ↔ a ∈ s.reachable := by
  simp only [isReachable, reachable, List.any_eq_true, List.mem_flatMap, Mounted.holds_iff]

/-- Whether an activation was neither unmounted nor lost. -/
def isLive (s : Renderer D σ) (a : ActivationId) : Bool :=
  s.activations.isRegistered a && s.isReachable a

def listenerCount (s : Renderer D σ) : Nat := s.binder.listenerCount

def committed? (s : Renderer D σ) (a : ActivationId) : Option Tree :=
  if s.isLive a then (s.activations.find? a).bind Activation.committed else none

def debug (s : Renderer D σ) : String :=
  Text.record "Runtime" [
    Text.field "roots" (toString s.roots.size),
    Text.field "activations" (toString s.activations.registered.length),
    Text.field "scheduler" (s.scheduler.debug ActivationId.debug), ".."]

end Renderer
end Patchwork
