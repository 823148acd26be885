import Patchwork.Proofs.ComponentDeeds

/-! The first half of a render: pairing, with the components it invokes. The relations follow a pass
from position to position, depth first, and list the invocations in the order in which they happen, so
that nothing has to be said of levels any more. -/
namespace Patchwork

/-- One invocation of an activation during a pass, and what came of it. -/
structure Trial (δ : StateData) where
  activation : ActivationId
  component : Component
  props : Props
  deeds : List (Deed δ)
  outcome : Fallible Tree

def firstError {δ : StateData} : List (Trial δ) → Option RenderError
  | [] => none
  | trial :: rest =>
      match trial.outcome with
      | .error e => some e
      | .ok _ => firstError rest

def failure : Fallible α → Option RenderError
  | .error e => some e
  | .ok _ => none

@[simp] theorem failure_map (f : α → β) (r : Fallible α) : failure (r.map f) = failure r := by
  cases r <;> rfl

theorem failure_eq_some {r : Fallible α} : failure r = some e ↔ r = .error e := by
  cases r <;> simp [failure]

theorem firstError_append {δ : StateData} (one two : List (Trial δ)) :
    firstError (one ++ two) = (firstError one).or (firstError two) := by
  induction one with
  | nil => rfl
  | cons trial rest ih =>
      cases outcome : trial.outcome <;>
        simp only [List.cons_append, firstError, outcome, ih, Option.some_or]

namespace Renderer

variable {D σ : Type} {δ : StateData} [HasStateData σ δ]

@[simp] theorem returns_withCalls {f : Calls → Calls} {step : RenderM D σ α} :
    Returns (withCalls f step) s a t ↔
      ∃ u, Returns step { s with calls := f s.calls } a u ∧
        t = { u with calls := { s.calls with created := u.calls.created } } := by
  simp only [withCalls, returns_bind, returns_get, returns_onCalls, returns_pure]
  constructor
  · rintro ⟨_, _, ⟨rfl, rfl⟩, _, _, rfl, _, u, stepped, _, _, rfl, rfl, rfl⟩
    exact ⟨u, stepped, rfl⟩
  · rintro ⟨u, stepped, rfl⟩
    exact ⟨_, _, ⟨rfl, rfl⟩, ⟨⟩, _, rfl, _, u, stepped, ⟨⟩, _, rfl, rfl, rfl⟩

def entering (a : ActivationId) (component : Component) (s : Renderer D σ) : Renderer D σ :=
  { s with
    reports := .renderingActivation a component.name :: s.reports
    activations := s.activations.update a ({ · with cursor := 0 })
    calls := { s.calls with current := some a } }

/-- An activation's component was invoked and did its deeds. -/
inductive Ran (program : Program σ) (a : ActivationId) (component : Component) (props : Props) :
    Renderer D σ → List (Deed δ) → Fallible Tree → Renderer D σ → Prop
  | ended : Acts program (program.component component props) (s.entering a component) deeds outcome u →
      Returns (if outcome.isOk then checkCellCount a else pure ())
        { u with calls := { s.calls with created := u.calls.created } } () t →
      Ran program a component props s deeds outcome t

variable [Layer D]

def checkEntry : Option Mounted → RenderM D σ Bool
  | some (.text node) => checkText node
  | _ => pure false

def rawAt (node : RawNode) : Option Mounted → Bool
  | some (.raw _ mounted) => mounted.same node
  | _ => false

/-- What an element has to be paired with: whether it stays, and the entries inside it. -/
def opening (tag : String) (entry : Option Mounted) : RenderM D σ (Bool × List Mounted) :=
  match elementAt? tag entry with
  | none => pure (false, [])
  | some (node, entries) => do
      let live ← checkElement node tag
      return (live, if live then entries else [])

def placing (owner : Option ActivationId) (reference : ComponentRef) (entry : Option Mounted) :
    RenderM D σ (ActivationId × Bool) := do
  match activationAt? (← get).activations reference.component entry with
  | some a => return (a, false)
  | none => return (← createActivation reference owner, true)

def reading (a : ActivationId) (s : Renderer D σ) : Renderer D σ :=
  { s with calls := { s.calls with reading := a :: s.calls.reading } }

def resuming (calls : Calls) (s : Renderer D σ) : Renderer D σ :=
  { s with calls := { calls with created := s.calls.created } }

/-- Positions are paired with entries in order, up to the first invocation that fails. -/
inductive Passes (program : Program σ) : Option ActivationId → List Mounted → List Flat →
    Renderer D σ → List (Trial δ) → Fallible (List Plan) → Renderer D σ → Prop
  | nil : Passes program owner entries [] s [] (.ok []) s
  | text : Returns (checkEntry entries.head?) s reuse t →
      Passes program owner entries.tail positions t trials plans u →
      Passes program owner entries (.text content :: positions) s trials
        (plans.map (.text content reuse :: ·)) u
  | raw : Passes program owner entries.tail positions s trials plans t →
      Passes program owner entries (.raw node :: positions) s trials
        (plans.map (.raw node (rawAt node entries.head?) :: ·)) t
  | element : Returns (opening tag entries.head?) s (live, under) t →
      Passes program owner under children t one (.ok kids) u →
      Passes program owner entries.tail positions u two plans v →
      Passes program owner entries (.element tag attributes children :: positions) s (one ++ two)
        (plans.map (.element tag attributes kids live :: ·)) v
  | elementFailed : Returns (opening tag entries.head?) s (live, under) t →
      Passes program owner under children t trials (.error e) u →
      Passes program owner entries (.element tag attributes children :: positions) s trials (.error e) u
  | component : Returns (placing owner reference entries.head?) s (a, fresh) t →
      Ran program a reference.component reference.props t deeds (.ok tree) u →
      Passes program (some a) (u.activations.output a) tree.flattenOutput (u.reading a) one
        (.ok output) v →
      Passes program owner entries.tail positions (v.resuming u.calls) two plans w →
      Passes program owner entries (.component reference :: positions) s
        (⟨a, reference.component, reference.props, deeds, .ok tree⟩ :: (one ++ two))
        (plans.map
          (.component a fresh reference.component reference.props tree output :: ·)) w
  | componentFailed : Returns (placing owner reference entries.head?) s (a, fresh) t →
      Ran program a reference.component reference.props t deeds (.error e) u →
      Passes program owner entries (.component reference :: positions) s
        [⟨a, reference.component, reference.props, deeds, .error e⟩] (.error e) u
  | outputFailed : Returns (placing owner reference entries.head?) s (a, fresh) t →
      Ran program a reference.component reference.props t deeds (.ok tree) u →
      Passes program (some a) (u.activations.output a) tree.flattenOutput (u.reading a) trials
        (.error e) v →
      Passes program owner entries (.component reference :: positions) s
        (⟨a, reference.component, reference.props, deeds, .ok tree⟩ :: trials) (.error e)
        (v.resuming u.calls)

/-- An activation is invoked and its output paired with what it has mounted. -/
inductive Invokes (program : Program σ) (a : ActivationId) (component : Component) (props : Props) :
    Renderer D σ → List (Trial δ) → Fallible Rendered → Renderer D σ → Prop
  | failed : Ran program a component props s deeds (.error e) t →
      Invokes program a component props s [⟨a, component, props, deeds, .error e⟩] (.error e) t
  | paired : Ran program a component props s deeds (.ok tree) t →
      Passes program (some a) (t.activations.output a) tree.flattenOutput (t.reading a) trials plans u →
      Invokes program a component props s (⟨a, component, props, deeds, .ok tree⟩ :: trials)
        (plans.map (⟨a, component, props, tree, ·⟩)) (u.resuming t.calls)

theorem Passes.firstError_eq {program : Program σ} {s t : Renderer D σ}
    (passes : Passes program owner entries positions s trials plans t) :
    firstError trials = failure plans := by
  induction passes with
  | nil => rfl
  | text _ _ ih | raw _ ih => rw [ih, failure_map]
  | element _ _ _ one two => rw [firstError_append, one, two, failure_map]; rfl
  | elementFailed _ _ ih => exact ih
  | component _ _ _ _ one two =>
      rw [firstError, firstError_append, one, two, failure_map]; rfl
  | componentFailed => rfl
  | outputFailed _ _ _ ih => exact ih

theorem Invokes.firstError_eq {program : Program σ} {s t : Renderer D σ}
    (invokes : Invokes program a component props s trials rendered t) :
    firstError trials = failure rendered := by
  cases invokes with
  | failed => rfl
  | paired _ passes => rw [firstError, passes.firstError_eq, failure_map]

end Renderer
end Patchwork
