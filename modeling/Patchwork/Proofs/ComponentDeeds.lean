import Patchwork.Proofs.ActivationTable
import Patchwork.Proofs.Step
import Patchwork.Renderer.Engine

/-! What the body of a component does when it calls nothing but hooks, setters and other components
inline. The relation follows a computation to its end and lists its deeds; levels do not occur in it.
Such a body leaves the live layer and everything that is mounted as they are. -/
namespace Patchwork

/-- What a body did, as far as the state cells tell. -/
inductive Deed (δ : StateData)
  | asked (type : δ.DataType) (answer : Fallible δ.Datum)
  | changed (owner : ActivationId) (cell : CellId)

/-- No component calls the renderer back, except through setters. -/
def Program.Quiet {σ : Type} {δ : StateData} [HasStateData σ δ] (program : Program σ) : Prop :=
  ∀ component props, ¬ (program.component component props).CallsBack

namespace Renderer

variable {D σ : Type} {δ : StateData} [HasStateData σ δ]

def deedsOf (s : Renderer D σ) (setter : Setter δ.DataType) (change : δ.Datum → δ.Datum) : List (Deed δ) :=
  match s.cell? setter.cell with
  | none => []
  | some c => if δ.same (change c.datum) c.datum then [] else [.changed c.owner setter.cell]

def advancing (a : ActivationId) (r : Activation) (s : Renderer D σ) : Renderer D σ :=
  { s with activations := s.activations.update a ({ · with cursor := r.cursor + 1 }) }

def freshCell (s : Renderer D σ) : CellId := ⟨s.cells.issued + 1⟩

def making (a : ActivationId) (d : δ.Datum) (s : Renderer D σ) : Renderer D σ :=
  { s with
    cells := (s.cells.alloc ⟨a, d⟩).2
    activations := s.activations.update a fun r => { r with cells := r.cells ++ [s.freshCell] } }

def hookAnswer (s : Renderer D σ) (type : δ.DataType) (index : Nat) (cell : CellId) :
    Fallible (δ.Datum × Setter δ.DataType) :=
  if δ.type (s.datum cell) = type then .ok (s.datum cell, ⟨cell, type⟩)
  else .error (.hookTypeMismatch index (δ.name type))

/-- A hook call that is answered at once: it is made outside of an invocation, or it meets the cell at the
activation's cursor. -/
inductive HookStep (type : δ.DataType) (s : Renderer D σ) :
    Fallible (δ.Datum × Setter δ.DataType) → Renderer D σ → Prop
  | astray : s.currentActivation? = none → HookStep type s (.error .invalidHookCall) s
  | met : s.currentActivation? = some (a, r) → r.cells[r.cursor]? = some cell →
      HookStep type s (s.hookAnswer type r.cursor cell) (s.advancing a r)

/-- A hook call finds the next cell of an activation missing; what the cell is made with comes next. -/
inductive Wants (s : Renderer D σ) : ActivationId → Renderer D σ → Prop
  | missing : s.currentActivation? = some (a, r) → r.cells[r.cursor]? = none →
      Wants s a ((s.advancing a r).noting (.creatingCell r.cursor))

/-- The computation, begun in one state, ends with an answer in another. -/
inductive Acts (program : Program σ) : {α : Type} → Action σ α → Renderer D σ → List (Deed δ) → α →
    Renderer D σ → Prop
  | done : Acts program (.done a) s [] a s
  | load : Acts program (next s.store) s deeds a t → Acts program (.load next) s deeds a t
  | store {w : σ} : Acts program next { s with store := w } deeds a t → Acts program (.store w next) s deeds a t
  | report {rs : List Report} : Acts program next { s with reports := rs.reverseAux s.reports } deeds a t →
      Acts program (.report rs next) s deeds a t
  | asked {initial : Action σ (δ.DatumOf type)} : HookStep type s answer t → Acts program (next answer) t deeds a u →
      Acts program (.useState type initial next) s (.asked type (answer.map Prod.fst) :: deeds) a u
  | made {initial : Action σ (δ.DatumOf type)} {d : δ.DatumOf type} : Wants s b t →
      Acts program initial t first d u →
      Acts program (next (.ok (d.1, ⟨u.freshCell, type⟩))) (u.making b d.1) deeds a v →
      Acts program (.useState type initial next) s (first ++ .asked type (.ok d.1) :: deeds) a v
  | getCell : Acts program (next (s.datum setter.cell)) s deeds a t → Acts program (.getCell setter next) s deeds a t
  | updateCell : Returns (updateCell setter change) s () t → Acts program next t deeds a u →
      Acts program (.updateCell setter change next) s (s.deedsOf setter change ++ deeds) a u
  | invoke : Acts program (program.component component props) s nested answer t →
      Acts program (next answer) t deeds a u →
      Acts program (.invoke component props next) s (nested ++ deeds) a u

theorem returns_getCell {setter : Setter δ.DataType} {s t : Renderer D σ} {d : δ.Datum} :
    Returns (getCell setter : RenderM D σ δ.Datum) s d t ↔ s.datum setter.cell = d ∧ s = t := by
  simp only [getCell, returns_bind, returns_get, returns_pure]
  constructor
  · rintro ⟨_, _, ⟨rfl, rfl⟩, rfl, rfl⟩
    exact ⟨rfl, rfl⟩
  · rintro ⟨rfl, rfl⟩
    exact ⟨s, s, ⟨rfl, rfl⟩, rfl, rfl⟩

theorem find?_advancing {s : Renderer D σ} (found : s.activations.find? a = some r) :
    (s.advancing a r).activations.find? a = some { r with cursor := r.cursor + 1 } := by
  rw [advancing, Activations.find?_update_self, found, Option.map_some]

theorem find?_making {s : Renderer D σ} (d : δ.Datum) (found : s.activations.find? a = some r) :
    (s.making a d).activations.find? a = some { r with cells := r.cells ++ [s.freshCell] } := by
  rw [making, Activations.find?_update_self, found, Option.map_some]

theorem cell?_making (s : Renderer D σ) (a : ActivationId) (d : δ.Datum) (cell : CellId) :
    (s.making a d).cell? cell = if cell = s.freshCell then some ⟨a, d⟩ else s.cell? cell := by
  obtain ⟨index⟩ := cell
  simp only [cell?, making, freshCell, Arena.get?_alloc, CellId.mk.injEq]

theorem returns_makeCell {s t : Renderer D σ} {d : δ.Datum} {cell : CellId}
    (returned : Returns (makeCell a d) s cell t) : cell = s.freshCell ∧ t = s.making a d := by
  simp only [makeCell, returns_bind, returns_modifyGet, returns_updateActivation, returns_pure,
    Prod.mk.injEq] at returned
  obtain ⟨_, _, ⟨rfl, rfl⟩, _, _, rfl, rfl, rfl⟩ := returned
  exact ⟨rfl, rfl⟩

theorem makes_making (s : Renderer D σ) (a : ActivationId) (d : δ.Datum) :
    Returns (makeCell a d) s s.freshCell (s.making a d) := rfl

/-- A hook call is answered at once, or makes the cell that it wants. -/
theorem useStateBy_cases {s t : Renderer D σ} {initial : RenderM D σ δ.Datum}
    (returned : Returns (useStateBy type initial) s answer t) :
    HookStep type s answer t ∨ ∃ a u d v, Wants s a u ∧ Returns initial u d v ∧
      answer = .ok (d, ⟨v.freshCell, type⟩) ∧ t = v.making a d := by
  simp only [useStateBy, returns_bind, returns_get] at returned
  obtain ⟨_, _, ⟨rfl, rfl⟩, returned⟩ := returned
  split at returned
  next outside =>
    obtain ⟨rfl, rfl⟩ := returns_pure.mp returned
    exact .inl (.astray outside)
  next a r current =>
    simp only [returns_bind, returns_updateActivation] at returned
    obtain ⟨_, _, rfl, returned⟩ := returned
    split at returned
    next cell there =>
      simp only [returns_bind, returns_get] at returned
      obtain ⟨_, _, ⟨rfl, rfl⟩, returned⟩ := returned
      have step : HookStep type s (s.hookAnswer type r.cursor cell) _ := .met current there
      refine .inl ?_
      rw [hookAnswer] at step
      split at returned
      next same =>
        obtain ⟨rfl, rfl⟩ := returns_pure.mp returned
        rwa [if_pos (by exact same)] at step
      next differs =>
        obtain ⟨rfl, rfl⟩ := returns_pure.mp returned
        rwa [if_neg (by exact differs)] at step
    next missing =>
      simp only [returns_bind, returns_report, returns_pure] at returned
      obtain ⟨_, _, rfl, d, v, begun, cell, _, makes, rfl, rfl⟩ := returned
      obtain ⟨rfl, rfl⟩ := returns_makeCell makes
      exact .inr ⟨a, _, d, v, .missing current missing, begun, rfl, rfl⟩

theorem currentActivation?_eq_some {s : Renderer D σ} :
    s.currentActivation? = some (a, r) ↔ s.calls.current = some a ∧ s.activations.find? a = some r := by
  simp only [currentActivation?, Option.bind_eq_some_iff, Option.map_eq_some_iff, Prod.mk.injEq]
  constructor
  · rintro ⟨_, current, _, found, rfl, rfl⟩
    exact ⟨current, found⟩
  · rintro ⟨current, found⟩
    exact ⟨a, current, r, found, rfl, rfl⟩

def setting (cell : CellId) (d : δ.Datum) (s : Renderer D σ) : Renderer D σ :=
  { s with cells := s.cells.modify cell.index ({ · with datum := d }) }

theorem cell?_setting (s : Renderer D σ) (cell other : CellId) (d : δ.Datum) :
    (s.setting cell d).cell? other =
      if other = cell then (s.cell? other).map ({ · with datum := d }) else s.cell? other := by
  obtain ⟨i⟩ := cell
  obtain ⟨j⟩ := other
  simp only [cell?, setting, Arena.get?_modify, CellId.mk.injEq]

/-- What a setter call comes to: its datum is the same as before, or it is another one, which is asked to
be shown. -/
inductive SetterStep (setter : Setter δ.DataType) (change : δ.Datum → δ.Datum) (s t : Renderer D σ) : Prop
  | vain : (∀ c, s.cell? setter.cell = some c → δ.same (change c.datum) c.datum = true) →
      t = { s with reports := rs } → SetterStep setter change s t
  | changed : s.cell? setter.cell = some c → ¬ δ.same (change c.datum) c.datum = true →
      Returns (requestUpdate c.owner) (s.setting setter.cell (change c.datum)) () t → SetterStep setter change s t

theorem setterStep_of_returns {s t : Renderer D σ} (returned : Returns (updateCell setter change) s u t) :
    SetterStep setter change s t := by
  simp only [updateCell, returns_bind, returns_get] at returned
  obtain ⟨_, _, ⟨rfl, rfl⟩, returned⟩ := returned
  split at returned
  next c there =>
    split at returned
    next same =>
      refine .vain (fun c' again => ?_) (returns_report.mp returned)
      cases there.symm.trans again
      exact same
    next differs =>
      simp only [returns_bind, returns_modify] at returned
      obtain ⟨_, _, rfl, returned⟩ := returned
      exact .changed there differs returned
  next unknown =>
    obtain ⟨-, rfl⟩ := returns_pure.mp returned
    exact .vain (fun c there => absurd there (unknown c)) rfl

theorem total_makeCell (a : ActivationId) (d : δ.Datum) : Total (makeCell a d : RenderM D σ CellId) :=
  (total_modifyGet _).bind fun _ => (total_updateActivation _ _).bind fun _ => total_pure _

theorem total_requestUpdate (a : ActivationId) : Total (requestUpdate a : RenderM D σ Unit) := by
  refine total_get.bind fun s => ?_
  split
  · exact total_pure _
  · refine total_get.bind fun _ => ?_
    split
    · exact total_report _
    · refine (total_report _).bind fun _ => total_get.bind fun s => (total_modify _).bind fun _ => ?_
      split
      · exact total_report _
      · exact total_pure _
      · exact (total_report _).bind fun _ => total_modify _

theorem total_getCell (setter : Setter δ.DataType) : Total (getCell setter : RenderM D σ δ.Datum) :=
  total_get.bind fun _ => total_pure _

theorem total_updateCell (setter : Setter δ.DataType) (change : δ.Datum → δ.Datum) :
    Total (updateCell setter change : RenderM D σ Unit) := by
  refine total_get.bind fun _ => ?_
  split
  · dsimp only
    split
    · exact total_report _
    · exact (total_modify _).bind fun _ => total_requestUpdate _
  · exact total_pure _

theorem givesUp_useStateBy {s : Renderer D σ} {initial : RenderM D σ δ.Datum}
    (gaveUp : GivesUp (useStateBy type initial) s reason) : ∃ t, GivesUp initial t reason := by
  obtain ⟨s, _, _, gaveUp⟩ := total_get.givesUp_bind gaveUp
  split at gaveUp
  · exact ((total_pure _).not_givesUp gaveUp).elim
  obtain ⟨_, _, _, gaveUp⟩ := (total_updateActivation _ _).givesUp_bind gaveUp
  split at gaveUp
  · obtain ⟨_, _, _, gaveUp⟩ := total_get.givesUp_bind gaveUp
    dsimp only at gaveUp
    split at gaveUp <;> exact ((total_pure _).not_givesUp gaveUp).elim
  · obtain ⟨_, t, _, gaveUp⟩ := (total_report _).givesUp_bind gaveUp
    exact ⟨t, gaveUp.of_bind fun d => (total_makeCell _ d).bind fun _ => total_pure _⟩

/-- What a running body leaves as it is. -/
structure Undisturbed (s t : Renderer D σ) : Prop where
  dom : t.dom = s.dom
  binder : t.binder = s.binder
  roots : t.roots = s.roots
  epoch : t.epoch = s.epoch
  dropped : t.dropped = s.dropped
  calls : t.calls = s.calls
  issued : Arena.issued t.activations = Arena.issued s.activations
  bare : ∀ a, (t.activations.find? a).map Activation.bare = (s.activations.find? a).map Activation.bare

def heeds (s : Renderer D σ) (a : ActivationId) : Bool :=
  !s.dropped && s.activations.isRegistered a

theorem returns_requestUpdate {s t : Renderer D σ} (returned : Returns (requestUpdate a) s u t) :
    ∃ reports, t = { s with
      scheduler := if s.heeds a then (s.scheduler.schedule a).2 else s.scheduler
      waiting := if s.heeds a ∧ (s.scheduler.schedule a).1 = .armed then s.waiting + 1 else s.waiting
      reports } := by
  simp only [requestUpdate, returns_bind, returns_get] at returned
  obtain ⟨_, _, ⟨rfl, rfl⟩, returned⟩ := returned
  split at returned
  · rename_i dropped
    obtain ⟨rfl, rfl⟩ := returns_pure.mp returned
    have deaf : s.heeds a = false := by simp only [heeds, dropped, Bool.not_true, Bool.false_and]
    exact ⟨s.reports, by simp only [deaf, Bool.false_eq_true, false_and, if_false]⟩
  · rename_i there
    have there : s.dropped = false := by simpa using there
    simp only [returns_bind, returns_get] at returned
    obtain ⟨_, _, ⟨rfl, rfl⟩, returned⟩ := returned
    have heeds_eq : s.heeds a = s.activations.isRegistered a := by
      simp only [heeds, there, Bool.not_false, Bool.true_and]
    split at returned
    · rename_i unknown
      have deaf : s.heeds a = false := by simpa [heeds_eq] using unknown
      cases returns_report.mp returned
      refine ⟨.updateOfUnmounted a :: s.reports, ?_⟩
      simp only [deaf, Bool.false_eq_true, false_and, if_false]
      rfl
    · rename_i known
      have heard : s.heeds a = true := by simpa [heeds_eq] using known
      simp only [returns_bind, returns_report, returns_get, returns_modify] at returned
      obtain ⟨_, _, rfl, _, _, ⟨rfl, rfl⟩, _, _, rfl, returned⟩ := returned
      simp only [heard, if_true, true_and]
      have same : (s.noting (.scheduling a)).scheduler = s.scheduler := rfl
      rw [same] at returned
      cases outcome : (s.scheduler.schedule a).1 with
      | alreadyPending =>
          rw [outcome] at returned
          cases returns_report.mp returned
          refine ⟨.alreadyPending :: .scheduling a :: s.reports, ?_⟩
          simp only [reduceCtorEq, if_false]
          rfl
      | absorbed =>
          rw [outcome] at returned
          obtain ⟨_, rfl⟩ := returns_pure.mp returned
          refine ⟨.scheduling a :: s.reports, ?_⟩
          simp only [reduceCtorEq, if_false]
          rfl
      | armed =>
          rw [outcome] at returned
          simp only [returns_bind, returns_report, returns_modify] at returned
          obtain ⟨_, _, rfl, rfl⟩ := returned
          refine ⟨.armingFlush :: .scheduling a :: s.reports, ?_⟩
          simp only [if_true]
          rfl

namespace Undisturbed

variable {s t v : Renderer D σ}

@[refl] theorem refl (s : Renderer D σ) : Undisturbed s s :=
  ⟨rfl, rfl, rfl, rfl, rfl, rfl, rfl, fun _ => rfl⟩

theorem reports (s : Renderer D σ) (rs : List Report) : Undisturbed s { s with reports := rs } :=
  ⟨rfl, rfl, rfl, rfl, rfl, rfl, rfl, fun _ => rfl⟩

theorem store (s : Renderer D σ) (w : σ) : Undisturbed s { s with store := w } :=
  ⟨rfl, rfl, rfl, rfl, rfl, rfl, rfl, fun _ => rfl⟩

theorem cells (s : Renderer D σ) (cs : Arena (Cell δ.Datum)) : Undisturbed s { s with cells := cs } :=
  ⟨rfl, rfl, rfl, rfl, rfl, rfl, rfl, fun _ => rfl⟩

theorem trans (one : Undisturbed s t) (two : Undisturbed t v) : Undisturbed s v where
  dom := two.dom.trans one.dom
  binder := two.binder.trans one.binder
  roots := two.roots.trans one.roots
  epoch := two.epoch.trans one.epoch
  dropped := two.dropped.trans one.dropped
  calls := two.calls.trans one.calls
  issued := two.issued.trans one.issued
  bare a := (two.bare a).trans (one.bare a)

theorem update {s : Renderer D σ} (f : Activation → Activation) (keeps : ∀ r, (f r).bare = r.bare) :
    Undisturbed s { s with activations := s.activations.update a f } := by
  refine ⟨rfl, rfl, rfl, rfl, rfl, rfl, Activations.issued_update .., fun b => ?_⟩
  rw [Activations.find?_update]
  split
  · cases s.activations.find? b with
    | none => rfl
    | some r => exact congrArg some (keeps r)
  · rfl

theorem advancing (s : Renderer D σ) (a : ActivationId) (r : Activation) :
    Undisturbed s (s.advancing a r) := update _ fun _ => rfl

theorem making (s : Renderer D σ) (a : ActivationId) (d : δ.Datum) : Undisturbed s (s.making a d) := by
  have grown : Undisturbed s _ := update (a := a) (fun r => { r with cells := r.cells ++ [s.freshCell] }) fun _ => rfl
  exact grown.trans (cells _ _)

theorem hookStep (step : HookStep type s answer t) : Undisturbed s t := by
  cases step with
  | astray => exact refl _
  | met => exact .advancing ..

theorem wants (wants : Wants s a t) : Undisturbed s t := by
  cases wants with
  | missing => exact (advancing ..).trans (reports _ _)

theorem requestUpdate (returned : Returns (requestUpdate a) s u t) : Undisturbed s t := by
  obtain ⟨_, rfl⟩ := returns_requestUpdate returned
  exact ⟨rfl, rfl, rfl, rfl, rfl, rfl, rfl, fun _ => rfl⟩

theorem updateCell (returned : Returns (updateCell setter change) s u t) : Undisturbed s t := by
  cases setterStep_of_returns returned with
  | vain _ noted =>
      subst noted
      exact reports _ _
  | changed _ _ requested => exact (cells ..).trans (requestUpdate requested)

theorem acts {program : Program σ} {x : Action σ α} {s t : Renderer D σ}
    (acts : Acts program x s deeds a t) : Undisturbed s t := by
  induction acts with
  | done => exact refl _
  | load _ ih | getCell _ ih => exact ih
  | store _ ih => exact (store _ _).trans ih
  | report _ ih => exact (reports _ _).trans ih
  | asked step _ ih => exact (hookStep step).trans ih
  | made wanted _ _ inner ih => exact (wants wanted).trans (inner.trans ((making ..).trans ih))
  | updateCell updated _ ih => exact (updateCell updated).trans ih
  | invoke _ _ inner ih => exact inner.trans ih

end Undisturbed
variable [Layer D]

/-- Bodies at one level run to their ends by deeds if what they invoke inline does. -/
theorem acts_of_perform_level {program : Program σ} {level : Level D σ}
    (inner : ∀ {component props s answer t}, Returns (level.invoke component props) s answer t →
      ∃ deeds, Acts program (program.component component props) s deeds answer t)
    {α : Type} (x : Action σ α) (calm : ¬ x.CallsBack) {s t : Renderer D σ} {a : α}
    (returned : Returns (perform level x) s a t) : ∃ deeds, Acts program x s deeds a t := by
  -- What does not call back has no render, no unmounting and no flush in it, so these cases are excluded.
  induction x generalizing s t with
  | done b =>
      obtain ⟨rfl, rfl⟩ := returns_pure.mp returned
      exact ⟨[], .done⟩
  | load next ih =>
      simp only [perform, returns_bind, returns_get] at returned
      obtain ⟨_, _, ⟨rfl, rfl⟩, returned⟩ := returned
      obtain ⟨deeds, acts⟩ := ih _ (fun c => calm (.load _ c)) returned
      exact ⟨deeds, .load acts⟩
  | store _ next ih =>
      simp only [perform, returns_bind, returns_modify] at returned
      obtain ⟨_, _, rfl, returned⟩ := returned
      obtain ⟨deeds, acts⟩ := ih (fun c => calm (.store c)) returned
      exact ⟨deeds, .store acts⟩
  | report _ next ih =>
      simp only [perform, reportAll, returns_bind, returns_modify] at returned
      obtain ⟨_, _, rfl, returned⟩ := returned
      obtain ⟨deeds, acts⟩ := ih (fun c => calm (.report c)) returned
      exact ⟨deeds, .report acts⟩
  | useState type initial next initially ih =>
      simp only [perform, returns_bind] at returned
      obtain ⟨answer, u, asked, returned⟩ := returned
      obtain ⟨deeds, acts⟩ := ih _ (fun c => calm (.useState _ c)) returned
      rcases useStateBy_cases asked with step | ⟨b, v, _, w, wanted, begun, rfl, rfl⟩
      · exact ⟨_, .asked step acts⟩
      · obtain ⟨d, ended, rfl⟩ := returns_map.mp begun
        obtain ⟨first, made⟩ := initially (fun c => calm (.initial c)) ended
        exact ⟨_, .made wanted made acts⟩
  | getCell setter next ih =>
      simp only [perform, returns_bind, returns_getCell] at returned
      obtain ⟨_, _, ⟨rfl, rfl⟩, returned⟩ := returned
      obtain ⟨deeds, acts⟩ := ih _ (fun c => calm (.getCell _ c)) returned
      exact ⟨deeds, .getCell acts⟩
  | updateCell setter change next ih =>
      simp only [perform, returns_bind] at returned
      obtain ⟨_, u, updated, returned⟩ := returned
      obtain ⟨deeds, acts⟩ := ih (fun c => calm (.updateCell c)) returned
      exact ⟨_, .updateCell updated acts⟩
  | invoke component props next ih =>
      simp only [perform, returns_bind] at returned
      obtain ⟨answer, u, invoked, returned⟩ := returned
      obtain ⟨first, body⟩ := inner invoked
      obtain ⟨deeds, acts⟩ := ih _ (fun c => calm (.invoke _ c)) returned
      exact ⟨first ++ deeds, .invoke body acts⟩
  | render => exact absurd .render calm
  | unmount => exact absurd .unmount calm
  | flush => exact absurd .flush calm

theorem acts_of_perform {program : Program σ} (quiet : program.Quiet) (below : Nat) {α : Type}
    (x : Action σ α) (calm : ¬ x.CallsBack) {s t : Renderer D σ} {a : α}
    (returned : Returns (perform (level program below) x) s a t) :
    ∃ deeds, Acts program x s deeds a t := by
  induction below generalizing α s t with
  | zero => exact acts_of_perform_level (fun gaveUp => (returns_abort.mp gaveUp).elim) x calm returned
  | succ below ih => exact acts_of_perform_level (ih _ (quiet _ _)) x calm returned

theorem exhausted_of_perform_level {level : Level D σ}
    (inner : ∀ {component props s reason}, GivesUp (level.invoke component props) s reason →
      reason = .exhausted)
    {α : Type} (x : Action σ α) (calm : ¬ x.CallsBack) {s : Renderer D σ} {reason : Abort}
    (gaveUp : GivesUp (perform level x) s reason) : reason = .exhausted := by
  induction x generalizing s with
  | done b => exact ((total_pure b).not_givesUp gaveUp).elim
  | load next ih =>
      obtain ⟨_, _, _, gaveUp⟩ := total_get.givesUp_bind gaveUp
      exact ih _ (fun c => calm (.load _ c)) gaveUp
  | store _ next ih =>
      obtain ⟨_, _, _, gaveUp⟩ := (total_modify _).givesUp_bind gaveUp
      exact ih (fun c => calm (.store c)) gaveUp
  | report _ next ih =>
      obtain ⟨_, _, _, gaveUp⟩ := (total_modify _).givesUp_bind gaveUp
      exact ih (fun c => calm (.report c)) gaveUp
  | useState type initial next initially ih =>
      rcases givesUp_bind.mp gaveUp with gaveUp | ⟨_, _, _, gaveUp⟩
      · obtain ⟨_, gaveUp⟩ := givesUp_useStateBy gaveUp
        exact initially (fun c => calm (.initial c)) (givesUp_map.mp gaveUp)
      · exact ih _ (fun c => calm (.useState _ c)) gaveUp
  | getCell setter next ih =>
      obtain ⟨_, _, _, gaveUp⟩ := (total_getCell setter).givesUp_bind gaveUp
      exact ih _ (fun c => calm (.getCell _ c)) gaveUp
  | updateCell setter change next ih =>
      obtain ⟨_, _, _, gaveUp⟩ := (total_updateCell setter change).givesUp_bind gaveUp
      exact ih (fun c => calm (.updateCell c)) gaveUp
  | invoke component props next ih =>
      obtain gaveUp | ⟨_, _, _, gaveUp⟩ := givesUp_bind.mp gaveUp
      · exact inner gaveUp
      · exact ih _ (fun c => calm (.invoke _ c)) gaveUp
  | render => exact absurd .render calm
  | unmount => exact absurd .unmount calm
  | flush => exact absurd .flush calm

/-- A body that does not run to its end is nested too deeply; nothing it does is forbidden. -/
theorem exhausted_of_perform {program : Program σ} (quiet : program.Quiet) (below : Nat) {α : Type}
    (x : Action σ α) (calm : ¬ x.CallsBack) {s : Renderer D σ} {reason : Abort}
    (gaveUp : GivesUp (perform (level program below) x) s reason) : reason = .exhausted := by
  induction below generalizing α s reason with
  | zero =>
      refine exhausted_of_perform_level (fun refused => ?_) x calm gaveUp
      cases refused
      rfl
  | succ below ih => exact exhausted_of_perform_level (ih _ (quiet _ _)) x calm gaveUp

end Renderer
end Patchwork
