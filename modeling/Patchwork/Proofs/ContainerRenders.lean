import Patchwork.Proofs.PicturePatching
import Patchwork.Proofs.Scene

/-! Renders of a container from a settled state. A pass over the container's entries comes first; then
its plans are carried out, or the activations that it made are destroyed. Either way the state is
settled again. -/
namespace Patchwork.Renderer

open Picture

variable {D σ : Type} {δ : StateData} [HasStateData σ δ] {s t u : Renderer D σ} {scene : Scene}

theorem returns_inPass {f : Calls → Calls} {step : RenderM D σ α} :
    Returns (inPass f step) s a t ↔ ∃ u, Returns step
      { s with calls := f { s.calls with held := s.calls.created ++ s.calls.held, created := [] } } a u ∧
        t = { u with calls := s.calls } := by
  simp only [inPass, returns_bind, returns_get, returns_withCalls, returns_onCalls, returns_pure]
  constructor
  · rintro ⟨_, _, ⟨rfl, rfl⟩, _, _, ⟨u, stepped, rfl⟩, _, _, rfl, rfl, rfl⟩
    exact ⟨u, stepped, rfl⟩
  · rintro ⟨u, stepped, rfl⟩
    exact ⟨_, _, ⟨rfl, rfl⟩, _, _, ⟨u, stepped, rfl⟩, ⟨⟩, _, rfl, rfl, rfl⟩

theorem givesUp_inPass {f : Calls → Calls} {step : RenderM D σ α}
    (gaveUp : GivesUp (inPass f step) s reason) : GivesUp step
      { s with calls := f { s.calls with held := s.calls.created ++ s.calls.held, created := [] } }
      reason := by
  have restored {β : Type} {b : β} {f : Calls → Calls} : Total (onCalls f >>= fun _ => pure b : RenderM D σ β) :=
    (total_modify _).bind fun _ => total_pure _
  obtain ⟨_, _, began, gaveUp⟩ := total_get.givesUp_bind gaveUp
  obtain ⟨rfl, rfl⟩ := returns_get.mp began
  obtain ⟨_, _, began, gaveUp⟩ := total_get.givesUp_bind (gaveUp.of_bind fun _ => restored)
  obtain ⟨rfl, rfl⟩ := returns_get.mp began
  obtain ⟨_, _, began, gaveUp⟩ := (total_modify _).givesUp_bind gaveUp
  cases returns_modify.mp began
  exact gaveUp.of_bind fun _ => restored

variable [Layer D]

theorem retires_all {as : List ActivationId} (distinct : as.Nodup)
    (blank : ∀ a ∈ as, ∃ owner reference, (s.activations.find? a).map Activation.bare =
      some (.blank owner reference n))
    (free : s.calls.reading = []) : Unmounts (unmountActivations as) as id s := by
  induction as generalizing s with
  | nil => exact unmounts_nothing s
  | cons a rest ih =>
      rw [List.nodup_cons] at distinct
      obtain ⟨_, _, first⟩ := blank a (List.mem_cons_self ..)
      obtain ⟨r, found, bare⟩ := Option.map_eq_some_iff.mp first
      obtain ⟨t, one, retired⟩ := unmounts_empty found (congrArg Activation.output bare :) free
      have only : ∀ b ∈ rest, b ∉ [a] := fun b member same =>
        distinct.1 (List.mem_singleton.mp same ▸ member)
      obtain ⟨u, two, others⟩ := ih distinct.2 (fun b member => by
          rw [retired.confined.others b (only b member)]
          exact blank b (List.mem_cons_of_mem _ member)) (retired.confined.reading free)
      refine ⟨u, ?_, retired.trans others fun b member inside => ?_⟩
      · rw [unmountActivations]
        exact one.bind two
      · exact distinct.1 (List.mem_singleton.mp member ▸ inside)

/-- A pass was called off: what it made is destroyed, and the rest is as it was. -/
structure Reverts (s u t : Renderer D σ) : Prop where
  passed : Passed s u
  confined : Confined (newIn s u) { u with roots := s.roots, calls := .none } t
  canvas : t.canvas = u.canvas
  vanished : ∀ a ∈ newIn s u, t.activations.Vanished a

omit [Layer D] in
theorem Reverts.bare (reverts : Reverts s u t) (a : ActivationId)
    (early : a.index ≤ Arena.issued s.activations) :
    (t.activations.find? a).map Activation.bare = (s.activations.find? a).map Activation.bare := by
  rw [reverts.confined.others a fun new => Nat.not_lt_of_le early (mem_newIn.mp new).1]
  exact reverts.passed.old a early

omit [Layer D] in
theorem Reverts.changes (reverts : Reverts s u t) (settled : Settled s scene) (place : NodeId) :
    Changes s u t place (scene place) (scene place) := by
  have kept : ∀ a ∈ activationsAll (scene place), (t.activations.find? a).map Activation.bare =
      (s.activations.find? a).map Activation.bare := fun a member =>
    reverts.bare a ((settled.stands place).index a member).2
  refine ⟨reverts.passed, ?_, fun other => ?_, ?_, settled.distinct place, fun a => .inl, ?_, ?_⟩
  · rw [reverts.confined.roots]
    exact reverts.confined.mono fun a => List.mem_append_right _
  · rw [reverts.confined.roots]
    change s.roots.get? other = _
    split
    next same => rw [same, settled.roots]
    next => rfl
  · exact (settled.stands place).congr kept
  · exact fun a either hidden => reverts.vanished a (either.resolve_left hidden)
  · exact fun a member r found => settled.renderedIn_le member (kept a member) found

omit [Layer D] in
theorem Reverts.settled (reverts : Reverts s u t) (settled : Settled s scene) : Settled t scene := by
  have changed := (reverts.changes settled ⟨0⟩).settled settled
  rwa [Function.update_eq_self] at changed

def beginning (place : NodeId) (s : Renderer D σ) : Renderer D σ :=
  { s with
    reports := .rendering place :: s.reports
    roots := s.roots.erase place
    calls := { Calls.none with suspended := [(s.roots.get? place).getD []] } }

def finishing (place : NodeId) (es : List Mounted) (s : Renderer D σ) : Renderer D σ :=
  { s with
    roots := if es.isEmpty then s.roots else s.roots.insert place es
    calls := .none
    reports := .listenersBound s.listenerCount :: s.reports }

/-- What a render does with the plans of its pass. -/
def carryOut (place : NodeId) (mounted : List Mounted) :
    Fallible (List Plan) → RenderM D σ (List Mounted × Fallible Unit)
  | .ok plans => do return (← applyAll place none mounted plans, .ok ())
  | .error e => do
      unmountActivations (← get).calls.created.reverse
      return (mounted, .error e)

def close (place : NodeId) (answer : List Mounted × Fallible Unit) : RenderM D σ (Fallible Unit) := do
  if !answer.1.isEmpty then
    modify fun s => { s with roots := s.roots.insert place answer.1 }
  report (.listenersBound (← get).listenerCount)
  return answer.2

omit [Layer D] in
theorem returns_close (idle : u.calls = .none) : Returns (close place (es, r)) u r' t ↔
    r' = r ∧ t = u.finishing place es := by
  unfold close
  have shut : u.calls = Calls.none ∧ u.finishing place es = { u with
      roots := if es.isEmpty then u.roots else u.roots.insert place es
      reports := .listenersBound u.listenerCount :: u.reports } := ⟨idle, by rw [finishing, ← idle]⟩
  rw [shut.2]
  cases es.isEmpty with
  | true =>
      simp only [Bool.not_true, Bool.false_eq_true, if_false, if_true, returns_bind, returns_get,
        returns_report, returns_pure]
      constructor
      · rintro ⟨_, _, ⟨rfl, rfl⟩, _, _, rfl, rfl, rfl⟩
        exact ⟨rfl, rfl⟩
      · rintro ⟨rfl, rfl⟩
        exact ⟨_, _, ⟨rfl, rfl⟩, ⟨⟩, _, rfl, rfl, rfl⟩
  | false =>
      simp only [Bool.not_false, Bool.false_eq_true, if_false, if_true, returns_bind, returns_get,
        returns_report, returns_pure, returns_modify]
      constructor
      · rintro ⟨_, _, rfl, _, _, ⟨rfl, rfl⟩, _, _, rfl, rfl, rfl⟩
        exact ⟨rfl, rfl⟩
      · rintro ⟨rfl, rfl⟩
        exact ⟨⟨⟩, _, rfl, _, _, ⟨rfl, rfl⟩, ⟨⟩, _, rfl, rfl, rfl⟩

theorem renderBy_eq (invocation : Invocation D σ) (tree : Tree) (place : NodeId) :
    renderBy invocation tree place = (do
      report (.rendering place)
      let mounted := ((← get).roots.get? place).getD []
      modify fun s => { s with roots := s.roots.erase place }
      let answer ← inPass (fun c => { c with suspended := mounted :: c.suspended }) do
        carryOut place mounted (← pairAll invocation none mounted tree.flatten)
      close place answer) := by
  unfold renderBy close
  refine bind_congr fun _ => bind_congr fun before => bind_congr fun _ => ?_
  refine congrArg (· >>= _) (congrArg (inPass _) (bind_congr fun plans => ?_))
  cases plans <;> rfl

omit [Layer D] in
theorem beginning_eq (idle : s.calls = .none) (place : NodeId) (mounted : List Mounted)
    (same : mounted = (s.roots.get? place).getD []) :
    ({ s.noting (.rendering place) with
      roots := s.roots.erase place
      calls := { s.calls with suspended := mounted :: s.calls.suspended
                              held := s.calls.created ++ s.calls.held
                              created := [] } } : Renderer D σ) = s.beginning place := by
  rw [beginning, ← same, idle]
  rfl

theorem returns_renderBy {invocation : Invocation D σ} (idle : s.calls = .none) :
    Returns (renderBy invocation tree place) s r t ↔ ∃ plans u es v,
      Returns (pairAll invocation none ((s.roots.get? place).getD []) tree.flatten)
        (s.beginning place) plans u ∧
      Returns (carryOut place ((s.roots.get? place).getD []) plans) u (es, r) v ∧
      t = v.finishing place es := by
  have began := beginning_eq idle place _ rfl
  rw [renderBy_eq]
  simp only [returns_bind, returns_get, returns_report, returns_modify, returns_inPass]
  constructor
  · rintro ⟨_, _, rfl, _, _, ⟨rfl, rfl⟩, _, _, rfl, ⟨es, r'⟩, _, ⟨v, ⟨plans, u, paired, carried⟩, rfl⟩,
      closed⟩
    obtain ⟨rfl, rfl⟩ := (returns_close (u := { v with calls := s.calls }) idle).mp closed
    exact ⟨plans, u, es, v, began ▸ paired, carried, rfl⟩
  · rintro ⟨plans, u, es, v, paired, carried, rfl⟩
    exact ⟨⟨⟩, _, rfl, _, _, ⟨rfl, rfl⟩, ⟨⟩, _, rfl, (es, r), _,
      ⟨v, ⟨plans, u, began ▸ paired, carried⟩, rfl⟩,
      (returns_close (u := { v with calls := s.calls }) idle).mpr ⟨rfl, rfl⟩⟩

omit [Layer D] in
theorem total_close (place : NodeId) (answer : List Mounted × Fallible Unit) :
    Total (close (D := D) (σ := σ) place answer) := by
  unfold close
  have ended : Total (D := D) (σ := σ) (do
      report (.listenersBound (← get).listenerCount)
      return answer.2) :=
    total_get.bind fun _ => (total_report _).bind fun _ => total_pure _
  split
  · exact (total_modify _).bind fun _ => ended
  · exact ended

theorem givesUp_renderBy {invocation : Invocation D σ} (idle : s.calls = .none)
    (gaveUp : GivesUp (renderBy invocation tree place) s reason) :
    GivesUp (pairAll invocation none ((s.roots.get? place).getD []) tree.flatten)
      (s.beginning place) reason ∨
    ∃ plans u, Returns (pairAll invocation none ((s.roots.get? place).getD []) tree.flatten)
        (s.beginning place) plans u ∧
      GivesUp (carryOut place ((s.roots.get? place).getD []) plans) u reason := by
  have began := beginning_eq idle place _ rfl
  rw [renderBy_eq] at gaveUp
  obtain ⟨_, _, reported, gaveUp⟩ := (total_report _).givesUp_bind gaveUp
  cases returns_report.mp reported
  obtain ⟨_, _, got, gaveUp⟩ := total_get.givesUp_bind gaveUp
  obtain ⟨rfl, rfl⟩ := returns_get.mp got
  obtain ⟨_, _, erased, gaveUp⟩ := (total_modify _).givesUp_bind gaveUp
  cases returns_modify.mp erased
  obtain gaveUp | ⟨answer, _, _, gaveUp⟩ := givesUp_bind.mp gaveUp
  · rw [← began]
    exact givesUp_bind.mp (givesUp_inPass gaveUp)
  · exact ((total_close place answer).not_givesUp gaveUp).elim

/-- Plans were carried out on one container: its pictures are redrawn, and so is the canvas. -/
structure Patches (s u t : Renderer D σ) (place : NodeId) (ps : List Picture) (kept : List Plan)
    (result : List Picture × Canvas D) : Prop where
  changes : Changes s u t place ps result.1
  canvas : t.canvas = result.2
  rendered : ∀ a ∈ Plan.activationsAll kept,
    (t.activations.find? a).map Activation.renderedIn = some s.epoch
  inside : ∀ a ∈ Plan.activationsAll kept, a ∈ activationsAll result.1
  shown : ∀ x ∈ Outline.shownAll (Plan.outlines kept), x.In t.activations
  around : ∀ a ∈ activationsAll result.1, a ∉ Plan.activationsAll kept →
    (t.activations.find? a).map Activation.bare = (s.activations.find? a).map Activation.bare

omit [Layer D] in
@[simp] theorem canvas_finishing (place : NodeId) (es : List Mounted) (s : Renderer D σ) :
    (s.finishing place es).canvas = s.canvas := by
  simp only [canvas, finishing, List.filter_cons, Report.isAlarm, Bool.false_eq_true, if_false]

omit [Layer D] in
theorem get?_finishing {s v : Renderer D σ} (held : v.roots = s.roots.erase place) (other : NodeId) :
    (finishing place es v).roots.get? other =
      if other = place then (if es.isEmpty then none else some es) else s.roots.get? other := by
  simp only [finishing, held]
  split
  · rw [Dict.get?_erase]
  · rw [Dict.get?_insert, Dict.get?_erase]
    split <;> rfl

omit [Layer D] in
theorem isEmpty_entries (ps : List Picture) : (entries ps).isEmpty = ps.isEmpty := by
  cases ps <;> rfl

theorem carryOut_error (settled : Settled s scene) (advances : Advances (s.beginning place) u)
    (e : RenderError) :
    ∃ v, Returns (carryOut place (entries (scene place)) (.error e)) u
        (entries (scene place), .error e) v ∧
      Reverts s u (v.finishing place (entries (scene place))) := by
  have passed : Passed s u := advances.passed
  have created : u.calls.created.reverse = newIn s u := by
    rw [advances.calls]
    simp only [beginning, Calls.none, List.append_nil, List.reverse_reverse]
    rfl
  have free : u.calls.reading = [] := by rw [advances.calls]; rfl
  obtain ⟨v, unmounted, retired⟩ := retires_all (nodup_issuedBetween ..) passed.new free
  refine ⟨v, ?_, passed, ?_, ?_, retired.vanished⟩
  · refine (returns_get.mpr ⟨rfl, rfl⟩).bind ?_
    rw [created]
    exact unmounted.bind (returns_pure.mpr ⟨rfl, rfl⟩)
  · have held : v.roots = s.roots.erase place := retired.confined.roots.trans advances.roots
    have roots : (v.finishing place (entries (scene place))).roots = s.roots := by
      refine Dict.ext_get? fun other => ?_
      rw [get?_finishing held, isEmpty_entries, settled.roots other]
      split
      next same => rw [same]
      next => rfl
    exact { retired.confined with roots, calls := rfl }
  · rw [canvas_finishing]
    exact retired.canvas

/-- The plans of a pass over a container are carried out. -/
theorem carryOut_ok (settled : Settled s scene) (advances : Advances (s.beginning place) u)
    (planned : Planned (s.beginning place) u 0 (scene place) positions plans) :
    ∃ v, Returns (carryOut place (entries (scene place)) (.ok plans)) u
        (entries (Canvas.redrawAll place none (scene place) plans u.canvas).1, .ok ()) v ∧
      Patches s u (v.finishing place
        (entries (Canvas.redrawAll place none (scene place) plans u.canvas).1)) place (scene place) plans
        (Canvas.redrawAll place none (scene place) plans u.canvas) := by
  have passed : Passed s u := advances.passed
  have free : u.calls.reading = [] := by rw [advances.calls]; rfl
  have fresh : Plan.freshAll plans = newIn s u := planned.fresh
  have distinct : (activationsAll (scene place) ++ Plan.freshAll plans).Nodup := by
    rw [fresh, List.nodup_append']
    exact ⟨settled.distinct place, nodup_issuedBetween .., fun a => settled.not_mem_newIn⟩
  have ready : Plan.ReadyAll u.activations u.epoch 0 plans := passed.epoch ▸ planned.ready
  -- The pass only advanced the state, so the pictures still stand where the plans found them.
  obtain ⟨v, applied, redrawn⟩ := redrawsAll plans none (advances.standAll (settled.stands place)) ready
    planned.fits distinct free
  obtain ⟨-, within⟩ := Canvas.redrawAll_shows plans place none planned.fits u.canvas
  have held : v.roots = s.roots.erase place := redrawn.confined.roots.trans advances.roots
  rw [fresh] at redrawn
  refine ⟨v, ?_, ⟨passed, ?_, fun other => ?_, redrawn.stands, ?_, ?_, ?_, ?_⟩, ?_, ?_,
    fun a member => within ▸ member, ?_, fun a member outside => ?_⟩
  · rw [carryOut]
    exact applied.bind (returns_pure.mpr ⟨rfl, rfl⟩)
  · exact { redrawn.confined with roots := rfl, calls := rfl }
  · rw [get?_finishing held, isEmpty_entries]
  · rw [within]
    exact Plan.nodup_of_fitAll planned.fits distinct
  · intro a member
    rw [within] at member
    exact fresh ▸ Plan.mem_of_fitAll planned.fits member
  · intro a either hidden
    rcases either with stood | new
    · exact redrawn.vanished a stood hidden
    · refine absurd ?_ hidden
      rw [within]
      exact Plan.mem_activationsAll_of_fresh (fresh ▸ new)
  · intro a member r found
    have rendered := redrawn.rendered a member
    rw [show (v.finishing place _).activations = v.activations from rfl] at found
    rw [found, Option.map_some, Option.some.injEq, passed.epoch] at rendered
    exact Nat.le_of_eq rendered
  · rw [canvas_finishing]
    exact redrawn.canvas
  · intro a member
    rw [← within] at member
    exact passed.epoch ▸ redrawn.rendered a member
  · rw [← Canvas.redrawAll_outlines plans place none planned.fits u.canvas]
    exact redrawn.stands.shown
  · rw [within] at member
    exact absurd member outside

variable {program : Program σ}

theorem failure_of_carryOut
    (carried : Returns (carryOut place mounted plans) u (es, r) v) : failure plans = failure r := by
  cases plans with
  | error e =>
      simp only [carryOut, returns_bind, returns_pure] at carried
      obtain ⟨_, _, _, _, _, _, same, -⟩ := carried
      exact congrArg failure (Prod.mk.inj same).2
  | ok plans =>
      simp only [carryOut, returns_bind, returns_pure] at carried
      obtain ⟨_, _, _, same, -⟩ := carried
      exact congrArg failure (Prod.mk.inj same).2

/-- A render of a container, with the trials of its pass. -/
structure Renders (program : Program σ) (tree : Tree) (place : NodeId) (s : Renderer D σ)
    (trials : List (Trial δ)) (r : Fallible Unit) (t : Renderer D σ) : Prop where
  returned : ∃ below, Returns (renderBy (level program below).invocation tree place) s r t
  passed : ∃ plans u es v,
    Passes program none ((s.roots.get? place).getD []) tree.flatten (s.beginning place) trials plans u ∧
      Returns (carryOut place ((s.roots.get? place).getD []) plans) u (es, r) v ∧
        t = v.finishing place es

theorem renders_of_returns (quiet : program.Quiet) (idle : s.calls = .none)
    (returned : Returns (renderBy (level program below).invocation tree place) s r t) :
    ∃ trials, Renders program tree place s trials r t := by
  obtain ⟨plans, u, es, v, paired, carried, ended⟩ := (returns_renderBy idle).mp returned
  obtain ⟨trials, passes⟩ := pairAll_sound (sound_level quiet below) _ paired
  exact ⟨trials, ⟨below, returned⟩, plans, u, es, v, passes, carried, ended⟩

/-- A render is a pass, which is called off or carried out. -/
theorem Settled.render_cases (settled : Settled s scene)
    (renders : Renders program tree place s trials r t) :
    ∃ u,
      (∃ e, Passes program none (entries (scene place)) tree.flatten (s.beginning place) trials
          (.error e) u ∧ r = .error e ∧ Reverts s u t) ∨
      (∃ plans, Passes program none (entries (scene place)) tree.flatten (s.beginning place) trials
          (.ok plans) u ∧ r = .ok () ∧
        Planned (s.beginning place) u 0 (scene place) tree.flatten plans ∧
        Patches s u t place (scene place) plans
          (Canvas.redrawAll place none (scene place) plans u.canvas)) := by
  obtain ⟨plans, u, es, v, passes, carried, rfl⟩ := renders.passed
  rw [settled.mounted] at passes carried
  refine ⟨u, ?_⟩
  cases plans with
  | error e =>
      obtain ⟨v', carried', reverts⟩ := carryOut_error settled passes.advances e
      obtain ⟨same, rfl⟩ := carried.unique carried'
      obtain ⟨rfl, rfl⟩ := Prod.mk.inj same
      exact .inl ⟨e, passes, rfl, reverts⟩
  | ok plans =>
      have planned := passes.planned rfl (settled.stands place) (Nat.zero_le _) rfl
      obtain ⟨v', carried', patches⟩ := carryOut_ok settled passes.advances planned
      obtain ⟨same, rfl⟩ := carried.unique carried'
      obtain ⟨rfl, rfl⟩ := Prod.mk.inj same
      exact .inr ⟨plans, passes, rfl, planned, patches⟩

theorem Settled.render_exhausted (settled : Settled s scene) (quiet : program.Quiet)
    (gaveUp : GivesUp (renderBy (level program below).invocation tree place) s reason) :
    reason = .exhausted := by
  obtain gaveUp | ⟨plans, u, paired, gaveUp⟩ := givesUp_renderBy settled.calls gaveUp
  · exact exhausted_of_pairAll (exhausted_of_level quiet below) _ gaveUp
  rw [settled.mounted] at paired gaveUp
  obtain ⟨trials, passes⟩ := pairAll_sound (sound_level quiet below) _ paired
  cases plans with
  | error e =>
      obtain ⟨_, carried, -⟩ := carryOut_error settled passes.advances e
      exact (carried.not_givesUp gaveUp).elim
  | ok plans =>
      have planned := passes.planned rfl (settled.stands place) (Nat.zero_le _) rfl
      obtain ⟨_, carried, -⟩ := carryOut_ok settled passes.advances planned
      exact (carried.not_givesUp gaveUp).elim

end Patchwork.Renderer
