import Patchwork.Proofs.Moves
import Patchwork.Proofs.CellTraces

/-! What one move does to state updates. An activation that is invoked by a render that takes effect shows
what its cells ask for, or is pending; any other that stays live keeps its record, apart from further
cells. -/
namespace Patchwork

namespace Occurrence

variable {δ : StateData}

def deeds : Occurrence δ → List (Deed δ)
  | acted deeds => deeds
  | rendered _ _ trials _ | retried _ trials _ => deedsIn trials
  | _ => []

def Changes (h : Occurrence δ) (a : ActivationId) : Prop :=
  ∃ cell, Deed.changed a cell ∈ h.deeds

/-- A render or re-render took effect in which the activation was invoked. -/
def Shows (a : ActivationId) : Occurrence δ → Prop
  | rendered _ _ trials (.ok _) | retried _ trials (.ok _) => a ∈ trials.map Trial.activation
  | _ => False

end Occurrence

namespace Renderer

open Picture

variable {D σ : Type} {δ : StateData} [HasStateData σ δ] {s t u : Renderer D σ} {scene : Scene} {program : Program σ}
  {h : Occurrence δ} {trials : List (Trial δ)} {trial : Trial δ} {deeds : List (Deed δ)}

/-- The activation's committed tree is what its component with its props comes to with what its cells hold. -/
def Current (program : Program σ) (s : Renderer D σ) (a : ActivationId) : Prop :=
  ∃ r tree, s.activations.find? a = some r ∧ r.committed = some tree ∧
    EndsWith D program r.component r.props (s.contents r) (.ok tree)

def Heeded (program : Program σ) (s : Renderer D σ) (a : ActivationId) : Prop :=
  Current program s a ∨ a ∈ s.scheduler.queue

/-- The activation's record stays, apart from further cells, unless it is pending in the end. -/
structure Stays (h : Occurrence δ) (s t : Renderer D σ) (a : ActivationId) (r r' : Activation) : Prop where
  found : s.activations.find? a = some r
  found' : t.activations.find? a = some r'
  same : r'.bare = r.bare
  cells : a ∈ t.scheduler.queue ∨ s.contents r <+: t.contents r'
  pending : ∀ b ∈ s.scheduler.queue, b ∈ t.scheduler.queue
  changed : h.Changes a → a ∈ t.scheduler.queue

namespace Stays

theorem live (stays : Stays h s t a r r') (live : r'.unmounted = false) : r.unmounted = false :=
  (congrArg Activation.unmounted stays.same.symm :).trans live

theorem heeded (stays : Stays h s t a r r') (heeded : Heeded program s a) : Heeded program t a := by
  rcases heeded with ⟨r₀, tree, again, committed, ends⟩ | waits
  · cases Option.some.inj (stays.found.symm.trans again)
    refine stays.cells.elim .inr fun more => .inl ⟨r', tree, stays.found', ?_, ?_⟩
    · exact (congrArg Activation.committed stays.same :).trans committed
    · have component : r'.component = r.component := (congrArg Activation.component stays.same :)
      have props : r'.props = r.props := (congrArg Activation.props stays.same :)
      rw [component, props]
      exact ends.mono more
  · exact .inr (stays.pending a waits)

theorem of_same (found : s.activations.find? a = some r) (found' : t.activations.find? a = some r)
    (scheduler : t.scheduler = s.scheduler) (cells : t.cells = s.cells) (calm : h.deeds = []) :
    Stays h s t a r r where
  found := found
  found' := found'
  same := rfl
  cells := .inr (contents_of_cells (r := r) cells ▸ List.prefix_rfl)
  pending b waits := scheduler ▸ waits
  changed := by
    rintro ⟨cell, changed⟩
    rw [calm] at changed
    cases changed

end Stays

/-- Bodies that ran leave every record as it was, apart from its cells. -/
theorem Undisturbed.stays (calm : Undisturbed s t) (tracks : Tracks h.deeds s t)
    (found' : t.activations.find? a = some r') (live : r'.unmounted = false) :
    ∃ r, Stays h s t a r r' := by
  have bare := calm.bare a
  rw [found', Option.map_some] at bare
  obtain ⟨r, found, same⟩ := Option.map_eq_some_iff.mp bare.symm
  have lived : r.unmounted = false := (congrArg Activation.unmounted same :).trans live
  obtain ⟨_, again, -, cells⟩ := tracks.cells a r found
  cases Option.some.inj (found'.symm.trans again)
  refine ⟨r, found, found', same.symm, cells lived, tracks.pending, ?_⟩
  rintro ⟨cell, changed⟩
  exact tracks.changed a cell changed r found lived

variable {place : NodeId} {ps qs : List Picture}

theorem Confined.record {within : List ActivationId} (confined : Confined within s t)
    (found' : t.activations.find? a = some r') :
    ∃ r, s.activations.find? a = some r ∧ r'.cells = r.cells ∧ t.contents r' = s.contents r := by
  have memory := confined.memory a
  rw [found', Option.map_some] at memory
  obtain ⟨r, found, same⟩ := Option.map_eq_some_iff.mp memory.symm
  have cells : r'.cells = r.cells := (congrArg (fun m => m.2.1) same.symm :)
  refine ⟨r, found, cells, ?_⟩
  rw [contents_of_cells confined.cells, contents, contents, cells]

theorem Confined.ready {within : List ActivationId} (confined : Confined within s t) (ready : s.Ready) : t.Ready :=
  ready.of_same confined.dropped confined.cells fun _ _ found' => by
    obtain ⟨r, found, same, -⟩ := confined.record found'
    exact .inr ⟨r, found, same⟩

theorem Changes.ready (changes : Changes s u t place ps qs) (ready : u.Ready) : t.Ready :=
  changes.confined.ready ⟨ready.dropped, ready.owned⟩

theorem Changes.stays (changes : Changes s u t place ps qs) (tracks : Tracks h.deeds s u)
    (found : s.activations.find? a = some r) (found' : t.activations.find? a = some r')
    (same : r'.bare = r.bare) (live : r'.unmounted = false) : Stays h s t a r r' := by
  have lived : r.unmounted = false := (congrArg Activation.unmounted same.symm :).trans live
  have scheduler := changes.confined.scheduler
  obtain ⟨v, met, -, kept⟩ := changes.confined.record found'
  obtain ⟨_, again, -, more⟩ := tracks.cells a r found
  cases Option.some.inj (met.symm.trans again)
  refine ⟨found, found', same, ?_, fun b waits => scheduler ▸ tracks.pending b waits, ?_⟩
  · rw [scheduler, kept]
    exact more lived
  · rintro ⟨cell, changed⟩
    exact scheduler ▸ tracks.changed a cell changed r found lived

theorem Changes.prompt (changes : Changes s u t place ps qs) (tracks : Tracks deeds s u)
    (before : s.Prompt) : t.Prompt := by
  have after := tracks.prompt before
  exact ⟨changes.confined.scheduler ▸ after.armed, by
    rw [changes.confined.scheduler, changes.confined.waiting]
    exact after.waiting⟩

theorem Changes.epoch_eq (changes : Changes s u t place ps qs) : t.epoch = s.epoch :=
  changes.confined.epoch.trans changes.passed.epoch

theorem Reverts.others (reverts : Reverts s u t) (settled : Settled s scene)
    (found' : t.activations.find? a = some r') (live : r'.unmounted = false) :
    ∃ r, s.activations.find? a = some r ∧ r'.bare = r.bare := by
  have changes := reverts.changes settled ⟨0⟩
  have early : a.index ≤ Arena.issued s.activations := by
    by_contra late
    have issued : a.index ≤ Arena.issued u.activations :=
      changes.confined.issued ▸ Activations.index_le_issued found'
    obtain ⟨_, again, gone⟩ := reverts.vanished a (mem_newIn.mpr ⟨by omega, issued⟩)
    cases Option.some.inj (found'.symm.trans again)
    exact Bool.noConfusion (live.symm.trans gone.unmounted)
  have bare := reverts.bare a early
  rw [found', Option.map_some] at bare
  obtain ⟨r, found, same⟩ := Option.map_eq_some_iff.mp bare.symm
  exact ⟨r, found, same.symm⟩

theorem Reverts.stays (reverts : Reverts s u t) (settled : Settled s scene)
    (tracks : Tracks h.deeds s u) (found' : t.activations.find? a = some r')
    (live : r'.unmounted = false) : ∃ r, Stays h s t a r r' := by
  obtain ⟨r, found, same⟩ := reverts.others settled found' live
  exact ⟨r, (reverts.changes settled ⟨0⟩).stays tracks found found' same live⟩

theorem Changes.lives (changes : Changes s u t place (scene place) qs) (settled : Settled s scene)
    (member : a ∈ activationsAll qs) (found : u.activations.find? a = some r) : r.unmounted = false := by
  rcases changes.within a member with stood | new
  · obtain ⟨r', found', live⟩ :=
      Activations.isRegistered_iff.mp (settled.isRegistered_iff.mpr ⟨place, stood⟩)
    have bare := changes.passed.old a (Activations.index_le_issued found')
    rw [found, found', Option.map_some, Option.map_some, Option.some.injEq] at bare
    exact (congrArg Activation.unmounted bare :).trans live
  · obtain ⟨owner, reference, blank⟩ := changes.passed.new a new
    rw [found, Option.map_some, Option.some.injEq] at blank
    exact (congrArg Activation.unmounted blank :)

/-- After a pass that took effect the activations that it invoked are current or pending. -/
theorem Patches.current (patches : Patches s u t place (scene place) plans result)
    (settled : Settled s scene) (traces : Traces program trials s u)
    (shown : trials.map Trial.shown? = (Outline.shownAll (Plan.outlines plans)).map some)
    (member : trial ∈ trials) : Heeded program t trial.activation := by
  obtain ⟨x, planned, same⟩ : ∃ x ∈ Outline.shownAll (Plan.outlines plans), some x = trial.shown? :=
    List.mem_map.mp (shown ▸ List.mem_map_of_mem member)
  obtain ⟨r', found', -, component, props, committed⟩ := patches.shown x planned
  obtain ⟨r, found, recalled⟩ := traces.recalls trial member
  obtain ⟨a, c, props', deeds, outcome⟩ := trial
  cases outcome with
  | error => cases same
  | ok tree =>
      cases same
      obtain ⟨_, again, -, kept⟩ := patches.changes.confined.record found'
      cases Option.some.inj (found.symm.trans again)
      have stays : a ∈ Plan.activationsAll plans := by
        rw [Plan.activationsAll_eq]
        exact List.mem_map_of_mem planned
      have live := patches.changes.lives settled (patches.inside a stays) found
      rcases recalled live with waits | ends
      · exact .inr (patches.changes.confined.scheduler ▸ waits)
      · refine .inl ⟨r', tree, found', committed, ?_⟩
        rw [component, props, kept]
        exact ends

/-- What is live after a pass that took effect was invoked by it, or is as it was before. -/
theorem Patches.others (patches : Patches s u t place ps plans result)
    (found' : t.activations.find? a = some r') (live : r'.unmounted = false)
    (outside : a ∉ Plan.activationsAll plans) :
    ∃ r, s.activations.find? a = some r ∧ r'.bare = r.bare := by
  by_cases inside : a ∈ activationsAll result.1
  · have bare := patches.around a inside outside
    rw [found', Option.map_some] at bare
    obtain ⟨r, found, same⟩ := Option.map_eq_some_iff.mp bare.symm
    exact ⟨r, found, same.symm⟩
  · exact (patches.changes.from_elsewhere found' live inside).2

/-- What a move does to updates, other than one that begins a flush. -/
structure Carries (program : Program σ) (h : Occurrence δ) (s t : Renderer D σ) : Prop where
  ready : t.Ready
  epoch : t.epoch = s.epoch
  prompt : s.Prompt → t.Prompt
  only : ∀ a ∈ t.scheduler.queue, a ∈ s.scheduler.queue ∨ h.Changes a
  live : ∀ a r', t.activations.find? a = some r' → r'.unmounted = false →
    (h.Shows a ∧ Heeded program t a ∧ r'.renderedIn = s.epoch) ∨
    (¬ h.Shows a ∧ ∃ r, Stays h s t a r r')

theorem Carries.of_same (ready : t.Ready) (cells : t.cells = s.cells) (scheduler : t.scheduler = s.scheduler)
    (waiting : t.waiting = s.waiting)
    (epoch : t.epoch = s.epoch) (calm : h.deeds = []) (unshown : ∀ a, ¬ h.Shows a)
    (same : ∀ a r, t.activations.find? a = some r → r.unmounted = false →
      s.activations.find? a = some r) : Carries program h s t where
  ready := ready
  epoch := epoch
  prompt before := ⟨scheduler ▸ before.armed, by rw [scheduler, waiting]; exact before.waiting⟩
  only a waits := .inl (scheduler ▸ waits)
  live a r found live := .inr ⟨unshown a, r, .of_same (same a r found live) found scheduler cells calm⟩

theorem Reverts.carries (reverts : Reverts s u t) (settled : Settled s scene)
    (tracks : Tracks h.deeds s u) (unshown : ∀ a, ¬ h.Shows a) : Carries program h s t where
  ready := (reverts.changes settled ⟨0⟩).ready tracks.ready
  epoch := (reverts.changes settled ⟨0⟩).epoch_eq
  prompt := (reverts.changes settled ⟨0⟩).prompt tracks
  only a waits := (tracks.only a (reverts.confined.scheduler ▸ waits)).imp_right id
  live _ _ found live := .inr ⟨unshown _, reverts.stays settled tracks found live⟩

theorem Patches.carries (patches : Patches s u t place (scene place) plans result)
    (settled : Settled s scene) (traces : Traces program trials s u)
    (shown : trials.map Trial.shown? = (Outline.shownAll (Plan.outlines plans)).map some)
    (told : h.deeds = deedsIn trials) (shows : ∀ a, h.Shows a ↔ a ∈ trials.map Trial.activation) :
    Carries program h s t where
  ready := patches.changes.ready traces.tracks.ready
  epoch := patches.changes.epoch_eq
  prompt := patches.changes.prompt traces.tracks
  only a waits := by
    rw [Occurrence.Changes, told]
    exact traces.tracks.only a (patches.changes.confined.scheduler ▸ waits)
  live a r found live := by
    rw [shows]
    by_cases inside : a ∈ trials.map Trial.activation
    · obtain ⟨trial, member, rfl⟩ := List.mem_map.mp inside
      have rendered := patches.rendered trial.activation (by
        rwa [Plan.activationsAll_eq, ← activations_of_shown shown])
      rw [found, Option.map_some, Option.some.injEq] at rendered
      exact .inl ⟨inside, patches.current settled traces shown member, rendered⟩
    · have planned : trials.map Trial.activation = Plan.activationsAll plans := by
        rw [activations_of_shown shown, Plan.activationsAll_eq]
      obtain ⟨r', found', same⟩ := patches.others found live (planned ▸ inside)
      exact .inr ⟨inside, r', patches.changes.stays (told ▸ traces.tracks) found' found same live⟩

variable [Layer D]

theorem Settled.unmount_carries (settled : Settled s scene) (ready : s.Ready)
    (returned : Returns (unmount place) s answer t) :
    Carries program (.unmounted place) s t := by
  obtain ⟨_, returned', changes, -⟩ := settled.unmounts place
  obtain ⟨-, rfl⟩ := returned.unique returned'
  have confined := changes.confined
  refine .of_same (changes.ready ready) confined.cells confined.scheduler confined.waiting confined.epoch rfl
    (fun _ => id) fun a r found live => ?_
  have untouched : a ∉ activationsAll (scene place) ++ newIn s s := by
    rw [List.mem_append]
    intro touched
    obtain ⟨_, again, gone⟩ := changes.vanished a touched List.not_mem_nil
    cases Option.some.inj (found.symm.trans again)
    exact Bool.noConfusion (live.symm.trans gone.unmounted)
  exact (confined.others a untouched).symm.trans found

/-- Every move but one that begins a flush carries updates on. -/
theorem Moves.carries (moves : Moves program agenda s h ending t) (settled : Settled s scene)
    (ready : s.Ready) (other : h ≠ .began) : Carries program h s t := by
  cases moves with
  | act acts =>
      have calm := Undisturbed.acts acts
      have tracks := acts.tracks ready
      exact ⟨tracks.ready, calm.epoch, tracks.prompt, tracks.only, fun a r found live =>
        .inr ⟨id, calm.stays tracks found live⟩⟩
  | @render tree place _ trials r _ renders =>
      have begun : Tracks [] s (s.beginning place) := .of_same ready rfl rfl rfl rfl rfl
      obtain ⟨u, ⟨e, passes, rfl, reverts⟩ | ⟨plans, passes, rfl, -, patches⟩⟩ :=
        settled.render_cases renders
      · exact reverts.carries settled (begun.after (passes.traces begun.ready).tracks) fun _ => id
      · exact patches.carries settled (.after begun (passes.traces begun.ready)) (passes.shown rfl) rfl
          fun _ => Iff.rfl
  | unmount returned => exact settled.unmount_carries ready returned
  | flush | task => exact absurd rfl other
  | vainTask _ dropped => exact absurd (dropped.symm.trans ready.dropped) nofun
  | passOver | edit =>
      exact .of_same ⟨ready.dropped, ready.owned⟩ rfl rfl rfl rfl rfl (fun _ => id) fun _ _ found _ => found
  | @retry _ a record trials r _ rest found live due rerenders =>
      have begun : Tracks [] s (s.attempting a) := .of_same ready rfl rfl rfl rfl rfl
      obtain ⟨u, ⟨e, invokes, rfl, reverts⟩ | ⟨rendered, invokes, rfl, _, _, _, _, -, -, -, patches⟩⟩ :=
        settled.rerender_cases found (settled.find?_of_isLive found live) rerenders
      · exact reverts.carries settled (begun.after (invokes.traces begun.ready found).tracks) fun _ => id
      · exact patches.carries settled (.after begun (invokes.traces begun.ready found)) (invokes.shown rfl) rfl
          fun _ => Iff.rfl

end Renderer
end Patchwork
