import Patchwork.Proofs.PlanEffects
import Patchwork.Proofs.PlanSpec
import Patchwork.Proofs.CellTracking

/-! What is destroyed stays destroyed. Its setters ask for nothing, and no pass invokes it any more: what
a pass invokes was placed by an earlier render, or is made by the pass itself. -/
namespace Patchwork

/-- The activation was made, and is no more. -/
def Activations.Destroyed (as : Activations) (a : ActivationId) : Prop :=
  ∃ r, as.find? a = some r ∧ r.unmounted = true

namespace Activations

variable {as bs : Activations}

theorem destroyed_iff : as.Destroyed a ↔ as.find? a ≠ none ∧ a ∉ as.registered := by
  rw [mem_registered, isRegistered_iff, Option.ne_none_iff_exists']
  constructor
  · rintro ⟨r, found, gone⟩
    refine ⟨⟨r, found⟩, ?_⟩
    rintro ⟨r', found', live⟩
    cases Option.some.inj (found.symm.trans found')
    exact Bool.noConfusion (live.symm.trans gone)
  · rintro ⟨⟨r, found⟩, hidden⟩
    refine ⟨r, found, ?_⟩
    cases gone : r.unmounted with
    | true => rfl
    | false => exact absurd ⟨r, found, gone⟩ hidden

theorem Destroyed.not_registered (gone : as.Destroyed a) : as.isRegistered a = false := by
  have hidden := (destroyed_iff.mp gone).2
  rwa [mem_registered, Bool.not_eq_true] at hidden

theorem Destroyed.of_bare (gone : as.Destroyed a)
    (same : (bs.find? a).map Activation.bare = (as.find? a).map Activation.bare) : bs.Destroyed a := by
  obtain ⟨r, found, gone⟩ := gone
  rw [found, Option.map_some] at same
  obtain ⟨r', found', bare⟩ := Option.map_eq_some_iff.mp same
  exact ⟨r', found', (congrArg Activation.unmounted bare :).trans gone⟩

theorem Vanished.destroyed (vanished : as.Vanished a) : as.Destroyed a := by
  obtain ⟨r, found, gone⟩ := vanished
  exact ⟨r, found, gone.unmounted⟩

end Activations

/-- The scheduler and the tasks that wait, once activations asked for re-renders in turn. -/
def asking (asked : List ActivationId) (before : Scheduler ActivationId × Nat) :
    Scheduler ActivationId × Nat :=
  asked.foldl (fun now a => ((now.1.schedule a).2,
    if (now.1.schedule a).1 = .armed then now.2 + 1 else now.2)) before

theorem asking_append (one two : List ActivationId) (before : Scheduler ActivationId × Nat) :
    asking (one ++ two) before = asking two (asking one before) := List.foldl_append ..

theorem mem_asking {asked : List ActivationId} {before : Scheduler ActivationId × Nat}
    (waits : a ∈ (asking asked before).1.queue) : a ∈ before.1.queue ∨ a ∈ asked := by
  induction asked generalizing before with
  | nil => exact .inl waits
  | cons b rest ih =>
      rcases ih waits with early | later
      · rcases (Scheduler.mem_schedule ..).mp early with waited | rfl
        · exact .inl waited
        · exact .inr (List.mem_cons_self ..)
      · exact .inr (List.mem_cons_of_mem _ later)

theorem mem_asking_of_mem {asked : List ActivationId} {before : Scheduler ActivationId × Nat}
    (waits : a ∈ before.1.queue) : a ∈ (asking asked before).1.queue := by
  induction asked generalizing before with
  | nil => exact waits
  | cons b rest ih => exact ih ((Scheduler.mem_schedule ..).mpr (.inl waits))

theorem armed_asking {asked : List ActivationId} {before : Scheduler ActivationId × Nat}
    (armed : before.1.queue ≠ [] → before.1.armed = true) (waiting : before.1.armed = true → before.2 ≠ 0) :
    ((asking asked before).1.queue ≠ [] → (asking asked before).1.armed = true) ∧
      ((asking asked before).1.armed = true → (asking asked before).2 ≠ 0) := by
  induction asked generalizing before with
  | nil => exact ⟨armed, waiting⟩
  | cons b rest ih =>
      obtain ⟨stays, arms⟩ := Scheduler.armed_schedule before.1 b armed
      refine ih (fun _ => stays) fun _ => ?_
      dsimp only
      split
      next => exact Nat.succ_ne_zero _
      next other => exact waiting (arms.resolve_left other)

namespace Renderer

open Picture

variable {D σ : Type} {δ : StateData} [HasStateData σ δ] {s t u : Renderer D σ} {scene : Scene} {program : Program σ}

/-- What asked for re-renders was not destroyed, and what was destroyed still is. -/
structure Hears (s t : Renderer D σ) : Prop where
  gone : ∀ a, s.activations.Destroyed a → t.activations.Destroyed a
  asked : ∃ asked, (∀ a ∈ asked, ¬ s.activations.Destroyed a) ∧
    (t.scheduler, t.waiting) = asking asked (s.scheduler, s.waiting)

namespace Hears

theorem of_silent (scheduler : t.scheduler = s.scheduler) (waiting : t.waiting = s.waiting)
    (gone : ∀ a, s.activations.Destroyed a → t.activations.Destroyed a) : Hears s t :=
  ⟨gone, [], List.forall_mem_nil _, by rw [scheduler, waiting]; rfl⟩

theorem of_same (scheduler : t.scheduler = s.scheduler) (waiting : t.waiting = s.waiting)
    (same : t.activations = s.activations) : Hears s t :=
  of_silent scheduler waiting fun _ gone => same ▸ gone

theorem of_calm (calm : Undisturbed s t) (scheduler : t.scheduler = s.scheduler)
    (waiting : t.waiting = s.waiting) : Hears s t :=
  of_silent scheduler waiting fun a gone => gone.of_bare (calm.bare a)

@[refl] theorem refl (s : Renderer D σ) : Hears s s := of_same rfl rfl rfl

theorem trans (one : Hears s t) (two : Hears t u) : Hears s u := by
  obtain ⟨gone, first, early, scheduled⟩ := one
  obtain ⟨gone', second, late, scheduled'⟩ := two
  refine ⟨fun a dead => gone' a (gone a dead), first ++ second, fun a member dead => ?_, ?_⟩
  · rcases List.mem_append.mp member with member | member
    · exact early a member dead
    · exact late a member (gone a dead)
  · rw [asking_append, ← scheduled, scheduled']

theorem pending (hears : Hears s t) (gone : s.activations.Destroyed a) (waits : a ∈ t.scheduler.queue) :
    a ∈ s.scheduler.queue := by
  obtain ⟨asked, live, scheduled⟩ := hears.asked
  have same : t.scheduler = (asking asked (s.scheduler, s.waiting)).1 := congrArg Prod.fst scheduled
  rw [same] at waits
  exact (mem_asking waits).resolve_right fun member => live a member gone

theorem keeps (hears : Hears s t) (waits : a ∈ s.scheduler.queue) : a ∈ t.scheduler.queue := by
  obtain ⟨asked, -, scheduled⟩ := hears.asked
  have same : t.scheduler = (asking asked (s.scheduler, s.waiting)).1 := congrArg Prod.fst scheduled
  exact same ▸ mem_asking_of_mem waits

theorem prompt (hears : Hears s t) (before : s.Prompt) : t.Prompt := by
  obtain ⟨asked, -, scheduled⟩ := hears.asked
  obtain ⟨armed, waiting⟩ :=
    @armed_asking asked (s.scheduler, s.waiting) before.armed before.waiting
  rw [← scheduled] at armed waiting
  exact ⟨armed, waiting⟩

end Hears

theorem hears_requestUpdate (returned : Returns (requestUpdate a) s v t) : Hears s t := by
  obtain ⟨rs, rfl⟩ := returns_requestUpdate returned
  cases heard : s.heeds a with
  | false =>
      simp only [Bool.false_eq_true, false_and, if_false]
      exact .of_same rfl rfl rfl
  | true =>
      refine ⟨fun _ => id, [a], fun b member gone => ?_, ?_⟩
      · rw [List.mem_singleton.mp member] at gone
        rw [heeds, gone.not_registered, Bool.and_false] at heard
        cases heard
      · simp only [if_true, true_and, asking, List.foldl_cons, List.foldl_nil]

theorem hears_updateCell (returned : Returns (updateCell setter change) s v t) : Hears s t := by
  cases setterStep_of_returns returned with
  | vain _ noted =>
      subst noted
      exact .of_same rfl rfl rfl
  | changed _ _ requested =>
      exact Hears.trans (t := s.setting ..) (.of_calm (.cells ..) rfl rfl) (hears_requestUpdate requested)

theorem unheard_requestUpdate (gone : s.activations.Destroyed a)
    (returned : Returns (requestUpdate a) s v t) :
    t.scheduler = s.scheduler ∧ t.waiting = s.waiting := by
  obtain ⟨rs, rfl⟩ := returns_requestUpdate returned
  have deaf : s.heeds a = false := by rw [heeds, gone.not_registered, Bool.and_false]
  simp only [deaf, Bool.false_eq_true, false_and, if_false, and_self]

/-- The setters of a destroyed activation ask for nothing. -/
theorem unheard_updateCell {setter : Setter δ.DataType}
    (gone : ∀ c, s.cell? setter.cell = some c → s.activations.Destroyed c.owner)
    (returned : Returns (updateCell setter change) s v t) :
    t.scheduler = s.scheduler ∧ t.waiting = s.waiting := by
  cases setterStep_of_returns returned with
  | vain _ noted =>
      subst noted
      exact ⟨rfl, rfl⟩
  | changed there _ requested =>
      have unheard := unheard_requestUpdate (by exact gone _ there) requested
      exact unheard

theorem HookStep.hears (step : HookStep type s answer t) : Hears s t := by
  refine .of_calm (.hookStep step) ?_ ?_
  all_goals
    cases step <;> rfl

theorem Wants.hears (wants : Wants s a t) : Hears s t := by
  refine .of_calm (.wants wants) ?_ ?_
  all_goals
    cases wants
    rfl

/-- Bodies are heard, but not for what is destroyed. -/
theorem Acts.hears {x : Action σ α} (acts : Acts program x s deeds answer t) : Hears s t := by
  induction acts with
  | done => exact .refl _
  | load _ ih | getCell _ ih => exact ih
  | store _ ih | report _ ih =>
      refine Hears.trans ?_ ih
      exact .of_same rfl rfl rfl
  | asked step _ ih => exact step.hears.trans ih
  | made wants _ _ inner ih =>
      refine (wants.hears.trans inner).trans (Hears.trans ?_ ih)
      exact .of_calm (.making ..) rfl rfl
  | updateCell updated _ ih => exact (hears_updateCell updated).trans ih
  | invoke _ _ inner ih => exact inner.trans ih

theorem hears_checkCellCount (returned : Returns (checkCellCount a) s v t) : Hears s t := by
  obtain ⟨_, _, same, -⟩ := id (returns_checkCellCount returned)
  refine .of_calm (.checkCellCount returned) ?_ ?_
  all_goals
    rw [same]

theorem Ran.hears (ran : Ran program a c props s deeds outcome t) : Hears s t := by
  obtain ⟨acts, ended⟩ := ran
  have begun : Hears s (s.entering a c) := by
    refine .of_silent rfl rfl fun b gone => gone.of_bare ?_
    exact (Undisturbed.update (s := s) ({ · with cursor := 0 }) fun _ => rfl).bare b
  refine (begun.trans acts.hears).trans ?_
  split at ended
  · refine Hears.trans ?_ (hears_checkCellCount ended)
    exact .of_same rfl rfl rfl
  · obtain ⟨-, rfl⟩ := returns_pure.mp ended
    exact .of_same rfl rfl rfl

/-- What is destroyed when a pass begins is destroyed ever after. -/
theorem Advances.gone (advances : Advances s t) (gone : s.activations.Destroyed a) :
    t.activations.Destroyed a := by
  obtain ⟨r, found, -⟩ := id gone
  exact gone.of_bare (advances.old a (Activations.index_le_issued found))

variable [Layer D]

omit [Layer D] in
theorem hears_placing (returned : Returns (placing owner reference e) s (a, made) t) : Hears s t := by
  have advances := advances_placing returned
  obtain ⟨-, -, rfl⟩ | ⟨-, -, -, rfl⟩ := placing_cases returned
  · exact .refl _
  · exact .of_silent rfl rfl fun _ => advances.gone

omit [Layer D] in
theorem composes_hears (program : Program σ) : Composes program fun _ (s t : Renderer D σ) => Hears s t where
  refl := .refl
  trans := .trans
  reports _ _ := .of_same rfl rfl rfl
  calls _ _ := .of_same rfl rfl rfl
  placing := hears_placing
  ran ran _ := ran.hears

/-- A pass is heard, but not for what is destroyed. -/
theorem Passes.hears (passes : Passes program owner es positions s trials plans t) : Hears s t :=
  (composes_hears program).passes passes

theorem Invokes.hears (invokes : Invokes program a c props s trials rendered t)
    (found : s.activations.find? a = some r) : Hears s t := (composes_hears program).invokes invokes found

omit [Layer D] in
theorem mem_activationsAll_of_tail (member : a ∈ activationsAll ps.tail) : a ∈ activationsAll ps := by
  cases ps with
  | nil => exact member
  | cons p rest => exact List.mem_append_right _ member

omit [Layer D] in
theorem mem_activationsAll_of_inside (member : a ∈ activationsAll (Plan.inside ps.head?)) :
    a ∈ activationsAll ps := by
  cases ps with
  | nil => exact (List.not_mem_nil member).elim
  | cons p rest =>
      refine List.mem_append_left _ ?_
      cases p with
      | element => exact member
      | component => exact List.mem_cons_of_mem _ member
      | text | raw | missing => exact (List.not_mem_nil member).elim

theorem opening_inside (stands : StandAll s.activations place above ps)
    (returned : Returns (opening tag (ps.head?.map entry)) s (live, under) t) :
    ∃ qs node, under = entries qs ∧ StandAll t.activations node above qs ∧
      ∀ a ∈ activationsAll qs, a ∈ activationsAll ps := by
  obtain ⟨calm, same⟩ := undisturbed_opening returned
  rw [opened_eq] at same
  obtain ⟨-, rfl⟩ := Prod.mk.inj same
  obtain ⟨node, inside⟩ := (calm.advances.standAll stands).inside
  refine ⟨_, node, rfl, ?_, fun a member => ?_⟩
  · split
    · exact inside
    · exact standAll_nil.mpr trivial
  · split at member
    · exact mem_activationsAll_of_inside member
    · exact (List.not_mem_nil member).elim

omit [Layer D] in
/-- What a component's output is paired with stood there before, and so did its activation unless it is
made. -/
theorem placing_inside (stands : StandAll s.activations place above ps)
    (enough : above ≤ Arena.issued s.activations)
    (returned : Returns (placing owner reference (ps.head?.map entry)) s (a, made) t) :
    (a ∈ activationsAll ps ∨ Arena.issued s.activations < a.index) ∧
      ∃ qs, Placed s t place above ps.head? reference a made ∧
        qs = (if made then [] else Plan.inside ps.head?) ∧
        ∀ b ∈ activationsAll qs, b ∈ activationsAll ps := by
  have placed := placed_of_placing stands enough returned
  refine ⟨?_, _, placed, rfl, fun b member => ?_⟩
  · cases made with
    | false =>
        obtain ⟨_, _, _, _, -, first⟩ := Plan.of_kept (placed.kept rfl)
        cases ps with
        | nil => cases first
        | cons p rest =>
            cases first
            exact .inl (List.mem_cons_self ..)
    | true =>
        have fresh := placed.fresh
        rw [if_pos rfl] at fresh
        exact .inr (mem_issuedBetween.mp (fresh ▸ List.mem_singleton_self a)).1
  · split at member
    · exact (List.not_mem_nil member).elim
    · exact mem_activationsAll_of_inside member

/-- What a pass invokes stood there before, or is made by the pass. -/
theorem Passes.within (passes : Passes program owner es positions s trials result t) :
    ∀ {ps place above}, es = entries ps → StandAll s.activations place above ps →
      above ≤ Arena.issued s.activations → ∀ trial ∈ trials,
        trial.activation ∈ activationsAll ps ∨ Arena.issued s.activations < trial.activation.index := by
  -- The failing passes have cases of their own: what they tried before they failed is bounded as well.
  induction passes with
  | nil => exact fun _ _ _ _ member => (List.not_mem_nil member).elim
  | text checked passes ih =>
      rintro ps place above rfl stands enough trial member
      have calm := (undisturbed_checkEntry checked).1
      have later := ih (tail_entries ps) (calm.advances.standAll stands).tail (calm.issued ▸ enough) trial member
      exact (calm.issued ▸ later).imp_left mem_activationsAll_of_tail
  | raw passes ih =>
      rintro ps place above rfl stands enough trial member
      exact (ih (tail_entries ps) stands.tail enough trial member).imp_left mem_activationsAll_of_tail
  | element opened inner passes one two =>
      rintro ps place above rfl stands enough trial member
      rw [head?_entries] at opened
      have calm := (undisturbed_opening opened).1
      have begun := calm.advances.trans inner.advances
      obtain ⟨qs, node, rfl, inside, mine⟩ := opening_inside stands opened
      rcases List.mem_append.mp member with first | second
      · exact (calm.issued ▸ one rfl inside (calm.issued ▸ enough) trial first).imp_left (mine _)
      · refine (two (tail_entries ps) (begun.standAll stands).tail (Nat.le_trans enough begun.issued) trial
          second).imp mem_activationsAll_of_tail (Nat.lt_of_le_of_lt begun.issued)
  | elementFailed opened inner ih =>
      rintro ps place above rfl stands enough trial member
      rw [head?_entries] at opened
      have calm := (undisturbed_opening opened).1
      obtain ⟨qs, node, rfl, inside, mine⟩ := opening_inside stands opened
      exact (calm.issued ▸ ih rfl inside (calm.issued ▸ enough) trial member).imp_left (mine _)
  | component placed ran inner passes one two =>
      rintro ps place above rfl stands enough trial member
      rw [head?_entries] at placed
      have found := advances_placing placed
      have invoked := found.trans ran.undisturbed.advances
      have begun := invoked.trans (inner.advances.resuming rfl)
      obtain ⟨own, qs, placed, rfl, mine⟩ := placing_inside stands enough placed
      have placed := placed.ran ran.undisturbed
      rcases List.mem_cons.mp member with rfl | member
      · exact own
      rcases List.mem_append.mp member with first | second
      · exact (one placed.output placed.inner placed.issued trial first).imp (mine _)
          (Nat.lt_of_le_of_lt invoked.issued)
      · exact (two (tail_entries ps) (begun.standAll stands).tail (Nat.le_trans enough begun.issued) trial
          second).imp mem_activationsAll_of_tail (Nat.lt_of_le_of_lt begun.issued)
  | componentFailed placed ran =>
      rintro ps place above rfl stands enough trial member
      rw [head?_entries] at placed
      cases List.mem_singleton.mp member
      exact (placing_inside stands enough placed).1
  | outputFailed placed ran inner ih =>
      rintro ps place above rfl stands enough trial member
      rw [head?_entries] at placed
      have found := advances_placing placed
      have invoked := found.trans ran.undisturbed.advances
      obtain ⟨own, qs, placed, rfl, mine⟩ := placing_inside stands enough placed
      have placed := placed.ran ran.undisturbed
      rcases List.mem_cons.mp member with rfl | member
      · exact own
      · exact (ih placed.output placed.inner placed.issued trial member).imp (mine _)
          (Nat.lt_of_le_of_lt invoked.issued)

end Renderer
end Patchwork
