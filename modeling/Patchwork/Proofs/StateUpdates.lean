import Patchwork.Proofs.ComponentReading
import Patchwork.Proofs.CallCourses

/-! State updates are not lost. Between operations every live activation shows what its cells ask for,
or waits for a flush that is on its way, or failed when it was last tried. During a flush those that are
still to be visited may be behind. -/
namespace Patchwork

section

variable {D σ : Type} {δ : StateData} [HasStateData σ δ]

/-- The latest attempt to re-render the activation since its state last changed failed. -/
def LastFailed (a : ActivationId) (episodes : List (Episode D σ)) : Prop :=
  ∃ early late, ∃ (s t : Renderer D σ) (trials : List (Trial δ)) (e : RenderError),
    episodes = early ++ ⟨s, .retried a trials (.error e), t⟩ :: late ∧
      ¬ (Occurrence.retried a trials (.error e)).Changes a ∧
      ∀ episode ∈ late, ¬ episode.happening.Changes a ∧ ¬ episode.happening.Shows a

theorem LastFailed.snoc {episodes : List (Episode D σ)} {episode : Episode D σ} (failed : LastFailed a episodes)
    (unchanged : ¬ episode.happening.Changes a) (unshown : ¬ episode.happening.Shows a) :
    LastFailed a (episodes ++ [episode]) := by
  obtain ⟨early, late, s, t, trials, e, rfl, calm, after⟩ := failed
  refine ⟨early, late ++ [episode], s, t, trials, e, by simp only [List.append_assoc, List.cons_append],
    calm, fun later member => ?_⟩
  rcases List.mem_append.mp member with member | member
  · exact after later member
  · cases List.mem_singleton.mp member
    exact ⟨unchanged, unshown⟩

end

namespace Renderer

variable {D σ : Type} {δ : StateData} [HasStateData σ δ] {s t u : Renderer D σ} {scene : Scene} {program : Program σ}
  {h : Occurrence δ} {alike : Tree → Tree → Prop}
  {reading : Component → Props → Reading δ (Except RenderError Tree)}

/-- No update was lost so far. -/
structure Kept (program : Program σ) (agenda : List ActivationId) (s : Renderer D σ)
    (episodes : List (Episode D σ)) : Prop where
  ready : s.Ready
  prompt : s.Prompt
  live : ∀ a r, s.activations.find? a = some r → r.unmounted = false →
    Heeded program s a ∨ LastFailed a episodes ∨ (a ∈ agenda ∧ r.renderedIn ≠ s.epoch)

theorem Stays.kept (stays : Stays h s t a r r') (kept : Kept program agenda s episodes)
    (live : r'.unmounted = false) (unshown : ¬ h.Shows a) (epoch : t.epoch = s.epoch) :
    Heeded program t a ∨ LastFailed a (episodes ++ [⟨s, h, t⟩]) ∨
      (a ∈ agenda ∧ r'.renderedIn ≠ t.epoch) := by
  rcases kept.live a r stays.found (stays.live live) with heeded | failed | ⟨member, due⟩
  · exact .inl (stays.heeded heeded)
  · by_cases touched : h.Changes a
    · exact .inl (.inr (stays.changed touched))
    · exact .inr (.inl (failed.snoc touched unshown))
  · refine .inr (.inr ⟨member, ?_⟩)
    rw [epoch]
    exact (congrArg Activation.renderedIn stays.same.symm :) ▸ due

variable [Layer D]

omit [Layer D] in
theorem Kept.begun (kept : Kept program [] s episodes) (settled : Settled s scene)
    (same : t.activations = s.activations) (scheduler : t.scheduler = .empty)
    (epoch : t.epoch = s.epoch + 1) (dropped : t.dropped = s.dropped) (cells : t.cells = s.cells) :
    Kept program s.scheduler.queue t (episodes ++ [⟨s, .began, t⟩]) where
  ready := kept.ready.of_same dropped cells fun b r found => .inr ⟨r, same ▸ found, rfl⟩
  prompt := ⟨fun waits => absurd (congrArg Scheduler.queue scheduler) waits, fun armed => by
    rw [scheduler] at armed
    cases armed⟩
  live a r found live := by
    rw [same] at found
    rcases kept.live a r found live with (⟨r, tree, found, current⟩ | waits) | failed | ⟨none, -⟩
    · rw [← contents_of_cells cells] at current
      exact .inl (.inl ⟨r, tree, same ▸ found, current⟩)
    · have early := settled.epoch a r found live
      exact .inr (.inr ⟨waits, by omega⟩)
    · exact .inr (.inl (failed.snoc (by rintro ⟨_, changed⟩; cases changed) id))
    · cases none

theorem Moves.ready (moves : Moves program agenda s h ending t) (settled : Settled s scene) (ready : s.Ready) :
    t.Ready := by
  by_cases begins : h = .began
  · subst begins
    cases moves <;> exact ⟨ready.dropped, ready.owned⟩
  · exact (moves.carries settled ready begins).ready

theorem Course.ready_of_mem (course : Course program agenda s more ending t) (settled : Settled s scene)
    (ready : s.Ready) (member : episode ∈ more) : episode.before.Ready := by
  induction course generalizing scene with
  | nil => cases member
  | cons moves _ ih =>
      obtain ⟨⟨_, between⟩, -⟩ := settled.moves moves
      rcases List.mem_cons.mp member with rfl | later
      · exact ready
      · exact ih between (moves.ready settled ready) later

/-- No move loses an update. -/
theorem Kept.moves (kept : Kept program agenda s episodes) (settled : Settled s scene)
    (moves : Moves program agenda s h ending t) :
    Kept program ending t (episodes ++ [⟨s, h, t⟩]) := by
  by_cases begins : h = .began
  · subst begins
    cases moves with
    | flush => exact kept.begun settled rfl rfl rfl rfl rfl
    | task => exact kept.begun settled rfl rfl rfl rfl rfl
  have carries := moves.carries settled kept.ready begins
  refine ⟨carries.ready, carries.prompt kept.prompt, fun a r' found' live => ?_⟩
  rcases carries.live a r' found' live with ⟨-, heeded, -⟩ | ⟨unshown, r, stays⟩
  · exact .inl heeded
  rcases stays.kept kept live unshown carries.epoch with heeded | failed | ⟨waits, due⟩
  · exact .inl heeded
  · exact .inr (.inl failed)
  cases moves with
  | act | render | unmount | vainTask | edit => exact .inr (.inr ⟨waits, due⟩)
  | flush | task => exact absurd rfl begins
  | @passOver head _ rest rendered =>
      refine .inr (.inr ⟨(List.mem_cons.mp waits).resolve_left fun same => due ?_, due⟩)
      subst same
      refine rendered r' found' ((settled.isLive_eq _).trans ?_)
      exact Activations.isRegistered_iff.mpr ⟨r', found', live⟩
  | @retry _ head record trials result _ rest found _ _ rerenders =>
      rcases List.mem_cons.mp waits with rfl | later
      · by_cases touched : (Occurrence.retried a trials result).Changes a
        · exact .inl (.inr (stays.changed touched))
        obtain ⟨_, _, _, invokes, -⟩ := rerenders.passed
        cases result with
        | ok => exact absurd invokes.mem_trials unshown
        | error e => exact .inr (.inl ⟨episodes, [], s, t, trials, e, rfl, touched,
            List.forall_mem_nil _⟩)
      · exact .inr (.inr ⟨later, due⟩)

theorem Kept.course (kept : Kept program agenda s episodes) (settled : Settled s scene)
    (course : Course program agenda s more ending t) :
    Kept program ending t (episodes ++ more) := by
  induction course generalizing scene episodes with
  | nil => rwa [List.append_nil]
  | cons moves _ ih =>
      obtain ⟨⟨_, between⟩, -⟩ := settled.moves moves
      have later := ih (kept.moves settled moves) between
      rwa [List.append_assoc, List.singleton_append] at later

omit [Layer D] in
theorem ready_new (dom : D) (store : σ) : (new dom store).Ready where
  dropped := rfl
  owned a r found := by
    rw [Renderer.new, Activations.find?, Arena.get?_empty] at found
    cases found

omit [Layer D] in
theorem Kept.new (dom : D) (store : σ) : Kept program [] (new dom store) [] where
  ready := ready_new dom store
  prompt := ⟨fun waits => absurd rfl waits, nofun⟩
  live a r found := by
    rw [Renderer.new, Activations.find?, Arena.get?_empty] at found
    cases found

/-- Nothing has gone wrong in a flush so far that was to visit `first`. -/
structure Visited (program : Program σ) (first agenda : List ActivationId) (s : Renderer D σ) : Prop where
  ready : s.Ready
  idle : s.scheduler.queue = []
  live : ∀ a ∈ first, ∀ r, s.activations.find? a = some r → r.unmounted = false →
    Current program s a ∨ (a ∈ agenda ∧ r.renderedIn ≠ s.epoch)

theorem Visited.moves (visited : Visited program first agenda s) (settled : Settled s scene)
    (moves : Moves program agenda s h ending t)
    (other : h ≠ .began) (calm : ∀ a, ¬ h.Changes a)
    (succeeded : Episode.failed? ⟨s, h, t⟩ = none) : Visited program first ending t := by
  have carries := moves.carries settled visited.ready other
  have idle : t.scheduler.queue = [] := List.eq_nil_iff_forall_not_mem.mpr fun a waits => by
    rcases carries.only a waits with waited | changed
    · rw [visited.idle] at waited
      cases waited
    · exact calm a changed
  have current : ∀ a, Heeded program t a → Current program t a := fun a heeded =>
    heeded.resolve_right (idle ▸ List.not_mem_nil)
  refine ⟨carries.ready, idle, fun a member r' found' live => ?_⟩
  rcases carries.live a r' found' live with ⟨-, heeded, -⟩ | ⟨unshown, r, stays⟩
  · exact .inl (current a heeded)
  rcases visited.live a member r stays.found (stays.live live) with shown | ⟨waits, due⟩
  · exact .inl (current a (stays.heeded (.inl shown)))
  have due : r'.renderedIn ≠ t.epoch := by
    rw [carries.epoch]
    exact (congrArg Activation.renderedIn stays.same.symm :) ▸ due
  cases moves with
  | act | render | unmount | vainTask | edit => exact .inr ⟨waits, due⟩
  | flush | task => exact absurd rfl other
  | @passOver head _ rest rendered =>
      refine .inr ⟨(List.mem_cons.mp waits).resolve_left fun same => due ?_, due⟩
      subst same
      refine rendered r' found' ((settled.isLive_eq _).trans ?_)
      exact Activations.isRegistered_iff.mpr ⟨r', found', live⟩
  | @retry _ head record trials result _ rest found _ _ rerenders =>
      obtain ⟨_, _, _, invokes, -⟩ := rerenders.passed
      cases result with
      | error => cases succeeded
      | ok =>
          refine .inr ⟨(List.mem_cons.mp waits).resolve_left fun same => unshown ?_, due⟩
          exact same ▸ invokes.mem_trials

theorem Visited.course (visited : Visited program first agenda s) (settled : Settled s scene)
    (course : Course program agenda s visits ending t)
    (unbroken : Episode.Unbroken visits) (calm : ∀ a, ∀ visit ∈ visits, ¬ visit.happening.Changes a)
    (succeeded : ∀ visit ∈ visits, visit.failed? = none) : Visited program first ending t := by
  induction course generalizing scene with
  | nil => exact visited
  | cons moves _ ih =>
      obtain ⟨⟨_, between⟩, -⟩ := settled.moves moves
      obtain ⟨other, unbroken⟩ := List.forall_mem_cons.mp unbroken
      obtain ⟨worked, succeeded⟩ := List.forall_mem_cons.mp succeeded
      refine ih (visited.moves settled moves other (fun a => ?_) worked) between unbroken
        (fun a visit member => calm a visit (List.mem_cons_of_mem _ member)) succeeded
      exact calm a _ (List.mem_cons_self ..)

theorem Kept.visited (kept : Kept program [] s episodes) (settled : Settled s scene)
    (begins : Moves program [] s .began agenda t) : Visited program agenda agenda t := by
  have due : ∀ a r, s.activations.find? a = some r → r.unmounted = false →
      r.renderedIn ≠ s.epoch + 1 := fun a r found live => by
    have := settled.epoch a r found live
    omega
  cases begins with
  | flush =>
      exact ⟨⟨kept.ready.dropped, kept.ready.owned⟩, rfl, fun a waits r found live => .inr ⟨waits, due a r found live⟩⟩
  | task =>
      exact ⟨⟨kept.ready.dropped, kept.ready.owned⟩, rfl, fun a waits r found live => .inr ⟨waits, due a r found live⟩⟩

/-- Between the calls of the host, with what has happened so far. -/
inductive Run (program : Program σ) : List (Episode D σ) → Renderer D σ → Prop
  | new (dom : D) (store : σ) : Run program [] (new dom store)
  | call {α : Type} {x : Action σ α} {answer : α} : Run program episodes v →
      Returns (perform (top program) x) v answer w → Course program [] v more [] w →
      Run program (episodes ++ more) w
  | idle : Run program episodes v → Returns (runUntilIdle program) v count w →
      Course program [] v more [] w → Run program (episodes ++ more) w
  | dispatch [EventPath D] : Run program episodes v →
      Returns (dispatch program target category value) v answer w → Course program [] v more [] w →
      Run program (episodes ++ more) w
  | edit (dom : D) : Run program episodes v →
      Run program (episodes ++ [⟨v, .edited, { v with dom }⟩]) { v with dom }

namespace Run

theorem settled (run : Run program episodes s) : ∃ scene, Settled s scene := by
  induction run with
  | new dom store => exact ⟨_, .new dom store⟩
  | call _ _ course ih | idle _ _ course ih | dispatch _ _ course ih =>
      obtain ⟨_, settled⟩ := ih
      exact settled.course course
  | edit dom _ ih =>
      obtain ⟨scene, settled⟩ := ih
      exact ⟨scene, settled.of_same rfl rfl rfl (Nat.le_refl _)⟩

theorem moves_of_mem (run : Run program episodes s) (member : episode ∈ episodes) :
    ∃ scene agenda ending, Settled episode.before scene ∧
      Moves program agenda episode.before episode.happening ending episode.after := by
  induction run with
  | new => cases member
  | call run _ course ih | idle run _ course ih | dispatch run _ course ih =>
      obtain ⟨_, settled⟩ := run.settled
      exact (List.mem_append.mp member).elim ih (course.moves_of_mem settled)
  | edit dom run ih =>
      obtain ⟨_, settled⟩ := run.settled
      exact (List.mem_append.mp member).elim ih ((Moves.edit dom).course.moves_of_mem settled)

theorem kept (run : Run program episodes s) : Kept program [] s episodes := by
  induction run with
  | new dom store => exact .new dom store
  | call before _ course ih | idle before _ course ih | dispatch before _ course ih =>
      obtain ⟨_, settled⟩ := before.settled
      exact ih.course settled course
  | edit dom before ih =>
      obtain ⟨_, settled⟩ := before.settled
      exact ih.moves settled (.edit dom)

theorem ready_of_mem (run : Run program episodes s) (member : episode ∈ episodes) : episode.before.Ready := by
  induction run with
  | new => cases member
  | call run _ course ih | idle run _ course ih | dispatch run _ course ih =>
      obtain ⟨_, settled⟩ := run.settled
      exact (List.mem_append.mp member).elim ih (course.ready_of_mem settled run.kept.ready)
  | edit dom run ih =>
      refine (List.mem_append.mp member).elim ih fun last => ?_
      cases List.mem_singleton.mp last
      exact run.kept.ready

/-- Every call of the host that returns goes on with the run. -/
theorem goes_on (run : Run program episodes s) (quiet : program.Quiet) :
    (∀ (α : Type) (x : Action σ α) answer t, Returns (perform (top program) x) s answer t →
      ∃ more, Run program (episodes ++ more) t) ∧
    (∀ count t, Returns (runUntilIdle program) s count t → ∃ more, Run program (episodes ++ more) t) ∧
    (∀ [EventPath D], ∀ target category value answer t,
      Returns (Renderer.dispatch program target category value) s answer t →
        ∃ more, Run program (episodes ++ more) t) := by
  obtain ⟨_, settled⟩ := run.settled
  refine ⟨fun α x answer t returned => ?_, fun count t returned => ?_,
    fun target category value answer t returned => ?_⟩
  · obtain ⟨more, course⟩ := course_of_perform quiet x settled returned
    exact ⟨more, run.call returned course⟩
  · obtain ⟨more, course⟩ := course_of_runUntilIdle quiet settled returned
    exact ⟨more, run.idle returned course⟩
  · obtain ⟨more, course⟩ := course_of_dispatch quiet settled returned
    exact ⟨more, run.dispatch returned course⟩

end Run

def counter : Program Unit where
  component _ _ := .useState .int (.done (Datum.int 0).initial) fun answer =>
    .done (answer.map fun (d, _) => .text (.bool (d = .int 0)))
  handler _ _ := .done false

end Renderer
end Patchwork
