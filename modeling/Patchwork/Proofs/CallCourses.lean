import Patchwork.Proofs.Moves
import Patchwork.Renderer.Host

/-! Every call of the renderer is a course of moves, and every move leads from a settled state to a
settled one. -/
namespace Patchwork.Renderer

variable {D σ : Type} {δ : StateData} [HasStateData σ δ] [Layer D] {program : Program σ} {s t u : Renderer D σ}
  {scene : Scene}

omit [Layer D] in
theorem Settled.of_same (settled : Settled s scene) (roots : t.roots = s.roots)
    (same : t.activations = s.activations) (calls : t.calls = s.calls) (later : s.epoch ≤ t.epoch) :
    Settled t scene where
  roots := roots ▸ settled.roots
  stands := same ▸ settled.stands
  distinct := settled.distinct
  apart := settled.apart
  registered := same ▸ settled.registered
  calls := calls ▸ settled.calls
  epoch a r found live := Nat.le_trans (settled.epoch a r (same ▸ found) live) later

omit [Layer D] in
theorem Settled.noting (settled : Settled s scene) (r : Report) : Settled (s.noting r) scene :=
  settled.of_same rfl rfl rfl (Nat.le_refl _)

/-- A move leads to a settled state, and only a flush that begins is counted. -/
theorem Settled.moves (settled : Settled s scene)
    (moves : Moves program agenda s happening ending t) :
    (∃ scene', Settled t scene') ∧ (happening ≠ .began → t.epoch = s.epoch) := by
  cases moves with
  | act acts =>
      have calm := Undisturbed.acts acts
      exact ⟨⟨scene, settled.undisturbed calm⟩, fun _ => calm.epoch⟩
  | render renders =>
      obtain ⟨u, ⟨e, -, -, reverts⟩ | ⟨plans, -, -, -, patches⟩⟩ := settled.render_cases renders
      · exact ⟨⟨scene, reverts.settled settled⟩, fun _ =>
          reverts.confined.epoch.trans reverts.passed.epoch⟩
      · exact ⟨⟨_, patches.changes.settled settled⟩, fun _ =>
          patches.changes.confined.epoch.trans patches.changes.passed.epoch⟩
  | unmount returned =>
      obtain ⟨t', returned', changes, -⟩ := settled.unmounts _
      obtain ⟨-, rfl⟩ := returned.unique returned'
      exact ⟨⟨_, changes.settled settled⟩, fun _ => changes.confined.epoch⟩
  | flush => exact ⟨⟨scene, settled.of_same rfl rfl rfl (Nat.le_succ _)⟩, fun other => absurd rfl other⟩
  | task => exact ⟨⟨scene, settled.of_same rfl rfl rfl (Nat.le_succ _)⟩, fun other => absurd rfl other⟩
  | passOver => exact ⟨⟨scene, settled⟩, fun _ => rfl⟩
  | retry found live _ rerenders =>
      have registered := settled.find?_of_isLive found live
      obtain ⟨u, ⟨e, -, -, reverts⟩ | ⟨_, -, -, _, _, _, _, -, -, -, patches⟩⟩ :=
        settled.rerender_cases found registered rerenders
      · exact ⟨⟨scene, reverts.settled settled⟩, fun _ =>
          reverts.confined.epoch.trans reverts.passed.epoch⟩
      · exact ⟨⟨_, patches.changes.settled settled⟩, fun _ =>
          patches.changes.confined.epoch.trans patches.changes.passed.epoch⟩
  | vainTask | edit =>
      exact ⟨⟨scene, settled.of_same rfl rfl rfl (Nat.le_refl _)⟩, fun _ => rfl⟩

theorem Settled.course (settled : Settled s scene)
    (course : Course program agenda s episodes ending t) : ∃ scene', Settled t scene' := by
  induction course generalizing scene with
  | nil => exact ⟨scene, settled⟩
  | cons moves _ ih =>
      obtain ⟨⟨_, between⟩, -⟩ := settled.moves moves
      exact ih between

theorem Course.moves_of_mem (course : Course program agenda s episodes ending t) (settled : Settled s scene)
    (member : episode ∈ episodes) : ∃ scene agenda ending, Settled episode.before scene ∧
      Moves program agenda episode.before episode.happening ending episode.after := by
  induction course generalizing scene with
  | nil => cases member
  | cons moves _ ih =>
      rcases List.mem_cons.mp member with rfl | later
      · exact ⟨scene, _, _, settled, moves⟩
      · obtain ⟨⟨_, between⟩, -⟩ := settled.moves moves
        exact ih between later

theorem Moves.note (agenda : List ActivationId) (s : Renderer D σ) (r : Report) :
    Moves program agenda s (.acted []) agenda (s.noting r) :=
  .act (x := .report [r] (.done ())) (.report .done)

/-- The visits of a flush are a course that empties the agenda. -/
theorem course_of_flushEach (quiet : program.Quiet) (as : List ActivationId)
    (settled : Settled s scene)
    (returned : Returns (flushEach (level program below).invocation s.epoch as) s answer t) :
    ∃ episodes, Course program as s episodes [] t ∧ Episode.Visiting episodes ∧
      answer = (Episode.successes episodes, Episode.failures episodes) := by
  -- By induction on the agenda. It was taken when the flush began, so what a re-render schedules is not in it.
  induction as generalizing s scene answer with
  | nil =>
      obtain ⟨rfl, rfl⟩ := returns_pure.mp returned
      exact ⟨[], .nil, .nil, rfl⟩
  | cons a rest ih =>
      simp only [flushEach, returns_bind, returns_get] at returned
      obtain ⟨_, _, ⟨rfl, rfl⟩, returned⟩ := returned
      cases visited : (s.activations.find? a).filter fun _ => s.isLive a with
      | none =>
          simp only [visited, returns_bind, returns_report] at returned
          obtain ⟨_, _, rfl, returned⟩ := returned
          obtain ⟨episodes, course, visiting, rfl⟩ := ih (settled.noting _) returned
          refine ⟨_, .cons (.passOver fun record found live => ?_) (.cons (.note ..) course),
            visiting.noted.cons trivial, rfl⟩
          simp only [found, live, Option.filter_some, if_true, reduceCtorEq] at visited
      | some record =>
          simp only [visited] at returned
          obtain ⟨found, live⟩ := Option.filter_eq_some_iff.mp visited
          split at returned
          next already =>
            simp only [returns_bind, returns_report] at returned
            obtain ⟨_, _, rfl, returned⟩ := returned
            obtain ⟨episodes, course, visiting, rfl⟩ := ih (settled.noting _) returned
            refine ⟨_, .cons (.passOver fun other found' _ => ?_) (.cons (.note ..) course),
              visiting.noted.cons trivial, rfl⟩
            cases Option.some.inj (found.symm.trans found')
            exact already
          next due =>
            simp only [returns_bind] at returned
            obtain ⟨result, u, returned_one, returned⟩ := returned
            obtain ⟨trials, rerenders⟩ := rerenders_of_returns quiet settled.calls returned_one
            have moves : Moves program (a :: rest) s (.retried a trials result) rest u :=
              .retry found live due rerenders
            obtain ⟨⟨between, settled'⟩, same⟩ := settled.moves moves
            rw [← same fun other => by cases other] at returned
            cases result with
            | ok =>
                simp only [returns_bind, returns_pure] at returned
                obtain ⟨⟨count, failed⟩, _, returned, rfl, rfl⟩ := returned
                obtain ⟨episodes, course, visiting, counted⟩ := ih settled' returned
                cases counted
                exact ⟨_, .cons moves course, visiting.cons trivial, rfl⟩
            | error e =>
                simp only [returns_bind, returns_report, returns_pure] at returned
                obtain ⟨_, _, rfl, ⟨count, failed⟩, _, returned, rfl, rfl⟩ := returned
                obtain ⟨episodes, course, visiting, counted⟩ := ih (settled'.noting _) returned
                cases counted
                exact ⟨_, .cons moves (.cons (.note ..) course), visiting.noted.cons trivial, rfl⟩

theorem visits_of_flushBy (quiet : program.Quiet) (settled : Settled s scene)
    (returned : Returns (flushBy (level program below).invocation) s answer t) :
    ∃ episodes, Course program s.scheduler.queue s.flushing episodes [] t ∧
      Episode.Visiting episodes ∧ answer = Episode.tally episodes := by
  simp only [flushBy, returns_bind, returns_report, returns_get, returns_modify, returns_pure] at returned
  obtain ⟨_, _, rfl, _, _, ⟨rfl, rfl⟩, _, _, ⟨rfl, rfl⟩, _, _, rfl, ⟨count, failed⟩, u, visited, _, _, rfl,
    rfl, rfl⟩ := returned
  have begun : Settled s.flushing scene := settled.of_same rfl rfl rfl (Nat.le_succ _)
  obtain ⟨episodes, course, visiting, counted⟩ := course_of_flushEach quiet _ begun visited
  cases counted
  refine ⟨episodes ++ [⟨u, .acted [], u.noting (.flushed (Episode.successes episodes))⟩],
    course.append (Moves.note ..).course, visiting.append (.noted .nil), ?_⟩
  exact (Episode.tally_append_acted episodes).symm

theorem course_of_flushBy (quiet : program.Quiet) (settled : Settled s scene)
    (returned : Returns (flushBy (level program below).invocation) s answer t) :
    ∃ episodes, Course program s.scheduler.queue s.flushing episodes [] t ∧
      Episode.Unbroken episodes ∧ answer = Episode.tally episodes := by
  obtain ⟨episodes, course, visiting, counted⟩ := visits_of_flushBy quiet settled returned
  exact ⟨episodes, course, visiting.unbroken, counted⟩

theorem Settled.andThen (settled : Settled s scene)
    (one : Course program [] s first [] u)
    (two : ∀ {scene'}, Settled u scene' → ∃ episodes, Course program [] u episodes [] t) :
    ∃ episodes, Course program [] s episodes [] t := by
  obtain ⟨_, between⟩ := settled.course one
  obtain ⟨second, course⟩ := two between
  exact ⟨_, one.append course⟩

omit [Layer D] in
theorem Settled.not_wants (settled : Settled s scene) : ¬ Wants s a t := by
  rintro ⟨opened, -⟩
  have current := (currentActivation?_eq_some.mp opened).1
  rw [settled.calls] at current
  cases current

theorem course_of_perform (quiet : program.Quiet) {α : Type} (x : Action σ α) {answer : α}
    (settled : Settled s scene) (returned : Returns (perform (level program below) x) s answer t) :
    ∃ episodes, Course program [] s episodes [] t := by
  induction x generalizing s scene with
  | done b =>
      obtain ⟨-, rfl⟩ := returns_pure.mp returned
      exact ⟨[], .nil⟩
  | load next ih =>
      simp only [perform, returns_bind, returns_get] at returned
      obtain ⟨_, _, ⟨rfl, rfl⟩, returned⟩ := returned
      exact ih _ settled returned
  | store w next ih =>
      simp only [perform, returns_bind, returns_modify] at returned
      obtain ⟨_, _, rfl, returned⟩ := returned
      have acts : Acts program (.store w (.done ())) s [] () { s with store := w } := .store .done
      exact settled.andThen (Moves.act acts).course fun settled => ih settled returned
  | report rs next ih =>
      simp only [perform, reportAll, returns_bind, returns_modify] at returned
      obtain ⟨_, _, rfl, returned⟩ := returned
      have acts : Acts program (.report rs (.done ())) s [] ()
        { s with reports := rs.reverseAux s.reports } := .report .done
      exact settled.andThen (Moves.act acts).course fun settled => ih settled returned
  | useState type initial next _ ih =>
      simp only [perform, returns_bind] at returned
      obtain ⟨answer, u, asked, returned⟩ := returned
      rcases useStateBy_cases asked with step | ⟨_, _, _, _, wants, -⟩
      · have acts : Acts program (.useState type initial .done) s _ answer u := .asked step .done
        exact settled.andThen (Moves.act acts).course fun settled => ih _ settled returned
      · exact (settled.not_wants wants).elim
  | getCell setter next ih =>
      simp only [perform, returns_bind, returns_getCell] at returned
      obtain ⟨_, _, ⟨rfl, rfl⟩, returned⟩ := returned
      exact ih _ settled returned
  | updateCell setter change next ih =>
      simp only [perform, returns_bind] at returned
      obtain ⟨_, u, updated, returned⟩ := returned
      have acts : Acts program (.updateCell setter change (.done ())) s _ () u :=
        .updateCell updated .done
      exact settled.andThen (Moves.act acts).course fun settled => ih settled returned
  | invoke component props next ih =>
      simp only [perform, returns_bind] at returned
      obtain ⟨result, u, invoked, returned⟩ := returned
      obtain ⟨deeds, acts⟩ : ∃ deeds, Acts program (program.component component props) s deeds result
          u := by
        -- A component invoked inline does not call back, so its deeds are one act of the course.
        cases below with
        | zero => exact (returns_abort.mp invoked).elim
        | succ below => exact acts_of_perform quiet below _ (quiet component props) invoked
      exact settled.andThen (Moves.act acts).course fun settled => ih _ settled returned
  | render tree place next ih =>
      simp only [perform, returns_bind] at returned
      obtain ⟨result, u, rendered, returned⟩ := returned
      obtain ⟨trials, renders⟩ := renders_of_returns quiet settled.calls rendered
      exact settled.andThen (Moves.render renders).course fun settled => ih _ settled returned
  | unmount place next ih =>
      simp only [perform, returns_bind] at returned
      obtain ⟨result, u, unmounted, returned⟩ := returned
      exact settled.andThen (Moves.unmount unmounted).course fun settled => ih _ settled returned
  | flush next ih =>
      simp only [perform, returns_bind] at returned
      obtain ⟨result, u, flushed, returned⟩ := returned
      obtain ⟨episodes, course, -, -⟩ := course_of_flushBy quiet settled flushed
      exact settled.andThen (.cons .flush course) fun settled => ih _ settled returned

theorem course_of_runTasks (quiet : program.Quiet) (settled : Settled s scene)
    (returned : Returns (runTasks program limit before) s count t) :
    ∃ episodes, Course program [] s episodes [] t := by
  induction limit generalizing before s scene with
  | zero => exact (returns_abort.mp returned).elim
  | succ limit ih =>
      simp only [runTasks, returns_bind, returns_get] at returned
      obtain ⟨_, _, ⟨rfl, rfl⟩, returned⟩ := returned
      split at returned
      next =>
        obtain ⟨-, rfl⟩ := returns_pure.mp returned
        exact ⟨[], .nil⟩
      next waits =>
        simp only [returns_bind, returns_modify] at returned
        obtain ⟨_, _, rfl, _, u, ran, returned⟩ := returned
        change Returns (runTask program) s.tasked _ u at ran
        have one : ∃ first, Course program [] s first [] u := by
          simp only [runTask, returns_bind, returns_get] at ran
          obtain ⟨_, _, ⟨rfl, rfl⟩, ran⟩ := ran
          split at ran
          next dropped =>
            obtain ⟨-, rfl⟩ := returns_pure.mp ran
            exact ⟨_, (Moves.vainTask waits dropped).course⟩
          next there =>
            simp only [returns_bind] at ran
            obtain ⟨result, v, flushed, ran⟩ := ran
            obtain ⟨episodes, course, -, -⟩ := course_of_flushBy quiet
              (settled.of_same rfl rfl rfl (Nat.le_refl _) : Settled s.tasked scene) flushed
            have begun := Course.cons (.task waits ((Bool.not_eq_true _).mp there)) course
            cases result with
            | ok =>
                obtain ⟨-, rfl⟩ := returns_pure.mp ran
                exact ⟨_, begun⟩
            | error e =>
                cases returns_report.mp ran
                exact ⟨_, begun.append (Moves.note ..).course⟩
        obtain ⟨first, one⟩ := one
        exact settled.andThen one fun settled => ih settled returned

theorem course_of_runUntilIdle (quiet : program.Quiet) (settled : Settled s scene)
    (returned : Returns (runUntilIdle program) s count t) :
    ∃ episodes, Course program [] s episodes [] t := by
  simp only [runUntilIdle, returns_bind, returns_report, returns_pure] at returned
  obtain ⟨_, _, rfl, _, u, ran, _, _, rfl, -, rfl⟩ := returned
  obtain ⟨episodes, course⟩ := course_of_runTasks quiet (settled.noting _) ran
  exact ⟨_, .cons (.note ..) (course.append (Moves.note ..).course)⟩

theorem course_of_callHandlers (quiet : program.Quiet) (hs : List Handler) (settled : Settled s scene)
    (returned : Returns (callHandlers program event hs) s answer t) :
    ∃ episodes, Course program [] s episodes [] t := by
  induction hs generalizing s scene answer with
  | nil =>
      obtain ⟨-, rfl⟩ := returns_pure.mp returned
      exact ⟨[], .nil⟩
  | cons h rest ih =>
      simp only [callHandlers, returns_bind, returns_pure] at returned
      obtain ⟨_, u, called, _, _, returned, -, rfl⟩ := returned
      obtain ⟨first, one⟩ := course_of_perform quiet _ settled called
      exact settled.andThen one fun settled => ih settled returned

theorem course_of_dispatch [EventPath D] (quiet : program.Quiet) (settled : Settled s scene)
    (returned : Returns (dispatch program target category value) s answer t) :
    ∃ episodes, Course program [] s episodes [] t := by
  have called : ∀ {u event hs} {scene : Scene}, Settled u scene →
      Returns (do
        report (.callingHandlers hs.length)
        let prevented ← callHandlers program event hs
        return !prevented) u answer t → ∃ episodes, Course program [] u episodes [] t := by
    intro u event hs scene settled returned
    simp only [returns_bind, returns_report, returns_pure] at returned
    obtain ⟨_, _, rfl, _, _, called, -, rfl⟩ := returned
    obtain ⟨episodes, course⟩ := course_of_callHandlers quiet hs (settled.noting _) called
    exact ⟨_, .cons (.note ..) course⟩
  have noted := settled.noting (.dispatching target category value)
  rw [dispatch] at returned
  obtain ⟨_, _, reported, returned⟩ := returns_bind.mp returned
  cases returns_report.mp reported
  cases value with
  | none =>
      obtain ⟨_, _, got, returned⟩ := returns_bind.mp returned
      obtain ⟨rfl, rfl⟩ := returns_get.mp got
      obtain ⟨episodes, course⟩ := called noted returned
      exact ⟨_, .cons (.note ..) course⟩
  | some content =>
      obtain ⟨_, _, typed, returned⟩ := returns_bind.mp returned
      cases returns_onDom.mp typed
      obtain ⟨_, _, got, returned⟩ := returns_bind.mp returned
      obtain ⟨rfl, rfl⟩ := returns_get.mp got
      -- What the layer does on its own is an edit and then its reports.
      let wrote := Layer.setValue s.dom target content
      obtain ⟨episodes, course⟩ := called (by exact noted.of_same rfl rfl rfl (Nat.le_refl _)) returned
      exact ⟨_, .cons (.note ..) (.cons (.edit wrote.value)
        (.cons (.act (x := .report wrote.reports (.done ())) (.report .done)) course))⟩

/-- The states that pages bring a renderer to by its calls, whatever they ask for and whatever happens
to the live layer in between. -/
inductive Reachable (program : Program σ) : Renderer D σ → Prop
  | new (dom : D) (store : σ) : Reachable program (new dom store)
  | call {α : Type} {x : Action σ α} {answer : α} : Reachable program v →
      Returns (perform (top program) x) v answer w → Reachable program w
  | idle : Reachable program v → Returns (runUntilIdle program) v count w → Reachable program w
  | dispatch [EventPath D] : Reachable program v →
      Returns (dispatch program target category value) v answer w → Reachable program w
  | edit (dom : D) : Reachable program v → Reachable program { v with dom }
  | drop : Reachable program v → Reachable program { v with dropped := true }

theorem Reachable.settled (reachable : Reachable program s) (quiet : program.Quiet) :
    ∃ scene, Settled s scene := by
  induction reachable with
  | new dom store => exact ⟨_, .new dom store⟩
  | call _ returned ih =>
      obtain ⟨scene, settled⟩ := ih
      obtain ⟨_, course⟩ := course_of_perform quiet _ settled returned
      exact settled.course course
  | idle _ returned ih =>
      obtain ⟨scene, settled⟩ := ih
      obtain ⟨_, course⟩ := course_of_runUntilIdle quiet settled returned
      exact settled.course course
  | dispatch _ returned ih =>
      obtain ⟨scene, settled⟩ := ih
      obtain ⟨_, course⟩ := course_of_dispatch quiet settled returned
      exact settled.course course
  | edit dom _ ih =>
      obtain ⟨scene, settled⟩ := ih
      exact ⟨scene, settled.of_same rfl rfl rfl (Nat.le_refl _)⟩
  | drop _ ih =>
      obtain ⟨scene, settled⟩ := ih
      exact ⟨scene, settled.of_same rfl rfl rfl (Nat.le_refl _)⟩

end Patchwork.Renderer
