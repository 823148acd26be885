import Patchwork.Proofs.CallCourses

/-! Renders and re-renders that fail. The error is that of the first component that failed, and nothing
that was committed before has changed. -/
namespace Patchwork.Renderer

variable {D σ : Type} {δ : StateData} [HasStateData σ δ] {program : Program σ} {s t u : Renderer D σ} {scene : Scene}

/-- What is committed is the same: the live layer and the bookkeeping of what is bound to it, what every
container and every activation has mounted, and what every activation shows. -/
structure Unchanged (s t : Renderer D σ) : Prop where
  dom : t.dom = s.dom
  binder : t.binder = s.binder
  roots : t.roots = s.roots
  activation : ∀ a r, s.activations.find? a = some r → ∃ r', t.activations.find? a = some r' ∧
    r'.output = r.output ∧ r'.component = r.component ∧ r'.props = r.props ∧
    r'.committed = r.committed ∧ r'.unmounted = r.unmounted
  registered : t.activations.registered = s.activations.registered

theorem isRegistered_of_bare {as bs : Activations}
    (same : (bs.find? a).map Activation.bare = (as.find? a).map Activation.bare) :
    bs.isRegistered a = as.isRegistered a := by
  have unmounted := congrArg (Option.map Activation.unmounted) same
  rw [Option.map_map, Option.map_map] at unmounted
  have any : ∀ found : Option Activation,
      found.any (!·.unmounted) = ((found.map (Activation.unmounted ∘ Activation.bare)).any (!·)) := by
    intro found
    cases found <;> rfl
  rw [Activations.isRegistered, Activations.isRegistered, any, any, unmounted]

theorem Reverts.registered (reverts : Reverts s u t) :
    t.activations.registered = s.activations.registered := by
  have issued : Arena.issued t.activations = Arena.issued u.activations := reverts.confined.issued
  have none_new : (newIn s u).filter t.activations.isRegistered = [] := by
    refine List.filter_eq_nil_iff.mpr fun a new registered => ?_
    obtain ⟨r, found, live⟩ := Activations.isRegistered_iff.mp registered
    obtain ⟨r', found', gone⟩ := reverts.vanished a new
    cases Option.some.inj (found.symm.trans found')
    exact Bool.noConfusion (live.symm.trans gone.unmounted)
  rw [Activations.registered_eq, Activations.registered_eq, issued,
    ← issuedBetween_append (Nat.zero_le _) reverts.passed.issued, List.filter_append]
  change _ ++ (newIn s u).filter _ = _
  rw [none_new, List.append_nil]
  exact List.filter_congr fun a member =>
    isRegistered_of_bare (reverts.bare a (mem_issuedBetween.mp member).2)

theorem Reverts.unchanged (reverts : Reverts s u t) : Unchanged s t where
  dom := (congrArg Canvas.dom reverts.canvas).trans reverts.passed.dom
  binder := (congrArg Canvas.binder reverts.canvas).trans reverts.passed.binder
  roots := reverts.confined.roots
  activation a r found := by
    have bare := reverts.bare a (Activations.index_le_issued found)
    rw [found, Option.map_some] at bare
    obtain ⟨r', found', bare⟩ := Option.map_eq_some_iff.mp bare
    exact ⟨r', found', (congrArg Activation.output bare :), (congrArg Activation.component bare :),
      (congrArg Activation.props bare :), (congrArg Activation.committed bare :),
      (congrArg Activation.unmounted bare :)⟩
  registered := reverts.registered

variable [Layer D]

theorem Renders.fails_iff (renders : Renders program tree place s trials r t) (e : RenderError) :
    r = .error e ↔ firstError trials = some e := by
  obtain ⟨plans, u, _, _, passes, carried, -⟩ := renders.passed
  rw [passes.firstError_eq, failure_of_carryOut carried, failure_eq_some]

theorem Rerenders.fails_iff (rerenders : Rerenders program a record s trials r t) (e : RenderError) :
    r = .error e ↔ firstError trials = some e := by
  obtain ⟨_, u, _, invokes, ended, -⟩ := rerenders.passed
  rw [invokes.firstError_eq, failure_of_settle ended, failure_eq_some]

theorem Settled.unchanged_of_render (settled : Settled s scene)
    (renders : Renders program tree place s trials (.error e) t) : Unchanged s t := by
  obtain ⟨u, ⟨_, -, -, reverts⟩ | ⟨_, -, ok, -⟩⟩ := settled.render_cases renders
  · exact reverts.unchanged
  · cases ok

theorem Settled.unchanged_of_rerender (settled : Settled s scene)
    (found : s.activations.find? a = some record) (live : s.isLive a = true)
    (rerenders : Rerenders program a record s trials (.error e) t) : Unchanged s t := by
  obtain ⟨u, ⟨_, -, -, reverts⟩ | ⟨_, -, ok, -⟩⟩ :=
    settled.rerender_cases found (settled.find?_of_isLive found live) rerenders
  · exact reverts.unchanged
  · cases ok

theorem Settled.unchanged_of_course (settled : Settled s scene)
    (course : Course program agenda s episodes ending t) (member : episode ∈ episodes)
    (retried : episode.happening = .retried a trials r) :
    (∀ e, r = .error e ↔ firstError trials = some e) ∧
      (∀ e, r = .error e → Unchanged episode.before episode.after) := by
  induction course generalizing scene with
  | nil => cases member
  | cons moves _ ih =>
      obtain ⟨⟨_, between⟩, -⟩ := settled.moves moves
      rcases List.mem_cons.mp member with rfl | member
      · subst retried
        cases moves with
        | retry found live _ rerenders =>
            refine ⟨rerenders.fails_iff, fun e failed => ?_⟩
            subst failed
            exact settled.unchanged_of_rerender found live rerenders
      · exact ih between member

theorem exhausted_of_flushEach (quiet : program.Quiet) (as : List ActivationId)
    (settled : Settled s scene)
    (gaveUp : GivesUp (flushEach (level program below).invocation s.epoch as) s reason) :
    reason = .exhausted := by
  induction as generalizing s scene with
  | nil => exact ((total_pure _).not_givesUp gaveUp).elim
  | cons a rest ih =>
      rw [flushEach] at gaveUp
      obtain ⟨_, _, got, gaveUp⟩ := total_get.givesUp_bind gaveUp
      obtain ⟨rfl, rfl⟩ := returns_get.mp got
      have passedOver : ∀ {r}, GivesUp (do
          report r
          flushEach (level program below).invocation s.epoch rest) s reason → reason = .exhausted := by
        intro r gaveUp
        obtain ⟨_, _, reported, gaveUp⟩ := (total_report _).givesUp_bind gaveUp
        cases returns_report.mp reported
        exact ih (settled.noting r) gaveUp
      cases visited : (s.activations.find? a).filter fun _ => s.isLive a with
      | none =>
          simp only [visited] at gaveUp
          exact passedOver gaveUp
      | some record =>
          simp only [visited] at gaveUp
          obtain ⟨found, live⟩ := Option.filter_eq_some_iff.mp visited
          split at gaveUp
          next => exact passedOver gaveUp
          next due =>
            obtain gaveUp | ⟨result, u, returned, gaveUp⟩ := givesUp_bind.mp gaveUp
            · exact settled.rerender_exhausted quiet found (settled.find?_of_isLive found live) gaveUp
            obtain ⟨trials, rerenders⟩ := rerenders_of_returns quiet settled.calls returned
            have moves : Moves program (a :: rest) s (.retried a trials result) rest u :=
              .retry found live due rerenders
            obtain ⟨⟨between, settled'⟩, same⟩ := settled.moves moves
            rw [← same (by simp)] at gaveUp
            cases result with
            | ok =>
                exact ih settled' (gaveUp.of_bind fun _ => total_pure _)
            | error e =>
                obtain ⟨_, _, reported, gaveUp⟩ := (total_report _).givesUp_bind gaveUp
                cases returns_report.mp reported
                exact ih (settled'.noting _) (gaveUp.of_bind fun _ => total_pure _)

theorem Settled.flush_exhausted (settled : Settled s scene) (quiet : program.Quiet)
    (gaveUp : GivesUp (flushBy (level program below).invocation) s reason) : reason = .exhausted := by
  rw [flushBy] at gaveUp
  obtain ⟨_, _, reported, gaveUp⟩ := (total_report _).givesUp_bind gaveUp
  cases returns_report.mp reported
  obtain ⟨_, _, got, gaveUp⟩ := total_get.givesUp_bind gaveUp
  obtain ⟨rfl, rfl⟩ := returns_get.mp got
  obtain ⟨_, _, got, gaveUp⟩ := total_get.givesUp_bind gaveUp
  obtain ⟨rfl, rfl⟩ := returns_get.mp got
  obtain ⟨_, _, modified, gaveUp⟩ := (total_modify _).givesUp_bind gaveUp
  cases returns_modify.mp modified
  have begun : Settled s.flushing scene := settled.of_same rfl rfl rfl (Nat.le_succ _)
  exact exhausted_of_flushEach quiet _ begun (gaveUp.of_bind fun _ => (total_report _).bind fun _ => total_pure _)

/-- A render fails exactly if a component that it invokes fails, with the error of the first that does,
and a render or re-render that fails changes nothing that is committed. Neither is cut short, except
where components nest too deeply. -/
theorem Reachable.failed_pass_changes_nothing (reachable : Reachable program s)
    (quiet : program.Quiet) :
    (∀ tree place,
      (∀ r t, Returns (render program tree place) s r t →
        ∃ trials, Renders program tree place s trials r t ∧
          (∀ e, r = .error e ↔ firstError trials = some e) ∧ (∀ e, r = .error e → Unchanged s t)) ∧
      ∀ reason, GivesUp (render program tree place) s reason → reason = .exhausted) ∧
    (∀ answer t, Returns (flush program) s answer t →
      ∃ episodes, Course program s.scheduler.queue s.flushing episodes [] t ∧
        answer = Episode.tally episodes ∧
        ∀ episode ∈ episodes, ∀ a trials r, episode.happening = .retried a trials r →
          (∀ e, r = .error e ↔ firstError trials = some e) ∧
          (∀ e, r = .error e → Unchanged episode.before episode.after)) ∧
    ∀ reason, GivesUp (flush program) s reason → reason = .exhausted := by
  obtain ⟨scene, settled⟩ := reachable.settled quiet
  refine ⟨fun tree place => ⟨fun r t returned => ?_, fun reason gaveUp => ?_⟩,
    fun answer t returned => ?_, fun reason gaveUp => ?_⟩
  · obtain ⟨trials, renders⟩ := renders_of_returns quiet settled.calls returned
    refine ⟨trials, renders, renders.fails_iff, fun e failed => ?_⟩
    subst failed
    exact settled.unchanged_of_render renders
  · exact settled.render_exhausted quiet gaveUp
  · obtain ⟨episodes, course, -, counted⟩ := course_of_flushBy quiet settled returned
    have begun : Settled s.flushing scene := settled.of_same rfl rfl rfl (Nat.le_succ _)
    exact ⟨episodes, course, counted, fun episode member a trials r retried =>
      begun.unchanged_of_course course member retried⟩
  · exact settled.flush_exhausted quiet gaveUp

def brittle : Program Unit where
  component c _ := .done <|
    if c.code = "broken" then .error (.component c.code) else .ok (.text (.text c.code))
  handler _ _ := .done false

/-- A label is shown; showing it next to a component that fails leaves it as it is. -/
theorem label_survives_broken_sibling :
    let label : Tree := .component ⟨⟨0, "label"⟩, none⟩
    let broken : Tree := .component ⟨⟨1, "broken"⟩, none⟩
    let page : Tree := .fragment [label, label, broken]
    ∃ s t : Renderer Document Unit, Reachable brittle s ∧ s.activations.registered = [⟨1⟩] ∧
      Returns (render brittle page ⟨1⟩) s (.error (.component "broken")) t ∧ Unchanged s t := by
  intro label broken page
  let start : Renderer Document Unit := new Document.empty.createContainer.2 ()
  let steps : RenderM Document Unit (List ActivationId × Fallible Unit) := do
    let _ ← perform (top brittle) (.render label ⟨1⟩ .done)
    let registered := (← get).activations.registered
    let answer ← render brittle page ⟨1⟩
    return (registered, answer)
  obtain ⟨_, _, returned, same⟩ := exists_returns steps Prod.fst (s := start)
    (b := ([⟨1⟩], .error (.component "broken"))) (by decide +kernel)
  simp only [steps, returns_bind, returns_get, returns_pure] at returned
  obtain ⟨_, s, shown, _, _, ⟨rfl, rfl⟩, answer, t, failed, rfl, rfl⟩ := returned
  obtain ⟨registered, rfl⟩ := Prod.mk.inj same
  have reachable : Reachable brittle s := .call (.new ..) shown
  obtain ⟨passes, -⟩ := reachable.failed_pass_changes_nothing fun _ _ calls => by cases calls
  obtain ⟨_, _, _, unchanged⟩ := (passes page ⟨1⟩).1 _ t failed
  exact ⟨s, t, reachable, registered, failed, unchanged _ rfl⟩

end Patchwork.Renderer
