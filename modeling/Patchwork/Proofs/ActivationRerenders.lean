import Patchwork.Proofs.ContainerRenders

/-! Re-renders of single activations, as a flush does them. The activation is at some spot of the scene;
its output is paired and patched there, and the pictures around it stay as they are. -/
namespace Patchwork.Renderer

open Picture

variable {D σ : Type} {δ : StateData} [HasStateData σ δ] [Layer D] {s t u : Renderer D σ} {scene : Scene}
  {program : Program σ}

theorem Invokes.planned {output : List Picture} {rendered : Rendered}
    (invokes : Invokes program a c props s trials (.ok rendered) t)
    (stands : Stands s.activations place above (.component a c' props' tree' output)) :
    rendered = ⟨a, c, props, rendered.tree, rendered.output⟩ ∧
      Planned s t a.index output rendered.tree.flattenOutput rendered.output := by
  generalize ended : Except.ok rendered = result at invokes
  cases invokes with
  | failed => cases ended
  | paired ran passes =>
      obtain ⟨plans, rfl, rfl⟩ := map_eq_ok ended.symm
      refine ⟨rfl, ?_⟩
      have calm := ran.undisturbed
      have still := stands.congr fun b _ => calm.bare b
      obtain ⟨later, ⟨r, found, shows⟩, shown, inner⟩ := stands_component.mp still
      have holds := (Activations.output_eq found).trans shows.output
      have planned := passes.planned holds inner (Activations.index_le_issued found) rfl
      exact ⟨calm.dom ▸ planned.fits, planned.flats, calm.epoch ▸ planned.ready,
        calm.issued ▸ planned.fresh⟩

def attempting (a : ActivationId) (s : Renderer D σ) : Renderer D σ :=
  { s with calls := { Calls.none with held := [a] } }

/-- What a re-render does with the result of its pass. -/
def settle : Fallible Rendered → RenderM D σ (Fallible Unit)
  | .ok rendered => do
      commit rendered
      return .ok ()
  | .error e => do
      unmountActivations (← get).calls.created.reverse
      return .error e

theorem rerenderBy_eq (invocation : Invocation D σ) (a : ActivationId) (record : Activation) :
    rerenderBy invocation a record = inPass (fun c => { c with held := a :: c.held }) (do
      settle (← invocation a record.component record.props)) := by
  unfold rerenderBy
  refine congrArg (inPass _) (bind_congr fun result => ?_)
  cases result <;> rfl

theorem returns_rerenderBy {invocation : Invocation D σ} (idle : s.calls = .none) :
    Returns (rerenderBy invocation a record) s r t ↔ ∃ result u v,
      Returns (invocation a record.component record.props) (s.attempting a) result u ∧
      Returns (settle result) u r v ∧ t = { v with calls := .none } := by
  have began : ({ s with calls :=
      { s.calls with held := a :: (s.calls.created ++ s.calls.held), created := [] } } : Renderer D σ) =
        s.attempting a := by
    rw [attempting, idle]
    rfl
  rw [rerenderBy_eq, returns_inPass, began, idle]
  simp only [returns_bind]
  constructor
  · rintro ⟨v, ⟨result, u, invoked, settled⟩, rfl⟩
    exact ⟨result, u, v, invoked, settled, rfl⟩
  · rintro ⟨result, u, v, invoked, settled, rfl⟩
    exact ⟨v, ⟨result, u, invoked, settled⟩, rfl⟩

theorem givesUp_rerenderBy {invocation : Invocation D σ} (idle : s.calls = .none)
    (gaveUp : GivesUp (rerenderBy invocation a record) s reason) :
    GivesUp (invocation a record.component record.props) (s.attempting a) reason ∨
    ∃ result u, Returns (invocation a record.component record.props) (s.attempting a) result u ∧
      GivesUp (settle result) u reason := by
  rw [rerenderBy_eq] at gaveUp
  have gaveUp := givesUp_inPass gaveUp
  rw [idle] at gaveUp
  exact givesUp_bind.mp gaveUp

theorem settle_error (advances : Advances (s.attempting a) u)
    (e : RenderError) :
    ∃ v, Returns (settle (.error e)) u (.error e) v ∧ Reverts s u { v with calls := .none } := by
  have passed : Passed s u := advances.passed
  have created : u.calls.created.reverse = newIn s u := by
    rw [advances.calls]
    simp only [attempting, Calls.none, List.append_nil, List.reverse_reverse]
    rfl
  have free : u.calls.reading = [] := by rw [advances.calls]; rfl
  obtain ⟨v, unmounted, retired⟩ := retires_all (nodup_issuedBetween ..) passed.new free
  refine ⟨v, ?_, passed, ?_, retired.canvas, retired.vanished⟩
  · refine (returns_get.mpr ⟨rfl, rfl⟩).bind ?_
    rw [created]
    exact unmounted.bind (returns_pure.mpr ⟨rfl, rfl⟩)
  · have roots : v.roots = s.roots := retired.confined.roots.trans advances.roots
    exact { retired.confined with roots, calls := rfl }

omit [Layer D] in
theorem Settled.exists_spot (settled : Settled s scene) (found : s.activations.find? a = some r)
    (live : r.unmounted = false) :
    ∃ place spot tree output,
      scene place = Spot.fill (.component a r.component r.props tree output) spot := by
  obtain ⟨place, member⟩ := settled.registered a (Activations.isRegistered_iff.mpr ⟨r, found, live⟩)
  obtain ⟨spot, c, props, tree, output, same⟩ := Spot.exists_spot member
  obtain ⟨-, ⟨r', found', shows⟩, -⟩ := stands_component.mp (settled.stands_at same)
  cases Option.some.inj (found.symm.trans found')
  exact ⟨place, spot, tree, output, by rw [same, shows.component, shows.props]⟩

def redrawnAt (spot : Spot) (place : NodeId) (r : Rendered) (output : List Picture) (c : Canvas D) :
    List Picture × Canvas D :=
  let shown := Canvas.redrawAll (spot.place place) (c.after output) output r.output c
  (spot.fill (.component r.activation r.component r.props r.tree shown.1), shown.2)

theorem nodup_replace {xs ys ys' zs : List α} (distinct : (xs ++ (ys ++ zs)).Nodup) (new : ys'.Nodup)
    (apart : ∀ a, a ∈ xs ∨ a ∈ zs → a ∉ ys') : (xs ++ (ys' ++ zs)).Nodup := by
  simp only [List.nodup_append', List.disjoint_append_right] at distinct ⊢
  obtain ⟨front, ⟨-, back, -⟩, -, ends⟩ := distinct
  exact ⟨front, ⟨new, back, fun a member later => apart a (.inr later) member⟩,
    fun a early member => apart a (.inl early) member, ends⟩

omit [Layer D] in
theorem Settled.apart_at {spot : Spot} (settled : Settled s scene) (same : scene place = spot.fill p)
    (around : b ∈ spot.around.1 ∨ b ∈ spot.around.2) : b ∉ p.activations := by
  have parts := settled.distinct place
  rw [same, Spot.activationsAll_fill] at parts
  simp only [List.nodup_append', List.disjoint_append_right] at parts
  obtain ⟨-, ⟨-, -, back⟩, front, -⟩ := parts
  exact fun inside => around.elim (front · inside) (back inside ·)

omit [Layer D] in
theorem Settled.kept_around {spot : Spot} (settled : Settled s scene) (same : scene place = spot.fill p)
    (passed : Passed s u) (confined : Confined (p.activations ++ newIn s u) u t)
    (around : b ∈ spot.around.1 ∨ b ∈ spot.around.2) :
    (t.activations.find? b).map Activation.bare = (s.activations.find? b).map Activation.bare := by
  have member : b ∈ activationsAll (scene place) :=
    same ▸ Spot.mem_activationsAll_fill.mpr (around.imp_right .inr)
  have outside : b ∉ p.activations ++ newIn s u := by
    rw [List.mem_append, not_or]
    exact ⟨settled.apart_at same around, settled.not_mem_newIn member⟩
  rw [confined.others b outside]
  exact passed.old b ((settled.stands place).index b member).2

omit [Layer D] in
/-- Where a picture at a spot was redrawn, its container was changed. -/
theorem Settled.changes_at {spot : Spot} (settled : Settled s scene) (same : scene place = spot.fill p)
    (passed : Passed s u) (roots : u.roots = s.roots)
    (redrawn : Redrawn p.activations (newIn s u) (spot.place place) (spot.above 0) ([q], w) u t)
    (entry : p.entry = q.entry) (flat : p.flat = q.flat) (distinct : q.activations.Nodup)
    (within : ∀ b ∈ q.activations, b ∈ p.activations ∨ b ∈ newIn s u)
    (new : ∀ b ∈ newIn s u, b ∈ q.activations) :
    Changes s u { t with calls := .none } place (scene place) (spot.fill q) := by
  have alone : activationsAll [q] = q.activations := by rw [activationsAll, activationsAll, List.append_nil]
  have members : ∀ b, b ∈ activationsAll (scene place) ↔
      b ∈ spot.around.1 ∨ b ∈ p.activations ∨ b ∈ spot.around.2 := fun b => by
    rw [same, Spot.mem_activationsAll_fill]
  have kept : ∀ b, b ∈ spot.around.1 ∨ b ∈ spot.around.2 →
      (t.activations.find? b).map Activation.bare = (s.activations.find? b).map Activation.bare :=
    fun b => settled.kept_around same passed redrawn.confined
  -- The scene changes at the spot only, so each clause is about the picture there or about what is around it.
  refine ⟨passed, ?_, fun other => ?_, ?_, ?_, fun b member => ?_, fun b touched hidden => ?_,
    fun b member r found => ?_⟩
  · refine { redrawn.confined.mono fun b member => ?_ with roots := rfl, calls := rfl }
    rw [List.mem_append, members]
    exact (List.mem_append.mp member).imp_left (.inr ∘ .inl)
  · change t.roots.get? other = _
    rw [redrawn.confined.roots, roots]
    split
    next here =>
      rw [here, settled.roots, same, ← isEmpty_entries, ← isEmpty_entries, spot.entries_fill entry]
    next => rfl
  · have stands := settled.stands place
    rw [same, Spot.standAll_fill] at stands
    exact (Spot.standAll_fill spot).mpr
      ⟨stands.1.congr entry flat kept, (standAll_cons.mp redrawn.stands).1⟩
  · have parts := settled.distinct place
    rw [same, Spot.activationsAll_fill] at parts
    rw [Spot.activationsAll_fill]
    refine nodup_replace parts distinct fun b around inside => ?_
    exact (within b inside).elim (settled.apart_at same around)
      (settled.not_mem_newIn ((members b).mpr (around.imp_right .inr)))
  · rw [members]
    rcases Spot.mem_activationsAll_fill.mp member with front | inside | back
    · exact .inl (.inl front)
    · exact (within b inside).imp_left (.inr ∘ .inl)
    · exact .inl (.inr (.inr back))
  · rw [Spot.mem_activationsAll_fill, not_or, not_or] at hidden
    rw [members] at touched
    rcases touched with (front | inside | back) | fresh
    · exact absurd front hidden.1
    · exact redrawn.vanished b inside (alone ▸ hidden.2.1)
    · exact absurd back hidden.2.2
    · exact absurd (new b fresh) hidden.2.1
  · rcases Spot.mem_activationsAll_fill.mp member with front | inside | back
    · exact settled.renderedIn_le ((members b).mpr (.inl front)) (kept b (.inl front)) found
    · have rendered := redrawn.rendered b (alone ▸ inside)
      rw [show t.activations.find? b = some r from found, Option.map_some, Option.some.injEq,
        passed.epoch] at rendered
      exact Nat.le_of_eq rendered
    · exact settled.renderedIn_le ((members b).mpr (.inr (.inr back))) (kept b (.inr back)) found

/-- The plans of a re-render redraw its activation where that is shown. -/
theorem Settled.redraws_at {spot : Spot} {output : List Picture} {plans : List Plan} (settled : Settled s scene)
    (same : scene place = Spot.fill (.component a c props tree output) spot)
    (advances : Advances (s.attempting a) u)
    (planned : Planned (s.attempting a) u a.index output (Tree.flattenOutput tree') plans)
    (distinct : (a :: activationsAll output ++ newIn s u).Nodup) :
    ∃ v, Returns (commitBy (applyAll · · · plans) a c props tree') u () v ∧
      Redrawn (a :: activationsAll output) (newIn s u) (spot.place place) (spot.above 0)
        (let shown := Canvas.redrawAll (spot.place place) (u.canvas.after output) output plans u.canvas
         ([.component a c props tree' shown.1], shown.2)) u v := by
  have fresh : Plan.freshAll plans = newIn s u := planned.fresh
  have here := settled.stands_at same
  have still := here.congr fun b member => advances.old b (here.index b member).2
  have ready : Plan.Ready u.activations u.epoch (spot.above 0) (.component a false c props tree' plans) := by
    rw [Plan.Ready]
    exact ⟨(stands_component.mp here).1, nofun, planned.flats, advances.epoch ▸ planned.ready⟩
  have free : u.calls.reading = [] := by rw [advances.calls]; rfl
  rw [List.cons_append, List.nodup_cons, ← fresh] at distinct
  rw [← fresh]
  exact redraws_component still ready (fun member => distinct.1 (List.mem_append_right _ member)) planned.fits free
    fun tail under ready free => redrawsAll plans tail under ready planned.fits distinct.2 free

theorem settle_ok {rendered : Rendered} (settled : Settled s scene)
    (same : scene place = Spot.fill (.component a c props tree output) spot)
    (whole : rendered = ⟨a, c, props, rendered.tree, rendered.output⟩)
    (advances : Advances (s.attempting a) u)
    (planned : Planned (s.attempting a) u a.index output rendered.tree.flattenOutput
      rendered.output) :
    ∃ v, Returns (settle (.ok rendered)) u (.ok ()) v ∧
      Patches s u { v with calls := .none } place (scene place) [rendered.plan false]
        (redrawnAt spot place rendered output u.canvas) := by
  generalize rendered.tree = tree', rendered.output = plans at whole planned
  subst whole
  have passed : Passed s u := advances.passed
  have fresh : Plan.freshAll plans = newIn s u := planned.fresh
  have shown : ∀ b ∈ a :: activationsAll output, b ∈ activationsAll (scene place) := fun b member =>
    same ▸ Spot.mem_activationsAll_fill.mpr (.inr (.inl (by rwa [Picture.activations])))
  have distinct : (a :: activationsAll output ++ newIn s u).Nodup := by
    have parts := settled.distinct place
    rw [same, Spot.activationsAll_fill, Picture.activations] at parts
    exact List.nodup_append'.mpr ⟨(List.nodup_append'.mp (List.nodup_append'.mp parts).2.1).1,
      nodup_issuedBetween .., fun b member => settled.not_mem_newIn (shown b member)⟩
  obtain ⟨v, committed, redrawn⟩ := settled.redraws_at same advances planned distinct
  obtain ⟨-, within⟩ := Canvas.redrawAll_shows plans (spot.place place) (u.canvas.after output)
    planned.fits u.canvas
  have outlined := Canvas.redrawAll_outlines plans (spot.place place) (u.canvas.after output) planned.fits u.canvas
  rw [redrawnAt]
  -- From here on it only matters what the output was redrawn to, and not how.
  generalize Canvas.redrawAll (spot.place place) (u.canvas.after output) output plans u.canvas = result
    at redrawn within outlined ⊢
  have planned_acts : Plan.activationsAll [Rendered.plan ⟨a, c, props, tree', plans⟩ false] =
      a :: activationsAll result.1 := by
    rw [Plan.activationsAll, Plan.activationsAll, List.append_nil, Rendered.plan, Plan.activations, within]
  have drawn : ∀ b ∈ activationsAll result.1, b ∈ activationsAll output ∨ b ∈ newIn s u := fun b member =>
    fresh ▸ Plan.mem_of_fitAll planned.fits (within ▸ member)
  have acts : (Picture.component a c props tree' result.1).activations = a :: activationsAll result.1 := by
    rw [Picture.activations]
  have changes : Changes s u { v with calls := .none } place (scene place)
      (spot.fill (.component a c props tree' result.1)) := by
    have parts := List.nodup_cons.mp distinct
    refine settled.changes_at same passed advances.roots (by rwa [Picture.activations]) rfl rfl ?_ ?_ ?_
    · rw [acts, List.nodup_cons]
      refine ⟨fun member => parts.1 (List.mem_append.mpr (drawn a member)), ?_⟩
      rw [within]
      exact Plan.nodup_of_fitAll planned.fits (fresh ▸ parts.2)
    · rw [acts, Picture.activations]
      intro b member
      rcases List.mem_cons.mp member with rfl | member
      · exact .inl (List.mem_cons_self ..)
      · exact (drawn b member).imp_left (List.mem_cons_of_mem _)
    · rw [acts, within, ← fresh]
      exact fun b member => List.mem_cons_of_mem _ (Plan.mem_activationsAll_of_fresh member)
  refine ⟨v, ?_, changes, redrawn.canvas, fun b member => ?_, fun b member => ?_, ?_,
    fun b member outside => ?_⟩
  · rw [settle, commit]
    exact committed.bind (returns_pure.mpr ⟨rfl, rfl⟩)
  · rw [planned_acts] at member
    exact passed.epoch ▸ redrawn.rendered b (by rwa [activationsAll, activationsAll, List.append_nil, acts])
  · rw [planned_acts] at member
    exact Spot.mem_activationsAll_fill.mpr (.inr (.inl (acts ▸ member)))
  · have same : Plan.outlines [Rendered.plan ⟨a, c, props, tree', plans⟩ false] =
        outlines [.component a c props tree' result.1] := by
      rw [Plan.outlines, Plan.outlines, Rendered.plan, Plan.outline, outlines, outlines, outline, outlined]
    rw [same]
    exact redrawn.stands.shown
  · rw [planned_acts] at outside
    have kept := settled.kept_around (b := b) same passed (by rw [Picture.activations]; exact redrawn.confined)
    rcases Spot.mem_activationsAll_fill.mp member with front | inside | back
    · exact kept (.inl front)
    · exact absurd (acts ▸ inside) outside
    · exact kept (.inr back)

theorem failure_of_settle (settled : Returns (settle result) u r v) : failure result = failure r := by
  cases result with
  | error e =>
      simp only [settle, returns_bind, returns_pure] at settled
      obtain ⟨_, _, _, _, _, _, same, -⟩ := settled
      exact congrArg failure same
  | ok rendered =>
      simp only [settle, returns_bind, returns_pure] at settled
      obtain ⟨_, _, _, same, -⟩ := settled
      exact congrArg failure same

/-- A re-render of an activation, with the trials of its pass. -/
structure Rerenders (program : Program σ) (a : ActivationId) (record : Activation) (s : Renderer D σ)
    (trials : List (Trial δ)) (r : Fallible Unit) (t : Renderer D σ) : Prop where
  returned : ∃ below, Returns (rerenderBy (level program below).invocation a record) s r t
  passed : ∃ result u v, Invokes program a record.component record.props (s.attempting a) trials
    result u ∧ Returns (settle result) u r v ∧ t = { v with calls := .none }

theorem rerenders_of_returns (quiet : program.Quiet) (idle : s.calls = .none)
    (returned : Returns (rerenderBy (level program below).invocation a record) s r t) :
    ∃ trials, Rerenders program a record s trials r t := by
  obtain ⟨result, u, v, invoked, ended, same⟩ := (returns_rerenderBy idle).mp returned
  obtain ⟨trials, invokes⟩ := sound_level quiet below invoked
  exact ⟨trials, ⟨below, returned⟩, result, u, v, invokes, ended, same⟩

/-- A re-render of a live activation is a pass, which is called off or carried out. -/
theorem Settled.rerender_cases (settled : Settled s scene)
    (found : s.activations.find? a = some record) (live : record.unmounted = false)
    (rerenders : Rerenders program a record s trials r t) :
    ∃ u,
      (∃ e, Invokes program a record.component record.props (s.attempting a) trials (.error e) u ∧
        r = .error e ∧ Reverts s u t) ∨
      (∃ rendered, Invokes program a record.component record.props (s.attempting a) trials
          (.ok rendered) u ∧ r = .ok () ∧
        ∃ place spot tree output,
          scene place = Spot.fill (.component a record.component record.props tree output) spot ∧
          rendered = ⟨a, record.component, record.props, rendered.tree, rendered.output⟩ ∧
          Planned (s.attempting a) u a.index output rendered.tree.flattenOutput rendered.output ∧
          Patches s u t place (scene place) [rendered.plan false]
            (redrawnAt spot place rendered output u.canvas)) := by
  obtain ⟨result, u, v, invokes, ended, rfl⟩ := rerenders.passed
  refine ⟨u, ?_⟩
  cases result with
  | error e =>
      obtain ⟨v', ended', reverts⟩ := settle_error invokes.advances e
      obtain ⟨rfl, rfl⟩ := ended.unique ended'
      exact .inl ⟨e, invokes, rfl, reverts⟩
  | ok rendered =>
      obtain ⟨place, spot, tree, output, same⟩ := settled.exists_spot found live
      obtain ⟨whole, planned⟩ := invokes.planned (settled.stands_at same)
      obtain ⟨v', ended', patches⟩ := settle_ok settled same whole invokes.advances planned
      obtain ⟨rfl, rfl⟩ := ended.unique ended'
      exact .inr ⟨rendered, invokes, rfl, place, spot, tree, output, same, whole, planned, patches⟩

theorem Settled.rerender_exhausted (settled : Settled s scene) (quiet : program.Quiet)
    (found : s.activations.find? a = some record) (live : record.unmounted = false)
    (gaveUp : GivesUp (rerenderBy (level program below).invocation a record) s reason) :
    reason = .exhausted := by
  obtain gaveUp | ⟨result, u, invoked, gaveUp⟩ := givesUp_rerenderBy settled.calls gaveUp
  · exact exhausted_of_level quiet below gaveUp
  obtain ⟨trials, invokes⟩ := sound_level quiet below invoked
  cases result with
  | error e =>
      obtain ⟨_, ended, -⟩ := settle_error invokes.advances e
      exact (ended.not_givesUp gaveUp).elim
  | ok rendered =>
      obtain ⟨place, spot, tree, output, same⟩ := settled.exists_spot found live
      obtain ⟨whole, planned⟩ := invokes.planned (settled.stands_at same)
      obtain ⟨_, ended, -⟩ := settle_ok settled same whole invokes.advances planned
      exact (ended.not_givesUp gaveUp).elim

end Patchwork.Renderer
