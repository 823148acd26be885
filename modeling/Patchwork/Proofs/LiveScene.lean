import Patchwork.Proofs.CallCourses
import Patchwork.Proofs.PictureRepainting
import Patchwork.Proofs.SilentPasses

/-! What the live layer shows of a scene. Every picture of the scene is seen in the document, under its
container; a move of the renderer repaints the pictures of one container at most. -/
namespace Patchwork

open Picture

namespace Mounted

mutual

def Plain : Mounted → Prop
  | text _ | component _ => True
  | element _ _ children => PlainAll children
  | raw _ _ => False

def PlainAll : List Mounted → Prop
  | [] => True
  | m :: rest => Plain m ∧ PlainAll rest

end

mutual

instance decidePlain : (m : Mounted) → Decidable (Plain m)
  | text _ | component _ => .isTrue trivial
  | element _ _ children => decidePlainAll children
  | raw _ _ => .isFalse id

instance decidePlainAll : (ms : List Mounted) → Decidable (PlainAll ms)
  | [] => .isTrue trivial
  | m :: rest => @instDecidableAnd _ _ (decidePlain m) (decidePlainAll rest)

end

end Mounted

namespace Picture

variable {as : Activations}

mutual

theorem Stands.homemade (outputs : ∀ a r, as.find? a = some r → Mounted.PlainAll r.output) :
    ∀ {p : Picture} {place above}, Stands as place above p → p.entry.Plain → Homemade p
  | .text .., _, _, _, _ | .missing .., _, _, _, _ => by simp only [Homemade]
  | .raw .., _, _, _, plain => by simp only [entry, Mounted.Plain] at plain
  | .element _ _ _ children, _, _, stands, plain => by
      rw [entry, Mounted.Plain] at plain
      rw [Homemade]
      exact StandAll.homemade outputs (stands_element.mp stands) plain
  | .component a _ _ _ output, _, _, stands, _ => by
      obtain ⟨-, ⟨r, found, shows⟩, -, inner⟩ := stands_component.mp stands
      rw [Homemade]
      exact StandAll.homemade outputs inner (shows.output ▸ outputs a r found)

theorem StandAll.homemade (outputs : ∀ a r, as.find? a = some r → Mounted.PlainAll r.output) :
    ∀ {ps : List Picture} {place above}, StandAll as place above ps → Mounted.PlainAll (entries ps) →
      HomemadeAll ps
  | [], _, _, _, _ => by simp only [HomemadeAll]
  | p :: rest, _, _, stands, plain => by
      rw [standAll_cons] at stands
      rw [entries, Mounted.PlainAll] at plain
      rw [HomemadeAll]
      exact ⟨stands.1.homemade outputs plain.1, stands.2.homemade outputs plain.2⟩

end

theorem homemadeAll_iff {ps : List Picture} : HomemadeAll ps ↔ ∀ p ∈ ps, Homemade p := by
  induction ps with
  | nil => simp only [HomemadeAll, List.not_mem_nil, false_implies, implies_true]
  | cons p rest ih => rw [HomemadeAll, List.forall_mem_cons, ih]

theorem homemade_of_fill (spot : Spot) (homemade : HomemadeAll (spot.fill p)) : Homemade p := by
  induction spot with
  | here before after =>
      exact homemadeAll_iff.mp homemade p (List.mem_append_right _ (List.mem_cons_self ..))
  | element before n tag attributes inner after ih =>
      have whole := homemadeAll_iff.mp homemade (.element n tag attributes (inner.fill p))
        (List.mem_append_right _ (List.mem_cons_self ..))
      rw [Homemade] at whole
      exact ih whole
  | component before a c props tree inner after ih =>
      have whole := homemadeAll_iff.mp homemade (.component a c props tree (inner.fill p))
        (List.mem_append_right _ (List.mem_cons_self ..))
      rw [Homemade] at whole
      exact ih whole

theorem seen_of_fill {d : Document} {binder : Binder} (spot : Spot)
    (shown : SeenAll d binder (spot.fill p)) : Seen d binder p := by
  induction spot with
  | here before after =>
      exact seenAll_iff.mp shown p (List.mem_append_right _ (List.mem_cons_self ..))
  | element before n tag attributes inner after ih =>
      have whole := seenAll_iff.mp shown (.element n tag attributes (inner.fill p))
        (List.mem_append_right _ (List.mem_cons_self ..))
      exact ih (seen_element.mp whole).2.2
  | component before a c props tree inner after ih =>
      have whole := seenAll_iff.mp shown (.component a c props tree (inner.fill p))
        (List.mem_append_right _ (List.mem_cons_self ..))
      exact ih (seen_component.mp whole).2

end Picture

namespace Renderer

variable {D σ : Type} {δ : StateData} [HasStateData σ δ] {s t u : Renderer D σ} {scene : Scene}

/-- Nothing adopted is mounted anywhere. -/
structure Plain (s : Renderer D σ) : Prop where
  roots : ∀ place es, s.roots.get? place = some es → Mounted.PlainAll es
  outputs : ∀ a r, s.activations.find? a = some r → Mounted.PlainAll r.output

theorem plain_iff : s.Plain ↔ (∀ root ∈ s.roots.toList, Mounted.PlainAll root.2) ∧
    ∀ i < Arena.issued s.activations, ∀ r ∈ s.activations.find? ⟨i + 1⟩, Mounted.PlainAll r.output := by
  refine ⟨fun plain => ⟨fun root member => plain.roots _ _ (Dict.get?_eq_some.mpr member),
    fun i _ r found => plain.outputs _ r found⟩, fun ⟨roots, outputs⟩ =>
      ⟨fun place es found => roots _ (Dict.get?_eq_some.mp found), fun a r found => ?_⟩⟩
  have low := Activations.one_le_index found
  have high := Activations.index_le_issued found
  have same : (⟨a.index - 1 + 1⟩ : ActivationId) = a := congrArg ActivationId.mk (by omega)
  exact outputs (a.index - 1) (by omega) r (same.symm ▸ found)

instance : Decidable s.Plain := decidable_of_iff' _ plain_iff

theorem Settled.homemade (settled : Settled s scene) (plain : s.Plain) (place : NodeId) :
    HomemadeAll (scene place) := by
  refine (settled.stands place).homemade plain.outputs ?_
  cases shown : scene place with
  | nil => simp only [entries, Mounted.PlainAll]
  | cons p ps =>
      have mounted := settled.roots place
      rw [shown] at mounted
      exact plain.roots place _ mounted

variable [Documented D]

/-- The live layer is as the scene says. -/
structure Depicted (s : Renderer D σ) (scene : Scene) : Prop where
  sound : s.canvas.Sound
  shown : ∀ place, s.Sees (scene place)
  distinct : ∀ place, (nodesAll (scene place)).Nodup
  apart : ∀ {place place'}, place ≠ place' →
    (nodesAll (scene place)).Disjoint (nodesAll (scene place'))
  holder : ∀ place, scene place ≠ [] → ∃ e, s.document.element? place = some e
  outside : ∀ place other, scene place ≠ [] → place ∉ nodesAll (scene other)
  order : ∀ place, (topsAll (scene place)).Sublist (s.document.children place)

/-- A live element that is no part of what is shown. -/
structure Container (s : Renderer D σ) (scene : Scene) (place : NodeId) : Prop where
  holder : ∃ e, s.document.element? place = some e
  outside : ∀ other, place ∉ nodesAll (scene other)

/-- The pictures of one container are repainted at most. -/
inductive Shifts (s t : Renderer D σ) (scene scene' : Scene) : Prop
  | still : t.dom = s.dom → t.binder = s.binder → scene' = scene → Shifts s t scene scene'
  | repaint (place : NodeId) : Container s scene place →
      Canvas.Repaints place (·.head? = none) (scene place) (scene' place) s.canvas t.canvas →
      (∀ other, other ≠ place → scene' other = scene other) → Shifts s t scene scene'

theorem Container.untouched (container : Container s scene other)
    (repaints : Canvas.Repaints place fits (scene place) qs s.canvas t.canvas) :
    other ∉ nodesAll (scene place) ∧ other ∉ nodesAll qs := by
  refine ⟨container.outside place, fun new => ?_⟩
  obtain ⟨e, found⟩ := container.holder
  exact (repaints.within other new).elim (container.outside place) fun late =>
    Nat.not_lt_of_le (Canvas.index_le_issued (Document.contains_of_element? found)) late

namespace Depicted

theorem container (depicted : Depicted s scene) (shown : scene place ≠ []) : Container s scene place :=
  ⟨depicted.holder place shown, fun other => depicted.outside place other shown⟩

theorem hangs (depicted : Depicted s scene) (container : Container s scene place) :
    Canvas.Hangs place (·.head? = none) (scene place) s.canvas := by
  refine ⟨depicted.sound, depicted.shown place, depicted.distinct place, container.outside place,
    container.holder, [], [], rfl, ?_⟩
  rw [List.append_nil, List.nil_append]
  exact depicted.order place

theorem of_same (depicted : Depicted s scene) (dom : t.dom = s.dom) (binder : t.binder = s.binder) :
    Depicted t scene := by
  have document : t.document = s.document := congrArg Documented.document dom
  have seen : t.canvas.document = s.canvas.document := document
  refine ⟨⟨seen ▸ depicted.sound.linked, fun n late => ?_⟩, fun place => ?_, depicted.distinct,
    depicted.apart, document ▸ depicted.holder, depicted.outside, document ▸ depicted.order⟩
  · rw [seen] at late
    change t.binder[n]? = none
    rw [binder]
    exact depicted.sound.unbound n late
  · rw [Sees, document, binder]
    exact depicted.shown place

section Repainted

variable {scene' : Scene}

theorem elsewhere (depicted : Depicted s scene)
    (repaints : Canvas.Repaints place (·.head? = none) (scene place) qs s.canvas t.canvas)
    (different : other ≠ place) (member : n ∈ nodesAll (scene other)) :
    n ∉ nodesAll (scene place) ∧ n ∉ nodesAll qs := by
  have outside : n ∉ nodesAll (scene place) := fun inside => depicted.apart different member inside
  refine ⟨outside, fun new => ?_⟩
  exact (repaints.within n new).elim outside fun late =>
    Nat.not_lt_of_le (Canvas.index_le_issued ((depicted.shown other).contains n member)) late

theorem repainted (depicted : Depicted s scene) (container : Container s scene place)
    (repaints : Canvas.Repaints place (·.head? = none) (scene place) (scene' place) s.canvas t.canvas)
    (others : ∀ other, other ≠ place → scene' other = scene other) : Depicted t scene' := by
  have hangs := depicted.hangs container
  -- A container is in no picture, so the other containers are not among the nodes that were repainted.
  have unchanged : ∀ {other}, other ≠ place → Container s scene other →
      t.document.node? other = s.document.node? other := fun different container => by
    obtain ⟨old, new⟩ := container.untouched repaints
    exact repaints.others _ old new different
  have outside : ∀ {other}, Container s scene other → ∀ any, other ∉ nodesAll (scene' any) := by
    intro other container any
    by_cases same : any = place
    · exact same ▸ (container.untouched repaints).2
    · rw [others any same]
      exact container.outside any
  have was : ∀ {other}, scene' other ≠ [] → Container s scene other := by
    intro other shown
    by_cases same : other = place
    · exact same ▸ container
    · rw [others other same] at shown
      exact depicted.container shown
  refine ⟨repaints.sound, fun other => ?_, fun other => ?_, fun {one two} different => ?_,
    fun other shown => ?_, fun other any shown => outside (was shown) any, fun other => ?_⟩
  · by_cases same : other = place
    · exact same ▸ repaints.shown
    · rw [others other same]
      refine repaints.seenAll (depicted.shown other) (fun n member =>
        (depicted.elsewhere repaints same member).1) (container.outside other)
  · by_cases same : other = place
    · exact same ▸ repaints.distinct
    · rw [others other same]
      exact depicted.distinct other
  · intro n first second
    by_cases one_here : one = place <;> by_cases two_here : two = place
    · exact different (one_here.trans two_here.symm)
    · rw [others two two_here] at second
      exact (depicted.elsewhere repaints two_here second).2 (one_here ▸ first)
    · rw [others one one_here] at first
      exact (depicted.elsewhere repaints one_here first).2 (two_here ▸ second)
    · rw [others one one_here] at first
      rw [others two two_here] at second
      exact depicted.apart different first second
  · by_cases same : other = place
    · subst same
      obtain ⟨e, found⟩ := container.holder
      exact ⟨e, repaints.element?.trans found⟩
    · obtain ⟨e, found⟩ := (was shown).holder
      obtain ⟨-, -, -, element, -⟩ := Document.views_of_node? (unchanged same (was shown))
      exact ⟨e, element.trans found⟩
  · by_cases same : other = place
    · subst same
      have sub := repaints.order [] [] rfl (by
        rw [List.append_nil, List.nil_append]
        exact depicted.order other)
      rwa [List.append_nil, List.nil_append] at sub
    · cases shown : scene' other with
      | nil => exact List.nil_sublist _
      | cons p ps =>
          have container : Container s scene other := was (by rw [shown]; exact nofun)
          obtain ⟨-, -, children, -, -⟩ := Document.views_of_node? (unchanged same container)
          rw [children, ← shown, others other same]
          exact depicted.order other

end Repainted

theorem shifts (depicted : Depicted s scene) (shifts : Shifts s t scene scene') :
    Depicted t scene' := by
  cases shifts with
  | still dom binder same => exact same ▸ depicted.of_same dom binder
  | repaint place container repaints others => exact depicted.repainted container repaints others

end Depicted

def positionsAfter (happening : Occurrence δ) (before : NodeId → List Flat) : NodeId → List Flat :=
  match happening with
  | .rendered tree place _ (.ok _) => Function.update before place tree.flatten
  | .unmounted place => Function.update before place []
  | _ => before

/-- All that the layer was asked for in between made sense. -/
def Sensible (s t : Renderer D σ) : Prop :=
  (Documented.account s.dom).Grew (Documented.account t.dom)

theorem Sensible.of_same (same : t.dom = s.dom) : Sensible s t :=
  .of_eq (congrArg Documented.account same)

section Moving

variable {program : Program σ}

omit [Documented D] in
theorem canvas_beginning (s : Renderer D σ) (place : NodeId) : (s.beginning place).canvas = s.canvas := by
  simp only [canvas, beginning, List.filter_cons, Report.isAlarm, Bool.false_eq_true, if_false]

omit [Documented D] in
theorem canvas_flushing (s : Renderer D σ) : s.flushing.canvas = s.canvas := by
  simp only [canvas, flushing, noting, List.filter_cons, Report.isAlarm, Bool.false_eq_true, if_false]

theorem flats_update (scene : Scene) (place : NodeId) (qs : List Picture) :
    (fun other => flats (Function.update scene place qs other)) =
      Function.update (fun other => flats (scene other)) place (flats qs) := by
  refine funext fun other => ?_
  simp only [Function.update_apply]
  split <;> rfl

theorem Shifts.of_canvas (same : t.canvas = s.canvas) : Shifts s t scene scene :=
  .still (congrArg Canvas.dom same :) (congrArg Canvas.binder same :) rfl

theorem Shifts.update (container : Container s scene place)
    (repaints : Canvas.Repaints place (·.head? = none) (scene place) qs s.canvas t.canvas) :
    Shifts s t scene (Function.update scene place qs) :=
  .repaint place container (by rwa [Function.update_self]) fun _ other => Function.update_of_ne other ..

/-- The pass of a render does not show on the canvas. -/
theorem Settled.canvas_of_passes {tree : Tree} {plans : Fallible (List Plan)} (settled : Settled s scene)
    (depicted : Depicted s scene) (discreet : program.Discreet)
    (passes : Passes program none (entries (scene place)) tree.flatten (s.beginning place) trials plans u) :
    u.canvas = s.canvas :=
  (passes.canvas_eq discreet rfl (settled.stands place) (Nat.zero_le _)
    ((depicted.shown place).of_canvas (canvas_beginning s place))).trans (canvas_beginning s place)

theorem Settled.canvas_of_invokes {spot : Spot} {output : List Picture} {rendered : Fallible Rendered}
    (settled : Settled s scene) (depicted : Depicted s scene) (discreet : program.Discreet)
    (invokes : Invokes program a c props (s.attempting a) trials rendered u)
    (same : scene place = Spot.fill (.component a c props tree output) spot) : u.canvas = s.canvas := by
  have shown := depicted.shown place
  rw [same] at shown
  exact invokes.canvas_eq discreet (settled.stands_at same) (seen_component.mp (seen_of_fill spot shown)).2

/-- A render that took effect repaints its container. -/
theorem Settled.repaints_of_render {tree : Tree} (settled : Settled s scene) (depicted : Depicted s scene)
    (discreet : program.Discreet) (container : Container s scene place)
    (passes : Passes program none (entries (scene place)) tree.flatten (s.beginning place) trials
      (.ok plans) u)
    (planned : Planned (s.beginning place) u 0 (scene place) tree.flatten plans)
    (patches : Patches s u t place (scene place) plans
      (Canvas.redrawAll place none (scene place) plans u.canvas)) (plain : t.Plain) :
    u.canvas = s.canvas ∧ Canvas.Repaints place (·.head? = none) (scene place)
      (Canvas.redrawAll place none (scene place) plans u.canvas).1 s.canvas t.canvas := by
  have same := settled.canvas_of_passes depicted discreet passes
  refine ⟨same, ?_⟩
  have homemade := (patches.changes.settled settled).homemade plain place
  rw [Function.update_self] at homemade
  rw [patches.canvas]
  rw [same] at homemade ⊢
  exact Canvas.repaints_redrawAll plans (depicted.hangs container) planned.ready homemade

/-- A re-render that took effect repaints its activation where that is shown. -/
theorem Settled.repaints_at_spot {record : Activation} {spot : Spot} {rendered : Rendered}
    {output : List Picture} (settled : Settled s scene) (depicted : Depicted s scene) (discreet : program.Discreet)
    (invokes : Invokes program a record.component record.props (s.attempting a) trials
      (.ok rendered) u)
    (same : scene place = Spot.fill (.component a record.component record.props tree output) spot)
    (whole : rendered = ⟨a, record.component, record.props, rendered.tree, rendered.output⟩)
    (planned : Planned (s.attempting a) u a.index output rendered.tree.flattenOutput rendered.output)
    (patches : Patches s u t place (scene place) [rendered.plan false]
      (redrawnAt spot place rendered output u.canvas)) (plain : t.Plain) :
    u.canvas = s.canvas ∧ Container s scene place ∧ ∃ output',
      (redrawnAt spot place rendered output u.canvas).1 =
        spot.fill (.component a record.component record.props rendered.tree output') ∧
      (Canvas.Hangs (spot.place place) (fun _ => True)
          [.component a record.component record.props tree output] s.canvas →
        Canvas.Repaints (spot.place place) (fun _ => True)
          [.component a record.component record.props tree output]
          [.component a record.component record.props rendered.tree output'] s.canvas t.canvas) := by
  have container : Container s scene place := depicted.container (by
    rw [same]
    cases spot <;> simp only [Spot.fill, ne_eq, List.append_eq_nil_iff, reduceCtorEq, and_false,
      not_false_eq_true])
  have homemade := (patches.changes.settled settled).homemade plain place
  rw [Function.update_self] at homemade
  have unseen := settled.canvas_of_invokes depicted discreet invokes same
  refine ⟨unseen, container,
    (Canvas.redrawAll (spot.place place) (u.canvas.after output) output rendered.output u.canvas).1, ?_, fun here => ?_⟩
  · rw [redrawnAt, whole]
  rw [patches.canvas]
  rw [unseen] at homemade ⊢
  simp only [redrawnAt] at homemade ⊢
  rw [whole] at homemade ⊢
  have inside := homemade_of_fill spot homemade
  rw [Homemade] at inside
  have full := Canvas.redrawAll_ne_nil (Canvas.output_plans_ne_nil planned.flats) (spot.place place)
    (s.canvas.after output) output s.canvas
  exact Canvas.repaints_component here
    (Canvas.repaints_redrawAll rendered.output here.shows planned.ready inside) full
      record.component record.props rendered.tree

theorem Settled.repaints_of_rerender {record : Activation} {spot : Spot} {rendered : Rendered}
    {output : List Picture} (settled : Settled s scene) (depicted : Depicted s scene) (discreet : program.Discreet)
    (invokes : Invokes program a record.component record.props (s.attempting a) trials
      (.ok rendered) u)
    (same : scene place = Spot.fill (.component a record.component record.props tree output) spot)
    (whole : rendered = ⟨a, record.component, record.props, rendered.tree, rendered.output⟩)
    (planned : Planned (s.attempting a) u a.index output rendered.tree.flattenOutput rendered.output)
    (patches : Patches s u t place (scene place) [rendered.plan false]
      (redrawnAt spot place rendered output u.canvas)) (plain : t.Plain) :
    u.canvas = s.canvas ∧ Container s scene place ∧ Canvas.Repaints place (·.head? = none) (scene place)
      (redrawnAt spot place rendered output u.canvas).1 s.canvas t.canvas := by
  obtain ⟨unseen, container, output', redrawn, repaints⟩ :=
    settled.repaints_at_spot depicted discreet invokes same whole planned patches plain
  have hangs := depicted.hangs container
  refine ⟨unseen, container, ?_⟩
  rw [redrawn]
  rw [same] at hangs ⊢
  exact Canvas.repaints_fill spot hangs repaints

theorem Settled.shifts_of_unmount (settled : Settled s scene) (depicted : Depicted s scene)
    (returned : Returns (unmount place) s answer t) :
    Settled t (Function.update scene place []) ∧ Shifts s t scene (Function.update scene place []) ∧
      s.canvas.Orderly t.canvas := by
  obtain ⟨_, returned', changes, canvas⟩ := settled.unmounts place
  obtain ⟨-, rfl⟩ := returned.unique returned'
  refine ⟨changes.settled settled, ?_⟩
  cases shown : scene place with
  | nil =>
      rw [shown] at canvas
      rw [Function.update_eq_self_iff.mpr shown.symm]
      exact ⟨.of_canvas canvas, canvas ▸ .refl _⟩
  | cons p ps =>
      have container : Container s scene place := depicted.container (by rw [shown]; exact nofun)
      have repaints := Canvas.repaints_removeAll (depicted.hangs container)
      rw [← canvas] at repaints
      exact ⟨.update container repaints, repaints.orderly⟩

/-- A move repaints one container at most, and raises no alarm unless the page does. -/
theorem Settled.shifts (settled : Settled s scene) (depicted : Depicted s scene)
    (discreet : program.Discreet) (moves : Moves program agenda s happening ending t)
    (own : happening ≠ .edited)
    (contained : ∀ tree place trials r, happening = .rendered tree place trials r →
      Container s scene place) (plain : t.Plain) :
    ∃ scene', Settled t scene' ∧ Shifts s t scene scene' ∧
      (fun place => flats (scene' place)) = positionsAfter happening (fun place => flats (scene place)) ∧
      Sensible s t ∧ ((∀ deeds, happening ≠ .acted deeds) → t.canvas.alarms = s.canvas.alarms) := by
  -- A render or a retry that succeeds and an unmounting repaint one container; the other moves leave the canvas.
  cases moves with
  | act acts =>
      have calm := Undisturbed.acts acts
      exact ⟨scene, settled.undisturbed calm, .still calm.dom calm.binder rfl, rfl,
        .of_same calm.dom, fun other => absurd rfl (other _)⟩
  | render renders =>
      have container := contained _ _ _ _ rfl
      obtain ⟨u, ⟨e, passes, rfl, reverts⟩ | ⟨plans, passes, rfl, planned, patches⟩⟩ :=
        settled.render_cases renders
      · have same := reverts.canvas.trans (settled.canvas_of_passes depicted discreet passes)
        exact ⟨scene, reverts.settled settled, .of_canvas same, rfl,
          .of_same (congrArg Canvas.dom same :), fun _ => congrArg Canvas.alarms same⟩
      · obtain ⟨-, repaints⟩ := settled.repaints_of_render depicted discreet container passes planned
          patches plain
        refine ⟨_, patches.changes.settled settled, .update container repaints, ?_,
          repaints.orderly.account, fun _ => repaints.orderly.alarms⟩
        rw [flats_update, (Canvas.redrawAll_shows plans _ none planned.fits u.canvas).1, planned.flats]
        rfl
  | unmount returned =>
      obtain ⟨settled', shifts, orderly⟩ := settled.shifts_of_unmount depicted returned
      exact ⟨_, settled', shifts, flats_update .., orderly.account, fun _ => orderly.alarms⟩
  | flush =>
      exact ⟨scene, settled.of_same rfl rfl rfl (Nat.le_succ _), .of_canvas (canvas_flushing s), rfl,
        .of_same rfl, fun _ => congrArg Canvas.alarms (canvas_flushing s)⟩
  | task =>
      exact ⟨scene, settled.of_same rfl rfl rfl (Nat.le_succ _), .of_canvas (canvas_flushing s.tasked),
        rfl, .of_same rfl, fun _ => congrArg Canvas.alarms (canvas_flushing s.tasked)⟩
  | vainTask =>
      exact ⟨scene, settled.of_same rfl rfl rfl (Nat.le_refl _), .of_canvas rfl, rfl, .of_same rfl,
        fun other => absurd rfl (other _)⟩
  | passOver => exact ⟨scene, settled, .of_canvas rfl, rfl, .of_same rfl, fun _ => rfl⟩
  | retry found live _ rerenders =>
      have registered := settled.find?_of_isLive found live
      obtain ⟨u, ⟨e, invokes, rfl, reverts⟩ | ⟨rendered, invokes, rfl, place, spot, tree, output, same,
          whole, planned, patches⟩⟩ := settled.rerender_cases found registered rerenders
      · obtain ⟨place, spot, tree, output, same⟩ := settled.exists_spot found registered
        have same := reverts.canvas.trans (settled.canvas_of_invokes depicted discreet invokes same)
        exact ⟨scene, reverts.settled settled, .of_canvas same, rfl,
          .of_same (congrArg Canvas.dom same :), fun _ => congrArg Canvas.alarms same⟩
      · obtain ⟨-, container, repaints⟩ := settled.repaints_of_rerender depicted discreet invokes same
          whole planned patches plain
        refine ⟨_, patches.changes.settled settled, .update container repaints, ?_,
          repaints.orderly.account, fun _ => repaints.orderly.alarms⟩
        rw [flats_update]
        refine Function.update_eq_self_iff.mpr ?_
        rw [same]
        exact spot.flats_fill (by rw [whole, Picture.flat, Picture.flat])
  | edit => exact absurd rfl own

end Moving

end Renderer
end Patchwork
