import Patchwork.Proofs.ComponentExpansion
import Patchwork.Proofs.NodeReuse
import Patchwork.Proofs.TendedDocuments

/-! Who survives a render. If what is mounted in a container is in the live layer as it was left, an entry
stays who it is just if the entries along its path are of the same kinds afterwards; the nodes and the
activations of all other entries are gone. -/
namespace Patchwork

open Picture

namespace Spot

variable {spot : Spot} {output output' : List Picture}

theorem mem_fill : b ∈ activationsAll (spot.fill (.component a c props tree output)) ↔
    (b ∈ spot.around.1 ∨ b = a ∨ b ∈ spot.around.2) ∨ b ∈ activationsAll output := by
  rw [activationsAll_fill, Picture.activations, List.mem_append, List.mem_append, List.mem_cons]
  tauto

theorem subset_fill (spot : Spot) :
    activationsAll output ⊆ activationsAll (spot.fill (.component a c props tree output)) :=
  fun _ member => mem_fill.mpr (.inr member)

theorem apart_of_nodup (distinct : (activationsAll (spot.fill (.component a c props tree output))).Nodup) :
    (activationsAll output).Nodup ∧
      ∀ b ∈ activationsAll output, ¬ (b ∈ spot.around.1 ∨ b = a ∨ b ∈ spot.around.2) := by
  rw [activationsAll_fill, Picture.activations] at distinct
  simp only [List.cons_append, List.nodup_append', List.nodup_cons, List.mem_append, not_or,
    List.disjoint_append_right, List.disjoint_cons_right] at distinct
  obtain ⟨-, ⟨⟨own, -⟩, inside, -, back⟩, -, front, -⟩ := distinct
  refine ⟨inside, fun b member around => ?_⟩
  rcases around with early | rfl | late
  · exact front early member
  · exact own member
  · exact back member late

end Spot

namespace Renderer

variable {D σ : Type} {δ : StateData} [HasStateData σ δ] {s t u : Renderer D σ} {scene : Scene} {program : Program σ}

def mounted (s : Renderer D σ) (place : NodeId) : List Mounted := (s.roots.get? place).getD []

theorem Settled.repicture (settled : Settled s scene) (stands : StandAll s.activations place 0 ps)
    (same : entries ps = s.mounted place) : Settled s (Function.update scene place ps) := by
  have entered : entries ps = entries (scene place) := same.trans (settled.mounted place)
  have inside : ∀ other, activationsAll (Function.update scene place ps other) = activationsAll (scene other) := by
    intro other
    rw [Function.update_apply]
    split
    next here => rw [here, ← stands.activations_eq, ← (settled.stands place).activations_eq, entered]
    next => rfl
  refine ⟨fun other => ?_, fun other => ?_, fun other => ?_, fun {one two} different => ?_,
    fun a registered => ?_, settled.calls, settled.epoch⟩
  · rw [Function.update_apply]
    split
    next here => rw [here, settled.roots, ← isEmpty_entries, ← isEmpty_entries, entered]
    next => exact settled.roots other
  · rw [Function.update_apply]
    split
    next here => exact here ▸ stands
    next => exact settled.stands other
  · rw [inside]
    exact settled.distinct other
  · rw [inside, inside]
    exact settled.apart different
  · obtain ⟨other, member⟩ := settled.registered a registered
    exact ⟨other, (inside other).symm ▸ member⟩

end Renderer

/-- The node is live, or the activation. -/
def Identity.Lives {D σ : Type} {δ : StateData} [HasStateData σ δ] [Documented D] (s : Renderer D σ) : Identity → Prop
  | node n => s.document.contains n = true
  | activation a => s.isLive a = true

namespace Renderer

variable {D σ : Type} {δ : StateData} [HasStateData σ δ] [Documented D] {s t u : Renderer D σ} {scene : Scene}
  {program : Program σ}

/-- What is mounted in the container is in the live layer as it was left: pictures of it hang in the
container's element, each of them seen as it says. -/
def Intact (s : Renderer D σ) (place : NodeId) : Prop :=
  ∃ ps, StandAll s.activations place 0 ps ∧ entries ps = s.mounted place ∧
    Canvas.Hangs place (·.head? = none) ps s.canvas

/-- The kinds along its path decide about an entry. If they are the same afterwards, there is an entry of
the same identity there, and an activation has kept its cells; and only then does the entry live on. -/
structure Decides (s t : Renderer D σ) (deeds : List (Deed δ)) (es fs : List Mounted) : Prop where
  lives : ∀ i path e, Mounted.at? s.activations es i path = some e → (e.identity.Lives t ↔
    Mounted.kinds? t.activations fs i path = Mounted.kinds? s.activations es i path)
  keeps : ∀ i path e, Mounted.at? s.activations es i path = some e →
    Mounted.kinds? t.activations fs i path = Mounted.kinds? s.activations es i path →
      ∃ f, Mounted.at? t.activations fs i path = some f ∧ f.identity = e.identity
  cells : ∀ i path a, Mounted.at? s.activations es i path = some (.component a) →
    Mounted.kinds? t.activations fs i path = Mounted.kinds? s.activations es i path →
      ∃ r r', s.activations.find? a = some r ∧ t.activations.find? a = some r' ∧
        CellsKept a deeds s t r r'

theorem decides {New : Identity → Prop} (inherits : Inherits New ps qs)
    (stands : StandAll s.activations place above ps) (stands' : StandAll t.activations place' above' qs)
    (distinct : (everyoneAll ps).Nodup) (old : ∀ x ∈ everyoneAll ps, ¬ New x)
    (live : ∀ x ∈ everyoneAll qs, x.Lives t) (gone : ∀ x ∈ everyoneAll ps, x ∉ everyoneAll qs → ¬ x.Lives t)
    (retains : ∀ a ∈ activationsAll ps, a ∈ activationsAll qs → ∃ r r', s.activations.find? a = some r ∧
      t.activations.find? a = some r' ∧ CellsKept a deeds s t r r') :
    Decides s t deeds (entries ps) (entries qs) := by
  have before := stands.at?_entries
  have after := stands'.at?_entries
  have pictured : ∀ {i path e}, Mounted.at? s.activations (entries ps) i path = some e →
      ∃ p, at? ps i path = some p ∧ p.identity = e.identity := by
    intro i path e found
    rw [(before i path).1] at found
    obtain ⟨p, there, rfl⟩ := Option.map_eq_some_iff.mp found
    obtain ⟨_, _, here⟩ := stands.exists_at? there
    exact ⟨p, there, here.entry_eq.2.1.symm⟩
  have stays : ∀ {i path e}, Mounted.at? s.activations (entries ps) i path = some e →
      Mounted.kinds? t.activations (entries qs) i path = Mounted.kinds? s.activations (entries ps) i path →
      ∃ q, at? qs i path = some q ∧ q.identity = e.identity := by
    intro i path e found same
    obtain ⟨p, there, who⟩ := pictured found
    rw [(before i path).2, (after i path).2] at same
    exact who ▸ inherits.stays there same
  refine ⟨fun i path e found => ⟨fun lives => ?_, fun same => ?_⟩, fun i path e found same => ?_,
    fun i path a found same => ?_⟩
  · by_contra differ
    obtain ⟨p, there, who⟩ := pictured found
    rw [(before i path).2, (after i path).2] at differ
    refine gone _ (identity_mem_of_at? there) (inherits.leaves distinct old there differ) (who ▸ lives)
  · obtain ⟨q, there, who⟩ := stays found same
    exact who ▸ live _ (identity_mem_of_at? there)
  · obtain ⟨q, there, who⟩ := stays found same
    obtain ⟨_, _, here⟩ := stands'.exists_at? there
    exact ⟨q.entry, by rw [(after i path).1, there, Option.map_some], here.entry_eq.2.1.trans who⟩
  · obtain ⟨p, there, who⟩ := pictured found
    obtain ⟨q, there', who'⟩ := stays found same
    refine retains a ?_ ?_
    · exact activation_mem_everyoneAll.mp (who ▸ identity_mem_of_at? there :)
    · exact activation_mem_everyoneAll.mp (who' ▸ identity_mem_of_at? there' :)

/-- The node is not yet issued when a pass ends, or the activation was made in its course. -/
def NewFor (s u : Renderer D σ) : Identity → Prop
  | .node n => u.document.issued < n.index
  | .activation a => a ∈ newIn s u

/-- A change of a container in which pictures were repainted decides about them. -/
theorem Settled.decides (settled : Settled s scene) (changes : Changes s u t place (scene place) whole)
    (tracks : Tracks deeds s u) (hangs : Canvas.Hangs place' fits ps u.canvas)
    (repaints : Canvas.Repaints place' fits ps qs u.canvas t.canvas) (inherits : Inherits (NewFor s u) ps qs)
    (stands : StandAll s.activations place₀ above ps) (stands' : StandAll t.activations place₁ above' qs)
    (distinct : (activationsAll ps).Nodup) (inside : activationsAll ps ⊆ activationsAll (scene place))
    (inside' : activationsAll qs ⊆ activationsAll whole)
    (apart : ∀ a ∈ activationsAll ps, a ∉ activationsAll qs → a ∉ activationsAll whole) :
    Decides s t deeds (entries ps) (entries qs) := by
  have settled' := changes.settled settled
  have listed : Function.update scene place whole place = whole := Function.update_self ..
  refine Renderer.decides inherits stands stands' (nodup_everyoneAll hangs.distinct distinct) ?_ ?_ ?_ ?_
  · rintro (n | a) member new
    · have there := hangs.shown.contains n (node_mem_everyoneAll.mp member)
      exact Nat.not_lt_of_le (Canvas.index_le_issued there) new
    · have early := (stands.index a (activation_mem_everyoneAll.mp member)).2
      exact Nat.not_lt_of_le early (mem_newIn.mp new).1
  · rintro (n | a) member
    · exact repaints.shown.contains n (node_mem_everyoneAll.mp member)
    · rw [Identity.Lives, settled'.isLive_eq, settled'.isRegistered_iff]
      exact ⟨place, listed.symm ▸ inside' (activation_mem_everyoneAll.mp member)⟩
  · rintro (n | a) member stale lives
    · have removed := (repaints.gone n (node_mem_everyoneAll.mp member) fun kept =>
        stale (node_mem_everyoneAll.mpr kept)).1
      rw [Identity.Lives, show t.document.contains n = (t.document.node? n).isSome from rfl,
        show t.document.node? n = none from removed] at lives
      cases lives
    · rw [activation_mem_everyoneAll] at member stale
      rw [Identity.Lives, settled'.isLive_eq] at lives
      obtain ⟨r, found, live⟩ := Activations.isRegistered_iff.mp lives
      obtain ⟨r', found', gone⟩ := changes.vanished a (.inl (inside member)) (apart a member stale)
      cases Option.some.inj (found.symm.trans found')
      exact Bool.noConfusion (live.symm.trans gone.unmounted)
  · intro a member kept
    obtain ⟨r, found, -⟩ :=
      Activations.isRegistered_iff.mp (settled.isRegistered_iff.mpr ⟨place, inside member⟩)
    obtain ⟨r', found', -⟩ := Activations.isRegistered_iff.mp
      (settled'.isRegistered_iff.mpr ⟨place, listed.symm ▸ inside' kept⟩)
    obtain ⟨v, met, same, -⟩ := changes.confined.record found'
    obtain ⟨_, again, -, kept⟩ := tracks.records a r found
    cases Option.some.inj (met.symm.trans again)
    have after : CellsKept a [] u t v r' := .of_same same changes.confined.cells
    exact ⟨r, r', found, found', List.append_nil deeds ▸ kept.trans after⟩

/-- None of the invocations came to a tree with a raw node in it. -/
def Rawless (trials : List (Trial δ)) : Prop := ∀ trial ∈ trials, ∀ tree, trial.outcome = .ok tree → tree.Rawless

theorem Rawless.shown {trials : List (Trial δ)} {xs : List Shown} (rawless : Rawless trials)
    (same : trials.map Trial.shown? = xs.map some) : ∀ x ∈ xs, x.tree.Rawless := by
  intro x member
  obtain ⟨trial, tried, shows⟩ := List.mem_map.mp (same ▸ List.mem_map_of_mem (f := some) member)
  rw [Trial.shown?] at shows
  split at shows
  next tree outcome =>
    cases shows
    exact rawless trial tried tree outcome
  next => cases shows

def PutsNoRaw (D : Type) (program : Program σ) : Prop :=
  ∀ component props deeds tree, ∀ s t : Renderer D σ,
    Acts program (program.component component props) s deeds (.ok tree) t → tree.Rawless

theorem Passes.rawless (passes : Passes program owner es positions s trials result t)
    (never : PutsNoRaw D program) : Rawless trials := by
  induction passes with
  | nil => exact fun _ none => (List.not_mem_nil none).elim
  | text _ _ ih | raw _ ih | elementFailed _ _ ih => exact ih
  | element _ _ _ one two => exact List.forall_mem_append.mpr ⟨one, two⟩
  | component _ ran _ _ one two =>
      refine List.forall_mem_cons.mpr ⟨?_, List.forall_mem_append.mpr ⟨one, two⟩⟩
      rintro tree ⟨⟩
      obtain ⟨acts, -⟩ := ran
      exact never _ _ _ _ _ _ acts
  | componentFailed => exact List.forall_mem_singleton.mpr nofun
  | outputFailed _ ran _ ih =>
      refine List.forall_mem_cons.mpr ⟨?_, ih⟩
      rintro tree ⟨⟩
      obtain ⟨acts, -⟩ := ran
      exact never _ _ _ _ _ _ acts

theorem Intact.exists_scene (intact : s.Intact place) (settled : Settled s scene) :
    ∃ scene, Settled s scene ∧ Canvas.Hangs place (·.head? = none) (scene place) s.canvas := by
  obtain ⟨ps, stands, same, hangs⟩ := intact
  exact ⟨_, settled.repicture stands same, by rwa [Function.update_self]⟩

/-- Plans without raw nodes repaint what hangs in a place, and who stays is inherited. -/
theorem Planned.redraws (planned : Planned s u above ps positions plans) (dom : u.dom = s.dom)
    (hangs : Canvas.Hangs place (·.head? = tail) ps u.canvas) (rawless : Flat.RawlessAll positions)
    (trees : ∀ x ∈ Outline.shownAll (Plan.outlines plans), x.tree.Rawless) :
    Canvas.Repaints place (·.head? = tail) ps (Canvas.redrawAll place tail ps plans u.canvas).1 u.canvas
      (Canvas.redrawAll place tail ps plans u.canvas).2 ∧
    Inherits (NewFor s u) ps (Canvas.redrawAll place tail ps plans u.canvas).1 := by
  have outlines := Canvas.redrawAll_outlines plans place tail planned.fits u.canvas
  have plain : Outline.RawlessAll (Plan.outlines plans) := planned.ready.rawless (planned.flats ▸ rawless) trees
  have fresh : Plan.freshAll plans = newIn s u := planned.fresh
  have seen : SeenAll (Documented.document s.dom) u.binder ps := dom ▸ hangs.shown
  constructor
  · exact Canvas.repaints_redrawAll plans hangs planned.ready (homemadeAll_of_outlines (outlines ▸ plain))
  · refine Canvas.inherits_redrawAll plans hangs planned.ready planned.fits plain seen (fun _ => id) ?_
    intro a member
    exact mem_newIn.mpr (mem_newIn.mp (fresh ▸ member))

/-- A render into a container that is intact decides by kinds. -/
theorem Settled.decides_of_render (settled : Settled s scene) (ready : s.Ready)
    (hangs : Canvas.Hangs place (·.head? = none) (scene place) s.canvas)
    (renders : Renders program tree place s trials (.ok ()) t) (rawless : tree.Rawless)
    (outcomes : Rawless trials) :
    Decides s t (deedsIn trials) (s.mounted place) (t.mounted place) ∧
      ∃ expanded, Expands t.activations (t.mounted place) tree.flatten expanded := by
  obtain ⟨u, ⟨e, -, failed, -⟩ | ⟨plans, passes, -, planned, patches⟩⟩ := settled.render_cases renders
  · cases failed
  have changes := patches.changes
  have here : Canvas.Hangs place (·.head? = none) (scene place) u.canvas :=
    hangs.of_same changes.passed.dom changes.passed.binder
  obtain ⟨repaints, inherits⟩ := planned.redraws changes.passed.dom here rawless (outcomes.shown (passes.shown rfl))
  have shows := Canvas.redrawAll_shows plans place none planned.fits u.canvas
  have settled' := changes.settled settled
  have stands' := settled'.stands place
  have mounted' := settled'.mounted place
  rw [Function.update_self] at stands' mounted'
  rw [← patches.canvas] at repaints
  have begun : Tracks [] s (s.beginning place) := .of_same ready rfl rfl rfl rfl rfl
  have tracks := begun.after (passes.traces begun.ready).tracks
  have expands := stands'.expands
  rw [shows.1, planned.flats] at expands
  rw [Renderer.mounted, Renderer.mounted, settled.mounted, mounted']
  exact ⟨settled.decides changes tracks here repaints inherits (settled.stands place) stands'
    (settled.distinct place) (List.Subset.refl _) (List.Subset.refl _) fun _ _ => id, _, expands⟩

theorem Settled.decides_at_spot {spot : Spot} {output output' : List Picture} (settled : Settled s scene)
    (same : scene place = spot.fill (.component a c props tree output))
    (changes : Changes s u t place (scene place) (spot.fill (.component a c' props' tree' output')))
    (tracks : Tracks deeds s u) (hangs : Canvas.Hangs place' fits output u.canvas)
    (repaints : Canvas.Repaints place' fits output output' u.canvas t.canvas)
    (inherits : Inherits (NewFor s u) output output') :
    Decides s t deeds (s.activations.output a) (t.activations.output a) ∧
      ∃ expanded, t.committed? a = some tree' ∧
        Expands t.activations (t.activations.output a) tree'.flattenOutput expanded := by
  have settled' := changes.settled settled
  have stands := settled.stands place
  have stands' := settled'.stands place
  have distinct := settled.distinct place
  rw [same] at stands distinct
  rw [Function.update_self] at stands'
  obtain ⟨-, stands⟩ := (Spot.standAll_fill spot).mp stands
  obtain ⟨-, stands'⟩ := (Spot.standAll_fill spot).mp stands'
  obtain ⟨-, ⟨r, found, shows⟩, -, inner⟩ := stands_component.mp stands
  obtain ⟨-, ⟨r', found', shows'⟩, positions, inner'⟩ := stands_component.mp stands'
  obtain ⟨own, apart⟩ := Spot.apart_of_nodup distinct
  have before : s.activations.output a = entries output := (Activations.output_eq found).trans shows.output
  have after : t.activations.output a = entries output' := (Activations.output_eq found').trans shows'.output
  have committed : t.committed? a = some tree' := by
    rw [committed?, settled'.isLive_eq, Activations.isRegistered_iff.mpr ⟨r', found', shows'.registered⟩,
      if_pos rfl, found', Option.bind_some, shows'.committed]
  rw [before, after]
  refine ⟨settled.decides changes tracks hangs repaints inherits inner inner' own ?_ ?_ ?_, _,
    committed, positions ▸ inner'.expands⟩
  · rw [same]
    exact Spot.subset_fill spot
  · exact Spot.subset_fill spot
  · intro b member gone
    rw [Spot.mem_fill, not_or]
    exact ⟨apart b member, gone⟩

/-- A re-render of an activation in a container that is intact decides by kinds. -/
theorem Settled.decides_of_rerender {record : Activation} (settled : Settled s scene) (ready : s.Ready)
    (hangs : Canvas.Hangs place (·.head? = none) (scene place) s.canvas)
    (found : s.activations.find? a = some record) (live : record.unmounted = false)
    (here : a ∈ activationsAll (scene place)) (rerenders : Rerenders program a record s trials (.ok ()) t)
    (outcomes : Rawless trials) :
    Decides s t (deedsIn trials) (s.activations.output a) (t.activations.output a) ∧
      ∃ tree expanded, t.committed? a = some tree ∧
        Expands t.activations (t.activations.output a) tree.flattenOutput expanded := by
  obtain ⟨u, ⟨e, -, failed, -⟩ | ⟨rendered, invokes, -, other, spot, tree, output, same, whole, planned,
    patches⟩⟩ := settled.rerender_cases found live rerenders
  · cases failed
  have changes := patches.changes
  have member : a ∈ activationsAll (scene other) := by
    rw [same]
    exact Spot.mem_fill.mpr (.inl (.inr (.inl rfl)))
  obtain rfl : other = place := by
    by_contra different
    exact settled.apart different member here
  have trees := outcomes.shown (invokes.shown rfl)
  rw [Plan.outlines, Plan.outlines, Rendered.plan, Plan.outline, Outline.shownAll, Outline.shownAll,
    List.append_nil, Outline.shown, List.forall_mem_cons] at trees
  have pictured : Canvas.Hangs other (·.head? = none) (scene other) u.canvas :=
    hangs.of_same changes.passed.dom changes.passed.binder
  rw [same] at pictured
  have below := (pictured.at_spot spot).shows
  obtain ⟨repaints, inherits⟩ := planned.redraws changes.passed.dom below trees.1.output trees.2
  have drawn : t.canvas = _ := patches.canvas
  rw [whole, redrawnAt] at changes drawn
  rw [← drawn] at repaints
  have begun : Tracks [] s (s.attempting a) := .of_same ready rfl rfl rfl rfl rfl
  have tracks := begun.after (invokes.traces begun.ready found).tracks
  obtain ⟨decides, expanded, shows⟩ := settled.decides_at_spot same changes tracks below repaints inherits
  exact ⟨decides, rendered.tree, expanded, shows⟩

theorem Displays.intact (displays : Displays past s scene) (container : Container s scene place) :
    s.Intact place :=
  ⟨scene place, displays.settled.stands place, (displays.settled.mounted place).symm,
    displays.depicted.hangs container⟩

/-- Kinds decide identity. At any move of any run that renders a tree into a container, or an activation
again, where what the container has mounted is intact and no tree has a raw node in it, an entry survives
as who it is just if all the entries along its path are of the same kinds as before. -/
theorem Run.kinds_decide (run : Run program episodes s) (member : episode ∈ episodes) :
    (∀ tree place trials, episode.happening = .rendered tree place trials (.ok ()) →
      episode.before.Intact place → tree.Rawless → Rawless trials →
        Decides episode.before episode.after (deedsIn trials) (episode.before.mounted place)
          (episode.after.mounted place) ∧
        ∃ expanded, Expands episode.after.activations (episode.after.mounted place) tree.flatten expanded) ∧
    (∀ a trials place, episode.happening = .retried a trials (.ok ()) →
      a ∈ Mounted.activations episode.before.activations (episode.before.mounted place) →
      episode.before.Intact place → Rawless trials →
        Decides episode.before episode.after (deedsIn trials) (episode.before.activations.output a)
          (episode.after.activations.output a) ∧
        ∃ tree expanded, episode.after.committed? a = some tree ∧
          Expands episode.after.activations (episode.after.activations.output a) tree.flattenOutput expanded) := by
  obtain ⟨scene, agenda, ending, settled, moves⟩ := run.moves_of_mem member
  have ready := run.ready_of_mem member
  obtain ⟨before, happening, after⟩ := episode
  constructor
  · rintro tree place trials rfl intact rawless outcomes
    obtain ⟨scene, settled, hangs⟩ := intact.exists_scene settled
    cases moves with
    | render renders => exact settled.decides_of_render ready hangs renders rawless outcomes
  · rintro a trials place rfl here intact outcomes
    obtain ⟨scene, settled, hangs⟩ := intact.exists_scene settled
    rw [Renderer.mounted, settled.mounted, (settled.stands place).activations_eq] at here
    cases moves with
    | retry found live _ rerenders =>
        exact settled.decides_of_rerender ready hangs found (settled.find?_of_isLive found live) here rerenders outcomes

omit [Documented D] in
theorem putsNoRaw_counter : PutsNoRaw D counter := fun _ _ _ tree _ _ acts => by
  cases acts with
  | @asked _ _ answer _ _ _ _ _ _ _ _ later =>
      cases answer with
      | error => cases later
      | ok =>
          cases later
          exact ⟨trivial, trivial⟩
  | made _ _ later =>
      cases later
      exact ⟨trivial, trivial⟩

/-- In a paragraph that is rendered twice a text and a counter survive, and an element gives way to a text. -/
theorem text_and_counter_survive :
    let count : Tree := .component ⟨⟨0, "counter"⟩, none⟩
    let one : Tree := .element "p" .empty [.text (.text "Count: "), count, .element "b" .empty []]
    let two : Tree := .element "p" .empty [.fragment [.text (.text "n = "), count], .text (.text "!")]
    let s : Renderer Document Unit := new Document.empty.createContainer.2 ()
    ∃ (t u : Renderer Document Unit) (first second : List (Trial .scalars)),
      Returns (render counter one ⟨1⟩) s (.ok ()) t ∧ Returns (render counter two ⟨1⟩) t (.ok ()) u ∧
      t.document.children ⟨2⟩ = [⟨3⟩, ⟨4⟩, ⟨5⟩] ∧ u.document.children ⟨2⟩ = [⟨3⟩, ⟨4⟩, ⟨6⟩] ∧
      t.Intact ⟨1⟩ ∧ two.Rawless ∧ Rawless second ∧
      Run counter [⟨s, .rendered one ⟨1⟩ first (.ok ()), t⟩, ⟨t, .rendered two ⟨1⟩ second (.ok ()), u⟩] u ∧
      Decides t u (deedsIn second) (t.mounted ⟨1⟩) (u.mounted ⟨1⟩) := by
  intro count one two s
  obtain ⟨t, u, first, second, early, late, checked, run, tended⟩ := run_of_checkTwice
    Document.empty.createContainer.2 () one two ⟨1⟩
    (fun t u => t.document.children ⟨2⟩ = [⟨3⟩, ⟨4⟩, ⟨5⟩] ∧ u.document.children ⟨2⟩ = [⟨3⟩, ⟨4⟩, ⟨6⟩])
    quiet_counter (Document.Linked.empty.create _) rfl (by decide +kernel)
  obtain ⟨before, after⟩ := of_decide_eq_true checked
  obtain ⟨_, story⟩ := run.story discreet_counter tended nofun
  obtain ⟨scene, _, -, recounts, -⟩ := story.recounts (show _ = [_] ++ _ :: [] from rfl)
  have again := tended [_] _ [] rfl
  obtain ⟨holder, foreign⟩ := again.container _ _ _ _ rfl
  have intact : t.Intact ⟨1⟩ := recounts.before.intact (recounts.before.container holder foreign)
  have rawless : two.Rawless := ⟨⟨trivial, trivial, trivial, trivial⟩, trivial⟩
  have outcomes : Rawless second := by
    obtain ⟨_, _, _, -, moves⟩ := run.moves_of_mem (List.mem_cons_of_mem _ (List.mem_cons_self ..))
    cases moves with
    | render renders =>
        obtain ⟨_, _, _, _, passes, -⟩ := renders.passed
        exact passes.rawless putsNoRaw_counter
  exact ⟨t, u, first, second, early, late, before, after, intact, rawless, outcomes, run,
    ((run.kinds_decide (List.mem_cons_of_mem _ (List.mem_cons_self ..))).1 two ⟨1⟩ second rfl intact rawless
      outcomes).1⟩

end Renderer
end Patchwork
