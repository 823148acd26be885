import Patchwork.Proofs.SiblingRows
import Patchwork.Proofs.EntrySurvival

/-! Updates stay in their place. The nodes of an activation stand in one row among the children of its
parent. A re-render puts the new row where the old one was, a render or an unmount of a container changes
what is mounted there, and all other nodes of the document stay as and where they are. -/
namespace Patchwork

open Picture

namespace Picture

variable {d : Document} {binder : Binder}

mutual

theorem Seen.under : ∀ {p : Picture}, Seen d binder p → ∀ n ∈ nodes p, d.Under (tops p) n
  | .text .., _ | .missing .., _ => fun _ member => .top member
  | .element k _ _ _, shown => by
      obtain ⟨-, kids, inside⟩ := seen_element.mp shown
      rw [nodes, List.forall_mem_cons, tops]
      have here : d.Under [k] k := .top (List.mem_singleton_self k)
      refine ⟨here, fun n member => (inside.under n member).of_subset fun top member => ?_⟩
      exact .child here (kids ▸ member)
  | .component _ _ _ _ output, shown => by
      rw [nodes, tops]
      exact (seen_component.mp shown).2.under
  | .raw .., shown => by simp only [Seen] at shown

theorem SeenAll.under : ∀ {ps : List Picture}, SeenAll d binder ps → ∀ n ∈ nodesAll ps, d.Under (topsAll ps) n
  | [], _ => List.forall_mem_nil _
  | p :: rest, shown => by
      rw [seenAll_cons] at shown
      rw [nodesAll, List.forall_mem_append, topsAll]
      exact ⟨fun n member => (shown.1.under n member).of_subset fun k top => .top (List.mem_append_left _ top),
        fun n member => (shown.2.under n member).of_subset fun k top => .top (List.mem_append_right _ top)⟩

end

theorem SeenAll.under_iff (shown : SeenAll d binder ps) : d.Under (topsAll ps) n ↔ n ∈ nodesAll ps := by
  refine ⟨fun under => ?_, shown.under n⟩
  induction under with
  | top member => exact mem_nodesAll_of_tops member
  | child _ child ih => exact shown.children _ ih _ child

end Picture

namespace Renderer

variable {D σ : Type} {δ : StateData} [HasStateData σ δ] {s t : Renderer D σ} {scene scene' : Scene}

/-- The nodes that an activation has in its parent, in order. -/
def row (s : Renderer D σ) (a : ActivationId) : List NodeId := (Mounted.component a).nodes s.activations

def rowIn (s : Renderer D σ) (place : NodeId) : List NodeId :=
  (s.mounted place).flatMap (Mounted.nodes s.activations)

/-- The parent that is on record for an activation. -/
def parentOf (s : Renderer D σ) (a : ActivationId) : Option NodeId :=
  (s.activations.find? a).bind Activation.parent

theorem Settled.rowIn_eq (settled : Settled s scene) : s.rowIn place = topsAll (scene place) := by
  rw [rowIn, Renderer.mounted, settled.mounted]
  exact (settled.stands place).nodesWithin_eq (Nat.le_add_right ..)

theorem Settled.row_eq (settled : Settled s scene)
    (same : scene place = Spot.fill (.component a c props tree output) spot) :
    s.row a = topsAll output ∧ s.parentOf a = some (spot.place place) := by
  have stands := settled.stands_at same
  obtain ⟨-, ⟨r, found, shows⟩, -⟩ := stands_component.mp stands
  refine ⟨stands.nodes_eq, ?_⟩
  rw [parentOf, found, Option.bind_some, shows.parent]

variable [Documented D]

/-- Every position of every container stands in a row. -/
def InRows (s : Renderer D σ) : Prop :=
  ∀ place es, s.roots.get? place = some es → ∀ m ∈ es, m.nodes s.activations <:+: s.document.children place

theorem Settled.inRows_iff (settled : Settled s scene) :
    s.InRows ↔ ∀ place, Canvas.InRows (s.document.children place) (scene place) := by
  have rowOf : ∀ {place p}, p ∈ scene place → p.entry.nodes s.activations = p.tops := fun member =>
    (standAll_iff.mp (settled.stands _) _ member).nodes_eq
  constructor
  · intro rows place p member
    have mounted := settled.roots place
    rw [if_neg (by simpa only [List.isEmpty_iff] using List.ne_nil_of_mem member)] at mounted
    rw [← rowOf member]
    refine rows place _ mounted _ ?_
    rw [entries_eq_map]
    exact List.mem_map_of_mem member
  · intro rows place es mounted m member
    rw [settled.roots, Option.ite_none_left_eq_some] at mounted
    rw [← Option.some.inj mounted.2, entries_eq_map, List.mem_map] at member
    obtain ⟨p, member, rfl⟩ := member
    rw [rowOf member]
    exact rows place p member

/-- What is not beneath the old or the new nodes is as and where it was. The element that they are in has
other children at most. -/
structure Framed (s t : Renderer D σ) (place : NodeId) (old new : List NodeId) : Prop where
  others : ∀ n, ¬ s.document.Under old n → ¬ t.document.Under new n → n ≠ place →
    t.document.node? n = s.document.node? n
  bound : ∀ n, ¬ s.document.Under old n → ¬ t.document.Under new n → t.binder[n]? = s.binder[n]?
  content : (t.document.node? place).map Node.content = (s.document.node? place).map Node.content
  parent : t.document.parent? place = s.document.parent? place

theorem Framed.of_canvas {old new : List NodeId} (same : t.canvas = s.canvas) : Framed s t place old new := by
  have document : t.document = s.document := congrArg (Documented.document ∘ Canvas.dom) same
  have binder : t.binder = s.binder := congrArg Canvas.binder same
  exact ⟨fun _ _ _ _ => by rw [document], fun _ _ _ => by rw [binder], by rw [document], by rw [document]⟩

theorem Framed.of_repaints (hangs : Canvas.Hangs place fits ps s.canvas)
    (repaints : Canvas.Repaints place fits ps qs s.canvas t.canvas) :
    Framed s t place (topsAll ps) (topsAll qs) where
  others n old new other := repaints.others n (mt (hangs.shown.under n) old) (mt (repaints.shown.under n) new) other
  bound n old new := repaints.binder n (mt (hangs.shown.under n) old) (mt (repaints.shown.under n) new)
  content := repaints.content
  parent := repaints.parent

/-- An activation has nodes, and they stand in a row among the children of the parent on record. -/
def InRow (s : Renderer D σ) (a : ActivationId) : Prop :=
  s.row a ≠ [] ∧ ∃ parent, s.parentOf a = some parent ∧ s.row a <:+: s.document.children parent

/-- The row of an activation is where it was, between the same neighbours, and nothing else was changed. -/
def StaysPut (s t : Renderer D σ) (a : ActivationId) : Prop :=
  ∃ parent before after, s.parentOf a = some parent ∧ t.parentOf a = some parent ∧
    s.document.children parent = before ++ (s.row a ++ after) ∧
    t.document.children parent = before ++ (t.row a ++ after) ∧
    Framed s t parent (s.row a) (t.row a)

/-- What is mounted in a container was changed, and nothing else. -/
structure Remounts (s t : Renderer D σ) (place : NodeId) : Prop where
  framed : Framed s t place (s.rowIn place) (t.rowIn place)
  children : Recast (s.rowIn place) (t.rowIn place) (s.document.children place) (t.document.children place)

/-- What was changed by a move of the renderer is in the place that it was about. -/
def Keeps (s t : Renderer D σ) : Occurrence δ → Prop
  | .retried a _ _ => StaysPut s t a
  | .rendered _ place _ _ | .unmounted place => Remounts s t place
  | .edited => True
  | .acted _ | .began | .passedOver _ => t.document = s.document ∧ t.binder = s.binder

section Same

theorem Settled.inRows_of_same (settled : Settled s scene) (settled' : Settled t scene)
    (same : t.dom = s.dom) (rows : s.InRows) : t.InRows := by
  have document : t.document = s.document := congrArg Documented.document same
  rw [settled'.inRows_iff, document]
  exact settled.inRows_iff.mp rows

theorem Settled.remounts_of_same (settled : Settled s scene) (settled' : Settled t scene)
    (same : t.canvas = s.canvas) (place : NodeId) : Remounts s t place := by
  have document : t.document = s.document := congrArg (Documented.document ∘ Canvas.dom) same
  refine ⟨.of_canvas same, ?_⟩
  rw [settled.rowIn_eq, settled'.rowIn_eq, document]
  exact .same _ _

/-- Every activation that is shown stands in a row. -/
theorem Settled.row_at_spot (settled : Settled s scene) (depicted : Depicted s scene) (rows : s.InRows)
    (same : scene place = Spot.fill (.component a c props tree output) spot) :
    s.row a ≠ [] ∧ s.parentOf a = some (spot.place place) ∧ s.row a <:+: s.document.children (spot.place place) := by
  have shown := depicted.shown place
  have inRows := settled.inRows_iff.mp rows place
  rw [same] at shown inRows
  obtain ⟨row, parent⟩ := settled.row_eq same
  obtain ⟨full, inside⟩ := seen_component.mp (seen_of_fill spot shown)
  rw [row]
  refine ⟨inside.tops_ne_nil full, parent, ?_⟩
  have stands := inRows.at_spot spot shown
  rwa [tops] at stands

theorem Settled.staysPut_of_same (settled : Settled s scene) (depicted : Depicted s scene) (rows : s.InRows)
    (settled' : Settled t scene) (same : t.canvas = s.canvas)
    (shown : scene place = Spot.fill (.component a c props tree output) spot) : StaysPut s t a := by
  have document : t.document = s.document := congrArg (Documented.document ∘ Canvas.dom) same
  obtain ⟨-, parent, before, after, children⟩ := settled.row_at_spot depicted rows shown
  obtain ⟨row, -⟩ := settled.row_eq shown
  obtain ⟨row', parent'⟩ := settled'.row_eq shown
  rw [List.append_assoc] at children
  refine ⟨_, before, after, parent, parent', children.symm, ?_, .of_canvas same⟩
  rw [document, row', ← row, children]

end Same

theorem Settled.inRows_of_repaints (settled : Settled s scene) (depicted : Depicted s scene)
    (settled' : Settled t (Function.update scene place qs))
    (repaints : Canvas.Repaints place fits (scene place) qs s.canvas t.canvas) (rows : s.InRows)
    (here : Canvas.InRows (t.document.children place) qs) : t.InRows := by
  refine settled'.inRows_iff.mpr fun other => ?_
  by_cases same : other = place
  · subst same
    rwa [Function.update_self]
  rw [Function.update_of_ne same]
  cases shown : scene other with
  | nil => exact List.forall_mem_nil _
  | cons p ps =>
      have container : Container s scene other := depicted.container (by rw [shown]; exact nofun)
      obtain ⟨old, new⟩ := container.untouched repaints
      obtain ⟨-, -, children, -, -⟩ := Document.views_of_node? (repaints.others other old new same)
      have children : t.document.children other = s.document.children other := children
      rw [children, ← shown]
      exact settled.inRows_iff.mp rows other

variable {program : Program σ} {past episodes more : List (Episode D σ)}

open Episode (Made Throughout Tended)

theorem Settled.keeps_render {tree : Tree} (settled : Settled s scene) (depicted : Depicted s scene) (rows : s.InRows)
    (container : Container s scene place) (unseen : u.canvas = s.canvas)
    (planned : Planned (s.beginning place) u 0 (scene place) tree.flatten plans)
    (patches : Patches s u t place (scene place) plans
      (Canvas.redrawAll place none (scene place) plans u.canvas))
    (repaints : Canvas.Repaints place (·.head? = none) (scene place)
      (Canvas.redrawAll place none (scene place) plans u.canvas).1 s.canvas t.canvas) :
    t.InRows ∧ Remounts s t place := by
  have settled' := patches.changes.settled settled
  have hangs := depicted.hangs container
  have canvas := patches.canvas
  rw [unseen] at settled' repaints canvas
  obtain ⟨inRows, recast⟩ := Canvas.recasts_redrawAll plans hangs planned.ready repaints.shown.homemade
    (settled.inRows_iff.mp rows place)
  rw [← canvas] at inRows recast
  refine ⟨settled.inRows_of_repaints depicted settled' repaints rows inRows, ?_, ?_⟩
  · rw [settled.rowIn_eq, settled'.rowIn_eq, Function.update_self]
    exact .of_repaints hangs repaints
  · rw [settled.rowIn_eq, settled'.rowIn_eq, Function.update_self]
    exact recast

theorem Settled.keeps_unmount (settled : Settled s scene) (depicted : Depicted s scene) (rows : s.InRows)
    (returned : Returns (unmount place) s answer t) : t.InRows ∧ Remounts s t place := by
  obtain ⟨_, returned', changes, canvas⟩ := settled.unmounts place
  obtain ⟨-, rfl⟩ := returned.unique returned'
  have settled' := changes.settled settled
  cases shown : scene place with
  | nil =>
      rw [shown] at canvas
      rw [Function.update_eq_self_iff.mpr shown.symm] at settled'
      exact ⟨settled.inRows_of_same settled' (congrArg Canvas.dom canvas :) rows,
        settled.remounts_of_same settled' canvas place⟩
  | cons p ps =>
      have hangs := depicted.hangs (depicted.container (by rw [shown]; exact nofun))
      have repaints := Canvas.repaints_removeAll hangs
      have recast := Canvas.recasts_removeAll hangs (settled.inRows_iff.mp rows place)
      rw [← canvas] at repaints recast
      refine ⟨settled.inRows_of_repaints depicted settled' repaints rows (List.forall_mem_nil _), ?_, ?_⟩
      · rw [settled.rowIn_eq, settled'.rowIn_eq, Function.update_self]
        exact .of_repaints hangs repaints
      · rw [settled.rowIn_eq, settled'.rowIn_eq, Function.update_self]
        exact recast

theorem Settled.keeps_rerender {spot : Spot} {output output' : List Picture} (settled : Settled s scene)
    (depicted : Depicted s scene) (rows : s.InRows) (container : Container s scene place)
    (same : scene place = Spot.fill (.component a c props tree output) spot)
    (settled' : Settled t (Function.update scene place (Spot.fill (.component a c props tree' output') spot)))
    (repaints : Canvas.Hangs (spot.place place) (fun _ => True) [.component a c props tree output] s.canvas →
      Canvas.Repaints (spot.place place) (fun _ => True) [.component a c props tree output]
        [.component a c props tree' output'] s.canvas t.canvas) :
    t.InRows ∧ StaysPut s t a := by
  have hangs := depicted.hangs container
  rw [same] at hangs
  have inRows : Canvas.InRows (s.canvas.document.children place) (scene place) := settled.inRows_iff.mp rows place
  rw [same] at inRows
  have whole := Canvas.repaints_fill spot hangs repaints
  have inRows' := inRows.fill spot hangs repaints
  rw [← same] at whole
  refine ⟨settled.inRows_of_repaints depicted settled' whole rows inRows', ?_⟩
  have here := hangs.at_spot spot
  obtain ⟨row, parent⟩ := settled.row_eq same
  obtain ⟨row', parent'⟩ := settled'.row_eq (Function.update_self ..)
  obtain ⟨⟨before, after, was, becomes⟩, -⟩ :=
    (repaints here).around here (inRows.at_spot spot (same ▸ depicted.shown place))
  have framed := Framed.of_repaints here (repaints here)
  simp only [topsAll, tops, List.append_nil] at was becomes framed
  refine ⟨_, before, after, parent, parent', ?_, ?_, ?_⟩
  · rw [row]
    exact was
  · rw [row']
    exact becomes
  · rw [row, row']
    exact framed

/-- Every move of the renderer keeps to its place. -/
theorem Displays.keeps (displays : Displays past s scene) (discreet : program.Discreet) (rows : s.InRows)
    (moves : Moves program agenda s happening ending t)
    (tended : (⟨s, happening, t⟩ : Episode D σ).Tended past) (own : happening ≠ .edited) :
    t.InRows ∧ Keeps s t happening := by
  obtain ⟨settled, depicted, -, -, -⟩ := id displays
  cases moves with
  | act acts =>
      have calm := Undisturbed.acts acts
      exact ⟨settled.inRows_of_same (settled.undisturbed calm) calm.dom rows,
        congrArg Documented.document calm.dom, calm.binder⟩
  | render renders =>
      obtain ⟨holder, foreign⟩ := tended.container _ _ _ _ rfl
      have container := displays.container holder foreign
      obtain ⟨u, ⟨e, passes, rfl, reverts⟩ | ⟨plans, passes, rfl, planned, patches⟩⟩ :=
        settled.render_cases renders
      · have same := reverts.canvas.trans (settled.canvas_of_passes depicted discreet passes)
        have settled' := reverts.settled settled
        exact ⟨settled.inRows_of_same settled' (congrArg Canvas.dom same :) rows,
          settled.remounts_of_same settled' same _⟩
      · obtain ⟨unseen, repaints⟩ := settled.repaints_of_render depicted discreet container passes planned
          patches tended.plain
        exact settled.keeps_render depicted rows container unseen planned patches repaints
  | unmount returned => exact settled.keeps_unmount depicted rows returned
  | flush | task | vainTask | passOver => exact ⟨rows, rfl, rfl⟩
  | retry found live _ rerenders =>
      have registered := settled.find?_of_isLive found live
      obtain ⟨u, ⟨e, invokes, rfl, reverts⟩ | ⟨rendered, invokes, rfl, place, spot, tree, output, same,
          whole, planned, patches⟩⟩ := settled.rerender_cases found registered rerenders
      · obtain ⟨place, spot, tree, output, same⟩ := settled.exists_spot found registered
        have settled' := reverts.settled settled
        have unchanged := reverts.canvas.trans (settled.canvas_of_invokes depicted discreet invokes same)
        exact ⟨settled.inRows_of_same settled' (congrArg Canvas.dom unchanged :) rows,
          settled.staysPut_of_same depicted rows settled' unchanged same⟩
      · obtain ⟨-, container, output', redrawn, repaints⟩ := settled.repaints_at_spot depicted discreet
          invokes same whole planned patches tended.plain
        have settled' := patches.changes.settled settled
        rw [redrawn] at settled'
        exact settled.keeps_rerender depicted rows container same settled' repaints
  | edit => exact absurd rfl own

/-- The page puts nothing between the nodes of an activation. -/
def LeavesRows (episode : Episode D σ) : Prop :=
  episode.happening = .edited → ∀ a ∈ episode.before.activations.registered, ∀ parent,
    episode.before.row a <:+: episode.before.document.children parent →
      episode.before.row a <:+: episode.after.document.children parent

/-- What the page does to its own nodes leaves all positions in rows. -/
theorem Displays.inRows_edit {dom : D} (displays : Displays past s scene)
    (edited : Displays more { s with dom } scene) (rows : s.InRows)
    (leaves : LeavesRows (⟨s, .edited, { s with dom }⟩ : Episode D σ)) : ({ s with dom } : Renderer D σ).InRows := by
  obtain ⟨settled, depicted, -, -, -⟩ := displays
  refine edited.settled.inRows_iff.mpr fun place p member => ?_
  have inRow := settled.inRows_iff.mp rows place p member
  have placed : ∀ n ∈ p.tops, n ∈ ({ s with dom } : Renderer D σ).document.children place := fun n top => by
    refine (edited.depicted.order place).subset ?_
    rw [topsAll_eq_flatMap]
    exact List.mem_flatMap.mpr ⟨p, member, top⟩
  cases p with
  | text n | missing n | element n | raw n =>
      exact (List.singleton_infix_iff ..).mpr (placed n (List.mem_singleton_self n))
  | component a c props tree output =>
      have row : s.row a = tops (.component a c props tree output) :=
        (standAll_iff.mp (settled.stands place) _ member).nodes_eq
      have shown : a ∈ activationsAll (scene place) := by
        rw [activationsAll_eq_flatMap]
        exact List.mem_flatMap.mpr ⟨_, member, List.mem_cons_self ..⟩
      have registered := Activations.mem_registered.mpr (settled.isRegistered_iff.mpr ⟨place, shown⟩)
      rw [← row] at inRow ⊢
      exact leaves rfl a registered place inRow

/-- Every move of a story keeps to its place, and leaves all positions in rows. -/
theorem Story.inRows (story : Story episodes s scene) (discreet : program.Discreet)
    (moves : ∀ episode ∈ episodes, ∃ agenda ending,
      Moves program agenda episode.before episode.happening ending episode.after)
    (tended : Throughout Tended episodes) (leaves : ∀ episode ∈ episodes, LeavesRows episode) :
    s.InRows ∧ ∀ episode ∈ episodes, Keeps episode.before episode.after episode.happening := by
  induction story with
  | @begun s scene displays =>
      have nothing : ∀ place, scene place = [] := fun place => by
        have shown : flats (scene place) = [] := congrFun displays.positions place
        cases pictures : scene place with
        | nil => rfl
        | cons p ps =>
            rw [pictures] at shown
            cases shown
      refine ⟨displays.settled.inRows_iff.mpr fun place => ?_, List.forall_mem_nil _⟩
      rw [nothing place]
      exact List.forall_mem_nil _
  | @went past s t scene scene' happening story recounts ih =>
      rw [List.forall_mem_append] at moves leaves
      obtain ⟨rows, kept⟩ := ih moves.1 tended.of_append leaves.1
      obtain ⟨agenda, ending, moved⟩ := moves.2 _ (List.mem_singleton_self _)
      have last := leaves.2 _ (List.mem_singleton_self _)
      by_cases edited : happening = .edited
      · subst edited
        have moved : Moves program agenda s .edited ending t := moved
        cases moved
        have after := recounts.after
        rw [recounts.edited rfl] at after
        refine ⟨story.displays.inRows_edit after rows last, ?_⟩
        exact List.forall_mem_append.mpr ⟨kept, List.forall_mem_singleton.mpr trivial⟩
      · obtain ⟨rows', keeps⟩ := story.displays.keeps discreet rows moved tended.last edited
        exact ⟨rows', List.forall_mem_append.mpr ⟨kept, List.forall_mem_singleton.mpr keeps⟩⟩

theorem Displays.inRow (displays : Displays past s scene) (rows : s.InRows) :
    ∀ a ∈ s.activations.registered, s.InRow a := by
  intro a member
  obtain ⟨r, found, live⟩ := Activations.isRegistered_iff.mp (Activations.mem_registered.mp member)
  obtain ⟨place, spot, tree, output, same⟩ := displays.settled.exists_spot found live
  obtain ⟨full, parent, row⟩ := displays.settled.row_at_spot displays.depicted rows same
  exact ⟨full, _, parent, row⟩

theorem Displays.apart (displays : Displays past s scene) (under : s.document.Under (s.rowIn place) n) :
    Made past n ∧ ∀ other, s.document.Under (s.rowIn other) n → other = place := by
  have inside : ∀ {other}, s.document.Under (s.rowIn other) n → n ∈ nodesAll (scene other) := fun {other} under => by
    rw [displays.settled.rowIn_eq] at under
    exact (displays.depicted.shown other).under_iff.mp under
  refine ⟨displays.made (inside under), fun other elsewhere => by_contra fun different => ?_⟩
  exact displays.depicted.apart different (inside elsewhere) (inside under)

/-- As long as the page puts nothing between the nodes of an activation, each activation has one row of
nodes after every move. A re-render puts the new row in the place of the old one, a render or an unmount
changes what is mounted in its container, and all other nodes stay as they are. What is mounted in one
container is the renderer's own and in no other container. -/
theorem Run.updates_keep_to_their_place (run : Run program episodes s) (discreet : program.Discreet)
    (tended : Throughout Tended episodes) (leaves : ∀ episode ∈ episodes, LeavesRows episode)
    (sound : episodes = [] → s.document.Linked) :
    (∀ a ∈ s.activations.registered, s.InRow a) ∧
    ∀ past episode rest, episodes = past ++ episode :: rest →
      (∀ a ∈ episode.after.activations.registered, episode.after.InRow a) ∧
      Keeps episode.before episode.after episode.happening ∧
      ∀ place n, episode.after.document.Under (episode.after.rowIn place) n →
        Made (past ++ [episode]) n ∧
          ∀ other, episode.after.document.Under (episode.after.rowIn other) n → other = place := by
  obtain ⟨_, story⟩ := run.story discreet tended sound
  have moves : ∀ episode ∈ episodes, ∃ agenda ending,
      Moves program agenda episode.before episode.happening ending episode.after := fun episode member => by
    obtain ⟨_, agenda, ending, -, moves⟩ := run.moves_of_mem member
    exact ⟨agenda, ending, moves⟩
  obtain ⟨rows, keeps⟩ := story.inRows discreet moves tended leaves
  refine ⟨story.displays.inRow rows, fun past episode rest same => ?_⟩
  obtain ⟨_, scene, -, -, before⟩ := story.recounts same
  have split : episodes = (past ++ [episode]) ++ rest := by
    rw [same, List.append_assoc, List.singleton_append]
  have early : ∀ other ∈ past ++ [episode], other ∈ episodes := fun other member =>
    split ▸ List.mem_append_left rest member
  obtain ⟨rows', -⟩ := before.inRows discreet (fun other member => moves other (early other member))
    (split ▸ tended).of_append fun other member => leaves other (early other member)
  have last : episode ∈ episodes := early episode (List.mem_append_right _ (List.mem_singleton_self _))
  exact ⟨before.displays.inRow rows', keeps episode last, fun place n under => before.displays.apart under⟩

/-- In a container that is missing, nothing stands in a row: what is mounted there stands nowhere. -/
theorem counter_stands_nowhere :
    let x : Action Unit (Fallible Unit) := .render (.component ⟨⟨0, "counter"⟩, none⟩) ⟨7⟩ .done
    ∃ (episodes : List (Episode Document Unit)) (s : Renderer Document Unit),
      Returns (perform (top counter) x) (new Document.empty.createContainer.2 ()) (.ok ()) s ∧
        Run counter episodes s ∧ ⟨1⟩ ∈ s.activations.registered ∧ s.row ⟨1⟩ = [⟨2⟩] ∧
          s.document.parent? ⟨2⟩ = none ∧ ¬ s.InRow ⟨1⟩ := by
  intro x
  let check (r : Fallible Unit × Renderer Document Unit) : Bool := r.1 = .ok () ∧
    ⟨1⟩ ∈ r.2.activations.registered ∧ r.2.row ⟨1⟩ = [⟨2⟩] ∧ r.2.document.parent? ⟨2⟩ = none ∧
      (r.2.parentOf ⟨1⟩).map r.2.document.children = some []
  obtain ⟨answer, s, returned, checked⟩ := exists_returns (perform (top counter) x) check
    (s := new Document.empty.createContainer.2 ()) (b := true) (by decide +kernel)
  obtain ⟨episodes, run⟩ := ((Run.new _ ()).goes_on quiet_counter).1 _ _ _ _ returned
  obtain ⟨rfl, registered, row, orphan, childless⟩ := of_decide_eq_true checked
  refine ⟨_, s, returned, run, registered, row, orphan, ?_⟩
  rintro ⟨-, parent, recorded, infixed⟩
  rw [recorded, Option.map_some, Option.some.injEq] at childless
  rw [row, childless] at infixed
  exact List.cons_ne_nil _ _ (List.infix_nil.mp infixed)

/-- A heading and a text stay where they are while more is shown after a counter. -/
theorem heading_stays_in_front :
    let count : Tree := .component ⟨⟨0, "counter"⟩, none⟩
    let one : Tree := .fragment [.text (.text "Count: "), count]
    let two : Tree := .fragment [.text (.text "Count: "), count, .element "hr" .empty []]
    let headed : Document :=
      (((Document.empty.createElement "div").2.createElement "h1").2.insertBefore ⟨1⟩ ⟨2⟩ none).value
    ∃ t u : Renderer Document Unit, Returns (render counter one ⟨1⟩) (new headed ()) (.ok ()) t ∧
      Returns (render counter two ⟨1⟩) t (.ok ()) u ∧
      t.document.children ⟨1⟩ = [⟨2⟩, ⟨3⟩, ⟨4⟩] ∧ u.document.children ⟨1⟩ = [⟨2⟩, ⟨3⟩, ⟨4⟩, ⟨5⟩] ∧
      (∀ a ∈ u.activations.registered, u.InRow a) ∧ Remounts t u ⟨1⟩ := by
  intro count one two headed
  obtain ⟨t, u, first, second, early, late, checked, run, tended⟩ := run_of_checkTwice headed () one two ⟨1⟩
    (fun t u => t.document.children ⟨1⟩ = [⟨2⟩, ⟨3⟩, ⟨4⟩] ∧ u.document.children ⟨1⟩ = [⟨2⟩, ⟨3⟩, ⟨4⟩, ⟨5⟩])
    quiet_counter (((Document.Linked.empty.create _).create _).insertBefore ⟨1⟩ ⟨2⟩ none) rfl (by decide +kernel)
  obtain ⟨before, after⟩ := of_decide_eq_true checked
  have untouched : ∀ episode ∈ [(⟨new headed (), .rendered one ⟨1⟩ first (.ok ()), t⟩ : Episode Document Unit),
      ⟨t, .rendered two ⟨1⟩ second (.ok ()), u⟩], LeavesRows episode := by
    intro episode member edited
    obtain rfl | rfl := List.mem_pair.mp member <;> cases edited
  obtain ⟨inRow, kept⟩ := run.updates_keep_to_their_place discreet_counter tended untouched nofun
  obtain ⟨-, remounts, -⟩ := kept [_] _ [] rfl
  exact ⟨t, u, early, late, before, after, inRow, remounts⟩

end Renderer
end Patchwork
