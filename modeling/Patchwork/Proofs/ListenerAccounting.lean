import Mathlib.Algebra.GroupWithZero.Nat
import Mathlib.Data.List.Pairwise
import Patchwork.Proofs.ComponentExpansion
import Patchwork.Proofs.NodeAccounting
import Patchwork.Proofs.RoleEffects

/-! Listeners. The binder keeps books on the mounted elements and on nothing else, and what is attached
to a live node is what the books say. This is so wherever the renderer was told to render to: into live
elements, into elements of its own, or into a place that is not there. -/
namespace Patchwork

open Picture

/-- A document was changed, but none of the nodes that were `made` for someone else: apart from a live
value each of them is by itself what it was, wherever it hangs now. -/
structure Document.Overlooks (made : NodeId → Prop) (d d' : Document) : Prop where
  issued : d.issued ≤ d'.issued
  worn : ∀ n, made n → d'.worn? n = d.worn? n

def Document.attached (d : Document) (n : NodeId) : List (Category × Handler) :=
  ((d.element? n).map Element.listeners).getD []

/-- Nothing adopted is mounted after the move, and the page does not change what the renderer made. -/
structure Episode.Respects {D σ : Type} {δ : StateData} [HasStateData σ δ] [Documented D]
    (past : List (Episode D σ)) (episode : Episode D σ) :
    Prop where
  plain : episode.after.Plain
  edited : episode.happening = .edited →
    episode.before.document.Overlooks (Episode.Made past) episode.after.document

theorem Episode.Throughout.respects {D σ : Type} {δ : StateData} [HasStateData σ δ] [Documented D]
    {episodes : List (Episode D σ)}
    (tended : Throughout Tended episodes) (unedited : ∀ episode ∈ episodes, episode.happening ≠ .edited) :
    Throughout Respects episodes := fun past episode rest same =>
  ⟨(tended past episode rest same).plain, fun edited => absurd edited (unedited episode (by
    rw [same]
    exact List.mem_append_right _ (List.mem_cons_self ..)))⟩

namespace Mounted

mutual

def elements : Mounted → List NodeId
  | element node _ children => node :: elementsAll children
  | text _ | raw _ _ | component _ => []

def elementsAll : List Mounted → List NodeId
  | [] => []
  | m :: rest => elements m ++ elementsAll rest

end

end Mounted

def Renderer.elements {D σ : Type} {δ : StateData} [HasStateData σ δ] (s : Renderer D σ) : List NodeId :=
  s.roots.toList.flatMap (fun root => Mounted.elementsAll root.2) ++
    s.activations.registered.flatMap fun a => Mounted.elementsAll (s.activations.output a)

namespace Picture

variable {as : Activations}

mutual

def elements : Picture → List NodeId
  | element node _ _ children => node :: elementsAll children
  | component _ _ _ _ output => elementsAll output
  | text _ _ | missing _ _ | raw _ _ _ => []

def elementsAll : List Picture → List NodeId
  | [] => []
  | p :: rest => elements p ++ elementsAll rest

end

mutual

theorem Stands.perm_elements : ∀ {p : Picture} {place above}, Stands as place above p →
    (elements p).Perm
      (p.entry.elements ++ (activations p).flatMap fun a => Mounted.elementsAll (as.output a))
  | .text .., _, _, _ | .raw .., _, _, _ | .missing .., _, _, _ => by
      simp only [elements, entry, Mounted.elements, activations, List.flatMap_nil, List.append_nil,
        List.Perm.refl]
  | .element _ _ _ children, _, _, stands => by
      rw [stands_element] at stands
      rw [elements, entry, Mounted.elements, activations, List.cons_append]
      exact (StandAll.perm_elements stands).cons _
  | .component a _ _ _ output, _, _, stands => by
      obtain ⟨-, ⟨r, found, shows⟩, -, inner⟩ := stands_component.mp stands
      have holds := (Activations.output_eq found).trans shows.output
      rw [elements, entry, Mounted.elements, activations, List.flatMap_cons, List.nil_append, holds]
      exact StandAll.perm_elements inner

theorem StandAll.perm_elements : ∀ {ps : List Picture} {place above}, StandAll as place above ps →
    (elementsAll ps).Perm (Mounted.elementsAll (entries ps) ++
      (activationsAll ps).flatMap fun a => Mounted.elementsAll (as.output a))
  | [], _, _, _ => .nil
  | p :: rest, _, _, stands => by
      rw [standAll_cons] at stands
      have one := stands.1.perm_elements
      have others := stands.2.perm_elements
      rw [elementsAll, entries, Mounted.elementsAll, activationsAll, List.flatMap_append]
      refine (one.append others).trans ?_
      simp only [List.append_assoc]
      exact List.Perm.append_left _ (List.perm_append_comm_assoc ..)

end

mutual

theorem mem_elements : ∀ {p : Picture}, n ∈ elements p ↔ ∃ tag attributes, (n, .element tag attributes) ∈ roles p
  | .text .. | .missing .. | .raw .. => by
      simp only [elements, roles, List.not_mem_nil, List.mem_singleton, Prod.mk.injEq, reduceCtorEq,
        and_false, exists_false]
  | .element node tag attributes children => by
      rw [elements, roles, List.mem_cons, mem_elementsAll]
      simp only [List.mem_cons, Prod.mk.injEq, Role.element.injEq]
      constructor
      · rintro (rfl | ⟨tag', attributes', member⟩)
        · exact ⟨tag, attributes, .inl ⟨rfl, rfl, rfl⟩⟩
        · exact ⟨tag', attributes', .inr member⟩
      · rintro ⟨tag', attributes', ⟨rfl, -, -⟩ | member⟩
        · exact .inl rfl
        · exact .inr ⟨tag', attributes', member⟩
  | .component _ _ _ _ output => by rw [elements, roles, mem_elementsAll]

theorem mem_elementsAll : ∀ {ps : List Picture},
    n ∈ elementsAll ps ↔ ∃ tag attributes, (n, .element tag attributes) ∈ rolesAll ps
  | [] => by simp only [elementsAll, rolesAll, List.not_mem_nil, exists_false]
  | p :: rest => by
      rw [elementsAll, rolesAll, List.mem_append, mem_elements, mem_elementsAll]
      simp only [List.mem_append, exists_or]

end

end Picture

namespace Binder

theorem sum_map_filter {f : NodeId → Nat} {keep : NodeId → Bool} {ns : List NodeId}
    (rest : ∀ n ∈ ns, keep n = false → f n = 0) : ((ns.filter keep).map f).sum = (ns.map f).sum := by
  induction ns with
  | nil => rfl
  | cons n ns ih =>
      obtain ⟨first, rest⟩ := List.forall_mem_cons.mp rest
      cases kept : keep n with
      | true => rw [List.filter_cons_of_pos kept, List.map_cons, List.map_cons, List.sum_cons, List.sum_cons, ih rest]
      | false =>
          rw [List.filter_cons_of_neg (by rw [kept]; exact Bool.false_ne_true), List.map_cons,
            List.sum_cons, first kept, Nat.zero_add, ih rest]

theorem listenerCount_eq (binder : Binder) {ns : List NodeId} (distinct : ns.Nodup)
    (all : ∀ n : NodeId, binder[n]? ≠ none → n ∈ ns) :
    binder.listenerCount = (ns.map fun n => ((binder[n]?.map (·.listeners.size)).getD 0)).sum := by
  have folded : ∀ (entries : List (NodeId × Bindings)) (count : Nat),
      entries.foldl (fun count entry => count + entry.2.listeners.size) count =
        count + (entries.map (·.2.listeners.size)).sum := by
    intro entries
    induction entries with
    | nil => exact fun _ => rfl
    | cons entry rest ih =>
        intro count
        rw [List.foldl_cons, ih, List.map_cons, List.sum_cons, Nat.add_assoc]
  have keys : (ns.filter fun n => binder[n]?.isSome).Perm binder.keys := by
    refine (List.perm_ext_iff_of_nodup (distinct.filter _) Std.ExtTreeMap.nodup_keys).mpr fun n => ?_
    rw [List.mem_filter, Std.ExtTreeMap.mem_keys, Std.ExtTreeMap.mem_iff_isSome_getElem?]
    exact and_iff_right_of_imp fun there => all n fun nothing => by
      rw [nothing] at there
      cases there
  have unbound : ∀ n ∈ ns, binder[n]?.isSome = false →
      (binder[n]?.map (·.listeners.size)).getD 0 = 0 := fun n _ left => by
    rw [Option.isSome_eq_false_iff, Option.isNone_iff_eq_none] at left
    rw [left]
    rfl
  rw [← sum_map_filter unbound, (keys.map _).sum_nat, listenerCount, Std.ExtTreeMap.foldl_eq_foldl_toList,
    folded, Nat.zero_add, ← Std.ExtTreeMap.map_fst_toList_eq_keys, List.map_map]
  refine congrArg List.sum (List.map_congr_left fun entry member => ?_)
  have found : binder[entry.1]? = some entry.2 := Std.ExtTreeMap.mem_toList_iff_getElem?_eq_some.mp member
  rw [Function.comp_apply, found]
  rfl

end Binder

/-- All nodes that are shown in some containers, with their roles. -/
def Scene.roles (scene : Scene) (places : List NodeId) : List (NodeId × Role) :=
  places.flatMap fun place => rolesAll (scene place)

namespace Scene

variable {scene : Scene} {places : List NodeId}

theorem mem_roles {x : NodeId × Role} (all : ∀ place, scene place ≠ [] → place ∈ places) :
    x ∈ scene.roles places ↔ ∃ place, x ∈ rolesAll (scene place) := by
  rw [roles, List.mem_flatMap, exists_mem_places all rfl]

theorem mem_map_fst_roles (all : ∀ place, scene place ≠ [] → place ∈ places) :
    n ∈ (scene.roles places).map Prod.fst ↔ ∃ place, n ∈ nodesAll (scene place) := by
  simp only [← map_fst_rolesAll, List.mem_map]
  constructor
  · rintro ⟨x, member, rfl⟩
    obtain ⟨place, member⟩ := (mem_roles all).mp member
    exact ⟨place, x, member, rfl⟩
  · rintro ⟨place, x, member, rfl⟩
    exact ⟨x, (mem_roles all).mpr ⟨place, member⟩, rfl⟩

/-- What is shown in one of the containers, apart from the others. -/
theorem exists_other_roles (scene : Scene) (distinct : places.Nodup) (member : place ∈ places) :
    ∃ others, (scene.roles places).Perm (rolesAll (scene place) ++ others) ∧
      ∀ qs, (roles (Function.update scene place qs) places).Perm (rolesAll qs ++ others) := by
  obtain ⟨front, back, rfl⟩ := List.append_of_mem member
  have apart := List.nodup_middle.mp distinct
  rw [List.nodup_cons, List.mem_append, not_or] at apart
  obtain ⟨⟨before, after⟩, -⟩ := apart
  have same : ∀ qs (part : List NodeId), place ∉ part →
      part.flatMap (fun here => rolesAll (Function.update scene place qs here)) =
        part.flatMap fun here => rolesAll (scene here) := fun qs part outside =>
    List.flatMap_congr fun here inside => by
      have elsewhere : here ≠ place := fun same => outside (same ▸ inside)
      rw [Function.update_of_ne elsewhere]
  refine ⟨front.flatMap (fun here => rolesAll (scene here)) ++ back.flatMap fun here => rolesAll (scene here),
    ?_, fun qs => ?_⟩
  · rw [roles, List.flatMap_append, List.flatMap_cons]
    exact List.perm_append_comm_assoc ..
  · rw [roles, List.flatMap_append, List.flatMap_cons, same qs front before, same qs back after,
      Function.update_self]
    exact List.perm_append_comm_assoc ..

theorem exists_places (distinct : places.Nodup) (all : ∀ place, scene place ≠ [] → place ∈ places)
    (place : NodeId) : ∃ places', places'.Nodup ∧ place ∈ places' ∧ places ⊆ places' ∧
      scene.roles places' = scene.roles places := by
  by_cases member : place ∈ places
  · exact ⟨places, distinct, member, List.Subset.refl _, rfl⟩
  · have nothing : scene place = [] := Classical.byContradiction fun shown => member (all place shown)
    refine ⟨place :: places, List.nodup_cons.mpr ⟨member, distinct⟩, List.mem_cons_self ..,
      List.subset_cons_self .., ?_⟩
    rw [roles, roles, List.flatMap_cons, nothing, rolesAll, List.nil_append]

end Scene

namespace Renderer

open Episode (Made Respects Throughout made_append)
open Canvas (Staged Restages Untouched)

variable {D σ : Type} {δ : StateData} [HasStateData σ δ] [Documented D] {program : Program σ}
  {s t u : Renderer D σ} {scene scene' : Scene}
  {episodes past more : List (Episode D σ)} {places : List NodeId}

omit [Documented D] in
theorem document_canvas [Documented D] (s : Renderer D σ) : s.canvas.document = s.document := rfl

/-- All nodes that are shown play their roles; those and no others are live of what the renderer made,
and there is bookkeeping for none but them. -/
structure Attends (past : List (Episode D σ)) (s : Renderer D σ) (scene : Scene) (places : List NodeId) :
    Prop where
  settled : Settled s scene
  homemade : ∀ place, HomemadeAll (scene place)
  distinct : places.Nodup
  all : ∀ place, scene place ≠ [] → place ∈ places
  staged : Staged (scene.roles places) s.canvas
  bound : ∀ n : NodeId, s.binder[n]? ≠ none → n ∈ (scene.roles places).map Prod.fst
  issued : ∀ n, Made past n → n.index ≤ s.document.issued
  accounted : ∀ n, (s.document.contains n = true ∧ Made past n) ↔
    n ∈ (scene.roles places).map Prod.fst

namespace Attends

theorem new (dom : D) (store : σ) : Attends [] (new dom store) Scene.empty [] where
  settled := .new dom store
  homemade _ := by simp only [Scene.empty, HomemadeAll]
  distinct := .nil
  all _ shown := absurd rfl shown
  staged := ⟨fun _ _ => Std.TreeMap.getElem?_emptyc, List.forall_mem_nil _, .nil⟩
  bound _ there := absurd Std.TreeMap.getElem?_emptyc there
  issued _ made := (Episode.not_made_nil made).elim
  accounted _ := ⟨fun known => (Episode.not_made_nil known.2).elim, fun none => (List.not_mem_nil none).elim⟩

variable (attends : Attends past s scene places)

include attends

theorem restaged {happening : Occurrence δ} {places' : List NodeId} (own : happening ≠ .edited)
    (settled : Settled t scene') (homemade : ∀ place, HomemadeAll (scene' place)) (distinct : places'.Nodup)
    (all : ∀ place, scene' place ≠ [] → place ∈ places')
    (restages : Restages (scene.roles places) (scene'.roles places') s.canvas t.canvas) :
    Attends (past ++ [⟨s, happening, t⟩]) t scene' places' := by
  have makes : ∀ n, (⟨s, happening, t⟩ : Episode D σ).Makes n ↔
      s.document.issued < n.index ∧ n.index ≤ t.document.issued := fun n => and_iff_right own
  refine ⟨settled, homemade, distinct, all, restages.after, fun n there => ?_, fun n made => ?_, fun n => ?_⟩
  · by_contra lost
    by_cases was : n ∈ (scene.roles places).map Prod.fst
    · exact there (restages.gone n was lost).2
    · exact was (attends.bound n fun nothing => there ((restages.others n was lost).binder.trans nothing))
  · rcases (made_append ..).mp made with old | new
    · exact Nat.le_trans (attends.issued n old) restages.issued
    · exact ((makes n).mp new).2
  · rw [made_append, makes]
    constructor
    · rintro ⟨there, made⟩
      by_contra lost
      by_cases was : n ∈ (scene.roles places).map Prod.fst
      · have gone : t.document.contains n = false := (restages.gone n was lost).1
        cases gone.symm.trans there
      · have before : s.document.contains n = true :=
          ((restages.others n was lost).contains.symm.trans there :)
        refine was ((attends.accounted n).mp ⟨before, made.resolve_right fun new => ?_⟩)
        exact Nat.not_lt_of_le (Canvas.index_le_issued before) new.1
    · intro member
      obtain ⟨role, plays⟩ := restages.after.plays_of_mem member
      refine ⟨plays.contains, (restages.within n member).imp (fun old => ?_) fun late => ⟨late, ?_⟩⟩
      · exact ((attends.accounted n).mpr old).2
      · exact plays.index_le

theorem calm {happening : Occurrence δ} (own : happening ≠ .edited) (settled : Settled t scene)
    (dom : t.dom = s.dom) (binder : t.binder = s.binder) :
    Attends (past ++ [⟨s, happening, t⟩]) t scene places :=
  attends.restaged own settled attends.homemade attends.distinct attends.all <|
    .still attends.staged (fun n => ⟨congrArg (fun dom => (Documented.document dom).worn? n) dom,
      congrArg (·[n]?) binder⟩) (congrArg (fun dom => (Documented.document dom).issued) dom)

theorem reverted {happening : Occurrence δ} (own : happening ≠ .edited) (reverts : Reverts s u t) :
    Attends (past ++ [⟨s, happening, t⟩]) t scene places :=
  attends.calm own (reverts.settled attends.settled)
    ((congrArg Canvas.dom reverts.canvas :).trans reverts.passed.dom)
    ((congrArg Canvas.binder reverts.canvas :).trans reverts.passed.binder)

theorem redrawn {happening : Occurrence δ} {place : NodeId} {qs : List Picture} (own : happening ≠ .edited)
    (settled : Settled t (Function.update scene place qs)) (made : HomemadeAll qs) (dom : u.dom = s.dom)
    (binder : u.binder = s.binder)
    (redraws : Staged (rolesAll (scene place)) u.canvas →
      Restages (rolesAll (scene place)) (rolesAll qs) u.canvas t.canvas) :
    ∃ places', Attends (past ++ [⟨s, happening, t⟩]) t (Function.update scene place qs) places' := by
  obtain ⟨places', distinct, member, more, same⟩ := Scene.exists_places attends.distinct attends.all place
  obtain ⟨others, before, after⟩ := Scene.exists_other_roles scene distinct member
  have kept : Restages (scene.roles places') (scene.roles places') s.canvas u.canvas :=
    .still (same ▸ attends.staged) (fun n => ⟨congrArg (fun dom => (Documented.document dom).worn? n) dom,
      congrArg (·[n]?) binder⟩) (congrArg (fun dom => (Documented.document dom).issued) dom)
  have parts := kept.after.perm before
  have whole := (redraws parts.left).frame parts
  refine ⟨places', attends.restaged own settled (fun here => ?_) distinct (fun here shown => ?_) ?_⟩
  · rw [Function.update_apply]
    split
    · exact made
    · exact attends.homemade here
  · by_cases at_place : here = place
    · exact at_place ▸ member
    · rw [Function.update_of_ne at_place] at shown
      exact more (attends.all here shown)
  · rw [← same]
    exact kept.trans (whole.perm before.symm (after qs).symm)

theorem patched {happening : Occurrence δ} {place : NodeId} {canvas : List Picture × Canvas D}
    (own : happening ≠ .edited) (plain : t.Plain)
    (patches : Patches s u t place (scene place) plans canvas)
    (redraws : HomemadeAll (scene place) → HomemadeAll canvas.1 → Staged (rolesAll (scene place)) u.canvas →
      Restages (rolesAll (scene place)) (rolesAll canvas.1) u.canvas canvas.2) :
    ∃ scene' places', Attends (past ++ [⟨s, happening, t⟩]) t scene' places' := by
  have settled := patches.changes.settled attends.settled
  have made := settled.homemade plain place
  rw [Function.update_self] at made
  refine ⟨_, attends.redrawn own settled made patches.changes.passed.dom patches.changes.passed.binder
    fun staged => ?_⟩
  rw [patches.canvas]
  exact redraws (attends.homemade place) made staged

theorem unmounted (returned : Returns (unmount place) s answer t) :
    ∃ places', Attends (past ++ [⟨s, .unmounted place, t⟩]) t (Function.update scene place []) places' := by
  obtain ⟨_, returned', changes, canvas⟩ := attends.settled.unmounts place
  obtain ⟨-, rfl⟩ := returned.unique returned'
  refine attends.redrawn nofun (changes.settled attends.settled) (by simp only [HomemadeAll]) rfl rfl
    fun staged => ?_
  rw [canvas]
  exact Canvas.restages_removeAll (attends.homemade place) place staged

theorem edit {dom : D} (overlooks : s.document.Overlooks (Made past) (Documented.document dom)) :
    Attends (past ++ [⟨s, .edited, { s with dom }⟩]) { s with dom } scene places := by
  have same : ∀ n, Made (past ++ [⟨s, .edited, { s with dom }⟩]) n ↔ Made past n := fun n => by
    rw [made_append]
    exact or_iff_left fun makes => makes.1 rfl
  have untouched : ∀ n, Made past n → Untouched s.canvas ({ s with dom } : Renderer D σ).canvas n :=
    fun n made => ⟨overlooks.worn n made, rfl⟩
  have staged := attends.staged
  refine ⟨attends.settled.of_same rfl rfl rfl (Nat.le_refl _), attends.homemade, attends.distinct,
    attends.all, ⟨fun n late => staged.unbound n (Nat.lt_of_le_of_lt overlooks.issued late), fun x member => ?_,
      staged.distinct⟩, attends.bound, fun n made => ?_, fun n => ?_⟩
  · have known := (attends.accounted x.1).mpr (List.mem_map_of_mem member)
    exact (staged.plays x member).congr (untouched x.1 known.2)
  · exact Nat.le_trans (attends.issued n ((same n).mp made)) overlooks.issued
  · rw [same, ← attends.accounted]
    refine and_congr_left fun made => ?_
    rw [← document_canvas, ← document_canvas, (untouched n made).contains]

theorem moves {happening : Occurrence δ} (moves : Moves program agenda s happening ending t)
    (respects : (⟨s, happening, t⟩ : Episode D σ).Respects past) :
    ∃ scene' places', Attends (past ++ [⟨s, happening, t⟩]) t scene' places' := by
  have settled := attends.settled
  cases moves with
  | act acts =>
      have calm := Undisturbed.acts acts
      exact ⟨scene, places, attends.calm nofun (settled.undisturbed calm) calm.dom calm.binder⟩
  | @render tree place _ trials r _ renders =>
      obtain ⟨u, ⟨e, -, rfl, reverts⟩ | ⟨plans, -, rfl, -, patches⟩⟩ := settled.render_cases renders
      · exact ⟨scene, places, attends.reverted nofun reverts⟩
      · exact attends.patched nofun respects.plain patches (Canvas.restages_redrawAll plans place none)
  | unmount returned => exact ⟨_, attends.unmounted returned⟩
  | flush => exact ⟨scene, places, attends.calm nofun (settled.of_same rfl rfl rfl (Nat.le_succ _)) rfl rfl⟩
  | task => exact ⟨scene, places, attends.calm nofun (settled.of_same rfl rfl rfl (Nat.le_succ _)) rfl rfl⟩
  | vainTask =>
      exact ⟨scene, places, attends.calm nofun (settled.of_same rfl rfl rfl (Nat.le_refl _)) rfl rfl⟩
  | passOver => exact ⟨scene, places, attends.calm nofun settled rfl rfl⟩
  | retry found live _ rerenders =>
      have registered := settled.find?_of_isLive found live
      obtain ⟨u, ⟨e, -, rfl, reverts⟩ | ⟨rendered, -, rfl, place, spot, tree, output, same, whole, -, patches⟩⟩ :=
        settled.rerender_cases found registered rerenders
      · exact ⟨scene, places, attends.reverted nofun reverts⟩
      · refine attends.patched nofun respects.plain patches fun homemade made staged => ?_
        rw [same] at homemade staged ⊢
        rw [redrawnAt] at made
        have inside := homemade_of_fill spot homemade
        have inside' := homemade_of_fill spot made
        rw [Homemade] at inside inside'
        rw [redrawnAt]
        refine Canvas.restages_fill spot staged fun staged => ?_
        rw [roles] at staged
        rw [roles, roles]
        exact Canvas.restages_redrawAll rendered.output (spot.place place) (u.canvas.after output) inside inside'
          staged
  | edit dom => exact ⟨scene, places, attends.edit (respects.edited rfl)⟩

end Attends

/-- The books on listeners are in order. Every live node that the renderer made is recorded once; there is
bookkeeping for the recorded elements and nothing else; each of them has for every category just the handler
that the books tell of; and the count is that of all listeners on nodes that the renderer made. -/
structure Attended (past : List (Episode D σ)) (s : Renderer D σ) : Prop where
  balanced : Balanced past s
  bound : ∀ n : NodeId, s.binder[n]? ≠ none ↔ n ∈ s.elements
  handlers : ∀ n ∈ s.elements, ∀ category,
    s.document.handlers n category = (s.binder.listener? n category).toList
  counted : s.listenerCount = (s.recorded.map fun n => (s.document.attached n).length).sum

omit [Documented D] in
theorem Settled.mem_elements (settled : Settled s scene) :
    n ∈ s.elements ↔ ∃ place, n ∈ elementsAll (scene place) := by
  have perm : s.elements.Perm (s.places.flatMap fun place => elementsAll (scene place)) :=
    settled.perm_mounted fun place => (settled.stands place).perm_elements
  rw [perm.mem_iff, List.mem_flatMap, Scene.exists_mem_places settled.listed rfl]

namespace Attends

variable (attends : Attends past s scene places)

include attends

theorem mem_recorded : n ∈ s.recorded ↔ n ∈ (scene.roles places).map Prod.fst :=
  attends.settled.mem_recorded.trans (Scene.mem_map_fst_roles attends.all).symm

theorem nodup_recorded : s.recorded.Nodup := by
  have distinct := attends.staged.distinct
  rw [Scene.roles, List.map_flatMap, List.nodup_flatMap] at distinct
  obtain ⟨each, apart⟩ := distinct
  have member : ∀ place ∈ s.places, place ∈ places := fun place shown =>
    attends.all place (attends.settled.mem_places.mp shown)
  simp only [map_fst_rolesAll] at each apart
  have symmetric : Std.Symm fun one two : NodeId =>
      (nodesAll (scene one)).Disjoint (nodesAll (scene two)) := ⟨fun _ _ apart => apart.symm⟩
  have different : ∀ one ∈ places, ∀ two ∈ places, one ≠ two →
      (nodesAll (scene one)).Disjoint (nodesAll (scene two)) := fun one first two second =>
    List.Pairwise.forall (R := fun one two => (nodesAll (scene one)).Disjoint (nodesAll (scene two)))
      apart first second
  rw [attends.settled.perm_recorded.nodup_iff, List.nodup_flatMap]
  refine ⟨fun place shown => each place (member place shown), ?_⟩
  exact s.nodup_places.imp_of_mem fun one two other => different _ (member _ one) _ (member _ two) other

theorem size_attached (member : n ∈ s.recorded) :
    (s.binder[n]?.map (·.listeners.size)).getD 0 = (s.document.attached n).length := by
  obtain ⟨role, plays⟩ := attends.staged.plays_of_mem (attends.mem_recorded.mp member)
  have seen : s.canvas.binder = s.binder ∧ s.canvas.document = s.document := ⟨rfl, rfl⟩
  cases role with
  | text =>
      obtain ⟨⟨content, found⟩, unbound⟩ := plays
      rw [seen.1] at unbound
      rw [seen.2, Document.text?_eq_some] at found
      have no_element : s.document.element? n = none := by
        rw [Document.element?, found]
      rw [unbound, Document.attached, no_element]
      rfl
  | blank =>
      obtain ⟨⟨e, found, wears⟩, unbound⟩ := plays
      rw [seen.1] at unbound
      rw [seen.2] at found
      rw [unbound, Document.attached, found]
      exact (wears.listeners.length_eq).symm
  | element =>
      obtain ⟨e, b, found, bound, wears⟩ := plays
      rw [seen.1] at bound
      rw [seen.2] at found
      rw [bound, Document.attached, found]
      exact (wears.listeners.length_eq).symm

theorem attended : Attended past s where
  balanced := ⟨attends.nodup_recorded, fun n => attends.mem_recorded.trans (attends.accounted n).symm⟩
  bound n := by
    rw [attends.settled.mem_elements]
    simp only [mem_elementsAll]
    constructor
    · intro there
      obtain ⟨⟨_, role⟩, member, rfl⟩ := List.mem_map.mp (attends.bound n there)
      obtain ⟨place, inside⟩ := (Scene.mem_roles attends.all).mp member
      have plays := attends.staged.plays _ member
      cases role with
      | text => exact absurd plays.2 there
      | blank => exact absurd plays.2 there
      | element tag attributes => exact ⟨place, tag, attributes, inside⟩
    · rintro ⟨place, tag, attributes, inside⟩ unbound
      obtain ⟨_, _, _, bound, _⟩ := attends.staged.plays _ ((Scene.mem_roles attends.all).mpr ⟨place, inside⟩)
      cases bound.symm.trans unbound
  handlers n member category := by
    obtain ⟨place, inside⟩ := attends.settled.mem_elements.mp member
    obtain ⟨tag, attributes, inside⟩ := mem_elementsAll.mp inside
    obtain ⟨e, b, found, bound, wears⟩ :=
      attends.staged.plays _ ((Scene.mem_roles attends.all).mpr ⟨place, inside⟩)
    have found : s.document.element? n = some e := found
    have bound : s.binder[n]? = some b := bound
    rw [Document.handlers, found, Binder.listener?, bound]
    exact wears.handlers_eq category
  counted := by
    rw [listenerCount, Binder.listenerCount_eq s.binder attends.nodup_recorded fun n there =>
      attends.mem_recorded.mpr (attends.bound n there)]
    exact congrArg List.sum (List.map_congr_left fun n member => attends.size_attached member)

/-- Once all that showed anything is taken down, no listener is left on the books. -/
theorem unmounts_each (rest : List NodeId) (all : ∀ place, scene place ≠ [] → place ∈ rest) :
    ∃ t, Returns (perform (top program) (Action.unmountEach rest)) s () t ∧ t.listenerCount = 0 := by
  induction rest generalizing past s scene places with
  | nil =>
      refine ⟨s, returns_pure.mpr ⟨rfl, rfl⟩, ?_⟩
      have nothing : s.recorded = [] := List.eq_nil_iff_forall_not_mem.mpr fun n member => by
        obtain ⟨place, inside⟩ := attends.settled.mem_recorded.mp member
        have empty : scene place = [] := Classical.byContradiction fun shown =>
          List.not_mem_nil (all place shown)
        rw [empty] at inside
        cases inside
      rw [attends.attended.counted, nothing]
      rfl
  | cons place rest ih =>
      obtain ⟨u, returned, -, -⟩ := attends.settled.unmounts place
      obtain ⟨_, attends'⟩ := attends.unmounted returned
      obtain ⟨t, rested, none_left⟩ := ih attends' fun other shown => by
        rw [Function.update_apply] at shown
        split at shown
        next => exact absurd rfl shown
        next different => exact (List.mem_cons.mp (all other shown)).resolve_left different
      exact ⟨t, returned.bind rested, none_left⟩

theorem course (course : Course program agenda s more ending t)
    (respects : Throughout Respects (past ++ more))
    (kept : Throughout (fun past episode => Attended (past ++ [episode]) episode.after) past) :
    (∃ scene' places', Attends (past ++ more) t scene' places') ∧
      Throughout (fun past episode => Attended (past ++ [episode]) episode.after) (past ++ more) := by
  induction course generalizing past scene places with
  | nil =>
      rw [List.append_nil]
      exact ⟨⟨scene, places, attends⟩, kept⟩
  | @cons agenda s happening between t more ending u moves _ ih =>
      obtain ⟨_, _, next⟩ := attends.moves moves (respects _ _ _ rfl)
      have split : past ++ ⟨s, happening, t⟩ :: more = (past ++ [⟨s, happening, t⟩]) ++ more := by
        rw [List.append_assoc, List.singleton_append]
      rw [split] at respects ⊢
      exact ih next respects (kept.snoc next.attended)

end Attends

namespace Run

theorem attends (run : Run program episodes s) (respects : Throughout Respects episodes) :
    (∃ scene places, Attends episodes s scene places) ∧
      Throughout (fun past episode => Attended (past ++ [episode]) episode.after) episodes := by
  induction run with
  | new dom store => exact ⟨⟨_, _, .new dom store⟩, .nil⟩
  | call _ _ course ih | idle _ _ course ih | dispatch _ _ course ih =>
      obtain ⟨⟨_, _, attends⟩, kept⟩ := ih respects.of_append
      exact attends.course course respects kept
  | @edit episodes v dom run ih =>
      obtain ⟨⟨_, _, attends⟩, kept⟩ := ih respects.of_append
      have course : Course program [] v [⟨v, .edited, { v with dom }⟩] [] { v with dom } :=
        (Moves.edit dom).course
      exact attends.course course respects kept

/-- Along a run in which nothing adopted is mounted and the page does not change what the renderer made, the
books on listeners are in order after every move, wherever anything was rendered to. Once all containers are
unmounted, no listener is left. -/
theorem listeners_match (run : Run program episodes s) (respects : Throughout Respects episodes) :
    (∀ past episode rest, episodes = past ++ episode :: rest →
      Attended (past ++ [episode]) episode.after) ∧
    Attended episodes s ∧
    ∀ places, s.places ⊆ places →
      ∃ t, Returns (perform (top program) (Action.unmountEach places)) s () t ∧ t.listenerCount = 0 := by
  obtain ⟨⟨_, _, attends⟩, kept⟩ := run.attends respects
  exact ⟨kept, attends.attended, fun places all => attends.unmounts_each places fun place shown =>
    all (attends.settled.mem_places.mpr shown)⟩

end Run

/-- A button and a field with a listener each give way to a button with another handler. -/
theorem button_keeps_one_listener :
    let button (h : Handler) : Tree := .element "button" (.ofList [("onclick", .handler h)]) [.text (.text "Go")]
    let one : Tree := .fragment [button ⟨1⟩, .element "input" (.ofList [("onfocus", .handler ⟨2⟩)]) []]
    let two : Tree := button ⟨3⟩
    let s : Renderer Document Unit := new Document.empty.createContainer.2 ()
    ∃ (t u : Renderer Document Unit) (first second : List (Trial .scalars)),
      Returns (render counter one ⟨1⟩) s (.ok ()) t ∧ Returns (render counter two ⟨1⟩) t (.ok ()) u ∧
      t.listenerCount = 2 ∧ u.listenerCount = 1 ∧ u.elements = [⟨2⟩] ∧
      u.document.handlers ⟨2⟩ .click = [⟨3⟩] ∧
      Attended [⟨s, .rendered one ⟨1⟩ first (.ok ()), t⟩, ⟨t, .rendered two ⟨1⟩ second (.ok ()), u⟩] u ∧
      ∃ v, Returns (perform (top counter) (Action.unmountEach [⟨1⟩])) u () v ∧ v.listenerCount = 0 := by
  intro button one two s
  obtain ⟨t, u, first, second, early, late, checked, run, tended⟩ := run_of_checkTwice
    Document.empty.createContainer.2 () one two ⟨1⟩
    (fun t u => t.listenerCount = 2 ∧ u.listenerCount = 1 ∧ u.elements = [⟨2⟩] ∧ u.places = [⟨1⟩] ∧
      u.document.handlers ⟨2⟩ .click = [⟨3⟩]) quiet_counter
    (Document.Linked.empty.create _) rfl (by decide +kernel)
  obtain ⟨before, after, elements, places, click⟩ := of_decide_eq_true checked
  have respects := Throughout.respects tended fun page member => by
    obtain rfl | rfl := List.mem_pair.mp member <;> exact nofun
  obtain ⟨-, attended, emptied⟩ := run.listeners_match respects
  exact ⟨t, u, first, second, early, late, before, after, elements, click, attended,
    emptied [⟨1⟩] (places ▸ List.Subset.refl _)⟩

end Renderer
end Patchwork
