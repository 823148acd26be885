import Patchwork.Proofs.TendedDocuments

/-! The nodes that are on record. Every live node that the renderer made is recorded in one mounted entry,
and every recorded node is live. All that the renderer asks of the document makes sense, and once nothing
is mounted any more, nothing is left of what it made. -/
namespace Patchwork

open Picture

namespace Mounted

mutual

/-- The live nodes that are recorded in an entry. A component's are in its activation's output. -/
def recorded : Mounted → List NodeId
  | text node | raw node _ => [node]
  | element node _ children => node :: recordedAll children
  | component _ => []

def recordedAll : List Mounted → List NodeId
  | [] => []
  | m :: rest => recorded m ++ recordedAll rest

end

end Mounted

def Renderer.recorded {D σ : Type} {δ : StateData} [HasStateData σ δ] (s : Renderer D σ) : List NodeId :=
  s.roots.toList.flatMap (fun root => Mounted.recordedAll root.2) ++
    s.activations.registered.flatMap fun a => Mounted.recordedAll (s.activations.output a)

namespace Picture

variable {as : Activations}

def recordedBy (as : Activations) (xs : List ActivationId) : List NodeId :=
  xs.flatMap fun a => Mounted.recordedAll (as.output a)

mutual

/-- A picture's nodes are recorded in its entry and in the outputs of its activations. -/
theorem Stands.perm_nodes : ∀ {p : Picture} {place above}, Stands as place above p →
    (nodes p).Perm (p.entry.recorded ++ recordedBy as (activations p))
  | .text .., _, _, _ | .raw .., _, _, _ | .missing .., _, _, _ => by
      simp only [nodes, entry, Mounted.recorded, activations, recordedBy, List.flatMap_nil, List.append_nil,
        List.Perm.refl]
  | .element _ _ _ children, _, _, stands => by
      rw [stands_element] at stands
      rw [nodes, entry, Mounted.recorded, activations, List.cons_append]
      exact (StandAll.perm_nodes stands).cons _
  | .component a _ _ _ output, _, _, stands => by
      obtain ⟨-, ⟨r, found, shows⟩, -, inner⟩ := stands_component.mp stands
      have holds := (Activations.output_eq found).trans shows.output
      rw [nodes, entry, Mounted.recorded, activations, recordedBy, List.flatMap_cons, List.nil_append,
        holds]
      exact StandAll.perm_nodes inner

theorem StandAll.perm_nodes : ∀ {ps : List Picture} {place above}, StandAll as place above ps →
    (nodesAll ps).Perm (Mounted.recordedAll (entries ps) ++ recordedBy as (activationsAll ps))
  | [], _, _, _ => .nil
  | p :: rest, _, _, stands => by
      rw [standAll_cons] at stands
      have one := stands.1.perm_nodes
      have others := stands.2.perm_nodes
      rw [nodesAll, entries, Mounted.recordedAll, activationsAll, recordedBy, List.flatMap_append]
      refine (one.append others).trans ?_
      simp only [List.append_assoc]
      exact List.Perm.append_left _ (List.perm_append_comm_assoc ..)

end

end Picture

namespace Renderer

variable {D σ : Type} {δ : StateData} [HasStateData σ δ] {s t : Renderer D σ} {scene : Scene}

def places (s : Renderer D σ) : List NodeId := s.roots.toList.map Prod.fst

theorem nodup_places (s : Renderer D σ) : s.places.Nodup := by
  refine List.Pairwise.map _ (fun a b less same => ?_) s.roots.increasing
  simp only [same, Std.ReflCmp.compare_self, reduceCtorEq] at less

namespace Settled

theorem mem_places (settled : Settled s scene) : place ∈ s.places ↔ scene place ≠ [] := by
  rw [places, List.mem_map]
  constructor
  · rintro ⟨⟨other, es⟩, member, rfl⟩ nothing
    have found := Dict.get?_eq_some.mpr member
    rw [settled.roots, nothing] at found
    cases found
  · exact fun shown => ⟨_, settled.mem_roots shown, rfl⟩

theorem listed (settled : Settled s scene) : ∀ place, scene place ≠ [] → place ∈ s.places :=
  fun _ => settled.mem_places.mpr

theorem recordedAll_root (settled : Settled s scene) (member : root ∈ s.roots.toList) :
    root.2 = entries (scene root.1) := by
  have found := Dict.get?_eq_some.mpr member
  rw [settled.roots, Option.ite_none_left_eq_some] at found
  exact (Option.some.inj found.2).symm

theorem perm_registered (settled : Settled s scene) :
    s.activations.registered.Perm (s.places.flatMap fun place => activationsAll (scene place)) := by
  refine (List.perm_ext_iff_of_nodup ?_ ?_).mpr fun a => ?_
  · rw [Activations.registered_eq]
    exact (nodup_issuedBetween ..).filter _
  · rw [List.nodup_flatMap]
    exact ⟨fun place _ => settled.distinct place,
      s.nodup_places.imp fun different => settled.apart different⟩
  · rw [Activations.mem_registered, settled.isRegistered_iff, List.mem_flatMap,
      Scene.exists_mem_places settled.listed rfl]
    rfl

theorem perm_mounted {mounted : List Mounted → List α} {pictured : List Picture → List α}
    (settled : Settled s scene)
    (each : ∀ place, (pictured (scene place)).Perm (mounted (entries (scene place)) ++
      (activationsAll (scene place)).flatMap fun a => mounted (s.activations.output a))) :
    (s.roots.toList.flatMap (fun root => mounted root.2) ++
      s.activations.registered.flatMap fun a => mounted (s.activations.output a)).Perm
        (s.places.flatMap fun place => pictured (scene place)) := by
  have roots : s.roots.toList.flatMap (fun root => mounted root.2) =
      s.places.flatMap fun place => mounted (entries (scene place)) := by
    rw [places, List.flatMap_map]
    exact List.flatMap_congr fun root member => by rw [settled.recordedAll_root member]
  have outputs : (s.activations.registered.flatMap fun a => mounted (s.activations.output a)).Perm
      (s.places.flatMap fun place =>
        (activationsAll (scene place)).flatMap fun a => mounted (s.activations.output a)) := by
    refine (settled.perm_registered.flatMap_right _).trans ?_
    rw [List.flatMap_assoc]
  rw [roots]
  refine (outputs.append_left _).trans ((List.flatMap_append_perm ..).trans ?_)
  exact List.Perm.flatMap_left _ fun place _ => (each place).symm

theorem perm_recorded (settled : Settled s scene) :
    s.recorded.Perm (s.places.flatMap fun place => nodesAll (scene place)) :=
  settled.perm_mounted fun place => (settled.stands place).perm_nodes

theorem mem_recorded (settled : Settled s scene) :
    n ∈ s.recorded ↔ ∃ place, n ∈ nodesAll (scene place) := by
  rw [settled.perm_recorded.mem_iff, List.mem_flatMap, Scene.exists_mem_places settled.listed rfl]

end Settled

theorem Depicted.nodup_recorded [Documented D] (depicted : Depicted s scene)
    (settled : Settled s scene) : s.recorded.Nodup := by
  rw [settled.perm_recorded.nodup_iff, List.nodup_flatMap]
  exact ⟨fun place _ => depicted.distinct place,
    s.nodup_places.imp fun different => depicted.apart different⟩

end Renderer

def Action.unmountEach {σ : Type} {δ : StateData} [HasStateData σ δ] : List NodeId → Action σ Unit
  | [] => .done ()
  | place :: rest => .unmount place fun _ => unmountEach rest

namespace Renderer

open Episode (Made Throughout Tended made_append)

variable {D σ : Type} {δ : StateData} [HasStateData σ δ] [Documented D] {program : Program σ} {s t : Renderer D σ}
  {scene : Scene}
  {episodes past : List (Episode D σ)}

/-- A container is taken down: of what the renderer made, just what the other containers show is left. -/
theorem Displays.unmounts (displays : Displays past s scene) (place : NodeId) :
    ∃ t answer, Returns (unmount place) s answer t ∧
      Displays (past ++ [⟨s, .unmounted place, t⟩]) t (Function.update scene place []) ∧
      (∀ n, t.document.contains n = true → s.document.contains n = true) ∧
      ∀ n, ¬ Made past n → t.document.contains n = s.document.contains n := by
  obtain ⟨t, returned, -, -⟩ := displays.settled.unmounts place
  obtain ⟨settled', shifts, -⟩ := displays.settled.shifts_of_unmount displays.depicted returned
  have fewer : ∀ here, ∀ n ∈ nodesAll (Function.update scene place [] here), n ∈ nodesAll (scene here) := by
    intro here n member
    rw [Function.update_apply] at member
    split at member
    · cases member
    · exact member
  refine ⟨t, _, returned, displays.shifts nofun settled' shifts (flats_update ..), ?_⟩
  cases shifts with
  | still dom =>
      have document : t.document = s.document := congrArg Documented.document dom
      rw [document]
      exact ⟨fun _ => id, fun _ _ => rfl⟩
  | repaint here _ repaints others =>
      refine ⟨fun n there => ?_, fun n foreign => ?_⟩
      · rcases repaints.only there with left | ⟨-, old⟩
        · exact (displays.depicted.shown here).contains n (fewer here n left)
        · exact old
      · have old : n ∉ nodesAll (scene here) := fun member => foreign (displays.made member)
        exact repaints.contains old fun new => old (fewer here n new)

/-- Once all that showed anything is taken down, just what the renderer did not make is left. -/
theorem Displays.unmounts_each (displays : Displays past s scene) (places : List NodeId)
    (all : ∀ place, scene place ≠ [] → place ∈ places) :
    ∃ t, Returns (perform (top program) (Action.unmountEach places)) s () t ∧
      ∀ n, t.document.contains n = true ↔ s.document.contains n = true ∧ ¬ Made past n := by
  induction places generalizing past s scene with
  | nil =>
      have empty : ∀ place, scene place = [] := fun place =>
        Classical.byContradiction fun shown => List.not_mem_nil (all place shown)
      refine ⟨s, returns_pure.mpr ⟨rfl, rfl⟩, fun n => (and_iff_left_of_imp fun there made => ?_).symm⟩
      obtain ⟨place, member⟩ := (displays.accounted n).mp ⟨there, made⟩
      rw [empty place] at member
      cases member
  | cons place rest ih =>
      obtain ⟨u, answer, returned, displays', fewer, same⟩ := displays.unmounts place
      obtain ⟨t, rested, left⟩ := ih displays' fun other shown => by
        rw [Function.update_apply] at shown
        split at shown
        next => exact absurd rfl shown
        next different => exact (List.mem_cons.mp (all other shown)).resolve_left different
      refine ⟨t, returned.bind rested, fun n => (left n).trans ?_⟩
      rw [made_append, not_or]
      refine ⟨fun ⟨there, foreign, _⟩ => ⟨fewer n there, foreign⟩, fun ⟨there, foreign⟩ => ?_⟩
      refine ⟨(same n foreign).trans there, foreign, fun makes => ?_⟩
      exact Nat.not_lt_of_le (Canvas.index_le_issued there) makes.2.1

/-- The books balance: a node is recorded once, and it is recorded if and only if it is live and was made
by the renderer. -/
structure Balanced (past : List (Episode D σ)) (s : Renderer D σ) : Prop where
  once : s.recorded.Nodup
  live : ∀ n, n ∈ s.recorded ↔ s.document.contains n = true ∧ Made past n

theorem Displays.balanced (displays : Displays past s scene) : Balanced past s :=
  ⟨displays.depicted.nodup_recorded displays.settled,
    fun n => displays.settled.mem_recorded.trans (displays.accounted n).symm⟩

/-- Along a run in which the page tends to its document, whatever the renderer asks of the document makes
sense, and no move of its own raises an alarm. After every move the live nodes that it made are those on
record, each recorded once; and to unmount all containers leaves just the nodes that it did not make. -/
theorem Run.no_misuse_no_leak (run : Run program episodes s) (discreet : program.Discreet)
    (tended : Throughout Tended episodes) (sound : episodes = [] → s.document.Linked) :
    (∀ past episode rest, episodes = past ++ episode :: rest →
      (episode.happening ≠ .edited → Sensible episode.before episode.after) ∧
      (episode.Own → episode.after.canvas.alarms = episode.before.canvas.alarms) ∧
      Balanced (past ++ [episode]) episode.after) ∧
    Balanced episodes s ∧
    ∀ places, s.places ⊆ places →
      ∃ t, Returns (perform (top program) (Action.unmountEach places)) s () t ∧
        ∀ n, t.document.contains n = true ↔ s.document.contains n = true ∧ ¬ Made episodes n := by
  obtain ⟨scene, story⟩ := run.story discreet tended sound
  refine ⟨fun past episode rest same => ?_, story.displays.balanced, fun places all => ?_⟩
  · obtain ⟨_, _, -, recounts, -⟩ := story.recounts same
    exact ⟨recounts.sensible, recounts.calm, recounts.after.balanced⟩
  · exact story.displays.unmounts_each places fun place shown =>
      all (story.displays.settled.mem_places.mpr shown)

/-- Two pages follow one another in an audited document: a paragraph with a counter in it gives way to a
counter and a text. All that was asked made sense, and unmounting takes back all that was made. -/
theorem two_pages_leave_nothing :
    let count : Tree := .component ⟨⟨0, "counter"⟩, none⟩
    let one : Tree := .element "p" (.ofList [("title", .text "first")]) [.text (.text "Count: "), count]
    let two : Tree := .fragment [count, .text (.text "last")]
    let s : Renderer Audited Unit := new ⟨Document.empty.createContainer.2, []⟩ ()
    ∃ (t u : Renderer Audited Unit) (first second : List (Trial .scalars)),
      Returns (render counter one ⟨1⟩) s (.ok ()) t ∧ Returns (render counter two ⟨1⟩) t (.ok ()) u ∧
      (let pages : List (Episode Audited Unit) :=
        [⟨s, .rendered one ⟨1⟩ first (.ok ()), t⟩, ⟨t, .rendered two ⟨1⟩ second (.ok ()), u⟩]
      u.recorded = [⟨6⟩, ⟨5⟩] ∧ Balanced pages u ∧ (∀ page ∈ pages, Sensible page.before page.after) ∧
      ∃ v, Returns (perform (top counter) (Action.unmountEach [⟨1⟩])) u () v ∧
        ∀ n, v.document.contains n = true ↔ u.document.contains n = true ∧ ¬ Made pages n) := by
  intro count one two s
  obtain ⟨t, u, first, second, early, late, checked, run, tended⟩ := run_of_checkTwice
    (Audited.mk Document.empty.createContainer.2 []) () one two ⟨1⟩
    (fun _ u => u.places = [⟨1⟩] ∧ u.recorded = [⟨6⟩, ⟨5⟩]) quiet_counter
    (Document.Linked.empty.create _) rfl (by decide +kernel)
  obtain ⟨places, recorded⟩ := of_decide_eq_true checked
  obtain ⟨moves, balanced, emptied⟩ := run.no_misuse_no_leak discreet_counter tended nofun
  refine ⟨t, u, first, second, early, late, recorded, balanced, fun page member => ?_,
    emptied [⟨1⟩] (places ▸ List.Subset.refl _)⟩
  obtain ⟨past, rest, same⟩ := List.append_of_mem member
  refine (moves past page rest same).1 fun edited => ?_
  obtain rfl | rfl := List.mem_pair.mp member <;> cases edited

end Renderer
end Patchwork
