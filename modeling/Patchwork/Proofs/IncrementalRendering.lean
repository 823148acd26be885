import Patchwork.Proofs.ComponentExpansion
import Patchwork.Proofs.TendedDocuments

/-! Patching what is shown comes to the same as building it from scratch. After every move a container
has beneath it what it had when it was first used, and after that what a fresh renderer would show for
the tree that was last rendered there, with its components spelled out. -/
namespace Patchwork

open Picture

namespace Episode

variable {D σ : Type} {δ : StateData} [HasStateData σ δ] [Documented D] {past episodes : List (Episode D σ)}

omit [Documented D] in
/-- Something is rendered into the container, whether or not it takes effect. -/
def enters (place : NodeId) (episode : Episode D σ) : Bool :=
  match episode.happening with
  | .rendered _ there _ _ => there = place
  | _ => false

omit [Documented D] in
/-- The state in which a container was first used. -/
def entered? (past : List (Episode D σ)) (place : NodeId) : Option (Renderer D σ) :=
  (past.find? (enters place)).map Episode.before

omit [Documented D] in
theorem entered?_append (past : List (Episode D σ)) (episode : Episode D σ) (place : NodeId) :
    entered? (past ++ [episode]) place =
      (entered? past place).or (if episode.enters place then some episode.before else none) := by
  rw [entered?, entered?, List.find?_append]
  cases past.find? (enters place) with
  | some first => rfl
  | none =>
      rw [List.find?_singleton]
      cases episode.enters place <;> rfl

omit [Documented D] in
theorem positions_of_not_entered (never : entered? past place = none) : positions past place = [] := by
  induction past using List.reverseRecOn with
  | nil => rfl
  | append_singleton past episode ih =>
      rw [entered?_append, Option.or_eq_none_iff] at never
      have before := ih never.1
      have other : ∀ tree there trials r, episode.happening = .rendered tree there trials r →
          place ≠ there := by
        rintro tree there trials r rendered rfl
        simp only [enters, rendered, decide_true, if_true, reduceCtorEq, and_false] at never
      rw [positions_append]
      cases happened : episode.happening with
      | rendered tree there trials result =>
          cases result with
          | ok => rw [Renderer.positionsAfter, Function.update_of_ne (other _ _ _ _ happened), before]
          | error => exact before
      | unmounted there =>
          rw [Renderer.positionsAfter, Function.update_apply]
          split
          · rfl
          · exact before
      | _ => exact before

omit [Documented D] in
theorem entered?_cases {episode : Episode D σ} (entered : entered? (past ++ [episode]) place = some start) :
    entered? past place = some start ∨ entered? past place = none ∧ start = episode.before ∧
      ∃ tree trials r, episode.happening = .rendered tree place trials r := by
  rw [entered?_append, Option.or_eq_some_iff] at entered
  refine entered.imp_right fun ⟨never, now⟩ => ?_
  rw [Option.ite_none_right_eq_some] at now
  obtain ⟨enters, now⟩ := now
  obtain ⟨before, happening, after⟩ := episode
  cases happening with
  | rendered tree there trials r =>
      cases of_decide_eq_true enters
      exact ⟨never, (Option.some.inj now).symm, tree, trials, r, rfl⟩
  | _ => cases enters

/-- The page leaves the children of the containers that are in use to the renderer. -/
def LeavesContainers (past : List (Episode D σ)) (episode : Episode D σ) : Prop :=
  episode.happening = .edited → ∀ place start, entered? past place = some start →
    episode.after.document.children place = episode.before.document.children place

end Episode

namespace Renderer

variable {D σ : Type} {δ : StateData} [HasStateData σ δ] [Documented D] {program : Program σ} {s t : Renderer D σ}
  {scene scene' : Scene}
  {past episodes : List (Episode D σ)}

open Episode (Made made_append Throughout Tended LeavesContainers entered?)

theorem Recounts.issued_le (recounts : Recounts past ⟨s, happening, t⟩ scene scene')
    (tended : (⟨s, happening, t⟩ : Episode D σ).Tended past) : s.document.issued ≤ t.document.issued := by
  by_cases edited : happening = .edited
  · exact (tended.edited edited).issued
  · cases recounts.shifts edited with
    | still dom => exact Nat.le_of_eq (congrArg (Document.issued ∘ Documented.document) dom.symm)
    | repaint _ _ repaints => exact repaints.issued

/-- What is shown in a container comes after what was there before, as long as the page leaves it there. -/
theorem Recounts.children (recounts : Recounts past ⟨s, happening, t⟩ scene scene')
    (foreign : ¬ Made past place) (early : place.index ≤ s.document.issued)
    (leaves : happening = .edited → t.document.children place = s.document.children place)
    (was : s.document.children place = front ++ topsAll (scene place)) :
    t.document.children place = front ++ topsAll (scene' place) := by
  by_cases edited : happening = .edited
  · rw [leaves edited, recounts.edited edited, was]
  cases recounts.shifts edited with
  | still dom _ same => rw [show t.document = s.document from congrArg Documented.document dom, was, same]
  | repaint here container repaints others =>
      by_cases same : place = here
      · subst same
        rw [← List.append_nil (topsAll (scene place))] at was
        have last : ([] : List NodeId).head? = none := rfl
        have all := repaints.children (recounts.before.depicted.hangs container) last was
        rwa [List.append_nil] at all
      · have old : place ∉ nodesAll (scene here) := fun member => foreign (recounts.before.made member)
        have new : place ∉ nodesAll (scene' here) := fun member =>
          (repaints.within place member).elim old (Nat.not_lt_of_le early)
        obtain ⟨-, -, children, -, -⟩ := Document.views_of_node? (repaints.others place old new same)
        rw [others place same, ← was]
        exact children

/-- A container that is in use has beneath it what it had before, and then what is shown. -/
structure Filled (past : List (Episode D σ)) (s : Renderer D σ) (scene : Scene) : Prop where
  children : ∀ place start, entered? past place = some start →
    s.document.children place = start.document.children place ++ topsAll (scene place)
  foreign : ∀ place start, entered? past place = some start →
    ¬ Made past place ∧ place.index ≤ s.document.issued

theorem Filled.went (filled : Filled past s scene) (recounts : Recounts past ⟨s, happening, t⟩ scene scene')
    (tended : (⟨s, happening, t⟩ : Episode D σ).Tended past)
    (leaves : LeavesContainers past ⟨s, happening, t⟩) : Filled (past ++ [⟨s, happening, t⟩]) t scene' := by
  have foreign : ∀ place start, entered? (past ++ [⟨s, happening, t⟩]) place = some start →
      ¬ Made past place ∧ place.index ≤ s.document.issued := by
    intro place start entered
    rcases Episode.entered?_cases entered with old | ⟨-, -, tree, trials, r, rendered⟩
    · exact filled.foreign place start old
    · obtain ⟨⟨e, holder⟩, foreign⟩ := tended.container tree place trials r rendered
      exact ⟨foreign, Canvas.index_le_issued (Document.contains_of_element? holder)⟩
  refine ⟨fun place start entered => ?_, fun place start entered => ?_⟩
  · obtain ⟨unmade, early⟩ := foreign place start entered
    rcases Episode.entered?_cases entered with old | ⟨never, rfl, tree, trials, r, rendered⟩
    · exact recounts.children unmade early (fun edited => leaves edited place start old)
        (filled.children place start old)
    · -- Nothing is shown yet in a container that is new.
      have shown : flats (scene place) = [] :=
        (congrFun recounts.before.positions place).trans (Episode.positions_of_not_entered never)
      refine recounts.children unmade early (fun edited => ?_) ?_
      · cases rendered.symm.trans edited
      · cases pictures : scene place with
        | nil => rw [topsAll, List.append_nil]
        | cons p ps =>
            rw [pictures] at shown
            cases shown
  · obtain ⟨unmade, early⟩ := foreign place start entered
    refine ⟨fun made => ?_, Nat.le_trans early (recounts.issued_le tended)⟩
    rcases (made_append ..).mp made with old | new
    · exact unmade old
    · exact Nat.not_lt_of_le early new.2.1

theorem Story.filled (story : Story past s scene) (tended : Throughout Tended past)
    (leaves : Throughout LeavesContainers past) : Filled past s scene := by
  induction story with
  | begun => exact ⟨nofun, nofun⟩
  | went _ recounts ih =>
      exact (ih tended.of_append leaves.of_append).went recounts tended.last leaves.last

/-- The nodes show what a fresh renderer builds for the positions in an empty element of any document,
unless it finds something to adopt there. -/
def BuiltAlike (program : Program σ) (positions : List Flat) (d : Document) (ns : List NodeId) : Prop :=
  ∀ (E : Type) [Documented E] (dom : E) (store : σ) (root : NodeId), (Documented.document dom).Linked →
    (∃ e, (Documented.document dom).element? root = some e) → (Documented.document dom).children root = [] →
    ∃ u, Returns (render program (Flat.page positions) root) (new dom store) (.ok ()) u ∧
      (u.Plain → List.Forall₂ (d.Alike u.document) ns (u.document.children root))

theorem builtAlike {d : Document} {binder : Binder} {ps : List Picture} (discreet : program.Discreet)
    (shown : SeenAll d binder ps) (bare : Flat.BareAll (expandedAll ps)) :
    BuiltAlike program (expandedAll ps) d (topsAll ps) := by
  intro E _ dom store root linked holder empty
  let fresh : Renderer E σ := new dom store
  obtain ⟨u, returned, renders⟩ : ∃ u, Returns (render program (Flat.page (expandedAll ps)) root) fresh (.ok ()) u ∧
      Renders program (Flat.page (expandedAll ps)) root fresh [] (.ok ()) u :=
    (Settled.new dom store).builds rfl bare
  refine ⟨u, returned, fun plain => ?_⟩
  let mount : Episode E σ := ⟨fresh, .rendered (Flat.page (expandedAll ps)) root [] (.ok ()), u⟩
  have tended : mount.Tended [] := .render (fun _ => linked) (Option.isSome_iff_exists.mpr holder)
    Episode.not_made_nil plain
  have story : Story [] fresh Scene.empty := .begun (.new store linked)
  obtain ⟨scene, recounts⟩ := story.displays.moves discreet (.render renders) tended
  have told := story.went recounts
  have filled := told.filled (Throughout.nil.snoc tended) (Throughout.nil.snoc nofun)
  have entered : entered? [mount] root = some fresh := by
    simp only [entered?, List.find?_singleton, Episode.enters, mount, decide_true, if_true, Option.map_some]
  have children := filled.children root fresh entered
  rw [show fresh.document.children root = [] from empty, List.nil_append] at children
  rw [children]
  refine shown.alike (told.displays.depicted.shown root) ?_
  have positions := congrFun told.displays.positions root
  rw [Episode.positions_append] at positions
  refine positions.trans ?_
  simp only [positionsAfter, Function.update_self, Flat.flatten_page]

/-- After every move of a run that the page tends to, a container that was ever used has beneath it what
it had when it was first used, followed by what a fresh renderer builds for the tree that was last
rendered there, with the components spelled out as they were committed. -/
theorem Run.patching_equals_building (run : Run program episodes s) (discreet : program.Discreet)
    (tended : Throughout Tended episodes) (leaves : Throughout LeavesContainers episodes)
    (sound : episodes = [] → s.document.Linked) :
    ∀ past episode rest, episodes = past ++ episode :: rest →
      ∀ place start, entered? (past ++ [episode]) place = some start →
        ∃ shown expanded,
          episode.after.document.children place = start.document.children place ++ shown ∧
          Expands episode.after.activations ((episode.after.roots.get? place).getD [])
            (Episode.positions (past ++ [episode]) place) expanded ∧
          BuiltAlike program expanded episode.after.document shown := by
  intro past episode rest same place start entered
  obtain ⟨_, story⟩ := run.story discreet tended sound
  obtain ⟨_, scene, -, -, story⟩ := story.recounts same
  have begun : episodes = (past ++ [episode]) ++ rest := by
    rw [same, List.append_assoc, List.singleton_append]
  rw [begun] at tended leaves
  have filled := story.filled tended.of_append leaves.of_append
  obtain ⟨settled, depicted, positions, -, -⟩ := story.displays
  have expands := (settled.stands place).expands
  refine ⟨topsAll (scene place), expandedAll (scene place), filled.children place start entered, ?_,
    builtAlike discreet (depicted.shown place) expands.bareAll⟩
  rwa [settled.mounted, ← positions]

/-- A heading stays in front while a counter in a paragraph gives way to a counter and a text. -/
theorem heading_then_last_page :
    let count : Tree := .component ⟨⟨0, "counter"⟩, none⟩
    let one : Tree := .element "p" (.ofList [("title", .text "first")]) [.text (.text "Count: "), count]
    let two : Tree := .fragment [count, .fragment [.text (.text "last")]]
    let headed : Document :=
      (((Document.empty.createElement "div").2.createElement "h1").2.insertBefore ⟨1⟩ ⟨2⟩ none).value
    ∃ t u : Renderer Document Unit, Returns (render counter one ⟨1⟩) (new headed ()) (.ok ()) t ∧
      Returns (render counter two ⟨1⟩) t (.ok ()) u ∧
      u.document.children ⟨1⟩ = [⟨2⟩, ⟨6⟩, ⟨7⟩] ∧
      ∃ shown expanded, u.document.children ⟨1⟩ = [⟨2⟩] ++ shown ∧
        Expands u.activations ((u.roots.get? ⟨1⟩).getD []) two.flatten expanded ∧
        BuiltAlike counter expanded u.document shown := by
  intro count one two headed
  obtain ⟨t, u, first, second, early, late, checked, run, tended⟩ := run_of_checkTwice headed () one two ⟨1⟩
    (fun _ u => u.document.children ⟨1⟩ = [⟨2⟩, ⟨6⟩, ⟨7⟩]) quiet_counter
    (((Document.Linked.empty.create _).create _).insertBefore ⟨1⟩ ⟨2⟩ none) rfl (by decide +kernel)
  have leaves : Throughout LeavesContainers
      [(⟨new headed (), .rendered one ⟨1⟩ first (.ok ()), t⟩ : Episode Document Unit)] :=
    Throughout.nil.snoc nofun
  obtain ⟨shown, expanded, children, expands, built⟩ := run.patching_equals_building discreet_counter tended
    (leaves.snoc nofun) nofun [_] _ [] rfl ⟨1⟩ _ rfl
  exact ⟨t, u, early, late, of_decide_eq_true checked, shown, expanded, children, expands, built⟩

end Renderer
end Patchwork
