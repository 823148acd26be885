import Patchwork.Proofs.LiveScene
import Patchwork.Proofs.StateUpdates

/-! Pages that look after their document. A page may change its own nodes between the calls of the
renderer, and render into elements of its own; what the renderer made it leaves alone. Then the live
layer is as the scene says after every move. -/
namespace Patchwork

open Picture

/-- A document was changed, but none of the nodes that were `made` for someone else. What they are and
what they have beneath them is as it was, and so is the order of those in one parent. -/
structure Document.Spares (made : NodeId → Prop) (d d' : Document) : Prop where
  linked : d'.Linked
  issued : d.issued ≤ d'.issued
  /-- Handles are not issued again. -/
  gone : ∀ n : NodeId, n.index ≤ d.issued → d.contains n = false → d'.contains n = false
  look : ∀ n, made n → d.contains n = true → d'.look n = d.look n
  holder : ∀ p n, made n → n ∈ d.children p → ¬ made p → (∃ e, d.element? p = some e) →
    ∃ e, d'.element? p = some e
  order : ∀ (p : NodeId) (ns : List NodeId), (∀ n ∈ ns, made n) → ns.Sublist (d.children p) → ns.Sublist (d'.children p)

def Occurrence.leaves (happening : Occurrence δ) (place : NodeId) (before : Option Tree) : Option Tree :=
  match happening with
  | .rendered tree there _ (.ok _) => if place = there then some tree else before
  | .unmounted there => if place = there then none else before
  | _ => before

namespace Episode

variable {D σ : Type} {δ : StateData} [HasStateData σ δ] [Documented D] {s t : Renderer D σ}
  {past more episodes : List (Episode D σ)}

section Throughout
variable {holds : List (Episode D σ) → Episode D σ → Prop}

omit [Documented D]

/-- It holds of every move, after the moves before it. -/
def Throughout (holds : List (Episode D σ) → Episode D σ → Prop) (episodes : List (Episode D σ)) : Prop :=
  ∀ past episode rest, episodes = past ++ episode :: rest → holds past episode

namespace Throughout

theorem nil : Throughout holds [] := fun past _ _ same => by
  cases past <;> cases same

theorem of_append (all : Throughout holds (episodes ++ more)) : Throughout holds episodes :=
  fun past episode rest same =>
    all past episode (rest ++ more) (by rw [same, List.append_assoc, List.cons_append])

theorem last (all : Throughout holds (episodes ++ [episode])) : holds episodes episode := all _ _ [] rfl

theorem snoc (all : Throughout holds episodes) (last : holds episodes episode) :
    Throughout holds (episodes ++ [episode]) := by
  intro past later rest same
  rcases List.append_eq_append_iff.mp same with ⟨pre, rfl, parts⟩ | ⟨post, rfl, parts⟩
  · obtain ⟨rfl, parts⟩ | ⟨_, -, parts⟩ := List.append_eq_cons_iff.mp parts.symm
    · cases parts
      rwa [List.append_nil]
    · cases (List.append_eq_nil_iff.mp parts.symm).2
  · cases post with
    | nil =>
        cases parts
        rwa [List.append_nil] at last
    | cons first post =>
        obtain ⟨rfl, rfl⟩ := List.cons.inj parts
        exact all past later post rfl

end Throughout

end Throughout

/-- The node came into being during a move of the renderer. -/
def Makes (n : NodeId) (episode : Episode D σ) : Prop :=
  episode.happening ≠ .edited ∧ episode.before.document.issued < n.index ∧
    n.index ≤ episode.after.document.issued

/-- The renderer made the node. -/
def Made (past : List (Episode D σ)) (n : NodeId) : Prop := ∃ episode ∈ past, episode.Makes n

theorem not_made_nil : ¬ Made ([] : List (Episode D σ)) n := by
  rintro ⟨_, member, -⟩
  cases member

/-- The page does its part. It starts from a sound document; it renders into live elements that the
renderer did not make, and nothing that it could adopt; and it spares the nodes that the renderer
made. -/
structure Tended (past : List (Episode D σ)) (episode : Episode D σ) : Prop where
  started : past = [] → episode.before.document.Linked
  container : ∀ tree place trials r, episode.happening = .rendered tree place trials r →
    (∃ e, episode.before.document.element? place = some e) ∧ ¬ Made past place
  edited : episode.happening = .edited →
    episode.before.document.Spares (Made past) episode.after.document
  plain : episode.after.Plain

def Own (episode : Episode D σ) : Prop :=
  episode.happening ≠ .edited ∧ ∀ deeds, episode.happening ≠ .acted deeds

theorem Tended.render {trials : List (Trial δ)} (started : past = [] → s.document.Linked)
    (holder : (s.document.element? place).isSome = true) (foreign : ¬ Made past place) (plain : t.Plain) :
    Tended past ⟨s, .rendered tree place trials r, t⟩ where
  started := started
  container _ _ _ _ same := by
    cases same
    exact ⟨Option.isSome_iff_exists.mp holder, foreign⟩
  edited := nofun
  plain := plain

omit [Documented D] in
/-- The tree of the last render into a container that took effect, unless it was unmounted since. -/
def lastTree (past : List (Episode D σ)) (place : NodeId) : Option Tree :=
  past.foldl (fun before episode => episode.happening.leaves place before) none

omit [Documented D] in
/-- The positions that a container shows. -/
def positions (past : List (Episode D σ)) (place : NodeId) : List Flat :=
  (lastTree past place).elim [] Tree.flatten

omit [Documented D] in
theorem positions_append (past : List (Episode D σ)) (episode : Episode D σ) :
    positions (past ++ [episode]) = Renderer.positionsAfter episode.happening (positions past) := by
  refine funext fun place => ?_
  rw [positions, lastTree, List.foldl_append, List.foldl_cons, List.foldl_nil]
  change (episode.happening.leaves place (lastTree past place)).elim [] Tree.flatten = _
  cases happened : episode.happening with
  | rendered tree there trials result =>
      cases result with
      | ok =>
          simp only [Occurrence.leaves, Renderer.positionsAfter, Function.update_apply]
          split <;> rfl
      | error => rfl
  | unmounted there =>
      simp only [Occurrence.leaves, Renderer.positionsAfter, Function.update_apply]
      split <;> rfl
  | _ => rfl

theorem made_append (past : List (Episode D σ)) (episode : Episode D σ) (n : NodeId) :
    Made (past ++ [episode]) n ↔ Made past n ∨ episode.Makes n := by
  simp only [Made, List.mem_append, List.mem_singleton, or_and_right, exists_or, exists_eq_left]

end Episode

namespace Renderer

variable {D σ : Type} {δ : StateData} [HasStateData σ δ] [Documented D] {program : Program σ}
  {s t u : Renderer D σ} {scene : Scene}
  {past more episodes : List (Episode D σ)}

open Episode (Made made_append Throughout Tended)

/-- The live layer is as the scene says, and of the nodes that the renderer made just those of the scene
are live. -/
structure Displays (past : List (Episode D σ)) (s : Renderer D σ) (scene : Scene) : Prop where
  settled : Settled s scene
  depicted : Depicted s scene
  positions : (fun place => flats (scene place)) = Episode.positions past
  issued : ∀ n, Made past n → n.index ≤ s.document.issued
  accounted : ∀ n, (s.document.contains n = true ∧ Made past n) ↔ ∃ place, n ∈ nodesAll (scene place)

namespace Displays

theorem new {dom : D} (store : σ) (linked : (Documented.document dom).Linked) :
    Displays [] (new dom store) Scene.empty where
  settled := .new dom store
  depicted := by
    refine ⟨⟨linked, fun n _ => ?_⟩, fun _ => seenAll_nil.mpr trivial, fun _ => .nil,
      fun _ => List.disjoint_nil_left _, fun _ shown => absurd rfl shown,
      fun _ _ shown => absurd rfl shown, fun _ => List.nil_sublist _⟩
    exact Std.TreeMap.getElem?_emptyc
  positions := rfl
  issued _ made := (Episode.not_made_nil made).elim
  accounted n := by
    simp only [Scene.empty, nodesAll, List.not_mem_nil, exists_false, iff_false, not_and]
    exact fun _ => Episode.not_made_nil

variable (displays : Displays past s scene)

include displays

theorem made (member : n ∈ nodesAll (scene place)) : Made past n :=
  ((displays.accounted n).mpr ⟨place, member⟩).2

theorem container (holder : ∃ e, s.document.element? place = some e) (foreign : ¬ Made past place) :
    Container s scene place :=
  ⟨holder, fun _ member => foreign (displays.made member)⟩

theorem edit {dom : D} (spares : s.document.Spares (Made past) (Documented.document dom)) :
    Displays (past ++ [⟨s, .edited, { s with dom }⟩]) { s with dom } scene := by
  obtain ⟨settled, depicted, positions, issued, accounted⟩ := displays
  have same : ∀ n, Made (past ++ [⟨s, .edited, { s with dom }⟩]) n ↔ Made past n := fun n => by
    rw [made_append]
    exact or_iff_left fun makes => makes.1 rfl
  have document : ({ s with dom } : Renderer D σ).document = Documented.document dom := rfl
  have looks : ∀ {place n}, n ∈ nodesAll (scene place) →
      (Documented.document dom).look n = s.document.look n := fun {place n} member =>
    have known := (accounted n).mpr ⟨place, member⟩
    spares.look n known.2 known.1
  refine ⟨settled.of_same rfl rfl rfl (Nat.le_refl _), ⟨⟨spares.linked, fun n late => ?_⟩,
    fun place => ?_, depicted.distinct, depicted.apart, fun place shown => ?_, depicted.outside,
    fun place => ?_⟩, positions.trans (Episode.positions_append past ⟨s, .edited, _⟩).symm,
    fun n made => ?_, fun n => ?_⟩
  · exact depicted.sound.unbound n (Nat.lt_of_le_of_lt spares.issued late)
  · exact (depicted.shown place).congr fun n member => ⟨looks member, rfl⟩
  · -- The container is known by what hangs in it.
    obtain ⟨n, top⟩ := List.exists_mem_of_ne_nil _ ((depicted.shown place).tops_ne_nil shown)
    have made := ((accounted n).mpr ⟨place, mem_nodesAll_of_tops top⟩).2
    obtain ⟨e, found⟩ := depicted.holder place shown
    refine spares.holder place n made ((depicted.order place).subset top) (fun own => ?_) ⟨e, found⟩
    obtain ⟨other, inside⟩ := (accounted place).mp ⟨Document.contains_of_element? found, own⟩
    exact depicted.outside place other shown inside
  · refine spares.order place _ (fun n top => ?_) (depicted.order place)
    exact ((accounted n).mpr ⟨place, mem_nodesAll_of_tops top⟩).2
  · exact Nat.le_trans (issued n ((same n).mp made)) spares.issued
  · rw [same, ← accounted, document]
    refine and_congr_left fun made => ?_
    cases there : s.document.contains n with
    | false => simp only [spares.gone n (issued n made) there, Bool.false_eq_true]
    | true =>
        rw [Document.contains_eq_look, spares.look n made there, ← Document.contains_eq_look, there]

theorem shifts {scene' : Scene} {happening : Occurrence δ} (own : happening ≠ .edited)
    (settled : Settled t scene') (shifts : Shifts s t scene scene')
    (shown : (fun place => flats (scene' place)) =
      positionsAfter happening fun place => flats (scene place)) :
    Displays (past ++ [⟨s, happening, t⟩]) t scene' := by
  have depicted := displays.depicted.shifts shifts
  obtain ⟨-, was, positions, issued, accounted⟩ := displays
  rw [positions, ← Episode.positions_append past ⟨s, happening, t⟩] at shown
  have makes : ∀ n, (⟨s, happening, t⟩ : Episode D σ).Makes n ↔
      s.document.issued < n.index ∧ n.index ≤ t.document.issued := fun n => and_iff_right own
  cases shifts with
  | still dom binder same =>
      subst same
      have document : t.document = s.document := congrArg Documented.document dom
      have none_made : ∀ n, Made (past ++ [⟨s, happening, t⟩]) n ↔ Made past n := fun n => by
        rw [made_append, makes, document]
        exact or_iff_left fun ⟨late, early⟩ => Nat.not_lt_of_le early late
      refine ⟨settled, depicted, shown, fun n made => ?_, fun n => ?_⟩
      · rw [document]
        exact issued n ((none_made n).mp made)
      · rw [none_made, document]
        exact accounted n
  | repaint place container repaints others =>
      refine ⟨settled, depicted, shown, fun n made => ?_, fun n => ?_⟩
      · rcases (made_append ..).mp made with old | new
        · exact Nat.le_trans (issued n old) repaints.issued
        · exact ((makes n).mp new).2
      · rw [made_append, makes]
        constructor
        · rintro ⟨there, made⟩
          -- A live node that was made is shown where it was repainted, or it was shown elsewhere before.
          rcases repaints.only there with new | ⟨outside, old⟩
          · exact ⟨place, new⟩
          have early : n.index ≤ s.document.issued := Canvas.index_le_issued old
          obtain ⟨other, member⟩ := (accounted n).mp
            ⟨old, made.resolve_right fun new => Nat.not_lt_of_le early new.1⟩
          have different : other ≠ place := fun same => outside (same ▸ member)
          exact ⟨other, by rwa [others other different]⟩
        · rintro ⟨other, member⟩
          refine ⟨(depicted.shown other).contains n member, ?_⟩
          have there : t.document.contains n = true := (depicted.shown other).contains n member
          by_cases same : other = place
          · subst same
            refine (repaints.within n member).imp (fun old => ?_) fun late => ⟨late, ?_⟩
            · exact ((accounted n).mpr ⟨other, old⟩).2
            · exact Canvas.index_le_issued there
          · rw [others other same] at member
            exact .inl ((accounted n).mpr ⟨other, member⟩).2

end Displays

/-- What a move that the page tends to comes to. -/
structure Recounts (past : List (Episode D σ)) (episode : Episode D σ) (scene scene' : Scene) :
    Prop where
  before : Displays past episode.before scene
  after : Displays (past ++ [episode]) episode.after scene'
  edited : episode.happening = .edited → scene' = scene
  shifts : episode.happening ≠ .edited → Shifts episode.before episode.after scene scene'
  sensible : episode.happening ≠ .edited → Sensible episode.before episode.after
  calm : episode.Own → episode.after.canvas.alarms = episode.before.canvas.alarms

theorem Displays.moves {happening : Occurrence δ} (displays : Displays past s scene) (discreet : program.Discreet)
    (moves : Moves program agenda s happening ending t)
    (tended : (⟨s, happening, t⟩ : Episode D σ).Tended past) :
    ∃ scene', Recounts past ⟨s, happening, t⟩ scene scene' := by
  by_cases edited : happening = .edited
  · subst edited
    cases moves
    exact ⟨scene, displays, displays.edit (tended.edited rfl), fun _ => rfl, fun own => absurd rfl own,
      fun own => absurd rfl own, fun own => absurd rfl own.1⟩
  · obtain ⟨scene', settled, shifts, positions, sensible, calm⟩ := displays.settled.shifts displays.depicted
      discreet moves edited (fun tree place trials r rendered => by
        obtain ⟨holder, foreign⟩ := tended.container tree place trials r rendered
        exact displays.container holder foreign) tended.plain
    exact ⟨scene', displays, displays.shifts edited settled shifts positions,
      fun other => absurd other edited, fun _ => shifts,
      fun _ => sensible, fun own => calm own.2⟩

/-- What is shown in the course of a run, move by move. -/
inductive Story : List (Episode D σ) → Renderer D σ → Scene → Prop
  | begun {s : Renderer D σ} {scene : Scene} : Displays [] s scene → Story [] s scene
  | went {past : List (Episode D σ)} {s t : Renderer D σ} {scene scene' : Scene}
      {happening : Occurrence δ} : Story past s scene →
      Recounts past ⟨s, happening, t⟩ scene scene' → Story (past ++ [⟨s, happening, t⟩]) t scene'

namespace Story

theorem displays (story : Story past s scene) : Displays past s scene := by
  cases story with
  | begun displays => exact displays
  | went _ recounts => exact recounts.after

theorem recounts (story : Story episodes s scene) (part : episodes = past ++ episode :: rest) :
    ∃ scene scene', Story past episode.before scene ∧ Recounts past episode scene scene' ∧
      Story (past ++ [episode]) episode.after scene' := by
  induction story generalizing rest with
  | begun => cases past <;> cases part
  | @went early s t before after happening story recounts ih =>
      rcases List.append_eq_append_iff.mp part with ⟨pre, rfl, parts⟩ | ⟨post, rfl, parts⟩
      · obtain ⟨rfl, parts⟩ | ⟨_, -, parts⟩ := List.append_eq_cons_iff.mp parts.symm
        · cases parts
          rw [List.append_nil]
          exact ⟨before, after, story, recounts, story.went recounts⟩
        · cases (List.append_eq_nil_iff.mp parts.symm).2
      · cases post with
        | nil =>
            cases parts
            rw [List.append_nil] at story recounts
            exact ⟨before, after, story, recounts, story.went recounts⟩
        | cons first post =>
            obtain ⟨rfl, rfl⟩ := List.cons.inj parts
            exact ih rfl

theorem course (story : Story past s scene) (discreet : program.Discreet)
    (course : Course program agenda s more ending t)
    (tended : Throughout Tended (past ++ more)) :
    ∃ scene', Story (past ++ more) t scene' := by
  induction course generalizing past scene with
  | nil => exact ⟨scene, by rwa [List.append_nil]⟩
  | @cons agenda s happening between t episodes ending u moves _ ih =>
      obtain ⟨scene', recounts⟩ := story.displays.moves discreet moves (tended _ _ _ rfl)
      have split : past ++ ⟨s, happening, t⟩ :: episodes = (past ++ [⟨s, happening, t⟩]) ++ episodes := by
        rw [List.append_assoc, List.singleton_append]
      rw [split] at tended ⊢
      exact ih (story.went recounts) tended

end Story

namespace Run

theorem story_append (discreet : program.Discreet) (course : Course program [] s more [] t)
    (tended : Throughout Tended (episodes ++ more)) (sound : episodes ++ more = [] → t.document.Linked)
    (begun : Throughout Tended episodes → (episodes = [] → s.document.Linked) →
      ∃ scene, Story episodes s scene) : ∃ scene, Story (episodes ++ more) t scene := by
  obtain ⟨scene, story⟩ := begun tended.of_append fun nothing => by
    subst nothing
    cases course with
    | nil => exact sound rfl
    | cons moves rest => exact (tended [] _ _ rfl).started rfl
  exact story.course discreet course tended

/-- Every run that the page tends to has its story. -/
theorem story (run : Run program episodes s) (discreet : program.Discreet)
    (tended : Throughout Tended episodes) (sound : episodes = [] → s.document.Linked) :
    ∃ scene, Story episodes s scene := by
  induction run with
  | new dom store => exact ⟨_, .begun (.new store (sound rfl))⟩
  | call run _ course ih | idle run _ course ih | dispatch run _ course ih =>
      exact story_append discreet course tended sound ih
  | @edit episodes v dom run ih =>
      have course : Course program [] v [⟨v, .edited, { v with dom }⟩] [] { v with dom } :=
        (Moves.edit dom).course
      exact story_append discreet course tended sound ih

theorem render (run : Run program episodes s) (quiet : program.Quiet)
    (returned : Returns (render program tree place) s r t) :
    ∃ trials, Run program (episodes ++ [⟨s, .rendered tree place trials r, t⟩]) t := by
  obtain ⟨_, settled⟩ := run.settled
  obtain ⟨trials, renders⟩ := renders_of_returns quiet settled.calls returned
  have performed : Returns (perform (top program) (.render tree place .done)) s r t :=
    returned.bind (returns_pure.mpr ⟨rfl, rfl⟩)
  exact ⟨trials, run.call performed (Moves.render renders).course⟩

end Run

def checkTwice (program : Program σ) (one two : Tree) (place : NodeId)
    (check : Renderer D σ → Renderer D σ → Bool) : RenderM D σ Bool := do
  let first ← render program one place
  let t ← get
  let second ← render program two place
  let u ← get
  return first = .ok () ∧ second = .ok () ∧ t.Plain ∧ u.Plain ∧ (t.document.element? place).isSome ∧ check t u

theorem run_of_checkTwice (dom : D) (store : σ) (one two : Tree) (place : NodeId)
    (check : Renderer D σ → Renderer D σ → Bool)
    (quiet : program.Quiet) (linked : (Documented.document dom).Linked)
    (holder : ((Documented.document dom).element? place).isSome)
    (evaluated : (checkTwice program one two place check (new dom store)).toOption.map Prod.fst = some true) :
    ∃ t u first second, Returns (render program one place) (new dom store) (.ok ()) t ∧
      Returns (render program two place) t (.ok ()) u ∧ check t u = true ∧
      (let episodes : List (Episode D σ) := [⟨new dom store, .rendered one place first (.ok ()), t⟩,
        ⟨t, .rendered two place second (.ok ()), u⟩]
      Run program episodes u ∧ Throughout Tended episodes) := by
  obtain ⟨_, _, returned, same⟩ := exists_returns _ Prod.fst evaluated
  simp only [checkTwice, returns_bind, returns_get, returns_pure] at returned
  obtain ⟨_, t, early, _, _, ⟨rfl, rfl⟩, _, u, late, _, _, ⟨rfl, rfl⟩, rfl, rfl⟩ := returned
  obtain ⟨rfl, rfl, plain, plain', holder', checked⟩ := of_decide_eq_true same
  obtain ⟨first, run⟩ := (Run.new dom store).render quiet early
  obtain ⟨second, run⟩ := run.render quiet late
  have once : Throughout Tended [(⟨new dom store, .rendered one place first (.ok ()), t⟩ : Episode D σ)] :=
    Throughout.nil.snoc (.render (fun _ => linked) holder Episode.not_made_nil plain)
  refine ⟨t, u, first, second, early, late, checked, run,
    once.snoc (.render (fun nothing => (List.cons_ne_nil _ _ nothing).elim) holder' (fun made => ?_) plain')⟩
  obtain ⟨_, member, -, late, -⟩ := made
  cases List.mem_singleton.mp member
  obtain ⟨e, found⟩ := Option.isSome_iff_exists.mp holder
  exact Nat.not_lt_of_le (Canvas.index_le_issued (Document.contains_of_element? found)) late

theorem quiet_counter : counter.Quiet := fun _ _ calls => by
  cases calls with
  | initial later | useState _ later => cases later

theorem discreet_counter : counter.Discreet := fun _ _ alarm => by
  cases alarm with
  | initial later | useState _ later => cases later

end Renderer
end Patchwork
