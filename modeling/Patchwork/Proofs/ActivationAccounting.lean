import Patchwork.Proofs.DestroyedActivations
import Patchwork.Proofs.NodeAccounting
import Patchwork.Proofs.ActivationOwners

/-! The registry of activations is exact. Registered are the activations that are mounted somewhere, each
owned by the nearest one around it and placed in the live parent of its nodes; what was destroyed is never
pending, invoked or issued again. -/
namespace Patchwork

open Picture

namespace Occurrence

def trials : Occurrence δ → List (Trial δ)
  | rendered _ _ trials _ | retried _ trials _ => trials
  | _ => []

end Occurrence

namespace Renderer

section Moving

variable {D σ : Type} {δ : StateData} [HasStateData σ δ] {s t u : Renderer D σ} {scene : Scene} {program : Program σ}

theorem Hears.committed (hears : Hears s u) (scheduler : t.scheduler = u.scheduler)
    (waiting : t.waiting = u.waiting) (gone : ∀ a, s.activations.Destroyed a → t.activations.Destroyed a) :
    Hears s t := by
  obtain ⟨asked, live, scheduled⟩ := hears.asked
  exact ⟨gone, asked, live, by rw [scheduler, waiting, scheduled]⟩

theorem Settled.not_destroyed (settled : Settled s scene) (member : a ∈ activationsAll (scene place)) :
    ¬ s.activations.Destroyed a := fun gone =>
  Bool.noConfusion ((settled.isRegistered_iff.mpr ⟨place, member⟩).symm.trans gone.not_registered)

theorem not_destroyed_of_late {as : Activations} (late : Arena.issued as < a.index) :
    ¬ as.Destroyed a := by
  rintro ⟨r, found, -⟩
  exact Nat.not_lt_of_le (Activations.index_le_issued found) late

/-- A change of one container's pictures destroys some activations and revives none. -/
theorem Changes.gone (changes : Changes s u t place (scene place) qs) (settled : Settled s scene)
    (gone : s.activations.Destroyed a) : t.activations.Destroyed a := by
  obtain ⟨r, found, -⟩ := id gone
  have early := Activations.index_le_issued found
  have outside : a ∉ activationsAll (scene place) := fun member => settled.not_destroyed member gone
  exact gone.of_bare (changes.elsewhere early outside)

theorem Changes.hears (changes : Changes s u t place (scene place) qs) (settled : Settled s scene)
    (hears : Hears s u) : Hears s t := by
  refine hears.committed ?_ ?_ fun a gone => changes.gone settled gone
  · exact changes.confined.scheduler
  · exact changes.confined.waiting

variable [Layer D]

/-- A move leaves all records as they were, apart from their state cells, or it changes the pictures of
one container. -/
theorem Settled.calm_or_changes (settled : Settled s scene)
    (moves : Moves program agenda s happening ending t) :
    (t.dropped = s.dropped ∧ ∀ a,
      (t.activations.find? a).map Activation.bare = (s.activations.find? a).map Activation.bare) ∨
    ∃ u place qs, Changes s u t place (scene place) qs := by
  cases moves with
  | act acts =>
      have calm := Undisturbed.acts acts
      exact .inl ⟨calm.dropped, calm.bare⟩
  | @render tree place _ trials r _ renders =>
      obtain ⟨u, ⟨e, -, -, reverts⟩ | ⟨plans, -, -, -, patches⟩⟩ := settled.render_cases renders
      · exact .inr ⟨u, place, _, reverts.changes settled place⟩
      · exact .inr ⟨u, place, _, patches.changes⟩
  | unmount returned =>
      obtain ⟨t', returned', changes, -⟩ := settled.unmounts _
      obtain ⟨-, rfl⟩ := returned.unique returned'
      exact .inr ⟨s, _, _, changes⟩
  | flush | task | vainTask | edit | passOver => exact .inl ⟨rfl, fun _ => rfl⟩
  | retry found live due rerenders =>
      obtain ⟨u, ⟨e, -, -, reverts⟩ | ⟨rendered, -, -, place, _, _, _, -, -, -, patches⟩⟩ :=
        settled.rerender_cases found (settled.find?_of_isLive found live) rerenders
      · exact .inr ⟨u, ⟨0⟩, _, reverts.changes settled ⟨0⟩⟩
      · exact .inr ⟨u, place, _, patches.changes⟩

theorem Settled.dropped (settled : Settled s scene) (moves : Moves program agenda s happening ending t) :
    t.dropped = s.dropped := by
  rcases settled.calm_or_changes moves with ⟨same, -⟩ | ⟨u, place, qs, changes⟩
  · exact same
  · exact changes.confined.dropped.trans changes.passed.dropped

theorem Settled.gone (settled : Settled s scene) (moves : Moves program agenda s happening ending t)
    (gone : s.activations.Destroyed a) : t.activations.Destroyed a := by
  rcases settled.calm_or_changes moves with ⟨-, same⟩ | ⟨u, place, qs, changes⟩
  · exact gone.of_bare (same a)
  · exact changes.gone settled gone

omit [Layer D] in
theorem Changes.taken (changes : Changes s u t place ps qs) (taken : s.activations.find? a ≠ none) :
    t.activations.find? a ≠ none := by
  obtain ⟨r, found⟩ := Option.ne_none_iff_exists'.mp taken
  have bare := changes.passed.old a (Activations.index_le_issued found)
  intro nothing
  have memory := changes.confined.memory a
  rw [nothing, Option.map_none] at memory
  have nothing : u.activations.find? a = none := Option.map_eq_none_iff.mp memory.symm
  rw [nothing, found] at bare
  cases bare

theorem Settled.taken (settled : Settled s scene) (moves : Moves program agenda s happening ending t)
    (taken : s.activations.find? a ≠ none) : t.activations.find? a ≠ none := by
  rcases settled.calm_or_changes moves with ⟨-, same⟩ | ⟨u, place, qs, changes⟩
  · intro nothing
    have bare := same a
    rw [nothing, Option.map_none] at bare
    exact taken (Option.map_eq_none_iff.mp bare.symm)
  · exact changes.taken taken

/-- No move hears what is destroyed; a flush that begins takes what is pending. -/
theorem Settled.hears (settled : Settled s scene) (moves : Moves program agenda s happening ending t)
    (there : s.dropped = false) (other : happening ≠ .began) : Hears s t := by
  cases moves with
  | act acts => exact acts.hears
  | @render tree place _ trials r _ renders =>
      have begun : Hears s (s.beginning place) := .of_same rfl rfl rfl
      obtain ⟨u, ⟨e, passes, -, reverts⟩ | ⟨plans, passes, -, -, patches⟩⟩ := settled.render_cases renders
      · exact (reverts.changes settled place).hears settled (begun.trans passes.hears)
      · exact patches.changes.hears settled (begun.trans passes.hears)
  | unmount returned =>
      obtain ⟨t', returned', changes, -⟩ := settled.unmounts _
      obtain ⟨-, rfl⟩ := returned.unique returned'
      exact changes.hears settled (.refl s)
  | flush | task => exact absurd rfl other
  | vainTask _ dropped => exact absurd (dropped.symm.trans there) nofun
  | edit => exact .of_same rfl rfl rfl
  | passOver => exact .refl s
  | @retry _ a record trials r _ rest found live due rerenders =>
      have begun : Hears s (s.attempting a) := .of_same rfl rfl rfl
      obtain ⟨u, ⟨e, invokes, -, reverts⟩ | ⟨rendered, invokes, -, place, _, _, _, -, -, -, patches⟩⟩ :=
        settled.rerender_cases found (settled.find?_of_isLive found live) rerenders
      · exact (reverts.changes settled ⟨0⟩).hears settled (begun.trans (invokes.hears found))
      · exact patches.changes.hears settled (begun.trans (invokes.hears found))

theorem Invokes.within {output : List Picture} (invokes : Invokes program a c props s trials rendered t)
    (stands : Stands s.activations place above (.component a c' props' tree' output)) :
    ∀ trial ∈ trials, trial.activation = a ∨ trial.activation ∈ activationsAll output ∨
      Arena.issued s.activations < trial.activation.index := by
  cases invokes with
  | failed =>
      intro trial member
      exact .inl (List.mem_singleton.mp member ▸ rfl)
  | paired ran passes =>
      intro trial member
      have calm := ran.undisturbed
      obtain ⟨-, ⟨r, found, shows⟩, -, inner⟩ := stands_component.mp (stands.congr fun b _ => calm.bare b)
      have holds := (Activations.output_eq found).trans shows.output
      rcases List.mem_cons.mp member with rfl | member
      · exact .inl rfl
      · exact .inr (calm.issued ▸
          passes.within holds inner (Activations.index_le_issued found) trial member)

theorem Settled.invokes_live (settled : Settled s scene)
    (moves : Moves program agenda s happening ending t) :
    ∀ trial ∈ happening.trials, ¬ s.activations.Destroyed trial.activation := by
  cases moves with
  | act | unmount | flush | task | vainTask | edit | passOver =>
      exact fun _ member => (List.not_mem_nil member).elim
  | @render tree place _ trials r _ renders =>
      intro trial member
      obtain ⟨plans, u, es, v, passes, -⟩ := renders.passed
      rw [settled.mounted] at passes
      rcases passes.within rfl (settled.stands place) (Nat.zero_le _) trial member with stood | new
      · exact settled.not_destroyed stood
      · exact not_destroyed_of_late new
  | @retry _ a record trials r _ rest found live due rerenders =>
      intro trial member
      obtain ⟨result, u, v, invokes, -⟩ := rerenders.passed
      obtain ⟨place, spot, tree, output, same⟩ :=
        settled.exists_spot found (settled.find?_of_isLive found live)
      have shown : ∀ b ∈ a :: activationsAll output, b ∈ activationsAll (scene place) := by
        intro b inside
        rw [same, Spot.activationsAll_fill]
        exact List.mem_append_right _ (List.mem_append_left _ inside)
      rcases invokes.within (settled.stands_at same) trial member with own | stood | new
      · exact own ▸ settled.not_destroyed (shown a (List.mem_cons_self ..))
      · exact settled.not_destroyed (shown _ (List.mem_cons_of_mem _ stood))
      · exact not_destroyed_of_late new

omit [Layer D] in
theorem issued_of_createActivation [Layer D]
    (returned : Returns (createActivation reference owner) s a t) :
    s.activations.find? a = none ∧ t.activations.find? a ≠ none := by
  simp only [createActivation, returns_bind, returns_modifyGet, returns_report, returns_onCalls,
    returns_pure] at returned
  obtain ⟨index, _, ⟨rfl, rfl⟩, _, _, rfl, _, _, rfl, rfl, rfl⟩ := returned
  refine ⟨Arena.get?_of_issued_lt (Nat.lt_succ_self _), ?_⟩
  have there := Activations.find?_alloc s.activations (.blank owner reference s.epoch)
    ⟨Arena.issued s.activations + 1⟩
  rw [if_pos rfl] at there
  exact fun nothing => Option.some_ne_none _ (there.symm.trans nothing)

/-- The activations that are mounted anywhere, at any depth, each with the nearest one around it. -/
def nesting (s : Renderer D σ) : Nesting :=
  s.roots.toList.flatMap fun root => Mounted.nesting s.activations root.2

/-- The registry of activations is that of what is mounted. -/
structure Accounted (s : Renderer D σ) : Prop where
  listed : s.activations.registered.Perm (s.nesting.map Prod.fst)
  once : s.activations.registered.Nodup
  committed : ∀ a ∈ s.activations.registered, ∃ r tree, s.activations.find? a = some r ∧
    r.committed = some tree ∧ r.unmounted = false
  owned : ∀ a owner, (a, owner) ∈ s.nesting → (s.activations.find? a).map Activation.owner = some owner
  destroyed : ∀ a, s.activations.find? a ≠ none → a ∉ s.nesting.map Prod.fst → s.activations.Destroyed a

omit [Layer D] in
theorem Settled.perm_nesting (settled : Settled s scene) :
    s.activations.registered.Perm (s.nesting.map Prod.fst) := by
  refine settled.perm_registered.trans (List.Perm.of_eq ?_)
  rw [nesting, List.map_flatMap, places, List.flatMap_map]
  refine List.flatMap_congr fun root member => ?_
  rw [settled.recordedAll_root member, Mounted.map_nesting, (settled.stands root.1).activations_eq]

omit [Layer D] in
theorem Settled.accounted (settled : Settled s scene) (owning : Owning s scene) : s.Accounted where
  listed := settled.perm_nesting
  once := by
    rw [Activations.registered_eq]
    exact (nodup_issuedBetween ..).filter _
  committed a member := by
    obtain ⟨r, found, live⟩ := Activations.isRegistered_iff.mp (Activations.mem_registered.mp member)
    obtain ⟨place, spot, tree, output, same⟩ := settled.exists_spot found live
    obtain ⟨-, ⟨r', found', shows⟩, -⟩ := stands_component.mp (settled.stands_at same)
    exact ⟨r', tree, found', shows.committed, shows.registered⟩
  owned a owner member := by
    obtain ⟨root, held, inside⟩ := List.mem_flatMap.mp member
    rw [settled.recordedAll_root held, (settled.stands root.1).nesting_eq] at inside
    exact owning root.1 _ inside
  destroyed a taken hidden := by
    rw [← settled.perm_nesting.mem_iff] at hidden
    exact Activations.destroyed_iff.mpr ⟨taken, hidden⟩

/-- What a move leaves of the identities, and of what is destroyed. -/
structure Accounts (episode : Episode D σ) : Prop where
  accounted : episode.after.Accounted
  taken : ∀ a, episode.before.activations.find? a ≠ none → episode.after.activations.find? a ≠ none
  gone : ∀ a, episode.before.activations.Destroyed a → episode.after.activations.Destroyed a
  pending : ∀ a, episode.before.activations.Destroyed a → a ∈ episode.after.scheduler.queue →
    a ∈ episode.before.scheduler.queue
  heard : episode.happening ≠ .began → Hears episode.before episode.after
  invoked : ∀ trial ∈ episode.happening.trials, ¬ episode.before.activations.Destroyed trial.activation

/-- Every move accounts for activations, and leaves them owned as they are nested. -/
theorem Owning.accounts (owning : Owning s scene) (settled : Settled s scene) (there : s.dropped = false)
    (moves : Moves program agenda s happening ending t) :
    (∃ scene', Settled t scene' ∧ Owning t scene') ∧ t.dropped = false ∧
      Accounts (⟨s, happening, t⟩ : Episode D σ) := by
  obtain ⟨scene', settled', owning'⟩ := owning.moves settled moves
  refine ⟨⟨scene', settled', owning'⟩, (settled.dropped moves).trans there, settled'.accounted owning',
    fun a => settled.taken moves, fun a => settled.gone moves, fun a gone waits => ?_,
    settled.hears moves there, settled.invokes_live moves⟩
  by_cases begins : happening = .began
  · subst begins
    cases moves <;> exact (List.not_mem_nil waits).elim
  · exact (settled.hears moves there begins).pending gone waits

theorem Owning.course (owning : Owning s scene) (settled : Settled s scene) (there : s.dropped = false)
    (course : Course program agenda s episodes ending t) :
    (∃ scene', Settled t scene' ∧ Owning t scene') ∧ t.dropped = false ∧
      ∀ episode ∈ episodes, Accounts episode := by
  induction course generalizing scene with
  | nil => exact ⟨⟨scene, settled, owning⟩, there, List.forall_mem_nil _⟩
  | cons moves _ ih =>
      obtain ⟨⟨scene', settled', owning'⟩, there', first⟩ := owning.accounts settled there moves
      obtain ⟨ends, kept, later⟩ := ih owning' settled' there'
      exact ⟨ends, kept, List.forall_mem_cons.mpr ⟨first, later⟩⟩

theorem Run.owning (run : Run program episodes s) :
    (∃ scene, Settled s scene ∧ Owning s scene) ∧ s.dropped = false ∧
      ∀ episode ∈ episodes, Accounts episode := by
  induction run with
  | new dom store =>
      exact ⟨⟨_, .new dom store, fun _ => Activations.Owns.nil⟩, rfl, List.forall_mem_nil _⟩
  | call _ _ course ih | idle _ _ course ih | dispatch _ _ course ih =>
      obtain ⟨⟨_, settled, owning⟩, there, early⟩ := ih
      obtain ⟨ends, kept, late⟩ := owning.course settled there course
      exact ⟨ends, kept, List.forall_mem_append.mpr ⟨early, late⟩⟩
  | @edit _ v dom _ ih =>
      obtain ⟨⟨_, settled, owning⟩, there, early⟩ := ih
      have edited : Moves program [] v .edited [] { v with dom } := .edit dom
      obtain ⟨ends, kept, late⟩ := owning.course settled there edited.course
      exact ⟨ends, kept, List.forall_mem_append.mpr ⟨early, late⟩⟩

end Moving

section Parents

variable {D σ : Type} {δ : StateData} [HasStateData σ δ] [Documented D] {program : Program σ} {s t : Renderer D σ}
  {scene : Scene}
  {past episodes : List (Episode D σ)}

open Episode (Throughout Tended)

/-- The place that is on record for a registered activation is the live parent of its nodes. -/
def Parented (s : Renderer D σ) : Prop :=
  ∀ a ∈ s.activations.registered, ∃ parent,
    (s.activations.find? a).bind Activation.parent = some parent ∧
      ∀ n ∈ (Mounted.component a).nodes s.activations, s.document.parent? n = some parent

theorem children_of_fill {d : Document} {binder : Binder} (spot : Spot)
    (shown : SeenAll d binder (spot.fill p)) (placed : ∀ n ∈ topsAll (spot.fill p), n ∈ d.children outer) :
    ∀ n ∈ p.tops, n ∈ d.children (spot.place outer) := by
  induction spot generalizing outer with
  | here before after =>
      intro n top
      refine placed n ?_
      rw [Spot.fill, topsAll_append, topsAll]
      exact List.mem_append_right _ (List.mem_append_left _ top)
  | element before node tag attributes inner after ih =>
      have whole := seenAll_iff.mp shown (.element node tag attributes (inner.fill p))
        (List.mem_append_right _ (List.mem_cons_self ..))
      obtain ⟨-, children, inside⟩ := seen_element.mp whole
      exact ih inside fun n top => children ▸ top
  | component before a c props tree inner after ih =>
      have whole := seenAll_iff.mp shown (.component a c props tree (inner.fill p))
        (List.mem_append_right _ (List.mem_cons_self ..))
      refine ih (seen_component.mp whole).2 fun n top => placed n ?_
      rw [Spot.fill, topsAll_append, topsAll, tops]
      exact List.mem_append_right _ (List.mem_append_left _ top)

theorem Displays.parented (displays : Displays past s scene) : s.Parented := by
  obtain ⟨settled, depicted, -, -, -⟩ := displays
  intro a member
  obtain ⟨r, found, live⟩ := Activations.isRegistered_iff.mp (Activations.mem_registered.mp member)
  obtain ⟨place, spot, tree, output, same⟩ := settled.exists_spot found live
  have shown := depicted.shown place
  have order := (depicted.order place).subset
  rw [same] at shown order
  have here := settled.stands_at same
  obtain ⟨-, ⟨r', found', shows⟩, -⟩ := stands_component.mp here
  refine ⟨spot.place place, ?_, fun n top => ?_⟩
  · rw [found', Option.bind_some, shows.parent]
  · have nodes := here.nodes_eq
    rw [entry] at nodes
    rw [nodes] at top
    exact depicted.sound.linked.parent_of_child (children_of_fill spot shown (fun _ member => order member) n top)

/-- The registry of activations is exact after every move of every run, whether or not renders fail. An
identity that is issued was never taken before. What is destroyed stays so: no move hears its setters,
invokes it or has it pending anew. The places on record are the live parents as long as the page renders
into elements of its own, spares the renderer's nodes and has nothing adopted. -/
theorem Run.activations_accounted (run : Run program episodes s) :
    s.Accounted ∧ (∀ episode ∈ episodes, Accounts episode) ∧
    (∀ {u v : Renderer D σ} {reference owner a}, Returns (createActivation reference owner) u a v →
      u.activations.find? a = none ∧ v.activations.find? a ≠ none) ∧
    (∀ {u v : Renderer D σ} {setter : Setter δ.DataType} {change},
      (∀ c, u.cell? setter.cell = some c → u.activations.Destroyed c.owner) →
      Returns (updateCell setter change) u () v → v.scheduler = u.scheduler ∧ v.waiting = u.waiting) ∧
    (program.Discreet → Throughout Tended episodes → (episodes = [] → s.document.Linked) →
      s.Parented ∧ ∀ episode ∈ episodes, episode.after.Parented) := by
  obtain ⟨⟨scene, settled, owning⟩, -, accounts⟩ := run.owning
  refine ⟨settled.accounted owning, accounts, issued_of_createActivation, unheard_updateCell,
    fun discreet tended sound => ?_⟩
  obtain ⟨_, story⟩ := run.story discreet tended sound
  refine ⟨story.displays.parented, fun episode member => ?_⟩
  obtain ⟨past, rest, same⟩ := List.append_of_mem member
  obtain ⟨_, _, -, -, story⟩ := story.recounts same
  exact story.displays.parented

/-- Two counters are shown, then one: the second is destroyed, and its setter is not heard any more. -/
theorem second_counter_destroyed :
    let count : Tree := .component ⟨⟨0, "counter"⟩, none⟩
    let s : Renderer Document Unit := new Document.empty.createContainer.2 ()
    ∃ (t u : Renderer Document Unit) (first second : List (Trial .scalars)),
      (let pages : List (Episode Document Unit) :=
        [⟨s, .rendered (.fragment [count, count]) ⟨1⟩ first (.ok ()), t⟩, ⟨t, .rendered count ⟨1⟩ second (.ok ()), u⟩]
      Run counter pages u ∧ Throughout Tended pages ∧ ∀ page ∈ pages, Accounts page) ∧
      t.activations.registered = [⟨1⟩, ⟨2⟩] ∧ u.activations.registered = [⟨1⟩] ∧
      u.Accounted ∧ u.Parented ∧ u.activations.Destroyed ⟨2⟩ ∧
      ∀ v (change : Datum → Datum), Returns (updateCell ⟨⟨2⟩, DatumType.int⟩ change) u () v →
        v.scheduler = u.scheduler ∧ v.waiting = u.waiting := by
  intro count s
  obtain ⟨t, u, first, second, -, -, checked, run, tended⟩ := run_of_checkTwice
    Document.empty.createContainer.2 () (.fragment [count, count]) count ⟨1⟩
    (fun t u => t.activations.registered = [⟨1⟩, ⟨2⟩] ∧ u.activations.registered = [⟨1⟩] ∧
      (u.activations.find? ⟨2⟩).isSome ∧ (u.cell? ⟨2⟩).map Cell.owner = some ⟨2⟩) quiet_counter
    (Document.Linked.empty.create _) rfl (by decide +kernel)
  obtain ⟨before, after, taken, owned⟩ := of_decide_eq_true checked
  obtain ⟨accounted, accounts, -, inert, places⟩ := run.activations_accounted
  obtain ⟨parented, -⟩ := places discreet_counter tended nofun
  have gone : u.activations.Destroyed ⟨2⟩ := by
    refine accounted.destroyed _ (Option.isSome_iff_ne_none.mp taken) fun member => ?_
    rw [← accounted.listed.mem_iff, after] at member
    cases List.mem_singleton.mp member
  refine ⟨t, u, first, second, ⟨run, tended, accounts⟩, before, after, accounted, parented, gone,
    fun v change returned => inert (fun c there => ?_) returned⟩
  rw [there] at owned
  exact Option.some.inj owned ▸ gone

/-- A component shows a node of the page, or a text that makes room for an element once it was set. -/
def exhibit : Program Unit where
  component c _ := if c.code = "loan" then .done (.ok (.raw ⟨0, some ⟨2⟩⟩)) else
    .useState .int (.done (Datum.int 0).initial) fun answer =>
      .done (answer.map fun (d, _) => if d = .int 0 then .text (.text "") else .element "b" .empty [])
  handler _ _ := .done false

theorem quiet_exhibit : exhibit.Quiet := fun c _ calls => by
  dsimp only [exhibit] at calls
  split at calls
  · cases calls
  · cases calls with
    | initial later | useState _ later => cases later

def strays (s : Renderer D σ) : Bool :=
  s.activations.registered.any fun a => ((Mounted.component a).nodes s.activations).any fun n =>
    s.document.parent? n ≠ (s.activations.find? a).bind Activation.parent

theorem not_parented_of_strays (strays : s.strays = true) : ¬ s.Parented := by
  intro parented
  obtain ⟨a, member, strays⟩ := List.any_eq_true.mp strays
  obtain ⟨n, top, strays⟩ := List.any_eq_true.mp strays
  obtain ⟨parent, recorded, hangs⟩ := parented a member
  exact of_decide_eq_true strays ((hangs n top).trans recorded.symm)

theorem strays_of_calls {α : Type} (quiet : program.Quiet) (x : Action σ α) (dom : D) (store : σ)
    (evaluated : (perform (top program) x (new dom store)).toOption.map (fun r => r.2.strays) = some true) :
    ∃ episodes answer s, Returns (perform (top program) x) (new dom store) answer s ∧
      Run program episodes s ∧ ¬ s.Parented := by
  obtain ⟨answer, s, returned, strays⟩ := exists_returns _ (fun r => r.2.strays) evaluated
  obtain ⟨more, run⟩ := ((Run.new dom store).goes_on quiet).1 _ _ _ _ returned
  exact ⟨more, answer, s, returned, run, not_parented_of_strays strays⟩

/-- The place on record need not be the live parent: a node of the page that is shown twice hangs where
it was put last; a container that is missing holds nothing; and an element that the renderer made takes
what is rendered into it along when it goes. -/
theorem parents_astray :
    let page : Document := Document.empty.createContainer.2.createContainer.2
    let loan : Tree := .component ⟨⟨0, "loan"⟩, none⟩
    let sign : Tree := .component ⟨⟨1, "sign"⟩, none⟩
    let twice : Tree := .fragment [loan, .element "div" .empty [.raw ⟨0, some ⟨2⟩⟩]]
    let inside : Action Unit (Except FlushError Nat) :=
      .render (.element "p" .empty []) ⟨1⟩ fun _ => .render sign ⟨3⟩ fun _ => .unmount ⟨1⟩ fun _ =>
        .updateCell ⟨⟨1⟩, .int⟩ (fun _ => .int 1) (.flush .done)
    (∃ episodes answer s, Returns (perform (top exhibit) (.render twice ⟨1⟩ .done)) (new page ()) answer s ∧
      Run exhibit episodes s ∧ ¬ s.Parented) ∧
    (∃ episodes answer s, Returns (perform (top exhibit) (.render sign ⟨7⟩ .done)) (new page ()) answer s ∧
      Run exhibit episodes s ∧ ¬ s.Parented) ∧
    ∃ episodes answer s, Returns (perform (top exhibit) inside) (new page ()) answer s ∧
      Run exhibit episodes s ∧ ¬ s.Parented := by
  intro page loan sign twice inside
  refine ⟨?_, ?_, ?_⟩
  · exact strays_of_calls quiet_exhibit _ _ _ (by decide +kernel)
  · exact strays_of_calls quiet_exhibit _ _ _ (by decide +kernel)
  · exact strays_of_calls quiet_exhibit _ _ _ (by decide +kernel)

end Parents

end Renderer
end Patchwork
