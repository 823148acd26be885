import Patchwork.Proofs.ActivationAccounting
import Patchwork.Proofs.FailedPasses
import Patchwork.Proofs.StateUpdates

/-! A flush is complete. What was pending and is still there was committed meanwhile, or is listed with
the error that it failed with; what is asked for meanwhile waits for the next flush. -/
namespace Patchwork

theorem append_eq_middle {one two : List α} (same : one ++ two = early ++ x :: late) :
    (∃ rest, one = early ++ x :: rest) ∨ ∃ others, early = one ++ others ∧ two = others ++ x :: late := by
  rcases List.append_eq_append_iff.mp same with ⟨others, rfl, rest⟩ | ⟨others, rfl, rest⟩
  · exact .inr ⟨others, rfl, rest⟩
  rcases List.cons_eq_append_iff.mp rest with ⟨rfl, later⟩ | ⟨between, rfl, -⟩
  · exact .inr ⟨[], by rw [List.append_nil, List.append_nil], later⟩
  · exact .inl ⟨between, rfl⟩

namespace Episode

variable {D σ : Type} {δ : StateData} [HasStateData σ δ]

/-- A body that ran during the move gave a cell of the activation another datum. The activation was there
before the move, or was made before the body ran. -/
def Requests (a : ActivationId) (episode : Episode D σ) : Prop :=
  ∃ early trial late cell, episode.happening.trials = early ++ trial :: late ∧ .changed a cell ∈ trial.deeds ∧
    (episode.before.activations.find? a ≠ none ∨ a ∈ (early ++ [trial]).map Trial.activation)

/-- The activation shows what it came to in one of the visits, in which it, or one around it, was re-rendered
with success, and is marked as rendered in this flush. -/
def Committed (visits : List (Episode D σ)) (t : Renderer D σ) (a : ActivationId) : Prop :=
  ∃ visit ∈ visits, ∃ b trials, visit.happening = .retried b trials (.ok ()) ∧
    (a = b ∨ a ∈ Mounted.activations visit.after.activations (visit.after.activations.output b)) ∧
    (t.activations.find? a).map Activation.renderedIn = some t.epoch ∧
    ∃ trial ∈ trials, ∃ x, trial.shown? = some x ∧ x.activation = a ∧ x.In t.activations

theorem Committed.append {visits : List (Episode D σ)} (committed : Committed visits s a)
    (found : s.activations.find? a = some r) (found' : t.activations.find? a = some r')
    (same : r'.bare = r.bare) (epoch : t.epoch = s.epoch) (more : List (Episode D σ)) :
    Committed (visits ++ more) t a := by
  obtain ⟨visit, member, b, trials, retried, within, marked, trial, tried, x, came, rfl, shown⟩ := committed
  obtain ⟨_, again, live, component, props, tree⟩ := shown
  cases Option.some.inj (found.symm.trans again)
  refine ⟨visit, List.mem_append_left _ member, b, trials, retried, within, ?_, trial, tried, x, came, rfl,
    r', found', ?_, ?_, ?_, ?_⟩
  · have kept : r'.renderedIn = r.renderedIn := (congrArg Activation.renderedIn same :)
    rw [found', Option.map_some, kept, epoch, ← marked, found, Option.map_some]
  · exact (congrArg Activation.unmounted same :).trans live
  · exact (congrArg Activation.component same :).trans component
  · exact (congrArg Activation.props same :).trans props
  · exact (congrArg Activation.committed same :).trans tree

theorem Committed.prepend {visits : List (Episode D σ)} (committed : Committed visits s a)
    (more : List (Episode D σ)) : Committed (more ++ visits) s a := by
  obtain ⟨visit, member, shown⟩ := committed
  exact ⟨visit, List.mem_append_right _ member, shown⟩

theorem failures_append (one two : List (Episode D σ)) :
    failures (one ++ two) = failures one ++ failures two := List.filterMap_append ..

end Episode

namespace Renderer

open Picture Episode

variable {D σ : Type} {δ : StateData} [HasStateData σ δ] {s t u : Renderer D σ} {scene : Scene} {program : Program σ}

/-- A pass has its invocations wait for what they ask for. Each `trial` may ask for what was there when the
pass began and for what was made up to then. -/
structure Enlists (trials : List (Trial δ)) (s t : Renderer D σ) : Prop where
  tracks : Tracks (deedsIn trials) s t
  made : ∀ a ∈ trials.map Trial.activation, t.activations.find? a ≠ none
  waits : ∀ early trial late, trials = early ++ trial :: late → ∀ a cell, .changed a cell ∈ trial.deeds →
    (s.activations.find? a ≠ none ∨ a ∈ (early ++ [trial]).map Trial.activation) →
    t.activations.isRegistered a = true → a ∈ t.scheduler.queue

theorem Tracks.stays (tracks : Tracks deeds s t) (taken : s.activations.find? a ≠ none) :
    t.activations.find? a ≠ none ∧ t.activations.isRegistered a = s.activations.isRegistered a := by
  obtain ⟨r, found⟩ := Option.ne_none_iff_exists'.mp taken
  obtain ⟨r', found', same, -⟩ := tracks.cells a r found
  rw [Activations.isRegistered, Activations.isRegistered, found, found', Option.any_some, Option.any_some, same]
  exact ⟨Option.some_ne_none _, rfl⟩

namespace Enlists

theorem of_tracks (tracks : Tracks [] s t) : Enlists [] s t where
  tracks := tracks
  made _ member := (List.not_mem_nil member).elim
  waits early _ _ same := by cases early <;> cases same

theorem append (one : Enlists first s t) (two : Enlists second t u) : Enlists (first ++ second) s u where
  tracks := deedsIn_append first second ▸ one.tracks.trans two.tracks
  made a member := by
    rw [List.map_append] at member
    rcases List.mem_append.mp member with early | late
    · exact (two.tracks.stays (one.made a early)).1
    · exact two.made a late
  waits early trial late same a cell changed there registered := by
    rcases append_eq_middle same with ⟨rest, rfl⟩ | ⟨others, rfl, rfl⟩
    · have taken : t.activations.find? a ≠ none := by
        refine there.elim (fun taken => (one.tracks.stays taken).1) fun member => one.made _ ?_
        rw [List.append_cons, List.map_append]
        exact List.mem_append_left _ member
      refine two.tracks.pending _ (one.waits early trial rest rfl a cell changed there ?_)
      rwa [(two.tracks.stays taken).2] at registered
    · refine two.waits others trial late rfl a cell changed ?_ registered
      rw [List.append_assoc, List.map_append, List.mem_append, ← or_assoc] at there
      refine there.imp_left fun before => ?_
      exact before.elim (fun taken => (one.tracks.stays taken).1) (one.made _)

end Enlists

theorem Ran.enlists (ran : Ran program a c props s deeds outcome t) (ready : s.Ready)
    (found : s.activations.find? a = some r) : Enlists [⟨a, c, props, deeds, outcome⟩] s t := by
  have tracks : Tracks (deedsIn [⟨a, c, props, deeds, outcome⟩]) s t := by
    rw [deedsIn, List.flatMap_singleton]
    exact ran.tracks ready
  have taken : s.activations.find? a ≠ none := Option.ne_none_iff_exists'.mpr ⟨r, found⟩
  refine ⟨tracks, fun b member => ?_, fun early trial late same b cell changed before registered => ?_⟩
  · cases List.mem_singleton.mp member
    exact (tracks.stays taken).1
  · obtain ⟨rfl, rfl, rfl⟩ : early = [] ∧ _ = trial ∧ late = [] := by
      rcases List.cons_eq_append_iff.mp same with ⟨rfl, rest⟩ | ⟨others, rfl, rest⟩
      · exact ⟨rfl, (List.cons.inj rest).1.symm, (List.cons.inj rest).2⟩
      · cases others <;> cases rest
    have taken : s.activations.find? b ≠ none :=
      before.elim id fun member => List.mem_singleton.mp member ▸ taken
    obtain ⟨r', found'⟩ := Option.ne_none_iff_exists'.mp taken
    rw [(tracks.stays taken).2] at registered
    obtain ⟨_, again, live⟩ := Activations.isRegistered_iff.mp registered
    cases Option.some.inj (found'.symm.trans again)
    exact tracks.changed b cell (List.mem_flatMap.mpr ⟨_, List.mem_singleton_self _, changed⟩) r' found' live

theorem composes_enlists (program : Program σ) :
    Composes program fun trials (s t : Renderer D σ) => s.Ready → Enlists trials s t where
  refl _ ready := .of_tracks (.refl ready)
  trans one two ready := (one ready).append (two (one ready).tracks.ready)
  reports _ _ ready := .of_tracks (.of_same ready rfl rfl rfl rfl rfl)
  calls _ _ ready := .of_tracks (.of_same ready rfl rfl rfl rfl rfl)
  placing placed ready := .of_tracks (tracks_placing ready placed)
  ran ran found ready := ran.enlists ready found

theorem Changes.registered (changes : Changes s u t place (scene place) qs) (settled : Settled s scene)
    (registered : t.activations.isRegistered a = true) : u.activations.isRegistered a = true := by
  by_cases inside : a ∈ activationsAll qs
  · obtain ⟨r, found, -⟩ := Activations.isRegistered_iff.mp registered
    obtain ⟨r', found', -⟩ := changes.confined.record found
    exact Activations.isRegistered_iff.mpr ⟨r', found', changes.lives settled inside found'⟩
  · have untouched : a ∉ activationsAll (scene place) ++ newIn s u := fun touched =>
      Bool.noConfusion (registered.symm.trans
        (changes.vanished a (List.mem_append.mp touched) inside).destroyed.not_registered)
    have same : t.activations.find? a = u.activations.find? a := changes.confined.others a untouched
    rwa [Activations.isRegistered, same] at registered

theorem Enlists.changed (enlists : Enlists trials s u) (changes : Changes s u t place (scene place) qs)
    (settled : Settled s scene) (requests : (⟨s, .retried b trials result, t⟩ : Episode D σ).Requests a) :
    t.activations.Destroyed a ∨ a ∈ t.scheduler.queue := by
  obtain ⟨early, trial, late, cell, same, changed, before⟩ := requests
  cases registered : t.activations.isRegistered a with
  | true =>
      rw [changes.confined.scheduler]
      exact .inr (enlists.waits early trial late same a cell changed before (changes.registered settled registered))
  | false =>
      have made : u.activations.find? a ≠ none := by
        refine before.elim (fun taken => (enlists.tracks.stays taken).1) fun member => enlists.made _ ?_
        have whole : trials = early ++ trial :: late := same
        rw [whole, List.append_cons, List.map_append]
        exact List.mem_append_left _ member
      refine .inl (Activations.destroyed_iff.mpr ⟨fun nothing => made ?_, fun member => ?_⟩)
      · have memory := changes.confined.memory a
        rw [nothing, Option.map_none] at memory
        exact Option.map_eq_none_iff.mp memory.symm
      · rw [Activations.mem_registered, registered] at member
        cases member

variable [Layer D]

theorem Settled.requested (settled : Settled s scene) (moves : Moves program agenda s h ending t)
    (visits : h.Visits) (ready : s.Ready) (requests : (⟨s, h, t⟩ : Episode D σ).Requests a) :
    t.activations.Destroyed a ∨ a ∈ t.scheduler.queue := by
  cases moves with
  | render | unmount | flush | task | edit => exact visits.elim
  | act | vainTask | passOver =>
      obtain ⟨early, _, _, _, same, -⟩ := requests
      cases early <;> cases same
  | @retry _ b record trials r _ rest found live due rerenders =>
      have begun : Enlists [] s (s.attempting b) := .of_tracks (.of_same ready rfl rfl rfl rfl rfl)
      obtain ⟨u, ⟨e, invokes, -, reverts⟩ | ⟨rendered, invokes, -, place, _, _, _, -, -, -, patches⟩⟩ :=
        settled.rerender_cases found (settled.find?_of_isLive found live) rerenders
      · have enlists := begun.append ((composes_enlists program).invokes invokes found begun.tracks.ready)
        exact enlists.changed (reverts.changes settled ⟨0⟩) settled requests
      · have enlists := begun.append ((composes_enlists program).invokes invokes found begun.tracks.ready)
        exact enlists.changed patches.changes settled requests

/-- A re-render that takes effect commits the activation and those inside it, and leaves the others as they
were. -/
theorem Settled.rerendered (settled : Settled s scene) (found : s.activations.find? b = some record)
    (live : record.unmounted = false) (rerenders : Rerenders program b record s trials (.ok ()) t) :
    (∀ a ∈ trials.map Trial.activation, Committed [⟨s, .retried b trials (.ok ()), t⟩] t a) ∧
      ∀ a r', t.activations.find? a = some r' → r'.unmounted = false →
        a ∉ trials.map Trial.activation → ∃ r, s.activations.find? a = some r ∧ r'.bare = r.bare := by
  obtain ⟨u, ⟨e, -, failed, -⟩ | ⟨rendered, invokes, -, place, spot, tree, output, -, whole, planned,
    patches⟩⟩ := settled.rerender_cases found live rerenders
  · cases failed
  have shown := invokes.shown rfl
  have invoked : trials.map Trial.activation = Plan.activationsAll [rendered.plan false] := by
    rw [activations_of_shown shown, Plan.activationsAll_eq]
  refine ⟨fun a member => ⟨_, List.mem_singleton_self _, b, trials, rfl, ?_, ?_, ?_⟩, fun a r' found' live' outside =>
    patches.others found' live' (invoked ▸ outside)⟩
  · have stands := patches.changes.stands
    rw [whole, redrawnAt] at stands
    obtain ⟨-, ⟨r, found, shows⟩, -, inner⟩ := stands_component.mp ((Spot.standAll_fill spot).mp stands).2
    rw [Activations.output_eq found, shows.output, inner.activations_eq,
      (Canvas.redrawAll_shows rendered.output _ _ planned.fits _).2]
    rw [invoked, whole, Plan.activationsAll, Plan.activationsAll, List.append_nil, Rendered.plan,
      Plan.activations] at member
    exact List.mem_cons.mp member
  · rw [patches.changes.epoch_eq]
    exact patches.rendered a (invoked ▸ member)
  · rw [invoked, Plan.activationsAll_eq] at member
    obtain ⟨x, planned, rfl⟩ := List.mem_map.mp member
    obtain ⟨trial, tried, came⟩ : ∃ trial ∈ trials, trial.shown? = some x :=
      List.mem_map.mp (shown ▸ List.mem_map_of_mem planned)
    exact ⟨trial, tried, x, came, rfl, patches.shown x planned⟩

/-- After a visit whatever is live was committed by it, or is as it was. -/
theorem Settled.renews (settled : Settled s scene) (moves : Moves program agenda s h ending t)
    (visits : h.Visits) (there : s.dropped = false) (found' : t.activations.find? a = some r')
    (live : r'.unmounted = false) :
    Committed [⟨s, h, t⟩] t a ∨ (¬ h.Shows a ∧ ∃ r, s.activations.find? a = some r ∧ r'.bare = r.bare) := by
  cases moves with
  | render | unmount | flush | task | edit => exact visits.elim
  | vainTask _ dropped => exact absurd (dropped.symm.trans there) nofun
  | passOver => exact .inr ⟨id, r', found', rfl⟩
  | act acts =>
      have bare := (Undisturbed.acts acts).bare a
      rw [found', Option.map_some] at bare
      obtain ⟨r, found, same⟩ := Option.map_eq_some_iff.mp bare.symm
      exact .inr ⟨id, r, found, same.symm⟩
  | @retry _ b record trials result _ rest found live' due rerenders =>
      have registered := settled.find?_of_isLive found live'
      cases result with
      | ok =>
          obtain ⟨committed, others⟩ := settled.rerendered found registered rerenders
          by_cases inside : a ∈ trials.map Trial.activation
          · exact .inl (committed a inside)
          · exact .inr ⟨inside, others a r' found' live inside⟩
      | error e =>
          obtain ⟨u, ⟨_, -, -, reverts⟩ | ⟨_, -, ok, -⟩⟩ := settled.rerender_cases found registered rerenders
          · exact .inr ⟨id, reverts.others settled found' live⟩
          · cases ok

/-- A flush is under way that was to visit `queue` and has still to visit `agenda`. -/
structure Underway (queue agenda : List ActivationId) (visits : List (Episode D σ)) (s : Renderer D σ) :
    Prop where
  ready : s.Ready
  prompt : s.Prompt
  live : ∀ a ∈ queue, ∀ r, s.activations.find? a = some r → r.unmounted = false →
    a ∈ (failures visits).map Prod.fst ∨ Committed visits s a ∨ (a ∈ agenda ∧ r.renderedIn ≠ s.epoch)
  marked : ∀ a r, s.activations.find? a = some r → r.unmounted = false → r.renderedIn = s.epoch →
    Committed visits s a
  requested : ∀ visit ∈ visits, ∀ a, visit.Requests a →
    s.activations.Destroyed a ∨ a ∈ s.scheduler.queue

namespace Underway

omit [Layer D] in
theorem begun (settled : Settled s scene) (ready : s.Ready) :
    Underway s.scheduler.queue s.scheduler.queue [] s.flushing where
  ready := ⟨ready.dropped, ready.owned⟩
  prompt := ⟨fun waits => absurd rfl waits, nofun⟩
  live a waits r found live := by
    have early : r.renderedIn ≤ s.epoch := settled.epoch a r found live
    exact .inr (.inr ⟨waits, Nat.ne_of_lt (Nat.lt_succ_of_le early)⟩)
  marked a r found live marked := by
    have early : r.renderedIn ≤ s.epoch := settled.epoch a r found live
    exact absurd marked (Nat.ne_of_lt (Nat.lt_succ_of_le early))
  requested _ member := (List.not_mem_nil member).elim

/-- What has still to be visited is attempted in its turn, unless that is needless. -/
theorem attempted (underway : Underway queue agenda visits s) (settled : Settled s scene)
    (moves : Moves program agenda s h ending t) (visiting : h.Visits) (waits : a ∈ agenda)
    (found : s.activations.find? a = some r) (live : r.unmounted = false) (due : r.renderedIn ≠ s.epoch)
    (unshown : ¬ h.Shows a) :
    a ∈ (failures [(⟨s, h, t⟩ : Episode D σ)]).map Prod.fst ∨ a ∈ ending := by
  cases moves with
  | render | unmount | flush | task | edit => exact visiting.elim
  | vainTask _ dropped => exact absurd (dropped.symm.trans underway.ready.dropped) nofun
  | act => exact .inr waits
  | @passOver head rest _ rendered =>
      refine .inr ((List.mem_cons.mp waits).resolve_left fun same => due ?_)
      subst same
      exact rendered r found ((settled.isLive_eq _).trans (Activations.isRegistered_iff.mpr ⟨r, found, live⟩))
  | @retry _ head record trials result _ rest _ _ _ rerenders =>
      rcases List.mem_cons.mp waits with rfl | later
      · obtain ⟨_, _, _, invokes, -⟩ := rerenders.passed
        cases result with
        | ok => exact absurd invokes.mem_trials unshown
        | error e => exact .inl (List.mem_singleton_self _)
      · exact .inr later

theorem moves (underway : Underway queue agenda visits s) (settled : Settled s scene)
    (moves : Moves program agenda s h ending t) (visiting : h.Visits) :
    Underway queue ending (visits ++ [⟨s, h, t⟩]) t := by
  have other : h ≠ .began := fun begins => by
    rw [begins] at visiting
    exact visiting
  have hears := settled.hears moves underway.ready.dropped other
  have epoch := (settled.moves moves).2 other
  refine ⟨moves.ready settled underway.ready, hears.prompt underway.prompt,
    fun a waits r' found' live => ?_, fun a r' found' live marked => ?_, fun visit member a requests => ?_⟩
  · rcases settled.renews moves visiting underway.ready.dropped found' live with now | ⟨unshown, r, found, same⟩
    · exact .inr (.inl (now.prepend _))
    have lived : r.unmounted = false := (congrArg Activation.unmounted same.symm :).trans live
    rcases underway.live a waits r found lived with failed | committed | ⟨left, due⟩
    · rw [failures_append, List.map_append]
      exact .inl (List.mem_append_left _ failed)
    · exact .inr (.inl (committed.append found found' same epoch _))
    · rcases underway.attempted settled moves visiting left found lived due unshown with failed | later
      · rw [failures_append, List.map_append]
        exact .inl (List.mem_append_right _ failed)
      · have kept : r'.renderedIn = r.renderedIn := (congrArg Activation.renderedIn same :)
        refine .inr (.inr ⟨later, ?_⟩)
        rwa [kept, epoch]
  · rcases settled.renews moves visiting underway.ready.dropped found' live with now | ⟨-, r, found, same⟩
    · exact now.prepend _
    · have lived : r.unmounted = false := (congrArg Activation.unmounted same.symm :).trans live
      have kept : r.renderedIn = r'.renderedIn := (congrArg Activation.renderedIn same.symm :)
      exact (underway.marked a r found lived (by rw [kept, marked, epoch])).append found found' same epoch _
  · rcases List.mem_append.mp member with early | last
    · exact (underway.requested visit early a requests).imp (settled.gone moves) hears.keeps
    · cases List.mem_singleton.mp last
      exact settled.requested moves visiting underway.ready requests

theorem course (underway : Underway queue agenda visits s) (settled : Settled s scene)
    (course : Course program agenda s more ending t) (visiting : Visiting more) :
    Underway queue ending (visits ++ more) t := by
  induction course generalizing scene visits with
  | nil => rwa [List.append_nil]
  | cons moves _ ih =>
      obtain ⟨⟨_, between⟩, -⟩ := settled.moves moves
      obtain ⟨first, visiting⟩ := List.forall_mem_cons.mp visiting
      have later := ih (underway.moves settled moves first) between visiting
      rwa [List.append_assoc, List.singleton_append] at later

end Underway

theorem Settled.epoch_of_course (settled : Settled s scene)
    (course : Course program agenda s episodes ending t) (unbroken : Unbroken episodes) : t.epoch = s.epoch := by
  induction course generalizing scene with
  | nil => rfl
  | cons moves _ ih =>
      obtain ⟨⟨_, between⟩, same⟩ := settled.moves moves
      obtain ⟨other, unbroken⟩ := List.forall_mem_cons.mp unbroken
      exact (ih between unbroken).trans (same other)

/-- What is destroyed is invoked no more, from the start and from each move on. -/
theorem Settled.spares (settled : Settled s scene) (course : Course program agenda s episodes ending t) :
    (∀ a, s.activations.Destroyed a → ∀ episode ∈ episodes,
      a ∉ episode.happening.trials.map Trial.activation) ∧
    episodes.Pairwise fun one two => ∀ a, one.after.activations.Destroyed a →
      a ∉ two.happening.trials.map Trial.activation := by
  induction course generalizing scene with
  | nil => exact ⟨fun _ _ => List.forall_mem_nil _, .nil⟩
  | cons moves _ ih =>
      obtain ⟨⟨_, between⟩, -⟩ := settled.moves moves
      obtain ⟨spared, later⟩ := ih between
      refine ⟨fun a gone => List.forall_mem_cons.mpr ⟨fun member => ?_, spared a (settled.gone moves gone)⟩,
        List.pairwise_cons.mpr ⟨fun episode member a gone => spared a gone episode member, later⟩⟩
      obtain ⟨trial, tried, rfl⟩ := List.mem_map.mp member
      exact settled.invokes_live moves trial tried gone

theorem Course.failures_sublist (course : Course program agenda s visits ending t) (visiting : Visiting visits) :
    ((failures visits).map Prod.fst ++ ending).Sublist agenda := by
  induction course with
  | nil => exact List.Sublist.refl _
  | @cons agenda s happening between t visits ending u moves _ ih =>
      obtain ⟨first, visiting⟩ := List.forall_mem_cons.mp visiting
      have later := ih visiting
      cases moves with
      | render | unmount | flush | task | edit => exact first.elim
      | act | vainTask => exact later
      | passOver => exact later.cons _
      | @retry _ a record trials result =>
          cases result with
          | ok => exact later.cons _
          | error e => exact later.cons_cons a

/-- What a flush of `queue` comes to by the visits that it makes: what was pending and is live is listed or
committed, and only what is committed is marked; what was destroyed is spared by later visits; failures are
answered in order, each with its first error; and requests made meanwhile wait. -/
structure Completes (queue : List ActivationId) (visits : List (Episode D σ)) (answer : Except FlushError Nat)
    (t : Renderer D σ) : Prop where
  live : ∀ a ∈ queue, t.activations.isRegistered a = true →
    a ∈ (failures visits).map Prod.fst ∨ Committed visits t a
  marked : ∀ a r, t.activations.find? a = some r → r.unmounted = false → r.renderedIn = t.epoch →
    Committed visits t a
  gone : visits.Pairwise fun one two => ∀ a, one.after.activations.Destroyed a →
    a ∉ two.happening.trials.map Trial.activation
  fails : (∃ e, answer = .error e) ↔
    ∃ visit ∈ visits, ∃ a trials e, visit.happening = .retried a trials (.error e)
  lists : ∀ e, answer = .error e → e.failures = failures visits
  order : ((failures visits).map Prod.fst).Sublist queue
  causes : ∀ visit ∈ visits, ∀ a trials r, visit.happening = .retried a trials r →
    ∀ e, r = .error e ↔ firstError trials = some e
  requested : ∀ visit ∈ visits, ∀ a, visit.Requests a → t.activations.Destroyed a ∨
    (a ∈ t.scheduler.queue ∧ t.scheduler.armed = true ∧ t.waiting ≠ 0)

omit [Layer D] in
theorem tally_eq_error {visits : List (Episode D σ)} :
    tally visits = .error e ↔ failures visits ≠ [] ∧ e.failures = failures visits := by
  rw [tally]
  split
  next none_failed =>
    constructor
    · intro succeeded
      cases succeeded
    · exact fun failed => absurd (List.isEmpty_iff.mp none_failed) failed.1
  next failed =>
    rw [List.isEmpty_iff] at failed
    constructor
    · intro same
      cases same
      exact ⟨failed, rfl⟩
    · rintro ⟨-, same⟩
      rw [← same]

omit [Layer D] in
theorem failed_iff {visits : List (Episode D σ)} : failures visits ≠ [] ↔
    ∃ visit ∈ visits, ∃ a trials e, visit.happening = .retried a trials (.error e) := by
  simp only [failures, ne_eq, List.filterMap_eq_nil_iff, not_forall, exists_prop]
  refine exists_congr fun visit => and_congr_right fun _ => ?_
  constructor
  · intro failed
    obtain ⟨before, happening, after⟩ := visit
    cases happening with
    | retried a trials result =>
        cases result with
        | ok => exact absurd rfl failed
        | error e => exact ⟨a, trials, e, rfl⟩
    | _ => exact absurd rfl failed
  · rintro ⟨a, trials, e, failed⟩
    obtain ⟨before, happening, after⟩ := visit
    cases failed
    exact Option.some_ne_none _

theorem Settled.completes (settled : Settled s scene) (ready : s.Ready)
    (course : Course program s.scheduler.queue s.flushing visits [] t) (visiting : Visiting visits) :
    Completes s.scheduler.queue visits (tally visits) t := by
  have begun : Settled s.flushing scene := settled.of_same rfl rfl rfl (Nat.le_succ _)
  have underway := (Underway.begun settled ready).course begun course visiting
  rw [List.nil_append] at underway
  refine ⟨fun a waits registered => ?_, underway.marked, (begun.spares course).2, ?_,
    fun e failed => (tally_eq_error.mp failed).2, ?_,
    fun visit member a trials r retried => (begun.unchanged_of_course course member retried).1,
    fun visit member a requests => ?_⟩
  · obtain ⟨r, found, live⟩ := Activations.isRegistered_iff.mp registered
    exact (underway.live a waits r found live).imp_right fun either =>
      either.resolve_right fun ⟨left, _⟩ => List.not_mem_nil left
  · rw [← failed_iff]
    constructor
    · rintro ⟨e, failed⟩
      exact (tally_eq_error.mp failed).1
    · exact fun failed => ⟨⟨failures visits⟩, tally_eq_error.mpr ⟨failed, rfl⟩⟩
  · have order := course.failures_sublist visiting
    rwa [List.append_nil] at order
  · refine (underway.requested visit member a requests).imp_right fun waits => ?_
    have armed := underway.prompt.armed (List.ne_nil_of_mem waits)
    exact ⟨waits, armed, underway.prompt.waiting armed⟩

/-- A flush, begun between any calls with anything pending in any order, comes to an end and is complete,
unless components nest too deeply. Whatever was pending and is still there is listed as failed or was
committed. What a visit destroyed is invoked by none after it. An error is answered just if a re-render
failed, and lists the failed ones in their order with the error of the first invocation that failed. What
was asked for meanwhile is pending with a task that waits to flush it, unless it is gone. -/
theorem Run.flush_completes (run : Run program episodes s) (quiet : program.Quiet)
    (scheduler : Scheduler ActivationId) :
    (∀ answer t, Returns (flush program) { s with scheduler } answer t → ∃ visits,
      Course program scheduler.queue { s with scheduler }.flushing visits [] t ∧ Visiting visits ∧
        t.epoch = s.epoch + 1 ∧ Completes scheduler.queue visits answer t) ∧
    ∀ reason, GivesUp (flush program) { s with scheduler } reason → reason = .exhausted := by
  obtain ⟨scene, settled⟩ := run.settled
  have ready := run.kept.ready
  have settled : Settled { s with scheduler } scene := settled.of_same rfl rfl rfl (Nat.le_refl _)
  refine ⟨fun answer t returned => ?_, fun reason gaveUp => settled.flush_exhausted quiet gaveUp⟩
  obtain ⟨visits, course, visiting, rfl⟩ := visits_of_flushBy quiet settled returned
  have begun : Settled { s with scheduler }.flushing scene := settled.of_same rfl rfl rfl (Nat.le_succ _)
  exact ⟨visits, course, visiting, begun.epoch_of_course course visiting.unbroken,
    settled.completes ⟨ready.dropped, ready.owned⟩ course visiting⟩

def climber : Program Unit where
  component c _ := .useState .int (.done (Datum.int 0).initial) fun answer =>
    match answer with
    | .error e => .done (.error e)
    | .ok (d, setter) =>
        if d = .int 1 then
          if c.code = "stuck" then .done (.error (.component c.code))
          else .updateCell setter (fun _ => .int 2) (.done (.ok (.text (.text c.code))))
        else .done (.ok (.text (.text c.code)))
  handler _ _ := .done false

theorem quiet_climber : climber.Quiet := fun _ _ calls => by
  cases calls with
  | initial later => cases later
  | useState answer later =>
      cases answer with
      | error => cases later
      | ok answer =>
          dsimp only at later
          split at later
          · split at later
            · cases later
            · cases later with
              | updateCell later => cases later
          · cases later

/-- Two components are set to one and flushed: one fails, and the other is committed and asks again. -/
theorem one_stuck_one_climbs :
    let page : Tree := .fragment [.component ⟨⟨0, "stuck"⟩, none⟩, .component ⟨⟨1, "free"⟩, none⟩]
    let x : Action Unit Unit := .render page ⟨1⟩ fun _ => .updateCell ⟨⟨1⟩, .int⟩ (fun _ => .int 1)
      (.updateCell ⟨⟨2⟩, .int⟩ (fun _ => .int 1) (.done ()))
    let failed : FlushError := ⟨[(⟨1⟩, .component "stuck")]⟩
    ∃ (s t : Renderer Document Unit) (visits : List (Episode Document Unit)),
      Returns (perform (top climber) x) (new Document.empty.createContainer.2 ()) () s ∧
      s.scheduler.queue = [⟨1⟩, ⟨2⟩] ∧ Returns (flush climber) s (.error failed) t ∧
      Completes [⟨1⟩, ⟨2⟩] visits (.error failed) t ∧ Committed visits t ⟨2⟩ ∧
      t.scheduler.queue = [⟨2⟩] ∧ t.activations.registered = [⟨1⟩, ⟨2⟩] := by
  intro page x failed
  let steps : RenderM Document Unit (List ActivationId × Except FlushError Nat) := do
    perform (top climber) x
    let queue := (← get).scheduler.queue
    let answer ← flush climber
    return (queue, answer)
  obtain ⟨_, _, returned, same⟩ := exists_returns steps
    (fun r => (r.1, r.2.scheduler.queue, r.2.activations.registered))
    (s := new Document.empty.createContainer.2 ())
    (b := (([⟨1⟩, ⟨2⟩], .error failed), [⟨2⟩], [⟨1⟩, ⟨2⟩])) (by decide +kernel)
  simp only [steps, returns_bind, returns_get, returns_pure] at returned
  obtain ⟨_, s, shown, _, _, ⟨rfl, rfl⟩, answer, t, flushed, rfl, rfl⟩ := returned
  obtain ⟨before, after⟩ := Prod.mk.inj same
  obtain ⟨queued, rfl⟩ := Prod.mk.inj before
  obtain ⟨waits, registered⟩ := Prod.mk.inj after
  obtain ⟨more, run⟩ := ((Run.new _ ()).goes_on quiet_climber).1 _ _ _ _ shown
  obtain ⟨visits, -, -, -, completes⟩ := (run.flush_completes quiet_climber s.scheduler).1 _ t flushed
  have queued : s.scheduler.queue = [⟨1⟩, ⟨2⟩] := queued
  rw [queued] at completes
  have live : t.activations.isRegistered ⟨2⟩ = true := by
    have member : ⟨2⟩ ∈ t.activations.registered := registered ▸ List.mem_cons_of_mem _ (List.mem_singleton_self _)
    exact Activations.mem_registered.mp member
  have committed : Committed visits t ⟨2⟩ := by
    refine (completes.live ⟨2⟩ (List.mem_cons_of_mem _ (List.mem_singleton_self _)) live).resolve_left ?_
    rw [← completes.lists failed rfl]
    decide
  exact ⟨s, t, visits, shown, queued, flushed, completes, committed, waits, registered⟩

end Renderer
end Patchwork
