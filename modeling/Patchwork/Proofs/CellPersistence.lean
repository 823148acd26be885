import Patchwork.Proofs.ActivationAccounting
import Patchwork.Proofs.CellChronicle

/-! State cells are remembered. Whatever a run does, chronicles of it can be kept, and they settle what
every cell holds: renders that fail, re-renders and what is destroyed between the calls of a component change
nothing about its cells. -/
namespace Patchwork.Renderer

open Chronicle

variable {D σ : Type} {δ : StateData} [HasStateData σ δ]

/-- Invocations happen one after another and are added to a chronicle. -/
inductive Enacts (program : Program σ) : Renderer D σ → Chronicle D σ → List (Trial δ) → Renderer D σ →
    Chronicle D σ → Prop
  | still : Still s t → Enacts program s log [] t log
  | trial {trial : Trial δ} : Still s u → u.activations.find? trial.activation ≠ none →
      Writes program (program.component trial.component trial.props)
        (u.entering trial.activation trial.component)
        (⟨u, .entered trial.activation, u.entering trial.activation trial.component⟩ :: log)
        trial.outcome v now →
      Still v w → Enacts program w (⟨v, .left, w⟩ :: now) trials t later →
      Enacts program s log (trial :: trials) t later

/-- A move is added to a chronicle: what was done outside of invocations, where a task may have been taken
off those that wait, or the invocations. -/
inductive Records (program : Program σ) : Episode D σ → Chronicle D σ → Chronicle D σ → Prop
  | acted {α : Type} {x : Action σ α} {answer : α} (waiting : Nat) :
      Writes program x { before with waiting } log answer after now →
      Records program ⟨before, .acted deeds, after⟩ log now
  | enacted : (∀ deeds, happening ≠ .acted deeds) → Enacts program before log happening.trials after now →
      Records program ⟨before, happening, after⟩ log now

/-- The chronicle tells all of what has happened to cells since the renderer was new. -/
inductive Chronicles (program : Program σ) : List (Episode D σ) → Renderer D σ → Chronicle D σ → Prop
  | begun (dom : D) (store : σ) : Chronicles program [] (new dom store) []
  | went {episode : Episode D σ} : Chronicles program episodes episode.before log →
      Records program episode log now → Chronicles program (episodes ++ [episode]) episode.after now

variable {s t u : Renderer D σ} {log now later : Chronicle D σ} {program : Program σ} {scene : Scene}

namespace Still

@[refl] theorem refl (s : Renderer D σ) : Still s s := ⟨fun _ => rfl, rfl⟩

theorem trans (one : Still s t) (two : Still t u) : Still s u :=
  ⟨fun a => (two.places a).trans (one.places a), two.cells.trans one.cells⟩

theorem of_same (same : t.activations = s.activations) (cells : t.cells = s.cells) : Still s t :=
  ⟨fun _ => by rw [same], cells⟩

theorem of_calls (s : Renderer D σ) (calls : Calls) : Still s { s with calls } := of_same rfl rfl

theorem of_confined {roots : Dict NodeId (List Mounted)} {calls : Calls}
    (confined : Confined within { s with roots, calls } t) : Still s t := by
  refine ⟨fun a => ?_, confined.cells⟩
  have memory := congrArg (Option.map fun memory => memory.2.1) (confined.memory a)
  rw [Option.map_map, Option.map_map] at memory
  exact congrArg (·.getD []) memory

end Still

theorem still_placing (returned : Returns (placing owner reference entry) s (a, fresh) t) : Still s t := by
  obtain ⟨-, -, rfl⟩ | ⟨-, -, index, rfl⟩ := placing_cases returned
  · exact .refl _
  · refine ⟨fun b => ?_, rfl⟩
    rw [Activations.cells, Activations.find?_alloc, Activations.cells]
    split
    next same =>
      have unknown : s.activations.find? b = none := Arena.get?_of_issued_lt (by omega)
      rw [unknown]
      rfl
    next => rfl

theorem still_checkCellCount (returned : Returns (checkCellCount a) s () t) : Still s t := by
  obtain ⟨_, rs, rfl, rfl | ⟨count, rfl⟩⟩ := returns_checkCellCount returned
  · exact .of_same rfl rfl
  · exact ⟨fun _ => Activations.cells_update_rest _ _ _ fun _ => rfl, rfl⟩

namespace Enacts

theorem after (one : Still s t) (two : Enacts program t log trials u later) :
    Enacts program s log trials u later := by
  cases two with
  | still two => exact .still (one.trans two)
  | trial two there writes ended rest => exact .trial (one.trans two) there writes ended rest

theorem append (one : Enacts program s log first t now) (two : Enacts program t now second u later) :
    Enacts program s log (first ++ second) u later := by
  induction one with
  | still one => exact two.after one
  | trial one there writes ended _ ih => exact .trial one there writes ended (ih two)

theorem before (one : Enacts program s log trials t later) (two : Still t u) :
    Enacts program s log trials u later := by
  have both := one.append (.still two)
  rwa [List.append_nil] at both

end Enacts

theorem Ran.enacts (ran : Ran program a c props s deeds outcome t) (found : s.activations.find? a = some r)
    (log : Chronicle D σ) : ∃ later, Enacts program s log [⟨a, c, props, deeds, outcome⟩] t later := by
  obtain ⟨acts, ended⟩ := ran
  obtain ⟨now, writes⟩ := acts.writes (⟨s, .entered a, s.entering a c⟩ :: log)
  refine ⟨_, .trial (.refl s) (found ▸ nofun) writes ?_ (.still (.refl t))⟩
  split at ended
  · exact (Still.of_calls ..).trans (still_checkCellCount ended)
  · obtain ⟨-, rfl⟩ := returns_pure.mp ended
    exact .of_same rfl rfl

/-- Whatever invocations do can be added to any chronicle. -/
theorem composes_enacts (program : Program σ) : Composes program fun trials (s t : Renderer D σ) =>
    ∀ log, ∃ later, Enacts program s log trials t later where
  refl s log := ⟨log, .still (.refl s)⟩
  trans one two log := by
    obtain ⟨now, first⟩ := one log
    exact (two now).imp fun _ => first.append
  reports _ _ log := ⟨log, .still (.of_same rfl rfl)⟩
  calls _ _ log := ⟨log, .still (.of_same rfl rfl)⟩
  placing placed log := ⟨log, .still (still_placing placed)⟩
  ran := Ran.enacts

section Passing

variable [Layer D]

theorem Settled.records (settled : Settled s scene) (moves : Moves program agenda s happening ending t)
    (log : Chronicle D σ) : ∃ now, Records program ⟨s, happening, t⟩ log now := by
  cases moves with
  | act acts => exact (acts.writes log).imp fun _ writes => .acted s.waiting writes
  | vainTask =>
      have idle : Writes program (.done ()) s.tasked log () s.tasked log := .done
      exact ⟨log, .acted _ idle⟩
  | unmount returned =>
      obtain ⟨t', returned', changes, -⟩ := settled.unmounts _
      obtain ⟨-, rfl⟩ := returned.unique returned'
      exact ⟨log, .enacted nofun (.still (.of_confined changes.confined))⟩
  | flush | task | edit => exact ⟨log, .enacted nofun (.still (.of_same rfl rfl))⟩
  | passOver => exact ⟨log, .enacted nofun (.still (.refl s))⟩
  | @render tree place _ trials r _ renders =>
      have begun : Still s (s.beginning place) := .of_same rfl rfl
      obtain ⟨u, ⟨e, passes, -, reverts⟩ | ⟨plans, passes, -, -, patches⟩⟩ := settled.render_cases renders
      · obtain ⟨now, enacts⟩ := (composes_enacts program).passes passes log
        exact ⟨now, .enacted nofun ((enacts.after begun).before (.of_confined reverts.confined))⟩
      · obtain ⟨now, enacts⟩ := (composes_enacts program).passes passes log
        exact ⟨now, .enacted nofun ((enacts.after begun).before (.of_confined patches.changes.confined))⟩
  | @retry _ a record trials r _ rest found live due rerenders =>
      have begun : Still s (s.attempting a) := .of_same rfl rfl
      obtain ⟨u, ⟨e, invokes, -, reverts⟩ | ⟨rendered, invokes, -, place, _, _, _, -, -, -, patches⟩⟩ :=
        settled.rerender_cases found (settled.find?_of_isLive found live) rerenders
      · obtain ⟨now, enacts⟩ := (composes_enacts program).invokes invokes found log
        exact ⟨now, .enacted nofun ((enacts.after begun).before (.of_confined reverts.confined))⟩
      · obtain ⟨now, enacts⟩ := (composes_enacts program).invokes invokes found log
        exact ⟨now, .enacted nofun ((enacts.after begun).before (.of_confined patches.changes.confined))⟩

theorem Chronicles.course (told : Chronicles program past s log) (settled : Settled s scene)
    (course : Course program agenda s episodes ending t) :
    ∃ now, Chronicles program (past ++ episodes) t now := by
  induction course generalizing past log scene with
  | nil => exact ⟨log, (List.append_nil past).symm ▸ told⟩
  | @cons _ s happening _ t episodes _ _ moves _ ih =>
      obtain ⟨now, records⟩ := settled.records moves log
      obtain ⟨⟨_, between⟩, -⟩ := settled.moves moves
      have more : Chronicles program (past ++ [⟨s, happening, t⟩]) t now := .went (by exact told) records
      obtain ⟨later, whole⟩ := ih more between
      rw [List.append_assoc] at whole
      exact ⟨later, whole⟩

end Passing

/-- Between invocations the chronicle is abreast, and no hook call has a turn. -/
structure Rests (log : Chronicle D σ) (s : Renderer D σ) : Prop where
  lawful : Lawful log
  recalled : Recalled log s
  turn : Chronicle.turn log = none

theorem Rests.still (rests : Rests log s) (still : Still s t) : Rests log t :=
  ⟨rests.lawful, rests.recalled.still still, rests.turn⟩

def Idle (s : Renderer D σ) : Prop := s.calls.current = none

theorem Idle.outside (idle : s.Idle) : s.currentActivation? = none := by
  rw [currentActivation?, idle, Option.bind_none]

/-- Where an activation is entered, the first hook call would be about its first cell. -/
theorem Rests.entered (rests : Rests log s) (there : s.activations.find? a ≠ none) (c : Component) :
    Abreast (⟨s, .entered a, s.entering a c⟩ :: log) (s.entering a c) := by
  obtain ⟨r, found⟩ := Option.ne_none_iff_exists'.mp there
  have after : Recalled (⟨s, .entered a, s.entering a c⟩ :: log) (s.entering a c) :=
    rests.recalled.of_same ⟨fun _ => Activations.cells_update_rest _ _ _ fun _ => rfl, rfl⟩ (fun _ _ => rfl)
      fun _ => rfl
  have opened : (s.entering a c).currentActivation? = some (a, { r with cursor := 0 }) := by
    refine currentActivation?_eq_some.mpr ⟨rfl, ?_⟩
    rw [entering, Activations.find?_update_self, found, Option.map_some]
  refine ⟨rests.lawful.cons (obeys_of_not_hook rests.recalled after rfl), after, fun outside => ?_, fun here => ?_⟩
  · cases outside.symm.trans opened
  · cases here.symm.trans opened
    exact ⟨0, rfl, rfl, Nat.zero_le _, fun more => absurd rfl more⟩

theorem rests_of_left (abreast : Abreast log s) (still : Still s t) :
    Rests (⟨s, .left, t⟩ :: log) t := by
  have after : Recalled (⟨s, .left, t⟩ :: log) t :=
    abreast.recalled.of_same still (fun _ _ => rfl) fun _ => rfl
  exact ⟨abreast.lawful.cons (obeys_of_not_hook abreast.recalled after rfl), after, rfl⟩

theorem Enacts.rests (enacts : Enacts program s log trials t later) (rests : Rests log s) :
    Rests later t ∧ log <:+ later := by
  induction enacts with
  | still still => exact ⟨rests.still still, List.suffix_rfl⟩
  | trial still there writes ended _ ih =>
      obtain ⟨abreast, more⟩ := writes.abreast ((rests.still still).entered there _)
      obtain ⟨later, rest⟩ := ih (rests_of_left abreast ended)
      exact ⟨later, (((List.suffix_cons ..).trans more).trans (List.suffix_cons ..)).trans rest⟩

theorem Records.rests {episode : Episode D σ} (records : Records program episode log now)
    (idle : episode.before.Idle) (idle' : episode.after.Idle) (rests : Rests log episode.before) :
    Rests now episode.after ∧ log <:+ now := by
  cases records with
  | @acted before log after now deeds α x answer waiting writes =>
      let s : Renderer D σ := { before with waiting }
      have outside : s.currentActivation? = none := Idle.outside (s := s) idle
      have begun : Abreast log s := by
        refine ⟨rests.lawful, rests.recalled.still (.of_same rfl rfl), fun _ => rests.turn, fun here => ?_⟩
        cases outside.symm.trans here
      obtain ⟨abreast, more⟩ := writes.abreast begun
      exact ⟨⟨abreast.lawful, abreast.recalled, abreast.outside idle'.outside⟩, more⟩
  | enacted _ enacts => exact enacts.rests rests

theorem Chronicles.rests (told : Chronicles program episodes s log)
    (idle : ∀ episode ∈ episodes, episode.before.Idle ∧ episode.after.Idle) :
    Rests log s ∧ ∀ episode ∈ episodes, ∃ early, early <:+ log ∧ Recalled early episode.after := by
  induction told with
  | begun dom store =>
      refine ⟨⟨.nil, ⟨fun a n => ?_, nofun, nofun⟩, rfl⟩, List.forall_mem_nil _⟩
      rw [new, Activations.cells, Activations.find?, Arena.get?_empty]
      rfl
  | @went episodes log now episode told records ih =>
      obtain ⟨before, last⟩ := List.forall_mem_append.mp idle
      obtain ⟨idle, idle'⟩ := last episode (List.mem_singleton_self _)
      obtain ⟨rests, earlier⟩ := ih before
      obtain ⟨later, more⟩ := records.rests idle idle' rests
      refine ⟨later, List.forall_mem_append.mpr ⟨fun past member => ?_, ?_⟩⟩
      · obtain ⟨early, suffix, recalled⟩ := earlier past member
        exact ⟨early, suffix.trans more, recalled⟩
      · exact List.forall_mem_singleton.mpr ⟨now, List.suffix_rfl, later.recalled⟩

variable [Layer D]

end Patchwork.Renderer
