import Patchwork.Proofs.Outline
import Patchwork.Proofs.CellTracking

/-! What the invocations of a pass leave in state cells. The hook calls of each were answered with what the
cells of its activation hold when the pass is over, unless the activation is pending then. -/
namespace Patchwork

def Trial.shown? {δ : StateData} (trial : Trial δ) : Option Shown :=
  match trial.outcome with
  | .ok tree => some ⟨trial.activation, trial.component, trial.props, tree⟩
  | .error _ => none

theorem activations_of_shown {δ : StateData} {trials : List (Trial δ)} {xs : List Shown}
    (same : trials.map Trial.shown? = xs.map some) :
    trials.map Trial.activation = xs.map Shown.activation := by
  induction trials generalizing xs with
  | nil =>
      cases xs with
      | nil => rfl
      | cons => cases same
  | cons trial rest ih =>
      cases xs with
      | nil => cases same
      | cons x xs =>
          rw [List.map_cons, List.map_cons, List.cons.injEq] at same
          rw [List.map_cons, List.map_cons, ih same.2]
          obtain ⟨a, c, props, deeds, outcome⟩ := trial
          cases outcome with
          | error => cases same.1
          | ok => cases same.1; rfl

def deedsIn {δ : StateData} (trials : List (Trial δ)) : List (Deed δ) := trials.flatMap Trial.deeds

theorem deedsIn_append {δ : StateData} (one two : List (Trial δ)) :
    deedsIn (one ++ two) = deedsIn one ++ deedsIn two := List.flatMap_append

namespace Renderer

variable {D σ : Type} {δ : StateData} [HasStateData σ δ] {s t u : Renderer D σ} {program : Program σ}
  {trial : Trial δ} {trials first second : List (Trial δ)} {deeds : List (Deed δ)}

/-- A component with its props ended so, and its hook calls were answered with these cells in turn. -/
def EndsWith (D : Type) (program : Program σ) (component : Component) (props : Props) (cells : List δ.Datum)
    (outcome : Except RenderError Tree) : Prop :=
  ∃ (s t : Renderer D σ) (deeds : List (Deed δ)),
    Acts program (program.component component props) s deeds outcome t ∧ Answered cells 0 deeds

theorem EndsWith.mono {cells cells' : List δ.Datum} (ends : EndsWith D program c props cells outcome)
    (more : cells <+: cells') : EndsWith D program c props cells' outcome := by
  obtain ⟨s, t, deeds, acts, answered⟩ := ends
  exact ⟨s, t, deeds, acts, answered.mono more⟩

/-- The invocation came to what its component comes to with the activation's cells, unless the activation is
pending. -/
def Recalls (program : Program σ) (t : Renderer D σ) (trial : Trial δ) : Prop :=
  ∃ r, t.activations.find? trial.activation = some r ∧ (r.unmounted = false →
    trial.activation ∈ t.scheduler.queue ∨
    EndsWith D program trial.component trial.props (t.contents r) trial.outcome)

theorem Recalls.mono (recalls : Recalls program s trial) (tracks : Tracks deeds s t) :
    Recalls program t trial := by
  obtain ⟨r, found, recalled⟩ := recalls
  obtain ⟨r', found', same, kept⟩ := tracks.cells _ r found
  refine ⟨r', found', fun live => ?_⟩
  rw [same] at live
  rcases recalled live with waits | ends
  · exact .inl (tracks.pending _ waits)
  · exact (kept live).imp_right ends.mono

theorem tracks_checkCellCount (ready : s.Ready) (returned : Returns (checkCellCount a) s () t) :
    Tracks [] s t := by
  obtain ⟨_, rs, rfl, rfl | ⟨count, rfl⟩⟩ := returns_checkCellCount returned
  · exact .of_same ready rfl rfl rfl rfl rfl
  · have counted := Tracks.update ready a ({ · with previousCount := count }) (fun _ => rfl) fun _ => rfl
    exact counted.after (.of_same counted.ready rfl rfl rfl rfl rfl)

theorem tracks_entering (ready : s.Ready) (a : ActivationId) (c : Component) :
    Tracks [] s (s.entering a c) := by
  have begun := Tracks.update ready a ({ · with cursor := 0 }) (fun _ => rfl) fun _ => rfl
  exact begun.after (.of_same begun.ready rfl rfl rfl rfl rfl)

theorem tracks_ending {ok : Bool} {calls : Calls} (ready : s.Ready)
    (returned : Returns (if ok then checkCellCount a else pure ()) { s with calls } () t) :
    Tracks [] s t := by
  have one : Tracks [] s { s with calls } := .of_same ready rfl rfl rfl rfl rfl
  refine one.after ?_
  split at returned
  · exact tracks_checkCellCount one.ready returned
  · obtain ⟨-, rfl⟩ := returns_pure.mp returned
    exact .refl one.ready

theorem Ran.tracks (ran : Ran program a c props s deeds outcome t) (ready : s.Ready) :
    Tracks deeds s t := by
  obtain ⟨acts, ended⟩ := ran
  have begun := tracks_entering ready a c
  have acted := acts.tracks begun.ready
  have both := (begun.after acted).trans (tracks_ending acted.ready ended)
  rwa [List.append_nil] at both

theorem Ran.recalls (ran : Ran program a c props s deeds outcome t) (ready : s.Ready)
    (found : s.activations.find? a = some r) : Recalls program t ⟨a, c, props, deeds, outcome⟩ := by
  obtain ⟨acts, ended⟩ := ran
  have begun := tracks_entering ready a c
  have acted := acts.tracks begun.ready
  have entered : (s.entering a c).activations.find? a = some { r with cursor := 0 } :=
    (Activations.find?_update_self ..).trans (congrArg (Option.map _) found)
  obtain ⟨r', found', -, -, answered⟩ :=
    acts.replies begun.ready rfl _ entered ⟨Nat.zero_le _, Nat.zero_le _, .inl rfl⟩
  obtain ⟨_, again, same, -⟩ := acted.cells a _ entered
  cases Option.some.inj (found'.symm.trans again)
  refine Recalls.mono (s := _) ⟨r', found', fun live => ?_⟩ (tracks_ending acted.ready ended)
  exact (answered (same.symm.trans live)).imp_right fun answered => ⟨_, _, _, acts, answered⟩

/-- A pass tracks the deeds of its invocations, and each is recalled in the end. -/
structure Traces (program : Program σ) (trials : List (Trial δ)) (s t : Renderer D σ) : Prop where
  tracks : Tracks (deedsIn trials) s t
  recalls : ∀ trial ∈ trials, Recalls program t trial

namespace Traces

theorem of_tracks (tracks : Tracks [] s t) : Traces program [] s t := ⟨tracks, nofun⟩

theorem append (one : Traces program first s t) (two : Traces program second t u) :
    Traces program (first ++ second) s u where
  tracks := deedsIn_append first second ▸ one.tracks.trans two.tracks
  recalls trial member := by
    rcases List.mem_append.mp member with early | late
    · exact (one.recalls trial early).mono two.tracks
    · exact two.recalls trial late

theorem after (one : Tracks [] s t) (two : Traces program trials t u) : Traces program trials s u :=
  (of_tracks one).append two

end Traces

theorem Ran.traces (ran : Ran program a c props s deeds outcome t) (ready : s.Ready)
    (found : s.activations.find? a = some r) : Traces program [⟨a, c, props, deeds, outcome⟩] s t where
  tracks := by
    rw [deedsIn, List.flatMap_singleton]
    exact ran.tracks ready
  recalls trial member := by
    cases List.mem_singleton.mp member
    exact ran.recalls ready found

theorem tracks_placing (ready : s.Ready)
    (returned : Returns (placing owner reference entry) s (a, fresh) t) : Tracks [] s t := by
  obtain ⟨-, -, rfl⟩ | ⟨-, -, index, rfl⟩ := placing_cases returned
  · exact .refl ready
  · have old : ∀ b r, s.activations.find? b = some r → b.index ≠ Arena.issued s.activations + 1 :=
      fun b r found => by
        have := Activations.index_le_issued found
        omega
    refine .of_records (ready.of_same rfl rfl fun b r' found' => ?_) rfl rfl fun b r found =>
      ⟨r, (Activations.find?_alloc ..).trans ((if_neg (old b r found)).trans found), rfl, .of_same rfl rfl⟩
    rw [Activations.find?_alloc] at found'
    split at found'
    · cases found'
      exact .inl rfl
    · exact .inr ⟨r', found', rfl⟩

theorem composes_traces : Composes program fun trials (s t : Renderer D σ) =>
    s.Ready → Traces program trials s t where
  refl _ ready := .of_tracks (.refl ready)
  trans one two ready := (one ready).append (two (one ready).tracks.ready)
  reports _ _ ready := .of_tracks (.of_same ready rfl rfl rfl rfl rfl)
  calls _ _ ready := .of_tracks (.of_same ready rfl rfl rfl rfl rfl)
  placing placed ready := .of_tracks (tracks_placing ready placed)
  ran ran found ready := ran.traces ready found

variable [Layer D]

theorem Passes.traces (passes : Passes program owner entries positions s trials plans t) (ready : s.Ready) :
    Traces program trials s t := composes_traces.passes passes ready

theorem Invokes.traces (invokes : Invokes program a c props s trials rendered t) (ready : s.Ready)
    (found : s.activations.find? a = some r) : Traces program trials s t :=
  composes_traces.invokes invokes found ready

/-- A pass that succeeds plans to show just what its invocations came to. -/
theorem Passes.shown (passes : Passes program owner entries positions s trials result t)
    (succeeded : result = .ok plans) :
    trials.map Trial.shown? = (Outline.shownAll (Plan.outlines plans)).map some := by
  induction passes generalizing plans with
  | nil =>
      cases succeeded
      rfl
  | text _ _ ih | raw _ ih =>
      obtain ⟨rest, rfl, rfl⟩ := map_eq_ok succeeded
      rw [Plan.outlines, Plan.outline, Outline.shownAll, Outline.shown, List.nil_append, ih rfl]
  | element _ _ _ one two =>
      obtain ⟨rest, rfl, rfl⟩ := map_eq_ok succeeded
      rw [Plan.outlines, Plan.outline, Outline.shownAll, Outline.shown, List.map_append, List.map_append,
        one rfl, two rfl]
  | component _ _ _ _ one two =>
      obtain ⟨rest, rfl, rfl⟩ := map_eq_ok succeeded
      rw [Plan.outlines, Plan.outline, Outline.shownAll, Outline.shown, List.cons_append, List.map_cons,
        List.map_cons, List.map_append, List.map_append, one rfl, two rfl]
      rfl
  | elementFailed | componentFailed | outputFailed => cases succeeded

theorem Invokes.mem_trials (invokes : Invokes program a c props s trials result t) :
    a ∈ trials.map Trial.activation := by
  cases invokes <;> exact List.mem_cons_self ..

theorem Invokes.shown (invokes : Invokes program a c props s trials result t)
    (succeeded : result = .ok rendered) :
    trials.map Trial.shown? =
      (Outline.shownAll (Plan.outlines [rendered.plan false])).map some := by
  cases invokes with
  | failed => cases succeeded
  | paired ran passes =>
      obtain ⟨plans, rfl, rfl⟩ := map_eq_ok succeeded
      rw [Rendered.plan, Plan.outlines, Plan.outlines, Plan.outline, Outline.shownAll, Outline.shownAll,
        Outline.shown, List.append_nil, List.map_cons, List.map_cons, passes.shown rfl]
      rfl

end Renderer
end Patchwork
