import Patchwork.Proofs.ActivationRerenders

/-! Moves: what happens between two moments at which no component is running. Outside of a flush the
agenda is empty; during one it lists the activations that are still to be visited. Every call of the
renderer is a course of moves. -/
namespace Patchwork

/-- What came about in one move. -/
inductive Occurrence (δ : StateData)
  | acted (deeds : List (Deed δ))
  | rendered (tree : Tree) (place : NodeId) (trials : List (Trial δ)) (result : Except RenderError Unit)
  | unmounted (place : NodeId)
  | began
  | passedOver (activation : ActivationId)
  | retried (activation : ActivationId) (trials : List (Trial δ)) (result : Except RenderError Unit)
  | edited

/-- What a flush that has begun does: it comes to what was pending, and reports. -/
def Occurrence.Visits {δ : StateData} : Occurrence δ → Prop
  | acted deeds => deeds = []
  | passedOver _ | retried .. => True
  | _ => False

/-- A move with the states around it. -/
structure Episode (D σ : Type) {δ : StateData} [HasStateData σ δ] where
  before : Renderer D σ
  happening : Occurrence δ
  after : Renderer D σ

namespace Episode

variable {D σ : Type} {δ : StateData} [HasStateData σ δ]

def failed? : Episode D σ → Option (ActivationId × RenderError)
  | ⟨_, .retried a _ (.error e), _⟩ => some (a, e)
  | _ => none

def succeeded : Episode D σ → Bool
  | ⟨_, .retried _ _ (.ok _), _⟩ => true
  | _ => false

def failures (episodes : List (Episode D σ)) : List (ActivationId × RenderError) :=
  episodes.filterMap failed?

def successes (episodes : List (Episode D σ)) : Nat := (episodes.filter succeeded).length

/-- What a flush answers after such visits. -/
def tally (episodes : List (Episode D σ)) : Except FlushError Nat :=
  if (failures episodes).isEmpty then .ok (successes episodes) else .error ⟨failures episodes⟩

def Unbroken (episodes : List (Episode D σ)) : Prop :=
  ∀ episode ∈ episodes, episode.happening ≠ .began

def Visiting (episodes : List (Episode D σ)) : Prop := ∀ episode ∈ episodes, episode.happening.Visits

theorem Visiting.nil : Visiting ([] : List (Episode D σ)) := List.forall_mem_nil _

theorem Visiting.cons {episodes : List (Episode D σ)} (first : episode.happening.Visits)
    (rest : Visiting episodes) : Visiting (episode :: episodes) :=
  List.forall_mem_cons.mpr ⟨first, rest⟩

theorem Visiting.noted {episodes : List (Episode D σ)} (rest : Visiting episodes) :
    Visiting (⟨s, .acted [], t⟩ :: episodes) := rest.cons rfl

theorem Visiting.append {one two : List (Episode D σ)} (first : Visiting one) (second : Visiting two) :
    Visiting (one ++ two) :=
  List.forall_mem_append.mpr ⟨first, second⟩

theorem Visiting.unbroken {episodes : List (Episode D σ)} (visiting : Visiting episodes) :
    Unbroken episodes := fun episode member begins => by
  have visits := visiting episode member
  rw [begins] at visits
  exact visits

theorem tally_append_acted (episodes : List (Episode D σ)) :
    tally (episodes ++ [⟨s, .acted deeds, t⟩]) = tally episodes := by
  have none_failed : [(⟨s, .acted deeds, t⟩ : Episode D σ)].filterMap failed? = [] := rfl
  have none_succeeded : [(⟨s, .acted deeds, t⟩ : Episode D σ)].filter succeeded = [] := rfl
  rw [tally, tally, failures, failures, successes, successes, List.filterMap_append,
    List.filter_append, none_failed, none_succeeded, List.append_nil, List.append_nil]

end Episode

namespace Renderer

open Picture

variable {D σ : Type} {δ : StateData} [HasStateData σ δ] [Layer D]

def flushing (s : Renderer D σ) : Renderer D σ :=
  { s.noting .flushing with scheduler := .empty, epoch := s.epoch + 1 }

def tasked (s : Renderer D σ) : Renderer D σ := { s with waiting := s.waiting - 1 }

/-- One move, from and to the activations that a flush in progress has still to visit. -/
inductive Moves (program : Program σ) : List ActivationId → Renderer D σ → Occurrence δ →
    List ActivationId → Renderer D σ → Prop
  | act {α : Type} {x : Action σ α} {answer : α} : Acts program x s deeds answer t →
      Moves program agenda s (.acted deeds) agenda t
  | render : Renders program tree place s trials r t →
      Moves program [] s (.rendered tree place trials r) [] t
  | unmount : Returns (unmount place) s answer t → Moves program [] s (.unmounted place) [] t
  | flush : Moves program [] s .began s.scheduler.queue s.flushing
  | task : s.waiting ≠ 0 → s.dropped = false →
      Moves program [] s .began s.scheduler.queue s.tasked.flushing
  | vainTask : s.waiting ≠ 0 → s.dropped = true → Moves program [] s (.acted []) [] s.tasked
  /-- What is gone, or was rendered during this flush, needs no visit. -/
  | passOver : (∀ record, s.activations.find? a = some record → s.isLive a = true →
        record.renderedIn = s.epoch) →
      Moves program (a :: rest) s (.passedOver a) rest s
  | retry : s.activations.find? a = some record → s.isLive a = true → record.renderedIn ≠ s.epoch →
      Rerenders program a record s trials r t →
      Moves program (a :: rest) s (.retried a trials r) rest t
  | edit (dom : D) : Moves program [] s .edited [] { s with dom }

/-- Moves one after another. -/
inductive Course (program : Program σ) : List ActivationId → Renderer D σ → List (Episode D σ) →
    List ActivationId → Renderer D σ → Prop
  | nil : Course program agenda s [] agenda s
  | cons : Moves program agenda s happening between t → Course program between t episodes ending u →
      Course program agenda s (⟨s, happening, t⟩ :: episodes) ending u

variable {program : Program σ} {s t u : Renderer D σ} {scene : Scene}

theorem Course.append (one : Course program agenda s first between t)
    (two : Course program between t second ending u) :
    Course program agenda s (first ++ second) ending u := by
  induction one with
  | nil => exact two
  | cons moves _ ih => exact .cons moves (ih two)

theorem Moves.course (moves : Moves program agenda s happening ending t) :
    Course program agenda s [⟨s, happening, t⟩] ending t := .cons moves .nil

omit [Layer D] in
theorem newIn_self (s : Renderer D σ) : newIn s s = [] := issuedBetween_self _

omit [Layer D] in
theorem Settled.find?_of_isLive (settled : Settled s scene)
    (found : s.activations.find? a = some record) (live : s.isLive a = true) :
    record.unmounted = false := by
  rw [settled.isLive_eq] at live
  obtain ⟨r, found', registered⟩ := Activations.isRegistered_iff.mp live
  cases Option.some.inj (found.symm.trans found')
  exact registered

/-- Everything in a container is taken down. -/
theorem Settled.unmounts (settled : Settled s scene) (place : NodeId) :
    ∃ t, Returns (unmount place) s (!(scene place).isEmpty) t ∧
      Changes s s t place (scene place) [] ∧
      t.canvas = Canvas.removeAll place (scene place) s.canvas := by
  let v : Renderer D σ := { s.noting (.unmountingContainer place) with roots := s.roots.erase place }
  have free : v.calls.reading = [] := congrArg Calls.reading settled.calls
  obtain ⟨t, unmounted, retired⟩ :=
    unmounts_entries (s := v) (settled.stands place) free (settled.distinct place) place
  refine ⟨t, ?_, ⟨.refl s, ?_, fun other => ?_, standAll_nil.mpr trivial, List.nodup_nil,
      fun _ none => (List.not_mem_nil none).elim, fun a touched _ => ?_,
      fun _ none => (List.not_mem_nil none).elim⟩, ?_⟩
  · refine (reported ..).bind (returns_bind.mpr ⟨_, _, returns_get.mpr ⟨rfl, rfl⟩, ?_⟩)
    have roots : (s.noting (.unmountingContainer place)).roots = s.roots := rfl
    rw [roots]
    cases shown : scene place with
    | nil =>
        have nothing : s.roots.get? place = none := by rw [settled.roots, shown]; rfl
        have erased : v = s.noting (.unmountingContainer place) := by
          simp only [v, Dict.erase_of_get?_eq_none nothing]
          rfl
        rw [shown] at unmounted
        obtain ⟨-, rfl⟩ := returns_pure.mp unmounted
        rw [nothing]
        exact returns_pure.mpr ⟨rfl, erased.symm⟩
    | cons p ps =>
        have something : s.roots.get? place = some (entries (p :: ps)) := by
          rw [settled.roots, shown]; rfl
        rw [something]
        refine returns_bind.mpr ⟨⟨⟩, v, rfl, ?_⟩
        rw [← shown]
        exact unmounted.bind (returns_pure.mpr ⟨by rw [shown]; rfl, rfl⟩)
  · rw [newIn_self, List.append_nil]
    exact { retired.confined with
      roots := rfl, calls := retired.confined.calls.trans settled.calls }
  · rw [retired.confined.roots]
    exact Dict.get?_erase ..
  · rw [newIn_self] at touched
    exact retired.vanished a (touched.resolve_right List.not_mem_nil)
  · rw [retired.canvas]
    simp only [v, Renderer.canvas, noting, List.filter_cons, Report.isAlarm, Bool.false_eq_true,
      if_false]

end Renderer
end Patchwork
