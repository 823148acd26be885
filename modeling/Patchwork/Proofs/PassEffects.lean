import Patchwork.Proofs.PassLevels

/-! What a pass changes: state cells, what is asked of the scheduler, and the table of activations,
which gets new ones. Whatever is committed stays as it is, in a pass that fails as well. -/
namespace Patchwork

/-- An activation that was never placed. -/
def Activation.blank (owner : Option ActivationId) (reference : ComponentRef) (epoch : Nat) :
    Activation where
  owner
  component := reference.component
  props := reference.props
  cells := []
  cursor := 0
  previousCount := none
  parent := none
  output := []
  committed := none
  renderedIn := epoch
  unmounted := false

theorem Activations.output_of_blank {as : Activations}
    (blank : (as.find? a).map Activation.bare = some (.blank owner reference epoch)) :
    as.output a = [] := by
  obtain ⟨r, found, bare⟩ := Option.map_eq_some_iff.mp blank
  rw [Activations.output_eq found]
  exact congrArg Activation.output bare

namespace Renderer

variable {D σ : Type} {δ : StateData} [HasStateData σ δ]

/-- Nothing was committed between the two states, and the activations that are new in the second are
blank and on record, newest first. -/
structure Advances (s t : Renderer D σ) : Prop where
  dom : t.dom = s.dom
  binder : t.binder = s.binder
  roots : t.roots = s.roots
  epoch : t.epoch = s.epoch
  dropped : t.dropped = s.dropped
  calls : t.calls = { s.calls with
    created := (issuedBetween (Arena.issued s.activations) (Arena.issued t.activations)).reverse ++
      s.calls.created }
  issued : Arena.issued s.activations ≤ Arena.issued t.activations
  old : ∀ a : ActivationId, a.index ≤ Arena.issued s.activations →
    (t.activations.find? a).map Activation.bare = (s.activations.find? a).map Activation.bare
  new : ∀ a ∈ issuedBetween (Arena.issued s.activations) (Arena.issued t.activations),
    ∃ owner reference, (t.activations.find? a).map Activation.bare =
      some (Activation.blank owner reference s.epoch)

theorem Undisturbed.advances {s t : Renderer D σ} (calm : Undisturbed s t) : Advances s t where
  dom := calm.dom
  binder := calm.binder
  roots := calm.roots
  epoch := calm.epoch
  dropped := calm.dropped
  calls := by
    rw [calm.issued, issuedBetween_self, calm.calls, List.reverse_nil, List.nil_append]
  issued := Nat.le_of_eq calm.issued.symm
  old a _ := calm.bare a
  new a member := by
    rw [calm.issued, issuedBetween_self] at member
    cases member

namespace Advances

@[refl] theorem refl (s : Renderer D σ) : Advances s s := (Undisturbed.refl s).advances

theorem trans {s t u : Renderer D σ} (one : Advances s t) (two : Advances t u) : Advances s u where
  dom := two.dom.trans one.dom
  binder := two.binder.trans one.binder
  roots := two.roots.trans one.roots
  epoch := two.epoch.trans one.epoch
  dropped := two.dropped.trans one.dropped
  calls := by
    rw [two.calls, one.calls, ← issuedBetween_append one.issued two.issued, List.reverse_append,
      List.append_assoc]
  issued := Nat.le_trans one.issued two.issued
  old a early := (two.old a (Nat.le_trans early one.issued)).trans (one.old a early)
  new a member := by
    rw [← issuedBetween_append one.issued two.issued, List.mem_append] at member
    cases member with
    | inl first =>
        obtain ⟨owner, reference, blank⟩ := one.new a first
        exact ⟨owner, reference, (two.old a (mem_issuedBetween.mp first).2).trans blank⟩
    | inr second =>
        obtain ⟨owner, reference, blank⟩ := two.new a second
        exact ⟨owner, reference, one.epoch ▸ blank⟩

theorem resuming {s t : Renderer D σ} {calls : Calls} (within : Advances { s with calls } t)
    (same : calls.created = s.calls.created) : Advances s (t.resuming s.calls) where
  dom := within.dom
  binder := within.binder
  roots := within.roots
  epoch := within.epoch
  dropped := within.dropped
  calls := by rw [Renderer.resuming, within.calls, same]
  issued := within.issued
  old := within.old
  new := within.new

end Advances

theorem returns_checkCellCount {s t : Renderer D σ} (returned : Returns (checkCellCount a) s u t) :
    ∃ activations reports, t = { s with activations, reports } ∧ (activations = s.activations ∨
      ∃ count, activations = s.activations.update a ({ · with previousCount := count })) := by
  simp only [checkCellCount, returns_bind, returns_get] at returned
  obtain ⟨_, _, ⟨rfl, rfl⟩, returned⟩ := returned
  split at returned
  · simp only [returns_bind, returns_updateActivation] at returned
    obtain ⟨_, _, rfl, returned⟩ := returned
    split at returned
    · split at returned
      · cases returns_report.mp returned
        exact ⟨_, _, rfl, .inr ⟨_, rfl⟩⟩
      · obtain ⟨_, rfl⟩ := returns_pure.mp returned
        exact ⟨_, _, rfl, .inr ⟨_, rfl⟩⟩
    · obtain ⟨_, rfl⟩ := returns_pure.mp returned
      exact ⟨_, _, rfl, .inr ⟨_, rfl⟩⟩
  · obtain ⟨_, rfl⟩ := returns_pure.mp returned
    exact ⟨_, _, rfl, .inl rfl⟩

theorem Undisturbed.checkCellCount {s t : Renderer D σ} (returned : Returns (checkCellCount a) s u t) :
    Undisturbed s t := by
  obtain ⟨_, rs, rfl, rfl | ⟨count, rfl⟩⟩ := returns_checkCellCount returned
  · exact reports _ rs
  · exact (update (a := a) ({ · with previousCount := count }) fun _ => rfl).trans (reports _ rs)

theorem Undisturbed.resuming {s t : Renderer D σ} {calls : Calls}
    (within : Undisturbed { s with calls } t) (same : calls.created = s.calls.created) :
    Undisturbed s (t.resuming s.calls) where
  dom := within.dom
  binder := within.binder
  roots := within.roots
  epoch := within.epoch
  dropped := within.dropped
  calls := by rw [Renderer.resuming, within.calls, same]
  issued := within.issued
  bare := within.bare

theorem Undisturbed.entering (s : Renderer D σ) (a : ActivationId) (c : Component) :
    Undisturbed { s with calls := { s.calls with current := some a } } (s.entering a c) :=
  (reports _ (.renderingActivation a c.name :: s.reports)).trans
    (update (a := a) ({ · with cursor := 0 }) fun _ => rfl)

theorem Ran.undisturbed {program : Program σ} {s t : Renderer D σ}
    (ran : Ran program a c props s deeds outcome t) : Undisturbed s t := by
  obtain ⟨acts, checked⟩ := ran
  refine (((Undisturbed.entering s a c).trans (.acts acts)).resuming rfl).trans ?_
  split at checked
  · exact .checkCellCount checked
  · obtain ⟨_, rfl⟩ := returns_pure.mp checked
    exact .refl _

/-- A component's position keeps the activation of its entry, or gets a new one. -/
theorem placing_cases {s t : Renderer D σ}
    (returned : Returns (placing owner reference entry) s (a, fresh) t) :
    (activationAt? s.activations reference.component entry = some a ∧ fresh = false ∧ t = s) ∨
    (activationAt? s.activations reference.component entry = none ∧ fresh = true ∧
      a.index = Arena.issued s.activations + 1 ∧
      t = { s with
        activations := (Arena.alloc s.activations (.blank owner reference s.epoch)).2
        reports := .creatingActivation a reference.component.name :: s.reports
        calls := { s.calls with created := a :: s.calls.created } }) := by
  simp only [placing, returns_bind, returns_get] at returned
  obtain ⟨_, _, ⟨rfl, rfl⟩, returned⟩ := returned
  split at returned
  · rename_i b found
    obtain ⟨same, rfl⟩ := returns_pure.mp returned
    obtain ⟨rfl, rfl⟩ := Prod.mk.inj same
    exact .inl ⟨found, rfl, rfl⟩
  · rename_i absent
    simp only [createActivation, returns_bind, returns_pure, returns_modifyGet, returns_report,
      returns_onCalls, Prod.mk.injEq] at returned
    obtain ⟨_, _, ⟨_, _, ⟨rfl, rfl⟩, _, _, rfl, _, _, rfl, rfl, rfl⟩, ⟨rfl, rfl⟩, rfl⟩ := returned
    exact .inr ⟨absent, rfl, rfl, rfl⟩

theorem find?_of_activationAt? {as : Activations} (kept : activationAt? as c entry = some a) :
    ∃ r, as.find? a = some r := by
  unfold activationAt? at kept
  split at kept
  next b =>
    split at kept
    next same =>
      cases kept
      obtain ⟨r, found, -⟩ := Option.any_eq_true _ _ |>.mp same
      exact ⟨r, found⟩
    next => cases kept
  next => cases kept

theorem find?_of_placing {s t : Renderer D σ}
    (returned : Returns (placing owner reference entry) s (a, fresh) t) :
    ∃ r, t.activations.find? a = some r := by
  obtain ⟨kept, -, rfl⟩ | ⟨-, -, index, rfl⟩ := placing_cases returned
  · exact find?_of_activationAt? kept
  · exact ⟨_, (Activations.find?_alloc ..).trans (if_pos index)⟩

theorem advances_placing {s t : Renderer D σ}
    (returned : Returns (placing owner reference entry) s placed t) : Advances s t := by
  obtain ⟨a, fresh⟩ := placed
  obtain ⟨_, _, rfl⟩ | ⟨_, _, index, rfl⟩ := placing_cases returned
  · exact .refl _
  · have only : issuedBetween (Arena.issued s.activations)
        (Arena.issued (Arena.alloc s.activations (Activation.blank owner reference s.epoch)).2) =
          [a] := by
      rw [Arena.issued_alloc, issuedBetween_succ, ← index]
    refine ⟨rfl, rfl, rfl, rfl, rfl, ?_, ?_, fun b early => ?_, fun b member => ?_⟩
    · rw [only, List.reverse_singleton, List.singleton_append]
    · simp only [Arena.issued_alloc, Nat.le_add_right]
    · rw [Activations.find?_alloc, if_neg (by omega)]
    · rw [only, List.mem_singleton] at member
      subst member
      exact ⟨owner, reference, by rw [Activations.find?_alloc, if_pos index]; rfl⟩

variable [Layer D]

def textIsLive (dom : D) : Option Mounted → Bool
  | some (.text node) => (Layer.text? dom node).isSome
  | _ => false

theorem reports_of_checkEntry {s t : Renderer D σ} (returned : Returns (checkEntry entry) s live t) :
    (∃ rs, t = { s with reports := rs }) ∧ live = textIsLive s.dom entry := by
  rcases entry with _ | ⟨node⟩ | _ | _ | _
  case some.text =>
    simp only [checkEntry, checkText, returns_bind, returns_get] at returned
    obtain ⟨_, _, ⟨rfl, rfl⟩, returned⟩ := returned
    split at returned
    · simp only [returns_bind, returns_report, returns_pure] at returned
      obtain ⟨_, _, rfl, rfl, rfl⟩ := returned
      exact ⟨⟨_, rfl⟩, rfl⟩
    · obtain ⟨rfl, rfl⟩ := returns_pure.mp returned
      exact ⟨⟨s.reports, rfl⟩, rfl⟩
  all_goals
    obtain ⟨rfl, rfl⟩ := returns_pure.mp returned
    exact ⟨⟨s.reports, rfl⟩, rfl⟩

theorem undisturbed_checkEntry {s t : Renderer D σ} (returned : Returns (checkEntry entry) s live t) :
    Undisturbed s t ∧ live = textIsLive s.dom entry := by
  obtain ⟨⟨rs, rfl⟩, same⟩ := reports_of_checkEntry returned
  exact ⟨.reports _ _, same⟩

def elementIsLive (dom : D) (node : NodeId) (tag : String) : Bool :=
  (Layer.tagName? dom node).any (Text.eqIgnoringCase · tag)

def opened (dom : D) (tag : String) (entry : Option Mounted) : Bool × List Mounted :=
  match elementAt? tag entry with
  | some (node, entries) =>
      (elementIsLive dom node tag, if elementIsLive dom node tag then entries else [])
  | none => (false, [])

theorem reports_of_opening {s t : Renderer D σ}
    (returned : Returns (opening tag entry) s (live, under) t) :
    (∃ rs, t = { s with reports := rs }) ∧ (live, under) = opened s.dom tag entry := by
  unfold opening at returned
  unfold opened
  split at returned
  · rename_i absent
    obtain ⟨same, rfl⟩ := returns_pure.mp returned
    rw [absent]
    exact ⟨⟨s.reports, rfl⟩, same.symm⟩
  · rename_i node entries found
    simp only [checkElement, returns_bind, returns_get, returns_pure] at returned
    obtain ⟨live', u, ⟨_, _, ⟨rfl, rfl⟩, returned⟩, same, rfl⟩ := returned
    have checked : (∃ rs, u = { s with reports := rs }) ∧ live' = elementIsLive s.dom node tag := by
      split at returned
      · simp only [returns_bind, returns_report, returns_pure] at returned
        obtain ⟨_, _, rfl, rfl, rfl⟩ := returned
        exact ⟨⟨_, rfl⟩, rfl⟩
      · obtain ⟨rfl, rfl⟩ := returns_pure.mp returned
        exact ⟨⟨s.reports, rfl⟩, rfl⟩
    rw [found]
    rw [checked.2] at same
    exact ⟨checked.1, same.symm⟩

theorem undisturbed_opening {s t : Renderer D σ}
    (returned : Returns (opening tag entry) s (live, under) t) :
    Undisturbed s t ∧ (live, under) = opened s.dom tag entry := by
  obtain ⟨⟨rs, rfl⟩, same⟩ := reports_of_opening returned
  exact ⟨.reports _ _, same⟩

theorem Passes.advances {program : Program σ} {s t : Renderer D σ}
    (passes : Passes program owner entries positions s trials result t) : Advances s t := by
  induction passes with
  | nil => exact .refl _
  | text checked _ ih => exact (undisturbed_checkEntry checked).1.advances.trans ih
  | raw _ ih => exact ih
  | element opened _ _ one two => exact ((undisturbed_opening opened).1.advances.trans one).trans two
  | elementFailed opened _ ih => exact (undisturbed_opening opened).1.advances.trans ih
  | component placed ran _ _ one two =>
      exact (((advances_placing placed).trans ran.undisturbed.advances).trans
        (one.resuming rfl)).trans two
  | componentFailed placed ran => exact (advances_placing placed).trans ran.undisturbed.advances
  | outputFailed placed ran _ ih =>
      exact ((advances_placing placed).trans ran.undisturbed.advances).trans (ih.resuming rfl)

theorem Invokes.advances {program : Program σ} {s t : Renderer D σ}
    (invokes : Invokes program a c props s trials rendered t) : Advances s t := by
  cases invokes with
  | failed ran => exact ran.undisturbed.advances
  | paired ran passes => exact ran.undisturbed.advances.trans (passes.advances.resuming rfl)

section Composing

variable {program : Program σ} {R : List (Trial δ) → Renderer D σ → Renderer D σ → Prop}

omit [Layer D] in
/-- A relation that holds of a whole pass because it holds of its parts: of single invocations, and, with
no invocation, of what only reports, keeps call bookkeeping or places a component. -/
structure Composes (program : Program σ) (R : List (Trial δ) → Renderer D σ → Renderer D σ → Prop) :
    Prop where
  refl : ∀ s, R [] s s
  trans : ∀ {one two s t u}, R one s t → R two t u → R (one ++ two) s u
  reports : ∀ s reports, R [] s { s with reports }
  calls : ∀ s calls, R [] s { s with calls }
  placing : ∀ {owner reference entry s a fresh t},
    Returns (placing owner reference entry) s (a, fresh) t → R [] s t
  ran : ∀ {a c props s deeds outcome t r}, Ran program a c props s deeds outcome t →
    s.activations.find? a = some r → R [⟨a, c, props, deeds, outcome⟩] s t

namespace Composes

variable {s t u : Renderer D σ}

omit [Layer D]

theorem noted (composes : Composes program R) (noted : ∃ reports, t = { s with reports })
    (rest : R trials t u) : R trials s u := by
  obtain ⟨reports, rfl⟩ := noted
  exact composes.trans (composes.reports s reports) rest

theorem invoked (composes : Composes program R)
    (placed : Returns (Renderer.placing owner reference entry) s (a, fresh) t)
    (ran : Ran program a c props t deeds outcome u) : R [⟨a, c, props, deeds, outcome⟩] s u := by
  obtain ⟨r, found⟩ := find?_of_placing placed
  exact composes.trans (composes.placing placed) (composes.ran ran found)

theorem paired (composes : Composes program R) (output : R trials (s.reading a) t) :
    R trials s (t.resuming s.calls) := by
  have begun := composes.trans (composes.calls s (s.reading a).calls) output
  have ended := composes.trans begun (composes.calls t (t.resuming s.calls).calls)
  rwa [List.append_nil] at ended

variable [Layer D]

theorem passes (composes : Composes program R)
    (passes : Passes program owner entries positions s trials plans t) : R trials s t := by
  induction passes with
  | nil => exact composes.refl _
  | text checked _ ih => exact composes.noted (reports_of_checkEntry checked).1 ih
  | raw _ ih => exact ih
  | element opened _ _ one two =>
      exact composes.noted (reports_of_opening opened).1 (composes.trans one two)
  | elementFailed opened _ ih => exact composes.noted (reports_of_opening opened).1 ih
  | component placed ran _ _ one two =>
      exact composes.trans (composes.invoked placed ran) (composes.trans (composes.paired one) two)
  | componentFailed placed ran => exact composes.invoked placed ran
  | outputFailed placed ran _ ih =>
      exact composes.trans (composes.invoked placed ran) (composes.paired ih)

theorem invokes (composes : Composes program R)
    (invokes : Invokes program a c props s trials rendered t) (found : s.activations.find? a = some r) :
    R trials s t := by
  cases invokes with
  | failed ran => exact composes.ran ran found
  | paired ran passes =>
      exact composes.trans (composes.ran ran found) (composes.paired (composes.passes passes))

end Composes

end Composing

end Renderer
end Patchwork
