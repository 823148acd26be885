import Patchwork.Renderer.Basic

/-! What single steps of the renderer come to. A step either returns with an answer and a new state or
gives up; the laws here take a sequence of steps apart at its intermediate states. -/
namespace Patchwork.Renderer

variable {D σ α β : Type} {δ : StateData} [HasStateData σ δ]

/-- The step, begun in `s`, answers `a` and leaves `t`. -/
def Returns (step : RenderM D σ α) (s : Renderer D σ) (a : α) (t : Renderer D σ) : Prop :=
  step s = .ok (a, t)

/-- The step, begun in `s`, is given up. -/
def GivesUp (step : RenderM D σ α) (s : Renderer D σ) (reason : Abort) : Prop :=
  step s = .error reason

theorem Returns.unique {step : RenderM D σ α} (first : Returns step s a t)
    (second : Returns step s b u) : a = b ∧ t = u :=
  Prod.mk.inj (Except.ok.inj (first.symm.trans second))

theorem exists_returns (step : RenderM D σ α) (f : α × Renderer D σ → β)
    (evaluated : (step s).toOption.map f = some b) : ∃ a t, Returns step s a t ∧ f (a, t) = b := by
  cases returned : step s with
  | error reason =>
      rw [returned] at evaluated
      cases evaluated
  | ok answer =>
      rw [returned] at evaluated
      exact ⟨answer.1, answer.2, returned, Option.some.inj evaluated⟩

theorem Returns.not_givesUp {step : RenderM D σ α} (returned : Returns step s a t) :
    ¬ GivesUp step s reason := by
  intro gaveUp
  cases returned.symm.trans gaveUp

private theorem bind_of_ok {first : RenderM D σ α} {rest : α → RenderM D σ β}
    (begun : first s = .ok (a, t)) : (first >>= rest) s = rest a t := by
  change (first s >>= fun answer => rest answer.1 answer.2) = rest a t
  rw [begun]
  rfl

private theorem bind_of_error {first : RenderM D σ α} {rest : α → RenderM D σ β}
    (begun : first s = .error reason) : (first >>= rest) s = .error reason := by
  change (first s >>= fun answer => rest answer.1 answer.2) = _
  rw [begun]
  rfl

theorem Returns.bind {first : RenderM D σ α} {rest : α → RenderM D σ β}
    (one : Returns first s a t) (two : Returns (rest a) t b u) :
    Returns (first >>= rest) s b u := (bind_of_ok one).trans two

@[simp] theorem returns_bind {first : RenderM D σ α} {rest : α → RenderM D σ β} :
    Returns (first >>= rest) s b u ↔ ∃ a t, Returns first s a t ∧ Returns (rest a) t b u := by
  constructor
  · intro returned
    cases begun : first s with
    | error reason => cases (bind_of_error begun).symm.trans returned
    | ok answer => exact ⟨answer.1, answer.2, begun, (bind_of_ok begun).symm.trans returned⟩
  · rintro ⟨a, t, one, two⟩
    exact one.bind two

theorem givesUp_bind {first : RenderM D σ α} {rest : α → RenderM D σ β} :
    GivesUp (first >>= rest) s reason ↔
      GivesUp first s reason ∨ ∃ a t, Returns first s a t ∧ GivesUp (rest a) t reason := by
  constructor
  · intro gaveUp
    cases begun : first s with
    | error other =>
        cases (bind_of_error begun).symm.trans gaveUp
        exact .inl begun
    | ok answer =>
        exact .inr ⟨answer.1, answer.2, begun, (bind_of_ok begun).symm.trans gaveUp⟩
  · rintro (gaveUp | ⟨a, t, begun, gaveUp⟩)
    · exact bind_of_error gaveUp
    · exact (bind_of_ok begun).trans gaveUp

@[simp] theorem returns_pure {a : α} :
    Returns (pure a : RenderM D σ α) s b t ↔ a = b ∧ s = t := by
  have opened : (pure a : RenderM D σ α) s = .ok (a, s) := rfl
  simp only [Returns, opened, Except.ok.injEq, Prod.mk.injEq]

@[simp] theorem returns_get :
    Returns (get : RenderM D σ (Renderer D σ)) s a t ↔ s = a ∧ s = t := by
  have opened : (get : RenderM D σ (Renderer D σ)) s = .ok (s, s) := rfl
  simp only [Returns, opened, Except.ok.injEq, Prod.mk.injEq]

@[simp] theorem returns_modify {f : Renderer D σ → Renderer D σ} {u : PUnit} :
    Returns (modify f : RenderM D σ PUnit) s u t ↔ t = f s := by
  have opened : (modify f : RenderM D σ PUnit) s = .ok (⟨⟩, f s) := rfl
  simp only [Returns, opened, Except.ok.injEq, Prod.mk.injEq, true_and, eq_comm]

@[simp] theorem returns_modifyGet {f : Renderer D σ → α × Renderer D σ} :
    Returns (modifyGet f : RenderM D σ α) s a t ↔ f s = (a, t) := by
  have opened : (modifyGet f : RenderM D σ α) s = .ok (f s) := rfl
  simp only [Returns, opened, Except.ok.injEq]

@[simp] theorem returns_abort {reason : Abort} :
    Returns (abort reason : RenderM D σ α) s a t ↔ False := by
  simp only [Returns, abort, reduceCtorEq]

theorem returns_map {f : α → β} {step : RenderM D σ α} {b : β} :
    Returns (f <$> step) s b t ↔ ∃ a, Returns step s a t ∧ f a = b := by
  rw [← bind_pure_comp, returns_bind]
  simp only [returns_pure]
  constructor
  · rintro ⟨a, _, stepped, rfl, rfl⟩
    exact ⟨a, stepped, rfl⟩
  · rintro ⟨a, stepped, rfl⟩
    exact ⟨a, t, stepped, rfl, rfl⟩

/-- The step returns from every state. -/
def Total (step : RenderM D σ α) : Prop := ∀ s, ∃ a t, Returns step s a t

theorem Total.not_givesUp {step : RenderM D σ α} (total : Total step) :
    ¬ GivesUp step s reason := by
  obtain ⟨_, _, returned⟩ := total s
  exact returned.not_givesUp

/-- What is given up after a step that always returns is given up by what comes next. -/
theorem Total.givesUp_bind {first : RenderM D σ α} {rest : α → RenderM D σ β} (total : Total first)
    (gaveUp : GivesUp (first >>= rest) s reason) :
    ∃ a t, Returns first s a t ∧ GivesUp (rest a) t reason :=
  (Renderer.givesUp_bind.mp gaveUp).resolve_left total.not_givesUp

/-- What is given up before steps that always return is given up by the first. -/
theorem GivesUp.of_bind {first : RenderM D σ α} {rest : α → RenderM D σ β}
    (gaveUp : GivesUp (first >>= rest) s reason) (total : ∀ a, Total (rest a)) : GivesUp first s reason :=
  (Renderer.givesUp_bind.mp gaveUp).resolve_right fun ⟨a, _, _, late⟩ => (total a).not_givesUp late

theorem total_pure (a : α) : Total (pure a : RenderM D σ α) := fun s => ⟨a, s, rfl⟩

theorem Total.bind {first : RenderM D σ α} {rest : α → RenderM D σ β} (one : Total first)
    (two : ∀ a, Total (rest a)) : Total (first >>= rest) := by
  intro s
  obtain ⟨a, t, begun⟩ := one s
  obtain ⟨b, u, ended⟩ := two a t
  exact ⟨b, u, begun.bind ended⟩

theorem givesUp_map {f : α → β} {step : RenderM D σ α} :
    GivesUp (f <$> step) s reason ↔ GivesUp step s reason := by
  rw [← bind_pure_comp, givesUp_bind]
  exact or_iff_left fun ⟨_, _, _, gaveUp⟩ => (total_pure _).not_givesUp gaveUp

theorem total_get : Total (get : RenderM D σ (Renderer D σ)) := fun s => ⟨s, s, rfl⟩

theorem total_modify (f : Renderer D σ → Renderer D σ) : Total (modify f : RenderM D σ PUnit) :=
  fun s => ⟨⟨⟩, f s, rfl⟩

theorem total_modifyGet (f : Renderer D σ → α × Renderer D σ) :
    Total (modifyGet f : RenderM D σ α) := fun s => ⟨(f s).1, (f s).2, rfl⟩

theorem total_report (r : Report) : Total (report r : RenderM D σ Unit) := total_modify _

theorem total_updateActivation (a : ActivationId) (f : Activation → Activation) :
    Total (updateActivation a f : RenderM D σ Unit) := total_modify _

def noting (r : Report) (s : Renderer D σ) : Renderer D σ := { s with reports := r :: s.reports }

@[simp] theorem returns_report {r : Report} {u : Unit} :
    Returns (report r : RenderM D σ Unit) s u t ↔ t = s.noting r := returns_modify

@[simp] theorem returns_updateActivation {f : Activation → Activation} {u : Unit} :
    Returns (updateActivation a f : RenderM D σ Unit) s u t ↔
      t = { s with activations := s.activations.update a f } := returns_modify

theorem reported (s : Renderer D σ) (r : Report) : Returns (report r) s () (s.noting r) := rfl

theorem updated (s : Renderer D σ) (a : ActivationId) (f : Activation → Activation) :
    Returns (updateActivation a f) s ()
      { s with activations := s.activations.update a f } := rfl

@[simp] theorem returns_onCalls {f : Calls → Calls} {u : Unit} :
    Returns (onCalls f : RenderM D σ Unit) s u t ↔ t = { s with calls := f s.calls } :=
  returns_modify

@[simp] theorem returns_onDom {f : D → Logged D} {u : Unit} :
    Returns (onDom f : RenderM D σ Unit) s u t ↔
      t = { s with dom := (f s.dom).value
                   reports := (f s.dom).reports.reverseAux s.reports } := returns_modify

@[simp] theorem returns_makeNode {f : D → α × D} :
    Returns (makeNode f : RenderM D σ α) s a t ↔
      a = (f s.dom).1 ∧ t = { s with dom := (f s.dom).2 } := by
  simp only [makeNode, returns_modifyGet, Prod.mk.injEq, eq_comm]

end Patchwork.Renderer
