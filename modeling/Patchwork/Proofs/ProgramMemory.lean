import Patchwork.Proofs.StepRelations

/-! What a program remembers is no matter to the renderer. Whether all of it is there or only what one looks at,
every step is the same, gives the same answer and leaves the same state. -/
namespace Patchwork.Renderer

variable {σ τ α β : Type} {δ : StateData} [HasStateData σ δ] [HasStateData τ δ] {view : σ → τ}

def viewing (view : σ → τ) (s : Renderer Document σ) : Renderer Document τ := { s with store := view s.store }

/-- Two steps that do the same, as far as one looks. -/
structure Follows (view : σ → τ) (x : RenderM Document σ α) (y : RenderM Document τ α) : Prop where
  follows : ∀ s, y (s.viewing view) = (x s).map fun r => (r.1, r.2.viewing view)

theorem follows_pure (a : α) : Follows view (pure a) (pure a) := ⟨fun _ => rfl⟩

theorem Follows.bind {x : RenderM Document σ α} {y : RenderM Document τ α} {f : α → RenderM Document σ β}
    {g : α → RenderM Document τ β} (one : Follows view x y) (two : ∀ a, Follows view (f a) (g a)) :
    Follows view (x >>= f) (y >>= g) where
  follows s := by
    change (y (s.viewing view) >>= fun r => g r.1 r.2) = Except.map _ (x s >>= fun r => f r.1 r.2)
    rw [one.follows]
    cases x s with
    | error => rfl
    | ok r => exact (two r.1).follows r.2

theorem Follows.map {x : RenderM Document σ α} {y : RenderM Document τ α} (inner : Follows view x y) (f : α → β) :
    Follows view (f <$> x) (f <$> y) := by
  rw [← bind_pure_comp, ← bind_pure_comp]
  exact inner.bind fun _ => follows_pure _

theorem follows_get {f : Renderer Document σ → RenderM Document σ α} {g : Renderer Document τ → RenderM Document τ α}
    (both : ∀ s, Follows view (f s) (g (s.viewing view))) : Follows view (get >>= f) (get >>= g) :=
  ⟨fun s => (both s).follows s⟩

theorem follows_modify {f : Renderer Document σ → Renderer Document σ} {g : Renderer Document τ → Renderer Document τ}
    (both : ∀ s, g (s.viewing view) = (f s).viewing view) :
    Follows view (modify f : RenderM Document σ PUnit) (modify g) where
  follows s := congrArg (fun t => Except.ok (PUnit.unit, t)) (both s)

theorem follows_modifyGet {f : Renderer Document σ → α × Renderer Document σ}
    {g : Renderer Document τ → α × Renderer Document τ}
    (both : ∀ s, g (s.viewing view) = ((f s).1, (f s).2.viewing view)) :
    Follows view (modifyGet f : RenderM Document σ α) (modifyGet g) := ⟨fun s => congrArg Except.ok (both s)⟩

theorem follows_abort (reason : Abort) : Follows view (abort reason : RenderM Document σ α) (abort reason) :=
  ⟨fun _ => rfl⟩

theorem follows_report (r : Report) : Follows view (report r) (report r) := follows_modify fun _ => rfl

theorem follows_reportAll (rs : List Report) : Follows view (reportAll rs) (reportAll rs) := follows_modify fun _ => rfl

theorem follows_updateActivation (a : ActivationId) (f : Activation → Activation) :
    Follows view (updateActivation a f) (updateActivation a f) := follows_modify fun _ => rfl

theorem follows_onCalls (f : Calls → Calls) : Follows view (onCalls f) (onCalls f) := follows_modify fun _ => rfl

theorem follows_withCalls (f : Calls → Calls) {x : RenderM Document σ α} {y : RenderM Document τ α}
    (inner : Follows view x y) : Follows view (withCalls f x) (withCalls f y) :=
  follows_get fun _ => (follows_onCalls f).bind fun _ => inner.bind fun _ => (follows_onCalls _).bind fun _ =>
    follows_pure _

/-- All that a renderer does of its own accord is the same, whatever is seen of what the program remembers. -/
theorem alongside_follows (view : σ → τ) : Alongside (D := Document) view (Follows view) where
  pure := follows_pure
  bind := .bind
  get := follows_get
  abort := follows_abort
  report := follows_report
  modify _ := follows_modify
  onDom _ := follows_modify fun _ => rfl
  onBound _ := follows_modify fun _ => rfl
  makeNode _ := follows_modifyGet fun _ => rfl
  updateActivation a _ _ _ := follows_updateActivation a _
  createActivation _ _ := .bind (follows_modifyGet fun _ => rfl) fun _ => (follows_report _).bind fun _ =>
    (follows_onCalls _).bind fun _ => follows_pure _
  withCalls f _ _ := follows_withCalls f

theorem follows_makeCell (a : ActivationId) (d : δ.Datum) :
    Follows view (makeCell a d) (makeCell a d) :=
  (follows_modifyGet fun _ => rfl).bind fun _ => (follows_updateActivation ..).bind fun _ => follows_pure _

theorem follows_useStateBy (type : δ.DataType) {initial : RenderM Document σ δ.Datum}
    {initial' : RenderM Document τ δ.Datum} (inner : Follows view initial initial') :
    Follows view (useStateBy type initial) (useStateBy type initial') := by
  refine follows_get fun s => ?_
  rw [show (s.viewing view).currentActivation? = s.currentActivation? from rfl]
  split
  · exact follows_pure _
  next a r _ =>
    dsimp only
    refine (follows_updateActivation ..).bind fun _ => ?_
    split
    · refine follows_get fun s => ?_
      rw [show datum (s.viewing view) = s.datum from rfl]
      split <;> exact follows_pure _
    · exact (follows_report _).bind fun _ => inner.bind fun d =>
        (follows_makeCell a d).bind fun _ => follows_pure _

theorem follows_invoking (a : ActivationId) {x : RenderM Document σ (Fallible α)} {y : RenderM Document τ (Fallible α)}
    (inner : Follows view x y) : Follows view (invoking a x) (invoking a y) := by
  refine (follows_updateActivation ..).bind fun _ => (follows_withCalls _ inner).bind fun result => ?_
  dsimp only
  split
  · exact (alongside_checkCellCount (alongside_follows view) a).bind fun _ => follows_pure _
  · exact follows_pure _

theorem follows_renderOutputBy {x : Invocation Document σ} {y : Invocation Document τ}
    {body : Component → Props → RenderM Document σ (Fallible Tree)}
    {body' : Component → Props → RenderM Document τ (Fallible Tree)}
    (inner : ∀ a c props, Follows view (x a c props) (y a c props))
    (bodies : ∀ c props, Follows view (body c props) (body' c props)) (a : ActivationId) (component : Component)
    (props : Props) :
    Follows view (renderOutputBy x body a component props) (renderOutputBy y body' a component props) := by
  refine (follows_report _).bind fun _ => (follows_invoking a (bodies ..)).bind fun outcome => ?_
  split
  · exact follows_pure _
  · exact (alongside_pairOutput (alongside_follows view) inner a _).bind fun _ => follows_pure _

end Patchwork.Renderer
