import Patchwork.Proofs.PassLevels
import Patchwork.Renderer.Host

/-! Steps side by side. Two renderers that differ at most in what their programs remember take the same
steps. A relation between steps that holds of the elementary ones, and of what is put together from
related ones, holds of all that a renderer does, provided that it holds where components are invoked. -/
namespace Patchwork.Renderer

variable {D σ τ : Type} {δ : StateData} [HasStateData σ δ] [HasStateData τ δ]

/-- A change that concerns neither activations nor reports, and of the calls in progress only what they
created. -/
structure Aside (s t : Renderer D σ) : Prop where
  activations : t.activations = s.activations
  reports : t.reports = s.reports
  calls : t.calls = { s.calls with created := t.calls.created }

/-- A relation between the steps of two renderers, with a clause for each elementary step and for each way
to put steps together. What the one program remembers is seen through `view` on the other side. -/
structure Alongside (view : σ → τ) (R : ∀ {α : Type}, RenderM D σ α → RenderM D τ α → Prop) : Prop where
  pure {α : Type} (a : α) : R (Pure.pure a) (Pure.pure a)
  bind {α β : Type} {x : RenderM D σ α} {y : RenderM D τ α} {f : α → RenderM D σ β} {g : α → RenderM D τ β} :
    R x y → (∀ a, R (f a) (g a)) → R (x >>= f) (y >>= g)
  get {α : Type} {f : Renderer D σ → RenderM D σ α} {g : Renderer D τ → RenderM D τ α} :
    (∀ s, R (f s) (g { s with store := view s.store })) → R (get >>= f) (get >>= g)
  abort {α : Type} (reason : Abort) : R (abort reason : RenderM D σ α) (abort reason)
  report (r : Report) : R (report r) (report r)
  modify {f : Renderer D σ → Renderer D σ} {g : Renderer D τ → Renderer D τ} :
    (∀ s, Aside s (f s)) → (∀ s, g { s with store := view s.store } = { f s with store := view (f s).store }) →
      R (modify f) (modify g)
  onDom (f : D → Logged D) : R (onDom f) (onDom f)
  onBound (f : Binder → D → Logged (Binder × D)) : R (onBound f) (onBound f)
  makeNode {α : Type} (f : D → α × D) : R (makeNode f) (makeNode f)
  updateActivation (a : ActivationId) {f : Activation → Activation} :
    (∀ r, (f r).cells = r.cells) → (∀ r, (f r).cursor = r.cursor) →
      R (updateActivation a f) (updateActivation a f)
  createActivation (reference : ComponentRef) (owner : Option ActivationId) :
    R (createActivation reference owner) (createActivation reference owner)
  withCalls {α : Type} (f : Calls → Calls) {x : RenderM D σ α} {y : RenderM D τ α} :
    R x y → R (withCalls f x) (withCalls f y)

variable {view : σ → τ} {R : ∀ {α : Type}, RenderM D σ α → RenderM D τ α → Prop}

theorem Alongside.record (rel : Alongside view R) (a : ActivationId) {f : Activation → Activation}
    (cells : ∀ r, (f r).cells = r.cells := by exact fun _ => rfl)
    (cursor : ∀ r, (f r).cursor = r.cursor := by exact fun _ => rfl) :
    R (Renderer.updateActivation a f) (Renderer.updateActivation a f) :=
  rel.updateActivation a cells cursor

theorem alongside_setOutput (rel : Alongside view R) (a : ActivationId) (output : List Mounted) :
    R (setOutput a output) (setOutput a output) := by
  refine rel.get fun s => ?_
  dsimp only
  split
  · exact rel.bind (rel.abort _) fun _ => rel.record a
  · exact rel.record a

theorem alongside_takeOutput (rel : Alongside view R) (a : ActivationId) :
    R (takeOutput a) (takeOutput a) :=
  rel.get fun _ => rel.bind (alongside_setOutput rel a []) fun _ => rel.pure _

theorem alongside_inPass {α : Type} (rel : Alongside view R) (f : Calls → Calls) {x : RenderM D σ α}
    {y : RenderM D τ α} (inner : R x y) : R (inPass f x) (inPass f y) :=
  rel.get fun _ => rel.bind (rel.withCalls _ inner) fun _ =>
    rel.bind (rel.modify (fun _ => ⟨rfl, rfl, rfl⟩) fun _ => rfl) fun _ => rel.pure _

section Cells

theorem alongside_requestUpdate (rel : Alongside view R) (a : ActivationId) :
    R (requestUpdate a) (requestUpdate a) := by
  refine rel.get fun s => ?_
  dsimp only
  split
  · exact rel.pure _
  refine rel.get fun s => ?_
  dsimp only
  split
  · exact rel.report _
  refine rel.bind (rel.report _) fun _ => rel.get fun s => ?_
  dsimp only
  refine rel.bind (rel.modify (fun _ => ⟨rfl, rfl, rfl⟩) fun _ => rfl) fun _ => ?_
  split
  · exact rel.report _
  · exact rel.pure _
  · exact rel.bind (rel.report _) fun _ => rel.modify (fun _ => ⟨rfl, rfl, rfl⟩) fun _ => rfl

theorem alongside_getCell (rel : Alongside view R) (setter : Setter δ.DataType) :
    R (getCell setter) (getCell setter) := rel.get fun _ => rel.pure _

theorem alongside_updateCell (rel : Alongside view R) (setter : Setter δ.DataType)
    (change : δ.Datum → δ.Datum) : R (updateCell setter change) (updateCell setter change) := by
  refine rel.get fun s => ?_
  rw [show cell? { s with store := view s.store } setter.cell = s.cell? setter.cell from rfl]
  split
  · dsimp only
    split
    · exact rel.report _
    · exact rel.bind (rel.modify (fun _ => ⟨rfl, rfl, rfl⟩) fun _ => rfl) fun _ =>
        alongside_requestUpdate rel _
  · exact rel.pure _

theorem alongside_checkCellCount (rel : Alongside view R) (a : ActivationId) :
    R (checkCellCount a) (checkCellCount a) := by
  refine rel.get fun s => ?_
  dsimp only
  split
  · refine rel.bind (rel.record _) fun _ => ?_
    split
    · split
      · exact rel.report _
      · exact rel.pure _
    · exact rel.pure _
  · exact rel.pure _

end Cells

variable [Layer D]

section Patching

theorem alongside_insertAll (rel : Alongside view R) (parent : NodeId) (before : Option NodeId)
    (nodes : List NodeId) : R (insertAll parent before nodes) (insertAll parent before nodes) := by
  induction nodes with
  | nil => exact rel.pure _
  | cons node rest ih => exact rel.bind (rel.onDom _) fun _ => ih

theorem alongside_removeAll (rel : Alongside view R) (parent : NodeId) (nodes : List NodeId) :
    R (removeAll parent nodes) (removeAll parent nodes) := by
  induction nodes with
  | nil => exact rel.pure _
  | cons node rest ih => exact rel.bind (rel.onDom _) fun _ => ih

theorem alongside_insert (rel : Alongside view R) (parent : NodeId) (entry : Mounted) (before : Option NodeId) :
    R (insert parent entry before) (insert parent entry before) :=
  rel.get fun _ => alongside_insertAll rel ..

theorem alongside_detach (rel : Alongside view R) (parent : NodeId) (entry : Mounted) :
    R (detach parent entry) (detach parent entry) :=
  rel.get fun _ => alongside_removeAll rel ..

section Unmounting
variable {x : ActivationId → RenderM D σ Unit} {y : ActivationId → RenderM D τ Unit}

mutual

theorem alongside_unmountEntryBy (rel : Alongside view R) (inner : ∀ a, R (x a) (y a)) :
    ∀ entry, R (unmountEntryBy x entry) (unmountEntryBy y entry)
  | .text node => by
      rw [unmountEntryBy, unmountEntryBy]
      exact rel.onDom _
  | .element node _ children => by
      rw [unmountEntryBy, unmountEntryBy]
      exact rel.bind (alongside_unmountAllBy rel inner children) fun _ => rel.bind (rel.onBound _) fun _ =>
        rel.onDom _
  | .component a => by
      rw [unmountEntryBy, unmountEntryBy]
      exact inner a
  | .raw _ _ => by
      rw [unmountEntryBy, unmountEntryBy]
      exact rel.pure _

theorem alongside_unmountAllBy (rel : Alongside view R) (inner : ∀ a, R (x a) (y a)) :
    ∀ entries, R (unmountAllBy x entries) (unmountAllBy y entries)
  | [] => by
      rw [unmountAllBy, unmountAllBy]
      exact rel.pure _
  | entry :: rest => by
      rw [unmountAllBy, unmountAllBy]
      exact rel.bind (alongside_unmountEntryBy rel inner entry) fun _ => alongside_unmountAllBy rel inner rest

end

end Unmounting

theorem alongside_unmountActivationWithin (rel : Alongside view R) (levels : Nat) (a : ActivationId) :
    R (unmountActivationWithin levels a) (unmountActivationWithin levels a) := by
  induction levels generalizing a with
  | zero => exact rel.pure _
  | succ levels ih =>
      exact rel.bind (rel.report _) fun _ => rel.bind (rel.record a) fun _ =>
        rel.bind (alongside_takeOutput rel a) fun output => alongside_unmountAllBy rel ih output

theorem alongside_unmountActivation (rel : Alongside view R) (a : ActivationId) :
    R (unmountActivation a) (unmountActivation a) :=
  rel.get fun _ => alongside_unmountActivationWithin rel ..

theorem alongside_unmountEntry (rel : Alongside view R) (entry : Mounted) :
    R (unmountEntry entry) (unmountEntry entry) :=
  alongside_unmountEntryBy rel (alongside_unmountActivation rel) entry

theorem alongside_unmountActivations (rel : Alongside view R) (as : List ActivationId) :
    R (unmountActivations as) (unmountActivations as) := by
  induction as with
  | nil => exact rel.pure _
  | cons a rest ih => exact rel.bind (alongside_unmountActivation rel a) fun _ => ih

theorem alongside_removeEntries (rel : Alongside view R) (parent : NodeId) (entries : List Mounted) :
    R (removeEntries parent entries) (removeEntries parent entries) := by
  induction entries with
  | nil => exact rel.pure _
  | cons entry rest ih =>
      exact rel.get fun _ => rel.bind (rel.report _) fun _ => rel.bind (alongside_detach rel ..) fun _ =>
        rel.bind (alongside_unmountEntry rel entry) fun _ => ih

mutual

theorem alongside_build (rel : Alongside view R) :
    ∀ (plan : Plan) (parent : NodeId), R (build parent plan) (build parent plan)
  | .text s _, parent => by
      rw [build, build]
      exact rel.bind (rel.report _) fun _ => rel.bind (rel.makeNode _) fun _ => rel.pure _
  | .element tag attributes children _, parent => by
      rw [build, build]
      exact rel.bind (rel.report _) fun _ => rel.bind (rel.makeNode _) fun node =>
        rel.bind (alongside_buildChildren rel children node) fun _ => rel.bind (rel.onBound _) fun _ =>
          rel.pure _
  | .component a _ _ _ tree output, parent => by
      rw [build, build]
      exact rel.bind (rel.report _) fun _ => rel.bind (rel.record a) fun _ =>
        rel.bind (alongside_buildOutput rel output parent) fun _ =>
          rel.bind (alongside_setOutput rel ..) fun _ => rel.bind (rel.record a) fun _ => rel.pure _
  | .raw node _, parent => by
      rw [build, build]
      refine rel.bind (rel.makeNode _) fun adopted => ?_
      split
      · exact rel.pure _
      · exact rel.bind (rel.report _) fun _ => rel.bind (rel.makeNode _) fun _ => rel.pure _

theorem alongside_buildChildren (rel : Alongside view R) :
    ∀ (plans : List Plan) (node : NodeId), R (buildChildren node plans) (buildChildren node plans)
  | [], _ => by
      rw [buildChildren, buildChildren]
      exact rel.pure _
  | plan :: rest, node => by
      rw [buildChildren, buildChildren]
      exact rel.bind (alongside_build rel plan node) fun _ => rel.bind (alongside_insert rel ..) fun _ =>
        rel.bind (alongside_buildChildren rel rest node) fun _ => rel.pure _

theorem alongside_buildOutput (rel : Alongside view R) :
    ∀ (plans : List Plan) (parent : NodeId), R (buildOutput parent plans) (buildOutput parent plans)
  | [], _ => by
      rw [buildOutput, buildOutput]
      exact rel.pure _
  | plan :: rest, parent => by
      rw [buildOutput, buildOutput]
      exact rel.bind (alongside_build rel plan parent) fun _ =>
        rel.bind (alongside_buildOutput rel rest parent) fun _ => rel.pure _

end

theorem alongside_addEntries (rel : Alongside view R) (parent : NodeId) (tail : Option NodeId)
    (plans : List Plan) : R (addEntries parent tail plans) (addEntries parent tail plans) := by
  induction plans with
  | nil => exact rel.pure _
  | cons plan rest ih =>
      exact rel.bind (alongside_build rel plan parent) fun _ => rel.bind (alongside_insert rel ..) fun _ =>
        rel.bind ih fun _ => rel.pure _

theorem alongside_replace (rel : Alongside view R) (parent : NodeId) (entry : Mounted) (plan : Plan) :
    R (replace parent entry plan) (replace parent entry plan) :=
  rel.get fun _ => rel.bind (rel.report _) fun _ => rel.bind (alongside_build rel plan parent) fun _ =>
    rel.get fun _ => rel.bind (alongside_insert rel ..) fun _ => rel.bind (alongside_detach rel ..) fun _ =>
      rel.bind (alongside_unmountEntry rel entry) fun _ => rel.pure _

theorem alongside_commitBy (rel : Alongside view R)
    {f : NodeId → Option NodeId → List Mounted → RenderM D σ (List Mounted)}
    {g : NodeId → Option NodeId → List Mounted → RenderM D τ (List Mounted)}
    (inner : ∀ parent tail entries, R (f parent tail entries) (g parent tail entries)) (a : ActivationId)
    (component : Component) (props : Props) (tree : Tree) :
    R (commitBy f a component props tree) (commitBy g a component props tree) := by
  refine rel.get fun s => ?_
  dsimp only
  split
  · exact rel.report _
  · exact rel.get fun _ => rel.bind (rel.record a) fun _ => rel.bind (alongside_takeOutput rel a) fun _ =>
      rel.bind (inner ..) fun _ => rel.bind (alongside_setOutput rel ..) fun _ => rel.get fun _ => rel.record a

mutual

theorem alongside_applyOne (rel : Alongside view R) :
    ∀ (plan : Plan) (parent : NodeId) (entry : Mounted), R (applyOne parent entry plan) (applyOne parent entry plan)
  | .text s reuse, parent, entry => by
      rw [applyOne.eq_def, applyOne.eq_def]
      split
      next =>
        refine rel.bind (rel.report _) fun _ => rel.get fun _ => ?_
        dsimp only
        split
        · exact rel.bind (rel.report _) fun _ => rel.bind (rel.onDom _) fun _ => rel.pure _
        · exact rel.pure _
      next same => cases same
      next same => cases same
      next same => cases same
      next => exact alongside_replace rel ..
  | .element tag attributes plans reuse, parent, entry => by
      rw [applyOne.eq_def, applyOne.eq_def]
      split
      next same => cases same
      next node _ _ _ _ _ same =>
        cases same
        exact rel.bind (rel.report _) fun _ => rel.bind (alongside_applyAll rel plans node none _) fun _ =>
          rel.bind (rel.onBound _) fun _ => rel.pure _
      next same => cases same
      next same => cases same
      next => exact alongside_replace rel ..
  | .component a fresh component props tree output, parent, entry => by
      rw [applyOne.eq_def, applyOne.eq_def]
      split
      next same => cases same
      next same => cases same
      next same =>
        cases same
        split
        · have inner (place : NodeId) (tail : Option NodeId) (entries : List Mounted) :=
            alongside_applyAll rel output place tail entries
          exact rel.bind (rel.report _) fun _ => rel.bind (alongside_commitBy rel inner ..) fun _ => rel.pure _
        · exact alongside_replace rel ..
      next same => cases same
      next => exact alongside_replace rel ..
  | .raw node reuse, parent, entry => by
      rw [applyOne.eq_def, applyOne.eq_def]
      split
      next same => cases same
      next same => cases same
      next same => cases same
      next => exact rel.pure _
      next => exact alongside_replace rel ..

theorem alongside_applyAll (rel : Alongside view R) :
    ∀ (plans : List Plan) (parent : NodeId) (tail : Option NodeId) (entries : List Mounted),
      R (applyAll parent tail entries plans) (applyAll parent tail entries plans)
  | [], parent, tail, entries => by
      rw [applyAll, applyAll]
      exact rel.bind (alongside_removeEntries rel ..) fun _ => rel.pure _
  | plan :: plans, parent, tail, [] => by
      rw [applyAll, applyAll]
      · exact alongside_addEntries rel ..
      · exact List.cons_ne_nil _ _
      · exact List.cons_ne_nil _ _
  | plan :: plans, parent, tail, entry :: entries => by
      rw [applyAll, applyAll]
      exact rel.bind (alongside_applyOne rel plan parent entry) fun _ =>
        rel.bind (alongside_applyAll rel plans parent tail entries) fun _ => rel.pure _

end

end Patching

section Pairing

theorem alongside_checkEntry (rel : Alongside view R) (entry : Option Mounted) :
    R (checkEntry entry) (checkEntry entry) := by
  rcases entry with _ | ⟨node⟩ | _ | _ | _
  case some.text =>
    refine rel.get fun s => ?_
    dsimp only
    split
    · exact rel.bind (rel.report _) fun _ => rel.pure _
    · exact rel.pure _
  all_goals exact rel.pure _

theorem alongside_opening (rel : Alongside view R) (tag : String) (entry : Option Mounted) :
    R (opening tag entry) (opening tag entry) := by
  unfold opening
  split
  · exact rel.pure _
  · refine rel.bind (rel.get fun s => ?_) fun _ => rel.pure _
    dsimp only
    split
    · exact rel.bind (rel.report _) fun _ => rel.pure _
    · exact rel.pure _

omit [Layer D] in
theorem alongside_placing (rel : Alongside view R) (owner : Option ActivationId) (reference : ComponentRef)
    (entry : Option Mounted) : R (placing owner reference entry) (placing owner reference entry) := by
  refine rel.get fun s => ?_
  dsimp only
  split
  · exact rel.pure _
  · exact rel.bind (rel.createActivation ..) fun _ => rel.pure _

variable {x : Invocation D σ} {y : Invocation D τ}

mutual

theorem alongside_pair (rel : Alongside view R) (inner : ∀ a c props, R (x a c props) (y a c props)) :
    ∀ (position : Flat) (owner : Option ActivationId) (entry : Option Mounted),
      R (pair x owner entry position) (pair y owner entry position)
  | .text content, owner, entry => by
      rw [pair_text, pair_text]
      exact rel.bind (alongside_checkEntry rel entry) fun _ => rel.pure _
  | .element tag attributes children, owner, entry => by
      rw [pair_element, pair_element]
      exact rel.bind (alongside_opening rel tag entry) fun _ =>
        rel.bind (alongside_pairAll rel inner children owner _) fun _ => rel.pure _
  | .component reference, owner, entry => by
      rw [pair_component, pair_component]
      exact rel.bind (alongside_placing rel ..) fun _ => rel.bind (inner ..) fun _ => rel.pure _
  | .raw node, owner, entry => by
      rw [pair_raw, pair_raw]
      exact rel.pure _

theorem alongside_pairAll (rel : Alongside view R) (inner : ∀ a c props, R (x a c props) (y a c props)) :
    ∀ (positions : List Flat) (owner : Option ActivationId) (entries : List Mounted),
      R (pairAll x owner entries positions) (pairAll y owner entries positions)
  | [], owner, entries => by
      rw [pairAll, pairAll]
      exact rel.pure _
  | position :: positions, owner, entries => by
      rw [pairAll, pairAll]
      refine rel.bind (alongside_pair rel inner position owner _) fun plan => ?_
      split
      · exact rel.pure _
      · exact rel.bind (alongside_pairAll rel inner positions owner _) fun _ => rel.pure _

end

theorem alongside_pairOutput (rel : Alongside view R) (inner : ∀ a c props, R (x a c props) (y a c props))
    (a : ActivationId) (tree : Tree) : R (pairOutput x a tree) (pairOutput y a tree) :=
  rel.get fun _ => rel.withCalls _ (alongside_pairAll rel inner ..)

end Pairing

section Calling

variable {x : Invocation D σ} {y : Invocation D τ}

theorem alongside_renderBy (rel : Alongside view R) (inner : ∀ a c props, R (x a c props) (y a c props))
    (tree : Tree) (container : NodeId) : R (renderBy x tree container) (renderBy y tree container) := by
  refine rel.bind (rel.report _) fun _ => rel.get fun _ =>
    rel.bind (rel.modify (fun _ => ⟨rfl, rfl, rfl⟩) fun _ => rfl) fun _ =>
      rel.bind (alongside_inPass rel _ ?_) fun _ => ?_
  · refine rel.bind (alongside_pairAll rel inner ..) fun plans => ?_
    split
    · exact rel.bind (alongside_applyAll rel ..) fun _ => rel.pure _
    · exact rel.get fun _ => rel.bind (alongside_unmountActivations rel _) fun _ => rel.pure _
  · dsimp only
    split
    · exact rel.bind (rel.modify (fun _ => ⟨rfl, rfl, rfl⟩) fun _ => rfl) fun _ => rel.get fun _ =>
        rel.bind (rel.report _) fun _ => rel.pure _
    · exact rel.get fun _ => rel.bind (rel.report _) fun _ => rel.pure _

theorem alongside_unmountEntries (rel : Alongside view R) (container : NodeId) (entries : List Mounted) :
    R (unmountEntries container entries) (unmountEntries container entries) := by
  induction entries with
  | nil => exact rel.pure _
  | cons entry rest ih =>
      exact rel.bind (alongside_detach rel ..) fun _ => rel.bind (alongside_unmountEntry rel entry) fun _ => ih

theorem alongside_unmount (rel : Alongside view R) (container : NodeId) :
    R (unmount container) (unmount container) := by
  refine rel.bind (rel.report _) fun _ => rel.get fun _ => ?_
  dsimp only
  split
  · exact rel.pure _
  · exact rel.bind (rel.modify (fun _ => ⟨rfl, rfl, rfl⟩) fun _ => rfl) fun _ =>
      rel.bind (alongside_unmountEntries rel ..) fun _ => rel.pure _

theorem alongside_rerenderBy (rel : Alongside view R) (inner : ∀ a c props, R (x a c props) (y a c props))
    (a : ActivationId) (record : Activation) : R (rerenderBy x a record) (rerenderBy y a record) := by
  refine alongside_inPass rel _ (rel.bind (inner ..) fun outcome => ?_)
  split
  next rendered =>
    have inner (place : NodeId) (tail : Option NodeId) (entries : List Mounted) :=
      alongside_applyAll rel rendered.output place tail entries
    exact rel.bind (alongside_commitBy rel inner ..) fun _ => rel.pure _
  next => exact rel.get fun _ => rel.bind (alongside_unmountActivations rel _) fun _ => rel.pure _

theorem alongside_flushEach (rel : Alongside view R) (inner : ∀ a c props, R (x a c props) (y a c props))
    (epoch : Nat) (pending : List ActivationId) : R (flushEach x epoch pending) (flushEach y epoch pending) := by
  induction pending with
  | nil => exact rel.pure _
  | cons a rest ih =>
      refine rel.get fun s => ?_
      rw [show isLive { s with store := view s.store } a = s.isLive a from rfl]
      dsimp only
      split
      · exact rel.bind (rel.report _) fun _ => ih
      split
      · exact rel.bind (rel.report _) fun _ => ih
      refine rel.bind (alongside_rerenderBy rel inner ..) fun outcome => ?_
      split
      · exact rel.bind ih fun _ => rel.pure _
      · exact rel.bind (rel.report _) fun _ => rel.bind ih fun _ => rel.pure _

theorem alongside_flushBy (rel : Alongside view R) (inner : ∀ a c props, R (x a c props) (y a c props)) :
    R (flushBy x) (flushBy y) :=
  rel.bind (rel.report _) fun _ => rel.get fun _ => rel.get fun _ =>
    rel.bind (rel.modify (fun _ => ⟨rfl, rfl, rfl⟩) fun _ => rfl) fun _ =>
      rel.bind (alongside_flushEach rel inner ..) fun _ => rel.bind (rel.report _) fun _ => rel.pure _

end Calling

section Tasks

variable {p : Program σ} {q : Program τ}

theorem alongside_runTask (rel : Alongside view R)
    (inner : ∀ a c props, R ((top p).invocation a c props) ((top q).invocation a c props)) :
    R (runTask p) (runTask q) := by
  refine rel.get fun s => ?_
  dsimp only
  split
  · exact rel.pure _
  refine rel.bind (alongside_flushBy rel inner) fun outcome => ?_
  split
  · exact rel.report _
  · exact rel.pure _

theorem alongside_runTasks (rel : Alongside view R)
    (inner : ∀ a c props, R ((top p).invocation a c props) ((top q).invocation a c props)) (limit before : Nat) :
    R (runTasks p limit before) (runTasks q limit before) := by
  induction limit generalizing before with
  | zero => exact rel.abort _
  | succ limit ih =>
      refine rel.get fun s => ?_
      dsimp only
      split
      · exact rel.pure _
      · exact rel.bind (rel.modify (fun _ => ⟨rfl, rfl, rfl⟩) fun _ => rfl) fun _ =>
          rel.bind (alongside_runTask rel inner) fun _ => ih _

theorem alongside_runUntilIdle (rel : Alongside view R)
    (inner : ∀ a c props, R ((top p).invocation a c props) ((top q).invocation a c props)) :
    R (runUntilIdle p) (runUntilIdle q) :=
  rel.bind (rel.report _) fun _ => rel.bind (alongside_runTasks rel inner ..) fun _ =>
    rel.bind (rel.report _) fun _ => rel.pure _

end Tasks

end Patchwork.Renderer
