import Patchwork.Proofs.Canvas
import Patchwork.Proofs.EntryLookup
import Patchwork.Proofs.Step
import Patchwork.Renderer.Patch

/-! What steps that carry out plans leave alone. Such a step changes the canvas and the records of some
activations, never their state cells, and nothing else of the renderer. -/
namespace Patchwork

/-- What an activation remembers, which no commit changes. -/
def Activation.memory (r : Activation) : Option ActivationId × List CellId × Nat × Option Nat :=
  (r.owner, r.cells, r.cursor, r.previousCount)

def Activations.Vanished (as : Activations) (a : ActivationId) : Prop :=
  ∃ r, as.find? a = some r ∧ r.Gone

namespace Renderer

variable {D σ : Type} {δ : StateData} [HasStateData σ δ] {s t u : Renderer D σ}

/-- Apart from the canvas and reports, only the records of some activations changed. -/
structure Confined (within : List ActivationId) (s t : Renderer D σ) : Prop where
  roots : t.roots = s.roots
  cells : t.cells = s.cells
  scheduler : t.scheduler = s.scheduler
  waiting : t.waiting = s.waiting
  epoch : t.epoch = s.epoch
  dropped : t.dropped = s.dropped
  store : t.store = s.store
  calls : t.calls = s.calls
  issued : Arena.issued t.activations = Arena.issued s.activations
  others : ∀ a, a ∉ within → t.activations.find? a = s.activations.find? a
  memory : ∀ a, (t.activations.find? a).map Activation.memory =
    (s.activations.find? a).map Activation.memory

namespace Confined

@[refl] theorem refl (s : Renderer D σ) : Confined [] s s :=
  ⟨rfl, rfl, rfl, rfl, rfl, rfl, rfl, rfl, rfl, fun _ _ => rfl, fun _ => rfl⟩

theorem mono (one : Confined within s t) (more : ∀ a ∈ within, a ∈ outer) : Confined outer s t :=
  { one with others := fun a outside => one.others a fun member => outside (more a member) }

theorem trans (one : Confined first s t) (two : Confined second t u) :
    Confined (first ++ second) s u where
  roots := two.roots.trans one.roots
  cells := two.cells.trans one.cells
  scheduler := two.scheduler.trans one.scheduler
  waiting := two.waiting.trans one.waiting
  epoch := two.epoch.trans one.epoch
  dropped := two.dropped.trans one.dropped
  store := two.store.trans one.store
  calls := two.calls.trans one.calls
  issued := two.issued.trans one.issued
  others a outside := by
    rw [List.mem_append, not_or] at outside
    exact (two.others a outside.2).trans (one.others a outside.1)
  memory a := (two.memory a).trans (one.memory a)

theorem stands (confined : Confined within s t)
    (stands : Picture.Stands s.activations place above p)
    (apart : ∀ a ∈ Picture.activations p, a ∉ within) : Picture.Stands t.activations place above p :=
  stands.congr fun a member => by rw [confined.others a (apart a member)]

theorem standAll (confined : Confined within s t)
    (stands : Picture.StandAll s.activations place above ps)
    (apart : ∀ a ∈ Picture.activationsAll ps, a ∉ within) :
    Picture.StandAll t.activations place above ps :=
  stands.congr fun a member => by rw [confined.others a (apart a member)]

theorem vanished (confined : Confined within s t) (gone : s.activations.Vanished a)
    (apart : a ∉ within) : t.activations.Vanished a := by
  obtain ⟨r, found, gone⟩ := gone
  exact ⟨r, (confined.others a apart).trans found, gone⟩

theorem update (s : Renderer D σ) (a : ActivationId) (f : Activation → Activation)
    (keeps : ∀ r, (f r).memory = r.memory) :
    Confined [a] s { s with activations := s.activations.update a f } := by
  refine ⟨rfl, rfl, rfl, rfl, rfl, rfl, rfl, rfl, Activations.issued_update .., fun b other => ?_,
    fun b => ?_⟩
  · exact Activations.find?_update_ne (by simpa only [List.mem_singleton] using other)
  · rw [Activations.find?_update]
    split
    · rw [Option.map_map]
      exact congrArg (Option.map · _) (funext keeps)
    · rfl

end Confined

/-- The canvas changed as told, and nothing else did. -/
structure Drawn (change : Canvas D → Canvas D) (s t : Renderer D σ) : Prop where
  canvas : t.canvas = change s.canvas
  activations : t.activations = s.activations
  confined : Confined [] s t

theorem filter_reverseAux (p : α → Bool) (xs ys : List α) :
    (xs.reverseAux ys).filter p = (xs.filter p).reverseAux (ys.filter p) := by
  simp only [List.reverseAux_eq, List.filter_append, List.filter_reverse]

@[simp] theorem activations_noting (s : Renderer D σ) (r : Report) :
    (s.noting r).activations = s.activations := rfl

theorem Drawn.refl (s : Renderer D σ) : Drawn id s s := ⟨rfl, rfl, .refl s⟩

theorem drawn_report (s : Renderer D σ) (quiet : r.isAlarm = false) :
    Returns (report r) s () (s.noting r) ∧ Drawn id s (s.noting r) := by
  refine ⟨returns_report.mpr rfl, ?_, rfl, ⟨rfl, rfl, rfl, rfl, rfl, rfl, rfl, rfl, rfl, fun _ _ => rfl,
    fun _ => rfl⟩⟩
  simp only [canvas, noting, List.filter_cons, quiet, Bool.false_eq_true, if_false, id]

theorem drawn_onDom (s : Renderer D σ) (f : D → Logged D) :
    ∃ t, Returns (onDom f) s () t ∧ Drawn (Canvas.edit f) s t := by
  refine ⟨_, returns_onDom.mpr rfl, ?_, rfl, ⟨rfl, rfl, rfl, rfl, rfl, rfl, rfl, rfl, rfl,
    fun _ _ => rfl, fun _ => rfl⟩⟩
  simp only [canvas, Canvas.edit, filter_reverseAux]

theorem drawn_onBound [Layer D] (s : Renderer D σ) (f : Binder → D → Logged (Binder × D)) :
    ∃ t, Returns (onBound f) s () t ∧ Drawn (Canvas.editBound f) s t := by
  refine ⟨_, returns_modify.mpr rfl, ?_, rfl, ⟨rfl, rfl, rfl, rfl, rfl, rfl, rfl, rfl, rfl,
    fun _ _ => rfl, fun _ => rfl⟩⟩
  simp only [canvas, Canvas.editBound, filter_reverseAux]

theorem drawn_makeNode (s : Renderer D σ) (f : D → α × D) :
    ∃ t, Returns (makeNode f) s (s.canvas.make f).1 t ∧ Drawn (fun c => (c.make f).2) s t :=
  ⟨_, returns_makeNode.mpr ⟨rfl, rfl⟩, rfl, rfl,
    ⟨rfl, rfl, rfl, rfl, rfl, rfl, rfl, rfl, rfl, fun _ _ => rfl, fun _ => rfl⟩⟩

theorem Drawn.trans (one : Drawn first s t) (two : Drawn second t u) :
    Drawn (fun c => second (first c)) s u where
  canvas := by rw [two.canvas, one.canvas]
  activations := two.activations.trans one.activations
  confined := one.confined.trans two.confined

theorem drawn_insertAll [Layer D] (parent : NodeId) (before : Option NodeId) (nodes : List NodeId)
    (s : Renderer D σ) : ∃ t, Returns (insertAll parent before nodes) s () t ∧
      Drawn (Canvas.putAll parent before nodes) s t := by
  induction nodes generalizing s with
  | nil => exact ⟨s, returns_pure.mpr ⟨rfl, rfl⟩, rfl, rfl, .refl s⟩
  | cons node rest ih =>
      obtain ⟨t, one, drawn⟩ := drawn_onDom s fun dom => Layer.insertBefore dom parent node before
      obtain ⟨u, two, later⟩ := ih t
      exact ⟨u, one.bind two, drawn.trans later⟩

theorem drawn_removeAll [Layer D] (parent : NodeId) (nodes : List NodeId)
    (s : Renderer D σ) : ∃ t, Returns (removeAll parent nodes) s () t ∧
      Drawn (Canvas.takeAll parent nodes) s t := by
  induction nodes generalizing s with
  | nil => exact ⟨s, returns_pure.mpr ⟨rfl, rfl⟩, rfl, rfl, .refl s⟩
  | cons node rest ih =>
      obtain ⟨t, one, drawn⟩ := drawn_onDom s fun dom => Layer.removeChild dom parent node
      obtain ⟨u, two, later⟩ := ih t
      exact ⟨u, one.bind two, drawn.trans later⟩

/-- An entry is put into its parent by the nodes that its picture has on top. -/
theorem drawn_insert [Layer D] (stands : Picture.Stands s.activations place above p)
    (parent : NodeId) (before : Option NodeId) :
    ∃ t, Returns (insert parent p.entry before) s () t ∧
      Drawn (Canvas.putAll parent before p.tops) s t := by
  obtain ⟨t, put, drawn⟩ := drawn_insertAll parent before p.tops s
  refine ⟨t, returns_bind.mpr ⟨s, s, rfl, ?_⟩, drawn⟩
  rw [stands.nodes_eq]
  exact put

theorem drawn_detach [Layer D] (stands : Picture.Stands s.activations place above p)
    (parent : NodeId) :
    ∃ t, Returns (detach parent p.entry) s () t ∧ Drawn (Canvas.takeAll parent p.tops) s t := by
  obtain ⟨t, taken, drawn⟩ := drawn_removeAll parent p.tops s
  refine ⟨t, returns_bind.mpr ⟨s, s, rfl, ?_⟩, drawn⟩
  rw [stands.nodes_eq]
  exact taken

end Renderer
end Patchwork
