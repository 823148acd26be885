import Patchwork.Proofs.MoveUpdates

/-! Components that are decided by their props and state. A reading is what such a component comes to with any
answers to its hook calls. What is current shows what the component's reading gives with the cells that the
activation has. -/
namespace Patchwork

/-- What a component comes to, hook call by hook call. Like a hook call, a reading asks with an initial datum
that is only read if it is needed. -/
inductive Reading (δ : StateData) : Type → Type 1
  | ended (a : α) : Reading δ α
  | asks (type : δ.DataType) (initial : Reading δ (δ.DatumOf type))
      (next : Except RenderError δ.Datum → Reading δ α) : Reading δ α

namespace Reading

variable {δ : StateData} {α : Type}

/-- Deeds that are those of the reading, and what it ends with. -/
inductive Gives : {α : Type} → Reading δ α → List (Deed δ) → α → Prop
  | ended : Gives (.ended a) [] a
  | changed : Gives reading deeds a → Gives reading (.changed owner cell :: deeds) a
  | asked {initial : Reading δ (δ.DatumOf type)} : Gives (next answer) deeds a →
      Gives (.asks type initial next) (.asked type answer :: deeds) a
  | made {initial : Reading δ (δ.DatumOf type)} {d : δ.DatumOf type} : Gives initial first d →
      Gives (next (.ok d.1)) deeds a → Gives (.asks type initial next) (first ++ .asked type (.ok d.1) :: deeds) a

/-- The end of a reading that finds these cells, from the `index`-th on; nothing if a cell is missing. -/
def on (cells : List δ.Datum) {α : Type} : Reading δ α → Nat → Option α
  | ended a, _ => some a
  | asks type _ next, index =>
      match cells[index]? with
      | some d => (next (δ.answer d type index)).on cells (index + 1)
      | none => none

def Flat {α : Type} : Reading δ α → Prop
  | ended _ => True
  | asks _ initial next => (∃ d, initial = .ended d) ∧ ∀ answer, (next answer).Flat

theorem Gives.of_ended {reading : Reading δ α} (gives : Gives reading deeds a) (ended : reading = .ended b) :
    a = b ∧ Patchwork.asks deeds = 0 := by
  induction gives with
  | ended =>
      cases ended
      exact ⟨rfl, rfl⟩
  | changed _ ih => exact ih ended
  | asked | made => cases ended

theorem Gives.on {reading : Reading δ α} (gives : Gives reading deeds a) (flat : reading.Flat)
    (answered : Answered cells index deeds) : reading.on cells index = some a := by
  induction gives generalizing index with
  | ended => rfl
  | changed _ ih => exact @ih index flat answered
  | asked _ ih =>
      obtain ⟨⟨d, cell, rfl⟩, later⟩ := answered
      rw [Reading.on, cell]
      exact ih (flat.2 _) later
  | @made _ _ _ _ _ _ _ d first _ _ ih =>
      obtain ⟨b, ended⟩ := flat.1
      obtain ⟨-, none⟩ := first.of_ended ended
      obtain ⟨-, ⟨d', cell, same⟩, later⟩ := answered_append.mp answered
      rw [none, Nat.add_zero] at cell same later
      rw [Reading.on, cell]
      dsimp only
      rw [← same]
      exact ih (flat.2 _) later

end Reading

namespace Renderer

variable {D σ : Type} {δ : StateData} [HasStateData σ δ] {s : Renderer D σ} {program : Program σ}
  {alike : Tree → Tree → Prop} {reading : Component → Props → Reading δ (Except RenderError Tree)}

end Renderer
end Patchwork
