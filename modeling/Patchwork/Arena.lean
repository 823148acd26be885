/-! Arenas: values under handles 1, 2, 3, … in the order of allocation. A freed handle stays vacant, so
no handle is issued twice. -/
namespace Patchwork

structure Arena (α : Type) where
  slots : Array (Option α)
deriving DecidableEq

namespace Arena

def empty : Arena α := ⟨#[]⟩

instance : Inhabited (Arena α) := ⟨empty⟩

def issued (a : Arena α) : Nat := a.slots.size

def get? (a : Arena α) : Nat → Option α
  | 0 => none
  | i + 1 => a.slots[i]?.join

def contains (a : Arena α) (h : Nat) : Bool := (a.get? h).isSome

def alloc (a : Arena α) (x : α) : Nat × Arena α := (a.issued + 1, ⟨a.slots.push (some x)⟩)

def modify (a : Arena α) (h : Nat) (f : α → α) : Arena α :=
  match h with
  | 0 => a
  | i + 1 => ⟨a.slots.modify i (Option.map f)⟩

def free (a : Arena α) (h : Nat) : Arena α :=
  match h with
  | 0 => a
  | i + 1 => ⟨a.slots.modify i fun _ => none⟩

def handles (a : Arena α) : List Nat := (List.range a.issued).map (· + 1) |>.filter a.contains

def count (a : Arena α) : Nat := a.handles.length

theorem get?_empty (h : Nat) : (empty : Arena α).get? h = none := by
  cases h <;> simp [empty, get?]

theorem get?_modify (a : Arena α) (h k : Nat) (f : α → α) :
    (a.modify h f).get? k = if k = h then (a.get? k).map f else a.get? k := by
  cases h with
  | zero => cases k <;> simp [modify, get?]
  | succ i =>
      cases k with
      | zero => simp [get?]
      | succ j =>
          by_cases same : j = i
          · subst same
            cases slot : a.slots[j]? <;> simp [modify, get?, Array.getElem?_modify, slot]
          · simp [modify, get?, Array.getElem?_modify, same, Ne.symm same]

theorem get?_free (a : Arena α) (h k : Nat) :
    (a.free h).get? k = if k = h then none else a.get? k := by
  cases h with
  | zero => cases k <;> simp [free, get?]
  | succ i =>
      cases k with
      | zero => simp [get?]
      | succ j =>
          by_cases same : j = i
          · subst same
            cases slot : a.slots[j]? <;> simp [free, get?, Array.getElem?_modify, slot]
          · simp [free, get?, Array.getElem?_modify, same, Ne.symm same]

theorem get?_alloc (a : Arena α) (x : α) (k : Nat) :
    (a.alloc x).2.get? k = if k = a.issued + 1 then some x else a.get? k := by
  cases k with
  | zero => simp [get?]
  | succ j =>
      simp only [alloc, get?, issued, Array.getElem?_push, Nat.add_right_cancel_iff]
      split <;> rfl

end Arena
end Patchwork
