import Mathlib.Data.List.Nodup
import Mathlib.Tactic.ByContra
import Patchwork.Renderer.Activation

/-! The table of activations under its operations: what a look-up gives after a change, which
identities were issued, and which of them are registered. -/
namespace Patchwork

namespace Arena

@[simp] theorem issued_modify (a : Arena α) (h : Nat) (f : α → α) :
    (a.modify h f).issued = a.issued := by
  cases h <;> simp [modify, issued]

@[simp] theorem issued_free (a : Arena α) (h : Nat) : (a.free h).issued = a.issued := by
  cases h <;> simp [free, issued]

@[simp] theorem issued_alloc (a : Arena α) (x : α) : (a.alloc x).2.issued = a.issued + 1 := by
  simp [alloc, issued]

theorem index_le_issued {a : Arena α} (found : a.get? h = some x) : h ≤ a.issued := by
  cases h with
  | zero => simp [get?] at found
  | succ i =>
      have bound : i < a.slots.size := by
        by_contra outside
        rw [get?, Array.getElem?_eq_none (by omega)] at found
        cases found
      exact bound

theorem one_le_of_get? {a : Arena α} (found : a.get? h = some x) : 1 ≤ h := by
  cases h with
  | zero => simp [get?] at found
  | succ i => omega

theorem get?_of_issued_lt {a : Arena α} (beyond : a.issued < h) : a.get? h = none := by
  cases found : a.get? h with
  | none => rfl
  | some x =>
      have := index_le_issued found
      omega

theorem mem_handles {a : Arena α} : h ∈ a.handles ↔ ∃ x, a.get? h = some x := by
  simp only [handles, List.mem_filter, List.mem_map, List.mem_range, contains, Option.isSome_iff_exists]
  constructor
  · exact fun member => member.2
  · rintro ⟨x, found⟩
    have low := one_le_of_get? found
    have high := index_le_issued found
    exact ⟨⟨h - 1, by omega, by omega⟩, x, found⟩

end Arena

/-- An activation apart from what its invocations change. -/
def Activation.bare (r : Activation) : Activation :=
  { r with cells := [], cursor := 0, previousCount := none }

namespace Activations

@[simp] theorem issued_update (as : Activations) (a : ActivationId) (f : Activation → Activation) :
    Arena.issued (as.update a f) = Arena.issued as := Arena.issued_modify ..

theorem find?_update (as : Activations) (a b : ActivationId) (f : Activation → Activation) :
    (as.update a f).find? b = if b = a then (as.find? b).map f else as.find? b := by
  obtain ⟨i⟩ := a
  obtain ⟨j⟩ := b
  simp only [find?, update, Arena.get?_modify, ActivationId.mk.injEq]

@[simp] theorem find?_update_self (as : Activations) (a : ActivationId)
    (f : Activation → Activation) : (as.update a f).find? a = (as.find? a).map f := by
  rw [find?_update, if_pos rfl]

theorem find?_update_ne {as : Activations} {f : Activation → Activation} (other : b ≠ a) :
    (as.update a f).find? b = as.find? b := by
  rw [find?_update, if_neg other]

theorem find?_alloc (as : Activations) (r : Activation) (b : ActivationId) :
    find? (Arena.alloc as r).2 b = if b.index = Arena.issued as + 1 then some r else as.find? b :=
  Arena.get?_alloc ..

theorem index_le_issued {as : Activations} (found : as.find? a = some r) :
    a.index ≤ Arena.issued as := Arena.index_le_issued found

theorem one_le_index {as : Activations} (found : as.find? a = some r) : 1 ≤ a.index :=
  Arena.one_le_of_get? found

theorem output_eq {as : Activations} (found : as.find? a = some r) : as.output a = r.output := by
  simp only [output, found, Option.map_some, Option.getD_some]

theorem isRegistered_iff {as : Activations} :
    as.isRegistered a = true ↔ ∃ r, as.find? a = some r ∧ r.unmounted = false := by
  simp only [isRegistered, Option.any_eq_true, Bool.not_eq_true']

theorem mem_registered {as : Activations} : a ∈ as.registered ↔ as.isRegistered a = true := by
  simp only [registered, List.mem_filter, List.mem_map, Arena.mem_handles, isRegistered]
  constructor
  · exact fun member => member.2
  · intro any
    cases found : as.find? a with
    | none => simp [found] at any
    | some r => exact ⟨⟨a.index, ⟨r, found⟩, rfl⟩, found ▸ any⟩

end Activations

/-- The identities issued after the first `i`, up to the `j`-th, in order. -/
def issuedBetween (i j : Nat) : List ActivationId := (List.range' (i + 1) (j - i)).map ActivationId.mk

theorem mem_issuedBetween : a ∈ issuedBetween i j ↔ i < a.index ∧ a.index ≤ j := by
  obtain ⟨n⟩ := a
  simp only [issuedBetween, List.mem_map, List.mem_range'_1, ActivationId.mk.injEq, exists_eq_right]
  omega

@[simp] theorem issuedBetween_self (i : Nat) : issuedBetween i i = [] := by
  simp [issuedBetween]

theorem issuedBetween_append (one : i ≤ j) (two : j ≤ k) :
    issuedBetween i j ++ issuedBetween j k = issuedBetween i k := by
  have start : j + 1 = i + 1 + 1 * (j - i) := by omega
  have count : k - i = (j - i) + (k - j) := by omega
  rw [issuedBetween, issuedBetween, issuedBetween, ← List.map_append, start, count,
    List.range'_append]

theorem issuedBetween_succ (i : Nat) : issuedBetween i (i + 1) = [⟨i + 1⟩] := by
  simp [issuedBetween]

theorem Activations.registered_eq (as : Activations) :
    as.registered = (issuedBetween 0 (Arena.issued as)).filter as.isRegistered := by
  have handles : (List.range (Arena.issued as)).map (· + 1) =
      List.range' (0 + 1) (Arena.issued as - 0) := by
    rw [List.range'_eq_map_range]
    exact List.map_congr_left fun i _ => by omega
  have held : ∀ h : Nat, as.isRegistered ⟨h⟩ = true → Arena.contains as h = true := by
    intro h registered
    obtain ⟨r, found, -⟩ := isRegistered_iff.mp registered
    exact Option.isSome_iff_exists.mpr ⟨r, found⟩
  rw [registered, Arena.handles, handles, issuedBetween, List.filter_map, List.filter_map,
    List.filter_filter]
  refine congrArg _ (List.filter_congr fun h _ => ?_)
  refine Bool.eq_iff_iff.mpr ⟨fun both => (Bool.and_eq_true_iff.mp both).1, fun registered => ?_⟩
  exact Bool.and_eq_true_iff.mpr ⟨registered, held h registered⟩

theorem nodup_issuedBetween (i j : Nat) : (issuedBetween i j).Nodup := by
  refine List.Nodup.map_on ?_ List.nodup_range'
  intro m _ n _ same
  exact congrArg ActivationId.index same

end Patchwork
