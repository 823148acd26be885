import Mathlib.Logic.Function.Basic
import Patchwork.Proofs.PassEffects
import Patchwork.Proofs.PlanEffects
import Patchwork.Proofs.Spot
import Patchwork.Proofs.MapLookup

/-! Scenes: the pictures in all containers. Between calls the table of activations stands for a scene in
which no activation occurs twice, and the activations that were not unmounted are those of the scene. -/
namespace Patchwork

open Picture

/-- What is shown in each container. -/
abbrev Scene := NodeId → List Picture

namespace Scene

def empty : Scene := fun _ => []

def Has (scene : Scene) (a : ActivationId) : Prop := ∃ place, a ∈ activationsAll (scene place)

theorem ne_nil_of_mem {scene : Scene} {pictured : List Picture → List α} (nothing : pictured [] = [])
    (member : x ∈ pictured (scene place)) : scene place ≠ [] := by
  intro empty
  rw [empty, nothing] at member
  cases member

/-- Among containers that include all that show anything, one finds all there is. -/
theorem exists_mem_places {scene : Scene} {places : List NodeId} {pictured : List Picture → List α}
    (all : ∀ place, scene place ≠ [] → place ∈ places) (nothing : pictured [] = []) :
    (∃ place ∈ places, x ∈ pictured (scene place)) ↔ ∃ place, x ∈ pictured (scene place) :=
  exists_congr fun place => and_iff_right_of_imp fun member => all place (ne_nil_of_mem nothing member)

end Scene

namespace Renderer

variable {D σ : Type} {δ : StateData} [HasStateData σ δ] {s t u : Renderer D σ} {scene : Scene}

/-- No call is in progress, and what is mounted is a scene. -/
structure Settled (s : Renderer D σ) (scene : Scene) : Prop where
  roots : ∀ place, s.roots.get? place =
    if (scene place).isEmpty then none else some (entries (scene place))
  stands : ∀ place, StandAll s.activations place 0 (scene place)
  distinct : ∀ place, (activationsAll (scene place)).Nodup
  apart : ∀ {place place'}, place ≠ place' →
    (activationsAll (scene place)).Disjoint (activationsAll (scene place'))
  registered : ∀ a, s.activations.isRegistered a = true → scene.Has a
  calls : s.calls = .none
  epoch : ∀ a r, s.activations.find? a = some r → r.unmounted = false → r.renderedIn ≤ s.epoch

namespace Settled

theorem new (dom : D) (store : σ) : Settled (new dom store) Scene.empty where
  roots _ := rfl
  stands _ := standAll_nil.mpr trivial
  distinct _ := List.nodup_nil
  apart _ := List.disjoint_nil_left _
  registered a registered := by
    obtain ⟨r, found, -⟩ := Activations.isRegistered_iff.mp registered
    rw [Renderer.new, Activations.find?, Arena.get?_empty] at found
    cases found
  calls := rfl
  epoch a r found := by
    rw [Renderer.new, Activations.find?, Arena.get?_empty] at found
    cases found

theorem mounted (settled : Settled s scene) (place : NodeId) :
    (s.roots.get? place).getD [] = entries (scene place) := by
  rw [settled.roots]
  cases scene place <;> rfl

theorem stands_at (settled : Settled s scene) (same : scene place = Spot.fill p spot) :
    Stands s.activations (spot.place place) (spot.above 0) p := by
  have stands := settled.stands place
  rw [same, Spot.standAll_fill] at stands
  exact stands.2

theorem mem_roots (settled : Settled s scene) (shown : scene place ≠ []) :
    (place, entries (scene place)) ∈ s.roots.toList := by
  refine Dict.get?_eq_some.mp ?_
  rw [settled.roots, if_neg (by simpa only [List.isEmpty_iff] using shown)]

theorem isRegistered_iff (settled : Settled s scene) :
    s.activations.isRegistered a = true ↔ scene.Has a := by
  refine ⟨settled.registered a, fun ⟨place, member⟩ => ?_⟩
  obtain ⟨spot, c, props, tree, output, same⟩ := Spot.exists_spot member
  obtain ⟨-, ⟨r, found, shows⟩, -⟩ := stands_component.mp (settled.stands_at same)
  exact Activations.isRegistered_iff.mpr ⟨r, found, shows.registered⟩

theorem isReachable_of_has (settled : Settled s scene) (has : scene.Has a) :
    s.isReachable a = true := by
  obtain ⟨place, member⟩ := has
  have shown : scene place ≠ [] := Scene.ne_nil_of_mem rfl member
  rw [isReachable_iff, reachable, List.mem_flatMap]
  refine ⟨entries (scene place), ?_, ?_⟩
  · simp only [referring, List.mem_append, List.mem_map, Prod.exists]
    exact .inl (.inl ⟨place, _, settled.mem_roots shown, rfl⟩)
  · rwa [(settled.stands place).activations_eq]

theorem isLive_eq (settled : Settled s scene) (a : ActivationId) :
    s.isLive a = s.activations.isRegistered a := by
  rw [isLive]
  cases registered : s.activations.isRegistered a with
  | false => rfl
  | true => rw [settled.isReachable_of_has (settled.registered a registered), Bool.true_and]

theorem renderedIn_le {as : Activations} (settled : Settled s scene)
    (member : a ∈ activationsAll (scene place))
    (same : (as.find? a).map Activation.bare = (s.activations.find? a).map Activation.bare)
    (found : as.find? a = some r) : r.renderedIn ≤ s.epoch := by
  rw [found, Option.map_some] at same
  obtain ⟨r', found', bare⟩ := Option.map_eq_some_iff.mp same.symm
  obtain ⟨r'', found'', live⟩ :=
    Activations.isRegistered_iff.mp (settled.isRegistered_iff.mpr ⟨place, member⟩)
  cases Option.some.inj (found'.symm.trans found'')
  exact (congrArg Activation.renderedIn bare :) ▸ settled.epoch a r' found' live

/-- What concerns neither the roots nor anything that is committed. -/
theorem undisturbed (settled : Settled s scene) (calm : Undisturbed s t) : Settled t scene where
  roots := calm.roots ▸ settled.roots
  stands place := (settled.stands place).congr fun a _ => calm.bare a
  distinct := settled.distinct
  apart := settled.apart
  registered a registered := by
    obtain ⟨r, found, live⟩ := Activations.isRegistered_iff.mp registered
    have bare := calm.bare a
    rw [found, Option.map_some] at bare
    obtain ⟨r', found', bare⟩ := Option.map_eq_some_iff.mp bare.symm
    exact settled.registered a (Activations.isRegistered_iff.mpr
      ⟨r', found', (congrArg Activation.unmounted bare :).trans live⟩)
  calls := calm.calls.trans settled.calls
  epoch a r found live := by
    have bare := calm.bare a
    rw [found, Option.map_some] at bare
    obtain ⟨r', found', bare⟩ := Option.map_eq_some_iff.mp bare.symm
    have bound := settled.epoch a r' found' ((congrArg Activation.unmounted bare :).trans live)
    rw [calm.epoch]
    exact (congrArg Activation.renderedIn bare :) ▸ bound

end Settled

def newIn (s u : Renderer D σ) : List ActivationId :=
  issuedBetween (Arena.issued s.activations) (Arena.issued u.activations)

theorem mem_newIn : a ∈ newIn s u ↔
    Arena.issued s.activations < a.index ∧ a.index ≤ Arena.issued u.activations := mem_issuedBetween

theorem Settled.not_mem_newIn (settled : Settled s scene) (member : a ∈ activationsAll (scene place)) :
    a ∉ newIn s u :=
  fun new => Nat.not_lt_of_le ((settled.stands place).index a member).2 (mem_newIn.mp new).1

/-- A pass went from one state to the other, under whatever call bookkeeping, with whatever roots taken
out for its time. -/
structure Passed (s u : Renderer D σ) : Prop where
  dom : u.dom = s.dom
  binder : u.binder = s.binder
  epoch : u.epoch = s.epoch
  dropped : u.dropped = s.dropped
  issued : Arena.issued s.activations ≤ Arena.issued u.activations
  old : ∀ a : ActivationId, a.index ≤ Arena.issued s.activations →
    (u.activations.find? a).map Activation.bare = (s.activations.find? a).map Activation.bare
  new : ∀ a ∈ newIn s u, ∃ owner reference, (u.activations.find? a).map Activation.bare =
    some (Activation.blank owner reference s.epoch)

theorem Advances.passed {roots : Dict NodeId (List Mounted)} {calls : Calls} {rs : List Report}
    (advances : Advances { s with roots, calls, reports := rs } u) : Passed s u where
  dom := advances.dom
  binder := advances.binder
  epoch := advances.epoch
  dropped := advances.dropped
  issued := advances.issued
  old := advances.old
  new := advances.new

theorem Passed.refl (s : Renderer D σ) : Passed s s := (Advances.refl s).passed

/-- One container's pictures were changed to others: `s` is the state before, and `u` that after the
pass. -/
structure Changes (s u t : Renderer D σ) (place : NodeId) (ps qs : List Picture) : Prop where
  passed : Passed s u
  confined : Confined (activationsAll ps ++ newIn s u) { u with roots := t.roots, calls := .none } t
  roots : ∀ other, t.roots.get? other =
    if other = place then (if qs.isEmpty then none else some (entries qs)) else s.roots.get? other
  stands : StandAll t.activations place 0 qs
  distinct : (activationsAll qs).Nodup
  within : ∀ a ∈ activationsAll qs, a ∈ activationsAll ps ∨ a ∈ newIn s u
  vanished : ∀ a, a ∈ activationsAll ps ∨ a ∈ newIn s u → a ∉ activationsAll qs →
    t.activations.Vanished a
  rendered : ∀ a ∈ activationsAll qs, ∀ r, t.activations.find? a = some r → r.renderedIn ≤ s.epoch

namespace Changes

theorem elsewhere (changes : Changes s u t place ps qs) (early : a.index ≤ Arena.issued s.activations)
    (outside : a ∉ activationsAll ps) :
    (t.activations.find? a).map Activation.bare = (s.activations.find? a).map Activation.bare := by
  have untouched : a ∉ activationsAll ps ++ newIn s u := by
    rw [List.mem_append, mem_newIn, not_or]
    exact ⟨outside, by omega⟩
  rw [changes.confined.others a untouched]
  exact changes.passed.old a early

/-- What is registered but not shown in the container is from before and shown elsewhere. -/
theorem from_elsewhere (changes : Changes s u t place ps qs) (found : t.activations.find? a = some r)
    (live : r.unmounted = false) (hidden : a ∉ activationsAll qs) :
    a ∉ activationsAll ps ∧ ∃ r', s.activations.find? a = some r' ∧ r.bare = r'.bare := by
  have untouched : ¬ (a ∈ activationsAll ps ∨ a ∈ newIn s u) := by
    intro touched
    obtain ⟨r', found', gone⟩ := changes.vanished a touched hidden
    rw [found, Option.some.injEq] at found'
    rw [found', gone.unmounted] at live
    cases live
  rw [not_or, mem_newIn] at untouched
  have bound : a.index ≤ Arena.issued u.activations :=
    changes.confined.issued ▸ Activations.index_le_issued found
  have bare := changes.elsewhere (by omega) untouched.1
  rw [found, Option.map_some] at bare
  obtain ⟨r', found', bare⟩ := Option.map_eq_some_iff.mp bare.symm
  exact ⟨untouched.1, r', found', bare.symm⟩

theorem settled (changes : Changes s u t place (scene place) qs) (settled : Settled s scene) :
    Settled t (Function.update scene place qs) where
  roots other := by
    rw [changes.roots, Function.update_apply]
    split
    · rfl
    · exact settled.roots other
  stands other := by
    rw [Function.update_apply]
    split
    next same => exact same ▸ changes.stands
    next different =>
      refine (settled.stands other).congr fun a member => changes.elsewhere ?_ ?_
      · exact ((settled.stands other).index a member).2
      · exact fun inside => settled.apart different member inside
  distinct other := by
    rw [Function.update_apply]
    split
    · exact changes.distinct
    · exact settled.distinct other
  apart {one two} different := by
    have crossed : ∀ other, other ≠ place →
        (activationsAll qs).Disjoint (activationsAll (scene other)) := by
      intro other different a inside member
      cases changes.within a inside with
      | inl stood => exact settled.apart different member stood
      | inr new => exact settled.not_mem_newIn member new
    simp only [Function.update_apply]
    split <;> split
    next first second => exact absurd (first.trans second.symm) different
    next first second => exact crossed two second
    next first second => exact fun a inside member => crossed one first member inside
    next first second => exact settled.apart different
  registered a registered := by
    obtain ⟨r, found, live⟩ := Activations.isRegistered_iff.mp registered
    by_cases shown : a ∈ activationsAll qs
    · exact ⟨place, by rwa [Function.update_self]⟩
    obtain ⟨outside, r', found', bare⟩ := changes.from_elsewhere found live shown
    obtain ⟨other, member⟩ := settled.registered a (Activations.isRegistered_iff.mpr
      ⟨r', found', (congrArg Activation.unmounted bare.symm :).trans live⟩)
    have different : other ≠ place := by
      rintro rfl
      exact outside member
    exact ⟨other, by rwa [Function.update_of_ne different]⟩
  calls := changes.confined.calls
  epoch a r found live := by
    rw [changes.confined.epoch]
    change r.renderedIn ≤ u.epoch
    rw [changes.passed.epoch]
    by_cases shown : a ∈ activationsAll qs
    · exact changes.rendered a shown r found
    obtain ⟨-, r', found', bare⟩ := changes.from_elsewhere found live shown
    have bound := settled.epoch a r' found' ((congrArg Activation.unmounted bare.symm :).trans live)
    exact (congrArg Activation.renderedIn bare :) ▸ bound

end Changes

end Renderer
end Patchwork
