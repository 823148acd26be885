import Patchwork.Proofs.Picture

/-! What is found by following entries through the table of activations. As far as the table stands for
a picture, the live nodes and the activations found are those of the picture. -/
namespace Patchwork.Picture

variable {as : Activations} {place : NodeId}

theorem ne_nil_of_flats {t : Tree} (shown : flats ps = t.flattenOutput) : ps ≠ [] := by
  rintro rfl
  exact t.flattenOutput_ne_nil shown.symm

theorem Stands.tops_ne_nil : ∀ {p : Picture} {place above}, Stands as place above p → tops p ≠ []
  | .text .., _, _, _ | .raw .., _, _, _ | .missing .., _, _, _ | .element .., _, _, _ => by
      simp only [tops, ne_eq, List.cons_ne_nil, not_false_eq_true]
  | .component _ _ _ _ [], _, _, stands => by
      exact (ne_nil_of_flats (stands_component.mp stands).2.2.1 rfl).elim
  | .component a _ _ _ (q :: rest), _, _, stands => by
      have inner := standAll_cons.mp (stands_component.mp stands).2.2.2
      rw [tops, topsAll]
      exact List.append_ne_nil_of_left_ne_nil inner.1.tops_ne_nil _

theorem topsAll_eq_nil (stands : StandAll as place above ps) : topsAll ps = [] ↔ ps = [] := by
  cases ps with
  | nil => simp only [topsAll]
  | cons p rest =>
      simp only [topsAll, List.append_eq_nil_iff, (standAll_cons.mp stands).1.tops_ne_nil, false_and,
        reduceCtorEq]

theorem Stands.opened (stands : Stands as place above (.component a c props tree output))
    (enough : Arena.issued as ≤ levels + above) :
    ∃ below, levels = below + 1 ∧ Arena.issued as ≤ below + a.index ∧
      as.output a = entries output ∧ output ≠ [] ∧ StandAll as place a.index output := by
  obtain ⟨later, ⟨r, found, shows⟩, shown, inner⟩ := stands_component.mp stands
  have issued := Activations.index_le_issued found
  refine ⟨levels - 1, by omega, by omega, ?_, ne_nil_of_flats shown, inner⟩
  rw [Activations.output_eq found, shows.output]

mutual

theorem Stands.nodesWithin_eq : ∀ {p : Picture} {place above levels}, Stands as place above p →
    Arena.issued as ≤ levels + above → (entry p).nodesWithin as levels = tops p
  | .text .., _, _, _, _, _ | .raw .., _, _, _, _, _ | .missing .., _, _, _, _, _
  | .element .., _, _, _, _, _ => by simp only [entry, Mounted.nodesWithin, tops]
  | .component a _ _ _ output, _, _, levels, stands, enough => by
      obtain ⟨below, rfl, enough, holds, _, inner⟩ := stands.opened enough
      rw [entry, Mounted.nodesWithin, holds, tops, inner.nodesWithin_eq enough]

theorem StandAll.nodesWithin_eq : ∀ {ps : List Picture} {place above levels},
    StandAll as place above ps → Arena.issued as ≤ levels + above →
    (entries ps).flatMap (Mounted.nodesWithin as levels) = topsAll ps
  | [], _, _, _, _, _ => by simp only [entries, topsAll, List.flatMap_nil]
  | p :: rest, _, _, _, stands, enough => by
      rw [standAll_cons] at stands
      rw [entries, topsAll, List.flatMap_cons, stands.1.nodesWithin_eq enough,
        stands.2.nodesWithin_eq enough]

end

theorem Stands.nodes_eq (stands : Stands as place above p) : (entry p).nodes as = tops p :=
  stands.nodesWithin_eq (Nat.le_add_right ..)

theorem Stands.firstNodeWithin_eq : ∀ {p : Picture} {place above levels}, Stands as place above p →
    Arena.issued as ≤ levels + above → (entry p).firstNodeWithin as levels = (tops p).head?
  | .text .., _, _, _, _, _ | .raw .., _, _, _, _, _ | .missing .., _, _, _, _, _
  | .element .., _, _, _, _, _ => by
      simp only [entry, Mounted.firstNodeWithin, tops, List.head?_cons]
  | .component _ _ _ _ [], _, _, _, stands, enough => by
      obtain ⟨_, _, _, _, filled, _⟩ := stands.opened enough
      exact (filled rfl).elim
  | .component a _ _ _ (q :: rest), _, _, levels, stands, enough => by
      obtain ⟨below, rfl, enough, holds, _, inner⟩ := stands.opened enough
      have first := (standAll_cons.mp inner).1
      rw [entry, Mounted.firstNodeWithin, holds, entries, List.head?_cons, Option.bind_some,
        first.firstNodeWithin_eq enough, tops, topsAll, List.head?_append_of_ne_nil _ first.tops_ne_nil]

theorem Stands.firstNode?_eq (stands : Stands as place above p) :
    (entry p).firstNode? as = (tops p).head? :=
  stands.firstNodeWithin_eq (Nat.le_add_right ..)

mutual

theorem Stands.lastNodeWithin_eq : ∀ {p : Picture} {place above levels}, Stands as place above p →
    Arena.issued as ≤ levels + above → (entry p).lastNodeWithin as levels = (tops p).getLast?
  | .text .., _, _, _, _, _ | .raw .., _, _, _, _, _ | .missing .., _, _, _, _, _
  | .element .., _, _, _, _, _ => by
      simp only [entry, Mounted.lastNodeWithin, tops, List.getLast?_singleton]
  | .component a _ _ _ output, _, _, levels, stands, enough => by
      obtain ⟨below, rfl, enough, holds, _, inner⟩ := stands.opened enough
      rw [entry, Mounted.lastNodeWithin, holds, tops, inner.lastNodeWithin_eq enough]

theorem StandAll.lastNodeWithin_eq : ∀ {ps : List Picture} {place above levels},
    StandAll as place above ps → Arena.issued as ≤ levels + above →
    (entries ps).getLast?.bind (Mounted.lastNodeWithin as levels) = (topsAll ps).getLast?
  | [], _, _, _, _, _ => by simp only [entries, topsAll, List.getLast?_nil, Option.bind_none]
  | [p], _, _, _, stands, enough => by
      rw [standAll_cons] at stands
      simp only [entries, topsAll, List.getLast?_singleton, Option.bind_some, List.append_nil,
        stands.1.lastNodeWithin_eq enough]
  | p :: q :: rest, _, _, _, stands, enough => by
      rw [standAll_cons] at stands
      have later := stands.2.lastNodeWithin_eq enough
      have filled : topsAll (q :: rest) ≠ [] := by
        simp only [ne_eq, topsAll_eq_nil stands.2, reduceCtorEq, not_false_eq_true]
      rw [entries, topsAll, List.getLast?_append_of_ne_nil _ filled, ← later, entries,
        List.getLast?_cons_cons]

end

theorem Stands.lastNode?_eq (stands : Stands as place above p) :
    (entry p).lastNode? as = (tops p).getLast? :=
  stands.lastNodeWithin_eq (Nat.le_add_right ..)

mutual

theorem Stands.activationsBy_eq : ∀ {p : Picture} {place above levels}, Stands as place above p →
    Arena.issued as ≤ levels + above →
    Mounted.activationsBy (Mounted.activationsInside as levels) (entry p) = activations p
  | .text .., _, _, _, _, _ | .raw .., _, _, _, _, _ | .missing .., _, _, _, _, _ => by
      simp only [entry, Mounted.activationsBy, activations]
  | .element _ _ _ children, _, _, _, stands, enough => by
      rw [stands_element] at stands
      rw [entry, Mounted.activationsBy, activations, stands.activationsBy_eq enough]
  | .component a _ _ _ output, _, _, levels, stands, enough => by
      obtain ⟨below, rfl, enough, holds, _, inner⟩ := stands.opened enough
      rw [entry, Mounted.activationsBy, Mounted.activationsInside, holds, activations,
        inner.activationsBy_eq enough]

theorem StandAll.activationsBy_eq : ∀ {ps : List Picture} {place above levels},
    StandAll as place above ps → Arena.issued as ≤ levels + above →
    Mounted.activationsOfAllBy (Mounted.activationsInside as levels) (entries ps) = activationsAll ps
  | [], _, _, _, _, _ => by simp only [entries, Mounted.activationsOfAllBy, activationsAll]
  | p :: rest, _, _, _, stands, enough => by
      rw [standAll_cons] at stands
      rw [entries, Mounted.activationsOfAllBy, activationsAll, stands.1.activationsBy_eq enough,
        stands.2.activationsBy_eq enough]

end

theorem StandAll.activations_eq (stands : StandAll as place above ps) :
    Mounted.activations as (entries ps) = activationsAll ps :=
  stands.activationsBy_eq (Nat.le_add_right ..)

end Patchwork.Picture
