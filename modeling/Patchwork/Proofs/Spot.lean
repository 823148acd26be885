import Patchwork.Proofs.Picture

/-! Spots: a list of pictures with a hole for one picture, which may be deep inside. Every activation of
a list of pictures is at a spot, and pictures with the same entry and position fit the same spots. -/
namespace Patchwork

open Picture

inductive Spot
  | here (before after : List Picture)
  | element (before : List Picture) (node : NodeId) (tag : String) (attributes : Attributes)
      (inner : Spot) (after : List Picture)
  | component (before : List Picture) (a : ActivationId) (c : Component) (props : Props) (tree : Tree)
      (inner : Spot) (after : List Picture)

namespace Picture

theorem entries_append (ps qs : List Picture) : entries (ps ++ qs) = entries ps ++ entries qs := by
  simp only [entries_eq_map, List.map_append]

theorem flats_append (ps qs : List Picture) : flats (ps ++ qs) = flats ps ++ flats qs := by
  simp only [flats_eq_map, List.map_append]

theorem topsAll_append (ps qs : List Picture) : topsAll (ps ++ qs) = topsAll ps ++ topsAll qs := by
  simp only [topsAll_eq_flatMap, List.flatMap_append]

theorem nodesAll_append (ps qs : List Picture) : nodesAll (ps ++ qs) = nodesAll ps ++ nodesAll qs := by
  simp only [nodesAll_eq_flatMap, List.flatMap_append]

theorem activationsAll_append (ps qs : List Picture) :
    activationsAll (ps ++ qs) = activationsAll ps ++ activationsAll qs := by
  simp only [activationsAll_eq_flatMap, List.flatMap_append]

theorem standAll_append {as : Activations} : StandAll as place above (ps ++ qs) ↔
    StandAll as place above ps ∧ StandAll as place above qs := by
  simp only [standAll_iff, List.forall_mem_append]

end Picture

namespace Spot

def fill (p : Picture) : Spot → List Picture
  | here before after => before ++ p :: after
  | element before node tag attributes inner after =>
      before ++ .element node tag attributes (fill p inner) :: after
  | component before a c props tree inner after =>
      before ++ .component a c props tree (fill p inner) :: after

def place : Spot → NodeId → NodeId
  | here _ _, outer => outer
  | element _ node _ _ inner _, _ => place inner node
  | component _ _ _ _ _ inner _, outer => place inner outer

/-- The index of the nearest activation around the spot. -/
def above : Spot → Nat → Nat
  | here _ _, bound => bound
  | element _ _ _ _ inner _, bound => above inner bound
  | component _ a _ _ _ inner _, _ => above inner a.index

/-- The activations around the spot, in front of it and behind it. -/
def around : Spot → List ActivationId × List ActivationId
  | here before after => (activationsAll before, activationsAll after)
  | element before _ _ _ inner after =>
      (activationsAll before ++ (around inner).1, (around inner).2 ++ activationsAll after)
  | component before a _ _ _ inner after =>
      (activationsAll before ++ a :: (around inner).1, (around inner).2 ++ activationsAll after)

theorem activationsAll_fill (spot : Spot) (p : Picture) :
    activationsAll (spot.fill p) = spot.around.1 ++ (p.activations ++ spot.around.2) := by
  induction spot with
  | here => simp only [fill, around, activationsAll_append, activationsAll]
  | element before node tag attributes inner after ih =>
      simp only [fill, around, activationsAll_append, activationsAll, activations, ih, List.append_assoc]
  | component before a c props tree inner after ih =>
      simp only [fill, around, activationsAll_append, activationsAll, activations, ih,
        List.append_assoc, List.cons_append]

theorem mem_activationsAll_fill {spot : Spot} : a ∈ activationsAll (spot.fill p) ↔
    a ∈ spot.around.1 ∨ a ∈ p.activations ∨ a ∈ spot.around.2 := by
  rw [activationsAll_fill, List.mem_append, List.mem_append]

theorem entries_fill (spot : Spot) (same : p.entry = q.entry) :
    entries (spot.fill p) = entries (spot.fill q) := by
  induction spot with
  | here => simp only [fill, entries_append, entries, same]
  | element before node tag attributes inner after ih =>
      simp only [fill, entries_append, entries, entry, ih]
  | component => simp only [fill, entries_append, entries, entry]

theorem flats_fill (spot : Spot) (same : p.flat = q.flat) :
    flats (spot.fill p) = flats (spot.fill q) := by
  induction spot with
  | here => simp only [fill, flats_append, flats, same]
  | element before node tag attributes inner after ih =>
      simp only [fill, flats_append, flats, flat, ih]
  | component => simp only [fill, flats_append, flats, flat]

/-- The table holds what is around the spot, with the picture `p` in it. -/
def Holds (as : Activations) (p : Picture) : Spot → NodeId → Nat → Prop
  | here before after, place, above => StandAll as place above before ∧ StandAll as place above after
  | element before node _ _ inner after, place, above =>
      StandAll as place above before ∧ Holds as p inner node above ∧ StandAll as place above after
  | component before a c props tree inner after, place, above =>
      StandAll as place above before ∧
      (above < a.index ∧
        (∃ r, as.find? a = some r ∧ r.Shows place c props tree (entries (inner.fill p))) ∧
        flats (inner.fill p) = tree.flattenOutput ∧ Holds as p inner place a.index) ∧
      StandAll as place above after

variable {as bs : Activations}

theorem standAll_fill (spot : Spot) : StandAll as outer bound (spot.fill p) ↔
    spot.Holds as p outer bound ∧ Stands as (spot.place outer) (spot.above bound) p := by
  induction spot generalizing outer bound with
  | here before after =>
      simp only [fill, Holds, place, above, standAll_append, standAll_cons]
      tauto
  | element before node tag attributes inner after ih =>
      simp only [fill, Holds, place, above, standAll_append, standAll_cons, stands_element, ih]
      tauto
  | component before a c props tree inner after ih =>
      simp only [fill, Holds, place, above, standAll_append, standAll_cons, stands_component, ih]
      tauto

/-- What is around a spot only depends on the activations there, and on what is mounted at it. -/
theorem Holds.congr {spot : Spot} (holds : spot.Holds as p outer bound)
    (entry : p.entry = q.entry) (flat : p.flat = q.flat)
    (same : ∀ a, a ∈ spot.around.1 ∨ a ∈ spot.around.2 →
      (bs.find? a).map Activation.bare = (as.find? a).map Activation.bare) :
    spot.Holds bs q outer bound := by
  induction spot generalizing outer bound with
  | here before after =>
      exact ⟨holds.1.congr fun a member => same a (.inl member),
        holds.2.congr fun a member => same a (.inr member)⟩
  | element before node tag attributes inner after ih =>
      simp only [around, List.mem_append] at same
      exact ⟨holds.1.congr fun a member => same a (.inl (.inl member)),
        ih holds.2.1 fun a member => same a (member.imp .inr .inl),
        holds.2.2.congr fun a member => same a (.inr (.inr member))⟩
  | component before a c props tree inner after ih =>
      simp only [around, List.mem_append, List.mem_cons] at same
      obtain ⟨first, ⟨later, ⟨r, found, shows⟩, shown, inside⟩, last⟩ := holds
      have bare := same a (.inl (.inr (.inl rfl)))
      rw [found, Option.map_some] at bare
      obtain ⟨r', found', bare⟩ := Option.map_eq_some_iff.mp bare
      rw [entries_fill inner entry] at shows
      rw [flats_fill inner flat] at shown
      exact ⟨first.congr fun b member => same b (.inl (.inl member)),
        ⟨later, ⟨r', found', shows_of_bare bare shows⟩, shown,
          ih inside fun b member => same b (member.imp (.inr ∘ .inr) .inl)⟩,
        last.congr fun b member => same b (.inr (.inr member))⟩

mutual

/-- Every activation of a picture is at a spot, or is the picture's own. -/
theorem exists_inside : ∀ {p : Picture}, a ∈ p.activations →
    (∃ c props tree output, p = .component a c props tree output) ∨
    ∃ (spot : List Picture → List Picture → Spot) (c : Component) (props : Props) (tree : Tree)
      (output : List Picture), ∀ before after,
        before ++ p :: after = fill (.component a c props tree output) (spot before after)
  | .text .., member | .raw .., member | .missing .., member => by
      simp only [activations, List.not_mem_nil] at member
  | .element node tag attributes children, member => by
      rw [activations] at member
      obtain ⟨spot, c, props, tree, output, rfl⟩ := exists_spot member
      exact .inr ⟨fun before after => .element before node tag attributes spot after, c, props, tree,
        output, fun _ _ => rfl⟩
  | .component b c props tree output, member => by
      rw [activations, List.mem_cons] at member
      rcases member with rfl | member
      · exact .inl ⟨c, props, tree, output, rfl⟩
      · obtain ⟨spot, c', props', tree', output', rfl⟩ := exists_spot member
        exact .inr ⟨fun before after => .component before b c props tree spot after, c', props',
          tree', output', fun _ _ => rfl⟩

theorem exists_spot : ∀ {ps : List Picture}, a ∈ activationsAll ps →
    ∃ spot c props tree output, ps = fill (.component a c props tree output) spot
  | [], member => by simp only [activationsAll, List.not_mem_nil] at member
  | p :: rest, member => by
      rw [activationsAll, List.mem_append] at member
      rcases member with first | later
      · rcases exists_inside first with ⟨c, props, tree, output, rfl⟩ |
          ⟨spot, c, props, tree, output, inside⟩
        · exact ⟨.here [] rest, c, props, tree, output, rfl⟩
        · exact ⟨spot [] rest, c, props, tree, output, inside [] rest⟩
      · obtain ⟨spot, c, props, tree, output, rfl⟩ := exists_spot later
        cases spot with
        | here before after => exact ⟨.here (p :: before) after, c, props, tree, output, rfl⟩
        | element before node tag attributes inner after =>
            exact ⟨.element (p :: before) node tag attributes inner after, c, props, tree, output, rfl⟩
        | component before b c' props' tree' inner after =>
            exact ⟨.component (p :: before) b c' props' tree' inner after, c, props, tree, output, rfl⟩

end

end Spot
end Patchwork
