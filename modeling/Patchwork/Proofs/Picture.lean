import Patchwork.Proofs.ActivationTable
import Patchwork.Tree.Flat

/-! Pictures: mounted entries with everything inside them spelled out. An entry refers to activations,
and the table of activations holds their outputs; a picture has the outputs in place, along with the
positions that the entries show. The table stands for a picture if it holds what the picture says. -/
namespace Patchwork

inductive Picture
  | text (node : NodeId) (content : String)
  | element (node : NodeId) (tag : String) (attributes : Attributes) (children : List Picture)
  | component (activation : ActivationId) (component : Component) (props : Props) (tree : Tree)
      (output : List Picture)
  /-- A raw node that was adopted as `mounted` and is shown as `shown`, which is the same. -/
  | raw (node : NodeId) (mounted shown : RawNode)
  /-- A text node in the place of a raw node that could not be adopted. -/
  | missing (node : NodeId) (raw : RawNode)

namespace Picture

mutual

def entry : Picture → Mounted
  | text node _ | missing node _ => .text node
  | element node tag _ children => .element node tag (entries children)
  | component a .. => .component a
  | raw node mounted _ => .raw node mounted

def entries : List Picture → List Mounted
  | [] => []
  | p :: rest => entry p :: entries rest

end

mutual

def flat : Picture → Flat
  | text _ content => .text content
  | element _ tag attributes children => .element tag attributes (flats children)
  | .component _ c props _ _ => .component ⟨c, props⟩
  | raw _ _ shown => .raw shown
  | missing _ wanted => .raw wanted

def flats : List Picture → List Flat
  | [] => []
  | p :: rest => flat p :: flats rest

end

mutual

/-- The live nodes that stand directly in the parent. -/
def tops : Picture → List NodeId
  | text node _ | element node _ _ _ | raw node _ _ | missing node _ => [node]
  | component _ _ _ _ output => topsAll output

def topsAll : List Picture → List NodeId
  | [] => []
  | p :: rest => tops p ++ topsAll rest

end

mutual

def nodes : Picture → List NodeId
  | text node _ | raw node _ _ | missing node _ => [node]
  | element node _ _ children => node :: nodesAll children
  | component _ _ _ _ output => nodesAll output

def nodesAll : List Picture → List NodeId
  | [] => []
  | p :: rest => nodes p ++ nodesAll rest

end

mutual

def activations : Picture → List ActivationId
  | text _ _ | raw _ _ _ | missing _ _ => []
  | element _ _ _ children => activationsAll children
  | component a _ _ _ output => a :: activationsAll output

def activationsAll : List Picture → List ActivationId
  | [] => []
  | p :: rest => activations p ++ activationsAll rest

end

end Picture

/-- The activation shows a component's output, made of `tree` and mounted under `place`. -/
structure Activation.Shows (r : Activation) (place : NodeId) (component : Component) (props : Props)
    (tree : Tree) (output : List Mounted) : Prop where
  registered : r.unmounted = false
  parent : r.parent = some place
  component : r.component = component
  props : r.props = props
  committed : r.committed = some tree
  output : r.output = output

structure Activation.Gone (r : Activation) : Prop where
  unmounted : r.unmounted = true
  output : r.output = []

namespace Picture

mutual

/-- The table holds what the picture says. `place` is the live parent; `above` is below the index of
every activation in the picture, which grows from the outside in. -/
def Stands (as : Activations) (place : NodeId) (above : Nat) : Picture → Prop
  | text _ _ | raw _ _ _ | missing _ _ => True
  | element node _ _ children => StandAll as node above children
  | .component a c props tree output =>
      above < a.index ∧ (∃ r, as.find? a = some r ∧ r.Shows place c props tree (entries output)) ∧
      flats output = tree.flattenOutput ∧ StandAll as place a.index output

def StandAll (as : Activations) (place : NodeId) (above : Nat) : List Picture → Prop
  | [] => True
  | p :: rest => Stands as place above p ∧ StandAll as place above rest

end

section Lists

theorem entries_eq_map : ∀ ps : List Picture, entries ps = ps.map entry
  | [] => rfl
  | p :: rest => by rw [entries, entries_eq_map rest, List.map_cons]

theorem flats_eq_map : ∀ ps : List Picture, flats ps = ps.map flat
  | [] => rfl
  | p :: rest => by rw [flats, flats_eq_map rest, List.map_cons]

theorem topsAll_eq_flatMap : ∀ ps : List Picture, topsAll ps = ps.flatMap tops
  | [] => rfl
  | p :: rest => by rw [topsAll, topsAll_eq_flatMap rest, List.flatMap_cons]

theorem nodesAll_eq_flatMap : ∀ ps : List Picture, nodesAll ps = ps.flatMap nodes
  | [] => rfl
  | p :: rest => by rw [nodesAll, nodesAll_eq_flatMap rest, List.flatMap_cons]

theorem activationsAll_eq_flatMap : ∀ ps : List Picture, activationsAll ps = ps.flatMap activations
  | [] => rfl
  | p :: rest => by rw [activationsAll, activationsAll_eq_flatMap rest, List.flatMap_cons]

end Lists

section Laws
variable {as bs : Activations} {place : NodeId}

@[simp] theorem stands_text : Stands as place above (.text node content) ↔ True := Iff.rfl

@[simp] theorem stands_raw : Stands as place above (.raw node mounted shown) ↔ True := Iff.rfl

@[simp] theorem stands_missing : Stands as place above (.missing node wanted) ↔ True := Iff.rfl

@[simp] theorem stands_element : Stands as place above (.element node tag attributes children) ↔
    StandAll as node above children := Iff.rfl

theorem stands_component : Stands as place above (.component a c props tree output) ↔
    above < a.index ∧
      (∃ r, as.find? a = some r ∧ r.Shows place c props tree (entries output)) ∧
      flats output = tree.flattenOutput ∧ StandAll as place a.index output := Iff.rfl

@[simp] theorem standAll_nil : StandAll as place above [] ↔ True := Iff.rfl

@[simp] theorem standAll_cons {p : Picture} {ps : List Picture} :
    StandAll as place above (p :: ps) ↔ Stands as place above p ∧ StandAll as place above ps := Iff.rfl

theorem standAll_iff :
    ∀ {ps : List Picture}, StandAll as place above ps ↔ ∀ p ∈ ps, Stands as place above p
  | [] => by simp only [standAll_nil, List.not_mem_nil, false_implies, implies_true]
  | p :: rest => by
      have later : StandAll as place above rest ↔ ∀ p ∈ rest, Stands as place above p := standAll_iff
      rw [standAll_cons, List.forall_mem_cons, later]

theorem shows_of_bare {r r' : Activation} (same : r'.bare = r.bare) {output : List Mounted}
    (shows : r.Shows place c props tree output) : r'.Shows place c props tree output where
  registered := (congrArg Activation.unmounted same :).trans shows.registered
  parent := (congrArg Activation.parent same :).trans shows.parent
  component := (congrArg Activation.component same :).trans shows.component
  props := (congrArg Activation.props same :).trans shows.props
  committed := (congrArg Activation.committed same :).trans shows.committed
  output := (congrArg Activation.output same :).trans shows.output

mutual

/-- A picture only depends on its own activations, apart from their state cells. -/
theorem Stands.congr : ∀ {p : Picture} {place above}, Stands as place above p →
    (∀ a ∈ activations p, (bs.find? a).map Activation.bare = (as.find? a).map Activation.bare) →
    Stands bs place above p
  | .text .., _, _, _, _ | .raw .., _, _, _, _ | .missing .., _, _, _, _ => trivial
  | .element _ _ _ children, _, _, stands, same => by
      rw [stands_element] at stands ⊢
      exact StandAll.congr stands fun a member => same a (by rwa [activations])
  | .component a _ _ _ output, _, _, stands, same => by
      rw [stands_component] at stands ⊢
      obtain ⟨later, ⟨r, found, shows⟩, shown, inner⟩ := stands
      rw [activations, List.forall_mem_cons] at same
      rw [found, Option.map_some] at same
      obtain ⟨r', found', bare⟩ := Option.map_eq_some_iff.mp same.1
      exact ⟨later, ⟨r', found', shows_of_bare bare shows⟩, shown, inner.congr same.2⟩

theorem StandAll.congr : ∀ {ps : List Picture} {place above}, StandAll as place above ps →
    (∀ a ∈ activationsAll ps, (bs.find? a).map Activation.bare = (as.find? a).map Activation.bare) →
    StandAll bs place above ps
  | [], _, _, _, _ => trivial
  | p :: rest, _, _, stands, same => by
      rw [standAll_cons] at stands ⊢
      rw [activationsAll, List.forall_mem_append] at same
      exact ⟨stands.1.congr same.1, stands.2.congr same.2⟩

end

mutual

/-- Every activation of a picture is of an index above the bound, and not beyond the issued ones. -/
theorem Stands.index : ∀ {p : Picture} {place above}, Stands as place above p →
    ∀ a ∈ activations p, above < a.index ∧ a.index ≤ Arena.issued as
  | .text .., _, _, _ | .raw .., _, _, _ | .missing .., _, _, _ => by
      simp only [activations, List.not_mem_nil, false_implies, implies_true]
  | .element _ _ _ children, _, _, stands => by
      rw [activations]
      exact StandAll.index (stands_element.mp stands)
  | .component a _ _ _ output, _, above, stands => by
      obtain ⟨later, ⟨r, found, _⟩, _, inner⟩ := stands_component.mp stands
      rw [activations, List.forall_mem_cons]
      refine ⟨⟨later, Activations.index_le_issued found⟩, fun b member => ?_⟩
      obtain ⟨above_b, issued⟩ := inner.index b member
      exact ⟨Nat.lt_trans later above_b, issued⟩

theorem StandAll.index : ∀ {ps : List Picture} {place above}, StandAll as place above ps →
    ∀ a ∈ activationsAll ps, above < a.index ∧ a.index ≤ Arena.issued as
  | [], _, _, _ => by simp only [activationsAll, List.not_mem_nil, false_implies, implies_true]
  | p :: rest, _, _, stands => by
      rw [activationsAll, List.forall_mem_append]
      exact ⟨(standAll_cons.mp stands).1.index, (standAll_cons.mp stands).2.index⟩

end

mutual

theorem Stands.mono {lower above : Nat} (less : lower ≤ above) : ∀ {p : Picture} {place},
    Stands as place above p → Stands as place lower p
  | .text .., _, _ | .raw .., _, _ | .missing .., _, _ => trivial
  | .element _ _ _ children, _, stands => by
      rw [stands_element] at stands ⊢
      exact StandAll.mono less stands
  | .component a _ _ _ output, _, stands => by
      rw [stands_component] at stands ⊢
      exact ⟨Nat.lt_of_le_of_lt less stands.1, stands.2⟩

theorem StandAll.mono {lower above : Nat} (less : lower ≤ above) : ∀ {ps : List Picture} {place},
    StandAll as place above ps → StandAll as place lower ps
  | [], _, _ => trivial
  | p :: rest, _, stands => by
      rw [standAll_cons] at stands ⊢
      exact ⟨stands.1.mono less, stands.2.mono less⟩

end

end Laws

end Picture
end Patchwork
