import Patchwork.Proofs.TouchedNodes

/-! Where nodes hang and what they show. A list of entries hangs in the place that it is for, and each of its
elements wears the attributes of the position that it shows. What a component shows hangs in the same place
and is told of its activation, so that what is said of one list concerns what the list itself records. -/
namespace Patchwork

open Mounted (items itemsAll)

/-- A node hangs in its place. If the place is not an element, then it hangs nowhere. -/
def Document.Hung (d : Document) (firm : Bool) (place n : NodeId) : Prop :=
  (firm = true → place.index < n.index) ∧
    (d.parent? n = some place ∨ d.parent? n = none ∧ (firm = true → d.element? place = none))

namespace Renderer

variable {σ : Type} {δ : StateData} [HasStateData σ δ] {s t u : Renderer Document σ} {T : Item → Prop}
  {base : Nat} {homes homes' : Homes}
  {h : Holder} {firm : Bool} {path : List Nat} {i : Nat} {place n : NodeId} {m : Mounted} {ms rest : List Mounted}
  {flat : Flat} {flats : List Flat}

theorem hung_of_remains (hung : s.dom.Hung firm place n) (parent : t.dom.parent? n = s.dom.parent? n)
    (voids : Voids s t) (there : n.index ≤ s.dom.issued) : t.dom.Hung firm place n := by
  obtain ⟨below, hung⟩ := hung
  refine ⟨below, ?_⟩
  rw [parent]
  refine hung.imp_right fun ⟨orphan, nowhere⟩ => ⟨orphan, fun inside => ?_⟩
  exact voids.2 place (Nat.le_trans (Nat.le_of_lt (below inside)) there) (nowhere inside)

/-- A list of entries hangs in its place and shows positions. -/
inductive Hangs (s : Renderer Document σ) : (firm : Bool) → (place : NodeId) → List Mounted → List Flat → Prop
  | nil {firm : Bool} {place : NodeId} : Hangs s firm place [] []
  | text {firm : Bool} {place n : NodeId} {content : String} {rest : List Mounted} {flats : List Flat} :
      s.canvas.Plays n .text → s.dom.Hung firm place n → Hangs s firm place rest flats →
      Hangs s firm place (.text n :: rest) (.text content :: flats)
  /-- A raw node that was not adopted is shown as nothing. -/
  | blank {firm : Bool} {place n : NodeId} {raw : RawNode} {rest : List Mounted} {flats : List Flat} :
      s.canvas.Plays n .text → s.dom.Hung firm place n → Hangs s firm place rest flats →
      Hangs s firm place (.text n :: rest) (.raw raw :: flats)
  | element {firm : Bool} {place n : NodeId} {tag tag' : String} {attributes : Attributes}
      {children rest : List Mounted} {inner flats : List Flat} :
      s.canvas.Plays n (.element tag attributes) → s.dom.Hung firm place n → Hangs s true n children inner →
      Hangs s firm place rest flats →
      Hangs s firm place (.element n tag children :: rest) (.element tag' attributes inner :: flats)
  | component {firm : Bool} {place : NodeId} {a : ActivationId} {reference : ComponentRef} {rest : List Mounted}
      {flats : List Flat} : s.activations.place? a = some place → Hangs s firm place rest flats →
      Hangs s firm place (.component a :: rest) (.component reference :: flats)

namespace Hangs

theorem cons (first : Hangs s firm place [m] [flat]) (others : Hangs s firm place rest flats) :
    Hangs s firm place (m :: rest) (flat :: flats) := by
  cases first with
  | text plays hung _ => exact .text plays hung others
  | blank plays hung _ => exact .blank plays hung others
  | element plays hung inner _ => exact .element plays hung inner others
  | component placed _ => exact .component placed others

theorem uncons (hangs : Hangs s firm place (m :: rest) flats) :
    ∃ flat others, flats = flat :: others ∧ Hangs s firm place [m] [flat] ∧ Hangs s firm place rest others := by
  cases hangs with
  | text plays hung later => exact ⟨_, _, rfl, .text plays hung .nil, later⟩
  | blank plays hung later => exact ⟨_, _, rfl, .blank plays hung .nil, later⟩
  | element plays hung inner later => exact ⟨_, _, rfl, .element plays hung inner .nil, later⟩
  | component placed later => exact ⟨_, _, rfl, .component placed .nil, later⟩

theorem length_eq (hangs : Hangs s firm place ms flats) : ms.length = flats.length := by
  induction hangs with
  | nil => rfl
  | text _ _ _ ih => exact congrArg (· + 1) ih
  | blank _ _ _ ih => exact congrArg (· + 1) ih
  | element _ _ _ _ _ ih => exact congrArg (· + 1) ih
  | component _ _ ih => exact congrArg (· + 1) ih

/-- As long as what a list itself records is as it was, it hangs as it did and shows the same. -/
theorem frame (hangs : Hangs s firm place ms flats) (voids : Voids s t)
    (remains : ∀ n, .node n ∈ itemsAll ms → Remains s t n)
    (places : ∀ a, .activation a ∈ itemsAll ms → t.activations.place? a = s.activations.place? a) :
    Hangs t firm place ms flats := by
  induction hangs with
  | nil => exact .nil
  | @text firm place n content rest flats plays hung _ ih =>
      have own := remains n (List.mem_cons_self ..)
      refine .text (plays.congr own.untouched) (hung_of_remains hung own.parent voids plays.index_le) ?_
      exact ih (fun k later => remains k (List.mem_cons_of_mem _ later)) fun a later =>
        places a (List.mem_cons_of_mem _ later)
  | @blank firm place n raw rest flats plays hung _ ih =>
      have own := remains n (List.mem_cons_self ..)
      refine .blank (plays.congr own.untouched) (hung_of_remains hung own.parent voids plays.index_le) ?_
      exact ih (fun k later => remains k (List.mem_cons_of_mem _ later)) fun a later =>
        places a (List.mem_cons_of_mem _ later)
  | @element firm place n tag tag' attributes children rest inner flats plays hung _ _ deeper ih =>
      have own := remains n (List.mem_cons_self ..)
      refine .element (plays.congr own.untouched) (hung_of_remains hung own.parent voids plays.index_le) ?_ ?_
      · exact deeper (fun k member => remains k (List.mem_cons_of_mem _ (List.mem_append_left _ member)))
          fun a member => places a (List.mem_cons_of_mem _ (List.mem_append_left _ member))
      · exact ih (fun k later => remains k (List.mem_append_right _ later)) fun a later =>
          places a (List.mem_append_right _ later)
  | @component firm place a reference rest flats placed _ ih =>
      refine .component ((places a (List.mem_cons_self ..)).trans placed) ?_
      exact ih (fun k later => remains k (List.mem_cons_of_mem _ later)) fun b later =>
        places b (List.mem_cons_of_mem _ later)

/-- What a step does not touch hangs and shows what it did. -/
theorem untouched (hangs : Hangs s firm place ms flats) (touches : Touches base T s t)
    (old : ∀ n, .node n ∈ itemsAll ms → n.index ≤ base) (apart : ∀ x ∈ itemsAll ms, ¬ T x) :
    Hangs t firm place ms flats :=
  hangs.frame touches.voids (fun n member => touches.remains n (old n member) (apart _ member)) fun _ member =>
    touches.place? (apart _ member)

end Hangs

theorem Sits.old (sits : Sits homes s) (seated : Seated homes h firm path i ms) (member : .node n ∈ itemsAll ms) :
    n.index ≤ s.dom.issued := by
  obtain ⟨_, _, _, home⟩ := seated.home_of_mem member
  exact sits.nodes home

/-- The output of an activation hangs where the activation is placed and shows the tree that the activation has
committed. -/
def Shows (homes : Homes) (s : Renderer Document σ) (a : ActivationId) : Prop :=
  ∀ r, s.activations.find? a = some r → r.output ≠ [] → ∃ place tree, r.parent = some place ∧
    r.committed = some tree ∧ Hangs s (homes.firm a) place r.output tree.flattenOutput

theorem Sits.firm_eq (sits : Sits homes s) (extended : homes.Extends homes') {a : ActivationId}
    (found : s.activations.find? a = some r) : homes'.firm a = homes.firm a := by
  refine extended.firm_eq ?_
  rw [sits.activations, found]
  rfl

theorem Shows.frame {a : ActivationId} (shows : Shows homes s a) (sits : Sits homes s)
    (extended : homes.Extends homes') (face : t.activations.face? a = s.activations.face? a) (voids : Voids s t)
    (remains : ∀ n, .node n ∈ itemsAll (s.activations.output a) → Remains s t n)
    (places : ∀ b, .activation b ∈ itemsAll (s.activations.output a) →
      t.activations.place? b = s.activations.place? b) : Shows homes' t a := by
  intro r' found' filled
  obtain ⟨r, found, parent, output, committed⟩ := Activations.find?_of_face face found'
  rw [Activations.output_eq found] at remains places
  rw [← parent, ← output, ← committed, sits.firm_eq extended found]
  obtain ⟨place, tree, parent, committed, hangs⟩ := shows r found (output ▸ filled)
  exact ⟨place, tree, parent, committed, hangs.frame voids remains places⟩

theorem Shows.of_empty {a : ActivationId} (empty : s.activations.output a = []) : Shows homes s a := by
  intro r found filled
  rw [Activations.output_eq found] at empty
  exact absurd empty filled

/-- Everything is at home where it is recorded, and every output shows what its activation has committed. -/
structure Houses (homes : Homes) (s : Renderer Document σ) : Prop extends Sits homes s where
  shows : ∀ a, Shows homes s a

section Shifting

/-- Nothing was done but to move some nodes. -/
structure Displaces (ns : List NodeId) (s t : Renderer Document σ) : Prop where
  roots : t.roots = s.roots
  calls : t.calls = s.calls
  store : t.store = s.store
  activations : t.activations = s.activations
  binder : t.binder = s.binder
  issued : t.dom.issued = s.dom.issued
  worn : ∀ n, t.dom.worn? n = s.dom.worn? n
  parent : ∀ n, n ∉ ns → t.dom.parent? n = s.dom.parent? n

variable {ns : List NodeId}

namespace Displaces

theorem element? (displaces : Displaces ns s t) (nothing : s.dom.element? n = none) : t.dom.element? n = none :=
  Document.element?_eq_none_of_worn (displaces.worn n) nothing

theorem voids (displaces : Displaces ns s t) : Voids s t :=
  ⟨Nat.le_of_eq displaces.issued.symm, fun _ _ => displaces.element?⟩

theorem remains (displaces : Displaces ns s t) (other : n ∉ ns) : Remains s t n :=
  ⟨displaces.worn n, displaces.parent n other, by rw [displaces.binder]⟩

theorem plays {role : Role} (displaces : Displaces ns s t) (plays : s.canvas.Plays n role) : t.canvas.Plays n role :=
  plays.congr ⟨displaces.worn n, congrArg (fun binder : Binder => binder[n]?) displaces.binder⟩

theorem touches (displaces : Displaces ns s t) (within : ∀ n ∈ ns, n.index ≤ base → T (.node n)) :
    Touches base T s t where
  roots := displaces.roots
  calls := displaces.calls
  store := displaces.store
  count := congrArg Arena.issued displaces.activations
  there a := by rw [displaces.activations]
  voids := displaces.voids
  unbound n _ nothing := by rw [displaces.binder]; exact nothing
  remains n old other := displaces.remains fun member => other (within n member old)
  face a _ := by rw [displaces.activations]

theorem cons {n : NodeId} (one : Displaces [n] s t) (others : Displaces ns t u) : Displaces (n :: ns) s u where
  roots := others.roots.trans one.roots
  calls := others.calls.trans one.calls
  store := others.store.trans one.store
  activations := others.activations.trans one.activations
  binder := others.binder.trans one.binder
  issued := others.issued.trans one.issued
  worn k := (others.worn k).trans (one.worn k)
  parent k other := by
    rw [List.mem_cons, not_or] at other
    exact (others.parent k other.2).trans (one.parent k fun member => other.1 (List.mem_singleton.mp member))

theorem nil (s : Renderer Document σ) : Displaces [] s s :=
  ⟨rfl, rfl, rfl, rfl, rfl, rfl, fun _ => rfl, fun _ _ => rfl⟩

end Displaces

theorem displaces_insertAll {before : Option NodeId} (ns : List NodeId)
    (returned : Returns (insertAll place before ns) s () t) : Displaces ns s t := by
  induction ns generalizing s with
  | nil =>
      obtain ⟨-, rfl⟩ := returns_pure.mp returned
      exact .nil s
  | cons n rest ih =>
      obtain ⟨_, u, put, others⟩ := returns_bind.mp returned
      obtain rfl := returns_onDom.mp put
      have later := ih others
      refine Displaces.cons ?_ later
      obtain ⟨worn, issued⟩ := Document.worn?_insertBefore s.dom place n before
      exact ⟨rfl, rfl, rfl, rfl, rfl, issued, worn, fun k other =>
        Document.parent?_insertBefore_of_ne s.dom place before (List.ne_of_not_mem_cons other)⟩

theorem displaces_removeAll (ns : List NodeId) (returned : Returns (removeAll place ns) s () t) : Displaces ns s t := by
  induction ns generalizing s with
  | nil =>
      obtain ⟨-, rfl⟩ := returns_pure.mp returned
      exact .nil s
  | cons n rest ih =>
      obtain ⟨_, u, taken, others⟩ := returns_bind.mp returned
      obtain rfl := returns_onDom.mp taken
      have later := ih others
      refine Displaces.cons ?_ later
      obtain ⟨worn, issued⟩ := Document.worn?_removeChild s.dom place n
      exact ⟨rfl, rfl, rfl, rfl, rfl, issued, worn, fun k other =>
        Document.parent?_removeChild_of_ne s.dom place (List.ne_of_not_mem_cons other)⟩

/-- A node that hangs nowhere, or in this place already, is put there if the place is an element. -/
theorem hung_insertBefore {d : Document} (before : Option NodeId) (there : d.contains n = true)
    (near : d.parent? n = some place ∨ d.parent? n = none) :
    (d.insertBefore place n before).value.parent? n = some place ∨
      (d.insertBefore place n before).value.parent? n = none ∧
        (d.insertBefore place n before).value.element? place = none := by
  cases holder : d.element? place with
  | some e => exact .inl (Document.parent?_insertBefore there holder before)
  | none =>
      rw [Document.insertBefore_of_stranger holder]
      exact near.imp_right fun orphan => ⟨orphan, holder⟩

theorem hung_insertAll {before : Option NodeId} (ns : List NodeId)
    (returned : Returns (insertAll place before ns) s () t) (there : s.dom.contains n = true)
    (near : s.dom.parent? n = some place ∨ s.dom.parent? n = none)
    (put : n ∈ ns ∨ (s.dom.parent? n = some place ∨ s.dom.parent? n = none ∧ s.dom.element? place = none)) :
    t.dom.parent? n = some place ∨ t.dom.parent? n = none ∧ t.dom.element? place = none := by
  induction ns generalizing s with
  | nil =>
      obtain ⟨-, rfl⟩ := returns_pure.mp returned
      exact put.resolve_left (List.not_mem_nil)
  | cons k rest ih =>
      obtain ⟨_, u, first, others⟩ := returns_bind.mp returned
      obtain rfl := returns_onDom.mp first
      have worn := (Document.worn?_insertBefore s.dom place k before).1
      have still : (s.dom.insertBefore place k before).value.contains n = true :=
        (Document.contains_of_worn (worn n)).trans there
      by_cases own : n = k
      · subst own
        have hung := hung_insertBefore before there near
        exact ih others still (hung.imp_right And.left) (.inr hung)
      · have same : (s.dom.insertBefore place k before).value.parent? n = s.dom.parent? n :=
          Document.parent?_insertBefore_of_ne s.dom place before own
        refine ih others still (near.imp same.trans same.trans) (put.imp ?_ fun hung => ?_)
        · exact fun member => (List.mem_cons.mp member).resolve_left own
        · exact hung.imp same.trans fun ⟨orphan, nowhere⟩ =>
            ⟨same.trans orphan, Document.element?_eq_none_of_worn (worn place) nowhere⟩

end Shifting

end Renderer
end Patchwork
