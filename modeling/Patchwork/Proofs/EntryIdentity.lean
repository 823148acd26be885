import Patchwork.Proofs.DocumentPictures
import Patchwork.Proofs.EntryLookup

/-! Who stays. Entries are told by their kinds: text, an element of some tag, a component of some
identity. What stands at a path of positions stays if and only if the new positions have the same kinds
all along the path; everything else is made anew. -/
namespace Patchwork

inductive Kind
  | text
  | element (tag : String)
  | component (identity : Option Nat)
  | raw
deriving DecidableEq

/-- Who an entry is: the live node, or the activation of a component. -/
inductive Identity
  | node (n : NodeId)
  | activation (a : ActivationId)
deriving DecidableEq

namespace Mounted

variable (as : Activations)

def kind : Mounted → Kind
  | text _ => .text
  | element _ tag _ => .element tag
  | component a => .component ((as.find? a).map (·.component.identity))
  | raw _ _ => .raw

def identity : Mounted → Identity
  | text n | element n _ _ | raw n _ => .node n
  | component a => .activation a

/-- What is mounted below an entry: an element's children, or the output of a component. -/
def inner : Mounted → List Mounted
  | element _ _ children => children
  | component a => as.output a
  | text _ | raw _ _ => []

/-- The entry at a path: a position, and positions in what is mounted below. -/
def at? : List Mounted → Nat → List Nat → Option Mounted
  | es, i, [] => es[i]?
  | es, i, j :: path => es[i]?.bind fun e => at? (e.inner as) j path

def kinds? : List Mounted → Nat → List Nat → Option (List Kind)
  | es, i, [] => es[i]?.map fun e => [e.kind as]
  | es, i, j :: path => es[i]?.bind fun e => (kinds? (e.inner as) j path).map (e.kind as :: ·)

end Mounted

namespace Picture

def kind : Picture → Kind
  | text _ _ | missing _ _ => .text
  | element _ tag _ _ => .element tag
  | .component _ c _ _ _ => .component (some c.identity)
  | raw _ _ _ => .raw

def identity : Picture → Identity
  | text n _ | missing n _ | element n _ _ _ | raw n _ _ => .node n
  | .component a _ _ _ _ => .activation a

def inner : Picture → List Picture
  | element _ _ _ children => children
  | .component _ _ _ _ output => output
  | text _ _ | missing _ _ | raw _ _ _ => []

def at? : List Picture → Nat → List Nat → Option Picture
  | ps, i, [] => ps[i]?
  | ps, i, j :: path => ps[i]?.bind fun p => at? p.inner j path

def kinds? : List Picture → Nat → List Nat → Option (List Kind)
  | ps, i, [] => ps[i]?.map fun p => [p.kind]
  | ps, i, j :: path => ps[i]?.bind fun p => (kinds? p.inner j path).map (p.kind :: ·)

section Entries
variable {as : Activations} {place : NodeId}

theorem Stands.entry_eq {p : Picture} (stands : Stands as place above p) :
    p.entry.kind as = p.kind ∧ p.entry.identity = p.identity ∧ p.entry.inner as = entries p.inner ∧
      ∃ place' above', StandAll as place' above' p.inner := by
  cases p with
  | text | missing | raw => exact ⟨rfl, rfl, rfl, place, above, standAll_nil.mpr trivial⟩
  | element n tag attributes children =>
      exact ⟨rfl, rfl, rfl, n, above, stands_element.mp stands⟩
  | component a c props tree output =>
      obtain ⟨-, ⟨r, found, shows⟩, -, inside⟩ := stands_component.mp stands
      refine ⟨?_, rfl, ?_, place, a.index, inside⟩
      · simp only [entry, Mounted.kind, found, Option.map_some, shows.component, kind]
      · rw [entry, Mounted.inner, Activations.output_eq found, shows.output, inner]

theorem getElem?_entries (ps : List Picture) (i : Nat) : (entries ps)[i]? = ps[i]?.map entry := by
  rw [entries_eq_map, List.getElem?_map]

theorem StandAll.get {ps : List Picture} {p : Picture} {i : Nat} (stands : StandAll as place above ps)
    (found : ps[i]? = some p) :
    Stands as place above p :=
  standAll_iff.mp stands p (List.mem_of_getElem? found)

theorem StandAll.at?_entries {ps : List Picture} (stands : StandAll as place above ps) (i : Nat) (path : List Nat) :
    Mounted.at? as (entries ps) i path = (at? ps i path).map entry ∧
      Mounted.kinds? as (entries ps) i path = kinds? ps i path := by
  induction path generalizing ps i place above with
  | nil =>
      rw [Mounted.at?, at?, Mounted.kinds?, kinds?, getElem?_entries]
      refine ⟨rfl, ?_⟩
      cases found : ps[i]? with
      | none => rfl
      | some p =>
          obtain ⟨kinds, -⟩ := (stands.get found).entry_eq
          rw [Option.map_some, Option.map_some, Option.map_some, kinds]
  | cons j path ih =>
      rw [Mounted.at?, at?, Mounted.kinds?, kinds?, getElem?_entries]
      cases found : ps[i]? with
      | none => exact ⟨rfl, rfl⟩
      | some p =>
          obtain ⟨kinds, -, inside, _, _, stand⟩ := (stands.get found).entry_eq
          obtain ⟨one, two⟩ := ih stand j
          rw [Option.map_some, Option.bind_some, Option.bind_some, Option.bind_some, Option.bind_some,
            inside, kinds, one, two]
          exact ⟨rfl, rfl⟩

theorem StandAll.exists_at? {ps : List Picture} {p : Picture} {i : Nat} {path : List Nat}
    (stands : StandAll as place above ps) (found : at? ps i path = some p) :
    ∃ place' above', Stands as place' above' p := by
  induction path generalizing ps i place above with
  | nil => exact ⟨place, above, stands.get found⟩
  | cons j path ih =>
      obtain ⟨q, there, inside⟩ := Option.bind_eq_some_iff.mp found
      obtain ⟨-, -, -, _, _, stand⟩ := (stands.get there).entry_eq
      exact ih stand inside

end Entries

mutual

def everyone : Picture → List Identity
  | text n _ | missing n _ | raw n _ _ => [.node n]
  | element n _ _ children => .node n :: everyoneAll children
  | .component a _ _ _ output => .activation a :: everyoneAll output

def everyoneAll : List Picture → List Identity
  | [] => []
  | p :: rest => everyone p ++ everyoneAll rest

end

theorem everyone_eq (p : Picture) : p.everyone = p.identity :: everyoneAll p.inner := by
  cases p <;> simp only [everyone, identity, inner, everyoneAll]

theorem everyoneAll_eq_flatMap (ps : List Picture) : everyoneAll ps = ps.flatMap everyone := by
  induction ps with
  | nil => rfl
  | cons p rest ih => rw [everyoneAll, ih, List.flatMap_cons]

theorem identity_mem_everyoneAll {ps : List Picture} (member : p ∈ ps) : p.identity ∈ everyoneAll ps := by
  rw [everyoneAll_eq_flatMap, List.mem_flatMap]
  exact ⟨p, member, everyone_eq p ▸ List.mem_cons_self ..⟩

theorem everyone_inner_subset {ps : List Picture} (member : p ∈ ps) :
    everyoneAll p.inner ⊆ everyoneAll ps := fun x inside => by
  rw [everyoneAll_eq_flatMap, List.mem_flatMap]
  exact ⟨p, member, everyone_eq p ▸ List.mem_cons_of_mem _ inside⟩

mutual

theorem perm_everyone : ∀ p : Picture,
    (everyone p).Perm ((nodes p).map .node ++ (activations p).map .activation)
  | text n _ | missing n _ | raw n _ _ => by
      simp only [everyone, nodes, activations, List.map_cons, List.map_nil, List.append_nil, List.Perm.refl]
  | element n _ _ children => by
      rw [everyone, nodes, activations, List.map_cons, List.cons_append]
      exact (perm_everyoneAll children).cons _
  | .component a _ _ _ output => by
      rw [everyone, nodes, activations, List.map_cons]
      exact ((perm_everyoneAll output).cons _).trans List.perm_middle.symm

theorem perm_everyoneAll : ∀ ps : List Picture,
    (everyoneAll ps).Perm ((nodesAll ps).map .node ++ (activationsAll ps).map .activation)
  | [] => .nil
  | p :: rest => by
      rw [everyoneAll, nodesAll, activationsAll, List.map_append, List.map_append]
      refine ((perm_everyone p).append (perm_everyoneAll rest)).trans ?_
      simp only [List.append_assoc]
      exact List.Perm.append_left _ (List.perm_append_comm_assoc ..)

end

theorem node_mem_everyoneAll {ps : List Picture} : .node n ∈ everyoneAll ps ↔ n ∈ nodesAll ps := by
  rw [(perm_everyoneAll ps).mem_iff]
  simp only [List.mem_append, List.mem_map, Identity.node.injEq, exists_eq_right, reduceCtorEq,
    and_false, exists_false, or_false]

theorem activation_mem_everyoneAll {ps : List Picture} :
    .activation a ∈ everyoneAll ps ↔ a ∈ activationsAll ps := by
  rw [(perm_everyoneAll ps).mem_iff]
  simp only [List.mem_append, List.mem_map, Identity.activation.injEq, exists_eq_right, reduceCtorEq,
    and_false, exists_false, false_or]

theorem nodup_everyoneAll {ps : List Picture} (nodes : (nodesAll ps).Nodup)
    (activations : (activationsAll ps).Nodup) : (everyoneAll ps).Nodup := by
  rw [(perm_everyoneAll ps).nodup_iff, List.nodup_append']
  refine ⟨nodes.map fun _ _ => Identity.node.inj, activations.map fun _ _ => Identity.activation.inj, ?_⟩
  intro x one two
  obtain ⟨_, -, rfl⟩ := List.mem_map.mp one
  obtain ⟨_, -, same⟩ := List.mem_map.mp two
  cases same

section Paths

theorem at?_cons (p : Picture) (ps : List Picture) (i : Nat) (path : List Nat) :
    at? (p :: ps) (i + 1) path = at? ps i path := by
  cases path <;> simp only [at?, List.getElem?_cons_succ]

theorem kinds?_cons (p : Picture) (ps : List Picture) (i : Nat) (path : List Nat) :
    kinds? (p :: ps) (i + 1) path = kinds? ps i path := by
  cases path <;> simp only [kinds?, List.getElem?_cons_succ]

theorem identity_mem_of_at? {ps : List Picture} (found : at? ps i path = some p) :
    p.identity ∈ everyoneAll ps := by
  induction path generalizing ps i with
  | nil => exact identity_mem_everyoneAll (List.mem_of_getElem? found)
  | cons j path ih =>
      obtain ⟨q, there, inside⟩ := Option.bind_eq_some_iff.mp found
      exact everyone_inner_subset (List.mem_of_getElem? there) (ih inside)

theorem kinds?_zero_cons (p : Picture) (ps : List Picture) (j : Nat) (path : List Nat) :
    kinds? (p :: ps) 0 (j :: path) = (kinds? p.inner j path).map (p.kind :: ·) := rfl

theorem exists_kinds? {ps : List Picture} (found : at? ps i path = some p) :
    ∃ q kinds, ps[i]? = some q ∧ kinds? ps i path = some (q.kind :: kinds) := by
  induction path generalizing ps i with
  | nil => exact ⟨p, [], found, by rw [kinds?, show ps[i]? = some p from found, Option.map_some]⟩
  | cons j path ih =>
      obtain ⟨q, there, inside⟩ := Option.bind_eq_some_iff.mp found
      obtain ⟨_, _, -, kinds⟩ := ih inside
      exact ⟨q, _, there, by rw [kinds?, there, Option.bind_some, kinds, Option.map_some]⟩

theorem identity_mem_of_at?_zero {p₀ : Picture} {ps : List Picture} (found : at? (p₀ :: ps) 0 path = some p) :
    p.identity ∈ p₀.everyone := by
  rw [everyone_eq]
  cases path with
  | nil =>
      cases found
      exact List.mem_cons_self ..
  | cons j path =>
      have inside : at? p₀.inner j path = some p := found
      exact List.mem_cons_of_mem _ (identity_mem_of_at? inside)

theorem kind_of_kinds? {p₀ q₀ : Picture} {ps qs : List Picture}
    (same : kinds? (q₀ :: qs) 0 path = kinds? (p₀ :: ps) 0 path) (found : at? (p₀ :: ps) 0 path = some p) :
    q₀.kind = p₀.kind := by
  obtain ⟨_, kinds, here, there⟩ := exists_kinds? found
  cases here
  rw [there] at same
  cases path with
  | nil => exact (List.cons.inj (Option.some.inj same)).1
  | cons j path =>
      obtain ⟨_, -, one⟩ := Option.map_eq_some_iff.mp same
      exact (List.cons.inj one).1

end Paths

/-- New pictures inherit from those that stood there before. Where what stood there is of the same kind,
it is the same still, and what is inside it is inherited in turn; everything else is made anew. -/
inductive Inherits (New : Identity → Prop) : List Picture → List Picture → Prop
  | nil (ps : List Picture) : Inherits New ps []
  | anew {ps qs : List Picture} {q : Picture} : (∀ x ∈ q.everyone, New x) →
      (∀ p, ps.head? = some p → p.kind ≠ q.kind) → Inherits New ps.tail qs → Inherits New ps (q :: qs)
  | kept {p q : Picture} {ps qs : List Picture} : p.kind = q.kind → p.identity = q.identity →
      Inherits New p.inner q.inner → Inherits New ps qs → Inherits New (p :: ps) (q :: qs)

namespace Inherits

variable {New : Identity → Prop} {ps qs : List Picture}

/-- Where the kinds are the same all along a path, someone stays. -/
theorem stays (inherits : Inherits New ps qs) (found : at? ps i path = some p)
    (same : kinds? qs i path = kinds? ps i path) :
    ∃ q, at? qs i path = some q ∧ q.identity = p.identity := by
  induction inherits generalizing i path p with
  | nil ps =>
      obtain ⟨_, _, -, there⟩ := exists_kinds? found
      rw [there] at same
      cases path <;> cases same
  | @anew ps qs q fresh differs rest ih =>
      cases ps with
      | nil => cases path <;> cases found
      | cons p₀ ps =>
          cases i with
          | zero => exact absurd (kind_of_kinds? same found).symm (differs p₀ rfl)
          | succ i =>
              rw [at?_cons] at found ⊢
              rw [kinds?_cons, kinds?_cons] at same
              exact ih found same
  | @kept p₀ q ps qs kind identity inner rest one two =>
      cases i with
      | zero =>
          cases path with
          | nil =>
              cases found
              exact ⟨q, rfl, identity.symm⟩
          | cons j path =>
              rw [kinds?_zero_cons, kinds?_zero_cons, kind] at same
              exact one found (Option.map_injective (fun _ _ same => (List.cons.inj same).2) same)
      | succ i =>
          rw [at?_cons] at found ⊢
          rw [kinds?_cons, kinds?_cons] at same
          exact two found same

/-- Everyone new was someone before, or is made anew. -/
theorem origin (inherits : Inherits New ps qs) : ∀ x ∈ everyoneAll qs, x ∈ everyoneAll ps ∨ New x := by
  induction inherits with
  | nil => exact fun _ none => (List.not_mem_nil none).elim
  | @anew ps qs q fresh differs rest ih =>
      intro x member
      rw [everyoneAll, List.mem_append] at member
      refine member.elim (.inr ∘ fresh x) fun late => (ih x late).imp_left fun member => ?_
      cases ps with
      | nil => exact member
      | cons p ps => exact List.mem_append_right _ member
  | @kept p q ps qs kind identity inner rest one two =>
      intro x member
      rw [everyoneAll, List.mem_append, everyone_eq, List.mem_cons] at member ⊢
      rcases member with (rfl | inside) | late
      · exact .inl (.inl (.inl identity.symm))
      · exact (one x inside).imp_left (.inl ∘ .inr)
      · exact (two x late).imp_left .inr

/-- Where the kinds differ somewhere along a path, whoever was there is gone. -/
theorem leaves (inherits : Inherits New ps qs) (distinct : (everyoneAll ps).Nodup)
    (old : ∀ x ∈ everyoneAll ps, ¬ New x) (found : at? ps i path = some p)
    (differ : kinds? qs i path ≠ kinds? ps i path) : p.identity ∉ everyoneAll qs := by
  -- Whoever is there afterwards is new or was among those at the same positions. Everyone stood at one position
  -- only, so nobody can have come over from another.
  induction inherits generalizing i path p with
  | nil => exact List.not_mem_nil
  | @anew ps qs q fresh differs rest ih =>
      rw [everyoneAll, List.mem_append, not_or]
      refine ⟨fun new => old _ (identity_mem_of_at? found) (fresh _ new), ?_⟩
      cases ps with
      | nil => cases path <;> cases found
      | cons p₀ ps =>
          rw [everyoneAll, List.nodup_append'] at distinct
          rw [everyoneAll, List.forall_mem_append] at old
          cases i with
          | zero =>
              intro late
              have here : p.identity ∈ p₀.everyone := identity_mem_of_at?_zero found
              exact (rest.origin _ late).elim (distinct.2.2 here) (old.1 _ here)
          | succ i =>
              rw [at?_cons] at found
              rw [kinds?_cons, kinds?_cons] at differ
              exact ih distinct.2.1 old.2 found differ
  | @kept p₀ q ps qs kind identity inner rest one two =>
      rw [everyoneAll, everyone_eq, List.nodup_append', List.nodup_cons] at distinct
      rw [everyoneAll, everyone_eq, List.forall_mem_append, List.forall_mem_cons] at old
      obtain ⟨⟨own, within⟩, later, apart⟩ := distinct
      rw [everyoneAll, everyone_eq, List.mem_append, List.mem_cons, ← identity]
      cases i with
      | zero =>
          cases path with
          | nil =>
              cases found
              rw [kinds?, kinds?] at differ
              exact absurd (congrArg (fun k => some [k]) kind.symm) differ
          | cons j path =>
              have inside : at? p₀.inner j path = some p := found
              have member := identity_mem_of_at? inside
              rw [kinds?_zero_cons, kinds?_zero_cons, kind] at differ
              rintro ((same | kept) | late)
              · exact own (same ▸ member)
              · exact one within old.1.2 found (fun same => differ (congrArg _ same)) kept
              · exact (rest.origin _ late).elim (apart (List.mem_cons_of_mem _ member)) (old.1.2 _ member)
      | succ i =>
          rw [at?_cons] at found
          rw [kinds?_cons, kinds?_cons] at differ
          have member := identity_mem_of_at? found
          rintro ((same | kept) | late)
          · exact apart (List.mem_cons_self ..) (same ▸ member)
          · exact (inner.origin _ kept).elim (fun inside => apart (List.mem_cons_of_mem _ inside) member)
              (old.2 _ member)
          · exact two later old.2 found differ late

end Inherits

end Picture

end Patchwork
