import Patchwork.Proofs.CommittedTrees
import Patchwork.Proofs.LiveEntries
import Patchwork.Proofs.EntrySurvival

/-! What every call upholds, whatever happens within it. All containers show what was last rendered into them,
and the entries that renders in progress have set aside are left alone: they are at home at a depth where nothing
is done until their own render goes on. -/
namespace Patchwork

open Mounted (items itemsAll)

mutual

def Flat.Plain : Flat → Prop
  | .text _ | .component _ => True
  | .element _ _ children => Flat.PlainAll children
  | .raw node => node.wraps = none

def Flat.PlainAll : List Flat → Prop
  | [] => True
  | flat :: rest => flat.Plain ∧ Flat.PlainAll rest

end

theorem Flat.plainAll_append {one two : List Flat} (first : PlainAll one) (second : PlainAll two) :
    PlainAll (one ++ two) := by
  induction one with
  | nil => exact second
  | cons flat rest ih => exact ⟨first.1, ih first.2⟩

namespace Tree

mutual

/-- No raw node of a tree wraps a live node, so none can be adopted. -/
def Plain : Tree → Prop
  | element _ _ children | fragment children => PlainAll children
  | text _ | component _ => True
  | raw node => node.wraps = none

def PlainAll : List Tree → Prop
  | [] => True
  | t :: rest => t.Plain ∧ PlainAll rest

end

mutual

theorem Plain.flatten : ∀ {t : Tree}, t.Plain → Flat.PlainAll t.flatten
  | .element _ _ _, plain => ⟨flattenAll plain, trivial⟩
  | .fragment _, plain => flattenAll plain
  | .text _, _ => ⟨trivial, trivial⟩
  | .component _, _ => ⟨trivial, trivial⟩
  | .raw _, plain => ⟨plain, trivial⟩

theorem Plain.flattenAll : ∀ {ts : List Tree}, PlainAll ts → Flat.PlainAll (Tree.flattenAll ts)
  | [], _ => trivial
  | _ :: _, plain => Flat.plainAll_append plain.1.flatten (flattenAll plain.2)

end

theorem Plain.flattenOutput {t : Tree} (plain : t.Plain) : Flat.PlainAll t.flattenOutput := by
  rw [Tree.flattenOutput]
  split
  · exact ⟨trivial, trivial⟩
  · exact plain.flatten

end Tree

namespace Renderer

variable {σ : Type} {δ : StateData} [HasStateData σ δ] {s t u : Renderer Document σ} {depth depth' : NodeId → Nat}
  {homes homes' : Homes}
  {shown : Display} {h : Holder} {firm : Bool} {path : List Nat} {i : Nat} {place n : NodeId} {a : ActivationId}

/-- Every container shows its positions, at a depth at which no render in progress has set entries aside, and
everything is housed. -/
structure Upholds (depth : NodeId → Nat) (homes : Homes) (shown : Display) (s : Renderer Document σ) : Prop where
  houses : Houses homes s
  roots : ∀ place, ∃ k, depth place ≤ k ∧ Seated homes (.container place k) false [] 0 (s.mounted place) ∧
    Hangs s false place (s.mounted place) (shown place)
  created : ∀ a ∈ s.calls.created, (homes (.activation a)).isSome = true

/-- What was set aside is as it was. -/
structure Shelters (depth : NodeId → Nat) (homes homes' : Homes) (s t : Renderer Document σ) : Prop where
  extended : homes.Extends homes'
  voids : Voids s t
  remains : ∀ {n place k firm path}, homes (.node n) = some ⟨.container place k, firm, path⟩ → k < depth place →
    Remains s t n
  place : ∀ {a place k firm path}, homes (.activation a) = some ⟨.container place k, firm, path⟩ →
    k < depth place → t.activations.place? a = s.activations.place? a

/-- What is upheld at some depths is upheld at lesser ones. -/
theorem Upholds.lessen (upholds : Upholds depth' homes shown s) (less : ∀ place, depth place ≤ depth' place) :
    Upholds depth homes shown s where
  houses := upholds.houses
  created := upholds.created
  roots place := by
    obtain ⟨k, deep, here⟩ := upholds.roots place
    exact ⟨k, Nat.le_trans (less place) deep, here⟩

namespace Shelters

theorem lessen (one : Shelters depth' homes homes' s t) (less : ∀ place, depth place ≤ depth' place) :
    Shelters depth homes homes' s t where
  extended := one.extended
  voids := one.voids
  remains home idle := one.remains home (Nat.lt_of_lt_of_le idle (less _))
  place home idle := one.place home (Nat.lt_of_lt_of_le idle (less _))

theorem trans {homes'' : Homes} (one : Shelters depth homes homes' s t) (two : Shelters depth homes' homes'' t u) :
    Shelters depth homes homes'' s u where
  extended := one.extended.trans two.extended
  voids := one.voids.trans two.voids
  remains home idle := (one.remains home idle).trans (two.remains (one.extended _ _ home) idle)
  place home idle := (two.place (one.extended _ _ home) idle).trans (one.place home idle)

theorem hangs {ms : List Mounted} {flats : List Flat} {k : Nat} (one : Shelters depth homes homes' s t)
    (idle : k < depth place) (seated : Seated homes (.container place k) firm path i ms)
    (hangs : Hangs s firm place ms flats) : Hangs t firm place ms flats := by
  refine hangs.frame one.voids (fun n member => ?_) fun a member => ?_
  · obtain ⟨_, _, _, home⟩ := seated.home_of_mem member
    exact one.remains home idle
  · obtain ⟨_, _, _, home⟩ := seated.home_of_mem member
    exact one.place home idle

end Shelters

/-- Nothing that stands anywhere was changed. -/
structure Steady (s t : Renderer Document σ) : Prop where
  dom : t.dom = s.dom
  binder : t.binder = s.binder
  face : ∀ a, t.activations.face? a = s.activations.face? a

namespace Steady

theorem voids (steady : Steady s t) : Voids s t := by
  refine ⟨Nat.le_of_eq (congrArg Document.issued steady.dom).symm, fun n _ nothing => ?_⟩
  rw [steady.dom]
  exact nothing

theorem remains (steady : Steady s t) (n : NodeId) : Remains s t n :=
  ⟨by rw [steady.dom], by rw [steady.dom], by rw [steady.binder]⟩

theorem place? (steady : Steady s t) (a : ActivationId) : t.activations.place? a = s.activations.place? a :=
  Activations.place?_of_face (steady.face a)

theorem hangs {ms : List Mounted} {flats : List Flat} (steady : Steady s t) (hangs : Hangs s firm place ms flats) :
    Hangs t firm place ms flats :=
  hangs.frame steady.voids (fun n _ => steady.remains n) fun a _ => steady.place? a

theorem there (steady : Steady s t) (a : ActivationId) :
    (t.activations.find? a).isSome = (s.activations.find? a).isSome := by
  have same := congrArg Option.isSome (steady.face a)
  rwa [Activations.face?, Activations.face?, Option.isSome_map, Option.isSome_map] at same

theorem houses (steady : Steady s t) (houses : Houses homes s) : Houses homes t := by
  refine ⟨⟨houses.rising, fun home => ?_, fun a => ?_, fun n late => ?_, fun a => ?_, fun {a place} placed => ?_⟩,
    fun a => ?_⟩
  · rw [steady.dom]
    exact houses.nodes home
  · rw [steady.there]
    exact houses.activations a
  · rw [steady.dom] at late
    rw [steady.binder]
    exact houses.unbound n late
  · rw [Activations.output_of_face (steady.face a)]
    exact houses.outputs a
  · rw [steady.place?] at placed
    rw [steady.dom]
    exact houses.grounded placed
  · exact (houses.shows a).frame houses.toSits (.refl homes) (steady.face a) steady.voids (fun n _ => steady.remains n)
      fun b _ => steady.place? b

theorem shelters (steady : Steady s t) : Shelters depth homes homes s t :=
  ⟨.refl homes, steady.voids, fun _ _ => steady.remains _, fun _ _ => steady.place? _⟩

end Steady

/-- Nothing was done that concerns what is shown. -/
structure Calm (s t : Renderer Document σ) : Prop extends Steady s t where
  roots : t.roots = s.roots
  created : t.calls.created = s.calls.created

namespace Calm

theorem upholds (calm : Calm s t) (upholds : Upholds depth homes shown s) : Upholds depth homes shown t := by
  refine ⟨calm.houses upholds.houses, fun place => ?_, by rw [calm.created]; exact upholds.created⟩
  have same : t.mounted place = s.mounted place := by rw [mounted, mounted, calm.roots]
  rw [same]
  obtain ⟨k, deep, seated, hangs⟩ := upholds.roots place
  exact ⟨k, deep, seated, calm.hangs hangs⟩

end Calm

theorem Undisturbed.calm (undisturbed : Undisturbed s t) : Calm s t where
  dom := undisturbed.dom
  binder := undisturbed.binder
  roots := undisturbed.roots
  created := by rw [undisturbed.calls]
  face a := by
    have same := congrArg (Option.map Activation.face) (undisturbed.bare a)
    rwa [Option.map_map, Option.map_map] at same

/-- A call leaves everything upheld and what was set aside as it was. -/
structure Bears (depth : NodeId → Nat) (homes homes' : Homes) (after : Display) (s t : Renderer Document σ) :
    Prop where
  upholds : Upholds depth homes' after t
  shelters : Shelters depth homes homes' s t

theorem Calm.bears (calm : Calm s t) (upholds : Upholds depth homes shown s) :
    Bears depth homes homes shown s t := ⟨calm.upholds upholds, calm.toSteady.shelters⟩

theorem Bears.trans {homes'' : Homes} {shown' : Display} (one : Bears depth homes homes' shown s t)
    (two : Bears depth homes' homes'' shown' t u) : Bears depth homes homes'' shown' s u :=
  ⟨two.upholds, one.shelters.trans two.shelters⟩

section Admitting

structure Admits (a : ActivationId) (s t : Renderer Document σ) : Prop where
  number : a.index = Arena.issued s.activations + 1
  dom : t.dom = s.dom
  binder : t.binder = s.binder
  roots : t.roots = s.roots
  store : t.store = s.store
  created : t.calls.created = a :: s.calls.created
  blank : ∃ r, t.activations.find? a = some r ∧ r.parent = none ∧ r.output = []
  others : ∀ b, b ≠ a → t.activations.find? b = s.activations.find? b

theorem admits_createActivation {reference : ComponentRef} {owner : Option ActivationId}
    (returned : Returns (createActivation reference owner) s a t) : Admits a s t := by
  simp only [createActivation, returns_bind, returns_modifyGet, returns_report, returns_onCalls, returns_pure,
    Prod.mk.injEq] at returned
  obtain ⟨_, _, ⟨rfl, rfl⟩, _, _, rfl, _, _, rfl, rfl, rfl⟩ := returned
  refine ⟨rfl, rfl, rfl, rfl, rfl, rfl, ⟨_, (Activations.find?_alloc ..).trans (if_pos rfl), rfl, rfl⟩,
    fun b other => ?_⟩
  refine (Activations.find?_alloc ..).trans (if_neg fun same => other ?_)
  exact congrArg ActivationId.mk same

namespace Admits

theorem new (admits : Admits a s t) (sits : Sits homes s) : homes (.activation a) = none := by
  have unknown : (s.activations.find? a).isSome = false := by
    cases found : s.activations.find? a with
    | none => rfl
    | some r =>
        have known := Activations.index_le_issued found
        have number := admits.number
        omega
  rw [← sits.activations, Option.isSome_eq_false_iff, Option.isNone_iff_eq_none] at unknown
  exact unknown

theorem face (admits : Admits a s t) {b : ActivationId} (other : b ≠ a) :
    t.activations.face? b = s.activations.face? b := by
  rw [Activations.face?, Activations.face?, admits.others b other]

theorem voids (admits : Admits a s t) : Voids s t := by
  rw [Voids, admits.dom]
  exact ⟨Nat.le_refl _, fun _ _ => id⟩

theorem remains (admits : Admits a s t) (n : NodeId) : Remains s t n :=
  ⟨by rw [admits.dom], by rw [admits.dom], by rw [admits.binder]⟩

variable {home : Home}

theorem known_of_ne (admits : Admits a s t) (sits : Sits homes s) {b : ActivationId}
    (known : homes (.activation b) = some home) : b ≠ a := by
  rintro rfl
  cases known.symm.trans (admits.new sits)

theorem sits (admits : Admits a s t) (sits : Sits homes s)
    (around : ∀ b, home.holder = .output b → (homes (.activation b)).isSome = true) :
    Sits (homes.give (.activation a) home) t := by
  have extended := Homes.extends_give (admits.new sits) home
  have given {b : ActivationId} (other : b ≠ a) :
      homes.give (.activation a) home (.activation b) = homes (.activation b) :=
    homes.give_of_ne home fun same => other (Item.activation.inj same)
  have firm {b : ActivationId} (other : b ≠ a) : (homes.give (.activation a) home).firm b = homes.firm b := by
    rw [Homes.firm, Homes.firm, given other]
  refine ⟨fun {b c firm path} found => ?_, fun {n home'} found => ?_, fun b => ?_, fun n late => ?_, fun b => ?_,
    fun {b place} placed firm' => ?_⟩
  -- What is around the new activation was there before it.
  · by_cases same : c = a
    · subst same
      rw [homes.give_self] at found
      cases found
      have known := around b rfl
      rw [sits.activations] at known
      obtain ⟨r, there⟩ := Option.isSome_iff_exists.mp known
      have old := Activations.index_le_issued there
      have number := admits.number
      omega
    · exact sits.rising (given same ▸ found)
  · have other : Item.node n ≠ .activation a := by
      intro same
      cases same
    rw [homes.give_of_ne home other] at found
    rw [admits.dom]
    exact sits.nodes found
  · by_cases same : b = a
    · subst same
      obtain ⟨r, found, -⟩ := admits.blank
      rw [homes.give_self, found]
      rfl
    · rw [given same, admits.others b same]
      exact sits.activations b
  · rw [admits.dom] at late
    rw [admits.binder]
    exact sits.unbound n late
  · by_cases same : b = a
    · subst same
      obtain ⟨r, found, -, output⟩ := admits.blank
      rw [Activations.output_eq found, output]
      exact .nil
    · rw [firm same, Activations.output_of_face (admits.face same)]
      exact (sits.outputs b).extend extended
  · by_cases same : b = a
    · subst same
      obtain ⟨r, found, parent, -⟩ := admits.blank
      cases (Activations.place?_eq found).symm.trans placed ▸ parent
    · rw [Activations.place?_of_face (admits.face same)] at placed
      rw [firm same] at firm'
      rw [admits.dom]
      exact sits.grounded placed firm'

theorem bears (admits : Admits a s t) (upholds : Upholds depth homes shown s)
    (around : ∀ b, home.holder = .output b → (homes (.activation b)).isSome = true) :
    Bears depth homes (homes.give (.activation a) home) shown s t := by
  have sits := upholds.houses.toSits
  have extended := Homes.extends_give (admits.new sits) home
  have place {b : ActivationId} {home' : Home} (known : homes (.activation b) = some home') :
      t.activations.place? b = s.activations.place? b :=
    Activations.place?_of_face (admits.face (admits.known_of_ne sits known))
  refine ⟨⟨⟨admits.sits sits around, fun b => ?_⟩, fun place => ?_, ?_⟩,
    extended, admits.voids, fun _ _ => admits.remains _, fun known _ => place known⟩
  · by_cases same : b = a
    · subst same
      obtain ⟨r, found, -, output⟩ := admits.blank
      exact .of_empty ((Activations.output_eq found).trans output)
    · refine (upholds.houses.shows b).frame sits extended (admits.face same) admits.voids
        (fun n _ => admits.remains n) fun c member => ?_
      obtain ⟨_, _, _, known⟩ := (sits.outputs b).home_of_mem member
      exact place known
  · have same : t.mounted place = s.mounted place := by rw [mounted, mounted, admits.roots]
    rw [same]
    obtain ⟨k, deep, seated, hangs⟩ := upholds.roots place
    refine ⟨k, deep, seated.extend extended, hangs.frame admits.voids (fun n _ => admits.remains n) fun c member => ?_⟩
    obtain ⟨_, _, _, known⟩ := seated.home_of_mem member
    exact Activations.place?_of_face (admits.face (admits.known_of_ne sits known))
  · rw [admits.created]
    exact List.forall_mem_cons.mpr ⟨by rw [homes.give_self]; rfl, fun b member =>
      extended.known (upholds.created b member)⟩

end Admits

end Admitting

end Renderer
end Patchwork
