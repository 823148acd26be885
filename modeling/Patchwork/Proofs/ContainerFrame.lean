import Patchwork.Proofs.EntryUnmounting
import Patchwork.Proofs.NestedInvariant

/-! Rendering into a container, rerendering in place and unmounting. Each works on one list of entries, or inside
one activation, and spares the lists of all other containers, those that are set aside included. -/
namespace Patchwork.Renderer

open Mounted (items itemsAll)

section Sparing

variable {σ : Type} {δ : StateData} [HasStateData σ δ] {s t u : Renderer Document σ} {depth : NodeId → Nat}
  {homes homes' : Homes} {shown : Display}
  {skip skip' : Holder → Prop} {base : Nat} {h : Holder} {firm : Bool} {path : List Nat} {i k : Nat} {place : NodeId}
  {a : ActivationId}

/-- What is at home in a container was left as it was, but for some lists. -/
structure Spares (skip : Holder → Prop) (homes : Homes) (s t : Renderer Document σ) : Prop where
  voids : Voids s t
  remains : ∀ {n place k firm path}, homes (.node n) = some ⟨.container place k, firm, path⟩ →
    ¬ skip (.container place k) → Remains s t n
  place : ∀ {a place k firm path}, homes (.activation a) = some ⟨.container place k, firm, path⟩ →
    ¬ skip (.container place k) → t.activations.place? a = s.activations.place? a

namespace Spares

theorem steady (steady : Steady s t) : Spares skip homes s t :=
  ⟨steady.voids, fun _ _ => steady.remains _, fun _ _ => steady.place? _⟩

theorem of_touches {T : Item → Prop} (touches : Touches base T s t)
    (old : ∀ {n home}, homes (.node n) = some home → n.index ≤ base)
    (apart : ∀ {x place k firm path}, homes x = some ⟨.container place k, firm, path⟩ → T x →
      skip (.container place k)) : Spares skip homes s t where
  voids := touches.voids
  remains home other := touches.remains _ (old home) fun touched => other (apart home touched)
  place home other := touches.place? fun touched => other (apart home touched)

theorem of_within {positions : List Nat → Prop} (touches : Touches base (Within homes' h positions) s t)
    (extended : homes.Extends homes') (old : ∀ {n home}, homes (.node n) = some home → n.index ≤ base) :
    Spares (· = h) homes s t :=
  .of_touches touches old fun home within => (Within.holder_eq (extended _ _ home) within).symm

theorem container_of_below (below : Below homes (.activation a) x)
    (home : homes x = some ⟨.container place k, firm, path⟩) : x = .activation a := by
  cases below with
  | self => rfl
  | inside inner _ => cases home.symm.trans inner

theorem of_below (touches : Touches base (Below homes' (.activation a)) s t)
    (kept : t.activations.place? a = s.activations.place? a) (extended : homes.Extends homes')
    (old : ∀ {n home}, homes (.node n) = some home → n.index ≤ base) : Spares skip homes s t where
  voids := touches.voids
  remains home _ := touches.remains _ (old home) fun below => by
    cases container_of_below below (extended _ _ home)
  place {b _ _ _ _} home _ := by
    by_cases below : Below homes' (.activation a) (.activation b)
    · cases container_of_below below (extended _ _ home)
      exact kept
    · exact touches.place? below

theorem of_empties {as : List ActivationId} {K : ActivationId → Prop}
    (empties : Empties homes (fun x => ∃ a ∈ as, x = .activation a) K s t) : Spares skip homes s t where
  voids := (empties.touches 0).voids
  remains {n _ _ _ _} home _ := by
    refine (empties.touches n.index).remains n (Nat.le_refl _) fun touched => ?_
    rcases touched with ⟨_, _, same⟩ | ⟨_, _, _, _, inner⟩
    · cases same
    · cases home.symm.trans inner
  place _ _ := empties.place _

theorem hangs {ms : List Mounted} {flats : List Flat} {above : Bool} {top : NodeId}
    (spares : Spares skip homes s t) (other : ¬ skip (.container place k))
    (seated : Seated homes (.container place k) firm path i ms) (hangs : Hangs s above top ms flats) :
    Hangs t above top ms flats := by
  refine hangs.frame spares.voids (fun n member => ?_) fun a member => ?_
  · obtain ⟨_, _, _, home⟩ := seated.home_of_mem member
    exact spares.remains home other
  · obtain ⟨_, _, _, home⟩ := seated.home_of_mem member
    exact spares.place home other

theorem shelters (spares : Spares skip homes s t) (extended : homes.Extends homes')
    (deep : ∀ {place k}, skip (.container place k) → depth place ≤ k) : Shelters depth homes homes' s t where
  extended := extended
  voids := spares.voids
  remains home idle := spares.remains home fun there => Nat.not_le_of_lt idle (deep there)
  place home idle := spares.place home fun there => Nat.not_le_of_lt idle (deep there)

theorem trans (one : Spares skip homes s t) (two : Spares skip homes' t u) (extended : homes.Extends homes') :
    Spares skip homes s u where
  voids := one.voids.trans two.voids
  remains home other := (one.remains home other).trans (two.remains (extended _ _ home) other)
  place home other := (two.place (extended _ _ home) other).trans (one.place home other)

end Spares

/-- A step that spares all containers bears what is upheld. -/
theorem Upholds.spared (upholds : Upholds depth homes shown s) (houses : Houses homes' t)
    (extended : homes.Extends homes') (spares : Spares (fun _ => False) homes s t) (roots : t.roots = s.roots)
    (created : ∀ a ∈ t.calls.created, (homes (.activation a)).isSome = true) : Bears depth homes homes' shown s t := by
  refine ⟨⟨houses, fun place => ?_, fun a member => extended.known (created a member)⟩,
    spares.shelters extended False.elim⟩
  have same : t.mounted place = s.mounted place := by rw [mounted, mounted, roots]
  rw [same]
  obtain ⟨k, deep, seated, hangs⟩ := upholds.roots place
  exact ⟨k, deep, seated.extend extended, spares.hangs id seated hangs⟩

/-- A step that works on one list of a container bears what is upheld, if the container shows afterwards what it
is said to show. -/
theorem Upholds.replaced {after : Display} (upholds : Upholds depth homes shown s) (houses : Houses homes' t)
    (extended : homes.Extends homes') (spares : Spares (· = .container place k) homes s t)
    (others : ∀ other, other ≠ place → t.mounted other = s.mounted other ∧ after other = shown other)
    (here : ∃ j, depth place ≤ j ∧ Seated homes' (.container place j) false [] 0 (t.mounted place) ∧
      Hangs t false place (t.mounted place) (after place))
    (deep : depth place ≤ k) (created : ∀ a ∈ t.calls.created, (homes (.activation a)).isSome = true) :
    Bears depth homes homes' after s t := by
  refine ⟨⟨houses, fun other => ?_, fun a member => extended.known (created a member)⟩,
    spares.shelters extended fun same => ?_⟩
  · by_cases same : other = place
    · subst same
      exact here
    · obtain ⟨mounted, showing⟩ := others other same
      rw [mounted, showing]
      obtain ⟨j, deep, seated, hangs⟩ := upholds.roots other
      exact ⟨j, deep, seated.extend extended, spares.hangs (fun eq => same (Holder.container.inj eq).1) seated hangs⟩
  · cases same
    exact deep

theorem mounted_of_erase (erased : t.roots = s.roots.erase place) (other : NodeId) :
    t.mounted other = if other = place then [] else s.mounted other := by
  rw [mounted, erased, Dict.get?_erase]
  split
  · rfl
  · rfl

/-- Everything that was rendered into a container is unmounted. -/
theorem bears_unmount {answer : Bool} (upholds : Upholds depth homes shown s)
    (returned : Returns (unmount place) s answer t) :
    Bears depth homes homes (shown.put place []) s t ∧ t.store = s.store := by
  obtain ⟨_, _, told, rest⟩ := returns_bind.mp returned
  obtain rfl := returns_report.mp told
  obtain ⟨_, _, got, rest⟩ := returns_bind.mp rest
  obtain ⟨rfl, rfl⟩ := returns_get.mp got
  obtain ⟨k, deep, seated, hangs⟩ := upholds.roots place
  have told : Steady s (s.noting (.unmountingContainer place)) := ⟨rfl, rfl, fun _ => rfl⟩
  split at rest
  next nothing =>
    obtain ⟨rfl, rfl⟩ := returns_pure.mp rest
    have empty : s.mounted place = [] := congrArg (Option.getD · []) nothing
    refine ⟨upholds.replaced (k := k) (told.houses upholds.houses) (.refl homes) (.steady told)
      (fun other differs => ⟨rfl, Display.put_of_ne _ _ differs⟩) ⟨k, deep, ?_⟩ deep upholds.created, rfl⟩
    rw [Display.put_self]
    exact ⟨seated, by rw [show (s.noting _).mounted place = [] from empty]; exact .nil⟩
  next ms there =>
    obtain ⟨_, u, erased, rest⟩ := returns_bind.mp rest
    obtain rfl := returns_modify.mp erased
    obtain ⟨_, v, removed, ended⟩ := returns_bind.mp rest
    obtain ⟨rfl, rfl⟩ := returns_pure.mp ended
    have here : s.mounted place = ms := congrArg (Option.getD · []) there
    rw [here] at seated
    have steady : Steady s { s.noting (.unmountingContainer place) with roots := s.roots.erase place } :=
      ⟨rfl, rfl, fun _ => rfl⟩
    have gone := removed_unmountEntries (steady.houses upholds.houses) (.container _ place k) seated removed
    have touches := gone.touches s.dom.issued
    have erased : v.roots = s.roots.erase place := touches.roots
    have emptied := mounted_of_erase erased
    refine ⟨upholds.replaced gone.houses (.refl homes) ((Spares.steady steady).trans
      (.of_within touches (.refl homes) upholds.houses.nodes) (.refl homes)) (fun other differs => ⟨?_, ?_⟩)
      ⟨k, deep, ?_⟩ deep ?_, touches.store⟩
    · rw [emptied, if_neg differs]
    · exact Display.put_of_ne _ _ differs
    · rw [emptied, if_pos rfl, Display.put_self]
      exact ⟨.nil, .nil⟩
    · rw [touches.calls]
      exact upholds.created

theorem Upholds.aside (upholds : Upholds depth homes shown s) (steady : Steady s t)
    (erased : t.roots = s.roots.erase place) (created : t.calls.created = []) :
    Upholds (Function.update depth place (k + 1)) homes (shown.put place []) t where
  houses := steady.houses upholds.houses
  created := by
    rw [created]
    exact List.forall_mem_nil _
  roots other := by
    rw [mounted_of_erase erased]
    by_cases same : other = place
    · subst same
      rw [if_pos rfl, Display.put_self, Function.update_self]
      exact ⟨k + 1, Nat.le_refl _, .nil, .nil⟩
    · rw [if_neg same, Display.put_of_ne _ _ same, Function.update_of_ne same]
      obtain ⟨j, deep, seated, hangs⟩ := upholds.roots other
      exact ⟨j, deep, seated, steady.hangs hangs⟩

end Sparing

end Patchwork.Renderer
