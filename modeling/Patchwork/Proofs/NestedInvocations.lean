import Patchwork.Proofs.ContainerFrame
import Patchwork.Proofs.EntryPatching
import Patchwork.Proofs.NestedPairing

/-! Calls within calls leave everything upheld. -/
namespace Patchwork.Renderer

variable {σ σ' α : Type} {δ : StateData} [HasStateData σ δ] [HasStateData σ' δ] {honest : σ → Prop}
  {depth : NodeId → Nat} {homes homes' : Homes} {shown : Display}
  {s t u v : Renderer Document (σ × Display)} {tree : Tree} {place : NodeId} {k : Nat} {a : ActivationId}
  {invocation : Invocation Document (σ × Display)}

section Rendering

/-- A pass began, in which nothing has been created yet. -/
structure Begun (roots : Dict NodeId (List Mounted)) (s t : Renderer Document σ') : Prop where
  steady : Steady s t
  roots : t.roots = roots
  created : t.calls.created = []
  store : t.store = s.store

/-- A render ended, and the entries are put back if there are any. -/
structure Shut (place : NodeId) (calls : Calls) (es : List Mounted) (s t : Renderer Document σ') : Prop where
  steady : Steady s t
  calls : t.calls = calls
  store : t.store = s.store
  mounted : ∀ other, t.mounted other = if other = place ∧ es ≠ [] then es else s.mounted other

theorem shut_of_close {es : List Mounted} {r r' : Fallible Unit} {s t : Renderer Document σ'}
    (returned : Returns (close place (es, r)) s r' t) : r' = r ∧ Shut place s.calls es s t := by
  unfold close at returned
  cases es with
  | nil =>
      simp only [List.isEmpty_nil, Bool.not_true, Bool.false_eq_true, if_false, returns_bind, returns_get,
        returns_report, returns_pure] at returned
      obtain ⟨_, _, ⟨rfl, rfl⟩, _, _, rfl, rfl, rfl⟩ := returned
      exact ⟨rfl, ⟨rfl, rfl, fun _ => rfl⟩, rfl, rfl, fun other => (if_neg fun both => both.2 rfl).symm⟩
  | cons m ms =>
      simp only [List.isEmpty_cons, Bool.not_false, if_true, returns_bind, returns_get, returns_report, returns_pure,
        returns_modify] at returned
      obtain ⟨_, _, rfl, _, _, ⟨rfl, rfl⟩, _, _, rfl, rfl, rfl⟩ := returned
      refine ⟨rfl, ⟨rfl, rfl, fun _ => rfl⟩, rfl, rfl, fun other => ?_⟩
      simp only [mounted, noting, Dict.get?_insert, ne_eq, reduceCtorEq, not_false_eq_true, and_true]
      split
      · rfl
      · rfl

theorem renderBy_cases {invocation : Invocation Document σ'} {outcome : Fallible Unit} {s t : Renderer Document σ'}
    (returned : Returns (renderBy invocation tree place) s outcome t) :
    ∃ w plans u es v, Begun (s.roots.erase place) s w ∧
      Returns (pairAll invocation none (s.mounted place) tree.flatten) w plans u ∧
      Returns (carryOut place (s.mounted place) plans) u (es, outcome) v ∧ Shut place s.calls es v t := by
  rw [renderBy_eq] at returned
  obtain ⟨_, _, told, rest⟩ := returns_bind.mp returned
  obtain rfl := returns_report.mp told
  obtain ⟨_, _, got, rest⟩ := returns_bind.mp rest
  obtain ⟨rfl, rfl⟩ := returns_get.mp got
  obtain ⟨_, _, erased, rest⟩ := returns_bind.mp rest
  obtain rfl := returns_modify.mp erased
  obtain ⟨⟨es, answer⟩, _, passed, closing⟩ := returns_bind.mp rest
  obtain ⟨v, stepped, rfl⟩ := returns_inPass.mp passed
  obtain ⟨plans, u, paired, carried⟩ := returns_bind.mp stepped
  obtain ⟨rfl, shut⟩ := shut_of_close closing
  refine ⟨_, plans, u, es, v, ?_, paired, carried, ?_⟩
  · exact ⟨⟨rfl, rfl, fun _ => rfl⟩, rfl, rfl, rfl⟩
  · exact ⟨⟨shut.steady.dom, shut.steady.binder, shut.steady.face⟩, shut.calls, shut.store, shut.mounted⟩

theorem le_update (deep : depth place ≤ k) (other : NodeId) :
    depth other ≤ Function.update depth place (k + 1) other := by
  rw [Function.update_apply]
  split
  next same => exact same ▸ Nat.le_succ_of_le deep
  next => exact Nat.le_refl _

theorem mounted_of_roots (same : t.roots = s.roots) (place : NodeId) : t.mounted place = s.mounted place := by
  rw [mounted, mounted, same]

/-- The plans of a render are carried out on what was set aside, and the container shows the tree. -/
theorem bears_ok {ms es : List Mounted} {old flats : List Flat} {plans : List Plan} {answer : Fallible Unit}
    (upholds : Upholds (Function.update depth place (k + 1)) homes shown u) (deep : depth place ≤ k)
    (seated : Seated homes (.container place k) false [] 0 ms) (hangs : Hangs u false place ms old)
    (laid : Laid homes (.container place k) false [] 0 plans flats) (idle : flats = [] → u.mounted place = [])
    (carried : Returns (carryOut place ms (.ok plans)) u (es, answer) v) (steady : Steady v t)
    (created : ∀ a ∈ t.calls.created, (homes (.activation a)).isSome = true)
    (mounted : ∀ other, t.mounted other = if other = place ∧ es ≠ [] then es else v.mounted other) :
    ∃ homes', Bears depth homes homes' (shown.put place flats) u t ∧ answer = .ok () ∧ v.store = u.store := by
  obtain ⟨es', v', applied, ended⟩ := returns_bind.mp carried
  obtain ⟨same, rfl⟩ := returns_pure.mp ended
  obtain ⟨rfl, rfl⟩ := Prod.mk.inj same
  have free := Free.container u place k
  obtain ⟨homes', reworks⟩ := reworks_applyAll plans upholds.houses free seated hangs laid nofun applied
  have touches := reworks.touches
  have unmoved := mounted_of_roots touches.roots
  refine ⟨homes', (upholds.lessen (le_update deep)).replaced (steady.houses reworks.houses) reworks.extended
    ((Spares.of_within touches reworks.extended upholds.houses.nodes).trans (.steady steady) reworks.extended)
    (fun other differs => ⟨?_, Display.put_of_ne _ _ differs⟩) ⟨k, deep, ?_⟩ deep created, rfl, touches.store⟩
  · rw [mounted, if_neg fun both => differs both.1, unmoved]
  · have shows := reworks.hangs.length_eq
    rw [Display.put_self, mounted]
    by_cases empty : es' = []
    · rw [if_neg fun both => both.2 empty, unmoved]
      subst empty
      obtain rfl := List.length_eq_zero_iff.mp shows.symm
      rw [idle rfl]
      exact ⟨.nil, .nil⟩
    · rw [if_pos ⟨rfl, empty⟩]
      exact ⟨reworks.seated, steady.hangs reworks.hangs⟩

theorem Upholds.calledOff (upholds : Upholds depth homes shown s)
    (returned : Returns (unmountActivations s.calls.created.reverse) s () t) :
    ∃ K, Empties homes (fun x => ∃ a ∈ s.calls.created.reverse, x = .activation a) K s t ∧ Houses homes t := by
  obtain ⟨K, empties⟩ := empties_unmountActivations _ upholds.houses.toSits
    (fun a member => upholds.created a (List.mem_reverse.mp member)) returned
  refine ⟨K, empties, upholds.houses.emptied empties fun {n a} top _ => ?_⟩
  obtain ⟨_, _, same⟩ := top
  cases same

/-- A render that failed is called off, and the container shows what it did before. -/
theorem bears_error {ms es : List Mounted} {old : List Flat} {e : RenderError} {answer : Fallible Unit}
    (upholds : Upholds (Function.update depth place (k + 1)) homes shown u) (deep : depth place ≤ k)
    (seated : Seated homes (.container place k) false [] 0 ms) (hangs : Hangs u false place ms old)
    (carried : Returns (carryOut place ms (.error e)) u (es, answer) v) (steady : Steady v t)
    (created : ∀ a ∈ t.calls.created, (homes (.activation a)).isSome = true)
    (mounted : ∀ other, t.mounted other = if other = place ∧ es ≠ [] then es else v.mounted other) :
    Bears depth homes homes (if old = [] then shown else shown.put place old) u t ∧ answer = .error e ∧
      v.store = u.store := by
  obtain ⟨_, _, got, rest⟩ := returns_bind.mp carried
  obtain ⟨rfl, rfl⟩ := returns_get.mp got
  obtain ⟨_, v', unmounted, ended⟩ := returns_bind.mp rest
  obtain ⟨same, rfl⟩ := returns_pure.mp ended
  obtain ⟨rfl, rfl⟩ := Prod.mk.inj same
  obtain ⟨K, empties, houses⟩ := upholds.calledOff unmounted
  have touches := empties.touches 0
  have unmoved := mounted_of_roots touches.roots
  have spares (skip : Holder → Prop) : Spares skip homes u t :=
    (Spares.of_empties empties).trans (.steady steady) (.refl homes)
  refine ⟨(upholds.lessen (le_update deep)).replaced (steady.houses houses) (.refl homes) (spares _)
    (fun other differs => ⟨?_, ?_⟩) ?_ deep created, rfl, touches.store⟩
  · rw [mounted, if_neg fun both => differs both.1, unmoved]
  · split
    · rfl
    · exact Display.put_of_ne _ _ differs
  · rw [mounted]
    by_cases empty : ms = []
    · -- What was rendered into the container meanwhile stands there now.
      subst empty
      obtain rfl := List.length_eq_zero_iff.mp hangs.length_eq.symm
      obtain ⟨j, deeper, there, showing⟩ := upholds.roots place
      rw [Function.update_self] at deeper
      rw [if_neg fun both => both.2 rfl, if_pos rfl, unmoved]
      exact ⟨j, by omega, there, (spares fun _ => False).hangs id there showing⟩
    · have filled : old ≠ [] := fun none => empty (List.length_eq_zero_iff.mp (hangs.length_eq.trans (congrArg _ none)))
      rw [if_pos ⟨rfl, empty⟩, if_neg filled, Display.put_self]
      exact ⟨k, deep, seated, (spares fun _ => False).hangs id seated hangs⟩

theorem Upholds.stands (upholds : Upholds depth homes shown s) (good : honest s.store.1)
    (noted : s.store.2 = shown.put place []) (steady : Steady s t) (erased : t.roots = s.roots.erase place)
    (created : t.calls.created = []) (store : t.store = s.store) :
    Stands honest (Function.update depth place (k + 1)) homes t := by
  refine ⟨?_, store ▸ good⟩
  rw [store, noted]
  exact upholds.aside steady erased created

/-- A render leaves everything upheld, and it is noted what the container shows. -/
theorem bears_renderBy {outcome : Fallible Unit} (lays : Lays honest invocation) (plain : tree.Plain)
    (upholds : Upholds depth homes shown s) (good : honest s.store.1) (noted : s.store.2 = shown.put place [])
    (returned : Returns (renderBy invocation tree place) s outcome t) :
    ∃ homes', Bears depth homes homes' (t.store.2.rendered place tree (shown place) outcome) s t ∧
      honest t.store.1 := by
  obtain ⟨w, plans, u, es, v, begun, paired, carried, shut⟩ := renderBy_cases returned
  obtain ⟨k, deep, seated, hangs⟩ := upholds.roots place
  have aside := upholds.stands (k := k) good noted begun.steady begun.roots begun.created begun.store
  obtain ⟨homes', one, laid⟩ := abides_pairAll (h := .container place k) lays tree.flatten plain.flatten aside nofun
    seated paired
  have deeper : k < Function.update depth place (k + 1) place := by
    rw [Function.update_self]
    exact Nat.lt_succ_self k
  have hangs := one.shelters.hangs deeper seated (begun.steady.hangs hangs)
  have created : ∀ a ∈ t.calls.created, (homes' (.activation a)).isSome = true := fun a member =>
    one.shelters.extended.known (upholds.created a (shut.calls ▸ member))
  have shelters : Shelters depth homes homes' s u := begun.steady.shelters.trans (one.shelters.lessen (le_update deep))
  cases plans with
  | error e =>
      obtain ⟨two, rfl, kept⟩ := bears_error one.upholds deep (seated.extend one.shelters.extended) hangs carried
        shut.steady created shut.mounted
      refine ⟨homes', ⟨?_, shelters.trans two.shelters⟩, ?_⟩
      · rw [shut.store, kept]
        exact two.upholds
      · rw [shut.store, kept]
        exact one.honest
  | ok plans =>
      have idle : tree.flatten = [] → u.mounted place = [] := fun none => by
        rw [none, pairAll] at paired
        obtain ⟨-, rfl⟩ := returns_pure.mp paired
        rw [mounted_of_erase begun.roots, if_pos rfl]
      obtain ⟨homes'', two, rfl, kept⟩ := bears_ok one.upholds deep (seated.extend one.shelters.extended) hangs
        (laid plans rfl) idle carried shut.steady created shut.mounted
      refine ⟨homes'', ⟨?_, shelters.trans two.shelters⟩, ?_⟩
      · rw [shut.store, kept]
        exact two.upholds
      · rw [shut.store, kept]
        exact one.honest

end Rendering

section Rerendering

theorem steady_calls (s : Renderer Document (σ × Display)) (calls : Calls) : Steady s { s with calls } :=
  ⟨rfl, rfl, fun _ => rfl⟩

theorem abides_of_store {homes'' : Homes} (same : t.store = u.store) (good : honest u.store.1)
    (one : Shelters depth homes homes' s u) (two : Bears depth homes' homes'' u.store.2 u t) :
    Abides honest depth homes homes'' s t :=
  ⟨⟨same ▸ two.upholds, one.trans two.shelters⟩, same ▸ good⟩

theorem Begun.stands (begun : Begun s.roots s t) (stands : Stands honest depth homes s) :
    Stands honest depth homes t := by
  have none : ∀ a ∈ t.calls.created, (homes (.activation a)).isSome = true := by
    rw [begun.created]
    exact List.forall_mem_nil _
  have bears := stands.toUpholds.spared (begun.steady.houses stands.houses) (.refl homes) (.steady begun.steady)
    begun.roots none
  exact ⟨begun.store ▸ bears.upholds, begun.store ▸ stands.honest⟩

/-- An activation that is invoked again for its own sake is rerendered in place, or is left as it was. -/
theorem abides_rerenderBy {record : Activation} {outcome : Fallible Unit} (lays : Lays honest invocation)
    (stands : Stands honest depth homes s) (known : (homes (.activation a)).isSome = true)
    (returned : Returns (rerenderBy invocation a record) s outcome t) :
    ∃ homes', Abides honest depth homes homes' s t := by
  obtain ⟨v, stepped, rfl⟩ := returns_inPass.mp returned
  obtain ⟨invoked, u, ran, rest⟩ := returns_bind.mp stepped
  obtain ⟨w, begun, ran⟩ : ∃ w, Begun s.roots s w ∧
      Returns (invocation a record.component record.props) w invoked u := by
    refine ⟨_, ?_, ran⟩
    exact ⟨⟨rfl, rfl, fun _ => rfl⟩, rfl, rfl, rfl⟩
  obtain ⟨homes', one, laid⟩ := lays.invokes (begun.stands stands) known ran
  have created : ∀ b ∈ s.calls.created, (homes' (.activation b)).isSome = true := fun b member =>
    one.shelters.extended.known (stands.created b member)
  have shelters : Shelters depth homes homes' s u := begun.steady.shelters.trans one.shelters
  cases invoked with
  | error e =>
      obtain ⟨_, _, got, rest⟩ := returns_bind.mp rest
      obtain ⟨rfl, rfl⟩ := returns_get.mp got
      obtain ⟨_, w, unmounted, ended⟩ := returns_bind.mp rest
      obtain ⟨-, rfl⟩ := returns_pure.mp ended
      obtain ⟨K, empties, houses⟩ := one.upholds.calledOff unmounted
      have two := one.upholds.spared (t := { w with calls := s.calls })
        ((steady_calls w s.calls).houses houses) (.refl homes')
        ((Spares.of_empties empties).trans (.steady (steady_calls w s.calls)) (.refl homes'))
        (empties.touches 0).roots created
      exact ⟨homes', abides_of_store (empties.touches 0).store one.honest shelters two⟩
  | ok rendered =>
      obtain ⟨_, w, committed, ended⟩ := returns_bind.mp rest
      obtain ⟨-, rfl⟩ := returns_pure.mp ended
      obtain ⟨rfl, laid⟩ := laid rendered rfl
      have known := one.shelters.extended.known known
      obtain ⟨homes'', commits⟩ := commits_commitBy (fun {s t place tail ms old ms'} houses free seated hangs firmly
        worked => reworks_applyAll rendered.output houses free seated hangs laid firmly worked) one.upholds.houses known
        committed
      have two := one.upholds.spared (t := { w with calls := s.calls })
        ((steady_calls w s.calls).houses commits.houses) commits.extended
        ((Spares.of_below commits.touches commits.place commits.extended one.upholds.houses.nodes).trans
          (.steady (steady_calls w s.calls)) commits.extended) commits.touches.roots created
      exact ⟨homes'', abides_of_store commits.touches.store one.honest shelters two⟩

end Rerendering

end Patchwork.Renderer
