import Patchwork.Proofs.NestedInvariant

/-! Pairing, whatever is called meanwhile. A component that is invoked may render, unmount and flush, so that
little is known afterwards of the entries that are being paired; but plans are made for positions, and the
activations in them are at home at these positions whatever has become of the entries. -/
namespace Patchwork.Renderer

variable {σ α : Type} {δ : StateData} [HasStateData σ δ] {honest : σ → Prop} {depth : NodeId → Nat}
  {homes homes' homes'' : Homes}
  {s t u : Renderer Document (σ × Display)} {h : Holder} {firm : Bool} {path : List Nat} {i : Nat} {place : NodeId}
  {a : ActivationId}

/-- Containers show what was noted, and what else the program remembers is in order. -/
structure Stands (honest : σ → Prop) (depth : NodeId → Nat) (homes : Homes) (s : Renderer Document (σ × Display)) :
    Prop extends Upholds depth homes s.store.2 s where
  honest : honest s.store.1

/-- A step leaves everything upheld, and what was set aside as it was. -/
structure Abides (honest : σ → Prop) (depth : NodeId → Nat) (homes homes' : Homes)
    (s t : Renderer Document (σ × Display)) : Prop extends Bears depth homes homes' t.store.2 s t where
  honest : honest t.store.1

namespace Abides

theorem stands (abides : Abides honest depth homes homes' s t) : Stands honest depth homes' t :=
  ⟨abides.upholds, abides.honest⟩

theorem trans (one : Abides honest depth homes homes' s t) (two : Abides honest depth homes' homes'' t u) :
    Abides honest depth homes homes'' s u := ⟨one.toBears.trans two.toBears, two.honest⟩

end Abides

theorem Calm.abides (calm : Calm s t) (same : t.store = s.store) (stands : Stands honest depth homes s) :
    Abides honest depth homes homes s t :=
  ⟨same ▸ calm.bears stands.toUpholds, same ▸ stands.honest⟩

theorem Stands.abides (stands : Stands honest depth homes s) : Abides honest depth homes homes s s :=
  Calm.abides ⟨⟨rfl, rfl, fun _ => rfl⟩, rfl, rfl⟩ rfl stands

theorem calm_reports (s : Renderer Document (σ × Display)) (reports : List Report) : Calm s { s with reports } :=
  ⟨⟨rfl, rfl, fun _ => rfl⟩, rfl, rfl⟩

/-- Invocations leave everything upheld, and an output that was paired is laid at its activation. -/
structure Lays (honest : σ → Prop) (invocation : Invocation Document (σ × Display)) : Prop where
  invokes {a : ActivationId} {component : Component} {props : Props} {depth : NodeId → Nat} {homes : Homes}
    {s t : Renderer Document (σ × Display)} {outcome : Fallible Rendered} : Stands honest depth homes s →
    (homes (.activation a)).isSome = true → Returns (invocation a component props) s outcome t →
    ∃ homes', Abides honest depth homes homes' s t ∧ ∀ rendered, outcome = .ok rendered →
      rendered.activation = a ∧
        Laid homes' (.output a) (homes'.firm a) [] 0 rendered.output rendered.tree.flattenOutput

/-- The activation of a component's position is at home there, whether it was there or was made. -/
theorem abides_placing {owner : Option ActivationId} {reference : ComponentRef} {entry : Option Mounted} {fresh : Bool}
    (stands : Stands honest depth homes s) (around : ∀ b, h = .output b → (homes (.activation b)).isSome = true)
    (seated : ∀ m, entry = some m → Seated homes h firm path i [m])
    (returned : Returns (placing owner reference entry) s (a, fresh) t) :
    ∃ homes', Abides honest depth homes homes' s t ∧ homes' (.activation a) = some ⟨h, firm, i :: path⟩ := by
  obtain ⟨_, _, got, rest⟩ := returns_bind.mp returned
  obtain ⟨rfl, rfl⟩ := returns_get.mp got
  split at rest
  next b kept =>
    obtain ⟨same, rfl⟩ := returns_pure.mp rest
    cases same
    refine ⟨homes, stands.abides, ?_⟩
    unfold activationAt? at kept
    split at kept
    next b =>
      split at kept
      next =>
        cases kept
        cases seated _ rfl with
        | component home _ => exact home
      next => cases kept
    next => cases kept
  next =>
    obtain ⟨b, u, made, ended⟩ := returns_bind.mp rest
    obtain ⟨same, rfl⟩ := returns_pure.mp ended
    cases same
    have admits := admits_createActivation made
    have bears : Bears depth homes (homes.give (.activation a) ⟨h, firm, i :: path⟩) s.store.2 s u :=
      admits.bears stands.toUpholds around
    exact ⟨_, ⟨admits.store ▸ bears, admits.store ▸ stands.honest⟩, homes.give_self ..⟩

theorem seated_opened {dom : Document} {tag : String} {entry : Option Mounted}
    (seated : ∀ m, entry = some m → Seated homes h firm path i [m]) :
    Seated homes h true (i :: path) 0 (opened dom tag entry).2 := by
  rcases entry with _ | _ | ⟨node, mounted, children⟩ | _ | _
  case some.element =>
    cases seated _ rfl with
    | element home inner _ =>
    rw [opened, elementAt?]
    split
    next found =>
      split at found
      · cases found
        dsimp only
        split
        · exact inner
        · exact .nil
      · cases found
    next => exact .nil
  all_goals exact .nil

theorem abides_component {invocation : Invocation Document (σ × Display)} {owner : Option ActivationId}
    {reference : ComponentRef} {entry : Option Mounted} {outcome : Fallible Plan} (lays : Lays honest invocation)
    (stands : Stands honest depth homes s) (around : ∀ b, h = .output b → (homes (.activation b)).isSome = true)
    (seated : ∀ m, entry = some m → Seated homes h firm path i [m])
    (returned : Returns (pair invocation owner entry (.component reference)) s outcome t) :
    ∃ homes', Abides honest depth homes homes' s t ∧
      ∀ plan, outcome = .ok plan → Laid homes' h firm path i [plan] [.component reference] := by
  rw [pair_component] at returned
  obtain ⟨⟨a, fresh⟩, u, placed, rest⟩ := returns_bind.mp returned
  obtain ⟨invoked, v, ran, ended⟩ := returns_bind.mp rest
  obtain ⟨rfl, rfl⟩ := returns_pure.mp ended
  obtain ⟨homes', one, home⟩ := abides_placing stands around seated placed
  obtain ⟨homes'', two, laid⟩ := lays.invokes one.stands (by rw [home]; rfl) ran
  refine ⟨homes'', one.trans two, fun plan same => ?_⟩
  cases invoked with
  | error e => cases same
  | ok rendered =>
      cases same
      obtain ⟨rfl, laid⟩ := laid rendered rfl
      have home := two.shelters.extended _ _ home
      rw [Homes.firm_eq home] at laid
      exact .component home laid .nil

mutual

/-- What is planned for a position is laid there. -/
theorem abides_pair {invocation : Invocation Document (σ × Display)} (lays : Lays honest invocation) :
    ∀ (flat : Flat) {depth : NodeId → Nat} {homes : Homes} {s t : Renderer Document (σ × Display)} {h : Holder}
    {firm : Bool} {path : List Nat} {i : Nat} {owner : Option ActivationId} {entry : Option Mounted}
    {outcome : Fallible Plan}, flat.Plain → Stands honest depth homes s →
    (∀ b, h = .output b → (homes (.activation b)).isSome = true) →
    (∀ m, entry = some m → Seated homes h firm path i [m]) → Returns (pair invocation owner entry flat) s outcome t →
    ∃ homes', Abides honest depth homes homes' s t ∧
      ∀ plan, outcome = .ok plan → Laid homes' h firm path i [plan] [flat]
  | .text content, depth, homes, s, t, h, firm, path, i, owner, entry, outcome, plain, stands, around, seated,
      returned => by
      rw [pair_text] at returned
      obtain ⟨reuse, u, checked, ended⟩ := returns_bind.mp returned
      obtain ⟨rfl, rfl⟩ := returns_pure.mp ended
      obtain ⟨⟨_, rfl⟩, -⟩ := reports_of_checkEntry checked
      refine ⟨homes, (calm_reports ..).abides rfl stands, fun plan same => ?_⟩
      cases same
      exact .text .nil
  | .raw node, depth, homes, s, t, h, firm, path, i, owner, entry, outcome, plain, stands, around, seated,
      returned => by
      rw [pair_raw] at returned
      obtain ⟨rfl, rfl⟩ := returns_pure.mp returned
      refine ⟨homes, stands.abides, fun plan same => ?_⟩
      cases same
      exact .raw plain .nil
  | .element tag attributes children, depth, homes, s, t, h, firm, path, i, owner, entry, outcome, plain, stands,
      around, seated, returned => by
      rw [pair_element] at returned
      obtain ⟨⟨live, under⟩, u, opens, rest⟩ := returns_bind.mp returned
      obtain ⟨plans, v, paired, ended⟩ := returns_bind.mp rest
      obtain ⟨rfl, rfl⟩ := returns_pure.mp ended
      obtain ⟨⟨reports, rfl⟩, same⟩ := reports_of_opening opens
      have one := (calm_reports s reports).abides rfl stands
      have inside : under = (opened s.dom tag entry).2 := congrArg Prod.snd same
      obtain ⟨homes', two, laid⟩ :=
        abides_pairAll lays children plain one.stands around (inside ▸ seated_opened seated) paired
      refine ⟨homes', one.trans two, fun plan same => ?_⟩
      cases plans with
      | error e => cases same
      | ok plans =>
          cases same
          exact .element (laid plans rfl) .nil
  | .component reference, depth, homes, s, t, h, firm, path, i, owner, entry, outcome, plain, stands, around,
      seated, returned => abides_component lays stands around seated returned

theorem abides_pairAll {invocation : Invocation Document (σ × Display)} (lays : Lays honest invocation) :
    ∀ (flats : List Flat) {depth : NodeId → Nat} {homes : Homes} {s t : Renderer Document (σ × Display)} {h : Holder}
    {firm : Bool} {path : List Nat} {i : Nat} {owner : Option ActivationId} {entries : List Mounted}
    {outcome : Fallible (List Plan)}, Flat.PlainAll flats → Stands honest depth homes s →
    (∀ b, h = .output b → (homes (.activation b)).isSome = true) → Seated homes h firm path i entries →
    Returns (pairAll invocation owner entries flats) s outcome t →
    ∃ homes', Abides honest depth homes homes' s t ∧
      ∀ plans, outcome = .ok plans → Laid homes' h firm path i plans flats
  | [], depth, homes, s, t, h, firm, path, i, owner, entries, outcome, plain, stands, around, seated, returned => by
      rw [pairAll] at returned
      obtain ⟨rfl, rfl⟩ := returns_pure.mp returned
      refine ⟨homes, stands.abides, fun plans same => ?_⟩
      cases same
      exact .nil
  | flat :: flats, depth, homes, s, t, h, firm, path, i, owner, entries, outcome, plain, stands, around, seated,
      returned => by
      rw [pairAll] at returned
      obtain ⟨first, u, paired, rest⟩ := returns_bind.mp returned
      have head : ∀ m, entries.head? = some m → Seated homes h firm path i [m] := by
        intro m first
        cases entries with
        | nil => cases first
        | cons => cases first; exact seated.head
      have tail : Seated homes h firm path (i + 1) entries.tail := by
        cases entries with
        | nil => exact .nil
        | cons => exact seated.tail
      obtain ⟨homes', one, laid⟩ := abides_pair lays flat plain.1 stands around head paired
      cases first with
      | error e =>
          obtain ⟨rfl, rfl⟩ := returns_pure.mp rest
          exact ⟨homes', one, fun _ => nofun⟩
      | ok plan =>
          obtain ⟨plans, v, others, ended⟩ := returns_bind.mp rest
          obtain ⟨rfl, rfl⟩ := returns_pure.mp ended
          obtain ⟨homes'', two, laid'⟩ := abides_pairAll lays flats plain.2 one.stands
            (fun b same => one.shelters.extended.known (around b same)) (tail.extend one.shelters.extended) others
          refine ⟨homes'', one.trans two, fun plans' same => ?_⟩
          cases plans with
          | error e => cases same
          | ok plans =>
              cases same
              exact ((laid plan rfl).extend two.shelters.extended).cons (laid' plans rfl)

end

end Patchwork.Renderer
