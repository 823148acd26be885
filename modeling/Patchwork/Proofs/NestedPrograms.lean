import Patchwork.Proofs.NestedInvocations

/-! What components and handlers do, calls within calls included. As long as no tree wraps a live node, everything
stays upheld. -/
namespace Patchwork

/-- A computation only renders trees that wrap no live node, and so is its answer as it is said to be, whatever
answers it gets. What it remembers may be relied on to be `honest`, and is kept so. -/
def Action.Plain {σ : Type} {δ : StateData} [HasStateData σ δ] (honest : σ → Prop) {α : Type} (good : α → Prop) :
    Action σ α → Prop
  | .done a => good a
  | .load next => ∀ s, honest s → (next s).Plain honest good
  | .store s next => honest s ∧ next.Plain honest good
  | .report _ next => next.Plain honest good
  | .useState _ initial next => (initial.Plain honest fun _ => True) ∧ ∀ r, (next r).Plain honest good
  | .getCell _ next => ∀ d, (next d).Plain honest good
  | .updateCell _ _ next => next.Plain honest good
  | .invoke _ _ next => ∀ r, (∀ tree, r = .ok tree → tree.Plain) → (next r).Plain honest good
  | .render tree _ next => tree.Plain ∧ ∀ r, (next r).Plain honest good
  | .unmount _ next => ∀ b, (next b).Plain honest good
  | .flush next => ∀ r, (next r).Plain honest good

/-- No component and no handler shows a tree that wraps a live node. -/
structure Program.Plain {σ : Type} {δ : StateData} [HasStateData σ δ] (honest : σ → Prop) (program : Program σ) :
    Prop where
  component : ∀ c props, (program.component c props).Plain honest fun r => ∀ tree, r = .ok tree → tree.Plain
  handler : ∀ h event, (program.handler h event).Plain honest fun _ => True

namespace Renderer

variable {σ α β : Type} {δ : StateData} [HasStateData σ δ] {honest : σ → Prop} {depth : NodeId → Nat}
  {homes homes' : Homes} {shown : Display}
  {s t u v : Renderer Document (σ × Display)} {good : α → Prop} {invocation : Invocation Document (σ × Display)}

/-- A step leaves everything upheld, and its answer is as it is said to be. -/
structure Behaves (honest : σ → Prop) (step : RenderM Document (σ × Display) α) (good : α → Prop) : Prop where
  behaves {depth : NodeId → Nat} {homes : Homes} {s t : Renderer Document (σ × Display)} {a : α} :
    Stands honest depth homes s → Returns step s a t → (∃ homes', Abides honest depth homes homes' s t) ∧ good a

theorem behaves_pure {a : α} (holds : good a) : Behaves honest (pure a : RenderM Document (σ × Display) α) good where
  behaves stands returned := by
    obtain ⟨rfl, rfl⟩ := returns_pure.mp returned
    exact ⟨⟨_, stands.abides⟩, holds⟩

theorem Behaves.bind {first : RenderM Document (σ × Display) α} {rest : α → RenderM Document (σ × Display) β}
    {good' : β → Prop} (one : Behaves honest first good) (two : ∀ a, good a → Behaves honest (rest a) good') :
    Behaves honest (first >>= rest) good' where
  behaves stands returned := by
    obtain ⟨a, u, begun, ended⟩ := returns_bind.mp returned
    obtain ⟨⟨homes', first⟩, holds⟩ := one.behaves stands begun
    obtain ⟨⟨homes'', second⟩, holds'⟩ := (two a holds).behaves first.stands ended
    exact ⟨⟨homes'', first.trans second⟩, holds'⟩

theorem behaves_get : Behaves honest (get : RenderM Document (σ × Display) _) fun _ => True where
  behaves stands returned := by
    obtain ⟨-, rfl⟩ := returns_get.mp returned
    exact ⟨⟨_, stands.abides⟩, trivial⟩

theorem behaves_calm {step : RenderM Document (σ × Display) α}
    (calm : ∀ {s a t}, Returns step s a t → Calm s t ∧ t.store = s.store) : Behaves honest step fun _ => True where
  behaves stands returned := by
    obtain ⟨calm, same⟩ := calm returned
    exact ⟨⟨_, calm.abides same stands⟩, trivial⟩

theorem behaves_modify {f : Renderer Document (σ × Display) → Renderer Document (σ × Display)}
    (calm : ∀ s, Calm s (f s)) (same : ∀ s, (f s).store = s.store) :
    Behaves honest (modify f : RenderM Document (σ × Display) PUnit) fun _ => True :=
  behaves_calm fun {s _ _} returned => by
    rw [returns_modify.mp returned]
    exact ⟨calm s, same s⟩

theorem behaves_abort (reason : Abort) : Behaves honest (abort reason : RenderM Document (σ × Display) α) good where
  behaves _ returned := (returns_abort.mp returned).elim

theorem behaves_report (r : Report) : Behaves honest (report r : RenderM Document (σ × Display) Unit) fun _ => True :=
  behaves_modify (fun _ => ⟨⟨rfl, rfl, fun _ => rfl⟩, rfl, rfl⟩) fun _ => rfl

section Flushing

theorem behaves_flushEach (lays : Lays honest invocation) (epoch : Nat) (pending : List ActivationId) :
    Behaves honest (flushEach invocation epoch pending) fun _ => True := by
  induction pending with
  | nil => exact behaves_pure trivial
  | cons a rest ih =>
      constructor
      intro depth homes s t answer stands returned
      refine ⟨?_, trivial⟩
      obtain ⟨_, _, got, returned⟩ := returns_bind.mp returned
      obtain ⟨rfl, rfl⟩ := returns_get.mp got
      dsimp only at returned
      have skips (r : Report) : Behaves honest (do report r; flushEach invocation epoch rest) fun _ => True :=
        (behaves_report r).bind fun _ _ => ih
      split at returned
      next => exact ((skips _).behaves stands returned).1
      next record live =>
        split at returned
        · exact ((skips _).behaves stands returned).1
        · obtain ⟨outcome, u, ran, later⟩ := returns_bind.mp returned
          have known : (homes (.activation a)).isSome = true := by
            rw [stands.houses.activations, (Option.filter_eq_some_iff.mp live).1]
            rfl
          obtain ⟨homes', one⟩ := abides_rerenderBy lays stands known ran
          obtain ⟨homes'', two⟩ : ∃ homes'', Abides honest depth homes' homes'' u t := by
            cases outcome with
            | ok =>
                obtain ⟨_, _, others, ended⟩ := returns_bind.mp later
                obtain ⟨-, rfl⟩ := returns_pure.mp ended
                exact (ih.behaves one.stands others).1
            | error e =>
                obtain ⟨_, _, told, later⟩ := returns_bind.mp later
                obtain ⟨_, _, others, ended⟩ := returns_bind.mp later
                obtain ⟨-, rfl⟩ := returns_pure.mp ended
                exact (((behaves_report _).bind fun _ _ => ih).behaves one.stands (told.bind others)).1
          exact ⟨homes'', one.trans two⟩

theorem behaves_flushBy (lays : Lays honest invocation) : Behaves honest (flushBy invocation) fun _ => True := by
  refine (behaves_report _).bind fun _ _ => behaves_get.bind fun _ _ => behaves_get.bind fun _ _ => ?_
  refine .bind (behaves_modify (fun _ => ⟨⟨rfl, rfl, fun _ => rfl⟩, rfl, rfl⟩) fun _ => rfl) fun _ _ => ?_
  refine (behaves_flushEach lays _ _).bind fun _ _ => ?_
  exact (behaves_report _).bind fun _ _ => behaves_pure trivial

end Flushing

section Performing

theorem calm_storing (s : Renderer Document (σ × Display)) (store : σ × Display) : Calm s { s with store } :=
  ⟨⟨rfl, rfl, fun _ => rfl⟩, rfl, rfl⟩

theorem store_updateCell {setter : Setter δ.DataType} {change : δ.Datum → δ.Datum}
    (returned : Returns (updateCell setter change) s () t) : t.store = s.store := by
  cases setterStep_of_returns returned with
  | vain _ noted =>
      subst noted
      rfl
  | changed _ _ requested =>
      obtain ⟨_, rfl⟩ := returns_requestUpdate requested
      rfl

theorem behaves_useStateBy (type : δ.DataType) {initial : RenderM Document (σ × Display) δ.Datum}
    (inner : Behaves honest initial fun _ => True) : Behaves honest (useStateBy type initial) fun _ => True := by
  refine behaves_get.bind fun s _ => ?_
  split
  · exact behaves_pure trivial
  next a record _ =>
    refine .bind (behaves_modify (fun s => (Undisturbed.advancing s a record).calm) fun _ => rfl) fun _ _ => ?_
    split
    · refine behaves_get.bind fun _ _ => ?_
      dsimp only
      split <;> exact behaves_pure trivial
    · have makes (d : δ.Datum) : Behaves honest (makeCell a d : RenderM Document (σ × Display) CellId) fun _ => True :=
        behaves_calm fun returned => by
          obtain ⟨-, rfl⟩ := returns_makeCell returned
          exact ⟨(Undisturbed.making ..).calm, rfl⟩
      exact (behaves_report _).bind fun _ _ => inner.bind fun d _ => (makes d).bind fun _ _ => behaves_pure trivial

theorem Behaves.map {step : RenderM Document (σ × Display) α} (behaves : Behaves honest step good) (f : α → β) :
    Behaves honest (f <$> step) fun _ => True := by
  rw [← bind_pure_comp]
  exact behaves.bind fun _ _ => behaves_pure trivial

/-- While a container is rendered into, it is noted that it shows nothing, and afterwards what it shows then. -/
theorem abides_rendering {tree : Tree} {place : NodeId} {outcome : Fallible Unit} (lays : Lays honest invocation)
    (plain : tree.Plain) (stands : Stands honest depth homes s)
    (rendered : Returns (renderBy invocation tree place) { s with store := (s.store.1, s.store.2.put place []) }
      outcome v) :
    ∃ homes', Abides honest depth homes homes' s
      { v with store := (v.store.1, v.store.2.rendered place tree (s.store.2 place) outcome) } := by
  have before := calm_storing s (s.store.1, s.store.2.put place [])
  have after := calm_storing v (v.store.1, v.store.2.rendered place tree (s.store.2 place) outcome)
  obtain ⟨homes', one, good⟩ := bears_renderBy lays plain (before.upholds stands.toUpholds) stands.honest rfl rendered
  exact ⟨homes', ⟨after.upholds one.upholds, before.shelters.trans (one.shelters.trans after.shelters)⟩, good⟩

/-- A container that was unmounted is noted to show nothing. -/
theorem abides_unmounting {place : NodeId} {answer : Bool} (stands : Stands honest depth homes s)
    (unmounted : Returns (unmount place) s answer u) :
    Abides honest depth homes homes s { u with store := (u.store.1, u.store.2.put place []) } := by
  obtain ⟨one, kept⟩ := bears_unmount stands.toUpholds unmounted
  have after := calm_storing u (u.store.1, u.store.2.put place [])
  refine ⟨⟨?_, one.shelters.trans after.shelters⟩, ?_⟩
  · rw [kept] at after ⊢
    exact after.upholds one.upholds
  · rw [kept]
    exact stands.honest

theorem behaves_perform {level : Level Document (σ × Display)} (lays : Lays honest level.invocation)
    (invokes : ∀ c props, Behaves honest (level.invoke c props) fun r => ∀ tree, r = .ok tree → tree.Plain)
    (x : Action σ α) (plain : x.Plain honest good) : Behaves honest (perform level x.noting) good := by
  induction x with
  | done a => exact behaves_pure plain
  | load next ih =>
      constructor
      intro depth homes s t a stands returned
      obtain ⟨_, _, got, returned⟩ := returns_bind.mp returned
      obtain ⟨rfl, rfl⟩ := returns_get.mp got
      exact (ih _ (plain _ stands.honest)).behaves stands returned
  | store w next ih =>
      constructor
      intro depth homes s t a stands returned
      obtain ⟨_, _, got, returned⟩ := returns_bind.mp returned
      obtain ⟨rfl, rfl⟩ := returns_get.mp got
      obtain ⟨_, u, stored, returned⟩ := returns_bind.mp returned
      obtain rfl := returns_modify.mp stored
      have one : Abides honest depth homes homes s { s with store := (w, s.store.2) } :=
        ⟨(calm_storing s _).bears stands.toUpholds, plain.1⟩
      obtain ⟨⟨homes', two⟩, holds⟩ := (ih plain.2).behaves one.stands returned
      exact ⟨⟨homes', one.trans two⟩, holds⟩
  | report rs next ih =>
      have told : Behaves honest (reportAll rs : RenderM Document (σ × Display) Unit) fun _ => True :=
        behaves_modify (fun _ => ⟨⟨rfl, rfl, fun _ => rfl⟩, rfl, rfl⟩) fun _ => rfl
      exact told.bind fun _ _ => ih plain
  | useState type initial next begun ih =>
      exact (behaves_useStateBy type ((begun plain.1).map _)).bind fun r _ => ih r (plain.2 r)
  | getCell setter next ih =>
      have read : Behaves honest (getCell setter : RenderM Document (σ × Display) δ.Datum) fun _ => True :=
        behaves_calm fun {s d t} returned => by
          obtain ⟨-, rfl⟩ := returns_getCell.mp returned
          exact ⟨(Undisturbed.refl s).calm, rfl⟩
      exact read.bind fun d _ => ih d (plain d)
  | updateCell setter change next ih =>
      have written : Behaves honest (updateCell setter change : RenderM Document (σ × Display) Unit) fun _ => True :=
        behaves_calm fun returned => ⟨(Undisturbed.updateCell returned).calm, store_updateCell returned⟩
      exact written.bind fun _ _ => ih plain
  | invoke c props next ih => exact (invokes c props).bind fun r good => ih r (plain r good)
  | render tree place next ih =>
      constructor
      intro depth homes s t a stands returned
      obtain ⟨_, _, got, returned⟩ := returns_bind.mp returned
      obtain ⟨rfl, rfl⟩ := returns_get.mp got
      obtain ⟨_, u, noted, returned⟩ := returns_bind.mp returned
      obtain rfl := returns_modify.mp noted
      obtain ⟨outcome, v, rendered, returned⟩ := returns_bind.mp returned
      obtain ⟨_, _, got, returned⟩ := returns_bind.mp returned
      obtain ⟨rfl, rfl⟩ := returns_get.mp got
      obtain ⟨_, w, noted, returned⟩ := returns_bind.mp returned
      obtain rfl := returns_modify.mp noted
      -- The display is noted before and after the render; the two notes and the render are taken as one step.
      obtain ⟨homes', one⟩ := abides_rendering lays plain.1 stands rendered
      obtain ⟨⟨homes'', two⟩, holds⟩ := (ih _ (plain.2 _)).behaves one.stands returned
      exact ⟨⟨homes'', one.trans two⟩, holds⟩
  | unmount place next ih =>
      constructor
      intro depth homes s t a stands returned
      obtain ⟨answer, u, unmounted, returned⟩ := returns_bind.mp returned
      obtain ⟨_, _, got, returned⟩ := returns_bind.mp returned
      obtain ⟨rfl, rfl⟩ := returns_get.mp got
      obtain ⟨_, w, noted, returned⟩ := returns_bind.mp returned
      obtain rfl := returns_modify.mp noted
      have one := abides_unmounting stands unmounted
      obtain ⟨⟨homes', two⟩, holds⟩ := (ih _ (plain _)).behaves one.stands returned
      exact ⟨⟨homes', one.trans two⟩, holds⟩
  | flush next ih => exact (behaves_flushBy lays).bind fun r _ => ih r (plain r)

theorem abides_withCalls {f : Calls → Calls} {step : RenderM Document (σ × Display) α} {a : α}
    (stands : Stands honest depth homes s) (returned : Returns (withCalls f step) s a t)
    (same : ∀ c, (f c).created = c.created) :
    ∃ u v, Stands honest depth homes u ∧ u.activations = s.activations ∧ Returns step u a v ∧
      ∀ {homes'}, Abides honest depth homes homes' u v → Abides honest depth homes homes' s t := by
  obtain ⟨v, stepped, rfl⟩ := returns_withCalls.mp returned
  have before : Calm s { s with calls := f s.calls } := ⟨⟨rfl, rfl, fun _ => rfl⟩, rfl, same _⟩
  have after : Calm v { v with calls := { s.calls with created := v.calls.created } } :=
    ⟨⟨rfl, rfl, fun _ => rfl⟩, rfl, rfl⟩
  have one := before.abides rfl stands
  exact ⟨_, v, one.stands, rfl, stepped, fun two => (one.trans two).trans (after.abides rfl two.stands)⟩

theorem behaves_invoking {a : ActivationId} {body : RenderM Document (σ × Display) (Fallible Tree)}
    {good : Fallible Tree → Prop} (inner : Behaves honest body good) : Behaves honest (invoking a body) good := by
  refine .bind (behaves_modify (fun s => ⟨⟨rfl, rfl, fun b => ?_⟩, rfl, rfl⟩) fun _ => rfl) fun _ _ => ?_
  · exact Activations.face?_update _ _ fun _ _ => rfl
  have ran : Behaves honest (withCalls ({ · with current := some a }) body) good := by
    constructor
    intro depth homes s t answer stands returned
    obtain ⟨u, v, began, -, stepped, within⟩ := abides_withCalls stands returned fun _ => rfl
    obtain ⟨⟨homes', one⟩, holds⟩ := inner.behaves began stepped
    exact ⟨⟨homes', within one⟩, holds⟩
  refine ran.bind fun result holds => ?_
  have checked : Behaves honest (checkCellCount a : RenderM Document (σ × Display) Unit) fun _ => True :=
    behaves_calm fun returned => by
      refine ⟨(Undisturbed.checkCellCount returned).calm, ?_⟩
      obtain ⟨_, _, rfl, -⟩ := returns_checkCellCount returned
      rfl
  dsimp only
  split
  · exact checked.bind fun _ _ => behaves_pure holds
  · exact behaves_pure holds

/-- An activation is invoked by a body that behaves, and its output is paired. -/
theorem lays_renderOutputBy {body : Component → Props → RenderM Document (σ × Display) (Fallible Tree)}
    (lays : Lays honest invocation)
    (inner : ∀ c props, Behaves honest (body c props) fun r => ∀ tree, r = .ok tree → tree.Plain) :
    Lays honest (renderOutputBy invocation body) where
  invokes {a component props depth homes s t outcome} stands known returned := by
    obtain ⟨_, _, told, rest⟩ := returns_bind.mp returned
    obtain ⟨result, u, ran, rest⟩ := returns_bind.mp rest
    obtain ⟨⟨_, began⟩, -⟩ := (behaves_report _).behaves stands told
    obtain ⟨⟨homes', one⟩, plain⟩ := (behaves_invoking (inner component props)).behaves began.stands ran
    have one := began.trans one
    have known := one.shelters.extended.known known
    cases result with
    | error e =>
        obtain ⟨rfl, rfl⟩ := returns_pure.mp rest
        exact ⟨homes', one, fun _ => nofun⟩
    | ok tree =>
        obtain ⟨plans, v, paired, ended⟩ := returns_bind.mp rest
        obtain ⟨rfl, rfl⟩ := returns_pure.mp ended
        obtain ⟨_, _, got, paired⟩ := returns_bind.mp paired
        obtain ⟨rfl, rfl⟩ := returns_get.mp got
        obtain ⟨w, x, began, same, stepped, within⟩ := abides_withCalls one.stands paired fun _ => rfl
        obtain ⟨homes'', two, laid⟩ := abides_pairAll lays tree.flattenOutput (plain tree rfl).flattenOutput began
          (fun b same => by cases same; exact known) (one.stands.houses.outputs a) stepped
        refine ⟨homes'', one.trans (within two), fun rendered same => ?_⟩
        cases plans with
        | error e => cases same
        | ok plans =>
            cases same
            refine ⟨rfl, ?_⟩
            rw [two.shelters.extended.firm_eq known]
            exact laid plans rfl

variable {program : Program σ}

/-- At every level, components leave everything upheld and are paired where they are at home. -/
theorem behaves_level (plain : program.Plain honest) (below : Nat) :
    Lays honest (level (D := Document) program.noting below).invocation ∧
      ∀ c props, Behaves honest ((level (D := Document) program.noting below).invoke c props)
        fun r => ∀ tree, r = .ok tree → tree.Plain := by
  induction below with
  | zero => exact ⟨⟨fun _ _ returned => (returns_abort.mp returned).elim⟩, fun _ _ => behaves_abort _⟩
  | succ below ih =>
      obtain ⟨lays, invokes⟩ := ih
      have bodies (c : Component) (props : Props) := behaves_perform lays invokes _ (plain.component c props)
      exact ⟨lays_renderOutputBy lays bodies, bodies⟩

end Performing

end Renderer
end Patchwork
