import Patchwork.Proofs.NestedPrograms

/-! A page that is served by a renderer. It renders, runs tasks and dispatches events, and it changes the document
itself, as long as it leaves alone the nodes that the renderer keeps track of. Between its calls every container
shows what was last rendered into it. -/
namespace Patchwork

open Mounted (items itemsAll)

namespace Document

def typed (d : Document) (n : NodeId) : Option String → Document
  | none => d
  | some text => (d.setValue n text).value

theorem worn?_typed (d : Document) (n : NodeId) (value : Option String) (k : NodeId) :
    (d.typed n value).worn? k = d.worn? k := by
  cases value with
  | none => rfl
  | some text =>
      rw [typed, setValue, onElement]
      cases found : (d.node? n).map Node.content with
      | none => rfl
      | some content =>
          obtain ⟨node, there, rfl⟩ := Option.map_eq_some_iff.mp found
          cases whole : node.content with
          | text => rfl
          | element e =>
              have kept (e' : Element) (same : { e' with value := none } = { e with value := none }) :
                  (d.modify n ({ · with content := .element e' })).worn? k = d.worn? k := by
                rw [worn?, node?_modify, worn?]
                split
                next here =>
                  rw [here, there, Option.map_some, Option.map_some, Option.map_some, whole]
                  exact congrArg (fun e => some (Content.element e)) same
                next => rfl
              dsimp only
              split
              · exact kept { e with value := some text } rfl
              · exact kept e rfl

theorem alters_typed (d : Document) (n : NodeId) (value : Option String) : d.Alters n (d.typed n value) := by
  cases value with
  | none => exact .refl d
  | some text => exact .onElement ..

end Document

namespace Renderer

section Leaving

variable {σ : Type} {δ : StateData} [HasStateData σ δ] {honest : σ → Prop} {depth : NodeId → Nat} {homes : Homes}
  {shown : Display}
  {s : Renderer Document σ} {dom : Document}

/-- The renderer keeps track of the nodes that it recorded for a container or in the output of an activation. -/
def Minds (s : Renderer Document σ) (n : NodeId) : Prop :=
  (∃ place, .node n ∈ itemsAll (s.mounted place)) ∨ ∃ a, .node n ∈ itemsAll (s.activations.output a)

/-- The document was changed without regard to the renderer, but for the nodes that the renderer keeps track of.
Handles are not given out twice. -/
structure Leaves (s : Renderer Document σ) (dom : Document) : Prop where
  issued : s.dom.issued ≤ dom.issued
  vacant : ∀ n : NodeId, n.index ≤ s.dom.issued → s.dom.element? n = none → dom.element? n = none
  worn : ∀ n, s.Minds n → dom.worn? n = s.dom.worn? n
  parent : ∀ n, s.Minds n → dom.parent? n = s.dom.parent? n

theorem leaves_typed (s : Renderer Document σ) (n : NodeId) (value : Option String) :
    s.Leaves (s.dom.typed n value) where
  issued := Nat.le_of_eq (Document.alters_typed s.dom n value).issued.symm
  vacant k _ nothing := Document.element?_eq_none_of_worn (Document.worn?_typed s.dom n value k) nothing
  worn k _ := Document.worn?_typed s.dom n value k
  parent k _ := (Document.alters_typed s.dom n value).parent k

theorem Leaves.upholds (leaves : s.Leaves dom) (upholds : Upholds depth homes shown s) (reports : List Report) :
    Upholds depth homes shown { s with dom, reports } := by
  have remains {n : NodeId} (minded : s.Minds n) : Remains s { s with dom, reports } n :=
    ⟨leaves.worn n minded, leaves.parent n minded, rfl⟩
  have voids : Voids s { s with dom, reports } := ⟨leaves.issued, leaves.vacant⟩
  have sits := upholds.houses.toSits
  refine ⟨⟨⟨sits.rising, fun home => ?_, sits.activations, fun n late => ?_, sits.outputs, fun placed firm => ?_⟩,
    fun a => ?_⟩, fun place => ?_, upholds.created⟩
  · exact Nat.le_trans (sits.nodes home) leaves.issued
  · exact sits.unbound n (Nat.lt_of_le_of_lt leaves.issued late)
  · exact Nat.le_trans (sits.grounded placed firm) leaves.issued
  · exact (upholds.houses.shows a).frame sits (.refl homes) rfl voids (fun n member => remains (.inr ⟨a, member⟩))
      fun _ _ => rfl
  · obtain ⟨k, deep, seated, hangs⟩ := upholds.roots place
    exact ⟨k, deep, seated, hangs.frame voids (fun n member => remains (.inl ⟨place, member⟩)) fun _ _ => rfl⟩

end Leaving

section Hosting

variable {σ : Type} {δ : StateData} [HasStateData σ δ] {honest : σ → Prop} {homes : Homes}
  {s t : Renderer Document (σ × Display)} {program : Program σ}

theorem behaves_top (plain : program.Plain honest) {x : Action σ α} {good : α → Prop} (fair : x.Plain honest good) :
    Behaves honest (perform (top program.noting) x.noting) good :=
  behaves_perform (behaves_level plain maxLevels).1 (behaves_level plain maxLevels).2 x fair

theorem behaves_runTask (plain : program.Plain honest) : Behaves honest (runTask program.noting) fun _ => True := by
  refine behaves_get.bind fun s _ => ?_
  split
  · exact behaves_pure trivial
  refine (behaves_flushBy (behaves_level plain maxLevels).1).bind fun outcome _ => ?_
  split
  · exact behaves_report _
  · exact behaves_pure trivial

theorem behaves_runTasks (plain : program.Plain honest) (limit before : Nat) :
    Behaves honest (runTasks program.noting limit before) fun _ => True := by
  induction limit generalizing before with
  | zero => exact behaves_abort _
  | succ limit ih =>
      refine behaves_get.bind fun s _ => ?_
      split
      · exact behaves_pure trivial
      · exact .bind (behaves_modify (fun _ => ⟨⟨rfl, rfl, fun _ => rfl⟩, rfl, rfl⟩) fun _ => rfl) fun _ _ =>
          (behaves_runTask plain).bind fun _ _ => ih _

theorem behaves_runUntilIdle (plain : program.Plain honest) :
    Behaves honest (runUntilIdle program.noting) fun _ => True :=
  (behaves_report _).bind fun _ _ => (behaves_runTasks plain ..).bind fun _ _ => (behaves_report _).bind fun _ _ =>
    behaves_pure trivial

theorem behaves_callHandlers (plain : program.Plain honest) (event : Event) (hs : List Handler) :
    Behaves honest (callHandlers program.noting event hs) fun _ => True := by
  induction hs with
  | nil => exact behaves_pure trivial
  | cons h rest ih =>
      exact (behaves_top plain (plain.handler h event)).bind fun _ _ => ih.bind fun _ _ => behaves_pure trivial

theorem dispatch_eq {τ : Type} [HasStateData τ δ] (program : Program τ) (s : Renderer Document τ)
    (target : NodeId) (category : Category)
    (value : Option String) : ∃ reports, dispatch program target category value s = (do
      let prevented ← callHandlers program ⟨category, target, (s.dom.typed target value).value? target⟩
        ((s.dom.typed target value).pathHandlers target category)
      return !prevented : RenderM Document τ Bool) { s with dom := s.dom.typed target value, reports } := by
  cases value with
  | none => exact ⟨_, rfl⟩
  | some text => exact ⟨_, rfl⟩

/-- Between the calls of a page that renders no tree that wraps a live node, and that leaves alone the nodes that
the renderer keeps track of. -/
inductive Served (honest : σ → Prop) (program : Program σ) : Renderer Document σ → Prop
  | new (dom : Document) {store : σ} : honest store → Served honest program (new dom store)
  | call {α : Type} {s t : Renderer Document σ} {x : Action σ α} {answer : α} : Served honest program s →
      x.Plain honest (fun _ => True) → Returns (perform (top program) x) s answer t → Served honest program t
  | idle {s t : Renderer Document σ} {count : Nat} : Served honest program s →
      Returns (runUntilIdle program) s count t → Served honest program t
  | dispatch {s t : Renderer Document σ} {target : NodeId} {category : Category} {value : Option String}
      {answer : Bool} : Served honest program s → Returns (dispatch program target category value) s answer t →
      Served honest program t
  | edit {s : Renderer Document σ} {dom : Document} : Served honest program s → s.Leaves dom →
      Served honest program { s with dom }
  | drop {s : Renderer Document σ} : Served honest program s → Served honest program { s with dropped := true }

/-- The same, when it is noted what the containers show. -/
inductive Noted (honest : σ → Prop) (program : Program σ) : Renderer Document (σ × Display) → Prop
  | new (dom : Document) {store : σ} : honest store → Noted honest program (new dom (store, .empty))
  | call {α : Type} {s t : Renderer Document (σ × Display)} {x : Action σ α} {answer : α} : Noted honest program s →
      x.Plain honest (fun _ => True) → Returns (perform (top program.noting) x.noting) s answer t →
      Noted honest program t
  | idle {s t : Renderer Document (σ × Display)} {count : Nat} : Noted honest program s →
      Returns (runUntilIdle program.noting) s count t → Noted honest program t
  | dispatch {s t : Renderer Document (σ × Display)} {target : NodeId} {category : Category} {value : Option String}
      {answer : Bool} : Noted honest program s → Returns (dispatch program.noting target category value) s answer t →
      Noted honest program t
  | edit {s : Renderer Document (σ × Display)} {dom : Document} : Noted honest program s → s.Leaves dom →
      Noted honest program { s with dom }
  | drop {s : Renderer Document (σ × Display)} : Noted honest program s →
      Noted honest program { s with dropped := true }

theorem Follows.returns {τ α : Type} [HasStateData τ δ] {view : σ → τ} {x : RenderM Document σ α}
    {y : RenderM Document τ α} {a : α}
    {s : Renderer Document σ} {t : Renderer Document τ} (follows : Follows view x y)
    (returned : Returns y (s.viewing view) a t) : ∃ u, Returns x s a u ∧ u.viewing view = t := by
  rw [Returns, follows.follows] at returned
  cases ran : x s with
  | error =>
      rw [ran] at returned
      cases returned
  | ok r =>
      rw [ran] at returned
      cases returned
      exact ⟨r.2, ran, rfl⟩

theorem Follows.viewed {τ α : Type} [HasStateData τ δ] {view : σ → τ} {x : RenderM Document σ α}
    {y : RenderM Document τ α} {a : α}
    {s t : Renderer Document σ} (follows : Follows view x y) (returned : Returns x s a t) :
    Returns y (s.viewing view) a (t.viewing view) := by
  rw [Returns, follows.follows, show x s = .ok (a, t) from returned]
  rfl

theorem Noted.served {w : Renderer Document (σ × Display)} (noted : Noted honest program w) :
    Served honest program (w.viewing Prod.fst) := by
  induction noted with
  | new dom good => exact .new dom good
  | call _ fair returned ih => exact .call ih fair ((follows_top _).viewed returned)
  | idle _ returned ih => exact .idle ih (follows_runUntilIdle.viewed returned)
  | dispatch _ returned ih => exact .dispatch ih ((follows_dispatch ..).viewed returned)
  | edit _ leaves ih => exact .edit ih ⟨leaves.issued, leaves.vacant, leaves.worn, leaves.parent⟩
  | drop _ ih => exact .drop ih

/-- Whatever a page comes to, it could have been noted what the containers show. -/
theorem Served.noted {s : Renderer Document σ} (served : Served honest program s) :
    ∃ w, Noted honest program w ∧ w.viewing Prod.fst = s := by
  induction served with
  | new dom good => exact ⟨_, .new dom good, rfl⟩
  | call _ fair returned ih =>
      obtain ⟨w, noted, rfl⟩ := ih
      obtain ⟨u, returned, same⟩ := (follows_top _).returns returned
      exact ⟨u, .call noted fair returned, same⟩
  | idle _ returned ih =>
      obtain ⟨w, noted, rfl⟩ := ih
      obtain ⟨u, returned, same⟩ := follows_runUntilIdle.returns returned
      exact ⟨u, .idle noted returned, same⟩
  | dispatch _ returned ih =>
      obtain ⟨w, noted, rfl⟩ := ih
      obtain ⟨u, returned, same⟩ := (follows_dispatch ..).returns returned
      exact ⟨u, .dispatch noted returned, same⟩
  | edit _ leaves ih =>
      obtain ⟨w, noted, rfl⟩ := ih
      exact ⟨_, .edit noted ⟨leaves.issued, leaves.vacant, leaves.worn, leaves.parent⟩, rfl⟩
  | drop _ ih =>
      obtain ⟨w, noted, rfl⟩ := ih
      exact ⟨_, .drop noted, rfl⟩

theorem Stands.new (dom : Document) {store : σ} (good : honest store) :
    Stands honest (fun _ => 0) (fun _ => none) (Renderer.new dom (store, .empty)) where
  honest := good
  created := List.forall_mem_nil _
  roots place := ⟨0, Nat.le_refl _, .nil, .nil⟩
  houses := by
    have blank (a : ActivationId) : Activations.find? .empty a = none := Arena.get?_empty a.index
    refine ⟨⟨nofun, nofun, fun a => ?_, fun n _ => ?_, fun a => ?_, fun {a _} placed => ?_⟩, fun a r found => ?_⟩
    · exact congrArg Option.isSome (blank a).symm
    · exact Std.ExtTreeMap.getElem?_empty
    · rw [show (Renderer.new dom (store, Display.empty)).activations.output a = [] from
        congrArg (fun r : Option Activation => (r.map Activation.output).getD []) (blank a)]
      exact .nil
    · exact absurd (placed.symm.trans (congrArg (Option.bind · Activation.parent) (blank a))) nofun
    · exact absurd (found.symm.trans (blank a)) nofun

/-- Whatever a page did, and however calls were nested, every container shows what was noted. -/
theorem Noted.stands (noted : Noted honest program s) (plain : program.Plain honest) :
    ∃ homes, Stands honest (fun _ => 0) homes s := by
  have after {t u : Renderer Document (σ × Display)} {α : Type} {step : RenderM Document (σ × Display) α} {a : α}
      {good : α → Prop} (behaves : Behaves honest step good) (returned : Returns step t a u) :
      (∃ homes, Stands honest (fun _ => 0) homes t) → ∃ homes, Stands honest (fun _ => 0) homes u := by
    rintro ⟨homes, stands⟩
    obtain ⟨⟨homes', one⟩, -⟩ := behaves.behaves stands returned
    exact ⟨homes', one.stands⟩
  induction noted with
  | new dom good => exact ⟨_, .new dom good⟩
  | call _ fair returned ih => exact after (behaves_top plain fair) returned ih
  | idle _ returned ih => exact after (behaves_runUntilIdle plain) returned ih
  | @dispatch s t target category value answer _ returned ih =>
      obtain ⟨homes, stands⟩ := ih
      obtain ⟨reports, same⟩ := dispatch_eq program.noting s target category value
      have begun : Stands honest (fun _ => 0) homes { s with dom := s.dom.typed target value, reports } :=
        ⟨(leaves_typed s target value).upholds stands.toUpholds reports, stands.honest⟩
      have called : Behaves honest (do
          let prevented ← callHandlers program.noting ⟨category, target, (s.dom.typed target value).value? target⟩
            ((s.dom.typed target value).pathHandlers target category)
          return !prevented) fun _ => True :=
        (behaves_callHandlers plain _ _).bind fun _ _ => behaves_pure trivial
      exact after called (same.symm.trans returned) ⟨homes, begun⟩
  | edit _ leaves ih =>
      obtain ⟨homes, stands⟩ := ih
      exact ⟨homes, leaves.upholds stands.toUpholds _, stands.honest⟩
  | @drop s _ ih =>
      obtain ⟨homes, stands⟩ := ih
      have calm : Calm s { s with dropped := true } := ⟨⟨rfl, rfl, fun _ => rfl⟩, rfl, rfl⟩
      exact ⟨homes, (calm.abides rfl stands).stands⟩

end Hosting

end Renderer
end Patchwork
