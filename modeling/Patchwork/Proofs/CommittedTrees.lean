import Patchwork.Proofs.ProgramMemory

/-! Noting what is shown. An activation knows the tree that it has committed; what was last rendered into a
container is known to no one. A program that notes it remembers, besides what it remembers anyway, the
positions that every container shows, and does all else as before. -/
namespace Patchwork

abbrev Display := NodeId → List Flat

namespace Display

def empty : Display := fun _ => []

def put (display : Display) (place : NodeId) (flats : List Flat) : Display :=
  fun other => if other = place then flats else display other

@[simp] theorem put_self (display : Display) (place : NodeId) (flats : List Flat) :
    display.put place flats place = flats := if_pos rfl

theorem put_of_ne (display : Display) (flats : List Flat) {place other : NodeId} (differs : other ≠ place) :
    display.put place flats other = display other := if_neg differs

/-- A render of `tree`, during which what the container shows was set aside, is over. If it failed, the container
shows what it showed `before`, or if that was nothing then what was rendered into it meanwhile. -/
def rendered (display : Display) (place : NodeId) (tree : Tree) (before : List Flat) :
    Except RenderError Unit → Display
  | .ok () => display.put place tree.flatten
  | .error _ => if before = [] then display else display.put place before

end Display

/-- The same computation, which also remembers what containers show. -/
def Action.noting {σ : Type} {δ : StateData} [HasStateData σ δ] {α : Type} : Action σ α → Action (σ × Display) α
  | .done a => .done a
  | .load next => .load fun now => (next now.1).noting
  | .store s next => .load fun now => .store (s, now.2) next.noting
  | .report rs next => .report rs next.noting
  | .useState type initial next =>
      .useState type initial.noting fun r => (next r).noting
  | .getCell setter next => .getCell setter fun d => (next d).noting
  | .updateCell setter change next => .updateCell setter change next.noting
  | .invoke component props next => .invoke component props fun r => (next r).noting
  | .render tree place next => .load fun before => .store (before.1, before.2.put place []) <|
      .render tree place fun r => .load fun now =>
        .store (now.1, now.2.rendered place tree (before.2 place) r) (next r).noting
  | .unmount place next => .unmount place fun b => .load fun now =>
      .store (now.1, now.2.put place []) (next b).noting
  | .flush next => .flush fun r => (next r).noting

def Program.noting {σ : Type} {δ : StateData} [HasStateData σ δ] (program : Program σ) : Program (σ × Display) where
  component c props := (program.component c props).noting
  handler h event := (program.handler h event).noting

namespace Renderer

variable {σ α : Type} {δ : StateData} [HasStateData σ δ] {program : Program σ}

theorem follows_note {g : Renderer Document (σ × Display) → Display}
    {x : Renderer Document (σ × Display) → RenderM Document (σ × Display) α} {y : RenderM Document σ α}
    (inner : ∀ s, Follows Prod.fst (x s) y) :
    Follows Prod.fst (get >>= fun s => modify ({ · with store := (s.store.1, g s) }) >>= fun _ => x s) y :=
  ⟨fun s => (inner s).follows { s with store := (s.store.1, g s) }⟩

theorem follows_perform {noted : Level Document (σ × Display)} {level : Level Document σ}
    (inner : ∀ a c props, Follows Prod.fst (noted.invocation a c props) (level.invocation a c props))
    (invokes : ∀ c props, Follows Prod.fst (noted.invoke c props) (level.invoke c props)) (x : Action σ α) :
    Follows Prod.fst (perform noted x.noting) (perform level x) := by
  induction x with
  | done a => exact follows_pure a
  | load next ih => exact follows_get fun s => ih s.store.1
  | store w next ih => exact ⟨fun s => ih.follows { s with store := (w, s.store.2) }⟩
  | report rs next ih => exact (follows_reportAll rs).bind fun _ => ih
  | useState type initial next begun ih => exact (follows_useStateBy type (begun.map _)).bind ih
  | getCell setter next ih => exact (alongside_getCell (alongside_follows _) setter).bind ih
  | updateCell setter change next ih => 
      exact (alongside_updateCell (alongside_follows _) setter change).bind fun _ => ih
  | invoke c props next ih => exact (invokes c props).bind ih
  | render tree place next ih =>
      exact follows_note fun _ => (alongside_renderBy (alongside_follows _) inner tree place).bind fun r =>
        follows_note fun _ => ih r
  | unmount place next ih =>
      exact (alongside_unmount (alongside_follows _) place).bind fun b => follows_note fun _ => ih b
  | flush next ih => exact (alongside_flushBy (alongside_follows _) inner).bind ih

theorem follows_level (program : Program σ) (below : Nat) :
    (∀ a c props, Follows Prod.fst ((level program.noting below).invocation a c props)
      ((level program below).invocation a c props)) ∧
    ∀ c props,
      Follows Prod.fst ((level program.noting below).invoke c props) ((level program below).invoke c props) := by
  induction below with
  | zero => exact ⟨fun _ _ _ => follows_abort _, fun _ _ => follows_abort _⟩
  | succ below ih =>
      obtain ⟨inner, invokes⟩ := ih
      have bodies (c : Component) (props : Props) := follows_perform inner invokes (program.component c props)
      exact ⟨follows_renderOutputBy inner bodies, bodies⟩

/-- A program does the same whether or not it is noted what is shown. -/
theorem follows_top (x : Action σ α) :
    Follows Prod.fst (perform (top program.noting) x.noting) (perform (top program) x) :=
  follows_perform (follows_level program maxLevels).1 (follows_level program maxLevels).2 x

theorem follows_runUntilIdle : Follows Prod.fst (runUntilIdle program.noting) (runUntilIdle program) :=
  alongside_runUntilIdle (alongside_follows _) (follows_level program maxLevels).1

theorem follows_callHandlers (event : Event) (hs : List Handler) :
    Follows Prod.fst (callHandlers program.noting event hs) (callHandlers program event hs) := by
  induction hs with
  | nil => exact follows_pure _
  | cons h rest ih => exact (follows_top (program.handler h event)).bind fun _ => ih.bind fun _ => follows_pure _

theorem follows_dispatch (target : NodeId) (category : Category) (value : Option String) :
    Follows Prod.fst (dispatch program.noting target category value) (dispatch program target category value) := by
  refine (follows_report _).bind fun _ => ?_
  cases value with
  | none =>
      exact follows_get fun _ => (follows_report _).bind fun _ => (follows_callHandlers ..).bind fun _ => follows_pure _
  | some text =>
      exact ((alongside_follows _).onDom _).bind fun _ => follows_get fun _ => (follows_report _).bind fun _ =>
        (follows_callHandlers ..).bind fun _ => follows_pure _

end Renderer
end Patchwork
