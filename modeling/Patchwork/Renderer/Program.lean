import Patchwork.Renderer.Activation
import Patchwork.Report

/-! What components and handlers do, as data: a tree of requests to the renderer, each followed by what
is done with its answer. A program says what every component and every handler does; `σ` is what it
remembers between the calls. -/
namespace Patchwork

variable {σ : Type} {δ : StateData} [HasStateData σ δ]

/-- A computation that ends with an `α` and may ask the renderer for things on the way. -/
inductive Action (σ : Type) {δ : StateData} [HasStateData σ δ] : Type → Type 1
  | done (a : α) : Action σ α
  | load (next : σ → Action σ α) : Action σ α
  | store (s : σ) (next : Action σ α) : Action σ α
  | report (reports : List Report) (next : Action σ α) : Action σ α
  /-- The next state cell at a type, made with what `initial` ends with if it does not exist yet. -/
  | useState (type : δ.DataType) (initial : Action σ (δ.DatumOf type))
      (next : Except RenderError (δ.Datum × Setter δ.DataType) → Action σ α) : Action σ α
  | getCell (setter : Setter δ.DataType) (next : δ.Datum → Action σ α) : Action σ α
  | updateCell (setter : Setter δ.DataType) (change : δ.Datum → δ.Datum) (next : Action σ α) : Action σ α
  /-- Invokes a component as part of the current activation. -/
  | invoke (component : Component) (props : Props) (next : Except RenderError Tree → Action σ α) : Action σ α
  | render (tree : Tree) (container : NodeId) (next : Except RenderError Unit → Action σ α) : Action σ α
  | unmount (container : NodeId) (next : Bool → Action σ α) : Action σ α
  | flush (next : Except FlushError Nat → Action σ α) : Action σ α

namespace Action

def bind {α β : Type} : Action σ α → (α → Action σ β) → Action σ β
  | done a, f => f a
  | load next, f => .load fun s => bind (next s) f
  | store s next, f => .store s (bind next f)
  | report rs next, f => .report rs (bind next f)
  | useState type initial next, f => .useState type initial fun r => bind (next r) f
  | getCell setter next, f => .getCell setter fun d => bind (next d) f
  | updateCell setter change next, f => .updateCell setter change (bind next f)
  | invoke component props next, f => .invoke component props fun r => bind (next r) f
  | render tree container next, f => .render tree container fun r => bind (next r) f
  | unmount container next, f => .unmount container fun b => bind (next b) f
  | flush next, f => .flush fun r => bind (next r) f

instance : Monad (Action σ) where
  pure := done
  bind := bind

theorem bind_done (x : Action σ α) : x.bind done = x := by
  induction x with
  | done => rfl
  | load next ih => simp only [bind, ih]
  | store s next ih => simp only [bind, ih]
  | report rs next ih => simp only [bind, ih]
  | useState type initial next _ ih => simp only [bind, ih]
  | getCell setter next ih => simp only [bind, ih]
  | updateCell setter change next ih => simp only [bind, ih]
  | invoke component props next ih => simp only [bind, ih]
  | render tree container next ih => simp only [bind, ih]
  | unmount container next ih => simp only [bind, ih]
  | flush next ih => simp only [bind, ih]

theorem bind_assoc (x : Action σ α) (f : α → Action σ β) (g : β → Action σ γ) :
    (x.bind f).bind g = x.bind fun a => (f a).bind g := by
  induction x with
  | done => rfl
  | load next ih => simp only [bind, ih]
  | store s next ih => simp only [bind, ih]
  | report rs next ih => simp only [bind, ih]
  | useState type initial next _ ih => simp only [bind, ih]
  | getCell setter next ih => simp only [bind, ih]
  | updateCell setter change next ih => simp only [bind, ih]
  | invoke component props next ih => simp only [bind, ih]
  | render tree container next ih => simp only [bind, ih]
  | unmount container next ih => simp only [bind, ih]
  | flush next ih => simp only [bind, ih]

instance : LawfulMonad (Action σ) := LawfulMonad.mk' (Action σ) bind_done (fun _ _ => rfl) bind_assoc

def change (f : σ → α × σ) : Action σ α := load fun s => .store (f s).2 (done (f s).1)

def memory : Action σ σ := load done

def ofLogged (l : Logged α) : Action σ α := report l.reports (done l.value)

/-- Whether a computation asks for renders, unmounts or flushes, whatever answers it gets. -/
inductive CallsBack : {α : Type} → Action σ α → Prop
  | render : CallsBack (.render tree container next)
  | unmount : CallsBack (.unmount container next)
  | flush : CallsBack (.flush next)
  | load (s : σ) : CallsBack (next s) → CallsBack (.load next)
  | store : CallsBack next → CallsBack (.store s next)
  | report : CallsBack next → CallsBack (.report rs next)
  | initial {initial : Action σ (δ.DatumOf type)} : CallsBack initial → CallsBack (.useState type initial next)
  | useState (r : Except RenderError (δ.Datum × Setter δ.DataType)) :
      CallsBack (next r) → CallsBack (.useState type initial next)
  | getCell (d : δ.Datum) : CallsBack (next d) → CallsBack (.getCell setter next)
  | updateCell : CallsBack next → CallsBack (.updateCell setter f next)
  | invoke (r : Except RenderError Tree) :
      CallsBack (next r) → CallsBack (.invoke component props next)

end Action

/-- What components and handlers do. A handler answers whether it prevented the default. -/
structure Program (σ : Type) {δ : StateData} [HasStateData σ δ] where
  component : Component → Props → Action σ (Except RenderError Tree)
  handler : Handler → Event → Action σ Bool

end Patchwork
