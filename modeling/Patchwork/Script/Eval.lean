import Patchwork.Renderer.Program
import Patchwork.Script.Basic
import Patchwork.Template

/-! Running scripts: every expression and statement is a computation that asks the renderer for what it
needs. Operands are evaluated from left to right, and the first error ends the evaluation. -/
namespace Patchwork.Script

abbrev Eval := ExceptT RenderError (Action World)

def change (f : World → α × World) : Eval α := ExceptT.lift (Action.change f)

def ask (a : Action World α) : Eval α := ExceptT.lift a

def ofLogged (l : Logged (Except RenderError α)) : Eval α := ExceptT.mk (Action.ofLogged l)

def ofExcept (e : Except RenderError α) : Eval α := ExceptT.mk (pure e)

def findSetter (scope : Scope) : SetterName → Eval (Option Setter)
  | .scoped name => pure (scope.setters.lookup name)
  | .exported name => change fun w => (w.lastSetter? name, w)

def makeProps : Item → Eval Props
  | .null => pure none
  | item => do return some (← change (World.makeParcel item.toDatum))

/-- Evaluates an item for each of `count` numbers from `start` on, after those that were made, newest
first, before. -/
def repeatEval (item : Nat → Eval Item) :
    (count start : Nat) → (made : List Item) → Eval (List Item)
  | 0, _, made => pure made.reverse
  | count + 1, start, made => do
      let next ← item start
      repeatEval item count (start + 1) (next :: made)

mutual

def Expr.eval (source : Source) (scope : Scope) : Expr → Eval Item
  | .null => return .null
  | .bool b => return .bool b
  | .int i => return .int i
  | .float n => return .float n
  | .text s => return .text s
  | .list items => do return .value (.list ((← evalAll source scope items).map Item.toValue))
  | .primitiveNumber n => return .value (.primitive (.number n))
  | .format markup values => do
      let values ← evalAll source scope values
      return .value (.tree (← ofLogged (Template.parseFormat markup (values.map Item.toValue))))
  | .template parts values => do
      let values ← evalAll source scope values
      return .value (.tree (← ofLogged (Template.parse parts (values.map Item.toValue))))
  | .element tag attributes children => do
      let attributes ← evalAttributes source scope attributes
      let children ← evalTrees source scope children
      return .value (.tree (.element tag (.ofList attributes) children))
  | .fragment children => do return .value (.tree (.fragment (← evalTrees source scope children)))
  | .leaf e => do return .value (.tree (.text (← e.eval source scope).toPrimitive))
  | .style declarations => do
      return .value (.style (.ofList (← evalDeclarations source scope declarations)))
  | .handler name => do return .value (.handler (← change (World.namedHandler source name)))
  | .onEvent body => do return .value (.handler (← change (World.makeHandler ⟨none, body, scope⟩)))
  | .component name props => do
      let props ← makeProps (← props.eval source scope)
      return .value (.tree (.component ⟨source.component name, props⟩))
  | .inline name props => do
      let item ← props.eval source scope
      let parcel ← change (World.makeParcel item.toDatum)
      let tree ← ofExcept (← ask (.invoke (source.component name) (some parcel) .done))
      return .value (.tree tree)
  | .raw name => do return .value (.tree (.raw (← change (World.namedRaw name))))
  | .value e => do return .value (← e.eval source scope).toValue
  | .child e => do return .value (.tree (← ofExcept (← e.eval source scope).toTree))
  | .var name => return scope.var name
  | .current setter => do
      match ← findSetter scope setter with
      | some setter => return .ofDatum (← ask (.getCell setter .done))
      | none => return .null
  | .event field => return scope.eventField field
  | .add a b => do return (← a.eval source scope).add (← b.eval source scope)
  | .concat items => do
      return .text (String.join ((← evalAll source scope items).map Item.display))
  | .equal a b => do
      let a ← a.eval source scope
      let b ← b.eval source scope
      return .bool (a.toValue.same b.toValue)
  | .less a b => do
      let a ← a.eval source scope
      let b ← b.eval source scope
      return .bool (a.less b)
  | .not a => do return .bool !(← a.eval source scope).isTrue
  | .ite condition yes no => do
      if (← condition.eval source scope).isTrue then yes.eval source scope
      else no.eval source scope
  | .repeated count name item => do
      let count ← count.eval source scope
      let number := match count with
        | .int i => i.toInt.toNat
        | _ => 0
      let items ← repeatEval
        (fun i => item.eval source (scope.bind name (.int (.ofNat i)))) number 0 []
      return .value (.list (items.map Item.toValue))

def evalAll (source : Source) (scope : Scope) : List Expr → Eval (List Item)
  | [] => return []
  | e :: rest => do
      let first ← e.eval source scope
      let others ← evalAll source scope rest
      return first :: others

/-- Evaluates children, each of which must be one before the next is evaluated. -/
def evalTrees (source : Source) (scope : Scope) : List Expr → Eval (List Tree)
  | [] => return []
  | e :: rest => do
      let first ← ofExcept (← e.eval source scope).toTree
      let others ← evalTrees source scope rest
      return first :: others

def evalAttributes (source : Source) (scope : Scope) : List Attr → Eval (List (String × AttrValue))
  | [] => return []
  | a :: rest => do
      let first ← evalAttribute source scope a
      let others ← evalAttributes source scope rest
      return first :: others

def evalAttribute (source : Source) (scope : Scope) : Attr → Eval (String × AttrValue)
  | .mk name value => do return (name, (← value.eval source scope).toAttrValue)

def evalDeclarations (source : Source) (scope : Scope) :
    List Declaration → Eval (List (String × String))
  | [] => return []
  | d :: rest => do
      let first ← evalDeclaration source scope d
      let others ← evalDeclarations source scope rest
      return first :: others

def evalDeclaration (source : Source) (scope : Scope) : Declaration → Eval (String × String)
  | .mk property value => do
      let property ← property.eval source scope
      let value ← value.eval source scope
      return (property.display, value.display)

end

def Expr.evalTree (source : Source) (scope : Scope) (e : Expr) : Eval Tree := do
  ofExcept (← e.eval source scope).toTree

/-- How far a body got: to be gone on with, or ended by a child. -/
inductive Flow
  | next (scope : Scope)
  | ended (child : Tree)

def note (text : String) : Eval Unit := change fun w => ((), w.addNote text)

mutual

def Stmt.run (source : Source) (scope : Scope) : Stmt → Eval Flow
  | .state name type initial exported isLazy => do
      let item ← initial.eval source scope
      let make : Action World (StateData.scalars.DatumOf type) := Action.change fun w =>
        (⟨item.asDatum type, item.type_asDatum type⟩, if isLazy then w.addNote "lazy init" else w)
      let (datum, setter) ← ofExcept (← ask (.useState type make .done))
      let scope := scope.bind name (.ofDatum datum)
      let scope := { scope with setters := (name, setter) :: scope.setters }
      if let some exportName := exported then
        let item ← exportName.eval source scope
        change fun w => ((), w.addExport item.display setter)
      return .next scope
  | .letVar name value => do return .next (scope.bind name (← value.eval source scope))
  | .ite condition yes no => do
      if (← condition.eval source scope).isTrue then runAll source scope yes
      else runAll source scope no
  | .fail message => do throw (.component (← message.eval source scope).display)
  | .requireProps name type => do
      return .next (scope.bind name (.ofDatum (← ofExcept (scope.props.require type))))
  | .getProps name type =>
      return .next (scope.bind name (((scope.props.get? type).map Item.ofDatum).getD .null))
  | .noProps name => return .next (scope.bind name (.bool scope.props.isNone))
  | .note text => do
      note (← text.eval source scope).display
      return .next scope
  | .set setter value => do
      let item ← value.eval source scope
      if let some setter := ← findSetter scope setter then
        ask (.updateCell setter (fun _ => item.asDatum setter.type) (.done ()))
      return .next scope
  | .update setter amount => do
      let amount ← amount.eval source scope
      if let some setter := ← findSetter scope setter then
        ask (.updateCell setter (updated amount) (.done ()))
      return .next scope
  | .yield child => do return .ended (← child.evalTree source scope)
  | .preventDefault => do
      change fun w => ((), { w with prevented := true })
      return .next scope
  | .render tree container => do
      let tree ← tree.evalTree source scope
      ofExcept (← ask (.render tree container .done))
      return .next scope
  | .unmount container => do
      let unmounted ← ask (.unmount container .done)
      note ("unmount: " ++ (if unmounted then "true" else "false"))
      return .next scope
  | .flush => do
      match ← ask (.flush .done) with
      | .ok count => note ("flush: " ++ toString count)
      | .error e => note ("flush error: " ++ e.message)
      return .next scope

def runAll (source : Source) (scope : Scope) : List Stmt → Eval Flow
  | [] => return .next scope
  | s :: rest => do
      match ← s.run source scope with
      | .next scope => runAll source scope rest
      | .ended child => return .ended child

end

/-- What a component shows: the child that its body ends with, or nothing. -/
def Source.renderComponent (source : Source) (c : Component) (props : Props) : Eval Tree := do
  match ← runAll source { Scope.empty with props } (source.body c) with
  | .next _ => return .fragment []
  | .ended child => return child

/-- Runs a handler's body; answers whether it prevented the default. An error ends the body with a
note. -/
def Source.runHandler (source : Source) (h : Handler) (event : Event) : Action World Bool := do
  let world ← Action.memory
  match world.closures[h.id]? with
  | none => return false
  | some closure =>
      Action.change fun w => ((), { w with prevented := false })
      match ← (runAll source { closure.scope with event := some event } closure.body).run with
      | .ok _ => Action.change fun w => (w.prevented, w)
      | .error e =>
          Action.change fun w => (w.prevented, w.addNote ("handler error: " ++ e.message))

def Source.program (source : Source) : Program World where
  component c props := (source.renderComponent c props).run
  handler := source.runHandler

end Patchwork.Script
