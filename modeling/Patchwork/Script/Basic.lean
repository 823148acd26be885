import Patchwork.Renderer.Activation
import Patchwork.Value
import Std.Data.ExtTreeMap

/-! A small language for component bodies and event handlers: expressions, which evaluate to scalars or
values, and statements. -/
namespace Patchwork.Script

/-- Names a setter: that of a state in scope, or the last one exported under a name. -/
inductive SetterName
  | scoped (name : String)
  | exported (name : String)
deriving DecidableEq, Inhabited

inductive EventField
  | category | target | value
deriving DecidableEq, Inhabited

mutual

inductive Expr
  | null
  | bool (b : Bool)
  | int (i : Int64)
  | float (n : Number)
  | text (s : String)
  | list (items : List Expr)
  /-- A number that is no operand any more. -/
  | primitiveNumber (n : Number)
  | format (markup : String) (values : List Expr)
  | template (parts : List String) (values : List Expr)
  | element (tag : String) (attributes : List Attr) (children : List Expr)
  | fragment (children : List Expr)
  | leaf (e : Expr)
  | style (declarations : List Declaration)
  | handler (name : String)
  /-- A new handler that captures the scope. -/
  | onEvent (body : List Stmt)
  | component (name : String) (props : Expr)
  /-- A component that is invoked at once. -/
  | inline (name : String) (props : Expr)
  | raw (name : String)
  | value (e : Expr)
  | child (e : Expr)
  | var (name : String)
  | current (setter : SetterName)
  | event (field : EventField)
  | add (a b : Expr)
  | concat (items : List Expr)
  | equal (a b : Expr)
  | less (a b : Expr)
  | not (a : Expr)
  | ite (condition yes no : Expr)
  | repeated (count : Expr) (name : String) (item : Expr)

inductive Attr
  | mk (name : String) (value : Expr)

inductive Declaration
  | mk (property value : Expr)

inductive Stmt
  /-- A state cell, whose setter may be exported under a name that is evaluated once the state is in
  scope. -/
  | state (name : String) (type : DatumType) (initial : Expr) (exported : Option Expr)
      (isLazy : Bool)
  | letVar (name : String) (value : Expr)
  | ite (condition : Expr) (yes no : List Stmt)
  | fail (message : Expr)
  | requireProps (name : String) (type : DatumType)
  | getProps (name : String) (type : DatumType)
  /-- Whether there are no props. -/
  | noProps (name : String)
  | note (text : Expr)
  | set (setter : SetterName) (value : Expr)
  | update (setter : SetterName) (amount : Expr)
  | yield (child : Expr)
  | preventDefault
  | render (tree : Expr) (container : NodeId)
  | unmount (container : NodeId)
  | flush

end

instance : Inhabited Expr := ⟨.null⟩

instance : Inhabited Stmt := ⟨.flush⟩

/-- What an expression evaluates to. Scalars are operands; a value is only ever passed on. -/
inductive Item
  | null
  | bool (b : Bool)
  | int (i : Int64)
  | float (n : Number)
  | text (s : String)
  | value (v : Value)
deriving Inhabited

namespace Item

def toValue : Item → Value
  | null => .null
  | bool b => .primitive (.bool b)
  | int i => .primitive (.number (.ofInt i.toInt))
  | float n => .primitive (.number n)
  | text s => .primitive (.text s)
  | value v => v

def toTree (i : Item) : Except RenderError Tree := i.toValue.toTree

def display : Item → String
  | null => "null"
  | bool b => if b then "true" else "false"
  | int i => toString i.toInt
  | float n => n.text
  | text s => s
  | value v => v.shape.describe

def isTrue : Item → Bool
  | bool b => b
  | _ => false

def ofDatum : Datum → Item
  | .unit => null
  | .bool b => bool b
  | .int i => int i
  | .float n => float n
  | .text s => text s

def toDatum : Item → Datum
  | bool b => .bool b
  | int i => .int i
  | float n => .float n
  | text s => .text s
  | null | value _ => .unit

/-- An item as a datum of a given type: texts are text forms, only `true` is true, and what is no number
counts as zero. -/
def asDatum : DatumType → Item → Datum
  | .unit, _ => .unit
  | .bool, i => .bool i.isTrue
  | .int, int n => .int n
  | .int, _ => .int 0
  | .float, float n => .float n
  | .float, int n => .float (.ofInt n.toInt)
  | .float, _ => .float (.ofInt 0)
  | .text, i => .text i.display

theorem type_asDatum (type : DatumType) (i : Item) : (i.asDatum type).type = type := by
  cases type <;> cases i <;> rfl

def toPrimitive (i : Item) : Primitive :=
  match i.toValue with
  | .primitive p | .tree (.text p) => p
  | _ => .text i.display

/-- The sum of two numbers. That of two integers is one, and wraps; any other is a float. -/
def add : Item → Item → Item
  | int a, int b => int (a + b)
  | int a, float b => float ((Number.ofInt a.toInt).add b)
  | float a, int b => float (a.add (.ofInt b.toInt))
  | float a, float b => float (a.add b)
  | _, _ => null

def less : Item → Item → Bool
  | int a, int b => a < b
  | _, _ => false

def toAttrValue : Item → AttrValue
  | text s => .text s
  | bool b => .bool b
  | value (.style s) => .style s
  | value (.handler h) => .handler h
  | other => .text other.display

end Item

/-- The sum of two data of one type: numbers add, texts append, truth values are added without carry. -/
def combined : Datum → Datum → Datum
  | .int a, .int b => .int (a + b)
  | .float a, .float b => .float (a.add b)
  | .text a, .text b => .text (a ++ b)
  | .bool a, .bool b => .bool (a ^^ b)
  | datum, _ => datum

def updated (amount : Item) (datum : Datum) : Datum := combined datum (amount.asDatum datum.type)

abbrev Setter := Patchwork.Setter DatumType

/-- What names mean while a body runs. -/
structure Scope where
  vars : List (String × Item)
  setters : List (String × Setter)
  props : Props
  event : Option Event
deriving Inhabited

namespace Scope

def empty : Scope := ⟨[], [], none, none⟩

def bind (s : Scope) (name : String) (i : Item) : Scope := { s with vars := (name, i) :: s.vars }

def var (s : Scope) (name : String) : Item := (s.vars.lookup name).getD .null

def eventField (s : Scope) : EventField → Item
  | .category => (s.event.map fun e => .text e.category.name).getD .null
  | .target => (s.event.map fun e => .int (.ofNat e.target.index)).getD .null
  | .value => ((s.event.bind Event.value).map .text).getD .null

end Scope

/-- What a handler runs, in a copy of the scope it was made in. -/
structure Closure where
  name : Option String
  body : List Stmt
  scope : Scope

/-- What a program remembers: its notes, the setters it exported, every handler it made, and what its
names for raw nodes mean. -/
structure World where
  /-- Newest first. -/
  notes : List String
  /-- Newest first. -/
  exported : List (String × Setter)
  closures : Std.ExtTreeMap Nat Closure
  handlers : Dict String Handler
  raws : Dict String RawNode
  rawCount : Nat
  parcels : Nat
  /-- Whether the handler that runs last prevented the default of its event. -/
  prevented : Bool
deriving Inhabited

/-- The code of a program: what each component is and does, and what each named handler does. -/
structure Source where
  components : List (String × Nat × List Stmt)
  handlers : List (String × List Stmt)
deriving Inhabited

namespace Source

def empty : Source := ⟨[], []⟩

def component (s : Source) (name : String) : Component :=
  ⟨((s.components.lookup name).map Prod.fst).getD 0, name⟩

def body (s : Source) (c : Component) : List Stmt :=
  ((s.components.lookup c.code).map Prod.snd).getD []

def handlerBody (s : Source) (name : String) : List Stmt := (s.handlers.lookup name).getD []

end Source

instance : HasStateData World .scalars where

namespace World

def empty : World := ⟨[], [], ∅, .empty, .empty, 0, 0, false⟩

def addNote (text : String) (w : World) : World := { w with notes := text :: w.notes }

def noteList (w : World) : List String := w.notes.reverse

def addExport (name : String) (setter : Setter) (w : World) : World :=
  { w with exported := (name, setter) :: w.exported }

def makeHandler (c : Closure) (w : World) : Handler × World :=
  (⟨w.closures.size⟩, { w with closures := w.closures.insert w.closures.size c })

def namedHandler (source : Source) (name : String) (w : World) : Handler × World :=
  match w.handlers.get? name with
  | some h => (h, w)
  | none =>
      let (h, w) := w.makeHandler ⟨some name, source.handlerBody name, .empty⟩
      (h, { w with handlers := w.handlers.insert name h })

def handlerName (w : World) (h : Handler) : Option String := w.closures[h.id]?.bind Closure.name

def makeRaw (name : String) (wraps : Option NodeId) (w : World) : RawNode × World :=
  let node : RawNode := ⟨w.rawCount, wraps⟩
  (node, { w with raws := w.raws.insert name node, rawCount := w.rawCount + 1 })

/-- The raw node of that name. One that was not made wraps nothing a layer would adopt. -/
def namedRaw (name : String) (w : World) : RawNode × World :=
  match w.raws.get? name with
  | some node => (node, w)
  | none => w.makeRaw name none

/-- The name that means a raw node; none once the name was given to another one. -/
def rawName (w : World) (node : RawNode) : Option String :=
  (w.raws.toList.find? fun (_, other) => other.same node).map Prod.fst

def makeParcel (datum : Datum) (w : World) : Parcel × World :=
  (⟨w.parcels, datum⟩, { w with parcels := w.parcels + 1 })

def setters (w : World) (name : String) : List Setter :=
  ((w.exported.filter (·.1 == name)).map Prod.snd).reverse

def lastSetter? (w : World) (name : String) : Option Setter := w.exported.lookup name

end World
end Patchwork.Script
