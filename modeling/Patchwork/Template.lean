import Patchwork.Markup.Forest
import Patchwork.Markup.Site
import Patchwork.Value

/-! Templates: markup with sites at which values are interpolated. A value is never written into the
markup; each site is a token in the text, and after parsing every token is replaced by its value. -/
namespace Patchwork.Template

/-- The values that no site has used yet. A value is used at most once. -/
abbrev Pool := List (Option Value)

abbrev Resolve := StateT Pool (ExceptT RenderError Logged)

def report (r : Report) : Resolve Unit := liftM (m := Logged) (Logged.report r)

/-- The value of a site: null if it has none, or if an earlier site of that number used it. -/
def take (index : Nat) : Resolve Value :=
  modifyGet fun pool => ((pool[index]?.join).getD .null, pool.set index none)

/-- The children that an item of an interpolated list stands for. A list among the items keeps a
fragment of its own. -/
def childrenOfItem : Value → Except RenderError (List Tree)
  | .null => .ok []
  | .primitive p | .tree (.text p) => .ok [.text (.text p.display)]
  | .tree t => .ok [t]
  | .list items => (Value.toTree (.list items)).map ([·])
  | .handler _ => .error (.malformedTree .handler)
  | .style _ => .error (.malformedTree .style)

def childrenOfItems : List Value → Except RenderError (List Tree)
  | [] => .ok []
  | item :: rest => do
      let first ← childrenOfItem item
      let others ← childrenOfItems rest
      return first ++ others

def childrenOf : Value → Except RenderError (List Tree)
  | .list items => childrenOfItems items
  | value => childrenOfItem value

/-- Blank text with a line break is indentation. -/
def isIndentation (cs : List Char) : Bool := Text.allBlank cs && cs.contains '\n'

def segmentChildren : Markup.Segment → Resolve (List Tree)
  | .literal cs => pure (if isIndentation cs then [] else [.text (.text (String.ofList cs))])
  | .site index _ => do
      let value ← take index
      match childrenOf value with
      | .ok children => pure children
      | .error e => throw e

def textChildren : List Markup.Segment → Resolve (List Tree)
  | [] => pure []
  | segment :: rest => do
      let first ← segmentChildren segment
      let others ← textChildren rest
      return first ++ others

def attributeText (name : String) : Value → Resolve String
  | .null => pure ""
  | .primitive p | .tree (.text p) => pure p.display
  | other => do
      report (.ignoredInAttribute other.shape name)
      return ""

def segmentText (name : String) : Markup.Segment → Resolve String
  | .literal cs => pure (String.ofList cs)
  | .site index _ => do
      let value ← take index
      attributeText name value

def joinedText (name : String) : List Markup.Segment → Resolve String
  | [] => pure ""
  | segment :: rest => do
      let first ← segmentText name segment
      let others ← joinedText name rest
      return first ++ others

def isEventName (name : String) : Bool := "on".toList.isPrefixOf name.toList

/-- An attribute that consists of one site can be a handler or a style; any other one is text. -/
def attributeValue (name : String) (written : List Char) : Resolve AttrValue := do
  match Markup.segments written with
  | [.site index _] =>
      match ← take index with
      | .handler h =>
          if isEventName name then return .handler h
          else return .text (← attributeText name (.handler h))
      | .style s => return .style s
      | value => return .text (← attributeText name value)
  | segments =>
      let text ← joinedText name segments
      report (.resolvedAttribute name (.of text))
      return .text text

def attributes : List (String × List Char) → Resolve Attributes
  | [] => pure .empty
  | (name, written) :: rest => do
      let value ← attributeValue name written
      let others ← attributes rest
      return others.insert name value

mutual

/-- The children that a node of markup stands for. Blank text between elements stands for none. -/
def children : Markup → Resolve (List Tree)
  | .text cs =>
      if Text.allBlank cs then pure [] else textChildren (Markup.segments cs)
  | .element tag written nodes => do
      let attributes ← attributes written
      let inner ← childrenOfAll nodes
      return [.element tag attributes inner]

def childrenOfAll : List Markup → Resolve (List Tree)
  | [] => pure []
  | node :: rest => do
      let first ← children node
      let others ← childrenOfAll rest
      return first ++ others

end

def interleave (index : Nat) : List String → List Char
  | [] => []
  | [part] => part.toList
  | part :: rest => part.toList ++ Markup.siteToken index ++ interleave (index + 1) rest

/-- One element stands for itself, anything else for a fragment. -/
def root : List Tree → Tree
  | [.element tag attributes children] => .element tag attributes children
  | nodes => .fragment nodes

/-- Resolves a template of literal parts with one value between each part and the next. -/
def parse (parts : List String) (values : List Value) : Logged (Except RenderError Tree) := do
  Logged.report (.parsing parts.length values.length)
  if parts.length ≠ values.length + 1 then
    return .error (.templateArity (parts.length - 1) values.length)
  let forest ← Markup.parse (interleave 0 parts)
  let resolved ← (childrenOfAll forest).run (values.map some) |>.run
  return resolved.map fun (nodes, _) => root nodes

def cons (c : Char) : List (List Char) → List (List Char)
  | [] => [[c]]
  | part :: rest => (c :: part) :: rest

/-- The parts of a format text. A doubled brace is a literal one, and an empty pair of braces
separates two parts. -/
def formatParts : List Char → List (List Char)
  | '{' :: '{' :: rest => cons '{' (formatParts rest)
  | '}' :: '}' :: rest => cons '}' (formatParts rest)
  | '{' :: '}' :: rest => [] :: formatParts rest
  | c :: rest => cons c (formatParts rest)
  | [] => [[]]

/-- Resolves a template that marks its sites by empty pairs of braces. -/
def parseFormat (markup : String) (values : List Value) : Logged (Except RenderError Tree) :=
  parse ((formatParts markup.toList).map String.ofList) values

end Patchwork.Template
