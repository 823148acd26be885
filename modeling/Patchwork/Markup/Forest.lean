import Patchwork.Markup.Token
import Patchwork.Report

/-! The forest that markup describes. Closing tags end the innermost element of their name and all
elements inside it; elements that are still open at the end are closed there. Adjacent texts are one
text, and an element keeps the first of several attributes of one name. -/
namespace Patchwork

inductive Markup
  | text (cs : List Char)
  | element (tag : String) (attributes : List (String × List Char)) (children : List Markup)

namespace Markup

/-- Elements that have neither content nor a closing tag. -/
def voidTags : List String :=
  ["area", "base", "br", "col", "embed", "hr", "img", "input", "link", "meta", "source", "track",
    "wbr"]

def isVoid (tag : String) : Bool := voidTags.contains tag

/-- An element whose closing tag has not come yet. Its children are listed newest first. -/
structure Open where
  tag : String
  attributes : List (String × List Char)
  children : List Markup

/-- A forest under construction: finished roots, newest first, and open elements, innermost first. -/
structure Builder where
  roots : List Markup
  openElements : List Open

namespace Builder

def empty : Builder := ⟨[], []⟩

/-- Changes the newest-first list of siblings to which the next node belongs. -/
def onSiblings (f : List Markup → List Markup) (b : Builder) : Builder :=
  match b.openElements with
  | [] => { b with roots := f b.roots }
  | o :: outer => { b with openElements := { o with children := f o.children } :: outer }

def pushText (cs : List Char) : List Markup → List Markup
  | .text before :: rest => .text (before ++ cs) :: rest
  | siblings => .text cs :: siblings

def addText (cs : List Char) (b : Builder) : Builder := b.onSiblings (pushText cs)

def addElement (o : Open) (b : Builder) : Builder :=
  b.onSiblings (.element o.tag o.attributes o.children.reverse :: ·)

def pop (b : Builder) : Builder :=
  match b.openElements with
  | [] => b
  | o :: outer => { b with openElements := outer }.addElement o

def popMany (notice : String → Option Report) : Nat → Builder → Logged Builder
  | 0, b => pure b
  | n + 1, b => do
      if let some report := (b.openElements.head?.map Open.tag).bind notice then
        Logged.report report
      popMany notice n b.pop

def firstOfEach : List (String × List Char) → List (String × List Char)
  | [] => []
  | (name, value) :: rest =>
      (name, value) :: (firstOfEach rest).filter (·.1 ≠ name)

def repeatedNames (seen : List String) : List (String × List Char) → List String
  | [] => []
  | (name, _) :: rest =>
      if seen.contains name then name :: repeatedNames seen rest
      else repeatedNames (name :: seen) rest

def openTag (tag : String) (attributes : List (String × List Char)) (selfClosing : Bool)
    (b : Builder) : Logged Builder :=
  let opened : Open := ⟨tag, firstOfEach attributes, []⟩
  ⟨if selfClosing || isVoid tag then b.addElement opened
    else { b with openElements := opened :: b.openElements },
   (repeatedNames [] attributes).map (.duplicateAttribute · tag)⟩

def closeTag (tag : String) (b : Builder) : Logged Builder :=
  match b.openElements.findIdx? (·.tag == tag) with
  | some inside =>
      b.popMany (fun inner => if inner = tag then none else some (.closedImplicitly inner tag))
        (inside + 1)
  | none => ⟨b, if isVoid tag then [] else [.strayClosingTag tag]⟩

def add (b : Builder) : Token → Logged Builder
  | .text cs => pure (b.addText cs)
  | .opening tag attributes selfClosing => b.openTag tag attributes selfClosing
  | .closing tag => b.closeTag tag

def finish (b : Builder) : Logged (List Markup) :=
  (b.popMany (some ∘ .closedAtEnd) b.openElements.length).map (·.roots.reverse)

end Builder

def ofTokens (tokens : List Token) : Logged (List Markup) := do
  let b ← tokens.foldlM Builder.add Builder.empty
  b.finish

/-- Reads markup. Every text is markup of some forest. -/
def parse (cs : List Char) : Logged (List Markup) := ofTokens (Token.scan cs)

end Markup
end Patchwork
