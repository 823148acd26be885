import Patchwork.Error
import Patchwork.Event

/-! What the library reports while it works: messages at a level, and the spans in which it does its
steps. Page content is reported by its length only. -/
namespace Patchwork

/-- Page content as far as reports tell: its length in UTF-8. -/
structure Redacted where
  bytes : Nat
deriving DecidableEq

namespace Redacted

def of (content : String) : Redacted := ⟨content.utf8ByteSize⟩

def text (r : Redacted) : String := "<" ++ toString r.bytes ++ " bytes redacted>"

end Redacted

inductive Level
  | error | warn | info | trace
deriving DecidableEq

def Level.name : Level → String
  | error => "error"
  | warn => "warn"
  | info => "info"
  | trace => "trace"

inductive Report
  -- Templates
  | parsing (parts values : Nat)
  | closedAtEnd (tag : String)
  | closedImplicitly (tag before : String)
  | strayClosingTag (tag : String)
  | duplicateAttribute (name tag : String)
  | resolvedAttribute (name : String) (content : Redacted)
  | ignoredInAttribute (found : Shape) (name : String)
  -- Attributes of live nodes
  | applyingAttributes (node : NodeId) (tag : String)
  | forgetting (node : NodeId)
  | removingAttribute (name : String)
  | removingStyle (property : String)
  | removingFlag (name : String)
  | settingAttribute (name : String) (value : Redacted)
  | settingStyle (property : String) (value : Redacted)
  | updatingControl (value : Redacted)
  | addingListener (category : Category)
  | replacingListener (category : Category)
  | removingListener (category : Category)
  | multipleHandlers (category : Category) (tag name : String)
  | unsupportedBinding (name tag : String) (reason : Category.Unsupported)
  | misplacedHandler (name tag : String)
  -- Live nodes
  | insertingBefore (parent child : NodeId) (reference : Option NodeId)
  | inserted
  | missingNode (node : NodeId)
  | notAnElement (node : NodeId)
  | notAText (node : NodeId)
  | insertingMissing (child : NodeId)
  | strangeReference (reference parent : NodeId)
  | notItsParent (child parent : NodeId)
  | noValueProperty (tag : String) (node : NodeId)
  | releasedUnknown (node : NodeId)
  | listenerNotAttached (category : Category) (node : NodeId)
  | serialisingMissing (node : NodeId)
  | unknownNode (node : NodeId)
  | notStyleable (node : NodeId)
  | addingListenerTo (node : NodeId) (category : Category)
  | removingListenerFrom (node : NodeId) (category : Category)
  | noListeners (category : Category) (node : NodeId)
  -- State cells
  | creatingCell (index : Nat)
  | stateUnchanged
  | cellCountChanged (component : String) (activation : ActivationId) (count previous : Nat)
  -- Deferred work
  | scheduling (activation : ActivationId)
  | alreadyPending
  | armingFlush
  | runningUntilIdle
  | ranTasks (count : Nat)
  -- Rendering
  | rendering (container : NodeId)
  | unmountingContainer (container : NodeId)
  | flushing
  | dispatching (target : NodeId) (category : Category) (value : Option String)
  | callingHandlers (count : Nat)
  | listenersBound (count : Nat)
  | flushed (count : Nat)
  | flushFailed (error : FlushError)
  | unmountedBeforeFlush (activation : ActivationId)
  | alreadyRendered (activation : ActivationId)
  | rerenderFailed (activation : ActivationId) (component : String) (error : RenderError)
  | updateOfUnmounted (activation : ActivationId)
  | creatingActivation (activation : ActivationId) (component : String)
  | unmountingActivation (activation : ActivationId)
  | renderingActivation (activation : ActivationId) (component : String)
  | expectedText (node : NodeId)
  | expectedElement (tag : String) (found : Option String) (node : NodeId)
  | neverPlaced (activation : ActivationId)
  | removingEntry (entry : String)
  | replacingEntry (entry : String)
  | diffingText (node : NodeId) (text : Redacted)
  | diffingElement (node : NodeId) (tag : String)
  | diffingComponent (activation : ActivationId)
  | updatingText
  | creatingText (text : Redacted)
  | creatingElement (tag : String)
  | placingActivation (activation : ActivationId)
  | notAdopted
deriving DecidableEq

namespace Report

structure Form where
  level : Level
  span : Bool
  message : String
  fields : List (String × String)

def note (level : Level) (message : String) (fields : List (String × String)) : Form :=
  ⟨level, false, message, fields⟩

def span (level : Level) (name : String) (fields : List (String × String)) : Form :=
  ⟨level, true, name, fields⟩

def angled (tag : String) : String := "<" ++ tag ++ ">"

def form : Report → Form
  | parsing parts values =>
      span .trace "parse" [("parts", toString parts), ("values", toString values)]
  | closedAtEnd tag => note .trace ("Closing unclosed " ++ angled tag ++ " at end of input.") []
  | closedImplicitly tag before =>
      note .trace ("Implicitly closing " ++ angled tag ++ " before </" ++ before ++ ">.") []
  | strayClosingTag tag => note .warn ("Ignoring stray closing tag </" ++ tag ++ ">.") []
  | duplicateAttribute name tag =>
      note .warn ("Duplicate attribute " ++ Text.quoted name ++ " on " ++ angled tag ++
        "; keeping the first.") []
  | resolvedAttribute name content =>
      note .trace ("Resolved attribute " ++ Text.quoted name ++ " to " ++ content.text ++ ".") []
  | ignoredInAttribute found name =>
      note .warn ("Ignoring " ++ found.describe ++ " interpolated into attribute " ++
        Text.quoted name ++ ".") []
  | applyingAttributes node tag =>
      span .info "apply_attributes" [("node", node.debug), ("tag", Text.quoted tag)]
  | forgetting node => span .info "forget" [("node", node.debug)]
  | removingAttribute name => note .trace "Removing stale attribute" [("name", name)]
  | removingStyle property => note .trace "Removing stale style" [("property", property)]
  | removingFlag name => note .trace "Removing boolean attribute" [("name", name)]
  | settingAttribute name value =>
      note .trace "Setting attribute" [("name", name), ("value", value.text)]
  | settingStyle property value =>
      note .trace "Setting style" [("property", property), ("value", value.text)]
  | updatingControl value => note .trace "Updating form control value" [("value", value.text)]
  | addingListener category => note .trace "Adding listener" [("category", category.debug)]
  | replacingListener category => note .trace "Replacing listener" [("category", category.debug)]
  | removingListener category =>
      note .trace "Removing stale listener" [("category", category.debug)]
  | multipleHandlers category tag name =>
      note .warn ("Multiple handlers for " ++ category.debug ++ " on " ++ angled tag ++
        "; The last one (" ++ Text.quoted name ++ ") wins.") []
  | unsupportedBinding name tag reason =>
      note .warn ("Skipping event binding " ++ Text.quoted name ++ " on " ++ angled tag ++ ": " ++
        reason.message) []
  | misplacedHandler name tag =>
      note .warn ("Handlers can only be bound to event attributes, but " ++ Text.quoted name ++
        " on " ++ angled tag ++ " isn't one. Skipping.") []
  | insertingBefore parent child reference =>
      span .info "insert_before" [("parent", parent.debug), ("child", child.debug),
        ("reference", debugOption NodeId.debug reference)]
  | inserted => note .trace "Inserted." []
  | missingNode node => note .error ("Missing node " ++ node.text ++ ".") []
  | notAnElement node =>
      note .error ("Expected an element at " ++ node.text ++ " but found a text node.") []
  | notAText node => note .error ("Expected a text node at " ++ node.text ++ ".") []
  | insertingMissing child =>
      note .error ("Tried to insert missing node " ++ child.text ++ ".") []
  | strangeReference reference parent =>
      note .error ("Reference node " ++ reference.text ++ " is not a child of " ++ parent.text ++
        "; Appending instead.") []
  | notItsParent child parent =>
      note .error ("Tried to remove " ++ child.text ++ " from " ++ parent.text ++
        ", which is not its parent.") []
  | noValueProperty tag node =>
      note .error (angled tag ++ " at " ++ node.text ++ " has no value property.") []
  | releasedUnknown node => note .warn ("Released unknown node " ++ node.text ++ ".") []
  | listenerNotAttached category node =>
      note .warn ("Tried to remove a " ++ category.debug ++ " listener from " ++ node.text ++
        " that isn't attached.") []
  | serialisingMissing node =>
      note .error ("Tried to serialise missing node " ++ node.text ++ ".") []
  | unknownNode node => note .error ("Unknown node " ++ node.text ++ ".") []
  | notStyleable node =>
      note .error ("Expected an HTML element at " ++ node.text ++ " to style.") []
  | addingListenerTo node category =>
      span .info "add_listener" [("id", node.debug), ("category", category.debug),
        ("handler", "Handler(PTR)")]
  | removingListenerFrom node category =>
      span .info "remove_listener" [("id", node.debug), ("category", category.debug),
        ("handler", "Handler(PTR)")]
  | noListeners category node =>
      note .warn ("No " ++ category.debug ++ " listeners to remove from " ++ node.text ++ ".") []
  | creatingCell index => note .trace "Creating state cell" [("index", toString index)]
  | stateUnchanged => note .trace "State unchanged; Not scheduling an update." []
  | cellCountChanged component activation count previous =>
      note .warn (component ++ " (" ++ activation.text ++ ") read " ++ toString count ++
        " state cell(s), but " ++ toString previous ++ " during its previous render. " ++
        "Hooks must be called unconditionally and in the same order.") []
  | scheduling activation => span .info "schedule" [("key", activation.debug)]
  | alreadyPending => note .trace "Already pending." []
  | armingFlush => note .trace "Arming flush." []
  | runningUntilIdle => span .info "run_until_idle" []
  | ranTasks count => note .trace ("Ran " ++ toString count ++ " microtask(s).") []
  | rendering container => span .info "render" [("container", container.debug)]
  | unmountingContainer container => span .info "unmount" [("container", container.debug)]
  | flushing => span .info "flush" []
  | dispatching target category value =>
      span .info "dispatch" [("target", target.debug), ("category", category.debug),
        ("value", debugOption Text.quoted value)]
  | callingHandlers count => note .trace ("Calling " ++ toString count ++ " handler(s).") []
  | listenersBound count => note .info ("Bound event listener count: " ++ toString count) []
  | flushed count => note .info ("Flushed " ++ toString count ++ " activation(s).") []
  | flushFailed error => note .error error.message []
  | unmountedBeforeFlush activation =>
      note .trace (activation.text ++ " was unmounted before the flush reached it.") []
  | alreadyRendered activation =>
      note .trace (activation.text ++ " was already rendered during this flush.") []
  | rerenderFailed activation component error =>
      note .error ("Failed to re-render " ++ activation.text ++ " (" ++ component ++ "): " ++
        error.message) []
  | updateOfUnmounted activation =>
      note .trace (activation.text ++ " is unmounted; Ignoring update request.") []
  | creatingActivation activation component =>
      note .trace ("Creating " ++ activation.text ++ " (" ++ component ++ ").") []
  | unmountingActivation activation => note .trace ("Unmounting " ++ activation.text ++ ".") []
  | renderingActivation activation component =>
      span .trace "Rendering activation" [("id", activation.text), ("component", Text.quoted component)]
  | expectedText node =>
      note .error ("Expected to update a text node but found an element at " ++ node.text ++
        "; Recreating the node.") []
  | expectedElement tag found node =>
      note .error ("Expected to update " ++ angled tag ++ " but found " ++
        debugOption Text.quoted found ++ " at " ++ node.text ++ "; Recreating the element.") []
  | neverPlaced activation =>
      note .error (activation.text ++ " was never placed; Skipping its commit.") []
  | removingEntry entry => span .trace "Removing" [("removed", entry)]
  | replacingEntry entry => span .trace "Replacing" [("entry", entry)]
  | diffingText node text =>
      span .trace "Diffing text" [("node", node.text), ("text", text.text)]
  | diffingElement node tag => span .trace "Diffing element" [("node", node.text), ("tag", tag)]
  | diffingComponent activation => span .trace "Diffing component" [("id", activation.text)]
  | updatingText => note .trace "Updating text." []
  | creatingText text => span .trace "Creating text node" [("text", text.text)]
  | creatingElement tag => span .trace "Creating element" [("tag", tag)]
  | placingActivation activation => span .trace "Placing activation" [("id", activation.text)]
  | notAdopted =>
      note .error "Could not adopt RawNode(PTR); Substituting an empty text node." []

def level (r : Report) : Level := r.form.level

def line (r : Report) : String :=
  let f := r.form
  f.level.name ++ (if f.span then " span: " else ": ") ++ f.message ++
    String.join (f.fields.map fun (name, value) => " " ++ name ++ "=" ++ value)

end Report

inductive Verbosity
  | problems | info | trace | spans
deriving DecidableEq, Inhabited

def Verbosity.lists (v : Verbosity) (r : Report) : Bool :=
  let f := r.form
  match v with
  | .problems => !f.span && (f.level == .error || f.level == .warn)
  | .info => !f.span && f.level != .trace
  | .trace => !f.span
  | .spans => true

/-- A result and what was reported on the way to it. -/
structure Logged (α : Type) where
  value : α
  reports : List Report

namespace Logged

def map (f : α → β) (l : Logged α) : Logged β := ⟨f l.value, l.reports⟩

def bind (l : Logged α) (f : α → Logged β) : Logged β :=
  let next := f l.value
  ⟨next.value, l.reports ++ next.reports⟩

instance : Monad Logged where
  pure a := ⟨a, []⟩
  bind := bind

instance : LawfulMonad Logged := LawfulMonad.mk' Logged
  (fun l => by simp [Functor.map, bind])
  (fun a f => by simp [Bind.bind, Pure.pure, bind])
  (fun l f g => by simp [Bind.bind, bind, List.append_assoc])

def report (r : Report) : Logged Unit := ⟨(), [r]⟩

end Logged
end Patchwork
