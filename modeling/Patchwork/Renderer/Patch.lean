import Patchwork.Renderer.Basic
import Patchwork.Renderer.Plan

/-! Carrying out plans. Positions that both lists have are patched or replaced, the rest of the old
list is removed, and the rest of the new one is built detached and then inserted. -/
namespace Patchwork.Renderer

variable {D σ : Type} {δ : StateData} [HasStateData σ δ] [Layer D]

def insertAll (parent : NodeId) (before : Option NodeId) : List NodeId → RenderM D σ Unit
  | [] => pure ()
  | node :: rest => do
      onDom fun dom => Layer.insertBefore dom parent node before
      insertAll parent before rest

def removeAll (parent : NodeId) : List NodeId → RenderM D σ Unit
  | [] => pure ()
  | node :: rest => do
      onDom fun dom => Layer.removeChild dom parent node
      removeAll parent rest

def insert (parent : NodeId) (entry : Mounted) (before : Option NodeId) : RenderM D σ Unit := do
  insertAll parent before (entry.nodes (← get).activations)

def detach (parent : NodeId) (entry : Mounted) : RenderM D σ Unit := do
  removeAll parent (entry.nodes (← get).activations)

def onBound (f : Binder → D → Logged (Binder × D)) : RenderM D σ Unit :=
  modify fun s =>
    let changed := f s.binder s.dom
    { s with
      binder := changed.value.1
      dom := changed.value.2
      reports := changed.reports.reverseAux s.reports }

def applyAttributes (node : NodeId) (tag : String) (attributes : Attributes) :
    RenderM D σ Unit :=
  onBound fun binder dom => binder.apply dom node tag attributes

def forgetBindings (node : NodeId) : RenderM D σ Unit :=
  onBound fun binder dom => binder.forget dom node

mutual

def unmountEntryBy (unmount : ActivationId → RenderM D σ Unit) : Mounted → RenderM D σ Unit
  | .text node => onDom (Layer.release · node)
  | .element node _ children => do
      unmountAllBy unmount children
      forgetBindings node
      onDom (Layer.release · node)
  | .component a => unmount a
  | .raw _ _ => pure ()

def unmountAllBy (unmount : ActivationId → RenderM D σ Unit) : List Mounted → RenderM D σ Unit
  | [] => pure ()
  | entry :: rest => do
      unmountEntryBy unmount entry
      unmountAllBy unmount rest

end

/-- Destroys an activation and its output, through a number of outputs. -/
def unmountActivationWithin : Nat → ActivationId → RenderM D σ Unit
  | 0, _ => pure ()
  | levels + 1, a => do
      report (.unmountingActivation a)
      updateActivation a ({ · with unmounted := true })
      let output ← takeOutput a
      unmountAllBy (unmountActivationWithin levels) output

def unmountActivation (a : ActivationId) : RenderM D σ Unit := do
  unmountActivationWithin (← get).activations.depth a

def unmountEntry (entry : Mounted) : RenderM D σ Unit := unmountEntryBy unmountActivation entry

def unmountActivations : List ActivationId → RenderM D σ Unit
  | [] => pure ()
  | a :: rest => do
      unmountActivation a
      unmountActivations rest

def removeEntries (parent : NodeId) : List Mounted → RenderM D σ Unit
  | [] => pure ()
  | entry :: rest => do
      report (.removingEntry (entry.debug (← get).activations))
      detach parent entry
      unmountEntry entry
      removeEntries parent rest

mutual

def build (parent : NodeId) : Plan → RenderM D σ Mounted
  | .text s _ => do
      report (.creatingText (.of s))
      return .text (← makeNode (Layer.createText · s))
  | .element tag attributes children _ => do
      report (.creatingElement tag)
      let node ← makeNode (Layer.createElement · tag)
      let entries ← buildChildren node children
      applyAttributes node tag attributes
      return .element node tag entries
  | .component a _ _ _ tree output => do
      report (.placingActivation a)
      updateActivation a ({ · with parent := some parent })
      let entries ← buildOutput parent output
      setOutput a entries
      updateActivation a ({ · with committed := some tree })
      return .component a
  | .raw node _ => do
      match ← makeNode (Layer.adopt · node) with
      | some adopted => return .raw adopted node
      | none =>
          report .notAdopted
          return .text (← makeNode (Layer.createText · ""))

def buildChildren (node : NodeId) : List Plan → RenderM D σ (List Mounted)
  | [] => pure []
  | plan :: rest => do
      let entry ← build node plan
      insert node entry none
      let entries ← buildChildren node rest
      return entry :: entries

/-- Builds an output, whose nodes the activation's own parent will take in. -/
def buildOutput (parent : NodeId) : List Plan → RenderM D σ (List Mounted)
  | [] => pure []
  | plan :: rest => do
      let entry ← build parent plan
      let entries ← buildOutput parent rest
      return entry :: entries

end

def addEntries (parent : NodeId) (tail : Option NodeId) : List Plan → RenderM D σ (List Mounted)
  | [] => pure []
  | plan :: rest => do
      let entry ← build parent plan
      insert parent entry tail
      let entries ← addEntries parent tail rest
      return entry :: entries

def replace (parent : NodeId) (entry : Mounted) (plan : Plan) : RenderM D σ Mounted := do
  report (.replacingEntry (entry.debug (← get).activations))
  -- The new nodes go in before the old ones go out, so a node that is in both entries is taken out again.
  let replacement ← build parent plan
  insert parent replacement (entry.firstNode? (← get).activations)
  detach parent entry
  unmountEntry entry
  return replacement

/-- Lets a mounted activation's render take effect: `applyOutput` patches its output, given the parent,
the live node after the output and the old entries. -/
def commitBy (applyOutput : NodeId → Option NodeId → List Mounted → RenderM D σ (List Mounted))
    (a : ActivationId) (component : Component) (props : Props) (tree : Tree) : RenderM D σ Unit := do
  match ((← get).activations.find? a).bind Activation.parent with
  | none => report (.neverPlaced a)
  | some parent =>
      let s ← get
      -- Looked up while the record still lists the output.
      let tail := ((Mounted.component a).lastNode? s.activations).bind (Layer.nextSibling? s.dom)
      updateActivation a ({ · with component, props })
      let entries ← takeOutput a
      let entries ← applyOutput parent tail entries
      setOutput a entries
      let epoch := (← get).epoch
      updateActivation a ({ · with committed := some tree, renderedIn := epoch })

mutual

/-- Carries out plans on a list of entries under `parent`; `tail` is the live node after the list. -/
def applyAll (parent : NodeId) (tail : Option NodeId) :
    List Mounted → List Plan → RenderM D σ (List Mounted)
  | entries, [] => do
      removeEntries parent entries
      return []
  | [], plans => addEntries parent tail plans
  | entry :: entries, plan :: plans => do
      let entry ← applyOne parent entry plan
      let entries ← applyAll parent tail entries plans
      return entry :: entries

/-- Patches an entry where the plan says so and the entry is of the planned kind. -/
def applyOne (parent : NodeId) : Mounted → Plan → RenderM D σ Mounted
  | .text node, .text s true => do
      report (.diffingText node (.of s))
      if Layer.text? (← get).dom node ≠ some s then
        report .updatingText
        onDom fun dom => Layer.setText dom node s
      return .text node
  | .element node tag children, .element _ attributes plans true => do
      report (.diffingElement node tag)
      let entries ← applyAll node none children plans
      applyAttributes node tag attributes
      return .element node tag entries
  | .component a, .component b fresh component props tree output => do
      if a = b ∧ !fresh then
        report (.diffingComponent a)
        commitBy (applyAll · · · output) b component props tree
        return .component a
      else replace parent (.component a) (.component b fresh component props tree output)
  | .raw node mounted, .raw _ true => return .raw node mounted
  | entry, plan => replace parent entry plan

end

def commit (r : Rendered) : RenderM D σ Unit :=
  commitBy (applyAll · · · r.output) r.activation r.component r.props r.tree

end Patchwork.Renderer
