import Patchwork.Proofs.Picture
import Patchwork.Renderer.Basic
import Patchwork.Renderer.Plan

/-! What carrying out plans does to the live layer, told of pictures alone. A canvas is the live layer
with the binder's bookkeeping and the alarms raised so far; drawing, erasing and redrawing are functions
on canvases, in which neither activations nor steps occur. -/
namespace Patchwork

/-- Reports of calls that a layer could not carry out, and of bookkeeping that does not match it. -/
def Report.isAlarm : Report → Bool
  | .missingNode _ | .notAnElement _ | .notAText _ | .insertingMissing _ | .strangeReference _ _
  | .notItsParent _ _ | .noValueProperty _ _ | .releasedUnknown _ | .listenerNotAttached _ _
  | .serialisingMissing _ | .unknownNode _ | .notStyleable _ | .noListeners _ _
  | .expectedText _ | .expectedElement _ _ _ | .neverPlaced _ => true
  | _ => false

structure Canvas (D : Type) where
  dom : D
  binder : Binder
  /-- Newest first. -/
  alarms : List Report

def Renderer.canvas {D σ : Type} {δ : StateData} [HasStateData σ δ]
    (s : Renderer D σ) : Canvas D := ⟨s.dom, s.binder, s.reports.filter Report.isAlarm⟩

namespace Canvas

variable {D : Type}

def edit (f : D → Logged D) (c : Canvas D) : Canvas D :=
  { c with
    dom := (f c.dom).value
    alarms := ((f c.dom).reports.filter Report.isAlarm).reverseAux c.alarms }

def make (f : D → α × D) (c : Canvas D) : α × Canvas D := ((f c.dom).1, { c with dom := (f c.dom).2 })

def editBound (f : Binder → D → Logged (Binder × D)) (c : Canvas D) : Canvas D where
  binder := (f c.binder c.dom).value.1
  dom := (f c.binder c.dom).value.2
  alarms := ((f c.binder c.dom).reports.filter Report.isAlarm).reverseAux c.alarms

variable [Layer D]

def release (node : NodeId) (c : Canvas D) : Canvas D := c.edit (Layer.release · node)

def forget (node : NodeId) (c : Canvas D) : Canvas D :=
  c.editBound fun binder dom => binder.forget dom node

def dress (node : NodeId) (tag : String) (attributes : Attributes) (c : Canvas D) : Canvas D :=
  c.editBound fun binder dom => binder.apply dom node tag attributes

def putAll (parent : NodeId) (before : Option NodeId) : List NodeId → Canvas D → Canvas D
  | [], c => c
  | node :: rest, c =>
      putAll parent before rest (c.edit fun dom => Layer.insertBefore dom parent node before)

def takeAll (parent : NodeId) : List NodeId → Canvas D → Canvas D
  | [], c => c
  | node :: rest, c => takeAll parent rest (c.edit fun dom => Layer.removeChild dom parent node)

mutual

/-- Releases what a picture shows. -/
def erase : Picture → Canvas D → Canvas D
  | .text node _, c | .missing node _, c => c.release node
  | .element node _ _ children, c => ((eraseAll children c).forget node).release node
  | .component _ _ _ _ output, c => eraseAll output c
  | .raw _ _ _, c => c

def eraseAll : List Picture → Canvas D → Canvas D
  | [], c => c
  | p :: rest, c => eraseAll rest (erase p c)

end

def remove (parent : NodeId) (p : Picture) (c : Canvas D) : Canvas D :=
  erase p (c.takeAll parent p.tops)

def removeAll (parent : NodeId) : List Picture → Canvas D → Canvas D
  | [], c => c
  | p :: rest, c => removeAll parent rest (c.remove parent p)

mutual

/-- Draws a detached picture. -/
def draw : Plan → Canvas D → Picture × Canvas D
  | .text content _, c =>
      let (node, c) := c.make (Layer.createText · content)
      (.text node content, c)
  | .element tag attributes children _, c =>
      let (node, c) := c.make (Layer.createElement · tag)
      let (kids, c) := drawInto node none children c
      (.element node tag attributes kids, c.dress node tag attributes)
  | .component a _ component props tree output, c =>
      let (shown, c) := drawAll output c
      (.component a component props tree shown, c)
  | .raw raw _, c =>
      match c.make (Layer.adopt · raw) with
      | (some node, c) => (.raw node raw raw, c)
      | (none, c) =>
          let (node, c) := c.make (Layer.createText · "")
          (.missing node raw, c)

def drawAll : List Plan → Canvas D → List Picture × Canvas D
  | [], c => ([], c)
  | plan :: rest, c =>
      let (p, c) := draw plan c
      let (ps, c) := drawAll rest c
      (p :: ps, c)

def drawInto (parent : NodeId) (before : Option NodeId) :
    List Plan → Canvas D → List Picture × Canvas D
  | [], c => ([], c)
  | plan :: rest, c =>
      let (p, c) := draw plan c
      let (ps, c) := drawInto parent before rest (c.putAll parent before p.tops)
      (p :: ps, c)

end

/-- Draws a picture in the place of another. -/
def replace (parent : NodeId) (p : Picture) (plan : Plan) (c : Canvas D) : Picture × Canvas D :=
  let (q, c) := draw plan c
  (q, (c.putAll parent p.tops.head? q.tops).remove parent p)

def rewrite (node : NodeId) (content : String) (c : Canvas D) : Canvas D :=
  if Layer.text? c.dom node = some content then c else c.edit (Layer.setText · node content)

def after (output : List Picture) (c : Canvas D) : Option NodeId :=
  (Picture.topsAll output).getLast?.bind (Layer.nextSibling? c.dom)

mutual

/-- Redraws pictures under `parent`; `tail` is the live node after them. -/
def redrawAll (parent : NodeId) (tail : Option NodeId) :
    List Picture → List Plan → Canvas D → List Picture × Canvas D
  | ps, [], c => ([], c.removeAll parent ps)
  | [], plan :: plans, c => drawInto parent tail (plan :: plans) c
  | p :: ps, plan :: plans, c =>
      let (q, c) := redraw parent p plan c
      let (qs, c) := redrawAll parent tail ps plans c
      (q :: qs, c)

/-- Redraws a picture where the plan keeps it, or else replaces it. -/
def redraw (parent : NodeId) : Picture → Plan → Canvas D → Picture × Canvas D
  | .text node _, .text content true, c | .missing node _, .text content true, c =>
      (.text node content, c.rewrite node content)
  | .element node tag _ children, .element _ attributes plans true, c =>
      let (kids, c) := redrawAll node none children plans c
      (.element node tag attributes kids, c.dress node tag attributes)
  | .component a mounted mountedProps mountedTree output,
      .component b made component props tree plans, c =>
      if a = b ∧ !made then
        let (shown, c) := redrawAll parent (c.after output) output plans c
        (.component a component props tree shown, c)
      else
        c.replace parent (.component a mounted mountedProps mountedTree output)
          (.component b made component props tree plans)
  | .raw node mounted _, .raw raw true, c => (.raw node mounted raw, c)
  | p, plan, c => c.replace parent p plan

end

end Canvas
end Patchwork
