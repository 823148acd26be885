import Patchwork.Proofs.Canvas
import Patchwork.Proofs.PlanSpec

/-! Outlines: what pictures and plans have in common. An outline says what is shown at each position,
outputs included, but not by which live nodes. -/
namespace Patchwork

inductive Outline
  | text (content : String)
  | element (tag : String) (attributes : Attributes) (children : List Outline)
  | component (activation : ActivationId) (component : Component) (props : Props) (tree : Tree)
      (output : List Outline)
  | raw (node : RawNode)

structure Shown where
  activation : ActivationId
  component : Component
  props : Props
  tree : Tree

def Shown.In (x : Shown) (as : Activations) : Prop := ∃ r, as.find? x.activation = some r ∧
  r.unmounted = false ∧ r.component = x.component ∧ r.props = x.props ∧ r.committed = some x.tree

namespace Outline

mutual

def flat : Outline → Flat
  | text content => .text content
  | element tag attributes children => .element tag attributes (flats children)
  | .component _ c props _ _ => .component ⟨c, props⟩
  | raw node => .raw node

def flats : List Outline → List Flat
  | [] => []
  | o :: rest => flat o :: flats rest

end

mutual

def shown : Outline → List Shown
  | text _ | raw _ => []
  | element _ _ children => shownAll children
  | component a c props tree output => ⟨a, c, props, tree⟩ :: shownAll output

def shownAll : List Outline → List Shown
  | [] => []
  | o :: rest => shown o ++ shownAll rest

end

end Outline

namespace Picture

mutual

def outline : Picture → Outline
  | text _ content => .text content
  | element _ tag attributes children => .element tag attributes (outlines children)
  | component a c props tree output => .component a c props tree (outlines output)
  | raw _ _ wanted | missing _ wanted => .raw wanted

def outlines : List Picture → List Outline
  | [] => []
  | p :: rest => outline p :: outlines rest

end

mutual

theorem flat_eq : ∀ p : Picture, p.flat = p.outline.flat
  | text .. | raw .. | missing .. | component .. => by simp only [flat, outline, Outline.flat]
  | element _ _ _ children => by rw [flat, outline, Outline.flat, flats_eq children]

theorem flats_eq : ∀ ps : List Picture, flats ps = Outline.flats (outlines ps)
  | [] => rfl
  | p :: rest => by rw [flats, outlines, Outline.flats, flat_eq p, flats_eq rest]

end

mutual

theorem activations_eq : ∀ p : Picture, p.activations = p.outline.shown.map Shown.activation
  | text .. | raw .. | missing .. => by simp only [activations, outline, Outline.shown, List.map_nil]
  | element _ _ _ children => by rw [activations, outline, Outline.shown, activationsAll_eq children]
  | component _ _ _ _ output => by
      rw [activations, outline, Outline.shown, List.map_cons, activationsAll_eq output]

theorem activationsAll_eq : ∀ ps : List Picture,
    activationsAll ps = (Outline.shownAll (outlines ps)).map Shown.activation
  | [] => rfl
  | p :: rest => by
      rw [activationsAll, outlines, Outline.shownAll, List.map_append, activations_eq p,
        activationsAll_eq rest]

end

mutual

theorem Stands.shown {as : Activations} : ∀ {p : Picture} {place above}, Stands as place above p →
    ∀ x ∈ p.outline.shown, x.In as
  | .text .., _, _, _ | .raw .., _, _, _ | .missing .., _, _, _ => by
      simp only [outline, Outline.shown, List.not_mem_nil, false_implies, implies_true]
  | .element _ _ _ children, _, _, stands => by
      rw [outline, Outline.shown]
      exact StandAll.shown (stands_element.mp stands)
  | .component a _ _ _ output, _, _, stands => by
      obtain ⟨-, ⟨r, found, shows⟩, -, inner⟩ := stands_component.mp stands
      rw [outline, Outline.shown, List.forall_mem_cons]
      exact ⟨⟨r, found, shows.registered, shows.component, shows.props, shows.committed⟩, inner.shown⟩

theorem StandAll.shown {as : Activations} : ∀ {ps : List Picture} {place above},
    StandAll as place above ps → ∀ x ∈ Outline.shownAll (outlines ps), x.In as
  | [], _, _, _ => by
      simp only [outlines, Outline.shownAll, List.not_mem_nil, false_implies, implies_true]
  | p :: rest, _, _, stands => by
      rw [outlines, Outline.shownAll, List.forall_mem_append]
      exact ⟨(standAll_cons.mp stands).1.shown, (standAll_cons.mp stands).2.shown⟩

end

end Picture

namespace Plan

mutual

def outline : Plan → Outline
  | text content _ => .text content
  | element tag attributes children _ => .element tag attributes (outlines children)
  | component a _ c props tree output => .component a c props tree (outlines output)
  | raw node _ => .raw node

def outlines : List Plan → List Outline
  | [] => []
  | plan :: rest => outline plan :: outlines rest

end

mutual

theorem flat_eq : ∀ plan : Plan, plan.flat = plan.outline.flat
  | text .. | raw .. | component .. => by simp only [flat, outline, Outline.flat]
  | element _ _ children _ => by rw [flat, outline, Outline.flat, flats_eq children]

theorem flats_eq : ∀ plans : List Plan, flats plans = Outline.flats (outlines plans)
  | [] => rfl
  | plan :: rest => by rw [flats, outlines, Outline.flats, flat_eq plan, flats_eq rest]

end

mutual

theorem activations_eq : ∀ plan : Plan, plan.activations = plan.outline.shown.map Shown.activation
  | text .. | raw .. => by simp only [activations, outline, Outline.shown, List.map_nil]
  | element _ _ children _ => by rw [activations, outline, Outline.shown, activationsAll_eq children]
  | component _ _ _ _ _ output => by
      rw [activations, outline, Outline.shown, List.map_cons, activationsAll_eq output]

theorem activationsAll_eq : ∀ plans : List Plan,
    activationsAll plans = (Outline.shownAll (outlines plans)).map Shown.activation
  | [] => rfl
  | plan :: rest => by
      rw [activationsAll, outlines, Outline.shownAll, List.map_append, activations_eq plan,
        activationsAll_eq rest]

end

def keeps : Plan → Bool
  | text _ reuse | element _ _ _ reuse | raw _ reuse => reuse
  | component _ made _ _ _ _ => !made

end Plan

/-- Pictures that show what was planned have its positions and its activations. -/
theorem Picture.shows_of_outlines (same : Picture.outlines ps = Plan.outlines plans) :
    Picture.flats ps = Plan.flats plans ∧ Picture.activationsAll ps = Plan.activationsAll plans := by
  rw [flats_eq, Plan.flats_eq, activationsAll_eq, Plan.activationsAll_eq, same]
  exact ⟨rfl, rfl⟩

theorem Picture.shows_of_outline {plan : Plan} (same : Picture.outline p = plan.outline) :
    p.flat = plan.flat ∧ p.activations = plan.activations := by
  rw [flat_eq, Plan.flat_eq, activations_eq, Plan.activations_eq, same]
  exact ⟨rfl, rfl⟩

namespace Canvas

variable {D : Type} [Layer D] {dom : D}

mutual

/-- What is drawn is what was planned. -/
theorem draw_outline : ∀ (plan : Plan) (c : Canvas D), (draw plan c).1.outline = plan.outline
  | .text .., _ => rfl
  | .element tag attributes children _, c => by
      simp only [draw, Picture.outline, Plan.outline, drawInto_outlines children]
  | .component _ _ _ _ _ output, c => by
      simp only [draw, Picture.outline, Plan.outline, drawAll_outlines output]
  | .raw _ _, c => by
      simp only [draw]
      split <;> rfl

theorem drawAll_outlines : ∀ (plans : List Plan) (c : Canvas D),
    Picture.outlines (drawAll plans c).1 = Plan.outlines plans
  | [], _ => rfl
  | plan :: rest, c => by
      simp only [drawAll, Picture.outlines, Plan.outlines, draw_outline plan, drawAll_outlines rest]

theorem drawInto_outlines : ∀ (plans : List Plan) (parent : NodeId) (before : Option NodeId)
    (c : Canvas D), Picture.outlines (drawInto parent before plans c).1 = Plan.outlines plans
  | [], _, _, _ => rfl
  | plan :: rest, parent, before, c => by
      simp only [drawInto, Picture.outlines, Plan.outlines, draw_outline plan, drawInto_outlines rest]

end

theorem redraw_of_not_keeps (anew : plan.keeps = false) (parent : NodeId) (p : Picture)
    (c : Canvas D) : redraw parent p plan c = c.replace parent p plan := by
  cases plan with
  | text content reuse =>
      cases (anew : reuse = false)
      cases p <;> simp only [redraw]
  | element tag attributes children reuse =>
      cases (anew : reuse = false)
      cases p <;> simp only [redraw]
  | component a made component props tree output =>
      cases made with
      | false => cases anew
      | true => cases p <;> simp only [redraw, Bool.not_true, Bool.false_eq_true, and_false, if_false]
  | raw node reuse =>
      cases (anew : reuse = false)
      cases p <;> simp only [redraw]

theorem replace_fst (parent : NodeId) (p : Picture) (plan : Plan) (c : Canvas D) :
    (c.replace parent p plan).1 = (draw plan c).1 := rfl

mutual

/-- What is redrawn is what was planned. -/
theorem redraw_outline : ∀ (plan : Plan) (parent : NodeId) {p}, plan.Fits dom (some p) →
    ∀ c : Canvas D, (redraw parent p plan c).1.outline = plan.outline
  | .text content true, parent, p, fits, c => by
      rw [Plan.Fits] at fits
      obtain ⟨node, -, ⟨_, same⟩ | ⟨_, same⟩⟩ := Plan.of_keepsText fits.symm <;> cases same <;> rfl
  | .text content false, parent, p, fits, c => by
      rw [redraw_of_not_keeps rfl, replace_fst, draw_outline]
  | .element tag attributes children false, parent, p, fits, c => by
      rw [redraw_of_not_keeps rfl, replace_fst, draw_outline]
  | .component a true c' props tree output, parent, p, fits, c => by
      rw [redraw_of_not_keeps rfl, replace_fst, draw_outline]
  | .raw node false, parent, p, fits, c => by
      rw [redraw_of_not_keeps rfl, replace_fst, draw_outline]
  | .element tag attributes children true, parent, p, fits, c => by
      rw [Plan.Fits] at fits
      obtain ⟨node, _, kids, -, same⟩ := Plan.of_keepsElement fits.1.symm
      cases same
      have kept := redrawAll_outlines children node none fits.2 c
      rw [if_pos rfl, Plan.inside] at kept
      simp only [redraw, Picture.outline, Plan.outline, kept]
  | .component a false c' props tree output, parent, p, fits, c => by
      rw [Plan.Fits] at fits
      obtain ⟨mounted, _, _, output, -, same⟩ := Plan.of_kept (fits.2.1 rfl)
      cases same
      have kept := redrawAll_outlines _ parent (c.after output) fits.2.2 c
      rw [if_neg Bool.false_ne_true, Plan.inside] at kept
      simp only [redraw, Bool.not_false, and_self, if_true, Picture.outline, Plan.outline, kept]
  | .raw node true, parent, p, fits, c => by
      rw [Plan.Fits] at fits
      obtain ⟨there, mounted, shown, -, same⟩ := Plan.of_rawAt fits.symm
      cases same
      rfl

theorem redrawAll_outlines : ∀ (plans : List Plan) (parent : NodeId) (tail : Option NodeId) {ps},
    Plan.FitAll dom ps plans → ∀ c : Canvas D,
      Picture.outlines (redrawAll parent tail ps plans c).1 = Plan.outlines plans
  | [], _, _, _, _, _ => by simp only [redrawAll, Picture.outlines, Plan.outlines]
  | plan :: plans, parent, tail, [], _, c => by rw [redrawAll, drawInto_outlines]
  | plan :: plans, parent, tail, p :: ps, fits, c => by
      rw [Plan.FitAll] at fits
      have others := redrawAll_outlines plans parent tail fits.2 (redraw parent p plan c).2
      rw [List.tail_cons] at others
      simp only [redrawAll, Picture.outlines, Plan.outlines, redraw_outline plan parent fits.1 c, others]

end

theorem redrawAll_shows (plans : List Plan) (parent : NodeId) (tail : Option NodeId)
    (fits : Plan.FitAll dom ps plans) (c : Canvas D) :
    Picture.flats (redrawAll parent tail ps plans c).1 = Plan.flats plans ∧
      Picture.activationsAll (redrawAll parent tail ps plans c).1 = Plan.activationsAll plans :=
  Picture.shows_of_outlines (redrawAll_outlines plans parent tail fits c)

end Canvas
end Patchwork
