import Patchwork.Proofs.EntryIdentity
import Patchwork.Proofs.PicturePatching
import Patchwork.Proofs.PictureRepainting
import Patchwork.Proofs.SilentPasses

/-! What pictures that are redrawn inherit. A plan keeps what stands at its position just if it is of the
same kind, and what is made anew has new nodes and new activations. -/
namespace Patchwork

namespace Flat

mutual

def Rawless : Flat → Prop
  | text _ | component _ => True
  | element _ _ children => RawlessAll children
  | raw _ => False

def RawlessAll : List Flat → Prop
  | [] => True
  | position :: rest => Rawless position ∧ RawlessAll rest

end

end Flat

/-- There is no raw node in the tree. -/
def Tree.Rawless (tree : Tree) : Prop := Flat.RawlessAll tree.flatten

theorem Tree.Rawless.output {tree : Tree} (rawless : tree.Rawless) : Flat.RawlessAll tree.flattenOutput := by
  rw [Tree.Rawless] at rawless
  unfold Tree.flattenOutput
  split
  · exact ⟨trivial, trivial⟩
  · exact rawless

namespace Outline

mutual

def Rawless : Outline → Prop
  | text _ => True
  | element _ _ children => RawlessAll children
  | component _ _ _ _ output => RawlessAll output
  | raw _ => False

def RawlessAll : List Outline → Prop
  | [] => True
  | o :: rest => Rawless o ∧ RawlessAll rest

end

def kind : Outline → Kind
  | text _ => .text
  | element tag _ _ => .element tag
  | component _ c _ _ _ => .component (some c.identity)
  | raw _ => .raw

end Outline

mutual

theorem Plan.Ready.rawless {as : Activations} : ∀ {plan : Plan} {above}, plan.Ready as epoch above →
    plan.flat.Rawless → (∀ x ∈ plan.outline.shown, x.tree.Rawless) → plan.outline.Rawless
  | .text .., _, _, _, _ => trivial
  | .raw .., _, _, rawless, _ => rawless
  | .element _ _ children _, _, ready, rawless, trees => by
      rw [Plan.Ready] at ready
      rw [Plan.flat, Flat.Rawless] at rawless
      rw [Plan.outline, Outline.shown] at trees
      exact Plan.ReadyAll.rawless ready rawless trees
  | .component a made c props tree output, _, ready, _, trees => by
      rw [Plan.Ready] at ready
      rw [Plan.outline, Outline.shown, List.forall_mem_cons] at trees
      exact Plan.ReadyAll.rawless ready.2.2.2 (ready.2.2.1 ▸ trees.1.output) trees.2

theorem Plan.ReadyAll.rawless {as : Activations} : ∀ {plans : List Plan} {above},
    Plan.ReadyAll as epoch above plans → Flat.RawlessAll (Plan.flats plans) →
    (∀ x ∈ Outline.shownAll (Plan.outlines plans), x.tree.Rawless) →
    Outline.RawlessAll (Plan.outlines plans)
  | [], _, _, _, _ => trivial
  | plan :: rest, _, ready, rawless, trees => by
      rw [Plan.ReadyAll] at ready
      rw [Plan.flats, Flat.RawlessAll] at rawless
      rw [Plan.outlines, Outline.shownAll, List.forall_mem_append] at trees
      exact ⟨ready.1.rawless rawless.1 trees.1, ready.2.rawless rawless.2 trees.2⟩

end

namespace Picture

mutual

theorem homemade_of_outline : ∀ {p : Picture}, p.outline.Rawless → Homemade p
  | .text .., _ => by simp only [Homemade]
  | .raw .., rawless | .missing .., rawless => by simp only [outline, Outline.Rawless] at rawless
  | .element _ _ _ children, rawless => by
      rw [Homemade]
      exact homemadeAll_of_outlines rawless
  | .component _ _ _ _ output, rawless => by
      rw [Homemade]
      exact homemadeAll_of_outlines rawless

theorem homemadeAll_of_outlines : ∀ {ps : List Picture}, Outline.RawlessAll (outlines ps) → HomemadeAll ps
  | [], _ => by simp only [HomemadeAll]
  | p :: rest, rawless => by
      rw [HomemadeAll]
      exact ⟨homemade_of_outline rawless.1, homemadeAll_of_outlines rawless.2⟩

end

theorem kind_of_outline {p : Picture} (rawless : p.outline.Rawless) : p.kind = p.outline.kind := by
  cases p with
  | raw | missing => exact rawless.elim
  | text | element | component => rfl

namespace Inherits

variable {New : Identity → Prop} {ps qs : List Picture}

theorem all_new (new : ∀ x ∈ everyoneAll qs, New x) : Inherits New [] qs := by
  induction qs with
  | nil => exact .nil []
  | cons q qs ih =>
      rw [everyoneAll, List.forall_mem_append] at new
      exact .anew new.1 nofun (ih new.2)

theorem cons (one : Inherits New [p] [q]) (rest : Inherits New ps qs) :
    Inherits New (p :: ps) (q :: qs) := by
  cases one with
  | anew fresh differs => exact .anew fresh differs rest
  | kept kind identity inner => exact .kept kind identity inner rest

end Inherits

theorem everyone_new {New : Identity → Prop} {qs : List Picture} (nodes : ∀ n ∈ nodesAll qs, New (.node n))
    (activations : ∀ a ∈ activationsAll qs, New (.activation a)) : ∀ x ∈ everyoneAll qs, New x
  | .node n, member => nodes n (node_mem_everyoneAll.mp member)
  | .activation a, member => activations a (activation_mem_everyoneAll.mp member)

end Picture

open Picture

namespace Plan

variable {D : Type} [Documented D] {dom : D} {binder : Binder}

/-- A plan that keeps nothing finds nothing of its kind among what is seen. -/
theorem kind_ne_of_not_keeps {plan : Plan} (anew : plan.keeps = false) (fits : plan.Fits dom (some p))
    (shown : Seen (Documented.document dom) binder p) (rawless : plan.outline.Rawless) :
    p.kind ≠ plan.outline.kind := by
  cases plan with
  | text content reuse =>
      cases (anew : reuse = false)
      rw [Plan.Fits] at fits
      cases p with
      | text n old | missing n old =>
          rw [Seen] at shown
          rw [keepsText, Documented.text?_eq, shown.text] at fits
          cases fits
      | raw => simp only [Seen] at shown
      | element | component => simp only [Picture.kind, outline, Outline.kind, ne_eq, reduceCtorEq, not_false_eq_true]
  | element tag attributes children reuse =>
      cases (anew : reuse = false)
      rw [Plan.Fits] at fits
      cases p with
      | element n mounted old kids =>
          simp only [Picture.kind, outline, Outline.kind, ne_eq, Kind.element.injEq]
          rintro rfl
          have live := Renderer.elementIsLive_of_elementAt (seen_element.mp shown).1
          rw [keepsElement, decide_eq_true rfl, live] at fits
          cases fits.1
      | text | missing | component | raw =>
          simp only [Picture.kind, outline, Outline.kind, ne_eq, reduceCtorEq, not_false_eq_true]
  | component a made c props tree output =>
      cases made with
      | false => cases anew
      | true =>
          rw [Plan.Fits] at fits
          cases p with
          | component b mounted old oldTree output =>
              simp only [Picture.kind, outline, Outline.kind, ne_eq, Kind.component.injEq, Option.some.injEq]
              intro same
              have kept : kept? c (some (.component b mounted old oldTree output)) = some b := by
                rw [kept?, if_pos (show mounted.same c = true from beq_iff_eq.mpr same)]
              rw [kept] at fits
              cases fits.1
          | text | missing | element | raw =>
              simp only [Picture.kind, outline, Outline.kind, ne_eq, reduceCtorEq, not_false_eq_true]
  | raw => exact rawless.elim

end Plan

namespace Canvas

variable {D : Type} [Documented D] {dom : D} {binder : Binder} {New : Identity → Prop} {as : Activations}
  {epoch : Nat}

theorem new_of_draw {plan : Plan} {c : Canvas D} (sound : c.Sound) (ready : plan.Ready as epoch above)
    (new : plan.New) (rawless : plan.outline.Rawless) (late : ∀ n : NodeId, c.document.issued < n.index → New (.node n))
    (fresh : ∀ a ∈ plan.fresh, New (.activation a)) : ∀ x ∈ (draw plan c).1.everyone, New x := by
  have outline := draw_outline plan c
  have draws := draws_draw plan sound ready (homemade_of_outline (outline ▸ rawless))
  have everyone : ∀ x ∈ everyoneAll [(draw plan c).1], New x :=
    everyone_new (fun n member => late n (draws.new n member)) fun a member => by
      rw [activationsAll, activationsAll, List.append_nil, (shows_of_outline outline).2] at member
      exact fresh a (new.fresh_eq ▸ member)
  rwa [everyoneAll, everyoneAll, List.append_nil] at everyone

theorem inherits_drawInto {plans : List Plan} {c : Canvas D} (hangs : Hangs place (·.head? = before) [] c)
    (ready : Plan.ReadyAll as epoch above plans) (new : Plan.NewAll plans)
    (rawless : Outline.RawlessAll (Plan.outlines plans))
    (late : ∀ n : NodeId, c.document.issued < n.index → New (.node n))
    (fresh : ∀ a ∈ Plan.freshAll plans, New (.activation a)) :
    Inherits New [] (drawInto place before plans c).1 := by
  have outlines := drawInto_outlines plans place before c
  have repaints := repaints_drawInto plans hangs ready (homemadeAll_of_outlines (outlines ▸ rawless))
  refine .all_new (everyone_new (fun n member => late n ?_) fun a member => fresh a ?_)
  · exact (repaints.within n member).resolve_left List.not_mem_nil
  · rw [new.fresh_eq, ← (shows_of_outlines outlines).2]
    exact member

theorem inherits_replace {plan : Plan} {c : Canvas D} (anew : plan.keeps = false)
    (hangs : Hangs place fits [p] c) (ready : plan.Ready as epoch above) (paired : plan.Fits dom (some p))
    (rawless : plan.outline.Rawless) (seen : Seen (Documented.document dom) binder p)
    (late : ∀ n : NodeId, c.document.issued < n.index → New (.node n))
    (fresh : ∀ a ∈ plan.fresh, New (.activation a)) :
    Inherits New [p] [(redraw place p plan c).1] := by
  rw [redraw_of_not_keeps anew, replace_fst]
  have outline := draw_outline plan c
  refine .anew (new_of_draw hangs.sound ready (Plan.new_of_not_keeps paired anew) rawless late fresh)
    (fun q same => ?_) (.nil _)
  cases same
  rw [kind_of_outline (p := (draw plan c).1) (outline.symm ▸ rawless), outline]
  exact Plan.kind_ne_of_not_keeps anew paired seen rawless

mutual

theorem inherits_redraw : ∀ (plan : Plan) {above : Nat} {place : NodeId} {fits : List NodeId → Prop}
    {p : Picture} {c : Canvas D}, Hangs place fits [p] c → plan.Ready as epoch above →
    plan.Fits dom (some p) → plan.outline.Rawless → Seen (Documented.document dom) binder p →
    (∀ n : NodeId, c.document.issued < n.index → New (.node n)) → (∀ a ∈ plan.fresh, New (.activation a)) →
    Inherits New [p] [(redraw place p plan c).1]
  | .text content true, _, place, fits, p, c, hangs, ready, paired, rawless, seen, late, fresh => by
      rw [Plan.Fits] at paired
      obtain ⟨node, -, ⟨_, same⟩ | ⟨_, same⟩⟩ := Plan.of_keepsText paired.symm <;> cases same <;>
        exact .kept rfl rfl (.nil _) (.nil _)
  | .element tag attributes plans true, _, place, fits, p, c, hangs, ready, paired, rawless, seen, late,
      fresh => by
      rw [Plan.Fits] at paired
      rw [Plan.Ready] at ready
      rw [Plan.fresh] at fresh
      obtain ⟨node, old, kids, -, same⟩ := Plan.of_keepsElement paired.1.symm
      cases same
      rw [redraw]
      exact .kept rfl rfl (inherits_redrawAll plans hangs.inside.1 ready paired.2 rawless
        (seen_element.mp seen).2.2 late fresh) (.nil _)
  | .component a false wanted props tree plans, _, place, fits, p, c, hangs, ready, paired, rawless, seen,
      late, fresh => by
      rw [Plan.Fits] at paired
      rw [Plan.Ready] at ready
      rw [Plan.fresh, List.forall_mem_append] at fresh
      obtain ⟨mounted, _, _, output, kept, same⟩ := Plan.of_kept (paired.2.1 rfl)
      cases same
      simp only [redraw, Bool.not_false, and_self, if_true]
      exact .kept (congrArg (Kind.component ∘ some) (beq_iff_eq.mp kept)) rfl
        (inherits_redrawAll plans hangs.shows ready.2.2.2 paired.2.2 rawless (seen_component.mp seen).2 late fresh.2)
        (.nil _)
  | .raw _ _, _, _, _, _, _, _, _, _, rawless, _, _, _ => rawless.elim
  | .text content false, _, place, fits, p, c, hangs, ready, paired, rawless, seen, late, fresh =>
      inherits_replace rfl hangs ready paired rawless seen late fresh
  | .element tag attributes plans false, _, place, fits, p, c, hangs, ready, paired, rawless, seen, late,
      fresh => inherits_replace rfl hangs ready paired rawless seen late fresh
  | .component a true wanted props tree plans, _, place, fits, p, c, hangs, ready, paired, rawless, seen,
      late, fresh => inherits_replace rfl hangs ready paired rawless seen late fresh

theorem inherits_redrawAll : ∀ (plans : List Plan) {above : Nat} {place : NodeId}
    {tail : Option NodeId} {ps : List Picture} {c : Canvas D}, Hangs place (·.head? = tail) ps c →
    Plan.ReadyAll as epoch above plans → Plan.FitAll dom ps plans → Outline.RawlessAll (Plan.outlines plans) →
    SeenAll (Documented.document dom) binder ps →
    (∀ n : NodeId, c.document.issued < n.index → New (.node n)) → (∀ a ∈ Plan.freshAll plans, New (.activation a)) →
    Inherits New ps (redrawAll place tail ps plans c).1
  | [], _, _, _, ps, _, _, _, _, _, _, _, _ => by
      rw [redrawAll]
      exact .nil ps
  | plan :: plans, _, place, tail, [], c, hangs, ready, paired, rawless, _, late, fresh => by
      rw [redrawAll]
      exact inherits_drawInto hangs ready (Plan.new_of_fitAll_nil paired) rawless late fresh
  | plan :: plans, _, place, tail, p :: ps, c, hangs, ready, paired, rawless, seen, late, fresh => by
      rw [Plan.ReadyAll] at ready
      rw [Plan.FitAll] at paired
      rw [Plan.freshAll, List.forall_mem_append] at fresh
      rw [seenAll_cons] at seen
      have parts : Hangs place (·.head? = tail) ([p] ++ ps) c := hangs
      have first : Hangs place (fun _ => True) [p] c := parts.left fun _ _ => trivial
      have outline := redraw_outline plan place paired.1 c
      have one := repaints_redraw plan first ready.1 (homemade_of_outline (outline ▸ rawless.1))
      have others := one.right parts fun _ _ => trivial
      rw [redrawAll]
      exact (inherits_redraw plan first ready.1 paired.1 rawless.1 seen.1 late fresh.1).cons
        (inherits_redrawAll plans others ready.2 paired.2 rawless.2 seen.2
          (fun n later => late n (Nat.lt_of_le_of_lt one.issued later)) fresh.2)

end

end Canvas
end Patchwork
