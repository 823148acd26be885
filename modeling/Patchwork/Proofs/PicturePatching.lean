import Patchwork.Proofs.PlanBuilding

/-! Patching: what the plans keep is redrawn in place, and what they do not keep is replaced. At the end
the table stands for the new pictures, and every activation that they do not show is destroyed. -/
namespace Patchwork

theorem parts_apart {as bs cs ds : List α} (distinct : ((as ++ bs) ++ (cs ++ ds)).Nodup) :
    ∀ a, a ∈ as ∨ a ∈ cs → ¬ (a ∈ bs ∨ a ∈ ds) := by
  obtain ⟨one, two, crossed⟩ := List.nodup_append'.mp distinct
  intro a first second
  rcases first with early | early <;> rcases second with late | late
  · exact (List.nodup_append'.mp one).2.2 early late
  · exact crossed (List.mem_append_left _ early) (List.mem_append_right _ late)
  · exact crossed (List.mem_append_right _ late) (List.mem_append_left _ early)
  · exact (List.nodup_append'.mp two).2.2 early late

theorem first_parts_nodup {as bs cs ds : List α} (distinct : ((as ++ bs) ++ (cs ++ ds)).Nodup) :
    (as ++ cs).Nodup :=
  distinct.sublist ((List.sublist_append_left ..).append (List.sublist_append_left ..))

theorem second_parts_nodup {as bs cs ds : List α} (distinct : ((as ++ bs) ++ (cs ++ ds)).Nodup) :
    (bs ++ ds).Nodup :=
  distinct.sublist ((List.sublist_append_right ..).append (List.sublist_append_right ..))

namespace Plan

variable {D : Type} [Layer D] {dom : D}

/-- A position that is not kept is new as a whole. -/
theorem new_of_not_keeps (fits : Fits dom p plan) (anew : plan.keeps = false) : plan.New := by
  cases plan with
  | text | raw => simp only [New]
  | element tag attributes children reuse =>
      rw [Fits, show reuse = false from anew] at fits
      rw [New]
      exact new_of_fitAll_nil fits.2
  | component a made c props tree output =>
      rw [keeps, Bool.not_eq_false'] at anew
      rw [Fits, anew] at fits
      rw [New]
      exact ⟨anew, new_of_fitAll_nil fits.2.2⟩

mutual

theorem mem_of_fits : ∀ {plan : Plan} {p}, Fits dom p plan → a ∈ activations plan →
    a ∈ (p.map Picture.activations).getD [] ∨ a ∈ fresh plan
  | .text .., _, _, member | .raw .., _, _, member => by
      simp only [activations, List.not_mem_nil] at member
  | .element tag _ children reuse, p, fits, member => by
      rw [Fits] at fits
      rw [activations] at member
      rw [fresh]
      refine (mem_of_fitAll fits.2 member).imp_left fun inside => ?_
      cases reuse with
      | false => simp only [Bool.false_eq_true, if_false, Picture.activationsAll, List.not_mem_nil] at inside
      | true =>
          obtain ⟨node, attributes, kids, -, rfl⟩ := of_keepsElement fits.1.symm
          simpa only [Option.map_some, Option.getD_some, Picture.activations, if_true,
            Plan.inside] using inside
  | .component b made c _ _ output, p, fits, member => by
      rw [Fits] at fits
      rw [activations, List.mem_cons] at member
      rw [fresh, List.mem_append]
      obtain ⟨-, kept, fits⟩ := fits
      cases made with
      | true =>
          rcases member with rfl | member
          · exact .inr (.inl (List.mem_singleton_self _))
          · refine (mem_of_fitAll fits member).elim (fun inside => ?_) fun new => .inr (.inr new)
            simp only [if_true, Picture.activationsAll, List.not_mem_nil] at inside
      | false =>
          obtain ⟨mounted, props, tree, shown, -, rfl⟩ := of_kept (kept rfl)
          simp only [Option.map_some, Option.getD_some, Picture.activations, List.mem_cons]
          rcases member with rfl | member
          · exact .inl (.inl rfl)
          · exact (mem_of_fitAll fits member).imp .inr .inr

theorem mem_of_fitAll : ∀ {plans : List Plan} {ps}, FitAll dom ps plans → a ∈ activationsAll plans →
    a ∈ Picture.activationsAll ps ∨ a ∈ freshAll plans
  | [], _, _, member => by simp only [activationsAll, List.not_mem_nil] at member
  | plan :: rest, ps, fits, member => by
      rw [FitAll] at fits
      rw [activationsAll, List.mem_append] at member
      rw [freshAll, List.mem_append]
      cases ps with
      | nil =>
          refine .inr (member.imp (fun first => ?_) fun later => ?_)
          · exact (mem_of_fits fits.1 first).resolve_left List.not_mem_nil
          · exact (mem_of_fitAll fits.2 later).resolve_left List.not_mem_nil
      | cons p ps =>
          rw [Picture.activationsAll, List.mem_append]
          rcases member with first | later
          · exact (mem_of_fits fits.1 first).imp .inl .inl
          · exact (mem_of_fitAll fits.2 later).imp .inr .inr

end

mutual

theorem nodup_of_fits : ∀ {plan : Plan} {p}, Fits dom p plan →
    ((p.map Picture.activations).getD [] ++ fresh plan).Nodup → (activations plan).Nodup
  | .text .., _, _, _ | .raw .., _, _, _ => by simp only [activations, List.nodup_nil]
  | .element tag _ children reuse, p, fits, distinct => by
      rw [Fits] at fits
      rw [fresh] at distinct
      rw [activations]
      refine nodup_of_fitAll fits.2 ?_
      cases reuse with
      | false =>
          rw [if_neg Bool.false_ne_true]
          exact (List.nodup_append'.mp distinct).2.1
      | true =>
          obtain ⟨node, attributes, kids, -, rfl⟩ := of_keepsElement fits.1.symm
          exact distinct
  | .component a made c _ _ output, p, fits, distinct => by
      rw [Fits] at fits
      rw [fresh] at distinct
      rw [activations, List.nodup_cons]
      obtain ⟨-, kept, fits⟩ := fits
      cases made with
      | true =>
          have new := (List.nodup_append'.mp distinct).2.1
          rw [if_pos rfl, List.singleton_append, List.nodup_cons] at new
          refine ⟨fun member => new.1 ?_, nodup_of_fitAll fits new.2⟩
          exact (mem_of_fitAll fits member).resolve_left List.not_mem_nil
      | false =>
          obtain ⟨mounted, props, tree, shown, -, rfl⟩ := of_kept (kept rfl)
          rw [if_neg Bool.false_ne_true, List.nil_append, Option.map_some, Option.getD_some,
            Picture.activations, List.cons_append, List.nodup_cons] at distinct
          exact ⟨fun member => distinct.1 (List.mem_append.mpr (mem_of_fitAll fits member)),
            nodup_of_fitAll fits distinct.2⟩

theorem nodup_of_fitAll : ∀ {plans : List Plan} {ps}, FitAll dom ps plans →
    (Picture.activationsAll ps ++ freshAll plans).Nodup → (activationsAll plans).Nodup
  | [], _, _, _ => List.nodup_nil
  | plan :: rest, ps, fits, distinct => by
      rw [FitAll] at fits
      rw [freshAll] at distinct
      rw [activationsAll, List.nodup_append']
      cases ps with
      | nil =>
          obtain ⟨one, two, apart⟩ : (fresh plan).Nodup ∧ (freshAll rest).Nodup ∧ _ :=
            List.nodup_append'.mp distinct
          exact ⟨nodup_of_fits fits.1 one, nodup_of_fitAll fits.2 two, fun a first later =>
            apart ((mem_of_fits fits.1 first).resolve_left List.not_mem_nil)
              ((mem_of_fitAll fits.2 later).resolve_left List.not_mem_nil)⟩
      | cons p ps =>
          rw [Picture.activationsAll] at distinct
          exact ⟨nodup_of_fits fits.1 (first_parts_nodup distinct),
            nodup_of_fitAll fits.2 (second_parts_nodup distinct), fun a first later =>
              parts_apart distinct a (mem_of_fits fits.1 first) (mem_of_fitAll fits.2 later)⟩

end

end Plan

namespace Renderer

open Picture

variable {D σ : Type} {δ : StateData} [HasStateData σ δ] {s t u : Renderer D σ}

/-- Pictures were redrawn: new ones were produced, and what the old ones show no longer is gone. -/
structure Redrawn (old fresh : List ActivationId) (place : NodeId) (above : Nat)
    (result : List Picture × Canvas D) (s t : Renderer D σ) : Prop
    extends Produced (old ++ fresh) place above result s t where
  vanished : ∀ a ∈ old, a ∉ activationsAll result.1 → t.activations.Vanished a

namespace Redrawn

theorem cons (one : Redrawn old fresh place above ([q], w) s t)
    (two : Redrawn olds freshes place above (qs, w') t u)
    (distinct : ((old ++ olds) ++ (fresh ++ freshes)).Nodup)
    (within : ∀ a ∈ q.activations, a ∈ old ∨ a ∈ fresh) :
    Redrawn (old ++ olds) (fresh ++ freshes) place above (q :: qs, w') s u := by
  have apart : ∀ a, a ∈ old ∨ a ∈ fresh → a ∉ olds ++ freshes := fun a first second =>
    parts_apart distinct a first (List.mem_append.mp second)
  have joined := one.toProduced.cons two.toProduced fun a member => apart a (within a member)
  refine ⟨joined.mono fun a member => ?_, fun a member absent => ?_⟩
  · simp only [List.mem_append] at member ⊢
    tauto
  · simp only [activationsAll, List.mem_append, not_or] at absent
    cases List.mem_append.mp member with
    | inl early =>
        refine two.confined.vanished (one.vanished a early ?_) (apart a (.inl early))
        simpa only [activationsAll, List.append_nil] using absent.1
    | inr late => exact two.vanished a late absent.2

theorem after (drawn : Drawn change s t) (later : Redrawn old fresh place above result t u) :
    Redrawn old fresh place above result s u := by
  have produced := later.toProduced.after drawn.confined
  exact ⟨produced, later.vanished⟩

end Redrawn

variable [Layer D]

/-- The step answers the entry of a picture that it redraws. -/
def RedrawsOne (step : RenderM D σ Mounted) (old fresh : List ActivationId) (place : NodeId)
    (above : Nat) (result : Picture × Canvas D) (s : Renderer D σ) : Prop :=
  ∃ t, Returns step s result.1.entry t ∧ Redrawn old fresh place above ([result.1], result.2) s t

def Redraws (step : RenderM D σ (List Mounted)) (old fresh : List ActivationId) (place : NodeId)
    (above : Nat) (result : List Picture × Canvas D) (s : Renderer D σ) : Prop :=
  ∃ t, Returns step s (entries result.1) t ∧ Redrawn old fresh place above result s t

theorem applyOne_of_not_keeps (anew : plan.keeps = false) (parent : NodeId) (entry : Mounted) :
    applyOne (D := D) (σ := σ) parent entry plan = replace parent entry plan := by
  cases plan with
  | text content reuse =>
      cases (anew : reuse = false)
      cases entry <;> simp only [applyOne]
  | element tag attributes children reuse =>
      cases (anew : reuse = false)
      cases entry <;> simp only [applyOne]
  | component a made component props tree output =>
      cases made with
      | false => cases anew
      | true =>
          cases entry <;>
            simp only [applyOne, Bool.not_true, Bool.false_eq_true, and_false, if_false]
  | raw node reuse =>
      cases (anew : reuse = false)
      cases entry <;> simp only [applyOne]

/-- A position that is not kept is built anew, and what stood there is unmounted. -/
theorem redraws_replace {p : Picture} (stands : Stands s.activations place above p)
    (ready : plan.Ready s.activations s.epoch above) (new : plan.New)
    (distinct : (p.activations ++ plan.fresh).Nodup) (free : s.calls.reading = []) :
    RedrawsOne (replace place p.entry plan) p.activations plan.fresh place above
      (Canvas.replace place p plan s.canvas) s := by
  obtain ⟨old, fresh, apart⟩ := List.nodup_append'.mp distinct
  rw [new.fresh_eq] at fresh apart ⊢
  obtain ⟨noted, quiet⟩ := drawn_report s (r := .replacingEntry (p.entry.debug s.activations)) rfl
  obtain ⟨t, built, produced⟩ := builds plan place (s := s.noting _) ready new fresh free
  rw [quiet.canvas] at built produced
  have apart' : ∀ a ∈ p.activations, a ∉ plan.activations := fun a inside member => apart inside member
  obtain ⟨u, put, drawn⟩ := drawn_insert (standAll_cons.mp produced.stands).1 place p.tops.head?
  have placed := produced.drawn drawn
  have still := placed.confined.stands stands apart'
  obtain ⟨v, removed, retired⟩ := unmounts_removal still (placed.confined.reading free) old place
  have before := produced.confined.stands stands apart'
  have within := (shows_of_outline (Canvas.draw_outline plan s.canvas)).2
  have whole := quiet.confined.trans (placed.confined.trans retired.confined)
  have kept : ∀ a ∈ activationsAll [(Canvas.draw plan s.canvas).1], a ∉ p.activations := by
    intro a member inside
    rw [activationsAll, activationsAll, List.append_nil, within] at member
    exact apart inside member
  refine ⟨v, ?_, ⟨retired.canvas.trans ?_, whole.mono ?_, ?_, ?_⟩, fun a member _ =>
    retired.vanished a member⟩
  · rw [replace]
    refine returns_bind.mpr ⟨s, s, returns_get.mpr ⟨rfl, rfl⟩, noted.bind (built.bind ?_)⟩
    refine returns_bind.mpr ⟨t, t, returns_get.mpr ⟨rfl, rfl⟩, ?_⟩
    rw [before.firstNode?_eq]
    obtain ⟨_, w, detached, unmounted⟩ := returns_bind.mp removed
    exact put.bind (detached.bind (unmounted.bind (returns_pure.mpr ⟨rfl, rfl⟩)))
  · rw [placed.canvas]
    rfl
  · intro a member
    simp only [List.nil_append, List.mem_append] at member ⊢
    exact member.symm
  · exact retired.confined.standAll placed.stands kept
  · intro a member
    rw [retired.confined.others a (kept a member)]
    exact placed.rendered a member

def committing (tree : Tree) (epoch : Nat) (r : Activation) : Activation :=
  { r with committed := some tree, renderedIn := epoch }

omit [Layer D] in
/-- An activation is given its next component and props, and its output is taken away. -/
theorem opens_output (found : s.activations.find? a = some r) (holds : r.output = entries output)
    (free : s.calls.reading = []) (c : Component) (props : Props) :
    ∃ t u, Returns (updateActivation a ({ · with component := c, props })) s () t ∧
      Returns (takeOutput a) t (entries output) u ∧ u.canvas = s.canvas ∧ Confined [a] s u ∧
      u.activations.find? a = some { r with component := c, props, output := [] } := by
  have record : (s.activations.update a ({ · with component := c, props })).find? a =
      some { r with component := c, props } := by
    rw [Activations.find?_update_self, found, Option.map_some]
  have taken := returns_takeOutput (a := a)
    (s := { s with activations := s.activations.update a ({ · with component := c, props }) }) free
  rw [Activations.output_eq record, holds] at taken
  refine ⟨_, _, updated .., taken, rfl, ?_, ?_⟩
  · exact ((Confined.update s a ({ · with component := c, props }) fun _ => rfl).trans
      (.update _ a ({ · with output := [] }) fun _ => rfl)).mono fun _ member => by simpa using member
  · rw [Activations.find?_update_self, record, Option.map_some]

/-- A mounted activation takes over what its output is redrawn to. -/
theorem redraws_component {dom : D} {output : List Picture} {plans : List Plan}
    (stands : Stands s.activations place above (.component a mounted old before output))
    (ready : Plan.Ready s.activations s.epoch above (.component a false c props tree plans))
    (other : a ∉ Plan.freshAll plans) (fits : Plan.FitAll dom output plans) (free : s.calls.reading = [])
    (inner : ∀ {s : Renderer D σ} (tail), StandAll s.activations place a.index output →
      Plan.ReadyAll s.activations s.epoch a.index plans → s.calls.reading = [] →
      Redraws (applyAll place tail (entries output) plans) (activationsAll output)
        (Plan.freshAll plans) place a.index (Canvas.redrawAll place tail output plans s.canvas) s) :
    ∃ t, Returns (commitBy (applyAll · · · plans) a c props tree) s () t ∧
      Redrawn (a :: activationsAll output) (Plan.freshAll plans) place above
        (let shown := Canvas.redrawAll place (s.canvas.after output) output plans s.canvas
         ([.component a c props tree shown.1], shown.2)) s t := by
  have last := stands.lastNode?_eq
  obtain ⟨later, ⟨r, found, was⟩, -, under⟩ := stands_component.mp stands
  rw [Plan.Ready] at ready
  obtain ⟨-, -, shown, ready⟩ := ready
  have outside : a ∉ activationsAll output := fun member => Nat.lt_irrefl _ (under.index a member).1
  have only : ∀ b, b ≠ a → b ∉ [a] := fun b different same => different (List.mem_singleton.mp same)
  obtain ⟨renewed, opened, renewing, taken, canvas, opening, record⟩ :=
    opens_output found was.output free c props
  -- The record is renamed and emptied before its output is patched. Both are the activation's own, so the output
  -- still stands and its plans are still ready.
  obtain ⟨t, applied, redrawn⟩ := inner (s.canvas.after output)
    (opening.standAll under fun b member => only b fun same => outside (same ▸ member))
    (opening.readyAll ready fun b member => only b fun same => other (same ▸ member))
    (opening.reading free)
  rw [canvas] at applied redrawn
  obtain ⟨same, within⟩ := Canvas.redrawAll_shows plans place (s.canvas.after output) fits s.canvas
  have apart : a ∉ activationsAll output ++ Plan.freshAll plans := fun member =>
    (List.mem_append.mp member).elim outside other
  -- The record is no part of its own output, so putting the output back moves nothing that was patched.
  have settled := redrawn.toProduced.settle
    (f := committing tree t.epoch) apart
    (fun member => (Plan.mem_of_fitAll fits (within ▸ member)).elim outside other) later (same.trans shown) record
    ⟨was.registered, was.parent, rfl, rfl, rfl, rfl⟩ redrawn.confined.epoch fun _ => rfl
  refine ⟨_, ?_, (settled.after opening).mono fun b member => ?_, fun b member absent => ?_⟩
  · obtain ⟨v, set, committed, epoch⟩ := Produced.returns_settling
      (redrawn.confined.reading (opening.reading free)) a
      (entries (Canvas.redrawAll place (s.canvas.after output) output plans s.canvas).1)
      (committing tree t.epoch)
    have parent : (s.activations.find? a).bind Activation.parent = some place := by
      rw [found, Option.bind_some, was.parent]
    have tail : ((Mounted.component a).lastNode? s.activations).bind (Layer.nextSibling? s.dom) =
        s.canvas.after output := congrArg (Option.bind · _) last
    rw [commitBy]
    refine (returns_get.mpr ⟨rfl, rfl⟩).bind ?_
    rw [parent]
    refine (returns_get.mpr ⟨rfl, rfl⟩).bind (renewing.bind (taken.bind ?_))
    rw [tail]
    refine applied.bind (set.bind ((returns_get.mpr ⟨rfl, rfl⟩).bind ?_))
    rw [epoch]
    exact committed
  · simp only [List.cons_append, List.nil_append, List.mem_cons, List.mem_append] at member ⊢
    tauto
  · simp only [activationsAll, Picture.activations, List.append_nil, List.mem_cons, not_or] at absent
    have inside := (List.mem_cons.mp member).resolve_left absent.1
    have settling := Produced.confined_settling t a
      (entries (Canvas.redrawAll place (s.canvas.after output) output plans s.canvas).1)
      (f := committing tree t.epoch) fun _ => rfl
    exact settling.vanished (redrawn.vanished b inside absent.2) (only b absent.1)

omit [Layer D] in
theorem Redrawn.leaf (drawn : Drawn change s t) (bare : p.activations = [])
    (stands : Stands t.activations place above p) :
    Redrawn [] [] place above ([p], change s.canvas) s t :=
  ⟨.leaf drawn bare stands, fun _ member => (List.not_mem_nil member).elim⟩

theorem redraws_text (node : NodeId) (content : String) (place : NodeId) (above : Nat)
    (s : Renderer D σ) : RedrawsOne (applyOne place (.text node) (.text content true)) [] [] place above
      (.text node content, s.canvas.rewrite node content) s := by
  obtain ⟨noted, quiet⟩ := drawn_report s (r := .diffingText node (.of content)) rfl
  have dom : (s.noting (.diffingText node (.of content))).dom = s.dom := rfl
  by_cases same : Layer.text? s.dom node = some content
  · refine ⟨s.noting (.diffingText node (.of content)), ?_, ?_⟩
    · rw [applyOne]
      refine noted.bind (returns_bind.mpr ⟨_, _, returns_get.mpr ⟨rfl, rfl⟩, ?_⟩)
      rw [dom, if_neg (not_not_intro same)]
      exact returns_pure.mpr ⟨rfl, rfl⟩
    · have kept : s.canvas.rewrite node content = s.canvas := if_pos same
      rw [kept]
      exact .leaf quiet rfl (stands_text.mpr trivial)
  · obtain ⟨loud, updating⟩ := drawn_report (s.noting (.diffingText node (.of content)))
      (r := .updatingText) rfl
    obtain ⟨t, written, drawn⟩ := drawn_onDom
      ((s.noting (.diffingText node (.of content))).noting .updatingText)
      (Layer.setText · node content)
    refine ⟨t, ?_, ?_⟩
    · rw [applyOne]
      refine noted.bind (returns_bind.mpr ⟨_, _, returns_get.mpr ⟨rfl, rfl⟩, ?_⟩)
      rw [dom, if_pos same]
      exact loud.bind (written.bind (returns_pure.mpr ⟨rfl, rfl⟩))
    · have changed : s.canvas.rewrite node content = s.canvas.edit (Layer.setText · node content) :=
        if_neg same
      rw [changed]
      exact .leaf ((quiet.trans updating).trans drawn) rfl (stands_text.mpr trivial)

variable {dom : D}

mutual

theorem redraws : ∀ (plan : Plan) {p place above} {s : Renderer D σ},
    Stands s.activations place above p → plan.Ready s.activations s.epoch above →
    plan.Fits dom (some p) → (p.activations ++ plan.fresh).Nodup → s.calls.reading = [] →
    RedrawsOne (applyOne place p.entry plan) p.activations plan.fresh place above
      (Canvas.redraw place p plan s.canvas) s
  | .text content true, p, place, above, s, _, _, fits, _, _ => by
      rw [Plan.Fits] at fits
      obtain ⟨node, -, ⟨_, same⟩ | ⟨_, same⟩⟩ := Plan.of_keepsText fits.symm <;> cases same <;>
        exact redraws_text node content place above s
  | .raw node true, p, place, above, s, _, _, fits, _, _ => by
      rw [Plan.Fits] at fits
      obtain ⟨there, mounted, shown, -, same⟩ := Plan.of_rawAt fits.symm
      cases same
      exact ⟨s, returns_pure.mpr ⟨rfl, rfl⟩,
        .leaf (.refl s) rfl (stands_raw.mpr trivial)⟩
  | .element tag attributes plans true, p, place, above, s, stands, ready, fits, distinct, free => by
      rw [Plan.Fits] at fits
      obtain ⟨node, _, kids, -, same⟩ := Plan.of_keepsElement fits.1.symm
      cases same
      rw [Plan.Ready] at ready
      rw [Picture.activations, Plan.fresh] at distinct ⊢
      obtain ⟨noted, quiet⟩ := drawn_report s (r := .diffingElement node tag) rfl
      obtain ⟨t, applied, redrawn⟩ := redrawsAll plans none (s := s.noting (.diffingElement node tag))
        (stands_element.mp stands) ready fits.2 distinct free
      rw [quiet.canvas] at applied redrawn
      obtain ⟨u, dressed, dressing⟩ := drawn_onBound t fun binder dom =>
        binder.apply dom node tag attributes
      refine ⟨u, ?_, (((redrawn.toProduced.after quiet.confined).drawn dressing).element tag attributes
        place), fun a member absent => ?_⟩
      · rw [entry, applyOne]
        exact noted.bind (applied.bind (dressed.bind (returns_pure.mpr ⟨rfl, rfl⟩)))
      · refine dressing.confined.vanished (redrawn.vanished a member ?_) List.not_mem_nil
        simpa only [activationsAll, Canvas.redraw, Picture.activations, List.append_nil, id_eq]
          using absent
  | .component a false c props tree plans, p, place, above, s, stands, ready, fits, distinct, free => by
      rw [Plan.Fits] at fits
      obtain ⟨mounted, _, _, output, -, same⟩ := Plan.of_kept (fits.2.1 rfl)
      cases same
      rw [Picture.activations, Plan.fresh, if_neg Bool.false_ne_true, List.nil_append,
        List.cons_append, List.nodup_cons] at distinct
      rw [Picture.activations, Plan.fresh, if_neg Bool.false_ne_true, List.nil_append]
      have inner : Plan.FitAll dom output plans := fits.2.2
      obtain ⟨noted, quiet⟩ := drawn_report s (r := .diffingComponent a) rfl
      obtain ⟨t, committed, redrawn⟩ := redraws_component (s := s.noting (.diffingComponent a)) stands
        ready (fun member => distinct.1 (List.mem_append_right _ member)) inner free
        fun tail under ready free => redrawsAll plans tail under ready inner distinct.2 free
      rw [quiet.canvas] at redrawn
      have kept : a = a ∧ (!false) = true := ⟨rfl, rfl⟩
      refine ⟨t, ?_, ?_⟩
      · rw [entry, applyOne, if_pos kept]
        exact noted.bind (committed.bind (returns_pure.mpr ⟨by rw [Canvas.redraw, if_pos kept]; rfl, rfl⟩))
      · rw [Canvas.redraw, if_pos kept]
        exact .after quiet redrawn
  | .text content false, p, place, above, s, stands, ready, fits, distinct, free => by
      rw [applyOne_of_not_keeps rfl, Canvas.redraw_of_not_keeps rfl]
      exact redraws_replace stands ready (Plan.new_of_not_keeps fits rfl) distinct free
  | .raw node false, p, place, above, s, stands, ready, fits, distinct, free => by
      rw [applyOne_of_not_keeps rfl, Canvas.redraw_of_not_keeps rfl]
      exact redraws_replace stands ready (Plan.new_of_not_keeps fits rfl) distinct free
  | .element tag attributes plans false, p, place, above, s, stands, ready, fits, distinct, free => by
      rw [applyOne_of_not_keeps rfl, Canvas.redraw_of_not_keeps rfl]
      exact redraws_replace stands ready (Plan.new_of_not_keeps fits rfl) distinct free
  | .component a true c props tree plans, p, place, above, s, stands, ready, fits, distinct, free => by
      rw [applyOne_of_not_keeps rfl, Canvas.redraw_of_not_keeps rfl]
      exact redraws_replace stands ready (Plan.new_of_not_keeps fits rfl) distinct free

theorem redrawsAll : ∀ (plans : List Plan) {ps place above} (tail : Option NodeId) {s : Renderer D σ},
    StandAll s.activations place above ps → Plan.ReadyAll s.activations s.epoch above plans →
    Plan.FitAll dom ps plans → (activationsAll ps ++ Plan.freshAll plans).Nodup →
    s.calls.reading = [] →
    Redraws (applyAll place tail (entries ps) plans) (activationsAll ps) (Plan.freshAll plans) place
      above (Canvas.redrawAll place tail ps plans s.canvas) s
  | [], ps, place, above, tail, s, stands, _, _, distinct, free => by
      obtain ⟨t, removed, retired⟩ := unmounts_removed stands free
        (List.nodup_append'.mp distinct).1 place
      rw [Canvas.redrawAll]
      refine ⟨t, ?_, ⟨retired.canvas, retired.confined.mono fun a => List.mem_append_left _,
        standAll_nil.mpr trivial, fun _ member => (List.not_mem_nil member).elim⟩,
        fun a member _ => retired.vanished a member⟩
      rw [applyAll]
      exact removed.bind (returns_pure.mpr ⟨rfl, rfl⟩)
  | plan :: plans, [], place, above, tail, s, stands, ready, fits, distinct, free => by
      have new := Plan.new_of_fitAll_nil fits
      rw [new.fresh_eq] at distinct ⊢
      obtain ⟨t, added, produced⟩ := builds_entries place tail (plan :: plans) ready new distinct free
      refine ⟨t, ?_, ?_, fun _ member => (List.not_mem_nil member).elim⟩
      · rw [entries, applyAll, Canvas.redrawAll]
        · exact added
        · exact nofun
      · rw [Canvas.redrawAll]
        exact produced
  | plan :: plans, p :: ps, place, above, tail, s, stands, ready, fits, distinct, free => by
      rw [standAll_cons] at stands
      rw [Plan.ReadyAll] at ready
      rw [Plan.FitAll] at fits
      rw [activationsAll, Plan.freshAll] at distinct ⊢
      have apart : ∀ a, a ∈ activationsAll ps ∨ a ∈ Plan.freshAll plans →
          a ∉ p.activations ++ plan.fresh := fun a second first =>
        parts_apart distinct a (List.mem_append.mp first) second
      obtain ⟨t, applied, one⟩ := redraws plan stands.1 ready.1 fits.1
        (first_parts_nodup distinct) free
      obtain ⟨u, others, two⟩ := redrawsAll plans tail
        (one.confined.standAll stands.2 fun a member => apart a (.inl member))
        (one.confined.readyAll ready.2 fun a member => apart a (.inr member)) fits.2
        (second_parts_nodup distinct) (one.confined.reading free)
      rw [one.canvas] at others two
      refine ⟨u, ?_, ?_⟩
      · rw [entries, applyAll]
        exact applied.bind (others.bind (returns_pure.mpr ⟨rfl, rfl⟩))
      · refine one.cons two distinct fun a member => Plan.mem_of_fits fits.1 ?_
        exact (shows_of_outline (Canvas.redraw_outline plan place fits.1 s.canvas)).2 ▸ member

end

end Renderer
end Patchwork
