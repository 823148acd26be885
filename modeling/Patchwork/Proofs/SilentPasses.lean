import Patchwork.Proofs.DocumentPictures
import Patchwork.Proofs.PlanEffects
import Patchwork.Proofs.PlanSpec
import Patchwork.Layer.Audited

/-! Passes over what is shown. As long as the live nodes are there, a pass over them raises no alarm, so
that the canvas is the same before and after it. -/
namespace Patchwork

open Picture

theorem Text.lower_lower (s : String) : Text.lower (Text.lower s) = Text.lower s := by
  have again : Char.toLower ∘ Char.toLower = Char.toLower := funext fun c => by
    rw [Function.comp_apply]
    delta Char.toLower
    grind
  rw [Text.lower, Text.lower, String.map_map, again]

/-- Whether a computation reports an alarm of its own, whatever answers it gets. -/
inductive Action.RaisesAlarm {σ : Type} {δ : StateData} [HasStateData σ δ] : {α : Type} → Action σ α → Prop
  | here : r ∈ rs → r.isAlarm = true → RaisesAlarm (.report rs next)
  | load (s : σ) : RaisesAlarm (next s) → RaisesAlarm (.load next)
  | store : RaisesAlarm next → RaisesAlarm (.store s next)
  | report : RaisesAlarm next → RaisesAlarm (.report rs next)
  | initial {initial : Action σ (δ.DatumOf type)} :
      RaisesAlarm initial → RaisesAlarm (.useState type initial next)
  | useState (r : Except RenderError (δ.Datum × Setter δ.DataType)) :
      RaisesAlarm (next r) → RaisesAlarm (.useState type initial next)
  | getCell (d : δ.Datum) : RaisesAlarm (next d) → RaisesAlarm (.getCell setter next)
  | updateCell : RaisesAlarm next → RaisesAlarm (.updateCell setter f next)
  | invoke (r : Except RenderError Tree) :
      RaisesAlarm (next r) → RaisesAlarm (.invoke c props next)

/-- No component raises alarms of its own. -/
def Program.Discreet {σ : Type} {δ : StateData} [HasStateData σ δ] (program : Program σ) : Prop :=
  ∀ component props, ¬ (program.component component props).RaisesAlarm

namespace Renderer

variable {D σ α β : Type} {δ : StateData} [HasStateData σ δ] {s t u : Renderer D σ} {program : Program σ}

/-- The step does not show on the canvas. -/
def Unseen (step : RenderM D σ α) : Prop := ∀ s a t, Returns step s a t → t.canvas = s.canvas

theorem unseen_pure (a : α) : Unseen (pure a : RenderM D σ α) := fun s b t returned => by
  obtain ⟨-, rfl⟩ := returns_pure.mp returned
  rfl

theorem Unseen.bind {first : RenderM D σ α} {rest : α → RenderM D σ β} (one : Unseen first)
    (two : ∀ a, Unseen (rest a)) : Unseen (first >>= rest) := fun s b u returned => by
  obtain ⟨a, t, begun, ended⟩ := returns_bind.mp returned
  exact (two a t b u ended).trans (one s a t begun)

theorem unseen_get : Unseen (get : RenderM D σ (Renderer D σ)) := fun s b t returned => by
  obtain ⟨-, rfl⟩ := returns_get.mp returned
  rfl

theorem unseen_modify (f : Renderer D σ → Renderer D σ) (same : ∀ s, (f s).canvas = s.canvas) :
    Unseen (modify f : RenderM D σ PUnit) := fun s b t returned => by
  cases returns_modify.mp returned
  exact same s

theorem unseen_report (quiet : r.isAlarm = false) : Unseen (report r : RenderM D σ Unit) :=
  unseen_modify _ fun s => by
    simp only [canvas, List.filter_cons, quiet, Bool.false_eq_true, if_false]

theorem unseen_updateActivation (a : ActivationId) (f : Activation → Activation) :
    Unseen (updateActivation a f : RenderM D σ Unit) := unseen_modify _ fun _ => rfl

theorem HookStep.canvas_eq (step : HookStep type s answer t) : t.canvas = s.canvas := by
  cases step with
  | astray | met => rfl

theorem Wants.canvas_eq (wants : Wants s a t) : t.canvas = s.canvas := by
  cases wants with
  | missing =>
      simp only [canvas, advancing, noting, List.filter_cons, Report.isAlarm, Bool.false_eq_true, if_false]

theorem unseen_requestUpdate (a : ActivationId) : Unseen (requestUpdate a : RenderM D σ Unit) := by
  refine unseen_get.bind fun s => ?_
  split
  · exact unseen_pure _
  · refine unseen_get.bind fun _ => ?_
    split
    · exact unseen_report rfl
    · refine (unseen_report rfl).bind fun _ => unseen_get.bind fun s => ?_
      refine .bind (unseen_modify _ ?_) fun _ => ?_
      · exact fun _ => rfl
      split
      · exact unseen_report rfl
      · exact unseen_pure _
      · exact (unseen_report rfl).bind fun _ => unseen_modify _ fun _ => rfl

theorem unseen_updateCell (setter : Setter δ.DataType) (change : δ.Datum → δ.Datum) :
    Unseen (updateCell setter change : RenderM D σ Unit) := by
  refine unseen_get.bind fun _ => ?_
  split
  · dsimp only
    split
    · exact unseen_report rfl
    · refine .bind (unseen_modify _ ?_) fun _ => unseen_requestUpdate _
      exact fun _ => rfl
  · exact unseen_pure _

theorem unseen_checkCellCount (a : ActivationId) : Unseen (checkCellCount a : RenderM D σ Unit) := by
  refine unseen_get.bind fun s => ?_
  split
  · refine (unseen_updateActivation _ _).bind fun _ => ?_
    split
    · split
      · exact unseen_report rfl
      · exact unseen_pure _
    · exact unseen_pure _
  · exact unseen_pure _

theorem Acts.canvas_eq {x : Action σ α} (acts : Acts program x s deeds a t)
    (discreet : program.Discreet) (silent : ¬ x.RaisesAlarm) : t.canvas = s.canvas := by
  induction acts with
  | done => rfl
  | load _ ih => exact ih fun r => silent (.load _ r)
  | store _ ih => exact ih fun r => silent (.store r)
  | @report _ _ s _ _ _ rs _ ih =>
      rw [ih fun r => silent (.report r)]
      have none_loud : rs.filter Report.isAlarm = [] := List.filter_eq_nil_iff.mpr fun r member loud =>
        silent (.here member loud)
      simp only [canvas, filter_reverseAux, none_loud, List.reverseAux]
  | asked step _ ih =>
      rw [ih fun r => silent (.useState _ r)]
      exact step.canvas_eq
  | made wants _ _ inner ih =>
      rw [ih fun r => silent (.useState _ r)]
      exact (inner fun r => silent (.initial r)).trans wants.canvas_eq
  | getCell _ ih => exact ih fun r => silent (.getCell _ r)
  | updateCell updated _ ih =>
      rw [ih fun r => silent (.updateCell r)]
      exact unseen_updateCell _ _ _ _ _ updated
  | invoke _ _ inner ih =>
      rw [ih fun r => silent (.invoke _ r)]
      exact inner (discreet _ _)

theorem Ran.canvas_eq (ran : Ran program a c props s deeds outcome t)
    (discreet : program.Discreet) : t.canvas = s.canvas := by
  obtain ⟨acts, checked⟩ := ran
  have body := acts.canvas_eq discreet (discreet c props)
  have entered : (s.entering a c).canvas = s.canvas := by
    simp only [canvas, entering, List.filter_cons, Report.isAlarm, Bool.false_eq_true, if_false]
  refine Eq.trans ?_ (body.trans entered)
  split at checked
  · have counted := unseen_checkCellCount a _ () t checked
    exact counted
  · obtain ⟨_, rfl⟩ := returns_pure.mp checked
    rfl

theorem canvas_placing (returned : Returns (placing owner reference found) s placed t) :
    t.canvas = s.canvas := by
  obtain ⟨a, fresh⟩ := placed
  obtain ⟨_, _, rfl⟩ | ⟨_, _, index, rfl⟩ := placing_cases returned
  · rfl
  · simp only [canvas, List.filter_cons, Report.isAlarm, Bool.false_eq_true, if_false]

end Renderer

section Looking

variable {D σ : Type} {δ : StateData} [HasStateData σ δ] [Documented D] {s t u : Renderer D σ} {program : Program σ}

namespace Renderer

def document (s : Renderer D σ) : Document := Documented.document s.dom

def Sees (s : Renderer D σ) (ps : List Picture) : Prop := SeenAll s.document s.binder ps

theorem Sees.of_canvas (sees : s.Sees ps) (same : t.canvas = s.canvas) : t.Sees ps := by
  have dom := congrArg Canvas.dom same
  have binder := congrArg Canvas.binder same
  simp only [canvas] at dom binder
  rw [Sees, document, dom, binder]
  exact sees

theorem Sees.head? (sees : s.Sees ps) (first : ps.head? = some p) : Seen s.document s.binder p :=
  seenAll_iff.mp sees p (List.mem_of_head? first)

theorem Sees.tail (sees : s.Sees ps) : s.Sees ps.tail :=
  seenAll_iff.mpr fun p member => seenAll_iff.mp sees p (List.mem_of_mem_tail member)

theorem Sees.inside (sees : s.Sees ps) : s.Sees (Plan.inside ps.head?) := by
  cases first : ps.head? with
  | none => exact seenAll_nil.mpr trivial
  | some p =>
      have seen := sees.head? first
      cases p with
      | element => exact (seen_element.mp seen).2.2
      | component => exact (seen_component.mp seen).2
      | text | missing => exact seenAll_nil.mpr trivial
      | raw => simp only [Seen] at seen

theorem elementIsLive_of_elementAt {dom : D} {binder : Binder}
    (shown : ElementAt (Documented.document dom) binder n tag attributes) : elementIsLive dom n tag = true := by
  obtain ⟨e, _, found, -, wears⟩ := shown
  have live : Layer.tagName? dom n = some e.tag := by
    rw [Documented.tagName?_eq, Document.tagName?]
    exact congrArg (Option.map Element.tag) found
  rw [elementIsLive, live, Option.any_some, wears.named, Text.eqIgnoringCase, Text.lower_lower,
    beq_self_eq_true]

theorem Sees.checkEntry (sees : s.Sees ps)
    (returned : Returns (checkEntry (ps.head?.map entry)) s live t) : t = s := by
  have unasked : ∀ {e}, (∀ n, e ≠ some (Mounted.text n)) → Returns (Renderer.checkEntry e) s live t →
      t = s := by
    intro e other returned
    rw [Renderer.checkEntry.eq_def] at returned
    split at returned
    next n => exact absurd rfl (other n)
    next => exact (returns_pure.mp returned).2.symm
  have asked : ∀ {n content}, s.document.text? n = some content →
      Returns (Renderer.checkEntry (D := D) (some (.text n))) s live t → t = s := by
    intro n content found returned
    have there : (Layer.text? s.dom n).isSome = true := by
      rw [Documented.text?_eq]
      exact Option.isSome_iff_exists.mpr ⟨_, found⟩
    simp only [Renderer.checkEntry, checkText, returns_bind, returns_get] at returned
    obtain ⟨_, _, ⟨rfl, rfl⟩, returned⟩ := returned
    simp only [there, Bool.not_true, Bool.false_eq_true, if_false, returns_pure] at returned
    exact returned.2.symm
  cases first : ps.head? with
  | none =>
      rw [first] at returned
      exact unasked (fun _ same => by cases same) returned
  | some p =>
      have seen := sees.head? first
      rw [first] at returned
      cases p with
      | text n content =>
          rw [Seen] at seen
          exact asked seen.text returned
      | missing n raw =>
          rw [Seen] at seen
          exact asked seen.text returned
      | element | component | raw => exact unasked (fun _ same => by cases same) returned

theorem Sees.opening (sees : s.Sees ps)
    (returned : Returns (opening tag (ps.head?.map entry)) s found t) : t = s := by
  unfold Renderer.opening at returned
  split at returned
  · exact (returns_pure.mp returned).2.symm
  next node kids found =>
    simp only [checkElement, returns_bind, returns_get, returns_pure] at returned
    obtain ⟨_, u, ⟨_, _, ⟨rfl, rfl⟩, returned⟩, -, rfl⟩ := returned
    have there : (Layer.tagName? s.dom node).any (Text.eqIgnoringCase · tag) = true := by
      cases first : ps.head? with
      | none =>
          rw [first] at found
          cases found
      | some p =>
          have seen := sees.head? first
          rw [first] at found
          cases p with
          | element n mounted attributes children =>
              obtain ⟨shown, -⟩ := seen_element.mp seen
              simp only [Option.map_some, entry, elementAt?] at found
              split at found
              next same =>
                cases found
                exact same ▸ elementIsLive_of_elementAt shown
              next => cases found
          | _ => cases found
    simp only [there, Bool.not_true, Bool.false_eq_true, if_false, returns_pure] at returned
    exact returned.2.symm

theorem Sees.placed (sees : s.Sees ps) (made : Bool) :
    s.Sees (if made then [] else Plan.inside ps.head?) := by
  cases made with
  | true => exact seenAll_nil.mpr trivial
  | false => exact sees.inside

/-- A pass over what is shown does not show on the canvas. -/
theorem Passes.canvas_eq (passes : Passes program owner es positions s trials result t)
    (discreet : program.Discreet) :
    ∀ {ps place above}, es = entries ps → StandAll s.activations place above ps →
      above ≤ Arena.issued s.activations → s.Sees ps → t.canvas = s.canvas := by
  -- It is not enough that the pictures stand: a recorded node that is not live would be reported.
  induction passes with
  | nil => exact fun _ _ _ _ => rfl
  | text checked passes ih =>
      rintro ps place above rfl stands enough sees
      rw [head?_entries] at checked
      obtain rfl := sees.checkEntry checked
      exact ih (tail_entries ps) stands.tail enough sees.tail
  | raw passes ih =>
      rintro ps place above rfl stands enough sees
      exact ih (tail_entries ps) stands.tail enough sees.tail
  | element opened inner passes one two =>
      rintro ps place above rfl stands enough sees
      rw [head?_entries] at opened
      obtain ⟨-, same⟩ := undisturbed_opening opened
      obtain rfl := sees.opening opened
      rw [opened_eq] at same
      obtain ⟨rfl, rfl⟩ := Prod.mk.inj same
      obtain ⟨node, under⟩ := stands.inside
      have kids := one rfl (by split <;> [exact under; exact standAll_nil.mpr trivial]) enough
        (by split <;> [exact sees.inside; exact seenAll_nil.mpr trivial])
      have rest := two (tail_entries ps) (inner.advances.standAll stands).tail
        (Nat.le_trans enough inner.advances.issued) (sees.of_canvas kids).tail
      exact rest.trans kids
  | elementFailed opened inner one =>
      rintro ps place above rfl stands enough sees
      rw [head?_entries] at opened
      obtain ⟨-, same⟩ := undisturbed_opening opened
      obtain rfl := sees.opening opened
      rw [opened_eq] at same
      obtain ⟨rfl, rfl⟩ := Prod.mk.inj same
      obtain ⟨node, under⟩ := stands.inside
      exact one rfl (by split <;> [exact under; exact standAll_nil.mpr trivial]) enough
        (by split <;> [exact sees.inside; exact seenAll_nil.mpr trivial])
  | component placed ran inner passes one two =>
      rintro ps place above rfl stands enough sees
      rw [head?_entries] at placed
      have invoked := (ran.canvas_eq discreet).trans (canvas_placing placed)
      have found := advances_placing placed
      have placed := (placed_of_placing stands enough placed).ran ran.undisturbed
      have begun := (found.trans ran.undisturbed.advances).trans (inner.advances.resuming rfl)
      have output := (one placed.output placed.inner placed.issued
        ((sees.of_canvas invoked).placed _)).trans invoked
      have rest := two (tail_entries ps) (begun.standAll stands).tail
        (Nat.le_trans enough begun.issued) (sees.of_canvas output).tail
      exact rest.trans output
  | componentFailed placed ran =>
      rintro ps place above rfl stands enough sees
      exact (ran.canvas_eq discreet).trans (canvas_placing placed)
  | outputFailed placed ran inner one =>
      rintro ps place above rfl stands enough sees
      rw [head?_entries] at placed
      have invoked := (ran.canvas_eq discreet).trans (canvas_placing placed)
      have placed := (placed_of_placing stands enough placed).ran ran.undisturbed
      exact (one placed.output placed.inner placed.issued
        ((sees.of_canvas invoked).placed _)).trans invoked

/-- An invocation whose output is shown does not show on the canvas. -/
theorem Invokes.canvas_eq (invokes : Invokes program a c props s trials rendered t)
    (discreet : program.Discreet)
    (stands : Stands s.activations place above (.component a c' props' tree output))
    (sees : s.Sees output) : t.canvas = s.canvas := by
  cases invokes with
  | failed ran => exact ran.canvas_eq discreet
  | paired ran passes =>
      have invoked := ran.canvas_eq discreet
      have calm := ran.undisturbed
      have still := stands.congr fun b _ => calm.bare b
      obtain ⟨later, ⟨r, found, shows⟩, shown, inner⟩ := stands_component.mp still
      have holds := (Activations.output_eq found).trans shows.output
      exact (passes.canvas_eq discreet holds inner (Activations.index_le_issued found)
        (sees.of_canvas invoked)).trans invoked

end Renderer
end Looking
end Patchwork
