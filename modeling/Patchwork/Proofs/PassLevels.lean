import Patchwork.Proofs.Pass

/-! Passes at any level. Whatever the level at which components are invoked, pairing that returns is a
pass of the relation, and pairing that does not return is nested too deeply. -/
namespace Patchwork.Renderer

variable {D σ : Type} {δ : StateData} [HasStateData σ δ]

theorem total_checkCellCount (a : ActivationId) : Total (checkCellCount a : RenderM D σ Unit) := by
  refine total_get.bind fun s => ?_
  split
  · refine (total_updateActivation _ _).bind fun _ => ?_
    split
    · split
      · exact total_report _
      · exact total_pure _
    · exact total_pure _
  · exact total_pure _

theorem givesUp_withCalls {f : Calls → Calls} {step : RenderM D σ α}
    (gaveUp : GivesUp (withCalls f step) s reason) : ∃ t, GivesUp step t reason := by
  obtain ⟨_, _, _, gaveUp⟩ := total_get.givesUp_bind gaveUp
  obtain ⟨_, t, _, gaveUp⟩ := (total_modify _).givesUp_bind gaveUp
  exact ⟨t, gaveUp.of_bind fun _ => (total_modify _).bind fun _ => total_pure _⟩

variable [Layer D]

theorem pair_text (invocation : Invocation D σ) (owner : Option ActivationId)
    (entry : Option Mounted) (content : String) :
    pair invocation owner entry (.text content) =
      checkEntry entry >>= fun reuse => pure (.ok (.text content reuse)) := by
  rcases entry with _ | _ | _ | _ | _ <;> simp only [pair, checkEntry, pure_bind]

theorem pair_element (invocation : Invocation D σ) (owner : Option ActivationId)
    (entry : Option Mounted) (tag : String) (attributes : Attributes) (children : List Flat) :
    pair invocation owner entry (.element tag attributes children) =
      opening tag entry >>= fun opened => pairAll invocation owner opened.2 children >>= fun plans =>
        pure (plans.map (.element tag attributes · opened.1)) := by
  cases found : elementAt? tag entry with
  | none => simp only [pair, opening, found, pure_bind]
  | some element => simp only [pair, opening, found, bind_assoc, pure_bind]

theorem pair_component (invocation : Invocation D σ) (owner : Option ActivationId)
    (entry : Option Mounted) (reference : ComponentRef) :
    pair invocation owner entry (.component reference) =
      placing owner reference entry >>= fun placed =>
        invocation placed.1 reference.component reference.props >>= fun rendered =>
          pure (planRendered placed.2 rendered) := by
  simp only [pair, placing, bind_assoc]
  refine congrArg _ (funext fun s => ?_)
  cases activationAt? s.activations reference.component entry with
  | none => simp only [bind_assoc, pure_bind]
  | some a => simp only [pure_bind]

theorem pair_raw (invocation : Invocation D σ) (owner : Option ActivationId)
    (entry : Option Mounted) (node : RawNode) :
    pair invocation owner entry (.raw node) = pure (.ok (.raw node (rawAt node entry))) := by
  rcases entry with _ | _ | _ | _ | _ <;> simp only [pair, rawAt]

/-- What a position that was dealt with first adds to a pass over the positions after it. -/
def Leads (program : Program σ) (owner : Option ActivationId) (entry : Option Mounted)
    (position : Flat) (s : Renderer D σ) (one : List (Trial δ)) (t : Renderer D σ) : Fallible Plan → Prop
  | .error e => ∀ entries positions, entries.head? = entry →
      Passes program owner entries (position :: positions) s one (.error e) t
  | .ok plan => ∀ entries positions two plans u, entries.head? = entry →
      Passes program owner entries.tail positions t two plans u →
      Passes program owner entries (position :: positions) s (one ++ two) (plans.map (plan :: ·)) u

/-- The invocations that happen at a level follow the relation. -/
def Sound (program : Program σ) (invocation : Invocation D σ) : Prop :=
  ∀ {a component props s rendered t}, Returns (invocation a component props) s rendered t →
    ∃ trials, Invokes program a component props s trials rendered t

variable {program : Program σ} {invocation : Invocation D σ}

theorem leads_component (sound : Sound program invocation) {s t : Renderer D σ}
    (returned : Returns (pair invocation owner entry (.component reference)) s plan t) :
    ∃ trials, Leads program owner entry (.component reference) s trials t plan := by
  simp only [pair_component, returns_bind, returns_pure] at returned
  obtain ⟨⟨a, fresh⟩, u, placed, rendered, v, invoked, rfl, rfl⟩ := returned
  obtain ⟨trials, invokes⟩ := sound invoked
  refine ⟨trials, ?_⟩
  cases invokes with
  | failed ran => exact fun entries positions same => .componentFailed (same ▸ placed) ran
  | @paired _ _ _ _ plans _ ran passes =>
      cases plans with
      | error e => exact fun entries positions same => .outputFailed (same ▸ placed) ran passes
      | ok output =>
          exact fun entries positions two plans u same rest =>
            .component (same ▸ placed) ran passes rest

mutual

theorem pair_sound (sound : Sound program invocation) {s t : Renderer D σ} :
    ∀ (position : Flat) {owner entry plan},
      Returns (pair invocation owner entry position) s plan t →
      ∃ trials, Leads program owner entry position s trials t plan
  | .text content, owner, entry, plan, returned => by
      simp only [pair_text, returns_bind, returns_pure] at returned
      obtain ⟨reuse, _, checked, rfl, rfl⟩ := returned
      exact ⟨[], fun entries positions two plans u same rest => .text (same ▸ checked) rest⟩
  | .element tag attributes children, owner, entry, plan, returned => by
      simp only [pair_element, returns_bind, returns_pure] at returned
      obtain ⟨⟨live, inner⟩, u, opened, kids, v, paired, rfl, rfl⟩ := returned
      obtain ⟨trials, passes⟩ := pairAll_sound sound children paired
      refine ⟨trials, ?_⟩
      cases kids with
      | error e => exact fun entries positions same => .elementFailed (same ▸ opened) passes
      | ok kids =>
          exact fun entries positions two plans u same rest => .element (same ▸ opened) passes rest
  | .component reference, owner, entry, plan, returned => leads_component sound returned
  | .raw node, owner, entry, plan, returned => by
      rw [pair_raw, returns_pure] at returned
      obtain ⟨rfl, rfl⟩ := returned
      exact ⟨[], fun entries positions two plans u same rest => same ▸ .raw rest⟩

theorem pairAll_sound (sound : Sound program invocation) {s t : Renderer D σ} :
    ∀ (positions : List Flat) {owner entries plans},
      Returns (pairAll invocation owner entries positions) s plans t →
      ∃ trials, Passes program owner entries positions s trials plans t
  | [], owner, entries, plans, returned => by
      simp only [pairAll, returns_pure] at returned
      obtain ⟨rfl, rfl⟩ := returned
      exact ⟨[], .nil⟩
  | position :: positions, owner, entries, plans, returned => by
      simp only [pairAll, returns_bind] at returned
      obtain ⟨plan, u, first, returned⟩ := returned
      obtain ⟨one, leads⟩ := pair_sound sound position first
      cases plan with
      | error e =>
          obtain ⟨rfl, rfl⟩ := returns_pure.mp returned
          exact ⟨one, leads entries positions rfl⟩
      | ok plan =>
          simp only [returns_bind, returns_pure] at returned
          obtain ⟨plans, _, rest, rfl, rfl⟩ := returned
          obtain ⟨two, passes⟩ := pairAll_sound sound positions rest
          exact ⟨one ++ two, leads entries positions two plans _ rfl passes⟩

end

theorem ran_of_invoking (quiet : program.Quiet) {below : Nat} {s t : Renderer D σ}
    (returned : Returns (do
      report (.renderingActivation a component.name)
      invoking a (perform (level program below) (program.component component props))) s outcome t) :
    ∃ deeds, Ran program a component props s deeds outcome t := by
  simp only [invoking, returns_bind, returns_report, returns_updateActivation, returns_withCalls]
    at returned
  obtain ⟨_, _, rfl, _, _, rfl, result, _, ⟨u, performed, rfl⟩, returned⟩ := returned
  obtain ⟨deeds, acts⟩ := acts_of_perform quiet below _ (quiet component props) performed
  split at returned
  · rename_i fine
    simp only [returns_bind, returns_pure] at returned
    obtain ⟨_, _, checked, rfl, rfl⟩ := returned
    exact ⟨deeds, .ended acts (by rwa [if_pos fine])⟩
  · rename_i failed
    obtain ⟨rfl, rfl⟩ := returns_pure.mp returned
    exact ⟨deeds, .ended acts (by rw [if_neg failed]; exact returns_pure.mpr ⟨rfl, rfl⟩)⟩

theorem sound_level (quiet : program.Quiet) :
    ∀ below, Sound program (level (D := D) program below).invocation
  | 0, _, _, _, _, _, _, returned => (returns_abort.mp returned).elim
  | below + 1, a, component, props, s, rendered, t, returned => by
      simp only [level, renderOutputBy] at returned
      rw [← bind_assoc, returns_bind] at returned
      obtain ⟨outcome, u, invoked, returned⟩ := returned
      obtain ⟨deeds, ran⟩ := ran_of_invoking quiet invoked
      cases outcome with
      | error e =>
          obtain ⟨rfl, rfl⟩ := returns_pure.mp returned
          exact ⟨_, .failed ran⟩
      | ok tree =>
          simp only [pairOutput, returns_bind, returns_get, returns_withCalls, returns_pure] at returned
          obtain ⟨plans, _, ⟨_, _, ⟨rfl, rfl⟩, v, paired, rfl⟩, rfl, rfl⟩ := returned
          obtain ⟨trials, passes⟩ := pairAll_sound (sound_level quiet below) _ paired
          exact ⟨_, .paired ran passes⟩

theorem total_checkEntry (entry : Option Mounted) : Total (checkEntry entry : RenderM D σ Bool) := by
  rcases entry with _ | ⟨node⟩ | _ | _ | _
  case some.text =>
    refine total_get.bind fun s => ?_
    dsimp only
    split
    · exact (total_report _).bind fun _ => total_pure _
    · exact total_pure _
  all_goals exact total_pure _

theorem total_opening (tag : String) (entry : Option Mounted) :
    Total (opening tag entry : RenderM D σ (Bool × List Mounted)) := by
  unfold opening
  split
  · exact total_pure _
  · refine Total.bind (total_get.bind fun s => ?_) fun _ => total_pure _
    dsimp only
    split
    · exact (total_report _).bind fun _ => total_pure _
    · exact total_pure _

omit [Layer D] in
theorem total_placing (owner : Option ActivationId) (reference : ComponentRef)
    (entry : Option Mounted) : Total (placing owner reference entry : RenderM D σ _) := by
  refine total_get.bind fun s => ?_
  split
  · exact total_pure _
  · exact Total.bind ((total_modifyGet _).bind fun _ => (total_report _).bind fun _ =>
      (total_modify _).bind fun _ => total_pure _) fun _ => total_pure _

mutual

theorem exhausted_of_pair {reason : Abort}
    (inner : ∀ {a component props} {s : Renderer D σ}, GivesUp (invocation a component props) s reason →
      reason = .exhausted) :
    ∀ (position : Flat) {owner entry} {s : Renderer D σ},
      GivesUp (pair invocation owner entry position) s reason → reason = .exhausted
  | .text content, _, _, _, gaveUp => by
      rw [pair_text] at gaveUp
      exact (((total_checkEntry _).bind fun _ => total_pure _).not_givesUp gaveUp).elim
  | .element tag attributes children, _, _, _, gaveUp => by
      rw [pair_element] at gaveUp
      obtain ⟨_, _, _, gaveUp⟩ := (total_opening _ _).givesUp_bind gaveUp
      exact exhausted_of_pairAll inner children (gaveUp.of_bind fun _ => total_pure _)
  | .component reference, _, _, _, gaveUp => by
      rw [pair_component] at gaveUp
      obtain ⟨_, _, _, gaveUp⟩ := (total_placing _ _ _).givesUp_bind gaveUp
      exact inner (gaveUp.of_bind fun _ => total_pure _)
  | .raw node, _, _, _, gaveUp => by
      rw [pair_raw] at gaveUp
      exact ((total_pure _).not_givesUp gaveUp).elim

theorem exhausted_of_pairAll {reason : Abort}
    (inner : ∀ {a component props} {s : Renderer D σ}, GivesUp (invocation a component props) s reason →
      reason = .exhausted) :
    ∀ (positions : List Flat) {owner entries} {s : Renderer D σ},
      GivesUp (pairAll invocation owner entries positions) s reason → reason = .exhausted
  | [], _, _, _, gaveUp => by
      rw [pairAll] at gaveUp
      exact ((total_pure _).not_givesUp gaveUp).elim
  | position :: positions, _, _, _, gaveUp => by
      rw [pairAll] at gaveUp
      obtain gaveUp | ⟨plan, _, _, gaveUp⟩ := givesUp_bind.mp gaveUp
      · exact exhausted_of_pair inner position gaveUp
      cases plan with
      | error e => exact ((total_pure _).not_givesUp gaveUp).elim
      | ok plan =>
          exact exhausted_of_pairAll inner positions (gaveUp.of_bind fun _ => total_pure _)

end

/-- A pass that does not come to an end is nested too deeply. -/
theorem exhausted_of_level (quiet : program.Quiet) {reason : Abort} :
    ∀ below {a component props} {s : Renderer D σ},
      GivesUp ((level program below).invocation a component props) s reason → reason = .exhausted
  | 0, _, _, _, _, gaveUp => by
      cases gaveUp
      rfl
  | below + 1, a, component, props, s, gaveUp => by
      simp only [level, renderOutputBy] at gaveUp
      obtain ⟨_, _, _, gaveUp⟩ := (total_report _).givesUp_bind gaveUp
      obtain gaveUp | ⟨outcome, _, _, gaveUp⟩ := givesUp_bind.mp gaveUp
      · obtain ⟨_, _, _, gaveUp⟩ := (total_updateActivation _ _).givesUp_bind gaveUp
        obtain gaveUp | ⟨outcome, _, _, gaveUp⟩ := givesUp_bind.mp gaveUp
        · obtain ⟨_, gaveUp⟩ := givesUp_withCalls gaveUp
          exact exhausted_of_perform quiet below _ (quiet component props) gaveUp
        · split at gaveUp
          · exact (((total_checkCellCount a).bind fun _ => total_pure _).not_givesUp gaveUp).elim
          · exact ((total_pure _).not_givesUp gaveUp).elim
      · cases outcome with
        | error e => exact ((total_pure _).not_givesUp gaveUp).elim
        | ok tree =>
            obtain ⟨_, _, _, gaveUp⟩ := total_get.givesUp_bind (gaveUp.of_bind fun _ => total_pure _)
            obtain ⟨_, gaveUp⟩ := givesUp_withCalls gaveUp
            exact exhausted_of_pairAll (exhausted_of_level quiet below) _ gaveUp

end Patchwork.Renderer
