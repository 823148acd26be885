import Patchwork.Proofs.PlanEffects
import Patchwork.Renderer.Engine

/-! Unmounting: the live nodes of a picture are released, and its activations are destroyed along with
their outputs. -/
namespace Patchwork.Renderer

open Picture

variable {D σ : Type} {δ : StateData} [HasStateData σ δ] [Layer D] {s t u : Renderer D σ}

/-- The canvas changed as told, and some activations were destroyed. -/
structure Retired (gone : List ActivationId) (change : Canvas D → Canvas D) (s t : Renderer D σ) :
    Prop where
  canvas : t.canvas = change s.canvas
  confined : Confined gone s t
  vanished : ∀ a ∈ gone, t.activations.Vanished a

omit [Layer D] in
theorem Drawn.retired (drawn : Drawn change s t) : Retired [] change s t :=
  ⟨drawn.canvas, drawn.confined, fun _ member => (List.not_mem_nil member).elim⟩

omit [Layer D] in
theorem Retired.trans (one : Retired first f s t) (two : Retired second g t u)
    (apart : ∀ a ∈ first, a ∉ second) : Retired (first ++ second) (fun c => g (f c)) s u where
  canvas := by rw [two.canvas, one.canvas]
  confined := one.confined.trans two.confined
  vanished a member := by
    rw [List.mem_append] at member
    cases member with
    | inl early => exact two.confined.vanished (one.vanished a early) (apart a early)
    | inr late => exact two.vanished a late

/-- The step unmounts what the picture shows, at any state in which the table stands for it. -/
def Unmounts (step : RenderM D σ Unit) (gone : List ActivationId) (change : Canvas D → Canvas D)
    (s : Renderer D σ) : Prop :=
  ∃ t, Returns step s () t ∧ Retired gone change s t

omit [Layer D] in
theorem unmounts_nothing (s : Renderer D σ) : Unmounts (pure ()) [] id s :=
  ⟨s, returns_pure.mpr ⟨rfl, rfl⟩, rfl, .refl s, fun _ member => (List.not_mem_nil member).elim⟩

omit [Layer D] in
theorem Unmounts.cons {step rest : RenderM D σ Unit} (one : Unmounts step p.activations f s)
    (stands : StandAll s.activations place above ps) (free : s.calls.reading = [])
    (distinct : (activationsAll (p :: ps)).Nodup)
    (two : ∀ {t}, StandAll t.activations place above ps →
      Arena.issued t.activations = Arena.issued s.activations → t.calls.reading = [] →
      (activationsAll ps).Nodup → Unmounts rest (activationsAll ps) g t) :
    Unmounts (step >>= fun _ => rest) (activationsAll (p :: ps)) (fun c => g (f c)) s := by
  rw [activationsAll, List.nodup_append'] at distinct
  obtain ⟨-, later, apart⟩ := distinct
  obtain ⟨t, unmounted, retired⟩ := one
  have still := retired.confined.standAll stands fun a member inside => apart inside member
  obtain ⟨u, others, retiring⟩ := two still retired.confined.issued
    ((congrArg Calls.reading retired.confined.calls).trans free) later
  refine ⟨u, unmounted.bind others, ?_⟩
  rw [activationsAll]
  exact retired.trans retiring fun a inside member => apart inside member

/-- How activations are unmounted above some index, when so many were issued. -/
def Unmounter (unmount : ActivationId → RenderM D σ Unit) (issued above : Nat) : Prop :=
  ∀ {a c props tree output place lower} {s : Renderer D σ}, above ≤ lower →
    Arena.issued s.activations = issued → s.calls.reading = [] →
    Stands s.activations place lower (.component a c props tree output) →
    (activationsAll output).Nodup →
    Unmounts (unmount a) (a :: activationsAll output) (Canvas.eraseAll output) s

omit [Layer D] in
theorem returns_setOutput (free : s.calls.reading = []) :
    Returns (setOutput a output) s () { s with activations := s.activations.update a ({ · with output }) } := by
  refine returns_bind.mpr ⟨s, s, rfl, ?_⟩
  rw [free, if_neg List.not_mem_nil]
  exact returns_updateActivation.mpr rfl

omit [Layer D] in
theorem returns_takeOutput (free : s.calls.reading = []) :
    Returns (takeOutput a) s (s.activations.output a)
      { s with activations := s.activations.update a ({ · with output := [] }) } :=
  (returns_get.mpr ⟨rfl, rfl⟩).bind ((returns_setOutput free).bind (returns_pure.mpr ⟨rfl, rfl⟩))

section Entries
variable {unmount : ActivationId → RenderM D σ Unit} {issued : Nat}

theorem retired_release (node : NodeId) (s : Renderer D σ) :
    Unmounts (onDom (Layer.release · node)) [] (Canvas.release node) s := by
  obtain ⟨t, released, drawn⟩ := drawn_onDom s (Layer.release · node)
  exact ⟨t, released, drawn.retired⟩

mutual

theorem unmounts_entry (inner : Unmounter unmount issued above) :
    ∀ {p : Picture} {place} {s : Renderer D σ}, Stands s.activations place above p →
      Arena.issued s.activations = issued → s.calls.reading = [] → p.activations.Nodup →
      Unmounts (unmountEntryBy unmount (entry p)) p.activations (Canvas.erase p) s
  | .text node _, _, s, _, _, _, _ | .missing node _, _, s, _, _, _, _ => by
      rw [entry, unmountEntryBy, Picture.activations]
      exact retired_release node s
  | .raw .., _, s, _, _, _, _ => by
      rw [entry, unmountEntryBy, Picture.activations]
      exact unmounts_nothing s
  | .component .., _, s, stands, count, free, distinct => by
      rw [entry, unmountEntryBy, Picture.activations]
      rw [Picture.activations, List.nodup_cons] at distinct
      exact inner (Nat.le_refl _) count free stands distinct.2
  | .element node _ _ children, _, s, stands, count, free, distinct => by
      rw [stands_element] at stands
      rw [Picture.activations] at distinct ⊢
      obtain ⟨t, one, emptied⟩ := unmounts_all inner stands count free distinct
      obtain ⟨u, two, forgotten⟩ := drawn_onBound t fun binder dom => binder.forget dom node
      obtain ⟨v, three, released⟩ := drawn_onDom u (Layer.release · node)
      refine ⟨v, ?_, ?_⟩
      · rw [entry, unmountEntryBy]
        exact one.bind (two.bind three)
      · have ended := (emptied.trans forgotten.retired fun _ _ => List.not_mem_nil).trans
          released.retired fun _ _ => List.not_mem_nil
        rwa [List.append_nil, List.append_nil] at ended

theorem unmounts_all (inner : Unmounter unmount issued above) :
    ∀ {ps : List Picture} {place} {s : Renderer D σ}, StandAll s.activations place above ps →
      Arena.issued s.activations = issued → s.calls.reading = [] → (activationsAll ps).Nodup →
      Unmounts (unmountAllBy unmount (entries ps)) (activationsAll ps) (Canvas.eraseAll ps) s
  | [], _, s, _, _, _, _ => by
      rw [entries, unmountAllBy, activationsAll]
      exact unmounts_nothing s
  | p :: rest, _, s, stands, count, free, distinct => by
      rw [standAll_cons] at stands
      have first := distinct
      rw [activationsAll] at first
      rw [entries, unmountAllBy]
      refine (unmounts_entry inner stands.1 count free (List.Nodup.of_append_left first)).cons
        stands.2 free distinct fun still same free distinct => ?_
      exact unmounts_all inner still (same.trans count) free distinct

end

end Entries

theorem unmounts_activation
    (inner : Unmounter (D := D) (σ := σ) (unmountActivationWithin below) issued a.index)
    (count : Arena.issued s.activations = issued) (free : s.calls.reading = [])
    (found : s.activations.find? a = some r) (holds : r.output = entries output)
    (under : StandAll s.activations place a.index output) (distinct : (activationsAll output).Nodup) :
    Unmounts (unmountActivationWithin (below + 1) a) (a :: activationsAll output)
      (Canvas.eraseAll output) s := by
  have outside : a ∉ activationsAll output := fun member => Nat.lt_irrefl _ (under.index a member).1
  let gone : Activation → Activation := fun r => { { r with unmounted := true } with output := [] }
  let v : Renderer D σ :=
    { s.noting (.unmountingActivation a) with
      activations := (s.activations.update a ({ · with unmounted := true })).update a
        ({ · with output := [] }) }
  have record : v.activations.find? a = some (gone r) := by
    simp only [v, Activations.find?_update_self, found, Option.map_some, gone]
  have taken : Confined [a] s v := by
    have noted := (drawn_report s (r := .unmountingActivation a) rfl).2.confined
    have marked := Confined.update (s.noting (.unmountingActivation a)) a
      ({ · with unmounted := true }) fun _ => rfl
    exact ((noted.trans marked).trans (.update _ a ({ · with output := [] }) fun _ => rfl)).mono
      fun b member => by simpa using member
  have still := taken.standAll under fun b member inside =>
    outside ((List.mem_singleton.mp inside) ▸ member)
  obtain ⟨t, emptied, retired⟩ := unmounts_all inner still (taken.issued.trans count) free distinct
  refine ⟨t, ?_, ?_, taken.trans retired.confined, ?_⟩
  · rw [unmountActivationWithin]
    refine (reported ..).bind ((updated ..).bind ?_)
    refine (returns_takeOutput (by exact free)).bind ?_
    have held : (Activations.update s.activations a ({ · with unmounted := true })).output a =
        entries output := by
      rw [Activations.output_eq (r := { r with unmounted := true }) (by
        rw [Activations.find?_update_self, found, Option.map_some])]
      exact holds
    simp only [activations_noting, held]
    exact emptied
  · rw [retired.canvas]
    exact congrArg _ (drawn_report s (r := .unmountingActivation a) rfl).2.canvas
  · refine List.forall_mem_cons.mpr ⟨?_, retired.vanished⟩
    exact retired.confined.vanished ⟨gone r, record, rfl, rfl⟩ outside

theorem unmounter_within (levels : Nat) : ∀ {issued above}, issued ≤ levels + above →
    Unmounter (D := D) (σ := σ) (unmountActivationWithin levels) issued above := by
  induction levels with
  | zero =>
      intro issued above enough a c props tree output place lower s higher count free stands
      obtain ⟨later, ⟨r, found, -⟩, -⟩ := stands_component.mp stands
      have := Activations.index_le_issued found
      omega
  | succ below ih =>
      intro issued above enough a c props tree output place lower s higher count free stands distinct
      obtain ⟨later, ⟨r, found, shows⟩, -, under⟩ := stands_component.mp stands
      exact unmounts_activation (ih (by omega)) count free found shows.output under distinct

/-- An activation has levels enough for everything inside it. -/
theorem unmounter (issued above : Nat) :
    Unmounter (D := D) (σ := σ) unmountActivation issued above := by
  intro a c props tree output place lower s higher count free stands distinct
  obtain ⟨t, unmounted, retired⟩ := unmounter_within (D := D) (σ := σ) issued (Nat.le_add_right _ above)
    higher count free stands distinct
  refine ⟨t, returns_bind.mpr ⟨s, s, rfl, ?_⟩, retired⟩
  rw [Activations.depth, count]
  exact unmounted

theorem unmounts_empty (found : s.activations.find? a = some r) (empty : r.output = [])
    (free : s.calls.reading = []) : Unmounts (unmountActivation a) [a] id s := by
  have low := Activations.one_le_index found
  have high := Activations.index_le_issued found
  obtain ⟨below, levels⟩ := Nat.exists_eq_add_of_le' (Nat.le_trans low high)
  have holds : r.output = entries [] := empty
  have under : StandAll s.activations ⟨0⟩ a.index [] := standAll_nil.mpr trivial
  have inner : Unmounter (D := D) (σ := σ) (unmountActivationWithin below)
    (Arena.issued s.activations) a.index := unmounter_within below (by omega)
  obtain ⟨t, unmounted, retired⟩ := unmounts_activation inner rfl free found holds under List.nodup_nil
  refine ⟨t, returns_bind.mpr ⟨s, s, rfl, ?_⟩, retired⟩
  rw [Activations.depth, levels]
  exact unmounted

/-- A picture is taken out of its parent and unmounted. -/
theorem unmounts_removal (stands : Stands s.activations place above p) (free : s.calls.reading = [])
    (distinct : p.activations.Nodup) (parent : NodeId) :
    Unmounts (do detach parent (entry p); unmountEntry (entry p)) p.activations
      (Canvas.remove parent p) s := by
  obtain ⟨t, one, drawn⟩ := drawn_detach stands parent
  have still := drawn.confined.stands stands fun _ _ => List.not_mem_nil
  obtain ⟨u, two, retired⟩ := unmounts_entry (unmounter _ above) still rfl
    ((congrArg Calls.reading drawn.confined.calls).trans free) distinct
  exact ⟨u, one.bind two, drawn.retired.trans retired fun _ member => (List.not_mem_nil member).elim⟩

theorem unmounts_entries (stands : StandAll s.activations place above ps)
    (free : s.calls.reading = []) (distinct : (activationsAll ps).Nodup) (parent : NodeId) :
    Unmounts (unmountEntries parent (entries ps)) (activationsAll ps) (Canvas.removeAll parent ps)
      s := by
  induction ps generalizing s with
  | nil => exact unmounts_nothing s
  | cons p rest ih =>
      rw [standAll_cons] at stands
      have first := distinct
      rw [activationsAll] at first
      rw [entries, unmountEntries, ← bind_assoc]
      exact (unmounts_removal stands.1 free (List.Nodup.of_append_left first) parent).cons stands.2
        free distinct fun still _ free distinct => ih still free distinct

theorem unmounts_removed (stands : StandAll s.activations place above ps)
    (free : s.calls.reading = []) (distinct : (activationsAll ps).Nodup) (parent : NodeId) :
    Unmounts (removeEntries parent (entries ps)) (activationsAll ps) (Canvas.removeAll parent ps)
      s := by
  induction ps generalizing s with
  | nil => exact unmounts_nothing s
  | cons p rest ih =>
      rw [standAll_cons] at stands
      have first := distinct
      rw [activationsAll] at first
      obtain ⟨noted, drawn⟩ := drawn_report s (r := .removingEntry (p.entry.debug s.activations)) rfl
      obtain ⟨t, removed, retired⟩ := unmounts_removal (s := s.noting _) stands.1 free
        (List.Nodup.of_append_left first) parent
      have one : Unmounts (do
          report (.removingEntry (p.entry.debug (← get).activations))
          detach parent p.entry
          unmountEntry p.entry) p.activations (Canvas.remove parent p) s :=
        ⟨t, returns_bind.mpr ⟨s, s, rfl, noted.bind removed⟩,
          drawn.retired.trans retired fun _ member => (List.not_mem_nil member).elim⟩
      have ended := one.cons stands.2 free distinct fun still _ free distinct => ih still free distinct
      simp only [bind_assoc] at ended
      exact ended

end Patchwork.Renderer
