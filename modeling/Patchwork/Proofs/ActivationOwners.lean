import Patchwork.Proofs.CallCourses

/-! Owners. An activation is owned by the activation in whose output it was placed, and that stays the
nearest one around it: a position keeps its activation only within the same output. -/
namespace Patchwork

/-- Activations, each with the nearest one around it. -/
abbrev Nesting := List (ActivationId × Option ActivationId)

namespace Mounted

mutual

def nestingBy (inside : ActivationId → Nesting) (owner : Option ActivationId) : Mounted → Nesting
  | text _ | raw _ _ => []
  | component a => (a, owner) :: inside a
  | element _ _ children => nestingOfAllBy inside owner children

def nestingOfAllBy (inside : ActivationId → Nesting) (owner : Option ActivationId) :
    List Mounted → Nesting
  | [] => []
  | m :: rest => nestingBy inside owner m ++ nestingOfAllBy inside owner rest

end

def nestingInside (as : Activations) : Nat → ActivationId → Nesting
  | 0, _ => []
  | levels + 1, a => nestingOfAllBy (nestingInside as levels) (some a) (as.output a)

def nesting (as : Activations) (ms : List Mounted) : Nesting :=
  nestingOfAllBy (nestingInside as as.depth) none ms

section Activations
variable {inside : ActivationId → Nesting} {within : ActivationId → List ActivationId}

mutual

theorem map_nestingBy (agree : ∀ a, (inside a).map Prod.fst = within a) (owner : Option ActivationId) :
    ∀ m, (nestingBy inside owner m).map Prod.fst = activationsBy within m
  | text _ | raw _ _ => rfl
  | component a => by rw [nestingBy, activationsBy, List.map_cons, agree]
  | element _ _ children => by
      rw [nestingBy, activationsBy]
      exact map_nestingOfAllBy agree owner children

theorem map_nestingOfAllBy (agree : ∀ a, (inside a).map Prod.fst = within a)
    (owner : Option ActivationId) :
    ∀ ms, (nestingOfAllBy inside owner ms).map Prod.fst = activationsOfAllBy within ms
  | [] => rfl
  | m :: rest => by
      rw [nestingOfAllBy, activationsOfAllBy, List.map_append, map_nestingBy agree owner m,
        map_nestingOfAllBy agree owner rest]

end

theorem map_nestingInside (as : Activations) :
    ∀ levels a, (nestingInside as levels a).map Prod.fst = activationsInside as levels a
  | 0, _ => rfl
  | levels + 1, a => map_nestingOfAllBy (map_nestingInside as levels) (some a) (as.output a)

theorem map_nesting (as : Activations) (ms : List Mounted) :
    (nesting as ms).map Prod.fst = activations as ms :=
  map_nestingOfAllBy (map_nestingInside as as.depth) none ms

end Activations

end Mounted

namespace Outline

mutual

def nesting (owner : Option ActivationId) : Outline → Nesting
  | text _ | raw _ => []
  | element _ _ children => nestingAll owner children
  | component a _ _ _ output => (a, owner) :: nestingAll (some a) output

def nestingAll (owner : Option ActivationId) : List Outline → Nesting
  | [] => []
  | o :: rest => nesting owner o ++ nestingAll owner rest

end

theorem nestingAll_append (owner : Option ActivationId) (os os' : List Outline) :
    nestingAll owner (os ++ os') = nestingAll owner os ++ nestingAll owner os' := by
  induction os with
  | nil => rfl
  | cons o rest ih => rw [List.cons_append, nestingAll, nestingAll, ih, List.append_assoc]

end Outline

open Outline

namespace Picture

theorem outlines_eq_map (ps : List Picture) : outlines ps = ps.map outline := by
  induction ps with
  | nil => rw [outlines, List.map_nil]
  | cons p rest ih => rw [outlines, ih, List.map_cons]

theorem outlines_append (ps qs : List Picture) : outlines (ps ++ qs) = outlines ps ++ outlines qs := by
  simp only [outlines_eq_map, List.map_append]

variable {as : Activations} {place : NodeId}

mutual

theorem Stands.nestingBy_eq (owner : Option ActivationId) : ∀ {p : Picture} {place above levels},
    Stands as place above p → Arena.issued as ≤ levels + above →
    Mounted.nestingBy (Mounted.nestingInside as levels) owner (entry p) = p.outline.nesting owner
  | .text .., _, _, _, _, _ | .raw .., _, _, _, _, _ | .missing .., _, _, _, _, _ => by
      simp only [entry, Mounted.nestingBy, outline, nesting]
  | .element _ _ _ children, _, _, _, stands, enough => by
      rw [stands_element] at stands
      rw [entry, Mounted.nestingBy, outline, nesting, stands.nestingBy_eq owner enough]
  | .component a _ _ _ output, _, _, levels, stands, enough => by
      obtain ⟨below, rfl, enough, holds, _, inner⟩ := stands.opened enough
      rw [entry, Mounted.nestingBy, Mounted.nestingInside, holds, outline, nesting,
        inner.nestingBy_eq (some a) enough]

theorem StandAll.nestingBy_eq (owner : Option ActivationId) : ∀ {ps : List Picture} {place above levels},
    StandAll as place above ps → Arena.issued as ≤ levels + above →
    Mounted.nestingOfAllBy (Mounted.nestingInside as levels) owner (entries ps) =
      nestingAll owner (outlines ps)
  | [], _, _, _, _, _ => by simp only [entries, Mounted.nestingOfAllBy, outlines, nestingAll]
  | p :: rest, _, _, _, stands, enough => by
      rw [standAll_cons] at stands
      rw [entries, Mounted.nestingOfAllBy, outlines, nestingAll, stands.1.nestingBy_eq owner enough,
        stands.2.nestingBy_eq owner enough]

end

theorem StandAll.nesting_eq (stands : StandAll as place above ps) :
    Mounted.nesting as (entries ps) = nestingAll none (outlines ps) :=
  stands.nestingBy_eq none (Nat.le_add_right ..)

end Picture

namespace Spot

def owner : Spot → Option ActivationId → Option ActivationId
  | here _ _, outer => outer
  | element _ _ _ _ inner _, outer => owner inner outer
  | component _ a _ _ _ inner _, _ => owner inner (some a)

theorem mem_nesting_of_fill (spot : Spot) (member : x ∈ nesting (spot.owner outer) p.outline) :
    x ∈ nestingAll outer (Picture.outlines (spot.fill p)) := by
  induction spot generalizing outer with
  | here before after =>
      rw [fill, Picture.outlines_append, nestingAll_append, Picture.outlines, nestingAll]
      exact List.mem_append_right _ (List.mem_append_left _ member)
  | element before node tag attributes inner after ih =>
      rw [fill, Picture.outlines_append, nestingAll_append, Picture.outlines, nestingAll, Picture.outline,
        nesting]
      exact List.mem_append_right _ (List.mem_append_left _ (ih member))
  | component before a c props tree inner after ih =>
      rw [fill, Picture.outlines_append, nestingAll_append, Picture.outlines, nestingAll, Picture.outline,
        nesting]
      exact List.mem_append_right _ (List.mem_append_left _ (List.mem_cons_of_mem _ (ih member)))

theorem nesting_fill (spot : Spot) (p : Picture)
    (member : x ∈ nestingAll outer (Picture.outlines (spot.fill q))) :
    x ∈ nestingAll outer (Picture.outlines (spot.fill p)) ∨ x ∈ nesting (spot.owner outer) q.outline := by
  induction spot generalizing outer with
  | here before after =>
      simp only [fill, owner, Picture.outlines_append, nestingAll_append, Picture.outlines, nestingAll,
        List.mem_append] at member ⊢
      tauto
  | element before node tag attributes inner after ih =>
      simp only [fill, owner, Picture.outlines_append, nestingAll_append, Picture.outlines, nestingAll,
        Picture.outline, nesting, List.mem_append] at member ⊢
      have inside := @ih outer
      tauto
  | component before a c props tree inner after ih =>
      simp only [fill, owner, Picture.outlines_append, nestingAll_append, Picture.outlines, nestingAll,
        Picture.outline, nesting, List.mem_append, List.mem_cons] at member ⊢
      have inside := @ih (some a)
      tauto

end Spot

/-- The table has the owners that are told. -/
def Activations.Owns (as : Activations) (told : Nesting) : Prop :=
  ∀ x ∈ told, (as.find? x.1).map Activation.owner = some x.2

namespace Activations.Owns

variable {as bs : Activations} {told more : Nesting}

theorem nil : as.Owns [] := List.forall_mem_nil _

theorem append : as.Owns (told ++ more) ↔ as.Owns told ∧ as.Owns more := List.forall_mem_append

theorem cons : as.Owns ((a, owner) :: told) ↔
    (as.find? a).map Activation.owner = some owner ∧ as.Owns told := List.forall_mem_cons

theorem congr (owns : as.Owns told)
    (same : ∀ a : ActivationId, a.index ≤ Arena.issued as →
      (bs.find? a).map Activation.owner = (as.find? a).map Activation.owner) : bs.Owns told := by
  intro x member
  have known := owns x member
  obtain ⟨r, found, -⟩ := Option.map_eq_some_iff.mp known
  exact (same x.1 (Activations.index_le_issued found)).trans known

end Activations.Owns

open Activations

theorem owner_of_bare {r r' : Option Activation} (same : r'.map Activation.bare = r.map Activation.bare) :
    r'.map Activation.owner = r.map Activation.owner := by
  have owners := congrArg (Option.map Activation.owner) same
  rwa [Option.map_map, Option.map_map] at owners

theorem owner_of_memory {r r' : Option Activation}
    (same : r'.map Activation.memory = r.map Activation.memory) :
    r'.map Activation.owner = r.map Activation.owner := by
  have owners := congrArg (Option.map Prod.fst) same
  rwa [Option.map_map, Option.map_map] at owners

namespace Renderer

open Picture

variable {D σ : Type} {δ : StateData} [HasStateData σ δ] {s t u : Renderer D σ} {scene : Scene}
  {program : Program σ} {told : Nesting}

theorem Advances.owns (advances : Advances s t) (owns : s.activations.Owns told) :
    t.activations.Owns told :=
  owns.congr fun a early => owner_of_bare (advances.old a early)

theorem owns_tail (owns : s.activations.Owns (nestingAll owner (outlines ps))) :
    s.activations.Owns (nestingAll owner (outlines ps.tail)) := by
  cases ps with
  | nil => exact owns
  | cons p rest => exact (Owns.append.mp owns).2

theorem owns_head (owns : s.activations.Owns (nestingAll owner (outlines ps))) (first : ps.head? = some p) :
    s.activations.Owns (nesting owner p.outline) := by
  cases ps with
  | nil => cases first
  | cons q rest =>
      cases first
      exact (Owns.append.mp owns).1

/-- The activation of a component's position is owned by the one around it, and owns what it keeps. -/
theorem owns_placing (stands : StandAll s.activations place above ps)
    (owns : s.activations.Owns (nestingAll owner (outlines ps)))
    (returned : Returns (placing owner reference (ps.head?.map entry)) s (a, made) t) :
    (t.activations.find? a).map Activation.owner = some owner ∧
      t.activations.Owns (nestingAll (some a) (outlines (if made then [] else Plan.inside ps.head?))) := by
  obtain ⟨found, rfl, rfl⟩ | ⟨-, rfl, index, rfl⟩ := placing_cases returned
  · rw [activationAt?_eq fun q first => stands.head? first] at found
    obtain ⟨mounted, props, tree, output, -, first⟩ := Plan.of_kept found
    rw [first]
    exact Owns.cons.mp (owns_head owns first)
  · refine ⟨?_, Owns.nil⟩
    rw [Activations.find?_alloc, if_pos index]
    rfl

variable [Layer D]

theorem Passes.owns (passes : Passes program owner es positions s trials result t) :
    ∀ {ps place above plans}, es = entries ps → StandAll s.activations place above ps →
      above ≤ Arena.issued s.activations → s.activations.Owns (nestingAll owner (outlines ps)) →
      result = .ok plans → t.activations.Owns (nestingAll owner (Plan.outlines plans)) := by
  induction passes with
  | nil =>
      rintro ps place above plans rfl stands enough owns ok
      cases ok
      exact Owns.nil
  | text checked passes ih =>
      rintro ps place above plans rfl stands enough owns ok
      obtain ⟨rest, ended, rfl⟩ := map_eq_ok ok
      rw [head?_entries] at checked
      obtain ⟨calm, -⟩ := undisturbed_checkEntry checked
      have later := ih (tail_entries ps) (calm.advances.standAll stands).tail (calm.issued ▸ enough)
        (owns_tail (calm.advances.owns owns)) ended
      exact later
  | raw passes ih =>
      rintro ps place above plans rfl stands enough owns ok
      obtain ⟨rest, ended, rfl⟩ := map_eq_ok ok
      have later := ih (tail_entries ps) stands.tail enough (owns_tail owns) ended
      exact later
  | element opened inner passes one two =>
      rintro ps place above plans rfl stands enough owns ok
      obtain ⟨rest, ended, rfl⟩ := map_eq_ok ok
      rw [head?_entries] at opened
      obtain ⟨calm, same⟩ := undisturbed_opening opened
      rw [opened_eq] at same
      obtain ⟨rfl, rfl⟩ := Prod.mk.inj same
      have owns := calm.advances.owns owns
      obtain ⟨node, under⟩ := (calm.advances.standAll stands).inside
      have kids := one rfl (by split <;> [exact under; exact standAll_nil.mpr trivial])
        (calm.issued ▸ enough) (by
          split
          next keeps =>
            obtain ⟨_, _, _, -, first⟩ := Plan.of_keepsElement keeps
            rw [first]
            exact owns_head owns first
          next => exact Owns.nil) rfl
      have begun := calm.advances.trans inner.advances
      have later := two (tail_entries ps) (begun.standAll stands).tail
        (Nat.le_trans enough begun.issued) (owns_tail (inner.advances.owns owns)) ended
      exact Owns.append.mpr ⟨passes.advances.owns kids, later⟩
  | component placed ran inner passes one two =>
      rintro ps place above plans rfl stands enough owns ok
      obtain ⟨rest, ended, rfl⟩ := map_eq_ok ok
      rw [head?_entries] at placed
      have found := advances_placing placed
      obtain ⟨own, inside⟩ := owns_placing stands owns placed
      have calm := ran.undisturbed
      have placed := (placed_of_placing stands enough placed).ran calm
      have output := one placed.output placed.inner placed.issued (calm.advances.owns inside) rfl
      have began := inner.advances.resuming rfl
      have begun := (found.trans calm.advances).trans began
      have later := two (tail_entries ps) (begun.standAll stands).tail
        (Nat.le_trans enough begun.issued) (owns_tail (begun.owns owns)) ended
      refine Owns.append.mpr ⟨Owns.cons.mpr ⟨?_, ?_⟩, later⟩
      -- The component's own record was made first, so it has to last to the end of the pass.
      · have kept := (calm.advances.trans began).trans passes.advances
        have alone := kept.owns (Owns.cons.mpr ⟨own, Owns.nil⟩)
        exact (Owns.cons.mp alone).1
      · exact passes.advances.owns output
  | elementFailed | componentFailed | outputFailed => nofun

theorem Invokes.owns {rendered : Rendered} {output : List Picture}
    (invokes : Invokes program a c props s trials (.ok rendered) t)
    (stands : Stands s.activations place above (.component a c' props' tree' output))
    (owns : s.activations.Owns (nestingAll (some a) (outlines output))) :
    t.activations.Owns (nestingAll (some a) (Plan.outlines rendered.output)) := by
  generalize ended : Except.ok rendered = result at invokes
  cases invokes with
  | failed => cases ended
  | paired ran passes =>
      obtain ⟨plans, rfl, rfl⟩ := map_eq_ok ended.symm
      have calm := ran.undisturbed
      have still := stands.congr fun b _ => calm.bare b
      obtain ⟨-, ⟨r, found, shows⟩, -, inner⟩ := stands_component.mp still
      have holds := (Activations.output_eq found).trans shows.output
      exact passes.owns holds inner (Activations.index_le_issued found) (calm.advances.owns owns) rfl

/-- Every activation of the scene is owned by the nearest one around it. -/
def Owning (s : Renderer D σ) (scene : Scene) : Prop :=
  ∀ place, s.activations.Owns (nestingAll none (outlines (scene place)))

omit [Layer D] in
theorem Owning.of_bare (owning : Owning s scene) (same : ∀ a : ActivationId,
    a.index ≤ Arena.issued s.activations →
      (t.activations.find? a).map Activation.bare = (s.activations.find? a).map Activation.bare) :
    Owning t scene := fun place => (owning place).congr fun a early => owner_of_bare (same a early)

omit [Layer D] in
theorem Owning.of_same (owning : Owning s scene) (same : t.activations = s.activations) : Owning t scene :=
  owning.of_bare fun _ _ => by rw [same]

omit [Layer D] in
theorem Changes.owns (changes : Changes s u t place ps qs) (owns : u.activations.Owns told) :
    t.activations.Owns told :=
  owns.congr fun a _ => owner_of_memory (changes.confined.memory a)

omit [Layer D] in
theorem Changes.owns_old (changes : Changes s u t place ps qs) (owns : s.activations.Owns told) :
    t.activations.Owns told :=
  changes.owns (owns.congr fun a early => owner_of_bare (changes.passed.old a early))

omit [Layer D] in
theorem Changes.owning (changes : Changes s u t place (scene place) qs) (owning : Owning s scene)
    (owns : t.activations.Owns (nestingAll none (outlines qs))) :
    Owning t (Function.update scene place qs) := by
  intro other
  by_cases same : other = place
  · subst same
    rwa [Function.update_self]
  · rw [Function.update_of_ne same]
    exact changes.owns_old (owning other)

/-- A move leaves every activation owned by the nearest one around it. -/
theorem Owning.moves (owning : Owning s scene) (settled : Settled s scene)
    (moves : Moves program agenda s happening ending t) : ∃ scene', Settled t scene' ∧ Owning t scene' := by
  cases moves with
  | act acts =>
      have calm := Undisturbed.acts acts
      exact ⟨scene, settled.undisturbed calm, owning.of_bare fun a _ => calm.bare a⟩
  | render renders =>
      obtain ⟨u, ⟨e, -, -, reverts⟩ | ⟨plans, passes, -, planned, patches⟩⟩ := settled.render_cases renders
      · exact ⟨scene, reverts.settled settled, owning.of_bare reverts.bare⟩
      · have owns := passes.owns rfl (settled.stands _) (Nat.zero_le _) (owning _) rfl
        have changes := patches.changes
        refine ⟨_, changes.settled settled, changes.owning owning (changes.owns ?_)⟩
        rwa [Canvas.redrawAll_outlines plans _ none planned.fits]
  | unmount returned =>
      obtain ⟨t', returned', changes, -⟩ := settled.unmounts _
      obtain ⟨-, rfl⟩ := returned.unique returned'
      exact ⟨_, changes.settled settled, changes.owning owning Owns.nil⟩
  | flush => exact ⟨scene, settled.of_same rfl rfl rfl (Nat.le_succ _), owning.of_same rfl⟩
  | task => exact ⟨scene, settled.of_same rfl rfl rfl (Nat.le_succ _), owning.of_same rfl⟩
  | passOver => exact ⟨scene, settled, owning⟩
  | retry found live _ rerenders =>
      have registered := settled.find?_of_isLive found live
      obtain ⟨u, ⟨e, -, -, reverts⟩ | ⟨rendered, invokes, -, place, spot, tree, output, same, whole, planned,
          patches⟩⟩ := settled.rerender_cases found registered rerenders
      · exact ⟨scene, reverts.settled settled, owning.of_bare reverts.bare⟩
      · have changes := patches.changes
        have was := owning place
        rw [same] at was
        have here : s.activations.Owns (nesting (spot.owner none) (Picture.outline (.component _ _ _ tree output))) :=
          fun x member => was x (spot.mem_nesting_of_fill member)
        obtain ⟨own, inside⟩ := Owns.cons.mp here
        have owns := changes.owns (invokes.owns (settled.stands_at same) inside)
        refine ⟨_, changes.settled settled, changes.owning owning fun x member => ?_⟩
        rw [redrawnAt, whole] at member
        rcases spot.nesting_fill (.component _ _ _ tree output) member with around | at_spot
        · exact changes.owns_old was x around
        · rw [outline, nesting, Canvas.redrawAll_outlines rendered.output _ _ planned.fits] at at_spot
          exact Owns.cons.mpr ⟨(Owns.cons.mp (changes.owns_old here)).1, owns⟩ x at_spot
  | vainTask | edit => exact ⟨scene, settled.of_same rfl rfl rfl (Nat.le_refl _), owning.of_same rfl⟩

end Renderer
end Patchwork
