import Patchwork.Proofs.PassEffects
import Patchwork.Proofs.Picture

/-! What the plans of a successful pass say. A plan keeps a position exactly if what stands there is of
the same kind and its live node is there; its components were placed where the picture has the same
component, or are blank; and the plans amount to the positions that were asked for. -/
namespace Patchwork

namespace Plan

mutual

def flat : Plan → Flat
  | text content _ => .text content
  | element tag attributes children _ => .element tag attributes (flats children)
  | .component _ _ c props _ _ => .component ⟨c, props⟩
  | raw node _ => .raw node

def flats : List Plan → List Flat
  | [] => []
  | plan :: rest => flat plan :: flats rest

end

mutual

def activations : Plan → List ActivationId
  | text _ _ | raw _ _ => []
  | element _ _ children _ => activationsAll children
  | component a _ _ _ _ output => a :: activationsAll output

def activationsAll : List Plan → List ActivationId
  | [] => []
  | plan :: rest => activations plan ++ activationsAll rest

end

mutual

def fresh : Plan → List ActivationId
  | text _ _ | raw _ _ => []
  | element _ _ children _ => freshAll children
  | component a made _ _ _ output => (if made then [a] else []) ++ freshAll output

def freshAll : List Plan → List ActivationId
  | [] => []
  | plan :: rest => fresh plan ++ freshAll rest

end

mutual

theorem mem_activations_of_fresh : ∀ {plan : Plan}, a ∈ fresh plan → a ∈ activations plan
  | .text .., member | .raw .., member => by simp only [fresh, List.not_mem_nil] at member
  | .element _ _ children _, member => by
      rw [fresh] at member
      rw [activations]
      exact mem_activationsAll_of_fresh member
  | .component b made _ _ _ output, member => by
      rw [fresh, List.mem_append] at member
      rw [activations, List.mem_cons]
      refine member.imp (fun new => ?_) mem_activationsAll_of_fresh
      cases made with
      | false => simp only [Bool.false_eq_true, if_false, List.not_mem_nil] at new
      | true => simpa only [if_true, List.mem_singleton] using new

theorem mem_activationsAll_of_fresh : ∀ {plans : List Plan},
    a ∈ freshAll plans → a ∈ activationsAll plans
  | [], member => by simp only [freshAll, List.not_mem_nil] at member
  | plan :: rest, member => by
      rw [freshAll, List.mem_append] at member
      rw [activationsAll, List.mem_append]
      exact member.imp mem_activations_of_fresh mem_activationsAll_of_fresh

end

variable {D : Type} [Layer D]

section Keeping
open Picture

def keepsText (dom : D) : Option Picture → Bool
  | some (.text node _) | some (.missing node _) => (Layer.text? dom node).isSome
  | _ => false

def keepsElement (dom : D) (tag : String) : Option Picture → Bool
  | some (.element node mounted _ _) => mounted = tag && Renderer.elementIsLive dom node tag
  | _ => false

def inside : Option Picture → List Picture
  | some (.element _ _ _ children) => children
  | some (.component _ _ _ _ output) => output
  | _ => []

def kept? (c : Component) : Option Picture → Option ActivationId
  | some (.component a mounted _ _ _) => if mounted.same c then some a else none
  | _ => none

mutual

/-- The plan keeps what can be kept of what stands there, and nothing else. -/
def Fits (dom : D) : Option Picture → Plan → Prop
  | p, text _ reuse => reuse = keepsText dom p
  | p, element tag _ children reuse =>
      reuse = keepsElement dom tag p ∧ FitAll dom (if reuse then inside p else []) children
  | p, component a made c _ _ output =>
      made = (kept? c p).isNone ∧ (made = false → kept? c p = some a) ∧
        FitAll dom (if made then [] else inside p) output
  | p, raw node reuse => reuse = Renderer.rawAt node (p.map entry)

def FitAll (dom : D) : List Picture → List Plan → Prop
  | _, [] => True
  | ps, plan :: plans => Fits dom ps.head? plan ∧ FitAll dom ps.tail plans

end

theorem of_keepsText {dom : D} {p : Option Picture} (keeps : keepsText dom p = true) :
    ∃ node, (Layer.text? dom node).isSome = true ∧
      ((∃ content, p = some (.text node content)) ∨ ∃ wanted, p = some (.missing node wanted)) := by
  rcases p with _ | q
  · cases keeps
  cases q with
  | text node content => exact ⟨node, keeps, .inl ⟨content, rfl⟩⟩
  | missing node wanted => exact ⟨node, keeps, .inr ⟨wanted, rfl⟩⟩
  | _ => cases keeps

theorem of_keepsElement {dom : D} {p : Option Picture} (keeps : keepsElement dom tag p = true) :
    ∃ node attributes children, Renderer.elementIsLive dom node tag = true ∧
      p = some (.element node tag attributes children) := by
  rcases p with _ | q
  · cases keeps
  cases q with
  | element node mounted attributes children =>
      simp only [keepsElement, Bool.and_eq_true, decide_eq_true_eq] at keeps
      exact ⟨node, attributes, children, keeps.2, by rw [keeps.1]⟩
  | _ => cases keeps

omit [Layer D] in
theorem of_kept {p : Option Picture} {c : Component} (keeps : kept? c p = some a) :
    ∃ mounted props tree output, mounted.same c = true ∧
      p = some (.component a mounted props tree output) := by
  rcases p with _ | q
  · cases keeps
  cases q with
  | component b mounted props tree output =>
      simp only [kept?, Option.ite_none_right_eq_some, Option.some.injEq] at keeps
      exact ⟨mounted, props, tree, output, keeps.1, by rw [keeps.2]⟩
  | _ => cases keeps

omit [Layer D] in
theorem of_rawAt {p : Option Picture} {node : RawNode}
    (keeps : Renderer.rawAt node (p.map entry) = true) :
    ∃ there mounted shown, mounted.same node = true ∧ p = some (.raw there mounted shown) := by
  rcases p with _ | q
  · cases keeps
  cases q with
  | raw there mounted shown => exact ⟨there, mounted, shown, keeps, rfl⟩
  | _ => cases keeps

end Keeping

mutual

/-- The plan can be carried out: its new activations are blank, and every output has the positions of
its tree. -/
def Ready (as : Activations) (epoch : Nat) (above : Nat) : Plan → Prop
  | text _ _ | raw _ _ => True
  | element _ _ children _ => ReadyAll as epoch above children
  | component a made c props tree output =>
      above < a.index ∧
      (made = true → ∃ owner, (as.find? a).map Activation.bare =
        some (Activation.blank owner ⟨c, props⟩ epoch)) ∧
      flats output = tree.flattenOutput ∧ ReadyAll as epoch a.index output

def ReadyAll (as : Activations) (epoch : Nat) (above : Nat) : List Plan → Prop
  | [] => True
  | plan :: plans => Ready as epoch above plan ∧ ReadyAll as epoch above plans

end

mutual

theorem Ready.congr {as bs : Activations} {epoch : Nat} : ∀ {plan : Plan} {above},
    Ready as epoch above plan →
    (∀ a ∈ fresh plan, (bs.find? a).map Activation.bare = (as.find? a).map Activation.bare) →
    Ready bs epoch above plan
  | .text .., _, _, _ | .raw .., _, _, _ => by simp only [Ready]
  | .element _ _ children _, _, ready, same => by
      rw [Ready] at ready ⊢
      rw [fresh] at same
      exact ReadyAll.congr ready same
  | .component a made _ _ _ output, _, ready, same => by
      rw [Ready] at ready ⊢
      rw [fresh, List.forall_mem_append] at same
      obtain ⟨later, blank, shown, inner⟩ := ready
      refine ⟨later, ?_, shown, inner.congr same.2⟩
      rintro rfl
      rw [same.1 a (by simp only [if_true, List.mem_singleton])]
      exact blank rfl

theorem ReadyAll.congr {as bs : Activations} {epoch : Nat} : ∀ {plans : List Plan} {above},
    ReadyAll as epoch above plans →
    (∀ a ∈ freshAll plans, (bs.find? a).map Activation.bare = (as.find? a).map Activation.bare) →
    ReadyAll bs epoch above plans
  | [], _, _, _ => by simp only [ReadyAll]
  | plan :: plans, _, ready, same => by
      rw [ReadyAll] at ready ⊢
      rw [freshAll, List.forall_mem_append] at same
      exact ⟨ready.1.congr same.1, ready.2.congr same.2⟩

end

end Plan

namespace Picture

@[simp] theorem head?_entries (ps : List Picture) : (entries ps).head? = ps.head?.map entry := by
  cases ps <;> rfl

@[simp] theorem tail_entries (ps : List Picture) : (entries ps).tail = entries ps.tail := by
  cases ps <;> rfl

theorem StandAll.tail {as : Activations} (stands : StandAll as place above ps) :
    StandAll as place above ps.tail :=
  standAll_iff.mpr fun p member => standAll_iff.mp stands p (List.mem_of_mem_tail member)

theorem StandAll.head? {as : Activations} (stands : StandAll as place above ps)
    (first : ps.head? = some p) : Stands as place above p :=
  standAll_iff.mp stands p (List.mem_of_head? first)

theorem StandAll.inside {as : Activations} (stands : StandAll as place above ps) :
    ∃ inner, StandAll as inner above (Plan.inside ps.head?) := by
  cases first : ps.head? with
  | none => exact ⟨place, by simp only [Plan.inside, standAll_nil]⟩
  | some p =>
      have stands := stands.head? first
      cases p with
      | element node _ _ children => exact ⟨node, stands_element.mp stands⟩
      | component a c props tree output =>
          obtain ⟨later, _, _, inner⟩ := stands_component.mp stands
          exact ⟨place, inner.mono (Nat.le_of_lt later)⟩
      | text | raw | missing => exact ⟨place, by simp only [Plan.inside, standAll_nil]⟩

/-- The activation that a component's position keeps, as the table tells it. -/
theorem activationAt?_eq {as : Activations} {p : Option Picture} {c : Component}
    (stands : ∀ q, p = some q → Stands as place above q) :
    Renderer.activationAt? as c (p.map entry) = Plan.kept? c p := by
  rcases p with _ | q
  · rfl
  cases q with
  | component a mounted props tree output =>
      obtain ⟨_, ⟨r, found, shows⟩, _, _⟩ := stands_component.mp (stands _ rfl)
      simp only [Option.map_some, entry, Renderer.activationAt?, Plan.kept?, found, Option.any_some,
        shows.component]
  | _ => rfl

theorem output_of_kept {as : Activations} {p : Option Picture} {c : Component}
    (stands : ∀ q, p = some q → Stands as place above q) (keeps : Plan.kept? c p = some a) :
    above < a.index ∧ a.index ≤ Arena.issued as ∧ as.output a = entries (Plan.inside p) ∧
      StandAll as place a.index (Plan.inside p) := by
  rcases p with _ | q
  · cases keeps
  cases q with
  | component b mounted props tree output =>
      simp only [Plan.kept?] at keeps
      split at keeps
      · cases keeps
        obtain ⟨later, ⟨r, found, shows⟩, _, inner⟩ := stands_component.mp (stands _ rfl)
        exact ⟨later, Activations.index_le_issued found,
          (Activations.output_eq found).trans shows.output, inner⟩
      · cases keeps
  | _ => cases keeps

theorem opened_eq {D : Type} [Layer D] (dom : D) (tag : String) (p : Option Picture) :
    Renderer.opened dom tag (p.map entry) = (Plan.keepsElement dom tag p,
      entries (if Plan.keepsElement dom tag p then Plan.inside p else [])) := by
  rcases p with _ | q
  · rfl
  cases q with
  | element node mounted attributes children =>
      simp only [Option.map_some, entry, Renderer.opened, Renderer.elementAt?, Plan.keepsElement,
        Plan.inside]
      by_cases same : mounted = tag
      · simp only [same, if_true, decide_true, Bool.true_and]
        cases Renderer.elementIsLive dom node tag <;> rfl
      · simp only [same, if_false, decide_false, Bool.false_and]
        rfl
  | _ => rfl

theorem textIsLive_eq {D : Type} [Layer D] (dom : D) (p : Option Picture) :
    Renderer.textIsLive dom (p.map entry) = Plan.keepsText dom p := by
  rcases p with _ | q
  · rfl
  · cases q <;> rfl

end Picture

namespace Renderer

variable {D σ : Type} {δ : StateData} [HasStateData σ δ] [Layer D] {program : Program σ} {s t : Renderer D σ}

/-- What holds of the plans of a pass from `s` to `t` over what stood there before. -/
structure Planned (s t : Renderer D σ) (above : Nat) (ps : List Picture) (positions : List Flat)
    (plans : List Plan) : Prop where
  fits : Plan.FitAll s.dom ps plans
  flats : Plan.flats plans = positions
  ready : Plan.ReadyAll t.activations s.epoch above plans
  fresh : Plan.freshAll plans =
    issuedBetween (Arena.issued s.activations) (Arena.issued t.activations)

omit [Layer D] in
theorem Advances.standAll (advances : Advances s t)
    (stands : Picture.StandAll s.activations place above ps) :
    Picture.StandAll t.activations place above ps :=
  stands.congr fun a member => advances.old a (stands.index a member).2

theorem map_eq_ok {f : α → β} {r : Fallible α} (ok : r.map f = .ok b) : ∃ a, r = .ok a ∧ f a = b := by
  cases r with
  | error e => cases ok
  | ok a => exact ⟨a, rfl, Except.ok.inj ok⟩

theorem Planned.cons (advances : Advances s t) (fits : Plan.Fits s.dom ps.head? plan)
    (flat : plan.flat = position) (ready : plan.Ready t.activations s.epoch above)
    (fresh : plan.fresh = issuedBetween (Arena.issued s.activations) (Arena.issued t.activations))
    (later : Advances t u) (rest : Planned t u above ps.tail positions plans) :
    Planned s u above ps (position :: positions) (plan :: plans) where
  fits := by
    rw [Plan.FitAll]
    exact ⟨fits, advances.dom ▸ rest.fits⟩
  flats := by rw [Plan.flats, flat, rest.flats]
  ready := by
    rw [Plan.ReadyAll]
    refine ⟨ready.congr fun a member => ?_, advances.epoch ▸ rest.ready⟩
    exact later.old a (mem_issuedBetween.mp (fresh ▸ member)).2
  fresh := by
    rw [Plan.freshAll, fresh, rest.fresh, issuedBetween_append advances.issued later.issued]

omit [Layer D] in
theorem Undisturbed.fresh (calm : Undisturbed s t) :
    issuedBetween (Arena.issued s.activations) (Arena.issued t.activations) = [] := by
  rw [calm.issued, issuedBetween_self]

/-- How a component's position is planned, and what its output is paired with. -/
structure Placed (s t : Renderer D σ) (place : NodeId) (above : Nat) (p : Option Picture)
    (reference : ComponentRef) (a : ActivationId) (made : Bool) : Prop where
  new : made = (Plan.kept? reference.component p).isNone
  kept : made = false → Plan.kept? reference.component p = some a
  later : above < a.index
  issued : a.index ≤ Arena.issued t.activations
  blank : made = true → ∃ owner, (t.activations.find? a).map Activation.bare =
    some (.blank owner reference s.epoch)
  fresh : (if made then [a] else []) =
    issuedBetween (Arena.issued s.activations) (Arena.issued t.activations)
  output : t.activations.output a = Picture.entries (if made then [] else Plan.inside p)
  inner : Picture.StandAll t.activations place a.index (if made then [] else Plan.inside p)

omit [Layer D] in
theorem placed_of_placing (stands : Picture.StandAll s.activations place above ps)
    (enough : above ≤ Arena.issued s.activations)
    (returned : Returns (placing owner reference (ps.head?.map Picture.entry)) s (a, made) t) :
    Placed s t place above ps.head? reference a made := by
  have first : ∀ q, ps.head? = some q → Picture.Stands s.activations place above q :=
    fun q found => stands.head? found
  obtain ⟨found, rfl, rfl⟩ | ⟨absent, rfl, index, opened⟩ := placing_cases returned
  · rw [Picture.activationAt?_eq first] at found
    obtain ⟨later, issued, holds, inner⟩ := Picture.output_of_kept first found
    exact ⟨by rw [found, Option.isNone_some], fun _ => found, later, issued, nofun,
      (issuedBetween_self _).symm, holds, inner⟩
  · rw [Picture.activationAt?_eq first] at absent
    have count : Arena.issued t.activations = Arena.issued s.activations + 1 := by
      rw [opened, Arena.issued_alloc]
    have blank : (t.activations.find? a).map Activation.bare =
        some (.blank owner reference s.epoch) := by
      rw [opened, Activations.find?_alloc, if_pos index]
      rfl
    refine ⟨by rw [absent, Option.isNone_none], nofun, by omega, by omega, fun _ => ⟨owner, blank⟩,
      ?_, Activations.output_of_blank blank, Picture.standAll_nil.mpr trivial⟩
    rw [count, issuedBetween_succ, ← index]
    rfl

omit [Layer D] in
/-- The component's own invocation changes nothing about its position. -/
theorem Placed.ran (placed : Placed s t place above p reference a made) (ran : Undisturbed t u) :
    Placed s u place above p reference a made where
  new := placed.new
  kept := placed.kept
  later := placed.later
  issued := ran.issued ▸ placed.issued
  blank isNew := by
    rw [ran.bare]
    exact placed.blank isNew
  fresh := ran.issued ▸ placed.fresh
  output := by
    have same : u.activations.output a = t.activations.output a := by
      have bare := congrArg (Option.map Activation.output) (ran.bare a)
      simp only [Option.map_map] at bare
      exact congrArg (Option.getD · []) bare
    rw [same, placed.output]
  inner := placed.inner.congr fun b _ => ran.bare b

theorem Passes.planned (passes : Passes program owner es positions s trials result t) :
    ∀ {ps place above plans}, es = Picture.entries ps →
      Picture.StandAll s.activations place above ps → above ≤ Arena.issued s.activations →
      result = .ok plans → Planned s t above ps positions plans := by
  -- By induction on the pass. Whatever it does on the way only advances the state, so the pictures that are left
  -- still stand when their turn comes.
  induction passes with
  | nil =>
      rintro ps place above plans rfl stands enough ok
      cases ok
      exact ⟨by simp only [Plan.FitAll], rfl, by simp only [Plan.ReadyAll],
        (issuedBetween_self _).symm⟩
  | text checked passes ih =>
      rintro ps place above plans rfl stands enough ok
      obtain ⟨rest, ended, rfl⟩ := map_eq_ok ok
      rw [Picture.head?_entries] at checked
      obtain ⟨calm, reuse⟩ := undisturbed_checkEntry checked
      have later := ih (Picture.tail_entries ps) (calm.advances.standAll stands).tail
        (calm.issued ▸ enough) ended
      refine .cons calm.advances ?_ rfl (by simp only [Plan.Ready]) calm.fresh.symm passes.advances later
      rw [Plan.Fits, reuse, Picture.textIsLive_eq]
  | raw passes ih =>
      rintro ps place above plans rfl stands enough ok
      obtain ⟨rest, ended, rfl⟩ := map_eq_ok ok
      refine .cons (.refl _) ?_ rfl (by simp only [Plan.Ready]) (issuedBetween_self _).symm
        passes.advances (ih (Picture.tail_entries ps) stands.tail enough ended)
      rw [Plan.Fits, Picture.head?_entries]
  | element opened inner passes one two =>
      rintro ps place above plans rfl stands enough ok
      obtain ⟨rest, ended, rfl⟩ := map_eq_ok ok
      rw [Picture.head?_entries] at opened
      obtain ⟨calm, same⟩ := undisturbed_opening opened
      rw [Picture.opened_eq] at same
      obtain ⟨rfl, rfl⟩ := Prod.mk.inj same
      obtain ⟨node, under⟩ := (calm.advances.standAll stands).inside
      have kids := one rfl (by split <;> [exact under; exact Picture.standAll_nil.mpr trivial])
        (calm.issued ▸ enough) rfl
      have begun := calm.advances.trans inner.advances
      have later := two (Picture.tail_entries ps) (begun.standAll stands).tail
        (Nat.le_trans enough begun.issued) ended
      refine .cons begun ?_ ?_ ?_ ?_ passes.advances later
      · rw [Plan.Fits]
        exact ⟨rfl, calm.advances.dom ▸ kids.fits⟩
      · rw [Plan.flat, kids.flats]
      · rw [Plan.Ready]
        exact calm.advances.epoch ▸ kids.ready
      · rw [Plan.fresh, kids.fresh, calm.issued]
  | component placed ran inner passes one two =>
      rintro ps place above plans rfl stands enough ok
      obtain ⟨rest, ended, rfl⟩ := map_eq_ok ok
      rw [Picture.head?_entries] at placed
      have found := advances_placing placed
      -- The body runs after its position was looked up, and leaves what was found there as it was.
      have placed := (placed_of_placing stands enough placed).ran ran.undisturbed
      have invoked := found.trans ran.undisturbed.advances
      have output := one placed.output placed.inner placed.issued rfl
      have begun := invoked.trans (inner.advances.resuming rfl)
      have later := two (Picture.tail_entries ps) (begun.standAll stands).tail
        (Nat.le_trans enough begun.issued) ended
      refine .cons begun ?_ rfl ?_ ?_ passes.advances later
      · rw [Plan.Fits]
        exact ⟨placed.new, placed.kept, invoked.dom ▸ output.fits⟩
      · rw [Plan.Ready]
        refine ⟨placed.later, fun isNew => ?_, output.flats, invoked.epoch ▸ output.ready⟩
        obtain ⟨owner, blank⟩ := placed.blank isNew
        exact ⟨owner, (inner.advances.old _ placed.issued).trans blank⟩
      · rw [Plan.fresh, placed.fresh, output.fresh]
        exact issuedBetween_append invoked.issued inner.advances.issued
  | elementFailed | componentFailed | outputFailed => nofun

end Renderer

end Patchwork
