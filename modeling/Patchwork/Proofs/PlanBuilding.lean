import Patchwork.Proofs.Outline
import Patchwork.Proofs.PictureUnmounting

/-! Building: plans in which everything is new are drawn, and their activations are placed. -/
namespace Patchwork

namespace Plan

mutual

def New : Plan → Prop
  | text _ _ | raw _ _ => True
  | element _ _ children _ => NewAll children
  | component _ made _ _ _ output => made = true ∧ NewAll output

def NewAll : List Plan → Prop
  | [] => True
  | plan :: rest => New plan ∧ NewAll rest

end

mutual

theorem New.fresh_eq : ∀ {plan : Plan}, New plan → fresh plan = activations plan
  | .text .., _ | .raw .., _ => by simp only [fresh, activations]
  | .element _ _ children _, new => by
      rw [New] at new
      rw [fresh, activations, NewAll.fresh_eq new]
  | .component a made _ _ _ output, new => by
      rw [New] at new
      rw [fresh, activations, new.1, NewAll.fresh_eq new.2]
      rfl

theorem NewAll.fresh_eq : ∀ {plans : List Plan}, NewAll plans → freshAll plans = activationsAll plans
  | [], _ => rfl
  | plan :: rest, new => by
      rw [NewAll] at new
      rw [freshAll, activationsAll, new.1.fresh_eq, NewAll.fresh_eq new.2]

end

variable {D : Type} [Layer D] {dom : D}

mutual

theorem new_of_fits_none : ∀ {plan : Plan}, Fits dom none plan → New plan
  | .text .., _ | .raw .., _ => by simp only [New]
  | .element _ _ children _, fits => by
      rw [Fits] at fits
      obtain ⟨anew, fits⟩ := fits
      cases (anew : _ = false)
      rw [New]
      exact new_of_fitAll_nil fits
  | .component a made _ _ _ output, fits => by
      rw [Fits] at fits
      obtain ⟨anew, -, fits⟩ := fits
      cases (anew : _ = true)
      rw [New]
      exact ⟨rfl, new_of_fitAll_nil fits⟩

theorem new_of_fitAll_nil : ∀ {plans : List Plan}, FitAll dom [] plans → NewAll plans
  | [], _ => by simp only [NewAll]
  | plan :: rest, fits => by
      rw [FitAll] at fits
      rw [NewAll]
      exact ⟨new_of_fits_none fits.1, new_of_fitAll_nil fits.2⟩

end

end Plan

namespace Renderer

open Picture

variable {D σ : Type} {δ : StateData} [HasStateData σ δ] {s t u : Renderer D σ}

/-- Pictures were produced: the canvas is as told, the table stands for them, and their activations
were rendered during the current flush. -/
structure Produced (touched : List ActivationId) (place : NodeId) (above : Nat)
    (result : List Picture × Canvas D) (s t : Renderer D σ) : Prop where
  canvas : t.canvas = result.2
  confined : Confined touched s t
  stands : StandAll t.activations place above result.1
  rendered : ∀ a ∈ activationsAll result.1,
    (t.activations.find? a).map Activation.renderedIn = some s.epoch

/-- The step answers the entries of pictures that it produces. -/
def Produces (step : RenderM D σ (List Mounted)) (touched : List ActivationId) (place : NodeId)
    (above : Nat) (result : List Picture × Canvas D) (s : Renderer D σ) : Prop :=
  ∃ t, Returns step s (entries result.1) t ∧ Produced touched place above result s t

def ProducesOne (step : RenderM D σ Mounted) (touched : List ActivationId) (place : NodeId)
    (above : Nat) (result : Picture × Canvas D) (s : Renderer D σ) : Prop :=
  ∃ t, Returns step s result.1.entry t ∧ Produced touched place above ([result.1], result.2) s t

theorem Confined.readyAll (confined : Confined within s t)
    (ready : Plan.ReadyAll s.activations s.epoch above plans)
    (apart : ∀ a ∈ Plan.freshAll plans, a ∉ within) :
    Plan.ReadyAll t.activations t.epoch above plans :=
  confined.epoch ▸ ready.congr fun a member => by rw [confined.others a (apart a member)]

theorem Confined.reading (confined : Confined within s t) (free : s.calls.reading = []) :
    t.calls.reading = [] := (congrArg Calls.reading confined.calls).trans free

namespace Produced

theorem nothing (place : NodeId) (above : Nat) (s : Renderer D σ) :
    Produced [] place above ([], s.canvas) s s :=
  ⟨rfl, .refl s, standAll_nil.mpr trivial, fun _ member => (List.not_mem_nil member).elim⟩

theorem leaf (drawn : Drawn change s t) (bare : p.activations = [])
    (stands : Stands t.activations place above p) :
    Produced [] place above ([p], change s.canvas) s t where
  canvas := drawn.canvas
  confined := drawn.confined
  stands := standAll_cons.mpr ⟨stands, standAll_nil.mpr trivial⟩
  rendered a member := by
    simp only [activationsAll, bare, List.append_nil, List.not_mem_nil] at member

theorem element (kids : Produced touched node above (qs, w) s t) (tag : String)
    (attributes : Attributes) (place : NodeId) :
    Produced touched place above ([.element node tag attributes qs], w) s t where
  canvas := kids.canvas
  confined := kids.confined
  stands := standAll_cons.mpr ⟨stands_element.mpr kids.stands, standAll_nil.mpr trivial⟩
  rendered a member := kids.rendered a (by
    simpa only [activationsAll, Picture.activations, List.append_nil] using member)

theorem drawn (one : Produced touched place above (ps, c) s t) (drawn : Drawn change t u) :
    Produced touched place above (ps, change c) s u where
  canvas := by rw [drawn.canvas, one.canvas]
  confined := (one.confined.trans drawn.confined).mono fun _ member => by
    simpa only [List.append_nil] using member
  stands := drawn.activations ▸ one.stands
  rendered := drawn.activations ▸ one.rendered

theorem cons (one : Produced touched place above ([q], c) s t)
    (two : Produced others place above (qs, c') t u) (apart : ∀ a ∈ q.activations, a ∉ others) :
    Produced (touched ++ others) place above (q :: qs, c') s u where
  canvas := two.canvas
  confined := one.confined.trans two.confined
  stands := standAll_cons.mpr
    ⟨two.confined.stands (standAll_cons.mp one.stands).1 apart, two.stands⟩
  rendered a member := by
    simp only [activationsAll, List.mem_append] at member
    cases member with
    | inl early =>
        rw [two.confined.others a (apart a early)]
        exact one.rendered a (by simpa only [activationsAll, List.append_nil] using early)
    | inr late => rw [two.rendered a late, one.confined.epoch]

theorem mono (one : Produced within place above result s t) (more : ∀ a ∈ within, a ∈ outer) :
    Produced outer place above result s t :=
  { one with confined := one.confined.mono more }

theorem after (before : Confined first s t) (later : Produced touched place above result t u) :
    Produced (first ++ touched) place above result s u where
  canvas := later.canvas
  confined := before.trans later.confined
  stands := later.stands
  rendered a member := by rw [later.rendered a member, before.epoch]

def settling (a : ActivationId) (output : List Mounted) (f : Activation → Activation)
    (s : Renderer D σ) : Renderer D σ :=
  { s with activations := (s.activations.update a ({ · with output })).update a f }

theorem returns_settling (free : t.calls.reading = []) (a : ActivationId) (output : List Mounted)
    (f : Activation → Activation) :
    ∃ u, Returns (setOutput a output) t () u ∧
      Returns (updateActivation a f) u () (settling a output f t) ∧ u.epoch = t.epoch :=
  ⟨_, returns_setOutput free, updated .., rfl⟩

theorem confined_settling (t : Renderer D σ) (a : ActivationId) (output : List Mounted)
    {f : Activation → Activation} (keeps : ∀ r, (f r).memory = r.memory) :
    Confined [a] t (settling a output f t) :=
  ((Confined.update t a ({ · with output }) fun _ => rfl).trans
    (.update _ a f keeps)).mono fun _ member => by simpa using member

/-- An activation takes over what was produced as its output. -/
theorem settle {f : Activation → Activation}
    (inner : Produced touched place a.index (qs, w) s t) (outside : a ∉ touched)
    (apart : a ∉ activationsAll qs) (later : above < a.index)
    (shown : flats qs = tree.flattenOutput) (found : s.activations.find? a = some r)
    (shows : (f { r with output := entries qs }).Shows place c props tree (entries qs))
    (rendered : (f { r with output := entries qs }).renderedIn = s.epoch)
    (keeps : ∀ r, (f r).memory = r.memory) :
    Produced (a :: touched) place above ([.component a c props tree qs], w) s
      (settling a (entries qs) f t) := by
  have settled := confined_settling t a (entries qs) keeps
  have record : (settling a (entries qs) f t).activations.find? a =
      some (f { r with output := entries qs }) := by
    have kept := (inner.confined.others a outside).trans found
    simp only [settling, Activations.find?_update_self, kept, Option.map_some]
  have only : ∀ b ∈ activationsAll qs, b ∉ [a] := fun b member same =>
    apart (List.mem_singleton.mp same ▸ member)
  refine ⟨inner.canvas, (inner.confined.trans settled).mono fun _ member => ?_, ?_, ?_⟩
  · rw [List.mem_append, List.mem_singleton] at member
    exact List.mem_cons.mpr member.symm
  · rw [standAll_cons, stands_component]
    exact ⟨⟨later, ⟨_, record, shows⟩, shown, settled.standAll inner.stands only⟩,
      standAll_nil.mpr trivial⟩
  · simp only [activationsAll, Picture.activations, List.append_nil, List.forall_mem_cons]
    refine ⟨by rw [record, Option.map_some, rendered], fun b member => ?_⟩
    rw [settled.others b (only b member)]
    exact inner.rendered b member

end Produced

/-- A blank activation shows its output once it is placed. -/
theorem shows_of_blank {r : Activation} {owner : Option ActivationId} {n : Nat} {c : Component}
    (blank : r.bare = .blank owner ⟨c, props⟩ n) (place : NodeId) (output : List Mounted)
    (tree : Tree) :
    Activation.Shows { { { r with parent := some place } with output } with committed := some tree }
      place c props tree output where
  registered := (congrArg Activation.unmounted blank :)
  parent := rfl
  component := (congrArg Activation.component blank :)
  props := (congrArg Activation.props blank :)
  committed := rfl
  output := rfl

theorem noted_update (s : Renderer D σ) (r : Report) (quiet : r.isAlarm = false) (a : ActivationId)
    (f : Activation → Activation) (keeps : ∀ r, (f r).memory = r.memory) :
    ∃ t, Returns (updateActivation a f) (s.noting r) () t ∧ t.canvas = s.canvas ∧
      Confined [a] s t ∧ t.activations.find? a = (s.activations.find? a).map f := by
  obtain ⟨-, noted⟩ := drawn_report s quiet
  exact ⟨_, updated .., noted.canvas, noted.confined.trans (.update _ a f keeps),
    Activations.find?_update_self ..⟩

variable [Layer D]

/-- A new activation is placed if its output is built. -/
theorem builds_component {plans : List Plan}
    (ready : Plan.Ready s.activations s.epoch above (.component a true c props tree plans))
    (distinct : (a :: Plan.activationsAll plans).Nodup) (free : s.calls.reading = [])
    (fresh : Plan.freshAll plans = Plan.activationsAll plans)
    (inner : ∀ {s : Renderer D σ}, Plan.ReadyAll s.activations s.epoch a.index plans →
      s.calls.reading = [] → Produces (buildOutput parent plans) (Plan.activationsAll plans) parent
        a.index (Canvas.drawAll plans s.canvas) s) :
    ProducesOne (build parent (.component a true c props tree plans))
      (a :: Plan.activationsAll plans) parent above
      (Canvas.draw (.component a true c props tree plans) s.canvas) s := by
  rw [Plan.Ready] at ready
  obtain ⟨later, blank, shown, ready⟩ := ready
  obtain ⟨owner, blank⟩ := blank rfl
  obtain ⟨r, found, blank⟩ := Option.map_eq_some_iff.mp blank
  have outside := (List.nodup_cons.mp distinct).1
  obtain ⟨t, placed, canvas, placing, record⟩ := noted_update s (.placingActivation a) rfl a
    ({ · with parent := some parent }) fun _ => rfl
  rw [found, Option.map_some] at record
  have free' := placing.reading free
  obtain ⟨u, built, produced⟩ := inner (placing.readyAll ready fun b member same =>
    outside (List.mem_singleton.mp same ▸ fresh ▸ member)) free'
  rw [canvas] at built produced
  obtain ⟨shows, within⟩ := shows_of_outlines (Canvas.drawAll_outlines plans s.canvas)
  have settled := produced.settle (f := ({ · with committed := some tree })) outside
    (within ▸ outside) later (shows.trans shown) record (shows_of_blank blank parent _ tree)
    ((congrArg Activation.renderedIn blank).trans placing.epoch.symm) fun _ => rfl
  refine ⟨_, ?_, (settled.after placing).mono fun b member => by simpa using member⟩
  rw [build]
  obtain ⟨v, set, committed, -⟩ := Produced.returns_settling (produced.confined.reading free') a
    (entries (Canvas.drawAll plans s.canvas).1) ({ · with committed := some tree })
  exact (reported ..).bind (placed.bind (built.bind (set.bind (committed.bind
    (returns_pure.mpr ⟨rfl, rfl⟩)))))

mutual

theorem builds : ∀ (plan : Plan) (parent : NodeId) {above} {s : Renderer D σ},
    plan.Ready s.activations s.epoch above → plan.New → plan.activations.Nodup →
    s.calls.reading = [] →
    ProducesOne (build parent plan) plan.activations parent above (Canvas.draw plan s.canvas) s
  | .text content _, parent, above, s, _, _, _, _ => by
      obtain ⟨noted, quiet⟩ := drawn_report s (r := .creatingText (.of content)) rfl
      obtain ⟨t, made, drawn⟩ := drawn_makeNode (s.noting (.creatingText (.of content)))
        (Layer.createText · content)
      rw [quiet.canvas] at made
      refine ⟨t, ?_, .leaf (quiet.trans drawn) rfl (stands_text.mpr trivial)⟩
      rw [build]
      exact noted.bind (made.bind (returns_pure.mpr ⟨rfl, rfl⟩))
  | .raw node _, parent, above, s, _, _, _, _ => by
      obtain ⟨t, asked, adopting⟩ := drawn_makeNode s (Layer.adopt · node)
      rw [build, Canvas.draw, Plan.activations]
      cases adopted : s.canvas.make (Layer.adopt · node) with
      | mk answer canvas =>
      rw [adopted] at asked
      have same : (fun c : Canvas D => (c.make (Layer.adopt · node)).2) s.canvas = canvas :=
        congrArg Prod.snd adopted
      cases answer with
      | some there =>
          refine ⟨t, asked.bind (returns_pure.mpr ⟨rfl, rfl⟩), ?_⟩
          exact same ▸ .leaf adopting rfl (stands_raw.mpr trivial)
      | none =>
          obtain ⟨noted, quiet⟩ := drawn_report t (r := .notAdopted) rfl
          obtain ⟨u, made, drawn⟩ := drawn_makeNode (t.noting .notAdopted) (Layer.createText · "")
          have before := adopting.trans quiet
          rw [before.canvas.trans same] at made
          refine ⟨u, asked.bind (noted.bind (made.bind (returns_pure.mpr ⟨rfl, rfl⟩))), ?_⟩
          exact same ▸ .leaf (before.trans drawn) rfl (stands_missing.mpr trivial)
  | .element tag attributes children _, parent, above, s, ready, new, distinct, free => by
      rw [Plan.Ready] at ready
      rw [Plan.New] at new
      rw [Plan.activations] at distinct ⊢
      obtain ⟨noted, quiet⟩ := drawn_report s (r := .creatingElement tag) rfl
      obtain ⟨t, made, drawn⟩ := drawn_makeNode (s.noting (.creatingElement tag))
        (Layer.createElement · tag)
      rw [quiet.canvas] at made
      have begun := quiet.trans drawn
      -- The children are built into the element before it is dressed.
      obtain ⟨u, built, produced⟩ := builds_children (s.canvas.make (Layer.createElement · tag)).1
        children (begun.confined.readyAll ready fun _ _ => List.not_mem_nil) new distinct
        (begun.confined.reading free)
      rw [begun.canvas] at built produced
      obtain ⟨v, dressed, dressing⟩ := drawn_onBound u fun binder dom =>
        binder.apply dom (s.canvas.make (Layer.createElement · tag)).1 tag attributes
      refine ⟨v, ?_, ((produced.after begun.confined).drawn dressing).element tag attributes parent⟩
      rw [build]
      exact noted.bind (made.bind (built.bind (dressed.bind (returns_pure.mpr ⟨rfl, rfl⟩))))
  | .component a made c props tree output, parent, above, s, ready, new, distinct, free => by
      rw [Plan.New] at new
      obtain ⟨rfl, new⟩ := new
      exact builds_component ready distinct free new.fresh_eq fun ready free =>
        builds_output output parent ready new (List.nodup_cons.mp distinct).2 free

theorem builds_children (node : NodeId) : ∀ (plans : List Plan) {above} {s : Renderer D σ},
    Plan.ReadyAll s.activations s.epoch above plans → Plan.NewAll plans →
    (Plan.activationsAll plans).Nodup → s.calls.reading = [] →
    Produces (buildChildren node plans) (Plan.activationsAll plans) node above
      (Canvas.drawInto node none plans s.canvas) s
  | [], above, s, _, _, _, _ => ⟨s, returns_pure.mpr ⟨rfl, rfl⟩, .nothing node above s⟩
  | plan :: rest, above, s, ready, new, distinct, free => by
      rw [Plan.ReadyAll] at ready
      rw [Plan.NewAll] at new
      rw [Plan.activationsAll, List.nodup_append'] at distinct
      obtain ⟨t, built, one⟩ := builds plan node ready.1 new.1 distinct.1 free
      obtain ⟨u, put, drawn⟩ := drawn_insert (standAll_cons.mp one.stands).1 node none
      have first := one.drawn drawn
      obtain ⟨v, others, two⟩ := builds_children node rest (first.confined.readyAll ready.2
        fun a member inside => distinct.2.2 inside (new.2.fresh_eq ▸ member)) new.2 distinct.2.1
          (first.confined.reading free)
      rw [first.canvas] at others two
      refine ⟨v, ?_, ?_⟩
      · rw [buildChildren]
        exact built.bind (put.bind (others.bind (returns_pure.mpr ⟨rfl, rfl⟩)))
      · refine first.cons two fun a member inside => ?_
        rw [(shows_of_outline (Canvas.draw_outline plan s.canvas)).2] at member
        exact distinct.2.2 member inside

theorem builds_output : ∀ (plans : List Plan) (parent : NodeId) {above} {s : Renderer D σ},
    Plan.ReadyAll s.activations s.epoch above plans → Plan.NewAll plans →
    (Plan.activationsAll plans).Nodup → s.calls.reading = [] →
    Produces (buildOutput parent plans) (Plan.activationsAll plans) parent above
      (Canvas.drawAll plans s.canvas) s
  | [], parent, above, s, _, _, _, _ => ⟨s, returns_pure.mpr ⟨rfl, rfl⟩, .nothing parent above s⟩
  | plan :: rest, parent, above, s, ready, new, distinct, free => by
      rw [Plan.ReadyAll] at ready
      rw [Plan.NewAll] at new
      rw [Plan.activationsAll, List.nodup_append'] at distinct
      obtain ⟨t, built, one⟩ := builds plan parent ready.1 new.1 distinct.1 free
      obtain ⟨u, others, two⟩ := builds_output rest parent (one.confined.readyAll ready.2 fun a member inside =>
        distinct.2.2 inside (new.2.fresh_eq ▸ member)) new.2 distinct.2.1 (one.confined.reading free)
      rw [one.canvas] at others two
      refine ⟨u, ?_, ?_⟩
      · rw [buildOutput]
        exact built.bind (others.bind (returns_pure.mpr ⟨rfl, rfl⟩))
      · refine one.cons two fun a member inside => ?_
        rw [(shows_of_outline (Canvas.draw_outline plan s.canvas)).2] at member
        exact distinct.2.2 member inside

end

theorem builds_entries (parent : NodeId) (tail : Option NodeId) :
    ∀ (plans : List Plan) {above} {s : Renderer D σ},
    Plan.ReadyAll s.activations s.epoch above plans → Plan.NewAll plans →
    (Plan.activationsAll plans).Nodup → s.calls.reading = [] →
    Produces (addEntries parent tail plans) (Plan.activationsAll plans) parent above
      (Canvas.drawInto parent tail plans s.canvas) s
  | [], above, s, _, _, _, _ => ⟨s, returns_pure.mpr ⟨rfl, rfl⟩, .nothing parent above s⟩
  | plan :: rest, above, s, ready, new, distinct, free => by
      rw [Plan.ReadyAll] at ready
      rw [Plan.NewAll] at new
      rw [Plan.activationsAll, List.nodup_append'] at distinct
      obtain ⟨t, built, one⟩ := builds plan parent ready.1 new.1 distinct.1 free
      obtain ⟨u, put, drawn⟩ := drawn_insert (standAll_cons.mp one.stands).1 parent tail
      have first := one.drawn drawn
      obtain ⟨v, others, two⟩ := builds_entries parent tail rest (first.confined.readyAll ready.2
        fun a member inside => distinct.2.2 inside (new.2.fresh_eq ▸ member)) new.2 distinct.2.1
        (first.confined.reading free)
      rw [first.canvas] at others two
      refine ⟨v, ?_, ?_⟩
      · rw [addEntries]
        exact built.bind (put.bind (others.bind (returns_pure.mpr ⟨rfl, rfl⟩)))
      · refine first.cons two fun a member inside => ?_
        rw [(shows_of_outline (Canvas.draw_outline plan s.canvas)).2] at member
        exact distinct.2.2 member inside

end Renderer
end Patchwork
