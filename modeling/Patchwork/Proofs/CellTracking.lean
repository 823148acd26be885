import Patchwork.Proofs.ComponentDeeds

/-! What state cells go through while components run. A cell that a setter gave another datum has its
activation pending in the end; all other activations keep what their cells hold, and only get more. -/
namespace Patchwork

def StateData.answer (δ : StateData) (d : δ.Datum) (type : δ.DataType) (index : Nat) :
    Except RenderError δ.Datum :=
  if δ.type d = type then .ok d else .error (.hookTypeMismatch index (δ.name type))

section

variable {δ : StateData} {one two deeds : List (Deed δ)} {cells cells' : List δ.Datum}

def asks : List (Deed δ) → Nat
  | [] => 0
  | .asked _ _ :: deeds => asks deeds + 1
  | .changed _ _ :: deeds => asks deeds

/-- Hook calls were answered with these cells, in the order in which they returned, from the `index`-th on. -/
def Answered (cells : List δ.Datum) : Nat → List (Deed δ) → Prop
  | _, [] => True
  | index, .asked type answer :: deeds =>
      (∃ d, cells[index]? = some d ∧ answer = δ.answer d type index) ∧ Answered cells (index + 1) deeds
  | index, .changed _ _ :: deeds => Answered cells index deeds

theorem asks_append (one two : List (Deed δ)) : asks (one ++ two) = asks one + asks two := by
  induction one with
  | nil => rw [List.nil_append, asks, Nat.zero_add]
  | cons deed rest ih =>
      cases deed with
      | asked => rw [List.cons_append, asks, asks, ih, Nat.add_right_comm]
      | changed => rw [List.cons_append, asks, asks, ih]

theorem answered_append : Answered cells index (one ++ two) ↔
    Answered cells index one ∧ Answered cells (index + asks one) two := by
  induction one generalizing index with
  | nil => simp only [List.nil_append, Answered, asks, Nat.add_zero, true_and]
  | cons deed rest ih =>
      cases deed with
      | asked =>
          have moved : index + (asks rest + 1) = index + 1 + asks rest := by omega
          simp only [List.cons_append, Answered, asks, ih, and_assoc, moved]
      | changed => simp only [List.cons_append, Answered, asks, ih]

theorem Answered.mono (answered : Answered cells index deeds) (more : cells <+: cells') :
    Answered cells' index deeds := by
  induction deeds generalizing index with
  | nil => trivial
  | cons deed rest ih =>
      cases deed with
      | asked type answer =>
          obtain ⟨⟨d, cell, rfl⟩, later⟩ := answered
          obtain ⟨bound, rfl⟩ := List.getElem?_eq_some_iff.mp cell
          exact ⟨⟨_, List.prefix_iff_getElem?.mp more index bound, rfl⟩, ih later⟩
      | changed => exact @ih index answered

end

namespace Scheduler

variable {κ : Type} [DecidableEq κ] (s : Scheduler κ) (k : κ)

theorem mem_schedule : l ∈ (s.schedule k).2.queue ↔ l ∈ s.queue ∨ l = k := by
  unfold schedule
  split
  next waits =>
    constructor
    · exact .inl
    · rintro (waited | rfl)
      · exact waited
      · exact (s.mem_pending l).mp waits
  next => simp [add]

/-- A request arms what was not armed, unless its key waits already. -/
theorem armed_schedule (before : s.queue ≠ [] → s.armed = true) : (s.schedule k).2.armed = true ∧
    ((s.schedule k).1 = .armed ∨ s.armed = true) := by
  unfold schedule
  split
  next waits =>
    have armed := before (List.ne_nil_of_mem ((s.mem_pending k).mp waits))
    exact ⟨armed, .inr armed⟩
  next =>
    refine ⟨rfl, ?_⟩
    cases s.armed with
    | true => exact .inr rfl
    | false => exact .inl rfl

end Scheduler

namespace Renderer

variable {D σ : Type} {δ : StateData} [HasStateData σ δ] {s t u v : Renderer D σ} {program : Program σ}
  {deeds first second : List (Deed δ)}

def contents (s : Renderer D σ) (r : Activation) : List δ.Datum := r.cells.map s.datum

/-- The renderer is there, and the cells of an activation are its own. -/
structure Ready (s : Renderer D σ) : Prop where
  dropped : s.dropped = false
  owned : ∀ a r, s.activations.find? a = some r → ∀ cell ∈ r.cells,
    ∃ c, s.cell? cell = some c ∧ c.owner = a

theorem datum_of_cell? {cell : CellId} (same : t.cell? cell = s.cell? cell) : t.datum cell = s.datum cell := by
  rw [datum, datum, same]

theorem contents_congr (same : ∀ cell ∈ r.cells, t.cell? cell = s.cell? cell) : t.contents r = s.contents r :=
  List.map_congr_left fun cell member => datum_of_cell? (same cell member)

theorem contents_of_cells (same : t.cells = s.cells) : t.contents r = s.contents r :=
  contents_congr fun cell _ => by rw [Renderer.cell?, Renderer.cell?, same]

theorem Ready.of_same (ready : s.Ready) (dropped : t.dropped = s.dropped) (cells : t.cells = s.cells)
    (records : ∀ a r', t.activations.find? a = some r' →
      r'.cells = [] ∨ ∃ r, s.activations.find? a = some r ∧ r'.cells = r.cells) : t.Ready where
  dropped := dropped.trans ready.dropped
  owned a r' found' cell member := by
    rw [cell?, cells]
    rcases records a r' found' with none | ⟨r, found, same⟩
    · rw [none] at member
      cases member
    · exact ready.owned a r found cell (same ▸ member)

theorem Ready.ne_freshCell (ready : s.Ready) (found : s.activations.find? a = some r)
    (member : cell ∈ r.cells) : cell ≠ s.freshCell := by
  obtain ⟨c, there, -⟩ := ready.owned a r found cell member
  have low := Arena.index_le_issued there
  intro same
  rw [same, freshCell] at low
  exact absurd low (Nat.not_succ_le_self _)

theorem Ready.making (ready : s.Ready) (a : ActivationId) (d : δ.Datum) : (s.making a d).Ready where
  dropped := ready.dropped
  owned b r' found' cell member := by
    rw [cell?_making]
    rw [Renderer.making, Activations.find?_update] at found'
    split at found'
    next own =>
      subst own
      obtain ⟨r, found, rfl⟩ := Option.map_eq_some_iff.mp found'
      rcases List.mem_append.mp member with early | last
      · rw [if_neg (ready.ne_freshCell found early)]
        exact ready.owned b r found cell early
      · rw [if_pos (List.mem_singleton.mp last)]
        exact ⟨_, rfl, rfl⟩
    next =>
      rw [if_neg (ready.ne_freshCell found' member)]
      exact ready.owned b r' found' cell member

/-- Whoever waits is waited for: with keys in the queue a flush is armed, and an armed flush is a task
that waits. -/
structure Prompt (s : Renderer D σ) : Prop where
  armed : s.scheduler.queue ≠ [] → s.scheduler.armed = true
  waiting : s.scheduler.armed = true → s.waiting ≠ 0

/-- An activation keeps its cells, each in its place. Each holds what it held, or one of the deeds gave it
something else. -/
structure CellsKept (a : ActivationId) (deeds : List (Deed δ)) (s t : Renderer D σ) (r r' : Activation) : Prop where
  more : r.cells <+: r'.cells
  datum : ∀ cell ∈ r.cells, t.datum cell = s.datum cell ∨ .changed a cell ∈ deeds

theorem CellsKept.trans {r r' r'' : Activation} (one : CellsKept a first s t r r')
    (two : CellsKept a second t u r' r'') : CellsKept a (first ++ second) s u r r'' where
  more := one.more.trans two.more
  datum cell member := by
    rcases two.datum cell (one.more.subset member) with same | changed
    · exact (one.datum cell member).imp same.trans fun changed => List.mem_append_left _ changed
    · exact .inr (List.mem_append_right _ changed)

theorem CellsKept.of_same {r r' : Activation} (cells : r'.cells = r.cells) (same : t.cells = s.cells) :
    CellsKept a deeds s t r r' where
  more := cells ▸ List.prefix_rfl
  datum cell _ := .inl (datum_of_cell? (by rw [Renderer.cell?, Renderer.cell?, same]))

theorem CellsKept.contents {r r' : Activation} (kept : CellsKept a deeds s t r r')
    (unchanged : ∀ cell, .changed a cell ∉ deeds) : s.contents r <+: t.contents r' := by
  have same : t.contents r = s.contents r := List.map_congr_left fun cell member =>
    (kept.datum cell member).resolve_right (unchanged cell)
  exact same ▸ kept.more.map t.datum

/-- What running bodies do to state cells and requests; `deeds` are theirs. -/
structure Tracks (deeds : List (Deed δ)) (s t : Renderer D σ) : Prop where
  ready : t.Ready
  pending : ∀ a ∈ s.scheduler.queue, a ∈ t.scheduler.queue
  only : ∀ a ∈ t.scheduler.queue, a ∈ s.scheduler.queue ∨ ∃ cell, .changed a cell ∈ deeds
  prompt : s.Prompt → t.Prompt
  records : ∀ a r, s.activations.find? a = some r → ∃ r', t.activations.find? a = some r' ∧
    r'.unmounted = r.unmounted ∧ CellsKept a deeds s t r r'
  changed : ∀ a cell, .changed a cell ∈ deeds → ∀ r, s.activations.find? a = some r →
    r.unmounted = false → a ∈ t.scheduler.queue

namespace Tracks

theorem trans (one : Tracks first s t) (two : Tracks second t u) : Tracks (first ++ second) s u where
  ready := two.ready
  pending a member := two.pending a (one.pending a member)
  only a member := by
    rcases two.only a member with waited | ⟨cell, changed⟩
    · exact (one.only a waited).imp_right fun ⟨cell, changed⟩ => ⟨cell, List.mem_append_left _ changed⟩
    · exact .inr ⟨cell, List.mem_append_right _ changed⟩
  prompt before := two.prompt (one.prompt before)
  records a r found := by
    obtain ⟨r', found', same, kept⟩ := one.records a r found
    obtain ⟨r'', found'', same', kept'⟩ := two.records a r' found'
    exact ⟨r'', found'', same'.trans same, kept.trans kept'⟩
  changed a cell member r found live := by
    obtain ⟨r', found', same, -⟩ := one.records _ r found
    rcases List.mem_append.mp member with early | late
    · exact two.pending _ (one.changed a cell early r found live)
    · exact two.changed a cell late r' found' (same.trans live)

/-- What the cells of an activation hold stays in place, unless it is pending. -/
theorem cells (tracks : Tracks deeds s t) (a : ActivationId) (r : Activation)
    (found : s.activations.find? a = some r) : ∃ r', t.activations.find? a = some r' ∧
      r'.unmounted = r.unmounted ∧
      (r.unmounted = false → a ∈ t.scheduler.queue ∨ s.contents r <+: t.contents r') := by
  obtain ⟨r', found', same, kept⟩ := tracks.records a r found
  refine ⟨r', found', same, fun live => ?_⟩
  by_cases changed : ∃ cell, .changed a cell ∈ deeds
  · obtain ⟨cell, changed⟩ := changed
    exact .inl (tracks.changed a cell changed r found live)
  · exact .inr (kept.contents (not_exists.mp changed))

theorem after (one : Tracks [] s t) (two : Tracks deeds t u) : Tracks deeds s u := one.trans two

theorem asked (tracks : Tracks deeds s t) : Tracks (.asked type answer :: deeds) s t :=
  { tracks with
    only := fun a member => (tracks.only a member).imp_right fun ⟨cell, changed⟩ =>
      ⟨cell, List.mem_cons_of_mem _ changed⟩
    records := fun a r found => by
      obtain ⟨r', found', same, kept⟩ := tracks.records a r found
      exact ⟨r', found', same, kept.more, fun cell member =>
        (kept.datum cell member).imp_right (List.mem_cons_of_mem _)⟩
    changed := fun a cell member =>
      tracks.changed a cell ((List.mem_cons.mp member).resolve_left nofun) }

theorem of_records (ready : t.Ready) (scheduler : t.scheduler = s.scheduler) (waiting : t.waiting = s.waiting)
    (records : ∀ a r, s.activations.find? a = some r → ∃ r', t.activations.find? a = some r' ∧
      r'.unmounted = r.unmounted ∧ CellsKept a [] s t r r') : Tracks [] s t where
  ready := ready
  pending a member := scheduler ▸ member
  only a member := .inl (scheduler ▸ member)
  prompt before := ⟨scheduler ▸ before.armed, by rw [scheduler, waiting]; exact before.waiting⟩
  records := records
  changed _ _ member := (List.not_mem_nil member).elim

theorem of_same (ready : s.Ready) (dropped : t.dropped = s.dropped)
    (scheduler : t.scheduler = s.scheduler) (waiting : t.waiting = s.waiting)
    (activations : t.activations = s.activations) (cells : t.cells = s.cells) : Tracks [] s t := by
  have known : t.Ready := ready.of_same dropped cells fun a r found => .inr ⟨r, activations ▸ found, rfl⟩
  exact of_records known scheduler waiting fun _ r found => ⟨r, activations ▸ found, rfl, .of_same rfl cells⟩

theorem refl (ready : s.Ready) : Tracks [] s s := of_same ready rfl rfl rfl rfl rfl

theorem update (ready : s.Ready) (a : ActivationId) (f : Activation → Activation)
    (unmounted : ∀ r, (f r).unmounted = r.unmounted) (cells : ∀ r, (f r).cells = r.cells) :
    Tracks [] s { s with activations := s.activations.update a f } := by
  have known : Ready { s with activations := s.activations.update a f } := by
    refine ready.of_same rfl rfl fun b r' found' => .inr ?_
    rw [Activations.find?_update] at found'
    split at found'
    · obtain ⟨r, found, rfl⟩ := Option.map_eq_some_iff.mp found'
      exact ⟨r, found, cells r⟩
    · exact ⟨r', found', rfl⟩
  refine of_records known rfl rfl fun b r found => ?_
  by_cases same : b = a
  · subst same
    exact ⟨f r, by rw [Activations.find?_update_self, found, Option.map_some], unmounted r,
      .of_same (cells r) rfl⟩
  · exact ⟨r, by rw [Activations.find?_update_ne same, found], rfl, .of_same rfl rfl⟩

theorem making (ready : s.Ready) (a : ActivationId) (d : δ.Datum) : Tracks [] s (s.making a d) := by
  refine of_records (ready.making a d) rfl rfl fun b r found => ?_
  have kept : ∀ cell ∈ r.cells, (s.making a d).datum cell = s.datum cell := fun cell member =>
    datum_of_cell? (by rw [cell?_making, if_neg (ready.ne_freshCell found member)])
  by_cases own : b = a
  · subst own
    exact ⟨_, find?_making d found, rfl, List.prefix_append .., fun cell member => .inl (kept cell member)⟩
  · exact ⟨r, (Activations.find?_update_ne own).trans found, rfl, List.prefix_rfl,
      fun cell member => .inl (kept cell member)⟩

end Tracks

/-- What a request does: the activation waits if it is registered. -/
structure Requests (a : ActivationId) (s t : Renderer D σ) : Prop where
  activations : t.activations = s.activations
  cells : t.cells = s.cells
  dropped : t.dropped = s.dropped
  pending : ∀ b ∈ s.scheduler.queue, b ∈ t.scheduler.queue
  only : ∀ b ∈ t.scheduler.queue, b ∈ s.scheduler.queue ∨ a = b
  prompt : s.Prompt → t.Prompt
  heeded : s.activations.isRegistered a = true → a ∈ t.scheduler.queue

theorem requests_requestUpdate (there : s.dropped = false)
    (returned : Returns (requestUpdate a) s () t) : Requests a s t := by
  obtain ⟨rs, rfl⟩ := returns_requestUpdate returned
  have heeds_eq : s.heeds a = s.activations.isRegistered a := by rw [heeds, there]; rfl
  cases heard : s.heeds a with
  | false =>
      simp only [Bool.false_eq_true, false_and, if_false]
      refine ⟨rfl, rfl, rfl, fun _ => id, fun _ => .inl,
        fun before => ⟨before.armed, before.waiting⟩, fun registered => ?_⟩
      rw [← heeds_eq, heard] at registered
      cases registered
  | true =>
      simp only [if_true, true_and]
      refine ⟨rfl, rfl, rfl, fun b waits => ?_, fun b waits => ?_, fun before => ⟨fun _ => ?_, fun _ => ?_⟩,
        fun _ => ?_⟩
      · exact (Scheduler.mem_schedule ..).mpr (.inl waits)
      · exact ((Scheduler.mem_schedule ..).mp waits).imp_right Eq.symm
      · exact (Scheduler.armed_schedule _ a before.armed).1
      · dsimp only
        split
        next => exact Nat.succ_ne_zero _
        next other =>
          exact before.waiting ((Scheduler.armed_schedule _ a before.armed).2.resolve_left other)
      · exact (Scheduler.mem_schedule ..).mpr (.inr rfl)

theorem tracks_advancing (ready : s.Ready) (a : ActivationId) (r : Activation) :
    Tracks [] s (s.advancing a r) := .update ready _ _ (fun _ => rfl) fun _ => rfl

theorem HookStep.tracks (step : HookStep type s answer t) (ready : s.Ready) : Tracks [] s t := by
  cases step with
  | astray => exact .refl ready
  | met => exact tracks_advancing ready ..

theorem Wants.tracks (wants : Wants s a t) (ready : s.Ready) : Tracks [] s t := by
  cases wants with
  | missing =>
      have moved := tracks_advancing ready a
      exact (moved _).after (.of_same (moved _).ready rfl rfl rfl rfl rfl)

theorem tracks_updateCell (ready : s.Ready) (returned : Returns (updateCell setter change) s () t) :
    Tracks (s.deedsOf setter change) s t := by
  cases setterStep_of_returns returned with
  | vain same noted =>
      have none : s.deedsOf setter change = [] := by
        rw [deedsOf]
        split
        · rfl
        next c there => rw [if_pos (same c there)]
      subst noted
      rw [none]
      exact .of_same ready rfl rfl rfl rfl rfl
  | @changed c there differs requested =>
      rw [deedsOf, there]
      dsimp only
      rw [if_neg differs]
      have request := requests_requestUpdate (by exact ready.dropped) requested
      have elsewhere : ∀ cell, cell ≠ setter.cell → t.cell? cell = s.cell? cell := fun cell other => by
        rw [cell?, request.cells]
        exact (cell?_setting ..).trans (if_neg other)
      have waits : ∀ r, s.activations.find? c.owner = some r → r.unmounted = false →
          c.owner ∈ t.scheduler.queue := fun r found live =>
        request.heeded (Activations.isRegistered_iff.mpr ⟨r, found, live⟩)
      refine ⟨⟨request.dropped.trans ready.dropped, fun a r found cell member => ?_⟩, request.pending,
        fun b waiting => ?_, fun before => request.prompt ⟨before.armed, before.waiting⟩,
        fun b r found => ?_, fun a other member => ?_⟩
      · rw [request.activations] at found
        obtain ⟨c', there', own⟩ := ready.owned a r found cell member
        by_cases same : cell = setter.cell
        · subst same
          cases there.symm.trans there'
          refine ⟨{ c with datum := change c.datum }, ?_, own⟩
          rw [cell?, request.cells]
          exact (cell?_setting ..).trans ((if_pos rfl).trans (congrArg (Option.map _) there))
        · exact ⟨c', (elsewhere cell same).trans there', own⟩
      · refine (request.only b waiting).imp_right fun same => ⟨setter.cell, ?_⟩
        subst same
        exact List.mem_singleton_self _
      · refine ⟨r, request.activations ▸ found, rfl, List.prefix_rfl, fun cell member => ?_⟩
        by_cases same : cell = setter.cell
        · subst same
          obtain ⟨c', there', own⟩ := ready.owned b r found _ member
          cases there.symm.trans there'
          exact .inr (own ▸ List.mem_singleton_self _)
        · exact .inl (datum_of_cell? (elsewhere cell same))
      · cases List.mem_singleton.mp member
        exact waits

/-- Bodies track their deeds. -/
theorem Acts.tracks {x : Action σ α} (acts : Acts program x s deeds answer t) (ready : s.Ready) :
    Tracks deeds s t := by
  induction acts with
  | done => exact .refl ready
  | load _ ih | getCell _ ih => exact ih ready
  | store _ ih | report _ ih =>
      refine Tracks.after ?_ (ih ⟨ready.dropped, ready.owned⟩)
      exact .of_same ready rfl rfl rfl rfl rfl
  | asked step _ ih =>
      have one := step.tracks ready
      exact (one.after (ih one.ready)).asked
  | made wants _ _ inner ih =>
      have one := wants.tracks ready
      have two := inner one.ready
      have three := Tracks.making two.ready
      exact (one.after two).trans ((three _ _).after (ih (three _ _).ready)).asked
  | updateCell updated _ ih =>
      have one := tracks_updateCell ready updated
      exact one.trans (ih one.ready)
  | invoke _ _ inner ih =>
      have one := inner ready
      exact one.trans (ih one.ready)

/-- `n` hook calls of an invocation have returned. Each was about a cell that is there, and if others are
still in progress, these have come to the end of the cells. -/
structure Paced (n : Nat) (r : Activation) : Prop where
  cells : n ≤ r.cells.length
  cursor : n ≤ r.cursor
  either : n = r.cursor ∨ n = r.cells.length

/-- The activation's hook calls were answered in turn with the cells that it has in the end, unless it
is pending. -/
def Replies (a : ActivationId) (n : Nat) (deeds : List (Deed δ)) (s t : Renderer D σ) : Prop :=
  ∀ r, s.activations.find? a = some r → Paced n r →
    ∃ r', t.activations.find? a = some r' ∧ r'.cursor = r.cursor + asks deeds ∧
      Paced (n + asks deeds) r' ∧
      (r.unmounted = false → a ∈ t.scheduler.queue ∨ Answered (t.contents r') n deeds)

theorem Replies.trans (one : Replies a n first s t) (two : Replies a (n + asks first) second t u)
    (tracks : Tracks first s t) (later : Tracks second t u) : Replies a n (first ++ second) s u := by
  intro r found paced
  obtain ⟨r', found', moved, paced', answered⟩ := one r found paced
  obtain ⟨r'', found'', moved', paced'', answered'⟩ := two r' found' paced'
  obtain ⟨_, again, same, -⟩ := tracks.cells a r found
  cases Option.some.inj (found'.symm.trans again)
  obtain ⟨_, again, -, more⟩ := later.cells a r' found'
  cases Option.some.inj (found''.symm.trans again)
  rw [asks_append]
  refine ⟨r'', found'', by rw [moved', moved, Nat.add_assoc], Nat.add_assoc n .. ▸ paced'', fun live => ?_⟩
  rw [answered_append]
  rcases answered live with waits | answered
  · exact .inl (later.pending a waits)
  rcases more (same.trans live) with waits | more
  · exact .inl waits
  · exact (answered' (same.trans live)).imp_right fun rest => ⟨answered.mono more, rest⟩

theorem replies_of_same (same : t.activations = s.activations) : Replies a n [] s t :=
  fun r found paced => ⟨r, same ▸ found, rfl, paced, fun _ => .inr trivial⟩

theorem Paced.eq_cursor (paced : Paced n r) (met : r.cells[r.cursor]? = some cell) : n = r.cursor := by
  have bound := (List.getElem?_eq_some_iff.mp met).1
  have := paced.cursor
  exact paced.either.resolve_right (by omega)

theorem Paced.eq_length (paced : Paced n r) (missing : r.cells[r.cursor]? = none) : n = r.cells.length := by
  have beyond := List.getElem?_eq_none_iff.mp missing
  have := paced.cells
  have := paced.either
  omega

theorem HookStep.replies (step : HookStep type s answer t) (current : s.calls.current = some a) :
    Replies a n [.asked type (answer.map Prod.fst)] s t := by
  intro r found paced
  cases step with
  | astray outside => cases outside.symm.trans (currentActivation?_eq_some.mpr ⟨current, found⟩)
  | @met _ _ cell opened met =>
      cases opened.symm.trans (currentActivation?_eq_some.mpr ⟨current, found⟩)
      have here := paced.eq_cursor met
      subst here
      have bound := (List.getElem?_eq_some_iff.mp met).1
      refine ⟨_, find?_advancing found, rfl, ⟨bound, Nat.le_refl _, .inl rfl⟩, fun _ => .inr ⟨⟨s.datum cell, ?_, ?_⟩,
        trivial⟩⟩
      · rw [contents, List.getElem?_map, met]
        rfl
      · rw [hookAnswer, StateData.answer]
        split <;> rfl

theorem Wants.replies (wants : Wants s b u) (current : s.calls.current = some a) (inner : Replies a n first u v)
    (d : δ.DatumOf type) (tracks : Tracks first u v) :
    Replies a n (first ++ [.asked type (.ok d.1)]) s (v.making b d.1) := by
  cases wants with
  | missing opened missing =>
  intro r found paced
  cases opened.symm.trans (currentActivation?_eq_some.mpr ⟨current, found⟩)
  have last := paced.eq_length missing
  obtain ⟨r', found', moved, paced', answered⟩ := inner _ (find?_advancing found)
    ⟨paced.cells, Nat.le_succ_of_le paced.cursor, .inr last⟩
  have early := paced.cursor
  have late : n + asks first = r'.cells.length := by
    have := paced'.either
    dsimp only at moved
    omega
  have making := Tracks.making tracks.ready b d.1
  obtain ⟨_, again, same, -⟩ := tracks.cells b _ (find?_advancing found)
  cases Option.some.inj (found'.symm.trans again)
  obtain ⟨_, again, -, more⟩ := making.cells b r' found'
  cases Option.some.inj ((find?_making d.1 found').symm.trans again)
  have one : asks (first ++ [.asked type (.ok d.1)]) = asks first + 1 := by
    rw [asks_append, asks, asks]
  rw [one]
  refine ⟨_, find?_making d.1 found', ?_, ⟨?_, ?_, .inr ?_⟩, fun live => ?_⟩
  · dsimp only at moved ⊢
    omega
  · rw [List.length_append, List.length_singleton]
    omega
  · dsimp only at moved ⊢
    omega
  · rw [List.length_append, List.length_singleton]
    omega
  · rcases answered live with waits | answered
    · exact .inl (making.pending _ waits)
    rcases more (same.trans live) with waits | more
    · exact .inl waits
    refine .inr (answered_append.mpr ⟨answered.mono more, ⟨d.1, ?_, ?_⟩, trivial⟩)
    · rw [late, contents, List.getElem?_map, List.getElem?_concat_length, Option.map_some, datum, cell?_making,
        if_pos rfl]
      rfl
    · rw [StateData.answer, if_pos d.2]

theorem replies_updateCell (ready : s.Ready) (returned : Returns (updateCell setter change) s () t) :
    Replies a n (s.deedsOf setter change) s t := by
  have same : t.activations = s.activations := by
    cases setterStep_of_returns returned with
    | vain _ noted => rw [noted]
    | changed _ _ requested => exact (requests_requestUpdate (by exact ready.dropped) requested).activations
  rw [deedsOf]
  split
  · exact replies_of_same same
  · split
    · exact replies_of_same same
    · exact fun r found paced => ⟨r, same ▸ found, rfl, paced, fun _ => .inr trivial⟩

/-- A body's hook calls are answered in turn. -/
theorem Acts.replies {x : Action σ α} (acts : Acts program x s deeds answer t) (ready : s.Ready)
    (current : s.calls.current = some a) : Replies a n deeds s t := by
  induction acts generalizing n with
  | done => exact replies_of_same rfl
  | load _ ih | getCell _ ih => exact ih ready current
  | store _ ih | report _ ih => exact ih ⟨ready.dropped, ready.owned⟩ current
  | asked step acts ih =>
      have tracks := step.tracks ready
      have calls := (Undisturbed.hookStep step).calls
      exact (step.replies current).trans (ih tracks.ready (calls ▸ current)) tracks.asked (acts.tracks tracks.ready)
  | made wants begun acts inner ih =>
      have one := wants.tracks ready
      have two := begun.tracks one.ready
      have three := fun b d => Tracks.making two.ready b d
      have calls := (Undisturbed.wants wants).calls
      have calls' := (Undisturbed.acts begun).calls
      rw [List.append_cons]
      exact (wants.replies current (inner one.ready (calls ▸ current)) _ two).trans
        (ih (three _ _).ready (calls' ▸ calls ▸ current)) ((one.after two).trans (three _ _).asked)
        (acts.tracks (three _ _).ready)
  | updateCell updated acts ih =>
      have tracks := tracks_updateCell ready updated
      have calls := (Undisturbed.updateCell updated).calls
      exact (replies_updateCell ready updated).trans (ih tracks.ready (calls ▸ current)) tracks
        (acts.tracks tracks.ready)
  | invoke first acts inner ih =>
      have tracks := first.tracks ready
      have calls := (Undisturbed.acts first).calls
      exact (inner ready current).trans (ih tracks.ready (calls ▸ current)) tracks (acts.tracks tracks.ready)

end Renderer
end Patchwork
