import Patchwork.Proofs.CellTracking

/-! Chronicles of state cells. A chronicle tells of every hook call and every setter call, and of the
invocations that they are made in. It settles which cells there are and what they hold. Hook calls are
numbered as they return, so one whose initialiser asks for state comes after those calls. The first call
to return at a position has made its cell, and from then on only the cell's setters change it. -/
namespace Patchwork

namespace Activations

variable {as : Activations}

def cells (as : Activations) (a : ActivationId) : List CellId :=
  ((as.find? a).map Activation.cells).getD []

theorem cells_eq (found : as.find? a = some r) : as.cells a = r.cells := by
  rw [cells, found, Option.map_some, Option.getD_some]

theorem cells_update_ne {f : Activation → Activation} (other : b ≠ a) :
    (as.update a f).cells b = as.cells b := by
  rw [cells, find?_update_ne other, cells]

theorem cells_update_rest (as : Activations) (a b : ActivationId) {f : Activation → Activation}
    (same : ∀ r, (f r).cells = r.cells) : (as.update a f).cells b = as.cells b := by
  by_cases own : b = a
  · subst own
    rw [cells, find?_update_self, cells, Option.map_map]
    exact congrArg (fun g => ((as.find? b).map g).getD []) (funext same)
  · exact cells_update_ne own

end Activations

/-- What a setter call makes of a datum: one that is the same leaves it as it is. -/
def StateData.altered (δ : StateData) (d : δ.Datum) (change : δ.Datum → δ.Datum) : δ.Datum :=
  if δ.same (change d) d then d else change d

/-- What happens that has to do with state cells. -/
inductive CellEvent (δ : StateData)
  | entered (a : ActivationId)
  | left
  /-- A hook call begins to run its initialiser. -/
  | begun
  /-- A hook call returns, and may have made a cell. -/
  | asked (type : δ.DataType) (made : Option (CellId × δ.Datum))
      (answer : Fallible (δ.Datum × Setter δ.DataType))
  | updated (setter : Setter δ.DataType) (change : δ.Datum → δ.Datum)

/-- Whether a hook call begins or returns. -/
def CellEvent.isHook {δ : StateData} : CellEvent δ → Bool
  | begun | asked .. => true
  | entered _ | left | updated .. => false

structure Incident (D σ : Type) {δ : StateData} [HasStateData σ δ] where
  before : Renderer D σ
  event : CellEvent δ
  after : Renderer D σ

/-- All that happened, the latest first. -/
abbrev Chronicle (D σ : Type) {δ : StateData} [HasStateData σ δ] := List (Incident D σ)

structure Renderer.Still {D σ : Type} {δ : StateData} [HasStateData σ δ] (s t : Renderer D σ) : Prop where
  places : ∀ a, t.activations.cells a = s.activations.cells a
  cells : t.cells = s.cells

namespace Chronicle

variable {D σ : Type} {δ : StateData} [HasStateData σ δ] {s t : Renderer D σ}
  {log early past : Chronicle D σ} {i : Incident D σ} {made : Option (CellId × δ.Datum)}
  {answer : Fallible (δ.Datum × Setter δ.DataType)}

/-- The activation that is being invoked at the end, and how many hook calls of its invocation have
returned. -/
def turn : Chronicle D σ → Option (ActivationId × Nat)
  | [] => none
  | ⟨_, .entered a, _⟩ :: _ => some (a, 0)
  | ⟨_, .left, _⟩ :: _ => none
  | ⟨_, .asked .., _⟩ :: past => (turn past).map fun (a, n) => (a, n + 1)
  | ⟨_, .begun, _⟩ :: past | ⟨_, .updated .., _⟩ :: past => turn past

/-- How many hook calls have not returned yet. -/
def inProgress : Chronicle D σ → Nat
  | [] | ⟨_, .entered _, _⟩ :: _ | ⟨_, .left, _⟩ :: _ => 0
  | ⟨_, .begun, _⟩ :: past => inProgress past + 1
  | ⟨_, .asked _ (some _) _, _⟩ :: past => inProgress past - 1
  | ⟨_, .asked _ none _, _⟩ :: past | ⟨_, .updated .., _⟩ :: past => inProgress past

/-- The n-th cell of an activation and what it was made with, by the first hook call at its position. -/
def made? (a : ActivationId) (n : Nat) : Chronicle D σ → Option (CellId × δ.Datum)
  | [] => none
  | ⟨_, .asked _ made _, _⟩ :: past => (made? a n past).or (if turn past = some (a, n) then made else none)
  | ⟨_, .entered _, _⟩ :: past | ⟨_, .left, _⟩ :: past | ⟨_, .begun, _⟩ :: past
  | ⟨_, .updated .., _⟩ :: past => made? a n past

def changes (cell : CellId) : Chronicle D σ → List (δ.Datum → δ.Datum)
  | [] => []
  | ⟨_, .updated setter change, _⟩ :: past =>
      if setter.cell = cell then changes cell past ++ [change] else changes cell past
  | ⟨_, .asked _ (some (made, _)) _, _⟩ :: past => if made = cell then [] else changes cell past
  | ⟨_, .asked _ none _, _⟩ :: past | ⟨_, .entered _, _⟩ :: past | ⟨_, .left, _⟩ :: past
  | ⟨_, .begun, _⟩ :: past => changes cell past

/-- What a cell holds that was made with a datum, as its setters altered it one after another. -/
def held (log : Chronicle D σ) (cell : CellId) (d : δ.Datum) : δ.Datum :=
  (changes cell log).foldl δ.altered d

theorem made?_met (s t : Renderer D σ) (past : Chronicle D σ) :
    made? a n (⟨s, .asked type none answer, t⟩ :: past) = made? a n past := by
  rw [made?, ite_self, Option.or_none]

theorem held_updated (s t : Renderer D σ) (past : Chronicle D σ) :
    held (⟨s, .updated setter change, t⟩ :: past) cell d =
      if setter.cell = cell then δ.altered (held past cell d) change else held past cell d := by
  rw [held, held, changes]
  split
  · rw [List.foldl_append, List.foldl_cons, List.foldl_nil]
  · rfl

theorem held_made (s t : Renderer D σ) (past : Chronicle D σ) :
    held (⟨s, .asked type (some (cell, e)) answer, t⟩ :: past) other d =
      if cell = other then d else held past other d := by
  rw [held, held, changes]
  split <;> rfl

theorem made?_append {place : CellId × δ.Datum} (there : made? a n early = some place)
    (later : Chronicle D σ) : made? a n (later ++ early) = some place := by
  induction later with
  | nil => exact there
  | cons i later ih =>
      obtain ⟨_, event, _⟩ := i
      cases event with
      | entered | left | begun | updated => exact ih
      | asked => rw [List.cons_append, made?, ih, Option.some_or]

/-- The state has the cells that the chronicle tells of, each in its place and no two of them the same. -/
structure Recalled (log : Chronicle D σ) (s : Renderer D σ) : Prop where
  places : ∀ a n, (s.activations.cells a)[n]? = (made? a n log).map Prod.fst
  data : ∀ {a n cell d}, made? a n log = some (cell, d) → s.cell? cell = some ⟨a, held log cell d⟩
  apart : ∀ {a n cell d b m e}, made? a n log = some (cell, d) → made? b m log = some (cell, e) →
    (a, n) = (b, m)

theorem Recalled.of_same (recalled : Recalled past s) (still : s.Still t)
    (same : ∀ a n, made? a n log = made? a n past) (changes : ∀ cell, changes cell log = changes cell past) :
    Recalled log t where
  places a n := by rw [still.places, same, recalled.places]
  data {a n cell d} there := by
    rw [same] at there
    rw [Renderer.cell?, still.cells, held, changes]
    exact recalled.data there
  apart one two := by
    rw [same] at one two
    exact recalled.apart one two

theorem Recalled.still (recalled : Recalled log s) (still : s.Still t) : Recalled log t :=
  recalled.of_same still (fun _ _ => rfl) fun _ => rfl

theorem Recalled.exists_made (recalled : Recalled log s) (found : s.activations.find? a = some r)
    (there : r.cells[n]? = some cell) : ∃ d, made? a n log = some (cell, d) := by
  have place := recalled.places a n
  rw [Activations.cells_eq found, there] at place
  obtain ⟨⟨_, d⟩, made, rfl⟩ := Option.map_eq_some_iff.mp place.symm
  exact ⟨d, made⟩

/-- The answer to a hook call after a chronicle. It is about the cell whose turn it is, and then no other
call is in progress. If that cell is not there, the call has made it. -/
def Answers (past : Chronicle D σ) (type : δ.DataType) (made : Option (CellId × δ.Datum))
    (answer : Fallible (δ.Datum × Setter δ.DataType)) : Prop :=
  match turn past with
  | none => made = none ∧ answer = .error .invalidHookCall
  | some (a, n) =>
      match made? a n past with
      | none => inProgress past ≠ 0 ∧
          ∃ cell d, made = some (cell, d) ∧ δ.type d = type ∧ answer = .ok (d, ⟨cell, type⟩)
      | some (cell, d) => inProgress past = 0 ∧ made = none ∧
          answer = if δ.type (held past cell d) = type then .ok (held past cell d, ⟨cell, type⟩)
            else .error (.hookTypeMismatch n (δ.name type))

theorem Answers.setter (answers : Answers past type made (.ok (d, x))) :
    ∃ a n e, turn past = some (a, n) ∧
      ∀ s t, made? a n (⟨s, .asked type made (.ok (d, x)), t⟩ :: past) = some (x.cell, e) := by
  rw [Answers] at answers
  split at answers
  next => cases answers.2
  next a n at_turn =>
    split at answers
    next unmade =>
      obtain ⟨-, cell, e, rfl, -, same⟩ := answers
      cases same
      exact ⟨a, n, d, at_turn, fun _ _ => by rw [made?, unmade, Option.none_or, if_pos at_turn]⟩
    next cell e there =>
      obtain ⟨-, rfl, same⟩ := answers
      split at same
      · cases same
        exact ⟨a, n, e, at_turn, fun _ _ => (made?_met ..).trans there⟩
      · cases same

theorem Answers.unmade (answers : Answers past type (some (cell, e)) answer) :
    ∃ a n, made? a n past = none ∧
      ∀ s t, made? a n (⟨s, .asked type (some (cell, e)) answer, t⟩ :: past) = some (cell, e) := by
  rw [Answers] at answers
  split at answers
  next => cases answers.1
  next a n at_turn =>
    split at answers
    next unmade => exact ⟨a, n, unmade, fun _ _ => by rw [made?, unmade, Option.none_or, if_pos at_turn]⟩
    next => cases answers.2.1

/-- What an incident comes to is settled by what happened before. An initialiser runs only while the cell
is not there. -/
structure Obeys (past : Chronicle D σ) (i : Incident D σ) : Prop where
  before : Recalled past i.before
  after : Recalled (i :: past) i.after
  begins : i.event = .begun → ∃ a n, turn past = some (a, n) ∧ made? a n past = none
  answers : ∀ type made answer, i.event = .asked type made answer → Answers past type made answer

theorem obeys_of_not_hook {event : CellEvent δ} (before : Recalled past s)
    (after : Recalled (⟨s, event, t⟩ :: past) t) (other : event.isHook = false) : Obeys past ⟨s, event, t⟩ where
  before := before
  after := after
  begins same := by
    cases same
    cases other
  answers _ _ _ same := by
    cases same
    cases other

def Lawful (log : Chronicle D σ) : Prop := ∀ i past, i :: past <:+ log → Obeys past i

theorem Lawful.nil : Lawful ([] : Chronicle D σ) := fun _ _ suffix =>
  nomatch List.suffix_nil.mp suffix

theorem Lawful.cons (lawful : Lawful past) (obeys : Obeys past i) : Lawful (i :: past) := by
  intro j earlier suffix
  rcases List.suffix_cons_iff.mp suffix with same | suffix
  · cases same
    exact obeys
  · exact lawful j earlier suffix

theorem Lawful.setter (lawful : Lawful log) (suffix : i :: past <:+ log)
    (asked : i.event = .asked type made (.ok (d, x))) :
    ∃ a n e, turn past = some (a, n) ∧ made? a n log = some (x.cell, e) := by
  obtain ⟨a, n, e, at_turn, made⟩ := ((lawful i past suffix).answers _ _ _ asked).setter
  obtain ⟨s, event, t⟩ := i
  cases asked
  obtain ⟨later, rfl⟩ := suffix
  exact ⟨a, n, e, at_turn, made?_append (made s t) later⟩

/-- The activation's cursor counts the `n` hook calls that have returned and those in progress. If there
are any of these, the next cell is to be made. -/
structure InTurn (log : Chronicle D σ) (n : Nat) (r : Activation) : Prop where
  cursor : r.cursor = n + inProgress log
  cells : n ≤ r.cells.length
  last : inProgress log ≠ 0 → n = r.cells.length

theorem InTurn.met (turn : InTurn log n r) (there : r.cells[r.cursor]? = some cell) :
    inProgress log = 0 ∧ r.cursor = n := by
  have bound := (List.getElem?_eq_some_iff.mp there).1
  obtain ⟨cursor, cells, last⟩ := turn
  omega

theorem InTurn.missing (turn : InTurn log n r) (missing : r.cells[r.cursor]? = none) :
    n = r.cells.length := by
  have beyond := List.getElem?_eq_none_iff.mp missing
  obtain ⟨cursor, cells, last⟩ := turn
  omega

/-- The state is that at the end of the chronicle, and so is the turn of the current invocation. -/
structure Abreast (log : Chronicle D σ) (s : Renderer D σ) : Prop where
  lawful : Lawful log
  recalled : Recalled log s
  outside : s.currentActivation? = none → turn log = none
  inside : ∀ {a r}, s.currentActivation? = some (a, r) → ∃ n, turn log = some (a, n) ∧ InTurn log n r

theorem Abreast.of_same (abreast : Abreast log s) (activations : t.activations = s.activations)
    (cells : t.cells = s.cells) (calls : t.calls = s.calls) : Abreast log t := by
  have same : t.currentActivation? = s.currentActivation? := by
    rw [Renderer.currentActivation?, Renderer.currentActivation?, activations, calls]
  refine ⟨abreast.lawful, abreast.recalled.still ⟨fun _ => by rw [activations], cells⟩, ?_, ?_⟩
  · rw [same]
    exact abreast.outside
  · rw [same]
    exact abreast.inside

section Making

open Renderer

theorem cells_making (s : Renderer D σ) (a b : ActivationId) (d : δ.Datum) (found : s.activations.find? a = some r) :
    (s.making a d).activations.cells b =
      if b = a then s.activations.cells a ++ [s.freshCell] else s.activations.cells b := by
  split
  next own =>
    subst own
    rw [Activations.cells_eq (find?_making d found), Activations.cells_eq found]
  next other => exact Activations.cells_update_ne other

theorem getElem?_concat {α : Type} (xs : List α) (x : α) (n : Nat) :
    (xs ++ [x])[n]? = xs[n]?.or (if xs.length = n then some x else none) := by
  rcases Nat.lt_trichotomy n xs.length with less | same | more
  · rw [List.getElem?_append_left less, if_neg (Nat.ne_of_gt less), Option.or_none]
  · rw [same, List.getElem?_concat_length, List.getElem?_eq_none (Nat.le_refl _), if_pos rfl,
      Option.none_or]
  · rw [List.getElem?_eq_none (by rw [List.length_append]; exact more), if_neg (Nat.ne_of_lt more),
      Option.or_none, List.getElem?_eq_none (Nat.le_of_lt more)]

theorem currentActivation?_of_calls (opened : s.currentActivation? = some (a, r)) (calls : t.calls = s.calls)
    (found : t.activations.find? a = some r') : t.currentActivation? = some (a, r') :=
  currentActivation?_eq_some.mpr ⟨calls ▸ (currentActivation?_eq_some.mp opened).1, found⟩

theorem Recalled.making (recalled : Recalled log s) (found : s.activations.find? a = some r)
    (at_turn : turn log = some (a, n)) (last : n = r.cells.length) (type : δ.DataType) (d : δ.Datum)
    (answer : Fallible (δ.Datum × Setter δ.DataType)) :
    Recalled (⟨s, .asked type (some (s.freshCell, d)) answer, s.making a d⟩ :: log) (s.making a d) := by
  have place (b : ActivationId) (m : Nat) {cell : CellId} {e : δ.Datum}
      (made : made? b m (⟨s, .asked type (some (s.freshCell, d)) answer, s.making a d⟩ :: log) = some (cell, e)) :
      made? b m log = some (cell, e) ∧ cell ≠ s.freshCell ∨ (b, m) = (a, n) ∧ cell = s.freshCell ∧ e = d := by
    rw [made?, at_turn] at made
    rcases Option.or_eq_some_iff.mp made with early | ⟨-, now⟩
    · refine .inl ⟨early, fun fresh => ?_⟩
      have low := Arena.index_le_issued (recalled.data early)
      rw [fresh, freshCell] at low
      exact Nat.not_succ_le_self _ low
    · split at now
      next here =>
        cases now
        exact .inr ⟨(Option.some.inj here).symm, rfl, rfl⟩
      next => cases now
  refine ⟨fun b m => ?_, fun {b m cell e} made => ?_, fun {b m cell e c k e'} one two => ?_⟩
  · rw [made?, at_turn, cells_making s a b d found]
    by_cases own : b = a
    · subst own
      rw [if_pos rfl, getElem?_concat, recalled.places, Activations.cells_eq found, ← last, Option.map_or]
      simp only [Option.some.injEq, Prod.mk.injEq, true_and]
      split <;> rfl
    · have elsewhere : ¬ some (a, n) = some (b, m) := fun here => own (Prod.mk.inj (Option.some.inj here)).1.symm
      rw [if_neg own, recalled.places, if_neg elsewhere, Option.or_none]
  · rcases place b m made with ⟨early, other⟩ | ⟨here, rfl, rfl⟩
    · rw [cell?_making, if_neg other, held_made, if_neg (Ne.symm other)]
      exact recalled.data early
    · cases here
      rw [cell?_making, if_pos rfl, held_made, if_pos rfl]
  · rcases place b m one with ⟨early, other⟩ | ⟨here, fresh, -⟩
    · rcases place c k two with ⟨early', -⟩ | ⟨-, fresh, -⟩
      · exact recalled.apart early early'
      · exact absurd fresh other
    · rcases place c k two with ⟨-, other⟩ | ⟨here', -, -⟩
      · exact absurd fresh other
      · exact here.trans here'.symm

/-- What comes of a hook call that makes its cell follows from a chronicle that is abreast of it. -/
theorem Abreast.making (abreast : Abreast log s) (at_turn : turn log = some (a, m)) (begun : inProgress log ≠ 0)
    (d : δ.DatumOf type) (same : answer = .ok (d.1, ⟨s.freshCell, type⟩)) :
    Abreast (⟨s, .asked type (some (s.freshCell, d.1)) answer, s.making a d.1⟩ :: log) (s.making a d.1) := by
  cases opened : s.currentActivation? with
  | none => cases at_turn.symm.trans (abreast.outside opened)
  | some current =>
      obtain ⟨b, r⟩ := current
      obtain ⟨n, here, place⟩ := abreast.inside opened
      cases at_turn.symm.trans here
      have found := (currentActivation?_eq_some.mp opened).2
      have last := place.last begun
      have after := abreast.recalled.making found at_turn last type d.1 answer
      have moved := currentActivation?_of_calls (t := s.making a d.1) opened rfl (find?_making d.1 found)
      refine ⟨abreast.lawful.cons ⟨abreast.recalled, after, nofun, ?_⟩, after, fun outside => ?_, fun here => ?_⟩
      · rintro _ _ _ ⟨⟩
        have unmade := abreast.recalled.places a m
        rw [Activations.cells_eq found, last, List.getElem?_eq_none (Nat.le_refl _), ← last] at unmade
        rw [Answers, at_turn]
        dsimp only
        rw [Option.map_eq_none_iff.mp unmade.symm]
        exact ⟨begun, _, _, rfl, d.2, same⟩
      · cases outside.symm.trans moved
      · cases here.symm.trans moved
        have more : (r.cells ++ [s.freshCell]).length = m + 1 := by
          rw [List.length_append, List.length_singleton, ← last]
        refine ⟨m + 1, ?_, ?_, Nat.le_of_eq more.symm, fun _ => more.symm⟩
        · rw [turn, at_turn, Option.map_some]
        · rw [inProgress]
          have := place.cursor
          dsimp only
          omega

end Making

end Chronicle

namespace Renderer

open Chronicle

variable {D σ : Type} {δ : StateData} [HasStateData σ δ]

/-- The computation is carried out and its hook and setter calls are added to a chronicle, those of the
components that it invokes inline and of initialisers among them. -/
inductive Writes (program : Program σ) : {α : Type} → Action σ α → Renderer D σ → Chronicle D σ → α →
    Renderer D σ → Chronicle D σ → Prop
  | done : Writes program (.done a) s log a s log
  | load : Writes program (next s.store) s log a t now → Writes program (.load next) s log a t now
  | store {w : σ} : Writes program next { s with store := w } log a t now →
      Writes program (.store w next) s log a t now
  | report {rs : List Report} : Writes program next { s with reports := rs.reverseAux s.reports } log a t now →
      Writes program (.report rs next) s log a t now
  | asked {initial : Action σ (δ.DatumOf type)} : HookStep type s answer t →
      Writes program (next answer) t (⟨s, .asked type none answer, t⟩ :: log) a u now →
      Writes program (.useState type initial next) s log a u now
  | made {initial : Action σ (δ.DatumOf type)} {d : δ.DatumOf type}
      {answer : Fallible (δ.Datum × Setter δ.DataType)} : Wants s b t →
      Writes program initial t (⟨s, .begun, t⟩ :: log) d u mid → answer = .ok (d.1, ⟨u.freshCell, type⟩) →
      Writes program (next answer) (u.making b d.1)
        (⟨u, .asked type (some (u.freshCell, d.1)) answer, u.making b d.1⟩ :: mid) a v now →
      Writes program (.useState type initial next) s log a v now
  | getCell : Writes program (next (s.datum setter.cell)) s log a t now →
      Writes program (.getCell setter next) s log a t now
  | updateCell : Returns (updateCell setter change) s () t →
      Writes program next t (⟨s, .updated setter change, t⟩ :: log) a u now →
      Writes program (.updateCell setter change next) s log a u now
  | invoke : Writes program (program.component component props) s log answer t mid →
      Writes program (next answer) t mid a u now →
      Writes program (.invoke component props next) s log a u now

variable {s t : Renderer D σ} {log now : Chronicle D σ} {program : Program σ}

/-- Hook calls that were in progress before still are, in the same invocation. -/
theorem Writes.balanced {x : Action σ α} (writes : Writes program x s log a t now) :
    inProgress now = inProgress log ∧ (turn now).map Prod.fst = (turn log).map Prod.fst := by
  induction writes with
  | done => exact ⟨rfl, rfl⟩
  | load _ ih | store _ ih | report _ ih | getCell _ ih => exact ih
  | updateCell _ _ ih => exact ih
  | asked _ _ ih =>
      rw [ih.1, ih.2, inProgress, turn, Option.map_map]
      exact ⟨rfl, rfl⟩
  | made _ _ _ _ inner ih =>
      rw [ih.1, ih.2, inProgress, turn, inner.1, inProgress, Nat.add_sub_cancel, Option.map_map]
      exact ⟨rfl, inner.2⟩
  | invoke _ _ inner ih => exact ⟨ih.1.trans inner.1, ih.2.trans inner.2⟩

theorem still_advancing (s : Renderer D σ) (a : ActivationId) (r : Activation) : s.Still (s.advancing a r) :=
  ⟨fun _ => Activations.cells_update_rest _ _ _ fun _ => rfl, rfl⟩

theorem HookStep.abreast (step : HookStep type s answer t) (abreast : Abreast log s) :
    Abreast (⟨s, .asked type none answer, t⟩ :: log) t := by
  have remembered (still : s.Still t) : Recalled (⟨s, .asked type none answer, t⟩ :: log) t :=
    abreast.recalled.of_same still (fun _ _ => made?_met ..) fun _ => rfl
  cases step with
  | astray outside =>
      have none := abreast.outside outside
      have after := remembered ⟨fun _ => rfl, rfl⟩
      refine ⟨abreast.lawful.cons ⟨abreast.recalled, after, nofun, ?_⟩, after, fun _ => ?_, fun opened => ?_⟩
      · rintro _ _ _ ⟨⟩
        rw [Answers, none]
        exact ⟨rfl, rfl⟩
      · rw [turn, none, Option.map_none]
      · cases outside.symm.trans opened
  | @met a r cell opened there =>
      obtain ⟨n, at_turn, place⟩ := abreast.inside opened
      obtain ⟨alone, rfl⟩ := place.met there
      have found := (currentActivation?_eq_some.mp opened).2
      obtain ⟨d, made⟩ := abreast.recalled.exists_made found there
      have moved := currentActivation?_of_calls (t := s.advancing a r) opened rfl (find?_advancing found)
      have after := remembered (still_advancing ..)
      refine ⟨abreast.lawful.cons ⟨abreast.recalled, after, nofun, ?_⟩, after, fun outside => ?_, fun here => ?_⟩
      · rintro _ _ _ ⟨⟩
        rw [Answers, at_turn]
        dsimp only
        rw [made]
        refine ⟨alone, rfl, ?_⟩
        rw [hookAnswer, datum, abreast.recalled.data made]
        rfl
      · cases outside.symm.trans moved
      · cases here.symm.trans moved
        refine ⟨r.cursor + 1, ?_, ?_, ?_, fun more => absurd alone more⟩
        · rw [turn, at_turn, Option.map_some]
        · rw [inProgress, alone]
        · exact (List.getElem?_eq_some_iff.mp there).1

theorem Wants.abreast (wants : Wants s b t) (abreast : Abreast log s) :
    Abreast (⟨s, .begun, t⟩ :: log) t ∧ ∃ n, turn log = some (b, n) := by
  cases wants with
  | @missing r opened missing =>
  obtain ⟨n, at_turn, place⟩ := abreast.inside opened
  have last := place.missing missing
  have found := (currentActivation?_eq_some.mp opened).2
  let u := (s.advancing b r).noting (.creatingCell r.cursor)
  have after : Recalled (⟨s, .begun, u⟩ :: log) u :=
    abreast.recalled.of_same ⟨(still_advancing s b r).places, rfl⟩ (fun _ _ => rfl) fun _ => rfl
  have moved := currentActivation?_of_calls (t := u) opened rfl (find?_advancing found)
  refine ⟨⟨abreast.lawful.cons ⟨abreast.recalled, after, fun _ => ⟨b, n, at_turn, ?_⟩, nofun⟩, after,
    fun outside => ?_, fun here => ?_⟩, n, at_turn⟩
  · have place := abreast.recalled.places b n
    rw [Activations.cells_eq found, last, List.getElem?_eq_none (Nat.le_refl _)] at place
    exact Option.map_eq_none_iff.mp (last ▸ place.symm)
  · cases outside.symm.trans moved
  · cases here.symm.trans moved
    refine ⟨n, at_turn, ?_, place.cells, fun _ => last⟩
    rw [inProgress, ← Nat.add_assoc, ← place.cursor]

theorem still_of_requestUpdate (requested : Returns (requestUpdate a) s () t) :
    t.activations = s.activations ∧ t.cells = s.cells ∧ t.calls = s.calls := by
  obtain ⟨_, rfl⟩ := returns_requestUpdate requested
  exact ⟨rfl, rfl, rfl⟩

theorem SetterStep.alters (step : SetterStep setter change s t) :
    t.activations = s.activations ∧ t.calls = s.calls ∧ ∀ cell, t.cell? cell = if setter.cell = cell
      then (s.cell? cell).map fun c => { c with datum := δ.altered c.datum change } else s.cell? cell := by
  cases step with
  | vain same noted =>
      subst noted
      refine ⟨rfl, rfl, fun cell => ?_⟩
      split
      next own =>
        subst own
        cases there : s.cell? setter.cell with
        | none => exact there
        | some c =>
            rw [Option.map_some, StateData.altered, if_pos (same c there)]
            exact there
      next => rfl
  | @changed c there differs requested =>
      obtain ⟨activations, cells, calls⟩ := still_of_requestUpdate requested
      refine ⟨activations, calls, fun cell => ?_⟩
      rw [cell?, cells]
      refine (cell?_setting ..).trans ?_
      by_cases own : setter.cell = cell
      · subst own
        rw [if_pos rfl, if_pos rfl, there, Option.map_some, Option.map_some, StateData.altered, if_neg differs]
      · rw [if_neg own, if_neg (Ne.symm own)]

theorem SetterStep.abreast (step : SetterStep setter change s t) (abreast : Abreast log s) :
    Abreast (⟨s, .updated setter change, t⟩ :: log) t := by
  obtain ⟨activations, calls, cells⟩ := step.alters
  have same : t.currentActivation? = s.currentActivation? := by
    rw [currentActivation?, currentActivation?, activations, calls]
  have after : Recalled (⟨s, .updated setter change, t⟩ :: log) t := by
    refine ⟨fun a n => ?_, fun {a n cell d} made => ?_, abreast.recalled.apart⟩
    · rw [activations]
      exact abreast.recalled.places a n
    · have there := abreast.recalled.data made
      rw [cells, there, held_updated]
      split <;> rfl
  refine ⟨abreast.lawful.cons (obeys_of_not_hook abreast.recalled after rfl), after, ?_, ?_⟩
  · rw [same]
    exact abreast.outside
  · intro a r opened
    obtain ⟨n, at_turn, place⟩ := abreast.inside (same ▸ opened)
    exact ⟨n, at_turn, place.cursor, place.cells, place.last⟩

/-- Whatever a body does can be added to any chronicle. -/
theorem Acts.writes {x : Action σ α} (acts : Acts program x s deeds a t) (log : Chronicle D σ) :
    ∃ now, Writes program x s log a t now := by
  induction acts generalizing log with
  | done => exact ⟨log, .done⟩
  | load _ ih => exact (ih log).imp fun _ => .load
  | store _ ih => exact (ih log).imp fun _ => .store
  | report _ ih => exact (ih log).imp fun _ => .report
  | asked step _ ih => exact (ih _).imp fun _ => .asked step
  | made wants _ _ inner ih =>
      obtain ⟨mid, first⟩ := inner _
      exact (ih _).imp fun _ => .made wants first rfl
  | getCell _ ih => exact (ih log).imp fun _ => .getCell
  | updateCell updated _ ih => exact (ih _).imp fun _ => .updateCell updated
  | invoke _ _ inner ih =>
      obtain ⟨mid, first⟩ := inner log
      exact (ih mid).imp fun _ => .invoke first

/-- A body keeps a chronicle abreast. -/
theorem Writes.abreast {x : Action σ α} (writes : Writes program x s log a t now)
    (abreast : Abreast log s) : Abreast now t ∧ log <:+ now := by
  induction writes with
  | done => exact ⟨abreast, List.suffix_rfl⟩
  | load _ ih | getCell _ ih => exact ih abreast
  | store _ ih | report _ ih => exact ih (abreast.of_same rfl rfl rfl)
  | asked step _ ih =>
      obtain ⟨later, more⟩ := ih (step.abreast abreast)
      exact ⟨later, (List.suffix_cons ..).trans more⟩
  | made wants begun same _ inner ih =>
      obtain ⟨beginning, n, at_turn⟩ := wants.abreast abreast
      obtain ⟨between, first⟩ := inner beginning
      -- The call is still in progress, so its cell is the next one to be made.
      obtain ⟨same_progress, current⟩ := begun.balanced
      rw [turn, at_turn, Option.map_some] at current
      obtain ⟨⟨_, m⟩, there, rfl⟩ := Option.map_eq_some_iff.mp current
      obtain ⟨later, second⟩ := ih (between.making there (by rw [same_progress]; exact Nat.succ_ne_zero _) _ same)
      exact ⟨later, ((List.suffix_cons ..).trans first).trans ((List.suffix_cons ..).trans second)⟩
  | updateCell updated _ ih =>
      obtain ⟨later, more⟩ := ih ((setterStep_of_returns updated).abreast abreast)
      exact ⟨later, (List.suffix_cons ..).trans more⟩
  | invoke _ _ inner ih =>
      obtain ⟨between, first⟩ := inner abreast
      obtain ⟨later, second⟩ := ih between
      exact ⟨later, first.trans second⟩

end Renderer
end Patchwork
