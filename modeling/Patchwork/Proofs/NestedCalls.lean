import Patchwork.Proofs.StepRelations
import Patchwork.Proofs.CallCourses

/-! Calls within calls. Components and handlers may call the renderer back, at any depth and whatever
comes of it. A step leaves the bookkeeping of the calls around it as it was and loses no state cell, and
the hook calls of an activation only move on while it is invoked. -/
namespace Patchwork.Renderer

variable {D σ α β : Type} {δ : StateData} [HasStateData σ δ] {s t u : Renderer D σ} {own : Bool}

def tells (reports : List Report) (a : ActivationId) : Bool :=
  reports.any fun
    | .renderingActivation b _ => a = b
    | _ => false

theorem tells_append (news reports : List Report) (a : ActivationId) :
    tells (news ++ reports) a = (tells news a || tells reports a) := List.any_append

theorem tells_rendering (a b : ActivationId) (name : String) :
    tells [.renderingActivation b name] a = decide (a = b) := Bool.or_false _

/-- What a step leaves to the calls around it. If it makes hook calls of its own, the cursor of the
current activation moves. -/
structure Nested (own : Bool) (s t : Renderer D σ) : Prop where
  calls : t.calls = { s.calls with created := t.calls.created }
  kept : ∃ news, t.reports = news ++ s.reports ∧ ∀ {a r}, s.activations.find? a = some r →
    ∃ r', t.activations.find? a = some r' ∧ r.cells <+: r'.cells ∧
      ((own = true → s.calls.current ≠ some a) → tells news a = false → r'.cursor = r.cursor)

namespace Nested

theorem current (nested : Nested own s t) : t.calls.current = s.calls.current := by
  rw [nested.calls]

theorem of_same (calls : t.calls = { s.calls with created := t.calls.created })
    (log : ∃ news, t.reports = news ++ s.reports) (same : t.activations = s.activations) :
    Nested own s t := by
  obtain ⟨news, log⟩ := log
  exact ⟨calls, news, log, fun {_ r} found => ⟨r, same ▸ found, List.prefix_rfl, fun _ _ => rfl⟩⟩

theorem refl (s : Renderer D σ) : Nested own s s := of_same rfl ⟨[], rfl⟩ rfl

theorem trans (one : Nested own s t) (two : Nested own t u) : Nested own s u := by
  obtain ⟨first, early, kept⟩ := one.kept
  obtain ⟨second, late, kept'⟩ := two.kept
  refine ⟨?_, second ++ first, ?_, fun {a r} found => ?_⟩
  · rw [two.calls, one.calls]
  · rw [late, early, List.append_assoc]
  · obtain ⟨r', found', longer, still⟩ := kept found
    obtain ⟨r'', found'', longer', still'⟩ := kept' found'
    refine ⟨r'', found'', longer.trans longer', fun other untold => ?_⟩
    have other' : own = true → t.calls.current ≠ some a := fun moves => one.current ▸ other moves
    rw [tells_append, Bool.or_eq_false_iff] at untold
    rw [still' other' untold.1, still other untold.2]

theorem weaken (nested : Nested false s t) : Nested own s t := by
  obtain ⟨calls, news, log, kept⟩ := nested
  refine ⟨calls, news, log, fun found => ?_⟩
  obtain ⟨r', found', longer, still⟩ := kept found
  exact ⟨r', found', longer, fun _ => still nofun⟩

theorem update (a : ActivationId) (f : Activation → Activation)
    (cells : ∀ r, r.cells <+: (f r).cells)
    (cursor : (own = true → s.calls.current ≠ some a) → ∀ r, (f r).cursor = r.cursor) :
    Nested own s { s with activations := s.activations.update a f } := by
  refine ⟨rfl, [], rfl, fun {b r} found => ?_⟩
  by_cases same : b = a
  · subst same
    exact ⟨f r, by rw [Activations.find?_update_self, found, Option.map_some], cells r,
      fun other _ => cursor other r⟩
  · exact ⟨r, (Activations.find?_update_ne same).trans found, List.prefix_rfl, fun _ _ => rfl⟩

end Nested

/-- The step leaves what is around it as it was. -/
structure Nests (own : Bool) (step : RenderM D σ α) : Prop where
  nested : ∀ {s a t}, Returns step s a t → Nested own s t

theorem Nests.weaken {step : RenderM D σ α} (nests : Nests false step) : Nests own step where
  nested returned := (nests.nested returned).weaken

theorem nests_pure (a : α) : Nests own (pure a : RenderM D σ α) where
  nested {s _ _} returned := by
    obtain ⟨-, rfl⟩ := returns_pure.mp returned
    exact .refl s

theorem Nests.bind {first : RenderM D σ α} {rest : α → RenderM D σ β} (one : Nests own first)
    (two : ∀ a, Nests own (rest a)) : Nests own (first >>= rest) where
  nested returned := by
    obtain ⟨a, t, begun, ended⟩ := returns_bind.mp returned
    exact (one.nested begun).trans ((two a).nested ended)

theorem Nests.map {step : RenderM D σ α} (nests : Nests own step) (f : α → β) : Nests own (f <$> step) := by
  rw [← bind_pure_comp]
  exact nests.bind fun _ => nests_pure _

theorem nests_get : Nests own (get : RenderM D σ (Renderer D σ)) where
  nested {s _ _} returned := by
    obtain ⟨-, rfl⟩ := returns_get.mp returned
    exact .refl s

theorem nests_modify (f : Renderer D σ → Renderer D σ) (nested : ∀ s, Nested own s (f s)) :
    Nests own (modify f : RenderM D σ PUnit) where
  nested {s _ _} returned := by
    cases returns_modify.mp returned
    exact nested s

theorem nests_modifyGet (f : Renderer D σ → α × Renderer D σ) (nested : ∀ s, Nested own s (f s).2) :
    Nests own (modifyGet f : RenderM D σ α) where
  nested {s _ _} returned := by
    have left := nested s
    rw [returns_modifyGet.mp returned] at left
    exact left

theorem nests_abort (reason : Abort) : Nests own (abort reason : RenderM D σ α) where
  nested returned := (returns_abort.mp returned).elim

theorem nests_report (r : Report) : Nests own (report r : RenderM D σ Unit) :=
  nests_modify _ fun _ => .of_same rfl ⟨[r], rfl⟩ rfl

theorem nests_reportAll (rs : List Report) : Nests own (reportAll rs : RenderM D σ Unit) :=
  nests_modify _ fun _ => .of_same rfl ⟨rs.reverse, List.reverseAux_eq⟩ rfl

theorem nests_withCalls {step : RenderM D σ α} (f : Calls → Calls) (nests : Nests false step) :
    Nests own (withCalls f step) where
  nested returned := by
    obtain ⟨u, stepped, rfl⟩ := returns_withCalls.mp returned
    obtain ⟨-, news, log, kept⟩ := nests.nested stepped
    refine ⟨rfl, news, log, fun found => ?_⟩
    obtain ⟨r', found', longer, still⟩ := kept found
    exact ⟨r', found', longer, fun _ => still nofun⟩

theorem nests_makeCell (a : ActivationId) (d : δ.Datum) : Nests own (makeCell a d : RenderM D σ CellId) where
  nested {s _ _} returned := by
    obtain ⟨-, rfl⟩ := returns_makeCell returned
    have grown : Nested own s _ :=
      .update a (fun r => { r with cells := r.cells ++ [s.freshCell] }) (fun _ => List.prefix_append ..) fun _ _ => rfl
    exact grown.trans (.of_same rfl ⟨[], rfl⟩ rfl)

/-- A hook call moves the cursor of the current activation, and so may what its cell is made with. -/
theorem nests_useStateBy (type : δ.DataType) {initial : RenderM D σ δ.Datum} (inner : Nests true initial) :
    Nests true (useStateBy type initial) where
  nested {s _ _} returned := by
    have moved {a r} (opened : s.currentActivation? = some (a, r)) : Nested true s (s.advancing a r) :=
      .update a _ (fun _ => List.prefix_rfl) fun other =>
        absurd (currentActivation?_eq_some.mp opened).1 (other rfl)
    rcases useStateBy_cases returned with step | ⟨a, _, d, v, wants, begun, -, rfl⟩
    · cases step with
      | astray => exact .refl _
      | met opened => exact moved opened
    · cases wants with
      | @missing r opened =>
          have one := (moved opened).trans ((nests_report (.creatingCell r.cursor)).nested (reported ..))
          exact (one.trans (inner.nested begun)).trans ((nests_makeCell a d).nested (makes_making ..))

theorem nests_createActivation (reference : ComponentRef) (owner : Option ActivationId) :
    Nests own (createActivation reference owner : RenderM D σ ActivationId) := by
  refine .bind (nests_modifyGet _ fun s => ⟨rfl, [], rfl, fun {a r} found => ?_⟩) fun _ =>
    (nests_report _).bind fun _ =>
      .bind (nests_modify _ fun _ => .of_same rfl ⟨[], rfl⟩ rfl) fun _ => nests_pure _
  refine ⟨r, ?_, List.prefix_rfl, fun _ _ => rfl⟩
  have old := Activations.index_le_issued found
  rw [Activations.find?_alloc, if_neg (by omega)]
  exact found

/-- All that a renderer does of its own accord leaves what is around it as it was. -/
theorem alongside_nests : Alongside id fun (x _ : RenderM D σ _) => Nests false x where
  pure := nests_pure
  bind := .bind
  get nests := nests_get.bind nests
  abort := nests_abort
  report := nests_report
  modify aside _ := nests_modify _ fun s => .of_same (aside s).calls ⟨[], (aside s).reports⟩ (aside s).activations
  onDom f := nests_modify _ fun s => .of_same rfl ⟨(f s.dom).reports.reverse, List.reverseAux_eq⟩ rfl
  onBound f := nests_modify _ fun s => .of_same rfl ⟨(f s.binder s.dom).reports.reverse, List.reverseAux_eq⟩ rfl
  makeNode _ := nests_modifyGet _ fun _ => .of_same rfl ⟨[], rfl⟩ rfl
  updateActivation a _ cells cursor :=
    nests_modify _ fun _ => .update a _ (fun r => cells r ▸ List.prefix_rfl) fun _ => cursor
  createActivation := nests_createActivation
  withCalls f _ _ nests := nests_withCalls f nests

theorem nests_updateCell (setter : Setter δ.DataType) (change : δ.Datum → δ.Datum) :
    Nests own (updateCell setter change : RenderM D σ Unit) :=
  (alongside_updateCell alongside_nests setter change).weaken

variable [Layer D]

section Calling

variable {invocation : Invocation D σ}

theorem nests_renderBy (inner : ∀ a component props, Nests false (invocation a component props))
    (tree : Tree) (container : NodeId) : Nests own (renderBy invocation tree container) :=
  (alongside_renderBy (y := invocation) alongside_nests inner tree container).weaken

theorem nests_unmount (container : NodeId) : Nests own (unmount container : RenderM D σ Bool) :=
  (alongside_unmount alongside_nests container).weaken

theorem nests_flushBy (inner : ∀ a component props, Nests false (invocation a component props)) :
    Nests own (flushBy invocation) :=
  (alongside_flushBy (y := invocation) alongside_nests inner).weaken

theorem nests_perform {level : Level D σ}
    (invoke : ∀ component props, Nests true (level.invoke component props))
    (inner : ∀ a component props, Nests false (level.invocation a component props))
    (x : Action σ α) : Nests true (perform level x) := by
  induction x with
  | done a => exact nests_pure a
  | load next ih => exact nests_get.bind fun s => ih s.store
  | store w next ih => exact .bind (nests_modify _ fun _ => .of_same rfl ⟨[], rfl⟩ rfl) fun _ => ih
  | report rs next ih => exact (nests_reportAll rs).bind fun _ => ih
  | useState type initial next begun ih => exact (nests_useStateBy type (begun.map _)).bind ih
  | getCell setter next ih => exact (alongside_getCell alongside_nests setter).weaken.bind ih
  | updateCell setter change next ih => exact (nests_updateCell setter change).bind fun _ => ih
  | invoke component props next ih => exact (invoke component props).bind ih
  | render tree container next ih => exact (nests_renderBy inner tree container).bind ih
  | unmount container next ih => exact (nests_unmount container).bind ih
  | flush next ih => exact (nests_flushBy inner).bind ih

end Calling

omit [Layer D] in
/-- An invocation is told of, so that it is no matter to the calls around it where its hook calls lead. -/
theorem nests_told {body : RenderM D σ (Fallible Tree)} (hooks : Nests true body) (a : ActivationId)
    (name : String) : Nests own (report (.renderingActivation a name) >>= fun _ => invoking a body) where
  nested {s _ _} returned := by
    simp only [invoking, returns_bind, returns_report, returns_updateActivation, returns_withCalls]
      at returned
    obtain ⟨_, _, rfl, _, _, rfl, result, _, ⟨u, performed, rfl⟩, returned⟩ := returned
    obtain ⟨-, news, log, kept⟩ := hooks.nested performed
    have invoked : Nested own s { u with calls := { s.calls with created := u.calls.created } } := by
      refine ⟨rfl, news ++ [.renderingActivation a name], ?_, fun {b r} found => ?_⟩
      · rw [List.append_assoc, List.singleton_append]
        exact log
      by_cases same : b = a
      · subst same
        have begun : (s.activations.update b ({ · with cursor := 0 })).find? b =
            some { r with cursor := 0 } := by
          rw [Activations.find?_update_self, found, Option.map_some]
        obtain ⟨r', found', longer, -⟩ := kept begun
        refine ⟨r', found', longer, fun _ untold => ?_⟩
        rw [tells_append, tells_rendering, decide_eq_true rfl, Bool.or_true] at untold
        cases untold
      · have begun := (Activations.find?_update_ne (f := ({ · with cursor := 0 })) same).trans found
        obtain ⟨r', found', longer, still⟩ := kept begun
        refine ⟨r', found', longer, fun _ untold => still (fun _ current => ?_) ?_⟩
        · exact same (Option.some.inj current).symm
        · rw [tells_append, Bool.or_eq_false_iff] at untold
          exact untold.1
    refine invoked.trans (Nests.nested ?_ returned)
    split
    · exact (alongside_checkCellCount alongside_nests a).weaken.bind fun _ => nests_pure _
    · exact nests_pure _

theorem nests_renderOutputBy {invocation : Invocation D σ}
    {body : Component → Props → RenderM D σ (Fallible Tree)}
    (inner : ∀ a component props, Nests false (invocation a component props))
    (hooks : ∀ component props, Nests true (body component props))
    (a : ActivationId) (component : Component) (props : Props) :
    Nests own (renderOutputBy invocation body a component props) := by
  unfold renderOutputBy
  rw [← bind_assoc]
  refine (nests_told (hooks ..) a _).bind fun outcome => ?_
  split
  · exact nests_pure _
  · exact (alongside_pairOutput (y := invocation) alongside_nests inner a _).weaken.bind fun _ => nests_pure _

theorem nests_level (program : Program σ) (below : Nat) :
    (∀ component props, Nests true ((level (D := D) program below).invoke component props)) ∧
    ∀ a component props, Nests false ((level (D := D) program below).invocation a component props) := by
  induction below with
  | zero => exact ⟨fun _ _ => nests_abort _, fun _ _ _ => nests_abort _⟩
  | succ below ih =>
      obtain ⟨invoke, inner⟩ := ih
      exact ⟨fun _ _ => nests_perform invoke inner _,
        nests_renderOutputBy inner fun _ _ => nests_perform invoke inner _⟩

/-- A component that renders, unmounts or flushes goes on with its hook calls where it was, unless its
activation was invoked once more in the meantime. -/
theorem nests_calls_back (program : Program σ) (below : Nat) :
    (∀ tree container, Nests false (renderBy (D := D) (level program below).invocation tree container)) ∧
    (∀ container, Nests false (unmount container : RenderM D σ Bool)) ∧
    Nests false (flushBy (D := D) (level program below).invocation) := by
  have inner := (nests_level (D := D) program below).2
  exact ⟨fun tree container => nests_renderBy inner tree container, fun container => nests_unmount container,
    nests_flushBy inner⟩

section Outermost

variable {program : Program σ}

theorem nests_top (x : Action σ α) : Nests true (perform (top (D := D) program) x) :=
  nests_perform (nests_level program maxLevels).1 (nests_level program maxLevels).2 x

theorem nests_runUntilIdle : Nests own (runUntilIdle (D := D) program) :=
  (alongside_runUntilIdle (q := program) alongside_nests (nests_level program maxLevels).2).weaken

theorem nests_callHandlers (event : Event) (hs : List Handler) :
    Nests true (callHandlers (D := D) program event hs) := by
  induction hs with
  | nil => exact nests_pure _
  | cons h rest ih => exact (nests_top _).bind fun _ => ih.bind fun _ => nests_pure _

theorem nests_dispatch [EventPath D] (target : NodeId) (category : Category) (value : Option String) :
    Nests true (dispatch (D := D) program target category value) := by
  have called : Nests true (do
      let dom := (← get).dom
      let handlers := EventPath.pathHandlers dom target category
      report (.callingHandlers handlers.length)
      let prevented ← callHandlers program ⟨category, target, Layer.value? dom target⟩ handlers
      return !prevented : RenderM D σ Bool) :=
    nests_get.bind fun _ => (nests_report _).bind fun _ => (nests_callHandlers ..).bind fun _ =>
      nests_pure _
  refine (nests_report _).bind fun _ => ?_
  cases value with
  | none => exact called
  | some content => exact (alongside_nests.onDom _).weaken.bind fun _ => called

/-- Between the calls of a page no activation is current, no output is being read, no entries are set
aside and no activation is held, however the calls were nested and whether or not they failed. -/
theorem Reachable.between_calls (reachable : Reachable program s) :
    s.calls = { Calls.none with created := s.calls.created } := by
  have after : ∀ {u v : Renderer D σ}, u.calls = { Calls.none with created := u.calls.created } →
      Nested true u v → v.calls = { Calls.none with created := v.calls.created } := by
    intro u v before nested
    rw [nested.calls, before]
  induction reachable with
  | new dom store => rfl
  | call _ returned ih => exact after ih ((nests_top _).nested returned)
  | idle _ returned ih => exact after ih (nests_runUntilIdle.nested returned)
  | dispatch _ returned ih => exact after ih ((nests_dispatch ..).nested returned)
  | edit _ _ ih => exact ih
  | drop _ ih => exact ih

end Outermost

end Patchwork.Renderer
