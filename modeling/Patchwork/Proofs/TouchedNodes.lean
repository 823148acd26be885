import Patchwork.Proofs.EntryHomes
import Patchwork.Proofs.DocumentRoundTrip
import Patchwork.Proofs.NodeRoles

/-! What carrying out a plan touches. Every step of it changes nodes and activations that are named beforehand,
whether or not the plan still fits what is mounted, and makes new nodes. All else is as it was. -/
namespace Patchwork

namespace Document

variable {d d' d'' : Document} {n : NodeId}

/-- No node but one was changed by itself, and none was moved. -/
structure Alters (n : NodeId) (d d' : Document) : Prop where
  worn : ∀ k, k ≠ n → d'.worn? k = d.worn? k
  parent : ∀ k, d'.parent? k = d.parent? k
  issued : d'.issued = d.issued
  stranger : d.element? n = none → d' = d

namespace Alters

theorem refl (d : Document) : Alters n d d := ⟨fun _ _ => rfl, fun _ => rfl, rfl, fun _ => rfl⟩

theorem trans (one : Alters n d d') (two : Alters n d' d'') : Alters n d d'' where
  worn k other := (two.worn k other).trans (one.worn k other)
  parent k := (two.parent k).trans (one.parent k)
  issued := two.issued.trans one.issued
  stranger nothing := by
    have same := one.stranger nothing
    subst same
    exact two.stranger nothing

theorem onElement (d : Document) (n : NodeId) (f : Element → Logged Element) :
    Alters n d (d.onElement n f).value := by
  unfold Document.onElement
  split
  next e found =>
    refine ⟨fun k other => ?_, fun k => ?_, issued_modify .., fun nothing => ?_⟩
    · change Document.worn? (d.modify n _) k = _
      rw [worn?, worn?, node?_modify, if_neg other]
    · change Document.parent? (d.modify n _) k = _
      rw [parent?, parent?, node?_modify]
      split
      · cases d.node? k <;> rfl
      · rfl
    · cases nothing.symm.trans (element?_eq_some.mpr found)
  next => exact .refl d
  next => exact .refl d

end Alters

theorem element?_eq_none_of_worn (same : d'.worn? n = d.worn? n) (nothing : d.element? n = none) :
    d'.element? n = none := by
  cases found : d'.element? n with
  | none => rfl
  | some e =>
      obtain ⟨e', found', -⟩ := element?_of_worn same.symm found
      cases nothing.symm.trans found'

theorem parent?_detach_of_ne (d : Document) {child k : NodeId} (other : k ≠ child) :
    (d.detach child).parent? k = d.parent? k := by
  rw [detach]
  split
  · rfl
  · simp only [parent?, node?_modify, if_neg other]
    split <;> cases d.node? k <;> rfl

theorem parent?_insertBefore_of_ne (d : Document) (parent : NodeId) {child k : NodeId} (reference : Option NodeId)
    (other : k ≠ child) : (d.insertBefore parent child reference).value.parent? k = d.parent? k := by
  cases there : d.contains child with
  | false => rw [insertBefore_of_missing there]
  | true =>
      cases holder : d.element? parent with
      | none => rw [insertBefore_of_stranger holder]
      | some e =>
          have still : (d.detach child).contains child = true :=
            (contains_of_worn (worn?_detach d child child)).trans there
          rw [value_insertBefore there holder, parent?_attach still, if_neg other, parent?_detach_of_ne d other]

theorem parent?_insertBefore {e : Element} (there : d.contains n = true) (holder : d.element? parent = some e)
    (reference : Option NodeId) : (d.insertBefore parent n reference).value.parent? n = some parent := by
  have still : (d.detach n).contains n = true := (contains_of_worn (worn?_detach d n n)).trans there
  rw [value_insertBefore there holder, parent?_attach still, if_pos rfl]

theorem parent?_removeChild_of_ne (d : Document) (parent : NodeId) {child k : NodeId} (other : k ≠ child) :
    (d.removeChild parent child).value.parent? k = d.parent? k := by
  rw [removeChild]
  split
  · exact parent?_detach_of_ne d other
  · rfl

theorem parent?_release_of_ne (d : Document) {n k : NodeId} (other : k ≠ n) :
    (d.release n).value.parent? k = d.parent? k := by
  rw [release, parent?, node?_free, if_neg other]
  exact parent?_detach_of_ne d other

end Document

namespace Binder

open Document (Alters)

variable {n : NodeId}

theorem alters_removeAttributes (names : List String) (d : Document) :
    Alters n d (removeAttributes n names d).value := by
  induction names generalizing d with
  | nil => exact .refl d
  | cons name rest ih => exact (Alters.onElement d n _).trans (ih _)

theorem alters_removeStyles (properties : List String) (d : Document) :
    Alters n d (removeStyles n properties d).value := by
  induction properties generalizing d with
  | nil => exact .refl d
  | cons property rest ih => exact (Alters.onElement d n _).trans (ih _)

theorem alters_setStyles (styles : List (String × String)) (d : Document) :
    Alters n d (setStyles n styles d).value := by
  induction styles generalizing d with
  | nil => exact .refl d
  | cons style rest ih => exact (Alters.onElement d n _).trans (ih _)

theorem alters_removeListeners (listeners : List (Category × Handler)) (d : Document) :
    Alters n d (removeListeners n listeners d).value := by
  induction listeners generalizing d with
  | nil => exact .refl d
  | cons listener rest ih => exact (Alters.onElement d n _).trans (ih _)

theorem alters_detachListeners (listeners : List (Category × Handler)) (d : Document) :
    Alters n d (detachListeners n listeners d).value := by
  induction listeners generalizing d with
  | nil => exact .refl d
  | cons listener rest ih => exact (Alters.onElement d n _).trans (ih _)

theorem alters_bindListener (category : Category) (handler : Handler) (b : Binding Document) :
    Alters n b.dom (bindListener n category handler b).value.dom := by
  unfold bindListener
  split
  · split
    · exact .refl _
    · exact (Alters.onElement b.dom n _).trans (.onElement _ n _)
  · exact .onElement b.dom n _

theorem alters_applyHandler (tag name : String) (handler : Handler) (b : Binding Document) :
    Alters n b.dom (applyHandler n tag name handler b).value.dom := by
  unfold applyHandler
  split
  next category _ =>
    dsimp only
    split
    · exact alters_bindListener category handler { b with categories := b.categories }
    · exact alters_bindListener category handler { b with categories := category :: b.categories }
  next => exact .refl _
  next => exact .refl _

theorem alters_applyOne (tag name : String) (value : AttrValue) (b : Binding Document) :
    Alters n b.dom (applyOne n tag name value b).value.dom := by
  unfold applyOne
  split
  next handler _ => exact alters_applyHandler tag name handler b
  next =>
    split
    · exact .refl _
    · exact .onElement b.dom n _
  next s _ => exact alters_setStyles s.toList b.dom
  next =>
    split
    · exact .refl _
    · exact .onElement b.dom n _
  next =>
    split
    · exact .refl _
    · exact .onElement b.dom n _

theorem alters_applyAll (tag : String) (attributes : List (String × AttrValue)) (b : Binding Document) :
    Alters n b.dom (applyAll n tag attributes b).value.dom := by
  induction attributes generalizing b with
  | nil => exact .refl _
  | cons entry rest ih => exact (alters_applyOne tag entry.1 entry.2 b).trans (ih _)

theorem alters_apply (binder : Binder) (d : Document) (tag : String) (attributes : Attributes) :
    Alters n d (binder.apply d n tag attributes).value.2 :=
  ((alters_removeAttributes _ d).trans (alters_removeStyles _ _)).trans
    ((alters_applyAll tag attributes.toList ⟨_, _, _, _⟩).trans (alters_removeListeners _ _))

theorem binder_apply (binder : Binder) (d : Document) (tag : String) (attributes : Attributes) {k : NodeId}
    (other : k ≠ n) : (binder.apply d n tag attributes).value.1[k]? = binder[k]? :=
  (getElem?_insert binder n _ k).trans (if_neg other)

theorem forget_of_none {binder : Binder} (d : Document) (unbound : binder[n]? = none) :
    (binder.forget d n).value = (binder, d) := by
  unfold forget
  rw [unbound]
  rfl

theorem forget_of_some {binder : Binder} {bindings : Bindings} (d : Document) (bound : binder[n]? = some bindings) :
    (binder.forget d n).value =
      (binder.erase n, (detachListeners n (listenerOrder bindings.slots bindings.listeners) d).value) := by
  unfold forget
  rw [bound]
  rfl

theorem alters_forget (binder : Binder) (d : Document) : Alters n d (binder.forget d n).value.2 := by
  cases found : binder[n]? with
  | none =>
      rw [forget_of_none d found]
      exact .refl d
  | some bindings =>
      rw [forget_of_some d found]
      exact alters_detachListeners _ d

theorem binder_forget (binder : Binder) (d : Document) {k : NodeId} (other : k ≠ n) :
    (binder.forget d n).value.1[k]? = binder[k]? := by
  cases found : binder[n]? with
  | none => rw [forget_of_none d found]
  | some bindings =>
      rw [forget_of_some d found, getElem?_erase, if_neg other]

theorem binder_forget_self (binder : Binder) (d : Document) (n : NodeId) :
    (binder.forget d n).value.1[n]? = none := by
  cases found : binder[n]? with
  | none => rw [forget_of_none d found, found]
  | some bindings => rw [forget_of_some d found, getElem?_erase, if_pos rfl]

end Binder

/-- What is shown of an activation: where it is placed, its output, and the tree that the output shows. -/
def Activation.face (r : Activation) : Option NodeId × List Mounted × Option Tree := (r.parent, r.output, r.committed)

namespace Activations

variable {as as' : Activations} {a b : ActivationId}

def face? (as : Activations) (a : ActivationId) : Option (Option NodeId × List Mounted × Option Tree) :=
  (as.find? a).map Activation.face

def place? (as : Activations) (a : ActivationId) : Option NodeId := (as.find? a).bind Activation.parent

theorem place?_eq (found : as.find? a = some r) : as.place? a = r.parent := by
  rw [place?, found, Option.bind_some]

theorem place?_of_face (same : as'.face? a = as.face? a) : as'.place? a = as.place? a := by
  have placed : ∀ as : Activations, as.place? a = (as.face? a).bind Prod.fst := by
    intro as
    rw [place?, face?]
    cases as.find? a <;> rfl
  rw [placed, placed, same]

theorem output_of_face (same : as'.face? a = as.face? a) : as'.output a = as.output a := by
  have shown : ∀ as : Activations, as.output a = ((as.face? a).map fun face => face.2.1).getD [] := by
    intro as
    rw [output, face?, Option.map_map]
    rfl
  rw [shown, shown, same]

theorem find?_of_face (same : as'.face? a = as.face? a) (found : as'.find? a = some r') :
    ∃ r, as.find? a = some r ∧ r.parent = r'.parent ∧ r.output = r'.output ∧ r.committed = r'.committed := by
  rw [face?, found, Option.map_some] at same
  obtain ⟨r, there, shown⟩ := Option.map_eq_some_iff.mp same.symm
  exact ⟨r, there, congrArg Prod.fst shown, congrArg (fun face => face.2.1) shown,
    congrArg (fun face => face.2.2) shown⟩

theorem face?_update (as : Activations) (f : Activation → Activation)
    (kept : b = a → ∀ r, (f r).face = r.face) : (as.update a f).face? b = as.face? b := by
  rw [face?, find?_update]
  split
  next same =>
    rw [Option.map_map, face?]
    exact congrArg (Option.map · (as.find? b)) (funext (kept same))
  next => rfl

theorem isSome_find?_update (as : Activations) (f : Activation → Activation) :
    ((as.update a f).find? b).isSome = (as.find? b).isSome := by
  rw [find?_update]
  split
  · rw [Option.isSome_map]
  · rfl

theorem place?_update (as : Activations) (f : Activation → Activation)
    (kept : b = a → ∀ r, (f r).parent = r.parent) : (as.update a f).place? b = as.place? b := by
  rw [place?, find?_update]
  split
  next same =>
    rw [place?]
    cases as.find? b with
    | none => rfl
    | some r => exact kept same r
  next => rfl

end Activations

open Mounted (items itemsAll)

namespace Renderer

variable {σ : Type} {δ : StateData} [HasStateData σ δ] {s t u : Renderer Document σ} {T T' : Item → Prop}
  {base base' : Nat} {homes homes' : Homes}

/-- A node is by itself, in its bookkeeping and in what it hangs as it was. -/
structure Remains (s t : Renderer Document σ) (n : NodeId) : Prop where
  worn : t.dom.worn? n = s.dom.worn? n
  parent : t.dom.parent? n = s.dom.parent? n
  binder : t.binder[n]? = s.binder[n]?

theorem Remains.refl (s : Renderer Document σ) (n : NodeId) : Remains s s n := ⟨rfl, rfl, rfl⟩

theorem Remains.trans (one : Remains s t n) (two : Remains t u n) : Remains s u n :=
  ⟨two.worn.trans one.worn, two.parent.trans one.parent, two.binder.trans one.binder⟩

theorem Remains.untouched (remains : Remains s t n) : Canvas.Untouched s.canvas t.canvas n :=
  ⟨remains.worn, remains.binder⟩

/-- The elements that were there may be gone, but nothing else has become an element in their place. -/
def Voids (s t : Renderer Document σ) : Prop :=
  s.dom.issued ≤ t.dom.issued ∧
    ∀ n : NodeId, n.index ≤ s.dom.issued → s.dom.element? n = none → t.dom.element? n = none

theorem Voids.refl (s : Renderer Document σ) : Voids s s := ⟨Nat.le_refl _, fun _ _ => id⟩

theorem Voids.trans (one : Voids s t) (two : Voids t u) : Voids s u :=
  ⟨Nat.le_trans one.1 two.1, fun n old nothing => two.2 n (Nat.le_trans old one.1) (one.2 n old nothing)⟩

/-- Some items were changed and new nodes made. Of the nodes, those are old that were among the first
`base`. -/
structure Touches (base : Nat) (T : Item → Prop) (s t : Renderer Document σ) : Prop where
  roots : t.roots = s.roots
  calls : t.calls = s.calls
  store : t.store = s.store
  count : Arena.issued t.activations = Arena.issued s.activations
  there : ∀ a, (t.activations.find? a).isSome = (s.activations.find? a).isSome
  voids : Voids s t
  unbound : ∀ n : NodeId, t.dom.issued < n.index → s.binder[n]? = none → t.binder[n]? = none
  remains : ∀ n : NodeId, n.index ≤ base → ¬ T (.node n) → Remains s t n
  face : ∀ a, ¬ T (.activation a) → t.activations.face? a = s.activations.face? a

namespace Touches

theorem refl (s : Renderer Document σ) : Touches base T s s :=
  ⟨rfl, rfl, rfl, rfl, fun _ => rfl, .refl s, fun _ _ => id, fun n _ _ => .refl s n, fun _ _ => rfl⟩

theorem trans (one : Touches base T s t) (two : Touches base T t u) : Touches base T s u where
  roots := two.roots.trans one.roots
  calls := two.calls.trans one.calls
  store := two.store.trans one.store
  count := two.count.trans one.count
  there a := (two.there a).trans (one.there a)
  voids := one.voids.trans two.voids
  unbound n late nothing := two.unbound n late (one.unbound n (Nat.lt_of_le_of_lt two.voids.1 late) nothing)
  remains n old other := (one.remains n old other).trans (two.remains n old other)
  face a other := (two.face a other).trans (one.face a other)

theorem mono (one : Touches base T s t) (nodes : ∀ n : NodeId, n.index ≤ base → T (.node n) → T' (.node n))
    (activations : ∀ a, T (.activation a) → T' (.activation a)) : Touches base T' s t :=
  { one with
    remains := fun n old other => one.remains n old fun touched => other (nodes n old touched)
    face := fun a other => one.face a fun touched => other (activations a touched) }

theorem weaken (one : Touches base T s t) (more : ∀ x, T x → T' x) : Touches base T' s t :=
  one.mono (fun _ _ => more _) fun _ => more _

theorem since (one : Touches base T s t) (earlier : base' ≤ base) : Touches base' T s t :=
  { one with remains := fun n old => one.remains n (Nat.le_trans old earlier) }

theorem of_reports {reports : List Report} (one : Touches base T { s with reports } t) : Touches base T s t :=
  { one with
    remains := fun n old other =>
      have remains := one.remains n old other
      ⟨remains.worn, remains.parent, remains.binder⟩ }

theorem place? (one : Touches base T s t) {a : ActivationId} (other : ¬ T (.activation a)) :
    t.activations.place? a = s.activations.place? a := Activations.place?_of_face (one.face a other)

theorem output (one : Touches base T s t) {a : ActivationId} (other : ¬ T (.activation a)) :
    t.activations.output a = s.activations.output a := Activations.output_of_face (one.face a other)

theorem of_dom {dom : Document} {reports : List Report} (voids : Voids s { s with dom, reports })
    (same : ∀ n : NodeId, n.index ≤ base → ¬ T (.node n) →
      dom.worn? n = s.dom.worn? n ∧ dom.parent? n = s.dom.parent? n) :
    Touches base T s { s with dom, reports } where
  roots := rfl
  calls := rfl
  store := rfl
  count := rfl
  there _ := rfl
  voids := voids
  unbound _ _ := id
  remains n old other := ⟨(same n old other).1, (same n old other).2, rfl⟩
  face _ _ := rfl

theorem update (a : ActivationId) (f : Activation → Activation)
    (touched : T (.activation a) ∨ ∀ r, (f r).face = r.face) :
    Touches base T s { s with activations := s.activations.update a f } where
  roots := rfl
  calls := rfl
  store := rfl
  count := Activations.issued_update ..
  there _ := Activations.isSome_find?_update ..
  voids := ⟨Nat.le_refl _, fun _ _ => id⟩
  unbound _ _ := id
  remains _ _ _ := ⟨rfl, rfl, rfl⟩
  face _ other := Activations.face?_update _ _ fun same r =>
    touched.elim (fun there => absurd (same ▸ there) other) fun kept => kept r

end Touches

/-- Everything that is recorded is at home where it is recorded, and just the activations that exist have
homes. -/
structure Sits (homes : Homes) (s : Renderer Document σ) : Prop where
  rising : homes.Rising
  nodes : ∀ {n home}, homes (.node n) = some home → n.index ≤ s.dom.issued
  activations : ∀ a, (homes (.activation a)).isSome = (s.activations.find? a).isSome
  unbound : ∀ n : NodeId, s.dom.issued < n.index → s.binder[n]? = none
  outputs : ∀ a, Seated homes (.output a) (homes.firm a) [] 0 (s.activations.output a)
  grounded : ∀ {a place}, s.activations.place? a = some place → homes.firm a = true → place.index ≤ s.dom.issued

/-- Whatever was touched, it is at home where it is recorded, if what was written into activations is. -/
theorem Sits.touched (sits : Sits homes s) (touches : Touches base T s t)
    (outputs : ∀ a, T (.activation a) → Seated homes (.output a) (homes.firm a) [] 0 (t.activations.output a))
    (grounded : ∀ {a place}, T (.activation a) → t.activations.place? a = some place → homes.firm a = true →
      place.index ≤ t.dom.issued) : Sits homes t where
  rising := sits.rising
  nodes home := Nat.le_trans (sits.nodes home) touches.voids.1
  activations a := (sits.activations a).trans (touches.there a).symm
  unbound n late := touches.unbound n late (sits.unbound n (Nat.lt_of_le_of_lt touches.voids.1 late))
  outputs a := by
    by_cases touched : T (.activation a)
    · exact outputs a touched
    · rw [touches.output touched]
      exact sits.outputs a
  grounded {a place} placed firm := by
    by_cases touched : T (.activation a)
    · exact grounded touched placed firm
    · rw [touches.place? touched] at placed
      exact Nat.le_trans (sits.grounded placed firm) touches.voids.1

theorem Sits.give (sits : Sits homes s) {n : NodeId} (new : homes (.node n) = none) (issued : n.index ≤ s.dom.issued)
    (home : Home) : Sits (homes.give (.node n) home) s where
  rising {a b firm path} found := by
    rw [homes.give_of_ne home (by exact nofun)] at found
    exact sits.rising found
  nodes {k home'} found := by
    by_cases same : k = n
    · exact same ▸ issued
    · rw [homes.give_of_ne home fun eq => same (Item.node.inj eq)] at found
      exact sits.nodes found
  activations a := by
    rw [homes.give_of_ne home (by exact nofun)]
    exact sits.activations a
  unbound := sits.unbound
  outputs a := by
    have firm : (homes.give (.node n) home).firm a = homes.firm a := by
      rw [Homes.firm, homes.give_of_ne home (by exact nofun)]
      rfl
    rw [firm]
    exact (sits.outputs a).extend (Homes.extends_give new home)
  grounded {a place} placed firm := by
    rw [Homes.firm, homes.give_of_ne home (by exact nofun)] at firm
    exact sits.grounded placed firm

/-- What has no home is new, or has never been recorded. -/
theorem Sits.homeless (sits : Sits homes s) {n : NodeId} (late : s.dom.issued < n.index) : homes (.node n) = none := by
  cases found : homes (.node n) with
  | none => rfl
  | some home => exact absurd (sits.nodes found) (Nat.not_le_of_lt late)

end Renderer
end Patchwork
