import Patchwork.Proofs.LiveEntries

/-! Unmounting entries. Whatever an entry shows, its nodes are released, its activations have no output any more,
and neither have those that are inside it. No other output loses anything. -/
namespace Patchwork

open Mounted (items itemsAll)

namespace Renderer

variable {σ : Type} {δ : StateData} [HasStateData σ δ] {s t u : Renderer Document σ} {R R' : Item → Prop}
  {K K' : ActivationId → Prop} {base : Nat}
  {homes homes' : Homes} {h : Holder} {firm : Bool} {path : List Nat} {i levels : Nat} {place : NodeId}
  {m : Mounted} {ms : List Mounted}

def giving (a : ActivationId) (output : List Mounted) (s : Renderer Document σ) : Renderer Document σ :=
  { s with activations := s.activations.update a ({ · with output }) }

theorem eq_of_setOutput {a : ActivationId} {output : List Mounted} (returned : Returns (setOutput a output) s () t) :
    t = s.giving a output := by
  obtain ⟨_, _, got, rest⟩ := returns_bind.mp returned
  obtain ⟨rfl, rfl⟩ := returns_get.mp got
  split at rest
  · obtain ⟨_, _, gaveUp, _⟩ := returns_bind.mp rest
    exact (returns_abort.mp gaveUp).elim
  · exact returns_updateActivation.mp rest

theorem eq_of_takeOutput {a : ActivationId} {output : List Mounted} (returned : Returns (takeOutput a) s output t) :
    output = s.activations.output a ∧ t = s.giving a [] := by
  obtain ⟨_, _, got, rest⟩ := returns_bind.mp returned
  obtain ⟨rfl, rfl⟩ := returns_get.mp got
  obtain ⟨_, _, set, ended⟩ := returns_bind.mp rest
  obtain ⟨rfl, rfl⟩ := returns_pure.mp ended
  exact ⟨rfl, eq_of_setOutput set⟩

theorem touches_giving (base : Nat) (s : Renderer Document σ) (a : ActivationId) (output : List Mounted) :
    Touches base (· = .activation a) s (s.giving a output) := .update a _ (.inl rfl)

theorem place?_giving (s : Renderer Document σ) (a : ActivationId) (output : List Mounted) (b : ActivationId) :
    (s.giving a output).activations.place? b = s.activations.place? b :=
  Activations.place?_update s.activations ({ · with output }) fun _ _ => rfl

theorem output_giving {a : ActivationId} (known : (s.activations.find? a).isSome = true) (output : List Mounted) :
    (s.giving a output).activations.output a = output := by
  obtain ⟨r, found⟩ := Option.isSome_iff_exists.mp known
  rw [giving, Activations.output, Activations.find?_update_self, found]
  rfl

theorem output_giving_nil (s : Renderer Document σ) (a : ActivationId) :
    (s.giving a []).activations.output a = [] := by
  rw [giving, Activations.output, Activations.find?_update_self]
  cases s.activations.find? a <;> rfl

theorem output_giving_of_ne {a b : ActivationId} (other : b ≠ a) (output : List Mounted) :
    (s.giving a output).activations.output b = s.activations.output b :=
  (touches_giving 0 s a output).output fun same => other (Item.activation.inj same)

theorem touches_report (r : Report) {T : Item → Prop} : Touches base T s (s.noting r) :=
  .of_reports (.refl (s.noting r))

theorem touches_release (n : NodeId) {T : Item → Prop} (touched : T (.node n))
    (returned : Returns (onDom (Layer.release · n)) s () t) : Touches base T s t := by
  obtain rfl := returns_onDom.mp returned
  have differs {k : NodeId} (other : ¬ T (.node k)) : k ≠ n := fun same => other (same ▸ touched)
  have issued : (s.dom.release n).value.issued = s.dom.issued := Document.Linked.issued_release ..
  refine .of_dom ⟨Nat.le_of_eq issued.symm, fun k _ nothing => ?_⟩ fun k _ other => ?_
  · have worn := Document.worn?_release s.dom n k
    change (s.dom.release n).value.element? k = none
    split at worn
    next =>
      rw [Document.worn?, Option.map_eq_none_iff] at worn
      rw [Document.element?, worn]
      rfl
    next => exact Document.element?_eq_none_of_worn worn nothing
  · exact ⟨(Document.worn?_release s.dom n k).trans (if_neg (differs other)),
      Document.parent?_release_of_ne s.dom (differs other)⟩

theorem touches_onBound {f : Binder → Document → Logged (Binder × Document)} (n : NodeId) {T : Item → Prop}
    (touched : T (.node n)) (alters : s.dom.Alters n (f s.binder s.dom).value.2)
    (binder : ∀ k : NodeId, k ≠ n → (f s.binder s.dom).value.1[k]? = s.binder[k]?)
    (unbound : s.dom.issued < n.index → s.binder[n]? = none → (f s.binder s.dom).value.1[n]? = none)
    (returned : Returns (onBound f) s () t) : Touches base T s t := by
  obtain rfl := returns_modify.mp returned
  have differs {k : NodeId} (other : ¬ T (.node k)) : k ≠ n := fun same => other (same ▸ touched)
  exact {
    roots := rfl
    calls := rfl
    store := rfl
    count := rfl
    there := fun _ => rfl
    voids := ⟨Nat.le_of_eq alters.issued.symm, fun k _ nothing => by
      by_cases same : k = n
      · subst same
        exact (congrArg (Document.element? · k) (alters.stranger nothing)).trans nothing
      · exact Document.element?_eq_none_of_worn (alters.worn k same) nothing⟩
    unbound := fun k late nothing => by
      by_cases same : k = n
      · subst same
        exact unbound (alters.issued ▸ late) nothing
      · exact (binder k same).trans nothing
    remains := fun k _ other => ⟨alters.worn k (differs other), alters.parent k, binder k (differs other)⟩
    face := fun _ _ => rfl }

theorem touches_forget (n : NodeId) {T : Item → Prop} (touched : T (.node n))
    (returned : Returns (forgetBindings n) s () t) : Touches base T s t :=
  touches_onBound n touched (Binder.alters_forget s.binder s.dom) (fun _ => Binder.binder_forget s.binder s.dom)
    (fun _ _ => Binder.binder_forget_self s.binder s.dom n) returned

theorem touches_dress (n : NodeId) (tag : String) (attributes : Attributes) {T : Item → Prop} (touched : T (.node n))
    (there : n.index ≤ s.dom.issued) (returned : Returns (applyAttributes n tag attributes) s () t) :
    Touches base T s t :=
  touches_onBound n touched (Binder.alters_apply s.binder s.dom tag attributes)
    (fun _ => Binder.binder_apply s.binder s.dom tag attributes) (fun late => absurd there (Nat.not_le_of_lt late))
    returned

/-- What is recorded at the top or by activations that were emptied. -/
def Emptied (homes : Homes) (R : Item → Prop) (K : ActivationId → Prop) : Item → Prop
  | .node n => R (.node n) ∨ ∃ a firm path, K a ∧ homes (.node n) = some ⟨.output a, firm, path⟩
  | .activation a => K a

/-- Some activations were emptied: those at the top, and with each what was in its output. -/
structure Empties (homes : Homes) (R : Item → Prop) (K : ActivationId → Prop) (s t : Renderer Document σ) :
    Prop where
  tops : ∀ {a}, R (.activation a) → K a
  inside : ∀ {b}, K b → ∃ r, R r ∧ Below homes r (.activation b)
  closed : ∀ {a b}, K a → .activation b ∈ itemsAll (s.activations.output a) → K b
  empty : ∀ {a}, K a → t.activations.output a = []
  place : ∀ a, t.activations.place? a = s.activations.place? a
  touches : ∀ base, Touches base (Emptied homes R K) s t

namespace Empties

theorem of_touches (none : ∀ a, ¬ R (.activation a)) (touches : ∀ base, Touches base R s t) :
    Empties homes R (fun _ => False) s t where
  tops {a} top := none a top
  inside := False.elim
  closed := False.elim
  empty := False.elim
  place a := (touches 0).place? (none a)
  touches base := (touches base).mono (fun _ _ => .inl) fun a top => none a top

theorem trans (one : Empties homes R K s t) (two : Empties homes R' K' t u) :
    Empties homes (fun x => R x ∨ R' x) (fun a => K a ∨ K' a) s u where
  tops top := top.imp one.tops two.tops
  inside := by
    rintro b (early | late)
    · obtain ⟨r, top, below⟩ := one.inside early
      exact ⟨r, .inl top, below⟩
    · obtain ⟨r, top, below⟩ := two.inside late
      exact ⟨r, .inr top, below⟩
  closed {a b} emptied member := by
    by_cases early : K a
    · exact .inl (one.closed early member)
    · have same := (one.touches 0).output (a := a) early
      exact .inr (two.closed (emptied.resolve_left early) (same ▸ member))
  empty {a} emptied := by
    by_cases late : K' a
    · exact two.empty late
    · exact ((two.touches 0).output (a := a) late).trans (one.empty (emptied.resolve_right late))
  place a := (two.place a).trans (one.place a)
  touches base := by
    refine ((one.touches base).weaken ?_).trans ((two.touches base).weaken ?_)
    · rintro (n | a) touched
      · exact touched.imp .inl fun ⟨a, firm, path, emptied, home⟩ => ⟨a, firm, path, .inl emptied, home⟩
      · exact .inl touched
    · rintro (n | a) touched
      · exact touched.imp .inr fun ⟨a, firm, path, emptied, home⟩ => ⟨a, firm, path, .inr emptied, home⟩
      · exact .inr touched

theorem congr (one : Empties homes R K s t) (same : ∀ x, R x ↔ R' x) : Empties homes R' K s t := by
  have equal : R = R' := funext fun x => propext (same x)
  exact equal ▸ one

theorem sits (one : Empties homes R K s t) (sits : Sits homes s) : Sits homes t := by
  refine sits.touched (one.touches 0) (fun a emptied => ?_) fun {a place} _ placed firm => ?_
  · rw [one.empty emptied]
    exact .nil
  · rw [one.place] at placed
    exact Nat.le_trans (sits.grounded placed firm) (one.touches 0).voids.1

theorem under {a : ActivationId} (sits : Sits homes s) (one : Empties homes (· ∈ itemsAll (s.activations.output a)) K
    (s.giving a []) t) : Empties homes (· = .activation a) (fun b => b = a ∨ K b) s t := by
  refine ⟨fun top => .inl (Item.activation.inj top), ?_, ?_, ?_, fun b => ?_, fun base => ?_⟩
  · rintro b (rfl | inner)
    · exact ⟨_, rfl, .self⟩
    · obtain ⟨r, member, below⟩ := one.inside inner
      obtain ⟨_, _, _, home⟩ := (sits.outputs a).home_of_mem member
      exact ⟨_, rfl, (Below.of_output home).trans below⟩
  · intro b c inner member
    by_cases same : b = a
    · exact .inr (one.tops (same ▸ member))
    · exact .inr (one.closed (inner.resolve_left same) ((output_giving_of_ne (s := s) same []).symm ▸ member))
  · intro b inner
    by_cases deeper : K b
    · exact one.empty deeper
    · obtain rfl := inner.resolve_right deeper
      exact ((one.touches 0).output (a := b) deeper).trans (output_giving_nil s b)
  · exact (one.place b).trans (place?_giving s a [] b)
  · refine .trans ((touches_giving base s a []).weaken ?_) ((one.touches base).weaken ?_)
    · rintro _ rfl
      exact .inl rfl
    rintro (n | b) touched
    · rcases touched with member | ⟨b, firm, path, inner, home⟩
      · obtain ⟨firm, path, _, home⟩ := (sits.outputs a).home_of_mem member
        exact .inr ⟨a, firm, path, .inl rfl, home⟩
      · exact .inr ⟨b, firm, path, .inr inner, home⟩
    · exact .inr touched

end Empties

/-- The activation exists, and there are enough levels for all that is inside it. -/
def Deep (s : Renderer Document σ) (levels : Nat) (a : ActivationId) : Prop :=
  (s.activations.find? a).isSome = true ∧ Arena.issued s.activations < levels + a.index

theorem Deep.congr (deep : Deep s levels a) {T : Item → Prop} (touches : Touches base T s t) : Deep t levels a :=
  ⟨(touches.there a).trans deep.1, touches.count.symm ▸ deep.2⟩

section Entries

variable {unmount : ActivationId → RenderM Document σ Unit}

mutual

theorem empties_unmountEntryBy (inner : ∀ {a s t}, Sits homes s → Deep s levels a → Returns (unmount a) s () t →
      ∃ K, Empties homes (· = .activation a) K s t) : ∀ (m : Mounted) {s t : Renderer Document σ}, Sits homes s →
    (∀ a, .activation a ∈ items m → Deep s levels a) →
    Returns (unmountEntryBy unmount m) s () t → ∃ K, Empties homes (· ∈ items m) K s t
  | .text n, s, t, sits, known, returned => by
      rw [unmountEntryBy] at returned
      refine ⟨_, .of_touches (fun a member => ?_) fun base => touches_release n (List.mem_singleton_self _) returned⟩
      cases List.mem_singleton.mp member
  | .raw n _, s, t, sits, known, returned => by
      rw [unmountEntryBy] at returned
      obtain ⟨-, rfl⟩ := returns_pure.mp returned
      refine ⟨_, .of_touches (fun a member => ?_) fun base => .refl s⟩
      cases List.mem_singleton.mp member
  | .component a, s, t, sits, known, returned => by
      rw [unmountEntryBy] at returned
      obtain ⟨K, empties⟩ := inner sits (known _ (List.mem_singleton_self _)) returned
      exact ⟨K, empties.congr fun x => List.mem_singleton.symm⟩
  | .element n tag children, s, t, sits, known, returned => by
      rw [unmountEntryBy] at returned
      obtain ⟨_, u, unmounted, rest⟩ := returns_bind.mp returned
      obtain ⟨_, v, forgotten, released⟩ := returns_bind.mp rest
      obtain ⟨K, empties⟩ := empties_unmountAllBy inner children sits
        (fun a member => known a (List.mem_cons_of_mem _ member)) unmounted
      have own (base : Nat) : Touches base (· = .node n) u t :=
        Touches.trans (touches_forget n rfl forgotten) (touches_release n rfl released)
      have last : Empties homes (· = .node n) (fun _ => False) u t := .of_touches (fun a same => by cases same) own
      refine ⟨_, (empties.trans last).congr fun x => ?_⟩
      rw [items, List.mem_cons]
      exact or_comm

theorem empties_unmountAllBy (inner : ∀ {a s t}, Sits homes s → Deep s levels a → Returns (unmount a) s () t →
      ∃ K, Empties homes (· = .activation a) K s t) : ∀ (ms : List Mounted) {s t : Renderer Document σ}, Sits homes s →
    (∀ a, .activation a ∈ itemsAll ms → Deep s levels a) →
    Returns (unmountAllBy unmount ms) s () t → ∃ K, Empties homes (· ∈ itemsAll ms) K s t
  | [], s, t, sits, known, returned => by
      obtain ⟨-, rfl⟩ := returns_pure.mp returned
      exact ⟨_, .of_touches (fun a member => List.not_mem_nil member) fun base => .refl s⟩
  | m :: rest, s, t, sits, known, returned => by
      rw [unmountAllBy] at returned
      obtain ⟨_, u, first, later⟩ := returns_bind.mp returned
      obtain ⟨K, one⟩ := empties_unmountEntryBy inner m sits
        (fun a member => known a (List.mem_append_left _ member)) first
      obtain ⟨K', two⟩ := empties_unmountAllBy inner rest (one.sits sits)
        (fun a member => (known a (List.mem_append_right _ member)).congr (one.touches 0)) later
      refine ⟨_, (one.trans two).congr fun x => ?_⟩
      rw [itemsAll, List.mem_append]

end

end Entries

section Activations

theorem Sits.deep_of_mem (sits : Sits homes s) {a b : ActivationId} (deep : Deep s (levels + 1) a)
    (member : .activation b ∈ itemsAll (s.activations.output a)) : Deep s levels b := by
  obtain ⟨_, _, _, home⟩ := (sits.outputs a).home_of_mem member
  have later := sits.rising home
  refine ⟨?_, by have := deep.2; omega⟩
  rw [← sits.activations, home]
  rfl

/-- Where nothing was touched that is recorded or shown, everything is still at home. -/
theorem Sits.calm (sits : Sits homes s) (touches : Touches base (fun _ => False) s t) : Sits homes t :=
  sits.touched touches (fun _ => False.elim) fun {_ _} => False.elim

theorem Sits.noting (sits : Sits homes s) (r : Report) : Sits homes (s.noting r) :=
  sits.calm (.of_reports (.refl _) : Touches 0 _ s (s.noting r))

theorem Empties.after (one : Empties homes R K t u) {T : Item → Prop} (nodes : ∀ a, ¬ T (.activation a))
    (within : ∀ x, T x → Emptied homes R K x) (touches : ∀ base, Touches base T s t) : Empties homes R K s u where
  tops := one.tops
  inside := one.inside
  closed {a _} emptied member := one.closed emptied ((touches 0).output (nodes a) ▸ member)
  empty := one.empty
  place a := (one.place a).trans ((touches 0).place? (nodes a))
  touches base := ((touches base).weaken within).trans (one.touches base)

theorem Sits.giving (sits : Sits homes s) {a : ActivationId} {output : List Mounted}
    (seated : Seated homes (.output a) (homes.firm a) [] 0 output) : Sits homes (s.giving a output) := by
  refine sits.touched (touches_giving 0 s a output) (fun b same => ?_) fun {b place} _ placed firm => ?_
  · cases same
    by_cases known : (s.activations.find? a).isSome = true
    · rw [output_giving known]
      exact seated
    · rw [Option.not_isSome_iff_eq_none] at known
      rw [Renderer.giving, Activations.output, Activations.find?_update_self, known]
      exact .nil
  · rw [place?_giving] at placed
    exact sits.grounded placed firm

theorem empties_unmountActivationWithin (levels : Nat) {a : ActivationId} {s t : Renderer Document σ}
    (sits : Sits homes s) (deep : Deep s levels a) (returned : Returns (unmountActivationWithin levels a) s () t) :
    ∃ K, Empties homes (· = .activation a) K s t := by
  induction levels generalizing a s t with
  | zero =>
      obtain ⟨r, found⟩ := Option.isSome_iff_exists.mp deep.1
      have known := Activations.index_le_issued found
      have fuel := deep.2
      omega
  | succ levels ih =>
      obtain ⟨_, u, told, rest⟩ := returns_bind.mp returned
      obtain ⟨_, v, marked, rest⟩ := returns_bind.mp rest
      obtain ⟨output, w, taken, inner⟩ := returns_bind.mp rest
      have calm (base : Nat) : Touches base (fun _ => False) s v := by
        rw [returns_report.mp told] at marked
        rw [returns_updateActivation.mp marked]
        exact (touches_report _).trans (.update a _ (.inr fun _ => rfl))
      have sits := sits.calm (calm 0)
      have deep := deep.congr (calm 0)
      obtain ⟨rfl, rfl⟩ := eq_of_takeOutput taken
      have cleared := touches_giving 0 v a []
      obtain ⟨K, empties⟩ := empties_unmountAllBy ih _ (sits.giving .nil)
        (fun b member => (sits.deep_of_mem deep member).congr cleared) inner
      exact ⟨_, (Empties.under sits empties).after (fun _ => id) (fun _ => False.elim) calm⟩

theorem Sits.deep (sits : Sits homes s) {a : ActivationId} (known : (homes (.activation a)).isSome = true) :
    Deep s s.activations.depth a := by
  rw [sits.activations] at known
  obtain ⟨r, found⟩ := Option.isSome_iff_exists.mp known
  have one := Activations.one_le_index found
  refine ⟨known, ?_⟩
  rw [Activations.depth]
  omega

theorem empties_unmountActivation {a : ActivationId} (sits : Sits homes s)
    (known : (homes (.activation a)).isSome = true) (returned : Returns (unmountActivation a) s () t) :
    ∃ K, Empties homes (· = .activation a) K s t := by
  obtain ⟨_, _, got, unmounted⟩ := returns_bind.mp returned
  obtain ⟨rfl, rfl⟩ := returns_get.mp got
  exact empties_unmountActivationWithin _ sits (sits.deep known) unmounted

theorem empties_unmountActivations (as : List ActivationId) {s t : Renderer Document σ} (sits : Sits homes s)
    (known : ∀ a ∈ as, (homes (.activation a)).isSome = true) (returned : Returns (unmountActivations as) s () t) :
    ∃ K, Empties homes (fun x => ∃ a ∈ as, x = .activation a) K s t := by
  induction as generalizing s with
  | nil =>
      obtain ⟨-, rfl⟩ := returns_pure.mp returned
      exact ⟨_, .of_touches (fun a ⟨_, member, _⟩ => List.not_mem_nil member) fun base => .refl s⟩
  | cons a rest ih =>
      obtain ⟨_, u, first, later⟩ := returns_bind.mp returned
      obtain ⟨K, one⟩ := empties_unmountActivation sits (known a (List.mem_cons_self ..)) first
      obtain ⟨K', two⟩ := ih (one.sits sits) (fun b member => known b (List.mem_cons_of_mem _ member)) later
      refine ⟨_, (one.trans two).congr fun x => ?_⟩
      simp only [List.mem_cons, exists_eq_or_imp]

theorem empties_unmountEntry (sits : Sits homes s)
    (known : ∀ a, .activation a ∈ items m → (homes (.activation a)).isSome = true)
    (returned : Returns (unmountEntry m) s () t) : ∃ K, Empties homes (· ∈ items m) K s t := by
  have deep : ∀ a, .activation a ∈ items m → Deep s s.activations.depth a := fun a member =>
    sits.deep (known a member)
  refine empties_unmountEntryBy (fun sits deep unmounted => ?_) m sits deep returned
  exact empties_unmountActivation sits ((sits.activations _).trans deep.1) unmounted

theorem items_subset {m : Mounted} {ms : List Mounted} (member : m ∈ ms) : ∀ x ∈ items m, x ∈ itemsAll ms := by
  induction ms with
  | nil => cases member
  | cons first rest ih =>
      intro x own
      rcases List.mem_cons.mp member with rfl | later
      · exact List.mem_append_left _ own
      · exact List.mem_append_right _ (ih later x own)

theorem emptied_of_mem_nodesWithin (sits : Sits homes s)
    (closed : ∀ {a b}, K a → .activation b ∈ itemsAll (s.activations.output a) → K b) {n : NodeId} (levels : Nat)
    {m : Mounted} (tops : ∀ {a}, .activation a ∈ items m → K a) (member : n ∈ m.nodesWithin s.activations levels) :
    Emptied homes (· ∈ items m) K (.node n) := by
  induction levels generalizing m with
  | zero =>
      cases m with
      | text | raw => exact .inl (List.mem_singleton.mpr (congrArg Item.node (List.mem_singleton.mp member)))
      | element => exact .inl (List.mem_cons.mpr (.inl (congrArg Item.node (List.mem_singleton.mp member))))
      | component => cases member
  | succ levels ih =>
      cases m with
      | text | raw => exact .inl (List.mem_singleton.mpr (congrArg Item.node (List.mem_singleton.mp member)))
      | element => exact .inl (List.mem_cons.mpr (.inl (congrArg Item.node (List.mem_singleton.mp member))))
      | component a =>
          obtain ⟨inner, recorded, deeper⟩ := List.mem_flatMap.mp member
          have emptied := tops (List.mem_singleton_self _)
          rcases ih (fun top => closed emptied (items_subset recorded _ top)) deeper with own | found
          · obtain ⟨firm, path, _, home⟩ := (sits.outputs a).home_of_mem (items_subset recorded _ own)
            exact .inr ⟨a, firm, path, emptied, home⟩
          · exact .inr found

theorem empties_removal (sits : Sits homes s)
    (known : ∀ a, .activation a ∈ items m → (homes (.activation a)).isSome = true)
    (detached : Returns (detach place m) s () t) (unmounted : Returns (unmountEntry m) t () u) :
    ∃ K, Empties homes (· ∈ items m) K s u := by
  obtain ⟨_, _, got, taken⟩ := returns_bind.mp detached
  obtain ⟨rfl, rfl⟩ := returns_get.mp got
  have displaces := displaces_removeAll _ taken
  let T : Item → Prop := fun x => ∃ n ∈ m.nodes s.activations, x = .node n
  have touches (base : Nat) : Touches base T s t := displaces.touches fun n member _ => ⟨n, member, rfl⟩
  have none (a : ActivationId) : ¬ T (.activation a) := nofun
  have sits' : Sits homes t := sits.touched (touches 0) (fun a there => absurd there (none a))
    fun {a _} there => absurd there (none a)
  obtain ⟨K, empties⟩ := empties_unmountEntry sits' known unmounted
  refine ⟨K, empties.after none ?_ touches⟩
  rintro _ ⟨n, member, rfl⟩
  refine emptied_of_mem_nodesWithin sits (fun {a b} emptied inner => ?_) _ empties.tops member
  exact empties.closed emptied ((touches 0).output (none a) ▸ inner)

theorem Houses.emptied (houses : Houses homes s) (empties : Empties homes R K s t)
    (apart : ∀ {n a}, R (.node n) → .node n ∈ itemsAll (s.activations.output a) → K a) : Houses homes t := by
  refine ⟨empties.sits houses.toSits, fun a => ?_⟩
  have touches := empties.touches s.dom.issued
  by_cases emptied : K a
  · exact .of_empty (empties.empty emptied)
  refine (houses.shows a).frame houses.toSits (.refl homes) (touches.face a emptied) touches.voids
    (fun n member => ?_) fun b _ => empties.place b
  refine touches.remains n (houses.old (houses.outputs a) member) fun touched => ?_
  rcases touched with top | ⟨b, firm, path, inner, home⟩
  · exact emptied (apart top member)
  · obtain ⟨_, _, _, home'⟩ := (houses.outputs a).home_of_mem member
    cases home.symm.trans home'
    exact emptied inner

theorem Empties.within (empties : Empties homes R K s t) {positions : List Nat → Prop}
    (region : ∀ r, R r → Within homes h positions r) : ∀ x, Emptied homes R K x → Within homes h positions x := by
  have activation {a : ActivationId} (emptied : K a) : Within homes h positions (.activation a) := by
    obtain ⟨r, top, below⟩ := empties.inside emptied
    exact (region r top).below below
  rintro (n | a) touched
  · rcases touched with top | ⟨a, firm, path, emptied, home⟩
    · exact region _ top
    · exact (activation emptied).below (Below.of_output home)
  · exact activation touched

end Activations

section Lists

/-- A list of entries is in hand and not recorded. -/
def Free (s : Renderer Document σ) (h : Holder) : Prop := ∀ a, h = .output a → s.activations.output a = []

theorem Free.touched (free : Free s h) (rising : homes.Rising) {positions : List Nat → Prop}
    (touches : Touches base (Within homes h positions) s t) : Free t h := by
  rintro a rfl
  exact (touches.output (Within.not_holder rising)).trans (free a rfl)

theorem Free.container (s : Renderer Document σ) (place : NodeId) (depth : Nat) :
    Free s (.container place depth) := nofun

theorem Free.not_mem (free : Free s h) (sits : Sits homes s) {x : Item} (home : homes x = some ⟨h, firm, path⟩)
    {a : ActivationId} : x ∉ itemsAll (s.activations.output a) := by
  intro member
  obtain ⟨_, _, _, home'⟩ := (sits.outputs a).home_of_mem member
  cases home.symm.trans home'
  rw [free a rfl] at member
  exact List.not_mem_nil member

/-- An entry was taken away: all else goes on showing what it does. -/
structure Removed (homes : Homes) (h : Holder) (positions : List Nat → Prop) (s t : Renderer Document σ) : Prop where
  houses : Houses homes t
  touches : ∀ base, Touches base (Within homes h positions) s t
  place : ∀ a, t.activations.place? a = s.activations.place? a

theorem Removed.trans {positions : List Nat → Prop} (one : Removed homes h positions s t)
    (two : Removed homes h positions t u) : Removed homes h positions s u where
  houses := two.houses
  touches base := (one.touches base).trans (two.touches base)
  place a := (two.place a).trans (one.place a)

theorem Removed.mono {positions positions' : List Nat → Prop} (one : Removed homes h positions s t)
    (more : ∀ p, positions p → positions' p) : Removed homes h positions' s t where
  houses := one.houses
  touches base := (one.touches base).weaken fun _ within => within.mono more
  place := one.place

theorem houses_removal (houses : Houses homes s) (free : Free s h) (seated : Seated homes h firm path i [m])
    (detached : Returns (detach place m) s () t) (unmounted : Returns (unmountEntry m) t () u) :
    Houses homes u ∧ ∃ K, Empties homes (· ∈ items m) K s u := by
  obtain ⟨K, empties⟩ := empties_removal houses.toSits (fun a member => by
    obtain ⟨_, _, _, home⟩ := seated.home_of_mem_items member
    rw [home]
    rfl) detached unmounted
  refine ⟨houses.emptied empties fun {n a} top member => ?_, K, empties⟩
  obtain ⟨_, _, _, home⟩ := seated.home_of_mem_items top
  exact absurd member (free.not_mem houses.toSits home)

theorem Empties.at (empties : Empties homes (· ∈ items m) K s t) (seated : Seated homes h firm path i [m]) :
    ∀ x, Emptied homes (· ∈ items m) K x → Within homes h (At path i) x := by
  refine empties.within fun r member => ?_
  obtain ⟨firm', p, here, home⟩ := seated.home_of_mem_items member
  exact .of_home home here

theorem removed_of_detach (houses : Houses homes s) (free : Free s h) (seated : Seated homes h firm path i [m])
    (detached : Returns (detach place m) s () t) (unmounted : Returns (unmountEntry m) t () u) :
    Removed homes h (At path i) s u := by
  obtain ⟨houses', K, empties⟩ := houses_removal houses free seated detached unmounted
  exact ⟨houses', fun base => (empties.touches base).weaken (empties.at seated), empties.place⟩

/-- Where nothing was touched that is recorded or shown, everything is shown as before. -/
theorem Houses.calm (houses : Houses homes s) (touches : Touches s.dom.issued (fun _ => False) s t) :
    Houses homes t :=
  ⟨houses.toSits.calm touches, fun a => (houses.shows a).frame houses.toSits (.refl homes) (touches.face a id)
    touches.voids (fun n member => touches.remains n (houses.old (houses.outputs a) member) id)
    fun _ _ => touches.place? id⟩

theorem Houses.noting (houses : Houses homes s) (r : Report) : Houses homes (s.noting r) :=
  houses.calm (touches_report r)

theorem removed_removeEntries (houses : Houses homes s) (free : Free s h) (seated : Seated homes h firm path i ms)
    (returned : Returns (removeEntries place ms) s () t) : Removed homes h (From path i) s t := by
  induction ms generalizing s i with
  | nil =>
      obtain ⟨-, rfl⟩ := returns_pure.mp returned
      exact ⟨houses, fun _ => .refl s, fun _ => rfl⟩
  | cons m rest ih =>
      obtain ⟨_, _, got, later⟩ := returns_bind.mp returned
      obtain ⟨rfl, rfl⟩ := returns_get.mp got
      obtain ⟨_, _, told, later⟩ := returns_bind.mp later
      obtain rfl := returns_report.mp told
      obtain ⟨_, u, detached, later⟩ := returns_bind.mp later
      obtain ⟨_, v, unmounted, others⟩ := returns_bind.mp later
      have one := removed_of_detach (houses.noting _) free seated.head detached unmounted
      have first : Removed homes h (At path i) s v :=
        ⟨one.houses, fun base => .of_reports (one.touches base), one.place⟩
      have two := ih first.houses (free.touched houses.rising (first.touches 0)) seated.tail others
      exact (first.mono fun _ => At.from).trans (two.mono fun _ => From.of_succ)

theorem removed_unmountEntries (houses : Houses homes s) (free : Free s h) (seated : Seated homes h firm path i ms)
    (returned : Returns (unmountEntries place ms) s () t) : Removed homes h (From path i) s t := by
  induction ms generalizing s i with
  | nil =>
      obtain ⟨-, rfl⟩ := returns_pure.mp returned
      exact ⟨houses, fun _ => .refl s, fun _ => rfl⟩
  | cons m rest ih =>
      obtain ⟨_, u, detached, later⟩ := returns_bind.mp returned
      obtain ⟨_, v, unmounted, others⟩ := returns_bind.mp later
      have first := removed_of_detach houses free seated.head detached unmounted
      have two := ih first.houses (free.touched houses.rising (first.touches 0)) seated.tail others
      exact (first.mono fun _ => At.from).trans (two.mono fun _ => From.of_succ)

end Lists

end Renderer
end Patchwork
