import Patchwork.Proofs.EntryUnmounting
import Patchwork.Proofs.RoleEffects

/-! Building entries. What is built is new, apart from the activations that the plans name: they are placed and
given their outputs. It hangs nowhere until it is inserted as a whole. -/
namespace Patchwork

open Mounted (items itemsAll)

/-- A new node waits for its place, or is `hung` there already. -/
def Document.Poised (d : Document) (hung firm : Bool) (place n : NodeId) : Prop :=
  match hung with
  | true => d.Hung firm place n
  | false => (firm = true → place.index < n.index) ∧ d.parent? n = none

namespace Renderer

variable {σ : Type} {δ : StateData} [HasStateData σ δ] {s t u : Renderer Document σ} {base low : Nat}
  {homes homes' : Homes} {h : Holder}
  {firm hung : Bool} {path : List Nat} {i levels : Nat} {place n : NodeId} {m : Mounted} {ms : List Mounted}
  {plan : Plan} {plans : List Plan} {flat : Flat} {flats : List Flat}

section Making

theorem touches_create {content : Content} {reports : List Report} {T : Item → Prop} :
    Touches s.dom.issued T s { s with dom := (s.dom.create content).2, reports } := by
  refine .of_dom ⟨?_, fun k old nothing => ?_⟩ fun k old _ => ?_
  · exact Nat.le_of_lt (Document.issued_create s.dom content ▸ Nat.lt_succ_self _)
  all_goals
    have other : k ≠ ⟨s.dom.issued + 1⟩ := fun same => by
      rw [same] at old
      exact Nat.not_succ_le_self _ old
    have same : (s.dom.create content).2.node? k = s.dom.node? k :=
      (Document.node?_create s.dom content k).trans (if_neg other)
  · change Document.element? _ k = none
    rw [Document.element?, same]
    exact nothing
  · change Document.worn? _ k = _ ∧ Document.parent? _ k = _
    rw [Document.worn?, Document.parent?, same]
    exact ⟨rfl, rfl⟩

/-- A node was made that hangs nowhere. -/
structure Makes (s : Renderer Document σ) (n : NodeId) (role : Role) (t : Renderer Document σ) : Prop where
  number : n.index = s.dom.issued + 1
  issued : t.dom.issued = s.dom.issued + 1
  touches : ∀ T, Touches s.dom.issued T s t
  orphan : t.dom.parent? n = none
  plays : t.canvas.Plays n role

theorem parent?_create (d : Document) (content : Content) :
    (d.create content).2.parent? ⟨d.issued + 1⟩ = none := by
  rw [Document.parent?, Document.node?_create, if_pos rfl]
  rfl

theorem makes_text {content : String} (unbound : ∀ n : NodeId, s.dom.issued < n.index → s.binder[n]? = none)
    (returned : Returns (makeNode (Layer.createText · content)) s n t) : Makes s n .text t := by
  obtain ⟨rfl, rfl⟩ := returns_makeNode.mp returned
  have staged : Canvas.Staged [] s.canvas := ⟨unbound, List.forall_mem_nil _, .nil⟩
  have drawn := Canvas.restages_text staged content
  exact ⟨rfl, Document.issued_create .., fun _ => touches_create, parent?_create ..,
    drawn.after.plays _ (List.mem_singleton_self _)⟩

theorem makes_element {tag : String} (unbound : ∀ n : NodeId, s.dom.issued < n.index → s.binder[n]? = none)
    (returned : Returns (makeNode (Layer.createElement · tag)) s n t) : Makes s n (.blank tag) t := by
  obtain ⟨rfl, rfl⟩ := returns_makeNode.mp returned
  have staged : Canvas.Staged [] s.canvas := ⟨unbound, List.forall_mem_nil _, .nil⟩
  have drawn := Canvas.restages_blank staged tag
  exact ⟨rfl, Document.issued_create .., fun _ => touches_create, parent?_create ..,
    drawn.after.plays _ (List.mem_singleton_self _)⟩

theorem Makes.new (makes : Makes s n role t) (sits : Sits homes s) : homes (.node n) = none :=
  sits.homeless (by rw [makes.number]; exact Nat.lt_succ_self _)

theorem Makes.sits (makes : Makes s n role t) (sits : Sits homes s) (home : Home) :
    Sits (homes.give (.node n) home) t := by
  refine (sits.calm (makes.touches _)).give (makes.new sits) ?_ home
  rw [makes.number, makes.issued]

theorem plays_dress {role : Role} {tag : String} {attributes : Attributes} {e : Element} {old : Attributes}
    (unbound : ∀ n : NodeId, s.dom.issued < n.index → s.binder[n]? = none) (plays : s.canvas.Plays n role)
    (found : s.dom.element? n = some e) (wears : Binder.Wears tag old e (s.binder[n]?.getD .empty))
    (returned : Returns (applyAttributes n tag attributes) s () t) : t.canvas.Plays n (.element tag attributes) := by
  obtain rfl := returns_modify.mp returned
  have staged : Canvas.Staged [(n, role)] s.canvas :=
    ⟨unbound, List.forall_mem_singleton.mpr plays, List.nodup_singleton n⟩
  have dressed := Canvas.restages_dress staged found wears attributes
  exact (dressed.after.plays _ (List.mem_singleton_self _)).congr ⟨rfl, rfl⟩

end Making

/-- Entries that were built of plans, with all that is inside them. -/
inductive Built (low : Nat) (s : Renderer Document σ) :
    (firm : Bool) → (place : NodeId) → (hung : Bool) → List Mounted → List Plan → Prop
  | nil {firm : Bool} {place : NodeId} {hung : Bool} : Built low s firm place hung [] []
  | text {firm : Bool} {place n : NodeId} {hung : Bool} {content : String} {reuse : Bool} {rest : List Mounted}
      {plans : List Plan} : s.canvas.Plays n .text → low < n.index → s.dom.Poised hung firm place n →
      Built low s firm place hung rest plans →
      Built low s firm place hung (.text n :: rest) (.text content reuse :: plans)
  | blank {firm : Bool} {place n : NodeId} {hung : Bool} {raw : RawNode} {reuse : Bool} {rest : List Mounted}
      {plans : List Plan} : s.canvas.Plays n .text → low < n.index → s.dom.Poised hung firm place n →
      Built low s firm place hung rest plans →
      Built low s firm place hung (.text n :: rest) (.raw raw reuse :: plans)
  | element {firm : Bool} {place n : NodeId} {hung : Bool} {tag : String} {attributes : Attributes}
      {children rest : List Mounted} {inner plans : List Plan} {reuse : Bool} :
      s.canvas.Plays n (.element tag attributes) → low < n.index → s.dom.Poised hung firm place n →
      Built low s true n true children inner → Built low s firm place hung rest plans →
      Built low s firm place hung (.element n tag children :: rest) (.element tag attributes inner reuse :: plans)
  | component {firm : Bool} {place : NodeId} {hung : Bool} {a : ActivationId} {r : Activation} {fresh : Bool}
      {component : Component} {props : Props} {tree : Tree} {output plans : List Plan} {rest : List Mounted} :
      s.activations.find? a = some r → r.parent = some place → r.committed = some tree →
      Built low s firm place hung r.output output → Built low s firm place hung rest plans →
      Built low s firm place hung (.component a :: rest) (.component a fresh component props tree output :: plans)

theorem element_of_plays {tag : String} {attributes : Attributes}
    (plays : s.canvas.Plays n (.element tag attributes)) : s.dom.element? n ≠ none := by
  obtain ⟨e, b, found, -, -⟩ := plays
  change s.dom.element? n = some e at found
  rw [found]
  exact nofun

namespace Built

theorem cons (first : Built low s firm place hung [m] [plan]) (others : Built low s firm place hung ms plans) :
    Built low s firm place hung (m :: ms) (plan :: plans) := by
  cases first with
  | text plays new poised _ => exact .text plays new poised others
  | blank plays new poised _ => exact .blank plays new poised others
  | element plays new poised inner _ => exact .element plays new poised inner others
  | component found placed committed inner _ => exact .component found placed committed inner others

theorem mono {low' : Nat} (built : Built low s firm place hung ms plans) (earlier : low' ≤ low) :
    Built low' s firm place hung ms plans := by
  induction built with
  | nil => exact .nil
  | text plays new poised _ ih => exact .text plays (Nat.lt_of_le_of_lt earlier new) poised ih
  | blank plays new poised _ ih => exact .blank plays (Nat.lt_of_le_of_lt earlier new) poised ih
  | element plays new poised _ _ inner ih =>
      exact .element plays (Nat.lt_of_le_of_lt earlier new) poised inner ih
  | component found placed committed _ _ inner ih => exact .component found placed committed inner ih

theorem poised_of_remains (poised : s.dom.Poised hung firm place n) (parent : t.dom.parent? n = s.dom.parent? n)
    (voids : Voids s t) (there : n.index ≤ s.dom.issued) : t.dom.Poised hung firm place n := by
  cases hung with
  | true => exact hung_of_remains poised parent voids there
  | false => exact ⟨poised.1, parent.trans poised.2⟩

/-- What was built stays as it is while other things are touched. -/
theorem frame (built : Built low s firm place hung ms plans) (voids : Voids s t)
    (remains : ∀ n : NodeId, low < n.index → n.index ≤ s.dom.issued → Remains s t n)
    (faces : ∀ a ∈ Plan.activationsAll plans, t.activations.face? a = s.activations.face? a) :
    Built low t firm place hung ms plans := by
  induction built with
  | nil => exact .nil
  | text plays new poised _ ih =>
      have own := remains _ new plays.index_le
      exact .text (plays.congr own.untouched) new (poised_of_remains poised own.parent voids plays.index_le) (ih faces)
  | blank plays new poised _ ih =>
      have own := remains _ new plays.index_le
      exact .blank (plays.congr own.untouched) new (poised_of_remains poised own.parent voids plays.index_le) (ih faces)
  | element plays new poised _ _ inner ih =>
      have own := remains _ new plays.index_le
      refine .element (plays.congr own.untouched) new (poised_of_remains poised own.parent voids plays.index_le) ?_ ?_
      · exact inner fun a member => faces a (List.mem_append_left _ member)
      · exact ih fun a member => faces a (List.mem_append_right _ member)
  | component found placed committed _ _ inner ih =>
      obtain ⟨r', found', parent, output, tree⟩ :=
        Activations.find?_of_face (faces _ (List.mem_cons_self ..)).symm found
      refine .component found' (parent.trans placed) (tree.trans committed) ?_ ?_
      · rw [output]
        exact inner fun a member => faces a (List.mem_cons_of_mem _ (List.mem_append_left _ member))
      · exact ih fun a member => faces a (List.mem_cons_of_mem _ (List.mem_append_right _ member))

theorem kept {ns : List NodeId} (built : Built low s firm place hung ms plans) (firmly : firm = true)
    (settled : hung = true) (live : s.dom.element? place ≠ none) (displaces : Displaces ns s t)
    (orphans : ∀ n ∈ ns, s.dom.parent? n = none) : Built low t firm place hung ms plans := by
  have remains {firm : Bool} {place n : NodeId} (firmly : firm = true) (live : s.dom.element? place ≠ none)
      (poised : s.dom.Poised true firm place n) : Remains s t n := by
    have parent := poised.2.resolve_right fun ⟨_, nowhere⟩ => live (nowhere firmly)
    exact displaces.remains fun member => by cases parent.symm.trans (orphans n member)
  induction built with
  | nil => exact .nil
  | text plays new poised _ ih =>
      subst settled
      have own := remains firmly live poised
      exact .text (plays.congr own.untouched) new (poised_of_remains poised own.parent displaces.voids plays.index_le)
        (ih firmly rfl live)
  | blank plays new poised _ ih =>
      subst settled
      have own := remains firmly live poised
      exact .blank (plays.congr own.untouched) new (poised_of_remains poised own.parent displaces.voids plays.index_le)
        (ih firmly rfl live)
  | element plays new poised _ _ inner ih =>
      subst settled
      have own := remains firmly live poised
      exact .element (plays.congr own.untouched) new
        (poised_of_remains poised own.parent displaces.voids plays.index_le)
        (inner rfl rfl (element_of_plays plays)) (ih firmly rfl live)
  | component found placed committed _ _ inner ih =>
      exact .component (displaces.activations ▸ found) placed committed (inner firmly settled live)
        (ih firmly settled live)

theorem orphan (built : Built low s firm place hung ms plans) (waits : hung = false) {levels : Nat}
    (entry : m ∈ ms) (member : n ∈ m.nodesWithin s.activations levels) :
    low < n.index ∧ s.dom.contains n = true ∧ s.dom.parent? n = none := by
  induction built generalizing m levels with
  | nil => cases entry
  | text plays new poised _ ih | blank plays new poised _ ih | element plays new poised _ _ _ ih =>
      rcases List.mem_cons.mp entry with rfl | later
      · subst waits
        obtain rfl := List.mem_singleton.mp (Mounted.nodesWithin.eq_def .. ▸ member)
        exact ⟨new, plays.contains, poised.2⟩
      · exact ih waits later member
  | component found _ _ _ _ inner ih =>
      rcases List.mem_cons.mp entry with rfl | later
      · cases levels with
        | zero => cases member
        | succ levels =>
            obtain ⟨m, recorded, deeper⟩ := List.mem_flatMap.mp member
            rw [Activations.output_eq found] at recorded
            exact inner waits recorded deeper
      · exact ih waits later member

/-- What waits hangs in its place once all nodes of its entries were put there. -/
theorem put {ns : List NodeId} (built : Built low s firm place hung ms plans) (waits : hung = false)
    (sits : Sits homes s) (deep : ∀ a, .activation a ∈ itemsAll ms → Deep s levels a) (displaces : Displaces ns s t)
    (orphans : ∀ n ∈ ns, s.dom.parent? n = none)
    (all : ∀ m ∈ ms, ∀ n ∈ m.nodesWithin s.activations levels,
      t.dom.parent? n = some place ∨ t.dom.parent? n = none ∧ t.dom.element? place = none) :
    Built low t firm place true ms plans := by
  induction built generalizing levels with
  | nil => exact .nil
  | text plays new poised _ ih =>
      subst waits
      have own := all _ (List.mem_cons_self ..) _ (by cases levels <;> exact List.mem_singleton_self _)
      refine .text (displaces.plays plays) new ⟨poised.1, own.imp_right fun hung => ⟨hung.1, fun _ => hung.2⟩⟩ ?_
      exact ih rfl (fun a member => deep a (List.mem_cons_of_mem _ member)) fun m entry =>
        all m (List.mem_cons_of_mem _ entry)
  | blank plays new poised _ ih =>
      subst waits
      have own := all _ (List.mem_cons_self ..) _ (by cases levels <;> exact List.mem_singleton_self _)
      refine .blank (displaces.plays plays) new ⟨poised.1, own.imp_right fun hung => ⟨hung.1, fun _ => hung.2⟩⟩ ?_
      exact ih rfl (fun a member => deep a (List.mem_cons_of_mem _ member)) fun m entry =>
        all m (List.mem_cons_of_mem _ entry)
  | element plays new poised inner _ _ ih =>
      subst waits
      have own := all _ (List.mem_cons_self ..) _ (by cases levels <;> exact List.mem_singleton_self _)
      refine .element (displaces.plays plays) new ⟨poised.1, own.imp_right fun hung => ⟨hung.1, fun _ => hung.2⟩⟩ ?_ ?_
      · exact inner.kept rfl rfl (element_of_plays plays) displaces orphans
      · exact ih rfl (fun a member => deep a (List.mem_append_right _ member)) fun m entry =>
          all m (List.mem_cons_of_mem _ entry)
  | @component firm place hung a r _ _ _ _ _ _ _ found placed committed _ _ inner ih =>
      subst waits
      have own := deep a (List.mem_cons_self ..)
      refine .component (displaces.activations ▸ found) placed committed ?_ ?_
      · cases levels with
        | zero =>
            have known := Activations.index_le_issued found
            have fuel := own.2
            omega
        | succ levels =>
            have output := Activations.output_eq found
            have within : ∀ b, .activation b ∈ itemsAll r.output → Deep s levels b := fun b member =>
              sits.deep_of_mem own (output ▸ member)
            refine inner rfl within fun m entry n member => ?_
            exact all _ (List.mem_cons_self ..) n (List.mem_flatMap.mpr ⟨m, output ▸ entry, member⟩)
      · exact ih rfl (fun b member => deep b (List.mem_cons_of_mem _ member)) fun m entry =>
          all m (List.mem_cons_of_mem _ entry)

end Built

theorem Built.insert {before : Option NodeId} (built : Built low s firm place false [m] [plan]) (sits : Sits homes s)
    (known : ∀ a, .activation a ∈ items m → (homes (.activation a)).isSome = true)
    (returned : Returns (insert place m before) s () t) :
    Built low t firm place true [m] [plan] ∧ ∃ ns, Displaces ns s t ∧ ∀ n ∈ ns, low < n.index := by
  obtain ⟨_, _, got, put⟩ := returns_bind.mp returned
  obtain ⟨rfl, rfl⟩ := returns_get.mp got
  have displaces := displaces_insertAll _ put
  have orphans {n : NodeId} (member : n ∈ m.nodes s.activations) :=
    built.orphan rfl (List.mem_singleton_self m) member
  refine ⟨?_, _, displaces, fun n member => (orphans member).1⟩
  have deep (a : ActivationId) (member : .activation a ∈ itemsAll [m]) : Deep s s.activations.depth a := by
    rw [itemsAll, itemsAll, List.append_nil] at member
    exact sits.deep (known a member)
  refine built.put rfl sits deep displaces (fun n member => (orphans member).2.2) fun entry alone n member => ?_
  obtain rfl := List.mem_singleton.mp alone
  obtain ⟨-, there, nowhere⟩ := orphans member
  exact hung_insertAll _ put there (.inr nowhere) (.inl member)

/-- An activation was given its output and the tree that the output shows. -/
structure Settles (a : ActivationId) (output : List Mounted) (tree : Tree) (s t : Renderer Document σ) : Prop where
  touches : ∀ base, Touches base (· = .activation a) s t
  place : ∀ b, t.activations.place? b = s.activations.place? b
  found : ∀ {r}, s.activations.find? a = some r → ∃ r', t.activations.find? a = some r' ∧ r'.parent = r.parent ∧
    r'.output = output ∧ r'.committed = some tree

theorem settles_of_update {a : ActivationId} {output : List Mounted} {tree : Tree} {f : Activation → Activation}
    (set : Returns (setOutput a output) s () t) (parent : ∀ r, (f r).parent = r.parent)
    (shown : ∀ r, (f r).output = r.output) (committed : ∀ r, (f r).committed = some tree) :
    Settles a output tree s { t with activations := t.activations.update a f } := by
  obtain rfl := eq_of_setOutput set
  refine ⟨fun base => (touches_giving base s a output).trans (.update a f (.inl rfl)), fun b => ?_, fun {r} found => ?_⟩
  · exact (Activations.place?_update _ _ fun _ => parent).trans (place?_giving s a output b)
  · refine ⟨f { r with output }, ?_, parent _, shown _, committed _⟩
    rw [giving, Activations.find?_update_self, Activations.find?_update_self, found]
    rfl

theorem Settles.sits {a : ActivationId} {output : List Mounted} {tree : Tree} (settles : Settles a output tree s t)
    (sits : Sits homes s) (seated : Seated homes (.output a) (homes.firm a) [] 0 output) : Sits homes t := by
  refine sits.touched (settles.touches 0) (fun b same => ?_) fun {b place} _ placed firm => ?_
  · cases same
    cases found : s.activations.find? a with
    | none =>
        have gone := (settles.touches 0).there a
        rw [found, Option.isSome_none, Option.isSome_eq_false_iff, Option.isNone_iff_eq_none] at gone
        rw [Activations.output, gone]
        exact .nil
    | some r =>
        obtain ⟨r', found', -, shown, -⟩ := settles.found found
        rw [Activations.output_eq found', shown]
        exact seated
  · rw [settles.place] at placed
    exact Nat.le_trans (sits.grounded placed firm) (settles.touches 0).voids.1

def Named (plans : List Plan) (x : Item) : Prop := ∃ a ∈ Plan.activationsAll plans, x = .activation a

/-- Entries were made of plans, and found homes. -/
structure Raises (homes homes' : Homes) (h : Holder) (firm : Bool) (path : List Nat) (i : Nat) (place : NodeId)
    (hung : Bool) (plans : List Plan) (s : Renderer Document σ) (ms : List Mounted) (t : Renderer Document σ) :
    Prop where
  extended : homes.Extends homes'
  sits : Sits homes' t
  touches : Touches s.dom.issued (Named plans) s t
  seated : Seated homes' h firm path i ms
  built : Built s.dom.issued t firm place hung ms plans

namespace Raises

theorem cons {homes'' : Homes} (one : Raises homes homes' h firm path i place hung [plan] s [m] t)
    (two : Raises homes' homes'' h firm path (i + 1) place hung plans t ms u)
    (distinct : ∀ a ∈ plan.activations, a ∉ Plan.activationsAll plans) :
    Raises homes homes'' h firm path i place hung (plan :: plans) s (m :: ms) u where
  extended := one.extended.trans two.extended
  sits := two.sits
  touches := by
    refine (one.touches.weaken ?_).trans ((two.touches.since one.touches.voids.1).weaken ?_)
    · rintro x ⟨a, member, rfl⟩
      rw [Plan.activationsAll, Plan.activationsAll, List.append_nil] at member
      exact ⟨a, List.mem_append_left _ member, rfl⟩
    · rintro x ⟨a, member, rfl⟩
      exact ⟨a, List.mem_append_right _ member, rfl⟩
  seated := (one.seated.extend two.extended).cons two.seated
  built := by
    refine (one.built.frame two.touches.voids (fun n _ old => ?_) fun a member => ?_).cons
      (two.built.mono one.touches.voids.1)
    · exact two.touches.remains n old nofun
    · rw [Plan.activationsAll, Plan.activationsAll, List.append_nil] at member
      refine two.touches.face a ?_
      rintro ⟨b, again, same⟩
      cases same
      exact distinct a member again

theorem insert {before : Option NodeId} (one : Raises homes homes' h firm path i place false [plan] s [m] t)
    (returned : Returns (insert place m before) t () u) :
    Raises homes homes' h firm path i place true [plan] s [m] u := by
  obtain ⟨built, ns, displaces, new⟩ := one.built.insert one.sits (fun a member => by
    obtain ⟨_, _, _, home⟩ := one.seated.home_of_mem_items member
    rw [home]
    rfl) returned
  have touches (T : Item → Prop) : Touches s.dom.issued T t u :=
    displaces.touches fun n member old => absurd (new n member) (Nat.not_lt_of_le old)
  exact ⟨one.extended, one.sits.calm (touches _), one.touches.trans (touches _), one.seated, built⟩

end Raises

section Building

theorem Makes.raises (makes : Makes s n .text t) (sits : Sits homes s)
    (firmly : firm = true → place.index ≤ s.dom.issued)
    (built : t.canvas.Plays n .text → s.dom.issued < n.index → t.dom.Poised false firm place n →
      Built s.dom.issued t firm place false [.text n] [plan]) :
    Raises homes (homes.give (.node n) ⟨h, firm, i :: path⟩) h firm path i place false [plan] s [.text n] t where
  extended := Homes.extends_give (makes.new sits) _
  sits := makes.sits sits _
  touches := makes.touches _
  seated := .text (homes.give_self ..) .nil
  built := by
    have new : s.dom.issued < n.index := makes.number ▸ Nat.lt_succ_self _
    exact built makes.plays new ⟨fun within => Nat.lt_of_le_of_lt (firmly within) new, makes.orphan⟩

theorem Raises.of_reports {r : Report} (one : Raises homes homes' h firm path i place hung plans (s.noting r) ms t) :
    Raises homes homes' h firm path i place hung plans s ms t :=
  ⟨one.extended, one.sits, .of_reports one.touches, one.seated, one.built⟩

theorem parent?_dress {tag : String} {attributes : Attributes}
    (returned : Returns (applyAttributes n tag attributes) s () t) (k : NodeId) :
    t.dom.parent? k = s.dom.parent? k := by
  obtain rfl := returns_modify.mp returned
  exact (Binder.alters_apply s.binder s.dom tag attributes).parent k

theorem raises_element {tag : String} {attributes : Attributes} {children : List Plan}
    {reuse : Bool} {entries : List Mounted} {v : Renderer Document σ} (makes : Makes s n (.blank tag) t)
    (sits : Sits homes s) (firmly : firm = true → place.index ≤ s.dom.issued)
    (filled : Raises (homes.give (.node n) ⟨h, firm, i :: path⟩) homes' h true (i :: path) 0 n true children t
      entries u) (dressed : Returns (applyAttributes n tag attributes) u () v) :
    Raises homes homes' h firm path i place false [.element tag attributes children reuse] s
      [.element n tag entries] v := by
  have new : s.dom.issued < n.index := makes.number ▸ Nat.lt_succ_self _
  have old : n.index ≤ t.dom.issued := Nat.le_of_eq (makes.number.trans makes.issued.symm)
  have remains := filled.touches.remains n old nofun
  have there : n.index ≤ u.dom.issued := Nat.le_trans old filled.touches.voids.1
  have touches (base : Nat) : Touches base (· = .node n) u v := touches_dress n tag attributes rfl there dressed
  have plays : v.canvas.Plays n (.element tag attributes) := by
    have blank := makes.plays.congr remains.untouched
    have ⟨⟨e, found, wears⟩, unbound⟩ := blank
    change u.binder[n]? = none at unbound
    exact plays_dress filled.sits.unbound blank found (by rw [unbound]; exact wears) dressed
  refine ⟨(Homes.extends_give (makes.new sits) _).trans filled.extended, ?_, ?_, ?_, ?_⟩
  · exact filled.sits.touched (touches 0) (fun _ => nofun) fun {_ _} => nofun
  · refine (makes.touches _).trans (.trans ((filled.touches.since ?_).weaken ?_) ((touches _).mono ?_ (fun _ => nofun)))
    · exact (makes.touches fun _ => False).voids.1
    · rintro x ⟨a, member, rfl⟩
      refine ⟨a, ?_, rfl⟩
      rw [Plan.activationsAll, Plan.activationsAll, List.append_nil]
      exact member
    · intro k before same
      cases same
      exact absurd new (Nat.not_lt_of_le before)
  · exact .element (filled.extended _ _ (homes.give_self ..)) filled.seated .nil
  · refine .element plays new ⟨fun within => Nat.lt_of_le_of_lt (firmly within) new, ?_⟩ ?_ .nil
    · exact (parent?_dress dressed n).trans (remains.parent.trans makes.orphan)
    · have inside := filled.built.frame (touches t.dom.issued).voids (fun k late _ => ?_) fun a _ => ?_
      · exact inside.mono (Nat.le_of_lt (makes.issued ▸ Nat.lt_succ_self _))
      · refine (touches u.dom.issued).remains k (by assumption) fun same => ?_
        cases same
        exact Nat.not_lt_of_le old late
      · exact (touches 0).face a nofun

theorem raises_component {a : ActivationId} {fresh : Bool} {component : Component} {props : Props} {tree : Tree}
    {output : List Plan} {entries : List Mounted} (sits : Sits homes s)
    (home : homes (.activation a) = some ⟨h, firm, i :: path⟩)
    (laid : Laid homes (.output a) firm [] 0 output flats)
    (filled : Raises homes homes' (.output a) firm [] 0 place false output
      { s with activations := s.activations.update a ({ · with parent := some place }) } entries t)
    (settles : Settles a entries tree t u) :
    Raises homes homes' h firm path i place false [.component a fresh component props tree output] s
      [.component a] u := by
  have placed (base : Nat) : Touches base (· = .activation a) s
      { s with activations := s.activations.update a ({ · with parent := some place }) } := .update a _ (.inl rfl)
  have firm_eq : homes'.firm a = firm := Homes.firm_eq (filled.extended _ _ home)
  have apart {b : ActivationId} (member : b ∈ Plan.activationsAll output) : b ≠ a := by
    rintro rfl
    exact Within.not_holder sits.rising (laid.within member)
  refine ⟨filled.extended, settles.sits filled.sits (firm_eq ▸ filled.seated), ?_,
    .component (filled.extended _ _ home) .nil, ?_⟩
  · refine ((placed _).weaken ?_).trans ((filled.touches.weaken ?_).trans ((settles.touches _).weaken ?_))
    · rintro x rfl
      exact ⟨a, List.mem_cons_self .., rfl⟩
    · rintro x ⟨b, member, rfl⟩
      exact ⟨b, List.mem_cons_of_mem _ (List.mem_append_left _ member), rfl⟩
    · rintro x rfl
      exact ⟨a, List.mem_cons_self .., rfl⟩
  · have known : (s.activations.find? a).isSome = true := by
      rw [← sits.activations, home]
      rfl
    obtain ⟨r, found⟩ := Option.isSome_iff_exists.mp known
    have begun : (s.activations.update a ({ · with parent := some place })).find? a =
        some { r with parent := some place } := by
      rw [Activations.find?_update_self, found]
      rfl
    have face := filled.touches.face a (by rintro ⟨b, member, same⟩; cases same; exact apart member rfl)
    obtain ⟨r₁, found₁, parent₁, -, -⟩ := Activations.find?_of_face face.symm begun
    obtain ⟨r₂, found₂, parent₂, output₂, tree₂⟩ := settles.found found₁
    refine .component found₂ (parent₂.trans parent₁) tree₂ ?_ .nil
    rw [output₂]
    refine filled.built.frame (settles.touches 0).voids (fun n _ _ => ?_) fun b member => ?_
    · exact (settles.touches n.index).remains n (Nat.le_refl _) nofun
    · exact (settles.touches 0).face b fun same => apart member (Item.activation.inj same)

theorem Sits.placing (sits : Sits homes s) {a : ActivationId}
    (firmly : homes.firm a = true → place.index ≤ s.dom.issued) :
    Sits homes { s with activations := s.activations.update a ({ · with parent := some place }) } := by
  have touches : Touches 0 (· = .activation a) s
      { s with activations := s.activations.update a ({ · with parent := some place }) } := .update a _ (.inl rfl)
  refine sits.touched touches (fun b _ => ?_) fun {b place'} same placed firm => ?_
  · have same : (s.activations.update a ({ · with parent := some place })).output b = s.activations.output b := by
      rw [Activations.output, Activations.output, Activations.find?_update]
      split
      · cases s.activations.find? b <;> rfl
      · rfl
    change Seated _ _ _ _ _ (Activations.output (Activations.update _ _ _) b)
    rw [same]
    exact sits.outputs b
  · cases same
    change Activations.place? (Activations.update _ _ _) a = _ at placed
    rw [Activations.place?, Activations.find?_update_self] at placed
    cases found : s.activations.find? a with
    | none => rw [found] at placed; cases placed
    | some r =>
        rw [found] at placed
        cases placed
        exact firmly firm

mutual

/-- What is built is new and at home, and it shows what was planned. -/
theorem raises_build : ∀ (plan : Plan) {homes : Homes} {s t : Renderer Document σ} {h : Holder} {firm : Bool}
    {path : List Nat} {i : Nat} {place : NodeId} {flat : Flat} {m : Mounted}, Sits homes s →
    Laid homes h firm path i [plan] [flat] → (firm = true → place.index ≤ s.dom.issued) →
    Returns (build place plan) s m t → ∃ homes', Raises homes homes' h firm path i place false [plan] s [m] t
  | .text content reuse, homes, s, t, h, firm, path, i, place, flat, m, sits, laid, firmly, returned => by
      rw [build] at returned
      obtain ⟨_, _, told, rest⟩ := returns_bind.mp returned
      obtain rfl := returns_report.mp told
      obtain ⟨n, u, made, ended⟩ := returns_bind.mp rest
      obtain ⟨rfl, rfl⟩ := returns_pure.mp ended
      have sits' := sits.noting (.creatingText (.of content))
      have raises : Raises homes _ h firm path i place false [.text content reuse] _ [.text n] u :=
        (makes_text sits'.unbound made).raises sits' firmly fun plays new poised => .text plays new poised .nil
      exact ⟨_, raises.of_reports⟩
  | .raw node reuse, homes, s, t, h, firm, path, i, place, flat, m, sits, laid, firmly, returned => by
      rw [build] at returned
      cases laid with
      | raw blank _ =>
      obtain ⟨adopted, u, found, rest⟩ := returns_bind.mp returned
      obtain ⟨rfl, rfl⟩ := returns_makeNode.mp found
      -- A raw node that wraps nothing is not adopted, and an empty text node is made instead.
      have nothing : (Layer.adopt s.dom node).1 = none := by
        change s.dom.adopt? node = none
        rw [Document.adopt?, blank]
        rfl
      rw [nothing] at rest
      obtain ⟨_, _, told, rest⟩ := returns_bind.mp rest
      obtain rfl := returns_report.mp told
      obtain ⟨n, u, made, ended⟩ := returns_bind.mp rest
      obtain ⟨rfl, rfl⟩ := returns_pure.mp ended
      have sits' := sits.noting .notAdopted
      have raises : Raises homes _ h firm path i place false [.raw node reuse] _ [.text n] u :=
        (makes_text sits'.unbound made).raises sits' firmly fun plays new poised => .blank plays new poised .nil
      exact ⟨_, raises.of_reports⟩
  | .element tag attributes children reuse, homes, s, t, h, firm, path, i, place, flat, m, sits, laid, firmly,
      returned => by
      rw [build] at returned
      obtain ⟨_, _, told, rest⟩ := returns_bind.mp returned
      obtain rfl := returns_report.mp told
      obtain ⟨n, u, made, rest⟩ := returns_bind.mp rest
      obtain ⟨entries, v, filled, rest⟩ := returns_bind.mp rest
      obtain ⟨_, w, dressed, ended⟩ := returns_bind.mp rest
      obtain ⟨rfl, rfl⟩ := returns_pure.mp ended
      cases laid with
      | element inner _ =>
      have sits' := sits.noting (.creatingElement tag)
      have makes := makes_element sits'.unbound made
      -- The element is at home before its children are built, so that they find their holder there.
      obtain ⟨homes', raises⟩ := raises_buildChildren children (makes.sits sits' ⟨h, firm, i :: path⟩)
        (inner.extend (Homes.extends_give (makes.new sits') _)) (Nat.le_of_eq (makes.number.trans makes.issued.symm))
        filled
      exact ⟨homes', (raises_element makes sits' firmly raises dressed).of_reports⟩
  | .component a fresh component props tree output, homes, s, t, h, firm, path, i, place, flat, m, sits, laid,
      firmly, returned => by
      rw [build] at returned
      cases laid with
      | component home inner _ =>
      obtain ⟨_, _, told, rest⟩ := returns_bind.mp returned
      obtain rfl := returns_report.mp told
      obtain ⟨_, _, placed, rest⟩ := returns_bind.mp rest
      obtain rfl := returns_updateActivation.mp placed
      obtain ⟨entries, u, filled, rest⟩ := returns_bind.mp rest
      obtain ⟨_, v, set, rest⟩ := returns_bind.mp rest
      obtain ⟨_, w, committed, ended⟩ := returns_bind.mp rest
      obtain rfl := returns_updateActivation.mp committed
      obtain ⟨rfl, rfl⟩ := returns_pure.mp ended
      have sits' := sits.noting (.placingActivation a)
      obtain ⟨homes', raises⟩ := raises_buildOutput output (sits'.placing (by rwa [Homes.firm_eq home])) inner firmly
        filled
      have settles := settles_of_update (f := ({ · with committed := some tree })) set (fun _ => rfl) (fun _ => rfl)
        fun _ => rfl
      exact ⟨homes', (raises_component sits' home inner raises settles).of_reports⟩

theorem raises_buildChildren : ∀ (plans : List Plan) {homes : Homes} {s t : Renderer Document σ} {h : Holder}
    {path : List Nat} {i : Nat} {node : NodeId} {flats : List Flat} {ms : List Mounted}, Sits homes s →
    Laid homes h true path i plans flats → node.index ≤ s.dom.issued → Returns (buildChildren node plans) s ms t →
    ∃ homes', Raises homes homes' h true path i node true plans s ms t
  | [], homes, s, t, h, path, i, node, flats, ms, sits, laid, there, returned => by
      rw [buildChildren] at returned
      obtain ⟨rfl, rfl⟩ := returns_pure.mp returned
      exact ⟨homes, .refl homes, sits, .refl s, .nil, .nil⟩
  | plan :: rest, homes, s, t, h, path, i, node, flats, ms, sits, laid, there, returned => by
      rw [buildChildren] at returned
      obtain ⟨m, u, built, later⟩ := returns_bind.mp returned
      obtain ⟨_, v, put, later⟩ := returns_bind.mp later
      obtain ⟨entries, w, others, ended⟩ := returns_bind.mp later
      obtain ⟨rfl, rfl⟩ := returns_pure.mp ended
      obtain ⟨flat, flats, rfl⟩ := laid.exists_cons
      obtain ⟨homes', one⟩ := raises_build plan sits laid.head (fun _ => there) built
      have one := one.insert put
      obtain ⟨homes'', two⟩ := raises_buildChildren rest one.sits (laid.tail.extend one.extended)
        (Nat.le_trans there one.touches.voids.1) others
      exact ⟨homes'', one.cons two fun a => laid.distinct sits.rising⟩

theorem raises_buildOutput : ∀ (plans : List Plan) {homes : Homes} {s t : Renderer Document σ} {h : Holder}
    {firm : Bool} {path : List Nat} {i : Nat} {place : NodeId} {flats : List Flat} {ms : List Mounted}, Sits homes s →
    Laid homes h firm path i plans flats → (firm = true → place.index ≤ s.dom.issued) →
    Returns (buildOutput place plans) s ms t → ∃ homes', Raises homes homes' h firm path i place false plans s ms t
  | [], homes, s, t, h, firm, path, i, place, flats, ms, sits, laid, firmly, returned => by
      rw [buildOutput] at returned
      obtain ⟨rfl, rfl⟩ := returns_pure.mp returned
      exact ⟨homes, .refl homes, sits, .refl s, .nil, .nil⟩
  | plan :: rest, homes, s, t, h, firm, path, i, place, flats, ms, sits, laid, firmly, returned => by
      rw [buildOutput] at returned
      obtain ⟨m, u, built, later⟩ := returns_bind.mp returned
      obtain ⟨entries, w, others, ended⟩ := returns_bind.mp later
      obtain ⟨rfl, rfl⟩ := returns_pure.mp ended
      obtain ⟨flat, flats, rfl⟩ := laid.exists_cons
      obtain ⟨homes', one⟩ := raises_build plan sits laid.head firmly built
      obtain ⟨homes'', two⟩ := raises_buildOutput rest one.sits (laid.tail.extend one.extended)
        (fun within => Nat.le_trans (firmly within) one.touches.voids.1) others
      exact ⟨homes'', one.cons two fun a => laid.distinct sits.rising⟩

end

end Building

end Renderer
end Patchwork
