import Patchwork.Proofs.EntryBuilding
import Patchwork.Proofs.PicturePatching

/-! Carrying out plans on entries. Whatever the entries show and however the plans came about, what stands there
afterwards shows what was planned; and nothing is touched but what is at home at the positions that are worked
on. -/
namespace Patchwork

open Mounted (items itemsAll)

namespace Renderer

variable {σ : Type} {δ : StateData} [HasStateData σ δ] {s t u v : Renderer Document σ} {base low : Nat}
  {homes homes' : Homes} {h : Holder}
  {firm hung : Bool} {path : List Nat} {i levels : Nat} {place n : NodeId} {m : Mounted} {ms : List Mounted}
  {plan : Plan} {plans : List Plan} {flat : Flat} {flats : List Flat} {a : ActivationId}

theorem Built.hangs (built : Built low s firm place hung ms plans) (settled : hung = true)
    (laid : Laid homes h firm path i plans flats) :
    Hangs s firm place ms flats ∧ ∀ a ∈ Plan.activationsAll plans, Shows homes s a := by
  induction built generalizing h path i flats with
  | nil =>
      cases laid
      exact ⟨.nil, List.forall_mem_nil _⟩
  | text plays _ poised _ ih =>
      subst settled
      cases laid with
      | text laid =>
      obtain ⟨later, shows⟩ := ih rfl laid
      exact ⟨.text plays poised later, shows⟩
  | blank plays _ poised _ ih =>
      subst settled
      cases laid with
      | raw _ laid =>
      obtain ⟨later, shows⟩ := ih rfl laid
      exact ⟨.blank plays poised later, shows⟩
  | element plays _ poised _ _ inner ih =>
      subst settled
      cases laid with
      | element deeper laid =>
      obtain ⟨within, shows⟩ := inner rfl deeper
      obtain ⟨later, shows'⟩ := ih rfl laid
      exact ⟨.element plays poised within later, List.forall_mem_append.mpr ⟨shows, shows'⟩⟩
  | @component firm place _ a r _ _ _ _ _ _ _ found placed committed _ _ inner ih =>
      cases laid with
      | component home deeper laid =>
      obtain ⟨within, shows⟩ := inner settled deeper
      obtain ⟨later, shows'⟩ := ih settled laid
      refine ⟨.component ((Activations.place?_eq found).trans placed) later, ?_⟩
      refine List.forall_mem_append.mpr ⟨List.forall_mem_cons.mpr ⟨fun r' found' _ => ?_, shows⟩, shows'⟩
      cases found.symm.trans found'
      refine ⟨place, _, placed, committed, ?_⟩
      rwa [Homes.firm_eq home]

theorem Built.new (built : Built low s firm place hung ms plans) (member : .node n ∈ itemsAll ms) : low < n.index := by
  induction built with
  | nil => cases member
  | text _ new _ _ ih | blank _ new _ _ ih =>
      rcases List.mem_cons.mp member with same | later
      · cases same
        exact new
      · exact ih later
  | element _ new _ _ _ inner ih =>
      rcases List.mem_append.mp member with own | later
      · rcases List.mem_cons.mp own with same | deeper
        · cases same
          exact new
        · exact inner deeper
      · exact ih later
  | component _ _ _ _ _ _ ih =>
      rcases List.mem_cons.mp member with same | later
      · cases same
      · exact ih later

/-- Entries show positions now, and all outputs show what they are to show. -/
structure Reworks (homes homes' : Homes) (h : Holder) (firm : Bool) (path : List Nat) (i : Nat)
    (positions : List Nat → Prop) (place : NodeId) (flats : List Flat) (s : Renderer Document σ) (ms : List Mounted)
    (t : Renderer Document σ) : Prop where
  extended : homes.Extends homes'
  houses : Houses homes' t
  touches : Touches s.dom.issued (Within homes' h positions) s t
  seated : Seated homes' h firm path i ms
  hangs : Hangs t firm place ms flats

theorem Raises.reworks {positions : List Nat → Prop} (one : Raises homes homes' h firm path i place true plans s ms t)
    (houses : Houses homes s) (free : Free s h) (laid : Laid homes h firm path i plans flats)
    (region : ∀ a ∈ Plan.activationsAll plans, Within homes h positions (.activation a)) :
    Reworks homes homes' h firm path i positions place flats s ms t := by
  obtain ⟨hangs, shows⟩ := one.built.hangs rfl (laid.extend one.extended)
  refine ⟨one.extended, ⟨one.sits, fun a => ?_⟩, one.touches.weaken ?_, one.seated, hangs⟩
  · by_cases planned : a ∈ Plan.activationsAll plans
    · exact shows a planned
    refine (houses.shows a).frame houses.toSits one.extended (one.touches.face a ?_) one.touches.voids
      (fun n member => ?_) fun b member => one.touches.place? ?_
    · rintro ⟨_, member, same⟩
      cases same
      exact planned member
    · exact one.touches.remains n (houses.old (houses.outputs a) member) nofun
    · -- Whatever is planned and recorded is in an output that is planned.
      rintro ⟨c, named, same⟩
      cases same
      obtain ⟨h', _, _, home, here | ⟨d, there, here⟩⟩ := laid.holder named
      · exact free.not_mem houses.toSits (here ▸ home) member
      · obtain ⟨_, _, _, home'⟩ := (houses.outputs a).home_of_mem member
        cases home.symm.trans home'
        cases here
        exact planned there
  · rintro x ⟨a, member, rfl⟩
    exact (region a member).extend one.extended

theorem raises_addEntries {tail : Option NodeId} (sits : Sits homes s) (laid : Laid homes h firm path i plans flats)
    (firmly : firm = true → place.index ≤ s.dom.issued) (returned : Returns (addEntries place tail plans) s ms t) :
    ∃ homes', Raises homes homes' h firm path i place true plans s ms t := by
  induction plans generalizing homes s i flats ms with
  | nil =>
      obtain ⟨rfl, rfl⟩ := returns_pure.mp returned
      exact ⟨homes, .refl homes, sits, .refl s, .nil, .nil⟩
  | cons plan rest ih =>
      obtain ⟨m, u, built, later⟩ := returns_bind.mp returned
      obtain ⟨_, v, put, later⟩ := returns_bind.mp later
      obtain ⟨entries, w, others, ended⟩ := returns_bind.mp later
      obtain ⟨rfl, rfl⟩ := returns_pure.mp ended
      obtain ⟨flat, flats, rfl⟩ := laid.exists_cons
      obtain ⟨homes', one⟩ := raises_build plan sits laid.head firmly built
      have one := one.insert put
      obtain ⟨homes'', two⟩ := ih one.sits (laid.tail.extend one.extended)
        (fun within => Nat.le_trans (firmly within) one.touches.voids.1) others
      exact ⟨homes'', one.cons two fun a => laid.distinct sits.rising⟩

/-- A new entry stands in the place of an old one. -/
theorem reworks_replace (houses : Houses homes s) (free : Free s h) (seated : Seated homes h firm path i [m])
    (laid : Laid homes h firm path i [plan] [flat]) (firmly : firm = true → place.index ≤ s.dom.issued)
    (returned : Returns (replace place m plan) s m' t) :
    ∃ homes', Reworks homes homes' h firm path i (At path i) place [flat] s [m'] t := by
  obtain ⟨_, _, got, rest⟩ := returns_bind.mp returned
  obtain ⟨rfl, rfl⟩ := returns_get.mp got
  obtain ⟨_, _, told, rest⟩ := returns_bind.mp rest
  obtain rfl := returns_report.mp told
  obtain ⟨_, u, built, rest⟩ := returns_bind.mp rest
  obtain ⟨_, _, got, rest⟩ := returns_bind.mp rest
  obtain ⟨rfl, rfl⟩ := returns_get.mp got
  obtain ⟨_, v, put, rest⟩ := returns_bind.mp rest
  obtain ⟨_, w, detached, rest⟩ := returns_bind.mp rest
  obtain ⟨_, x, unmounted, ended⟩ := returns_bind.mp rest
  obtain ⟨rfl, rfl⟩ := returns_pure.mp ended
  have houses := houses.noting (.replacingEntry (m.debug s.activations))
  obtain ⟨homes', raises⟩ := raises_build plan houses.toSits laid firmly built
  have raises := raises.insert put
  have planned (a : ActivationId) (member : a ∈ Plan.activationsAll [plan]) :
      Within homes h (At path i) (.activation a) :=
    laid.within_at (by rwa [Plan.activationsAll, Plan.activationsAll, List.append_nil] at member)
  have one := raises.reworks houses free laid planned
  have seated' := seated.extend one.extended
  obtain ⟨houses', K, empties⟩ :=
    houses_removal one.houses (Free.touched (s := s.noting _) free one.houses.rising one.touches) seated' detached
      unmounted
  refine ⟨homes', one.extended, houses', ?_, one.seated, ?_⟩
  · exact (Touches.of_reports one.touches).trans ((empties.touches _).weaken (empties.at seated'))
  refine one.hangs.frame (empties.touches 0).voids (fun n member => ?_) fun a _ => empties.place a
  refine (empties.touches n.index).remains n (Nat.le_refl _) fun touched => ?_
  rcases touched with old | ⟨a, firm', path', emptied, home⟩
  · have before := houses.old seated (List.mem_append_left _ old)
    exact Nat.not_lt_of_le before (raises.built.new member)
  · obtain ⟨_, _, _, home'⟩ := one.seated.home_of_mem member
    cases home.symm.trans home'
    obtain ⟨r, top, below⟩ := empties.inside emptied
    obtain ⟨_, _, _, home⟩ := seated'.home_of_mem_items top
    exact below.not_holder one.houses.rising home

/-- An activation goes on as before, but for a new output that shows another tree. -/
theorem Houses.settle {output : List Mounted} {tree : Tree} (houses : Houses homes s)
    (settles : Settles a output tree s t) (seated : Seated homes (.output a) (homes.firm a) [] 0 output)
    (placed : s.activations.place? a = some place) (hangs : Hangs s (homes.firm a) place output tree.flattenOutput) :
    Houses homes t := by
  refine ⟨settles.sits houses.toSits seated, fun b => ?_⟩
  have touches := settles.touches s.dom.issued
  have remains {n : NodeId} (there : n.index ≤ s.dom.issued) : Remains s t n := touches.remains n there nofun
  by_cases same : b = a
  · subst same
    intro r found _
    have known : (s.activations.find? b).isSome = true := by rw [← touches.there b, found]; rfl
    obtain ⟨r₀, found₀⟩ := Option.isSome_iff_exists.mp known
    obtain ⟨r', found', parent, shown, committed⟩ := settles.found found₀
    cases found.symm.trans found'
    rw [Activations.place?_eq found₀] at placed
    refine ⟨place, tree, parent.trans placed, committed, ?_⟩
    rw [shown]
    exact hangs.frame touches.voids (fun n member => remains (houses.old seated member)) fun c _ => settles.place c
  · exact (houses.shows b).frame houses.toSits (.refl homes) (touches.face b fun eq => same (Item.activation.inj eq))
      touches.voids (fun n member => remains (houses.old (houses.outputs b) member)) fun c _ => settles.place c

theorem Houses.taken (houses : Houses homes s) (a : ActivationId) : Houses homes (s.giving a []) := by
  refine ⟨houses.giving .nil, fun b => ?_⟩
  have touches := touches_giving s.dom.issued s a []
  by_cases same : b = a
  · subst same
    exact .of_empty (output_giving_nil s b)
  · exact (houses.shows b).frame houses.toSits (.refl homes) (touches.face b fun eq => same (Item.activation.inj eq))
      touches.voids (fun n member => touches.remains n (houses.old (houses.outputs b) member) nofun)
      fun c _ => place?_giving s a [] c

/-- What an activation rendered has taken effect. -/
structure Commits (homes homes' : Homes) (a : ActivationId) (s t : Renderer Document σ) : Prop where
  extended : homes.Extends homes'
  houses : Houses homes' t
  touches : Touches s.dom.issued (Below homes' (.activation a)) s t
  place : t.activations.place? a = s.activations.place? a

theorem Houses.hangs_taken (houses : Houses homes s) (known : (homes (.activation a)).isSome = true)
    (placed : s.activations.place? a = some place) :
    ∃ old, Hangs (s.giving a []) (homes.firm a) place (s.activations.output a) old := by
  by_cases empty : s.activations.output a = []
  · rw [empty]
    exact ⟨[], .nil⟩
  · rw [houses.activations] at known
    obtain ⟨r, found⟩ := Option.isSome_iff_exists.mp known
    rw [Activations.place?_eq found] at placed
    rw [Activations.output_eq found] at empty ⊢
    obtain ⟨place', tree', parent, -, hangs⟩ := houses.shows a r found empty
    cases placed.symm.trans parent
    have touches := touches_giving s.dom.issued s a []
    have seated := Activations.output_eq found ▸ houses.outputs a
    exact ⟨_, hangs.frame touches.voids (fun n member => touches.remains n (houses.old seated member) nofun)
      fun c _ => place?_giving s a [] c⟩

theorem commits_commitBy {applyOutput : NodeId → Option NodeId → List Mounted → RenderM Document σ (List Mounted)}
    {component : Component} {props : Props} {tree : Tree}
    (inner : ∀ {s t : Renderer Document σ} {place : NodeId} {tail : Option NodeId} {ms old ms'}, Houses homes s →
      Free s (.output a) → Seated homes (.output a) (homes.firm a) [] 0 ms → Hangs s (homes.firm a) place ms old →
      (homes.firm a = true → place.index ≤ s.dom.issued) → Returns (applyOutput place tail ms) s ms' t →
      ∃ homes', Reworks homes homes' (.output a) (homes.firm a) [] 0 (From [] 0) place tree.flattenOutput s ms' t)
    (houses : Houses homes s) (known : (homes (.activation a)).isSome = true)
    (returned : Returns (commitBy applyOutput a component props tree) s () t) :
    ∃ homes', Commits homes homes' a s t := by
  obtain ⟨_, _, got, rest⟩ := returns_bind.mp returned
  obtain ⟨rfl, rfl⟩ := returns_get.mp got
  split at rest
  next =>
    obtain rfl := returns_report.mp rest
    exact ⟨homes, .refl homes, houses.noting _, touches_report _, rfl⟩
  next place placed =>
    obtain ⟨_, _, got, rest⟩ := returns_bind.mp rest
    obtain ⟨rfl, rfl⟩ := returns_get.mp got
    obtain ⟨_, u, renamed, rest⟩ := returns_bind.mp rest
    obtain ⟨ms, _, taken, rest⟩ := returns_bind.mp rest
    obtain ⟨rfl, rfl⟩ := eq_of_takeOutput taken
    obtain ⟨ms', w, worked, rest⟩ := returns_bind.mp rest
    obtain ⟨_, x, set, rest⟩ := returns_bind.mp rest
    obtain ⟨_, _, got, rest⟩ := returns_bind.mp rest
    obtain ⟨rfl, rfl⟩ := returns_get.mp got
    obtain rfl := returns_updateActivation.mp rest
    have calm : Touches s.dom.issued (fun _ => False) s u := by
      rw [returns_updateActivation.mp renamed]
      exact .update a _ (.inr fun _ => rfl)
    have houses := houses.calm calm
    change s.activations.place? a = some place at placed
    have still : u.activations.place? a = some place := (calm.place? id).trans placed
    -- While the output is worked on, its entries are in hand and the activation's own record is empty.
    obtain ⟨old, hangs⟩ := houses.hangs_taken known still
    obtain ⟨homes', one⟩ := inner (houses.taken a) (fun b same => by cases same; exact output_giving_nil u a)
      (houses.outputs a) hangs (fun firm => houses.grounded still firm) worked
    have firm_eq := one.extended.firm_eq known
    have settles := settles_of_update (f := ({ · with committed := some tree, renderedIn := x.epoch })) set
      (fun _ => rfl) (fun _ => rfl) fun _ => rfl
    have placed' : w.activations.place? a = some place :=
      (one.touches.place? (Within.not_holder one.houses.rising)).trans ((place?_giving u a [] a).trans still)
    refine ⟨homes', one.extended, one.houses.settle settles (firm_eq ▸ one.seated) placed' (firm_eq ▸ one.hangs), ?_,
      ?_⟩
    · refine (calm.weaken fun _ => False.elim).trans ?_
      refine (Touches.weaken (touches_giving _ u a []) ?_).trans ?_
      · rintro _ rfl
        exact .self
      refine ((one.touches.since ?_).weaken fun _ within => within.of_output).trans ((settles.touches _).weaken ?_)
      · exact calm.voids.1
      · rintro _ rfl
        exact .self
    · exact (settles.place a).trans (placed'.trans placed.symm)

section Patching

/-- A node of the list in hand was changed. -/
theorem Houses.at_node (houses : Houses homes s) (free : Free s h)
    (home : homes (.node n) = some ⟨h, firm, path⟩) (touches : ∀ base, Touches base (· = .node n) s t) :
    Houses homes t := by
  refine ⟨houses.touched (touches 0) (fun _ => nofun) fun {_ _} => nofun, fun a => ?_⟩
  have touches := touches s.dom.issued
  refine (houses.shows a).frame houses.toSits (.refl homes) (touches.face a nofun) touches.voids
    (fun k member => touches.remains k (houses.old (houses.outputs a) member) fun same => ?_)
    fun b _ => touches.place? nofun
  exact free.not_mem houses.toSits home (same ▸ member)

theorem Hangs.noting {r : Report} (hangs : Hangs s firm place ms flats) : Hangs (s.noting r) firm place ms flats :=
  hangs.frame (.refl s) (fun _ _ => ⟨rfl, rfl, rfl⟩) fun _ _ => rfl

theorem Reworks.of_reports {positions : List Nat → Prop} {r : Report}
    (one : Reworks homes homes' h firm path i positions place flats (s.noting r) ms t) :
    Reworks homes homes' h firm path i positions place flats s ms t :=
  ⟨one.extended, one.houses, .of_reports one.touches, one.seated, one.hangs⟩

theorem within_of_home {firm' : Bool} (home : homes (.node n) = some ⟨h, firm', i :: path⟩) (x : Item)
    (same : x = .node n) : Within homes h (At path i) x := by
  subst same
  exact .of_home home List.suffix_rfl

theorem reworks_setText {content : String} (houses : Houses homes s) (free : Free s h)
    (home : homes (.node n) = some ⟨h, firm, i :: path⟩) (plays : s.canvas.Plays n .text)
    (hung : s.dom.Hung firm place n) (returned : Returns (onDom (Layer.setText · n content)) s () t) :
    Reworks homes homes h firm path i (At path i) place [.text content] s [.text n] t := by
  obtain rfl := returns_onDom.mp returned
  have ⟨⟨old, found⟩, unbound⟩ := plays
  change s.dom.text? n = some old at found
  have written : (s.dom.setText n content).value = s.dom.modify n ({ · with content := .text content }) := by
    rw [Document.setText, found]
    rfl
  have others (k : NodeId) (other : k ≠ n) : (s.dom.setText n content).value.node? k = s.dom.node? k := by
    rw [written, Document.node?_modify, if_neg other]
  obtain ⟨node, there, -⟩ := Option.map_eq_some_iff.mp (Document.text?_eq_some.mp found)
  have own : (s.dom.setText n content).value.node? n = some { node with content := .text content } := by
    rw [written, Document.node?_modify, if_pos rfl, there]
    rfl
  have issued : (s.dom.setText n content).value.issued = s.dom.issued := by rw [written, Document.issued_modify]
  have touches (base : Nat) : Touches base (· = .node n) s
      { s with dom := (s.dom.setText n content).value
               reports := (s.dom.setText n content).reports.reverseAux s.reports } := by
    refine .of_dom ⟨Nat.le_of_eq issued.symm, fun k _ nothing => ?_⟩ fun k _ other => ?_
    · change (s.dom.setText n content).value.element? k = none
      by_cases same : k = n
      · subst same
        rw [Document.element?, own]
        rfl
      · rw [Document.element?, others k same]
        exact nothing
    · have other : k ≠ n := fun same => other (congrArg Item.node same)
      rw [Document.worn?, Document.parent?, others k other]
      exact ⟨rfl, rfl⟩
  refine ⟨.refl homes, houses.at_node free home touches, (touches _).weaken (within_of_home home), .text home .nil, ?_⟩
  refine .text ⟨⟨content, ?_⟩, unbound⟩ (hung_of_remains hung ?_ (touches 0).voids plays.index_le) .nil
  · change (s.dom.setText n content).value.text? n = some content
    rw [Document.text?_eq_some, own]
    rfl
  · change (s.dom.setText n content).value.parent? n = s.dom.parent? n
    rw [Document.parent?, own, Document.parent?, there]
    rfl

theorem reworks_text {content : String} (houses : Houses homes s) (free : Free s h)
    (home : homes (.node n) = some ⟨h, firm, i :: path⟩) (plays : s.canvas.Plays n .text)
    (hung : s.dom.Hung firm place n) (returned : Returns (applyOne place (.text n) (.text content true)) s m t) :
    Reworks homes homes h firm path i (At path i) place [.text content] s [m] t := by
  rw [applyOne] at returned
  obtain ⟨_, _, told, rest⟩ := returns_bind.mp returned
  obtain rfl := returns_report.mp told
  obtain ⟨_, _, got, rest⟩ := returns_bind.mp rest
  obtain ⟨rfl, rfl⟩ := returns_get.mp got
  refine Reworks.of_reports (r := .diffingText n (.of content)) ?_
  have houses := houses.noting (.diffingText n (.of content))
  split at rest
  · obtain ⟨_, _, told, rest⟩ := returns_bind.mp rest
    obtain rfl := returns_report.mp told
    obtain ⟨_, u, written, ended⟩ := returns_bind.mp rest
    obtain ⟨rfl, rfl⟩ := returns_pure.mp ended
    exact (reworks_setText (houses.noting .updatingText) free home plays hung written).of_reports
  · obtain ⟨rfl, rfl⟩ := returns_pure.mp rest
    exact ⟨.refl homes, houses, .refl _, .text home .nil, .text plays hung .nil⟩

theorem reworks_element {tag tag' : String} {attributes old : Attributes} {inner : List Flat}
    (houses : Houses homes s) (free : Free s h) (home : homes (.node n) = some ⟨h, firm, i :: path⟩)
    (plays : s.canvas.Plays n (.element tag old)) (hung : s.dom.Hung firm place n)
    (filled : Reworks homes homes' h true (i :: path) 0 (From (i :: path) 0) n inner s ms t)
    (dressed : Returns (applyAttributes n tag attributes) t () u) :
    Reworks homes homes' h firm path i (At path i) place [.element tag' attributes inner] s [.element n tag ms] u := by
  have home' := filled.extended _ _ home
  -- The element stands around its entries and not among them.
  have outside : ¬ From (i :: path) 0 (i :: path) := by
    rintro ⟨j, -, suffix⟩
    exact absurd suffix.length_le (by simp only [List.length_cons]; omega)
  have remains : Remains s t n := filled.touches.remains n (houses.nodes home) fun within =>
    outside (within.position filled.houses.rising home')
  have wears := plays.congr remains.untouched
  have ⟨e, b, found, bound, worn⟩ := wears
  have touches (base : Nat) : Touches base (· = .node n) t u :=
    touches_dress n tag attributes rfl (filled.houses.nodes home') dressed
  refine ⟨filled.extended, ?_, ?_, .element home' filled.seated .nil, .element ?_ ?_ ?_ .nil⟩
  · exact filled.houses.at_node (free.touched filled.houses.rising filled.touches) home' touches
  · refine (filled.touches.weaken fun x within => ?_).trans ((touches _).weaken (within_of_home home'))
    exact within.mono fun _ => From.at
  · change t.binder[n]? = some b at bound
    exact plays_dress filled.houses.unbound wears found (by rw [bound]; exact worn) dressed
  · have hung := hung_of_remains hung remains.parent filled.touches.voids plays.index_le
    exact hung_of_remains hung (parent?_dress dressed n) (touches 0).voids wears.index_le
  · refine filled.hangs.frame (touches 0).voids (fun k member => ?_) fun b _ => (touches 0).place? nofun
    refine (touches k.index).remains k (Nat.le_refl _) fun same => ?_
    cases same
    obtain ⟨_, p, after, home''⟩ := filled.seated.home_of_mem member
    cases home'.symm.trans home''
    exact outside after

theorem Commits.reworks {reference : ComponentRef} (commits : Commits homes homes' a s t)
    (home : homes (.activation a) = some ⟨h, firm, i :: path⟩) (placed : s.activations.place? a = some place) :
    Reworks homes homes' h firm path i (At path i) place [.component reference] s [.component a] t where
  extended := commits.extended
  houses := commits.houses
  touches := commits.touches.weaken fun _ below =>
    (Within.of_home (commits.extended _ _ home) List.suffix_rfl).below below
  seated := .component (commits.extended _ _ home) .nil
  hangs := .component (commits.place.trans placed) .nil

theorem Reworks.cons {homes'' : Homes} {rest : List Mounted}
    (one : Reworks homes homes' h firm path i (At path i) place [flat] s [m] t)
    (two : Reworks homes' homes'' h firm path (i + 1) (From path (i + 1)) place flats t rest u) :
    Reworks homes homes'' h firm path i (From path i) place (flat :: flats) s (m :: rest) u where
  extended := one.extended.trans two.extended
  houses := two.houses
  touches := (one.touches.weaken fun _ within => (within.mono fun _ => At.from).extend two.extended).trans
    ((two.touches.since one.touches.voids.1).weaken fun _ within => within.mono fun _ => From.of_succ)
  seated := (one.seated.extend two.extended).cons two.seated
  hangs := by
    refine (one.hangs.untouched two.touches (fun n => one.houses.old one.seated) fun x member => ?_).cons two.hangs
    rw [itemsAll, itemsAll, List.append_nil] at member
    exact (one.seated.extend two.extended).not_within_from two.houses.rising member

mutual

/-- What stands at a position afterwards shows what was planned for it. -/
theorem reworks_applyOne : ∀ (plan : Plan) {homes : Homes} {s t : Renderer Document σ} {h : Holder} {firm : Bool}
    {path : List Nat} {i : Nat} {place : NodeId} {flat : Flat} {old : List Flat} {m m' : Mounted}, Houses homes s →
    Free s h → Seated homes h firm path i [m] → Hangs s firm place [m] old →
    Laid homes h firm path i [plan] [flat] → (firm = true → place.index ≤ s.dom.issued) →
    Returns (applyOne place m plan) s m' t →
    ∃ homes', Reworks homes homes' h firm path i (At path i) place [flat] s [m'] t
  | .text content false, homes, s, t, h, firm, path, i, place, flat, old, m, m', houses, free, seated, hangs, laid,
      firmly, returned => by
      rw [applyOne_of_not_keeps rfl] at returned
      exact reworks_replace houses free seated laid firmly returned
  | .text content true, homes, s, t, h, firm, path, i, place, flat, old, m, m', houses, free, seated, hangs, laid,
      firmly, returned => by
      cases m with
      | text n =>
          cases seated with
          | text home _ =>
          cases laid
          cases hangs with
          | text plays hung _ | blank plays hung _ => exact ⟨homes, reworks_text houses free home plays hung returned⟩
      | element | component | raw =>
          simp only [applyOne] at returned
          exact reworks_replace houses free seated laid firmly returned
  | .raw node false, homes, s, t, h, firm, path, i, place, flat, old, m, m', houses, free, seated, hangs, laid,
      firmly, returned => by
      rw [applyOne_of_not_keeps rfl] at returned
      exact reworks_replace houses free seated laid firmly returned
  | .raw node true, homes, s, t, h, firm, path, i, place, flat, old, m, m', houses, free, seated, hangs, laid,
      firmly, returned => by
      cases m with
      | raw => cases seated
      | text | element | component =>
          simp only [applyOne] at returned
          exact reworks_replace houses free seated laid firmly returned
  | .element tag attributes plans false, homes, s, t, h, firm, path, i, place, flat, old, m, m', houses, free, seated,
      hangs, laid, firmly, returned => by
      rw [applyOne_of_not_keeps rfl] at returned
      exact reworks_replace houses free seated laid firmly returned
  | .element tag attributes plans true, homes, s, t, h, firm, path, i, place, flat, old, m, m', houses, free, seated,
      hangs, laid, firmly, returned => by
      cases m with
      | element n mounted children =>
          rw [applyOne] at returned
          obtain ⟨_, _, told, rest⟩ := returns_bind.mp returned
          obtain rfl := returns_report.mp told
          obtain ⟨ms, u, filled, rest⟩ := returns_bind.mp rest
          obtain ⟨_, v, dressed, ended⟩ := returns_bind.mp rest
          obtain ⟨rfl, rfl⟩ := returns_pure.mp ended
          cases seated with
          | element home inside _ =>
          cases laid with
          | element deeper _ =>
          cases hangs with
          | element plays hung within _ =>
          have houses := houses.noting (.diffingElement n mounted)
          obtain ⟨homes', one⟩ := reworks_applyAll plans houses free inside within.noting deeper
            (fun _ => houses.nodes home) filled
          exact ⟨homes', (reworks_element houses free home plays hung one dressed).of_reports⟩
      | text | component | raw =>
          simp only [applyOne] at returned
          exact reworks_replace houses free seated laid firmly returned
  | .component b fresh component props tree output, homes, s, t, h, firm, path, i, place, flat, old, m, m', houses,
      free, seated, hangs, laid, firmly, returned => by
      cases m with
      | component a =>
          rw [applyOne] at returned
          split at returned
          next kept =>
            obtain ⟨rfl, -⟩ := kept
            obtain ⟨_, _, told, rest⟩ := returns_bind.mp returned
            obtain rfl := returns_report.mp told
            obtain ⟨_, u, committed, ended⟩ := returns_bind.mp rest
            obtain ⟨rfl, rfl⟩ := returns_pure.mp ended
            cases seated with
            | component home _ =>
            cases laid with
            | component _ deeper _ =>
            cases hangs with
            | component placed _ =>
            -- The output is as firmly placed as the position of its component.
            have firm_eq := Homes.firm_eq home
            obtain ⟨homes', one⟩ := commits_commitBy (fun {s t place tail ms old ms'} houses free seated hangs firmly
                worked => by
              rw [firm_eq] at seated hangs firmly ⊢
              exact reworks_applyAll output houses free seated hangs deeper firmly worked)
              (houses.noting (.diffingComponent a)) (by rw [home]; rfl) committed
            exact ⟨homes', (one.reworks home placed).of_reports⟩
          next => exact reworks_replace houses free seated laid firmly returned
      | text | element | raw =>
          simp only [applyOne] at returned
          exact reworks_replace houses free seated laid firmly returned

theorem reworks_applyAll : ∀ (plans : List Plan) {homes : Homes} {s t : Renderer Document σ} {h : Holder}
    {firm : Bool} {path : List Nat} {i : Nat} {place : NodeId} {tail : Option NodeId} {flats old : List Flat}
    {ms ms' : List Mounted}, Houses homes s → Free s h → Seated homes h firm path i ms → Hangs s firm place ms old →
    Laid homes h firm path i plans flats → (firm = true → place.index ≤ s.dom.issued) →
    Returns (applyAll place tail ms plans) s ms' t →
    ∃ homes', Reworks homes homes' h firm path i (From path i) place flats s ms' t
  | [], homes, s, t, h, firm, path, i, place, tail, flats, old, ms, ms', houses, free, seated, hangs, laid, firmly,
      returned => by
      rw [applyAll] at returned
      obtain ⟨_, u, removed, ended⟩ := returns_bind.mp returned
      obtain ⟨rfl, rfl⟩ := returns_pure.mp ended
      cases laid
      have gone := removed_removeEntries houses free seated removed
      exact ⟨homes, .refl homes, gone.houses, gone.touches _, .nil, .nil⟩
  | plan :: rest, homes, s, t, h, firm, path, i, place, tail, flats, old, [], ms', houses, free, seated, hangs, laid,
      firmly, returned => by
      rw [applyAll] at returned
      · obtain ⟨homes', one⟩ := raises_addEntries houses.toSits laid firmly returned
        exact ⟨homes', one.reworks houses free laid fun a => laid.within⟩
      · exact nofun
  | plan :: rest, homes, s, t, h, firm, path, i, place, tail, flats, old, m :: ms, ms', houses, free, seated, hangs,
      laid, firmly, returned => by
      rw [applyAll] at returned
      obtain ⟨m', u, first, later⟩ := returns_bind.mp returned
      obtain ⟨ms', v, others, ended⟩ := returns_bind.mp later
      obtain ⟨rfl, rfl⟩ := returns_pure.mp ended
      obtain ⟨flat, flats, rfl⟩ := laid.exists_cons
      obtain ⟨oldest, older, rfl, here, there⟩ := hangs.uncons
      obtain ⟨homes', one⟩ := reworks_applyOne plan houses free seated.head here laid.head firmly first
      have still := there.untouched one.touches (fun n => houses.old seated.tail) fun x member =>
        (seated.extend one.extended).not_within_at one.houses.rising member
      obtain ⟨homes'', two⟩ := reworks_applyAll rest one.houses (free.touched one.houses.rising one.touches)
        (seated.tail.extend one.extended) still (laid.tail.extend one.extended)
        (fun within => Nat.le_trans (firmly within) one.touches.voids.1) others
      exact ⟨homes'', one.cons two⟩

end

end Patching

end Renderer
end Patchwork
