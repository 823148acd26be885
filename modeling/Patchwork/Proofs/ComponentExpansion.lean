import Patchwork.Proofs.DocumentPictures
import Patchwork.Proofs.ContainerRenders
import Patchwork.Renderer.Host

/-! Positions with their components spelled out: what an activation committed stands in the place of its
component. Pictures show what is built from scratch for their spelled-out positions, and to build that
needs no program. -/
namespace Patchwork

namespace Flat

mutual

def tree : Flat → Tree
  | text s => .text (.text s)
  | element tag attributes children => .element tag attributes (trees children)
  | component reference => .component reference
  | raw node => .raw node

def trees : List Flat → List Tree
  | [] => []
  | position :: rest => tree position :: trees rest

end

mutual

theorem flatten_tree : ∀ position : Flat, position.tree.flatten = [position]
  | text _ | component _ | raw _ => rfl
  | element tag attributes children => by rw [tree, Tree.flatten, flattenAll_trees children]

theorem flattenAll_trees : ∀ positions : List Flat, Tree.flattenAll (trees positions) = positions
  | [] => rfl
  | position :: rest => by
      rw [trees, Tree.flattenAll, flatten_tree position, flattenAll_trees rest, List.singleton_append]

end

def page (positions : List Flat) : Tree := .fragment (trees positions)

@[simp] theorem flatten_page (positions : List Flat) : (page positions).flatten = positions := by
  rw [page, Tree.flatten, flattenAll_trees]

mutual

def Bare : Flat → Prop
  | text _ | raw _ => True
  | element _ _ children => BareAll children
  | component _ => False

def BareAll : List Flat → Prop
  | [] => True
  | position :: rest => Bare position ∧ BareAll rest

end

theorem bareAll_append : ∀ {one two : List Flat}, BareAll (one ++ two) ↔ BareAll one ∧ BareAll two
  | [], two => by rw [List.nil_append, BareAll, true_and]
  | position :: rest, two => by rw [List.cons_append, BareAll, BareAll, bareAll_append, and_assoc]

end Flat

/-- Positions with their components spelled out, as the activations mounted there committed them. -/
inductive Expands (as : Activations) : List Mounted → List Flat → List Flat → Prop
  | nil : Expands as [] [] []
  | text : Expands as mounted positions shown →
      Expands as (.text node :: mounted) (.text s :: positions) (.text s :: shown)
  | raw : Expands as mounted positions shown →
      Expands as (entry :: mounted) (.raw wanted :: positions) (.raw wanted :: shown)
  | element : Expands as entries children inside → Expands as mounted positions shown →
      Expands as (.element node tag entries :: mounted) (.element tag attributes children :: positions)
        (.element tag attributes inside :: shown)
  | component : as.find? a = some r → r.component = reference.component →
      r.props = reference.props → r.committed = some tree →
      Expands as r.output tree.flattenOutput inside → Expands as mounted positions shown →
      Expands as (.component a :: mounted) (.component reference :: positions) (inside ++ shown)

namespace Expands

theorem bareAll (expands : Expands as mounted positions shown) : Flat.BareAll shown := by
  induction expands with
  | nil => trivial
  | text _ ih | raw _ ih => exact ⟨trivial, ih⟩
  | element _ _ inner ih => exact ⟨inner, ih⟩
  | component _ _ _ _ _ _ inner ih => exact Flat.bareAll_append.mpr ⟨inner, ih⟩

end Expands

namespace Picture

mutual

/-- The positions of a picture, spelled out. -/
def expanded : Picture → List Flat
  | text _ content => [.text content]
  | missing _ wanted => [.raw wanted]
  | raw _ _ shown => [.raw shown]
  | element _ tag attributes children => [.element tag attributes (expandedAll children)]
  | component _ _ _ _ output => expandedAll output

def expandedAll : List Picture → List Flat
  | [] => []
  | p :: rest => expanded p ++ expandedAll rest

end

mutual

theorem Stands.expands {as : Activations} : ∀ {p : Picture} {place above mounted positions shown},
    Stands as place above p → Expands as mounted positions shown →
      Expands as (p.entry :: mounted) (p.flat :: positions) (expanded p ++ shown)
  | .text .., _, _, _, _, _, _, rest => by
      rw [entry, flat, expanded]
      exact rest.text
  | .raw .., _, _, _, _, _, _, rest | .missing .., _, _, _, _, _, _, rest => by
      rw [entry, flat, expanded]
      exact rest.raw
  | .element _ _ _ children, _, _, _, _, _, stands, rest => by
      rw [entry, flat, expanded]
      exact .element (StandAll.expands (stands_element.mp stands)) rest
  | .component a _ _ _ output, _, _, _, _, _, stands, rest => by
      obtain ⟨-, ⟨r, found, shows⟩, positions, inner⟩ := stands_component.mp stands
      have inside := StandAll.expands inner
      rw [positions, ← shows.output] at inside
      rw [entry, flat, expanded]
      exact .component found shows.component shows.props shows.committed inside rest

theorem StandAll.expands {as : Activations} : ∀ {ps : List Picture} {place above},
    StandAll as place above ps → Expands as (entries ps) (flats ps) (expandedAll ps)
  | [], _, _, _ => .nil
  | _ :: _, _, _, stands => by
      rw [standAll_cons] at stands
      exact stands.1.expands (StandAll.expands stands.2)

end

end Picture

/-- Two nodes of documents show the same: the same text, or an element with the same tag, attributes and
declarations, the same handlers for every category, and children that show the same in the same order. -/
inductive Document.Alike (d e : Document) : NodeId → NodeId → Prop
  | text : d.text? n = some s → e.text? m = some s → Alike d e n m
  | element {one two : Element} : d.element? n = some one → e.element? m = some two → two.tag = one.tag →
      two.attributes = one.attributes → two.styles = one.styles →
      (∀ category, two.handlers category = one.handlers category) →
      List.Forall₂ (Alike d e) (d.children n) (e.children m) → Alike d e n m

namespace Binder

theorem Wears.handlers_eq {e : Element} {b : Bindings} (wears : Wears tag attributes e b)
    (category : Category) : e.handlers category = (b.listeners.get? category).toList := by
  have perm := wears.listeners.filter (fun entry => decide (entry.1 = category))
  rw [Element.handlers]
  cases found : b.listeners.get? category with
  | none =>
      have nothing : b.listeners.toList.filter (fun entry => decide (entry.1 = category)) = [] := by
        refine List.filter_eq_nil_iff.mpr fun ⟨other, h⟩ member same => ?_
        cases of_decide_eq_true same
        cases (Dict.get?_eq_some.mpr member).symm.trans found
      rw [nothing] at perm
      rw [List.perm_nil.mp perm]
      rfl
  | some h =>
      have alone : (b.listeners.toList.filter (fun entry => decide (entry.1 = category))).Perm
          [(category, h)] := by
        refine (List.perm_ext_iff_of_nodup (b.listeners.nodup_entries.filter _)
          (List.nodup_singleton _)).mpr fun ⟨other, h'⟩ => ?_
        rw [List.mem_filter, decide_eq_true_eq, List.mem_singleton, Prod.mk.injEq]
        refine ⟨fun ⟨member, same⟩ => ⟨same, ?_⟩, fun ⟨same, same'⟩ => ⟨?_, same⟩⟩
        · cases same
          exact Option.some.inj ((Dict.get?_eq_some.mpr member).symm.trans found)
        · cases same
          cases same'
          exact Dict.get?_eq_some.mp found
      rw [List.perm_singleton.mp (perm.trans alone)]
      rfl

end Binder

namespace Picture

theorem flats_eq_append {qs : List Picture} (same : flats qs = one ++ two) :
    ∃ ps rs, qs = ps ++ rs ∧ flats ps = one ∧ flats rs = two := by
  simp only [flats_eq_map] at same ⊢
  exact List.map_eq_append_iff.mp same

theorem flats_eq_singleton {qs : List Picture} (same : flats qs = [position]) :
    ∃ q, qs = [q] ∧ q.flat = position := by
  rw [flats_eq_map] at same
  exact List.map_eq_singleton_iff.mp same

section Alike
variable {d e : Document} {binder binder' : Binder}

theorem ElementAt.alike (one : ElementAt d binder n tag attributes)
    (two : ElementAt e binder' m tag attributes)
    (children : List.Forall₂ (d.Alike e) (d.children n) (e.children m)) : d.Alike e n m := by
  obtain ⟨_, b, found, -, wears⟩ := one
  obtain ⟨_, b', found', -, wears'⟩ := two
  refine .element found found' (wears'.named.trans wears.named.symm)
    (Dict.ext_get? fun name => (wears'.plain name).trans (wears.plain name).symm)
    (wears'.styles.trans wears.styles.symm) (fun category => ?_) children
  rw [wears'.handlers_eq, wears.handlers_eq, wears'.bound, wears.bound]

theorem TextAt.alike (one : TextAt d binder n s) (two : TextAt e binder' m s) : d.Alike e n m :=
  .text one.text two.text

mutual

/-- What shows a picture and what shows its positions, spelled out, show the same. -/
theorem Seen.alike : ∀ {p : Picture} {qs : List Picture}, Seen d binder p → SeenAll e binder' qs →
    flats qs = expanded p → List.Forall₂ (d.Alike e) (tops p) (topsAll qs)
  | .text n content, qs, shown, shown', same => by
      obtain ⟨q, rfl, there⟩ := flats_eq_singleton same
      cases q with
      | text m content' =>
          cases there
          rw [Seen] at shown
          rw [seenAll_cons, Seen] at shown'
          exact .cons (shown.alike shown'.1) .nil
      | _ => cases there
  | .missing n wanted, qs, shown, shown', same => by
      obtain ⟨q, rfl, there⟩ := flats_eq_singleton same
      cases q with
      | missing m wanted' =>
          rw [Seen] at shown
          rw [seenAll_cons, Seen] at shown'
          exact .cons (shown.alike shown'.1) .nil
      | raw => simp only [seenAll_cons, Seen, false_and] at shown'
      | _ => cases there
  | .raw .., qs, shown, _, _ => by simp only [Seen] at shown
  | .element n tag attributes children, qs, shown, shown', same => by
      obtain ⟨q, rfl, there⟩ := flats_eq_singleton same
      cases q with
      | element m tag' attributes' children' =>
          obtain ⟨rfl, rfl, inside⟩ := Flat.element.inj there
          rw [seen_element] at shown
          rw [seenAll_cons, seen_element] at shown'
          refine .cons (shown.1.alike shown'.1.1 ?_) .nil
          rw [shown.2.1, shown'.1.2.1]
          exact shown.2.2.alike shown'.1.2.2 inside
      | _ => cases there
  | .component _ _ _ _ output, qs, shown, shown', same => (seen_component.mp shown).2.alike shown' same

theorem SeenAll.alike : ∀ {ps qs : List Picture}, SeenAll d binder ps → SeenAll e binder' qs →
    flats qs = expandedAll ps → List.Forall₂ (d.Alike e) (topsAll ps) (topsAll qs)
  | [], qs, _, _, same => by
      cases qs with
      | nil => exact .nil
      | cons => cases same
  | p :: rest, qs, shown, shown', same => by
      obtain ⟨one, two, rfl, first, second⟩ := flats_eq_append same
      rw [seenAll_cons] at shown
      rw [seenAll_append] at shown'
      rw [topsAll, topsAll_append]
      exact List.rel_append (shown.1.alike shown'.1 first) (shown.2.alike shown'.2 second)

end

end Alike

end Picture

namespace Renderer

variable {D σ : Type} {δ : StateData} [HasStateData σ δ] [Layer D] {program : Program σ} {s : Renderer D σ}
  {scene : Scene}

mutual

theorem pairs_bare (invocation : Invocation D σ) (owner : Option ActivationId) (s : Renderer D σ) :
    ∀ {position : Flat}, position.Bare → ∃ plan, Returns (pair invocation owner none position) s (.ok plan) s ∧
      ∀ {positions plans}, Passes program owner [] positions s [] (.ok plans) s →
        Passes program owner [] (position :: positions) s [] ((Except.ok plans).map (plan :: ·)) s
  | .text content, _ => ⟨.text content false, returns_pure.mpr ⟨rfl, rfl⟩,
      fun rest => .text (returns_pure.mpr ⟨rfl, rfl⟩) rest⟩
  | .raw node, _ => ⟨.raw node false, returns_pure.mpr ⟨rfl, rfl⟩, fun rest => .raw rest⟩
  | .element tag attributes children, bare => by
      obtain ⟨kids, paired, passes⟩ := pairsAll_bare invocation owner s bare
      have opened : Returns (opening tag ([] : List Mounted).head?) s (false, []) s :=
        returns_pure.mpr ⟨rfl, rfl⟩
      exact ⟨.element tag attributes kids false, paired.bind (returns_pure.mpr ⟨rfl, rfl⟩),
        fun rest => .element opened passes rest⟩

theorem pairsAll_bare (invocation : Invocation D σ) (owner : Option ActivationId) (s : Renderer D σ) :
    ∀ {positions : List Flat}, Flat.BareAll positions → ∃ plans,
      Returns (pairAll invocation owner [] positions) s (.ok plans) s ∧
        Passes program owner [] positions s [] (.ok plans) s
  | [], _ => ⟨[], returns_pure.mpr ⟨rfl, rfl⟩, .nil⟩
  | position :: rest, bare => by
      obtain ⟨plan, paired, passes⟩ := pairs_bare invocation owner s bare.1
      obtain ⟨plans, paired', passes'⟩ := pairsAll_bare invocation owner s bare.2
      exact ⟨plan :: plans, paired.bind (paired'.bind (returns_pure.mpr ⟨rfl, rfl⟩)), passes passes'⟩

end

/-- Positions without components can be rendered into any container in which nothing is mounted. -/
theorem Settled.builds (settled : Settled s scene) (nothing : scene place = [])
    (bare : Flat.BareAll positions) : ∃ t, Returns (render program (Flat.page positions) place) s (.ok ()) t ∧
      Renders program (Flat.page positions) place s [] (.ok ()) t := by
  have mounted := settled.mounted place
  rw [nothing] at mounted
  obtain ⟨plans, paired, passes⟩ : ∃ plans, Returns (pairAll (top program).invocation none [] positions)
      (s.beginning place) (.ok plans) (s.beginning place) ∧
      Passes program none [] positions (s.beginning place) [] (.ok plans) (s.beginning place) :=
    pairsAll_bare (top program).invocation none (s.beginning place) bare
  have stands := settled.stands place
  have planned : Planned (s.beginning place) (s.beginning place) 0 (scene place) positions plans :=
    passes.planned (by rw [nothing]; rfl) stands (Nat.zero_le _) rfl
  obtain ⟨v, carried, -⟩ := carryOut_ok settled passes.advances planned
  rw [nothing, ← mounted] at carried
  have none_mounted : [] = (s.roots.get? place).getD [] := mounted.symm
  rw [none_mounted, ← Flat.flatten_page positions] at paired passes
  have returned : Returns (renderBy (top program).invocation (Flat.page positions) place) s (.ok ()) _ :=
    (returns_renderBy settled.calls).mpr ⟨_, _, _, _, paired, carried, rfl⟩
  exact ⟨_, returned, ⟨_, returned⟩, _, _, _, _, passes, carried, rfl⟩

end Renderer

end Patchwork
