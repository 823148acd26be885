import Mathlib.Data.List.Infix
import Patchwork.Proofs.PlanSpec

/-! Where things dwell. Patching goes by position, so that a node or an activation that is recorded once is
recorded at its own position from then on or not at all, whatever calls happen within other calls. This
position is its home: what holds the list of entries, and the path through the list. Two lists that are
recorded at the same time have nothing in common because the homes of what they record differ. -/
namespace Patchwork

inductive Item
  | node (n : NodeId)
  | activation (a : ActivationId)
deriving DecidableEq

/-- What holds a list of entries: an activation, or a container. While a container's entries are set aside for
a render, a render within that one starts anew, at another depth. -/
inductive Holder
  | container (place : NodeId) (depth : Nat)
  | output (a : ActivationId)

structure Home where
  holder : Holder
  /-- Whether there is a mounted element around it. -/
  firm : Bool
  /-- Positions, the innermost first. -/
  path : List Nat

/-- The homes of what was recorded or is planned to be. -/
abbrev Homes := Item → Option Home

namespace Homes

/-- An activation is older than what its output holds. -/
def Rising (homes : Homes) : Prop :=
  ∀ {a b firm path}, homes (.activation b) = some ⟨.output a, firm, path⟩ → a.index < b.index

/-- Homes stay what they are while others are given out. -/
def Extends (homes homes' : Homes) : Prop := ∀ x home, homes x = some home → homes' x = some home

theorem Extends.refl (homes : Homes) : homes.Extends homes := fun _ _ => id

theorem Extends.trans {one two three : Homes} (first : one.Extends two) (second : two.Extends three) :
    one.Extends three := fun x home found => second x home (first x home found)

def give (homes : Homes) (x : Item) (home : Home) : Homes := fun y => if y = x then some home else homes y

@[simp] theorem give_self (homes : Homes) (x : Item) (home : Home) : homes.give x home x = some home := if_pos rfl

theorem give_of_ne (homes : Homes) (home : Home) {x y : Item} (other : y ≠ x) : homes.give x home y = homes y :=
  if_neg other

theorem extends_give {homes : Homes} {x : Item} (new : homes x = none) (home : Home) :
    homes.Extends (homes.give x home) := by
  intro y found there
  have other : y ≠ x := fun same => by cases (same ▸ there).symm.trans new
  exact (homes.give_of_ne home other).trans there

/-- What stands in the output of an activation is as firm as the activation itself. -/
def firm (homes : Homes) (a : ActivationId) : Bool := (homes (.activation a)).any Home.firm

theorem firm_eq {homes : Homes} {a : ActivationId} {home : Home} (found : homes (.activation a) = some home) :
    homes.firm a = home.firm := by
  rw [firm, found, Option.any_some]

theorem Extends.firm_eq {homes homes' : Homes} (extended : homes.Extends homes') {a : ActivationId}
    (known : (homes (.activation a)).isSome = true) : homes'.firm a = homes.firm a := by
  obtain ⟨home, found⟩ := Option.isSome_iff_exists.mp known
  rw [Homes.firm_eq found, Homes.firm_eq (extended _ _ found)]

theorem Extends.known {homes homes' : Homes} (extended : homes.Extends homes') {x : Item}
    (known : (homes x).isSome = true) : (homes' x).isSome = true := by
  obtain ⟨home, found⟩ := Option.isSome_iff_exists.mp known
  rw [extended _ _ found]
  rfl

end Homes

variable {homes homes' : Homes} {h : Holder} {firm : Bool} {r q x : Item} {a b : ActivationId} {path : List Nat}

/-- One item is another, or is somewhere inside its output. -/
inductive Below (homes : Homes) (r : Item) : Item → Prop
  | self : Below homes r r
  | inside {x : Item} {a : ActivationId} {firm : Bool} {path : List Nat} :
      homes x = some ⟨.output a, firm, path⟩ → Below homes r (.activation a) → Below homes r x

namespace Below

theorem trans (one : Below homes r q) (two : Below homes q x) : Below homes r x := by
  induction two with
  | self => exact one
  | inside home _ ih => exact .inside home ih

theorem extend (below : Below homes r x) (extended : homes.Extends homes') : Below homes' r x := by
  induction below with
  | self => exact .self
  | inside home _ ih => exact .inside (extended _ _ home) ih

theorem of_output (home : homes x = some ⟨.output a, firm, path⟩) : Below homes (.activation a) x :=
  .inside home .self

theorem eq_of_node (below : Below homes (.node n) x) : x = .node n := by
  induction below with
  | self => rfl
  | inside _ _ ih => cases ih

theorem index_le (rising : homes.Rising) (below : Below homes (.activation a) (.activation b)) :
    a.index ≤ b.index := by
  generalize named : Item.activation b = x at below
  induction below generalizing b with
  | self =>
      cases named
      exact Nat.le_refl _
  | inside home _ ih =>
      subst named
      exact Nat.le_of_lt (Nat.lt_of_le_of_lt (ih rfl) (rising home))

theorem linear (one : Below homes r x) (two : Below homes q x) : Below homes r q ∨ Below homes q r := by
  induction one with
  | self => exact .inr two
  | inside home below ih =>
      cases two with
      | self => exact .inl (.inside home below)
      | inside home' below' =>
          cases home.symm.trans home'
          exact ih below'

/-- What an output holds is not around it. -/
theorem not_holder (rising : homes.Rising) (home : homes r = some ⟨.output a, firm, path⟩) :
    ¬ Below homes r (.activation a) := by
  intro below
  cases r with
  | node n => cases below.eq_of_node
  | activation b => exact absurd (below.index_le rising) (Nat.not_le_of_lt (rising home))

theorem eq_of_holder (rising : homes.Rising) (one : homes r = some ⟨h, firm, path⟩)
    (two : homes q = some ⟨h, firm', path'⟩) (below : Below homes r q) : r = q := by
  cases below with
  | self => rfl
  | inside home below =>
      cases two.symm.trans home
      exact absurd below (not_holder rising one)

theorem apart (rising : homes.Rising) (one : homes r = some ⟨h, firm, path⟩)
    (two : homes q = some ⟨h, firm', path'⟩) (other : r ≠ q) (inside : Below homes r x) : ¬ Below homes q x := by
  intro inside'
  rcases inside.linear inside' with below | below
  · exact other (below.eq_of_holder rising one two)
  · exact other (below.eq_of_holder rising two one).symm

end Below

/-- What is at home at some of a holder's positions, or inside something that is. -/
def Within (homes : Homes) (h : Holder) (positions : List Nat → Prop) (x : Item) : Prop :=
  ∃ r firm path, homes r = some ⟨h, firm, path⟩ ∧ positions path ∧ Below homes r x

/-- From the entry at `i` on, in the list that `path` leads to. -/
def From (path : List Nat) (i : Nat) (p : List Nat) : Prop := ∃ j, i ≤ j ∧ (j :: path) <:+ p

/-- At the entry at `i`, in the list that `path` leads to. -/
def At (path : List Nat) (i : Nat) (p : List Nat) : Prop := (i :: path) <:+ p

theorem eq_of_suffix {i j : Nat} {path whole : List Nat} (one : (i :: path) <:+ whole)
    (two : (j :: path) <:+ whole) : i = j := by
  have suffix := List.suffix_of_suffix_length_le one two (Nat.le_refl _)
  exact (List.cons.inj (suffix.eq_of_length rfl)).1

theorem At.from (here : At path i p) : From path i p := ⟨i, Nat.le_refl i, here⟩

theorem From.of_succ (later : From path (i + 1) p) : From path i p := by
  obtain ⟨j, after, suffix⟩ := later
  exact ⟨j, Nat.le_of_succ_le after, suffix⟩

theorem From.not_at (later : From path (i + 1) p) : ¬ At path i p := by
  intro here
  obtain ⟨j, after, suffix⟩ := later
  exact absurd (eq_of_suffix here suffix) (Nat.ne_of_lt after)

theorem From.at (inner : From (i :: path) k p) : At path i p := by
  obtain ⟨j, -, suffix⟩ := inner
  exact (List.suffix_cons j _).trans suffix

namespace Within

variable {positions positions' : List Nat → Prop}

theorem extend (within : Within homes h positions x) (extended : homes.Extends homes') :
    Within homes' h positions x := by
  obtain ⟨r, firm, path, home, here, below⟩ := within
  exact ⟨r, firm, path, extended _ _ home, here, below.extend extended⟩

theorem mono (within : Within homes h positions x) (more : ∀ p, positions p → positions' p) :
    Within homes h positions' x := by
  obtain ⟨r, firm, path, home, here, below⟩ := within
  exact ⟨r, firm, path, home, more path here, below⟩

theorem of_home (home : homes x = some ⟨h, firm, path⟩) (here : positions path) : Within homes h positions x :=
  ⟨x, firm, path, home, here, .self⟩

theorem below (within : Within homes h positions r) (inside : Below homes r x) : Within homes h positions x := by
  obtain ⟨q, firm, path, home, here, below⟩ := within
  exact ⟨q, firm, path, home, here, below.trans inside⟩

theorem of_output (within : Within homes (.output a) positions x) : Below homes (.activation a) x := by
  obtain ⟨r, firm, path, home, -, below⟩ := within
  exact (Below.of_output home).trans below

theorem position (rising : homes.Rising) (home : homes x = some ⟨h, firm, path⟩)
    (within : Within homes h positions x) : positions path := by
  obtain ⟨r, firm', path', home', here, below⟩ := within
  cases below.eq_of_holder rising home' home
  cases home.symm.trans home'
  exact here

theorem holder_eq (home : homes x = some ⟨.container place depth, firm, path⟩)
    (within : Within homes h positions x) : h = .container place depth := by
  obtain ⟨r, firm', path', home', -, below⟩ := within
  cases below with
  | self => cases home.symm.trans home'; rfl
  | inside inner _ => cases home.symm.trans inner

theorem not_holder (rising : homes.Rising) : ¬ Within homes (.output a) positions (.activation a) := by
  rintro ⟨r, firm, path, home, -, below⟩
  exact below.not_holder rising home

end Within

namespace Mounted

mutual

/-- What an entry records itself. What a component shows is recorded in its activation's output. -/
def items : Mounted → List Item
  | text n | raw n _ => [.node n]
  | element n _ children => .node n :: itemsAll children
  | component a => [.activation a]

def itemsAll : List Mounted → List Item
  | [] => []
  | m :: rest => items m ++ itemsAll rest

end

end Mounted

open Mounted (items itemsAll)

/-- Everything that a list records is at home there, and nothing in it is adopted. -/
inductive Seated (homes : Homes) (h : Holder) :
    (firm : Bool) → (path : List Nat) → (i : Nat) → List Mounted → Prop
  | nil {firm : Bool} {path : List Nat} {i : Nat} : Seated homes h firm path i []
  | text {firm : Bool} {path : List Nat} {i : Nat} {n : NodeId} {rest : List Mounted} :
      homes (.node n) = some ⟨h, firm, i :: path⟩ → Seated homes h firm path (i + 1) rest →
      Seated homes h firm path i (.text n :: rest)
  | element {firm : Bool} {path : List Nat} {i : Nat} {n : NodeId} {tag : String} {children rest : List Mounted} :
      homes (.node n) = some ⟨h, firm, i :: path⟩ → Seated homes h true (i :: path) 0 children →
      Seated homes h firm path (i + 1) rest → Seated homes h firm path i (.element n tag children :: rest)
  | component {firm : Bool} {path : List Nat} {i : Nat} {a : ActivationId} {rest : List Mounted} :
      homes (.activation a) = some ⟨h, firm, i :: path⟩ → Seated homes h firm path (i + 1) rest →
      Seated homes h firm path i (.component a :: rest)

namespace Seated

variable {i : Nat} {m : Mounted} {ms rest : List Mounted}

theorem extend (seated : Seated homes h firm path i ms) (extended : homes.Extends homes') :
    Seated homes' h firm path i ms := by
  induction seated with
  | nil => exact .nil
  | text home _ ih => exact .text (extended _ _ home) ih
  | element home _ _ inner ih => exact .element (extended _ _ home) inner ih
  | component home _ ih => exact .component (extended _ _ home) ih

theorem cons (first : Seated homes h firm path i [m]) (others : Seated homes h firm path (i + 1) rest) :
    Seated homes h firm path i (m :: rest) := by
  cases first with
  | text home _ => exact .text home others
  | element home inner _ => exact .element home inner others
  | component home _ => exact .component home others

theorem head (seated : Seated homes h firm path i (m :: rest)) : Seated homes h firm path i [m] := by
  cases seated with
  | text home _ => exact .text home .nil
  | element home inner _ => exact .element home inner .nil
  | component home _ => exact .component home .nil

theorem tail (seated : Seated homes h firm path i (m :: rest)) : Seated homes h firm path (i + 1) rest := by
  cases seated with
  | text _ others => exact others
  | element _ _ others => exact others
  | component _ others => exact others

theorem home_of_mem (seated : Seated homes h firm path i ms) (member : r ∈ itemsAll ms) :
    ∃ firm' p, From path i p ∧ homes r = some ⟨h, firm', p⟩ := by
  induction seated with
  | nil => cases member
  | @text firm path i n rest home _ ih =>
      rcases List.mem_cons.mp member with rfl | later
      · exact ⟨firm, _, ⟨i, Nat.le_refl i, List.suffix_rfl⟩, home⟩
      · obtain ⟨firm', p, after, found⟩ := ih later
        exact ⟨firm', p, after.of_succ, found⟩
  | @element firm path i n tag children rest home _ _ inner ih =>
      rcases List.mem_append.mp member with own | later
      · rcases List.mem_cons.mp own with rfl | deeper
        · exact ⟨firm, _, ⟨i, Nat.le_refl i, List.suffix_rfl⟩, home⟩
        · obtain ⟨firm', p, after, found⟩ := inner deeper
          exact ⟨firm', p, after.at.from, found⟩
      · obtain ⟨firm', p, after, found⟩ := ih later
        exact ⟨firm', p, after.of_succ, found⟩
  | @component firm path i a rest home _ ih =>
      rcases List.mem_cons.mp member with rfl | later
      · exact ⟨firm, _, ⟨i, Nat.le_refl i, List.suffix_rfl⟩, home⟩
      · obtain ⟨firm', p, after, found⟩ := ih later
        exact ⟨firm', p, after.of_succ, found⟩

theorem home_of_mem_items (seated : Seated homes h firm path i [m]) (member : r ∈ items m) :
    ∃ firm' p, At path i p ∧ homes r = some ⟨h, firm', p⟩ := by
  cases seated with
  | text home _ =>
      cases List.mem_singleton.mp member
      exact ⟨firm, _, List.suffix_rfl, home⟩
  | component home _ =>
      cases List.mem_singleton.mp member
      exact ⟨firm, _, List.suffix_rfl, home⟩
  | element home inner _ =>
      rcases List.mem_cons.mp member with rfl | deeper
      · exact ⟨firm, _, List.suffix_rfl, home⟩
      · obtain ⟨firm', p, after, found⟩ := inner.home_of_mem deeper
        exact ⟨firm', p, after.at, found⟩

theorem not_within_at (seated : Seated homes h firm path i (m :: rest)) (rising : homes.Rising)
    (member : r ∈ itemsAll rest) : ¬ Within homes h (At path i) r := by
  obtain ⟨firm', p, after, home⟩ := seated.tail.home_of_mem member
  exact fun within => after.not_at (within.position rising home)

theorem not_within_from (seated : Seated homes h firm path i [m]) (rising : homes.Rising)
    (member : r ∈ items m) : ¬ Within homes h (From path (i + 1)) r := by
  obtain ⟨firm', p, here, home⟩ := seated.home_of_mem_items member
  exact fun within => (within.position rising home).not_at here

end Seated

/-- The plans are for positions of these kinds. Each activation in them is at home at its position, and nothing
that is planned wraps a live node. -/
inductive Laid (homes : Homes) : (h : Holder) → (firm : Bool) → (path : List Nat) → (i : Nat) →
    List Plan → List Flat → Prop
  | nil {h : Holder} {firm : Bool} {path : List Nat} {i : Nat} : Laid homes h firm path i [] []
  | text {h : Holder} {firm : Bool} {path : List Nat} {i : Nat} {content : String} {reuse : Bool}
      {plans : List Plan} {flats : List Flat} : Laid homes h firm path (i + 1) plans flats →
      Laid homes h firm path i (.text content reuse :: plans) (.text content :: flats)
  | raw {h : Holder} {firm : Bool} {path : List Nat} {i : Nat} {node : RawNode} {reuse : Bool}
      {plans : List Plan} {flats : List Flat} : node.wraps = none → Laid homes h firm path (i + 1) plans flats →
      Laid homes h firm path i (.raw node reuse :: plans) (.raw node :: flats)
  | element {h : Holder} {firm : Bool} {path : List Nat} {i : Nat} {tag : String} {attributes : Attributes}
      {children : List Plan} {inner : List Flat} {reuse : Bool} {plans : List Plan} {flats : List Flat} :
      Laid homes h true (i :: path) 0 children inner → Laid homes h firm path (i + 1) plans flats →
      Laid homes h firm path i (.element tag attributes children reuse :: plans)
        (.element tag attributes inner :: flats)
  | component {h : Holder} {firm : Bool} {path : List Nat} {i : Nat} {a : ActivationId} {fresh : Bool}
      {component : Component} {props : Props} {tree : Tree} {output : List Plan} {reference : ComponentRef}
      {plans : List Plan} {flats : List Flat} : homes (.activation a) = some ⟨h, firm, i :: path⟩ →
      Laid homes (.output a) firm [] 0 output tree.flattenOutput → Laid homes h firm path (i + 1) plans flats →
      Laid homes h firm path i (.component a fresh component props tree output :: plans)
        (.component reference :: flats)

namespace Laid

variable {i : Nat} {plan : Plan} {plans : List Plan} {flat : Flat} {flats : List Flat}

theorem extend (laid : Laid homes h firm path i plans flats) (extended : homes.Extends homes') :
    Laid homes' h firm path i plans flats := by
  induction laid with
  | nil => exact .nil
  | text _ ih => exact .text ih
  | raw blank _ ih => exact .raw blank ih
  | element _ _ inner ih => exact .element inner ih
  | component home _ _ inner ih => exact .component (extended _ _ home) inner ih

theorem cons (first : Laid homes h firm path i [plan] [flat]) (others : Laid homes h firm path (i + 1) plans flats) :
    Laid homes h firm path i (plan :: plans) (flat :: flats) := by
  cases first with
  | text _ => exact .text others
  | raw blank _ => exact .raw blank others
  | element inner _ => exact .element inner others
  | component home inner _ => exact .component home inner others

theorem head (laid : Laid homes h firm path i (plan :: plans) (flat :: flats)) :
    Laid homes h firm path i [plan] [flat] := by
  cases laid with
  | text _ => exact .text .nil
  | raw blank _ => exact .raw blank .nil
  | element inner _ => exact .element inner .nil
  | component home inner _ => exact .component home inner .nil

theorem tail (laid : Laid homes h firm path i (plan :: plans) (flat :: flats)) :
    Laid homes h firm path (i + 1) plans flats := by
  cases laid with
  | text others => exact others
  | raw _ others => exact others
  | element _ others => exact others
  | component _ _ others => exact others

theorem exists_cons (laid : Laid homes h firm path i (plan :: plans) flats) :
    ∃ flat others, flats = flat :: others := by
  cases laid with
  | text | raw | element | component => exact ⟨_, _, rfl⟩

theorem within (laid : Laid homes h firm path i plans flats) (member : a ∈ Plan.activationsAll plans) :
    Within homes h (From path i) (.activation a) := by
  induction laid with
  | nil => cases member
  | text _ ih => exact (ih member).mono fun _ => From.of_succ
  | raw _ _ ih => exact (ih member).mono fun _ => From.of_succ
  | element _ _ inner ih =>
      rcases List.mem_append.mp member with deeper | later
      · exact (inner deeper).mono fun _ here => here.at.from
      · exact (ih later).mono fun _ => From.of_succ
  | component home _ _ inner ih =>
      rcases List.mem_append.mp member with own | later
      · have here : Within _ _ (From _ _) _ := .of_home home ⟨_, Nat.le_refl _, List.suffix_rfl⟩
        rcases List.mem_cons.mp own with rfl | deeper
        · exact here
        · exact here.below (inner deeper).of_output
      · exact (ih later).mono fun _ => From.of_succ

theorem within_at (laid : Laid homes h firm path i [plan] [flat]) (member : a ∈ plan.activations) :
    Within homes h (At path i) (.activation a) := by
  cases laid with
  | text _ => cases member
  | raw _ _ => cases member
  | element inner _ => exact (inner.within member).mono fun _ => From.at
  | component home inner _ =>
      have here : Within _ _ (At _ _) _ := .of_home home List.suffix_rfl
      rcases List.mem_cons.mp member with rfl | deeper
      · exact here
      · exact here.below (inner.within deeper).of_output

theorem holder (laid : Laid homes h firm path i plans flats) (member : a ∈ Plan.activationsAll plans) :
    ∃ h' firm' path', homes (.activation a) = some ⟨h', firm', path'⟩ ∧
      (h' = h ∨ ∃ b ∈ Plan.activationsAll plans, h' = .output b) := by
  induction laid with
  | nil => cases member
  | text _ ih => exact ih member
  | raw _ _ ih => exact ih member
  | element _ _ inner ih =>
      rcases List.mem_append.mp member with deeper | later
      · obtain ⟨h', firm', path', home, place⟩ := inner deeper
        exact ⟨h', firm', path', home, place.imp_right fun ⟨b, there, same⟩ =>
          ⟨b, List.mem_append_left _ there, same⟩⟩
      · obtain ⟨h', firm', path', home, place⟩ := ih later
        exact ⟨h', firm', path', home, place.imp_right fun ⟨b, there, same⟩ =>
          ⟨b, List.mem_append_right _ there, same⟩⟩
  | @component h firm path i c _ _ _ _ _ _ _ _ home _ _ inner ih =>
      rcases List.mem_append.mp member with own | later
      · rcases List.mem_cons.mp own with rfl | deeper
        · exact ⟨h, firm, _, home, .inl rfl⟩
        · obtain ⟨h', firm', path', home, place⟩ := inner deeper
          refine ⟨h', firm', path', home, .inr ?_⟩
          rcases place with rfl | ⟨b, there, same⟩
          · exact ⟨c, List.mem_append_left _ (List.mem_cons_self ..), rfl⟩
          · exact ⟨b, List.mem_append_left _ (List.mem_cons_of_mem _ there), same⟩
      · obtain ⟨h', firm', path', home, place⟩ := ih later
        exact ⟨h', firm', path', home, place.imp_right fun ⟨b, there, same⟩ =>
          ⟨b, List.mem_append_right _ there, same⟩⟩

theorem distinct (laid : Laid homes h firm path i (plan :: plans) (flat :: flats)) (rising : homes.Rising)
    (member : a ∈ plan.activations) : a ∉ Plan.activationsAll plans := by
  intro again
  obtain ⟨r, _, p, home, here, below⟩ := laid.head.within_at member
  obtain ⟨q, _, p', home', later, below'⟩ := laid.tail.within again
  by_cases same : r = q
  · subst same
    cases home.symm.trans home'
    exact later.not_at here
  · exact Below.apart rising home home' same below below'

end Laid
end Patchwork
