import Patchwork.Proofs.CanvasSteps
import Patchwork.Proofs.DocumentPictures
import Patchwork.Proofs.Spot

/-! Staging pictures. Every node of a picture has a role: it is a text, or an element that wears
attributes. To draw, redraw or erase a picture concerns the nodes that have a role in it and no others,
wherever they hang and whether or not the place that they are put into is there. -/
namespace Patchwork

open Picture

/-- What a node is there for. -/
inductive Role
  | text
  /-- An element that was just made and was given no attributes yet. -/
  | blank (tag : String)
  | element (tag : String) (attributes : Attributes)

namespace Document

variable {d e : Document} {n : NodeId}

/-- What a node is by itself, apart from a live value. -/
def worn? (d : Document) (n : NodeId) : Option Content := (d.node? n).map (·.content.worn)

theorem worn?_of_content (same : (e.node? n).map Node.content = (d.node? n).map Node.content) :
    e.worn? n = d.worn? n := by
  have mapped := congrArg (Option.map Content.worn) same
  rwa [Option.map_map, Option.map_map] at mapped

theorem contains_of_worn (same : e.worn? n = d.worn? n) : e.contains n = d.contains n := by
  have present := congrArg Option.isSome same
  rwa [worn?, worn?, Option.isSome_map, Option.isSome_map] at present

theorem text?_of_worn (same : e.worn? n = d.worn? n) (found : d.text? n = some s) : e.text? n = some s := by
  obtain ⟨node, there, content⟩ := Option.map_eq_some_iff.mp (text?_eq_some.mp found)
  rw [worn?, worn?, there, Option.map_some, content] at same
  obtain ⟨node', there', content'⟩ := Option.map_eq_some_iff.mp same
  rw [text?_eq_some, there', Option.map_some]
  cases worn : node'.content with
  | text => rw [worn] at content'; exact congrArg some content'
  | element => rw [worn] at content'; cases content'

theorem element?_of_worn {el : Element} (same : e.worn? n = d.worn? n) (found : d.element? n = some el) :
    ∃ el', e.element? n = some el' ∧ { el' with value := none } = { el with value := none } := by
  obtain ⟨node, there, content⟩ := Option.map_eq_some_iff.mp (element?_eq_some.mp found)
  rw [worn?, worn?, there, Option.map_some, content] at same
  obtain ⟨node', there', content'⟩ := Option.map_eq_some_iff.mp same
  cases worn : node'.content with
  | text => rw [worn] at content'; cases content'
  | element el' =>
      rw [worn] at content'
      refine ⟨el', ?_, Content.element.inj content'⟩
      rw [element?_eq_some, there', Option.map_some, worn]

theorem worn?_detach (d : Document) (child n : NodeId) : (d.detach child).worn? n = d.worn? n := by
  rw [detach]
  split
  · rfl
  · refine worn?_of_content ?_
    simp only [node?_modify]
    cases d.node? n with
    | none => simp only [Option.map_none, ite_self]
    | some node => split <;> split <;> rfl

theorem worn?_attach (d : Document) (parent child : NodeId) (before : Option NodeId) (n : NodeId) :
    (d.attach parent child before).worn? n = d.worn? n := by
  refine worn?_of_content ?_
  rw [node?_attach, Option.map_map]
  cases d.node? n <;> rfl

theorem worn?_insertBefore (d : Document) (parent child : NodeId) (before : Option NodeId) :
    (∀ n, (d.insertBefore parent child before).value.worn? n = d.worn? n) ∧
      (d.insertBefore parent child before).value.issued = d.issued := by
  cases there : d.contains child with
  | false =>
      rw [insertBefore_of_missing there]
      exact ⟨fun _ => rfl, rfl⟩
  | true =>
      cases holder : d.element? parent with
      | none =>
          rw [insertBefore_of_stranger holder]
          exact ⟨fun _ => rfl, rfl⟩
      | some e =>
          rw [value_insertBefore there holder]
          refine ⟨fun n => ?_, ?_⟩
          · rw [worn?_attach, worn?_detach]
          · rw [issued_attach, Linked.issued_detach]

theorem worn?_removeChild (d : Document) (parent child : NodeId) :
    (∀ n, (d.removeChild parent child).value.worn? n = d.worn? n) ∧
      (d.removeChild parent child).value.issued = d.issued := by
  rw [removeChild]
  split
  · exact ⟨worn?_detach d child, Linked.issued_detach d child⟩
  · exact ⟨fun _ => rfl, rfl⟩

theorem worn?_release (d : Document) (n k : NodeId) :
    (d.release n).value.worn? k = if k = n then none else d.worn? k := by
  rw [release, worn?, node?_free]
  split
  · rfl
  · exact worn?_detach d n k

end Document

namespace Picture

mutual

/-- The nodes of a picture with their roles. -/
def roles : Picture → List (NodeId × Role)
  | text node _ | missing node _ | raw node _ _ => [(node, .text)]
  | element node tag attributes children => (node, .element tag attributes) :: rolesAll children
  | component _ _ _ _ output => rolesAll output

def rolesAll : List Picture → List (NodeId × Role)
  | [] => []
  | p :: rest => roles p ++ rolesAll rest

end

mutual

theorem map_fst_roles : ∀ p : Picture, (roles p).map Prod.fst = nodes p
  | text .. | missing .. | raw .. => by simp only [roles, nodes, List.map_cons, List.map_nil]
  | element _ _ _ children => by rw [roles, nodes, List.map_cons, map_fst_rolesAll children]
  | component _ _ _ _ output => by rw [roles, nodes, map_fst_rolesAll output]

theorem map_fst_rolesAll : ∀ ps : List Picture, (rolesAll ps).map Prod.fst = nodesAll ps
  | [] => rfl
  | p :: rest => by rw [rolesAll, nodesAll, List.map_append, map_fst_roles p, map_fst_rolesAll rest]

end

theorem rolesAll_append (ps qs : List Picture) : rolesAll (ps ++ qs) = rolesAll ps ++ rolesAll qs := by
  induction ps with
  | nil => rfl
  | cons p rest ih => rw [List.cons_append, rolesAll, rolesAll, ih, List.append_assoc]

theorem exists_around_roles (spot : Spot) :
    ∃ around, ∀ p, (rolesAll (spot.fill p)).Perm (roles p ++ around) := by
  induction spot with
  | here before after =>
      refine ⟨rolesAll before ++ rolesAll after, fun p => ?_⟩
      rw [Spot.fill, rolesAll_append, rolesAll]
      exact List.perm_append_comm_assoc ..
  | element before n tag attributes inner after ih =>
      obtain ⟨around, perm⟩ := ih
      refine ⟨around ++ (rolesAll before ++ (n, .element tag attributes) :: rolesAll after), fun p => ?_⟩
      rw [Spot.fill, rolesAll_append, rolesAll, roles]
      have inside := (perm p).append_right (rolesAll before ++ (n, .element tag attributes) :: rolesAll after)
      rw [List.append_assoc] at inside
      refine .trans ?_ inside
      rw [List.cons_append]
      refine List.perm_middle.trans (.trans ?_ List.perm_append_comm)
      rw [List.append_assoc, List.cons_append]
      refine .trans (.cons _ ?_) List.perm_middle.symm
      exact List.Perm.append_left _ List.perm_append_comm
  | component before a c props tree inner after ih =>
      obtain ⟨around, perm⟩ := ih
      refine ⟨around ++ (rolesAll before ++ rolesAll after), fun p => ?_⟩
      rw [Spot.fill, rolesAll_append, rolesAll, roles]
      have inside := (perm p).append_right (rolesAll before ++ rolesAll after)
      rw [List.append_assoc] at inside
      exact .trans (List.perm_append_comm_assoc ..) inside

end Picture

namespace Canvas

variable {D : Type} [Documented D] {c c' c'' : Canvas D} {xs ys zs rest : List (NodeId × Role)}

/-- A node plays a role: it is what the role says, and there is bookkeeping for it just if it is an
element that wears its attributes. -/
def Plays (c : Canvas D) (n : NodeId) : Role → Prop
  | .text => (∃ content, c.document.text? n = some content) ∧ c.binder[n]? = none
  | .blank tag => (∃ e, c.document.element? n = some e ∧ Binder.Wears tag .empty e .empty) ∧
      c.binder[n]? = none
  | .element tag attributes => ElementAt c.document c.binder n tag attributes

/-- The node by itself and its bookkeeping are as they were. -/
structure Untouched (c c' : Canvas D) (n : NodeId) : Prop where
  worn : c'.document.worn? n = c.document.worn? n
  binder : c'.binder[n]? = c.binder[n]?

theorem Untouched.trans (one : Untouched c c' n) (two : Untouched c' c'' n) : Untouched c c'' n :=
  ⟨two.worn.trans one.worn, two.binder.trans one.binder⟩

theorem Untouched.contains (untouched : Untouched c c' n) :
    c'.document.contains n = c.document.contains n := Document.contains_of_worn untouched.worn

namespace Plays

theorem contains (plays : c.Plays n role) : c.document.contains n = true := by
  cases role with
  | text =>
      obtain ⟨⟨_, found⟩, -⟩ := plays
      exact Document.contains_of_text? found
  | blank =>
      obtain ⟨⟨_, found, -⟩, -⟩ := plays
      exact Document.contains_of_element? found
  | element => exact ElementAt.contains plays

theorem index_le (plays : c.Plays n role) : n.index ≤ c.document.issued := by
  obtain ⟨node, found⟩ := Document.contains_iff.mp plays.contains
  exact Document.index_le_issued found

theorem congr (plays : c.Plays n role) (untouched : Untouched c c' n) : c'.Plays n role := by
  cases role with
  | text =>
      obtain ⟨⟨content, found⟩, unbound⟩ := plays
      exact ⟨⟨content, Document.text?_of_worn untouched.worn found⟩, untouched.binder.trans unbound⟩
  | blank =>
      obtain ⟨⟨e, found, wears⟩, unbound⟩ := plays
      obtain ⟨e', found', same⟩ := Document.element?_of_worn untouched.worn found
      exact ⟨⟨e', found', wears.of_value same⟩, untouched.binder.trans unbound⟩
  | element =>
      obtain ⟨e, b, found, bound, wears⟩ := plays
      obtain ⟨e', found', same⟩ := Document.element?_of_worn untouched.worn found
      exact ⟨e', b, found', untouched.binder.trans bound, wears.of_value same⟩

end Plays

/-- Each of the nodes plays its role, and there is no bookkeeping for nodes that were never issued. -/
structure Staged (xs : List (NodeId × Role)) (c : Canvas D) : Prop where
  unbound : ∀ n : NodeId, c.document.issued < n.index → c.binder[n]? = none
  plays : ∀ x ∈ xs, c.Plays x.1 x.2
  distinct : (xs.map Prod.fst).Nodup

namespace Staged

theorem perm (staged : Staged xs c) (same : xs.Perm ys) : Staged ys c where
  unbound := staged.unbound
  plays x member := staged.plays x (same.mem_iff.mpr member)
  distinct := (same.map Prod.fst).nodup_iff.mp staged.distinct

theorem left (staged : Staged (xs ++ rest) c) : Staged xs c where
  unbound := staged.unbound
  plays x member := staged.plays x (List.mem_append_left _ member)
  distinct := by
    have distinct := staged.distinct
    rw [List.map_append] at distinct
    exact (List.nodup_append'.mp distinct).1

theorem right (staged : Staged (xs ++ rest) c) : Staged rest c := (staged.perm List.perm_append_comm).left

theorem nothing (staged : Staged xs c) : Staged [] c := ⟨staged.unbound, List.forall_mem_nil _, .nil⟩

theorem plays_of_mem (staged : Staged xs c) (member : n ∈ xs.map Prod.fst) : ∃ role, c.Plays n role := by
  obtain ⟨x, there, rfl⟩ := List.mem_map.mp member
  exact ⟨x.2, staged.plays x there⟩

end Staged

/-- Other nodes came to play roles. What lost its role is gone, what has one now and had none before is new, and
all else is as it was. -/
structure Restages (xs ys : List (NodeId × Role)) (c c' : Canvas D) : Prop where
  before : Staged xs c
  after : Staged ys c'
  within : ∀ n ∈ ys.map Prod.fst, n ∈ xs.map Prod.fst ∨ c.document.issued < n.index
  gone : ∀ n ∈ xs.map Prod.fst, n ∉ ys.map Prod.fst →
    c'.document.contains n = false ∧ c'.binder[n]? = none
  issued : c.document.issued ≤ c'.document.issued
  others : ∀ n, n ∉ xs.map Prod.fst → n ∉ ys.map Prod.fst → Untouched c c' n

namespace Restages

theorem trans (one : Restages xs ys c c') (two : Restages ys zs c' c'') : Restages xs zs c c'' where
  before := one.before
  after := two.after
  within n member := (two.within n member).elim (one.within n) fun late =>
    .inr (Nat.lt_of_le_of_lt one.issued late)
  gone n was lost := by
    by_cases between : n ∈ ys.map Prod.fst
    · exact two.gone n between lost
    · have untouched := two.others n between lost
      obtain ⟨left, unbound⟩ := one.gone n was between
      exact ⟨untouched.contains.trans left, untouched.binder.trans unbound⟩
  issued := Nat.le_trans one.issued two.issued
  others n was lost := by
    by_cases between : n ∈ ys.map Prod.fst
    · -- A node that came and went leaves nothing behind.
      have late := (one.within n between).resolve_left was
      obtain ⟨left, unbound⟩ := two.gone n between lost
      have never : c.document.node? n = none := Document.node?_eq_none late
      refine ⟨?_, unbound.trans (one.before.unbound n late).symm⟩
      rw [Document.contains, Option.isSome_eq_false_iff, Option.isNone_iff_eq_none] at left
      rw [Document.worn?, Document.worn?, left, never]
    · exact (one.others n was between).trans (two.others n between lost)

theorem perm {xs' ys' : List (NodeId × Role)} (one : Restages xs ys c c') (first : xs.Perm xs')
    (second : ys.Perm ys') : Restages xs' ys' c c' where
  before := one.before.perm first
  after := one.after.perm second
  within n member := (one.within n ((second.map Prod.fst).mem_iff.mpr member)).imp_left
    (first.map Prod.fst).mem_iff.mp
  gone n was lost := one.gone n ((first.map Prod.fst).mem_iff.mpr was)
    fun member => lost ((second.map Prod.fst).mem_iff.mp member)
  issued := one.issued
  others n was lost := one.others n (fun member => was ((first.map Prod.fst).mem_iff.mp member))
    fun member => lost ((second.map Prod.fst).mem_iff.mp member)

/-- Whoever else plays a role goes on with it. -/
theorem frame (whole : Staged (xs ++ rest) c) (one : Restages xs ys c c') :
    Restages (xs ++ rest) (ys ++ rest) c c' := by
  have distinct := whole.distinct
  rw [List.map_append, List.nodup_append'] at distinct
  obtain ⟨-, distinct, apart⟩ := distinct
  have elsewhere : ∀ n ∈ rest.map Prod.fst, n ∉ ys.map Prod.fst := fun n member new => by
    obtain ⟨role, plays⟩ := whole.right.plays_of_mem member
    exact (one.within n new).elim (fun old => apart old member) (Nat.not_lt_of_le plays.index_le)
  refine ⟨whole, ⟨one.after.unbound, fun x member => ?_, ?_⟩, fun n member => ?_, fun n was lost => ?_,
    one.issued, fun n was lost => ?_⟩
  · rcases List.mem_append.mp member with new | old
    · exact one.after.plays x new
    · have named := List.mem_map_of_mem (f := Prod.fst) old
      exact (whole.right.plays x old).congr
        (one.others x.1 (fun early => apart early named) (elsewhere x.1 named))
  · rw [List.map_append, List.nodup_append']
    exact ⟨one.after.distinct, distinct, fun n new old => elsewhere n old new⟩
  · rw [List.map_append, List.mem_append] at member ⊢
    rcases member with new | old
    · exact (one.within n new).imp_left .inl
    · exact .inl (.inr old)
  · rw [List.map_append, List.mem_append] at was
    rw [List.map_append, List.mem_append, not_or] at lost
    exact one.gone n (was.resolve_right lost.2) lost.1
  · rw [List.map_append, List.mem_append, not_or] at was lost
    exact one.others n was.1 lost.1

/-- First some change their roles, and then some others. -/
theorem append {xs' ys' : List (NodeId × Role)} (whole : Staged (xs ++ xs') c)
    (one : Restages xs ys c c') (two : Staged xs' c' → Restages xs' ys' c' c'') :
    Restages (xs ++ xs') (ys ++ ys') c c'' := by
  have first := one.frame whole
  have second := frame (first.after.perm List.perm_append_comm) (two first.after.right)
  exact first.trans (second.perm List.perm_append_comm List.perm_append_comm)

theorem beside (staged : Staged rest c) (one : Restages [] ys c c') : Restages rest (ys ++ rest) c c' :=
  frame (show Staged ([] ++ rest) c from staged) one

theorem appear (one : Restages [] ys c c') (two : Staged [] c' → Restages [] zs c' c'') :
    Restages [] (ys ++ zs) c c'' :=
  append (show Staged ([] ++ []) c from one.before) one two

theorem still (staged : Staged xs c) (same : ∀ n, Untouched c c' n)
    (issued : c'.document.issued = c.document.issued) : Restages xs xs c c' where
  before := staged
  after := ⟨fun n late => (same n).binder.trans (staged.unbound n (issued ▸ late)),
    fun x member => (staged.plays x member).congr (same x.1), staged.distinct⟩
  within _ := .inl
  gone _ was lost := absurd was lost
  issued := Nat.le_of_eq issued.symm
  others n _ _ := same n

theorem refl (staged : Staged xs c) : Restages xs xs c c := still staged (fun _ => ⟨rfl, rfl⟩) rfl

theorem of_redone {n : NodeId} {role role' : Role} {content : Content} (staged : Staged [(n, role)] c)
    (document : c'.document = c.document.redone n content)
    (binder : ∀ k : NodeId, k ≠ n → c'.binder[k]? = c.binder[k]?) (plays : c'.Plays n role') :
    Restages [(n, role)] [(n, role')] c c' where
  before := staged
  after := by
    refine ⟨fun k late => ?_, List.forall_mem_singleton.mpr plays, List.nodup_singleton n⟩
    rw [document, Document.issued_redone] at late
    have other : k ≠ n := fun same => by
      have early := (staged.plays _ (List.mem_singleton_self _)).index_le
      rw [← same] at early
      exact Nat.not_lt_of_le early late
    exact (binder k other).trans (staged.unbound k late)
  within _ := .inl
  gone _ was lost := absurd was lost
  issued := by rw [document, Document.issued_redone]
  others k was _ := by
    have other : k ≠ n := fun same => was (same ▸ List.mem_singleton_self n)
    refine ⟨?_, binder k other⟩
    rw [document, Document.worn?, Document.worn?, Document.node?_redone, if_neg other]

theorem of_created {content : Content} {role : Role} (staged : Staged [] c)
    (document : c'.document = (c.document.create content).2) (binder : c'.binder = c.binder)
    (plays : c'.Plays ⟨c.document.issued + 1⟩ role) :
    Restages [] [(⟨c.document.issued + 1⟩, role)] c c' where
  before := staged
  after := by
    refine ⟨fun k late => ?_, List.forall_mem_singleton.mpr plays, List.nodup_singleton _⟩
    rw [document, Document.issued_create] at late
    rw [binder]
    exact staged.unbound k (Nat.lt_of_succ_lt late)
  within k member := by
    rw [List.mem_singleton.mp member]
    exact .inr (Nat.lt_succ_self _)
  gone _ none := (List.not_mem_nil none).elim
  issued := by
    rw [document, Document.issued_create]
    exact Nat.le_succ _
  others k _ other := by
    refine ⟨?_, by rw [binder]⟩
    rw [document, Document.worn?, Document.worn?, Document.node?_create,
      if_neg fun same => other (List.mem_singleton.mpr same)]

end Restages

end Canvas
end Patchwork
