import Mathlib.Logic.Function.Iterate
import Patchwork.Proofs.DocumentLinks

/-! Documents that are arranged by calls. As long as no node is put beneath itself and no node with children is
released, a document is a forest: the two sides of each link agree, no node is listed twice, every way upwards
ends, and no handle is issued again. A node that is inserted changes two lists of children at the most. -/
namespace Patchwork.Document

/-- A call that may change a document. A container is made as an element, and to adopt a node changes nothing. -/
inductive Call
  | createElement (tag : String)
  | createText (text : String)
  | release (n : NodeId)
  | setText (n : NodeId) (text : String)
  | insertBefore (parent child : NodeId) (reference : Option NodeId)
  | removeChild (parent child : NodeId)
  | setAttribute (n : NodeId) (name value : String)
  | removeAttribute (n : NodeId) (name : String)
  | setStyle (n : NodeId) (property value : String)
  | removeStyle (n : NodeId) (property : String)
  | setValue (n : NodeId) (value : String)
  | addListener (n : NodeId) (category : Category) (h : Handler)
  | removeListener (n : NodeId) (category : Category) (h : Handler)

/-- The document after a call, whether or not it could be carried out. -/
def after (d : Document) : Call → Document
  | .createElement tag => (d.createElement tag).2
  | .createText text => (d.createText text).2
  | .release n => (d.release n).value
  | .setText n text => (d.setText n text).value
  | .insertBefore parent child reference => (d.insertBefore parent child reference).value
  | .removeChild parent child => (d.removeChild parent child).value
  | .setAttribute n name value => (d.setAttribute n name value).value
  | .removeAttribute n name => (d.removeAttribute n name).value
  | .setStyle n property value => (d.setStyle n property value).value
  | .removeStyle n property => (d.removeStyle n property).value
  | .setValue n value => (d.setValue n value).value
  | .addListener n category h => (d.addListener n category h).value
  | .removeListener n category h => (d.removeListener n category h).value

def made? (d : Document) : Call → Option NodeId
  | .createElement tag => some (d.createElement tag).1
  | .createText text => some (d.createText text).1
  | _ => none

/-- A node is not put under itself or one of its descendants, and a node that is released has no children. -/
def Allows (d : Document) : Call → Prop
  | .insertBefore parent child _ => ¬ d.Under [child] parent
  | .release n => d.children n = []
  | _ => True

/-- A document after calls that were allowed, and the handles that were given to its nodes in the order of their
creation, those of released nodes included. -/
inductive Arranged : List NodeId → Document → Prop
  | empty : Arranged [] .empty
  | call {made : List NodeId} {d : Document} (arranged : Arranged made d) (call : Call) (allowed : d.Allows call) :
      Arranged (made ++ (d.made? call).toList) (d.after call)

/-- What it takes to be a forest. -/
structure Consistent (d : Document) : Prop where
  child : ∀ p, d.contains p = true → ∀ c, c ∈ d.children p ↔ d.contains c = true ∧ d.parent? c = some p
  once : (d.liveNodes.flatMap d.children).Nodup
  ends : ∀ n, ∃ steps, ((Option.bind · d.parent?)^[steps]) (some n) = none

/-- The second document is the first one with `c` put among the children of `p`: directly before the reference, or
at the end if there is none or it is no child there. Nothing else happens to the lists of children but that `c`
leaves the one it was in. -/
structure Placed (d d' : Document) (p c : NodeId) (reference : Option NodeId) : Prop where
  before : ∀ r front back, reference = some r → (d.children p).filter (· ≠ c) = front ++ r :: back →
    d'.children p = front ++ c :: r :: back
  last : (∀ r, reference = some r → r ∉ d.children p) → d'.children p = (d.children p).filter (· ≠ c) ++ [c]
  others : ∀ q, q ≠ p →
    d'.children q = if d.parent? c = some q then (d.children q).filter (· ≠ c) else d.children q

variable {d e : Document} {c n p : NodeId} {made : List NodeId}

section Grounds

/-- The links agree, every parent is live, and every way upwards ends. -/
structure Grounded (d : Document) : Prop where
  linked : d.Linked
  upheld : ∀ {n p}, d.parent? n = some p → d.contains p = true
  ends : ∀ n, Acc (fun p c => d.parent? c = some p) n

namespace Grounded

theorem empty : Document.empty.Grounded := by
  have orphans : ∀ n, Document.empty.parent? n = none := fun n => by
    rw [parent?, node?]
    exact congrArg (Option.bind · Node.parent) (Arena.get?_empty _)
  refine ⟨.empty, fun {n p} up => ?_, fun n => ⟨n, fun p up => ?_⟩⟩
  · rw [orphans] at up
    cases up
  · rw [orphans] at up
    cases up

theorem of_fewer (grounded : d.Grounded) (linked : e.Linked)
    (fewer : ∀ {n p}, e.parent? n = some p → d.parent? n = some p ∧ e.contains p = true) : e.Grounded where
  linked := linked
  upheld up := (fewer up).2
  ends n := Subrelation.accessible (fun up => (fewer up).1) (grounded.ends n)

theorem create (grounded : d.Grounded) (content : Content) : (d.create content).2.Grounded := by
  refine grounded.of_fewer (grounded.linked.create content) fun {n p} up => ?_
  rw [parent?, node?_create] at up
  split at up
  · cases up
  · have above : d.parent? n = some p := up
    refine ⟨above, ?_⟩
    rw [contains, node?_create]
    split
    · rfl
    · exact grounded.upheld above

theorem redone (grounded : d.Grounded) (n : NodeId) (content : Content) : (d.redone n content).Grounded := by
  refine grounded.of_fewer (grounded.linked.redone n content) fun {k p} up => ?_
  rw [(links_redone d n content k).2.1] at up
  rw [(links_redone d n content p).1]
  exact ⟨up, grounded.upheld up⟩

theorem detach (grounded : d.Grounded) (c : NodeId) : (d.detach c).Grounded := by
  refine grounded.of_fewer (grounded.linked.detach c) fun {n p} up => ?_
  rw [grounded.linked.parent?_detach, Option.ite_none_left_eq_some] at up
  rw [grounded.linked.contains_detach]
  exact ⟨up.2, grounded.upheld up.2⟩

theorem release (grounded : d.Grounded) (childless : d.children n = []) : (d.release n).value.Grounded := by
  refine grounded.of_fewer (grounded.linked.release n) fun {k p} up => ?_
  have above : d.parent? k = some p := by
    rw [parent?, grounded.linked.node?_release] at up
    split at up
    · cases up
    · rw [Option.bind_map] at up
      exact up
  refine ⟨above, ?_⟩
  have other : p ≠ n := by
    rintro rfl
    have child := grounded.linked.child.mpr ⟨above, grounded.upheld above⟩
    rw [childless] at child
    cases child
  rw [contains, grounded.linked.node?_release, if_neg other, Option.isSome_map]
  exact grounded.upheld above

/-- The way upwards from `p` does not lead through `c` when `p` is not under `c`, so a link from `c` to `p` closes
no circle. -/
theorem of_moved (grounded : d.Grounded) (linked : e.Linked) (holds : d.contains p = true)
    (apart : ¬ d.Under [c] p) (contained : ∀ k, e.contains k = d.contains k)
    (moved : ∀ k, e.parent? k = if k = c then some p else d.parent? k) : e.Grounded := by
  have beside : ∀ n, ¬ d.Under [c] n → Acc (fun p c => e.parent? c = some p) n := by
    intro n
    induction grounded.ends n with
    | intro n _ ih =>
      intro aside
      have other : n ≠ c := by
        rintro rfl
        exact aside (.top (List.mem_singleton_self n))
      refine ⟨n, fun q up => ?_⟩
      rw [moved, if_neg other] at up
      refine ih q up fun under => aside (under.child ?_)
      exact grounded.linked.child.mpr ⟨up, grounded.upheld up⟩
  have at_child : Acc (fun p c => e.parent? c = some p) c := by
    refine ⟨c, fun q up => ?_⟩
    rw [moved, if_pos rfl] at up
    cases up
    exact beside p apart
  refine ⟨linked, fun {n q} up => ?_, fun n => ?_⟩
  · rw [contained]
    rw [moved] at up
    split at up
    · cases up
      exact holds
    · exact grounded.upheld up
  · induction grounded.ends n with
    | intro n _ ih =>
      by_cases same : n = c
      · exact same ▸ at_child
      · refine ⟨n, fun q up => ih q ?_⟩
        rwa [moved, if_neg same] at up

theorem insertBefore (grounded : d.Grounded) (apart : ¬ d.Under [c] p) (reference : Option NodeId) :
    (d.insertBefore p c reference).value.Grounded := by
  cases there : d.contains c with
  | false => rwa [insertBefore_of_missing there]
  | true =>
      cases holder : d.element? p with
      | none => rwa [insertBefore_of_stranger holder]
      | some element =>
          have linked := grounded.linked
          have live : (d.detach c).contains c = true := by rw [linked.contains_detach, there]
          refine grounded.of_moved (linked.insertBefore p c reference) (contains_of_element? holder) apart ?_ ?_
          · intro k
            rw [value_insertBefore there holder, contains_attach, linked.contains_detach]
          · intro k
            rw [value_insertBefore there holder, parent?_attach live, linked.parent?_detach]
            split <;> rfl

theorem removeChild (grounded : d.Grounded) (p c : NodeId) : (d.removeChild p c).value.Grounded := by
  rw [Document.removeChild]
  split
  · exact grounded.detach c
  · exact grounded

theorem onElement (grounded : d.Grounded) (n : NodeId) (f : Element → Logged Element) :
    (d.onElement n f).value.Grounded := by
  rw [Document.onElement]
  split
  · exact grounded.redone n _
  · exact grounded
  · exact grounded

theorem setText (grounded : d.Grounded) (n : NodeId) (text : String) : (d.setText n text).value.Grounded := by
  rw [Document.setText]
  split
  · exact grounded.redone n _
  · exact grounded

/-- No call that is allowed closes a circle. -/
theorem after (grounded : d.Grounded) {call : Call} (allowed : d.Allows call) : (d.after call).Grounded := by
  cases call with
  | createElement tag => exact grounded.create _
  | createText text => exact grounded.create _
  | release n => exact grounded.release allowed
  | setText n text => exact grounded.setText n text
  | insertBefore parent child reference => exact grounded.insertBefore allowed reference
  | removeChild parent child => exact grounded.removeChild parent child
  | setAttribute n name value => exact grounded.onElement n _
  | removeAttribute n name => exact grounded.onElement n _
  | setStyle n property value => exact grounded.onElement n _
  | removeStyle n property => exact grounded.onElement n _
  | setValue n value => exact grounded.onElement n _
  | addListener n category h => exact grounded.onElement n _
  | removeListener n category h => exact grounded.onElement n _

theorem exists_steps (acc : Acc (fun p c => d.parent? c = some p) n) :
    ∃ steps, ((Option.bind · d.parent?)^[steps]) (some n) = none := by
  induction acc with
  | intro n _ ih =>
    cases up : d.parent? n with
    | none => exact ⟨1, up⟩
    | some p =>
        obtain ⟨steps, ended⟩ := ih p up
        refine ⟨steps + 1, ?_⟩
        rw [Function.iterate_succ_apply, Option.bind_some, up, ended]

theorem consistent (grounded : d.Grounded) : d.Consistent where
  child p live c := by
    rw [grounded.linked.child]
    constructor
    · rintro ⟨up, -⟩
      obtain ⟨node, found, -⟩ := Option.bind_eq_some_iff.mp up
      exact ⟨contains_iff.mpr ⟨node, found⟩, up⟩
    · rintro ⟨-, up⟩
      exact ⟨up, live⟩
  once := by
    have distinct : d.liveNodes.Nodup := by
      have handles : d.nodes.handles.Nodup :=
        (List.nodup_range.map fun _ _ => Nat.succ.inj).filter _
      exact handles.map fun _ _ => congrArg NodeId.index
    refine List.nodup_flatMap.mpr ⟨fun p _ => grounded.linked.distinct p, distinct.imp ?_⟩
    intro p q differ c one two
    exact differ (grounded.linked.child_unique one two)
  ends n := exists_steps (grounded.ends n)

end Grounded

theorem Arranged.grounded (arranged : Arranged made d) : d.Grounded := by
  induction arranged with
  | empty => exact .empty
  | call _ _ allowed ih => exact ih.after allowed

end Grounds

section Handles

theorem issued_after (d : Document) (call : Call) :
    (d.after call).issued = d.issued + (d.made? call).toList.length := by
  have elements (n : NodeId) (f : Element → Logged Element) : (d.onElement n f).value.issued = d.issued := by
    rw [onElement]
    split
    · exact issued_redone d n _
    · rfl
    · rfl
  cases call with
  | createElement | createText => exact issued_create d _
  | release n => exact Linked.issued_release d n
  | setText n text =>
      change (d.setText n text).value.issued = _
      rw [setText]
      split
      · exact issued_redone d n _
      · rfl
  | insertBefore parent child reference =>
      change (d.insertBefore parent child reference).value.issued = _
      cases there : d.contains child with
      | false => rw [insertBefore_of_missing there]; rfl
      | true =>
          cases holder : d.element? parent with
          | none => rw [insertBefore_of_stranger holder]; rfl
          | some => rw [value_insertBefore there holder, issued_attach, Linked.issued_detach]; rfl
  | removeChild parent child =>
      change (d.removeChild parent child).value.issued = _
      rw [removeChild]
      split
      · exact Linked.issued_detach d child
      · rfl
  | setAttribute | removeAttribute | setStyle | removeStyle | setValue | addListener | removeListener =>
      exact elements _ _

theorem Arranged.made_eq (arranged : Arranged made d) : made = (List.range' 1 d.issued).map NodeId.mk := by
  induction arranged with
  | empty => rfl
  | @call made d arranged call allowed ih =>
    have next : ∀ n ∈ d.made? call, n = ⟨1 + d.issued⟩ := by
      intro n given
      cases call with
      | createElement | createText =>
          cases given
          exact congrArg NodeId.mk (Nat.add_comm _ 1)
      | _ => cases given
    rw [issued_after, ih]
    cases given : d.made? call with
    | none => simp
    | some n => simp [next n given, List.range'_1_concat]

theorem Arranged.distinct (arranged : Arranged made d) : made.Nodup := by
  rw [arranged.made_eq]
  exact List.Nodup.map (fun _ _ => congrArg NodeId.index) List.nodup_range'

theorem Arranged.mem_made (arranged : Arranged made d) (live : d.contains n = true) : n ∈ made := by
  obtain ⟨node, found⟩ := contains_iff.mp live
  have low : 1 ≤ n.index := Arena.one_le_of_get? found
  have high := index_le_issued found
  rw [arranged.made_eq, List.mem_map]
  exact ⟨n.index, List.mem_range'_1.mpr ⟨low, by omega⟩, rfl⟩

end Handles

theorem Linked.placed (linked : d.Linked) {element : Element} (there : d.contains c = true)
    (holder : d.element? p = some element) {reference : Option NodeId} (other : reference ≠ some c) :
    d.Placed (d.insertBefore p c reference).value p c reference := by
  have holds : (d.detach c).contains p = true := by
    rw [linked.contains_detach]
    exact contains_of_element? holder
  have left (k : NodeId) : (d.detach c).children k = (d.children k).filter (· ≠ c) := by
    simpa using linked.children_detach c k
  have lists (k : NodeId) : (d.insertBefore p c reference).value.children k =
      if k = p then Node.placeBefore c reference ((d.children p).filter (· ≠ c))
      else (d.children k).filter (· ≠ c) := by
    rw [value_insertBefore there holder, children_attach holds, left, left]
  constructor
  · rintro r front back rfl siblings
    have first : r ∉ front := by
      intro early
      have distinct := (linked.distinct p).filter (· ≠ c)
      rw [siblings, List.nodup_append'] at distinct
      exact distinct.2.2 early (List.mem_cons_self ..)
    rw [lists, if_pos rfl, siblings, Node.placeBefore, Node.findIdx?_beq first]
    exact Node.insertIdx_length_append ..
  · intro strange
    rw [lists, if_pos rfl]
    cases reference with
    | none => rfl
    | some r =>
        have absent : ((d.children p).filter (· ≠ c)).findIdx? (· == r) = none := by
          rw [List.findIdx?_eq_none_iff]
          intro x member
          refine beq_false_of_ne ?_
          rintro rfl
          exact strange x rfl (List.mem_of_mem_filter member)
        rw [Node.placeBefore, absent]
  · intro q differs
    rw [lists, if_neg differs]
    split
    · rfl
    next elsewhere =>
      refine List.filter_eq_self.mpr fun x member => decide_eq_true ?_
      rintro rfl
      exact linked.not_child elsewhere member

/-- A document is a forest after all calls that are allowed. No handle was issued twice. A live node that is inserted
into an element is placed there, and what cannot be inserted or removed changes nothing. -/
theorem Arranged.stays_forest (arranged : Arranged made d) :
    d.Consistent ∧ made.Nodup ∧ (∀ n, d.contains n = true → n ∈ made) ∧
      (∀ p c reference element, d.contains c = true → d.element? p = some element → reference ≠ some c →
        d.Placed (d.insertBefore p c reference).value p c reference) ∧
      (∀ p c reference, d.contains c = false ∨ d.element? p = none → (d.insertBefore p c reference).value = d) ∧
      ∀ p c, d.parent? c ≠ some p → (d.removeChild p c).value = d := by
  have grounded := arranged.grounded
  refine ⟨grounded.consistent, arranged.distinct, fun n => arranged.mem_made, ?_, ?_, ?_⟩
  · intro p c reference element there holder other
    exact grounded.linked.placed there holder other
  · rintro p c reference (gone | stranger)
    · exact insertBefore_of_missing gone reference
    · exact insertBefore_of_stranger stranger reference
  · intro p c stranger
    rw [removeChild, if_neg stranger]

theorem Under.mem_of_closed {closed tops : List NodeId} (under : d.Under tops n) (begins : tops ⊆ closed)
    (closes : ∀ p ∈ closed, d.children p ⊆ closed) : n ∈ closed := by
  induction under with
  | top member => exact begins member
  | child _ member ih => exact closes _ ih member

def entries : Document :=
  [.createElement "ul", .createElement "li", .insertBefore ⟨1⟩ ⟨2⟩ none, .createElement "li",
    .insertBefore ⟨1⟩ ⟨3⟩ none, .createText "gone", .release ⟨4⟩, .createText "second",
    .insertBefore ⟨3⟩ ⟨5⟩ none].foldl after .empty

theorem arranged_entries : Arranged [⟨1⟩, ⟨2⟩, ⟨3⟩, ⟨4⟩, ⟨5⟩] entries := by
  have leaf {d : Document} {c p : NodeId} (childless : d.children c = []) (differs : p ≠ c) : ¬ d.Under [c] p := by
    intro under
    have within := under.mem_of_closed (List.Subset.refl _) (by simp [childless])
    exact differs (List.mem_singleton.mp within)
  have lists := ((((Arranged.empty.call (.createElement "ul") trivial).call (.createElement "li") trivial).call
    (.insertBefore ⟨1⟩ ⟨2⟩ none) (leaf rfl (by decide))).call (.createElement "li") trivial).call
    (.insertBefore ⟨1⟩ ⟨3⟩ none) (leaf rfl (by decide))
  exact (((lists.call (.createText "gone") trivial).call (.release ⟨4⟩) rfl).call (.createText "second") trivial).call
    (.insertBefore ⟨3⟩ ⟨5⟩ none) (leaf rfl (by decide))

/-- The second entry is moved in front of the first one. It cannot be put into a text, nor can the first entry be
removed from it. -/
theorem second_entry_first : Arranged [⟨1⟩, ⟨2⟩, ⟨3⟩, ⟨4⟩, ⟨5⟩] entries ∧
    entries.children ⟨1⟩ = [⟨2⟩, ⟨3⟩] ∧ entries.contains ⟨4⟩ = false ∧
      (entries.insertBefore ⟨1⟩ ⟨3⟩ (some ⟨2⟩)).value.children ⟨1⟩ = [⟨3⟩, ⟨2⟩] ∧
      (entries.insertBefore ⟨5⟩ ⟨3⟩ none).value = entries ∧ (entries.removeChild ⟨3⟩ ⟨2⟩).value = entries := by
  obtain ⟨-, -, -, placed, uninserted, unremoved⟩ := arranged_entries.stays_forest
  have ul : entries.element? ⟨1⟩ = some ⟨"ul", .empty, .empty, none, []⟩ := by decide +kernel
  refine ⟨arranged_entries, by decide +kernel, by decide +kernel, ?_, ?_, ?_⟩
  · have moved := placed ⟨1⟩ ⟨3⟩ (some ⟨2⟩) _ (by decide +kernel) ul (by decide)
    exact moved.before ⟨2⟩ [] [] rfl (by decide +kernel)
  · exact uninserted ⟨5⟩ ⟨3⟩ none (.inr (by decide +kernel))
  · exact unremoved ⟨3⟩ ⟨2⟩ (by decide +kernel)

end Patchwork.Document
