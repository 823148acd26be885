import Mathlib.Data.List.Perm.Basic
import Mathlib.Data.List.Nodup
import Patchwork.Document.Basic
import Patchwork.Proofs.ActivationTable

/-! How the nodes of a document hang together. A link is stored at its parent and at its child; in a
linked document the two sides agree, and every operation keeps it so. -/
namespace Patchwork

namespace Node

def without (gone : List NodeId) (node : Node) : Node :=
  { node with children := node.children.filter (· ∉ gone) }

@[simp] theorem children_without (gone : List NodeId) (node : Node) :
    (node.without gone).children.toList = node.children.toList.filter (· ∉ gone) := by
  rw [without, Array.toList_filter]

@[ext] theorem ext_lists {one two : Node} (content : one.content = two.content)
    (parent : one.parent = two.parent) (children : one.children.toList = two.children.toList) :
    one = two := by
  cases one
  cases two
  cases content
  cases parent
  cases Array.toList_inj.mp children
  rfl

theorem without_without (one two : List NodeId) (node : Node) :
    (node.without one).without two = node.without (one ++ two) := by
  refine ext_lists rfl rfl ?_
  simp only [children_without, List.filter_filter, List.mem_append, not_or, Bool.decide_and,
    Bool.and_comm]

theorem without_eq_self {gone : List NodeId} {node : Node}
    (apart : ∀ c ∈ node.children.toList, c ∉ gone) : node.without gone = node := by
  refine ext_lists rfl rfl ?_
  rw [children_without, List.filter_eq_self]
  simpa only [decide_eq_true_eq] using apart

theorem perm_placeBefore (child : NodeId) (reference : Option NodeId) (siblings : List NodeId) :
    (placeBefore child reference siblings).Perm (child :: siblings) := by
  have last : (siblings ++ [child]).Perm (child :: siblings) := List.perm_append_singleton ..
  cases reference with
  | none => exact last
  | some r =>
      simp only [placeBefore]
      cases found : siblings.findIdx? (· == r) with
      | none => exact last
      | some i =>
          have inside := (List.findIdx?_eq_some_iff_findIdx_eq.mp found).1
          exact List.perm_insertIdx _ _ (Nat.le_of_lt inside)

theorem mem_placeBefore : x ∈ placeBefore child reference siblings ↔ x = child ∨ x ∈ siblings :=
  (perm_placeBefore child reference siblings).mem_iff.trans List.mem_cons

theorem nodup_placeBefore (distinct : siblings.Nodup) (new : child ∉ siblings) :
    (placeBefore child reference siblings).Nodup :=
  (perm_placeBefore child reference siblings).nodup_iff.mpr (List.nodup_cons.mpr ⟨new, distinct⟩)

theorem sublist_around {α : Type} {r : α} {before after front back : List α}
    (distinct : (front ++ r :: back).Nodup) (sub : (before ++ r :: after).Sublist (front ++ r :: back)) :
    before.Sublist front ∧ after.Sublist back := by
  induction front generalizing before with
  | nil =>
      have absent : r ∉ back := (List.nodup_cons.mp distinct).1
      cases before with
      | nil => exact ⟨.refl _, List.cons_sublist_cons.mp sub⟩
      | cons b before =>
          rw [List.nil_append, List.cons_append] at sub
          have later : r ∈ before ++ r :: after := List.mem_append_right _ (List.mem_cons_self ..)
          cases sub with
          | cons _ sub => exact (absent (sub.subset (List.mem_cons_of_mem _ later))).elim
          | cons_cons _ sub => exact (absent (sub.subset later)).elim
  | cons x front ih =>
      obtain ⟨differs, distinct⟩ := List.nodup_cons.mp distinct
      cases before with
      | nil =>
          cases sub with
          | cons _ sub =>
              have later : [].Sublist front ∧ after.Sublist back := ih distinct sub
              exact later.imp_left (.cons _)
          | cons_cons => exact (differs (List.mem_append_right _ (List.mem_cons_self ..))).elim
      | cons b before =>
          cases sub with
          | cons _ sub =>
              have later : (b :: before).Sublist front ∧ after.Sublist back := ih distinct sub
              exact later.imp_left (.cons _)
          | cons_cons _ sub => exact (ih distinct sub).imp_left (.cons_cons _)

theorem insertIdx_length_append {α : Type} (x : α) (front back : List α) :
    (front ++ back).insertIdx front.length x = front ++ x :: back := by
  induction front with
  | nil => rfl
  | cons y front ih => simp only [List.cons_append, List.length_cons, List.insertIdx_succ_cons, ih]

theorem findIdx?_beq {r : NodeId} {front back : List NodeId} (first : r ∉ front) :
    (front ++ r :: back).findIdx? (· == r) = some front.length := by
  rw [List.findIdx?_append, List.findIdx?_cons]
  have absent : front.findIdx? (· == r) = none := by
    rw [List.findIdx?_eq_none_iff]
    intro x inside
    exact beq_false_of_ne fun same => first (same ▸ inside)
  simp only [absent, Option.none_or, beq_self_eq_true, if_true, Option.map_some, Nat.zero_add]

theorem sublist_placeBefore {before after siblings : List NodeId} (distinct : siblings.Nodup)
    (sub : (before ++ after).Sublist siblings) (fits : after.head? = reference) :
    (before ++ child :: after).Sublist (placeBefore child reference siblings) := by
  subst fits
  cases after with
  | nil =>
      rw [List.append_nil] at sub
      exact sub.append (.refl _)
  | cons r after =>
      have member : r ∈ siblings :=
        sub.subset (List.mem_append_right _ (List.mem_cons_self ..))
      obtain ⟨front, back, rfl, first⟩ := List.eq_append_cons_of_mem member
      obtain ⟨left, right⟩ := sublist_around distinct sub
      have placed : placeBefore child (some r) (front ++ r :: back) = front ++ child :: r :: back := by
        simp only [placeBefore, findIdx?_beq first]
        exact insertIdx_length_append ..
      rw [List.head?_cons, placed]
      exact left.append (.cons_cons _ (.cons_cons _ right))

end Node

namespace Document

variable {d : Document} {n c p k : NodeId}

def issued (d : Document) : Nat := d.nodes.issued

theorem node?_modify (d : Document) (n k : NodeId) (f : Node → Node) :
    (d.modify n f).node? k = if k = n then (d.node? k).map f else d.node? k := by
  have same : k.index = n.index ↔ k = n := by
    cases k; cases n; simp only [NodeId.mk.injEq]
  simp only [node?, modify, Arena.get?_modify, same]

theorem node?_create (d : Document) (content : Content) (k : NodeId) :
    (d.create content).2.node? k =
      if k = ⟨d.issued + 1⟩ then some ⟨content, none, #[]⟩ else d.node? k := by
  have same : k.index = d.issued + 1 ↔ k = ⟨d.issued + 1⟩ := by
    cases k; simp only [NodeId.mk.injEq]
  have opened := Arena.get?_alloc d.nodes ⟨content, none, #[]⟩ k.index
  simp only [issued] at same ⊢
  simp only [same] at opened
  exact opened

@[simp] theorem issued_modify (d : Document) (n : NodeId) (f : Node → Node) :
    (d.modify n f).issued = d.issued := Arena.issued_modify ..

@[simp] theorem issued_create (d : Document) (content : Content) :
    (d.create content).2.issued = d.issued + 1 := Arena.issued_alloc ..

theorem node?_free (d : Document) (n k : NodeId) :
    (⟨d.nodes.free n.index⟩ : Document).node? k = if k = n then none else d.node? k := by
  have same : k.index = n.index ↔ k = n := by
    cases k; cases n; simp only [NodeId.mk.injEq]
  simp only [node?, Arena.get?_free, same]

theorem issued_free (d : Document) (n : NodeId) :
    (⟨d.nodes.free n.index⟩ : Document).issued = d.issued := Arena.issued_free ..

theorem node?_eq_none (late : d.issued < n.index) : d.node? n = none := Arena.get?_of_issued_lt late

theorem index_le_issued (found : d.node? n = some node) : n.index ≤ d.issued := Arena.index_le_issued found

section Views
variable {e : Document}

theorem contains_iff : d.contains n = true ↔ ∃ node, d.node? n = some node := Option.isSome_iff_exists

theorem children_eq (found : d.node? n = some node) : d.children n = node.children.toList := by
  rw [children, found]
  rfl

theorem children_of_none (gone : d.node? n = none) : d.children n = [] := by
  rw [children, gone]
  rfl

theorem parent?_eq (found : d.node? n = some node) : d.parent? n = node.parent := by
  rw [parent?, found]
  rfl

theorem contains_of_mem_children (member : c ∈ d.children p) : d.contains p = true := by
  cases found : d.node? p with
  | some node => exact contains_iff.mpr ⟨node, found⟩
  | none =>
      rw [children_of_none found] at member
      cases member

theorem text?_eq_some : d.text? n = some s ↔ (d.node? n).map Node.content = some (.text s) := by
  rw [text?]
  split
  next other found => rw [found]; simp only [Option.some.injEq, Content.text.injEq]
  next other => exact ⟨nofun, fun found => absurd found (other s)⟩

theorem element?_eq_some {el : Element} :
    d.element? n = some el ↔ (d.node? n).map Node.content = some (.element el) := by
  rw [element?]
  split
  next other found => rw [found]; simp only [Option.some.injEq, Content.element.injEq]
  next other => exact ⟨nofun, fun found => absurd found (other el)⟩

theorem contains_of_element? {el : Element} (found : d.element? n = some el) :
    d.contains n = true := by
  obtain ⟨node, there, -⟩ := Option.map_eq_some_iff.mp (element?_eq_some.mp found)
  exact contains_iff.mpr ⟨node, there⟩

theorem contains_of_text? (found : d.text? n = some s) : d.contains n = true := by
  obtain ⟨node, there, -⟩ := Option.map_eq_some_iff.mp (text?_eq_some.mp found)
  exact contains_iff.mpr ⟨node, there⟩

theorem views_of_node? (same : e.node? n = d.node? n) :
    e.contains n = d.contains n ∧ e.parent? n = d.parent? n ∧ e.children n = d.children n ∧
      e.element? n = d.element? n ∧ e.text? n = d.text? n := by
  refine ⟨?_, ?_, ?_, ?_, ?_⟩
  · rw [contains, contains, same]
  · rw [parent?, parent?, same]
  · rw [children, children, same]
  · rw [element?, element?, same]
  · rw [text?, text?, same]

theorem mem_liveNodes (live : d.contains n = true) : n ∈ d.liveNodes := by
  obtain ⟨node, found⟩ := contains_iff.mp live
  exact List.mem_map.mpr ⟨n.index, Arena.mem_handles.mpr ⟨node, found⟩, rfl⟩

theorem length_le_issued {ns : List NodeId} (distinct : ns.Nodup) (live : ∀ n ∈ ns, d.contains n = true) :
    ns.length ≤ d.issued := by
  have listed : ns ⊆ d.liveNodes := fun n member => mem_liveNodes (live n member)
  have few : d.liveNodes.length ≤ d.issued := by
    rw [liveNodes, List.length_map]
    refine Nat.le_trans (List.length_filter_le _ _) (Nat.le_of_eq ?_)
    rw [List.length_map, List.length_range]
    rfl
  exact Nat.le_trans (List.subperm_of_subset distinct listed).length_le few

end Views

/-- The two sides of every link agree, and no child is listed twice. What was a node's parent may be
gone, but it was issued. -/
structure Linked (d : Document) : Prop where
  child : ∀ {p c}, c ∈ d.children p ↔ d.parent? c = some p ∧ d.contains p = true
  distinct : ∀ p, (d.children p).Nodup
  issued : ∀ {p c}, d.parent? c = some p → p.index ≤ d.issued

namespace Linked

theorem empty : Document.empty.Linked := by
  have nothing : ∀ n, Document.empty.node? n = none := fun n => Arena.get?_empty _
  have orphans : ∀ n, Document.empty.parent? n = none := fun n => by rw [parent?, nothing]; rfl
  refine ⟨fun {p c} => ?_, fun p => ?_, fun {p c} up => ?_⟩
  · rw [children_of_none (nothing p), orphans]
    simp only [List.not_mem_nil, reduceCtorEq, false_and]
  · rw [children_of_none (nothing p)]
    exact .nil
  · cases (orphans c).symm.trans up

theorem parent_of_child (linked : d.Linked) (member : c ∈ d.children p) : d.parent? c = some p :=
  (linked.child.mp member).1

theorem child_unique (linked : d.Linked) (one : c ∈ d.children p) (two : c ∈ d.children k) : p = k :=
  Option.some.inj ((linked.parent_of_child one).symm.trans (linked.parent_of_child two))

theorem not_child (linked : d.Linked) (other : d.parent? c ≠ some p) : c ∉ d.children p :=
  fun member => other (linked.parent_of_child member)

theorem without_eq_self (linked : d.Linked) (found : d.node? k = some node)
    (orphans : ∀ c ∈ gone, d.parent? c ≠ some k) : node.without gone = node := by
  refine Node.without_eq_self fun c member stale => ?_
  exact linked.not_child (orphans c stale) (children_eq found ▸ member)

theorem node?_detach (linked : d.Linked) (c k : NodeId) :
    (d.detach c).node? k = (d.node? k).map fun node =>
      { node.without [c] with parent := if k = c then none else node.parent } := by
  cases found : d.node? k with
  | none =>
      rw [detach]
      split
      · rw [found, Option.map_none]
      · simp only [node?_modify, found, Option.map_none, ite_self]
  | some node =>
      have same : node.removeChild c = node.without [c] := by
        refine Node.ext_lists rfl rfl ?_
        simp only [Node.toList_removeChild, Node.children_without, List.mem_singleton, ne_eq]
      have own : k = c → node.parent = d.parent? c := fun same => by rw [← same, parent?_eq found]
      rw [detach]
      cases up : d.parent? c with
      | none =>
          rw [up] at own
          have whole : node.without [c] = node := linked.without_eq_self found fun x member => by
            rw [List.mem_singleton.mp member, up]
            exact nofun
          simp only [found, whole, Option.map_some, Option.some.injEq]
          refine Node.ext_lists rfl ?_ rfl
          split
          next same => exact own same
          next => rfl
      | some parent =>
          simp only [node?_modify, found]
          by_cases at_parent : k = parent
          · subst at_parent
            simp only [if_true]
            by_cases at_child : k = c
            · subst at_child
              simp only [if_true, Option.map_some, ← same]
              rfl
            · simp only [at_child, if_false, Option.map_some, same]
              rfl
          · have whole : node.without [c] = node := linked.without_eq_self found fun x member => by
              rw [List.mem_singleton.mp member, up]
              exact fun same => at_parent (Option.some.inj same).symm
            simp only [at_parent, if_false, Option.map_some, whole]
            split
            next => rfl
            next => rfl

theorem of_same {e : Document} (linked : d.Linked) (contained : ∀ k, e.contains k = d.contains k)
    (parents : ∀ k, e.parent? k = d.parent? k) (kids : ∀ k, e.children k = d.children k)
    (issued : e.issued = d.issued) : e.Linked := by
  refine ⟨fun {p c} => ?_, fun p => kids p ▸ linked.distinct p, fun {p c} up => ?_⟩
  · rw [kids, parents, contained]
    exact linked.child
  · exact issued ▸ linked.issued (parents c ▸ up)

theorem nextSibling?_eq (linked : d.Linked) {front back : List NodeId}
    (children : d.children p = front ++ c :: back) : d.nextSibling? c = back.head? := by
  have child : c ∈ d.children p := children ▸ List.mem_append_right _ (List.mem_cons_self ..)
  obtain ⟨node, found⟩ := contains_iff.mp (contains_of_mem_children child)
  have first : c ∉ front := fun early => by
    have distinct := linked.distinct p
    rw [children, List.nodup_append'] at distinct
    exact distinct.2.2 early (List.mem_cons_self ..)
  rw [children_eq found] at children
  have whole : node.children = (front ++ c :: back).toArray := by
    rw [← children, Array.toArray_toList]
  have position : node.position? c = some front.length := by
    rw [Node.position?, whole, List.findIdx?_toArray, Node.findIdx?_beq first]
  simp only [nextSibling?, linked.parent_of_child child, found, position, bind, Option.bind_some]
  rw [← Array.getElem?_toList, children, List.getElem?_append_right (Nat.le_succ _),
    Nat.succ_sub (Nat.le_refl _), Nat.sub_self, List.getElem?_cons_succ, List.head?_eq_getElem?]

section Detach

theorem contains_detach (linked : d.Linked) (c k : NodeId) :
    (d.detach c).contains k = d.contains k := by
  rw [contains, contains, linked.node?_detach, Option.isSome_map]

theorem parent?_detach (linked : d.Linked) (c k : NodeId) :
    (d.detach c).parent? k = if k = c then none else d.parent? k := by
  rw [parent?, parent?, linked.node?_detach]
  cases d.node? k <;> split <;> rfl

theorem children_detach (linked : d.Linked) (c k : NodeId) :
    (d.detach c).children k = (d.children k).filter (· ∉ [c]) := by
  rw [children, children, linked.node?_detach]
  cases d.node? k with
  | none => rfl
  | some node => exact node.children_without [c]

theorem issued_detach (d : Document) (c : NodeId) : (d.detach c).issued = d.issued := by
  rw [detach]
  split
  · rfl
  · rw [issued_modify, issued_modify]

theorem detach (linked : d.Linked) (c : NodeId) : (d.detach c).Linked := by
  refine ⟨fun {p x} => ?_, fun p => ?_, fun {p x} up => ?_⟩
  · rw [linked.children_detach, linked.parent?_detach, linked.contains_detach, List.mem_filter,
      linked.child]
    by_cases same : x = c
    · simp only [same, List.mem_singleton, not_true_eq_false, decide_false, and_false, if_true,
        reduceCtorEq, false_and, Bool.false_eq_true]
    · simp only [same, List.mem_singleton, not_false_eq_true, decide_true, and_true, if_false]
  · rw [linked.children_detach]
    exact (linked.distinct p).filter _
  · rw [linked.parent?_detach, Option.ite_none_left_eq_some] at up
    exact issued_detach d c ▸ linked.issued up.2

end Detach

section Release

theorem node?_release (linked : d.Linked) (n k : NodeId) :
    (d.release n).value.node? k = if k = n then none else (d.node? k).map (·.without [n]) := by
  rw [Document.release, node?_free, linked.node?_detach]
  split
  next => rfl
  next => rfl

theorem issued_release (d : Document) (n : NodeId) : (d.release n).value.issued = d.issued := by
  rw [Document.release, issued_free, issued_detach]

/-- A node that is forgotten leaves no link to it behind, save at its children. -/
theorem release (linked : d.Linked) (n : NodeId) : (d.release n).value.Linked := by
  have contained : ∀ k, (d.release n).value.contains k = if k = n then false else d.contains k := by
    intro k
    rw [contains, contains, linked.node?_release]
    split
    · rfl
    · rw [Option.isSome_map]
  have parents : ∀ k, (d.release n).value.parent? k = if k = n then none else d.parent? k := by
    intro k
    rw [parent?, parent?, linked.node?_release]
    split
    next => rfl
    next => cases d.node? k <;> rfl
  have kids : ∀ k, (d.release n).value.children k =
      if k = n then [] else (d.children k).filter (· ∉ [n]) := by
    intro k
    rw [children, children, linked.node?_release]
    split
    next => rfl
    next =>
      cases d.node? k with
      | none => rfl
      | some node => exact node.children_without [n]
  refine ⟨fun {p c} => ?_, fun p => ?_, fun {p c} up => ?_⟩
  · rw [kids, parents, contained]
    by_cases same : p = n
    · simp only [same, if_true, List.not_mem_nil, Bool.false_eq_true, and_false]
    · rw [if_neg same, if_neg same, List.mem_filter, linked.child]
      by_cases child : c = n
      · simp only [child, List.mem_singleton, not_true_eq_false, decide_false, Bool.false_eq_true,
          and_false, if_true, reduceCtorEq, false_and]
      · simp only [child, List.mem_singleton, not_false_eq_true, decide_true, and_true, if_false]
  · rw [kids]
    split
    · exact .nil
    · exact (linked.distinct p).filter _
  · rw [parents, Option.ite_none_left_eq_some] at up
    exact issued_release d n ▸ linked.issued up.2

end Release

end Linked

section Insert

/-- A live node goes into an element. -/
def attach (d : Document) (p c : NodeId) (reference : Option NodeId) : Document :=
  (d.modify p (·.insertChild c reference)).modify c ({ · with parent := some p })

theorem value_insertBefore {e : Element} (there : d.contains c = true) (holder : d.element? p = some e)
    (reference : Option NodeId) :
    (d.insertBefore p c reference).value = (d.detach c).attach p c reference := by
  have content := element?_eq_some.mp holder
  cases reference with
  | none =>
      simp only [Document.insertBefore, there, content, Bool.not_true, Bool.false_eq_true, if_false]
      rfl
  | some r =>
      simp only [Document.insertBefore, there, content, Bool.not_true, Bool.false_eq_true, if_false]
      simp only [Bind.bind, Pure.pure, Logged.bind]
      split <;> rfl

theorem insertBefore_of_missing (gone : d.contains c = false) (reference : Option NodeId) :
    (d.insertBefore p c reference).value = d := by
  simp only [Document.insertBefore, gone, Bool.not_false, if_true]
  rfl

theorem insertBefore_of_stranger (stranger : d.element? p = none) (reference : Option NodeId) :
    (d.insertBefore p c reference).value = d := by
  simp only [Document.insertBefore]
  cases d.contains c with
  | false => rfl
  | true =>
      cases content : (d.node? p).map Node.content with
      | none => rfl
      | some content' =>
          cases content' with
          | text => rfl
          | element e =>
              rw [element?_eq_some.mpr content] at stranger
              cases stranger

theorem node?_attach (d : Document) (p c : NodeId) (reference : Option NodeId) (k : NodeId) :
    (d.attach p c reference).node? k = (d.node? k).map fun node =>
      { content := node.content
        parent := if k = c then some p else node.parent
        children := if k = p then (node.insertChild c reference).children else node.children } := by
  simp only [attach, node?_modify]
  cases d.node? k with
  | none => split <;> split <;> rfl
  | some node => split <;> split <;> rfl

theorem issued_attach (d : Document) (p c : NodeId) (reference : Option NodeId) :
    (d.attach p c reference).issued = d.issued := by rw [attach, issued_modify, issued_modify]

theorem contains_attach (d : Document) (p c : NodeId) (reference : Option NodeId) (k : NodeId) :
    (d.attach p c reference).contains k = d.contains k := by
  rw [contains, contains, node?_attach, Option.isSome_map]

theorem parent?_attach (there : d.contains c = true) (p : NodeId) (reference : Option NodeId)
    (k : NodeId) :
    (d.attach p c reference).parent? k = if k = c then some p else d.parent? k := by
  rw [parent?, parent?, node?_attach]
  by_cases same : k = c
  · subst same
    obtain ⟨node, found⟩ := contains_iff.mp there
    rw [found]
    rfl
  · rw [if_neg same]
    cases d.node? k with
    | none => rfl
    | some node => exact if_neg same

theorem children_attach (there : d.contains p = true) (c : NodeId) (reference : Option NodeId)
    (k : NodeId) : (d.attach p c reference).children k =
      if k = p then Node.placeBefore c reference (d.children p) else d.children k := by
  rw [children, node?_attach]
  by_cases same : k = p
  · subst same
    obtain ⟨node, found⟩ := contains_iff.mp there
    rw [if_pos rfl, children_eq found, found, Option.map_some, ← Node.toList_insertChild]
    simp only [if_true, Option.map_some, Option.getD_some]
  · rw [if_neg same, children]
    cases d.node? k <;> simp only [same, if_false, Option.map_none, Option.map_some]

theorem element?_attach (d : Document) (p c : NodeId) (reference : Option NodeId) (k : NodeId) :
    (d.attach p c reference).element? k = d.element? k := by
  rw [element?, element?, node?_attach]
  cases d.node? k <;> rfl

theorem Linked.attach (linked : d.Linked) (orphan : d.parent? c = none) (there : d.contains c = true)
    (holds : d.contains p = true) (reference : Option NodeId) : (d.attach p c reference).Linked := by
  have absent : ∀ k, c ∉ d.children k := fun k => linked.not_child (by rw [orphan]; exact nofun)
  refine ⟨fun {q x} => ?_, fun q => ?_, fun {q x} up => ?_⟩
  · rw [children_attach holds, parent?_attach there, contains_attach]
    by_cases at_child : x = c
    · subst at_child
      rw [if_pos rfl, Option.some.injEq]
      split
      next same => simp only [Node.mem_placeBefore, same, holds, true_or, and_self]
      next other => simp only [absent, Ne.symm other, false_and]
    · rw [if_neg at_child, ← linked.child]
      split
      next same => simp only [Node.mem_placeBefore, at_child, same, false_or]
      next => rfl
  · rw [children_attach holds]
    split
    · exact Node.nodup_placeBefore (linked.distinct p) (absent p)
    · exact linked.distinct q
  · rw [issued_attach]
    rw [parent?_attach there] at up
    split at up
    next =>
      obtain ⟨node, found⟩ := contains_iff.mp holds
      exact Option.some.inj up ▸ index_le_issued found
    next => exact linked.issued up

theorem Linked.insertBefore (linked : d.Linked) (p c : NodeId) (reference : Option NodeId) :
    (d.insertBefore p c reference).value.Linked := by
  cases there : d.contains c with
  | false => exact (insertBefore_of_missing there reference).symm ▸ linked
  | true =>
      cases holder : d.element? p with
      | none => exact (insertBefore_of_stranger holder reference).symm ▸ linked
      | some e =>
          rw [value_insertBefore there holder]
          refine (linked.detach c).attach ?_ ?_ ?_ reference
          · rw [linked.parent?_detach, if_pos rfl]
          · rw [linked.contains_detach, there]
          · rw [linked.contains_detach, contains_of_element? holder]

end Insert

section Contents

def redone (d : Document) (n : NodeId) (content : Content) : Document :=
  d.modify n ({ · with content })

theorem node?_redone (d : Document) (n : NodeId) (content : Content) (k : NodeId) :
    (d.redone n content).node? k =
      if k = n then (d.node? k).map ({ · with content }) else d.node? k := node?_modify ..

theorem issued_redone (d : Document) (n : NodeId) (content : Content) :
    (d.redone n content).issued = d.issued := issued_modify ..

theorem links_redone (d : Document) (n : NodeId) (content : Content) (k : NodeId) :
    (d.redone n content).contains k = d.contains k ∧ (d.redone n content).parent? k = d.parent? k ∧
      (d.redone n content).children k = d.children k := by
  rw [contains, contains, parent?, parent?, children, children, node?_redone]
  cases d.node? k with
  | none => split <;> exact ⟨rfl, rfl, rfl⟩
  | some node => split <;> exact ⟨rfl, rfl, rfl⟩

theorem element?_redone (there : d.contains n = true) (e : Element) :
    (d.redone n (.element e)).element? n = some e := by
  obtain ⟨node, found⟩ := contains_iff.mp there
  rw [element?_eq_some, node?_redone, if_pos rfl, found]
  rfl

theorem text?_redone (there : d.contains n = true) (s : String) :
    (d.redone n (.text s)).text? n = some s := by
  obtain ⟨node, found⟩ := contains_iff.mp there
  rw [text?_eq_some, node?_redone, if_pos rfl, found]
  rfl

theorem redone_redone (d : Document) (n : NodeId) (one two : Content) :
    (d.redone n one).redone n two = d.redone n two := by
  obtain ⟨⟨slots⟩⟩ := d
  obtain ⟨_ | i⟩ := n
  · rfl
  · simp only [redone, modify, Arena.modify, Document.mk.injEq, Arena.mk.injEq]
    refine Array.ext_getElem? fun j => ?_
    simp only [Array.getElem?_modify]
    split
    · cases slots[j]? with
      | none => rfl
      | some slot => cases slot <;> rfl
    · rfl

theorem redone_self (found : (d.node? n).map Node.content = some content) : d.redone n content = d := by
  obtain ⟨⟨slots⟩⟩ := d
  obtain ⟨_ | i⟩ := n
  · rfl
  · simp only [redone, modify, Arena.modify, Document.mk.injEq, Arena.mk.injEq]
    refine Array.ext_getElem? fun j => ?_
    simp only [node?, Arena.get?] at found
    rw [Array.getElem?_modify]
    split
    next same =>
      subst same
      cases slot : slots[i]? with
      | none => rfl
      | some node =>
          simp only [slot, Option.join_some] at found
          obtain ⟨node, rfl, rfl⟩ := Option.map_eq_some_iff.mp found
          rfl
    next => rfl

theorem Linked.redone (linked : d.Linked) (n : NodeId) (content : Content) :
    (d.redone n content).Linked :=
  linked.of_same (fun k => (links_redone d n content k).1) (fun k => (links_redone d n content k).2.1)
    (fun k => (links_redone d n content k).2.2) (issued_redone d n content)

theorem onElement_eq {e : Element} (found : d.element? n = some e) (f : Element → Logged Element) :
    d.onElement n f = (f e).map fun e => d.redone n (.element e) := by
  rw [onElement, element?_eq_some.mp found]
  rfl

end Contents

section Create

theorem Linked.create (linked : d.Linked) (content : Content) : (d.create content).2.Linked := by
  have late : d.node? ⟨d.issued + 1⟩ = none := node?_eq_none (Nat.lt_succ_self _)
  have parents : ∀ k, (d.create content).2.parent? k = d.parent? k := by
    intro k
    rw [parent?, parent?, node?_create]
    split
    next same => rw [same, late]; rfl
    next => rfl
  have kids : ∀ k, (d.create content).2.children k = d.children k := by
    intro k
    rw [children, children, node?_create]
    split
    next same => rw [same, late]; rfl
    next => rfl
  refine ⟨fun {p c} => ?_, fun p => kids p ▸ linked.distinct p, fun {p c} up => ?_⟩
  · rw [kids, parents, contains, node?_create]
    split
    next same =>
      subst same
      have dangling : d.parent? c ≠ some ⟨d.issued + 1⟩ := fun up =>
        Nat.not_succ_le_self _ (linked.issued up)
      simp only [children_of_none late, List.not_mem_nil, dangling, false_and]
    next => exact linked.child
  · rw [issued_create]
    exact Nat.le_succ_of_le (linked.issued (parents c ▸ up))

end Create

section Under

/-- A node that is one of `tops` or beneath one of them. -/
inductive Under (d : Document) (tops : List NodeId) : NodeId → Prop
  | top {n : NodeId} : n ∈ tops → Under d tops n
  | child {p n : NodeId} : Under d tops p → n ∈ d.children p → Under d tops n

theorem Under.of_subset (under : d.Under tops n) (sub : ∀ k ∈ tops, d.Under tops' k) : d.Under tops' n := by
  induction under with
  | top member => exact sub _ member
  | child _ child ih => exact .child ih child

end Under

end Document
end Patchwork
