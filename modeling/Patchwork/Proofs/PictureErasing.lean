import Patchwork.Proofs.CanvasSteps
import Patchwork.Proofs.DocumentPictures

/-! Erasing pictures. A picture that is taken out of its parent and erased leaves every other node as it
was, less the children that are gone, and no node of it is left. -/
namespace Patchwork

open Picture

theorem Node.without_congr {one two : List NodeId} (same : ∀ n, n ∈ one ↔ n ∈ two) (node : Node) :
    node.without one = node.without two := by
  refine Node.ext_lists rfl rfl ?_
  rw [children_without, children_without]
  refine List.filter_congr fun n _ => ?_
  simp only [same]

namespace Canvas

variable {D : Type} [Documented D] {c c' c'' : Canvas D}

/-- Some nodes are gone, and nothing else has changed. -/
structure Removes (gone : List NodeId) (c c' : Canvas D) : Prop where
  node? : ∀ k, c'.document.node? k =
    if k ∈ gone then none else (c.document.node? k).map (·.without gone)
  binder : ∀ k : NodeId, c'.binder[k]? = if k ∈ gone then none else c.binder[k]?
  issued : c'.document.issued = c.document.issued
  linked : c'.document.Linked
  orderly : Orderly c c'

namespace Removes

theorem congr {one two : List NodeId} (removes : Removes one c c') (same : ∀ n, n ∈ one ↔ n ∈ two) :
    Removes two c c' where
  node? k := by
    rw [removes.node?]
    simp only [same, Node.without_congr same]
  binder k := by
    rw [removes.binder]
    simp only [same]
  issued := removes.issued
  linked := removes.linked
  orderly := removes.orderly

theorem nothing (linked : c.document.Linked) : Removes [] c c where
  node? k := by
    simp only [List.not_mem_nil, if_false]
    cases c.document.node? k with
    | none => rfl
    | some node => rw [Option.map_some, Node.without_eq_self fun _ _ => List.not_mem_nil]
  binder k := by simp only [List.not_mem_nil, if_false]
  issued := rfl
  linked := linked
  orderly := .refl c

theorem trans {one two : List NodeId} (first : Removes one c c') (second : Removes two c' c'') :
    Removes (one ++ two) c c'' where
  node? k := by
    rw [second.node?, first.node?]
    simp only [List.mem_append]
    by_cases early : k ∈ one <;> by_cases late : k ∈ two <;>
      simp only [early, late, or_true, or_false, if_true, if_false, Option.map_none]
    rw [Option.map_map]
    cases c.document.node? k with
    | none => rfl
    | some node => exact congrArg some (Node.without_without one two node)
  binder k := by
    rw [second.binder, first.binder]
    simp only [List.mem_append]
    by_cases early : k ∈ one <;> by_cases late : k ∈ two <;>
      simp only [early, late, or_true, or_false, if_true, if_false]
  issued := second.issued.trans first.issued
  linked := second.linked
  orderly := first.orderly.trans second.orderly

variable {gone : List NodeId}

theorem node?_eq (removes : Removes gone c c') (kept : k ∉ gone)
    (apart : ∀ x ∈ c.document.children k, x ∉ gone) : c'.document.node? k = c.document.node? k := by
  rw [removes.node?, if_neg kept]
  cases found : c.document.node? k with
  | none => rfl
  | some node =>
      rw [Document.children_eq found] at apart
      rw [Option.map_some, Node.without_eq_self apart]

theorem children (removes : Removes gone c c') (kept : k ∉ gone) :
    c'.document.children k = (c.document.children k).filter (· ∉ gone) := by
  rw [Document.children, Document.children, removes.node?, if_neg kept]
  cases c.document.node? k with
  | none => rfl
  | some node => exact node.children_without gone

theorem parent? (removes : Removes gone c c') (kept : k ∉ gone) :
    c'.document.parent? k = c.document.parent? k := by
  rw [Document.parent?, Document.parent?, removes.node?, if_neg kept]
  cases c.document.node? k <;> rfl

theorem element? (removes : Removes gone c c') (kept : k ∉ gone) :
    c'.document.element? k = c.document.element? k := by
  rw [Document.element?, Document.element?, removes.node?, if_neg kept]
  cases c.document.node? k <;> rfl

/-- Pictures that have nothing to do with what is gone are shown as before. -/
theorem seenAll (removes : Removes gone c c') (shown : SeenAll c.document c.binder ps)
    (apart : ∀ n ∈ nodesAll ps, n ∉ gone) : SeenAll c'.document c'.binder ps :=
  shown.congr fun n member => by
    refine ⟨Document.look_of_node? (removes.node?_eq (apart n member) fun x child => ?_), ?_⟩
    · exact apart x (shown.children n member x child)
    · rw [removes.binder, if_neg (apart n member)]

theorem release (linked : c.document.Linked) (there : c.document.contains n = true)
    (childless : c.document.children n = []) (unbound : c.binder[n]? = none) :
    Removes [n] c (c.release n) := by
  obtain ⟨document, binder, orderly⟩ := release_childless there childless
  refine ⟨fun k => ?_, fun k => ?_, ?_, ?_, orderly⟩
  · rw [document, linked.node?_release]
    simp only [List.mem_singleton]
  · rw [binder]
    split
    next same => rw [List.mem_singleton.mp same, unbound]
    next => rfl
  · rw [document, Document.Linked.issued_release]
  · exact document ▸ linked.release n

end Removes

theorem node?_of_redone {e : Element} (document : c'.document = c.document.redone n (.element e))
    (other : k ≠ n) : c'.document.node? k = c.document.node? k := by
  rw [document, Document.node?_redone, if_neg other]

mutual

theorem removes_erase : ∀ {p : Picture} {c : Canvas D}, c.document.Linked →
    Seen c.document c.binder p → (nodes p).Nodup → Removes (nodes p) c (erase p c)
  | .text n content, c, linked, shown, _ | .missing n _, c, linked, shown, _ => by
      rw [Seen] at shown
      exact .release linked (Document.contains_of_text? shown.text) shown.childless shown.unbound
  | .element n tag attributes children, c, linked, shown, distinct => by
      rw [seen_element] at shown
      obtain ⟨⟨e, b, found, bound, wears⟩, kids, inside⟩ := shown
      obtain ⟨outside, distinct⟩ := List.nodup_cons.mp distinct
      have emptied := removes_eraseAll linked inside distinct
      -- Without its children, the element is forgotten and released.
      have found' := (emptied.element? outside).trans found
      have bound' : (eraseAll children c).binder[n]? = some b := by
        rw [emptied.binder, if_neg outside, bound]
      obtain ⟨e', document, unbound, orderly⟩ := forget_element (c := eraseAll children c) found'
        fun b' same => by
          cases Option.some.inj (bound'.symm.trans same)
          exact wears.listeners
      have links := Document.links_redone (eraseAll children c).document n (.element e')
      have linked' : ((eraseAll children c).forget n).document.Linked :=
        document ▸ emptied.linked.redone n (.element e')
      have childless : ((eraseAll children c).forget n).document.children n = [] := by
        rw [document, (links n).2.2, emptied.children outside, kids]
        exact List.filter_eq_nil_iff.mpr fun x top => by
          simp only [mem_nodesAll_of_tops top, not_true_eq_false, decide_false, Bool.false_eq_true,
            not_false_eq_true]
      have released := Removes.release (n := n) linked' (by
          rw [document, (links n).1]
          exact Document.contains_of_element? found') childless (by rw [unbound, if_pos rfl])
      have members : ∀ k, k ∈ nodesAll children ++ [n] ↔ k ∈ nodes (.element n tag attributes children) := fun k => by
        rw [List.mem_append, List.mem_singleton, nodes, List.mem_cons, or_comm]
      refine Removes.congr ⟨fun k => ?_, fun k => ?_, ?_, released.linked,
        emptied.orderly.trans (orderly.trans released.orderly)⟩ members
      · rw [erase, released.node?]
        simp only [List.mem_append, List.mem_singleton]
        by_cases same : k = n
        · simp only [same, or_true, if_true]
        rw [if_neg same, node?_of_redone document same, emptied.node?]
        by_cases early : k ∈ nodesAll children
        · simp only [early, true_or, if_true, Option.map_none]
        simp only [early, same, or_self, if_false, Option.map_map]
        cases c.document.node? k with
        | none => rfl
        | some node => exact congrArg some (Node.without_without _ _ node)
      · rw [erase, released.binder, unbound, emptied.binder]
        simp only [List.mem_append, List.mem_singleton]
        by_cases same : k = n <;> by_cases early : k ∈ nodesAll children <;>
          simp only [same, early, true_or, or_true, or_self, if_true, if_false]
      · rw [erase, released.issued, document, Document.issued_redone, emptied.issued]
  | .component _ _ _ _ output, c, linked, shown, distinct => by
      rw [seen_component] at shown
      exact removes_eraseAll linked shown.2 distinct
  | .raw .., _, _, shown, _ => by simp only [Seen] at shown

theorem removes_eraseAll : ∀ {ps : List Picture} {c : Canvas D}, c.document.Linked →
    SeenAll c.document c.binder ps → (nodesAll ps).Nodup → Removes (nodesAll ps) c (eraseAll ps c)
  | [], c, linked, _, _ => .nothing linked
  | p :: rest, c, linked, shown, distinct => by
      rw [seenAll_cons] at shown
      rw [nodesAll, List.nodup_append'] at distinct
      obtain ⟨one, two, apart⟩ := distinct
      have first := removes_erase linked shown.1 one
      have still := first.seenAll shown.2 fun n member stale => apart stale member
      exact first.trans (removes_eraseAll first.linked still two)

end

/-- Children are taken out of their parent, and nothing else has changed. -/
structure Takes (taken : List NodeId) (c c' : Canvas D) : Prop where
  node? : ∀ k, c'.document.node? k = (c.document.node? k).map fun node =>
    { node.without taken with parent := if k ∈ taken then none else node.parent }
  binder : c'.binder = c.binder
  issued : c'.document.issued = c.document.issued
  linked : c'.document.Linked
  orderly : Orderly c c'

theorem takes_takeAll {taken : List NodeId} (linked : c.document.Linked)
    (children : ∀ n ∈ taken, n ∈ c.document.children place) (distinct : taken.Nodup) :
    Takes taken c (c.takeAll place taken) := by
  induction taken generalizing c with
  | nil =>
      refine ⟨fun k => ?_, rfl, rfl, linked, .refl c⟩
      rw [takeAll]
      cases c.document.node? k with
      | none => rfl
      | some node =>
          rw [Option.map_some, Node.without_eq_self fun _ _ => List.not_mem_nil]
          rfl
  | cons n rest ih =>
      obtain ⟨child, children⟩ := List.forall_mem_cons.mp children
      obtain ⟨other, distinct⟩ := List.nodup_cons.mp distinct
      obtain ⟨parent, holder⟩ := linked.child.mp child
      obtain ⟨document, binder, orderly⟩ := edit_removeChild holder parent
      have linked' : (c.edit fun dom => Layer.removeChild dom place n).document.Linked :=
        document ▸ linked.detach n
      have later := ih linked' (fun k member => by
        rw [document, linked.children_detach, List.mem_filter, decide_eq_true_eq, List.mem_singleton]
        exact ⟨children k member, fun same => other (same ▸ member)⟩) distinct
      refine ⟨fun k => ?_, later.binder.trans binder, ?_, later.linked, orderly.trans later.orderly⟩
      · rw [takeAll, later.node?, document, linked.node?_detach, Option.map_map]
        cases c.document.node? k with
        | none => rfl
        | some node =>
            refine congrArg some (Node.ext_lists rfl ?_ ?_)
            · simp only [Function.comp_apply, List.mem_cons]
              by_cases same : k = n <;> by_cases late : k ∈ rest <;> simp [same, late]
            · exact congrArg (·.children.toList) (Node.without_without [n] rest node)
      · rw [takeAll, later.issued, document, Document.Linked.issued_detach]

namespace Takes

variable {taken : List NodeId}

theorem look_eq (takes : Takes taken c c') (apart : ∀ x ∈ c.document.children k, x ∉ taken) :
    c'.document.look k = c.document.look k := by
  rw [Document.look, Document.look, takes.node?]
  cases found : c.document.node? k with
  | none => rfl
  | some node =>
      rw [Document.children_eq found] at apart
      rw [Option.map_some, Option.map_some, Option.map_some, Node.without_eq_self apart]

end Takes

/-- A picture is taken out of its parent and erased. -/
theorem removes_remove (linked : c.document.Linked) (shown : Seen c.document c.binder p)
    (distinct : (nodes p).Nodup) (outside : place ∉ nodes p)
    (children : ∀ n ∈ tops p, n ∈ c.document.children place) :
    Removes (nodes p) c (c.remove place p) := by
  have taken := takes_takeAll linked children (distinct.sublist (tops_sublist p))
  -- The nodes taken out are children of the place, so no node of the picture has them beneath it.
  have still : Seen (c.takeAll place (tops p)).document (c.takeAll place (tops p)).binder p :=
    shown.congr fun n member => by
      refine ⟨taken.look_eq fun x child top => outside ?_, by rw [taken.binder]⟩
      exact linked.child_unique child (children x top) ▸ member
  have erased := removes_erase taken.linked still distinct
  refine ⟨fun k => ?_, fun k => ?_, ?_, erased.linked, taken.orderly.trans erased.orderly⟩
  · rw [remove, erased.node?, taken.node?, Option.map_map]
    split
    next => rfl
    next kept =>
      have low : k ∉ tops p := fun top => kept (mem_nodes_of_tops top)
      cases c.document.node? k with
      | none => rfl
      | some node =>
          refine congrArg some (Node.ext_lists rfl (if_neg low) ?_)
          simp only [Function.comp_apply, Node.children_without, List.filter_filter]
          refine List.filter_congr fun n _ => ?_
          by_cases inside : n ∈ nodes p
          · simp only [inside, not_true_eq_false, decide_false, Bool.false_and]
          · have low : n ∉ tops p := fun top => inside (mem_nodes_of_tops top)
            simp only [inside, low, not_false_eq_true, decide_true, Bool.and_self]
  · rw [remove, erased.binder, taken.binder]
  · rw [remove, erased.issued, taken.issued]

theorem removes_removeAll (linked : c.document.Linked) (shown : SeenAll c.document c.binder ps)
    (distinct : (nodesAll ps).Nodup) (outside : place ∉ nodesAll ps)
    (children : ∀ n ∈ topsAll ps, n ∈ c.document.children place) :
    Removes (nodesAll ps) c (c.removeAll place ps) := by
  induction ps generalizing c with
  | nil => exact .nothing linked
  | cons p rest ih =>
      rw [seenAll_cons] at shown
      rw [nodesAll, List.nodup_append'] at distinct
      rw [nodesAll, List.mem_append, not_or] at outside
      rw [topsAll, List.forall_mem_append] at children
      obtain ⟨one, two, apart⟩ := distinct
      have first := removes_remove linked shown.1 one outside.1 children.1
      have still := first.seenAll shown.2 fun n member stale => apart stale member
      refine first.trans (ih first.linked still two outside.2 fun n top => ?_)
      rw [first.children outside.1, List.mem_filter, decide_eq_true_eq]
      exact ⟨children.2 n top, fun stale => apart stale (mem_nodesAll_of_tops top)⟩

end Canvas
end Patchwork
