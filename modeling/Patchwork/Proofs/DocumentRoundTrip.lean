import Patchwork.Layer.Load
import Patchwork.Proofs.DocumentLinks
import Patchwork.Proofs.MarkupRoundTrip

/-! What a document shows is read from its markup just as it is read from its nodes. No path through a forest
is too long to be followed to its end, and no call puts style declarations among the attributes. -/
namespace Patchwork

theorem Logged.value_mapM (f : α → Logged β) (xs : List α) : (xs.mapM f).value = xs.map fun x => (f x).value := by
  induction xs with
  | nil => rfl
  | cons x rest ih => rw [List.mapM_cons, Logged.value_bind, Logged.value_bind, ih]; rfl

namespace Document

section Calls

/-- A document that was made by calls, whether or not each of them could be carried out. A container is made as
an element, and to adopt a node changes nothing. -/
inductive Reached : Document → Prop
  | empty : Reached .empty
  | createElement : Reached d → Reached (d.createElement tag).2
  | createText : Reached d → Reached (d.createText text).2
  | release : Reached d → Reached (d.release n).value
  | setText : Reached d → Reached (d.setText n text).value
  | insertBefore : Reached d → Reached (d.insertBefore parent child reference).value
  | removeChild : Reached d → Reached (d.removeChild parent child).value
  | setAttribute : Reached d → Reached (d.setAttribute n name value).value
  | removeAttribute : Reached d → Reached (d.removeAttribute n name).value
  | setStyle : Reached d → Reached (d.setStyle n property value).value
  | removeStyle : Reached d → Reached (d.removeStyle n property).value
  | setValue : Reached d → Reached (d.setValue n value).value
  | addListener : Reached d → Reached (d.addListener n category h).value
  | removeListener : Reached d → Reached (d.removeListener n category h).value

variable {d : Document}

/-- The links agree, and style declarations are kept apart from the attributes. -/
structure Sound (d : Document) : Prop where
  linked : d.Linked
  undeclared : ∀ {n e}, d.element? n = some e → e.Undeclared

namespace Sound

theorem empty : Document.empty.Sound where
  linked := .empty
  undeclared {n e} found := by
    have nothing : Document.empty.node? n = none := Arena.get?_empty _
    rw [element?_eq_some, nothing] at found
    cases found

theorem create (sound : d.Sound) {content : Content} (bare : ∀ e, content = .element e → e.Undeclared) :
    (d.create content).2.Sound where
  linked := sound.linked.create content
  undeclared {k e} found := by
    rw [element?_eq_some, node?_create] at found
    split at found
    · exact bare e (Option.some.inj found)
    · exact sound.undeclared (element?_eq_some.mpr found)

theorem redone (sound : d.Sound) (n : NodeId) {content : Content}
    (kept : ∀ e, content = .element e → e.Undeclared) : (d.redone n content).Sound where
  linked := sound.linked.redone n content
  undeclared {k e} found := by
    rw [element?_eq_some, node?_redone] at found
    split at found
    · rw [Option.map_map, Option.map_eq_some_iff] at found
      obtain ⟨node, -, same⟩ := found
      exact kept e same
    · exact sound.undeclared (element?_eq_some.mpr found)

theorem detach (sound : d.Sound) (c : NodeId) : (d.detach c).Sound where
  linked := sound.linked.detach c
  undeclared found := by
    rw [element?_eq_some, sound.linked.node?_detach, Option.map_map] at found
    exact sound.undeclared (element?_eq_some.mpr found)

theorem release (sound : d.Sound) (n : NodeId) : (d.release n).value.Sound where
  linked := sound.linked.release n
  undeclared found := by
    rw [element?_eq_some, sound.linked.node?_release] at found
    split at found
    · cases found
    · rw [Option.map_map] at found
      exact sound.undeclared (element?_eq_some.mpr found)

theorem insertBefore (sound : d.Sound) (p c : NodeId) (reference : Option NodeId) :
    (d.insertBefore p c reference).value.Sound where
  linked := sound.linked.insertBefore p c reference
  undeclared {k e} found := by
    cases there : d.contains c with
    | false => exact sound.undeclared (insertBefore_of_missing there reference ▸ found)
    | true =>
        cases holder : d.element? p with
        | none => exact sound.undeclared (insertBefore_of_stranger holder reference ▸ found)
        | some =>
            rw [value_insertBefore there holder, element?_attach] at found
            exact (sound.detach c).undeclared found

theorem setText (sound : d.Sound) (n : NodeId) (text : String) : (d.setText n text).value.Sound := by
  rw [Document.setText]
  split
  · exact sound.redone n nofun
  · exact sound

theorem onElement (sound : d.Sound) (n : NodeId) {f : Element → Logged Element}
    (keeps : ∀ e, e.Undeclared → (f e).value.Undeclared) : (d.onElement n f).value.Sound := by
  cases found : d.element? n with
  | some e =>
      rw [onElement_eq found]
      refine sound.redone n fun e' same => ?_
      cases same
      exact keeps e (sound.undeclared found)
  | none =>
      rw [Document.onElement]
      split
      next held =>
        rw [element?_eq_some.mpr held] at found
        cases found
      next => exact sound
      next => exact sound

end Sound

/-- No call breaks a link or puts style declarations among the attributes. -/
theorem Reached.sound (reached : d.Reached) : d.Sound := by
  induction reached with
  | empty => exact .empty
  | createElement _ sound =>
      refine sound.create fun e same => ?_
      cases same
      exact Dict.get?_empty _
  | createText _ sound => exact sound.create nofun
  | release _ sound => exact sound.release _
  | setText _ sound => exact sound.setText ..
  | insertBefore _ sound => exact sound.insertBefore ..
  | removeChild _ sound =>
      rw [Document.removeChild]
      split
      · exact sound.detach _
      · exact sound
  | setAttribute _ sound =>
      refine sound.onElement _ fun e undeclared => ?_
      split
      next => exact undeclared
      next other => exact (Dict.get?_insert ..).trans ((if_neg (Ne.symm other)).trans undeclared)
  | removeAttribute _ sound =>
      refine sound.onElement _ fun e undeclared => ?_
      split
      next => exact undeclared
      next other => exact (Dict.get?_erase ..).trans ((if_neg (Ne.symm other)).trans undeclared)
  | setStyle _ sound | removeStyle _ sound | addListener _ sound =>
      exact sound.onElement _ fun _ undeclared => undeclared
  | setValue _ sound | removeListener _ sound =>
      refine sound.onElement _ fun e undeclared => ?_
      split <;> exact undeclared

end Calls

section Forests

variable {d : Document} {c n : NodeId}

/-- No node stands beneath itself. -/
def Forest (d : Document) : Prop := ∀ n, ¬ d.Under (d.children n) n

/-- Markup can describe all that stands beneath a node. -/
structure Describable (d : Document) (c : NodeId) : Prop where
  element : ∀ {n e}, d.Under (d.children c) n → d.element? n = some e → e.Writable
  childless : ∀ {n e}, d.Under (d.children c) n → d.element? n = some e → Markup.isVoid e.tag = true →
    d.children n = []
  text : ∀ {n s}, d.Under (d.children c) n → d.text? n = some s →
    Text.allBlank s.toList = false ∧ Markup.siteOpen ∉ s.toList
  apart : ∀ {p}, p = c ∨ d.Under (d.children c) p →
    (d.children p).IsChain fun one two => d.text? one = none ∨ d.text? two = none

theorem Under.holds (under : d.Under (d.children c) n) : d.contains c = true := by
  induction under with
  | top member => exact contains_of_mem_children member
  | child _ _ ih => exact ih

theorem Linked.contains_of_under (linked : d.Linked) (under : d.Under (d.children c) n) :
    d.contains n = true := by
  have child : ∃ p, n ∈ d.children p := by
    cases under with
    | top member => exact ⟨c, member⟩
    | child _ member => exact ⟨_, member⟩
  obtain ⟨p, member⟩ := child
  cases found : d.node? n with
  | some node => exact contains_iff.mpr ⟨node, found⟩
  | none =>
      have up := linked.parent_of_child member
      rw [parent?, found] at up
      cases up

theorem isText_subtreeWithin {levels : Nat} (texts : (d.subtreeWithin levels n).isText = true) :
    d.text? n ≠ none := by
  cases levels with
  | zero => cases texts
  | succ levels =>
      rw [subtreeWithin] at texts
      cases found : d.node? n with
      | none =>
          rw [found] at texts
          cases texts
      | some node =>
          obtain ⟨_ | s, parent, children⟩ := node
          · rw [found] at texts
            cases texts
          · rw [text?, found]
            exact Option.some_ne_none s

theorem undeclared_subtrees {f : NodeId → Subtree} (ns : List NodeId) (each : ∀ n, (f n).Undeclared) :
    Subtree.UndeclaredAll (ns.map f) := by
  induction ns with
  | nil =>
      rw [List.map_nil, Subtree.UndeclaredAll]
      trivial
  | cons n rest ih =>
      rw [List.map_cons, Subtree.UndeclaredAll]
      exact ⟨each n, ih⟩

theorem Sound.undeclared_subtree (sound : d.Sound) (levels : Nat) (n : NodeId) :
    (d.subtreeWithin levels n).Undeclared := by
  induction levels generalizing n with
  | zero => rw [subtreeWithin, Subtree.Undeclared]; trivial
  | succ levels ih =>
      rw [subtreeWithin]
      cases found : d.node? n with
      | none => simp only [Subtree.Undeclared]
      | some node =>
          obtain ⟨e | s, parent, children⟩ := node
          · simp only [Subtree.Undeclared]
            refine ⟨sound.undeclared (element?_eq_some.mpr (congrArg (Option.map Node.content) found)), ?_⟩
            exact undeclared_subtrees _ ih
          · simp only [Subtree.Undeclared]

theorem writable_subtrees {f : NodeId → Subtree} {ns : List NodeId} (each : ∀ n ∈ ns, (f n).Writable)
    (texts : ∀ n, (f n).isText = true → d.text? n ≠ none)
    (apart : ns.IsChain fun one two => d.text? one = none ∨ d.text? two = none) :
    Subtree.WritableAll (ns.map f) := by
  induction ns with
  | nil =>
      rw [List.map_nil, Subtree.WritableAll]
      trivial
  | cons n rest ih =>
      obtain ⟨first, each⟩ := List.forall_mem_cons.mp each
      rw [List.map_cons, Subtree.WritableAll]
      cases apart with
      | singleton => exact ⟨first, fun _ => rfl, ih each .nil⟩
      | cons_cons separate apart =>
          refine ⟨first, fun one => ?_, ih each apart⟩
          refine Bool.eq_false_iff.mpr fun two => ?_
          exact separate.elim (texts _ one) (texts _ two)

/-- In a forest the levels suffice for what stands beneath a node: the nodes above it are live and differ. -/
theorem Describable.writable_subtree (describable : d.Describable c) (forest : d.Forest) (linked : d.Linked)
    {levels : Nat} {above : List NodeId} (distinct : above.Nodup)
    (path : ∀ a ∈ above, d.Under (d.children a) n) (enough : d.issued < above.length + levels)
    (under : d.Under (d.children c) n) : (d.subtreeWithin levels n).Writable := by
  induction levels generalizing above n with
  | zero =>
      -- The path would have more nodes than are live.
      have few := length_le_issued distinct fun a member => (path a member).holds
      omega
  | succ levels ih =>
      obtain ⟨node, found⟩ := contains_iff.mp (linked.contains_of_under under)
      have content := congrArg (Option.map Node.content) found
      obtain ⟨e | s, parent, children⟩ := node
      · have held := element?_eq_some.mpr content
        have kids := children_eq found
        simp only [subtreeWithin, found, Subtree.Writable]
        refine ⟨describable.element under held, fun void => ?_, ?_⟩
        · rw [← kids, describable.childless under held void]
          rfl
        · rw [← kids]
          refine writable_subtrees (fun m member => ?_) (fun _ => isText_subtreeWithin)
            (describable.apart (.inr under))
          refine @ih m (n :: above) (List.nodup_cons.mpr ⟨fun again => forest n (path n again), distinct⟩) ?_ ?_
            (.child under member)
          · exact List.forall_mem_cons.mpr ⟨.top member, fun a listed => .child (path a listed) member⟩
          · rw [List.length_cons]
            omega
      · simp only [subtreeWithin, found, Subtree.Writable]
        exact describable.text under (text?_eq_some.mpr content)

end Forests

section Loading

variable {d : Document} {c n : NodeId}

theorem Sound.value_loadAttributes (sound : d.Sound) {e : Element} (found : d.element? n = some e) :
    (Layer.loadAttributes d n).value = e.loaded := by
  have own : e.attributes.keys.filterMap (fun name => (d.attribute? n name).map (name, AttrValue.text ·)) =
      e.attributes.toList.map fun a => (a.1, AttrValue.text a.2) := by
    rw [Dict.keys, List.filterMap_map, ← List.filterMap_eq_map]
    refine List.filterMap_congr fun a member => ?_
    have value : e.attributes.get? a.1 = some a.2 := Dict.get?_eq_some.mpr member
    have other : a.1 ≠ "style" := fun same => by
      rw [same, sound.undeclared found] at value
      cases value
    simp only [Function.comp_apply, attribute?, found, Option.bind_some, if_neg other, value, Option.map_some]
  have declared : (if e.styles.isEmpty then [] else ["style"]).filterMap
        (fun name => (d.attribute? n name).map (name, AttrValue.text ·)) =
      (if e.styles.isEmpty then [] else [("style", e.styles.text)]).map fun a => (a.1, AttrValue.text a.2) := by
    cases bare : e.styles.isEmpty with
    | true => rfl
    | false =>
        simp only [Bool.false_eq_true, if_false, List.filterMap_cons, List.filterMap_nil, attribute?, found,
          Option.bind_some, bare, if_true, Option.map_some, List.map_cons, List.map_nil]
  have read : (d.attributeNames n).filterMap (fun name => (d.attribute? n name).map (name, AttrValue.text ·)) =
      e.written.map fun a => (a.1, AttrValue.text a.2) := by
    rw [attributeNames, found, Element.written, List.filterMap_append, List.map_append, own, declared]
  exact congrArg Dict.ofList read

theorem value_loadChildrenBy {load : NodeId → Logged (Option Tree)} {f : NodeId → Subtree}
    (same : ∀ n, (load n).value.toList = (f n).trees) (d : Document) (n : NodeId) :
    (Layer.loadChildrenBy load d n).value = Subtree.treesOfAll ((d.children n).map f) := by
  change ((d.children n).mapM load).value.filterMap id = _
  rw [Logged.value_mapM]
  induction d.children n with
  | nil => rfl
  | cons m rest ih =>
      rw [List.map_cons, List.map_cons, Subtree.treesOfAll, ← same, ← ih]
      cases (load m).value <;> rfl

theorem Sound.value_loadNodeWithin (sound : d.Sound) (levels : Nat) (n : NodeId) :
    (Layer.loadNodeWithin d levels n).value.toList = (d.subtreeWithin levels n).trees := by
  induction levels generalizing n with
  | zero => rfl
  | succ levels ih =>
      rw [Layer.loadNodeWithin, subtreeWithin]
      cases found : d.node? n with
      | none =>
          have nothing : Layer.tagName? d n = none ∧ Layer.text? d n = none := by
            constructor <;> simp only [Layer.tagName?, Layer.text?, tagName?, element?, text?, found] <;> rfl
          rw [nothing.1, nothing.2]
          rfl
      | some node =>
          have content := congrArg (Option.map Node.content) found
          obtain ⟨e | s, parent, children⟩ := node
          · have held := element?_eq_some.mpr content
            have tag : Layer.tagName? d n = some e.tag := congrArg (Option.map Element.tag) held
            have kids := value_loadChildrenBy ih d n
            rw [children_eq found] at kids
            simp only [tag, Logged.value_bind, sound.value_loadAttributes held, kids]
            rfl
          · have text : Layer.text? d n = some s := text?_eq_some.mpr content
            have tag : Layer.tagName? d n = none := by
              simp only [Layer.tagName?, tagName?, element?, found]
              rfl
            rw [tag, text]
            rfl

theorem Sound.value_loadChildren (sound : d.Sound) (n : NodeId) :
    (Layer.loadChildren d n).value = Subtree.treesOfAll ((d.children n).map d.subtree) :=
  value_loadChildrenBy (sound.value_loadNodeWithin _) d n

/-- What stands beneath a node of a forest, written as markup and parsed as a template, is what is read from the
nodes themselves: one element as such, and anything else as a fragment. -/
theorem Reached.parse_innerHtml (reached : d.Reached) (forest : d.Forest) (describable : d.Describable c) :
    (∀ tag attributes children, (Layer.loadChildren d c).value = [.element tag attributes children] →
        (Template.parse [(d.innerHtml c).value] []).value = .ok (.element tag attributes children)) ∧
      ((∀ tag attributes children, (Layer.loadChildren d c).value ≠ [.element tag attributes children]) →
        (Template.parse [(d.innerHtml c).value] []).value = .ok (.fragment (Layer.loadChildren d c).value)) := by
  have sound := reached.sound
  have writable : Subtree.WritableAll ((d.children c).map d.subtree) :=
    writable_subtrees (fun n member => describable.writable_subtree forest sound.linked .nil
        (List.forall_mem_nil _) (by rw [List.length_nil, Nat.zero_add]; exact Nat.lt_succ_self _) (.top member))
      (fun _ => isText_subtreeWithin) (describable.apart (.inl rfl))
  have undeclared := undeclared_subtrees (d.children c) (sound.undeclared_subtree (Layer.depth d))
  have parsed : (Template.parse [(d.innerHtml c).value] []).value =
      .ok (Template.root (Layer.loadChildren d c).value) := by
    rw [sound.value_loadChildren]
    exact Subtree.parse_template writable undeclared
  rw [parsed]
  refine ⟨fun tag attributes children one => ?_, fun other => ?_⟩
  · rw [one]
    rfl
  · rw [Template.root.eq_2]
    exact other

/-- A paragraph in a container. Its attribute, its declaration and its text are full of what means something
in markup. -/
def quotation : Document :=
  let d := Document.empty.createContainer.2
  let d := (d.createElement "p").2
  let d := (d.setAttribute ⟨2⟩ "title" "a \"b\" & <c>").value
  let d := (d.setStyle ⟨2⟩ "color" "red").value
  let d := (d.createText "1 < 2 &amp; \"3\"").2
  let d := (d.insertBefore ⟨2⟩ ⟨3⟩ none).value
  (d.insertBefore ⟨1⟩ ⟨2⟩ none).value

theorem reached_quotation : quotation.Reached :=
  .insertBefore (.insertBefore (.createText (.setStyle (.setAttribute (.createElement (.createElement .empty))))))

theorem forest_quotation : quotation.Forest := by
  have below : ∀ p ∈ quotation.liveNodes, ∀ c ∈ quotation.children p, p.index < c.index := by decide +kernel
  have descends : ∀ p c, quotation.Under (quotation.children p) c → p.index < c.index := fun p c under => by
    induction under with
    | top member => exact below p (mem_liveNodes (contains_of_mem_children member)) _ member
    | child _ member ih => exact ih.trans (below _ (mem_liveNodes (contains_of_mem_children member)) _ member)
  exact fun n under => Nat.lt_irrefl _ (descends n n under)

theorem describable_quotation (c : NodeId) : quotation.Describable c := by
  have elements : ∀ n ∈ quotation.liveNodes, ∀ e ∈ quotation.element? n,
      e.Writable ∧ Markup.isVoid e.tag = false := by decide +kernel
  have texts : ∀ n ∈ quotation.liveNodes, ∀ s ∈ quotation.text? n,
      Text.allBlank s.toList = false ∧ Markup.siteOpen ∉ s.toList := by decide +kernel
  have alone : ∀ p ∈ quotation.liveNodes, (quotation.children p).length ≤ 1 := by decide +kernel
  refine ⟨fun _ found => ?_, fun _ found void => ?_, fun _ found => ?_, fun {p} _ => ?_⟩
  · exact (elements _ (mem_liveNodes (contains_of_element? found)) _ found).1
  · rw [(elements _ (mem_liveNodes (contains_of_element? found)) _ found).2] at void
    cases void
  · exact texts _ (mem_liveNodes (contains_of_text? found)) _ found
  · cases kids : quotation.children p with
    | nil => exact .nil
    | cons first rest =>
        have few := alone p (mem_liveNodes (contains_of_mem_children (kids ▸ List.mem_cons_self ..)))
        rw [kids] at few
        rw [List.eq_nil_of_length_eq_zero (Nat.le_zero.mp (Nat.le_of_succ_le_succ few))]
        exact .singleton first

theorem loaded_quotation : (Layer.loadChildren quotation ⟨1⟩).value = [.element "p"
      (.ofList [("title", .text "a \"b\" & <c>"), ("style", .text "color: red;")])
      [.text (.text "1 < 2 &amp; \"3\"")]] ∧
    (Layer.loadChildren quotation ⟨2⟩).value = [.text (.text "1 < 2 &amp; \"3\"")] := by
  have sound := reached_quotation.sound
  have kids : quotation.children ⟨1⟩ = [⟨2⟩] ∧ quotation.children ⟨2⟩ = [⟨3⟩] := by decide +kernel
  have deep : Layer.depth quotation = 4 := by decide +kernel
  obtain ⟨e, paragraph, tag, written⟩ : ∃ e, quotation.node? ⟨2⟩ = some ⟨.element e, some ⟨1⟩, #[⟨3⟩]⟩ ∧
      e.tag = "p" ∧ e.written = [("title", "a \"b\" & <c>"), ("style", "color: red;")] :=
    ⟨⟨"p", .ofList [("title", "a \"b\" & <c>")], .ofList [("color", "red")], none, []⟩, by decide +kernel, rfl,
      by decide +kernel⟩
  have text : quotation.node? ⟨3⟩ = some ⟨.text "1 < 2 &amp; \"3\"", some ⟨2⟩, #[]⟩ := by decide +kernel
  rw [sound.value_loadChildren, sound.value_loadChildren, kids.1, kids.2]
  simp only [List.map_cons, List.map_nil, subtree, deep, subtreeWithin, paragraph, text, Subtree.treesOfAll,
    Subtree.trees, tag, Element.loaded, written, List.append_nil, and_self]

theorem quotation_read_back : quotation.Reached ∧ quotation.Forest ∧ (∀ c, quotation.Describable c) ∧
    (Template.parse [(quotation.innerHtml ⟨1⟩).value] []).value = .ok (.element "p"
      (.ofList [("title", .text "a \"b\" & <c>"), ("style", .text "color: red;")])
      [.text (.text "1 < 2 &amp; \"3\"")]) ∧
    (Template.parse [(quotation.innerHtml ⟨2⟩).value] []).value =
      .ok (.fragment [.text (.text "1 < 2 &amp; \"3\"")]) := by
  obtain ⟨contained, written⟩ := loaded_quotation
  refine ⟨reached_quotation, forest_quotation, describable_quotation, ?_, ?_⟩
  · exact (reached_quotation.parse_innerHtml forest_quotation (describable_quotation ⟨1⟩)).1 _ _ _ contained
  · rw [← written]
    refine (reached_quotation.parse_innerHtml forest_quotation (describable_quotation ⟨2⟩)).2
      fun tag attributes children same => ?_
    rw [written] at same
    cases same

end Loading

end Document
end Patchwork
