import Patchwork.Proofs.AttributeSets

/-! Single strokes on a canvas whose layer is a document. A stroke that makes sense raises no alarm, and
what it does to the document is told node by node. -/
namespace Patchwork

open Picture

namespace Canvas

variable {D : Type} [Documented D] {c c' c'' : Canvas D}

def document (c : Canvas D) : Document := Documented.document c.dom

/-- No alarm was raised in between, and all that was asked made sense. -/
structure Orderly (c c' : Canvas D) : Prop where
  alarms : c'.alarms = c.alarms
  account : (Documented.account c.dom).Grew (Documented.account c'.dom)

namespace Orderly

@[refl] theorem refl (c : Canvas D) : Orderly c c := ⟨rfl, .refl _⟩

theorem trans (one : Orderly c c') (two : Orderly c' c'') : Orderly c c'' where
  alarms := two.alarms.trans one.alarms
  account := one.account.trans two.account

end Orderly

/-- The links are sound, and there is no bookkeeping for nodes that were never issued. -/
structure Sound (c : Canvas D) : Prop where
  linked : c.document.Linked
  unbound : ∀ n : NodeId, c.document.issued < n.index → c.binder[n]? = none

theorem orderly_edit (c : Canvas D) (f : D → Logged D) {change : Document → Logged Document} {r : Request}
    (grants : Grants Documented.document Documented.account c.dom r change (f c.dom))
    (calm : (change c.document).reports.filter Report.isAlarm = []) (order : r.InOrder c.document) :
    (c.edit f).document = (change c.document).value ∧ (c.edit f).binder = c.binder ∧
      Orderly c (c.edit f) := by
  refine ⟨congrArg Logged.value grants.granted, rfl, ?_, grants.grew order⟩
  have said : (f c.dom).reports = (change c.document).reports := congrArg Logged.reports grants.granted
  simp only [edit, said, calm, List.reverseAux]

section Making

theorem make_text (c : Canvas D) (content : String) :
    (c.make (Layer.createText · content)).1 = ⟨c.document.issued + 1⟩ ∧
      (c.make (Layer.createText · content)).2.document = (c.document.create (.text content)).2 ∧
      (c.make (Layer.createText · content)).2.binder = c.binder ∧
      Orderly c (c.make (Layer.createText · content)).2 := by
  have made := Documented.createText_eq c.dom content
  exact ⟨(Prod.mk.inj made).1, (Prod.mk.inj made).2, rfl, rfl,
    .of_eq (Documented.account_createText c.dom content)⟩

theorem make_element (c : Canvas D) (tag : String) :
    (c.make (Layer.createElement · tag)).1 = ⟨c.document.issued + 1⟩ ∧
      (c.make (Layer.createElement · tag)).2.document =
        (c.document.create (.element ⟨Text.lower tag, .empty, .empty, none, []⟩)).2 ∧
      (c.make (Layer.createElement · tag)).2.binder = c.binder ∧
      Orderly c (c.make (Layer.createElement · tag)).2 := by
  have made := Documented.createElement_eq c.dom tag
  exact ⟨(Prod.mk.inj made).1, (Prod.mk.inj made).2, rfl, rfl,
    .of_eq (Documented.account_createElement c.dom tag)⟩

theorem make_adopted (c : Canvas D) (raw : RawNode) :
    (c.make (Layer.adopt · raw)).2.document = c.document ∧
      (c.make (Layer.adopt · raw)).2.binder = c.binder ∧ Orderly c (c.make (Layer.adopt · raw)).2 := by
  have made := Documented.adopt_eq c.dom raw
  exact ⟨(Prod.mk.inj made).2, rfl, rfl, .of_eq (Documented.account_adopt c.dom raw)⟩

end Making

section Moving

theorem edit_insertBefore {child : NodeId} {before : Option NodeId} {e : Element}
    (holder : c.document.element? place = some e) (there : c.document.contains child = true)
    (orphan : c.document.parent? child = none)
    (known : ∀ r, before = some r → r ∈ c.document.children place) :
    let c' := c.edit fun dom => Layer.insertBefore dom place child before
    c'.document = c.document.attach place child before ∧ c'.binder = c.binder ∧ Orderly c c' := by
  have detached : c.document.detach child = c.document := by rw [Document.detach, orphan]
  have content := Document.element?_eq_some.mp holder
  have value := Document.value_insertBefore there holder before
  rw [detached] at value
  rw [← value]
  refine orderly_edit c (Layer.insertBefore · place child before) (Documented.insertBefore_grants ..) ?_
    ⟨by rw [holder]; rfl, there, known⟩
  cases before with
  | none =>
      simp only [Document.insertBefore, there, content, Bool.not_true, Bool.false_eq_true, if_false]
      rfl
  | some r =>
      obtain ⟨node, found⟩ := Document.contains_iff.mp (Document.contains_of_element? holder)
      have position : ((c.document.node? place).bind (·.position? r)).isNone = false := by
        have member := known r rfl
        rw [Document.children_eq found] at member
        rw [found, Option.bind_some, Node.position?, Option.isNone_eq_false_iff, Array.findIdx?_isSome,
          Array.any_eq_true']
        exact ⟨r, Array.mem_toList_iff.mp member, beq_self_eq_true r⟩
      simp only [Document.insertBefore, there, content, detached, Bool.not_true, Bool.false_eq_true,
        if_false]
      simp only [Bind.bind, Pure.pure, Logged.bind, position, Bool.false_eq_true, if_false]
      rfl

theorem edit_removeChild {child : NodeId} (holder : c.document.contains place = true)
    (parent : c.document.parent? child = some place) :
    let c' := c.edit fun dom => Layer.removeChild dom place child
    c'.document = c.document.detach child ∧ c'.binder = c.binder ∧ Orderly c c' := by
  have opened : c.document.removeChild place child = pure (c.document.detach child) := if_pos parent
  obtain ⟨document, rest⟩ := orderly_edit c (Layer.removeChild · place child)
    (Documented.removeChild_grants c.dom place child) (by rw [opened]; rfl) ⟨holder, parent⟩
  exact ⟨document.trans (by rw [opened]; rfl), rest⟩

theorem release_childless (there : c.document.contains n = true) (childless : c.document.children n = []) :
    (c.release n).document = (c.document.release n).value ∧ (c.release n).binder = c.binder ∧
      Orderly c (c.release n) :=
  orderly_edit c (Layer.release · n) (Documented.release_grants c.dom n)
    (by simp only [Document.release, there, if_true, List.filter_nil]) ⟨there, childless⟩

end Moving

section Changing

theorem rewrite_text (found : c.document.text? n = some old) (content : String) :
    (c.rewrite n content).document = c.document.redone n (.text content) ∧
      (c.rewrite n content).binder = c.binder ∧ Orderly c (c.rewrite n content) := by
  have reads : Layer.text? c.dom n = some old := by rw [Documented.text?_eq]; exact found
  rw [rewrite, reads]
  split
  next same =>
    cases same
    exact ⟨(Document.redone_self (Document.text?_eq_some.mp found)).symm, rfl, .refl c⟩
  next =>
    have there : (c.document.text? n).isSome = true := by rw [found]; rfl
    have opened : c.document.setText n content = pure (c.document.redone n (.text content)) := if_pos there
    obtain ⟨document, rest⟩ := orderly_edit c (Layer.setText · n content)
      (Documented.setText_grants c.dom n content) (by rw [opened]; rfl) there
    exact ⟨document.trans (by rw [opened]; rfl), rest⟩

theorem orderly_editBound (c : Canvas D) (f : Binder → D → Logged (Binder × D))
    {post : Element → Binder × D → Prop}
    (dresses : Binder.Dresses c.document n c.dom Prod.snd post (f c.binder c.dom)) :
    ∃ e, (c.editBound f).document = c.document.redone n (.element e) ∧
      post e ((c.editBound f).binder, (c.editBound f).dom) ∧ Orderly c (c.editBound f) := by
  obtain ⟨e, document, meets⟩ := dresses.worn
  refine ⟨e, document, meets, ?_, dresses.account⟩
  have quiet : (f c.binder c.dom).reports.filter Report.isAlarm = [] := by
    refine List.filter_eq_nil_iff.mpr fun r member => ?_
    rw [dresses.calm r member]
    exact Bool.false_ne_true
  simp only [editBound, quiet, List.reverseAux]

theorem dress_element {e : Element} (found : c.document.element? n = some e)
    (wears : Binder.Wears tag old e (c.binder[n]?.getD .empty)) (attributes : Attributes) :
    ∃ e' b, (c.dress n tag attributes).document = c.document.redone n (.element e') ∧
      (∀ k : NodeId, (c.dress n tag attributes).binder[k]? = if k = n then some b else c.binder[k]?) ∧
      Binder.Wears tag attributes e' b ∧ Orderly c (c.dress n tag attributes) := by
  have there := Document.contains_of_element? found
  have holds : Documented.document c.dom = c.document.redone n (.element e) :=
    (Document.redone_self (Document.element?_eq_some.mp found)).symm
  obtain ⟨e', document, ⟨b, bound, wears', -⟩, orderly⟩ :=
    orderly_editBound c (fun binder dom => binder.apply dom n tag attributes)
      (Binder.dresses_apply there holds wears attributes)
  exact ⟨e', b, document, bound, wears', orderly⟩

theorem forget_element {e : Element} (found : c.document.element? n = some e)
    (attached : ∀ b, c.binder[n]? = some b → e.listeners.Perm b.listeners.toList) :
    ∃ e', (c.forget n).document = c.document.redone n (.element e') ∧
      (∀ k : NodeId, (c.forget n).binder[k]? = if k = n then none else c.binder[k]?) ∧
      Orderly c (c.forget n) := by
  have there := Document.contains_of_element? found
  have holds : Documented.document c.dom = c.document.redone n (.element e) :=
    (Document.redone_self (Document.element?_eq_some.mp found)).symm
  exact orderly_editBound c (fun binder dom => binder.forget dom n)
    (Binder.dresses_forget there holds attached)

end Changing

end Canvas
end Patchwork
