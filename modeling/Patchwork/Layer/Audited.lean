import Patchwork.Document.Basic

/-! Documents that keep an account of what is asked of them. A document puts up with requests that make
no sense, so an account is needed to tell whether a renderer made any. -/
namespace Patchwork

inductive Request
  | release (node : NodeId)
  | setText (node : NodeId)
  | insertBefore (parent child : NodeId) (reference : Option NodeId)
  | removeChild (parent child : NodeId)
  /-- An attribute, a style property, a value or a further listener. -/
  | adorn (node : NodeId)
  | removeListener (node : NodeId) (category : Category) (handler : Handler)
deriving DecidableEq

/-- The request makes sense to the document: the nodes are live and of the right kind, a node is
released without children, what is removed is there, and a reference is a child of the parent. -/
def Request.InOrder (d : Document) : Request → Prop
  | .release n => d.contains n = true ∧ d.children n = []
  | .setText n => (d.text? n).isSome = true
  | .insertBefore parent child reference =>
      (d.element? parent).isSome = true ∧ d.contains child = true ∧
        ∀ r, reference = some r → r ∈ d.children parent
  | .removeChild parent child => d.contains parent = true ∧ d.parent? child = some parent
  | .adorn n => (d.element? n).isSome = true
  | .removeListener n category h => ∃ e, d.element? n = some e ∧ (category, h) ∈ e.listeners

/-- Requests with the documents to which they were put, newest first. -/
abbrev Account := List (Document × Request)

def Account.Grew (old new : Account) : Prop := ∃ more, new = more ++ old ∧ ∀ x ∈ more, x.2.InOrder x.1

namespace Account.Grew

theorem refl (account : Account) : account.Grew account := ⟨[], rfl, List.forall_mem_nil _⟩

theorem of_eq {old new : Account} (same : new = old) : old.Grew new := same ▸ refl old

theorem trans {old between new : Account} (one : old.Grew between) (two : between.Grew new) :
    old.Grew new := by
  obtain ⟨first, rfl, early⟩ := one
  obtain ⟨second, rfl, late⟩ := two
  exact ⟨second ++ first, (List.append_assoc ..).symm, List.forall_mem_append.mpr ⟨late, early⟩⟩

end Account.Grew

/-- A request to a layer does to its document what it would do to the document itself, and the layer's
account grows by that request at most. -/
structure Grants (document : D → Document) (account : D → Account) (d : D) (r : Request)
    (change : Document → Logged Document) (outcome : Logged D) : Prop where
  granted : outcome.map document = change (document d)
  noted : account outcome.value = account d ∨ account outcome.value = (document d, r) :: account d

theorem Grants.grew {document : D → Document} {account : D → Account} {d : D} {r : Request}
    {change : Document → Logged Document} {outcome : Logged D}
    (grants : Grants document account d r change outcome) (order : r.InOrder (document d)) :
    (account d).Grew (account outcome.value) :=
  grants.noted.elim .of_eq fun noted => ⟨[(document d, r)], noted, List.forall_mem_singleton.mpr order⟩

/-- A layer that is a document. It may keep an account of all requests or of some. -/
class Documented (D : Type) extends Layer D where
  document : D → Document
  account : D → Account
  createElement_eq : ∀ d tag,
    ((Layer.createElement d tag).1, document (Layer.createElement d tag).2) =
      (document d).createElement tag
  createText_eq : ∀ d text,
    ((Layer.createText d text).1, document (Layer.createText d text).2) = (document d).createText text
  adopt_eq : ∀ d raw, ((Layer.adopt d raw).1, document (Layer.adopt d raw).2) =
    ((document d).adopt? raw, document d)
  account_createElement : ∀ d tag, account (Layer.createElement d tag).2 = account d
  account_createText : ∀ d text, account (Layer.createText d text).2 = account d
  account_adopt : ∀ d raw, account (Layer.adopt d raw).2 = account d
  tagName?_eq : ∀ d, Layer.tagName? d = (document d).tagName?
  text?_eq : ∀ d, Layer.text? d = (document d).text?
  nextSibling?_eq : ∀ d, Layer.nextSibling? d = (document d).nextSibling?
  attribute?_eq : ∀ d, Layer.attribute? d = (document d).attribute?
  value?_eq : ∀ d, Layer.value? d = (document d).value?
  release_grants : ∀ d n, Grants document account d (.release n)
    (·.release n) (Layer.release d n)
  setText_grants : ∀ d n text, Grants document account d (.setText n)
    (·.setText n text) (Layer.setText d n text)
  insertBefore_grants : ∀ d parent child reference,
    Grants document account d (.insertBefore parent child reference)
      (·.insertBefore parent child reference) (Layer.insertBefore d parent child reference)
  removeChild_grants : ∀ d parent child, Grants document account d (.removeChild parent child)
    (·.removeChild parent child) (Layer.removeChild d parent child)
  setAttribute_grants : ∀ d n name value, Grants document account d (.adorn n)
    (·.setAttribute n name value) (Layer.setAttribute d n name value)
  removeAttribute_grants : ∀ d n name, Grants document account d (.adorn n)
    (·.removeAttribute n name) (Layer.removeAttribute d n name)
  setStyle_grants : ∀ d n property value, Grants document account d (.adorn n)
    (·.setStyle n property value) (Layer.setStyle d n property value)
  removeStyle_grants : ∀ d n property, Grants document account d (.adorn n)
    (·.removeStyle n property) (Layer.removeStyle d n property)
  setValue_grants : ∀ d n value, Grants document account d (.adorn n)
    (·.setValue n value) (Layer.setValue d n value)
  addListener_grants : ∀ d n category h, Grants document account d (.adorn n)
    (·.addListener n category h) (Layer.addListener d n category h)
  removeListener_grants : ∀ d n category h, Grants document account d (.removeListener n category h)
    (·.removeListener n category h) (Layer.removeListener d n category h)

instance : Documented Document where
  document := id
  account _ := []
  createElement_eq _ _ := rfl
  createText_eq _ _ := rfl
  adopt_eq _ _ := rfl
  account_createElement _ _ := rfl
  account_createText _ _ := rfl
  account_adopt _ _ := rfl
  tagName?_eq _ := rfl
  text?_eq _ := rfl
  nextSibling?_eq _ := rfl
  attribute?_eq _ := rfl
  value?_eq _ := rfl
  release_grants _ _ := ⟨rfl, .inl rfl⟩
  setText_grants _ _ _ := ⟨rfl, .inl rfl⟩
  insertBefore_grants _ _ _ _ := ⟨rfl, .inl rfl⟩
  removeChild_grants _ _ _ := ⟨rfl, .inl rfl⟩
  setAttribute_grants _ _ _ _ := ⟨rfl, .inl rfl⟩
  removeAttribute_grants _ _ _ := ⟨rfl, .inl rfl⟩
  setStyle_grants _ _ _ _ := ⟨rfl, .inl rfl⟩
  removeStyle_grants _ _ _ := ⟨rfl, .inl rfl⟩
  setValue_grants _ _ _ := ⟨rfl, .inl rfl⟩
  addListener_grants _ _ _ _ := ⟨rfl, .inl rfl⟩
  removeListener_grants _ _ _ _ := ⟨rfl, .inl rfl⟩

/-- A document with the requests it was put, newest first. -/
structure Audited where
  document : Document
  account : Account
deriving Inhabited

namespace Audited

def grant (r : Request) (change : Document → Logged Document) (a : Audited) : Logged Audited :=
  (change a.document).map fun document => ⟨document, (a.document, r) :: a.account⟩

/-- What is made needs no asking. -/
def keep (make : Document → α × Document) (a : Audited) : α × Audited :=
  ((make a.document).1, { a with document := (make a.document).2 })

instance : Documented Audited where
  createElement a tag := a.keep (·.createElement tag)
  createText a text := a.keep (·.createText text)
  adopt a raw := a.keep fun d => (d.adopt? raw, d)
  release a n := a.grant (.release n) (·.release n)
  tagName? a := a.document.tagName?
  text? a := a.document.text?
  setText a n text := a.grant (.setText n) (·.setText n text)
  childNodes a n := pure (a.document.children n)
  nextSibling? a := a.document.nextSibling?
  insertBefore a parent child reference :=
    a.grant (.insertBefore parent child reference) (·.insertBefore parent child reference)
  removeChild a parent child := a.grant (.removeChild parent child) (·.removeChild parent child)
  attributeNames a n := pure (a.document.attributeNames n)
  attribute? a := a.document.attribute?
  setAttribute a n name value := a.grant (.adorn n) (·.setAttribute n name value)
  removeAttribute a n name := a.grant (.adorn n) (·.removeAttribute n name)
  setStyle a n property value := a.grant (.adorn n) (·.setStyle n property value)
  removeStyle a n property := a.grant (.adorn n) (·.removeStyle n property)
  value? a := a.document.value?
  setValue a n value := a.grant (.adorn n) (·.setValue n value)
  addListener a n category h := a.grant (.adorn n) (·.addListener n category h)
  removeListener a n category h :=
    a.grant (.removeListener n category h) (·.removeListener n category h)
  depth a := a.document.nodes.issued + 1
  document := document
  account := account
  createElement_eq _ _ := rfl
  createText_eq _ _ := rfl
  adopt_eq _ _ := rfl
  account_createElement _ _ := rfl
  account_createText _ _ := rfl
  account_adopt _ _ := rfl
  tagName?_eq _ := rfl
  text?_eq _ := rfl
  nextSibling?_eq _ := rfl
  attribute?_eq _ := rfl
  value?_eq _ := rfl
  release_grants _ _ := ⟨rfl, .inr rfl⟩
  setText_grants _ _ _ := ⟨rfl, .inr rfl⟩
  insertBefore_grants _ _ _ _ := ⟨rfl, .inr rfl⟩
  removeChild_grants _ _ _ := ⟨rfl, .inr rfl⟩
  setAttribute_grants _ _ _ _ := ⟨rfl, .inr rfl⟩
  removeAttribute_grants _ _ _ := ⟨rfl, .inr rfl⟩
  setStyle_grants _ _ _ _ := ⟨rfl, .inr rfl⟩
  removeStyle_grants _ _ _ := ⟨rfl, .inr rfl⟩
  setValue_grants _ _ _ := ⟨rfl, .inr rfl⟩
  addListener_grants _ _ _ _ := ⟨rfl, .inr rfl⟩
  removeListener_grants _ _ _ _ := ⟨rfl, .inr rfl⟩

end Audited
end Patchwork
