import Mathlib.Data.List.Perm.Lattice
import Patchwork.Binder
import Patchwork.Layer.Audited
import Patchwork.Proofs.Canvas
import Patchwork.Proofs.DocumentLinks
import Patchwork.Proofs.MapLookup

/-! What an element wears: the plain texts, the declarations and for each category the last handler that
its attributes ask for. How steps that change one element are followed, and what takes off of it what it
wears. -/
namespace Patchwork

namespace Binder

section Tables

theorem getElem?_insert (binder : Binder) (n : NodeId) (b : Bindings) (k : NodeId) :
    (binder.insert n b)[k]? = if k = n then some b else binder[k]? := by
  have same : compare n k = .eq ↔ k = n := Std.LawfulEqCmp.compare_eq_iff_eq.trans eq_comm
  simp only [Std.ExtTreeMap.getElem?_insert, same]

theorem getElem?_erase (binder : Binder) (n k : NodeId) :
    (binder.erase n)[k]? = if k = n then none else binder[k]? := by
  have same : compare n k = .eq ↔ k = n := Std.LawfulEqCmp.compare_eq_iff_eq.trans eq_comm
  simp only [Std.ExtTreeMap.getElem?_erase, same]

end Tables

section Asked

/-- The plain text that attributes ask for under a name. The declarations are no attribute of their
own. -/
def plainText? (tag : String) (attributes : Attributes) (name : String) : Option String :=
  if name = "style" then none
  else (attributes.get? name).bind fun value =>
    match purpose tag name value with
    | .plain text => some text
    | _ => none

def declaredBy (tag : String) (value : AttrValue) : Style :=
  match purpose tag "style" value with
  | .plain text => Style.parse text
  | .declarations s => s
  | _ => .empty

def declared (tag : String) (attributes : Attributes) : Style :=
  ((attributes.get? "style").map (declaredBy tag)).getD .empty

def binding? : String × AttrValue → Option (Category × Handler)
  | (name, .handler h) =>
      match Category.ofAttribute? name with
      | some (.ok category) => some (category, h)
      | _ => none
  | _ => none

/-- For each category the last handler that is asked for. -/
def boundTo (attributes : Attributes) : Dict Category Handler :=
  .ofList (attributes.entries.filterMap binding?)

/-- The element shows what the attributes ask for, and the bookkeeping tells how it came by it. -/
structure Wears (tag : String) (attributes : Attributes) (e : Element) (b : Bindings) : Prop where
  named : e.tag = Text.lower tag
  plain : ∀ name, e.attributes.get? name = plainText? tag attributes name
  styles : e.styles = declared tag attributes
  listeners : e.listeners.Perm b.listeners.toList
  attributeNames : b.attributes = plainNames tag attributes
  styleNames : b.styles = Binder.styleNames tag attributes
  bound : b.listeners = boundTo attributes

theorem wears_nothing (tag : String) :
    Wears tag .empty ⟨Text.lower tag, .empty, .empty, none, []⟩ .empty where
  named := rfl
  plain name := by rw [plainText?]; split <;> rfl
  styles := rfl
  listeners := .nil
  attributeNames := rfl
  styleNames := rfl
  bound := rfl

end Asked

variable {D : Type} [Documented D] {base : Document} {n : NodeId} {dom : D} {e : Element}

/-- A change of what one element wears. The layer is `base`, except for what the element `n` is; it
comes to be one as `post` says, without alarm and by requests that make sense. -/
structure Dresses {α : Type} (base : Document) (n : NodeId) (dom : D) (layer : α → D)
    (post : Element → α → Prop) (out : Logged α) : Prop where
  worn : ∃ e, Documented.document (layer out.value) = base.redone n (.element e) ∧ post e out.value
  calm : ∀ r ∈ out.reports, r.isAlarm = false
  account : (Documented.account dom).Grew (Documented.account (layer out.value))

namespace Dresses

variable {α β : Type} {layer : α → D} {layer' : β → D} {post : Element → α → Prop}
  {post' : Element → β → Prop}

theorem pure {a : α} (at_hand : layer a = dom)
    (holds : Documented.document dom = base.redone n (.element e)) (meets : post e a) :
    Dresses base n dom layer post (Pure.pure a) where
  worn := ⟨e, at_hand.symm ▸ holds, meets⟩
  calm := List.forall_mem_nil _
  account := .of_eq (congrArg Documented.account at_hand)

theorem bind {out : Logged α} {f : α → Logged β} (one : Dresses base n dom layer post out)
    (two : ∀ e a, Documented.document (layer a) = base.redone n (.element e) → post e a →
      Dresses base n (layer a) layer' post' (f a)) :
    Dresses base n dom layer' post' (out >>= f) := by
  obtain ⟨e, holds, meets⟩ := one.worn
  have later := two e out.value holds meets
  refine ⟨later.worn, fun r member => ?_, one.account.trans later.account⟩
  exact (List.mem_append.mp member).elim (one.calm r) (later.calm r)

theorem report {r : Report} {f : Unit → Logged β} (quiet : r.isAlarm = false)
    (rest : Dresses base n dom layer' post' (f ())) :
    Dresses base n dom layer' post' (Logged.report r >>= f) where
  worn := rest.worn
  calm s member := (List.mem_append.mp member).elim (fun same => List.mem_singleton.mp same ▸ quiet)
    (rest.calm s)
  account := rest.account

theorem imp {out : Logged α} {post'' : Element → α → Prop} (one : Dresses base n dom layer post out)
    (imp : ∀ e a, post e a → post'' e a) : Dresses base n dom layer post'' out where
  worn := by
    obtain ⟨e, holds, meets⟩ := one.worn
    exact ⟨e, holds, imp e _ meets⟩
  calm := one.calm
  account := one.account

end Dresses

/-- One request that changes an element. -/
theorem dresses_of_grants {out : Logged D} {change : Document → Logged Document}
    {f : Element → Logged Element} (there : base.contains n = true)
    (holds : Documented.document dom = base.redone n (.element e))
    (grants : Grants Documented.document Documented.account dom r change out)
    (opened : change (Documented.document dom) = (Documented.document dom).onElement n f)
    (quiet : (f e).reports = []) (order : r.InOrder (Documented.document dom)) :
    Dresses base n dom id (fun e' _ => e' = (f e).value) out := by
  have found : (Documented.document dom).element? n = some e :=
    holds ▸ Document.element?_redone there e
  have whole := grants.granted
  rw [opened, Document.onElement_eq found] at whole
  refine ⟨⟨_, ?_, rfl⟩, fun r member => ?_, grants.grew order⟩
  · have value := congrArg Logged.value whole
    simp only [Logged.map, holds, Document.redone_redone] at value
    exact value
  · have none_said : out.reports = [] := (congrArg Logged.reports whole).trans quiet
    rw [none_said] at member
    cases member

theorem inOrder_adorn (there : base.contains n = true)
    (holds : Documented.document dom = base.redone n (.element e)) :
    (Request.adorn n).InOrder (Documented.document dom) := by
  rw [Request.InOrder, holds, Document.element?_redone there]
  rfl

section Taking

theorem Dresses.step {out : Logged D} {rest : D → Logged D} {r : Report} {mid : Element → D → Prop}
    {post : Element → D → Prop} (quiet : r.isAlarm = false) (one : Dresses base n dom id mid out)
    (two : ∀ e dom, Documented.document dom = base.redone n (.element e) → mid e dom →
      Dresses base n dom id post (rest dom)) :
    Dresses base n dom id post (Logged.report r >>= fun _ => out >>= rest) :=
  .report quiet (.bind one two)

theorem dresses_removeAttributes (there : base.contains n = true)
    (holds : Documented.document dom = base.redone n (.element e)) (names : List String) :
    Dresses base n dom id (fun e' _ => ∃ attributes styles,
      e' = { e with attributes, styles } ∧
      (∀ name, attributes.get? name =
        if name ∈ names ∧ name ≠ "style" then none else e.attributes.get? name) ∧
      styles = if "style" ∈ names then .empty else e.styles) (removeAttributes n names dom) := by
  induction names generalizing dom e with
  | nil =>
      refine .pure rfl holds ⟨e.attributes, e.styles, rfl, fun name => ?_, ?_⟩
      · simp only [List.not_mem_nil, false_and, if_false]
      · simp only [List.not_mem_nil, if_false]
  | cons name rest ih =>
      rw [removeAttributes]
      refine .step rfl (dresses_of_grants there holds (Documented.removeAttribute_grants ..) rfl rfl
        (inOrder_adorn there holds)) fun e' dom holds same => (ih holds).imp ?_
      rintro e'' _ ⟨attributes, styles, rfl, plain, rfl⟩
      subst same
      simp only [Pure.pure] at plain ⊢
      split
      next is_style =>
        subst is_style
        refine ⟨attributes, _, rfl, fun other => ?_, ?_⟩
        · rw [plain other]
          by_cases style : other = "style" <;> simp [style]
        · simp
      next plain_name =>
        refine ⟨attributes, _, rfl, fun other => ?_, ?_⟩
        · rw [plain other]
          by_cases same : other = name <;> simp [same, plain_name, Dict.get?_erase]
        · simp [Ne.symm plain_name]

theorem dresses_removeStyles (there : base.contains n = true)
    (holds : Documented.document dom = base.redone n (.element e)) (properties : List String) :
    Dresses base n dom id (fun e' _ => ∃ styles, e' = { e with styles } ∧
      ∀ property, styles.get? property =
        if property ∈ properties then none else e.styles.get? property)
      (removeStyles n properties dom) := by
  induction properties generalizing dom e with
  | nil =>
      refine .pure rfl holds ⟨e.styles, rfl, fun property => ?_⟩
      simp only [List.not_mem_nil, if_false]
  | cons property rest ih =>
      rw [removeStyles]
      refine .step rfl (dresses_of_grants there holds (Documented.removeStyle_grants ..) rfl rfl
        (inOrder_adorn there holds)) fun e' dom holds same => (ih holds).imp ?_
      rintro e'' _ ⟨styles, rfl, gone⟩
      subst same
      simp only [Pure.pure] at gone ⊢
      refine ⟨styles, rfl, fun other => ?_⟩
      rw [gone other]
      by_cases same : other = property <;> simp [same, Dict.get?_erase]

theorem dresses_setStyles (there : base.contains n = true)
    (holds : Documented.document dom = base.redone n (.element e))
    (entries : List (String × String)) :
    Dresses base n dom id (fun e' _ => e' =
      { e with styles := entries.foldl (fun s entry => s.insert entry.1 entry.2) e.styles })
      (setStyles n entries dom) := by
  induction entries generalizing dom e with
  | nil => exact .pure rfl holds rfl
  | cons entry rest ih =>
      rw [setStyles]
      refine .step rfl (dresses_of_grants there holds (Documented.setStyle_grants ..) rfl rfl
        (inOrder_adorn there holds)) fun e' dom holds same => (ih holds).imp ?_
      rintro e'' _ rfl
      subst same
      rfl

theorem dresses_removeListener (there : base.contains n = true)
    (holds : Documented.document dom = base.redone n (.element e)) (member : (category, h) ∈ e.listeners) :
    Dresses base n dom id
      (fun e' _ => e' = { e with listeners := e.listeners.erase (category, h) })
      (Layer.removeListener dom n category h) := by
  refine (dresses_of_grants there holds (Documented.removeListener_grants ..) rfl ?_ ?_).imp ?_
  · simp only [member, if_true]
    rfl
  · exact ⟨e, holds ▸ Document.element?_redone there e, member⟩
  · rintro e' _ rfl
    simp only [member, if_true]
    rfl

theorem dresses_removeListeners (there : base.contains n = true)
    (holds : Documented.document dom = base.redone n (.element e))
    {stale kept : List (Category × Handler)} (split : e.listeners.Perm (stale ++ kept)) :
    Dresses base n dom id
      (fun e' _ => ∃ listeners, e' = { e with listeners } ∧ listeners.Perm kept)
      (removeListeners n stale dom) := by
  induction stale generalizing dom e with
  | nil => exact .pure rfl holds ⟨e.listeners, rfl, split⟩
  | cons entry rest ih =>
      obtain ⟨category, h⟩ := entry
      have member : (category, h) ∈ e.listeners := split.mem_iff.mpr (List.mem_cons_self ..)
      rw [removeListeners]
      refine .step rfl (dresses_removeListener there holds member) fun e' dom holds same => ?_
      subst same
      refine (ih holds ?_).imp ?_
      · exact ((List.perm_cons_erase member).symm.trans split).cons_inv
      · rintro e'' _ ⟨listeners, rfl, perm⟩
        exact ⟨listeners, rfl, perm⟩

theorem dresses_detachListeners (there : base.contains n = true)
    (holds : Documented.document dom = base.redone n (.element e))
    {listeners : List (Category × Handler)} (same : e.listeners.Perm listeners) :
    Dresses base n dom id (fun e' _ => e' = { e with listeners := [] })
      (detachListeners n listeners dom) := by
  induction listeners generalizing dom e with
  | nil =>
      refine .pure rfl holds ?_
      rw [← List.perm_nil.mp same]
  | cons entry rest ih =>
      obtain ⟨category, h⟩ := entry
      have member : (category, h) ∈ e.listeners := same.mem_iff.mpr (List.mem_cons_self ..)
      rw [detachListeners]
      refine .bind (dresses_removeListener there holds member) fun e' dom holds at_first => ?_
      subst at_first
      exact (ih holds ((List.perm_cons_erase member).symm.trans same).cons_inv).imp fun _ _ same => same

end Taking

end Binder
end Patchwork
