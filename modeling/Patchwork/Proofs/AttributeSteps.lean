import Patchwork.Proofs.WornAttributes

/-! Attributes that are applied one after the other. Each gives the element what its name and value ask
for, and binds its handler in the place of the one that the category had. -/
namespace Patchwork

theorem Element.liveValue?_congr {e f : Element} (tag : f.tag = e.tag) (value : f.value = e.value)
    (plain : f.attributes.get? "value" = e.attributes.get? "value") :
    f.liveValue? = e.liveValue? := by
  rw [liveValue?, liveValue?, tag, value, plain]

namespace Binder

variable {D : Type} [Documented D] {base : Document} {n : NodeId} {dom : D} {e : Element}

/-- What a value under a name leaves there. -/
def writes (tag name : String) (value : AttrValue) (before : Option String) : Option String :=
  match purpose tag name value with
  | .plain text => some text
  | .absent => none
  | _ => before

def restyles (tag : String) (value : AttrValue) (before : Style) : Style :=
  match purpose tag "style" value with
  | .plain text => Style.parse text
  | .declarations s => s.entries.foldl (fun s entry => s.insert entry.1 entry.2) before
  | .absent => .empty
  | _ => before

def controlText? (tag name : String) (value : AttrValue) : Option String :=
  match purpose tag name value with
  | .control text => some text
  | _ => none

/-- The text of the declarations says what they are. -/
def Canonical (s : Style) : Prop := Style.parse s.text = s

theorem isFormControl_lower {tag : String} (control : isFormControl tag = true) :
    isFormControl (Text.lower tag) = true := by
  simp only [isFormControl, Bool.or_eq_true, beq_iff_eq] at control
  rcases control with (rfl | rfl) | rfl <;> decide +kernel

/-- What became of the element and of its bookkeeping by one attribute. -/
structure GivenOne (tag name : String) (value : AttrValue) (e : Element) (b : Binding D)
    (e' : Element) (b' : Binding D) : Prop where
  named : e'.tag = e.tag
  plain : ∀ k, e'.attributes.get? k =
    if k = name ∧ k ≠ "style" then writes tag name value (e.attributes.get? k)
    else e.attributes.get? k
  styles : e'.styles = if name = "style" then restyles tag value e.styles else e.styles
  listeners : b'.listeners =
    ((binding? (name, value)).map fun (c, h) => b.listeners.insert c h).getD b.listeners
  attached : e'.listeners.Perm b'.listeners.toList
  categories : ∀ c, c ∈ b'.categories ↔
    c ∈ b.categories ∨ ∃ h, binding? (name, value) = some (c, h)
  held : controlText? tag name value = none → e'.value = e.value
  live : ∀ text, controlText? tag name value = some text → e'.liveValue? = some text

variable {b : Binding D}

theorem dresses_bindListener (there : base.contains n = true)
    (holds : Documented.document b.dom = base.redone n (.element e))
    (attached : e.listeners.Perm b.listeners.toList) (category : Category) (h : Handler) :
    Dresses base n b.dom Binding.dom (fun e' b' => ∃ listeners, e' = { e with listeners } ∧
      b'.listeners = b.listeners.insert category h ∧ listeners.Perm b'.listeners.toList ∧
      b'.categories = b.categories) (bindListener n category h b) := by
  rw [bindListener]
  cases found : b.listeners.get? category with
  | some previous =>
      by_cases same : previous = h
      · subst same
        simp only [if_true]
        exact .pure rfl holds ⟨_, rfl, (Dict.insert_of_get? found).symm, attached, rfl⟩
      · simp only [same, if_false]
        have here : (category, previous) ∈ e.listeners :=
          attached.mem_iff.mpr (Dict.get?_eq_some.mp found)
        refine .report rfl (.bind (dresses_removeListener there holds here) fun e' dom holds same => ?_)
        refine .bind (dresses_of_grants there holds (Documented.addListener_grants ..) rfl rfl
          (inOrder_adorn there holds)) fun e'' dom holds same' => .pure rfl holds ?_
        subst same same'
        refine ⟨_, rfl, rfl, ?_, rfl⟩
        have rest : (e.listeners.erase (category, previous)).Perm (b.listeners.erase category).entries :=
          ((List.perm_cons_erase here).symm.trans (attached.trans (Dict.perm_erase found))).cons_inv
        exact (List.perm_append_singleton ..).trans
          ((rest.cons _).trans (Dict.perm_insert b.listeners category h).symm)
  | none =>
      refine .report rfl (.bind (dresses_of_grants there holds (Documented.addListener_grants ..) rfl rfl
        (inOrder_adorn there holds)) fun e' dom holds same => .pure rfl holds ?_)
      subst same
      refine ⟨_, rfl, rfl, ?_, rfl⟩
      have rest := Dict.perm_insert b.listeners category h
      rw [Dict.erase_of_get?_eq_none found] at rest
      exact (List.perm_append_singleton ..).trans ((attached.cons _).trans rest.symm)

theorem dresses_applyHandler (there : base.contains n = true)
    (holds : Documented.document b.dom = base.redone n (.element e))
    (attached : e.listeners.Perm b.listeners.toList) (tag name : String) (h : Handler) :
    Dresses base n b.dom Binding.dom (GivenOne tag name (.handler h) e b)
      (applyHandler n tag name h b) := by
  have asks : purpose tag name (.handler h) = .listener h := rfl
  have asks_style : purpose tag "style" (.handler h) = .listener h := rfl
  have kept : ∀ listeners, ∀ b' : Binding D, listeners.Perm b'.listeners.toList →
      b'.listeners = ((binding? (name, .handler h)).map fun (c, h) => b.listeners.insert c h).getD
        b.listeners →
      (∀ c, c ∈ b'.categories ↔ c ∈ b.categories ∨ ∃ h', binding? (name, .handler h) = some (c, h')) →
      GivenOne tag name (.handler h) e b { e with listeners } b' := fun listeners b' perm same cats =>
    ⟨rfl, fun k => by simp only [writes, asks, ite_self], by simp only [restyles, asks_style, ite_self],
      same, perm, cats, fun _ => rfl, fun _ asked => by cases asked⟩
  rw [applyHandler]
  cases reads : Category.ofAttribute? name with
  | none =>
      have unbound : binding? (name, .handler h) = none := by simp only [binding?, reads]
      refine .report rfl (.pure rfl holds (kept _ _ attached ?_ fun c => ?_))
      · rw [unbound]; rfl
      · simp only [unbound, reduceCtorEq, exists_false, or_false]
  | some answer =>
      cases answer with
      | error reason =>
          have unbound : binding? (name, .handler h) = none := by simp only [binding?, reads]
          refine .report rfl (.pure rfl holds (kept _ _ attached ?_ fun c => ?_))
          · rw [unbound]; rfl
          · simp only [unbound, reduceCtorEq, exists_false, or_false]
      | ok category =>
          have bound : binding? (name, .handler h) = some (category, h) := by simp only [binding?, reads]
          have rest := dresses_bindListener (b := { b with categories :=
            if category ∈ b.categories then b.categories else category :: b.categories })
            there holds attached category h
          have given := rest.imp fun e' b' (given : _) => show GivenOne tag name (.handler h) e b e' b' by
            obtain ⟨listeners, rfl, same, perm, cats⟩ := given
            refine kept _ _ perm (by rw [same, bound]; rfl) fun c => ?_
            rw [cats, bound]
            by_cases member : category ∈ b.categories
            · simp only [member, if_true, Option.some.injEq, Prod.mk.injEq]
              exact ⟨.inl, fun either => either.elim id fun ⟨_, same, _⟩ => same ▸ member⟩
            · simp only [member, if_false, List.mem_cons, Option.some.injEq, Prod.mk.injEq]
              exact ⟨fun either => either.elim (fun same => .inr ⟨h, same.symm, rfl⟩) .inl,
                fun either => either.elim .inr fun ⟨_, same, _⟩ => .inl same.symm⟩
          by_cases member : category ∈ b.categories
          · simp only [member, if_true] at given ⊢
            exact .report rfl given
          · simp only [member, if_false] at given ⊢
            exact given

def put (name text : String) (e : Element) : Element :=
  if name = "style" then { e with styles := Style.parse text }
  else { e with attributes := e.attributes.insert name text }

def drop (name : String) (e : Element) : Element :=
  if name = "style" then { e with styles := .empty } else { e with attributes := e.attributes.erase name }

theorem put_of_attribute? {d : Document} (found : d.element? n = some e)
    (same : d.attribute? n name = some text) (canonical : name = "style" → Canonical e.styles) :
    put name text e = e := by
  rw [Document.attribute?, found, Option.bind_some] at same
  rw [put]
  split at same
  next is_style =>
    rw [Option.ite_none_left_eq_some, Option.some.injEq] at same
    rw [if_pos is_style, ← same.2, canonical is_style]
  next plain => rw [if_neg plain, Dict.insert_of_get? same]

theorem drop_of_attribute? {d : Document} (found : d.element? n = some e)
    (gone : d.attribute? n name = none) : drop name e = e := by
  rw [Document.attribute?, found, Option.bind_some] at gone
  rw [drop]
  split at gone
  next is_style =>
    have bare : e.styles = .empty := by
      simp only [ite_eq_left_iff, reduceCtorEq, imp_false, not_not, Dict.isEmpty,
        List.isEmpty_iff] at gone
      exact Dict.ext gone
    rw [if_pos is_style, ← bare]
  next plain => rw [if_neg plain, Dict.erase_of_get?_eq_none gone]

theorem of_listener (asked : purpose tag name value = .listener h) : value = .handler h := by
  rcases value with _ | (_ | _) | _ | _ <;> grind [purpose]

theorem of_declarations (asked : purpose tag name value = .declarations s) : name = "style" := by
  rcases value with _ | (_ | _) | _ | _ <;> grind [purpose]

theorem of_control (asked : purpose tag name value = .control text) :
    name = "value" ∧ isFormControl tag = true := by
  rcases value with _ | (_ | _) | _ | _ <;> grind [purpose]

theorem unbound_of_purpose (asked : purpose tag name value = p) (other : ∀ h, p ≠ .listener h) :
    binding? (name, value) = none := by
  cases value with
  | handler h => exact absurd asked.symm (other h)
  | text | bool | style => rfl

omit [Documented D] in
theorem GivenOne.quiet (e' : Element) (attached : e.listeners.Perm b.listeners.toList)
    (asked : purpose tag name value = p) (other : ∀ h, p ≠ .listener h) (named : e'.tag = e.tag)
    (listeners : e'.listeners = e.listeners)
    (plain : ∀ k, e'.attributes.get? k = if k = name ∧ k ≠ "style" then
      writes tag name value (e.attributes.get? k) else e.attributes.get? k)
    (styles : e'.styles = if name = "style" then restyles tag value e.styles else e.styles)
    (held : controlText? tag name value = none → e'.value = e.value)
    (live : ∀ text, p = .control text → e'.liveValue? = some text) (dom : D) :
    GivenOne tag name value e b e' { b with dom } := by
  have unbound := unbound_of_purpose asked other
  have shown : ∀ text, controlText? tag name value = some text → e'.liveValue? = some text := by
    intro text asks
    rw [controlText?, asked] at asks
    cases p with
    | control s => exact live text (congrArg _ (Option.some.inj asks))
    | listener | declarations | absent | plain => cases asks
  refine ⟨named, plain, styles, by rw [unbound]; rfl, listeners ▸ attached, fun c => ?_, held, shown⟩
  simp only [unbound, reduceCtorEq, exists_false, or_false]

omit [Documented D] in
theorem GivenOne.put (attached : e.listeners.Perm b.listeners.toList)
    (asked : purpose tag name value = .plain text) (dom : D) :
    GivenOne tag name value e b (put name text e) { b with dom } := by
  by_cases style : name = "style"
  · subst style
    refine .quiet _ attached asked nofun ?_ ?_ (fun k => ?_) ?_ (fun _ => ?_) nofun dom <;>
      simp only [Binder.put, if_true]
    · split
      next both => exact absurd both.1 both.2
      next => rfl
    · simp only [restyles, asked]
  · refine .quiet _ attached asked nofun ?_ ?_ (fun k => ?_) ?_ (fun _ => ?_) nofun dom <;>
      simp only [Binder.put, style, if_false]
    · by_cases same : k = name <;> simp [writes, asked, Dict.get?_insert, same, style]

omit [Documented D] in
theorem GivenOne.drop (attached : e.listeners.Perm b.listeners.toList)
    (asked : purpose tag name value = .absent) (dom : D) :
    GivenOne tag name value e b (drop name e) { b with dom } := by
  by_cases style : name = "style"
  · subst style
    refine .quiet _ attached asked nofun ?_ ?_ (fun k => ?_) ?_ (fun _ => ?_) nofun dom <;>
      simp only [Binder.drop, if_true]
    · split
      next both => exact absurd both.1 both.2
      next => rfl
    · simp only [restyles, asked]
  · refine .quiet _ attached asked nofun ?_ ?_ (fun k => ?_) ?_ (fun _ => ?_) nofun dom <;>
      simp only [Binder.drop, style, if_false]
    · by_cases same : k = name <;> simp [writes, asked, Dict.get?_erase, same, style]

theorem dresses_applyOne (there : base.contains n = true)
    (holds : Documented.document b.dom = base.redone n (.element e))
    (attached : e.listeners.Perm b.listeners.toList) (named : e.tag = Text.lower tag)
    (canonical : ∀ text, name = "style" → purpose tag name value = .plain text → Canonical e.styles) :
    Dresses base n b.dom Binding.dom (GivenOne tag name value e b) (applyOne n tag name value b) := by
  have found : (Documented.document b.dom).element? n = some e :=
    holds ▸ Document.element?_redone there e
  -- Where a write is skipped, the comparison before it says that the element is already as it should be.
  have order := inOrder_adorn there holds
  have reads := congrFun (congrFun (Documented.attribute?_eq b.dom) n) name
  rw [applyOne]
  cases asked : purpose tag name value with
  | listener h =>
      obtain rfl := of_listener asked
      exact dresses_applyHandler there holds attached tag name h
  | control text =>
      obtain ⟨rfl, control⟩ := of_control asked
      have lower : isFormControl e.tag = true := named ▸ isFormControl_lower control
      have kept : ∀ (value' : Option String) (dom : D),
          Element.liveValue? { e with value := value' } = some text →
          GivenOne tag "value" value e b { e with value := value' } { b with dom } :=
        fun value' dom live => .quiet { e with value := value' } attached asked nofun rfl rfl
          (fun k => by simp only [writes, asked, ite_self]) rfl
          (fun unasked => by rw [controlText?, asked] at unasked; cases unasked)
          (fun text' same => by cases same; exact live) dom
      simp only
      split
      next same =>
        rw [Documented.value?_eq, Document.value?, found, Option.bind_some] at same
        exact .pure rfl holds (kept e.value b.dom same)
      · refine .report rfl (.bind (dresses_of_grants there holds (Documented.setValue_grants ..) rfl ?_
          order) fun e' dom holds same => .pure rfl holds ?_)
        · simp only [lower, if_true]
          rfl
        · rw [if_pos lower] at same
          subst same
          exact kept (some text) dom (if_pos lower)
  | declarations s =>
      obtain rfl := of_declarations asked
      refine .bind (dresses_setStyles there holds _) fun e' dom holds same => .pure rfl holds ?_
      subst same
      refine .quiet { e with styles := s.toList.foldl (fun s entry => s.insert entry.1 entry.2) e.styles }
        attached asked nofun rfl rfl (fun k => ?_) ?_ (fun _ => rfl) nofun dom
      · simp only [writes, asked, ite_self]
      · simp only [restyles, asked, if_true]
        rfl
  | absent =>
      have result := GivenOne.drop attached asked
      simp only
      split
      next gone =>
        rw [reads, Option.isNone_iff_eq_none] at gone
        have kept := result b.dom
        rw [drop_of_attribute? found gone] at kept
        exact .pure rfl holds kept
      next =>
        refine .report rfl (.bind (dresses_of_grants there holds (Documented.removeAttribute_grants ..)
          rfl rfl order) fun e' dom holds same => .pure rfl holds ?_)
        subst same
        exact result dom
  | plain text =>
      have result := GivenOne.put attached asked
      simp only
      split
      next same =>
        rw [reads] at same
        have kept := result b.dom
        rw [put_of_attribute? found same fun style => canonical text style asked] at kept
        exact .pure rfl holds kept
      next =>
        refine .report rfl (.bind (dresses_of_grants there holds (Documented.setAttribute_grants ..)
          rfl rfl order) fun e' dom holds same => .pure rfl holds ?_)
        subst same
        exact result dom

theorem controlText?_of_ne (other : name ≠ "value") : controlText? tag name value = none := by
  rw [controlText?]
  split
  next asked => exact absurd (of_control asked).1 other
  next => rfl

/-- What became of the element and of its bookkeeping by all attributes. -/
structure Given (tag : String) (attributes : Attributes) (e : Element) (b : Binding D)
    (e' : Element) (b' : Binding D) : Prop where
  named : e'.tag = e.tag
  plain : ∀ k, e'.attributes.get? k = if k = "style" then e.attributes.get? k
    else ((attributes.get? k).map (writes tag k · (e.attributes.get? k))).getD (e.attributes.get? k)
  styles : e'.styles = ((attributes.get? "style").map (restyles tag · e.styles)).getD e.styles
  listeners : b'.listeners =
    (attributes.entries.filterMap binding?).foldl (fun d entry => d.insert entry.1 entry.2) b.listeners
  attached : e'.listeners.Perm b'.listeners.toList
  categories : ∀ c, c ∈ b'.categories ↔
    c ∈ b.categories ∨ ∃ h, (c, h) ∈ attributes.entries.filterMap binding?
  held : (attributes.get? "value").bind (controlText? tag "value") = none → e'.value = e.value
  live : ∀ text, (attributes.get? "value").bind (controlText? tag "value") = some text →
    e'.liveValue? = some text

omit [Documented D] in
theorem Given.cons {e' e'' : Element} {b' b'' : Binding D} {rest : List (String × AttrValue)}
    (increasing : Dict.Increasing ((name, value) :: rest)) (one : GivenOne tag name value e b e' b')
    (later : Given tag ⟨rest, (List.pairwise_cons.mp increasing).2⟩ e' b' e'' b'') :
    Given tag ⟨(name, value) :: rest, increasing⟩ e b e'' b'' where
  named := later.named.trans one.named
  -- The names increase, so none comes twice and the later attributes leave alone what this one set.
  plain k := by
    rw [later.plain, one.plain, Dict.get?_cons increasing]
    by_cases style : k = "style"
    · simp only [style, ne_eq, not_true_eq_false, and_false, if_false, if_true]
    by_cases same : k = name
    · subst same
      have absent : (⟨rest, (List.pairwise_cons.mp increasing).2⟩ : Attributes).get? k = none :=
        Dict.get?_tail increasing
      simp only [absent, style, ne_eq, not_false_eq_true, and_self, if_true, if_false, Option.map_none,
        Option.map_some, Option.getD_none, Option.getD_some]
    · simp only [style, same, false_and, if_false]
  styles := by
    rw [later.styles, one.styles, Dict.get?_cons increasing]
    by_cases style : name = "style"
    · subst style
      have absent : (⟨rest, (List.pairwise_cons.mp increasing).2⟩ : Attributes).get? "style" = none :=
        Dict.get?_tail increasing
      simp only [absent, if_true, Option.map_none, Option.map_some, Option.getD_none, Option.getD_some]
    · simp only [style, Ne.symm style, if_false]
  listeners := by
    rw [later.listeners, one.listeners, List.filterMap_cons]
    cases binding? (name, value) <;> rfl
  attached := later.attached
  categories c := by
    rw [later.categories, one.categories, List.filterMap_cons, or_assoc]
    refine or_congr_right ?_
    cases binding? (name, value) with
    | none => simp only [reduceCtorEq, exists_false, false_or]
    | some entry => simp only [Option.some.injEq, List.mem_cons, ← exists_or, eq_comm]
  held unasked := by
    rw [Dict.get?_cons increasing] at unasked
    by_cases same : name = "value"
    · subst same
      rw [if_pos rfl] at unasked
      rw [later.held (by rw [Dict.get?_tail increasing]; rfl), one.held unasked]
    · rw [if_neg (Ne.symm same)] at unasked
      rw [later.held unasked, one.held (controlText?_of_ne same)]
  live text asked := by
    rw [Dict.get?_cons increasing] at asked
    by_cases same : name = "value"
    · subst same
      rw [if_pos rfl] at asked
      have absent : (⟨rest, (List.pairwise_cons.mp increasing).2⟩ : Attributes).get? "value" = none :=
        Dict.get?_tail increasing
      rw [← one.live text asked]
      refine Element.liveValue?_congr later.named (later.held (by rw [absent]; rfl)) ?_
      rw [later.plain, absent]
      rfl
    · rw [if_neg (Ne.symm same)] at asked
      exact later.live text asked

theorem dresses_applyAll (there : base.contains n = true) {attributes : List (String × AttrValue)}
    (increasing : Dict.Increasing attributes)
    (holds : Documented.document b.dom = base.redone n (.element e))
    (attached : e.listeners.Perm b.listeners.toList) (named : e.tag = Text.lower tag)
    (canonical : ∀ value text, (⟨attributes, increasing⟩ : Attributes).get? "style" = some value →
      purpose tag "style" value = .plain text → Canonical e.styles) :
    Dresses base n b.dom Binding.dom (Given tag ⟨attributes, increasing⟩ e b)
      (applyAll n tag attributes b) := by
  induction attributes generalizing e b with
  | nil =>
      refine .pure rfl holds ⟨rfl, fun k => (ite_self _).symm, rfl, rfl, attached, fun c => ?_,
        fun _ => rfl, nofun⟩
      simp only [List.filterMap_nil, List.not_mem_nil, exists_false, or_false]
  | cons entry rest ih =>
      obtain ⟨name, value⟩ := entry
      have first : ∀ text, name = "style" → purpose tag name value = .plain text → Canonical e.styles := by
        rintro text rfl asked
        refine canonical value text ?_ asked
        rw [Dict.get?_cons increasing, if_pos rfl]
      refine .bind (dresses_applyOne there holds attached named first) fun e' b' holds one => ?_
      refine (ih (List.pairwise_cons.mp increasing).2 holds one.attached (one.named.trans named)
        fun value' text found asked => ?_).imp fun e'' b'' later => .cons increasing one later
      have other : name ≠ "style" := by
        rintro rfl
        rw [Dict.get?_tail increasing] at found
        cases found
      rw [one.styles, if_neg other]
      refine canonical value' text ?_ asked
      rw [Dict.get?_cons increasing, if_neg (Ne.symm other)]
      exact found

end Binder
end Patchwork
