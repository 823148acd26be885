import Patchwork.Proofs.AttributeSteps
import Patchwork.Proofs.StyleDeclarations

/-! Attributes that are applied as a whole. However often attributes were applied to it before, an element
wears exactly what the last ones ask for. -/
namespace Patchwork.Binder

variable {D : Type} [Documented D] {base : Document} {n : NodeId} {dom : D} {e : Element}

theorem mem_plainNames {attributes : Attributes} : name ∈ plainNames tag attributes ↔
    ∃ value text, attributes.get? name = some value ∧ purpose tag name value = .plain text := by
  simp only [plainNames, List.mem_filterMap, Prod.exists, Dict.get?_eq_some, Dict.toList]
  constructor
  · rintro ⟨key, value, member, asked⟩
    split at asked
    next text plain =>
      cases asked
      exact ⟨value, text, member, plain⟩
    next => cases asked
  · rintro ⟨value, text, member, plain⟩
    exact ⟨name, value, member, by simp only [plain]⟩

theorem mem_styleNames {attributes : Attributes} : property ∈ styleNames tag attributes ↔
    ∃ value s, attributes.get? "style" = some value ∧ purpose tag "style" value = .declarations s ∧
      property ∈ s.keys := by
  simp only [styleNames, List.mem_flatMap, Prod.exists, Dict.get?_eq_some, Dict.toList]
  constructor
  · rintro ⟨key, value, member, asked⟩
    split at asked
    next s declared =>
      obtain rfl := of_declarations declared
      exact ⟨value, s, member, declared, asked⟩
    next => cases asked
  · rintro ⟨value, s, member, declared, inside⟩
    exact ⟨"style", value, member, by simpa only [declared] using inside⟩

theorem mem_keys {s : Style} : property ∈ s.keys ↔ s.get? property ≠ none := by
  simp only [Dict.keys, List.mem_map, Prod.exists, exists_and_right, exists_eq_right,
    Option.ne_none_iff_exists', Dict.get?_eq_some]

theorem plainText?_eq_none {attributes : Attributes} (other : name ∉ plainNames tag attributes) :
    plainText? tag attributes name = none := by
  rw [plainText?]
  split
  · rfl
  · refine Option.bind_eq_none_iff.mpr fun value found => ?_
    split
    next text plain => exact absurd (mem_plainNames.mpr ⟨value, text, found, plain⟩) other
    next => rfl

/-- What is left of the old declarations when new ones are to be given. -/
structure Leftover (tag : String) (old new : Attributes) (s : Style) : Prop where
  get? : ∀ property, s.get? property =
    if property ∈ styleNames tag old ∧ property ∉ styleNames tag new then none
    else if "style" ∈ plainNames tag old ∧ "style" ∉ plainNames tag new then none
    else (declared tag old).get? property

theorem styles_ext {s : Style} (nothing : ∀ property, s.get? property = none) : s = .empty :=
  Dict.ext_get? nothing

theorem canonical_of_nothing {s : Style} (nothing : ∀ property, s.get? property = none) :
    Canonical s := by
  rw [Canonical, styles_ext nothing]
  rfl

namespace Leftover

variable {old new : Attributes} {s : Style}

theorem canonical (left : Leftover tag old new s) (found : new.get? "style" = some value)
    (plain : purpose tag "style" value = .plain text) : Canonical s := by
  have named : "style" ∈ plainNames tag new := mem_plainNames.mpr ⟨value, text, found, plain⟩
  have unnamed : ∀ property, property ∉ styleNames tag new := fun property member => by
    obtain ⟨value', s', found', declared', -⟩ := mem_styleNames.mp member
    cases Option.some.inj (found.symm.trans found')
    cases plain.symm.trans declared'
  have kept : ∀ property, s.get? property =
      if property ∈ styleNames tag old then none else (declared tag old).get? property := fun property => by
    rw [left.get?]
    simp only [unnamed, named, not_false_eq_true, not_true_eq_false, and_true, and_false, if_false]
  cases before : old.get? "style" with
  | none =>
      have bare : declared tag old = .empty := by rw [declared, before]; rfl
      refine canonical_of_nothing fun property => ?_
      rw [kept, bare]
      exact ite_self _
  | some value' =>
      have was : declared tag old = declaredBy tag value' := by rw [declared, before]; rfl
      cases asked : purpose tag "style" value' with
      | plain text' =>
          have whole : s = Style.parse text' := Dict.ext_get? fun property => by
            have outside : property ∉ styleNames tag old := fun member => by
              obtain ⟨value'', s', found', declared', -⟩ := mem_styleNames.mp member
              cases Option.some.inj (before.symm.trans found')
              cases asked.symm.trans declared'
            rw [kept, if_neg outside, was, declaredBy, asked]
          exact whole ▸ Style.parse_text_parse text'
      | declarations s' =>
          refine canonical_of_nothing fun property => ?_
          rw [kept, was, declaredBy, asked]
          split
          next => rfl
          next outside =>
            refine not_not.mp fun there => outside ?_
            exact mem_styleNames.mpr ⟨value', s', before, asked, mem_keys.mpr there⟩
      | listener | control | absent =>
          have bare : declared tag old = .empty := by rw [was, declaredBy, asked]
          refine canonical_of_nothing fun property => ?_
          rw [kept, bare]
          exact ite_self _

theorem eq_none (left : Leftover tag old new s) (unnamed : property ∉ styleNames tag new)
    (unplain : "style" ∉ plainNames tag new) : s.get? property = none := by
  rw [left.get?]
  simp only [unnamed, unplain, not_false_eq_true, and_true]
  split
  · rfl
  split
  · rfl
  next undeclared unwritten =>
    rw [declared]
    cases before : old.get? "style" with
    | none => rfl
    | some value' =>
        simp only [Option.map_some, Option.getD_some, declaredBy]
        split
        next text asked => exact absurd (mem_plainNames.mpr ⟨value', text, before, asked⟩) unwritten
        next s' asked =>
          refine not_not.mp fun there => undeclared ?_
          exact mem_styleNames.mpr ⟨value', s', before, asked, mem_keys.mpr there⟩
        next => rfl

theorem restyled (left : Leftover tag old new s) :
    ((new.get? "style").map (restyles tag · s)).getD s = declared tag new := by
  rw [declared]
  cases found : new.get? "style" with
  | none =>
      refine styles_ext fun property => left.eq_none (fun member => ?_) fun member => ?_
      · obtain ⟨_, _, found', -⟩ := mem_styleNames.mp member
        cases found.symm.trans found'
      · obtain ⟨_, _, found', -⟩ := mem_plainNames.mp member
        cases found.symm.trans found'
  | some value =>
      have bare : (∀ text, purpose tag "style" value ≠ .plain text) →
          (∀ s, purpose tag "style" value ≠ .declarations s) → s = .empty := fun unplain undeclared => by
        refine styles_ext fun property => left.eq_none (fun member => ?_) fun member => ?_
        · obtain ⟨_, s', found', asked, -⟩ := mem_styleNames.mp member
          cases Option.some.inj (found.symm.trans found')
          exact undeclared s' asked
        · obtain ⟨_, text, found', asked⟩ := mem_plainNames.mp member
          cases Option.some.inj (found.symm.trans found')
          exact unplain text asked
      simp only [Option.map_some, Option.getD_some, restyles, declaredBy]
      cases asked : purpose tag "style" value with
      | plain text => rfl
      | absent => rfl
      | listener | control =>
          exact bare (fun text same => by cases asked.symm.trans same) fun s same => by
            cases asked.symm.trans same
      | declarations s' =>
          refine Dict.ext_get? fun property => ?_
          simp only [Dict.get?_foldl_insert]
          cases there : s'.get? property with
          | some v => rfl
          | none =>
              refine left.eq_none (fun member => ?_) fun member => ?_
              · obtain ⟨_, s'', found', asked', inside⟩ := mem_styleNames.mp member
                cases Option.some.inj (found.symm.trans found')
                cases asked.symm.trans asked'
                exact mem_keys.mp inside there
              · obtain ⟨_, _, found', asked'⟩ := mem_plainNames.mp member
                cases Option.some.inj (found.symm.trans found')
                cases asked.symm.trans asked'

end Leftover

theorem plain_of_given {old new : Attributes} {e' : Element}
    (gone : ∀ name, e.attributes.get? name =
      if (name ∈ plainNames tag old ∧ name ∉ plainNames tag new) ∧ name ≠ "style" then none
      else plainText? tag old name)
    (given : ∀ k, e'.attributes.get? k = if k = "style" then e.attributes.get? k
      else ((new.get? k).map (writes tag k · (e.attributes.get? k))).getD (e.attributes.get? k))
    (k : String) : e'.attributes.get? k = plainText? tag new k := by
  rw [given]
  split
  next style =>
    rw [gone, plainText?, plainText?]
    simp only [style, ne_eq, not_true_eq_false, and_false, if_false, if_true]
  next other =>
    have left : k ∉ plainNames tag new → e.attributes.get? k = none := fun unplain => by
      rw [gone]
      split
      · rfl
      next kept =>
        simp only [unplain, other, ne_eq, not_false_eq_true, and_true] at kept
        exact plainText?_eq_none kept
    rw [plainText?, if_neg other]
    cases found : new.get? k with
    | none =>
        refine left fun member => ?_
        obtain ⟨_, _, found', -⟩ := mem_plainNames.mp member
        cases found.symm.trans found'
    | some value =>
        simp only [Option.map_some, Option.getD_some, Option.bind_some, writes]
        have unplain : (∀ text, purpose tag k value ≠ .plain text) → e.attributes.get? k = none :=
          fun differs => left fun member => by
            obtain ⟨_, text, found', asked⟩ := mem_plainNames.mp member
            cases Option.some.inj (found.symm.trans found')
            exact differs text asked
        cases asked : purpose tag k value with
        | plain | absent => rfl
        | listener | control | declarations =>
            exact unplain fun text same => by cases asked.symm.trans same

omit [Documented D] in
/-- After the last attribute the bookkeeping lists what the attributes bind, and what they do not. -/
theorem kept_of_given {before : Dict Category Handler} {b' : Binding D} {new : Attributes}
    (listeners : b'.listeners = (new.entries.filterMap binding?).foldl
      (fun d entry => d.insert entry.1 entry.2) before)
    (categories : ∀ c, c ∈ b'.categories ↔ ∃ h, (c, h) ∈ new.entries.filterMap binding?) :
    (b'.listeners.filter fun category _ => category ∈ b'.categories) = boundTo new := by
  refine Dict.ext_get? fun c => ?_
  rw [Dict.get?_filter, listeners, Dict.get?_foldl_list, boundTo]
  by_cases asked : c ∈ b'.categories
  · obtain ⟨h, member⟩ := (categories c).mp asked
    cases found : (Dict.ofList (new.entries.filterMap binding?)).get? c with
    | none => exact absurd member (Dict.ofList_eq_none.mp found h)
    | some h' =>
        rw [Option.some_or, Option.filter_some, if_pos (decide_eq_true asked)]
  · have unasked : (Dict.ofList (new.entries.filterMap binding?)).get? c = none :=
      Dict.ofList_eq_none.mpr fun h member => asked ((categories c).mpr ⟨h, member⟩)
    rw [unasked, Option.none_or]
    refine Option.filter_eq_none_iff.mpr fun h _ => ?_
    simpa only [decide_eq_true_eq] using asked

structure Revalues (tag : String) (attributes : Attributes) (e e' : Element) : Prop where
  held : (attributes.get? "value").bind (controlText? tag "value") = none → e'.value = e.value
  live : ∀ text, (attributes.get? "value").bind (controlText? tag "value") = some text →
    e'.liveValue? = some text

/-- However an element was dressed, it wears what is applied to it, and the bookkeeping is in step. -/
theorem dresses_apply {binder : Binder} {old : Attributes} (there : base.contains n = true)
    (holds : Documented.document dom = base.redone n (.element e))
    (wears : Wears tag old e (binder[n]?.getD .empty)) (new : Attributes) :
    Dresses base n dom Prod.snd
      (fun e' out => ∃ b, (∀ k : NodeId, out.1[k]? = if k = n then some b else binder[k]?) ∧
        Wears tag new e' b ∧ Revalues tag new e e')
      (binder.apply dom n tag new) := by
  generalize before_eq : binder[n]?.getD .empty = before at wears
  rw [apply]
  simp only [before_eq]
  refine .report rfl (.bind (dresses_removeAttributes there holds _) ?_)
  rintro _ dom₁ holds ⟨attributes, styles, rfl, plain, styled⟩
  refine .bind (dresses_removeStyles there holds _) ?_
  rintro _ dom₂ holds ⟨styles', rfl, restyled⟩
  simp only at restyled
  -- What is left of the attributes and declarations from before.
  have stale : ∀ name, name ∈ (attributeOrder before.attributes).filter (· ∉ plainNames tag new) ↔
      name ∈ plainNames tag old ∧ name ∉ plainNames tag new := fun name => by
    rw [List.mem_filter, attributeOrder, Slots.mem_sortBy, wears.attributeNames, decide_eq_true_eq]
  have gone : ∀ name, attributes.get? name =
      if (name ∈ plainNames tag old ∧ name ∉ plainNames tag new) ∧ name ≠ "style" then none
      else plainText? tag old name := fun name => by
    rw [plain, wears.plain]
    simp only [stale]
  have left : Leftover tag old new styles' := ⟨fun property => by
    have staleStyle : property ∈ (styleOrder before.styles).filter (· ∉ styleNames tag new) ↔
        property ∈ styleNames tag old ∧ property ∉ styleNames tag new := by
      rw [List.mem_filter, styleOrder, Slots.mem_sortBy, wears.styleNames, decide_eq_true_eq]
    rw [restyled, styled, wears.styles]
    simp only [staleStyle, stale]
    split
    · rfl
    · split <;> rfl⟩
  refine .bind (dresses_applyAll (e := { e with attributes, styles := styles' })
    (b := ⟨dom₂, before.listeners, before.slots, []⟩) there new.increasing holds wears.listeners wears.named
      fun value text found asked => left.canonical found asked) ?_
  rintro e' b' holds given
  have categories : ∀ c, c ∈ b'.categories ↔ ∃ h, (c, h) ∈ new.entries.filterMap binding? := fun c => by
    rw [given.categories]
    simp only [List.not_mem_nil, false_or]
  -- A listener stays if its category is bound again, and what stays is what the attributes ask for.
  have kept := kept_of_given given.listeners categories
  have split : e'.listeners.Perm
      ((listenerOrder b'.slots b'.listeners).filter (·.1 ∉ b'.categories) ++ (boundTo new).toList) := by
    rw [← kept]
    have order : (listenerOrder b'.slots b'.listeners).Perm b'.listeners.toList := Slots.sortBy_perm ..
    have halves := List.filter_append_perm (fun entry : Category × Handler => entry.1 ∉ b'.categories)
      b'.listeners.toList
    simp only [decide_not, Bool.not_not] at halves ⊢
    exact given.attached.trans (halves.symm.trans ((order.symm.filter _).append_right _))
  refine .bind (dresses_removeListeners there holds split) ?_
  rintro _ dom₃ holds ⟨listeners, rfl, perm⟩
  rw [kept]
  refine .pure rfl holds ⟨_, fun k => getElem?_insert .., ?_, given.held, given.live⟩
  exact {
    named := given.named.trans wears.named
    plain := fun k => plain_of_given (e := { e with attributes, styles := styles' }) gone given.plain k
    styles := given.styles.trans left.restyled
    listeners := perm
    attributeNames := rfl
    styleNames := rfl
    bound := rfl }

/-- A node that is forgotten has no listener that was bound, and no bookkeeping. -/
theorem dresses_forget {binder : Binder} (there : base.contains n = true)
    (holds : Documented.document dom = base.redone n (.element e))
    (attached : ∀ b, binder[n]? = some b → e.listeners.Perm b.listeners.toList) :
    Dresses base n dom Prod.snd
      (fun _ out => ∀ k : NodeId, out.1[k]? = if k = n then none else binder[k]?)
      (binder.forget dom n) := by
  rw [forget]
  refine .report rfl ?_
  cases found : binder[n]? with
  | none =>
      refine .pure rfl holds fun k => ?_
      split
      next same => rw [same, found]
      next => rfl
  | some b =>
      have order : (listenerOrder b.slots b.listeners).Perm b.listeners.toList := Slots.sortBy_perm ..
      refine .bind (dresses_detachListeners there holds ((attached b found).trans order.symm)) ?_
      rintro _ dom₁ holds rfl
      exact .pure rfl holds fun k => getElem?_erase ..

end Patchwork.Binder
