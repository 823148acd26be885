import Patchwork.Proofs.ComponentExpansion
import Patchwork.Proofs.AttributeSets

/-! The history of what one element wears. Whatever it was given before by its binder, and in whatever
order, it has what the last attributes ask for, just as an element that is new has it. -/
namespace Patchwork

/-- Two elements of one tag have the same attributes, the same declarations and, for each category, the
same handlers. -/
def Document.Matches (d : Document) (n : NodeId) (d' : Document) (n' : NodeId) : Prop :=
  ∃ e e', d.element? n = some e ∧ d'.element? n' = some e' ∧ e.tag = e'.tag ∧
    e.attributes = e'.attributes ∧ e.styles = e'.styles ∧
    ∀ category, e.handlers category = e'.handlers category

namespace Binder

/-- Attributes were applied to an element one after the other, the last ones listed first, and nothing
else changed what it wears. Its live value and its place may have changed, and everything else. -/
inductive Dressed (tag : String) (n : NodeId) : List Attributes → Binder → Document → Prop
  | bare : Text.lower tag = tag → d.element? n = some ⟨tag, .empty, .empty, value, []⟩ →
      binder[n]? = none → Dressed tag n [] binder d
  | apply (attributes : Attributes) : Dressed tag n given binder d →
      Dressed tag n (attributes :: given) (binder.apply d n tag attributes).value.1
        (binder.apply d n tag attributes).value.2
  | meanwhile : Dressed tag n given binder d →
      d'.element? n = (d.element? n).map ({ · with value }) → binder'[n]? = binder[n]? →
      Dressed tag n given binder' d'

def Sets (tag : String) (attributes : Attributes) (value : AttrValue) : Prop :=
  isFormControl tag = true ∧ attributes.get? "value" = some value ∧ ∀ h, value ≠ .handler h

theorem controlText?_eq {value : AttrValue} (unbound : ∀ h, value ≠ .handler h) :
    controlText? tag "value" value = if isFormControl tag then some (stringify value) else none := by
  rcases value with _ | (_ | _) | _ | h
  case handler => exact absurd rfl (unbound h)
  all_goals by_cases control : isFormControl tag = true <;> simp [controlText?, purpose, control]

theorem Sets.controlText?_eq {attributes : Attributes} (sets : Sets tag attributes value) :
    (attributes.get? "value").bind (controlText? tag "value") = some (stringify value) := by
  obtain ⟨control, found, unbound⟩ := sets
  rw [found, Option.bind_some, Binder.controlText?_eq unbound, if_pos control]

theorem controlText?_eq_none {attributes : Attributes} (unset : ∀ value, ¬ Sets tag attributes value) :
    (attributes.get? "value").bind (controlText? tag "value") = none := by
  refine Option.bind_eq_none_iff.mpr fun value found => ?_
  cases value with
  | handler h => rfl
  | text | bool | style =>
      rw [Binder.controlText?_eq fun h same => by cases same]
      exact if_neg fun control => unset _ ⟨control, found, fun h same => by cases same⟩

theorem plainText?_value (control : isFormControl tag = true) (attributes : Attributes) :
    plainText? tag attributes "value" = none := by
  rw [plainText?, if_neg (by decide)]
  refine Option.bind_eq_none_iff.mpr fun value found => ?_
  rcases value with _ | (_ | _) | _ | _ <;> simp [purpose, control]

namespace Wears

variable {tag : String} {attributes : Attributes} {e f : Element} {b b' : Bindings}

theorem liveValue?_eq (wears : Wears tag attributes e b) (wears' : Wears tag attributes' f b')
    (lower : Text.lower tag = tag) (held : f.value = e.value) : f.liveValue? = e.liveValue? := by
  have named : e.tag = tag := wears.named.trans lower
  have named' : f.tag = tag := wears'.named.trans lower
  by_cases control : isFormControl tag = true
  · refine Element.liveValue?_congr (named'.trans named.symm) held ?_
    rw [wears.plain, wears'.plain, plainText?_value control, plainText?_value control]
  · rw [Element.liveValue?, Element.liveValue?, named, named', if_neg control, if_neg control]

end Wears

theorem matches_of_wears {d d' : Document} (found : d.element? n = some e)
    (found' : d'.element? n' = some e') (wears : Wears tag attributes e b)
    (wears' : Wears tag attributes e' b') : d.Matches n d' n' := by
  refine ⟨e, e', found, found', wears.named.trans wears'.named.symm,
    Dict.ext_get? fun name => (wears.plain name).trans (wears'.plain name).symm,
    wears.styles.trans wears'.styles.symm, fun category => ?_⟩
  rw [wears.handlers_eq, wears'.handlers_eq, wears.bound, wears'.bound]

theorem Wears.apply {binder : Binder} {d : Document} (found : d.element? n = some e)
    (wears : Wears tag old e (binder[n]?.getD .empty)) (attributes : Attributes) :
    ∃ e' b, (binder.apply d n tag attributes).value.2.element? n = some e' ∧
      (binder.apply d n tag attributes).value.1[n]? = some b ∧ Wears tag attributes e' b ∧
      Revalues tag attributes e e' := by
  have there := Document.contains_of_element? found
  have holds : Documented.document d = d.redone n (.element e) :=
    (Document.redone_self (Document.element?_eq_some.mp found)).symm
  obtain ⟨e', document, b, bound, wears', revalues⟩ := (dresses_apply there holds wears attributes).worn
  refine ⟨e', b, ?_, (bound n).trans (if_pos rfl), wears', revalues⟩
  exact (congrArg (Document.element? · n) document).trans (Document.element?_redone there e')

theorem Dressed.wears (dressed : Dressed tag n given binder d) :
    Text.lower tag = tag ∧ ∃ e, d.element? n = some e ∧
      Wears tag (given.head?.getD .empty) e (binder[n]?.getD .empty) := by
  induction dressed with
  | bare lower found unbound =>
      have nothing := wears_nothing tag
      refine ⟨lower, _, found, ?_⟩
      rw [unbound]
      exact { nothing with named := lower.symm }
  | apply attributes _ ih =>
      obtain ⟨lower, e, found, wears⟩ := ih
      obtain ⟨e', b, found', bound, wears', -⟩ := wears.apply found attributes
      exact ⟨lower, e', found', bound ▸ wears'⟩
  | meanwhile _ changed unbound ih =>
      obtain ⟨lower, e, found, wears⟩ := ih
      rw [found] at changed
      exact ⟨lower, _, changed, unbound ▸ { wears with }⟩

/-- When attributes are applied to an element, it comes to match a new element that was given nothing
else, whatever it was given before. Its live value is the text they set, or stays. To apply them again
changes none of this. -/
theorem Dressed.matches_new_element (dressed : Dressed tag n given binder d) (attributes : Attributes)
    (other : Document) :
    let made := other.createElement tag
    let first := (Binder.apply ∅ made.2 made.1 tag attributes).value.2
    let once := (binder.apply d n tag attributes).value
    let twice := (once.1.apply once.2 n tag attributes).value.2
    once.2.Matches n first made.1 ∧
      (∀ value, Sets tag attributes value → once.2.value? n = some (stringify value)) ∧
      ((∀ value, ¬ Sets tag attributes value) → once.2.value? n = d.value? n ∧
        (once.2.element? n).map Element.value = (d.element? n).map Element.value) ∧
      twice.Matches n once.2 n ∧ twice.value? n = once.2.value? n := by
  intro made first once twice
  obtain ⟨lower, e, found, wears⟩ := dressed.wears
  obtain ⟨e', b, found', bound, wears', revalues⟩ := wears.apply found attributes
  have again : Wears tag attributes e' (once.1[n]?.getD .empty) := bound ▸ wears'
  obtain ⟨e'', b', found'', -, wears'', revalues'⟩ := again.apply found' attributes
  have bare : made.2.element? made.1 = some ⟨Text.lower tag, .empty, .empty, none, []⟩ := by
    rw [Document.element?_eq_some]
    exact congrArg (Option.map Node.content) ((Document.node?_create ..).trans (if_pos rfl))
  have nothing : Wears tag .empty ⟨Text.lower tag, .empty, .empty, none, []⟩
      ((∅ : Binder)[made.1]?.getD .empty) := by
    rw [Std.ExtTreeMap.getElem?_empty]
    exact wears_nothing tag
  obtain ⟨f, b'', fresh, -, wearsFirst, -⟩ := nothing.apply bare attributes
  have value_eq : ∀ {d : Document} {e : Element}, d.element? n = some e → d.value? n = e.liveValue? :=
    fun found => by rw [Document.value?, found, Option.bind_some]
  refine ⟨matches_of_wears found' fresh wears' wearsFirst, fun value sets => ?_, fun unset => ?_,
    matches_of_wears found'' found' wears'' wears', ?_⟩
  · exact (value_eq found').trans (revalues.live _ sets.controlText?_eq)
  · have held := revalues.held (controlText?_eq_none unset)
    rw [value_eq found', value_eq found, found', found]
    exact ⟨wears.liveValue?_eq wears' lower held, congrArg some held⟩
  · rw [value_eq found'', value_eq found']
    cases asked : (attributes.get? "value").bind (controlText? tag "value") with
    | none => exact wears'.liveValue?_eq wears'' lower (revalues'.held asked)
    | some text => rw [revalues'.live text asked, revalues.live text asked]

/-- A text as the declarations, a checked box and two names for clicks. -/
def worded : Attributes :=
  .ofList [("style", .text "color: red"), ("checked", .bool true), ("value", .text "old"),
    ("onclick", .handler ⟨1⟩), ("onClick", .handler ⟨2⟩)]

def mapped : Attributes :=
  .ofList [("style", .style (.ofList [("width", "1px")])), ("value", .bool true),
    ("onCLICK", .handler ⟨3⟩)]

theorem input_forgets_worded :
    let d := (Document.empty.createElement "input").2
    let before := (Binder.apply ∅ d ⟨1⟩ "input" worded).value
    let once := (before.1.apply before.2 ⟨1⟩ "input" mapped).value
    once.2.Matches ⟨1⟩ (Binder.apply ∅ d ⟨1⟩ "input" mapped).value.2 ⟨1⟩ ∧
      once.2.value? ⟨1⟩ = some "" := by
  have bare : (Document.empty.createElement "input").2.element? ⟨1⟩ =
      some ⟨"input", .empty, .empty, none, []⟩ := by decide +kernel
  intro d before once
  have dressed : Dressed "input" ⟨1⟩ [worded] before.1 before.2 :=
    .apply worded (.bare (by decide +kernel) bare Std.ExtTreeMap.getElem?_empty)
  obtain ⟨same, live, -⟩ := dressed.matches_new_element mapped Document.empty
  exact ⟨same, live (.bool true) ⟨by decide, by decide +kernel, fun h other => by cases other⟩⟩

end Binder
end Patchwork
