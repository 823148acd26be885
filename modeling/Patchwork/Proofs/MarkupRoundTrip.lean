import Patchwork.Proofs.MarkupScanning
import Patchwork.Proofs.MapLookup
import Patchwork.Template

/-! The tokens of written markup grow into the forest that was written, and that resolves into its trees.
Nothing is merged, repeated or left open on the way, and no text is taken for a site. -/
namespace Patchwork

theorem Logged.value_bind {l : Logged α} {f : α → Logged β} : (l >>= f).value = (f l.value).value := rfl

/-- Style declarations are kept apart from the attributes. -/
def Element.Undeclared (e : Element) : Prop := e.attributes.get? "style" = none

theorem Element.Undeclared.distinct {e : Element} (undeclared : e.Undeclared) :
    (e.written.map Prod.fst).Nodup := by
  have own : (e.attributes.toList.map Prod.fst).Nodup :=
    List.pairwise_map.mpr (e.attributes.increasing.imp fun less same => by
      rw [same] at less
      exact absurd less (by simp))
  rw [Element.written]
  split
  next => rwa [List.append_nil]
  next =>
    rw [List.map_append, List.nodup_append]
    refine ⟨own, List.pairwise_singleton _ _, fun name member style listed same => ?_⟩
    cases List.mem_singleton.mp listed
    subst same
    obtain ⟨⟨_, value⟩, held, rfl⟩ := List.mem_map.mp member
    have found := Dict.get?_eq_some.mpr held
    rw [undeclared] at found
    cases found

namespace Markup.Builder

def grow (b : Builder) (tokens : List Token) : Builder := tokens.foldl (fun b token => (b.add token).value) b

def siblings (b : Builder) : List Markup :=
  match b.openElements with
  | [] => b.roots
  | o :: _ => o.children

theorem value_foldlM (tokens : List Token) (b : Builder) : (tokens.foldlM add b).value = b.grow tokens := by
  induction tokens generalizing b with
  | nil => rfl
  | cons token rest ih => rw [List.foldlM_cons, Logged.value_bind, ih]; rfl

theorem grow_append (b : Builder) (one two : List Token) : b.grow (one ++ two) = (b.grow one).grow two :=
  List.foldl_append

theorem onSiblings_congr {b : Builder} {f g : List Markup → List Markup} (same : f b.siblings = g b.siblings) :
    b.onSiblings f = b.onSiblings g := by
  obtain ⟨roots, openElements⟩ := b
  cases openElements with
  | nil => exact congrArg (Builder.mk · []) same
  | cons o outer => exact congrArg (fun children => Builder.mk roots ({ o with children } :: outer)) same

theorem onSiblings_onSiblings (b : Builder) (f g : List Markup → List Markup) :
    (b.onSiblings f).onSiblings g = b.onSiblings (g ∘ f) := by
  obtain ⟨roots, _ | ⟨o, outer⟩⟩ := b <;> rfl

theorem siblings_onSiblings (b : Builder) (f : List Markup → List Markup) :
    (b.onSiblings f).siblings = f b.siblings := by
  obtain ⟨roots, _ | ⟨o, outer⟩⟩ := b <;> rfl

theorem firstOfEach_of_nodup {attributes : List (String × List Char)} (distinct : (attributes.map Prod.fst).Nodup) :
    firstOfEach attributes = attributes := by
  induction attributes with
  | nil => rfl
  | cons a rest ih =>
      obtain ⟨name, value⟩ := a
      obtain ⟨new, distinct⟩ := List.nodup_cons.mp distinct
      rw [firstOfEach, ih distinct]
      refine congrArg _ (List.filter_eq_self.mpr fun other member => decide_eq_true fun same => new ?_)
      exact List.mem_map.mpr ⟨other, member, same⟩

theorem grow_text {b : Builder} (apart : ∀ cs, b.siblings.head? ≠ some (.text cs)) (cs : List Char) :
    b.grow [.text cs] = b.onSiblings (.text cs :: ·) := by
  refine onSiblings_congr ?_
  unfold pushText
  split
  next found => exact absurd (congrArg List.head? found) (apart _)
  next => rfl

theorem value_popMany_one (notice : String → Option Report) (b : Builder) :
    (b.popMany notice 1).value = b.pop := by
  rw [popMany]
  split <;> rfl

theorem value_add_closing {b : Builder} (innermost : b.openElements.head?.map Open.tag = some tag) :
    (b.add (.closing tag)).value = b.pop := by
  obtain ⟨roots, _ | ⟨o, outer⟩⟩ := b
  · cases innermost
  · cases innermost
    simp only [add, closeTag, List.findIdx?_cons, beq_self_eq_true, if_true, Nat.zero_add, value_popMany_one]

theorem grow_element {attributes : List (String × List Char)} {inner : List Token} {children : List Markup}
    (distinct : (attributes.map Prod.fst).Nodup) (unclosed : isVoid tag = false)
    (fills : ∀ b : Builder, b.siblings = [] → b.grow inner = b.onSiblings (children.reverse ++ ·)) (b : Builder) :
    b.grow (.opening tag attributes false :: (inner ++ [.closing tag])) =
      b.onSiblings (.element tag attributes children :: ·) := by
  let opened : Builder := { b with openElements := ⟨tag, attributes, []⟩ :: b.openElements }
  have opens : (b.add (.opening tag attributes false)).value = opened := by
    simp only [add, openTag, unclosed, Bool.or_false, Bool.false_eq_true, if_false, firstOfEach_of_nodup distinct,
      opened]
  change grow (b.add _).value _ = _
  rw [opens, grow_append, fills opened rfl]
  change ((opened.onSiblings (children.reverse ++ ·)).add (.closing tag)).value = _
  rw [value_add_closing rfl]
  simp only [pop, onSiblings, addElement, opened, List.append_nil, List.reverse_reverse]

theorem grow_void {attributes : List (String × List Char)} (distinct : (attributes.map Prod.fst).Nodup)
    (closed : isVoid tag = true) (b : Builder) :
    b.grow [.opening tag attributes false] = b.onSiblings (.element tag attributes [] :: ·) := by
  change (b.add _).value = _
  simp only [add, openTag, closed, Bool.or_true, if_true, firstOfEach_of_nodup distinct, addElement,
    List.reverse_nil]

end Markup.Builder

namespace Subtree

open Markup Markup.Builder

mutual

/-- The forest that a subtree's markup stands for. -/
def forest : Subtree → List Markup
  | text _ s => [.text s.toList]
  | missing _ => []
  | element _ e children =>
      [.element e.tag (e.written.map fun a => (a.1, a.2.toList)) (forestOfAll children)]

def forestOfAll : List Subtree → List Markup
  | [] => []
  | t :: rest => forest t ++ forestOfAll rest

end

mutual

def Undeclared : Subtree → Prop
  | text .. | missing _ => True
  | element _ e children => e.Undeclared ∧ UndeclaredAll children

def UndeclaredAll : List Subtree → Prop
  | [] => True
  | t :: rest => Undeclared t ∧ UndeclaredAll rest

end

mutual

/-- The tokens of a subtree grow into its forest. A text must not come after another one. -/
theorem grow_tokens : ∀ {t : Subtree} (b : Builder), Writable t → Undeclared t →
    (t.isText = true → ∀ cs, b.siblings.head? ≠ some (.text cs)) →
      b.grow t.tokens = b.onSiblings (t.forest.reverse ++ ·)
  | text _ s, b, _, _, apart => by
      rw [tokens, forest]
      exact grow_text (apart rfl) s.toList
  | missing _, _, writable, _, _ => by
      rw [Writable] at writable
      exact writable.elim
  | element _ e children, b, writable, undeclared, _ => by
      rw [Writable] at writable
      rw [Undeclared] at undeclared
      obtain ⟨-, childless, writable⟩ := writable
      have distinct : ((e.written.map fun a => (a.1, a.2.toList)).map Prod.fst).Nodup := by
        rw [List.map_map]
        exact undeclared.1.distinct
      rw [tokens, forest]
      split
      next void =>
        cases childless void
        exact grow_void distinct void b
      next other =>
        refine grow_element distinct (Bool.eq_false_iff.mpr other) (fun filled empty => ?_) b
        exact grow_tokensOfAll filled writable undeclared.2 fun _ cs => by
          rw [empty]
          exact nofun

theorem grow_tokensOfAll : ∀ {ts : List Subtree} (b : Builder), WritableAll ts → UndeclaredAll ts →
    (ts.head?.any isText = true → ∀ cs, b.siblings.head? ≠ some (.text cs)) →
      b.grow (tokensOfAll ts) = b.onSiblings ((forestOfAll ts).reverse ++ ·)
  | [], b, _, _, _ => by
      obtain ⟨roots, _ | ⟨o, outer⟩⟩ := b <;> rfl
  | t :: ts, b, writable, undeclared, apart => by
      rw [WritableAll] at writable
      rw [UndeclaredAll] at undeclared
      obtain ⟨first, separate, writable⟩ := writable
      rw [tokensOfAll, forestOfAll, grow_append, grow_tokens b first undeclared.1 apart,
        grow_tokensOfAll _ writable undeclared.2, onSiblings_onSiblings]
      · refine onSiblings_congr ?_
        simp only [Function.comp_apply, List.reverse_append, List.append_assoc]
      · intro texts cs
        rw [siblings_onSiblings]
        cases t with
        | text =>
            rw [separate rfl] at texts
            cases texts
        | missing =>
            rw [Writable] at first
            exact first.elim
        | element =>
            rw [forest]
            exact nofun

end

/-- Written markup parses into the forest that was written. -/
theorem parse_htmlOfAll {ts : List Subtree} (writable : WritableAll ts) (undeclared : UndeclaredAll ts) :
    (Markup.parse (htmlOfAll ts)).value = forestOfAll ts := by
  have scanned := @scan_htmlOfAll ts [] writable (.inl rfl)
  rw [List.append_nil, Token.scan_nil, List.append_nil] at scanned
  rw [Markup.parse, scanned, ofTokens, Logged.value_bind, value_foldlM,
    grow_tokensOfAll _ writable undeclared fun _ _ same => by cases same]
  change ((forestOfAll ts).reverse ++ []).reverse = _
  rw [List.append_nil, List.reverse_reverse]

end Subtree

namespace Template

/-- The resolution takes no value, and comes to an end with its answer. -/
def Resolves (resolve : Resolve α) (a : α) : Prop := ∀ pool, ((resolve.run pool).run).value = .ok (a, pool)

theorem Resolves.pure (a : α) : Resolves (pure a) a := fun _ => rfl

theorem Resolves.bind {resolve : Resolve α} {next : α → Resolve β} (one : Resolves resolve a)
    (two : Resolves (next a) b) : Resolves (resolve >>= next) b := fun pool => by
  rw [StateT.run_bind, ExceptT.run_bind, Logged.value_bind, one pool]
  exact two pool

theorem Resolves.report (r : Report) : Resolves (report r) () := fun _ => rfl

theorem segments_of_plain {cs : List Char} (plain : Markup.siteOpen ∉ cs) :
    Markup.segments cs = Markup.literalUnlessEmpty cs := by
  have none_left : cs.dropWhile (· ≠ Markup.siteOpen) = [] :=
    List.dropWhile_eq_nil_iff.mpr fun c member => decide_eq_true fun same => plain (same ▸ member)
  rw [Markup.segments]
  split
  next => rfl
  next found =>
    rw [none_left] at found
    cases found

theorem resolves_attributeValue (name value : String) (plain : Markup.siteOpen ∉ value.toList) :
    Resolves (attributeValue name value.toList) (.text value) := by
  have joined : Resolves (joinedText name (Markup.literalUnlessEmpty value.toList)) value := by
    cases written : value.toList with
    | nil =>
        rw [String.toList_eq_nil_iff.mp written]
        exact .pure ""
    | cons c cs =>
        have back : String.ofList (c :: cs) ++ "" = value := by
          rw [String.append_empty, ← written, String.ofList_toList]
        rw [← back]
        exact Resolves.bind (.pure (String.ofList (c :: cs))) (.bind (.pure "") (.pure _))
  rw [attributeValue, segments_of_plain plain]
  split
  next found =>
    cases written : value.toList <;> rw [written] at found <;> cases found
  next => exact joined.bind ((Resolves.report _).bind (.pure _))

theorem resolves_attributes (written : List (String × String)) (distinct : (written.map Prod.fst).Nodup)
    (plain : ∀ a ∈ written, Markup.siteOpen ∉ a.2.toList) :
    Resolves (attributes (written.map fun a => (a.1, a.2.toList)))
      (Dict.ofList (written.map fun a => (a.1, AttrValue.text a.2))) := by
  induction written with
  | nil => exact .pure _
  | cons a rest ih =>
      obtain ⟨new, distinct⟩ := List.nodup_cons.mp distinct
      obtain ⟨first, plain⟩ := List.forall_mem_cons.mp plain
      have alone : ∀ v, (a.1, v) ∉ rest.map fun a => (a.1, AttrValue.text a.2) := fun v member => by
        obtain ⟨other, held, same⟩ := List.mem_map.mp member
        exact new (List.mem_map.mpr ⟨other, held, (Prod.mk.inj same).1⟩)
      rw [List.map_cons, List.map_cons, Dict.ofList_cons alone]
      exact (resolves_attributeValue a.1 a.2 first).bind ((ih distinct plain).bind (.pure _))

end Template

def Element.loaded (e : Element) : Attributes := Dict.ofList (e.written.map fun a => (a.1, .text a.2))

namespace Subtree

open Template

mutual

def trees : Subtree → List Tree
  | text _ s => [.text (.text s)]
  | missing _ => []
  | element _ e children => [.element e.tag e.loaded (treesOfAll children)]

def treesOfAll : List Subtree → List Tree
  | [] => []
  | t :: rest => trees t ++ treesOfAll rest

end

theorem resolves_text {s : String} (dark : Text.allBlank s.toList = false) (plain : Markup.siteOpen ∉ s.toList) :
    Resolves (Template.children (.text s.toList)) [.text (.text s)] := by
  obtain ⟨c, cs, written⟩ : ∃ c cs, s.toList = c :: cs := List.exists_cons_of_ne_nil fun nothing => by
    rw [nothing] at dark
    cases dark
  have back : String.ofList (c :: cs) = s := by rw [← written, String.ofList_toList]
  have kept : Resolves (segmentChildren (.literal (c :: cs))) [.text (.text s)] := by
    rw [segmentChildren, isIndentation, ← written, dark, Bool.false_and, if_neg Bool.false_ne_true, written, back]
    exact .pure _
  rw [Template.children, dark, if_neg Bool.false_ne_true, segments_of_plain plain, written]
  exact kept.bind ((Resolves.pure []).bind (.pure _))

mutual

/-- A written forest resolves into its trees, and then what comes after it. -/
theorem resolves_forest : ∀ {t : Subtree} {rest : List Markup} {us : List Tree}, Writable t → Undeclared t →
    Resolves (childrenOfAll rest) us → Resolves (childrenOfAll (t.forest ++ rest)) (t.trees ++ us)
  | text _ s, rest, us, writable, _, others => by
      rw [Writable] at writable
      rw [forest, trees]
      exact (resolves_text writable.1 writable.2).bind (others.bind (.pure _))
  | missing _, _, _, writable, _, _ => by
      rw [Writable] at writable
      exact writable.elim
  | element _ e children, rest, us, writable, undeclared, others => by
      rw [Writable] at writable
      rw [Undeclared] at undeclared
      have inner := resolves_forestOfAll writable.2.2 undeclared.2
      have attributes := resolves_attributes e.written undeclared.1.distinct writable.1.values
      have whole : Resolves (Template.children (.element e.tag (e.written.map fun a => (a.1, a.2.toList))
          (forestOfAll children))) [.element e.tag e.loaded (treesOfAll children)] := by
        rw [Template.children]
        exact attributes.bind (inner.bind (.pure _))
      rw [forest, trees]
      exact whole.bind (others.bind (.pure _))

theorem resolves_forestOfAll : ∀ {ts : List Subtree}, WritableAll ts → UndeclaredAll ts →
    Resolves (childrenOfAll (forestOfAll ts)) (treesOfAll ts)
  | [], _, _ => .pure []
  | t :: ts, writable, undeclared => by
      rw [WritableAll] at writable
      rw [UndeclaredAll] at undeclared
      exact resolves_forest writable.1 undeclared.1 (resolves_forestOfAll writable.2.2 undeclared.2)

end

/-- A template of written markup alone resolves into what was written. -/
theorem parse_template {ts : List Subtree} (writable : WritableAll ts) (undeclared : UndeclaredAll ts) :
    (Template.parse [String.ofList (htmlOfAll ts)] []).value = .ok (root (treesOfAll ts)) := by
  have one : ¬ [String.ofList (htmlOfAll ts)].length ≠ ([] : List Value).length + 1 := fun other => other rfl
  have resolved := resolves_forestOfAll writable undeclared []
  rw [Template.parse, Logged.value_bind, if_neg one, Logged.value_bind, Logged.value_bind, interleave,
    String.toList_ofList, parse_htmlOfAll writable undeclared]
  change Except.map _ ((childrenOfAll (forestOfAll ts)).run []).run.value = _
  rw [resolved]
  rfl

end Subtree
end Patchwork
