import Mathlib.Data.List.DropRight
import Patchwork.Document.Subtree
import Patchwork.Markup.Site
import Patchwork.Proofs.EscapeRoundTrip

/-! Written markup scans into the tokens that it was written for. A name ends where the next character
says so, a quoted value at its quote, and a text before the next tag. -/
namespace Patchwork

namespace Markup

/-- A name that markup can give to an element or attribute. -/
structure Nameable (name : String) : Prop where
  some : name ≠ ""
  plain : ∀ c ∈ name.toList, Token.endsName c = false ∧ c.isUpper = false

theorem nameable_iff : Nameable name ↔
    name ≠ "" ∧ (name.toList.all fun c => Token.endsName c = false ∧ c.isUpper = false) = true := by
  simp only [List.all_eq_true, decide_eq_true_eq]
  exact ⟨fun nameable => ⟨nameable.some, nameable.plain⟩, fun named => ⟨named.1, named.2⟩⟩

instance (name : String) : Decidable (Nameable name) := decidable_of_iff' _ nameable_iff

theorem Nameable.exists_cons (nameable : Nameable name) : ∃ c letters, name.toList = c :: letters ∧
    Token.endsName c = false := by
  have some : name.toList ≠ [] := fun nothing => nameable.some (String.toList_eq_nil_iff.mp nothing)
  obtain ⟨c, letters, same⟩ := List.exists_cons_of_ne_nil some
  exact ⟨c, letters, same, (nameable.plain c (same ▸ List.mem_cons_self ..)).1⟩

theorem toLower_of_not_isUpper {c : Char} (lower : c.isUpper = false) : c.toLower = c := by
  have other : ¬ (c.val ≥ 65 ∧ c.val ≤ 90) := of_decide_eq_false lower
  exact dif_neg other

namespace Token

open Subtree (attributeHtml)

variable {name value : String} {cs rest : List Char} {c : Char}

def AfterName (rest : List Char) : Prop := ∃ c after, rest = c :: after ∧ endsName c = true

theorem nameOf_append (nameable : Nameable name) (ended : AfterName rest) :
    nameOf (name.toList ++ rest) = name ∧ afterName (name.toList ++ rest) = rest := by
  obtain ⟨c, after, rfl, ends⟩ := ended
  have inside : ∀ x ∈ name.toList, (!endsName x) = true := fun x member => by
    rw [(nameable.plain x member).1]
    rfl
  have lower : name.toList.map Char.toLower = name.toList := by
    rw [List.map_congr_left fun x member => toLower_of_not_isUpper (nameable.plain x member).2, List.map_id']
  have stops : ¬ (!endsName c) = true := by
    rw [ends]
    exact nofun
  constructor
  · rw [nameOf, List.takeWhile_append_of_pos inside, List.takeWhile_cons, if_neg stops, List.append_nil, lower,
      String.ofList_toList]
  · rw [afterName, List.dropWhile_append_of_pos inside, List.dropWhile_cons, if_neg stops]

theorem body_of_blank (trimmed : Text.trimStart cs = []) : body cs = ⟨[], false, []⟩ := by
  rw [body]
  split
  next => rfl
  next found =>
    rw [trimmed] at found
    cases found

theorem body_of_trimmed (trimmed : Text.trimStart cs = c :: rest) : body cs =
    if c = '>' then ⟨[], false, rest⟩
    else if c = '/' then
      if rest.head? = some '>' then ⟨[], true, rest.drop 1⟩ else body rest
    else if c = '=' then body rest
    else
      let further := body (assigned (afterName rest)).2
      { further with
        attributes := (nameOf (c :: rest), (assigned (afterName rest)).1) :: further.attributes } := by
  rw [body]
  split
  next empty =>
    rw [trimmed] at empty
    cases empty
  next found =>
    rw [trimmed] at found
    obtain ⟨rfl, rfl⟩ := List.cons.inj found
    rfl

theorem body_trimStart (cs : List Char) : body (Text.trimStart cs) = body cs := by
  have again : Text.trimStart (Text.trimStart cs) = Text.trimStart cs := List.dropWhile_idempotent _ _
  cases trimmed : Text.trimStart cs with
  | nil =>
      rw [body_of_blank trimmed]
      exact body_of_blank rfl
  | cons c rest =>
      rw [trimmed] at again
      rw [body_of_trimmed trimmed, body_of_trimmed again]

theorem trimStart_cons (dark : Text.isBlank c = false) : Text.trimStart (c :: rest) = c :: rest :=
  List.dropWhile_cons_of_neg (by rw [dark]; exact Bool.false_ne_true)

theorem body_end (rest : List Char) : body ('>' :: rest) = ⟨[], false, rest⟩ := by
  rw [body_of_trimmed (trimStart_cons (by decide)), if_pos rfl]

theorem not_of_endsName (inside : endsName c = false) :
    Text.isBlank c = false ∧ c ≠ '>' ∧ c ≠ '/' ∧ c ≠ '=' := by
  simp only [endsName, Bool.or_eq_false_iff, beq_eq_false_iff_ne, and_assoc] at inside
  exact inside

/-- Where an attribute may end: the next one, or the end of the tag, is no value of it. -/
def AfterAttribute (rest : List Char) : Prop := AfterName rest ∧ (Text.trimStart rest).head? ≠ some '='

theorem assigned_nothing (other : (Text.trimStart cs).head? ≠ some '=') : assigned cs = ([], Text.trimStart cs) := by
  rw [assigned]
  split
  next rest equal =>
    rw [equal] at other
    exact absurd rfl other
  next => rfl

theorem assigned_quoted (value : List Char) (rest : List Char) :
    assigned ('=' :: '"' :: (Entity.escape .attribute value ++ '"' :: rest)) = (value, rest) := by
  have inside : ∀ x ∈ Entity.escape .attribute value, decide (x ≠ '"') = true := fun x member =>
    decide_eq_true ((Entity.plain_of_mem_escape member).2.2 rfl)
  have read : valueAt ('"' :: (Entity.escape .attribute value ++ '"' :: rest)) =
      (Entity.escape .attribute value, rest) := by
    rw [valueAt, upTo, List.takeWhile_append_of_pos inside, List.dropWhile_append_of_pos inside]
    simp only [List.takeWhile_cons, List.dropWhile_cons, ne_eq, not_true, decide_false, Bool.false_eq_true, if_false,
      List.append_nil, List.drop_succ_cons, List.drop_zero]
  rw [assigned, trimStart_cons (by decide)]
  simp only [trimStart_cons (c := '"') (by decide), read, Entity.decode_escape]

theorem trimStart_name (nameable : Nameable name) (tail : List Char) :
    ∃ c letters, name.toList = c :: letters ∧ Text.trimStart (' ' :: (name.toList ++ tail)) = c :: (letters ++ tail) ∧
      endsName c = false := by
  obtain ⟨c, letters, same, inside⟩ := nameable.exists_cons
  have blank : Text.trimStart (' ' :: (name.toList ++ tail)) = Text.trimStart (name.toList ++ tail) :=
    List.dropWhile_cons_of_pos (by decide)
  refine ⟨c, letters, same, ?_, inside⟩
  rw [blank, same, List.cons_append, trimStart_cons (not_of_endsName inside).1]

theorem afterAttribute_end (rest : List Char) : AfterAttribute ('>' :: rest) := by
  refine ⟨⟨'>', rest, rfl, by decide⟩, ?_⟩
  rw [trimStart_cons (by decide), List.head?_cons]
  decide

theorem attributeHtml_append (name value : String) (rest : List Char) : attributeHtml name value ++ rest =
    ' ' :: (name.toList ++ if value.isEmpty then rest
      else '=' :: '"' :: (Entity.escape .attribute value.toList ++ '"' :: rest)) := by
  unfold attributeHtml
  split <;> simp only [List.cons_append, List.append_assoc, List.nil_append]

theorem afterAttribute_attribute (nameable : Nameable name) (value : String) (rest : List Char) :
    AfterAttribute (attributeHtml name value ++ rest) := by
  rw [attributeHtml_append]
  refine ⟨⟨' ', _, rfl, by decide⟩, ?_⟩
  obtain ⟨c, letters, -, trimmed, inside⟩ := trimStart_name nameable _
  rw [trimmed, List.head?_cons]
  exact fun same => (not_of_endsName inside).2.2.2 (Option.some.inj same)

theorem body_attribute (nameable : Nameable name) (value : String) (after : AfterAttribute rest) :
    body (attributeHtml name value ++ rest) =
      { body rest with attributes := (name, value.toList) :: (body rest).attributes } := by
  obtain ⟨ended, unassigned⟩ := after
  rw [attributeHtml_append]
  generalize written : (if value.isEmpty then rest else _) = tail
  have afterTail : AfterName tail ∧ (assigned tail).1 = value.toList ∧ body (assigned tail).2 = body rest := by
    subst written
    split
    next empty =>
      rw [assigned_nothing unassigned, body_trimStart, String.isEmpty_iff.mp empty]
      exact ⟨ended, rfl, rfl⟩
    next =>
      rw [assigned_quoted]
      exact ⟨⟨'=', _, rfl, by decide⟩, rfl, rfl⟩
  obtain ⟨ended, assigned, further⟩ := afterTail
  obtain ⟨c, letters, same, trimmed, inside⟩ := trimStart_name nameable tail
  obtain ⟨dark, notEnd, notSlash, notEquals⟩ := not_of_endsName inside
  obtain ⟨named, left⟩ := nameOf_append nameable ended
  rw [same, List.cons_append] at named left
  have skips : afterName (c :: (letters ++ tail)) = afterName (letters ++ tail) :=
    List.dropWhile_cons_of_pos (by rw [inside]; rfl)
  have left : afterName (letters ++ tail) = tail := skips.symm.trans left
  rw [body_of_trimmed trimmed, if_neg notEnd, if_neg notSlash, if_neg notEquals, left, named, assigned, further]

theorem body_attributes (written : List (String × String)) (nameable : ∀ a ∈ written, Nameable a.1)
    (rest : List Char) :
    body (written.flatMap (fun a => attributeHtml a.1 a.2) ++ '>' :: rest) =
        ⟨written.map fun a => (a.1, a.2.toList), false, rest⟩ ∧
      AfterAttribute (written.flatMap (fun a => attributeHtml a.1 a.2) ++ '>' :: rest) := by
  induction written with
  | nil => exact ⟨body_end rest, afterAttribute_end rest⟩
  | cons a written ih =>
      obtain ⟨first, nameable⟩ := List.forall_mem_cons.mp nameable
      obtain ⟨read, after⟩ := ih nameable
      rw [List.flatMap_cons, List.append_assoc]
      refine ⟨?_, afterAttribute_attribute first ..⟩
      rw [body_attribute first a.2 after, read]
      rfl

theorem interruptsText_of_ne (other : c ≠ '<') : interruptsText (c :: rest) = false := by
  unfold interruptsText
  split
  next same => exact absurd (List.cons.inj same).1 other
  next => rfl

/-- Where a text ends: at a tag, or with the markup. -/
def AfterText (rest : List Char) : Prop := rest = [] ∨ interruptsText rest = true

theorem textOf_append (plain : '<' ∉ cs) (ended : AfterText rest) :
    textOf (cs ++ rest) = cs ∧ afterText (cs ++ rest) = rest := by
  induction cs with
  | nil =>
      rcases ended with rfl | stops
      · exact ⟨rfl, rfl⟩
      · cases rest with
        | nil => exact ⟨rfl, rfl⟩
        | cons c rest => exact ⟨if_pos stops, if_pos stops⟩
  | cons c cs ih =>
      obtain ⟨read, left⟩ := ih fun member => plain (List.mem_cons_of_mem _ member)
      have goes : ¬ interruptsText (c :: (cs ++ rest)) = true := by
        rw [interruptsText_of_ne fun same => plain (same ▸ List.mem_cons_self ..)]
        exact Bool.false_ne_true
      rw [List.cons_append, textOf, afterText, if_neg goes, if_neg goes, read, left]
      exact ⟨rfl, rfl⟩

theorem scan_nil : scan [] = [] := by rw [scan]

theorem starts_of_ne (other : c ≠ '<') : startsComment (c :: rest) = false ∧
    startsClosing (c :: rest) = false ∧ startsOpening (c :: rest) = false := by
  refine ⟨?_, ?_, ?_⟩
  · unfold startsComment
    split
    next same => exact absurd (List.cons.inj same).1 other
    next => rfl
  · unfold startsClosing
    split
    next same => exact absurd (List.cons.inj same).1 other
    next => rfl
  · unfold startsOpening
    split
    next same => exact absurd (List.cons.inj same).1 other
    next => rfl

/-- An escaped text is one token. -/
theorem scan_text (some : cs ≠ []) (ended : AfterText rest) :
    scan (Entity.escape .content cs ++ rest) = .text cs :: scan rest := by
  have back := Entity.decode_escape .content cs
  have plain : '<' ∉ Entity.escape .content cs := fun member => (Entity.plain_of_mem_escape member).1 rfl
  obtain ⟨c, written, same⟩ := List.exists_cons_of_ne_nil (Entity.escape_ne_nil .content some)
  rw [same] at back plain ⊢
  obtain ⟨comment, closing, opening⟩ := @starts_of_ne (written ++ rest) c fun same =>
    plain (same ▸ List.mem_cons_self ..)
  obtain ⟨read, left⟩ := textOf_append (fun member => plain (List.mem_cons_of_mem _ member)) ended
  rw [List.cons_append, scan, comment, closing, opening, read, left, back]
  rfl

variable {tag : String}

theorem starts_of_isAlpha (letter : c.isAlpha = true) :
    startsComment ('<' :: c :: rest) = false ∧ startsClosing ('<' :: c :: rest) = false := by
  constructor
  · unfold startsComment
    split
    next same =>
      obtain ⟨rfl, -⟩ := List.cons.inj (List.cons.inj same).2
      exact absurd letter (by decide)
    next => rfl
  · unfold startsClosing
    split
    next same =>
      obtain ⟨rfl, -⟩ := List.cons.inj (List.cons.inj same).2
      exact absurd letter (by decide)
    next => rfl

theorem scan_opening (nameable : Nameable tag) (letter : tag.toList.head?.any Char.isAlpha = true)
    (written : List (String × String)) (names : ∀ a ∈ written, Nameable a.1) (rest : List Char) :
    scan ('<' :: (tag.toList ++ (written.flatMap (fun a => attributeHtml a.1 a.2) ++ '>' :: rest))) =
      .opening tag (written.map fun a => (a.1, a.2.toList)) false :: scan rest := by
  obtain ⟨read, ended, -⟩ := body_attributes written names rest
  obtain ⟨named, left⟩ := nameOf_append nameable ended
  obtain ⟨c, letters, same, -⟩ := nameable.exists_cons
  rw [same] at letter
  obtain ⟨comment, closing⟩ := starts_of_isAlpha letter
  rw [same, List.cons_append] at named left ⊢
  have opening : startsOpening ('<' :: c :: (letters ++
      (written.flatMap (fun a => attributeHtml a.1 a.2) ++ '>' :: rest))) = true := letter
  rw [scan, comment, closing, opening, left, read, named]
  rfl

theorem scan_closing (nameable : Nameable tag) (letter : tag.toList.head?.any Char.isAlpha = true)
    (rest : List Char) : scan ('<' :: '/' :: (tag.toList ++ '>' :: rest)) = .closing tag :: scan rest := by
  obtain ⟨named, left⟩ := nameOf_append nameable ⟨'>', rest, rfl, by decide⟩
  obtain ⟨c, letters, same, -⟩ := nameable.exists_cons
  rw [same] at letter
  rw [same, List.cons_append] at named left ⊢
  have closing : startsClosing ('<' :: '/' :: c :: (letters ++ '>' :: rest)) = true := letter
  have comment : startsComment ('<' :: '/' :: c :: (letters ++ '>' :: rest)) = false := rfl
  rw [scan, comment, closing]
  simp only [Bool.false_eq_true, if_false, if_true, List.drop_succ_cons, List.drop_zero, named, left, upTo,
    List.dropWhile_cons, ne_eq, not_true, decide_false]

end Token
end Markup

/-- What an element is written with: its attributes, and its style declarations as one more. -/
def Element.written (e : Element) : List (String × String) :=
  e.attributes.toList ++ if e.styles.isEmpty then [] else [("style", e.styles.text)]

/-- An element that markup can describe. -/
structure Element.Writable (e : Element) : Prop where
  letter : e.tag.toList.head?.any Char.isAlpha = true
  tag : Markup.Nameable e.tag
  names : ∀ name ∈ e.attributes.keys, Markup.Nameable name
  values : ∀ a ∈ e.written, Markup.siteOpen ∉ a.2.toList

instance (e : Element) : Decidable e.Writable :=
  decidable_of_iff (e.tag.toList.head?.any Char.isAlpha = true ∧ Markup.Nameable e.tag ∧
      (∀ name ∈ e.attributes.keys, Markup.Nameable name) ∧ ∀ a ∈ e.written, Markup.siteOpen ∉ a.2.toList)
    ⟨fun ⟨letter, tag, names, values⟩ => ⟨letter, tag, names, values⟩,
      fun writable => ⟨writable.letter, writable.tag, writable.names, writable.values⟩⟩

theorem Markup.nameable_style : Markup.Nameable "style" := by decide

theorem Element.Writable.nameable {e : Element} (writable : e.Writable) : ∀ a ∈ e.written, Markup.Nameable a.1 := by
  intro a member
  rcases List.mem_append.mp member with own | style
  · exact writable.names a.1 (List.mem_map_of_mem own)
  · split at style
    · cases style
    · rw [List.mem_singleton.mp style]
      exact Markup.nameable_style

namespace Subtree

open Markup Markup.Token

def isText : Subtree → Bool
  | text .. => true
  | _ => false

mutual

/-- Markup can describe the subtree. A text is neither blank nor next to another one, and a void element has
no children. -/
def Writable : Subtree → Prop
  | text _ s => Text.allBlank s.toList = false ∧ siteOpen ∉ s.toList
  | missing _ => False
  | element _ e children => e.Writable ∧ (isVoid e.tag = true → children = []) ∧ WritableAll children

def WritableAll : List Subtree → Prop
  | [] => True
  | t :: rest => Writable t ∧ (t.isText = true → rest.head?.any isText = false) ∧ WritableAll rest

end

mutual

def tokens : Subtree → List Token
  | text _ s => [.text s.toList]
  | missing _ => []
  | element _ e children =>
      .opening e.tag (e.written.map fun a => (a.1, a.2.toList)) false ::
        if isVoid e.tag then [] else tokensOfAll children ++ [.closing e.tag]

def tokensOfAll : List Subtree → List Token
  | [] => []
  | t :: rest => tokens t ++ tokensOfAll rest

end

theorem openingHtml_eq (e : Element) (rest : List Char) : openingHtml e ++ rest =
    '<' :: (e.tag.toList ++ (e.written.flatMap (fun a => attributeHtml a.1 a.2) ++ '>' :: rest)) := by
  rw [openingHtml, Element.written, List.flatMap_append]
  cases e.styles.isEmpty <;>
    simp only [List.cons_append, List.append_assoc, Bool.false_eq_true, if_false, if_true, List.flatMap_cons,
      List.flatMap_nil, List.append_nil, List.nil_append]

/-- Where a text ends, for all that is written: an element or the end of one follows. -/
theorem afterText_htmlOfAll {ts : List Subtree} (writable : WritableAll ts) (other : ts.head?.any isText = false)
    (ended : AfterText rest) : AfterText (htmlOfAll ts ++ rest) := by
  cases ts with
  | nil => exact ended
  | cons t ts =>
      rw [WritableAll] at writable
      cases t with
      | text => cases other
      | missing => exact writable.1.elim
      | element n e children =>
          have fit := writable.1
          rw [Writable] at fit
          obtain ⟨c, letters, same, -⟩ := fit.1.tag.exists_cons
          have letter := fit.1.letter
          rw [same] at letter
          refine .inr ?_
          rw [htmlOfAll, html, List.append_assoc, List.append_assoc, openingHtml_eq, same]
          exact Bool.or_eq_true_iff.mpr (.inl (Bool.or_eq_true_iff.mpr (.inl letter)))

mutual

/-- Markup scans into its tokens. -/
theorem scan_html : ∀ {t : Subtree} {rest : List Char}, Writable t → (t.isText = true → AfterText rest) →
    scan (html t ++ rest) = tokens t ++ scan rest
  | text n s, rest, writable, ended => by
      rw [Writable] at writable
      have some : s.toList ≠ [] := fun nothing => by
        rw [nothing] at writable
        exact Bool.noConfusion writable.1
      rw [html, tokens, scan_text some (ended rfl), List.singleton_append]
  | missing _, _, writable, _ => by
      rw [Writable] at writable
      exact writable.elim
  | element n e children, rest, writable, _ => by
      rw [Writable] at writable
      obtain ⟨fit, childless, writable⟩ := writable
      rw [html, tokens, List.append_assoc, openingHtml_eq, scan_opening fit.tag fit.letter e.written fit.nameable,
        List.cons_append]
      split
      next => rfl
      next =>
        have closed : htmlOfAll children ++ closingHtml e ++ rest =
            htmlOfAll children ++ '<' :: '/' :: (e.tag.toList ++ '>' :: rest) := by
          simp only [closingHtml, List.append_assoc, List.cons_append, List.nil_append]
        rw [closed, scan_htmlOfAll writable (.inr rfl), scan_closing fit.tag fit.letter, List.append_assoc,
          List.singleton_append]

theorem scan_htmlOfAll : ∀ {ts : List Subtree} {rest : List Char}, WritableAll ts → AfterText rest →
    scan (htmlOfAll ts ++ rest) = tokensOfAll ts ++ scan rest
  | [], _, _, _ => rfl
  | t :: ts, rest, writable, ended => by
      rw [WritableAll] at writable
      obtain ⟨first, apart, writable⟩ := writable
      rw [htmlOfAll, tokensOfAll, List.append_assoc, List.append_assoc, scan_html first fun texts =>
        afterText_htmlOfAll writable (apart texts) ended, scan_htmlOfAll writable ended]

end

end Subtree
end Patchwork
