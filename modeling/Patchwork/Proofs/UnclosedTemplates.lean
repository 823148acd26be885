import Patchwork.Proofs.TemplateMarkup

/-! Elements that are still open at the end are closed there. In a well-formed template each closing tag ends the
innermost open element, which is what happens to it at the end anyway; so the last closing tags may be left out,
and closing tags of other elements may be added. -/
namespace Patchwork

namespace Template

open Markup Markup.Builder Markup.Token

namespace Symbols

theorem numbered_append (index : Nat) (one two : Symbols) :
    numbered index (one ++ two) = numbered index one ++ numbered (index + one.count none) two := by
  fun_induction numbered index one with
  | case1 => rfl
  | case2 index c rest ih => simp [numbered, ih]
  | case3 index rest ih => simp [numbered, ih, Nat.add_assoc, Nat.add_comm 1]

theorem numbered_map (index : Nat) (cs : List Char) : numbered index (cs.map some) = cs := by
  simpa [numbered] using numbered_map_append index cs []

end Symbols

/-- An opening tag with sites in it, in any spelling that is read as one. What its attributes are written with
depends on the number of its first site. -/
structure OpeningTag where
  spelled : Symbols
  tag : String
  attributes : Nat → List (String × List Char)
  selfClosing : Bool
  scans : ∀ index rest, scan (Symbols.numbered index spelled ++ rest) =
    .opening tag (attributes index) selfClosing :: scan rest

namespace OpeningTag

def opening (o : OpeningTag) (index : Nat) : Opening where
  spelled := Symbols.numbered index o.spelled
  tag := o.tag
  attributes := o.attributes index
  selfClosing := o.selfClosing
  scans := o.scans index

def isWhole (o : OpeningTag) : Bool := o.selfClosing || isVoid o.tag

def sites (o : OpeningTag) : Nat := o.spelled.count none

end OpeningTag

/-- What a template is written with: literal texts, sites in text, and tags. -/
inductive Piece
  | text (literal : Literal)
  | site
  | opening (o : OpeningTag)
  | closing (tag : String) (c : Closing tag)

namespace Piece

def symbols : Piece → Symbols
  | text literal => literal.spelled.map some
  | site => [none]
  | opening o => o.spelled
  | closing _ c => c.spelled.map some

def isText : Piece → Bool
  | text _ => true
  | _ => false

def Apart (one two : Piece) : Prop := one.isText = true → two.isText = false

instance : DecidableRel Apart := fun one two => inferInstanceAs (Decidable (one.isText = true → two.isText = false))

def written (ps : List Piece) : Symbols := ps.flatMap symbols

def parts (ps : List Piece) : List String := (Symbols.parts (written ps)).map String.ofList

def closings (cs : List (Sigma Closing)) : List Piece := cs.map fun c => closing c.1 c.2

/-- The names of the elements that are open after some pieces, innermost first, if each closing tag is that of the
innermost element that is open there. -/
def openAfter : List String → List Piece → Option (List String)
  | opened, [] => some opened
  | opened, text _ :: rest | opened, site :: rest => openAfter opened rest
  | opened, opening o :: rest => openAfter (if o.isWhole then opened else o.tag :: opened) rest
  | [], closing _ _ :: _ => none
  | innermost :: outer, closing tag _ :: rest => if innermost = tag then openAfter outer rest else none

/-- A forest that is written out: every element has its closing tag, unless it ends with its opening tag, and a
text is one piece. -/
structure WellFormed (ps : List Piece) : Prop where
  balanced : openAfter [] ps = some []
  apart : ps.IsChain Apart

end Piece

end Template

namespace Markup.Builder

open Template Token

variable {b : Builder}

def openTags (b : Builder) : List String := b.openElements.map Open.tag

@[simp] theorem openTags_onSiblings (b : Builder) (f : List Markup → List Markup) :
    (b.onSiblings f).openTags = b.openTags := by
  obtain ⟨roots, _ | ⟨o, outer⟩⟩ := b <;> rfl

@[simp] theorem openTags_addText (b : Builder) (cs : List Char) : (b.addText cs).openTags = b.openTags :=
  openTags_onSiblings ..

@[simp] theorem openTags_pop (b : Builder) : b.pop.openTags = b.openTags.tail := by
  obtain ⟨roots, _ | ⟨o, outer⟩⟩ := b
  · rfl
  · exact openTags_onSiblings ..

theorem openTags_opening (b : Builder) (tag : String) (attributes : List (String × List Char)) (selfClosing : Bool) :
    (b.add (.opening tag attributes selfClosing)).value.openTags =
      if selfClosing || isVoid tag then b.openTags else tag :: b.openTags := by
  simp only [add, openTag]
  split
  · exact openTags_onSiblings ..
  · rfl

theorem value_closing {innermost : String} {outer : List String} (opened : b.openTags = innermost :: outer) :
    (b.add (.closing innermost)).value = b.pop := by
  apply value_add_closing
  rw [← List.head?_map, ← openTags, opened, List.head?_cons]

/-- A closing tag of no open element is left out. -/
theorem value_stray {tag : String} (astray : tag ∉ b.openTags) : (b.add (.closing tag)).value = b := by
  have unopened : b.openElements.findIdx? (·.tag == tag) = none := by
    rw [List.findIdx?_eq_none_iff]
    intro o member
    refine beq_false_of_ne ?_
    rintro rfl
    exact astray (List.mem_map_of_mem member)
  simp only [add, closeTag, unopened]

theorem value_popMany (notice : String → Option Report) (n : Nat) (b : Builder) :
    (b.popMany notice n).value = pop^[n] b := by
  induction n generalizing b with
  | zero => rfl
  | succ n ih =>
      rw [popMany, Function.iterate_succ_apply, ← ih]
      split <;> rfl

/-- It makes no difference whether an element is ended now or at the end. -/
theorem finish_pop (b : Builder) : b.pop.finish.value = b.finish.value := by
  have finished (b : Builder) : b.finish.value = (pop^[b.openElements.length] b).roots.reverse :=
    congrArg (·.roots.reverse) (value_popMany ..)
  rw [finished, finished]
  obtain ⟨roots, _ | ⟨o, outer⟩⟩ := b
  · rfl
  · have left : (pop ⟨roots, o :: outer⟩).openElements.length = outer.length := by
      simpa [openTags] using congrArg List.length (openTags_pop ⟨roots, o :: outer⟩)
    rw [left, List.length_cons, Function.iterate_succ_apply]

/-- What pieces make of a forest under construction. -/
def build (index : Nat) (b : Builder) : List Piece → Builder
  | [] => b
  | .text literal :: rest => build index (b.addText (Entity.decode literal.spelled)) rest
  | .site :: rest => build (index + 1) (b.addText (siteToken index)) rest
  | .opening o :: rest =>
      build (index + o.sites) (b.add (.opening o.tag (o.attributes index) o.selfClosing)).value rest
  | .closing tag _ :: rest => build index (b.add (.closing tag)).value rest

/-- The open elements are those whose closing tag has not come yet. -/
theorem openTags_build {ps : List Piece} {opened : List String} (index : Nat) (b : Builder)
    (balanced : Piece.openAfter b.openTags ps = some opened) : (build index b ps).openTags = opened := by
  induction ps generalizing index b with
  | nil => exact Option.some.inj balanced
  | cons p rest ih =>
      cases p with
      | text literal => exact ih index _ (by simpa [Piece.openAfter] using balanced)
      | site => exact ih _ _ (by simpa [Piece.openAfter] using balanced)
      | opening o =>
          refine ih _ _ ?_
          rw [openTags_opening]
          simpa [Piece.openAfter, OpeningTag.isWhole] using balanced
      | closing tag c =>
          refine ih _ _ ?_
          cases names : b.openTags with
          | nil => simp [Piece.openAfter, names] at balanced
          | cons innermost outer =>
              simp only [Piece.openAfter, names, Option.ite_none_right_eq_some] at balanced
              obtain ⟨rfl, balanced⟩ := balanced
              rwa [value_closing names, openTags_pop, names]

/-- Closing tags that end one element each may as well be left out at the end. -/
theorem finish_closings {cs : List (Sigma Closing)} {opened : List String} (index : Nat) (b : Builder)
    (balanced : Piece.openAfter b.openTags (Piece.closings cs) = some opened) :
    (build index b (Piece.closings cs)).finish.value = b.finish.value := by
  induction cs generalizing b with
  | nil => rfl
  | cons c rest ih =>
      cases names : b.openTags with
      | nil => simp [Piece.closings, Piece.openAfter, names] at balanced
      | cons innermost outer =>
          simp only [Piece.closings, List.map_cons, Piece.openAfter, names, Option.ite_none_right_eq_some] at balanced
          obtain ⟨same, balanced⟩ := balanced
          have ended := value_closing (same ▸ names)
          change (build index (b.add (.closing c.1)).value (Piece.closings rest)).finish.value = _
          rw [ended, ih, finish_pop]
          rwa [openTags_pop, names]

/-- Closing tags of no open element change nothing. -/
theorem build_strays {cs : List (Sigma Closing)} (index : Nat) (astray : ∀ c ∈ cs, c.1 ∉ b.openTags) :
    build index b (Piece.closings cs) = b := by
  induction cs with
  | nil => rfl
  | cons c rest ih =>
      obtain ⟨first, astray⟩ := List.forall_mem_cons.mp astray
      change build index (b.add (.closing c.1)).value (Piece.closings rest) = b
      rw [value_stray first, ih astray]

end Markup.Builder

namespace Template

open Markup Markup.Builder Markup.Token

namespace Piece

theorem openAfter_append (opened : List String) (one two : List Piece) :
    openAfter opened (one ++ two) = (openAfter opened one).bind (openAfter · two) := by
  fun_induction openAfter opened one with
  | case1 => rfl
  | case2 opened literal rest ih => exact ih
  | case3 opened rest ih => exact ih
  | case4 opened o rest ih => exact ih
  | case5 => rfl
  | case6 outer tag c rest ih => simpa [openAfter] using ih
  | case7 innermost outer tag c rest differs => simp [openAfter, differs]

theorem head?_numbered {ps : List Piece} (first : ∀ p ∈ ps.head?, p.isText = false) (index : Nat) {rest : List Char}
    (ended : AfterText rest) :
    ∀ d ∈ (Symbols.numbered index (written ps) ++ rest).head?, d = siteOpen ∨ d = '<' := by
  cases ps with
  | nil => exact AfterText.head ended
  | cons p ps =>
      rw [written, List.flatMap_cons, Symbols.numbered_append, List.append_assoc]
      cases p with
      | text literal => simp [isText] at first
      | site => simp [symbols, Symbols.numbered, siteToken]
      | opening o => exact AfterText.head (.inr ((o.opening index).interrupts _))
      | closing tag c =>
          rw [symbols, Symbols.numbered_map]
          exact AfterText.head (.inr (c.interrupts _))

/-- Pieces are read one after another. -/
theorem grow_written {ps : List Piece} (apart : ps.IsChain Apart) (index : Nat) (b : Builder) {rest : List Char}
    (ended : AfterText rest) :
    b.grow (scan (Symbols.numbered index (written ps) ++ rest)) = (build index b ps).grow (scan rest) := by
  induction ps generalizing index b with
  | nil => rfl
  | cons p ps ih =>
      have later := apart.tail
      rw [written, List.flatMap_cons, ← written]
      cases p with
      | text literal =>
          have first : ∀ p ∈ ps.head?, p.isText = false := fun p head => apart.rel_head? head rfl
          rw [symbols, Symbols.numbered_map_append, List.append_assoc,
            Contents.grow_literal b literal (head?_numbered first index ended), ih later]
          rfl
      | site =>
          rw [symbols, List.singleton_append, Symbols.numbered, List.append_assoc, Contents.grow_siteToken, ih later]
          rfl
      | opening o =>
          rw [symbols, Symbols.numbered_append, List.append_assoc, o.scans]
          exact ih later _ _
      | closing tag c =>
          rw [symbols, Symbols.numbered_map_append, List.append_assoc, c.scans]
          exact ih later _ _

theorem count_written_closings (cs : List (Sigma Closing)) : (written (closings cs)).count none = 0 := by
  induction cs with
  | nil => rfl
  | cons c rest ih => simpa [written, closings, symbols] using ih

theorem written_append (one two : List Piece) : written (one ++ two) = written one ++ written two :=
  List.flatMap_append

theorem afterText_closings (index : Nat) (cs : List (Sigma Closing)) :
    AfterText (Symbols.numbered index (written (closings cs))) := by
  cases cs with
  | nil => exact .inl rfl
  | cons c rest =>
      refine .inr ?_
      rw [closings, List.map_cons, written, List.flatMap_cons, symbols, Symbols.numbered_map_append]
      exact c.2.interrupts _

theorem chain_closings (cs : List (Sigma Closing)) : (closings cs).IsChain Apart := by
  induction cs with
  | nil => exact .nil
  | cons c rest ih => exact ih.cons fun _ _ => nofun

/-- The forest of some pieces that end with closing tags. -/
theorem parse_closings {front : List Piece} (apart : front.IsChain Apart) (cs : List (Sigma Closing)) :
    (Markup.parse (Symbols.numbered 0 (written (front ++ closings cs)))).value =
      (build (0 + (written front).count none) (build 0 .empty front) (closings cs)).finish.value := by
  have closed := @grow_written _ (chain_closings cs) (0 + (written front).count none) (build 0 .empty front) []
    (.inl rfl)
  rw [List.append_nil, scan_nil] at closed
  rw [Markup.parse, ofTokens, Logged.value_bind, value_foldlM, written_append, Symbols.numbered_append,
    grow_written apart 0 .empty (afterText_closings _ cs), closed]
  rfl

end Piece

/-- What a template resolves to depends on its forest and on the number of its sites. -/
theorem value_parse_congr {s s' : Symbols} (sites : s'.count none = s.count none)
    (same : (Markup.parse (Symbols.numbered 0 s')).value = (Markup.parse (Symbols.numbered 0 s)).value)
    (values : List Value) : (parse ((Symbols.parts s').map String.ofList) values).value =
      (parse ((Symbols.parts s).map String.ofList) values).value := by
  rw [parse, parse, Logged.value_bind, Logged.value_bind, List.length_map, List.length_map, Symbols.length_parts,
    Symbols.length_parts, sites]
  by_cases arity : s.count none + 1 = values.length + 1
  · rw [if_neg (not_not.mpr arity), if_neg (not_not.mpr arity), Symbols.interleave_parts, Symbols.interleave_parts,
      Logged.value_bind, Logged.value_bind, same]
    rfl
  · rw [if_pos arity, if_pos arity]

namespace Piece

/-- The last closing tags of a well-formed template, however many of them, may be left out, and any closing tags may
be put there that are of none of the elements that are then open: the forest is the same, and whatever the values
are, the template resolves to the same. -/
theorem WellFormed.parse_unclosed {front : List Piece} {last : List (Sigma Closing)}
    (whole : WellFormed (front ++ closings last)) {strays : List (Sigma Closing)}
    (astray : ∀ opened ∈ openAfter [] front, ∀ c ∈ strays, c.1 ∉ opened) :
    (Markup.parse (Symbols.numbered 0 (written (front ++ closings strays)))).value =
        (Markup.parse (Symbols.numbered 0 (written (front ++ closings last)))).value ∧
      ∀ values, (parse (parts (front ++ closings strays)) values).value =
        (parse (parts (front ++ closings last)) values).value := by
  obtain ⟨balanced, apart⟩ := whole
  rw [openAfter_append] at balanced
  obtain ⟨opened, before, after⟩ := Option.bind_eq_some_iff.mp balanced
  have names : (build 0 .empty front).openTags = opened := openTags_build 0 .empty before
  have left (index : Nat) : (build index (build 0 .empty front) (closings last)).finish.value =
      (build 0 .empty front).finish.value := finish_closings index _ (names ▸ after)
  have added (index : Nat) : build index (build 0 .empty front) (closings strays) = build 0 .empty front :=
    build_strays index (names ▸ astray opened before)
  have same : (Markup.parse (Symbols.numbered 0 (written (front ++ closings strays)))).value =
      (Markup.parse (Symbols.numbered 0 (written (front ++ closings last)))).value := by
    rw [parse_closings apart.left_of_append, parse_closings apart.left_of_append, left, added]
  refine ⟨same, value_parse_congr ?_ same⟩
  simp only [written_append, List.count_append, count_written_closings]

end Piece

namespace OpeningTag

variable {index : Nat}

def quoted (value : Symbols) : Symbols :=
  value.flatMap fun
    | some c => (Entity.escapeChar .attribute c).map some
    | none => [none]

def assignment (a : String × Symbols) : Symbols :=
  some ' ' :: (a.1.toList.map some ++
    if a.2.isEmpty then [] else some '=' :: some '"' :: (quoted a.2 ++ [some '"']))

def numberedAttributes (index : Nat) : List (String × Symbols) → List (String × String)
  | [] => []
  | (name, value) :: rest =>
      (name, String.ofList (Symbols.numbered index value)) :: numberedAttributes (index + value.count none) rest

theorem escape_siteToken (place : Entity.Place) (n : Nat) : Entity.escape place (siteToken n) = siteToken n := by
  have plain : ∀ c ∈ siteToken n, Entity.escapeChar place c = [c] := by
    intro c member
    have other (d : Char) := Contents.ne_of_mem_siteToken (d := d) member
    simp [Entity.escapeChar, other '&' (by decide) (by decide) rfl, other '<' (by decide) (by decide) rfl,
      other '>' (by decide) (by decide) rfl, other '"' (by decide) (by decide) rfl]
  rw [Entity.escape, List.flatMap_congr plain, List.flatMap_singleton']

theorem numbered_quoted (index : Nat) (value : Symbols) :
    Symbols.numbered index (quoted value) = Entity.escape .attribute (Symbols.numbered index value) := by
  fun_induction Symbols.numbered index value with
  | case1 => rfl
  | case2 index c rest ih =>
      rw [quoted, List.flatMap_cons, ← quoted, Symbols.numbered_map_append, ih]
      rfl
  | case3 index rest ih =>
      rw [quoted, List.flatMap_cons, ← quoted, List.singleton_append, Symbols.numbered, ih, Entity.escape,
        Entity.escape, List.flatMap_append, ← Entity.escape, ← Entity.escape, escape_siteToken]

theorem count_quoted (value : Symbols) : (quoted value).count none = value.count none := by
  induction value with
  | nil => rfl
  | cons symbol rest ih =>
      rw [quoted, List.flatMap_cons, ← quoted, List.count_append, ih]
      cases symbol <;> simp [Nat.add_comm]

theorem isEmpty_numbered (index : Nat) (value : Symbols) :
    (String.ofList (Symbols.numbered index value)).isEmpty = value.isEmpty := by
  cases value with
  | nil => rfl
  | cons symbol rest => cases symbol <;> simp [Symbols.numbered, siteToken]

theorem numbered_assignment (index : Nat) (a : String × Symbols) (rest : Symbols) :
    Symbols.numbered index (assignment a ++ rest) =
      Subtree.attributeHtml a.1 (String.ofList (Symbols.numbered index a.2)) ++
        Symbols.numbered (index + a.2.count none) rest := by
  obtain ⟨name, value⟩ := a
  rw [attributeHtml_append, isEmpty_numbered, assignment]
  simp only [List.cons_append, List.append_assoc, Symbols.numbered, Symbols.numbered_map_append]
  cases value with
  | nil => rfl
  | cons symbol value =>
      simp [Symbols.numbered, Symbols.numbered_append, numbered_quoted, count_quoted]

theorem numbered_assignments (index : Nat) (attributes : List (String × Symbols)) (rest : List Char) :
    Symbols.numbered index (attributes.flatMap assignment ++ [some '>']) ++ rest =
      (numberedAttributes index attributes).flatMap (fun a => Subtree.attributeHtml a.1 a.2) ++ '>' :: rest := by
  induction attributes generalizing index with
  | nil => rfl
  | cons a others ih =>
      rw [List.flatMap_cons, List.append_assoc, numbered_assignment, List.append_assoc, ih, numberedAttributes,
        List.flatMap_cons, List.append_assoc]

theorem names_numberedAttributes (index : Nat) (attributes : List (String × Symbols)) :
    (numberedAttributes index attributes).map Prod.fst = attributes.map Prod.fst := by
  induction attributes generalizing index with
  | nil => rfl
  | cons a others ih => rw [numberedAttributes, List.map_cons, ih, List.map_cons]

/-- The opening tag as elements are written with, with sites in the values of its attributes. -/
def of (tag : String) (attributes : List (String × Symbols)) (nameable : Nameable tag)
    (letter : tag.toList.head?.any Char.isAlpha = true) (names : ∀ name ∈ attributes.map Prod.fst, Nameable name) :
    OpeningTag where
  spelled := some '<' :: (tag.toList.map some ++ (attributes.flatMap assignment ++ [some '>']))
  tag := tag
  attributes index := (numberedAttributes index attributes).map fun a => (a.1, a.2.toList)
  selfClosing := false
  scans index rest := by
    have nameables : ∀ a ∈ numberedAttributes index attributes, Nameable a.1 := by
      intro a member
      apply names
      rw [← names_numberedAttributes index]
      exact List.mem_map_of_mem member
    rw [Symbols.numbered, Symbols.numbered_map_append, List.cons_append, List.append_assoc, numbered_assignments]
    exact scan_opening nameable letter _ nameables rest

end OpeningTag

namespace Piece

/-- A list with a class that comes from a site, in a list of its own kind, with a line break in its entry. Its last
two closing tags are left out, and one of a paragraph is there for them. -/
theorem parse_unclosed_lists :
    (parse ["<ul class=\"a ", "\"><li><ul><li>one ", "<br></li></ul></p>"] [.primitive (.text "b"), .null]).value =
      (parse ["<ul class=\"a ", "\"><li><ul><li>one ", "<br></li></ul></li></ul>"]
        [.primitive (.text "b"), .null]).value := by
  let outer := OpeningTag.of "ul" [("class", [some 'a', some ' ', none])] (by decide) (by decide) (by decide)
  let ul := OpeningTag.of "ul" [] (by decide) (by decide) (by decide)
  let li := OpeningTag.of "li" [] (by decide) (by decide) (by decide)
  let br := OpeningTag.of "br" [] (by decide) (by decide) (by decide)
  let one := Literal.ofPlain "one ".toList (by decide) (by decide)
  let ended (tag : String) (nameable : Nameable tag) (letter : tag.toList.head?.any Char.isAlpha = true) :
      Sigma Closing :=
    ⟨tag, .of tag nameable letter⟩
  let li' := ended "li" (by decide) (by decide)
  let ul' := ended "ul" (by decide) (by decide)
  let p' := ended "p" (by decide) (by decide)
  let front := [opening outer, opening li, opening ul, opening li, text one, site, opening br] ++ closings [li', ul']
  have whole : WellFormed (front ++ closings [li', ul']) := by
    constructor
    · decide +kernel
    · decide +kernel
  have astray : ∀ opened ∈ openAfter [] front, ∀ c ∈ [p'], c.1 ∉ opened := by decide +kernel
  have written : parts (front ++ closings [li', ul']) =
      ["<ul class=\"a ", "\"><li><ul><li>one ", "<br></li></ul></li></ul>"] := by decide +kernel
  have written' : parts (front ++ closings [p']) =
      ["<ul class=\"a ", "\"><li><ul><li>one ", "<br></li></ul></p>"] := by decide +kernel
  rw [← written, ← written']
  exact (whole.parse_unclosed astray).2 _

end Piece

end Template
end Patchwork
