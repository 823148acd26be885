import Patchwork.Proofs.TemplateMarkup

/-! Indentation does not matter: a template with blank text and line breaks put between its elements and sites
resolves as it does without. The blanks are left out again, as texts of their own where only tags are around
them, and as literals between the sites of one text. -/
namespace Patchwork.Template

open Markup

namespace Contents

/-- The second template is the first with indentation put in: blank texts with a line break, between elements and
sites, and at the start and the end of what an element or the template is composed of. Since no two texts are
adjacent, there is no other text next to them. -/
inductive Indented : {b b' : Bool} → Contents b → Contents b' → Prop
  | nothing : Indented nothing nothing
  | indentation {b : Bool} {c : Contents b} {c' : Contents false} (gap : Literal)
      (blank : isIndentation gap.spelled = true) (rest : Indented c c') : Indented c (text gap c')
  | text {c c' : Contents false} (literal : Literal) (rest : Indented c c') :
      Indented (text literal c) (text literal c')
  | site {b b' : Bool} {c : Contents b} {c' : Contents b'} (rest : Indented c c') : Indented (site c) (site c')
  | whole {b b' : Bool} {c : Contents b} {c' : Contents b'} (opening : Opening)
      (ends : opening.isWhole = true) (rest : Indented c c') :
      Indented (whole opening ends c) (whole opening ends c')
  | element {a a' b b' : Bool} {i : Contents a} {i' : Contents a'} {c : Contents b} {c' : Contents b'}
      (opening : Opening) (continues : opening.isWhole = false) (closing : Closing opening.tag)
      (inner : Indented i i') (rest : Indented c c') :
      Indented (element opening continues i closing c) (element opening continues i' closing c')

theorem Indented.sites {b b' : Bool} {c : Contents b} {c' : Contents b'} (indented : Indented c c') :
    c'.sites = c.sites := by
  induction indented with
  | nothing => rfl
  | indentation gap blank rest ih => simp [ih]
  | text literal rest ih => simp [ih]
  | site rest ih => simp [ih]
  | whole opening ends rest ih => simp [ih]
  | element opening continues closing inner rest ih ih' => simp [ih, ih']

end Contents

/-- The children that two resolutions come to, one after the other. -/
def both (one two : Resolve (List Tree)) : Resolve (List Tree) := do
  let first ← one
  let others ← two
  return first ++ others

theorem pure_both (r : Resolve (List Tree)) : both (pure []) r = r := by
  simp [both]

theorem both_assoc (r s t : Resolve (List Tree)) : both (both r s) t = both r (both s t) := by
  simp only [both, bind_assoc, pure_bind, List.append_assoc]

theorem textChildren_cons (segment : Segment) (rest : List Segment) :
    textChildren (segment :: rest) = both (segmentChildren segment) (textChildren rest) := rfl

theorem textChildren_append (one two : List Segment) :
    textChildren (one ++ two) = both (textChildren one) (textChildren two) := by
  induction one with
  | nil => exact (pure_both _).symm
  | cons segment rest ih => rw [List.cons_append, textChildren_cons, textChildren_cons, ih, both_assoc]

theorem childrenOfAll_cons (node : Markup) (rest : List Markup) :
    childrenOfAll (node :: rest) = both (children node) (childrenOfAll rest) := by
  rw [childrenOfAll]
  rfl

/-- The children that a forest stands for behind other text, where blank text is text as well. -/
def follow : List Markup → Resolve (List Tree)
  | .text cs :: rest => both (textChildren (segments cs)) (childrenOfAll rest)
  | nodes => childrenOfAll nodes

def unsited (cs : List Char) : Resolve (List Tree) :=
  if Text.allBlank cs then pure [] else textChildren (segments cs)

theorem childrenOfAll_text (cs : List Char) (rest : List Markup) :
    childrenOfAll (.text cs :: rest) = both (unsited cs) (childrenOfAll rest) := by
  rw [childrenOfAll_cons, children]
  rfl

theorem textChildren_site {n : Nat} (fits : n < 1 <<< 64) (cs after : List Char) :
    textChildren (segments (cs ++ (siteToken n ++ after))) = both (textChildren (segments cs))
      (both (segmentChildren (.site n (Text.decimal n))) (textChildren (segments after))) := by
  rw [segments_append_token fits, textChildren_append, textChildren_cons]

theorem both_no_text (r : Resolve (List Tree)) : both (textChildren (segments [])) r = r := by
  rw [segments_nil]
  exact pure_both r

theorem unsited_site (cs after : List Char) (n : Nat) :
    unsited (cs ++ (siteToken n ++ after)) = textChildren (segments (cs ++ (siteToken n ++ after))) := by
  have dark : Text.isBlank siteOpen = false := by decide
  simp [unsited, Text.allBlank, siteToken, dark]

namespace Contents

variable {b : Bool}

def startsWithSite : Contents b → Bool
  | site _ => true
  | _ => false

/-- What is put in front of a forest is text in front of its first text, if it starts with one. -/
theorem exists_first_text (nodes : List Markup) : ∃ after rest,
    (∀ cs, pushFront cs nodes = .text (cs ++ after) :: rest) ∧
      follow nodes = both (textChildren (segments after)) (childrenOfAll rest) := by
  cases nodes with
  | nil => exact ⟨[], [], fun cs => by rw [List.append_nil]; rfl, (both_no_text _).symm⟩
  | cons node rest =>
      cases node with
      | text after => exact ⟨after, rest, fun _ => rfl, rfl⟩
      | element => exact ⟨[], _, fun cs => by rw [List.append_nil]; rfl, (both_no_text _).symm⟩

/-- A site stands for its value, and what comes after it is not at the start of its text. -/
theorem children_site (rest : Contents b) {n : Nat} (fits : n < 1 <<< 64) :
    childrenOfAll ((site rest).forest n) =
        both (segmentChildren (.site n (Text.decimal n))) (follow (rest.forest (n + 1))) ∧
      follow ((site rest).forest n) = childrenOfAll ((site rest).forest n) := by
  obtain ⟨after, others, pushed, followed⟩ := exists_first_text (rest.forest (n + 1))
  have whole := unsited_site [] after n
  have cut := textChildren_site fits [] after
  rw [both_no_text] at cut
  rw [forest, pushed, followed, childrenOfAll_text, follow, ← both_assoc, ← cut, ← whole]
  exact ⟨rfl, rfl⟩

/-- Only what is text is read in another way behind other text. -/
theorem follow_forest (c : Contents false) {n : Nat} (fits : n + c.sites ≤ 1 <<< 64) :
    follow (c.forest n) = childrenOfAll (c.forest n) := by
  cases c with
  | nothing => rfl
  | site rest =>
      have first : n < 1 <<< 64 := by simp at fits; omega
      exact (children_site rest first).2
  | whole => rfl
  | element => rfl

/-- A text may be left out only if no site comes after it. -/
theorem children_text (literal : Literal) (rest : Contents false) {n : Nat} (fits : n + rest.sites ≤ 1 <<< 64) :
    childrenOfAll ((text literal rest).forest n) =
        both (if rest.startsWithSite then textChildren (segments (Entity.decode literal.spelled))
            else unsited (Entity.decode literal.spelled))
          (childrenOfAll (rest.forest n)) ∧
      follow ((text literal rest).forest n) =
        both (textChildren (segments (Entity.decode literal.spelled))) (childrenOfAll (rest.forest n)) := by
  cases rest with
  | nothing => exact ⟨childrenOfAll_text _ _, rfl⟩
  | site rest =>
      have fits : n < 1 <<< 64 := by simp at fits; omega
      obtain ⟨after, others, pushed, followed⟩ := exists_first_text (rest.forest (n + 1))
      have cut := textChildren_site fits (Entity.decode literal.spelled) after
      have joined : (text literal (site rest)).forest n =
          .text (Entity.decode literal.spelled ++ (siteToken n ++ after)) :: others := by
        rw [forest, forest, pushed]
        rfl
      rw [joined, childrenOfAll_text, follow, unsited_site, (children_site rest fits).1, followed, cut, both_assoc,
        both_assoc]
      exact ⟨rfl, rfl⟩
  | whole => exact ⟨childrenOfAll_text _ _, rfl⟩
  | element => exact ⟨childrenOfAll_text _ _, rfl⟩

/-- Indentation is left out. -/
theorem children_indentation {gap : Literal} (blank : isIndentation gap.spelled = true) :
    textChildren (segments (Entity.decode gap.spelled)) = pure [] ∧
      unsited (Entity.decode gap.spelled) = pure [] := by
  have allBlank : Text.allBlank gap.spelled = true := ((Bool.and_eq_true _ _).mp blank).1
  have other : ∀ c, Text.isBlank c = false → c ∉ gap.spelled := by
    intro c dark member
    rw [List.all_eq_true.mp allBlank c member] at dark
    contradiction
  have decoded : Entity.decode gap.spelled = gap.spelled := by
    simpa [Entity.decode_nil] using Entity.decode_append_of_plain (other '&' (by decide)) []
  have cut := segments_of_plain (other siteOpen (by decide))
  obtain ⟨c, cs, spelled⟩ := List.exists_cons_of_ne_nil gap.some
  rw [decoded, cut]
  constructor
  · have left : segmentChildren (.literal gap.spelled) = pure [] := by simp [segmentChildren, blank]
    rw [spelled] at left ⊢
    change both (segmentChildren _) (pure []) = pure []
    rw [left]
    exact pure_both _
  · exact if_pos allBlank

theorem Indented.startsWithSite {c c' : Contents false} (indented : Indented c c') :
    c'.startsWithSite = c.startsWithSite := by
  cases indented <;> rfl

/-- Indentation changes no children, whether the template is at the start of its text or not. -/
theorem Indented.children {b b' : Bool} {c : Contents b} {c' : Contents b'} (indented : Indented c c') (n : Nat)
    (fits : n + c.sites ≤ 1 <<< 64) :
    childrenOfAll (c'.forest n) = childrenOfAll (c.forest n) ∧ follow (c'.forest n) = follow (c.forest n) := by
  induction indented generalizing n with
  | nothing => exact ⟨rfl, rfl⟩
  | @indentation _ c c' gap blank rest ih =>
      obtain ⟨same, followed⟩ := ih n fits
      have fits' : n + c'.sites ≤ 1 <<< 64 := by rwa [rest.sites]
      obtain ⟨resolved, behind⟩ := children_text gap c' fits'
      obtain ⟨omitted, unsited⟩ := children_indentation blank
      rw [omitted, unsited, ite_self, pure_both, same] at resolved
      rw [omitted, pure_both, ← follow_forest c' fits', followed] at behind
      exact ⟨resolved, behind⟩
  | @text c c' literal rest ih =>
      simp only [sites_text] at fits
      obtain ⟨same, -⟩ := ih n fits
      obtain ⟨resolved, behind⟩ := children_text literal c fits
      obtain ⟨resolved', behind'⟩ := children_text literal c' (by rwa [rest.sites])
      constructor
      · rw [resolved, resolved', same, rest.startsWithSite]
      · rw [behind, behind', same]
  | @site _ _ c c' rest ih =>
      simp only [sites_site] at fits
      have first : n < 1 <<< 64 := by omega
      obtain ⟨-, followed⟩ := ih (n + 1) (by omega)
      obtain ⟨resolved, behind⟩ := children_site c first
      obtain ⟨resolved', behind'⟩ := children_site c' first
      have same := resolved'.trans ((congrArg (both _) followed).trans resolved.symm)
      exact ⟨same, behind'.trans (same.trans behind.symm)⟩
  | whole opening ends rest ih =>
      simp only [sites_whole] at fits
      obtain ⟨same, -⟩ := ih n fits
      constructor
      · simp only [forest, childrenOfAll_cons, same]
      · simp only [forest, follow, childrenOfAll_cons, same]
  | @element _ _ _ _ i i' c c' opening continues closing inner rest fills ih =>
      simp only [sites_element] at fits
      obtain ⟨filled, -⟩ := fills n (by omega)
      obtain ⟨same, -⟩ := ih (n + i.sites) (by omega)
      constructor
      · simp only [forest, childrenOfAll_cons, Template.children, inner.sites, filled, same]
      · simp only [forest, follow, childrenOfAll_cons, Template.children, inner.sites, filled, same]

/-- What a template resolves to: its values are as many as its sites, or it is an error. -/
theorem value_parse (c : Contents b) (values : List Value) : (parse c.parts values).value =
    if c.sites = values.length then
      ((childrenOfAll (c.forest 0)).run (values.map some)).run.value.map fun (nodes, _) => root nodes
    else .error (.templateArity c.sites values.length) := by
  have count : c.parts.length = c.sites + 1 := by
    rw [parts, List.length_map, Symbols.length_parts, sites]
  rw [parse, Logged.value_bind, count]
  by_cases arity : c.sites = values.length
  · rw [if_pos arity, if_neg (by omega), Logged.value_bind, parts, Symbols.interleave_parts, parse_numbered]
    rfl
  · rw [if_neg arity, if_pos (by omega)]
    rfl

end Contents

open Contents

variable {b b' : Bool} {c : Contents b} {c' : Contents b'}

/-- A template resolves as it does without its indentation, to the same tree or the same error. Site numbers are 64
bits wide, and there are never more values than they can number. -/
theorem parse_indented (indented : Indented c c') (values : List Value) (fits : values.length ≤ 1 <<< 64) :
    (parse c'.parts values).value = (parse c.parts values).value := by
  rw [value_parse, value_parse, indented.sites]
  by_cases arity : c.sites = values.length
  · have numbered : 0 + c.sites ≤ 1 <<< 64 := by omega
    rw [(indented.children 0 numbered).1]
  · rw [if_neg arity, if_neg arity]

theorem parse_indented_list :
    (parse ["\n<ul class=\"big\">\n  ", "\n  ", "\n  <li>Tom &amp; ", "</li>\n  <hr>\n</ul>\n"]
        [.null, .list [.primitive (.bool true)], .primitive (.text "Jerry")]).value =
      (parse ["<ul class=\"big\">", "", "<li>Tom &amp; ", "</li><hr></ul>"]
        [.null, .list [.primitive (.bool true)], .primitive (.text "Jerry")]).value := by
  let ul := Opening.of "ul" [("class", "big")] (by decide) (by decide) (by decide)
  let li := Opening.of "li" [] (by decide) (by decide) (by decide)
  let hr := Opening.of "hr" [] (by decide) (by decide) (by decide)
  let tom := Literal.ofPlain "Tom &amp; ".toList (by decide) (by decide)
  let outer := Literal.ofPlain "\n".toList (by decide) (by decide)
  let inner := Literal.ofPlain "\n  ".toList (by decide) (by decide)
  have entry : Indented (text tom (site nothing)) (text tom (site nothing)) := .text tom (.site .nothing)
  have last : Indented (whole hr rfl nothing) (text inner (whole hr rfl (text outer nothing))) :=
    .indentation inner rfl (.whole hr rfl (.indentation outer rfl .nothing))
  have listed := Indented.element li rfl (.of "li" (by decide) (by decide)) entry last
  have items := Indented.indentation inner rfl (.site (.indentation inner rfl (.site (.indentation inner rfl listed))))
  have list := Indented.element ul rfl (.of "ul" (by decide) (by decide)) items (.indentation outer rfl .nothing)
  obtain ⟨c, c', indented, written, written'⟩ : ∃ (c : Contents false) (c' : Contents true),
      Indented c c' ∧
      c.parts = ["<ul class=\"big\">", "", "<li>Tom &amp; ", "</li><hr></ul>"] ∧
      c'.parts = ["\n<ul class=\"big\">\n  ", "\n  ", "\n  <li>Tom &amp; ", "</li>\n  <hr>\n</ul>\n"] :=
    ⟨_, _, .indentation outer rfl list, by decide +kernel, by decide +kernel⟩
  rw [← written, ← written']
  exact parse_indented indented _ (by decide)

end Patchwork.Template
