import Patchwork.Proofs.TextPieces
import Patchwork.Proofs.MarkupNormalForm

/-! Templates that are composed of elements, literal texts and sites, and the forest that the markup of such a
template is read as. -/
namespace Patchwork

namespace Markup

def startsMarkup (cs : List Char) : Bool :=
  Token.startsComment cs || Token.startsClosing cs || Token.startsOpening cs

theorem startsMarkup_of_ne {c : Char} (other : c ≠ '<') (rest : List Char) : startsMarkup (c :: rest) = false := by
  obtain ⟨comment, closing, opening⟩ := @Token.starts_of_ne rest c other
  simp [startsMarkup, comment, closing, opening]

/-- Characters that are read as text: no tag and no comment starts among them. -/
structure Literal where
  spelled : List Char
  some : spelled ≠ []
  quiet : ∀ cs, cs <:+ spelled → startsMarkup cs = false

def Literal.ofPlain (spelled : List Char) (some : spelled ≠ []) (plain : '<' ∉ spelled) : Literal where
  spelled := spelled
  some := some
  quiet cs suffix := by
    cases cs with
    | nil => rfl
    | cons c cs =>
        apply startsMarkup_of_ne
        rintro rfl
        exact plain (suffix.subset (List.mem_cons_self ..))

/-- An opening tag, in any spelling that is read as one. -/
structure Opening where
  spelled : List Char
  tag : String
  attributes : List (String × List Char)
  selfClosing : Bool
  scans : ∀ rest, Token.scan (spelled ++ rest) = .opening tag attributes selfClosing :: Token.scan rest

def Opening.of (tag : String) (attributes : List (String × String)) (nameable : Nameable tag)
    (letter : tag.toList.head?.any Char.isAlpha = true) (names : ∀ a ∈ attributes, Nameable a.1) : Opening where
  spelled := '<' :: (tag.toList ++ (attributes.flatMap (fun a => Subtree.attributeHtml a.1 a.2) ++ ['>']))
  tag := tag
  attributes := attributes.map fun a => (a.1, a.2.toList)
  selfClosing := false
  scans rest := by simpa using Token.scan_opening nameable letter attributes names rest

def Opening.isWhole (opening : Opening) : Bool := opening.selfClosing || isVoid opening.tag

structure Closing (tag : String) where
  spelled : List Char
  scans : ∀ rest, Token.scan (spelled ++ rest) = .closing tag :: Token.scan rest

def Closing.of (tag : String) (nameable : Nameable tag) (letter : tag.toList.head?.any Char.isAlpha = true) :
    Closing tag where
  spelled := '<' :: '/' :: (tag.toList ++ ['>'])
  scans rest := by simpa using Token.scan_closing nameable letter rest

end Markup

namespace Template

open Markup

/-- What a template or an element of it is composed of, in order. The flag tells whether a text comes first. No
two texts are adjacent, since a text is only put in front of what starts with none. -/
inductive Contents : Bool → Type
  | nothing : Contents false
  | text (literal : Literal) (rest : Contents false) : Contents true
  | site {b : Bool} (rest : Contents b) : Contents false
  | whole {b : Bool} (opening : Opening) (ends : opening.isWhole = true) (rest : Contents b) : Contents false
  | element {b inside : Bool} (opening : Opening) (continues : opening.isWhole = false)
      (inner : Contents inside) (closing : Closing opening.tag) (rest : Contents b) : Contents false

/-- Templates symbol by symbol: characters, and sites between them. -/
abbrev Symbols := List (Option Char)

namespace Symbols

def parts : Symbols → List (List Char)
  | [] => [[]]
  | some c :: rest => cons c (parts rest)
  | none :: rest => [] :: parts rest

/-- The markup with a token for each site, numbered from here on. -/
def numbered (index : Nat) : Symbols → List Char
  | [] => []
  | some c :: rest => c :: numbered index rest
  | none :: rest => siteToken index ++ numbered (index + 1) rest

theorem exists_parts (symbols : Symbols) : ∃ part others, parts symbols = part :: others := by
  fun_cases parts symbols with
  | case1 => exact ⟨_, _, rfl⟩
  | case2 c rest => cases parts rest <;> exact ⟨_, _, rfl⟩
  | case3 => exact ⟨_, _, rfl⟩

theorem length_parts (symbols : Symbols) : (parts symbols).length = symbols.count none + 1 := by
  fun_induction parts symbols with
  | case1 => rfl
  | case2 c rest ih =>
      obtain ⟨part, others, parts⟩ := exists_parts rest
      rw [parts] at ih ⊢
      simpa [cons] using ih
  | case3 rest ih => simp [ih]

theorem interleave_parts (index : Nat) (symbols : Symbols) :
    interleave index ((parts symbols).map String.ofList) = numbered index symbols := by
  fun_induction numbered index symbols with
  | case1 => rfl
  | case2 index c rest ih =>
      obtain ⟨part, others, parts⟩ := exists_parts rest
      rw [parts] at ih
      rw [Symbols.parts, parts, cons, ← ih]
      cases others <;> simp [interleave]
  | case3 index rest ih =>
      obtain ⟨part, others, parts⟩ := exists_parts rest
      rw [parts] at ih
      rw [Symbols.parts, parts, ← ih]
      simp [interleave]

theorem numbered_map_append (index : Nat) (cs : List Char) (rest : Symbols) :
    numbered index (cs.map some ++ rest) = cs ++ numbered index rest := by
  induction cs with
  | nil => rfl
  | cons c cs ih => exact congrArg (c :: ·) ih

end Symbols

namespace Contents

def symbols : Contents b → Symbols
  | nothing => []
  | text literal rest => literal.spelled.map some ++ rest.symbols
  | site rest => none :: rest.symbols
  | whole opening _ rest => opening.spelled.map some ++ rest.symbols
  | element opening _ inner closing rest =>
      opening.spelled.map some ++ (inner.symbols ++ (closing.spelled.map some ++ rest.symbols))

def sites (c : Contents b) : Nat := c.symbols.count none

def parts (c : Contents b) : List String := (Symbols.parts c.symbols).map String.ofList

/-- Puts text in front of a forest, into its first text if it starts with one. -/
def pushFront (cs : List Char) : List Markup → List Markup
  | .text after :: rest => .text (cs ++ after) :: rest
  | nodes => .text cs :: nodes

/-- The forest that a template is read as, with its sites numbered from here on. -/
def forest (index : Nat) : Contents b → List Markup
  | nothing => []
  | text literal rest => pushFront (Entity.decode literal.spelled) (rest.forest index)
  | site rest => pushFront (siteToken index) (rest.forest (index + 1))
  | whole opening _ rest =>
      .element opening.tag (Builder.firstOfEach opening.attributes) [] :: rest.forest index
  | element opening _ inner _ rest =>
      .element opening.tag (Builder.firstOfEach opening.attributes) (inner.forest index) ::
        rest.forest (index + inner.sites)

end Contents
end Template

namespace Markup

namespace Token

variable {cs rest : List Char}

inductive Mark : List Char → Prop
  | comment : Mark ['<', '!', '-', '-']
  | closing {c : Char} (letter : c.isAlpha = true) : Mark ['<', '/', c]
  | opening {c : Char} (letter : c.isAlpha = true) : Mark ['<', c]

theorem startsMarkup_iff : startsMarkup cs = true ↔ ∃ mark, Mark mark ∧ mark <+: cs := by
  simp only [startsMarkup, Bool.or_eq_true]
  constructor
  · rintro ((comment | closing) | opening)
    · unfold startsComment at comment
      split at comment
      next rest => exact ⟨_, .comment, rest, rfl⟩
      next => cases comment
    · unfold startsClosing at closing
      split at closing
      next c rest => exact ⟨_, .closing closing, rest, rfl⟩
      next => cases closing
    · unfold startsOpening at opening
      split at opening
      next c rest => exact ⟨_, .opening opening, rest, rfl⟩
      next => cases opening
  · rintro ⟨mark, marks, rest, rfl⟩
    cases marks with
    | comment => exact .inl (.inl rfl)
    | closing letter => exact .inl (.inr letter)
    | opening letter => exact .inr letter

/-- The character goes on with nothing that a bracket starts. -/
def Foreign (c : Char) : Prop := c.isAlpha = false ∧ c ≠ '!' ∧ c ≠ '/' ∧ c ≠ '-'

theorem Mark.not_foreign {mark : List Char} {c : Char} (marks : Mark mark) (member : c ∈ mark.tail) :
    ¬ Foreign c := by
  rintro ⟨letter, bang, slash, hyphen⟩
  cases marks with
  | comment => simp_all
  | closing => simp_all
  | opening => simp_all

/-- A tag or a comment that starts in a text is not only started by what comes after it. -/
theorem startsMarkup_of_append (some : cs ≠ []) (stops : ∀ c ∈ rest.head?, Foreign c)
    (starts : startsMarkup (cs ++ rest) = true) : startsMarkup cs = true := by
  obtain ⟨mark, marks, tail, whole⟩ := startsMarkup_iff.mp starts
  refine startsMarkup_iff.mpr ⟨mark, marks, ?_⟩
  obtain ⟨after, rfl, -⟩ | ⟨between, split, back⟩ := List.append_eq_append_iff.mp whole
  · exact ⟨after, rfl⟩
  · cases between with
    | nil => exact ⟨[], by simpa using split⟩
    | cons c between =>
        -- The mark would go on behind the text.
        obtain ⟨first, cs, rfl⟩ := List.exists_cons_of_ne_nil some
        have beyond : c ∈ mark.tail := by simp [split]
        exact absurd (stops c (by simp [back])) (marks.not_foreign beyond)

theorem interruptsText_of_startsMarkup (starts : startsMarkup cs = true) : interruptsText cs = true := by
  obtain ⟨mark, marks, rest, rfl⟩ := startsMarkup_iff.mp starts
  cases marks with
  | comment => rfl
  | closing => simp [interruptsText]
  | opening letter => simp [interruptsText, letter]

theorem scan_of_quiet {c : Char} (quiet : startsMarkup (c :: rest) = false) :
    scan (c :: rest) = .text (Entity.decode (c :: textOf rest)) :: scan (afterText rest) := by
  simp only [startsMarkup, Bool.or_eq_false_iff] at quiet
  rw [scan, quiet.1.1, quiet.1.2, quiet.2]
  rfl

/-- A text token ends within the text, or it ends where it would end behind the text. -/
theorem textOf_append_cases (cs rest : List Char) :
    (∃ before after, cs = before ++ '<' :: after ∧ textOf (cs ++ rest) = before ∧
        afterText (cs ++ rest) = '<' :: after ++ rest) ∨
      textOf (cs ++ rest) = cs ++ textOf rest ∧ afterText (cs ++ rest) = afterText rest := by
  induction cs with
  | nil => exact .inr ⟨rfl, rfl⟩
  | cons c cs ih =>
      by_cases interrupts : interruptsText (c :: (cs ++ rest)) = true
      · by_cases bracket : c = '<'
        · subst bracket
          exact .inl ⟨[], cs, rfl, if_pos interrupts, if_pos interrupts⟩
        · rw [interruptsText_of_ne bracket] at interrupts
          cases interrupts
      · rw [List.cons_append, textOf, afterText, if_neg interrupts, if_neg interrupts]
        obtain ⟨before, after, rfl, read, left⟩ | ⟨read, left⟩ := ih
        · exact .inl ⟨c :: before, after, rfl, congrArg (c :: ·) read, left⟩
        · exact .inr ⟨congrArg (c :: ·) read, left⟩

end Token

namespace Builder

open Token

theorem pushText_pushText (one two : List Char) (siblings : List Markup) :
    pushText two (pushText one siblings) = pushText (one ++ two) siblings := by
  cases siblings with
  | nil => rfl
  | cons node rest => cases node <;> simp [pushText]

theorem addText_addText (b : Builder) (one two : List Char) :
    (b.addText one).addText two = b.addText (one ++ two) := by
  rw [addText, addText, onSiblings_onSiblings]
  exact onSiblings_congr (pushText_pushText one two b.siblings)

/-- Text in front of other text is read by itself, if no reference reaches from one into the other. The induction
is on the tokens that the text in front is read as. -/
theorem grow_scan_text (b : Builder) {cs rest : List Char} (some : cs ≠ [])
    (quiet : ∀ s, s <:+ cs → s ≠ [] → startsMarkup (s ++ rest) = false)
    (splits : ∀ x, x <+: rest → Entity.decode (cs ++ x) = Entity.decode cs ++ Entity.decode x) :
    b.grow (scan (cs ++ rest)) = (b.addText (Entity.decode cs)).grow (scan rest) := by
  induction shorter : cs.length using Nat.strong_induction_on generalizing b cs with
  | h n ih =>
    obtain ⟨c, cs, rfl⟩ := List.exists_cons_of_ne_nil some
    have whole := quiet (c :: cs) List.suffix_rfl some
    rw [List.cons_append] at whole ⊢
    rw [scan_of_quiet whole]
    change (b.addText _).grow _ = _
    obtain ⟨before, after, rfl, read, left⟩ | ⟨read, left⟩ := textOf_append_cases cs rest
    · -- The text goes on in a token of its own.
      have decoded (x : List Char) : Entity.decode (c :: (before ++ '<' :: after) ++ x) =
          Entity.decode (c :: before) ++ Entity.decode ('<' :: after ++ x) := by
        have cut := Entity.outside_bracket.decode (c :: before) (after ++ x)
        rw [← Entity.decode_cons (c := '<') (by decide)] at cut
        simpa using cut
      have cut := decoded []
      rw [List.append_nil, List.append_nil] at cut
      have suffix : '<' :: after <:+ c :: (before ++ '<' :: after) := ⟨c :: before, by simp⟩
      rw [read, left, ih ('<' :: after).length (by simp at shorter ⊢; omega) _ (by simp)
        (fun s within => quiet s (within.trans suffix)) ?_ rfl, addText_addText, cut]
      intro x starts
      have both := splits x starts
      rw [decoded, cut, List.append_assoc] at both
      exact List.append_cancel_left both
    · rw [read, left]
      by_cases ended : AfterText rest
      · obtain ⟨read, left⟩ := textOf_append (List.not_mem_nil (a := '<')) ended
        rw [List.nil_append] at read left
        rw [read, left, List.append_nil]
      · obtain ⟨some, goes⟩ := not_or.mp ended
        obtain ⟨d, rest, rfl⟩ := List.exists_cons_of_ne_nil some
        have silent : startsMarkup (d :: rest) = false :=
          Bool.eq_false_iff.mpr fun starts => goes (interruptsText_of_startsMarkup starts)
        rw [scan_of_quiet silent, textOf, afterText, if_neg goes, if_neg goes]
        change _ = ((b.addText _).addText _).grow _
        have first : d :: textOf rest <+: d :: rest := ⟨afterText rest, by simp [textOf_append_afterText]⟩
        rw [addText_addText, ← splits _ first, List.cons_append]

/-- Puts the nodes of a forest behind siblings that are listed newest first. -/
def lay (siblings : List Markup) : List Markup → List Markup
  | [] => siblings
  | .text cs :: rest => lay (pushText cs siblings) rest
  | node :: rest => lay (node :: siblings) rest

theorem lay_of_chain {node : Markup} {nodes : List Markup} (chain : (node :: nodes).IsChain Apart)
    (siblings : List Markup) : lay (node :: siblings) nodes = nodes.reverse ++ node :: siblings := by
  induction nodes generalizing node siblings with
  | nil => rfl
  | cons next rest ih =>
      obtain ⟨apart, chain⟩ := List.isChain_cons_cons.mp chain
      have further := ih chain (node :: siblings)
      rw [List.reverse_cons, List.append_assoc]
      cases next with
      | element => exact further
      | text cs =>
          cases node with
          | element => exact further
          | text => cases apart rfl

theorem lay_nil {nodes : List Markup} (chain : nodes.IsChain Apart) : lay [] nodes = nodes.reverse := by
  cases nodes with
  | nil => rfl
  | cons node rest =>
      rw [List.reverse_cons, ← lay_of_chain chain []]
      cases node <;> rfl

def opened (b : Builder) (tag : String) (attributes : List (String × List Char)) : Builder :=
  { b with openElements := ⟨tag, attributes, []⟩ :: b.openElements }

theorem grow_opening {opening : Opening} (continues : opening.isWhole = false) (b : Builder) (tokens : List Token) :
    b.grow (.opening opening.tag opening.attributes opening.selfClosing :: tokens) =
      (b.opened opening.tag (firstOfEach opening.attributes)).grow tokens := by
  change (b.add _).value.grow _ = _
  rw [Opening.isWhole] at continues
  simp only [add, openTag, continues, Bool.false_eq_true, if_false, opened]

theorem grow_whole {opening : Opening} (ends : opening.isWhole = true) (b : Builder) (tokens : List Token) :
    b.grow (.opening opening.tag opening.attributes opening.selfClosing :: tokens) =
      (b.onSiblings (.element opening.tag (firstOfEach opening.attributes) [] :: ·)).grow tokens := by
  change (b.add _).value.grow _ = _
  rw [Opening.isWhole] at ends
  simp only [add, openTag, ends, if_true, addElement, List.reverse_nil]

theorem grow_closing (b : Builder) (tag : String) (attributes : List (String × List Char))
    (f : List Markup → List Markup) (tokens : List Token) :
    ((b.opened tag attributes).onSiblings f).grow (.closing tag :: tokens) =
      (b.onSiblings (.element tag attributes (f []).reverse :: ·)).grow tokens := by
  change Builder.grow (Builder.add _ _).value _ = _
  rw [value_add_closing rfl]
  rfl

end Builder

namespace Token

theorem interruptsText_of_scan {cs : List Char} {token : Token} {tokens : List Token}
    (read : scan cs = token :: tokens) (tag : ∀ text, token ≠ .text text) : interruptsText cs = true := by
  cases cs with
  | nil =>
      rw [scan_nil] at read
      cases read
  | cons c rest =>
      by_contra goes
      have quiet : startsMarkup (c :: rest) = false :=
        Bool.eq_false_iff.mpr fun starts => goes (interruptsText_of_startsMarkup starts)
      rw [scan_of_quiet quiet] at read
      exact tag _ (List.cons.inj read).1.symm

theorem head?_of_interruptsText {cs : List Char} (interrupts : interruptsText cs = true) : cs.head? = some '<' := by
  unfold interruptsText at interrupts
  split at interrupts
  next => rfl
  next => cases interrupts

theorem AfterText.head {cs : List Char} (ended : AfterText cs) : ∀ d ∈ cs.head?, d = siteOpen ∨ d = '<' := by
  rcases ended with rfl | interrupts
  · exact nofun
  · rw [head?_of_interruptsText interrupts]
    simp

end Token

theorem Opening.interrupts (opening : Opening) (rest : List Char) :
    Token.interruptsText (opening.spelled ++ rest) = true :=
  Token.interruptsText_of_scan (opening.scans rest) nofun

theorem Closing.interrupts (closing : Closing tag) (rest : List Char) :
    Token.interruptsText (closing.spelled ++ rest) = true :=
  Token.interruptsText_of_scan (closing.scans rest) nofun

end Markup

namespace Template.Contents

open Markup Markup.Builder Markup.Token

variable {b : Bool}

theorem lay_pushFront (siblings : List Markup) (cs : List Char) (nodes : List Markup) :
    lay siblings (pushFront cs nodes) = lay (pushText cs siblings) nodes := by
  cases nodes with
  | nil => rfl
  | cons node rest =>
      cases node with
      | element => rfl
      | text after => exact congrArg (lay · rest) (pushText_pushText cs after siblings).symm

theorem chain_pushFront {nodes : List Markup} (chain : nodes.IsChain Apart) (cs : List Char) :
    (pushFront cs nodes).IsChain Apart := by
  cases nodes with
  | nil => exact .singleton _
  | cons node rest =>
      cases node with
      | element => exact chain.cons_cons fun _ => rfl
      | text =>
          apply chain.imp_head
          intro next apart
          exact apart

theorem chain_forest (c : Contents b) (index : Nat) : (c.forest index).IsChain Apart := by
  induction c generalizing index with
  | nothing => exact .nil
  | text literal rest ih => exact chain_pushFront (ih index) _
  | site rest ih => exact chain_pushFront (ih _) _
  | whole opening _ rest ih => exact (ih index).cons fun _ _ => nofun
  | element opening _ inner closing rest _ ih => exact (ih _).cons fun _ _ => nofun

theorem head?_numbered (c : Contents false) (index : Nat) {s : Symbols}
    (ended : AfterText (Symbols.numbered (index + c.sites) s)) :
    ∀ d ∈ (Symbols.numbered index (c.symbols ++ s)).head?, d = siteOpen ∨ d = '<' := by
  cases c with
  | nothing => exact AfterText.head ended
  | site => simp [symbols, Symbols.numbered, siteToken]
  | whole opening ends rest =>
      rw [symbols, List.append_assoc, Symbols.numbered_map_append]
      exact AfterText.head (.inr (opening.interrupts _))
  | element opening continues inner closing rest =>
      rw [symbols, List.append_assoc, Symbols.numbered_map_append]
      exact AfterText.head (.inr (opening.interrupts _))

theorem decode_append_of_head {x : List Char} (heads : ∀ d ∈ x.head?, d = siteOpen ∨ d = '<') (cs : List Char) :
    Entity.decode (cs ++ x) = Entity.decode cs ++ Entity.decode x := by
  cases x with
  | nil => rw [List.append_nil, Entity.decode_nil, List.append_nil]
  | cons d x =>
      have outside : Entity.Outside d := by
        rcases heads d rfl with rfl | rfl
        · exact Entity.outside_siteOpen
        · exact Entity.outside_bracket
      rw [outside.decode, Entity.decode_cons outside.delimits.1]

theorem ne_of_mem_siteToken {n : Nat} {c d : Char} (member : c ∈ siteToken n) (unopened : d ≠ siteOpen)
    (unclosed : d ≠ siteClose) (letter : d.isDigit = false) : c ≠ d := by
  rintro rfl
  simp [siteToken, unopened, unclosed] at member
  rw [Text.isDigit_of_mem_decimal member] at letter
  cases letter

theorem of_mem_siteToken {n : Nat} {c : Char} (member : c ∈ siteToken n) : c ≠ '<' ∧ c ≠ '&' :=
  ⟨ne_of_mem_siteToken member (by decide) (by decide) rfl, ne_of_mem_siteToken member (by decide) (by decide) rfl⟩

theorem decode_siteToken (n : Nat) (rest : List Char) :
    Entity.decode (siteToken n ++ rest) = siteToken n ++ Entity.decode rest :=
  Entity.decode_append_of_plain (fun member => (of_mem_siteToken member).2 rfl) rest

/-- A literal text is read by itself, whatever else comes before the next text. -/
theorem grow_literal (builder : Builder) (literal : Literal) {rest : List Char}
    (heads : ∀ d ∈ rest.head?, d = siteOpen ∨ d = '<') :
    builder.grow (scan (literal.spelled ++ rest)) =
      (builder.addText (Entity.decode literal.spelled)).grow (scan rest) := by
  have stops : ∀ d ∈ rest.head?, Foreign d := by
    intro d first
    rcases heads d first with rfl | rfl
    · exact ⟨by decide, by decide⟩
    · exact ⟨by decide, by decide⟩
  apply grow_scan_text builder literal.some
  · intro s suffix some
    by_contra starts
    have within := startsMarkup_of_append some stops (by simpa using starts)
    simp [literal.quiet s suffix] at within
  · intro x starts
    apply decode_append_of_head
    intro d first
    apply heads
    obtain ⟨tail, rfl⟩ := starts
    simp [Option.mem_def.mp first]

theorem grow_siteToken (builder : Builder) (n : Nat) (rest : List Char) :
    builder.grow (scan (siteToken n ++ rest)) = (builder.addText (siteToken n)).grow (scan rest) := by
  have alone : Entity.decode (siteToken n) = siteToken n := by
    simpa [Entity.decode_nil] using decode_siteToken n []
  have quiet : ∀ s, s <:+ siteToken n → s ≠ [] → startsMarkup (s ++ rest) = false := by
    intro s suffix some
    obtain ⟨d, s, rfl⟩ := List.exists_cons_of_ne_nil some
    have other := (of_mem_siteToken (suffix.subset (List.mem_cons_self ..))).1
    exact startsMarkup_of_ne other (s ++ rest)
  have read := grow_scan_text builder (by simp [siteToken]) quiet fun x _ => by rw [decode_siteToken, alone]
  rwa [alone] at read

@[simp] theorem count_map_some (cs : List Char) : (cs.map some).count none = 0 := by simp [List.count_eq_zero]

@[simp] theorem sites_text (literal : Literal) (rest : Contents false) : (text literal rest).sites = rest.sites := by
  simp [sites, symbols]

@[simp] theorem sites_site (rest : Contents b) : (site rest).sites = rest.sites + 1 := by
  simp [sites, symbols]

@[simp] theorem sites_whole (opening : Opening) (ends : opening.isWhole = true) (rest : Contents b) :
    (whole opening ends rest).sites = rest.sites := by
  simp [sites, symbols]

@[simp] theorem sites_element {inside : Bool} (opening : Opening) (continues : opening.isWhole = false)
    (inner : Contents inside) (closing : Closing opening.tag) (rest : Contents b) :
    (element opening continues inner closing rest).sites = inner.sites + rest.sites := by
  simp [sites, symbols]

/-- What a template is written with is read as its forest, and then what comes after it. -/
theorem grow_forest (c : Contents b) (index : Nat) (s : Symbols) (builder : Builder)
    (ended : AfterText (Symbols.numbered (index + c.sites) s)) :
    builder.grow (scan (Symbols.numbered index (c.symbols ++ s))) =
      (builder.onSiblings (lay · (c.forest index))).grow (scan (Symbols.numbered (index + c.sites) s)) := by
  induction c generalizing index s builder with
  | nothing =>
      obtain ⟨roots, _ | ⟨o, outer⟩⟩ := builder <;> rfl
  | text literal rest ih =>
      rw [sites_text] at ended ⊢
      have heads := head?_numbered rest index ended
      rw [symbols, List.append_assoc, Symbols.numbered_map_append, grow_literal builder literal heads,
        ih index s _ ended, addText, onSiblings_onSiblings]
      simp only [forest, lay_pushFront]
      rfl
  | site rest ih =>
      rw [sites_site, Nat.add_comm rest.sites, ← Nat.add_assoc] at ended ⊢
      rw [symbols, List.cons_append, Symbols.numbered, grow_siteToken, ih _ s _ ended, addText, onSiblings_onSiblings]
      simp only [forest, lay_pushFront]
      rfl
  | whole opening ends rest ih =>
      rw [sites_whole] at ended ⊢
      rw [symbols, List.append_assoc, Symbols.numbered_map_append, opening.scans, grow_whole ends,
        ih index s _ ended, onSiblings_onSiblings]
      rfl
  | element opening continues inner closing rest fills ih =>
      rw [sites_element, ← Nat.add_assoc] at ended ⊢
      rw [symbols, List.append_assoc, Symbols.numbered_map_append, opening.scans, grow_opening continues]
      simp only [List.append_assoc]
      rw [fills index _ _ ?_, Symbols.numbered_map_append, closing.scans, grow_closing, ih _ s _ ended,
        onSiblings_onSiblings, lay_nil (chain_forest inner index), List.reverse_reverse]
      · rfl
      · rw [Symbols.numbered_map_append]
        exact .inr (closing.interrupts _)

/-- A template is read as its forest. -/
theorem parse_numbered (c : Contents b) :
    (Markup.parse (Symbols.numbered 0 c.symbols)).value = c.forest 0 := by
  have grown := grow_forest c 0 [] .empty (.inl rfl)
  rw [List.append_nil, Symbols.numbered, scan_nil] at grown
  rw [Markup.parse, ofTokens, Logged.value_bind, value_foldlM, grown]
  change (lay [] (c.forest 0)).reverse = _
  rw [lay_nil (chain_forest c 0), List.reverse_reverse]

end Template.Contents
end Patchwork
