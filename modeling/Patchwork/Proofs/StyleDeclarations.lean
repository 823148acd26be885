import Mathlib.Data.List.DropRight
import Patchwork.Proofs.DocumentLinks
import Patchwork.Proofs.TextSearch
import Patchwork.Proofs.MapLookup
import Patchwork.Style

/-! Style texts read back. What was read from a text is clean: its properties and values are trimmed and
hold no separator. A clean style is what its own text says, so reading a text once more changes
nothing. -/
namespace Patchwork

namespace Text

theorem mem_of_mem_trim {cs : List Char} (member : c ∈ trim cs) : c ∈ cs :=
  (List.dropWhile_sublist isBlank).subset
    ((List.rdropWhile_prefix isBlank (trimStart cs)).subset member)

theorem trim_trim (cs : List Char) : trim (trim cs) = trim cs := by
  have front : trimStart (trim cs) = trim cs := by
    refine List.dropWhile_eq_self_iff.mpr fun some => ?_
    -- The end is cut off behind the first character that is not blank.
    obtain ⟨rest, whole⟩ := List.rdropWhile_prefix isBlank (trimStart cs)
    have longer : 0 < (trimStart cs).length := by
      rw [← whole, List.length_append]
      exact Nat.lt_of_lt_of_le some (Nat.le_add_right ..)
    have first : (trim cs)[0] = (trimStart cs)[0] := by
      have same : (trim cs ++ rest)[0]? = (trimStart cs)[0]? := congrArg (·[0]?) whole
      rw [List.getElem?_append_left some, List.getElem?_eq_getElem some,
        List.getElem?_eq_getElem longer] at same
      exact Option.some.inj same
    rw [first]
    exact List.dropWhile_get_zero_not isBlank cs longer
  rw [trim, front]
  exact List.rdropWhile_idempotent isBlank _

theorem trim_cons_space (cs : List Char) : trim (' ' :: cs) = trim cs := by
  have skipped : trimStart (' ' :: cs) = trimStart cs := List.dropWhile_cons_of_pos (by decide)
  rw [trim, trim, skipped]

end Text

namespace Style

theorem pieces_append {separator : Char} {piece : List Char} (absent : separator ∉ piece)
    (rest : List Char) : pieces separator (piece ++ separator :: rest) = piece :: pieces separator rest := by
  induction piece with
  | nil => exact if_pos rfl
  | cons c piece ih =>
      rw [List.mem_cons, not_or] at absent
      obtain ⟨other, absent⟩ := absent
      rw [List.cons_append, pieces, if_neg (Ne.symm other), ih absent]

theorem of_mem_pieces {separator : Char} {cs : List Char} :
    ∀ piece ∈ pieces separator cs, separator ∉ piece ∧ piece ⊆ cs := by
  induction cs with
  | nil =>
      intro piece member
      rw [List.mem_singleton.mp member]
      exact ⟨List.not_mem_nil, List.Subset.refl _⟩
  | cons c rest ih =>
      intro piece member
      rw [pieces] at member
      split at member
      next =>
        rcases List.mem_cons.mp member with rfl | later
        · exact ⟨List.not_mem_nil, List.nil_subset _⟩
        · exact (ih piece later).imp_right (List.subset_cons_of_subset _)
      next other =>
        split at member
        next =>
          rw [List.mem_singleton.mp member]
          exact ⟨fun same => other (List.mem_singleton.mp same).symm, List.cons_subset_cons _
            (List.nil_subset _)⟩
        next first others found =>
          rw [found] at ih
          rcases List.mem_cons.mp member with rfl | later
          · obtain ⟨absent, within⟩ := ih first (List.mem_cons_self ..)
            refine ⟨fun either => ?_, List.cons_subset_cons _ within⟩
            exact (List.mem_cons.mp either).elim (fun same => other same.symm) absent
          · exact (ih piece (List.mem_cons_of_mem _ later)).imp_right (List.subset_cons_of_subset _)

theorem splitOnce?_append {separator : Char} {before : List Char} (absent : separator ∉ before)
    (after : List Char) : splitOnce? separator (before ++ separator :: after) = some (before, after) := by
  have differ : ∀ c ∈ before, decide (c ≠ separator) = true := fun c member =>
    decide_eq_true fun same => absent (same ▸ member)
  have stops : decide (separator ≠ separator) = false := decide_eq_false fun other => other rfl
  have dropped : (before ++ separator :: after).dropWhile (· ≠ separator) = separator :: after := by
    rw [List.dropWhile_append_of_pos differ, List.dropWhile_cons, stops]
    rfl
  have taken : (before ++ separator :: after).takeWhile (· ≠ separator) = before := by
    rw [List.takeWhile_append_of_pos differ, List.takeWhile_cons, stops]
    exact List.append_nil _
  simp only [splitOnce?, dropped, taken]

theorem of_splitOnce? {separator : Char} {cs before after : List Char}
    (found : splitOnce? separator cs = some (before, after)) :
    separator ∉ before ∧ cs = before ++ separator :: after := by
  rw [splitOnce?] at found
  split at found
  · cases found
  next c rest dropped =>
    obtain ⟨rfl, rfl⟩ := Prod.mk.inj (Option.some.inj found)
    exact Text.cut_of_stopped dropped

structure CleanEntry (property value : String) : Prop where
  property_ne : property.toList ≠ []
  property_trim : Text.trim property.toList = property.toList
  value_trim : Text.trim value.toList = value.toList
  colon : ':' ∉ property.toList
  property_end : ';' ∉ property.toList
  value_end : ';' ∉ value.toList

def Clean (s : Style) : Prop := ∀ entry ∈ s.entries, CleanEntry entry.1 entry.2

theorem clean_declaration {cs : List Char} (whole : ';' ∉ cs)
    (read : declaration? cs = some (property, value)) : CleanEntry property value := by
  rw [declaration?] at read
  split at read
  · cases read
  next before after found =>
    obtain ⟨colon, rfl⟩ := of_splitOnce? found
    simp only [List.isEmpty_iff] at read
    split at read
    · cases read
    next named =>
      obtain ⟨rfl, rfl⟩ := Prod.mk.inj (Option.some.inj read)
      rw [List.mem_append, List.mem_cons, not_or, not_or] at whole
      constructor
      · rwa [String.toList_ofList]
      · rw [String.toList_ofList, Text.trim_trim]
      · rw [String.toList_ofList, Text.trim_trim]
      · rw [String.toList_ofList]
        exact fun member => colon (Text.mem_of_mem_trim member)
      · rw [String.toList_ofList]
        exact fun member => whole.1 (Text.mem_of_mem_trim member)
      · rw [String.toList_ofList]
        exact fun member => whole.2.2 (Text.mem_of_mem_trim member)

theorem clean_parse (css : String) : Clean (parse css) := by
  intro entry member
  obtain ⟨piece, found, read⟩ := List.mem_filterMap.mp (Dict.mem_of_mem_ofList member)
  exact clean_declaration (of_mem_pieces piece found).1 read

theorem declaration?_of_clean {lead : List Char} (clean : CleanEntry property value)
    (blank : lead = [] ∨ lead = [' ']) :
    declaration? (lead ++ (property.toList ++ ':' :: ' ' :: value.toList)) =
      some (property, value) := by
  have colon : ':' ∉ lead ++ property.toList := by
    rw [List.mem_append, not_or]
    refine ⟨?_, clean.colon⟩
    rcases blank with rfl | rfl <;> decide
  have trimmed : Text.trim (lead ++ property.toList) = property.toList := by
    rcases blank with rfl | rfl
    · exact clean.property_trim
    · exact (Text.trim_cons_space _).trans clean.property_trim
  have named : property.toList.isEmpty = false := List.isEmpty_eq_false_iff.mpr clean.property_ne
  rw [declaration?, ← List.append_assoc, splitOnce?_append colon]
  simp only [trimmed, named, Text.trim_cons_space, clean.value_trim, String.ofList_toList,
    Bool.false_eq_true, if_false]

def characters (entries : List (String × String)) : List Char :=
  [' '].intercalate (entries.map fun e => (declarationText e.1 e.2).toList)

theorem toList_text (s : Style) : s.text.toList = characters s.entries := by
  rw [text, String.toList_intercalate, List.map_map]
  rfl

theorem toList_declarationText (property value : String) :
    (declarationText property value).toList =
      (property.toList ++ ':' :: ' ' :: value.toList) ++ ';' :: [] := by
  simp only [declarationText, String.toList_append, List.append_assoc]
  rfl

/-- Declarations are read as they were written, also behind the blank between two of them. -/
theorem read_characters (entries : List (String × String))
    (clean : ∀ entry ∈ entries, CleanEntry entry.1 entry.2) {lead : List Char}
    (blank : lead = [] ∨ lead = [' ']) :
    (pieces ';' (lead ++ characters entries)).filterMap declaration? = entries := by
  have nothing : (pieces ';' lead).filterMap declaration? = [] := by
    rcases blank with rfl | rfl <;> rfl
  induction entries generalizing lead with
  | nil =>
      rw [characters, List.map_nil, List.intercalate_nil, List.append_nil]
      exact nothing
  | cons entry rest ih =>
      obtain ⟨property, value⟩ := entry
      obtain ⟨first, later⟩ := List.forall_mem_cons.mp clean
      have whole : ';' ∉ lead ++ (property.toList ++ ':' :: ' ' :: value.toList) := by
        simp only [List.mem_append, List.mem_cons, not_or]
        refine ⟨?_, first.property_end, by decide, by decide, first.value_end⟩
        rcases blank with rfl | rfl <;> decide
      cases rest with
      | nil =>
          have only : lead ++ characters [(property, value)] =
              (lead ++ (property.toList ++ ':' :: ' ' :: value.toList)) ++ ';' :: [] := by
            rw [characters, List.map_singleton, List.intercalate_singleton]
            exact (congrArg (lead ++ ·) (toList_declarationText property value)).trans
              (List.append_assoc ..).symm
          rw [only, pieces_append whole, List.filterMap_cons_some (declaration?_of_clean first blank)]
          rfl
      | cons next rest =>
          have split_off : lead ++ characters ((property, value) :: next :: rest) =
              (lead ++ (property.toList ++ ':' :: ' ' :: value.toList)) ++
                ';' :: ([' '] ++ characters (next :: rest)) := by
            simp only [characters, List.map_cons, List.intercalate_cons_cons, toList_declarationText,
              List.append_assoc, List.cons_append, List.nil_append]
          rw [split_off, pieces_append whole,
            List.filterMap_cons_some (declaration?_of_clean first blank),
            ih later (.inr rfl) rfl]

theorem parse_text_of_clean {s : Style} (clean : Clean s) : parse s.text = s := by
  have read := read_characters s.entries clean (.inl rfl : ([] : List Char) = [] ∨ _)
  rw [List.nil_append] at read
  rw [parse, toList_text, read, Dict.ofList_entries]

theorem parse_text_parse (css : String) : parse (parse css).text = parse css :=
  parse_text_of_clean (clean_parse css)

theorem cleanEntry_iff : CleanEntry property value ↔
    property.toList ≠ [] ∧ Text.trim property.toList = property.toList ∧ Text.trim value.toList = value.toList ∧
      ':' ∉ property.toList ∧ ';' ∉ property.toList ∧ ';' ∉ value.toList :=
  ⟨fun ⟨named, property, value, colon, ended, ended'⟩ => ⟨named, property, value, colon, ended, ended'⟩,
    fun ⟨named, property, value, colon, ended, ended'⟩ => ⟨named, property, value, colon, ended, ended'⟩⟩

instance (property value : String) : Decidable (CleanEntry property value) := decidable_of_iff' _ cleanEntry_iff

instance (s : Style) : Decidable s.Clean :=
  inferInstanceAs (Decidable (∀ entry ∈ s.entries, CleanEntry entry.1 entry.2))

end Style

namespace Document

variable {d : Document} {n : NodeId} {e : Element}

theorem value_setAttribute_style (found : d.element? n = some e) (css : String) :
    (d.setAttribute n "style" css).value = d.redone n (.element { e with styles := Style.parse css }) := by
  rw [setAttribute, onElement_eq found]
  rfl

/-- Declarations that were read from a text are read back from what the `style` attribute shows of them. -/
theorem setAttribute_style_again (found : d.element? n = some e) {css shown : String}
    (reads : (d.setAttribute n "style" css).value.attribute? n "style" = some shown) :
    ((d.setAttribute n "style" css).value.setAttribute n "style" shown).value =
      (d.setAttribute n "style" css).value := by
  have styled := element?_redone (contains_of_element? found) { e with styles := Style.parse css }
  rw [value_setAttribute_style found, attribute?, styled, Option.bind_some, if_pos rfl] at reads
  obtain ⟨-, rfl⟩ : _ ∧ (Style.parse css).text = shown := by simpa using reads
  rw [value_setAttribute_style found, value_setAttribute_style styled, redone_redone, Style.parse_text_parse]

end Document

/-- A style text settles once it was read. Its declarations are what their own text says; so an element keeps its
declarations when its `style` attribute is set to what it shows. Every clean style is read from its text. -/
theorem Style.text_settles (css : String) :
    parse (parse css).text = parse css ∧
      (∀ (d : Document) (n : NodeId) (e : Element), d.element? n = some e →
        (d.setAttribute n "style" css).value.element? n = some { e with styles := parse css } ∧
        ∀ shown, (d.setAttribute n "style" css).value.attribute? n "style" = some shown →
          ((d.setAttribute n "style" css).value.setAttribute n "style" shown).value =
            (d.setAttribute n "style" css).value) ∧
      ∀ s : Style, s.Clean → parse s.text = s := by
  refine ⟨parse_text_parse css, fun d n e found => ⟨?_, ?_⟩, fun s => parse_text_of_clean⟩
  · rw [Document.value_setAttribute_style found]
    exact Document.element?_redone (Document.contains_of_element? found) _
  · intro shown reads
    exact Document.setAttribute_style_again found reads

/-- A text with a property that is declared twice, a value with a colon, and a declaration that counts for
nothing. -/
theorem Style.coloured_text_settles :
    let css := "margin : 0 ;; color:red;url: a:b ;color : blue; bare"
    let paragraph := (Document.empty.createElement "p").2
    let styled := (paragraph.setAttribute ⟨1⟩ "style" css).value
    let s : Style := .ofList [("color", "blue"), ("margin", "0"), ("url", "a:b")]
    (styled.element? ⟨1⟩).map Element.styles = some s ∧
      styled.attribute? ⟨1⟩ "style" = some "color: blue; margin: 0; url: a:b;" ∧
      (styled.setAttribute ⟨1⟩ "style" "color: blue; margin: 0; url: a:b;").value = styled ∧
      s.Clean ∧ parse "color: blue; margin: 0; url: a:b;" = s := by
  intro css paragraph styled s
  obtain ⟨-, set, settled⟩ := Style.text_settles css
  have read : parse css = s := by decide +kernel
  have shown : styled.attribute? ⟨1⟩ "style" = some "color: blue; margin: 0; url: a:b;" := by decide +kernel
  have clean : s.Clean := by decide +kernel
  have spelled : s.text = "color: blue; margin: 0; url: a:b;" := by decide +kernel
  obtain ⟨declared, again⟩ := set paragraph ⟨1⟩ ⟨"p", .empty, .empty, none, []⟩ (by decide +kernel)
  refine ⟨?_, shown, again _ shown, clean, ?_⟩
  · rw [declared, read]
    rfl
  · rw [← spelled]
    exact settled s clean

end Patchwork
