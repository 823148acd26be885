import Patchwork.Proofs.WornAttributes
import Patchwork.Proofs.EntryLookup

/-! What a document shows. It shows a picture if every node of the picture is what the picture says it
is: a text node with the text, or an element that wears its attributes and has exactly the nodes of its
children beneath it. A picture is shown as long as its own nodes stay as they are. -/
namespace Patchwork

/-- The element apart from its live value, which belongs to whoever types into it. -/
def Content.worn : Content → Content
  | .element e => .element { e with value := none }
  | .text s => .text s

namespace Document

/-- What a node is like to look at from outside of its parent. -/
def look (d : Document) (n : NodeId) : Option (Content × List NodeId) :=
  (d.node? n).map fun node => (node.content.worn, node.children.toList)

theorem look_of_node? {d e : Document} (same : e.node? n = d.node? n) : e.look n = d.look n := by
  rw [look, look, same]

section Look
variable {d e : Document} {n : NodeId}

theorem text?_eq_some_iff_look : d.text? n = some s ↔ ∃ kids, d.look n = some (.text s, kids) := by
  rw [text?_eq_some, look]
  cases d.node? n with
  | none => simp only [Option.map_none, reduceCtorEq, exists_false]
  | some node =>
      simp only [Option.map_some, Option.some.injEq, Prod.mk.injEq, exists_and_left, exists_eq', and_true]
      cases node.content <;> simp only [Content.worn, reduceCtorEq]

theorem element?_eq_some_iff_look : (∃ el, d.element? n = some el ∧ { el with value := none } = worn) ↔
    ∃ kids, d.look n = some (.element worn, kids) := by
  simp only [element?_eq_some, look]
  cases d.node? n with
  | none => simp only [Option.map_none, reduceCtorEq, false_and, exists_false]
  | some node =>
      simp only [Option.map_some, Option.some.injEq, Prod.mk.injEq, exists_and_left, exists_eq', and_true]
      cases node.content with
      | element el => simp only [Content.worn, Content.element.injEq, exists_eq_left']
      | text => simp only [Content.worn, reduceCtorEq, false_and, exists_false]

theorem children_eq_look : d.children n = ((d.look n).map Prod.snd).getD [] := by
  rw [children, look]
  cases d.node? n <;> rfl

theorem contains_eq_look : d.contains n = (d.look n).isSome := by rw [contains, look, Option.isSome_map]

theorem views_of_look (same : e.look n = d.look n) :
    e.contains n = d.contains n ∧ e.children n = d.children n ∧ e.text? n = d.text? n ∧
      ∀ el, d.element? n = some el →
        ∃ el', e.element? n = some el' ∧ { el' with value := none } = { el with value := none } := by
  refine ⟨?_, ?_, ?_, fun el found => ?_⟩
  · rw [contains_eq_look, contains_eq_look, same]
  · rw [children_eq_look, children_eq_look, same]
  · refine Option.ext fun s => ?_
    rw [text?_eq_some_iff_look, text?_eq_some_iff_look, same]
  · obtain ⟨kids, looks⟩ := element?_eq_some_iff_look.mp ⟨el, found, rfl⟩
    exact element?_eq_some_iff_look.mpr ⟨kids, same.trans looks⟩

end Look

end Document

theorem Binder.Wears.of_value {e e' : Element} (wears : Wears tag attributes e b)
    (same : { e' with value := none } = { e with value := none }) : Wears tag attributes e' b := by
  obtain ⟨tag', attributes', styles', value', listeners'⟩ := e'
  cases same
  exact ⟨wears.named, wears.plain, wears.styles, wears.listeners, wears.attributeNames,
    wears.styleNames, wears.bound⟩

namespace Picture

/-- A text node that nothing is bound to. -/
structure TextAt (d : Document) (binder : Binder) (n : NodeId) (content : String) : Prop where
  text : d.text? n = some content
  childless : d.children n = []
  unbound : binder[n]? = none

def ElementAt (d : Document) (binder : Binder) (n : NodeId) (tag : String) (attributes : Attributes) :
    Prop :=
  ∃ e b, d.element? n = some e ∧ binder[n]? = some b ∧ Binder.Wears tag attributes e b

mutual

/-- The document and the bookkeeping are as the picture says. Nothing adopted is shown. -/
def Seen (d : Document) (binder : Binder) : Picture → Prop
  | text n content => TextAt d binder n content
  | element n tag attributes children =>
      ElementAt d binder n tag attributes ∧ d.children n = topsAll children ∧ SeenAll d binder children
  | component _ _ _ _ output => output ≠ [] ∧ SeenAll d binder output
  | raw _ _ _ => False
  | missing n _ => TextAt d binder n ""

def SeenAll (d : Document) (binder : Binder) : List Picture → Prop
  | [] => True
  | p :: rest => Seen d binder p ∧ SeenAll d binder rest

end

mutual

def Homemade : Picture → Prop
  | text _ _ | missing _ _ => True
  | element _ _ _ children => HomemadeAll children
  | component _ _ _ _ output => HomemadeAll output
  | raw _ _ _ => False

def HomemadeAll : List Picture → Prop
  | [] => True
  | p :: rest => Homemade p ∧ HomemadeAll rest

end

mutual

theorem tops_sublist : ∀ p : Picture, (tops p).Sublist (nodes p)
  | .text .. | .raw .. | .missing .. => .refl _
  | .element .. => .cons_cons _ (List.nil_sublist _)
  | .component _ _ _ _ output => topsAll_sublist output

theorem topsAll_sublist : ∀ ps : List Picture, (topsAll ps).Sublist (nodesAll ps)
  | [] => .refl _
  | p :: rest => (tops_sublist p).append (topsAll_sublist rest)

end

theorem mem_nodes_of_tops {p : Picture} (member : n ∈ tops p) : n ∈ nodes p :=
  (tops_sublist p).subset member

theorem mem_nodesAll_of_tops {ps : List Picture} (member : n ∈ topsAll ps) : n ∈ nodesAll ps :=
  (topsAll_sublist ps).subset member

section Laws
variable {d e : Document} {binder binder' : Binder}

theorem TextAt.congr (shown : TextAt d binder n content) (looks : e.look n = d.look n)
    (bound : binder'[n]? = binder[n]?) : TextAt e binder' n content := by
  obtain ⟨-, kids, text, -⟩ := Document.views_of_look looks
  exact ⟨text.trans shown.text, kids.trans shown.childless, bound.trans shown.unbound⟩

theorem ElementAt.congr (shown : ElementAt d binder n tag attributes) (looks : e.look n = d.look n)
    (bound : binder'[n]? = binder[n]?) : ElementAt e binder' n tag attributes := by
  obtain ⟨el, b, found, bound', wears⟩ := shown
  obtain ⟨-, -, -, elements⟩ := Document.views_of_look looks
  obtain ⟨el', found', same⟩ := elements el found
  exact ⟨el', b, found', bound.trans bound', wears.of_value same⟩

theorem ElementAt.contains (shown : ElementAt d binder n tag attributes) : d.contains n = true := by
  obtain ⟨_, _, found, -⟩ := shown
  exact Document.contains_of_element? found

@[simp] theorem seen_element : Seen d binder (.element n tag attributes children) ↔
    ElementAt d binder n tag attributes ∧ d.children n = topsAll children ∧
      SeenAll d binder children := by simp only [Seen]

@[simp] theorem seen_component : Seen d binder (.component a c props tree output) ↔
    output ≠ [] ∧ SeenAll d binder output := by simp only [Seen]

@[simp] theorem seenAll_nil : SeenAll d binder [] ↔ True := by simp only [SeenAll]

@[simp] theorem seenAll_cons : SeenAll d binder (p :: ps) ↔
    Seen d binder p ∧ SeenAll d binder ps := by simp only [SeenAll]

theorem seenAll_iff : ∀ {ps : List Picture}, SeenAll d binder ps ↔ ∀ p ∈ ps, Seen d binder p
  | [] => by simp only [seenAll_nil, List.not_mem_nil, false_implies, implies_true]
  | p :: rest => by
      have later : SeenAll d binder rest ↔ ∀ p ∈ rest, Seen d binder p := seenAll_iff
      rw [seenAll_cons, List.forall_mem_cons, later]

theorem seenAll_append : SeenAll d binder (ps ++ qs) ↔
    SeenAll d binder ps ∧ SeenAll d binder qs := by
  simp only [seenAll_iff, List.forall_mem_append]

mutual

/-- A picture is shown by all documents in which its nodes look the same. -/
theorem Seen.congr : ∀ {p : Picture}, Seen d binder p →
    (∀ n ∈ nodes p, e.look n = d.look n ∧ binder'[n]? = binder[n]?) → Seen e binder' p
  | .text n content, shown, same | .missing n _, shown, same => by
      rw [Seen] at shown ⊢
      obtain ⟨looks, bound⟩ := same n (List.mem_singleton_self n)
      exact shown.congr looks bound
  | .element n tag attributes children, shown, same => by
      rw [seen_element] at shown ⊢
      rw [nodes, List.forall_mem_cons] at same
      obtain ⟨⟨looks, bound⟩, inside⟩ := same
      obtain ⟨-, kids, -⟩ := Document.views_of_look looks
      exact ⟨shown.1.congr looks bound, kids.trans shown.2.1, shown.2.2.congr inside⟩
  | .component _ _ _ _ output, shown, same => by
      rw [seen_component] at shown ⊢
      exact ⟨shown.1, shown.2.congr fun n member => same n (by rwa [nodes])⟩
  | .raw .., shown, _ => by simp only [Seen] at shown

theorem SeenAll.congr : ∀ {ps : List Picture}, SeenAll d binder ps →
    (∀ n ∈ nodesAll ps, e.look n = d.look n ∧ binder'[n]? = binder[n]?) → SeenAll e binder' ps
  | [], _, _ => seenAll_nil.mpr trivial
  | p :: rest, shown, same => by
      rw [nodesAll, List.forall_mem_append] at same
      rw [seenAll_cons] at shown ⊢
      exact ⟨shown.1.congr same.1, shown.2.congr same.2⟩

end

mutual

theorem Seen.contains : ∀ {p : Picture}, Seen d binder p → ∀ n ∈ nodes p, d.contains n = true
  | .text n content, shown | .missing n _, shown => by
      rw [Seen] at shown
      intro k member
      rw [List.mem_singleton.mp member]
      exact Document.contains_of_text? shown.text
  | .element n tag attributes children, shown => by
      rw [seen_element] at shown
      rw [nodes, List.forall_mem_cons]
      exact ⟨shown.1.contains, shown.2.2.contains⟩
  | .component _ _ _ _ output, shown => by
      rw [seen_component] at shown
      rw [nodes]
      exact shown.2.contains
  | .raw .., shown => by simp only [Seen] at shown

theorem SeenAll.contains : ∀ {ps : List Picture}, SeenAll d binder ps →
    ∀ n ∈ nodesAll ps, d.contains n = true
  | [], _ => List.forall_mem_nil _
  | p :: rest, shown => by
      rw [seenAll_cons] at shown
      rw [nodesAll, List.forall_mem_append]
      exact ⟨shown.1.contains, shown.2.contains⟩

end

mutual

theorem Seen.children : ∀ {p : Picture}, Seen d binder p →
    ∀ n ∈ nodes p, ∀ c ∈ d.children n, c ∈ nodes p
  | .text n content, shown | .missing n _, shown => by
      rw [Seen] at shown
      intro k member c child
      rw [List.mem_singleton.mp member, shown.childless] at child
      cases child
  | .element n tag attributes children, shown => by
      rw [seen_element] at shown
      intro k member c child
      rw [nodes, List.mem_cons] at member ⊢
      rcases member with rfl | inside
      · exact .inr (mem_nodesAll_of_tops (shown.2.1 ▸ child))
      · exact .inr (shown.2.2.children k inside c child)
  | .component _ _ _ _ output, shown => by
      rw [seen_component] at shown
      rw [nodes]
      exact shown.2.children
  | .raw .., shown => by simp only [Seen] at shown

theorem SeenAll.children : ∀ {ps : List Picture}, SeenAll d binder ps →
    ∀ n ∈ nodesAll ps, ∀ c ∈ d.children n, c ∈ nodesAll ps
  | [], _ => List.forall_mem_nil _
  | p :: rest, shown => by
      rw [seenAll_cons] at shown
      intro n member c child
      rw [nodesAll, List.mem_append] at member ⊢
      exact member.imp (fun first => shown.1.children n first c child) fun later =>
        shown.2.children n later c child

end

mutual

theorem Seen.parent (linked : d.Linked) : ∀ {p : Picture}, Seen d binder p →
    ∀ n ∈ nodes p, n ∈ tops p ∨ ∃ k ∈ nodes p, d.parent? n = some k
  | .text .., _ | .missing .., _ => fun _ member => .inl member
  | .element n tag attributes children, shown => by
      rw [seen_element] at shown
      intro k member
      rw [nodes, List.mem_cons] at member
      rcases member with rfl | inside
      · exact .inl (List.mem_singleton_self _)
      rcases shown.2.2.parent linked k inside with top | ⟨up, held, parent⟩
      · exact .inr ⟨n, List.mem_cons_self .., linked.parent_of_child (shown.2.1 ▸ top)⟩
      · exact .inr ⟨up, List.mem_cons_of_mem _ held, parent⟩
  | .component _ _ _ _ output, shown => by
      rw [seen_component] at shown
      rw [nodes, tops]
      exact shown.2.parent linked
  | .raw .., shown => by simp only [Seen] at shown

theorem SeenAll.parent (linked : d.Linked) : ∀ {ps : List Picture}, SeenAll d binder ps →
    ∀ n ∈ nodesAll ps, n ∈ topsAll ps ∨ ∃ k ∈ nodesAll ps, d.parent? n = some k
  | [], _ => List.forall_mem_nil _
  | p :: rest, shown => by
      rw [seenAll_cons] at shown
      intro n member
      rw [nodesAll, List.mem_append] at member
      simp only [topsAll, nodesAll, List.mem_append]
      rcases member with first | later
      · exact (shown.1.parent linked n first).imp .inl fun ⟨k, held, up⟩ => ⟨k, .inl held, up⟩
      · exact (shown.2.parent linked n later).imp .inr fun ⟨k, held, up⟩ => ⟨k, .inr held, up⟩

end

mutual

/-- A shown picture has a node in its parent. -/
theorem Seen.tops_ne_nil : ∀ {p : Picture}, Seen d binder p → tops p ≠ []
  | .text .., _ | .missing .., _ | .element .., _ => by simp only [tops, ne_eq, reduceCtorEq,
      not_false_eq_true]
  | .component _ _ _ _ output, shown => by
      rw [seen_component] at shown
      rw [tops]
      exact shown.2.tops_ne_nil shown.1
  | .raw .., shown => by simp only [Seen] at shown

theorem SeenAll.tops_ne_nil : ∀ {ps : List Picture}, SeenAll d binder ps → ps ≠ [] → topsAll ps ≠ []
  | [], _, full => absurd rfl full
  | p :: rest, shown, _ => by
      rw [seenAll_cons] at shown
      rw [topsAll]
      exact fun nothing => shown.1.tops_ne_nil (List.append_eq_nil_iff.mp nothing).1

end

mutual

theorem Seen.homemade : ∀ {p : Picture}, Seen d binder p → Homemade p
  | .text .., _ | .missing .., _ => by simp only [Homemade]
  | .element _ _ _ children, shown => by
      rw [seen_element] at shown
      rw [Homemade]
      exact shown.2.2.homemade
  | .component _ _ _ _ output, shown => by
      rw [seen_component] at shown
      rw [Homemade]
      exact shown.2.homemade
  | .raw .., shown => by simp only [Seen] at shown

theorem SeenAll.homemade : ∀ {ps : List Picture}, SeenAll d binder ps → HomemadeAll ps
  | [], _ => by simp only [HomemadeAll]
  | p :: rest, shown => by
      rw [seenAll_cons] at shown
      rw [HomemadeAll]
      exact ⟨shown.1.homemade, shown.2.homemade⟩

end

/-- Where a picture's nodes are children of some parent, no other node of it is. -/
theorem SeenAll.top_of_child (linked : d.Linked) (shown : SeenAll d binder ps)
    (outside : place ∉ nodesAll ps) (member : n ∈ nodesAll ps) (child : n ∈ d.children place) :
    n ∈ topsAll ps := by
  refine (shown.parent linked n member).resolve_right fun ⟨k, held, up⟩ => outside ?_
  exact Option.some.inj (up.symm.trans (linked.parent_of_child child)) ▸ held

end Laws

end Picture
end Patchwork
