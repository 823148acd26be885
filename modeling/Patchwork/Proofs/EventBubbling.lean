import Mathlib.Logic.Function.Iterate
import Patchwork.Proofs.ComponentExpansion
import Patchwork.Proofs.ServedPages

/-! Where events go. An event at a mounted node reaches, from the inside outwards, the handlers that the elements
around the node were given by the trees that are shown, and then whatever else listens around the container. -/
namespace Patchwork

open Mounted (items itemsAll)

namespace Binder

/-- The handler that attributes bind to a category: of the names that stand for it the last one counts. -/
def bound? (category : Category) (attributes : Attributes) : Option Handler :=
  ((attributes.toList.filterMap binding?).filter (·.1 = category)).getLast?.map Prod.snd

theorem get?_boundTo (attributes : Attributes) (category : Category) :
    (boundTo attributes).get? category = bound? category attributes := Dict.get?_ofList ..

end Binder

namespace Document

/-- The nodes from a node outwards, up to one that stands in no other. -/
inductive Outwards (d : Document) : NodeId → List NodeId → Prop
  | outermost {n : NodeId} : d.parent? n = none → Outwards d n [n]
  | up {n p : NodeId} {ns : List NodeId} : d.parent? n = some p → Outwards d p ns → Outwards d n (n :: ns)

namespace Outwards

variable {d : Document} {n m : NodeId} {ns ms : List NodeId}

theorem unique (one : d.Outwards n ns) (two : d.Outwards n ms) : ns = ms := by
  induction one generalizing ms with
  | outermost orphan =>
      cases two with
      | outermost => rfl
      | up parent => cases orphan.symm.trans parent
  | up parent _ ih =>
      cases two with
      | outermost orphan => cases orphan.symm.trans parent
      | up parent' rest =>
          cases parent.symm.trans parent'
          rw [ih rest]

theorem of_mem (outwards : d.Outwards n ns) (member : m ∈ ns) : ∃ ms, d.Outwards m ms ∧ ms <:+ ns := by
  induction outwards with
  | outermost orphan =>
      cases List.mem_singleton.mp member
      exact ⟨_, .outermost orphan, List.suffix_rfl⟩
  | up parent outside ih =>
      rcases List.mem_cons.mp member with rfl | further
      · exact ⟨_, .up parent outside, List.suffix_rfl⟩
      · obtain ⟨ms, from_there, suffix⟩ := ih further
        exact ⟨ms, from_there, suffix.trans (List.suffix_cons ..)⟩

theorem nodup (outwards : d.Outwards n ns) : ns.Nodup := by
  induction outwards with
  | outermost => exact List.nodup_singleton _
  | up parent outside ih =>
      refine List.nodup_cons.mpr ⟨fun again => ?_, ih⟩
      obtain ⟨ms, from_there, suffix⟩ := outside.of_mem again
      cases from_there.unique (.up parent outside)
      exact absurd suffix.length_le (Nat.not_succ_le_self _)

/-- Within enough steps for the nodes that are live, all listeners on the way are found. -/
theorem handlersUpwards_eq (outwards : d.Outwards n ns) (category : Category) {steps : Nat}
    (enough : (ns.filter d.contains).length ≤ steps) :
    d.handlersUpwards category steps n = ns.flatMap (d.handlers · category) := by
  -- A node that is not live has no listeners, so it does not matter whether it is reached.
  have silent {n : NodeId} (gone : ¬ d.contains n = true) : d.handlers n category = [] := by
    have unknown : d.node? n = none := Option.not_isSome_iff_eq_none.mp gone
    rw [handlers, element?, unknown]
    rfl
  induction outwards generalizing steps with
  | @outermost n orphan =>
      rw [List.flatMap_singleton]
      cases steps with
      | zero =>
          refine (silent fun live => ?_).symm
          rw [List.filter_cons_of_pos live] at enough
          exact Nat.not_succ_le_zero _ enough
      | succ steps => rw [handlersUpwards, orphan, List.append_nil]
  | @up n p ns parent _ ih =>
      obtain ⟨node, found, -⟩ := Option.bind_eq_some_iff.mp parent
      rw [List.filter_cons_of_pos (contains_iff.mpr ⟨node, found⟩)] at enough
      cases steps with
      | zero => exact absurd enough (Nat.not_succ_le_zero _)
      | succ steps =>
          rw [handlersUpwards, parent, List.flatMap_cons]
          exact congrArg (d.handlers n category ++ ·) (ih (Nat.le_of_succ_le_succ enough))

theorem pathHandlers_eq (outwards : d.Outwards n ns) (category : Category) :
    d.pathHandlers n category = ns.flatMap (d.handlers · category) :=
  outwards.handlersUpwards_eq category
    (length_le_issued (outwards.nodup.filter _) fun _ member => (List.mem_filter.mp member).2)

end Outwards

theorem exists_outwards {d : Document} {n : NodeId}
    (ends : ∃ steps, ((Option.bind · d.parent?)^[steps]) (some n) = none) : ∃ outer, d.Outwards n (n :: outer) := by
  obtain ⟨steps, ended⟩ := ends
  induction steps generalizing n with
  | zero => cases ended
  | succ steps ih =>
      rw [Function.iterate_succ_apply, Option.bind_some] at ended
      cases parent : d.parent? n with
      | none => exact ⟨[], .outermost parent⟩
      | some p =>
          obtain ⟨outer, outside⟩ := ih (parent ▸ ended)
          exact ⟨p :: outer, .up parent outside⟩

theorem handlers_of_worn {d d' : Document} {n : NodeId} {category : Category} (same : d'.worn? n = d.worn? n) :
    d'.handlers n category = d.handlers n category := by
  rw [handlers, handlers]
  cases found : d.element? n with
  | none => rw [element?_eq_none_of_worn same found]
  | some e =>
      obtain ⟨e', found', alike⟩ := element?_of_worn same found
      have listeners : e'.listeners = e.listeners := (Element.mk.inj alike).2.2.2.2
      rw [found', Option.map_some, Option.map_some, Element.handlers, listeners, Element.handlers]

theorem pathHandlers_typed (d : Document) (n : NodeId) (value : Option String) (target : NodeId) (category : Category) :
    (d.typed n value).pathHandlers target category = d.pathHandlers target category := by
  have alters := alters_typed d n value
  have climb : ∀ steps k, (d.typed n value).handlersUpwards category steps k = d.handlersUpwards category steps k := by
    intro steps
    induction steps with
    | zero => exact fun _ => rfl
    | succ steps ih =>
        intro k
        rw [handlersUpwards, handlersUpwards, handlers_of_worn (worn?_typed d n value k), alters.parent]
        cases d.parent? k with
        | none => rfl
        | some p => exact congrArg (d.handlers k category ++ ·) (ih p)
  rw [pathHandlers, pathHandlers, climb]
  exact congrArg (d.handlersUpwards category · target) alters.issued

end Document

namespace Renderer

variable {σ τ : Type} {δ : StateData} [HasStateData σ δ] [HasStateData τ δ] {honest : σ → Prop} {homes : Homes}
  {s t : Renderer Document τ} {program : Program τ} {category : Category} {h : Holder} {firm : Bool}
  {path : List Nat} {i : Nat} {place n : NodeId}
  {ms : List Mounted} {flats : List Flat} {around : List Attributes}

/-- A node stands among some entries, or somewhere inside an element or a component there. -/
inductive Holds (as : Activations) : List Mounted → NodeId → Prop
  | text {n : NodeId} {ms : List Mounted} : Holds as (.text n :: ms) n
  | raw {n : NodeId} {raw : RawNode} {ms : List Mounted} : Holds as (.raw n raw :: ms) n
  | element {n : NodeId} {tag : String} {children ms : List Mounted} : Holds as (.element n tag children :: ms) n
  | inside {m n : NodeId} {tag : String} {children ms : List Mounted} : Holds as children n →
      Holds as (.element m tag children :: ms) n
  | output {a : ActivationId} {n : NodeId} {ms : List Mounted} : Holds as (as.output a) n →
      Holds as (.component a :: ms) n
  | later {m : Mounted} {n : NodeId} {ms : List Mounted} : Holds as ms n → Holds as (m :: ms) n

/-- A node stands among entries that show positions. The elements from the node outwards were given these attributes,
the innermost first, and `outermost` is the outermost node around it that is mounted there. What stands inside
a component shows the tree that the component's activation has committed. -/
inductive Stacked (as : Activations) :
    List Mounted → List Flat → (n : NodeId) → List Attributes → (outermost : NodeId) → Prop
  | text {n : NodeId} {ms : List Mounted} {flat : Flat} {flats : List Flat} :
      Stacked as (.text n :: ms) (flat :: flats) n [] n
  | element {n : NodeId} {tag tag' : String} {attributes : Attributes} {children ms : List Mounted}
      {inner flats : List Flat} :
      Stacked as (.element n tag children :: ms) (.element tag' attributes inner :: flats) n [attributes] n
  | inside {m n k : NodeId} {tag tag' : String} {attributes : Attributes} {children ms : List Mounted}
      {inner flats : List Flat} {around : List Attributes} : Stacked as children inner n around k →
      Stacked as (.element m tag children :: ms) (.element tag' attributes inner :: flats) n (around ++ [attributes]) m
  | output {a : ActivationId} {r : Activation} {tree : Tree} {n outermost : NodeId} {ms : List Mounted} {flat : Flat}
      {flats : List Flat} {around : List Attributes} : as.find? a = some r → r.committed = some tree →
      Stacked as r.output tree.flattenOutput n around outermost →
      Stacked as (.component a :: ms) (flat :: flats) n around outermost
  | later {m : Mounted} {n outermost : NodeId} {ms : List Mounted} {flat : Flat} {flats : List Flat}
      {around : List Attributes} : Stacked as ms flats n around outermost →
      Stacked as (m :: ms) (flat :: flats) n around outermost

section Finding

variable {a : ActivationId} {m : Mounted} {flat : Flat} {levels : Nat}
  {inner : ActivationId → Option (List Attributes × NodeId)}

mutual

/-- What the elements from a node outwards were given and the outermost node, where the node is looked for in an entry
that shows a position; `inner` looks for it in outputs. -/
def stackBy (inner : ActivationId → Option (List Attributes × NodeId)) (n : NodeId) :
    Mounted → Flat → Option (List Attributes × NodeId)
  | .text m, _ => if m = n then some ([], n) else none
  | .element m _ children, .element _ attributes flats =>
      if m = n then some ([attributes], n)
      else (stackAllBy inner n children flats).map fun (around, _) => (around ++ [attributes], m)
  | .component a, _ => inner a
  | _, _ => none

def stackAllBy (inner : ActivationId → Option (List Attributes × NodeId)) (n : NodeId) :
    List Mounted → List Flat → Option (List Attributes × NodeId)
  | m :: ms, flat :: flats => (stackBy inner n m flat).or (stackAllBy inner n ms flats)
  | _, _ => none

end

def stackWithin (as : Activations) (n : NodeId) : (levels : Nat) → ActivationId → Option (List Attributes × NodeId)
  | 0, _ => none
  | levels + 1, a => do
      let r ← as.find? a
      let tree ← r.committed
      stackAllBy (stackWithin as n levels) n r.output tree.flattenOutput

def stack? (as : Activations) (ms : List Mounted) (flats : List Flat) (n : NodeId) :
    Option (List Attributes × NodeId) :=
  stackAllBy (stackWithin as n as.depth) n ms flats

mutual

theorem stacked_of_stackBy {as : Activations}
    (outputs : ∀ {a around outermost}, inner a = some (around, outermost) →
      ∀ ms flat flats, Stacked as (.component a :: ms) (flat :: flats) n around outermost)
    (ms : List Mounted) (flats : List Flat) :
    ∀ {m : Mounted} {flat : Flat} {around : List Attributes} {outermost : NodeId},
    stackBy inner n m flat = some (around, outermost) → Stacked as (m :: ms) (flat :: flats) n around outermost
  | .text m, flat, around, outermost, found => by
      rw [stackBy] at found
      split at found
      next same =>
        subst same
        cases found
        exact .text
      next => cases found
  | .element m tag children, .element tag' attributes inside, around, outermost, found => by
      rw [stackBy] at found
      split at found
      next same =>
        subst same
        cases found
        exact .element
      next =>
        obtain ⟨⟨deeper, _⟩, within, same⟩ := Option.map_eq_some_iff.mp found
        cases same
        exact .inside (stacked_of_stackAllBy outputs within)
  | .component a, flat, around, outermost, found => by
      rw [stackBy] at found
      exact outputs found ms flat flats
  | .element .., .text _, _, _, found | .element .., .component _, _, _, found | .element .., .raw _, _, _, found
  | .raw .., _, _, _, found => by simp only [stackBy, reduceCtorEq] at found

theorem stacked_of_stackAllBy {as : Activations}
    (outputs : ∀ {a around outermost}, inner a = some (around, outermost) →
      ∀ ms flat flats, Stacked as (.component a :: ms) (flat :: flats) n around outermost) :
    ∀ {ms : List Mounted} {flats : List Flat} {around : List Attributes} {outermost : NodeId},
      stackAllBy inner n ms flats = some (around, outermost) → Stacked as ms flats n around outermost
  | m :: ms, flat :: flats, around, outermost, found => by
      rw [stackAllBy, Option.or_eq_some_iff] at found
      rcases found with first | ⟨-, later⟩
      · exact stacked_of_stackBy outputs ms flats first
      · exact .later (stacked_of_stackAllBy outputs later)
  | [], _, _, _, found | _ :: _, [], _, _, found => by simp only [stackAllBy, reduceCtorEq] at found

end

theorem stacked_of_stack? {as : Activations} {outermost : NodeId}
    (found : stack? as ms flats n = some (around, outermost)) :
    Stacked as ms flats n around outermost := by
  refine stacked_of_stackAllBy (fun {a around outermost} found ms flat flats => ?_) found
  generalize as.depth = levels at found
  induction levels generalizing a around outermost ms flat flats with
  | zero => cases found
  | succ levels ih =>
      obtain ⟨r, recorded, found⟩ := Option.bind_eq_some_iff.mp found
      obtain ⟨tree, committed, found⟩ := Option.bind_eq_some_iff.mp found
      have inside := stacked_of_stackAllBy (fun deeper ms flat flats => ih ms flat flats deeper) found
      exact .output recorded committed inside

end Finding

/-- Every node that is mounted stands somewhere in what is shown. -/
theorem Houses.exists_stacked (houses : Houses homes s) (holds : Holds s.activations ms n) :
    ∀ {h firm path i place flats}, Seated homes h firm path i ms → Hangs s firm place ms flats →
      ∃ around outermost, Stacked s.activations ms flats n around outermost := by
  induction holds with
  | text =>
      intro h firm path i place flats seated hangs
      cases hangs with
      | text | blank => exact ⟨_, _, .text⟩
  | raw =>
      intro h firm path i place flats seated hangs
      cases hangs
  | element =>
      intro h firm path i place flats seated hangs
      cases hangs with
      | element => exact ⟨_, _, .element⟩
  | inside _ ih =>
      intro h firm path i place flats seated hangs
      cases seated with
      | element _ inside _ =>
      cases hangs with
      | element _ _ within _ =>
      obtain ⟨around, _, stacked⟩ := ih inside within
      exact ⟨_, _, .inside stacked⟩
  | @output a n ms holds ih =>
      intro h firm path i place flats seated hangs
      have filled : s.activations.output a ≠ [] := fun empty => by
        rw [empty] at holds
        cases holds
      obtain ⟨r, found⟩ : ∃ r, s.activations.find? a = some r := by
        cases found : s.activations.find? a with
        | none => exact absurd (by rw [Activations.output, found]; rfl) filled
        | some r => exact ⟨r, rfl⟩
      rw [Activations.output_eq found] at filled ih
      obtain ⟨place, tree, -, committed, showing⟩ := houses.shows a r found filled
      obtain ⟨around, outermost, stacked⟩ := ih (Activations.output_eq found ▸ houses.outputs a) showing
      cases hangs with
      | component => exact ⟨around, outermost, .output found committed stacked⟩
  | later _ ih =>
      intro h firm path i place flats seated hangs
      obtain ⟨flat, flats, rfl, -, others⟩ := hangs.uncons
      obtain ⟨around, outermost, stacked⟩ := ih seated.tail others
      exact ⟨around, outermost, .later stacked⟩

section Climbing

/-- A node stands in its place, unless that is no element and the node stands nowhere. -/
theorem parent_of_hung (hung : s.dom.Hung firm place n) (solid : firm = true → s.dom.element? place ≠ none) :
    s.dom.parent? n = some place ∨ s.dom.parent? n = none ∧ firm = false := by
  obtain ⟨-, parent | ⟨orphan, nowhere⟩⟩ := hung
  · exact .inl parent
  · refine .inr ⟨orphan, ?_⟩
    cases firm with
    | false => rfl
    | true => exact absurd (nowhere rfl) (solid rfl)

theorem handlers_of_element {tag : String} {attributes : Attributes}
    (plays : s.canvas.Plays n (.element tag attributes)) :
    s.dom.handlers n category = (Binder.bound? category attributes).toList := by
  obtain ⟨e, b, found, -, wears⟩ := plays
  change s.dom.element? n = some e at found
  rw [Document.handlers, found, Option.map_some, Option.getD_some, wears.handlers_eq, wears.bound, Binder.get?_boundTo]

theorem handlers_of_text (plays : s.canvas.Plays n .text) : s.dom.handlers n category = [] := by
  obtain ⟨⟨content, found⟩, -⟩ := plays
  have whole : (s.dom.node? n).map Node.content = some (.text content) := Document.text?_eq_some.mp found
  rw [Document.handlers, Document.element?, whole]
  rfl

theorem element?_of_plays {tag : String} {attributes : Attributes}
    (plays : s.canvas.Plays n (.element tag attributes)) : s.dom.element? n ≠ none := by
  obtain ⟨e, b, found, -⟩ := plays
  exact fun nothing => nomatch nothing.symm.trans (show s.dom.element? n = some e from found)

/-- From a node outwards, each element that is shown adds the handler that it was given, if any. Nothing else listens
up to the outermost node that is mounted, which stands in the place that all of it hangs in. -/
theorem Houses.climbs (houses : Houses homes s) (category : Category) {outermost : NodeId}
    (stacked : Stacked s.activations ms flats n around outermost) :
    ∀ {h firm path i place}, Seated homes h firm path i ms → Hangs s firm place ms flats →
      (firm = true → s.dom.element? place ≠ none) →
      (s.dom.parent? outermost = some place ∨ s.dom.parent? outermost = none ∧ firm = false) ∧
        ∀ outer, s.dom.Outwards outermost (outermost :: outer) → ∃ ns, s.dom.Outwards n ns ∧
          ns.flatMap (s.dom.handlers · category) =
            around.filterMap (Binder.bound? category) ++ outer.flatMap (s.dom.handlers · category) := by
  have added (attributes : Attributes) : [attributes].filterMap (Binder.bound? category) =
      (Binder.bound? category attributes).toList := by
    rw [List.filterMap_cons, List.filterMap_nil]
    cases Binder.bound? category attributes <;> rfl
  -- By induction on the way down to the node. An entry of an output hangs in the place of its activation, which
  -- adds no handler.
  induction stacked with
  | text =>
      intro h firm path i place seated hangs solid
      cases hangs with
      | text plays hung _ | blank plays hung _ =>
          refine ⟨parent_of_hung hung solid, fun outer outwards => ⟨_, outwards, ?_⟩⟩
          rw [List.flatMap_cons, handlers_of_text plays, List.filterMap_nil]
  | element =>
      intro h firm path i place seated hangs solid
      cases hangs with
      | element plays hung _ _ =>
          refine ⟨parent_of_hung hung solid, fun outer outwards => ⟨_, outwards, ?_⟩⟩
          rw [List.flatMap_cons, handlers_of_element plays, added]
  | inside _ ih =>
      intro h firm path i place seated hangs solid
      cases seated with
      | element _ inside _ =>
      cases hangs with
      | element plays hung within _ =>
      obtain ⟨parent | ⟨-, nonsense⟩, climbs⟩ := ih inside within fun _ => element?_of_plays plays
      · refine ⟨parent_of_hung hung solid, fun outer outwards => ?_⟩
        obtain ⟨ns, path, heard⟩ := climbs _ (.up parent outwards)
        refine ⟨ns, path, heard.trans ?_⟩
        rw [List.flatMap_cons, handlers_of_element plays, List.filterMap_append, added, List.append_assoc]
      · cases nonsense
  | @output a r tree n outermost ms flat flats around found committed stacked ih =>
      intro h firm path i place seated hangs solid
      cases seated with
      | component home _ =>
      cases hangs with
      | component placed _ =>
      -- An output without entries might be in the middle of a commit, and then nothing is known of it.
      have filled : r.output ≠ [] := fun empty => by
        rw [empty] at stacked
        cases stacked
      obtain ⟨place', tree', parent, committed', showing⟩ := houses.shows a r found filled
      cases committed.symm.trans committed'
      rw [Activations.place?_eq found] at placed
      cases placed.symm.trans parent
      have inside := houses.outputs a
      rw [Activations.output_eq found] at inside
      rw [Homes.firm_eq home] at inside showing
      exact ih inside showing solid
  | later _ ih =>
      intro h firm path i place seated hangs solid
      obtain ⟨flat, flats, same, -, others⟩ := hangs.uncons
      cases same
      exact ih seated.tail others solid

end Climbing

section Calling

/-- Handlers are called one after the other, each once, and answer whether they prevented the default. -/
inductive Answers (program : Program τ) (event : Event) :
    List Handler → Renderer Document τ → List Bool → Renderer Document τ → Prop
  | nil {s : Renderer Document τ} : Answers program event [] s [] s
  | cons {h : Handler} {rest : List Handler} {s t u : Renderer Document τ} {prevented : Bool} {others : List Bool} :
      Returns (perform (top program) (program.handler h event)) s prevented t → Answers program event rest t others u →
      Answers program event (h :: rest) s (prevented :: others) u

theorem answers_of_returns {event : Event} {hs : List Handler} {prevented : Bool}
    (returned : Returns (callHandlers program event hs) s prevented t) :
    ∃ answers, Answers program event hs s answers t ∧ (prevented = true ↔ true ∈ answers) := by
  induction hs generalizing s prevented with
  | nil =>
      obtain ⟨rfl, rfl⟩ := returns_pure.mp returned
      exact ⟨[], .nil, nofun, nofun⟩
  | cons h rest ih =>
      obtain ⟨first, u, called, later⟩ := returns_bind.mp returned
      obtain ⟨others, v, rested, ended⟩ := returns_bind.mp later
      obtain ⟨rfl, rfl⟩ := returns_pure.mp ended
      obtain ⟨answers, calls, among⟩ := ih rested
      refine ⟨first :: answers, .cons called calls, ?_⟩
      rw [Bool.or_eq_true, among, List.mem_cons, @eq_comm _ true first]

/-- If not all handlers are called, then one that is called gives up. -/
theorem answers_of_givesUp {event : Event} {hs : List Handler} {reason : Abort}
    (gaveUp : GivesUp (callHandlers program event hs) s reason) :
    ∃ before h after answers t, hs = before ++ h :: after ∧ Answers program event before s answers t ∧
      GivesUp (perform (top program) (program.handler h event)) t reason := by
  induction hs generalizing s with
  | nil => exact ((total_pure _).not_givesUp gaveUp).elim
  | cons h rest ih =>
      obtain gaveUp | ⟨first, u, called, gaveUp⟩ := givesUp_bind.mp gaveUp
      · exact ⟨[], h, rest, [], s, rfl, .nil, gaveUp⟩
      · obtain ⟨before, h', after, answers, t, rfl, calls, stopped⟩ := ih (gaveUp.of_bind fun _ => total_pure _)
        exact ⟨h :: before, h', after, first :: answers, t, rfl, .cons called calls, stopped⟩

end Calling

/-- An event at a mounted node is answered by the handlers that the elements from the node outwards were given by the
trees that are shown, one for each element that has one, and after them by whatever listens at the container and at
the nodes around it, from the inside outwards, each of which is met once. The outermost mounted node stands in the
container, or nowhere. Which handlers are called is settled before the first one is, and the default is prevented
just if one of them says so. -/
theorem Served.events_bubble {s : Renderer Document σ} {program : Program σ} (plain : program.Plain honest)
    (served : Served honest program s) :
    (∃ display : Display, Noted honest program (s.viewing (·, display))) ∧
    ∀ display : Display, Noted honest program (s.viewing (·, display)) → ∀ place n,
      (Holds s.activations (s.mounted place) n →
        ∃ around outermost, Stacked s.activations (s.mounted place) (display place) n around outermost) ∧
      ∀ around outermost, Stacked s.activations (s.mounted place) (display place) n around outermost →
        (∀ m, s.dom.parent? outermost = some m → m = place) ∧
        ((∃ steps, ((Option.bind · s.dom.parent?)^[steps]) (some outermost) = none) →
          ∃ outer, s.dom.Outwards outermost (outermost :: outer)) ∧
        ∀ outer, s.dom.Outwards outermost (outermost :: outer) → outer.Nodup ∧ ∀ category value,
          let handlers := around.filterMap (Binder.bound? category) ++ outer.flatMap (s.dom.handlers · category)
          ∃ (begun : Renderer Document σ) (event : Event),
            begun = { s with dom := s.dom.typed n value, reports := begun.reports } ∧
            event = ⟨category, n, begun.dom.value? n⟩ ∧
            (∀ answer t, Returns (Renderer.dispatch program n category value) s answer t → ∃ answers,
              Answers program event handlers begun answers t ∧ (answer = false ↔ true ∈ answers)) ∧
            ∀ reason, GivesUp (Renderer.dispatch program n category value) s reason → ∃ before h after answers t,
              handlers = before ++ h :: after ∧ Answers program event before begun answers t ∧
                GivesUp (perform (top program) (program.handler h event)) t reason := by
  refine ⟨?_, fun display noted place n => ?_⟩
  · obtain ⟨w, noted, rfl⟩ := served.noted
    exact ⟨w.store.2, noted⟩
  obtain ⟨homes, stands⟩ := noted.stands plain
  obtain ⟨k, -, seated, hangs⟩ := stands.roots place
  refine ⟨fun holds => stands.houses.exists_stacked holds seated hangs, fun around outermost stacked =>
    ⟨fun m parent => ?_, Document.exists_outwards, fun outer outwards =>
      ⟨(List.nodup_cons.mp outwards.nodup).2, fun category value => ?_⟩⟩⟩
  · obtain ⟨stands | ⟨orphan, -⟩, -⟩ := stands.houses.climbs .click stacked seated hangs nofun
    · exact Option.some.inj (parent.symm.trans stands)
    · cases orphan.symm.trans parent
  intro handlers
  obtain ⟨-, climbs⟩ := stands.houses.climbs category stacked seated hangs nofun
  obtain ⟨ns, path, heard⟩ := climbs outer outwards
  obtain ⟨reports, opened⟩ := dispatch_eq program s n category value
  rw [Document.pathHandlers_typed, show s.dom.pathHandlers n category = handlers from
    (path.pathHandlers_eq category).trans heard] at opened
  refine ⟨{ s with dom := s.dom.typed n value, reports }, _, rfl, rfl, fun answer t returned => ?_,
    fun reason gaveUp => ?_⟩
  · obtain ⟨prevented, u, called, ended⟩ := returns_bind.mp (opened.symm.trans returned)
    obtain ⟨rfl, rfl⟩ := returns_pure.mp ended
    obtain ⟨answers, calls, among⟩ := answers_of_returns called
    refine ⟨answers, calls, ?_⟩
    rw [← among, Bool.not_eq_false']
  · obtain gaveUp | ⟨_, _, _, gaveUp⟩ := givesUp_bind.mp (opened.symm.trans gaveUp)
    · exact answers_of_givesUp gaveUp
    · exact ((total_pure _).not_givesUp gaveUp).elim

instance : HasStateData (List Handler) .scalars where

/-- Handlers note that they are called. The first one also takes down what is shown, and prevents the default.
The component shows a button that has the first one. -/
def pressing : Program (List Handler) where
  component _ _ := .done (.ok (.element "button" (.ofList [("onclick", .handler ⟨0⟩)]) []))
  handler h _ := .load fun called => .store (called ++ [h]) <|
    if h = ⟨0⟩ then .unmount ⟨1⟩ fun _ => .done true else .done false

theorem plain_pressing : pressing.Plain fun _ => True where
  component _ _ := by
    rintro _ ⟨rfl⟩
    exact trivial
  handler h event := by
    intro called _
    refine ⟨trivial, ?_⟩
    split
    · exact fun _ => trivial
    · exact trivial

/-- A section shows the component, in a container that listens. A click at the button reaches all three handlers, the
section's too, although the section is gone when it is called. -/
theorem press_reaches_section :
    let attributes : List Attributes := [.ofList [("onclick", .handler ⟨0⟩)], .ofList [("onclick", .handler ⟨1⟩)]]
    ∃ (s begun t : Renderer Document (List Handler)) (answers : List Bool) (display : Display),
      Served (fun _ => True) pressing s ∧ Noted (fun _ => True) pressing (s.viewing (·, display)) ∧
        Stacked s.activations (s.mounted ⟨1⟩) (display ⟨1⟩) ⟨3⟩ attributes ⟨2⟩ ∧ s.dom.Outwards ⟨2⟩ [⟨2⟩, ⟨1⟩] ∧
        Returns (dispatch pressing ⟨3⟩ .click none) s false t ∧
        Answers pressing ⟨.click, ⟨3⟩, none⟩ [⟨0⟩, ⟨1⟩, ⟨2⟩] begun answers t ∧ true ∈ answers ∧
        t.dom.contains ⟨2⟩ = false ∧ t.store = [⟨0⟩, ⟨1⟩, ⟨2⟩] := by
  intro attributes
  let x : Action (List Handler) (Fallible Unit) :=
    .render (.element "section" (.ofList [("onclick", .handler ⟨1⟩)]) [.component ⟨⟨0, "button"⟩, none⟩]) ⟨1⟩ .done
  let steps : RenderM Document (List Handler × Display) (Bool × Bool) := do
    let _ ← perform (top pressing.noting) x.noting
    let s ← get
    let answer ← dispatch pressing.noting ⟨3⟩ .click none
    return (decide (stack? s.activations (s.mounted ⟨1⟩) (s.store.2 ⟨1⟩) ⟨3⟩ = some (attributes, ⟨2⟩) ∧
      s.dom.value? ⟨3⟩ = none ∧ s.dom.parent? ⟨2⟩ = some ⟨1⟩ ∧ s.dom.parent? ⟨1⟩ = none ∧
      s.dom.handlers ⟨1⟩ .click = [⟨2⟩]), answer)
  obtain ⟨_, _, returned, same⟩ := exists_returns steps (fun r => (r.1, r.2.dom.contains ⟨2⟩, r.2.store.1))
    (s := new (Document.empty.createContainer.2.addListener ⟨1⟩ .click ⟨2⟩).value ([], .empty))
    (b := ((true, false), false, [⟨0⟩, ⟨1⟩, ⟨2⟩])) (by decide +kernel)
  simp only [steps, returns_bind, returns_get, returns_pure] at returned
  obtain ⟨_, w, shown, _, _, ⟨rfl, rfl⟩, answer, u, dispatched, rfl, rfl⟩ := returned
  obtain ⟨before, after⟩ := Prod.mk.inj same
  obtain ⟨checked, rfl⟩ := Prod.mk.inj before
  obtain ⟨gone, called⟩ := Prod.mk.inj after
  obtain ⟨found, unvalued, within, alone, hears⟩ := of_decide_eq_true checked
  have fair : x.Plain (fun _ => True) fun _ => True := ⟨⟨trivial, trivial⟩, fun _ => trivial⟩
  have noted : Noted (fun _ => True) pressing w := .call (.new _ trivial) fair shown
  have stacked := stacked_of_stack? found
  have outwards : w.dom.Outwards ⟨2⟩ [⟨2⟩, ⟨1⟩] := .up within (.outermost alone)
  have pressed := (follows_dispatch ⟨3⟩ .click none).viewed dispatched
  obtain ⟨-, bubbles⟩ := noted.served.events_bubble plain_pressing
  obtain ⟨-, -, reaches⟩ := (bubbles w.store.2 noted ⟨1⟩ ⟨3⟩).2 _ _ stacked
  obtain ⟨begun, event, opened, rfl, answered, -⟩ := (reaches _ outwards).2 .click none
  obtain ⟨answers, calls, prevents⟩ := answered _ _ pressed
  have dom : begun.dom = w.dom := congrArg Renderer.dom opened
  have inside : attributes.filterMap (Binder.bound? .click) = [⟨0⟩, ⟨1⟩] := by decide +kernel
  have outside : ([⟨1⟩] : List NodeId).flatMap (w.dom.handlers · .click) = [⟨2⟩] := by
    rw [List.flatMap_singleton, hears]
  rw [dom, unvalued, inside] at calls
  exact ⟨_, begun, _, answers, w.store.2, noted.served, noted, stacked, outwards, pressed,
    outside ▸ calls, prevents.mp rfl, gone, called⟩

def trying (attributes : Attributes) (edit : Document → Document) (n : NodeId) :
    RenderM Document (List Handler) (Fallible Unit × Bool × Bool) := do
  let rendered ← perform (top pressing) (.render (.element "button" attributes []) ⟨1⟩ .done)
  let s ← get
  modify fun s => { s with dom := edit s.dom }
  let answer ← dispatch pressing n .click none
  return (rendered, decide (stack? s.activations (s.mounted ⟨1⟩) [.element "button" attributes []] n =
    some ([attributes], n) ∧ (s.dom.element? ⟨1⟩).map Element.listeners = some []), answer)

theorem exists_of_trying (dom : Document) (attributes : Attributes) (edit : Document → Document) (n : NodeId)
    (called : List Handler)
    (evaluated : (trying attributes edit n (new dom [])).toOption.map (fun r => (r.1, r.2.store)) =
      some ((.ok (), true, false), called)) :
    ∃ s t : Renderer Document (List Handler),
      Returns (perform (top pressing) (.render (.element "button" attributes []) ⟨1⟩ .done)) (new dom []) (.ok ()) s ∧
        Stacked s.activations (s.mounted ⟨1⟩) [.element "button" attributes []] n [attributes] n ∧
        (s.dom.element? ⟨1⟩).map Element.listeners = some [] ∧
        Returns (dispatch pressing n .click none) { s with dom := edit s.dom } false t ∧ t.store = called := by
  obtain ⟨_, _, returned, same⟩ := exists_returns _ _ evaluated
  simp only [trying, returns_bind, returns_get, returns_modify, returns_pure] at returned
  obtain ⟨rendered, s, shown, _, _, ⟨rfl, rfl⟩, _, _, rfl, answer, t, dispatched, rfl, rfl⟩ := returned
  obtain ⟨answers, after⟩ := Prod.mk.inj same
  obtain ⟨rfl, checks⟩ := Prod.mk.inj answers
  obtain ⟨checked, rfl⟩ := Prod.mk.inj checks
  obtain ⟨found, unheard⟩ := of_decide_eq_true checked
  exact ⟨_, t, shown, stacked_of_stack? found, unheard, dispatched, after⟩

/-- The button was given one handler, but two answer a click at it: if the page has put the container into a section
that listens, and if the page itself lets the button listen once more. -/
theorem outsiders_answer :
    let attributes : Attributes := .ofList [("onclick", .handler ⟨0⟩)]
    let flats : List Flat := [.element "button" attributes []]
    let x : Action (List Handler) (Fallible Unit) := .render (.element "button" attributes []) ⟨1⟩ .done
    let bare : Document := Document.empty.createContainer.2
    let section' : Document := ((bare.createElement "section").2.addListener ⟨2⟩ .click ⟨1⟩).value
    let framed : Document := (section'.insertBefore ⟨2⟩ ⟨1⟩ none).value
    [attributes].filterMap (Binder.bound? .click) = [⟨0⟩] ∧
      (∃ s t : Renderer Document (List Handler), Returns (perform (top pressing) x) (new framed []) (.ok ()) s ∧
        Stacked s.activations (s.mounted ⟨1⟩) flats ⟨3⟩ [attributes] ⟨3⟩ ∧
        (s.dom.element? ⟨1⟩).map Element.listeners = some [] ∧
        Returns (dispatch pressing ⟨3⟩ .click none) s false t ∧ t.store = [⟨0⟩, ⟨1⟩]) ∧
      ∃ s t : Renderer Document (List Handler), Returns (perform (top pressing) x) (new bare []) (.ok ()) s ∧
        Stacked s.activations (s.mounted ⟨1⟩) flats ⟨2⟩ [attributes] ⟨2⟩ ∧
        (s.dom.element? ⟨1⟩).map Element.listeners = some [] ∧
        Returns (dispatch pressing ⟨2⟩ .click none) { s with dom := (s.dom.addListener ⟨2⟩ .click ⟨1⟩).value } false t ∧
        t.store = [⟨0⟩, ⟨1⟩] := by
  intro attributes flats x bare section' framed
  let listening (d : Document) : Document := (d.addListener ⟨2⟩ .click ⟨1⟩).value
  refine ⟨by decide +kernel, ?_, ?_⟩
  · exact exists_of_trying framed attributes id ⟨3⟩ [⟨0⟩, ⟨1⟩] (by decide +kernel)
  · exact exists_of_trying bare attributes listening ⟨2⟩ [⟨0⟩, ⟨1⟩] (by decide +kernel)

end Renderer
end Patchwork
