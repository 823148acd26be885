import Patchwork.Proofs.PictureErasing
import Patchwork.Proofs.Outline
import Patchwork.Proofs.Spot

/-! Drawing pictures. New pictures are drawn apart from everything else, and hung into an element. What
hangs in an element is repainted: other pictures take its place, and the nodes that are no part of
either stay as they are. -/
namespace Patchwork

open Picture

namespace Canvas

variable {D : Type} [Documented D] {c c' c'' : Canvas D}

theorem Sound.of (sound : c.Sound) (linked : c'.document.Linked) (binder : c'.binder = c.binder)
    (issued : c.document.issued ≤ c'.document.issued) : c'.Sound where
  linked := linked
  unbound n late := by
    rw [binder]
    exact sound.unbound n (Nat.lt_of_le_of_lt issued late)

theorem index_le_issued {d : Document} (there : d.contains n = true) : n.index ≤ d.issued := by
  obtain ⟨node, found⟩ := Document.contains_iff.mp there
  exact Document.index_le_issued found

section Drawing

/-- New pictures were drawn that stand nowhere yet. All other nodes are as they were. -/
structure Draws (qs : List Picture) (c c' : Canvas D) : Prop where
  sound : c'.Sound
  shown : SeenAll c'.document c'.binder qs
  distinct : (nodesAll qs).Nodup
  new : ∀ n ∈ nodesAll qs, c.document.issued < n.index
  issued : c.document.issued ≤ c'.document.issued
  others : ∀ n, n ∉ nodesAll qs →
    c'.document.node? n = c.document.node? n ∧ c'.binder[n]? = c.binder[n]?
  orphans : ∀ n ∈ topsAll qs, c'.document.parent? n = none
  orderly : Orderly c c'

namespace Draws

variable {qs rs : List Picture}

theorem nothing (sound : c.Sound) : Draws [] c c :=
  ⟨sound, seenAll_nil.mpr trivial, .nil, fun _ none => (List.not_mem_nil none).elim, Nat.le_refl _,
    fun _ _ => ⟨rfl, rfl⟩, fun _ none => (List.not_mem_nil none).elim, .refl c⟩

theorem not_mem (draws : Draws qs c c') (there : c.document.contains n = true) : n ∉ nodesAll qs :=
  fun member => Nat.not_lt_of_le (index_le_issued there) (draws.new n member)

theorem node?_eq (draws : Draws qs c c') (there : c.document.contains n = true) :
    c'.document.node? n = c.document.node? n := (draws.others n (draws.not_mem there)).1

theorem append (one : Draws qs c c') (two : Draws rs c' c'') : Draws (qs ++ rs) c c'' := by
  have old : ∀ n ∈ nodesAll qs, n ∉ nodesAll rs := fun n member =>
    two.not_mem (one.shown.contains n member)
  refine ⟨two.sound, seenAll_append.mpr ⟨one.shown.congr fun n member => ?_, two.shown⟩, ?_,
    fun n member => ?_, Nat.le_trans one.issued two.issued, fun n other => ?_, fun n member => ?_,
    one.orderly.trans two.orderly⟩
  · obtain ⟨same, bound⟩ := two.others n (old n member)
    exact ⟨Document.look_of_node? same, bound⟩
  · rw [nodesAll_append, List.nodup_append']
    exact ⟨one.distinct, two.distinct, fun n member late => old n member late⟩
  · rw [nodesAll_append, List.mem_append] at member
    exact member.elim (one.new n) fun late => Nat.lt_of_le_of_lt one.issued (two.new n late)
  · rw [nodesAll_append, List.mem_append, not_or] at other
    obtain ⟨same, bound⟩ := one.others n other.1
    obtain ⟨same', bound'⟩ := two.others n other.2
    exact ⟨same'.trans same, bound'.trans bound⟩
  · rw [topsAll_append, List.mem_append] at member
    rcases member with early | late
    · rw [Document.parent?, (two.others n (old n (mem_nodesAll_of_tops early))).1]
      exact one.orphans n early
    · exact two.orphans n late

end Draws

theorem sound_create (sound : c.Sound) (document : c'.document = (c.document.create content).2)
    (binder : c'.binder = c.binder) : c'.Sound :=
  sound.of (document ▸ sound.linked.create content) binder (by
    rw [document, Document.issued_create]
    exact Nat.le_succ _)

theorem created (sound : c.Sound) (document : c'.document = (c.document.create content).2)
    (binder : c'.binder = c.binder) :
    c'.document.node? ⟨c.document.issued + 1⟩ = some ⟨content, none, #[]⟩ ∧
      c'.binder[(⟨c.document.issued + 1⟩ : NodeId)]? = none ∧
      ∀ n : NodeId, n ≠ ⟨c.document.issued + 1⟩ →
        c'.document.node? n = c.document.node? n ∧ c'.binder[n]? = c.binder[n]? := by
  refine ⟨?_, ?_, fun n other => ⟨?_, by rw [binder]⟩⟩
  · rw [document, Document.node?_create, if_pos rfl]
  · rw [binder]
    exact sound.unbound _ (Nat.lt_succ_self _)
  · rw [document, Document.node?_create, if_neg other]

theorem draws_created (sound : c.Sound) (document : c'.document = (c.document.create content).2)
    (binder : c'.binder = c.binder) (orderly : Orderly c c') {p : Picture}
    (all : p.nodes = [⟨c.document.issued + 1⟩]) (top : p.tops = [⟨c.document.issued + 1⟩])
    (shown : Seen c'.document c'.binder p) : Draws [p] c c' := by
  obtain ⟨found, -, others⟩ := created sound document binder
  refine ⟨sound_create sound document binder, seenAll_cons.mpr ⟨shown, seenAll_nil.mpr trivial⟩,
    ?_, ?_, ?_, ?_, ?_, orderly⟩
  · rw [nodesAll, nodesAll, List.append_nil, all]
    exact List.nodup_singleton _
  · rw [nodesAll, nodesAll, List.append_nil, all]
    exact fun n member => List.mem_singleton.mp member ▸ Nat.lt_succ_self _
  · rw [document, Document.issued_create]
    exact Nat.le_succ _
  · rw [nodesAll, nodesAll, List.append_nil, all]
    exact fun n other => others n fun same => other (List.mem_singleton.mpr same)
  · rw [topsAll, topsAll, List.append_nil, top]
    intro n member
    rw [List.mem_singleton.mp member, Document.parent?_eq found]

theorem textAt_created (sound : c.Sound)
    (document : c'.document = (c.document.create (.text content)).2) (binder : c'.binder = c.binder) :
    TextAt c'.document c'.binder ⟨c.document.issued + 1⟩ content := by
  obtain ⟨found, unbound, -⟩ := created sound document binder
  refine ⟨?_, ?_, unbound⟩
  · rw [Document.text?_eq_some, found, Option.map_some]
  · rw [Document.children_eq found]

end Drawing

section Repainting

/-- Pictures hang in an element among others; what comes after them fits. -/
structure Hangs (place : NodeId) (fits : List NodeId → Prop) (ps : List Picture) (c : Canvas D) :
    Prop where
  sound : c.Sound
  shown : SeenAll c.document c.binder ps
  distinct : (nodesAll ps).Nodup
  outside : place ∉ nodesAll ps
  holder : ∃ e, c.document.element? place = some e
  order : ∃ before after, fits after ∧
    (before ++ (topsAll ps ++ after)).Sublist (c.document.children place)

/-- Pictures that hang in an element were repainted: others hang in their place, nothing else was
changed, and nothing of what they were is left unless it is a part of the new ones. -/
structure Repaints (place : NodeId) (fits : List NodeId → Prop) (ps qs : List Picture)
    (c c' : Canvas D) : Prop where
  sound : c'.Sound
  shown : SeenAll c'.document c'.binder qs
  distinct : (nodesAll qs).Nodup
  within : ∀ n ∈ nodesAll qs, n ∈ nodesAll ps ∨ c.document.issued < n.index
  gone : ∀ n ∈ nodesAll ps, n ∉ nodesAll qs →
    c'.document.node? n = none ∧ c'.binder[n]? = none
  issued : c.document.issued ≤ c'.document.issued
  binder : ∀ n, n ∉ nodesAll ps → n ∉ nodesAll qs → c'.binder[n]? = c.binder[n]?
  others : ∀ n, n ∉ nodesAll ps → n ∉ nodesAll qs → n ≠ place →
    c'.document.node? n = c.document.node? n
  content : (c'.document.node? place).map Node.content = (c.document.node? place).map Node.content
  parent : c'.document.parent? place = c.document.parent? place
  order : ∀ before after, fits after →
    (before ++ (topsAll ps ++ after)).Sublist (c.document.children place) →
    (before ++ (topsAll qs ++ after)).Sublist (c'.document.children place)
  orderly : Orderly c c'

variable {place : NodeId} {fits : List NodeId → Prop} {ps qs rs ps' qs' : List Picture}

namespace Hangs

theorem contains (hangs : Hangs place fits ps c) : c.document.contains place = true := by
  obtain ⟨e, found⟩ := hangs.holder
  exact Document.contains_of_element? found

theorem not_late (hangs : Hangs place fits ps c) : ¬ c.document.issued < place.index :=
  Nat.not_lt_of_le (index_le_issued hangs.contains)

theorem left (hangs : Hangs place fits (ps ++ rs) c) {fits' : List NodeId → Prop}
    (one : ∀ after, fits after → fits' (topsAll rs ++ after)) : Hangs place fits' ps c := by
  have shown := seenAll_append.mp hangs.shown
  have distinct := hangs.distinct
  have outside := hangs.outside
  rw [nodesAll_append] at distinct outside
  obtain ⟨before, after, fit, sub⟩ := hangs.order
  refine ⟨hangs.sound, shown.1, (List.nodup_append'.mp distinct).1,
    fun member => outside (List.mem_append_left _ member), hangs.holder, before, topsAll rs ++ after,
    one after fit, ?_⟩
  rwa [topsAll_append, List.append_assoc] at sub

theorem of_same (hangs : Hangs place fits ps c) (dom : c'.dom = c.dom) (binder : c'.binder = c.binder) :
    Hangs place fits ps c' := by
  have document : c'.document = c.document := congrArg Documented.document dom
  obtain ⟨⟨linked, unbound⟩, shown, distinct, outside, holder, order⟩ := hangs
  refine ⟨⟨document ▸ linked, ?_⟩, ?_, distinct, outside, document ▸ holder, document ▸ order⟩
  · rw [document, binder]
    exact unbound
  · rw [document, binder]
    exact shown

end Hangs

namespace Repaints

variable {fits' : List NodeId → Prop}

theorem place_not_mem (repaints : Repaints place fits ps qs c c') (hangs : Hangs place fits ps c) :
    place ∉ nodesAll qs := fun member =>
  (repaints.within place member).elim hangs.outside hangs.not_late

theorem element? (repaints : Repaints place fits ps qs c c') :
    c'.document.element? place = c.document.element? place := by
  refine Option.ext fun e => ?_
  rw [Document.element?_eq_some, Document.element?_eq_some, repaints.content]

/-- A node that is no part of either is as it was, but for the children of the place. -/
theorem contains (repaints : Repaints place fits ps qs c c') (old : n ∉ nodesAll ps)
    (new : n ∉ nodesAll qs) : c'.document.contains n = c.document.contains n := by
  by_cases same : n = place
  · subst same
    have kept := congrArg Option.isSome repaints.content
    rwa [Option.isSome_map, Option.isSome_map] at kept
  · rw [Document.contains, Document.contains, repaints.others n old new same]

theorem parent? (repaints : Repaints place fits ps qs c c') (old : n ∉ nodesAll ps)
    (new : n ∉ nodesAll qs) : c'.document.parent? n = c.document.parent? n := by
  by_cases same : n = place
  · exact same ▸ repaints.parent
  · rw [Document.parent?, Document.parent?, repaints.others n old new same]

theorem only (repaints : Repaints place fits ps qs c c') (there : c'.document.contains n = true) :
    n ∈ nodesAll qs ∨ (n ∉ nodesAll ps ∧ c.document.contains n = true) := by
  by_cases new : n ∈ nodesAll qs
  · exact .inl new
  refine .inr ?_
  by_cases old : n ∈ nodesAll ps
  · rw [Document.contains, (repaints.gone n old new).1] at there
    cases there
  · exact ⟨old, repaints.contains old new ▸ there⟩

/-- Pictures that have nothing to do with what is repainted are shown as before. -/
theorem seenAll (repaints : Repaints place fits ps qs c c') (shown : SeenAll c.document c.binder rs)
    (apart : ∀ n ∈ nodesAll rs, n ∉ nodesAll ps) (elsewhere : place ∉ nodesAll rs) :
    SeenAll c'.document c'.binder rs :=
  shown.congr fun n member => by
    have new : n ∉ nodesAll qs := fun inside =>
      (repaints.within n inside).elim (apart n member) fun late =>
        Nat.not_lt_of_le (index_le_issued (shown.contains n member)) late
    refine ⟨Document.look_of_node? (repaints.others n (apart n member) new fun same => ?_),
      repaints.binder n (apart n member) new⟩
    exact elsewhere (same ▸ member)

theorem right (hangs : Hangs place fits (ps ++ ps') c) (repaints : Repaints place fits' ps qs c c')
    (one : ∀ after, fits after → fits' (topsAll ps' ++ after)) : Hangs place fits ps' c' := by
  have shown := (seenAll_append.mp hangs.shown).2
  have distinct := hangs.distinct
  have outside := hangs.outside
  rw [nodesAll_append] at distinct outside
  rw [List.mem_append, not_or] at outside
  obtain ⟨-, distinct, apart⟩ := List.nodup_append'.mp distinct
  obtain ⟨before, after, fit, sub⟩ := hangs.order
  refine ⟨repaints.sound,
    repaints.seenAll shown (fun n late early => apart early late) outside.2, distinct, outside.2,
    repaints.element? ▸ hangs.holder, before ++ topsAll qs, after, fit, ?_⟩
  rw [topsAll_append, List.append_assoc] at sub
  rw [List.append_assoc]
  exact repaints.order before _ (one after fit) sub

theorem early (hangs : Hangs place fits (ps ++ ps') c) (repaints : Repaints place fits' ps qs c c') :
    ∀ n ∈ nodesAll qs, n ∉ nodesAll ps' := by
  have shown := (seenAll_append.mp hangs.shown).2
  have distinct := hangs.distinct
  rw [nodesAll_append] at distinct
  intro n member later
  rcases repaints.within n member with old | new
  · exact (List.nodup_append'.mp distinct).2.2 old later
  · exact Nat.not_lt_of_le (index_le_issued (shown.contains n later)) new

/-- Lists of pictures are repainted one after the other. -/
theorem append (hangs : Hangs place fits (ps ++ ps') c) (one : Repaints place fits' ps qs c c')
    (two : Repaints place fits ps' qs' c' c'')
    (follows : ∀ after, fits after → fits' (topsAll ps' ++ after)) :
    Repaints place fits (ps ++ ps') (qs ++ qs') c c'' := by
  have first := hangs.left follows
  have second := right hangs one follows
  have apart : ∀ n ∈ nodesAll ps', n ∉ nodesAll ps := by
    have distinct := hangs.distinct
    rw [nodesAll_append] at distinct
    exact fun n late early => (List.nodup_append'.mp distinct).2.2 early late
  have elsewhere : place ∉ nodesAll qs := one.place_not_mem first
  have early : ∀ n ∈ nodesAll qs, n ∉ nodesAll ps' := one.early hangs
  have late : ∀ n ∈ nodesAll qs, n ∉ nodesAll qs' := fun n member inside =>
    (two.within n inside).elim (early n member) fun new =>
      Nat.not_lt_of_le (index_le_issued (one.shown.contains n member)) new
  refine ⟨two.sound, seenAll_append.mpr ⟨two.seenAll one.shown early elsewhere, two.shown⟩, ?_,
    fun n member => ?_, fun n member stale => ?_, Nat.le_trans one.issued two.issued,
    fun n old new => ?_, fun n old new other => ?_, two.content.trans one.content,
    two.parent.trans one.parent, fun before after fit sub => ?_, one.orderly.trans two.orderly⟩
  · rw [nodesAll_append, List.nodup_append']
    exact ⟨one.distinct, two.distinct, fun n member inside => late n member inside⟩
  · rw [nodesAll_append, List.mem_append] at member ⊢
    rcases member with member | member
    · exact (one.within n member).imp_left .inl
    · exact (two.within n member).imp .inr fun new => Nat.lt_of_le_of_lt one.issued new
  · rw [nodesAll_append, List.mem_append] at member
    rw [nodesAll_append, List.mem_append, not_or] at stale
    by_cases second : n ∈ nodesAll ps'
    · exact two.gone n second stale.2
    obtain ⟨node, bound⟩ := one.gone n (member.resolve_right second) stale.1
    refine ⟨?_, (two.binder n second stale.2).trans bound⟩
    rw [two.others n second stale.2 fun same => ?_, node]
    exact first.outside (same ▸ member.resolve_right second)
  · rw [nodesAll_append, List.mem_append, not_or] at old new
    exact (two.binder n old.2 new.2).trans (one.binder n old.1 new.1)
  · rw [nodesAll_append, List.mem_append, not_or] at old new
    exact (two.others n old.2 new.2 other).trans (one.others n old.1 new.1 other)
  · rw [topsAll_append, List.append_assoc] at sub
    have between := one.order before _ (follows after fit) sub
    rw [← List.append_assoc] at between
    have ended := two.order _ after fit between
    rwa [List.append_assoc, ← List.append_assoc (topsAll qs), ← topsAll_append] at ended

end Repaints

end Repainting

section Hanging

/-- Orphans were put among the children of an element. -/
structure Puts (place : NodeId) (before : Option NodeId) (ns : List NodeId) (c c' : Canvas D) :
    Prop where
  linked : c'.document.Linked
  binder : c'.binder = c.binder
  issued : c'.document.issued = c.document.issued
  others : ∀ n, n ∉ ns → n ≠ place → c'.document.node? n = c.document.node? n
  look : ∀ n, n ≠ place → c'.document.look n = c.document.look n
  content : (c'.document.node? place).map Node.content = (c.document.node? place).map Node.content
  parent : c'.document.parent? place = c.document.parent? place
  order : ∀ front back, back.head? = before → (front ++ back).Sublist (c.document.children place) →
    (front ++ (ns ++ back)).Sublist (c'.document.children place)
  orderly : Orderly c c'

variable {before : Option NodeId} {ns : List NodeId} {place : NodeId}

theorem puts_one {e : Element} (linked : c.document.Linked)
    (holder : c.document.element? place = some e) (there : c.document.contains n = true)
    (orphan : c.document.parent? n = none) (other : place ≠ n)
    (known : ∀ r, before = some r → r ∈ c.document.children place) :
    let c' := c.edit fun dom => Layer.insertBefore dom place n before
    c'.document = c.document.attach place n before ∧ Puts place before [n] c c' := by
  obtain ⟨document, binder, orderly⟩ := edit_insertBefore holder there orphan known
  have holds := Document.contains_of_element? holder
  refine ⟨document, ⟨?_, binder, ?_, fun k stranger elsewhere => ?_, fun k elsewhere => ?_, ?_, ?_,
    fun front back first sub => ?_, orderly⟩⟩
  · exact document ▸ linked.attach orphan there holds before
  · rw [document, Document.issued_attach]
  · rw [document, Document.node?_attach]
    rw [List.mem_singleton] at stranger
    cases c.document.node? k with
    | none => rfl
    | some node => simp only [Option.map_some, stranger, elsewhere, if_false]
  · rw [document, Document.look, Document.look, Document.node?_attach]
    cases c.document.node? k with
    | none => rfl
    | some node => simp only [Option.map_some, elsewhere, if_false]
  · rw [document, Document.node?_attach, Option.map_map]
    cases c.document.node? place <;> rfl
  · rw [document, Document.parent?_attach there, if_neg other]
  · rw [document, Document.children_attach holds, if_pos rfl]
    exact Node.sublist_placeBefore (linked.distinct place) sub first

theorem puts_putAll (linked : c.document.Linked) (holder : ∃ e, c.document.element? place = some e)
    (orphans : ∀ n ∈ ns, c.document.contains n = true ∧ c.document.parent? n = none)
    (distinct : ns.Nodup) (outside : place ∉ ns)
    (known : ∀ r, before = some r → r ∈ c.document.children place) :
    Puts place before ns c (c.putAll place before ns) := by
  induction ns generalizing c with
  | nil =>
      exact ⟨linked, rfl, rfl, fun _ _ _ => rfl, fun _ _ => rfl, rfl, rfl, fun _ _ _ sub => sub, .refl c⟩
  | cons n rest ih =>
      obtain ⟨e, found⟩ := holder
      obtain ⟨⟨there, orphan⟩, orphans⟩ := List.forall_mem_cons.mp orphans
      obtain ⟨other, distinct⟩ := List.nodup_cons.mp distinct
      rw [List.mem_cons, not_or] at outside
      obtain ⟨document, one⟩ := puts_one linked found there orphan outside.1 known
      have later := ih one.linked ⟨e, by rw [document, Document.element?_attach, found]⟩
        (fun k member => by
          have differs : k ≠ n := fun same => other (same ▸ member)
          rw [document, Document.contains_attach, Document.parent?_attach there, if_neg differs]
          exact orphans k member) distinct outside.2
        fun r same => by
          rw [document, Document.children_attach (Document.contains_of_element? found), if_pos rfl]
          exact Node.mem_placeBefore.mpr (.inr (known r same))
      rw [putAll]
      refine ⟨later.linked, later.binder.trans one.binder, later.issued.trans one.issued,
        fun k stranger elsewhere => ?_, fun k elsewhere => ?_, later.content.trans one.content,
        later.parent.trans one.parent, fun front back first sub => ?_, one.orderly.trans later.orderly⟩
      · rw [List.mem_cons, not_or] at stranger
        rw [later.others k stranger.2 elsewhere,
          one.others k (List.mem_singleton.not.mpr stranger.1) elsewhere]
      · rw [later.look k elsewhere, one.look k elsewhere]
      · have between := one.order front back first sub
        rw [← List.append_assoc] at between
        have ended := later.order _ back first between
        rwa [List.append_assoc] at ended

/-- New pictures are hung before one of the children of an element, or behind all of them. -/
theorem Draws.hung {qs : List Picture} (draws : Draws qs c c')
    (hangs : Hangs place (·.head? = before) [] c) :
    Repaints place (·.head? = before) [] qs c (c'.putAll place before (topsAll qs)) := by
  have same := draws.node?_eq hangs.contains
  obtain ⟨-, parent, children, element, -⟩ := Document.views_of_node? same
  have outside := draws.not_mem hangs.contains
  have puts : Puts place before (topsAll qs) c' (c'.putAll place before (topsAll qs)) := by
    refine puts_putAll draws.sound.linked (element ▸ hangs.holder) (fun n top => ⟨?_, ?_⟩)
      (draws.distinct.sublist (topsAll_sublist qs)) (fun top => outside (mem_nodesAll_of_tops top))
      fun r same => ?_
    · exact draws.shown.contains n (mem_nodesAll_of_tops top)
    · exact draws.orphans n top
    · obtain ⟨front, back, first, sub⟩ := hangs.order
      rw [children]
      exact sub.subset (List.mem_append_right _ (List.mem_of_head? (first.trans same)))
  refine ⟨draws.sound.of puts.linked puts.binder (Nat.le_of_eq puts.issued.symm),
    draws.shown.congr fun n member => ⟨puts.look n fun at_place => outside (at_place ▸ member), by
      rw [puts.binder]⟩, draws.distinct, fun n member => .inr (draws.new n member),
    fun _ none => (List.not_mem_nil none).elim, Nat.le_trans draws.issued (Nat.le_of_eq puts.issued.symm),
    fun n _ new => ?_, fun n _ new elsewhere => ?_, puts.content.trans (by rw [same]),
    puts.parent.trans parent, fun front back first sub => ?_, draws.orderly.trans puts.orderly⟩
  · rw [puts.binder, (draws.others n new).2]
  · rw [puts.others n (fun top => new (mem_nodesAll_of_tops top)) elsewhere, (draws.others n new).1]
  · exact puts.order front back first (by rwa [children])

end Hanging

section Dressing

variable {place : NodeId} {fits : List NodeId → Prop} {ps qs : List Picture}

/-- If the children of a place are known before pictures in it are repainted, they are known then. -/
theorem Repaints.children (hangs : Hangs place fits ps c) (repaints : Repaints place fits ps qs c c')
    {before after : List NodeId} (fit : fits after)
    (all : c.document.children place = before ++ (topsAll ps ++ after)) :
    c'.document.children place = before ++ (topsAll qs ++ after) := by
  have sub := repaints.order before after fit (all ▸ .refl _)
  refine (sub.eq_of_length_le ?_).symm
  refine (List.subperm_of_subset (repaints.sound.linked.distinct place) fun n child => ?_).length_le
  have up := repaints.sound.linked.parent_of_child child
  have outside := repaints.place_not_mem hangs
  by_cases new : n ∈ nodesAll qs
  · have top := repaints.shown.top_of_child repaints.sound.linked outside new child
    exact List.mem_append_right _ (List.mem_append_left _ top)
  by_cases old : n ∈ nodesAll ps
  · rw [Document.parent?, (repaints.gone n old new).1] at up
    cases up
  have was : n ∈ c.document.children place := hangs.sound.linked.child.mpr
    ⟨(repaints.parent? old new).symm.trans up, hangs.contains⟩
  rw [all, List.mem_append, List.mem_append] at was
  rcases was with front | top | back
  · exact List.mem_append_left _ front
  · exact absurd (mem_nodesAll_of_tops top) old
  · exact List.mem_append_right _ (List.mem_append_right _ back)

/-- If they are all the children of a place before, they are all of them then. -/
theorem Repaints.only_children (hangs : Hangs place fits ps c) (repaints : Repaints place fits ps qs c c')
    (fit : fits []) (all : c.document.children place = topsAll ps) :
    c'.document.children place = topsAll qs := by
  have whole : c.document.children place = [] ++ (topsAll ps ++ []) := by
    rw [all, List.append_nil, List.nil_append]
  rw [repaints.children hangs fit whole, List.append_nil, List.nil_append]

/-- An element whose children were repainted is given its attributes. -/
structure Dressed (p : Picture) (node : NodeId) (c c' : Canvas D) : Prop where
  sound : c'.Sound
  shown : Seen c'.document c'.binder p
  issued : c'.document.issued = c.document.issued
  others : ∀ n, n ≠ node → c'.document.node? n = c.document.node? n ∧ c'.binder[n]? = c.binder[n]?
  parent : c'.document.parent? node = c.document.parent? node
  orderly : Orderly c c'

theorem dressed {node : NodeId} {e : Element} {kids kids' : List Picture}
    (hangs : Hangs node (·.head? = none) kids c)
    (repaints : Repaints node (·.head? = none) kids kids' c c')
    (children : c.document.children node = topsAll kids)
    (found : c.document.element? node = some e)
    (wears : Binder.Wears tag old e (c.binder[node]?.getD .empty)) (attributes : Attributes) :
    Dressed (.element node tag attributes kids') node c' (c'.dress node tag attributes) := by
  have outside := repaints.place_not_mem hangs
  have found' : c'.document.element? node = some e := repaints.element?.trans found
  obtain ⟨e', b, document, bound, wears', orderly⟩ := dress_element found'
    (by rwa [repaints.binder node hangs.outside outside]) attributes
  have links := Document.links_redone c'.document node (.element e')
  have others : ∀ n, n ≠ node → (c'.dress node tag attributes).document.node? n =
      c'.document.node? n ∧ (c'.dress node tag attributes).binder[n]? = c'.binder[n]? := fun n other =>
    ⟨node?_of_redone document other, by rw [bound, if_neg other]⟩
  have kids : c'.document.children node = topsAll kids' := repaints.only_children hangs rfl children
  refine ⟨⟨document ▸ repaints.sound.linked.redone node _, fun n late => ?_⟩,
    seen_element.mpr ⟨⟨e', b, ?_, ?_, wears'⟩, ?_, repaints.shown.congr fun n member => ?_⟩, ?_, others,
    ?_, orderly⟩
  · rw [document, Document.issued_redone] at late
    have other : n ≠ node := fun same => Nat.not_lt_of_le
      (index_le_issued (Document.contains_of_element? found')) (same ▸ late)
    rw [(others n other).2]
    exact repaints.sound.unbound n late
  · rw [document, Document.element?_redone (Document.contains_of_element? found')]
  · rw [bound, if_pos rfl]
  · rw [document, (links node).2.2, kids]
  · obtain ⟨same, bound⟩ := others n fun same => outside (same ▸ member)
    exact ⟨Document.look_of_node? same, bound⟩
  · rw [document, Document.issued_redone]
  · rw [document, (links node).2.1]

end Dressing

section Pictures

theorem hangs_created (sound : c.Sound)
    (document : c'.document = (c.document.create (.element e)).2) (binder : c'.binder = c.binder) :
    Hangs ⟨c.document.issued + 1⟩ (·.head? = none) [] c' := by
  obtain ⟨found, -, -⟩ := created sound document binder
  refine ⟨sound_create sound document binder, seenAll_nil.mpr trivial, .nil, List.not_mem_nil,
    ⟨e, ?_⟩, [], [], rfl, List.nil_sublist _⟩
  rw [Document.element?_eq_some, found, Option.map_some]

/-- An element is drawn along with its children, and then given its attributes. -/
theorem draws_element {kids : List Picture} (sound : c.Sound)
    (document : c'.document =
      (c.document.create (.element ⟨Text.lower tag, .empty, .empty, none, []⟩)).2)
    (binder : c'.binder = c.binder) (orderly : Orderly c c')
    (repaints : Repaints ⟨c.document.issued + 1⟩ (·.head? = none) [] kids c' c'')
    (attributes : Attributes) :
    Draws [.element ⟨c.document.issued + 1⟩ tag attributes kids] c
      (c''.dress ⟨c.document.issued + 1⟩ tag attributes) := by
  have hangs := hangs_created sound document binder
  obtain ⟨found, unbound, others⟩ := created sound document binder
  have dressed := dressed hangs repaints (Document.children_eq found)
    (Document.element?_eq_some.mpr (by rw [found, Option.map_some]))
    (by rw [unbound]; exact Binder.wears_nothing tag) attributes
  have outside := repaints.place_not_mem hangs
  have started : c'.document.issued = c.document.issued + 1 := by
    rw [document, Document.issued_create]
  have new : ∀ n ∈ nodesAll kids, c.document.issued + 1 < n.index := fun n member =>
    started ▸ (repaints.within n member).resolve_left List.not_mem_nil
  refine ⟨dressed.sound, seenAll_cons.mpr ⟨dressed.shown, seenAll_nil.mpr trivial⟩, ?_, ?_, ?_, ?_, ?_,
    orderly.trans (repaints.orderly.trans dressed.orderly)⟩
  · rw [nodesAll, nodesAll, List.append_nil, nodes]
    exact List.nodup_cons.mpr ⟨outside, repaints.distinct⟩
  · rw [nodesAll, nodesAll, List.append_nil, nodes, List.forall_mem_cons]
    exact ⟨Nat.lt_succ_self _, fun n member => Nat.lt_trans (Nat.lt_succ_self _) (new n member)⟩
  · rw [dressed.issued]
    exact Nat.le_trans (started ▸ Nat.le_succ _) repaints.issued
  · rw [nodesAll, nodesAll, List.append_nil, nodes]
    intro n other
    rw [List.mem_cons, not_or] at other
    obtain ⟨same, bound⟩ := dressed.others n other.1
    obtain ⟨same', bound'⟩ := others n other.1
    exact ⟨same.trans ((repaints.others n List.not_mem_nil other.2 other.1).trans same'),
      bound.trans ((repaints.binder n List.not_mem_nil other.2).trans bound')⟩
  · rw [topsAll, topsAll, List.append_nil, tops]
    intro n member
    rw [List.mem_singleton.mp member, dressed.parent, repaints.parent, Document.parent?_eq found]

variable {as : Activations} {epoch : Nat}

/-- What an activation shows is never nothing. -/
theorem output_ne_nil {plans : List Plan} {tree : Tree} (shown : Plan.flats plans = tree.flattenOutput)
    (same : outlines qs = Plan.outlines plans) : qs ≠ [] := by
  rintro rfl
  refine tree.flattenOutput_ne_nil ?_
  rw [← shown, Plan.flats_eq, ← same]
  rfl

mutual

theorem draws_draw : ∀ (plan : Plan) {above : Nat} {c : Canvas D}, c.Sound →
    plan.Ready as epoch above → Homemade (draw plan c).1 → Draws [(draw plan c).1] c (draw plan c).2
  | .text content _, _, c, sound, _, _ => by
      obtain ⟨number, document, binder, orderly⟩ := make_text c content
      simp only [draw, number]
      refine draws_created sound document binder orderly rfl rfl ?_
      rw [Seen]
      exact textAt_created sound document binder
  | .raw node _, _, c, sound, _, homemade => by
      obtain ⟨document, binder, orderly⟩ := make_adopted c node
      rw [draw] at homemade ⊢
      cases adopted : c.make (Layer.adopt · node) with
      | mk answer w =>
      rw [adopted] at homemade document binder orderly
      cases answer with
      | some there => simp only [Homemade] at homemade
      | none =>
          obtain ⟨number, document', binder', orderly'⟩ := make_text w ""
          rw [document] at number document'
          have whole := binder'.trans binder
          simp only [number]
          refine draws_created sound document' whole (orderly.trans orderly') rfl rfl ?_
          rw [Seen]
          exact textAt_created sound document' whole
  | .element tag attributes children _, above, c, sound, ready, homemade => by
      rw [Plan.Ready] at ready
      obtain ⟨number, document, binder, orderly⟩ := make_element c tag
      simp only [draw, number, Homemade] at homemade ⊢
      exact draws_element sound document binder orderly
        (repaints_drawInto children (hangs_created sound document binder) ready homemade) attributes
  | .component _ _ _ _ _ output, above, c, sound, ready, homemade => by
      rw [Plan.Ready] at ready
      simp only [draw, Homemade] at homemade ⊢
      have drawn := draws_drawAll output sound ready.2.2.2 homemade
      refine { drawn with
        shown := seenAll_cons.mpr ⟨seen_component.mpr ⟨?_, drawn.shown⟩, seenAll_nil.mpr trivial⟩
        distinct := ?_, new := ?_, others := ?_, orphans := ?_ }
      · exact output_ne_nil ready.2.2.1 (drawAll_outlines output c)
      all_goals simp only [nodesAll, nodes, topsAll, tops, List.append_nil]
      · exact drawn.distinct
      · exact drawn.new
      · exact drawn.others
      · exact drawn.orphans

theorem draws_drawAll : ∀ (plans : List Plan) {above : Nat} {c : Canvas D}, c.Sound →
    Plan.ReadyAll as epoch above plans → HomemadeAll (drawAll plans c).1 →
    Draws (drawAll plans c).1 c (drawAll plans c).2
  | [], _, c, sound, _, _ => .nothing sound
  | plan :: rest, above, c, sound, ready, homemade => by
      rw [Plan.ReadyAll] at ready
      simp only [drawAll, HomemadeAll] at homemade ⊢
      have one := draws_draw plan sound ready.1 homemade.1
      exact one.append (draws_drawAll rest one.sound ready.2 homemade.2)

theorem repaints_drawInto : ∀ (plans : List Plan) {above : Nat} {place : NodeId}
    {before : Option NodeId} {c : Canvas D}, Hangs place (·.head? = before) [] c →
    Plan.ReadyAll as epoch above plans → HomemadeAll (drawInto place before plans c).1 →
    Repaints place (·.head? = before) [] (drawInto place before plans c).1 c
      (drawInto place before plans c).2
  | [], _, place, before, c, hangs, _, _ => by
      rw [drawInto]
      exact (Draws.nothing hangs.sound).hung hangs
  | plan :: rest, above, place, before, c, hangs, ready, homemade => by
      rw [Plan.ReadyAll] at ready
      simp only [drawInto, HomemadeAll] at homemade ⊢
      have one := (draws_draw plan hangs.sound ready.1 homemade.1).hung hangs
      rw [topsAll, topsAll, List.append_nil] at one
      have follows : ∀ after : List NodeId, after.head? = before →
          (topsAll [] ++ after).head? = before := fun _ first => first
      exact one.append hangs (repaints_drawInto rest (one.right hangs follows) ready.2 homemade.2)
        follows

end

end Pictures

end Canvas
end Patchwork
