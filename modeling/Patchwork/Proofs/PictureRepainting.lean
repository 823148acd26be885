import Patchwork.Proofs.PictureDrawing

/-! Repainting pictures. Where plans are carried out on pictures that hang in an element, other pictures
come to hang in their place, and everything around them is as it was. -/
namespace Patchwork

open Picture

namespace Canvas

variable {D : Type} [Documented D] {c c' : Canvas D} {place : NodeId} {fits : List NodeId → Prop}

theorem Hangs.children (hangs : Hangs place fits ps c) :
    ∀ n ∈ topsAll ps, n ∈ c.document.children place := by
  obtain ⟨before, after, -, sub⟩ := hangs.order
  exact fun n top => sub.subset (List.mem_append_right _ (List.mem_append_left _ top))

theorem Hangs.apart (hangs : Hangs place fits ps c) {before after : List NodeId}
    (sub : (before ++ (topsAll ps ++ after)).Sublist (c.document.children place)) :
    ∀ n ∈ before ++ after, n ∉ nodesAll ps := by
  intro n around member
  have distinct := (hangs.sound.linked.distinct place).sublist sub
  have child : n ∈ c.document.children place := sub.subset (by
    rw [List.mem_append] at around
    exact around.elim (List.mem_append_left _) fun back =>
      List.mem_append_right _ (List.mem_append_right _ back))
  have top := hangs.shown.top_of_child hangs.sound.linked hangs.outside member child
  simp only [List.nodup_append', List.disjoint_append_right] at distinct
  obtain ⟨-, ⟨-, -, back⟩, front, -⟩ := distinct
  exact (List.mem_append.mp around).elim (front · top) (back top ·)

section Removing

theorem repaints_removeAll (hangs : Hangs place fits ps c) :
    Repaints place fits ps [] c (c.removeAll place ps) := by
  have linked := hangs.sound.linked
  have removes := removes_removeAll linked hangs.shown hangs.distinct hangs.outside hangs.children
  have holder := removes.element? hangs.outside
  refine ⟨⟨removes.linked, fun n late => ?_⟩, seenAll_nil.mpr trivial, .nil,
    fun _ none => (List.not_mem_nil none).elim, fun n member _ => ?_, Nat.le_of_eq removes.issued.symm,
    fun n old _ => ?_, fun n old _ elsewhere => ?_, ?_, removes.parent? hangs.outside,
    fun before after _ sub => ?_, removes.orderly⟩
  · rw [removes.issued] at late
    rw [removes.binder, hangs.sound.unbound n late, ite_self]
  · rw [removes.node?, removes.binder, if_pos member, if_pos member]
    exact ⟨rfl, rfl⟩
  · rw [removes.binder, if_neg old]
  · refine removes.node?_eq old fun x child member => ?_
    have up := linked.parent_of_child child
    rcases hangs.shown.parent linked x member with top | ⟨k, held, parent⟩
    · exact elsewhere (linked.child_unique child (hangs.children x top))
    · exact old (Option.some.inj (up.symm.trans parent) ▸ held)
  · rw [removes.node?, if_neg hangs.outside, Option.map_map]
    cases c.document.node? place <;> rfl
  · have apart := hangs.apart sub
    rw [topsAll, List.nil_append, removes.children hangs.outside]
    have whole : (before ++ after).filter (· ∉ nodesAll ps) = before ++ after :=
      List.filter_eq_self.mpr fun n around => by simpa only [decide_eq_true_eq] using apart n around
    rw [← whole]
    refine List.Sublist.filter _ (.trans ?_ sub)
    exact (List.Sublist.refl before).append (List.sublist_append_right ..)

/-- A picture is replaced by one that is drawn in front of it. -/
theorem repaints_replace {plan : Plan} {as : Activations} {epoch above : Nat}
    (hangs : Hangs place fits [p] c) (ready : plan.Ready as epoch above)
    (homemade : Homemade (draw plan c).1) :
    Repaints place fits [p] [(c.replace place p plan).1] c (c.replace place p plan).2 := by
  have full : p.tops ≠ [] := (seenAll_cons.mp hangs.shown).1.tops_ne_nil
  have follows : ∀ after, fits after → (topsAll [p] ++ after).head? = p.tops.head? := fun after _ => by
    rw [topsAll, topsAll, List.append_nil, List.head?_append_of_ne_nil _ full]
  have room : Hangs place (·.head? = p.tops.head?) [] c := hangs.left follows
  have one := (draws_draw plan hangs.sound ready homemade).hung room
  rw [topsAll, topsAll, List.append_nil] at one
  have two := repaints_removeAll (one.right hangs follows)
  exact one.append hangs two follows

end Removing

section Keeping

theorem repaints_rewrite {p q : Picture} (hangs : Hangs place fits [p] c)
    (shown : TextAt c.document c.binder n old) (nodes : p.nodes = [n]) (tops : p.tops = [n])
    (content : String) (nodes' : q.nodes = [n]) (tops' : q.tops = [n])
    (seen : ∀ d binder, Seen d binder q ↔ TextAt d binder n content) :
    Repaints place fits [p] [q] c (c.rewrite n content) := by
  obtain ⟨document, binder, orderly⟩ := rewrite_text shown.text content
  have links := Document.links_redone c.document n (.text content)
  have there := Document.contains_of_text? shown.text
  have all : nodesAll [p] = [n] ∧ nodesAll [q] = [n] := by
    simp only [nodesAll, nodes, nodes', List.append_nil, and_self]
  have issued : (c.rewrite n content).document.issued = c.document.issued := by
    rw [document, Document.issued_redone]
  have outside : place ≠ n := fun same => hangs.outside (by rw [all.1, same]; exact List.mem_singleton_self n)
  have others : ∀ k, k ≠ n → (c.rewrite n content).document.node? k = c.document.node? k := fun k other => by
    rw [document, Document.node?_redone, if_neg other]
  refine ⟨hangs.sound.of (document ▸ hangs.sound.linked.redone n _) binder (Nat.le_of_eq issued.symm),
    seenAll_cons.mpr ⟨(seen ..).mpr ⟨?_, ?_, by rw [binder, shown.unbound]⟩, seenAll_nil.mpr trivial⟩,
    all.2 ▸ List.nodup_singleton n, fun k member => .inl (all.1 ▸ all.2 ▸ member),
    fun k member stale => absurd (all.2 ▸ all.1 ▸ member) stale, Nat.le_of_eq issued.symm,
    fun k _ _ => by rw [binder], fun k old _ _ => others k fun same => ?_, by rw [others place outside],
    ?_, fun before after _ sub => ?_, orderly⟩
  · rw [document, Document.text?_redone there]
  · rw [document, (links n).2.2, shown.childless]
  · exact old (by rw [all.1, same]; exact List.mem_singleton_self n)
  · rw [document, (links place).2.1]
  · rw [document, (links place).2.2]
    rw [topsAll, topsAll, tops] at sub
    rwa [topsAll, topsAll, tops']

theorem Hangs.inside (hangs : Hangs place fits [.element n tag attributes kids] c) :
    Hangs n (·.head? = none) kids c ∧ ElementAt c.document c.binder n tag attributes ∧
      c.document.children n = topsAll kids := by
  obtain ⟨⟨e, b, found, bound, wears⟩, children, inner⟩ := seen_element.mp (seenAll_cons.mp hangs.shown).1
  have distinct := hangs.distinct
  rw [nodesAll, nodesAll, List.append_nil, nodes, List.nodup_cons] at distinct
  refine ⟨⟨hangs.sound, inner, distinct.2, distinct.1, ⟨e, found⟩, [], [], rfl, ?_⟩,
    ⟨e, b, found, bound, wears⟩, children⟩
  rw [children, List.append_nil, List.nil_append]

/-- An element whose children were repainted is in its place again once it is dressed. -/
theorem repaints_dressed {kids kids' : List Picture} {w : Canvas D}
    (hangs : Hangs place fits [.element n tag old kids] c)
    (inner : Repaints n (·.head? = none) kids kids' c c')
    (dressed : Dressed (.element n tag attributes kids') n c' w) :
    Repaints place fits [.element n tag old kids] [.element n tag attributes kids'] c w := by
  obtain ⟨inside, -, -⟩ := hangs.inside
  have outside := hangs.outside
  rw [nodesAll, nodesAll, List.append_nil, nodes, List.mem_cons, not_or] at outside
  have new : place ∉ nodesAll kids' := fun member =>
    (inner.within place member).elim outside.2 hangs.not_late
  -- The element's parent only sees that it is still there.
  have same : w.document.node? place = c.document.node? place :=
    (dressed.others place outside.1).1.trans (inner.others place outside.2 new outside.1)
  obtain ⟨-, parent, siblings, -, -⟩ := Document.views_of_node? same
  refine ⟨dressed.sound, seenAll_cons.mpr ⟨dressed.shown, seenAll_nil.mpr trivial⟩, ?_,
    fun k member => ?_, fun k member stale => ?_, ?_, fun k old new => ?_, fun k old new _ => ?_,
    by rw [same], parent, fun before after _ sub => ?_, inner.orderly.trans dressed.orderly⟩
  · rw [nodesAll, nodesAll, List.append_nil, nodes]
    exact List.nodup_cons.mpr ⟨inner.place_not_mem inside, inner.distinct⟩
  · rw [nodesAll, nodesAll, List.append_nil, nodes, List.mem_cons] at member ⊢
    exact member.elim (.inl ∘ .inl) fun kid => (inner.within k kid).imp_left .inr
  · rw [nodesAll, nodesAll, List.append_nil, nodes, List.mem_cons] at member stale
    rw [not_or] at stale
    obtain ⟨node, bound⟩ := inner.gone k (member.resolve_left stale.1) stale.2
    obtain ⟨kept, kept'⟩ := dressed.others k stale.1
    exact ⟨kept.trans node, kept'.trans bound⟩
  · rw [dressed.issued]
    exact inner.issued
  · rw [nodesAll, nodesAll, List.append_nil, nodes, List.mem_cons, not_or] at old new
    exact (dressed.others k old.1).2.trans (inner.binder k old.2 new.2)
  · rw [nodesAll, nodesAll, List.append_nil, nodes, List.mem_cons, not_or] at old new
    exact (dressed.others k old.1).1.trans (inner.others k old.2 new.2 old.1)
  · rw [siblings]
    exact sub

/-- An element that is kept has its children repainted, and then is given its attributes. -/
theorem repaints_element {kids kids' : List Picture}
    (hangs : Hangs place fits [.element n tag old kids] c)
    (inner : Repaints n (·.head? = none) kids kids' c c') (attributes : Attributes) :
    Repaints place fits [.element n tag old kids] [.element n tag attributes kids'] c
      (c'.dress n tag attributes) := by
  obtain ⟨inside, ⟨e, b, found, bound, wears⟩, children⟩ := hangs.inside
  exact repaints_dressed hangs inner
    (dressed inside inner children found (by rw [bound]; exact wears) attributes)

theorem repaints_children {kids kids' : List Picture}
    (hangs : Hangs place fits [.element n tag attributes kids] c)
    (inner : Repaints n (·.head? = none) kids kids' c c') :
    Repaints place fits [.element n tag attributes kids] [.element n tag attributes kids'] c c' := by
  obtain ⟨inside, ⟨e, b, found, bound, wears⟩, children⟩ := hangs.inside
  have all := inner.only_children inside rfl children
  refine repaints_dressed hangs inner ⟨inner.sound, seen_element.mpr ⟨⟨e, b, ?_, ?_, wears⟩, all,
    inner.shown⟩, rfl, fun _ _ => ⟨rfl, rfl⟩, rfl, .refl c'⟩
  · exact inner.element?.trans found
  · rw [inner.binder n inside.outside (inner.place_not_mem inside), bound]

theorem Hangs.around_output {output : List Picture}
    (hangs : Hangs place fits [.component a mounted props tree output] c) :
    output ≠ [] ∧ SeenAll c.document c.binder output ∧ ∃ front back,
      back.head? = c.after output ∧ c.document.children place = front ++ back ∧
        ∀ before after, (before ++ (topsAll output ++ after)).Sublist (c.document.children place) →
          (before ++ topsAll output).Sublist front ∧ after.Sublist back := by
  obtain ⟨full, inner⟩ := seen_component.mp (seenAll_cons.mp hangs.shown).1
  have linked := hangs.sound.linked
  obtain ⟨r, last⟩ := Option.ne_none_iff_exists'.mp
    (List.getLast?_eq_none_iff.not.mpr (inner.tops_ne_nil full))
  obtain ⟨init, ending⟩ := List.getLast?_eq_some_iff.mp last
  have child : r ∈ c.document.children place := hangs.children r (by
    rw [topsAll, topsAll, List.append_nil, tops, ending]
    exact List.mem_append_right _ (List.mem_singleton_self r))
  obtain ⟨front, back, children, -⟩ := List.eq_append_cons_of_mem child
  refine ⟨full, inner, front ++ [r], back, ?_, by rw [children, List.append_assoc]; rfl,
    fun before after sub => ?_⟩
  · rw [Canvas.after, last, Option.bind_some, Documented.nextSibling?_eq]
    exact (linked.nextSibling?_eq children).symm
  · have distinct := linked.distinct place
    rw [children] at sub distinct
    have ordered : ((before ++ init) ++ r :: after).Sublist (front ++ r :: back) := by
      rw [ending] at sub
      simpa only [List.append_assoc, List.singleton_append] using sub
    obtain ⟨left, right⟩ := Node.sublist_around distinct ordered
    refine ⟨?_, right⟩
    rw [ending, ← List.append_assoc]
    exact left.append (.refl _)

theorem Hangs.shows (hangs : Hangs place fits [.component a mounted props tree output] c) :
    Hangs place (·.head? = c.after output) output c := by
  obtain ⟨full, inner, front, back, first, children, around⟩ := hangs.around_output
  have distinct := hangs.distinct
  have outside := hangs.outside
  rw [nodesAll, nodesAll, List.append_nil, nodes] at distinct outside
  obtain ⟨before, after, -, sub⟩ := hangs.order
  rw [topsAll, topsAll, List.append_nil, tops] at sub
  refine ⟨hangs.sound, inner, distinct, outside, hangs.holder, before, back, first, ?_⟩
  rw [children, ← List.append_assoc]
  exact (around before after sub).1.append (.refl back)

/-- An activation that is kept has its output repainted. -/
theorem repaints_component (hangs : Hangs place fits [.component a mounted props tree output] c)
    (inner : Repaints place (·.head? = c.after output) output qs c c') (full : qs ≠ [])
    (component' : Component) (props' : Props) (tree' : Tree) :
    Repaints place fits [.component a mounted props tree output]
      [.component a component' props' tree' qs] c c' := by
  obtain ⟨-, -, front, back, first, children, around⟩ := hangs.around_output
  refine { inner with
    shown := seenAll_cons.mpr ⟨seen_component.mpr ⟨full, inner.shown⟩, seenAll_nil.mpr trivial⟩
    distinct := ?_, within := ?_, gone := ?_, binder := ?_, others := ?_, order := ?_ }
  all_goals simp only [nodesAll, nodes, topsAll, tops, List.append_nil]
  · exact inner.distinct
  · exact inner.within
  · exact inner.gone
  · exact inner.binder
  · exact inner.others
  intro before after _ sub
  obtain ⟨left, right⟩ := around before after sub
  have whole : (before ++ (topsAll output ++ back)).Sublist (c.document.children place) := by
    rw [children, ← List.append_assoc]
    exact left.append (.refl back)
  refine .trans ?_ (inner.order before back first whole)
  exact (List.Sublist.refl before).append ((List.Sublist.refl _).append right)

end Keeping

section Lists

variable {as : Activations} {epoch : Nat}

theorem redrawAll_ne_nil {plans : List Plan} (full : plans ≠ []) (place : NodeId)
    (tail : Option NodeId) (ps : List Picture) (c : Canvas D) :
    (redrawAll place tail ps plans c).1 ≠ [] := by
  cases plans with
  | nil => exact absurd rfl full
  | cons plan rest => cases ps <;> simp only [redrawAll, drawInto, ne_eq, reduceCtorEq, not_false_eq_true]

theorem output_plans_ne_nil {plans : List Plan} {tree : Tree}
    (shown : Plan.flats plans = tree.flattenOutput) : plans ≠ [] := by
  rintro rfl
  exact tree.flattenOutput_ne_nil shown.symm

mutual

theorem repaints_redraw : ∀ (plan : Plan) {above : Nat} {place : NodeId} {fits : List NodeId → Prop}
    {p : Picture} {c : Canvas D}, Hangs place fits [p] c → plan.Ready as epoch above →
    Homemade (redraw place p plan c).1 →
    Repaints place fits [p] [(redraw place p plan c).1] c (redraw place p plan c).2
  | .text content true, _, place, fits, p, c, hangs, ready, homemade => by
      have shown := (seenAll_cons.mp hangs.shown).1
      cases p with
      | text n old =>
          rw [Seen] at shown
          exact repaints_rewrite hangs shown rfl rfl content rfl rfl fun _ _ => by rw [redraw, Seen]
      | missing n raw =>
          rw [Seen] at shown
          exact repaints_rewrite hangs shown rfl rfl content rfl rfl fun _ _ => by rw [redraw, Seen]
      | raw => simp only [Seen] at shown
      | element | component =>
          simp only [redraw] at homemade ⊢
          exact repaints_replace hangs ready homemade
  | .raw node true, _, place, fits, p, c, hangs, ready, homemade => by
      have shown := (seenAll_cons.mp hangs.shown).1
      cases p with
      | raw => simp only [Seen] at shown
      | text | missing | element | component =>
          simp only [redraw] at homemade ⊢
          exact repaints_replace hangs ready homemade
  | .element tag attributes plans true, above, place, fits, p, c, hangs, ready, homemade => by
      have shown := (seenAll_cons.mp hangs.shown).1
      cases p with
      | raw => simp only [Seen] at shown
      | text | missing | component =>
          simp only [redraw] at homemade ⊢
          exact repaints_replace hangs ready homemade
      | element n mounted old kids =>
          rw [Plan.Ready] at ready
          simp only [redraw, Homemade] at homemade ⊢
          exact repaints_element hangs (repaints_redrawAll plans hangs.inside.1 ready homemade) attributes
  | .component a made component' props tree plans, above, place, fits, p, c, hangs, ready, homemade => by
      have shown := (seenAll_cons.mp hangs.shown).1
      cases p with
      | raw => simp only [Seen] at shown
      | text | missing | element =>
          simp only [redraw] at homemade ⊢
          exact repaints_replace hangs ready homemade
      | component b mounted old oldTree output =>
          rw [redraw] at homemade ⊢
          split
          next kept =>
            rw [if_pos kept] at homemade
            rw [Plan.Ready] at ready
            simp only [Homemade] at homemade
            -- An output is never empty, so there is always a last node that the new entries come after.
            have full := redrawAll_ne_nil (output_plans_ne_nil ready.2.2.1) place (c.after output) output c
            exact repaints_component hangs (repaints_redrawAll plans hangs.shows ready.2.2.2 homemade) full
              component' props tree
          next anew =>
            rw [if_neg anew] at homemade
            exact repaints_replace hangs ready homemade
  | .text content false, _, place, fits, p, c, hangs, ready, homemade => by
      rw [redraw_of_not_keeps rfl] at homemade ⊢
      exact repaints_replace hangs ready homemade
  | .raw node false, _, place, fits, p, c, hangs, ready, homemade => by
      rw [redraw_of_not_keeps rfl] at homemade ⊢
      exact repaints_replace hangs ready homemade
  | .element tag attributes plans false, _, place, fits, p, c, hangs, ready, homemade => by
      rw [redraw_of_not_keeps rfl] at homemade ⊢
      exact repaints_replace hangs ready homemade

theorem repaints_redrawAll : ∀ (plans : List Plan) {above : Nat} {place : NodeId}
    {tail : Option NodeId} {ps : List Picture} {c : Canvas D}, Hangs place (·.head? = tail) ps c →
    Plan.ReadyAll as epoch above plans → HomemadeAll (redrawAll place tail ps plans c).1 →
    Repaints place (·.head? = tail) ps (redrawAll place tail ps plans c).1 c
      (redrawAll place tail ps plans c).2
  | [], _, place, tail, ps, c, hangs, _, _ => by
      simp only [redrawAll]
      exact repaints_removeAll hangs
  | plan :: plans, _, place, tail, [], c, hangs, ready, homemade => by
      rw [redrawAll] at homemade ⊢
      exact repaints_drawInto (plan :: plans) hangs ready homemade
  | plan :: plans, _, place, tail, p :: ps, c, hangs, ready, homemade => by
      rw [Plan.ReadyAll] at ready
      simp only [redrawAll, HomemadeAll] at homemade ⊢
      have parts : Hangs place (·.head? = tail) ([p] ++ ps) c := hangs
      have first : Hangs place (fun _ => True) [p] c := parts.left fun _ _ => trivial
      have one := repaints_redraw plan first ready.1 homemade.1
      have others := one.right parts fun _ _ => trivial
      exact one.append parts (repaints_redrawAll plans others ready.2 homemade.2) fun _ _ => trivial

end

end Lists

section Spots

theorem Repaints.refl (hangs : Hangs place fits ps c) : Repaints place fits ps ps c c :=
  ⟨hangs.sound, hangs.shown, hangs.distinct, fun _ => .inl, fun _ member stale => absurd member stale,
    Nat.le_refl _, fun _ _ _ => rfl, fun _ _ _ _ => rfl, rfl, rfl, fun _ _ _ sub => sub, .refl c⟩

theorem Hangs.one {before after : List Picture} (hangs : Hangs place fits (before ++ p :: after) c) :
    Hangs place (fun _ => True) [p] c := by
  have parts : Hangs place fits (before ++ ([p] ++ after)) c := hangs
  have front : Hangs place (fun _ => True) before c := parts.left fun _ _ => trivial
  exact ((Repaints.refl front).right parts fun _ _ => trivial).left fun _ _ => trivial

/-- One of several pictures is repainted. -/
theorem repaints_middle {before after : List Picture}
    (hangs : Hangs place fits (before ++ p :: after) c)
    (one : Hangs place (fun _ => True) [p] c → Repaints place (fun _ => True) [p] [q] c c') :
    Repaints place fits (before ++ p :: after) (before ++ q :: after) c c' := by
  have parts : Hangs place fits (before ++ ([p] ++ after)) c := hangs
  have front : Hangs place (fun _ => True) before c := parts.left fun _ _ => trivial
  have rest := (Repaints.refl front).right parts fun _ _ => trivial
  have middle := one hangs.one
  have back := middle.right rest fun _ _ => trivial
  exact (Repaints.refl front).append parts
    (middle.append rest (.refl back) fun _ _ => trivial) fun _ _ => trivial

theorem Hangs.at_spot (spot : Spot) (hangs : Hangs place fits (spot.fill p) c) :
    Hangs (spot.place place) (fun _ => True) [p] c := by
  induction spot generalizing place fits with
  | here before after => exact hangs.one
  | element before n tag attributes inner after ih => exact ih hangs.one.inside.1
  | component before a mounted props tree inner after ih => exact ih hangs.one.shows

/-- What is at a spot is repainted. -/
theorem repaints_fill (spot : Spot) (hangs : Hangs place fits (spot.fill p) c)
    (one : Hangs (spot.place place) (fun _ => True) [p] c →
      Repaints (spot.place place) (fun _ => True) [p] [q] c c') :
    Repaints place fits (spot.fill p) (spot.fill q) c c' := by
  induction spot generalizing place fits with
  | here before after => exact repaints_middle hangs one
  | element before n tag attributes inner after ih =>
      exact repaints_middle hangs fun hangs => repaints_children hangs (ih hangs.inside.1 one)
  | component before a mounted props tree inner after ih =>
      refine repaints_middle hangs fun hangs =>
        repaints_component hangs (ih hangs.shows one) ?_ mounted props tree
      cases inner <;> simp only [Spot.fill, ne_eq, List.append_eq_nil_iff, reduceCtorEq, and_false,
        not_false_eq_true]

end Spots

end Canvas
end Patchwork
