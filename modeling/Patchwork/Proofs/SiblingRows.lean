import Mathlib.Data.List.Infix
import Patchwork.Proofs.PictureRepainting

/-! Rows of siblings. The nodes that show one position stand side by side among the children of their
parent. Where a position is repainted, its new nodes take the place of the old ones between the same
neighbours, and the rest of the children keeps its order, whoever put it there. -/
namespace Patchwork

open Picture

/-- Some of a parent's children gave way to others. All the rest stays in order, and nothing comes between
neighbours that were to stay. -/
structure Recast (old new before after : List NodeId) : Prop where
  order : after.filter (· ∉ new) = before.filter (· ∉ old)
  rows : ∀ row : List NodeId, row.Disjoint old → row <:+: before → row <:+: after

namespace Recast

variable {old new old' new' front mid back row xs ys zs : List NodeId}

theorem prefix_of_disjoint (full : mid ≠ []) (apart : row.Disjoint mid)
    (starts : row <+: front ++ (mid ++ back)) : row <+: front := by
  induction front generalizing row with
  | nil =>
      obtain ⟨x, rest, rfl⟩ := List.exists_cons_of_ne_nil full
      rcases List.prefix_cons_iff.mp starts with rfl | ⟨later, rfl, -⟩
      · exact List.nil_prefix
      · exact (apart (List.mem_cons_self ..) (List.mem_cons_self ..)).elim
  | cons x front ih =>
      rcases List.prefix_cons_iff.mp starts with rfl | ⟨later, rfl, rest⟩
      · exact List.nil_prefix
      · have apart : later.Disjoint mid := fun _ member => apart (List.mem_cons_of_mem _ member)
        exact List.cons_prefix_cons.mpr ⟨rfl, ih apart rest⟩

theorem infix_of_disjoint (apart : row.Disjoint mid) (inside : row <:+: mid ++ back) : row <:+: back := by
  induction mid with
  | nil => exact inside
  | cons x mid ih =>
      have later : row.Disjoint mid := fun _ member other => apart member (List.mem_cons_of_mem _ other)
      rcases List.infix_cons_iff.mp inside with starts | inside
      · rcases List.prefix_cons_iff.mp starts with rfl | ⟨rest, rfl, -⟩
        · exact List.nil_infix
        · exact (apart (List.mem_cons_self ..) (List.mem_cons_self ..)).elim
      · exact ih later inside

theorem infix_around (full : mid ≠ []) (apart : row.Disjoint mid) (inside : row <:+: front ++ (mid ++ back)) :
    row <:+: front ∨ row <:+: back := by
  induction front with
  | nil => exact .inr (infix_of_disjoint apart inside)
  | cons x front ih =>
      rcases List.infix_cons_iff.mp inside with starts | inside
      · have starts : row <+: (x :: front) ++ (mid ++ back) := starts
        exact .inl (prefix_of_disjoint full apart starts).isInfix
      · exact (ih inside).imp_left fun early => early.trans (List.suffix_cons x front).isInfix

theorem same (row xs : List NodeId) : Recast row row xs xs := ⟨rfl, fun _ _ => id⟩

theorem trans (one : Recast old new xs ys) (two : Recast old' new' ys zs) :
    Recast (old ++ old') (new ++ new') xs zs where
  order := by
    have both : ∀ (us vs ws : List NodeId), ws.filter (· ∉ us ++ vs) = (ws.filter (· ∉ us)).filter (· ∉ vs) := by
      intro us vs ws
      simp only [List.filter_filter, List.mem_append, not_or, Bool.decide_and, Bool.and_comm]
    have swap : ∀ (us vs ws : List NodeId), (ws.filter (· ∉ us)).filter (· ∉ vs) =
        (ws.filter (· ∉ vs)).filter (· ∉ us) := fun us vs ws => List.filter_comm ..
    rw [both, swap, two.order, swap, one.order, both]
  rows row apart inside := by
    rw [List.disjoint_append_right] at apart
    exact two.rows row apart.2 (one.rows row apart.1 inside)

theorem middle (full : mid ≠ []) (distinct : (front ++ (mid ++ back)).Nodup)
    (distinct' : (front ++ (new ++ back)).Nodup) :
    Recast mid new (front ++ (mid ++ back)) (front ++ (new ++ back)) where
  order := by
    have rest : ∀ {some : List NodeId}, (front ++ (some ++ back)).Nodup →
        (front ++ (some ++ back)).filter (· ∉ some) = front ++ back := by
      intro some distinct
      simp only [List.nodup_append', List.disjoint_append_right] at distinct
      obtain ⟨-, ⟨-, -, late⟩, early, -⟩ := distinct
      have first : front.filter (· ∉ some) = front :=
        List.filter_eq_self.mpr fun n member => decide_eq_true (early member)
      have last : back.filter (· ∉ some) = back :=
        List.filter_eq_self.mpr fun n member => decide_eq_true fun other => late other member
      have none_left : some.filter (· ∉ some) = [] :=
        List.filter_eq_nil_iff.mpr fun n member => by simp only [member, not_true, decide_false,
          Bool.false_eq_true, not_false_eq_true]
      rw [List.filter_append, List.filter_append, first, last, none_left, List.nil_append]
    rw [rest distinct, rest distinct']
  rows row apart inside := by
    rcases infix_around full apart inside with early | late
    · exact early.trans (List.prefix_append ..).isInfix
    · refine late.trans (List.suffix_append_of_suffix ?_).isInfix
      exact List.suffix_append ..

theorem atEnd (distinct : (xs ++ new).Nodup) : Recast [] new xs (xs ++ new) where
  order := by
    have late := (List.nodup_append'.mp distinct).2.2
    have first : xs.filter (· ∉ new) = xs :=
      List.filter_eq_self.mpr fun n member => decide_eq_true (late member)
    have none_left : new.filter (· ∉ new) = [] :=
      List.filter_eq_nil_iff.mpr fun n member => by simp only [member, not_true, decide_false,
        Bool.false_eq_true, not_false_eq_true]
    simp only [List.filter_append, first, none_left, List.append_nil, List.not_mem_nil, not_false_eq_true,
      decide_true, List.filter_true]
  rows row _ inside := inside.trans (List.prefix_append ..).isInfix

end Recast

namespace Canvas

variable {D : Type} [Documented D] {c c' : Canvas D} {place : NodeId} {fits : List NodeId → Prop}
  {p q : Picture} {ps qs : List Picture}

/-- What is shown at a position stands in a row. -/
def InRows (children : List NodeId) (ps : List Picture) : Prop := ∀ p ∈ ps, p.tops <:+: children

theorem inRows_cons : InRows children (p :: ps) ↔ p.tops <:+: children ∧ InRows children ps := List.forall_mem_cons

theorem InRows.within (rows : InRows xs ps) (row : xs <:+: ys) : InRows ys ps :=
  fun p member => (rows p member).trans row

theorem inRows_topsAll (ps : List Picture) : InRows (topsAll ps) ps := by
  induction ps with
  | nil => exact List.forall_mem_nil _
  | cons p rest ih =>
      rw [topsAll, inRows_cons]
      exact ⟨(List.prefix_append ..).isInfix, ih.within (List.suffix_append ..).isInfix⟩

/-- Rows that are no part of what gives way stay rows. -/
theorem InRows.recast (rows : InRows xs ps) (recast : Recast old new xs ys)
    (apart : ∀ p ∈ ps, p.tops.Disjoint old) : InRows ys ps :=
  fun p member => recast.rows p.tops (apart p member) (rows p member)

/-- Where one position that stands in a row is repainted, its neighbours stay. -/
theorem Repaints.around (hangs : Hangs place (fun _ => True) [p] c)
    (repaints : Repaints place (fun _ => True) [p] qs c c') (row : p.tops <:+: c.document.children place) :
    (∃ before after, c.document.children place = before ++ (p.tops ++ after) ∧
      c'.document.children place = before ++ (topsAll qs ++ after)) ∧
    Recast p.tops (topsAll qs) (c.document.children place) (c'.document.children place) := by
  obtain ⟨before, after, row⟩ := row
  have only : topsAll [p] = p.tops := by rw [topsAll, topsAll, List.append_nil]
  have was : c.document.children place = before ++ (p.tops ++ after) := by rw [← row, List.append_assoc]
  have becomes : c'.document.children place = before ++ (topsAll qs ++ after) :=
    repaints.children hangs trivial (by rw [only, was])
  refine ⟨⟨before, after, was, becomes⟩, ?_⟩
  have distinct := hangs.sound.linked.distinct place
  have distinct' := repaints.sound.linked.distinct place
  rw [was] at distinct ⊢
  rw [becomes] at distinct' ⊢
  exact .middle (seenAll_cons.mp hangs.shown).1.tops_ne_nil distinct distinct'

theorem Hangs.tops_apart (hangs : Hangs place fits (p :: ps) c) : ∀ q ∈ ps, q.tops.Disjoint p.tops := by
  intro q member n later first
  have distinct := hangs.distinct
  rw [nodesAll, List.nodup_append'] at distinct
  refine distinct.2.2 (mem_nodes_of_tops first) ?_
  rw [nodesAll_eq_flatMap]
  exact List.mem_flatMap.mpr ⟨q, member, mem_nodes_of_tops later⟩

theorem recasts_removeAll (hangs : Hangs place fits ps c) (rows : InRows (c.document.children place) ps) :
    Recast (topsAll ps) [] (c.document.children place) ((c.removeAll place ps).document.children place) := by
  induction ps generalizing c with
  | nil => exact .same [] _
  | cons p ps ih =>
      have parts : Hangs place fits ([p] ++ ps) c := hangs
      have first : Hangs place (fun _ => True) [p] c := parts.left fun _ _ => trivial
      have one := repaints_removeAll first
      have rest := one.right parts fun _ _ => trivial
      rw [inRows_cons] at rows
      obtain ⟨-, recast⟩ := one.around first rows.1
      have others := rows.2.recast recast hangs.tops_apart
      exact recast.trans (ih rest others)

section Redrawing
variable {as : Activations} {epoch : Nat}

/-- Redrawing a container leaves every position in a row, and the rest of the children in order. -/
theorem recasts_redrawAll (plans : List Plan) (hangs : Hangs place (·.head? = none) ps c)
    (ready : Plan.ReadyAll as epoch above plans)
    (homemade : HomemadeAll (redrawAll place none ps plans c).1)
    (rows : InRows (c.document.children place) ps) :
    InRows ((redrawAll place none ps plans c).2.document.children place) (redrawAll place none ps plans c).1 ∧
      Recast (topsAll ps) (topsAll (redrawAll place none ps plans c).1) (c.document.children place)
        ((redrawAll place none ps plans c).2.document.children place) := by
  induction plans generalizing ps c with
  | nil =>
      simp only [redrawAll]
      exact ⟨List.forall_mem_nil _, recasts_removeAll hangs rows⟩
  | cons plan plans ih =>
      cases ps with
      | nil =>
          -- What is new comes after all that is there.
          rw [redrawAll] at homemade ⊢
          have repaints := repaints_drawInto (plan :: plans) hangs ready homemade
          have last : ([] : List NodeId).head? = none := rfl
          have was : c.document.children place = c.document.children place ++ (topsAll [] ++ []) := by
            rw [topsAll, List.append_nil, List.append_nil]
          have children := repaints.children hangs last was
          rw [List.append_nil] at children
          have distinct := repaints.sound.linked.distinct place
          rw [children] at distinct ⊢
          exact ⟨(inRows_topsAll _).within (List.suffix_append ..).isInfix, .atEnd distinct⟩
      | cons p ps =>
          rw [Plan.ReadyAll] at ready
          simp only [redrawAll, HomemadeAll] at homemade ⊢
          have parts : Hangs place (·.head? = none) ([p] ++ ps) c := hangs
          have first : Hangs place (fun _ => True) [p] c := parts.left fun _ _ => trivial
          have one := repaints_redraw plan first ready.1 homemade.1
          have others := one.right parts fun _ _ => trivial
          rw [inRows_cons] at rows
          obtain ⟨⟨before, after, -, becomes⟩, recast⟩ := one.around first rows.1
          obtain ⟨inRows, later⟩ := ih others ready.2 homemade.2 (rows.2.recast recast hangs.tops_apart)
          rw [topsAll, topsAll, List.append_nil] at recast becomes
          refine ⟨inRows_cons.mpr ⟨later.rows _ ?_ ⟨before, after, ?_⟩, inRows⟩, recast.trans later⟩
          · have early := one.early parts
            rw [nodesAll, nodesAll, List.append_nil] at early
            exact fun n member later => early n (mem_nodes_of_tops member) (mem_nodesAll_of_tops later)
          · rw [becomes, List.append_assoc]

end Redrawing

section Spots

theorem InRows.middle {before after : List Picture} (hangs : Hangs place fits (before ++ p :: after) c)
    (one : Repaints place (fun _ => True) [p] [q] c c')
    (rows : InRows (c.document.children place) (before ++ p :: after)) :
    InRows (c'.document.children place) (before ++ q :: after) := by
  have here : p ∈ before ++ p :: after := List.mem_append_right _ (List.mem_cons_self ..)
  obtain ⟨⟨front, back, -, becomes⟩, recast⟩ := one.around hangs.one (rows p here)
  have distinct := hangs.distinct
  rw [nodesAll_append, nodesAll, List.nodup_append', List.nodup_append', List.disjoint_append_right] at distinct
  obtain ⟨-, ⟨-, -, late⟩, early, -⟩ := distinct
  have apart : ∀ x, x ∈ before ∨ x ∈ after → x.tops.Disjoint p.tops := by
    intro x around n member top
    have inside : ∀ {xs : List Picture}, x ∈ xs → n ∈ nodesAll xs := fun there => by
      rw [nodesAll_eq_flatMap]
      exact List.mem_flatMap.mpr ⟨x, there, mem_nodes_of_tops member⟩
    rcases around with before | after
    · exact early (inside before) (mem_nodes_of_tops top)
    · exact late (mem_nodes_of_tops top) (inside after)
  intro x member
  rcases List.mem_append.mp member with before | member
  · exact recast.rows _ (apart x (.inl before)) (rows x (List.mem_append_left _ before))
  rcases List.mem_cons.mp member with rfl | after
  · refine ⟨front, back, ?_⟩
    rw [becomes, topsAll, topsAll, List.append_nil, List.append_assoc]
  · exact recast.rows _ (apart x (.inr after)) (rows x (List.mem_append_right _ (List.mem_cons_of_mem _ after)))

theorem InRows.fill (spot : Spot) (hangs : Hangs place fits (spot.fill p) c)
    (one : Hangs (spot.place place) (fun _ => True) [p] c →
      Repaints (spot.place place) (fun _ => True) [p] [q] c c')
    (rows : InRows (c.document.children place) (spot.fill p)) :
    InRows (c'.document.children place) (spot.fill q) := by
  cases spot with
  | here before after => exact rows.middle hangs (one hangs.one)
  | element before n tag attributes inner after =>
      exact rows.middle hangs (repaints_fill (.element [] n tag attributes inner []) hangs.one one)
  | component before a mounted props tree inner after =>
      exact rows.middle hangs (repaints_fill (.component [] a mounted props tree inner []) hangs.one one)

/-- What is at a spot stands in a row if all positions do. -/
theorem InRows.at_spot {d : Document} {binder : Binder} (spot : Spot) (shown : SeenAll d binder (spot.fill p))
    (rows : InRows (d.children outer) (spot.fill p)) : p.tops <:+: d.children (spot.place outer) := by
  induction spot generalizing outer with
  | here before after => exact rows p (List.mem_append_right _ (List.mem_cons_self ..))
  | element before n tag attributes inner after ih =>
      have whole := seenAll_iff.mp shown (.element n tag attributes (inner.fill p))
        (List.mem_append_right _ (List.mem_cons_self ..))
      obtain ⟨-, children, inside⟩ := seen_element.mp whole
      exact ih inside (children ▸ inRows_topsAll _)
  | component before a c props tree inner after ih =>
      have here : Picture.component a c props tree (inner.fill p) ∈
          Spot.fill p (.component before a c props tree inner after) :=
        List.mem_append_right _ (List.mem_cons_self ..)
      have row := rows _ here
      rw [tops] at row
      exact ih (seen_component.mp (seenAll_iff.mp shown _ here)).2 ((inRows_topsAll _).within row)

end Spots

end Canvas
end Patchwork
