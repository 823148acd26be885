import Patchwork.Proofs.Outline
import Patchwork.Proofs.NodeRoles

/-! Drawing, redrawing and erasing pictures, told of the roles that nodes play. New nodes take roles up,
old ones change them or are gone, and no other node is touched, wherever any of them hangs. -/
namespace Patchwork

open Picture

namespace Canvas

variable {D : Type} [Documented D] {c c' : Canvas D} {xs : List (NodeId × Role)}

section Moving

theorem still_insertBefore (c : Canvas D) (place child : NodeId) (before : Option NodeId) :
    let c' := c.edit fun dom => Layer.insertBefore dom place child before
    (∀ n, Untouched c c' n) ∧ c'.document.issued = c.document.issued := by
  intro c'
  have document : c'.document = (c.document.insertBefore place child before).value :=
    congrArg Logged.value (Documented.insertBefore_grants c.dom place child before).granted
  obtain ⟨worn, issued⟩ := Document.worn?_insertBefore c.document place child before
  exact ⟨fun n => ⟨document ▸ worn n, rfl⟩, document ▸ issued⟩

theorem still_removeChild (c : Canvas D) (place child : NodeId) :
    let c' := c.edit fun dom => Layer.removeChild dom place child
    (∀ n, Untouched c c' n) ∧ c'.document.issued = c.document.issued := by
  intro c'
  have document : c'.document = (c.document.removeChild place child).value :=
    congrArg Logged.value (Documented.removeChild_grants c.dom place child).granted
  obtain ⟨worn, issued⟩ := Document.worn?_removeChild c.document place child
  exact ⟨fun n => ⟨document ▸ worn n, rfl⟩, document ▸ issued⟩

theorem restages_putAll (staged : Staged xs c) (place : NodeId) (before : Option NodeId)
    (ns : List NodeId) : Restages xs xs c (c.putAll place before ns) := by
  induction ns generalizing c with
  | nil => exact .refl staged
  | cons n rest ih =>
      obtain ⟨same, issued⟩ := still_insertBefore c place n before
      have one := Restages.still staged same issued
      exact one.trans (ih one.after)

theorem restages_takeAll (staged : Staged xs c) (place : NodeId) (ns : List NodeId) :
    Restages xs xs c (c.takeAll place ns) := by
  induction ns generalizing c with
  | nil => exact .refl staged
  | cons n rest ih =>
      obtain ⟨same, issued⟩ := still_removeChild c place n
      have one := Restages.still staged same issued
      exact one.trans (ih one.after)

end Moving

section Single

variable {n : NodeId} {role : Role}

theorem Restages.of_gone (staged : Staged [(n, role)] c)
    (worn : ∀ k, c'.document.worn? k = if k = n then none else c.document.worn? k)
    (binder : ∀ k : NodeId, c'.binder[k]? = if k = n then none else c.binder[k]?)
    (issued : c'.document.issued = c.document.issued) : Restages [(n, role)] [] c c' where
  before := staged
  after := by
    refine ⟨fun k late => ?_, List.forall_mem_nil _, .nil⟩
    rw [binder, staged.unbound k (issued ▸ late), ite_self]
  within _ none := (List.not_mem_nil none).elim
  gone k member _ := by
    have same : k = n := List.mem_singleton.mp member
    have nothing := worn k
    rw [if_pos same, Document.worn?, Option.map_eq_none_iff] at nothing
    exact ⟨by rw [Document.contains, nothing]; rfl, by rw [binder, if_pos same]⟩
  issued := Nat.le_of_eq issued.symm
  others k other _ := by
    have differs : k ≠ n := fun same => other (List.mem_singleton.mpr same)
    exact ⟨by rw [worn, if_neg differs], by rw [binder, if_neg differs]⟩

theorem document_release (c : Canvas D) (n : NodeId) :
    (c.release n).document = (c.document.release n).value :=
  congrArg Logged.value (Documented.release_grants c.dom n).granted

theorem restages_release (staged : Staged [(n, .text)] c) : Restages [(n, .text)] [] c (c.release n) := by
  obtain ⟨-, unbound⟩ := staged.plays _ (List.mem_singleton_self _)
  refine .of_gone staged (fun k => ?_) (fun k => ?_) ?_
  · rw [document_release, Document.worn?_release]
  · split
    next same => exact same ▸ unbound
    next => rfl
  · rw [document_release, Document.Linked.issued_release]

theorem restages_discard {tag : String} {attributes : Attributes}
    (staged : Staged [(n, .element tag attributes)] c) :
    Restages [(n, .element tag attributes)] [] c ((c.forget n).release n) := by
  obtain ⟨e, b, found, bound, wears⟩ := staged.plays _ (List.mem_singleton_self _)
  obtain ⟨e', document, unbound, -⟩ := forget_element found fun b' same => by
    cases bound.symm.trans same
    exact wears.listeners
  refine .of_gone staged (fun k => ?_) unbound ?_
  · rw [document_release, Document.worn?_release, document]
    split
    next => rfl
    next other => rw [Document.worn?, Document.worn?, Document.node?_redone, if_neg other]
  · rw [document_release, Document.Linked.issued_release, document, Document.issued_redone]

theorem restages_dress {tag : String} {old : Attributes} {e : Element} (staged : Staged [(n, role)] c)
    (found : c.document.element? n = some e)
    (wears : Binder.Wears tag old e (c.binder[n]?.getD .empty)) (attributes : Attributes) :
    Restages [(n, role)] [(n, .element tag attributes)] c (c.dress n tag attributes) := by
  obtain ⟨e', b, document, bound, wears', -⟩ := dress_element found wears attributes
  refine .of_redone staged document (fun k other => by rw [bound, if_neg other]) ⟨e', b, ?_, ?_, wears'⟩
  · rw [document, Document.element?_redone (Document.contains_of_element? found)]
  · rw [bound, if_pos rfl]

theorem restages_rewrite (staged : Staged [(n, .text)] c) (content : String) :
    Restages [(n, .text)] [(n, .text)] c (c.rewrite n content) := by
  obtain ⟨⟨old, found⟩, unbound⟩ := staged.plays _ (List.mem_singleton_self _)
  obtain ⟨document, binder, -⟩ := rewrite_text found content
  refine .of_redone staged document (fun k _ => by rw [binder]) ⟨⟨content, ?_⟩, ?_⟩
  · rw [document, Document.text?_redone (Document.contains_of_text? found)]
  · rw [binder, unbound]

theorem restages_text (staged : Staged [] c) (content : String) :
    Restages [] [((c.make (Layer.createText · content)).1, .text)] c
      (c.make (Layer.createText · content)).2 := by
  obtain ⟨number, document, binder, -⟩ := make_text c content
  rw [number]
  refine .of_created staged document binder ⟨⟨content, ?_⟩, ?_⟩
  · rw [Document.text?_eq_some, document, Document.node?_create, if_pos rfl]
    rfl
  · rw [binder, staged.unbound _ (Nat.lt_succ_self _)]

theorem restages_blank (staged : Staged [] c) (tag : String) :
    Restages [] [((c.make (Layer.createElement · tag)).1, .blank tag)] c
      (c.make (Layer.createElement · tag)).2 := by
  obtain ⟨number, document, binder, -⟩ := make_element c tag
  rw [number]
  refine .of_created staged document binder ⟨⟨_, ?_, Binder.wears_nothing tag⟩, ?_⟩
  · rw [Document.element?_eq_some, document, Document.node?_create, if_pos rfl]
    rfl
  · rw [binder, staged.unbound _ (Nat.lt_succ_self _)]

end Single

section Erasing

mutual

/-- What is erased has no role any more. -/
theorem restages_erase : ∀ {p : Picture} {c : Canvas D}, Homemade p → Staged (roles p) c →
    Restages (roles p) [] c (erase p c)
  | .text n _, c, _, staged | .missing n _, c, _, staged => by
      rw [roles] at staged ⊢
      exact restages_release staged
  | .element n tag attributes children, c, homemade, staged => by
      rw [Homemade] at homemade
      rw [roles] at staged ⊢
      have turned : Staged (rolesAll children ++ [(n, .element tag attributes)]) c :=
        staged.perm (List.perm_append_singleton ..).symm
      have whole := Restages.append turned (restages_eraseAll homemade turned.left) fun own =>
        restages_discard own
      exact whole.perm (List.perm_append_singleton ..) .nil
  | .component _ _ _ _ output, c, homemade, staged => by
      rw [Homemade] at homemade
      rw [roles] at staged ⊢
      exact restages_eraseAll homemade staged
  | .raw .., _, homemade, _ => by simp only [Homemade] at homemade

theorem restages_eraseAll : ∀ {ps : List Picture} {c : Canvas D}, HomemadeAll ps →
    Staged (rolesAll ps) c → Restages (rolesAll ps) [] c (eraseAll ps c)
  | [], _, _, staged => .refl staged
  | p :: rest, c, homemade, staged => by
      rw [HomemadeAll] at homemade
      rw [rolesAll] at staged ⊢
      exact Restages.append staged (restages_erase homemade.1 staged.left) fun others =>
        restages_eraseAll homemade.2 others

end

theorem restages_remove {p : Picture} (homemade : Homemade p) (place : NodeId) (staged : Staged (roles p) c) :
    Restages (roles p) [] c (c.remove place p) := by
  have taken := restages_takeAll staged place (tops p)
  exact taken.trans (restages_erase homemade taken.after)

theorem restages_removeAll {ps : List Picture} (homemade : HomemadeAll ps) (place : NodeId)
    (staged : Staged (rolesAll ps) c) : Restages (rolesAll ps) [] c (c.removeAll place ps) := by
  induction ps generalizing c with
  | nil => exact .refl staged
  | cons p rest ih =>
      rw [HomemadeAll] at homemade
      rw [rolesAll] at staged ⊢
      exact Restages.append staged (restages_remove homemade.1 place staged.left) fun others =>
        ih homemade.2 others

end Erasing

section Drawing

mutual

/-- What is drawn has new nodes in its roles. -/
theorem restages_draw : ∀ (plan : Plan) {c : Canvas D}, Staged [] c → Homemade (draw plan c).1 →
    Restages [] (roles (draw plan c).1) c (draw plan c).2
  | .text content _, c, staged, _ => by
      simp only [draw, roles]
      exact restages_text staged content
  | .raw node _, c, staged, homemade => by
      obtain ⟨document, binder, -⟩ := make_adopted c node
      have same := Restages.still staged
        (fun n => ⟨congrArg (Document.worn? · n) document, by rw [binder]⟩) (congrArg Document.issued document)
      rw [draw] at homemade ⊢
      cases adopted : c.make (Layer.adopt · node) with
      | mk answer w =>
      rw [adopted] at homemade same
      cases answer with
      | some there => simp only [Homemade] at homemade
      | none =>
          simp only [roles]
          exact same.trans (restages_text same.after "")
  | .element tag attributes children _, c, staged, homemade => by
      simp only [draw, Homemade, roles] at homemade ⊢
      have made := restages_blank staged tag
      generalize c.make (Layer.createElement · tag) = created at homemade made ⊢
      obtain ⟨n, w⟩ := created
      have filled := (restages_drawInto n none children made.after.nothing homemade).beside made.after
      have inside := filled.after.right
      obtain ⟨⟨e, found, wears⟩, unbound⟩ := inside.plays _ (List.mem_singleton_self _)
      have dressed := restages_dress inside found (by rw [unbound]; exact wears) attributes
      have whole := dressed.frame (filled.after.perm List.perm_append_comm)
      exact (made.trans filled).trans (whole.perm List.perm_append_comm (.refl _))
  | .component _ _ _ _ _ output, c, staged, homemade => by
      simp only [draw, Homemade, roles] at homemade ⊢
      exact restages_drawAll output staged homemade

theorem restages_drawAll : ∀ (plans : List Plan) {c : Canvas D}, Staged [] c →
    HomemadeAll (drawAll plans c).1 →
    Restages [] (rolesAll (drawAll plans c).1) c (drawAll plans c).2
  | [], c, staged, _ => .refl staged
  | plan :: rest, c, staged, homemade => by
      simp only [drawAll, HomemadeAll, rolesAll] at homemade ⊢
      have one := restages_draw plan staged homemade.1
      exact one.appear fun others => restages_drawAll rest others homemade.2

theorem restages_drawInto (place : NodeId) (before : Option NodeId) : ∀ (plans : List Plan)
    {c : Canvas D}, Staged [] c → HomemadeAll (drawInto place before plans c).1 →
    Restages [] (rolesAll (drawInto place before plans c).1) c (drawInto place before plans c).2
  | [], c, staged, _ => .refl staged
  | plan :: rest, c, staged, homemade => by
      simp only [drawInto, HomemadeAll, rolesAll] at homemade ⊢
      have one := restages_draw plan staged homemade.1
      have put := one.trans (restages_putAll one.after place before (tops (draw plan c).1))
      exact put.appear fun others => restages_drawInto place before rest others homemade.2

end

theorem restages_replace {p : Picture} {plan : Plan} (homemade : Homemade p)
    (place : NodeId) (homemade' : Homemade (c.replace place p plan).1) (staged : Staged (roles p) c) :
    Restages (roles p) (roles (c.replace place p plan).1) c (c.replace place p plan).2 := by
  have drawn := (restages_draw plan staged.nothing homemade').beside staged
  have put := restages_putAll drawn.after place p.tops.head? (tops (draw plan c).1)
  have removed := (restages_remove homemade place put.after.right).frame
    (put.after.perm List.perm_append_comm)
  exact (drawn.trans put).trans (removed.perm List.perm_append_comm (.refl _))

mutual

/-- Where a picture is redrawn, another takes over its roles. -/
theorem restages_redraw : ∀ (plan : Plan) (place : NodeId) {p : Picture} {c : Canvas D},
    Homemade p → Homemade (redraw place p plan c).1 → Staged (roles p) c →
    Restages (roles p) (roles (redraw place p plan c).1) c (redraw place p plan c).2
  | .text content true, place, p, c, homemade, homemade', staged => by
      cases p with
      | text n old | missing n raw =>
          simp only [redraw, roles] at staged ⊢
          exact restages_rewrite staged content
      | raw => simp only [Homemade] at homemade
      | element | component =>
          simp only [redraw] at homemade' ⊢
          exact restages_replace homemade place homemade' staged
  | .element tag attributes plans true, place, p, c, homemade, homemade', staged => by
      cases p with
      | raw => simp only [Homemade] at homemade
      | text | missing | component =>
          simp only [redraw] at homemade' ⊢
          exact restages_replace homemade place homemade' staged
      | element n mounted old kids =>
          rw [Homemade] at homemade
          simp only [redraw, Homemade, roles] at homemade' staged ⊢
          -- The children are redrawn before their element is dressed, so its role has to wait behind theirs.
          have turned : Staged (rolesAll kids ++ [(n, .element mounted old)]) c :=
            staged.perm (List.perm_append_singleton ..).symm
          have inner := restages_redrawAll plans n none homemade homemade' turned.left
          have whole := Restages.append turned inner fun own => by
            obtain ⟨e, b, found, bound, wears⟩ := own.plays _ (List.mem_singleton_self _)
            exact restages_dress own found (by rw [bound]; exact wears) attributes
          exact whole.perm (List.perm_append_singleton ..) (List.perm_append_singleton ..)
  | .component a made component' props tree plans, place, p, c, homemade, homemade', staged => by
      cases p with
      | raw => simp only [Homemade] at homemade
      | text | missing | element =>
          simp only [redraw] at homemade' ⊢
          exact restages_replace homemade place homemade' staged
      | component b mounted old oldTree output =>
          rw [redraw] at homemade' ⊢
          split
          next kept =>
            rw [if_pos kept] at homemade'
            simp only [Homemade, roles] at homemade homemade' staged ⊢
            exact restages_redrawAll plans place (c.after output) homemade homemade' staged
          next anew =>
            rw [if_neg anew] at homemade'
            exact restages_replace homemade place homemade' staged
  | .raw node true, place, p, c, homemade, homemade', staged => by
      cases p with
      | raw => simp only [Homemade] at homemade
      | text | missing | element | component =>
          simp only [redraw] at homemade' ⊢
          exact restages_replace homemade place homemade' staged
  | .text content false, place, p, c, homemade, homemade', staged => by
      rw [redraw_of_not_keeps rfl] at homemade' ⊢
      exact restages_replace homemade place homemade' staged
  | .raw node false, place, p, c, homemade, homemade', staged => by
      rw [redraw_of_not_keeps rfl] at homemade' ⊢
      exact restages_replace homemade place homemade' staged
  | .element tag attributes plans false, place, p, c, homemade, homemade', staged => by
      rw [redraw_of_not_keeps rfl] at homemade' ⊢
      exact restages_replace homemade place homemade' staged

theorem restages_redrawAll : ∀ (plans : List Plan) (place : NodeId) (tail : Option NodeId)
    {ps : List Picture} {c : Canvas D}, HomemadeAll ps → HomemadeAll (redrawAll place tail ps plans c).1 →
    Staged (rolesAll ps) c →
    Restages (rolesAll ps) (rolesAll (redrawAll place tail ps plans c).1) c
      (redrawAll place tail ps plans c).2
  | [], place, tail, ps, c, homemade, _, staged => by
      simp only [redrawAll, rolesAll]
      exact restages_removeAll homemade place staged
  | plan :: plans, place, tail, [], c, _, homemade', staged => by
      rw [redrawAll] at homemade' ⊢
      exact restages_drawInto place tail (plan :: plans) staged homemade'
  | plan :: plans, place, tail, p :: ps, c, homemade, homemade', staged => by
      rw [HomemadeAll] at homemade
      simp only [redrawAll, HomemadeAll, rolesAll] at homemade' staged ⊢
      exact Restages.append staged (restages_redraw plan place homemade.1 homemade'.1 staged.left)
        fun others => restages_redrawAll plans place tail homemade.2 homemade'.2 others

end

/-- What is redrawn at a spot leaves the roles around it as they are. -/
theorem restages_fill {p q : Picture} (spot : Spot) (staged : Staged (rolesAll (spot.fill p)) c)
    (one : Staged (roles p) c → Restages (roles p) (roles q) c c') :
    Restages (rolesAll (spot.fill p)) (rolesAll (spot.fill q)) c c' := by
  obtain ⟨around, perm⟩ := exists_around_roles spot
  have parts := staged.perm (perm p)
  exact ((one parts.left).frame parts).perm (perm p).symm (perm q).symm

end Drawing

end Canvas
end Patchwork
