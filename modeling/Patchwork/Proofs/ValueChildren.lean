import Patchwork.Template
import Patchwork.Tree.Flat

/-! A value stands for the same children wherever it is turned into children: at a site in text, where lists are
spliced in as they are met, and as a child of its own, where they become fragments. Both ways come to what the
leaves of the value stand for, or fail at the first leaf that stands for none. -/
namespace Patchwork

namespace Tree

mutual

/-- The trees at the positions that a tree occupies in its parent. Fragments are spliced in, and a text is what
it is displayed as. -/
def positions : Tree → List Tree
  | fragment children => positionsOfAll children
  | text p => [.text (.text p.display)]
  | t => [t]

def positionsOfAll : List Tree → List Tree
  | [] => []
  | t :: rest => positions t ++ positionsOfAll rest

end

theorem positionsOfAll_append (ts us : List Tree) :
    positionsOfAll (ts ++ us) = positionsOfAll ts ++ positionsOfAll us := by
  induction ts with
  | nil => rfl
  | cons t ts ih => rw [List.cons_append, positionsOfAll, positionsOfAll, ih, List.append_assoc]

theorem flattenAll_append (ts us : List Tree) : flattenAll (ts ++ us) = flattenAll ts ++ flattenAll us := by
  induction ts with
  | nil => rfl
  | cons t ts ih => rw [List.cons_append, flattenAll, flattenAll, ih, List.append_assoc]

mutual

theorem flattenAll_positions : ∀ t : Tree, flattenAll t.positions = t.flatten
  | element .. => by simp [positions, flatten, flattenAll]
  | fragment children => by
      rw [positions, flatten]
      exact flattenAll_positionsOfAll children
  | text p => by simp [positions, flatten, flattenAll, Primitive.display]
  | component r => by simp [positions, flatten, flattenAll]
  | raw n => by simp [positions, flatten, flattenAll]

theorem flattenAll_positionsOfAll : ∀ ts : List Tree, flattenAll (positionsOfAll ts) = flattenAll ts
  | [] => rfl
  | t :: ts => by
      rw [positionsOfAll, flattenAll_append, flattenAll_positions t, flattenAll_positionsOfAll ts, flattenAll]

end

end Tree

namespace Value

mutual

/-- The values other than lists that a value consists of, in order. -/
def leaves : Value → List Value
  | list items => leavesOfAll items
  | v => [v]

def leavesOfAll : List Value → List Value
  | [] => []
  | v :: rest => leaves v ++ leavesOfAll rest

end

/-- Whether a value is for an attribute only. -/
def isBinding : Value → Bool
  | handler _ | style _ => true
  | _ => false

def ownPositions : Value → List Tree
  | primitive p => [.text (.text p.display)]
  | tree t => t.positions
  | _ => []

/-- A conversion of values with these leaves is right: it fails at the first one that is for an attribute only,
and its answer is otherwise at the positions that the leaves stand for. -/
def Converts (leaves : List Value) (view : α → List Tree) (result : Except RenderError α) : Prop :=
  match leaves.find? isBinding with
  | some leaf => result = .error (.malformedTree leaf.shape)
  | none => ∃ a, result = .ok a ∧ view a = leaves.flatMap ownPositions

namespace Converts

variable {α β γ : Type} {ls ls' : List Value} {f : α → List Tree} {g : β → List Tree} {h : γ → List Tree}

theorem append {r : Except RenderError α} {r' : Except RenderError β} {join : α → β → γ}
    (one : Converts ls f r) (two : Converts ls' g r') (joins : ∀ a b, h (join a b) = f a ++ g b) :
    Converts (ls ++ ls') h (do return join (← r) (← r')) := by
  unfold Converts at one two ⊢
  rw [List.find?_append]
  cases first : ls.find? isBinding with
  | some leaf =>
      rw [first] at one
      subst one
      rfl
  | none =>
      rw [first] at one
      obtain ⟨a, rfl, viewed⟩ := one
      cases second : ls'.find? isBinding with
      | some leaf =>
          rw [second] at two
          subst two
          rfl
      | none =>
          rw [second] at two
          obtain ⟨b, rfl, viewed'⟩ := two
          refine ⟨join a b, rfl, ?_⟩
          rw [joins, viewed, viewed', List.flatMap_append]

theorem map {r : Except RenderError α} {wrap : α → β} (one : Converts ls f r) (wraps : ∀ a, g (wrap a) = f a) :
    Converts ls g (r.map wrap) := by
  unfold Converts at one ⊢
  split at one
  · subst one
    rfl
  · obtain ⟨a, rfl, viewed⟩ := one
    exact ⟨wrap a, rfl, (wraps a).trans viewed⟩

end Converts

theorem toTrees_cons (v : Value) (rest : List Value) (other : v.isNull = false) :
    toTrees (v :: rest) = do return (← v.toTree) :: (← toTrees rest) := by
  rw [toTrees.eq_def]
  cases v with
  | null => contradiction
  | _ =>
      dsimp only
      generalize toTree _ = converted
      cases converted with
      | error => rfl
      | ok => cases toTrees rest <;> rfl

mutual

/-- A value becomes one child, which occupies the positions of its leaves. -/
theorem converts_toTree : ∀ v : Value, Converts v.leaves Tree.positions v.toTree
  | null => ⟨_, rfl, rfl⟩
  | primitive _ => ⟨_, rfl, rfl⟩
  | tree t => ⟨t, rfl, (List.append_nil _).symm⟩
  | list items => by
      rw [leaves, toTree]
      exact (converts_toTrees items).map fun _ => rfl
  | handler _ => rfl
  | style _ => rfl

theorem converts_toTrees : ∀ vs : List Value, Converts (leavesOfAll vs) Tree.positionsOfAll (toTrees vs)
  | [] => ⟨[], rfl, rfl⟩
  | v :: rest => by
      have others := converts_toTrees rest
      cases null : v.isNull with
      | true =>
          -- A null is left out before it is converted.
          cases v with
          | null => exact others
          | _ => cases null
      | false =>
          rw [leavesOfAll, toTrees_cons v rest null]
          exact (converts_toTree v).append others fun _ _ => rfl

end

end Value

namespace Template

open Value

theorem converts_childrenOfItem (v : Value) : Converts v.leaves Tree.positionsOfAll (childrenOfItem v) := by
  cases v with
  | null => exact ⟨[], rfl, rfl⟩
  | primitive p => exact ⟨_, rfl, rfl⟩
  | tree t => cases t <;> exact ⟨_, rfl, rfl⟩
  | list items =>
      rw [childrenOfItem]
      exact (converts_toTree (.list items)).map fun t => List.append_nil t.positions
  | handler => rfl
  | style => rfl

theorem converts_childrenOfItems (vs : List Value) :
    Converts (leavesOfAll vs) Tree.positionsOfAll (childrenOfItems vs) := by
  induction vs with
  | nil => exact ⟨[], rfl, rfl⟩
  | cons v rest ih => exact (converts_childrenOfItem v).append ih Tree.positionsOfAll_append

/-- A value becomes the children that are spliced in for it. -/
theorem converts_childrenOf (v : Value) : Converts v.leaves Tree.positionsOfAll (childrenOf v) := by
  cases v with
  | list items => exact converts_childrenOfItems items
  | _ => exact converts_childrenOfItem _

/-- Spliced in or as a child of its own, a value fails at its first leaf that is for an attribute only. A value
without such leaves comes to the same positions, which are displayed alike and flattened alike. -/
theorem childrenOf_toTree (v : Value) :
    (∃ leaf, v.leaves.find? isBinding = some leaf ∧
        childrenOf v = .error (.malformedTree leaf.shape) ∧ v.toTree = .error (.malformedTree leaf.shape)) ∨
      (∀ leaf ∈ v.leaves, leaf.isBinding = false) ∧ ∃ ts t, childrenOf v = .ok ts ∧ v.toTree = .ok t ∧
        Tree.positionsOfAll ts = t.positions ∧ Tree.flattenAll ts = t.flatten := by
  have spliced := converts_childrenOf v
  have whole := converts_toTree v
  unfold Converts at spliced whole
  cases first : v.leaves.find? isBinding with
  | some leaf =>
      rw [first] at spliced whole
      exact .inl ⟨leaf, rfl, spliced, whole⟩
  | none =>
      rw [first] at spliced whole
      obtain ⟨ts, splits, shown⟩ := spliced
      obtain ⟨t, converts, shown'⟩ := whole
      have same : Tree.positionsOfAll ts = t.positions := shown.trans shown'.symm
      refine .inr ⟨fun leaf member => ?_, ts, t, splits, converts, same, ?_⟩
      · exact Bool.eq_false_iff.mpr (List.find?_eq_none.mp first leaf member)
      · calc Tree.flattenAll ts
            = Tree.flattenAll (Tree.positionsOfAll ts) := (Tree.flattenAll_positionsOfAll ts).symm
          _ = Tree.flattenAll t.positions := by rw [same]
          _ = t.flatten := Tree.flattenAll_positions t

end Template
end Patchwork
