import Patchwork.Tree

/-! Trees with their fragments spliced in: the list of positions that a parent's children occupy. -/
namespace Patchwork

/-- One position in a list of children. A component is one position, however much it shows. -/
inductive Flat
  | text (s : String)
  | element (tag : String) (attributes : Attributes) (children : List Flat)
  | component (reference : ComponentRef)
  | raw (node : RawNode)
deriving Inhabited

namespace Tree

mutual

def flatten : Tree → List Flat
  | element tag attributes children => [.element tag attributes (flattenAll children)]
  | fragment children => flattenAll children
  | text p => [.text p.display]
  | component reference => [.component reference]
  | raw node => [.raw node]

def flattenAll : List Tree → List Flat
  | [] => []
  | t :: rest => flatten t ++ flattenAll rest

end

/-- The positions of a component's output. There is always one, which anchors the output in its
parent. -/
def flattenOutput (t : Tree) : List Flat :=
  match t.flatten with
  | [] => [.text ""]
  | positions => positions

theorem flattenOutput_ne_nil (t : Tree) : t.flattenOutput ≠ [] := by
  unfold flattenOutput
  split <;> simp_all

end Tree
end Patchwork
