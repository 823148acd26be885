import Patchwork.Tree

/-! Plans: what is to be done at each position of a list of children, with every component on the way
already invoked. Carrying out a plan cannot fail. -/
namespace Patchwork

/-- What is to stand at one position. `reuse` keeps what is there. -/
inductive Plan
  | text (s : String) (reuse : Bool)
  | element (tag : String) (attributes : Attributes) (children : List Plan) (reuse : Bool)
  /-- The result of invoking a component. A fresh activation was never placed. -/
  | component (activation : ActivationId) (fresh : Bool) (component : Component) (props : Props)
      (tree : Tree) (output : List Plan)
  | raw (node : RawNode) (reuse : Bool)
deriving Inhabited

/-- What an activation's invocation gave, before it takes effect. -/
structure Rendered where
  activation : ActivationId
  component : Component
  props : Props
  tree : Tree
  output : List Plan

def Rendered.plan (r : Rendered) (fresh : Bool) : Plan :=
  .component r.activation fresh r.component r.props r.tree r.output

end Patchwork
