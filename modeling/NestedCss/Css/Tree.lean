import NestedCss.Css.Basic

/-!
# The tree of the output while it grows

Statements are numbered in the order in which they are added and only know their parents, so a
statement can still get children after its siblings were added.

* `Css.Tree.add`: a statement under a parent, `Css.Tree.addBlock`: one that leaves blocks which it must
  not stand in;
* `Css.Tree.children`, `Css.Tree.lastChild?`, `Css.Tree.climb`: looking around;
* **`Css.Tree.finish`**: the statements with their blocks.
-/

namespace NestedCss.Css

variable {σ τ : Type}

/-- The number of a statement. -/
abbrev NodeId := Nat

/-- A statement of a tree. Those at the top have no parent. -/
structure Node (σ : Type) where
  head : Head σ
  groupEnd : Bool
  parent : Option NodeId
  deriving DecidableEq, Repr

/-- The statements added so far, in order. -/
structure Tree (σ : Type) where
  nodes : List (Node σ)
  deriving DecidableEq, Repr

namespace Tree

/-- The tree without statements. -/
def empty : Tree σ := ⟨[]⟩

/-! ## Looking around -/

/-- The children of a statement, or those at the top, in the order of addition. -/
def children (t : Tree σ) (parent : Option NodeId) : List NodeId :=
  t.nodes.zipIdx.filterMap fun (n, i) => if n.parent = parent then some i else none

/-- The child that was added last. -/
def lastChild? (t : Tree σ) (parent : Option NodeId) : Option NodeId := (t.children parent).getLast?

/-- The statement that a statement stands in. -/
def parent? (t : Tree σ) (i : NodeId) : Option NodeId := t.nodes[i]?.bind Node.parent

/-- Whether a statement was added behind `i` under the same parent. -/
def hasFollowingSibling (t : Tree σ) (i : NodeId) : Bool := t.lastChild? (t.parent? i) != some i

/-- The first statement from `i` upwards that does not satisfy `through`. Gives none at the top. -/
def climb (t : Tree σ) (through : Head σ → Bool) (i : NodeId) : Option NodeId :=
  match t.nodes[i]? with
  | none => some i
  | some n =>
    if through n.head then
      match n.parent with
      | none => none
      | some parent => if parent < i then t.climb through parent else none
    else some i
termination_by i

/-! ## Adding -/

/-- Adds a statement under a parent. -/
def add (t : Tree σ) (head : Head σ) (parent : Option NodeId) : NodeId × Tree σ :=
  (t.nodes.length, ⟨t.nodes ++ [⟨head, false, parent⟩]⟩)

/-- Adds a copy of a statement, without its children, under the same parent. -/
def addCopy (t : Tree σ) (i : NodeId) : NodeId × Tree σ :=
  (t.nodes.length, ⟨t.nodes ++ (t.nodes[i]?).toList⟩)

/-- Adds a statement with a block. It leaves the statements around it that satisfy `through`. If
something was added behind the one that it comes to stand in, it goes into a copy of that at the end,
so that blocks keep their order. -/
def addBlock (t : Tree σ) (head : Head σ) (parent : Option NodeId) (through : Head σ → Bool) :
    NodeId × Tree σ :=
  match parent.bind (t.climb through) with
  | none => t.add head none
  | some parent =>
    if t.hasFollowingSibling parent then
      let (copy, t) := t.addCopy parent
      t.add head (some copy)
    else t.add head (some parent)

/-- Marks the last child as the end of a group, if it can be one. -/
def endGroup (t : Tree σ) (parent : Option NodeId) : Tree σ :=
  match t.lastChild? parent with
  | none => t
  | some i => ⟨t.nodes.modify i fun n => { n with groupEnd := n.groupEnd || n.head.endsGroups }⟩

/-! ## Finishing -/

/-- The statements of a parent among statements with the parents that they have. -/
def under (parent : Option NodeId) (pending : List (Option NodeId × Css σ)) : List (Css σ) :=
  pending.filterMap fun (p, css) => if p = parent then some css else none

/-- The nodes with their blocks, where the first one has number `i`. Each keeps its parent unless that
is among the nodes and took it up. -/
def closeFrom (i : NodeId) : List (Node σ) → List (Option NodeId × Css σ)
  | [] => []
  | n :: rest =>
    let pending := closeFrom (i + 1) rest
    (n.parent, .node n.head n.groupEnd (under (some i) pending)) ::
      pending.filter fun (p, _) => p ≠ some i

/-- **The statements at the top**, each with all that was added to it. -/
def finish (t : Tree σ) : List (Css σ) := under none (closeFrom 0 t.nodes)

/-- The tree with other selector lists. -/
def map (f : σ → τ) (t : Tree σ) : Tree τ :=
  ⟨t.nodes.map fun n => ⟨n.head.map f, n.groupEnd, n.parent⟩⟩

end Tree

end NestedCss.Css
