import HybridAutomata.Tree.Basic
/-!
# Walking through a tree

The components at and below a component are visited with a list of pending handles: the first one
is visited and its children are put in front of the others. Each pending handle carries the number
of levels that may still be opened, itself included. No path without repetition is longer than the
arena, so with the arena's size to begin with a tree without cycles is visited completely.

* `visit_eq_flatMap`   a visit goes through the pending components in preorder
* `descendants_eq`     so the descendants of a component are its preorder
-/

namespace HybridAutomata.Tree

variable {κ : Type}

/-- The number of steps that a visit of one pending handle takes. -/
def weight (tree : Tree κ) : (levels : Nat) → Handle → Nat
  | 0, _ => 1
  | levels + 1, c =>
    (tree.children c).foldr (fun child total => tree.weight levels child + total) 1

/-- The number of steps that a visit of all pending handles takes. -/
def weightAll (tree : Tree κ) (pending : List (Nat × Handle)) : Nat :=
  pending.foldr (fun entry total => tree.weight entry.1 entry.2 + total) 0

/-- `weightAll` is the sum of the weights. -/
theorem weightAll_cons (tree : Tree κ) (entry : Nat × Handle) (pending : List (Nat × Handle)) :
    tree.weightAll (entry :: pending) = tree.weight entry.1 entry.2 + tree.weightAll pending :=
  rfl

/-- Opening a handle leaves one step less to go. -/
theorem weightAll_children (tree : Tree κ) (levels : Nat) (c : Handle)
    (pending : List (Nat × Handle)) :
    tree.weight (levels + 1) c + tree.weightAll pending =
      tree.weightAll ((tree.children c).map (levels, ·) ++ pending) + 1 := by
  rw [weight]
  induction tree.children c with
  | nil => exact Nat.add_comm 1 _
  | cons child rest ih =>
    rw [List.foldr_cons, List.map_cons, List.cons_append, weightAll_cons, Nat.add_assoc, ih,
      Nat.add_assoc]

/-- Visits pending components, the first one first and its children before the others. -/
def visit (tree : Tree κ) : List (Nat × Handle) → List Handle
  | [] => []
  | (0, _) :: pending => tree.visit pending
  | (levels + 1, c) :: pending =>
    c :: tree.visit ((tree.children c).map (levels, ·) ++ pending)
termination_by pending => tree.weightAll pending
decreasing_by
  · rw [weightAll_cons, weight]
    omega
  · rw [weightAll_cons, weightAll_children]
    exact Nat.lt_succ_self _

/-- A component and all components below it, in preorder. -/
def descendants (tree : Tree κ) (c : Handle) : List Handle :=
  tree.visit [(tree.size, c)]

/-- The automata that are reachable from the root, in preorder. -/
def baseComponents (tree : Tree κ) : List Handle :=
  (tree.descendants tree.root).filter fun c => (tree.get c).isBase

/-! ## The order of a visit -/

/-- The components at and below `c` in preorder, down to a number of levels. -/
def preorder (tree : Tree κ) : (levels : Nat) → Handle → List Handle
  | 0, _ => []
  | levels + 1, c => c :: (tree.children c).flatMap (tree.preorder levels)

/-- A visit goes through the pending components in preorder. -/
theorem visit_eq_flatMap (tree : Tree κ) (pending : List (Nat × Handle)) :
    tree.visit pending = pending.flatMap fun entry => tree.preorder entry.1 entry.2 := by
  fun_induction visit tree pending with
  | case1 => simp
  | case2 c pending ih => simp [ih, preorder]
  | case3 levels c pending ih =>
    simp [ih, preorder, List.flatMap_append, List.flatMap_map]

/-- The `descendants` of a component are its `preorder`, as many levels deep as the arena is large.
-/
theorem descendants_eq (tree : Tree κ) (c : Handle) :
    tree.descendants c = tree.preorder tree.size c := by
  simp [descendants, visit_eq_flatMap]

/-! ## What automata there are -/

/-- Whether the root is an automaton. -/
def isFlat (tree : Tree κ) : Bool :=
  tree.rootComponent.isBase

/-- Whether some automaton has an urgent mode. -/
def hasUrgentMode (tree : Tree κ) : Bool :=
  tree.baseComponents.any fun c => (tree.get c).automaton?.any Automaton.hasUrgentMode

/-- Whether some automaton has a flow or a reset that is not determined. -/
def isNondeterministic [Scalar κ] (tree : Tree κ) : Bool :=
  tree.baseComponents.any fun c => (tree.get c).automaton?.any Automaton.isNondeterministic

end HybridAutomata.Tree
