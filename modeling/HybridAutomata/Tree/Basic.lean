import HybridAutomata.Component.Basic
import HybridAutomata.ModelError
/-!
# Component trees

All components of a model live in one arena, and one of them is the root. The arena may also hold
components that are not reachable from the root, such as copies that were not placed yet.

Looking up a handle never fails: a handle outside the arena leads to an automaton without modes. The
instance through which a component is placed is found through the component's own links.

Changes that can be refused are computations on the tree: `TreeM`.
-/

namespace HybridAutomata

/-- An arena of components with a root. -/
structure Tree (κ : Type) where
  components : Array (Component κ)
  root : Handle

namespace Tree

variable {κ : Type}

/-- The tree whose only component is the given one, freed of its links. -/
def ofRoot (root : Component κ) : Tree κ :=
  ⟨#[{ root with parent := none, instanceName := none }], ⟨0⟩⟩

/-- The number of components in the arena, whether or not they are reachable. -/
def size (tree : Tree κ) : Nat :=
  tree.components.size

/-- The component at a handle. -/
def get (tree : Tree κ) (c : Handle) : Component κ :=
  tree.components.getD c.index default

/-- The component at the root. -/
def rootComponent (tree : Tree κ) : Component κ :=
  tree.get tree.root

/-- Changes the component at a handle. -/
def modify (tree : Tree κ) (c : Handle) (f : Component κ → Component κ) : Tree κ :=
  { tree with components := tree.components.modify c.index f }

/-- The components of the instances of `c`, in order. -/
def children (tree : Tree κ) (c : Handle) : List Handle :=
  (tree.get c).children.values.map Instance.child

/-- The instance of a given name in a component. -/
def childNamed? (tree : Tree κ) (c : Handle) (name : String) : Option Instance :=
  (tree.get c).children.get? name

/-- The instance through which a component is placed, by its own links. -/
def instance? (tree : Tree κ) (c : Handle) : Option Instance :=
  match (tree.get c).parent, (tree.get c).instanceName with
  | some parent, some name => tree.childNamed? parent name
  | _, _ => none

/-- The instance through which a component is placed, and none for a component without parent. It is
an error if a component has a parent that does not know it. -/
def expectInstance (tree : Tree κ) (c : Handle) : Except (ModelError κ) (Option Instance) :=
  match (tree.get c).parent with
  | none => .ok none
  | some parent =>
    match tree.instance? c with
    | some inst => .ok (some inst)
    | none => .error (.unknownInstance (tree.get c).displayName (tree.get parent).displayName)

/-- Checks that a new instance can be placed in a component. -/
def checkPlace (tree : Tree κ) (parent : Handle) (name : String) : Except (ModelError κ) Unit :=
  match (tree.get parent).network? with
  | none => .error (.notNetwork (tree.get parent).displayName)
  | some children =>
    -- a second instance under the name would displace the first
    if children.contains name then .error (.duplicateInstance name (tree.get parent).displayName)
    else .ok ()

/-- Puts a component at the end of the arena. -/
def push (tree : Tree κ) (component : Component κ) : Tree κ :=
  { tree with components := tree.components.push component }

/-- Puts components at the end of the arena. -/
def append (tree : Tree κ) (components : List (Component κ)) : Tree κ :=
  { tree with components := tree.components ++ components }

/-- Makes a component the child of a network under a name, without asking whether it may be. -/
def link (tree : Tree κ) (parent : Handle) (name : String) (child : Handle) : Tree κ :=
  -- the links of the child, then the entry of the network
  (tree.modify child fun component =>
    { component with parent := some parent, instanceName := some name }).modify parent
    fun component => component.mapChildren fun children =>
      children.insert name { parent, child }

/-- Changes the instance of a given name in a network. -/
def modifyChild (tree : Tree κ) (parent : Handle) (name : String) (f : Instance → Instance) :
    Tree κ :=
  tree.modify parent fun component => component.mapChildren fun children => children.modify name f

/-- Changes the instance through which a component is placed, if there is one. -/
def modifyInstance (tree : Tree κ) (c : Handle) (f : Instance → Instance) : Tree κ :=
  match (tree.get c).parent, (tree.get c).instanceName with
  | some parent, some name => tree.modifyChild parent name f
  | _, _ => tree

end Tree

/-! ## Changes that can be refused -/

/-- A computation that changes a tree and may be refused; a refusal keeps the changes made so far.
-/
abbrev TreeM (κ : Type) := Change (ModelError κ) (Tree κ)

namespace Tree

variable {κ : Type}

/-- Adds a component to the arena and places it in a network. -/
def addInstance (parent : Handle) (name : String) (child : Component κ) : TreeM κ Handle := do
  let tree ← getThe (Tree κ)
  tree.checkPlace parent name
  -- the handle that the child gets when it is pushed
  let handle : Handle := ⟨tree.size⟩
  modifyThe (Tree κ) fun tree => tree.push child
  modifyThe (Tree κ) fun tree => tree.link parent name handle
  return handle

/-- Places a component of the arena in a network. -/
def attach (parent : Handle) (name : String) (copy : Handle) : TreeM κ Unit := do
  (← getThe (Tree κ)).checkPlace parent name
  modifyThe (Tree κ) fun tree => tree.link parent name copy

end Tree

/-! ## Comparing trees

Two trees are the same if the components reachable from their roots agree, whatever their handles
are and whatever else the arenas hold. Instances are matched by name.
-/

variable {κ : Type} [Scalar κ]

/-- Whether two components agree in the names they declare and bear. -/
def Component.sameDeclarations (left right : Component κ) : Bool :=
  left.instanceName == right.instanceName && left.vars == right.vars &&
    left.constants == right.constants && left.labels == right.labels &&
    TemplateLink.sameText? left.template right.template

namespace Tree

/-- Whether the components at and below two handles agree, at most `levels` levels down. -/
def sameWithin (left right : Tree κ) : (levels : Nat) → Handle → Handle → Bool
  | 0, _, _ => false
  | levels + 1, a, b =>
    (left.get a).sameDeclarations (right.get b) &&
      match (left.get a).body, (right.get b).body with
      | .base l, .base r => l == r
      | .network l, .network r =>
        l.same
          (fun li ri => li.sameBindings ri && left.sameWithin right levels li.child ri.child) r
      | _, _ => false

/-- Whether two trees agree. -/
def same (left right : Tree κ) : Bool :=
  left.sameWithin right left.size left.root right.root

instance : BEq (Tree κ) := ⟨same⟩

end Tree
end HybridAutomata
