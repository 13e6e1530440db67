import HybridAutomata.Automaton.Basic
import HybridAutomata.Binding
/-!
# Components

A component declares variables, constants and labels, and is either an automaton or a network of
instances of other components. Components live in an arena and refer to each other by handles; a
component names its parent and its own instance name, and the network around it names it again in
its entry. Nothing here forces the two to agree.
-/

namespace HybridAutomata

/-- The place of a component in an arena. -/
structure Handle where
  index : Nat
deriving DecidableEq, Repr, Inhabited

/-- Where a component came from. Instances of one template share its origin. -/
inductive TemplateLink where
  /-- The component is a template itself. -/
  | definition
  /-- The component was made from a template of that name. -/
  | instanceOf (name : String) (origin : Nat)
deriving DecidableEq, Repr

namespace TemplateLink

/-- Whether two links lead to one template. -/
def sameTemplate : TemplateLink → TemplateLink → Bool
  | definition, definition => true
  | instanceOf _ left, instanceOf _ right => left = right
  | _, _ => false

/-- Whether two links read the same, though they may lead to different templates. -/
def sameText : TemplateLink → TemplateLink → Bool
  | definition, definition => true
  | instanceOf left _, instanceOf right _ => left = right
  | _, _ => false

/-- Whether two optional links read the same. -/
def sameText? : Option TemplateLink → Option TemplateLink → Bool
  | none, none => true
  | some left, some right => sameText left right
  | _, _ => false

end TemplateLink

/-- A component placed in a network, with the bindings of its names. -/
structure Instance where
  parent : Handle
  child : Handle
  vars : List Binding := []
  consts : List Binding := []
  labels : List Binding := []
deriving DecidableEq, Repr

namespace Instance

/-- The bindings of one kind of names. -/
def bindings (inst : Instance) : NameKind → List Binding
  | .var => inst.vars
  | .const => inst.consts
  | .label => inst.labels

/-- What a name is bound to: the first binding counts. -/
def outerName? (inst : Instance) (kind : NameKind) (inner : String) : Option String :=
  ((inst.bindings kind).find? fun binding => binding.inner = inner).map Binding.outer

/-- Binds a name, behind the other bindings of its kind. -/
def bind (inst : Instance) (kind : NameKind) (inner outer : String) : Instance :=
  match kind with
  | .var => { inst with vars := inst.vars ++ [⟨inner, outer⟩] }
  | .const => { inst with consts := inst.consts ++ [⟨inner, outer⟩] }
  | .label => { inst with labels := inst.labels ++ [⟨inner, outer⟩] }

/-- Whether two instances bind the same names in the same way, in the same order. -/
def sameBindings (left right : Instance) : Bool :=
  left.vars == right.vars && left.consts == right.consts && left.labels == right.labels

end Instance

/-- What a component consists of. -/
inductive Body (κ : Type) where
  /-- An automaton. -/
  | base (automaton : Automaton κ)
  /-- A network of instances, by name. -/
  | network (children : NameMap Instance)

/-- A component: the names it declares, what it consists of, and its links. -/
structure Component (κ : Type) where
  /-- The network around it; the root has none. -/
  parent : Option Handle := none
  /-- The name of its instance; the root has none. -/
  instanceName : Option String := none
  vars : List String := []
  /-- Constants without a value get one from a binding. -/
  constants : NameMap (Option (Interval κ)) := ∅
  labels : List String := []
  template : Option TemplateLink := none
  body : Body κ

namespace Component

variable {κ : Type}

instance : Inhabited (Component κ) := ⟨{ body := .base .empty }⟩

/-- Whether a component is an automaton. -/
def isBase (component : Component κ) : Bool :=
  match component.body with
  | .base _ => true
  | .network _ => false

/-- Whether a component is a network. -/
def isNetwork (component : Component κ) : Bool :=
  !component.isBase

/-- The automaton of a component that is one. -/
def automaton? (component : Component κ) : Option (Automaton κ) :=
  match component.body with
  | .base automaton => some automaton
  | .network _ => none

/-- The instances of a component that is a network. -/
def network? (component : Component κ) : Option (NameMap Instance) :=
  match component.body with
  | .base _ => none
  | .network children => some children

/-- The instances of a component; an automaton has none. -/
def children (component : Component κ) : NameMap Instance :=
  component.network?.getD ∅

/-- What a component is called in messages. -/
def displayName (component : Component κ) : String :=
  component.instanceName.getD "<root>"

/-- The names that a component declares: variables, constants, labels. -/
def declaredNames (component : Component κ) : List String :=
  component.vars ++ component.constants.keys ++ component.labels

/-- Whether a component declares a name of a kind. -/
def declares (component : Component κ) (kind : NameKind) (name : String) : Bool :=
  match kind with
  | .var => component.vars.contains name
  | .const => component.constants.contains name
  | .label => component.labels.contains name

/-- The component without its links and, if it is a network, without its instances. -/
def detached (component : Component κ) : Component κ :=
  { component with
    parent := none
    instanceName := none
    body := match component.body with
      | .base automaton => .base automaton
      | .network _ => .network ∅ }

/-- Changes the automaton of a component that is one. -/
def mapAutomaton (component : Component κ) (f : Automaton κ → Automaton κ) : Component κ :=
  match component.body with
  | .base automaton => { component with body := .base (f automaton) }
  | .network _ => component

/-- Changes the instances of a component that is a network. -/
def mapChildren (component : Component κ) (f : NameMap Instance → NameMap Instance) :
    Component κ :=
  match component.body with
  | .base _ => component
  | .network children => { component with body := .network (f children) }

end Component
end HybridAutomata
