import HybridAutomata.Expr.Traversal
import HybridAutomata.Pass.Workspace
/-!
# Copying an instance

An automaton in the root network is copied, and each copy is constrained like its prototype. Copy
`i` is called `<stem><i>_<instance>`; the variables and labels to which the prototype is bound get
counterparts with the same stem in the root. Names are chosen and checked before anything is
changed.
-/

namespace HybridAutomata.CopyInstance

variable {κ : Type}

/-- What to copy, how many instances there are to be in the end, and the stem of new names. -/
structure Options where
  name : String := ""
  count : Int := 2
  stem : String := "copy"
deriving DecidableEq, Repr

/-- Why a count is refused. -/
inductive CountError where
  | empty
  | invalidDigit
  | tooLarge
  | tooSmall
deriving DecidableEq, Repr

/-- The complaint. -/
def CountError.message : CountError → String
  | empty => "cannot parse integer from empty string"
  | invalidDigit => "invalid digit found in string"
  | tooLarge => "number too large to fit in target type"
  | tooSmall => "number too small to fit in target type"

/-- Reads the digits of a count, which fits in 64 bits. The first digit that is none or that leads
out of range ends the reading. -/
def readDigits (negative : Bool) (value : Nat) : List Char → Except CountError Int
  | [] => .ok (if negative then -(value : Int) else value)
  | c :: rest =>
    if !c.isDigit then .error .invalidDigit
    else
      -- the range is asked about after each digit
      let value := 10 * value + (c.toNat - '0'.toNat)
      if negative && 2 ^ 63 < value then .error .tooSmall
      else if !negative && 2 ^ 63 ≤ value then .error .tooLarge
      else readDigits negative value rest

/-- Reads a count. -/
def readCount (text : String) : Except CountError Int :=
  match text.toList with
  | [] => .error .empty
  | ['+'] => .error .invalidDigit
  | ['-'] => .error .invalidDigit
  | '+' :: digits => readDigits false 0 digits
  | '-' :: digits => readDigits true 0 digits
  | digits => readDigits false 0 digits

/-- A copy to be made: the name of its instance, its bindings, and the names of the prototype that
change in its conditions. -/
structure Plan where
  name : String
  vars : List Binding
  labels : List Binding
  renames : NameMap String

/-- The copy of an instance with the given start of new names. -/
def Plan.make (prototype : Instance) (name start : String) : Plan :=
  let rebind (binding : Binding) : Binding := ⟨binding.inner, start ++ binding.outer⟩
  { name := start ++ name
    vars := prototype.vars.map rebind
    labels := prototype.labels.map rebind
    -- only the variables to which the prototype is bound are renamed
    renames := .ofList (prototype.vars.map fun binding =>
      (binding.outer, start ++ binding.outer)) }

/-- The copies with the numbers from two to `count`. -/
def plans (prototype : Instance) (name stem : String) (count : Int) : List Plan :=
  (List.range (count - 1).toNat).map fun i =>
    Plan.make prototype name (stem ++ String.ofList (Nat.toDigits 10 (i + 2)) ++ "_")

/-- The instances of the root, by name. -/
def rootInstances (tree : Tree κ) : NameMap Instance :=
  tree.rootComponent.children

/-- The instance of the root with a name. -/
def rootInstance (tree : Tree κ) (name : String) : Except (PassError κ) Instance :=
  match (rootInstances tree).get? name with
  | some inst => .ok inst
  | none => .error (.model (.unknownInstance name tree.rootComponent.displayName))

/-- The modes that a mode of the root consists of: one for each instance in order, or for a single
instance also its name followed by its mode. -/
def splitModes (instances : List String) (mode : String) : Except (PassError κ) (List String) :=
  let pieces := Text.pieces '.' mode
  let modes := match instances, pieces with
    -- one instance: a path to its mode is as good as the mode
    | [inst], [first, second] => if first = inst then [second] else pieces
    | _, _ => pieces
  if modes.length = instances.length then .ok modes
  else .error (.unsupported (.modeCount mode instances.length))

/-- Checks that an instance of the root has a mode. -/
def checkMode (tree : Tree κ) (inst mode : String) : Except (PassError κ) Unit := do
  let entry ← rootInstance tree inst
  -- an instance of a network has no modes of its own
  let known := match (tree.get entry.child).automaton? with
    | some automaton => automaton.modes.contains mode
    | none => false
  if known then pure () else throw (.model (.unknownMode mode inst))

/-- The modes and the condition of the first entry of a family of conditions. -/
def singleState (tree : Tree κ) (states : NameMap (Expr κ)) :
    Except (PassError κ) (List String × Expr κ) :=
  match states.entries with
  | [] => .error (.unsupported .noCondition)
  | (mode, condition) :: _ => do
    let instances := (rootInstances tree).keys
    let modes ← splitModes instances mode
    (instances.zip modes).forM fun (inst, mode) => checkMode tree inst mode
    pure (modes, condition)

/-- Adds the outer names of bindings to names that are taken, or reports the first one that is. -/
def claimNames (kind : NameKind) (taken : List String) :
    List Binding → Except (PassError κ) (List String)
  | [] => .ok taken
  | binding :: rest =>
    -- a name that is claimed counts as taken for the next ones
    if taken.contains binding.outer then
      .error (.unsupported (.nameConflict kind binding.outer))
    else claimNames kind (taken ++ [binding.outer]) rest

/-- The variables and labels of the root with those of the copies behind them. -/
def claimPlans (root : Component κ) (plans : List Plan) :
    Except (PassError κ) (List String × List String) :=
  plans.foldlM
    (fun (vars, labels) plan => do
      -- copies get different numbers, so they can only meet other instances
      if root.children.contains plan.name then
        throw (.model (.duplicateInstance plan.name root.displayName))
      let vars ← claimNames .var vars plan.vars
      let labels ← claimNames .label labels plan.labels
      pure (vars, labels))
    (root.vars, root.labels)

/-- The mode of the root that gives every copy the mode of the prototype. -/
def extendMode (modes : List String) (position copies : Nat) : String :=
  Text.join "." (modes ++ List.replicate copies (modes.getD position ""))

/-- A condition joined with its renamings, from the left. -/
def extendCondition (join : Expr κ → Expr κ → Expr κ) (condition : Expr κ) (plans : List Plan) :
    Expr κ :=
  plans.foldl (fun combined plan => join combined (condition.rename plan.renames)) condition

variable [Scalar κ]

/-- Makes one copy and places it in the root. -/
def place (prototype : Instance) (name : String) (plan : Plan) : PassM κ Unit := do
  let root := (← PassM.model).tree.root
  -- the copy stands in the arena before it is placed
  let child ← PassM.onTree (Tree.copyComponent prototype.child)
  PassM.onTree (Tree.attach root plan.name child)
  -- constants are shared with the prototype, all other bindings are the plan's
  PassM.modifyTree fun tree => tree.modifyChild root plan.name fun inst =>
    { inst with vars := plan.vars, labels := plan.labels, consts := prototype.consts }
  PassM.report .info ("Created copy " ++ plan.name ++ " of instance " ++ name)

/-- The name of the instance to copy: the one that is asked for, or the only one. -/
def chooseInstance (instances : List String) (name : String) : Except (PassError κ) String :=
  match name, instances with
  -- no name need be given where there is no choice
  | "", [only] => .ok only
  | "", _ => .error (.unsupported .ambiguousInstance)
  | name, _ => .ok name

/-- Copies an instance of the root. -/
def run (options : Options) : PassM κ Unit := do
  let model ← PassM.model
  let tree := model.tree
  let root := tree.rootComponent
  let instances := (rootInstances tree).keys
  let name ← chooseInstance (κ := κ) instances options.name
  let some position := instances.findIdx? (· = name)
    | throw (.unsupported (.unknownInstance name instances))
  if options.count < 1 then throw (.unsupported (.tooFewInstances options.count))
  let (initialModes, initial) ← singleState tree model.initial
  let forbidden? ←
    if model.forbidden.isEmpty then pure none
    else some <$> singleState tree model.forbidden
  -- the conditions are split even if there is nothing to copy
  if options.count = 1 then return ()
  let prototype ← rootInstance tree name
  let copies := plans prototype name options.stem options.count
  -- all names are claimed before the tree is changed
  let (vars, labels) ← claimPlans root copies
  PassM.modifyTree fun tree => tree.modify tree.root fun component =>
    { component with vars, labels }
  copies.forM (place prototype name)
  let mode := extendMode initialModes position copies.length
  PassM.modifyModel fun model =>
    { model with initial := .ofList [(mode, extendCondition .conj initial copies)] }
  match forbidden? with
  | some (modes, forbidden) =>
    let mode := extendMode modes position copies.length
    PassM.modifyModel fun model =>
      -- a state is forbidden as soon as one of the conditions holds
      { model with forbidden := .ofList [(mode, extendCondition .disj forbidden copies)] }
  | none => pure ()

end HybridAutomata.CopyInstance
