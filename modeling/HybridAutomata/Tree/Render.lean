import HybridAutomata.Tree.Basic
/-!
# Showing a tree

A tree is shown as indented lines: a heading for each component, then its names, then the modes and
transitions of an automaton or the instances of a network, each with its bindings and its component.
-/

namespace HybridAutomata

variable {κ : Type} [Scalar κ]

/-- A line of text at a depth; each level is indented by two blanks. -/
structure Line where
  depth : Nat
  text : String

namespace Line

/-- Writes lines, each ended by a newline. -/
def render (lines : List Line) : String :=
  String.join (lines.map fun line =>
    String.ofList (List.replicate (2 * line.depth) ' ') ++ line.text ++ "\n")

/-- A heading with a list behind it, or nothing if the list is empty. -/
def ofList (depth : Nat) (heading : String) (items : List String) : List Line :=
  if items.isEmpty then [] else [⟨depth, heading ++ ": " ++ Text.join ", " items⟩]

end Line

/-- The lines of a mode. -/
def Mode.lines (mode : Mode κ) (depth : Nat) : List Line :=
  let heading := "mode " ++ mode.name ++ if mode.urgent then " (urgent)" else ""
  let invariant :=
    if mode.invariant.isTrue then [] else [⟨depth + 1, "invariant: " ++ mode.invariant.text⟩]
  let flows := mode.flowMap.entries.map fun (name, flow) =>
    (⟨depth + 1, name ++ "' = " ++ flow.text⟩ : Line)
  ⟨depth, heading⟩ :: (invariant ++ flows)

/-- The lines of a transition. -/
def Transition.lines (transition : Transition κ) (depth : Nat) : List Line :=
  let label := match transition.label with
    | some label => " [" ++ label ++ "]"
    | none => ""
  let guard :=
    if transition.guard.isTrue then [] else [⟨depth + 1, "guard: " ++ transition.guard.text⟩]
  let resets := transition.resets.entries.map fun (name, reset) =>
    (⟨depth + 1, name ++ " := " ++ reset.text⟩ : Line)
  ⟨depth, "transition " ++ transition.source ++ " -> " ++ transition.target ++ label⟩ ::
    (guard ++ resets)

/-- The lines of an automaton. -/
def Automaton.lines (automaton : Automaton κ) (depth : Nat) : List Line :=
  automaton.modes.values.flatMap (fun mode => mode.lines depth) ++
    automaton.transitions.flatMap fun transition => transition.lines depth

/-- The lines of the bindings of an instance. -/
def Instance.bindingLines (inst : Instance) (depth : Nat) : List Line :=
  [("var", inst.vars), ("const", inst.consts), ("label", inst.labels)].flatMap
    fun (word, bindings) => bindings.map fun binding =>
      ⟨depth, word ++ " " ++ binding.inner ++ " -> " ++ binding.outer⟩

/-- The lines of the heading of a component and of the names it declares. -/
def Component.headLines (component : Component κ) (depth : Nat) : List Line :=
  let word := if component.isBase then "base" else "network"
  let constants := component.constants.entries.map fun (name, value) =>
    match value with
    | some value => name ++ " = " ++ value.text
    | none => name
  ⟨depth, "component " ++ component.displayName ++ " (" ++ word ++ ")"⟩ ::
    (Line.ofList (depth + 1) "variables" component.vars ++
      Line.ofList (depth + 1) "constants" constants ++
      Line.ofList (depth + 1) "labels" component.labels)

namespace Tree

/-- The lines of a component and of all components below it, at most `levels` levels down. -/
def linesWithin (tree : Tree κ) : (levels : Nat) → Handle → (depth : Nat) → List Line
  | 0, _, _ => []
  | levels + 1, c, depth =>
    let component := tree.get c
    component.headLines depth ++
      match component.body with
      | .base automaton => automaton.lines (depth + 1)
      | .network children => children.entries.flatMap fun (name, inst) =>
        ⟨depth + 1, "instance " ++ name⟩ ::
          (inst.bindingLines (depth + 2) ++ tree.linesWithin levels inst.child (depth + 2))

/-- The lines of a tree. -/
def lines (tree : Tree κ) : List Line :=
  tree.linesWithin tree.size tree.root 0

/-- Shows a tree. -/
def render (tree : Tree κ) : String :=
  Line.render tree.lines

end Tree
end HybridAutomata
