import HybridAutomata.Expr.Text
import HybridAutomata.Interval
import HybridAutomata.NameMap
/-!
# Automata

Modes with invariants and flows, and transitions with guards and resets between them. The modes are
filed by name.

Automata are compared in two ways: `=` is identity, and `==` compares numbers as their domain does
and ignores the order of modes, flows and resets, but not the order of transitions.
-/

namespace HybridAutomata

/-! ## Updates

The right-hand side of a flow or a reset: an expression, and possibly an interval from which any
number may be added.
-/

/-- An expression with an optional bounded disturbance. -/
structure Update (κ : Type) where
  expr : Expr κ
  disturbance : Option (Interval κ) := none

namespace Update

variable {κ : Type} [Scalar κ]

/-- Comparison with the domain's equality on numbers. -/
def beq (left right : Update κ) : Bool :=
  left.expr == right.expr && left.disturbance == right.disturbance

instance : BEq (Update κ) := ⟨beq⟩

/-- Whether the expression does not determine the value. -/
def isNondeterministic (update : Update κ) : Bool :=
  match update.disturbance with
  | some interval => !interval.isPoint
  | none => false

/-- The written form of an update. -/
def text (update : Update κ) : String :=
  match update.disturbance with
  | some interval => update.expr.text ++ " + " ++ interval.text
  | none => update.expr.text

end Update

/-! ## Modes and transitions -/

/-- A mode. An urgent mode has to be left at once and has no flows. -/
structure Mode (κ : Type) where
  name : String
  invariant : Expr κ
  urgent : Bool
  flows : Option (NameMap (Update κ))

/-- A transition. Variables without a reset keep their value. -/
structure Transition (κ : Type) where
  source : String
  target : String
  label : Option String
  guard : Expr κ
  resets : NameMap (Update κ)

/-- An automaton: modes by name, and transitions. -/
structure Automaton (κ : Type) where
  modes : NameMap (Mode κ)
  transitions : List (Transition κ)

variable {κ : Type}

namespace Mode

/-- The flows of a mode, none if it has no flow map. -/
def flowMap (mode : Mode κ) : NameMap (Update κ) :=
  mode.flows.getD ∅

/-- Comparison with the domain's equality on numbers. -/
def beq [Scalar κ] (left right : Mode κ) : Bool :=
  left.name == right.name && left.invariant == right.invariant && left.urgent == right.urgent &&
    left.flows == right.flows

instance [Scalar κ] : BEq (Mode κ) := ⟨beq⟩

/-- Changes the invariant and the expressions of all flows. -/
def mapExprs (mode : Mode κ) (f : Expr κ → Expr κ) : Mode κ :=
  { mode with
    invariant := f mode.invariant
    flows := mode.flows.map fun flows =>
      flows.mapValues fun update => { update with expr := f update.expr } }

/-- The expressions of a mode: the invariant, then the flows. -/
def exprs (mode : Mode κ) : List (Expr κ) :=
  mode.invariant :: mode.flowMap.values.map Update.expr

end Mode

namespace Transition

/-- Comparison with the domain's equality on numbers. -/
def beq [Scalar κ] (left right : Transition κ) : Bool :=
  left.source == right.source && left.target == right.target && left.label == right.label &&
    left.guard == right.guard && left.resets == right.resets

instance [Scalar κ] : BEq (Transition κ) := ⟨beq⟩

/-- Changes the guard and the expressions of all resets. -/
def mapExprs (transition : Transition κ) (f : Expr κ → Expr κ) : Transition κ :=
  { transition with
    guard := f transition.guard
    resets := transition.resets.mapValues fun update => { update with expr := f update.expr } }

/-- The expressions of a transition: the guard, then the resets. -/
def exprs (transition : Transition κ) : List (Expr κ) :=
  transition.guard :: transition.resets.values.map Update.expr

end Transition

namespace Automaton

/-- The automaton without modes. -/
def empty : Automaton κ := ⟨∅, []⟩

/-- Comparison with the domain's equality on numbers. -/
def beq [Scalar κ] (left right : Automaton κ) : Bool :=
  left.modes == right.modes && left.transitions == right.transitions

instance [Scalar κ] : BEq (Automaton κ) := ⟨beq⟩

/-- The first transition between two modes. -/
def findTransition? (automaton : Automaton κ) (source target : String) : Option (Transition κ) :=
  automaton.transitions.find? fun transition =>
    transition.source = source && transition.target = target

/-- Changes every expression in modes and transitions. -/
def mapExprs (automaton : Automaton κ) (f : Expr κ → Expr κ) : Automaton κ :=
  ⟨automaton.modes.mapValues fun mode => mode.mapExprs f,
    automaton.transitions.map fun transition => transition.mapExprs f⟩

/-- All expressions, mode by mode and then transition by transition. -/
def exprs (automaton : Automaton κ) : List (Expr κ) :=
  automaton.modes.values.flatMap Mode.exprs ++ automaton.transitions.flatMap Transition.exprs

/-- Whether some mode is urgent. -/
def hasUrgentMode (automaton : Automaton κ) : Bool :=
  automaton.modes.values.any Mode.urgent

/-- Whether some flow or reset has a disturbance that is not a point. -/
def isNondeterministic [Scalar κ] (automaton : Automaton κ) : Bool :=
  automaton.modes.values.any (fun mode => mode.flowMap.values.any Update.isNondeterministic) ||
    automaton.transitions.any fun transition =>
      transition.resets.values.any Update.isNondeterministic

end Automaton
end HybridAutomata
