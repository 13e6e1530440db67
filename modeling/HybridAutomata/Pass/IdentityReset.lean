import HybridAutomata.Pass.Workspace
/-!
# Explicit identity resets

Every transition of a flat automaton is made to say what becomes of each variable: a variable
without a reset gets one that keeps its value. The new resets stand behind the old ones, in the
order in which the variables are declared.
-/

namespace HybridAutomata

variable {κ : Type}

/-- Adds resets that keep the value of each variable that has none. -/
def Transition.addIdentityResets (transition : Transition κ) (vars : List String) :
    Transition κ :=
  { transition with
    resets := vars.foldl
      (fun resets name =>
        -- a reset that is there is kept, whatever it assigns
        if resets.contains name then resets else resets.insert name { expr := .var name })
      transition.resets }

/-- Adds identity resets to all transitions. -/
def Automaton.addIdentityResets (automaton : Automaton κ) (vars : List String) :
    Automaton κ :=
  { automaton with
    transitions := automaton.transitions.map fun transition =>
      transition.addIdentityResets vars }

namespace IdentityReset

/-- Adds identity resets to the root. -/
def run : PassM κ Unit := do
  let root := (← PassM.model).tree.rootComponent
  if root.isNetwork then throw (.unsupported .resetsOfNetwork)
  PassM.modifyTree fun tree => tree.modify tree.root fun component =>
    component.mapAutomaton fun automaton => automaton.addIdentityResets component.vars

end IdentityReset
end HybridAutomata
