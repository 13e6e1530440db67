import HybridAutomata.Component.Check
import HybridAutomata.Proofs.ForStd.Except
/-!
# Violations of one component

Some violations are found by going from one component to another: a constant without a value, a name
that cannot be looked up, a component inside itself. The checks that look at one component alone, or
at one instance, end with none of them.
-/

namespace HybridAutomata

variable {κ : Type}

/-- A violation that is found by going from one component to another. -/
def Violation.IsRecursive : Violation κ → Prop
  | .unresolvedConstant _ _ _ | .lookup _ | .circularNesting _ => True
  | _ => False

/-- `checkName` complains about the name. -/
theorem checkName_avoids (name component : String) :
    (checkName (κ := κ) name component).Avoids Violation.IsRecursive := by
  rw [checkName]
  split
  · exact Except.avoids_ok
  · exact Except.avoids_error not_false

/-- `checkNames` complains about a name that is repeated or about one that is no identifier. -/
theorem checkNames_avoids (component : String) (seen names : List String) :
    -- induction on the names; more of them are seen as the check goes on
    (checkNames (κ := κ) component seen names).Avoids Violation.IsRecursive := by
  induction names generalizing seen with
  | nil => exact Except.avoids_ok
  | cons name rest ih =>
    rw [checkNames]
    split
    · exact Except.avoids_error not_false
    · exact (checkName_avoids name component).bind fun _ => ih (name :: seen)

/-- `Binding.check` complains about one side of the binding. -/
theorem Binding.check_avoids (binding : Binding) (outerDeclared innerDeclared : String → Bool)
    (kind : NameKind) (component : String) (constants : Bool) :
    (binding.check (κ := κ) outerDeclared innerDeclared kind component constants).Avoids
      Violation.IsRecursive := by
  rw [Binding.check]
  -- three questions in a row, each with a complaint of its own
  split
  · exact Except.avoids_error not_false
  · split
    · exact Except.avoids_error not_false
    · split
      · exact Except.avoids_error not_false
      · exact Except.avoids_ok

namespace Component

variable (component : Component κ)

/-- `checkLinks` complains about the name of the component or about its parent. -/
theorem checkLinks_avoids : component.checkLinks.Avoids Violation.IsRecursive := by
  -- both branches end with the comparison of name and parent
  have hlinks (named : Bool) : (if named != component.parent.isSome then
      throw (.linkMismatch component.displayName component.parent.isSome)
      else pure () : Except (Violation κ) Unit).Avoids Violation.IsRecursive := by
    split
    · exact Except.avoids_error not_false
    · exact Except.avoids_ok
  rw [checkLinks]
  cases component.instanceName with
  | none => exact hlinks false
  | some own => exact (checkName_avoids own _).bind fun _ => hlinks true

/-- `checkMode` complains about the mode. -/
theorem checkMode_avoids (mode : Mode κ) :
    (component.checkMode mode).Avoids Violation.IsRecursive := by
  rw [checkMode]
  refine (checkName_avoids mode.name _).bind fun _ => ?_
  refine Except.avoids_guard not_false (Except.avoids_guard not_false
    (Except.avoids_guard not_false ?_))
  split
  · exact Except.avoids_error not_false
  · exact Except.avoids_ok

/-- `checkTransition` complains about one of the ends or about the label. -/
theorem checkTransition_avoids (modes : NameMap (Mode κ)) (transition : Transition κ) :
    (component.checkTransition modes transition).Avoids Violation.IsRecursive := by
  rw [checkTransition]
  split
  · exact Except.avoids_error not_false
  · split
    · exact Except.avoids_error not_false
    · exact Except.avoids_ok

/-- `checkFlowSymbols` complains about a symbol without a declaration. -/
theorem checkFlowSymbols_avoids (mode : Mode κ) :
    (component.checkFlowSymbols mode).Avoids Violation.IsRecursive := by
  rw [checkFlowSymbols]
  refine List.avoids_forM fun entry _ => ?_
  dsimp only
  split
  · exact Except.avoids_error not_false
  · exact Except.avoids_ok

/-- `checkFlows` complains about a symbol, or about flows that differ. -/
theorem checkFlows_avoids (modes : List (Mode κ)) :
    (component.checkFlows modes).Avoids Violation.IsRecursive := by
  rw [checkFlows]
  split
  · exact Except.avoids_ok
  · next first rest _ =>
    refine (component.checkFlowSymbols_avoids first).bind fun _ => List.avoids_forM fun mode _ => ?_
    split
    · exact component.checkFlowSymbols_avoids mode
    · exact Except.avoids_error not_false

/-- `checkAutomaton` is put together from checks that avoid them, and from two complaints of its
own. -/
theorem checkAutomaton_avoids (automaton : Automaton κ) :
    (component.checkAutomaton automaton).Avoids Violation.IsRecursive := by
  rw [checkAutomaton]
  -- the checks of an automaton, one after the other; each refusal is about a name or an expression
  refine Except.avoids_guard not_false ?_
  split
  · exact Except.avoids_error not_false
  · refine (List.avoids_forM fun mode _ => component.checkMode_avoids mode).bind fun _ => ?_
    refine (List.avoids_forM fun transition _ =>
      component.checkTransition_avoids _ transition).bind fun _ => ?_
    dsimp only
    split
    · exact Except.avoids_error not_false
    · exact component.checkFlows_avoids _

end Component

end HybridAutomata
