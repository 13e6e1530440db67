import HybridAutomata.Violation
/-!
# Settings

What a model carries along besides its automaton: the two variables to plot, and options for the
tools that analyse it.
-/

namespace HybridAutomata

/-- Options for analysis tools. -/
structure ToolSettings (κ : Type) where
  outputVariables : List String
  timeHorizon : κ
  maxIterations : Nat
  samplingTime : κ
  systemId : Option String
  outputFormat : String
  scenario : String

/-- The variables to plot, on the horizontal and on the vertical axis, and the tool options. -/
structure Settings (κ : Type) where
  plotX : Option String
  plotY : Option String
  tool : ToolSettings κ

variable {κ : Type}

/-- The options of a model that came without any. -/
def ToolSettings.standard [Scalar κ] : ToolSettings κ where
  outputVariables := []
  timeHorizon := Scalar.ofDecimal ⟨10, 0⟩
  maxIterations := 10
  samplingTime := Scalar.ofDecimal ⟨1, -1⟩
  systemId := none
  outputFormat := "GEN"
  scenario := "stc"

/-- Comparison with the domain's equality on numbers. -/
def ToolSettings.beq [Scalar κ] (left right : ToolSettings κ) : Bool :=
  left.outputVariables == right.outputVariables && Scalar.eq left.timeHorizon right.timeHorizon &&
    left.maxIterations == right.maxIterations && Scalar.eq left.samplingTime right.samplingTime &&
    left.systemId == right.systemId && left.outputFormat == right.outputFormat &&
    left.scenario == right.scenario

instance [Scalar κ] : BEq (ToolSettings κ) := ⟨ToolSettings.beq⟩

namespace Settings

instance [Scalar κ] : BEq (Settings κ) :=
  ⟨fun left right =>
    left.plotX == right.plotX && left.plotY == right.plotY && left.tool == right.tool⟩

/-- The settings of a model that came without any. -/
def standard [Scalar κ] : Settings κ := ⟨none, none, .standard⟩

/-- The plot variables that are set. -/
def plotVariables (settings : Settings κ) : List String :=
  settings.plotX.toList ++ settings.plotY.toList

/-- Checks the plot variables against the variables of the model: those that are set have to exist,
and both have to be set if there is anything to plot. -/
def check (settings : Settings κ) (vars : List String) : Except (Violation κ) Unit :=
  match settings.plotVariables.find? fun name => !vars.contains name with
  | some name => .error (.unknownPlotVariable name)
  | none =>
    -- a model without variables has nothing to plot
    if !vars.isEmpty && !(settings.plotX.isSome && settings.plotY.isSome) then
      .error (.missingPlotVariables vars)
    else .ok ()

/-- Renames the plot variables. -/
def renamePlotVariables (settings : Settings κ) (rename : String → String) : Settings κ :=
  { settings with plotX := settings.plotX.map rename, plotY := settings.plotY.map rename }

end Settings
end HybridAutomata
