import HybridAutomata.Expr.Traversal
import HybridAutomata.Pass.Workspace
/-!
# Short mode names

The modes of a flat automaton are renamed to `mode_0`, `mode_1`, … in their order, everywhere they
are mentioned.
-/

namespace HybridAutomata

variable {κ : Type}

/-- Renames modes and the ends of transitions all at once. -/
def Automaton.renameModes (automaton : Automaton κ) (names : NameMap String) : Automaton κ where
  modes := .ofList (automaton.modes.entries.map fun (old, mode) =>
    (Expr.newName names old, { mode with name := Expr.newName names old }))
  transitions := automaton.transitions.map fun transition =>
    { transition with
      source := Expr.newName names transition.source
      target := Expr.newName names transition.target }

namespace ShortenModes

/-- The short name of the mode at a place. -/
def shortName (place : Nat) : String :=
  "mode_" ++ String.ofList (Nat.toDigits 10 place)

/-- The short names of modes, by their old names. -/
def shortNames (modes : List String) : NameMap String :=
  .ofList ((modes.zipIdx).map fun (old, place) => (old, shortName place))

/-- Shortens the mode names of the root. -/
def run : PassM κ Unit := do
  let root := (← PassM.model).tree.rootComponent
  match root.automaton? with
  | none => throw (.unsupported .modesOfNetwork)
  | some automaton =>
    let names := shortNames automaton.modes.keys
    names.entries.forM fun (old, new) =>
      PassM.report .info s!"Shortened mode name to {new} from {old}"
    PassM.modifyModel fun model =>
      { model with
        tree := model.tree.modify model.tree.root fun component =>
          component.mapAutomaton fun automaton => automaton.renameModes names
        -- the conditions of a flat model are given for these very modes
        initial := model.initial.rekey (Expr.newName names)
        forbidden := model.forbidden.rekey (Expr.newName names) }

end ShortenModes
end HybridAutomata
