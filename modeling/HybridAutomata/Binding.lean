import HybridAutomata.Text.Names
/-!
# Bindings

An instance binds names of the component inside (`inner`) to names of the network around it
(`outer`), separately for variables, constants and labels. A constant may be bound to a literal
instead of a name, written with a leading `~`; such bindings last until the component is copied.
-/

namespace HybridAutomata

/-- The three kinds of names that a component declares. -/
inductive NameKind where
  | var
  | const
  | label
deriving DecidableEq, Repr

/-- What a kind of name is called. -/
def NameKind.text : NameKind → String
  | var => "variable"
  | const => "constant"
  | label => "label"

/-- A name of a component and what it is bound to in the network around it. -/
structure Binding where
  inner : String
  outer : String
deriving DecidableEq, Repr

namespace Binding

/-- The written form of a binding. -/
def text (binding : Binding) : String :=
  "child." ++ binding.inner ++ "->" ++ binding.outer

/-- The literal that takes the place of an outer name, if there is one. -/
def literal? (binding : Binding) : Option String :=
  Text.afterMark? '~' binding.outer

end Binding
end HybridAutomata
