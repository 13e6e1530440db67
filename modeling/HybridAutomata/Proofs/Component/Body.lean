import HybridAutomata.Component.Basic
/-!
# The two kinds of component

A component is an automaton or a network, and each kind has one form: what an automaton or a network
holds is read off its body.
-/

namespace HybridAutomata

namespace Component

variable {κ : Type}

/-! ## Automata -/

/-- The body of a component for which `isBase` holds. -/
theorem exists_automaton {component : Component κ} (h : component.isBase) :
    ∃ automaton, component.body = .base automaton := by
  rcases component with ⟨_, _, _, _, _, _, automaton | _⟩
  · exact ⟨automaton, rfl⟩
  · cases h

/-- `children` of a component without `network?` are the empty map. -/
theorem children_of_base {component : Component κ} {automaton : Automaton κ}
    (h : component.body = .base automaton) : component.children = ∅ := by
  rw [Component.children, network?, h]
  rfl

/-- An automaton has no instances, so its `children` are empty. -/
theorem children_of_isBase {component : Component κ} (h : component.isBase) :
    component.children = ∅ := by
  obtain ⟨automaton, hb⟩ := exists_automaton h
  exact children_of_base hb

/-! ## Networks -/

/-- `children` of a network are what its body holds. -/
theorem children_of_network {component : Component κ} {children : NameMap Instance}
    (h : component.body = .network children) : component.children = children := by
  rw [Component.children, network?, h]
  rfl

/-- `network?` answers on networks, and what it answers are the `children`. -/
theorem network?_eq_some {component : Component κ} (h : component.isNetwork) :
    component.network? = some component.children := by
  rcases component with ⟨_, _, _, _, _, _, _ | _⟩
  · cases h
  · rfl

/-- A network is determined by its `children` and by what it has in common with automata. -/
theorem eq_of_isNetwork {component : Component κ} (h : component.isNetwork) :
    component = { component with body := .network component.children } := by
  rcases component with ⟨_, _, _, _, _, _, _ | _⟩
  · cases h
  · rfl

/-! ## Other children -/

/-- `mapChildren` does not make an automaton of a network, nor the other way round. -/
@[simp] theorem isNetwork_mapChildren (component : Component κ)
    (f : NameMap Instance → NameMap Instance) :
    (component.mapChildren f).isNetwork = component.isNetwork := by
  rcases component with ⟨_, _, _, _, _, _, _ | _⟩ <;> rfl

/-- On networks `mapChildren` replaces the body; automata it leaves alone. -/
theorem mapChildren_of_isNetwork {component : Component κ} (h : component.isNetwork)
    (f : NameMap Instance → NameMap Instance) :
    component.mapChildren f = { component with body := .network (f component.children) } := by
  rcases component with ⟨_, _, _, _, _, _, _ | _⟩
  · cases h
  · rfl

/-- `children` after `mapChildren`. An automaton would still have none, so it must be a network. -/
theorem children_mapChildren {component : Component κ} (h : component.isNetwork)
    (f : NameMap Instance → NameMap Instance) :
    (component.mapChildren f).children = f component.children := by
  rcases component with ⟨_, _, _, _, _, _, _ | _⟩
  · cases h
  · rfl

/-- Two uses of `mapChildren` are one with the composition, for both kinds. -/
theorem mapChildren_mapChildren (component : Component κ)
    (f g : NameMap Instance → NameMap Instance) :
    (component.mapChildren f).mapChildren g =
      component.mapChildren fun children => g (f children) := by
  rcases component with ⟨_, _, _, _, _, _, _ | _⟩ <;> rfl

end Component

end HybridAutomata
