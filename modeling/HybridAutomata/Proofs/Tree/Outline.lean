import HybridAutomata.Proofs.Tree.Linked
import HybridAutomata.Tree.Modes
/-!
# What names depend on

The outline of a tree leaves out the constants and all expressions. Paths, global names of
variables, names of modes and what is reachable can be read off the outline, so a change that keeps
the outline keeps them all.
-/

namespace HybridAutomata

variable {κ : Type}

/-! ## Outlines -/

/-- An instance without its bindings of constants. -/
def Instance.withoutConsts (inst : Instance) : Instance :=
  { inst with consts := [] }

/-- Two changes of all expressions by `mapExprs` are one. -/
theorem Automaton.mapExprs_mapExprs (automaton : Automaton κ) (f g : Expr κ → Expr κ) :
    (automaton.mapExprs f).mapExprs g = automaton.mapExprs fun e => g (f e) := by
  simp [mapExprs, Mode.mapExprs, Transition.mapExprs, Function.comp_def]

namespace Component

/-- A component without constants and expressions. -/
def outline (component : Component κ) : Component κ :=
  { component with
    constants := ∅
    body := match component.body with
      | .base automaton => .base (automaton.mapExprs fun _ => .bool true)
      | .network children => .network (children.mapValues Instance.withoutConsts) }

/-- The children of an `outline` bind no constants. -/
theorem children_outline (component : Component κ) :
    component.outline.children = component.children.mapValues Instance.withoutConsts := by
  rcases component with ⟨_, _, _, _, _, _, _ | _⟩ <;> rfl

end Component

namespace Tree

/-- A tree without constants and expressions. -/
def outline (tree : Tree κ) : Tree κ :=
  { tree with components := tree.components.map Component.outline }

@[simp] theorem root_outline (tree : Tree κ) : tree.outline.root = tree.root := rfl

@[simp] theorem size_outline (tree : Tree κ) : tree.outline.size = tree.size := by
  simp [outline, size]

/-- `outline` goes through the arena component by component. -/
theorem get_outline (tree : Tree κ) (c : Handle) : tree.outline.get c = (tree.get c).outline := by
  simp only [get, outline, Array.getD_eq_getD_getElem?, Array.getElem?_map]
  cases tree.components[c.index]? <;> rfl

/-- `modify` by a function that keeps the outline of components keeps the `outline` of the tree. -/
theorem outline_modify {tree : Tree κ} {c : Handle} {f : Component κ → Component κ}
    (hf : ∀ component, (f component).outline = component.outline) :
    (tree.modify c f).outline = tree.outline := by
  have key : (tree.components.modify c.index f).map Component.outline =
      tree.components.map Component.outline := by
    apply Array.ext_getElem?
    intro i
    -- the changed component has the outline it had, and the others are not changed
    rw [Array.getElem?_map, Array.getElem?_map, Array.getElem?_modify]
    split <;> cases tree.components[i]? <;> simp [hf]
  rw [outline, outline, modify, key]

/-! ## Names in the outline -/

variable (tree : Tree κ) (c : Handle)

/-- The parent of a component is in the `outline`. -/
theorem parent_outline : (tree.outline.get c).parent = (tree.get c).parent := by
  rw [get_outline]
  rfl

/-- The instance name of a component is in the `outline`. -/
theorem instanceName_outline :
    (tree.outline.get c).instanceName = (tree.get c).instanceName := by
  rw [get_outline]
  rfl

theorem body_outline : (tree.outline.get c).body = (tree.get c).outline.body := by
  rw [get_outline]

/-- The display name of a component is in the `outline`. -/
theorem displayName_outline : (tree.outline.get c).displayName = (tree.get c).displayName := by
  rw [get_outline]
  rfl

/-- `instance?` finds an instance of the `outline`, without its bindings of constants. -/
theorem instance?_outline :
    tree.outline.instance? c = (tree.instance? c).map Instance.withoutConsts := by
  -- an instance is found by the links of the component, which are in the outline
  rw [instance?, instance?, parent_outline, instanceName_outline]
  cases (tree.get c).parent with
  | none => rfl
  | some parent =>
    cases (tree.get c).instanceName with
    | none => rfl
    | some name =>
      simp only [childNamed?]
      rw [get_outline, Component.children_outline, NameMap.get?_mapValues]

/-- `outer?` gives the same step for a variable, since the bindings of variables are in the
`outline`. -/
theorem outer?_var_outline (name : String) :
    tree.outline.outer? .var c name = tree.outer? .var c name := by
  rw [outer?, outer?, expectInstance, expectInstance, parent_outline]
  cases (tree.get c).parent with
  | none => rfl
  | some parent =>
    simp only [instance?_outline, displayName_outline]
    cases tree.instance? c <;> rfl

/-- `bindingCount` of variables can be read off the `outline`. -/
theorem bindingCount_var_outline : tree.outline.bindingCount .var = tree.bindingCount .var := by
  simp only [bindingCount, outline, Array.toList_map, List.flatMap_map, Component.children_outline,
    NameMap.values_mapValues]
  rfl

/-- `pathWithin` can be read off the `outline`. -/
theorem pathWithin_outline (levels : Nat) :
    tree.outline.pathWithin levels c = tree.pathWithin levels c := by
  -- induction on the levels, one link up at a time
  induction levels generalizing c with
  | zero => rfl
  | succ levels ih =>
    rw [pathWithin, pathWithin, parent_outline]
    simp only [instanceName_outline, ih]

theorem path_outline : tree.outline.path c = tree.path c := by
  rw [path, path, size_outline, pathWithin_outline]

/-- `variableWithin` can be read off the `outline`. -/
theorem variableWithin_outline (steps : Nat) (name : String) :
    tree.outline.variableWithin steps c name = tree.variableWithin steps c name := by
  -- induction on the steps, one binding at a time
  induction steps generalizing c name with
  | zero =>
    rw [variableWithin.eq_def, variableWithin.eq_def]
    simp only [outer?_var_outline, displayName_outline, parent_outline, path_outline]
    rcases tree.outer? .var c name with _ | _ | _ <;> rfl
  | succ steps ih =>
    rw [variableWithin.eq_def, variableWithin.eq_def]
    simp only [outer?_var_outline, parent_outline, path_outline]
    rcases tree.outer? .var c name with _ | _ | ⟨b, outer⟩
    · rfl
    · rfl
    · exact ih b outer

/-- `variableName` can be read off the `outline`. -/
theorem variableName_outline (name : String) :
    tree.outline.variableName c name = tree.variableName c name := by
  rw [variableName, variableName, bindingCount_var_outline, variableWithin_outline]

/-- `variablesWithin` can be read off the `outline`. -/
theorem variablesWithin_outline (levels : Nat) :
    tree.outline.variablesWithin levels c = tree.variablesWithin levels c := by
  -- induction on the levels; a network collects what its instances list
  induction levels generalizing c with
  | zero =>
    rw [variablesWithin, variablesWithin, displayName_outline]
  | succ levels ih =>
    have hvars : (tree.outline.get c).vars = (tree.get c).vars := by rw [get_outline]; rfl
    have hname : tree.outline.variableName c = tree.variableName c :=
      funext fun name => tree.variableName_outline c name
    rw [variablesWithin, variablesWithin, hvars, hname, body_outline, Component.outline]
    cases (tree.get c).body with
    | base automaton => rfl
    | network children =>
      simp only [NameMap.values_mapValues, List.mapM_map, Function.comp_def, ih]
      rfl

/-- `allVariables` can be read off the `outline`. -/
theorem allVariables_outline : tree.outline.allVariables c = tree.allVariables c := by
  rw [allVariables, allVariables, size_outline, variablesWithin_outline]

/-- `children` can be read off the `outline`. -/
theorem children_outline : tree.outline.children c = tree.children c := by
  rw [children, get_outline, Component.children_outline, NameMap.values_mapValues, List.map_map]
  rfl

/-- `descendants` can be read off the `outline`. -/
theorem descendants_outline : tree.outline.descendants c = tree.descendants c := by
  rw [descendants_eq, descendants_eq, size_outline, preorder_congr tree.children_outline]

/-- `takeModes` can be read off the `outline`. -/
theorem takeModes_outline (levels : Nat) (modes : String) :
    tree.outline.takeModes levels c modes = tree.takeModes levels c modes := by
  -- induction on the levels; the text is what the last instance has left
  induction levels generalizing c modes with
  | zero => rfl
  | succ levels ih =>
    rw [takeModes, takeModes, body_outline, Component.outline]
    cases (tree.get c).body with
    | base automaton => simp only [Automaton.mapExprs, NameMap.contains_mapValues]
    | network children =>
      simp only [NameMap.values_mapValues, List.foldlM_map, ih]
      rfl

/-- `hasModePath` can be read off the `outline`. -/
theorem hasModePath_outline (mode : String) :
    tree.outline.hasModePath c mode = tree.hasModePath c mode := by
  -- induction along the search; all that it looks at are names
  fun_induction hasModePath tree c mode with
  | case1 c mode automaton hb =>
    rw [hasModePath, body_outline, Component.outline, hb]
    simp [Automaton.mapExprs]
  | case2 c mode children hb hcut =>
    rw [hasModePath, body_outline, Component.outline, hb]
    simp only
    split
    · rfl
    · next h => cases hcut.symm.trans h
  | case3 c mode children hb name rest hcut inst hi ih =>
    rw [hasModePath, body_outline, Component.outline, hb]
    simp only
    split
    · next h => cases hcut.symm.trans h
    · next h =>
      obtain ⟨rfl, rfl⟩ := Prod.mk.inj (Option.some.inj (hcut.symm.trans h))
      rw [NameMap.get?_mapValues, hi]
      exact ih
  | case4 c mode children hb name rest hcut hi =>
    rw [hasModePath, body_outline, Component.outline, hb]
    simp only
    split
    · next h => cases hcut.symm.trans h
    · next h =>
      obtain ⟨rfl, rfl⟩ := Prod.mk.inj (Option.some.inj (hcut.symm.trans h))
      rw [NameMap.get?_mapValues, hi]
      rfl

/-- `modeExists` can be read off the `outline`. -/
theorem modeExists_outline (mode : String) :
    tree.outline.modeExists c mode = tree.modeExists c mode := by
  rw [modeExists, modeExists, size_outline, takeModes_outline, hasModePath_outline]

end Tree
end HybridAutomata
