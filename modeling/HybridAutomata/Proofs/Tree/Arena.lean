import HybridAutomata.Tree.Basic
/-!
# Changes of an arena

What a look-up of a handle finds after a change. A handle outside the arena leads to the default
component, so a change there does nothing.
-/

namespace HybridAutomata.Tree

variable {κ : Type}

@[simp] theorem size_modify (tree : Tree κ) (c : Handle) (f : Component κ → Component κ) :
    (tree.modify c f).size = tree.size := by
  simp [modify, size]

@[simp] theorem root_modify (tree : Tree κ) (c : Handle) (f : Component κ → Component κ) :
    (tree.modify c f).root = tree.root := rfl

/-- Outside of the arena there is only the default component. -/
theorem get_eq_default {tree : Tree κ} {c : Handle} (h : tree.size ≤ c.index) :
    tree.get c = default := by
  rw [get, Array.getD_eq_getD_getElem?, Array.getElem?_eq_none h, Option.getD_none]

/-- A network lives in the arena, since the default component is none. -/
theorem index_lt_of_isNetwork {tree : Tree κ} {c : Handle} (h : (tree.get c).isNetwork) :
    c.index < tree.size := by
  -- the default component is an automaton
  apply Nat.lt_of_not_le
  intro hle
  rw [get_eq_default hle] at h
  cases h

/-- An automaton is not the root if the root is a network. -/
theorem ne_root_of_isBase {tree : Tree κ} {c : Handle} (hb : (tree.get c).isBase)
    (hn : tree.rootComponent.isNetwork) : c ≠ tree.root := by
  rintro rfl
  rw [rootComponent, Component.isNetwork, hb] at hn
  cases hn

/-- `modify` changes the component of the handle. -/
theorem get_modify_self {tree : Tree κ} {c : Handle} (h : c.index < tree.size)
    (f : Component κ → Component κ) : (tree.modify c f).get c = f (tree.get c) := by
  have h' : c.index < tree.components.size := h
  simp only [get, modify, Array.getD_eq_getD_getElem?, Array.getElem?_modify, if_true,
    Array.getElem?_eq_getElem h', Option.map_some, Option.getD_some]

/-- `modify` with a change that does nothing to the default component is seen inside and outside the
arena. -/
theorem get_modify_self_of_default {f : Component κ → Component κ} (hf : f default = default)
    (tree : Tree κ) (c : Handle) : (tree.modify c f).get c = f (tree.get c) := by
  by_cases h : c.index < tree.size
  · exact get_modify_self h f
  · rw [get_eq_default (Nat.le_of_not_lt h), hf, get_eq_default]
    rw [size_modify]
    exact Nat.le_of_not_lt h

/-- `modify` keeps the other components. -/
theorem get_modify_of_ne {tree : Tree κ} {c d : Handle} (h : d ≠ c)
    (f : Component κ → Component κ) : (tree.modify c f).get d = tree.get d := by
  have hne : c.index ≠ d.index := fun e => h (by cases c; cases d; exact congrArg _ e.symm)
  simp [get, modify, Array.getD_eq_getD_getElem?, Array.getElem?_modify, hne]

/-- `modify` depends on what the change does to the component only. -/
theorem modify_congr {tree : Tree κ} {c : Handle} {f g : Component κ → Component κ}
    (h : f (tree.get c) = g (tree.get c)) : tree.modify c f = tree.modify c g := by
  -- the arenas are compared place by place
  have key : tree.components.modify c.index f = tree.components.modify c.index g := by
    apply Array.ext_getElem?
    intro i
    rw [Array.getElem?_modify, Array.getElem?_modify]
    split
    · next hi =>
      subst hi
      cases hc : tree.components[c.index]? with
      | none => rfl
      | some component =>
        rw [get, Array.getD_eq_getD_getElem?, hc, Option.getD_some] at h
        rw [Option.map_some, Option.map_some, h]
    · rfl
  rw [modify, modify, key]

/-- `modify` with a change that keeps the component keeps the tree. -/
theorem modify_eq_self {tree : Tree κ} {c : Handle} {f : Component κ → Component κ}
    (h : f (tree.get c) = tree.get c) : tree.modify c f = tree := by
  have key : tree.components.modify c.index id = tree.components := by
    apply Array.ext_getElem?
    intro i
    rw [Array.getElem?_modify]
    split <;> cases tree.components[i]? <;> rfl
  rw [modify_congr (g := id) h, modify, key]

/-- One `modify` after the other at one component is one `modify`. -/
theorem modify_modify (tree : Tree κ) (c : Handle) (f g : Component κ → Component κ) :
    (tree.modify c f).modify c g = tree.modify c (g ∘ f) := by
  have key : (tree.components.modify c.index f).modify c.index g =
      tree.components.modify c.index (g ∘ f) := by
    apply Array.ext_getElem?
    intro i
    simp only [Array.getElem?_modify]
    split <;> cases tree.components[i]? <;> rfl
  rw [modify, modify, modify, key]

@[simp] theorem size_push (tree : Tree κ) (component : Component κ) :
    (tree.push component).size = tree.size + 1 := by
  simp [push, size]

@[simp] theorem root_push (tree : Tree κ) (component : Component κ) :
    (tree.push component).root = tree.root := rfl

@[simp] theorem get_push_self (tree : Tree κ) (component : Component κ) :
    (tree.push component).get ⟨tree.size⟩ = component := by
  simp [get, push, size, Array.getD_eq_getD_getElem?]

/-- `push` keeps the other components. -/
theorem get_push_of_lt {tree : Tree κ} {c : Handle} (h : c.index < tree.size)
    (component : Component κ) : (tree.push component).get c = tree.get c := by
  have h' : c.index < tree.components.size := h
  simp only [get, push, Array.getD_eq_getD_getElem?, Array.getElem?_push, Nat.ne_of_lt h', if_false]

/-- To `modify` the last component is to `push` the changed one. -/
theorem modify_push (tree : Tree κ) (component : Component κ) (f : Component κ → Component κ) :
    (tree.push component).modify ⟨tree.size⟩ f = tree.push (f component) := by
  have key : (tree.components.push component).modify tree.components.size f =
      tree.components.push (f component) := by
    apply Array.ext_getElem?
    intro i
    rw [Array.getElem?_modify, Array.getElem?_push, Array.getElem?_push]
    -- only the last place is changed
    by_cases h : tree.components.size = i
    · simp [h]
    · simp [h, Ne.symm h]
  rw [push, modify, push]
  exact congrArg (fun components => { tree with components }) key

/-- The components after `append` are those before, and the new ones behind them. -/
theorem toList_append (tree : Tree κ) (components : List (Component κ)) :
    (tree.append components).components.toList = tree.components.toList ++ components := by
  simp [append]

@[simp] theorem size_append (tree : Tree κ) (components : List (Component κ)) :
    (tree.append components).size = tree.size + components.length := by
  rw [size, ← Array.length_toList, toList_append, List.length_append, Array.length_toList, size]

@[simp] theorem root_append (tree : Tree κ) (components : List (Component κ)) :
    (tree.append components).root = tree.root := rfl

/-- `append` keeps the components that were there. -/
theorem get_append_of_lt {tree : Tree κ} {c : Handle} (h : c.index < tree.size)
    (components : List (Component κ)) : (tree.append components).get c = tree.get c := by
  have h' : c.index < tree.components.toList.length := h
  rw [get, get, Array.getD_eq_getD_getElem?, Array.getD_eq_getD_getElem?, ← Array.getElem?_toList,
    toList_append, List.getElem?_append_left h', Array.getElem?_toList]

/-- `append` puts the new components behind the others, in their order. -/
theorem get_append_of_getElem? (tree : Tree κ) {components : List (Component κ)} {i : Nat}
    {component : Component κ} (h : components[i]? = some component) :
    (tree.append components).get ⟨tree.size + i⟩ = component := by
  have hsize : tree.components.toList.length = tree.size := Array.length_toList
  rw [get, Array.getD_eq_getD_getElem?, ← Array.getElem?_toList, toList_append, ← hsize,
    List.getElem?_append_right (Nat.le_add_right ..), Nat.add_sub_cancel_left, h, Option.getD_some]

end HybridAutomata.Tree
