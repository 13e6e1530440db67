import HybridAutomata.Proofs.Expr.Folding
import HybridAutomata.Proofs.NameMap.Rekey
import HybridAutomata.Proofs.Scalar.Integer
import Mathlib.Data.List.Forall2
/-!
# Simultaneous substitution

What is put in for a name is not looked at again. So a substitution is known by what it does to each
name on its own, also where the expressions that are put in mention the replaced names: to evaluate
the result is to evaluate the expression with every replaced name read as what is put in for it, and
the names of the result come in the order in which the names of the expression are replaced.

A renaming is the substitution of variables for names. It keeps the shape of an expression, and it
can be undone just if it does not make one name of two.

* `Compositional.value_substitute`   the value of a substitution
* `occurrences_substitute`           the occurrences of names in a substitution
* `rename_eq_substitute`             a renaming is a substitution
* `rename_inverse_iff`               which renamings can be undone
* `substitution_is_simultaneous`     all of this
-/

namespace HybridAutomata

namespace NameMap

variable {names : NameMap String} {used : List String} {old new : String}

/-- The names of a list that are renamed, each under its new name. -/
def inverseOn (names : NameMap String) (used : List String) : NameMap String :=
  .ofList ((names.entries.filter fun entry => entry.1 ∈ used).map Prod.swap)

/-- `inverseOn` finds only names that were renamed to what it is asked for. -/
theorem of_get?_inverseOn (h : (names.inverseOn used).get? new = some old) :
    names.get? old = some new ∧ old ∈ used := by
  -- a map that is built from a list finds entries of the list only
  rcases get?_insertAll_eq_some h with hempty | hentry
  · cases hempty
  · obtain ⟨⟨left, right⟩, he, heq⟩ := List.mem_map.1 hentry
    obtain ⟨rfl, rfl⟩ := Prod.mk.inj heq
    simpa [get?_eq_some_iff] using List.mem_filter.1 he

/-- `inverseOn` has an entry for the new name of every name in the list that is renamed. -/
theorem mem_keys_inverseOn (h : names.get? old = some new) (hold : old ∈ used) :
    new ∈ (names.inverseOn used).keys := by
  have hentry : (old, new) ∈ names.entries.filter fun entry => entry.1 ∈ used :=
    List.mem_filter.2 ⟨get?_eq_some_iff.1 h, decide_eq_true hold⟩
  rw [inverseOn, mem_keys_ofList, List.map_map]
  exact List.mem_map_of_mem hentry

end NameMap

namespace Expr

variable {κ : Type}

/-! ## Values -/

section Values

variable {α : Type*} {value : (String → α) → Expr κ → α}

/-- An evaluator reads a name as it is assigned, and an operation off the values of its operands. -/
structure Compositional (value : (String → α) → Expr κ → α) : Prop where
  bool : ∀ env env' b, value env (.bool b) = value env' (.bool b)
  const : ∀ env env' x, value env (.const x) = value env' (.const x)
  var : ∀ env name, value env (.var name) = env name
  apply : ∀ env env' op operands operands', operands.map (value env) = operands'.map (value env') →
    value env (.apply op operands) = value env' (.apply op operands')

/-- The value of a name with a substitution ahead: that of what is put in for it, or its own. -/
def valueAhead (value : (String → α) → Expr κ → α) (values : NameMap (Expr κ)) (env : String → α)
    (name : String) : α :=
  match values.get? name with
  | some image => value env image
  | none => env name

/-- `substitute` goes to the operands of an operation. -/
theorem substitute_apply (op : Operator) (operands : List (Expr κ)) (values : NameMap (Expr κ)) :
    (apply op operands).substitute values = apply op (operands.map (·.substitute values)) :=
  transform_apply ..

/-- `substitute` is evaluated by evaluating what is put in first. -/
theorem Compositional.value_substitute (h : Compositional value) (e : Expr κ)
    (values : NameMap (Expr κ)) (env : String → α) :
    -- induction on the expression; the evaluator is compositional, so operands are all that counts
    value env (e.substitute values) = value (valueAhead value values env) e := by
  induction e using induct with
  | bool b => exact h.bool ..
  | const x => exact h.const ..
  | var name =>
    rw [h.var, valueAhead]
    change value env ((values.get? name).getD (.var name)) = _
    cases values.get? name with
    | none => exact h.var ..
    | some image => rfl
  | apply op operands ih =>
    rw [substitute_apply]
    apply h.apply
    rw [List.map_map]
    exact List.map_congr_left ih

end Values

/-- `eval` is an evaluator of this kind. -/
theorem compositional_eval [Scalar κ] : Compositional (eval (κ := κ)) where
  bool _ _ _ := rfl
  const _ _ _ := rfl
  var _ _ := rfl
  apply env env' op operands operands' h := by
    -- an operation reads the values of its operands only
    have hall : evalAll env operands = evalAll env' operands' := by
      -- induction on both lists of operands, which are of one length
      induction operands generalizing operands' with
      | nil =>
        obtain rfl := List.map_eq_nil_iff.1 h.symm
        rfl
      | cons e rest ih =>
        cases operands' with
        | nil => cases h
        | cons e' rest' =>
          obtain ⟨he, hrest⟩ := List.cons.inj h
          rw [evalAll, evalAll, he, ih rest' hrest]
    rw [eval, eval, hall]

/-! ## Occurrences of names -/

/-- The names in an expression from left to right, with repetitions. -/
def occurrences (e : Expr κ) : List String :=
  e.preorder.filterMap name?

@[simp] theorem occurrences_bool (value : Bool) : (bool value : Expr κ).occurrences = [] := rfl

@[simp] theorem occurrences_const (value : κ) : (const value).occurrences = [] := rfl

@[simp] theorem occurrences_var (name : String) : (var name : Expr κ).occurrences = [name] := rfl

/-- `occurrences` of an operation are those of its operands, from left to right. -/
@[simp] theorem occurrences_apply (op : Operator) (operands : List (Expr κ)) :
    (apply op operands).occurrences = operands.flatMap occurrences := by
  rw [occurrences, preorder, preorderAll_eq_flatMap, List.filterMap_cons_none rfl,
    List.filterMap_flatMap]
  rfl

/-- `vars` are the `occurrences` without repetitions, in the order in which they are found first. -/
theorem vars_eq_firstOccurrences (e : Expr κ) : e.vars = firstOccurrences e.occurrences := by
  rw [vars, nodes_eq, occurrences]

/-- The occurrences that come in for one occurrence of a name. -/
def occurrencesAhead (values : NameMap (Expr κ)) (name : String) : List String :=
  match values.get? name with
  | some image => image.occurrences
  | none => [name]

/-- `substitute` replaces every occurrence of a name by those of what is put in for it. -/
theorem occurrences_substitute (e : Expr κ) (values : NameMap (Expr κ)) :
    (e.substitute values).occurrences = e.occurrences.flatMap (occurrencesAhead values) := by
  -- induction on the expression; what is put in is not looked at again
  induction e using induct with
  | bool value => rfl
  | const value => rfl
  | var name =>
    rw [occurrences_var, List.flatMap_singleton, occurrencesAhead]
    change ((values.get? name).getD (.var name)).occurrences = _
    cases values.get? name <;> rfl
  | apply op operands ih =>
    rw [substitute_apply, occurrences_apply, occurrences_apply, List.flatMap_map,
      List.flatMap_assoc]
    exact List.flatMap_congr ih

/-! ## Renaming -/

/-- `rename` is the substitution of variables for names. -/
theorem rename_eq_substitute (e : Expr κ) (names : NameMap String) :
    e.rename names = e.substitute (names.mapValues var) := by
  -- the two rules for a node do the same on variables and nothing on other nodes
  have hnode : renameNode names = (replace (names.mapValues var) : Expr κ → Expr κ) := by
    funext node
    cases node with
    | var name =>
      rw [renameNode, newName, replace, NameMap.get?_mapValues]
      cases names.get? name <;> rfl
    | bool | const | apply => rfl
  rw [rename, substitute, hnode]

/-- Two expressions with the same operators, numbers and truth values in the same places. -/
inductive SameShape : Expr κ → Expr κ → Prop where
  | bool (value : Bool) : SameShape (bool value) (bool value)
  | const (value : κ) : SameShape (const value) (const value)
  | var (left right : String) : SameShape (var left) (var right)
  | apply (op : Operator) {left right : List (Expr κ)} (h : List.Forall₂ SameShape left right) :
    SameShape (apply op left) (apply op right)

/-- `rename` keeps the shape of an expression. -/
theorem sameShape_rename (e : Expr κ) (names : NameMap String) : e.SameShape (e.rename names) := by
  rw [rename]
  induction e using induct with
  | bool value => exact .bool value
  | const value => exact .const value
  | var name => exact .var ..
  | apply op operands ih =>
    rw [transform_apply]
    refine .apply op (List.forall₂_map_right_iff.2 ?_)
    -- operands correspond to themselves, each by the induction hypothesis
    exact List.forall₂_same.2 ih

/-- A renaming merges no two of the given names. -/
def KeepsApart (names : NameMap String) (used : List String) : Prop :=
  ∀ left ∈ used, ∀ right ∈ used, newName names left = newName names right → left = right

/-- `inverseOn` gives back names that are kept apart. -/
theorem newName_inverseOn {names : NameMap String} {used : List String}
    (hapart : KeepsApart names used) {name : String} (hname : name ∈ used) :
    newName (names.inverseOn used) (newName names name) = name := by
  -- a new name may be an old one as well, so the inverse may have an entry for a name that was kept
  cases hback : (names.inverseOn used).get? (newName names name) with
  | some old =>
    -- the entry may come from another name, but no other name has that new name
    obtain ⟨hold, hused⟩ := NameMap.of_get?_inverseOn hback
    rw [newName, hback, Option.getD_some]
    refine hapart old hused name hname ?_
    rw [newName, hold, Option.getD_some]
  | none =>
    -- then the name was not renamed
    rw [NameMap.get?_eq_none_iff] at hback
    cases hnew : names.get? name with
    | some new =>
      rw [newName, hnew] at hback
      exact absurd (NameMap.mem_keys_inverseOn hnew hname) hback
    | none =>
      have hkept : newName names name = name := by rw [newName, hnew, Option.getD_none]
      rw [← NameMap.get?_eq_none_iff] at hback
      rw [newName, hback, hkept, Option.getD_none]

/-- `rename` is undone by the inverse of the renaming just if the renaming keeps the names of the
expression apart. -/
theorem rename_inverse_iff {e : Expr κ} {names : NameMap String} :
    (e.rename names).rename (names.inverseOn e.vars) = e ↔ KeepsApart names e.vars := by
  rw [rename_eq_mapNames, rename_eq_mapNames, mapNames_mapNames_eq_self_iff]
  constructor
  · -- two names that became one are given back as one
    intro h left hl right hr heq
    rw [← h left hl, heq, h right hr]
  · exact fun hapart name hname => newName_inverseOn hapart hname

/-- A substitution replaces all names at once, whatever the expressions mention that are put in. It
has the value of the expression under the assignment that looks ahead, whichever way expressions are
evaluated, and it mentions what is put in for the names of the expression, in their order. A
renaming is the substitution of variables; it keeps the shape, and its inverse undoes it just if no
two names of the expression become one. -/
theorem substitution_is_simultaneous {α : Type*} {value : (String → α) → Expr κ → α}
    (hvalue : Compositional value) (e : Expr κ) (values : NameMap (Expr κ))
    (names : NameMap String) :
    (∀ env, value env (e.substitute values) = value (valueAhead value values env) e) ∧
      (e.substitute values).vars =
        firstOccurrences (e.occurrences.flatMap (occurrencesAhead values)) ∧
      e.rename names = e.substitute (names.mapValues var) ∧
      ((e.rename names).rename (names.inverseOn e.vars) = e ↔ KeepsApart names e.vars) ∧
      e.SameShape (e.rename names) := by
  -- every part but the list of names is a lemma of its own
  refine ⟨hvalue.value_substitute e values, ?_, rename_eq_substitute e names, rename_inverse_iff,
    sameShape_rename e names⟩
  rw [vars_eq_firstOccurrences, occurrences_substitute]

/-- The difference of two variables. -/
def difference : Expr Int :=
  .binary .subtract (.var "x") (.var "y")

/-- Both names are replaced, by expressions that mention both of them, and both are swapped and
swapped back. -/
theorem difference_is_substituted_at_once :
    Compositional (eval (κ := Int)) ∧
      KeepsApart (.ofList [("x", "y"), ("y", "x")]) difference.vars ∧
      eval (fun name => some (.number (if name = "x" then 5 else 3)))
        (difference.substitute
          (.ofList [("x", .var "y"), ("y", .binary .add (.var "y") (.var "x"))])) =
          some (.number (-5)) ∧
      (difference.rename (.ofList [("x", "y"), ("y", "x")])).rename
        ((NameMap.ofList [("x", "y"), ("y", "x")]).inverseOn difference.vars) = difference := by
  -- the two names trade places, so they stay apart
  have hapart : KeepsApart (.ofList [("x", "y"), ("y", "x")]) difference.vars := by
    have hvars : difference.vars = ["x", "y"] := by
      rw [vars_eq_firstOccurrences]
      rfl
    rw [hvars, KeepsApart]
    decide
  obtain ⟨hvalue, -, -, hback, -⟩ := substitution_is_simultaneous (compositional_eval (κ := Int))
    difference (.ofList [("x", .var "y"), ("y", .binary .add (.var "y") (.var "x"))])
    (.ofList [("x", "y"), ("y", "x")])
  exact ⟨compositional_eval, hapart, (hvalue _).trans (by decide), hback.2 hapart⟩

end Expr
end HybridAutomata
