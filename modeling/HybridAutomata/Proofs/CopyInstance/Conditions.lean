import HybridAutomata.Proofs.CopyInstance.Result
import HybridAutomata.Proofs.Expr.Variables
/-!
# Conditions with their renamings

The condition on the copies joins the condition on the prototype with one renaming of it for each
copy. A truth value joined with itself is itself; any other condition is joined without being
absorbed, so the joined condition can be taken apart again.

* `joinRenamed`               a condition joined with its renamings, from the left
* `mem_vars_joinRenamed_iff`  it mentions what the condition and its renamings mention
* `joinRenamed_eq_iff`        it tells renamings apart that differ on a mentioned name
* `newName_make`              the names that change in a copy
-/

namespace HybridAutomata

namespace Expr

variable {κ : Type}

/-- Whether an expression is a truth value. -/
def isLiteral : Expr κ → Bool
  | bool _ => true
  | _ => false

theorem isLiteral_iff {e : Expr κ} : e.isLiteral = true ↔ ∃ value, e = bool value := by
  cases e <;> simp [isLiteral]

/-- `rename` neither makes nor loses truth values. -/
theorem isLiteral_rename {e : Expr κ} (names : NameMap String) :
    (e.rename names).isLiteral = e.isLiteral := by
  cases e <;> rfl

theorem isTrue_of_not_isLiteral {e : Expr κ} (h : e.isLiteral = false) : e.isTrue = false := by
  cases e <;> first | rfl | cases h

theorem isFalse_of_not_isLiteral {e : Expr κ} (h : e.isLiteral = false) : e.isFalse = false := by
  cases e <;> first | rfl | cases h

/-- A connective that absorbs truth values: it keeps a truth value that it joins with itself, and
does not look into other expressions. -/
structure IsConnective (join : Expr κ → Expr κ → Expr κ) (op : Operator) : Prop where
  literal : ∀ value, join (bool value) (bool value) = bool value
  proper : ∀ {a b}, a.isLiteral = false → b.isLiteral = false → join a b = binary op a b

/-- `conj` is a connective, for the operator `and`. -/
theorem isConnective_conj : IsConnective (conj (κ := κ)) .and where
  literal value := by cases value <;> rfl
  proper ha hb := by
    -- neither operand is a truth value, so all shortcuts of `conj` are passed over
    simp only [conj, isFalse_of_not_isLiteral ha, isFalse_of_not_isLiteral hb,
      isTrue_of_not_isLiteral ha, isTrue_of_not_isLiteral hb, Bool.or_false, Bool.false_eq_true,
      if_false]

/-- `disj` is a connective, for the operator `or`. -/
theorem isConnective_disj : IsConnective (disj (κ := κ)) .or where
  literal value := by cases value <;> rfl
  proper ha hb := by
    simp only [disj, isFalse_of_not_isLiteral ha, isFalse_of_not_isLiteral hb,
      isTrue_of_not_isLiteral ha, isTrue_of_not_isLiteral hb, Bool.or_false, Bool.false_eq_true,
      if_false]

/-- `binary` keeps its operands apart. -/
theorem binary_inj {op : Operator} {a a' b b' : Expr κ} :
    binary op a b = binary op a' b' ↔ a = a' ∧ b = b' := by
  simp [binary]

end Expr

namespace CopyInstance

variable {κ : Type} {join : Expr κ → Expr κ → Expr κ} {op : Operator}

/-- Both families of conditions are joined by a connective. -/
theorem isConnective_connective (states : StateSet) :
    ∃ op, Expr.IsConnective (connective (κ := κ) states) op := by
  cases states with
  | initial => exact ⟨.and, Expr.isConnective_conj⟩
  | forbidden => exact ⟨.or, Expr.isConnective_disj⟩

/-- A condition joined with its renamings, from the left. -/
def joinRenamed (join : Expr κ → Expr κ → Expr κ) (condition : Expr κ)
    (renamings : List (NameMap String)) : Expr κ :=
  renamings.foldl (fun combined names => join combined (condition.rename names)) condition

/-- `extendCondition` joins a condition with its renamings for the copies. -/
theorem extendCondition_eq (join : Expr κ → Expr κ → Expr κ) (condition : Expr κ)
    (plans : List Plan) :
    extendCondition join condition plans = joinRenamed join condition (plans.map Plan.renames) := by
  rw [extendCondition, joinRenamed, List.foldl_map]

/-- `joinRenamed` leaves a truth value as it is. -/
theorem joinRenamed_bool (h : Expr.IsConnective join op) (value : Bool)
    (renamings : List (NameMap String)) :
    joinRenamed join (.bool value) renamings = .bool value := by
  have hrename (names : NameMap String) : (Expr.bool value : Expr κ).rename names = .bool value :=
    rfl
  rw [joinRenamed]
  -- induction on the renamings; the value stays the same in every step
  induction renamings with
  | nil => rfl
  | cons names rest ih => rw [List.foldl_cons, hrename, h.literal, ih]

/-- Conditions that are no truth values are joined by `binary`, one after the other. -/
theorem foldl_join_eq (h : Expr.IsConnective join op) {condition : Expr κ}
    (hc : condition.isLiteral = false) {combined : Expr κ} (hcombined : combined.isLiteral = false)
    (renamings : List (NameMap String)) :
    renamings.foldl (fun combined names => join combined (condition.rename names)) combined =
      renamings.foldl (fun combined names => .binary op combined (condition.rename names))
        combined := by
  -- a joined condition is no truth value, so nothing is ever absorbed
  induction renamings generalizing combined with
  | nil => rfl
  | cons names rest ih =>
    -- renaming a condition does not make a truth value of it
    have hrename : (condition.rename names).isLiteral = false := by
      rw [Expr.isLiteral_rename]
      exact hc
    rw [List.foldl_cons, List.foldl_cons, h.proper hcombined hrename]
    exact ih rfl

/-- `joinRenamed` mentions what the condition and its renamings mention. -/
theorem mem_vars_joinRenamed_iff (h : Expr.IsConnective join op) {condition : Expr κ}
    {renamings : List (NameMap String)} {name : String} :
    name ∈ (joinRenamed join condition renamings).vars ↔
      name ∈ condition.vars ∨ ∃ names ∈ renamings, ∃ old ∈ condition.vars,
        name = Expr.newName names old := by
  -- a truth value mentions nothing, and it is joined in another way
  cases hc : condition.isLiteral with
  | true =>
    obtain ⟨value, rfl⟩ := Expr.isLiteral_iff.1 hc
    rw [joinRenamed_bool h]
    simp
  | false =>
    -- the condition that has been joined so far varies along the fold
    have key (combined : Expr κ) :
        name ∈ (renamings.foldl
          (fun combined names => .binary op combined (condition.rename names)) combined).vars ↔
            name ∈ combined.vars ∨ ∃ names ∈ renamings, ∃ old ∈ condition.vars,
              name = Expr.newName names old := by
      induction renamings generalizing combined with
      | nil => simp
      | cons names rest ih =>
        rw [List.foldl_cons, ih]
        simp only [Expr.binary, Expr.mem_vars_apply, List.mem_cons, List.not_mem_nil, or_false,
          exists_eq_or_imp, exists_eq_left, Expr.mem_vars_rename_iff, or_assoc]
    rw [joinRenamed, foldl_join_eq h hc hc, key]

/-- `joinRenamed` gives the same for two lists of renamings just if they agree, pair by pair, on the
names that are mentioned. -/
theorem joinRenamed_eq_iff (h : Expr.IsConnective join op) {condition : Expr κ}
    {renamings renamings' : List (NameMap String)}
    (hlength : renamings.length = renamings'.length) :
    joinRenamed join condition renamings = joinRenamed join condition renamings' ↔
      ∀ pair ∈ renamings.zip renamings', ∀ name ∈ condition.vars,
        Expr.newName pair.1 name = Expr.newName pair.2 name := by
  cases hc : condition.isLiteral with
  | true =>
    obtain ⟨value, rfl⟩ := Expr.isLiteral_iff.1 hc
    rw [joinRenamed_bool h, joinRenamed_bool h]
    simp
  | false =>
    -- two folds of one operator are equal just if they are in every step
    have key (combined combined' : Expr κ) :
        renamings.foldl (fun combined names => Expr.binary op combined (condition.rename names))
            combined =
          renamings'.foldl (fun combined names => Expr.binary op combined (condition.rename names))
            combined' ↔
        combined = combined' ∧ ∀ pair ∈ renamings.zip renamings', ∀ name ∈ condition.vars,
          Expr.newName pair.1 name = Expr.newName pair.2 name := by
      -- induction on both lists, which are of one length
      induction renamings generalizing renamings' combined combined' with
      | nil =>
        obtain rfl := List.length_eq_zero_iff.1 hlength.symm
        simp
      | cons names rest ih =>
        obtain ⟨names', rest', rfl⟩ := List.exists_cons_of_length_eq_add_one hlength.symm
        rw [List.foldl_cons, List.foldl_cons, ih (Nat.succ.inj hlength), Expr.binary_inj,
          Expr.rename_eq_rename_iff, List.zip_cons_cons, List.forall_mem_cons, and_assoc]
    rw [joinRenamed, joinRenamed, foldl_join_eq h hc hc, foldl_join_eq h hc hc, key]
    exact and_iff_right rfl

/-! ## Renamings that put a start before names -/

/-- `newName` of a map that puts a start before some names: it does so to these names only. -/
theorem newName_ofList (names : List String) (start old : String) :
    Expr.newName (.ofList (names.map fun name => (name, start ++ name))) old =
      if old ∈ names then start ++ old else old := by
  rw [Expr.newName, NameMap.get?_ofList_map]
  split <;> rfl

/-- `newName` in a copy changes the names to which the prototype is bound. -/
theorem newName_make (prototype : Instance) (name start old : String) :
    Expr.newName (Plan.make prototype name start).renames old =
      if old ∈ outerNames prototype.vars then start ++ old else old := by
  rw [← newName_ofList, outerNames, List.map_map]
  rfl

end CopyInstance
end HybridAutomata
