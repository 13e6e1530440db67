import HybridAutomata.Expr.Simplify
import HybridAutomata.Expr.Traversal
import HybridAutomata.Proofs.NameMap.Lookup
/-!
# The names that an expression mentions

`vars` is defined by a walk over the nodes. The lemmas here describe it along the structure of an
expression instead, and then for every way in which an expression is changed.

* `induct`                       induction over expressions with lists of operands
* `mem_vars_apply`               an operation mentions what its operands mention
* `mem_vars_substitute_iff`      a substitution mentions what is left and what is put in
* `mem_vars_rename_iff`          a renaming mentions the new names
* `mem_vars_of_simplify`         folding mentions nothing new
-/

namespace HybridAutomata

/-- `firstOccurrences` keeps every name once. -/
theorem mem_firstOccurrences {names : List String} {name : String} :
    name ∈ firstOccurrences names ↔ name ∈ names := by
  induction names with
  | nil => rfl
  | cons first rest ih =>
    rw [firstOccurrences, List.mem_cons, List.mem_cons, List.mem_filter, ih]
    -- a name that is filtered out is the first one, which is kept
    by_cases h : name = first
    · simp [h]
    · simp [h]

/-- `firstOccurrences` leaves out names and does not move any. -/
theorem firstOccurrences_sublist (names : List String) :
    (firstOccurrences names).Sublist names := by
  induction names with
  | nil => exact List.Sublist.refl _
  | cons first rest ih => exact (List.filter_sublist.trans ih).cons_cons first

/-- `firstOccurrences` lists no name twice. -/
theorem nodup_firstOccurrences (names : List String) : (firstOccurrences names).Nodup := by
  induction names with
  | nil => exact List.nodup_nil
  | cons first rest ih =>
    refine List.nodup_cons.2 ⟨fun hm => ?_, ih.sublist List.filter_sublist⟩
    simpa using (List.mem_filter.1 hm).2

/-- `firstOccurrences` of different names are the names as they are. -/
theorem firstOccurrences_eq_self {names : List String} (h : names.Nodup) :
    firstOccurrences names = names := by
  induction names with
  | nil => rfl
  | cons first rest ih =>
    rw [List.nodup_cons] at h
    rw [firstOccurrences, ih h.2, List.filter_eq_self.2 fun name hn => ?_]
    exact decide_eq_true fun he => h.1 (he ▸ hn)

/-- `firstOccurrences` come in the order in which they are found. -/
theorem pairwise_firstOccurrences (names : List String) :
    (firstOccurrences names).Pairwise fun left right => names.idxOf left < names.idxOf right := by
  induction names with
  | nil => exact .nil
  | cons first rest ih =>
    -- what is left of the rest differs from the first name
    have hne {name : String} (hn : name ∈ (firstOccurrences rest).filter (· ≠ first)) :
        first ≠ name := fun he => by simpa [he] using (List.mem_filter.1 hn).2
    -- places in the whole list are one behind those in the rest
    refine .cons (fun name hn => ?_) ((ih.sublist List.filter_sublist).imp_of_mem ?_)
    · rw [List.idxOf_cons_self, List.idxOf_cons_ne rest (hne hn)]
      exact Nat.zero_lt_succ _
    · intro left right hl hr hlt
      rw [List.idxOf_cons_ne rest (hne hl), List.idxOf_cons_ne rest (hne hr)]
      exact Nat.succ_lt_succ hlt

namespace Expr

variable {κ : Type}

/-! ## Induction -/

/-- What holds of the leaves, and of an operation if it holds of its operands, holds of every
expression. -/
theorem induct {motive : Expr κ → Prop} (bool : ∀ value, motive (.bool value))
    (const : ∀ value, motive (.const value)) (var : ∀ name, motive (.var name))
    (apply : ∀ op operands, (∀ e ∈ operands, motive e) → motive (.apply op operands)) :
    ∀ e, motive e
  | .bool value => bool value
  | .const value => const value
  | .var name => var name
  | .apply op operands => apply op operands fun e _ => induct bool const var apply e

/-- `transformAll` applies the rule to every operand. -/
theorem transformAll_eq_map (rule : Expr κ → Expr κ) (operands : List (Expr κ)) :
    transformAll rule operands = operands.map (transform rule) := by
  induction operands with
  | nil => rfl
  | cons e rest ih => rw [transformAll, ih, List.map_cons]

/-- `transform` changes the operands first, and then the operation that is made of them. -/
theorem transform_apply (rule : Expr κ → Expr κ) (op : Operator) (operands : List (Expr κ)) :
    (apply op operands).transform rule = rule (apply op (operands.map (transform rule))) := by
  rw [transform, transformAll_eq_map]

/-- `preorderAll` lists the nodes of one expression after the other. -/
theorem preorderAll_eq_flatMap (es : List (Expr κ)) : preorderAll es = es.flatMap preorder := by
  induction es with
  | nil => rfl
  | cons e rest ih => rw [preorderAll, ih, List.flatMap_cons]

theorem nodes_eq (e : Expr κ) : e.nodes = e.preorder := by
  rw [nodes, visit_eq_preorderAll, preorderAll, preorderAll, List.append_nil]

/-! ## Mentioned names -/

/-- `vars` are the names of the variables among the nodes. -/
theorem mem_vars_iff {e : Expr κ} {name : String} : name ∈ e.vars ↔ var name ∈ e.preorder := by
  -- a name is mentioned if one of the nodes is a variable with that name
  rw [vars, mem_firstOccurrences, nodes_eq, List.mem_filterMap]
  constructor
  · rintro ⟨node, hn, hname⟩
    cases node with
    | var other => exact Option.some.inj hname ▸ hn
    | bool => cases hname
    | const => cases hname
    | apply => cases hname
  · exact fun h => ⟨_, h, rfl⟩

@[simp] theorem mem_vars_bool {value : Bool} {name : String} :
    name ∈ (bool value : Expr κ).vars ↔ False := by
  simp [mem_vars_iff, preorder]

@[simp] theorem mem_vars_const {value : κ} {name : String} :
    name ∈ (const value).vars ↔ False := by
  simp [mem_vars_iff, preorder]

@[simp] theorem mem_vars_var {name other : String} :
    name ∈ (var other : Expr κ).vars ↔ name = other := by
  simp [mem_vars_iff, preorder]

@[simp] theorem mem_vars_apply {op : Operator} {operands : List (Expr κ)} {name : String} :
    name ∈ (apply op operands).vars ↔ ∃ e ∈ operands, name ∈ e.vars := by
  simp [mem_vars_iff, preorder, preorderAll_eq_flatMap]

/-! ## Substitution and renaming -/

/-- `substitute` leads to an expression that mentions the names without a value, and the names in
the values. -/
theorem mem_vars_substitute_iff {e : Expr κ} {values : NameMap (Expr κ)} {name : String} :
    name ∈ (e.substitute values).vars ↔
      ∃ old ∈ e.vars, name ∈ ((values.get? old).getD (var old)).vars := by
  rw [substitute]
  -- induction on the expression; only variables are replaced
  induction e using induct with
  | bool value => simp [transform, replace]
  | const value => simp [transform, replace]
  | var other => simp [transform, replace]
  | apply op operands ih =>
    simp only [transform_apply, replace, mem_vars_apply, List.mem_map]
    constructor
    · rintro ⟨_, ⟨e, he, rfl⟩, h⟩
      obtain ⟨old, ho, hm⟩ := (ih e he).1 h
      exact ⟨old, ⟨e, he, ho⟩, hm⟩
    · rintro ⟨old, ⟨e, he, ho⟩, hm⟩
      exact ⟨_, ⟨e, he, rfl⟩, (ih e he).2 ⟨old, ho, hm⟩⟩

/-- `substitute` with numbers only leaves the names that have no value. -/
theorem mem_vars_substitute_of_const {e : Expr κ} {values : NameMap (Expr κ)} {name : String}
    (hvalues : ∀ other value, values.get? other = some value → ∃ number, value = const number)
    (h : name ∈ (e.substitute values).vars) : name ∈ e.vars ∧ values.get? name = none := by
  obtain ⟨old, ho, hm⟩ := mem_vars_substitute_iff.1 h
  -- a name that is replaced leaves no name behind
  cases hv : values.get? old with
  | none =>
    rw [hv, Option.getD_none, mem_vars_var] at hm
    exact ⟨hm ▸ ho, hm ▸ hv⟩
  | some value =>
    obtain ⟨number, rfl⟩ := hvalues old value hv
    rw [hv, Option.getD_some, mem_vars_const] at hm
    exact hm.elim

/-- `rename` leads to an expression that mentions the new names, and nothing else. -/
theorem mem_vars_rename_iff {e : Expr κ} {names : NameMap String} {name : String} :
    name ∈ (e.rename names).vars ↔ ∃ old ∈ e.vars, name = newName names old := by
  rw [rename]
  -- induction on the expression; only variables are renamed
  induction e using induct with
  | bool value => simp [transform, renameNode]
  | const value => simp [transform, renameNode]
  | var other => simp [transform, renameNode]
  | apply op operands ih =>
    simp only [transform_apply, renameNode, mem_vars_apply, List.mem_map]
    constructor
    · rintro ⟨_, ⟨e, he, rfl⟩, h⟩
      obtain ⟨old, ho, hm⟩ := (ih e he).1 h
      exact ⟨old, ⟨e, he, ho⟩, hm⟩
    · rintro ⟨old, ⟨e, he, ho⟩, hm⟩
      exact ⟨_, ⟨e, he, rfl⟩, (ih e he).2 ⟨old, ho, hm⟩⟩

/-- Replaces the name of a variable, and leaves other nodes alone. -/
def mapNode (f : String → String) : Expr κ → Expr κ
  | var name => var (f name)
  | e => e

/-- Replaces all names. -/
def mapNames (e : Expr κ) (f : String → String) : Expr κ :=
  e.transform (mapNode f)

/-- `rename` replaces names as `newName` does. -/
theorem rename_eq_mapNames (e : Expr κ) (names : NameMap String) :
    e.rename names = e.mapNames (newName names) := by
  have hnode : renameNode names = (mapNode (newName names) : Expr κ → Expr κ) := by
    funext e
    cases e <;> rfl
  rw [rename, mapNames, hnode]

/-- `mapNames` of two functions is the same just if they agree on the names that are mentioned. -/
theorem mapNames_eq_mapNames_iff {e : Expr κ} {f g : String → String} :
    e.mapNames f = e.mapNames g ↔ ∀ name ∈ e.vars, f name = g name := by
  rw [mapNames, mapNames]
  induction e using induct with
  | bool value => simp [transform, mapNode]
  | const value => simp [transform, mapNode]
  | var other => simp [transform, mapNode]
  | apply op operands ih =>
    simp only [transform_apply, mapNode, apply.injEq, true_and, mem_vars_apply]
    -- lists of operands are equal just if the operands are, one by one
    rw [List.map_inj_left]
    constructor
    · rintro h name ⟨e, he, hn⟩
      exact (ih e he).1 (h e he) name hn
    · intro h e he
      exact (ih e he).2 fun name hn => h name ⟨e, he, hn⟩

/-- `mapNames` twice is `mapNames` of the composition. -/
theorem mapNames_mapNames (e : Expr κ) (f g : String → String) :
    (e.mapNames f).mapNames g = e.mapNames (g ∘ f) := by
  rw [mapNames, mapNames, mapNames]
  induction e using induct with
  | bool value => rfl
  | const value => rfl
  | var other => rfl
  | apply op operands ih =>
    simp only [transform_apply, mapNode, List.map_map, apply.injEq, true_and]
    exact List.map_congr_left ih

/-- `mapNames` of the identity changes nothing. -/
theorem mapNames_id (e : Expr κ) : e.mapNames id = e := by
  rw [mapNames]
  induction e using induct with
  | bool value => rfl
  | const value => rfl
  | var other => rfl
  | apply op operands ih =>
    rw [transform_apply, List.map_eq_self ih]
    rfl

/-- `mapNames` is undone by a function that gives back every name that is mentioned, and by no
other. -/
theorem mapNames_mapNames_eq_self_iff {e : Expr κ} {f g : String → String} :
    (e.mapNames f).mapNames g = e ↔ ∀ name ∈ e.vars, g (f name) = name := by
  -- undoing a replacement is composing it to the identity
  have hmap : e.mapNames (g ∘ f) = e.mapNames id ↔ ∀ name ∈ e.vars, (g ∘ f) name = id name :=
    mapNames_eq_mapNames_iff
  rwa [mapNames_id, ← mapNames_mapNames] at hmap

/-- `rename` by two maps is the same just if they agree on the names that are mentioned. -/
theorem rename_eq_rename_iff {e : Expr κ} {names names' : NameMap String} :
    e.rename names = e.rename names' ↔
      ∀ name ∈ e.vars, newName names name = newName names' name := by
  rw [rename_eq_mapNames, rename_eq_mapNames, mapNames_eq_mapNames_iff]

/-- `rename` makes no truth value of anything else. -/
theorem rename_eq_bool_iff {e : Expr κ} {names : NameMap String} {value : Bool} :
    e.rename names = bool value ↔ e = bool value := by
  cases e <;> simp [rename, transform, renameNode]

/-! ## Literals -/

theorem isTrue_iff {e : Expr κ} : e.isTrue = true ↔ e = bool true := by
  cases e <;> simp [isTrue]

theorem isFalse_iff {e : Expr κ} : e.isFalse = true ↔ e = bool false := by
  cases e <;> simp [isFalse]

/-- `conj` mentions nothing but what its sides mention. -/
theorem mem_vars_of_conj {a b : Expr κ} {name : String} (h : name ∈ (conj a b).vars) :
    name ∈ a.vars ∨ name ∈ b.vars := by
  rw [conj] at h
  -- a shortcut gives a truth value or one of the sides
  split at h
  · exact (mem_vars_bool.1 h).elim
  split at h
  · exact .inr h
  split at h
  · exact .inl h
  · simpa [binary] using h

/-- `disj` mentions nothing but what its sides mention. -/
theorem mem_vars_of_disj {a b : Expr κ} {name : String} (h : name ∈ (disj a b).vars) :
    name ∈ a.vars ∨ name ∈ b.vars := by
  rw [disj] at h
  split at h
  · exact (mem_vars_bool.1 h).elim
  split at h
  · exact .inr h
  split at h
  · exact .inl h
  · simpa [binary] using h

/-! ## Folding -/

section Folding

variable [Scalar κ]

/-- `foldUnary` mentions nothing but what the operand mentions. -/
theorem mem_vars_of_foldUnary {op : Operator} {a : Expr κ} {name : String}
    (h : name ∈ (foldUnary op a).vars) : name ∈ a.vars := by
  rw [foldUnary.eq_def] at h
  split at h
  · exact (mem_vars_bool.1 h).elim
  · split at h
    · exact (mem_vars_const.1 h).elim
    · simp [unary] at h
  · simpa [unary] using h

/-- `foldBinary` mentions nothing but what the operands mention. -/
theorem mem_vars_of_foldBinary {op : Operator} {a b : Expr κ} {name : String}
    (h : name ∈ (foldBinary op a b).vars) : name ∈ a.vars ∨ name ∈ b.vars := by
  rw [foldBinary.eq_def] at h
  -- what is folded is a literal, and what is not folded is as before
  split at h
  · split at h
    · exact (mem_vars_bool.1 h).elim
    · exact (mem_vars_const.1 h).elim
    · simp [binary] at h
  · split at h
    · exact (mem_vars_bool.1 h).elim
    · simpa [binary] using h

/-- `simplifyNode` mentions nothing new. -/
theorem mem_vars_of_simplifyNode {e : Expr κ} {name : String} (h : name ∈ e.simplifyNode.vars) :
    name ∈ e.vars := by
  rw [simplifyNode.eq_def] at h
  split at h
  · simpa using mem_vars_of_foldUnary h
  · split at h
    · simpa using mem_vars_of_conj h
    · simpa using mem_vars_of_disj h
    · simpa using mem_vars_of_foldBinary h
  · exact h

/-- `simplify` mentions nothing new. -/
theorem mem_vars_of_simplify {e : Expr κ} {name : String} (h : name ∈ e.simplify.vars) :
    name ∈ e.vars := by
  rw [simplify] at h
  -- induction on the expression; what the operands mention is known before the node is folded
  induction e using induct with
  | bool value => simp [transform, simplifyNode] at h
  | const value => simp [transform, simplifyNode] at h
  | var other => simpa [transform, simplifyNode] using h
  | apply op operands ih =>
    rw [transform_apply] at h
    obtain ⟨_, hm, hn⟩ := mem_vars_apply.1 (mem_vars_of_simplifyNode h)
    obtain ⟨e, he, rfl⟩ := List.mem_map.1 hm
    exact mem_vars_apply.2 ⟨e, he, ih e he hn⟩

end Folding

end Expr
end HybridAutomata
