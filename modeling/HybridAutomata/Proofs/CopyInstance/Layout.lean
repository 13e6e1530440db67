import HybridAutomata.Proofs.CopyInstance.Result
import HybridAutomata.Proofs.Tree.Shallow
/-!
# The tree of the result

The root of the result has the old instances with the copies behind them, each over an automaton
like the one it comes from: `exists_origin`. If the tree was well-formed before then only the names
in the root can spoil it, `Prepared.wellFormed_iff`.

* `globalName_entryOf`            what the variables of a copy are called
* `Prepared.mem_entries_iff`      the instances of the result
* `Prepared.shallow_result`       the result is a network of automata again
* `Prepared.wellFormed_iff`       which names in the root are accepted
-/

namespace HybridAutomata.CopyInstance

variable {κ : Type}

/-! ## Names of a copy -/

/-- The starts of new names, one for each copy. -/
def starts (options : Options) : List String :=
  (List.range (options.count - 1).toNat).map fun i => startOf options.stem (i + 2)

/-- Old names behind every start. -/
def startedNames (starts names : List String) : List String :=
  starts.flatMap fun start => names.map (start ++ ·)

/-- A name is one of the `startedNames` just if a start and an old name make it up. -/
theorem mem_startedNames_iff {starts names : List String} {name : String} :
    name ∈ startedNames starts names ↔
      ∃ start ∈ starts, ∃ old ∈ names, start ++ old = name := by
  rw [startedNames, List.mem_flatMap]
  simp only [List.mem_map]

/-- In `entryOf` a copy the variables and labels are bound inside as in the prototype and outside to
names with the start of the copy. -/
theorem bindings_entryOf (root : Handle) (prototype : Instance) (name start : String) (place : Nat)
    {kind : NameKind} (hkind : kind ≠ .const) :
    (entryOf root prototype (Plan.make prototype name start) place).bindings kind =
      (prototype.bindings kind).map fun binding => ⟨binding.inner, start ++ binding.outer⟩ := by
  -- constants are bound as in the prototype, so the hypothesis rules them out
  cases kind with
  | var => rfl
  | label => rfl
  | const => exact absurd rfl hkind

/-- `outerName?` of a copy is that of the prototype with the start of the copy. -/
theorem outerName?_entryOf (root : Handle) (prototype : Instance) (name start : String)
    (place : Nat) (inner : String) :
    (entryOf root prototype (Plan.make prototype name start) place).outerName? .var inner =
      (prototype.outerName? .var inner).map (start ++ ·) := by
  have hkind : NameKind.var ≠ .const := by decide
  -- the inner sides have not changed, so the same binding is found
  rw [Instance.outerName?, bindings_entryOf _ _ _ _ _ hkind]
  simp only [Instance.outerName?, List.find?_map, Option.map_map, Function.comp_def]

/-- `Tree.globalName` of a variable of a copy is that of the prototype with the start of the copy.
-/
theorem globalName_entryOf (root : Handle) (prototype : Instance) (name start : String)
    (place : Nat) (inner : String) :
    Tree.globalName (Plan.make prototype name start).name
        (entryOf root prototype (Plan.make prototype name start) place) inner =
      start ++ Tree.globalName name prototype inner := by
  -- a bound variable takes its start from the binding, a local one from the name of the copy
  rw [Tree.globalName, outerName?_entryOf, Tree.globalName]
  cases prototype.outerName? .var inner with
  | none => simp only [Plan.make, Option.map_none, Option.getD_none, String.append_assoc]
  | some outer => rfl

/-- `startOf` an identifier is one: digits and an underscore may stand behind the stem. -/
theorem isIdentifier_startOf {stem : String} (h : Text.isIdentifier stem = true) (number : Nat) :
    Text.isIdentifier (startOf stem number) = true := by
  have hunderscore (c : Char) (hc : c ∈ "_".toList) : Text.isInner c = true := by
    rw [List.mem_singleton.1 hc]
    rfl
  exact Text.isIdentifier_append (Text.isIdentifier_append_digits h number) hunderscore

/-- `startOf` an identifier followed by an identifier is an identifier. -/
theorem isIdentifier_startOf_append {stem name : String} (h : Text.isIdentifier stem = true)
    (hname : Text.isIdentifier name = true) (number : Nat) :
    Text.isIdentifier (startOf stem number ++ name) = true :=
  Text.isIdentifier_append (isIdentifier_startOf h number) fun _ hc =>
    Text.isInner_of_isIdentifier hname hc

namespace Prepared

variable {model : Model κ} {options : Options} {prep : Preparation κ}

/-- The copies of a `Prepared` run are `Plan.make` of the prototype, one for each of the `starts`.
-/
theorem copies_eq_map (h : Prepared model options prep) :
    prep.copies = (starts options).map (Plan.make prep.prototype prep.name) := by
  rw [h.copies, plans_eq, starts, List.map_map]
  rfl

/-- The plan of a copy is determined by the number in its start. -/
theorem exists_number (h : Prepared model options prep) {plan : Plan} (hp : plan ∈ prep.copies) :
    ∃ number, plan = Plan.make prep.prototype prep.name (startOf options.stem number) := by
  rw [h.copies_eq_map] at hp
  obtain ⟨start, hs, rfl⟩ := List.mem_map.1 hp
  obtain ⟨i, -, rfl⟩ := List.mem_map.1 hs
  exact ⟨i + 2, rfl⟩

/-- The new variables are the outer names of the prototype behind all starts. -/
theorem freshVars_eq (h : Prepared model options prep) :
    freshVars prep.copies = startedNames (starts options) (outerNames prep.prototype.vars) := by
  rw [h.copies_eq_map, freshVars, startedNames, List.flatMap_map]
  simp only [outerNames, Plan.make, List.map_map, Function.comp_def]

/-- The new labels are the outer names of the prototype behind all starts. -/
theorem freshLabels_eq (h : Prepared model options prep) :
    freshLabels prep.copies = startedNames (starts options) (outerNames prep.prototype.labels) := by
  rw [h.copies_eq_map, freshLabels, startedNames, List.flatMap_map]
  simp only [outerNames, Plan.make, List.map_map, Function.comp_def]

/-- There is a copy to be made, since at least two instances are asked for. -/
theorem exists_start (h : Prepared model options prep) : ∃ start, start ∈ starts options := by
  have hcount := h.count
  exact ⟨_, List.mem_map_of_mem (List.mem_range.2 (by omega : 0 < (options.count - 1).toNat))⟩

/-- Starts and copies correspond by position, whatever number comes first. -/
theorem mem_zipIdx_copies (h : Prepared model options prep) {start : String × Nat} {first : Nat}
    (hs : start ∈ (starts options).zipIdx first) :
    (Plan.make prep.prototype prep.name start.1, start.2) ∈ prep.copies.zipIdx first := by
  rw [h.copies_eq_map, List.zipIdx_map]
  exact List.mem_map_of_mem hs

/-- Every copy has its place, counted from the old end of the arena. -/
theorem exists_place (h : Prepared model options prep) {start : String}
    (hs : start ∈ starts options) : ∃ place,
      (Plan.make prep.prototype prep.name start, place) ∈ prep.copies.zipIdx model.tree.size := by
  rw [← List.zipIdx_map_fst model.tree.size (starts options)] at hs
  obtain ⟨numbered, hn, rfl⟩ := List.mem_map.1 hs
  exact ⟨numbered.2, h.mem_zipIdx_copies hn⟩

/-- The variables that the root declares in the end: the new ones stand behind the old ones. -/
theorem vars_eq (h : Prepared model options prep) :
    prep.vars = model.tree.rootComponent.vars ++ freshVars prep.copies :=
  (claimPlans_eq_ok_iff.1 h.claimed).2.1.1

/-- The labels that the root declares in the end. -/
theorem labels_eq (h : Prepared model options prep) :
    prep.labels = model.tree.rootComponent.labels ++ freshLabels prep.copies :=
  (claimPlans_eq_ok_iff.1 h.claimed).2.2.1

/-! ## The components of the result -/

@[simp] theorem root_result (prep : Preparation κ) (tree : Tree κ) :
    (prep.resultTree tree).root = tree.root := by
  rw [Preparation.resultTree, root_placedAll, root_declared]

/-- `resultTree` changes variables, labels and instances of the root, and nothing else of it. -/
theorem exists_rootComponent_result (h : Prepared model options prep) :
    ∃ children, (prep.resultTree model.tree).rootComponent =
      { model.tree.rootComponent with
        vars := prep.vars
        labels := prep.labels
        body := .network children } := by
  -- placing adds instances to the root that has declared the new names already
  obtain ⟨children, hroot⟩ := h.placeable.rootComponent_placedAll
  refine ⟨children, ?_⟩
  rw [Preparation.resultTree, hroot, h.rootComponent_declared]

/-- `resultTree` leaves the constants of the root as they are. -/
theorem constants_result (h : Prepared model options prep) :
    (prep.resultTree model.tree).rootComponent.constants = model.tree.rootComponent.constants := by
  obtain ⟨children, hroot⟩ := h.exists_rootComponent_result
  rw [hroot]

/-- The instances of the root in `resultTree`: the old ones, and behind them `newEntries`. -/
theorem entries_result (h : Prepared model options prep) :
    (prep.resultTree model.tree).rootComponent.children.entries =
      (rootInstances model.tree).entries ++
        newEntries model.tree prep.prototype prep.copies := by
  rw [Preparation.resultTree, h.placeable.entries_placedAll, h.rootComponent_declared, newEntries,
    newEntries, size_declared, root_declared]
  rfl

/-- An instance of `resultTree` is an old one, or it is `entryOf` a plan in its place. -/
theorem mem_entries_iff (h : Prepared model options prep) {entry : String × Instance} :
    entry ∈ (prep.resultTree model.tree).rootComponent.children.entries ↔
      entry ∈ (rootInstances model.tree).entries ∨
      ∃ plan place, (plan, place) ∈ prep.copies.zipIdx model.tree.size ∧
        entry = (plan.name, entryOf model.tree.root prep.prototype plan place) := by
  rw [h.entries_result, List.mem_append, newEntries, List.mem_map]
  -- only what is new has to be spelled out
  refine or_congr_right ⟨?_, ?_⟩
  · rintro ⟨⟨plan, place⟩, hp, rfl⟩
    exact ⟨plan, place, hp, rfl⟩
  · rintro ⟨plan, place, hp, rfl⟩
    exact ⟨_, hp, rfl⟩

/-- `resultTree` has one component more for each copy. -/
theorem size_result (prep : Preparation κ) (tree : Tree κ) :
    (prep.resultTree tree).size = tree.size + prep.copies.length := by
  rw [Preparation.resultTree, size_placedAll, size_declared]

/-- `resultTree` leaves all components but the root as they are. -/
theorem get_result_of_lt (prep : Preparation κ) {tree : Tree κ} {c : Handle}
    (hlt : c.index < tree.size) (hne : c ≠ tree.root) :
    (prep.resultTree tree).get c = tree.get c := by
  have hlt' : c.index < (declared tree prep.vars prep.labels).size := by
    rwa [size_declared]
  rw [Preparation.resultTree, get_placedAll_of_lt hlt' hne, get_declared_of_ne hne]

/-- `resultTree` leaves the components of the old instances as they are; none of them is the root.
-/
theorem get_result_child (h : Prepared model options prep) {entry : String × Instance}
    (he : entry ∈ (rootInstances model.tree).entries) :
    (prep.resultTree model.tree).get entry.2.child = model.tree.get entry.2.child :=
  get_result_of_lt prep (h.isBase_child he).2 (h.child_ne_root he)

/-- The component of a copy is that of the prototype, `placedAs` the instance in the root. -/
theorem get_result_copy (h : Prepared model options prep) {plan : Plan} {place : Nat}
    (hp : (plan, place) ∈ prep.copies.zipIdx model.tree.size) :
    (prep.resultTree model.tree).get ⟨place⟩ =
      (model.tree.get prep.prototype.child).placedAs model.tree.root plan.name := by
  -- links are dropped by the copy and set again by placing it
  have hdetached {component : Component κ} (hb : component.isBase = true) (parent : Handle)
      (name : String) :
      { component.detached with parent := some parent, instanceName := some name } =
        component.placedAs parent name := by
    obtain ⟨automaton, ha⟩ := Component.exists_automaton hb
    rw [Component.detached, Component.placedAs, ha]
  -- places count from the end of the arena, which is where it was before the declarations
  rw [← size_declared model.tree prep.vars prep.labels] at hp
  rw [Preparation.resultTree, h.placeable.get_placedAll hp, copyOf,
    get_declared_of_ne (h.child_ne_root h.prototype)]
  exact hdetached (h.isBase_child h.prototype).1 _ _

/-- A well-formed model for which a run is `Prepared` is `Shallow`: all its instances are automata.
-/
theorem shallow (h : Prepared model options prep) (htree : model.tree.WellFormed) :
    model.tree.Shallow :=
  htree.shallow h.isNetwork fun _ he => (h.isBase_child he).1

/-- Every instance of `resultTree` has an old instance as its origin: itself, or the prototype.
Their components differ in their places only, and their constants are bound alike. -/
theorem exists_origin (h : Prepared model options prep) (htree : model.tree.WellFormed)
    {entry : String × Instance}
    (he : entry ∈ (prep.resultTree model.tree).rootComponent.children.entries) :
    ∃ origin ∈ (rootInstances model.tree).entries,
      (prep.resultTree model.tree).get entry.2.child =
        (model.tree.get origin.2.child).placedAs model.tree.root entry.1 ∧
      entry.2.consts = origin.2.consts ∧ entry.2.parent = model.tree.root := by
  -- an old instance comes from itself, a new one from the prototype
  rcases h.mem_entries_iff.1 he with ho | ⟨plan, place, hp, rfl⟩
  · have hok := (h.shallow htree).instances entry ho
    refine ⟨entry, ho, ?_, rfl, hok.parent⟩
    rw [h.get_result_child ho, Component.placedAs, ← hok.childParent, ← hok.childName]
  · exact ⟨_, h.prototype, h.get_result_copy hp, rfl, rfl⟩

/-! ## The instances of the result -/

/-- What the root `declares` it still declares in `resultTree`. -/
theorem declares_result (h : Prepared model options prep) {kind : NameKind} {name : String}
    (hd : model.tree.rootComponent.declares kind name = true) :
    (prep.resultTree model.tree).rootComponent.declares kind name = true := by
  obtain ⟨children, hroot⟩ := h.exists_rootComponent_result
  rw [hroot]
  -- no constant is added, and to variables and labels something is appended
  cases kind with
  | const => exact hd
  | var =>
    rw [Component.declares_var_iff] at hd ⊢
    rw [h.vars_eq]
    exact List.mem_append_left _ hd
  | label =>
    rw [Component.declares_label_iff] at hd ⊢
    rw [h.labels_eq]
    exact List.mem_append_left _ hd

/-- The outer names of a copy are declared by the root of `resultTree`. -/
theorem declares_fresh (h : Prepared model options prep) {plan : Plan} (hp : plan ∈ prep.copies)
    (place : Nat) {kind : NameKind} (hkind : kind ≠ .const) {binding : Binding}
    (hb : binding ∈ (entryOf model.tree.root prep.prototype plan place).bindings kind) :
    (prep.resultTree model.tree).rootComponent.declares kind binding.outer = true := by
  obtain ⟨children, hroot⟩ := h.exists_rootComponent_result
  rw [hroot]
  -- constants are excluded: they are not bound to new names
  cases kind with
  | const => exact absurd rfl hkind
  | var =>
    rw [Component.declares_var_iff, h.vars_eq]
    exact List.mem_append_right _ (List.mem_flatMap.2 ⟨plan, hp, List.mem_map_of_mem hb⟩)
  | label =>
    rw [Component.declares_label_iff, h.labels_eq]
    exact List.mem_append_right _ (List.mem_flatMap.2 ⟨plan, hp, List.mem_map_of_mem hb⟩)

/-- A copy is bound as `InstanceOk` asks for: inside like the prototype, outside to names of the
root that are not empty. -/
theorem binding_copy (h : Prepared model options prep) (htree : model.tree.WellFormed)
    {plan : Plan} (hp : plan ∈ prep.copies) (place : Nat) {kind : NameKind} {binding : Binding}
    (hb : binding ∈ (entryOf model.tree.root prep.prototype plan place).bindings kind) :
    (binding.inner ≠ "" ∧ binding.outer ≠ "") ∧
      (prep.resultTree model.tree).rootComponent.declares kind binding.outer = true ∧
      (model.tree.get prep.prototype.child).declares kind binding.inner = true := by
  have hok := (h.shallow htree).instances _ h.prototype
  by_cases hkind : kind = .const
  · -- constants are bound as they were
    subst hkind
    obtain ⟨hnames, houter, hinner⟩ := hok.binding .const binding hb
    exact ⟨hnames, h.declares_result houter, hinner⟩
  · have houter := h.declares_fresh hp place hkind hb
    obtain ⟨number, rfl⟩ := h.exists_number hp
    rw [bindings_entryOf _ _ _ _ _ hkind] at hb
    obtain ⟨old, ho, rfl⟩ := List.mem_map.1 hb
    obtain ⟨hnames, -, hinner⟩ := hok.binding kind old ho
    -- a start alone is not empty, but the old name is known not to be
    have hne : startOf options.stem number ++ old.outer ≠ "" := by
      rw [ne_eq, String.append_eq_empty_iff]
      exact fun he => hnames.2 he.2
    exact ⟨⟨hnames.1, hne⟩, houter, hinner⟩

/-- Every instance of `resultTree` obeys the rules of instances. -/
theorem instanceOk_result (h : Prepared model options prep) (htree : model.tree.WellFormed)
    {entry : String × Instance}
    (he : entry ∈ (prep.resultTree model.tree).rootComponent.children.entries) :
    (prep.resultTree model.tree).InstanceOk (prep.resultTree model.tree).root entry.1 entry.2 := by
  obtain ⟨origin, ho, hget, -, hparent⟩ := h.exists_origin htree he
  constructor
  case parent => rw [root_result, hparent]
  case childParent => rw [root_result, hget]; rfl
  case childName => rw [hget]; rfl
  case binding =>
    -- bindings of old instances have not changed, those of copies are new
    intro kind binding hb
    rcases h.mem_entries_iff.1 he with hold | ⟨plan, place, hp, rfl⟩
    · -- an old instance: its automaton has not changed, and the root declares no less
      obtain ⟨hnames, houter, hinner⟩ := ((h.shallow htree).instances entry hold).binding kind _ hb
      refine ⟨hnames, h.declares_result houter, ?_⟩
      rw [h.get_result_child hold]
      exact hinner
    · obtain ⟨hnames, houter, hinner⟩ :=
        h.binding_copy htree (List.fst_mem_of_mem_zipIdx hp) place hb
      refine ⟨hnames, houter, ?_⟩
      have hchild : (entryOf model.tree.root prep.prototype plan place).child = ⟨place⟩ := rfl
      rw [hchild, h.get_result_copy hp]
      exact hinner

/-- `resultTree` is `Shallow` again, so it is enough to look at the root and its instances. -/
theorem shallow_result (h : Prepared model options prep) (htree : model.tree.WellFormed) :
    (prep.resultTree model.tree).Shallow := by
  obtain ⟨children, hroot⟩ := h.exists_rootComponent_result
  constructor
  case rootName => rw [hroot]; exact htree.rootName
  case rootParent => rw [hroot]; exact htree.rootParent
  case isNetwork => rw [hroot]; rfl
  case isBase =>
    -- the origin of an instance is an automaton, and being placed elsewhere does not change that
    intro entry he
    obtain ⟨origin, ho, hget, -⟩ := h.exists_origin htree he
    rw [hget]
    exact (h.isBase_child ho).1
  case instances => exact fun entry he => h.instanceOk_result htree he

end Prepared

/-! ## Names of different kinds -/

/-- A new name clashes with a name of another kind: only names of its own kind are looked at when it
is claimed. -/
def KindClash (root : Component κ) (copies : List Plan) : Prop :=
  (∃ name ∈ freshVars copies, name ∈ root.labels ∨ name ∈ root.constants.keys) ∨
    ∃ name ∈ freshLabels copies, name ∈ root.vars ∨ name ∈ root.constants.keys

instance (root : Component κ) (copies : List Plan) : Decidable (KindClash root copies) :=
  inferInstanceAs (Decidable (_ ∨ _))

namespace Prepared

variable {model : Model κ} {options : Options} {prep : Preparation κ}

/-- The outer names of the prototype are declared by the root, in their own kind. -/
theorem declares_of_mem_outerNames (h : Prepared model options prep)
    (htree : model.tree.WellFormed) (kind : NameKind) {outer : String}
    (ho : outer ∈ outerNames (prep.prototype.bindings kind)) :
    model.tree.rootComponent.declares kind outer = true := by
  obtain ⟨binding, hb, rfl⟩ := List.mem_map.1 ho
  exact (((h.shallow htree).instances _ h.prototype).binding kind binding hb).2.1

/-- A new variable is made up of `startOf` the stem and an old variable. -/
theorem exists_of_mem_freshVars (h : Prepared model options prep) (htree : model.tree.WellFormed)
    {name : String} (hname : name ∈ freshVars prep.copies) :
    ∃ number, ∃ old ∈ model.tree.rootComponent.vars, startOf options.stem number ++ old = name := by
  rw [h.freshVars_eq] at hname
  obtain ⟨start, hs, old, ho, rfl⟩ := mem_startedNames_iff.1 hname
  obtain ⟨i, -, rfl⟩ := List.mem_map.1 hs
  exact ⟨i + 2, old, Component.declares_var_iff.1 (h.declares_of_mem_outerNames htree .var ho), rfl⟩

/-- A new label is made up of `startOf` the stem and an old label. -/
theorem exists_of_mem_freshLabels (h : Prepared model options prep) (htree : model.tree.WellFormed)
    {name : String} (hname : name ∈ freshLabels prep.copies) :
    ∃ number, ∃ old ∈ model.tree.rootComponent.labels,
      startOf options.stem number ++ old = name := by
  rw [h.freshLabels_eq] at hname
  obtain ⟨start, hs, old, ho, rfl⟩ := mem_startedNames_iff.1 hname
  obtain ⟨i, -, rfl⟩ := List.mem_map.1 hs
  exact ⟨i + 2, old, Component.declares_label_iff.1 (h.declares_of_mem_outerNames htree .label ho),
    rfl⟩

/-- `freshVars` and `freshLabels` are identifiers if the stem is one. -/
theorem isIdentifier_of_mem_fresh (h : Prepared model options prep)
    (htree : model.tree.WellFormed) (hstem : Text.isIdentifier options.stem = true) {name : String}
    (hname : name ∈ freshVars prep.copies ∨ name ∈ freshLabels prep.copies) :
    Text.isIdentifier name = true := by
  have hidentifiers := (htree.nodeOk (Tree.follow_nil model.tree model.tree.root)).identifiers
  -- a fresh name starts with the stem and goes on with an old name
  rcases hname with hname | hname
  · obtain ⟨number, old, ho, rfl⟩ := h.exists_of_mem_freshVars htree hname
    have hold := hidentifiers _ (Tree.mem_checkedNames_iff.2 (.inl ho))
    exact isIdentifier_startOf_append hstem hold number
  · obtain ⟨number, old, ho, rfl⟩ := h.exists_of_mem_freshLabels htree hname
    have hold := hidentifiers _ (Tree.mem_checkedNames_iff.2 (.inr (.inl ho)))
    exact isIdentifier_startOf_append hstem hold number

/-- `freshVars` and `freshLabels` have nothing in common, since variables and labels of the root
have not. -/
theorem freshVars_disjoint_freshLabels (h : Prepared model options prep)
    (htree : model.tree.WellFormed) {name : String} (hv : name ∈ freshVars prep.copies)
    (hl : name ∈ freshLabels prep.copies) : False := by
  have hdistinct := (htree.nodeOk (Tree.follow_nil model.tree model.tree.root)).distinct
  obtain ⟨m, var, hvar, rfl⟩ := h.exists_of_mem_freshVars htree hv
  obtain ⟨n, label, hlabel, he⟩ := h.exists_of_mem_freshLabels htree hl
  -- starts can be told from what follows, so the old names would be one
  obtain ⟨-, rfl⟩ := startOf_append_inj he
  -- variables and labels of the root are different names
  simp only [Component.checkedNames, if_true, List.nodup_append] at hdistinct
  exact hdistinct.1.2.2 _ hvar _ hlabel rfl

/-- The names of the root in `resultTree` are different just if there is no `KindClash`. -/
theorem nodup_checkedNames_iff (h : Prepared model options prep) (htree : model.tree.WellFormed) :
    ((prep.resultTree model.tree).rootComponent.checkedNames {}).Nodup ↔
      ¬ KindClash model.tree.rootComponent prep.copies := by
  obtain ⟨-, ⟨-, hv, hvars⟩, -, hl, hlabels⟩ := claimPlans_eq_ok_iff.1 h.claimed
  have hold := (htree.nodeOk (Tree.follow_nil model.tree model.tree.root)).distinct
  have hcross (name : String) (hv : name ∈ freshVars prep.copies)
      (hl : name ∈ freshLabels prep.copies) : False :=
    h.freshVars_disjoint_freshLabels htree hv hl
  obtain ⟨children, hroot⟩ := h.exists_rootComponent_result
  -- names of one kind are different already, so only clashes between kinds are left
  rw [hroot, h.vars_eq, h.labels_eq, KindClash]
  simp only [Component.checkedNames, if_true, List.nodup_append, List.mem_append] at hold ⊢
  have hroot : model.tree.get model.tree.root = model.tree.rootComponent := rfl
  rw [hroot] at hold
  -- from here on it is a matter of propositional logic over six lists
  grind

/-- Instances of `resultTree` are called by identifiers if the stem is one. -/
theorem isIdentifier_instance (h : Prepared model options prep) (htree : model.tree.WellFormed)
    (hstem : Text.isIdentifier options.stem = true) {entry : String × Instance}
    (he : entry ∈ (prep.resultTree model.tree).rootComponent.children.entries) :
    Text.isIdentifier entry.1 = true := by
  have hshallow := h.shallow htree
  have hchildren := (hshallow.wellFormed_iff.1 htree).2
  -- an old instance is called like its component, whose name has been checked
  have hown {entry : String × Instance} (he : entry ∈ (rootInstances model.tree).entries) :
      Text.isIdentifier entry.1 = true :=
    (hchildren entry he).ownName _ (hshallow.instances entry he).childName
  rcases h.mem_entries_iff.1 he with hold | ⟨plan, place, hp, rfl⟩
  · exact hown hold
  · obtain ⟨number, rfl⟩ := h.exists_number (List.fst_mem_of_mem_zipIdx hp)
    exact isIdentifier_startOf_append hstem (hown h.prototype) number

/-- The root of `resultTree` obeys the rules of components if its names are different. -/
theorem nodeOk_root_result (h : Prepared model options prep) (htree : model.tree.WellFormed)
    (hstem : Text.isIdentifier options.stem = true)
    (hdistinct : ((prep.resultTree model.tree).rootComponent.checkedNames {}).Nodup) :
    (prep.resultTree model.tree).NodeOk (prep.resultTree model.tree).root := by
  have hresult := h.shallow_result htree
  have hok := htree.nodeOk (Tree.follow_nil model.tree model.tree.root)
  obtain ⟨children, hroot⟩ := h.exists_rootComponent_result
  rw [Tree.rootComponent] at hroot
  constructor
  case ownName =>
    intro own hown
    cases hresult.rootName.symm.trans hown
  case links =>
    have hname : ((prep.resultTree model.tree).get _).instanceName = none := hresult.rootName
    have hparent : ((prep.resultTree model.tree).get _).parent = none := hresult.rootParent
    rw [hname, hparent]
    rfl
  case distinct => exact hdistinct
  case identifiers =>
    intro name hname
    rw [hroot, Tree.mem_checkedNames_iff, h.vars_eq, h.labels_eq, List.mem_append,
      List.mem_append] at hname
    -- variables and labels are old or new, constants are old
    rcases hname with (hv | hv) | (hl | hl) | hc
    · exact hok.identifiers _ (Tree.mem_checkedNames_iff.2 (.inl hv))
    · exact h.isIdentifier_of_mem_fresh htree hstem (.inl hv)
    · exact hok.identifiers _ (Tree.mem_checkedNames_iff.2 (.inr (.inl hl)))
    · exact h.isIdentifier_of_mem_fresh htree hstem (.inr hl)
    · exact hok.identifiers _ (Tree.mem_checkedNames_iff.2 (.inr (.inr hc)))
  case values =>
    intro name hname
    have hconstants := h.constants_result
    rw [Tree.rootComponent] at hconstants
    rw [hconstants] at hname
    -- the root has no parent, so its constants have values of their own
    obtain ⟨value, hv⟩ := hok.values name hname
    have hown := (h.shallow htree).constantValue_root_iff.1 hv
    refine ⟨value, hresult.constantValue_root_iff.2 ?_⟩
    rw [h.constants_result]
    exact hown
  case automaton =>
    intro automaton ha
    rw [hroot] at ha
    cases ha
  -- the prototype is still there
  case nonempty =>
    intro instances hb
    have hmem := h.mem_entries_iff.2 (.inl h.prototype)
    rw [Tree.rootComponent, Component.children_of_network hb] at hmem
    rw [NameMap.isEmpty, List.isEmpty_eq_false_iff_exists_mem]
    exact ⟨_, hmem⟩
  case instances => exact hresult.instances

/-- `resultTree` is well-formed just if there is no `KindClash`: what is claimed by a run is
compared with names of its own kind only. -/
theorem wellFormed_iff (h : Prepared model options prep) (htree : model.tree.WellFormed)
    (hstem : Text.isIdentifier options.stem = true) :
    (prep.resultTree model.tree).WellFormed ↔
      ¬ KindClash model.tree.rootComponent prep.copies := by
  have hshallow := h.shallow htree
  have hresult := h.shallow_result htree
  rw [← h.nodup_checkedNames_iff htree, hresult.wellFormed_iff]
  -- one way the names are different by the rules of the root, the other way nothing else can be
  -- wrong
  constructor
  · exact fun hok => hok.1.distinct
  · intro hdistinct
    refine ⟨h.nodeOk_root_result htree hstem hdistinct, fun entry he => ?_⟩
    -- an automaton is what it was, in its old place or in a new one
    obtain ⟨origin, ho, hget, hconsts, -⟩ := h.exists_origin htree he
    rw [← root_result prep model.tree] at hget
    exact hshallow.nodeOk_placedAs hresult h.constants_result ho he hconsts hget
      (h.isIdentifier_instance htree hstem he) ((hshallow.wellFormed_iff.1 htree).2 origin ho)

end Prepared

end HybridAutomata.CopyInstance
