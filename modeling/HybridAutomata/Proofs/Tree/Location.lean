import HybridAutomata.Proofs.Tree.Check
/-!
# Where a component is

A tree that passes a check has consistent links. If nothing was left out then every reachable
component obeys the rules, and its path and a name make up a qualified name that nothing else has.

* `isIdentifier_of_follow`     what any check says about the names on a way
* `linked_of_checkWithin`      what any check says about links
* `WellFormed.nodeOk`          every reachable component obeys the rules
* `WellFormed.qualify_inj`     qualified names are told apart
-/

namespace HybridAutomata.Tree

variable {κ : Type}

/-- If `checkWithin` succeeds then it has gone down all the ways that there are. -/
theorem checkWithin_of_follow {tree : Tree κ} {options : CheckOptions} {levels : Nat} {c d : Handle}
    {names : List String} (hcheck : tree.checkWithin options levels c = .ok ())
    (hf : tree.follow c names = some d) :
    ∃ below, levels = below + 1 + names.length ∧
      tree.checkWithin options (below + 1) d = .ok () := by
  induction names generalizing levels c with
  | nil =>
    obtain rfl := Option.some.inj hf
    cases levels with
    | zero => cases hcheck
    | succ levels => exact ⟨levels, rfl, hcheck⟩
  | cons name rest ih =>
    -- the check of a component contains those of its children
    obtain ⟨inst, he, hf⟩ := follow_cons_iff.1 hf
    cases levels with
    | zero => cases hcheck
    | succ levels =>
      obtain ⟨below, hl, hd⟩ := ih (linkOk_of_checkWithin hcheck he).2 hf
      exact ⟨below, by rw [hl, List.length_cons]; omega, hd⟩

/-- If `checkWithin` succeeds then the names on a way down are identifiers. -/
theorem isIdentifier_of_follow {tree : Tree κ} {options : CheckOptions} {levels : Nat}
    {c d : Handle} {names : List String} {name : String}
    (hcheck : tree.checkWithin options levels c = .ok ()) (hf : tree.follow c names = some d)
    (hn : name ∈ names) : Text.isIdentifier name = true := by
  obtain ⟨front, back, rfl⟩ := List.append_of_mem hn
  -- the way up to the name leads to a component that is called by it
  rw [List.append_cons, follow_append, Option.bind_eq_some_iff] at hf
  obtain ⟨e, hf, -⟩ := hf
  obtain ⟨below, -, he⟩ := checkWithin_of_follow hcheck hf
  obtain ⟨b, inst, hb, hentry, rfl⟩ := follow_concat_iff.1 hf
  obtain ⟨_, -, hb⟩ := checkWithin_of_follow hcheck hb
  exact (names_of_checkWithin he).1.1 name (linkOk_of_checkWithin hb hentry).1.childName

/-- A tree that passes `checkWithin` is `Linked`, if its root is no instance. -/
theorem linked_of_checkWithin {tree : Tree κ} {options : CheckOptions}
    (hname : tree.rootComponent.instanceName = none) (hparent : tree.rootComponent.parent = none)
    (hcheck : tree.checkWithin options tree.size tree.root = .ok ()) : tree.Linked where
  root_lt := by
    obtain ⟨below, -, hroot⟩ := checkWithin_of_follow hcheck (follow_nil tree tree.root)
    -- outside of the arena there are only automata without modes
    apply Nat.lt_of_not_le
    intro hle
    have hbody : (tree.get tree.root).body = .base .empty := by
      rw [get_eq_default hle]
      rfl
    cases (automatonOk_of_checkWithin hroot hbody).modes
  rootName := hname
  rootParent := hparent
  -- every component that can be reached has been checked
  link c hc entry he := by
    obtain ⟨names, hf⟩ := hc
    obtain ⟨below, -, hc⟩ := checkWithin_of_follow hcheck hf
    exact (linkOk_of_checkWithin hc he).1

/-- In a `Linked` tree, `qualify` joins the way to the component and the name. -/
theorem Linked.qualify_path_eq {tree : Tree κ} {c : Handle} {names : List String} (h : tree.Linked)
    (hf : tree.follow tree.root names = some c) (hne : ∀ name ∈ names, name ≠ "") (name : String) :
    qualify (tree.path c) name = Text.join "." (names ++ [name]) := by
  rw [qualify, h.path_eq hf]
  cases names with
  | nil => rfl
  | cons first rest =>
    have hpath : Text.join "." (first :: rest) ≠ "" :=
      Text.join_ne_empty (hne first List.mem_cons_self)
    rw [if_neg (by rwa [String.isEmpty_iff]), Text.join_concat (List.cons_ne_nil _ _)]

/-! ## Well-formed trees -/

/-- A tree that passes its check, with a root that is no instance. -/
structure WellFormed (tree : Tree κ) : Prop where
  rootName : tree.rootComponent.instanceName = none
  rootParent : tree.rootComponent.parent = none
  check : tree.check {} = .ok ()

namespace WellFormed

variable {tree : Tree κ} {c d : Handle} {names names' : List String} {name : String}

theorem checkWithin (h : tree.WellFormed) :
    tree.checkWithin {} tree.size tree.root = .ok () := h.check

theorem linked (h : tree.WellFormed) : tree.Linked :=
  linked_of_checkWithin h.rootName h.rootParent h.checkWithin

/-- Every reachable component of a `WellFormed` tree is `NodeOk`. -/
theorem nodeOk (h : tree.WellFormed) (hf : tree.follow tree.root names = some c) :
    tree.NodeOk c := by
  obtain ⟨below, -, hd⟩ := checkWithin_of_follow h.checkWithin hf
  exact (checkWithin_succ_eq_ok_iff.1 hd).1

/-- The names on a way of a `WellFormed` tree are identifiers. -/
theorem isIdentifier_of_follow (h : tree.WellFormed)
    (hf : tree.follow tree.root names = some c) (hn : name ∈ names) :
    Text.isIdentifier name = true :=
  Tree.isIdentifier_of_follow h.checkWithin hf hn

/-- In a `WellFormed` tree, `qualify` joins the way to the component and the name. -/
theorem qualify_path_eq (h : tree.WellFormed) (hf : tree.follow tree.root names = some c)
    (name : String) : qualify (tree.path c) name = Text.join "." (names ++ [name]) :=
  h.linked.qualify_path_eq hf
    (fun _ hn => Text.ne_empty_of_isIdentifier (h.isIdentifier_of_follow hf hn)) name

/-- In a `WellFormed` tree, `qualify` tells names without dots and the components apart. -/
theorem qualify_inj (h : tree.WellFormed) {left right : String}
    (hf : tree.follow tree.root names = some c) (hf' : tree.follow tree.root names' = some d)
    (hl : '.' ∉ left.toList) (hr : '.' ∉ right.toList)
    (he : qualify (tree.path c) left = qualify (tree.path d) right) : c = d ∧ left = right := by
  rw [h.qualify_path_eq hf, h.qualify_path_eq hf'] at he
  have hdots {way : List String} {e : Handle} {last : String}
      (hway : tree.follow tree.root way = some e) (hlast : '.' ∉ last.toList) :
      ∀ name ∈ way ++ [last], '.' ∉ name.toList := by
    intro name hn
    rcases List.mem_append.1 hn with hn | hn
    · exact Text.not_mem_of_isIdentifier (h.isIdentifier_of_follow hway hn)
    · rwa [List.mem_singleton.1 hn]
  -- no name holds a dot, so the two lists of names are the same
  have heq := Text.join_inj (by simp) (by simp) (hdots hf hl) (hdots hf' hr) he
  obtain ⟨rfl, hlast⟩ := List.append_inj' heq rfl
  exact ⟨Option.some.inj (hf.symm.trans hf'), (List.cons.inj hlast).1⟩

end WellFormed

end HybridAutomata.Tree
