import HybridAutomata.Proofs.Model.WellFormed
/-!
# Trees whose components stand for others

A tree may repeat what is in another tree, at other places and more than once. Its components stand
for components there if they declare the same names and consist of the same automata, and if all
their entries are linked and bind names as entries there do: `StandsFor`. Then a name leads up
through components that stand for those through which it leads there, so constants have the same
values, and the tree obeys the rules if the other one does.

* `StandsFor.exists_original`   what a component stands for, and the values of its constants
* `StandsFor.wellBuilt`         the rules
-/

namespace HybridAutomata

variable {κ : Type}

/-- A component declares the same names as another one, and consists of the same automaton if one of
them is an automaton. -/
structure Component.StandsFor (component original : Component κ) : Prop where
  vars : component.vars = original.vars
  constants : component.constants = original.constants
  labels : component.labels = original.labels
  automaton : component.automaton? = original.automaton?

namespace Component

variable {component original : Component κ}

/-- `automaton?` gives the automaton that the component consists of. -/
theorem automaton?_eq_some_iff {automaton : Automaton κ} :
    component.automaton? = some automaton ↔ component.body = .base automaton := by
  rcases component with ⟨_, _, _, _, _, _, _ | _⟩ <;> simp [automaton?]

namespace StandsFor

/-- A component that `StandsFor` another one declares the same names. -/
theorem declares_eq (h : component.StandsFor original) (kind : NameKind) (name : String) :
    component.declares kind name = original.declares kind name := by
  cases kind with
  | var => rw [declares, declares, h.vars]
  | const => rw [declares, declares, h.constants]
  | label => rw [declares, declares, h.labels]

/-- A component that `StandsFor` a `WellNamed` one is `WellNamed`. -/
theorem wellNamed (h : component.StandsFor original) (hnames : original.WellNamed) :
    component.WellNamed := by
  have hdeclared : component.declaredNames = original.declaredNames := by
    rw [declaredNames, declaredNames, h.vars, h.constants, h.labels]
  exact ⟨hdeclared ▸ hnames.distinct, hdeclared ▸ hnames.identifiers⟩

/-- A component that `StandsFor` a `WellBehaved` one is `WellBehaved`. -/
theorem wellBehaved (h : component.StandsFor original) {automaton : Automaton κ}
    (hautomaton : original.WellBehaved automaton) : component.WellBehaved automaton :=
  automatonOk_iff.1 ((automatonOk_iff.2 hautomaton).congr h.vars (by rw [h.constants]) h.labels)

end StandsFor

end Component

namespace Tree

/-- The components of a tree stand for components of another tree, and entries for entries. -/
structure StandsFor (new tree : Tree κ) (R : Handle → Handle → Prop) : Prop where
  root_lt : new.root.index < new.size
  rootName : new.rootComponent.instanceName = none
  rootParent : new.rootComponent.parent = none
  root : R new.root tree.root
  reachable : ∀ d o, R d o → tree.Reachable o
  component : ∀ d o, R d o → (new.get d).StandsFor (tree.get o)
  nonempty : ∀ d o, R d o → (tree.get o).children.entries ≠ [] → (new.get d).children.entries ≠ []
  link : ∀ d o, R d o → ∀ entry ∈ (new.get d).children.entries,
    new.LinkOk d entry.1 entry.2 ∧ Text.isIdentifier entry.1 = true
  origin : ∀ d o, R d o → ∀ entry ∈ (new.get d).children.entries,
    ∃ own ∈ (tree.get o).children.entries, R entry.2.child own.2.child ∧
      ∀ kind, entry.2.bindings kind = own.2.bindings kind

namespace StandsFor

variable {new tree : Tree κ} {R : Handle → Handle → Prop} {d o : Handle} {name : String}

/-- Every reachable component of the new tree stands for one of the other tree. -/
theorem exists_of_reachable (h : new.StandsFor tree R) (hd : new.Reachable d) : ∃ o, R d o := by
  refine Reachable.induction ⟨tree.root, h.root⟩ ?_ hd
  rintro b - ⟨o, ho⟩ entry he
  obtain ⟨own, -, hchild, -⟩ := h.origin b o ho entry he
  exact ⟨own.2.child, hchild⟩

/-- The new tree is `Linked`. -/
theorem linked (h : new.StandsFor tree R) : new.Linked where
  root_lt := h.root_lt
  rootName := h.rootName
  rootParent := h.rootParent
  link d hd entry he := by
    obtain ⟨o, ho⟩ := h.exists_of_reachable hd
    exact (h.link d o ho entry he).1

/-- A constant that `IsFree` in both trees has the value that the original has. -/
theorem constantValue_of_isFree (h : new.StandsFor tree R) (htree : tree.Linked)
    (hd : new.Reachable d) (ho : R d o) (hfree : new.IsFree .const d name)
    (hfree' : tree.IsFree .const o name) {value : Interval κ}
    (hv : tree.constantValue o name = .ok value) : new.constantValue d name = .ok value := by
  rw [htree.constantValue_of_isFree (h.reachable d o ho) hfree'] at hv
  rw [h.linked.constantValue_of_isFree hd hfree, (h.component d o ho).constants]
  -- a constant without a value is an error in both trees, but not the same one
  split at hv
  · cases hv
  · cases hv
  · exact hv

/-- A constant that is bound in both trees has the value of the constant around it. -/
theorem constantValue_of_bound (h : new.StandsFor tree R) (htree : tree.Linked)
    (hd : new.Reachable d) (ho : R d o) {inst inst' : Instance} {outer : String}
    (hi : new.instance? d = some inst) (hi' : tree.instance? o = some inst')
    (hb : inst.outerName? .const name = some outer)
    (hb' : inst'.outerName? .const name = some outer)
    (hparent : ∀ value, tree.constantValue inst'.parent outer = .ok value →
      new.constantValue inst.parent outer = .ok value) {value : Interval κ}
    (hv : tree.constantValue o name = .ok value) : new.constantValue d name = .ok value := by
  rw [htree.constantValue_of_bound (h.reachable d o ho) hi' hb'] at hv
  rw [h.linked.constantValue_of_bound hd hi hb, (h.component d o ho).constants]
  -- a value of its own would be an error, and so would no declaration
  split at hv
  · cases hv
  · exact hparent value hv
  · cases hv

/-- Every reachable component stands for one whose constants have the same values. -/
theorem exists_original (h : new.StandsFor tree R) (htree : tree.Linked) (hd : new.Reachable d) :
    ∃ o, R d o ∧ ∀ name value, tree.constantValue o name = .ok value →
      new.constantValue d name = .ok value := by
  -- from the root down, as a name leads up
  refine Reachable.induction ?_ ?_ hd
  · refine ⟨tree.root, h.root, fun name value => ?_⟩
    exact h.constantValue_of_isFree htree new.reachable_root h.root
      (isFree_of_instance?_eq_none (instance?_of_parent_eq_none h.rootParent) _ _)
      (isFree_of_instance?_eq_none (instance?_of_parent_eq_none htree.rootParent) _ _)
  · rintro b hb ⟨o, ho, hvalues⟩ entry he
    obtain ⟨own, hown, hchild, hbindings⟩ := h.origin b o ho entry he
    have hlink := (h.link b o ho entry he).1
    have hlink' := htree.link o (h.reachable b o ho) own hown
    have hi := hlink.instance?_eq he
    have hi' := hlink'.instance?_eq hown
    have houter (name : String) :
        entry.2.outerName? .const name = own.2.outerName? .const name := by
      rw [Instance.outerName?, Instance.outerName?, hbindings]
    refine ⟨own.2.child, hchild, fun name value => ?_⟩
    -- the constant is free in both trees, or bound to one name in both
    cases hname : own.2.outerName? .const name with
    | none =>
      exact h.constantValue_of_isFree htree (hb.child he) hchild
        ((isFree_iff_of_instance? hi).2 ((houter name).trans hname))
        ((isFree_iff_of_instance? hi').2 hname)
    | some outer =>
      refine h.constantValue_of_bound htree (hb.child he) hchild hi hi'
        ((houter name).trans hname) hname fun value => ?_
      rw [hlink.parent, hlink'.parent]
      exact hvalues outer value

/-- A tree is `WellBuilt` if its components stand for those of a tree that is. -/
theorem wellBuilt (h : new.StandsFor tree R) (htree : tree.WellBuilt) : new.WellBuilt where
  rootName := h.rootName
  rootParent := h.rootParent
  names d hd := by
    obtain ⟨o, ho⟩ := h.exists_of_reachable hd
    exact (h.component d o ho).wellNamed (htree.names o (h.reachable d o ho))
  values d hd name hn := by
    obtain ⟨o, ho, hvalues⟩ := h.exists_original htree.linked hd
    rw [(h.component d o ho).constants] at hn
    obtain ⟨value, hv⟩ := htree.values o (h.reachable d o ho) name hn
    exact ⟨value, hvalues name value hv⟩
  automata d hd automaton hb := by
    obtain ⟨o, ho⟩ := h.exists_of_reachable hd
    rw [← Component.automaton?_eq_some_iff, (h.component d o ho).automaton,
      Component.automaton?_eq_some_iff] at hb
    exact (h.component d o ho).wellBehaved (htree.automata o (h.reachable d o ho) automaton hb)
  networks d hd children hb := by
    obtain ⟨o, ho⟩ := h.exists_of_reachable hd
    rw [← Component.children_of_network hb]
    refine h.nonempty d o ho ?_
    cases hbody : (tree.get o).body with
    | base automaton =>
      -- what stands for an automaton is one
      rw [← Component.automaton?_eq_some_iff, ← (h.component d o ho).automaton,
        Component.automaton?_eq_some_iff] at hbody
      cases hb.symm.trans hbody
    | network others =>
      rw [Component.children_of_network hbody]
      exact htree.networks o (h.reachable d o ho) others hbody
  links d hd entry he := by
    obtain ⟨o, ho⟩ := h.exists_of_reachable hd
    exact h.link d o ho entry he
  bindings d hd entry he kind binding hbinding := by
    obtain ⟨o, ho⟩ := h.exists_of_reachable hd
    obtain ⟨own, hown, hchild, hbindings⟩ := h.origin d o ho entry he
    rw [hbindings] at hbinding
    rw [(h.component d o ho).declares_eq, (h.component _ _ hchild).declares_eq]
    exact htree.bindings o (h.reachable d o ho) own hown kind binding hbinding

end StandsFor

end Tree

end HybridAutomata
