import HybridAutomata.Proofs.Tree.Check
import HybridAutomata.Proofs.Tree.Relabel
import HybridAutomata.Proofs.Tree.Variables
import HybridAutomata.Tree.Modes
import HybridAutomata.Tree.Render
/-!
# What a mirror shows

A tree and its mirror give the same answers to all questions: the same values, names, lists and
texts, and the same violation if a check fails. The two arenas may differ in size, so the walks and
chains of the two trees start with different bounds; both are large enough.

* `Mirrors.constantValue_eq`, `Mirrors.variableName_eq`   names are resolved alike
* `Mirrors.checkComponent_eq`                             checks end alike
* `Mirrors.sameAnswers`                                   all answers
-/

namespace HybridAutomata

variable {κ : Type}

namespace Component

/-- `checkLinks` asks whether links are there, not where they lead. -/
@[simp] theorem checkLinks_relabel (f : Handle → Handle) (component : Component κ) :
    (component.relabel f).checkLinks = component.checkLinks := by
  have hparent : (component.relabel f).parent.isSome = component.parent.isSome :=
    Option.isSome_map
  rw [checkLinks, checkLinks, hparent]
  rfl

/-- `headLines` show no handles. -/
@[simp] theorem headLines_relabel [Scalar κ] (f : Handle → Handle) (component : Component κ)
    (depth : Nat) : (component.relabel f).headLines depth = component.headLines depth := by
  rw [headLines, headLines, isBase_relabel]
  rfl

end Component

namespace Tree

/-- Two components of two trees give the same answers. -/
structure SameAnswers (tree tree' : Tree κ) (c c' : Handle) : Prop where
  check : ∀ options, tree'.checkComponent c' options = tree.checkComponent c options
  constantValue : ∀ name, tree'.constantValue c' name = tree.constantValue c name
  variableName : ∀ name, tree'.variableName c' name = tree.variableName c name
  allVariables : tree'.allVariables c' = tree.allVariables c
  allConstants : tree'.allConstants c' = tree.allConstants c
  modeExists : ∀ mode, tree'.modeExists c' mode = tree.modeExists c mode

namespace Mirrors

variable {tree tree' : Tree κ} {f : Handle → Handle} {c d : Handle} {name last : String}
  {steps levels levels' : Nat}

/-- The body of a component in the mirror. -/
theorem body_eq (h : tree.Mirrors tree' f) (hc : tree.Reachable c) :
    (tree'.get (f c)).body = ((tree.get c).relabel f).body :=
  congrArg Component.body (h.get c hc)

/-! ## Names -/

/-- `freeName` gives the same global name, since paths are mirrored. -/
theorem freeName_eq (h : tree.Mirrors tree' f) (hc : tree.Reachable c) (name : String) :
    tree'.freeName (f c) name = tree.freeName c name := by
  have hparent : ((tree.get c).relabel f).parent.isNone = (tree.get c).parent.isNone :=
    Option.isNone_map
  rw [freeName, freeName, h.path_eq hc, h.get c hc, hparent]

/-- `variableName` gives the same global name. -/
theorem variableName_eq (h : tree.Mirrors tree' f) (hc : tree.Reachable c) (name : String) :
    tree'.variableName (f c) name = tree.variableName c name := by
  -- the chain of the variable has a mirror image, which ends at the same name
  obtain ⟨steps, d, last, hchain, -⟩ := h.linked.exists_chain hc .var name
  have hd := h.linked.reachable_of_chain hc hchain
  rw [h.linked.variableName_eq hc ⟨steps, hchain⟩,
    h.linked'.variableName_eq (h.reachable hc) ⟨steps, h.chain hc hchain⟩, h.freeName_eq hd]

/-- `constantWithin` finds the value of a constant, or misses it, in the same way along
corresponding chains. -/
theorem constantWithin_eq (h : tree.Mirrors tree' f) (hc : tree.Reachable c)
    (hchain : tree.Chain .const c name steps d last) {bound bound' : Nat} (hb : steps ≤ bound)
    (hb' : steps ≤ bound') :
    tree'.constantWithin bound' (f c) name = tree.constantWithin bound c name := by
  -- induction along the chain; the two bounds need not be equal
  induction hchain generalizing bound bound' with
  | @free c name hfree =>
    have hfree' : tree'.IsFree .const (f c) name := by
      rw [IsFree, h.bind_instance?_eq hc]
      exact hfree
    rw [constantWithin_of_free (h.linked.outer?_of_isFree hc hfree),
      constantWithin_of_free (h.linked'.outer?_of_isFree (h.reachable hc) hfree'), h.get c hc]
    rfl
  | @bound c d name outer last inst steps hi ho _ ih =>
    have hi' := h.instance?_eq hc
    rw [hi] at hi'
    have ho' : (inst.relabel f).outerName? .const name = some outer := by
      rw [Instance.outerName?_relabel]
      exact ho
    obtain ⟨rest, rfl⟩ := Nat.exists_eq_add_of_lt hb
    obtain ⟨rest', rfl⟩ := Nat.exists_eq_add_of_lt hb'
    have hparent : tree'.constantWithin (steps + rest') (inst.relabel f).parent outer =
        tree.constantWithin (steps + rest) inst.parent outer :=
      ih (h.linked.reachable_parent hc hi) (Nat.le_add_right ..) (Nat.le_add_right ..)
    rw [constantWithin_of_bound (h.linked.outer?_of_bound hc hi ho),
      constantWithin_of_bound (h.linked'.outer?_of_bound (h.reachable hc) hi' ho'), h.get c hc]
    rw [hparent]
    rfl

/-- `constantValue` gives the same value, or the same error. -/
theorem constantValue_eq (h : tree.Mirrors tree' f) (hc : tree.Reachable c) (name : String) :
    tree'.constantValue (f c) name = tree.constantValue c name := by
  -- both trees bound the length of the chain, each by its own arena
  obtain ⟨steps, d, last, hchain, hsteps⟩ := h.linked.exists_chain hc .const name
  obtain ⟨steps', d', last', hchain', hsteps'⟩ :=
    h.linked'.exists_chain (h.reachable hc) .const name
  obtain ⟨rfl, -⟩ := hchain'.unique (h.chain hc hchain)
  exact h.constantWithin_eq hc hchain hsteps hsteps'

/-! ## Checks -/

/-- `checkDeclarations` ends alike. -/
theorem checkDeclarations_eq (h : tree.Mirrors tree' f) (hc : tree.Reachable c)
    (options : CheckOptions) :
    tree'.checkDeclarations options (f c) = tree.checkDeclarations options c := by
  rw [checkDeclarations, checkDeclarations, h.get c hc]
  simp only [h.constantValue_eq hc, Component.checkLinks_relabel]
  rfl

/-- `checkInstance` ends alike for an entry of a reachable network. -/
theorem checkInstance_eq (h : tree.Mirrors tree' f) (hc : tree.Reachable c)
    {entry : String × Instance} (he : entry ∈ (tree.get c).children.entries)
    (options : CheckOptions) :
    tree'.checkInstance options (f c) (entry.2.relabel f) =
      tree.checkInstance options c entry.2 := by
  have hlink := h.linked.link c hc entry he
  have hlink' : tree'.LinkOk (f c) entry.1 (entry.2.relabel f) :=
    h.linked'.link (f c) (h.reachable hc) (entry.1, entry.2.relabel f) (by
      rw [h.entries_children hc]
      exact List.mem_map_of_mem he)
  -- the links are consistent, so the bindings are what is left
  rw [checkInstance, checkInstance]
  simp only [hlink.parent, hlink.childParent, hlink'.parent, hlink'.childParent, ne_eq,
    not_true_eq_false, or_self, if_false, Instance.bindings_relabel]
  have hchild : tree'.get (entry.2.relabel f).child = (tree.get entry.2.child).relabel f :=
    h.get _ (hc.child he)
  rw [hchild, h.get c hc]
  rfl

/-- `checkWithin` ends alike, if both numbers of levels are large enough. -/
theorem checkWithin_eq (h : tree.Mirrors tree' f) (options : CheckOptions) (hc : tree.Reachable c)
    (hl : tree.Covers levels c) (hl' : tree.Covers levels' c) :
    tree'.checkWithin options levels' (f c) = tree.checkWithin options levels c := by
  -- one step of both checks, given that they end alike below
  refine Covers.induction (fun levels levels' c hc ih => ?_) hl hl' hc
  rw [checkWithin, checkWithin, h.checkDeclarations_eq hc]
  refine congrArg _ (funext fun _ => ?_)
  dsimp only
  rw [h.body_eq hc, Component.relabel]
  cases hb : (tree.get c).body with
  | base automaton =>
    rw [h.get c hc]
    rfl
  | network children =>
    have hentries := Component.children_of_network hb
    have hempty : (children.mapValues (Instance.relabel f)).isEmpty = children.isEmpty := by
      rw [NameMap.isEmpty, NameMap.isEmpty, NameMap.mapValues, List.isEmpty_map]
    simp only [hempty, h.get c hc]
    -- an empty network fails alike; otherwise the entries are checked in the same order
    by_cases hnone : children.isEmpty = true
    · rw [if_pos hnone, if_pos hnone]
      rfl
    · rw [if_neg hnone, if_neg hnone]
      refine List.forM_map_congr fun entry he => ?_
      rw [← hentries] at he
      have hchild : tree'.get (entry.2.relabel f).child = (tree.get entry.2.child).relabel f :=
        h.get _ (hc.child he)
      have hcheck : tree'.checkWithin options levels' (entry.2.relabel f).child =
          tree.checkWithin options levels entry.2.child := ih entry he
      simp only [h.checkInstance_eq hc he, hcheck, hchild]
      rfl

/-- `checkComponent` ends alike, with the same violation if it fails. -/
theorem checkComponent_eq (h : tree.Mirrors tree' f) (hc : tree.Reachable c)
    (options : CheckOptions) :
    tree'.checkComponent (f c) options = tree.checkComponent c options := by
  rw [checkComponent, checkComponent,
    h.checkWithin_eq options hc (h.linked.covers hc) (h.covers' hc)]

/-! ## Lists -/

/-- `variablesWithin` lists the same names, if both numbers of levels are large enough. -/
theorem variablesWithin_eq (h : tree.Mirrors tree' f) (hc : tree.Reachable c)
    (hl : tree.Covers levels c) (hl' : tree.Covers levels' c) :
    tree'.variablesWithin levels' (f c) = tree.variablesWithin levels c := by
  refine Covers.induction (fun levels levels' c hc ih => ?_) hl hl' hc
  rw [variablesWithin, variablesWithin, h.body_eq hc, Component.relabel]
  cases hb : (tree.get c).body with
  | base automaton =>
    have hnames : tree'.variableName (f c) = tree.variableName c := funext (h.variableName_eq hc)
    rw [h.get c hc, hnames]
    rfl
  | network children =>
    -- a network lists what its instances list, and these are the same up to handles
    have hentries := Component.children_of_network hb
    have hbelow : (children.mapValues (Instance.relabel f)).values.mapM
          (fun inst => tree'.variablesWithin levels' inst.child) =
        children.values.mapM fun inst => tree.variablesWithin levels inst.child := by
      rw [NameMap.values_mapValues]
      refine List.mapM_map_congr fun inst hi => ?_
      obtain ⟨entry, he, rfl⟩ := List.mem_map.1 hi
      exact ih entry (hentries ▸ he)
    simp only [hbelow]

/-- `allVariables` lists the same names. -/
theorem allVariables_eq (h : tree.Mirrors tree' f) (hc : tree.Reachable c) :
    tree'.allVariables (f c) = tree.allVariables c :=
  h.variablesWithin_eq hc (h.linked.covers hc) (h.covers' hc)

/-- `ownConstants` lists the same constants. -/
theorem ownConstants_eq (h : tree.Mirrors tree' f) (hc : tree.Reachable c) :
    tree'.ownConstants (f c) = tree.ownConstants c := by
  simp only [ownConstants, h.bind_instance?_eq hc, h.path_eq hc, h.get c hc]
  rfl

/-- `constantsWithin` lists the same constants, if both numbers of levels are large enough. -/
theorem constantsWithin_eq (h : tree.Mirrors tree' f) (hc : tree.Reachable c)
    (hl : tree.Covers levels c) (hl' : tree.Covers levels' c) :
    tree'.constantsWithin levels' (f c) = tree.constantsWithin levels c := by
  refine Covers.induction (fun levels levels' c hc ih => ?_) hl hl' hc
  -- the folds are insertions of one list, which is collected from the same entries
  rw [constantsWithin, constantsWithin, h.ownConstants_eq hc, NameMap.foldl_insertAll_eq,
    NameMap.foldl_insertAll_eq, flatMap_children, flatMap_children, h.entries_children hc]
  refine congrArg _ (List.flatMap_map_congr fun entry he => ?_)
  exact congrArg NameMap.entries (ih entry he)

/-- `allConstants` lists the same constants. -/
theorem allConstants_eq (h : tree.Mirrors tree' f) (hc : tree.Reachable c) :
    tree'.allConstants (f c) = tree.allConstants c :=
  h.constantsWithin_eq hc (h.linked.covers hc) (h.covers' hc)

/-! ## Modes -/

/-- `takeModes` takes the same modes off a text, if both numbers of levels are large enough. -/
theorem takeModes_eq (h : tree.Mirrors tree' f) (hc : tree.Reachable c)
    (hl : tree.Covers levels c) (hl' : tree.Covers levels' c) (modes : String) :
    tree'.takeModes levels' (f c) modes = tree.takeModes levels c modes := by
  revert modes
  refine Covers.induction (fun levels levels' c hc ih modes => ?_) hl hl' hc
  rw [takeModes, takeModes, h.body_eq hc, Component.relabel]
  cases hb : (tree.get c).body with
  | base automaton => rfl
  | network children =>
    have hentries := Component.children_of_network hb
    simp only [NameMap.values_mapValues]
    -- each instance takes its modes from what is left
    refine List.foldlM_map_congr (fun inst hi rest => ?_) modes
    obtain ⟨entry, he, rfl⟩ := List.mem_map.1 hi
    exact ih entry (hentries ▸ he) rest

/-- `hasModePath` finds the same modes. -/
theorem hasModePath_eq (h : tree.Mirrors tree' f) (hc : tree.Reachable c) (mode : String) :
    tree'.hasModePath (f c) mode = tree.hasModePath c mode := by
  revert hc
  -- induction along the search
  fun_induction hasModePath tree c mode with
  | case1 c mode automaton hb =>
    intro hc
    rw [hasModePath, h.body_eq hc, Component.relabel, hb]
  -- the text has no dot, so no instance can be found
  | case2 c mode children hb hcut =>
    intro hc
    rw [hasModePath, h.body_eq hc, Component.relabel, hb]
    simp only
    split
    · rfl
    · next hcut' => cases hcut.symm.trans hcut'
  -- the text goes on from an instance, whose mirror image has the same name
  | case3 c mode children hb name rest hcut inst hi ih =>
    intro hc
    rw [hasModePath, h.body_eq hc, Component.relabel, hb]
    simp only
    split
    · next hcut' => cases hcut.symm.trans hcut'
    · next hcut' =>
      obtain ⟨rfl, rfl⟩ := Prod.mk.inj (Option.some.inj (hcut.symm.trans hcut'))
      rw [NameMap.get?_mapValues, hi]
      have hentry : (name, inst) ∈ (tree.get c).children.entries := by
        rw [Component.children_of_network hb]
        exact NameMap.get?_eq_some_iff.1 hi
      exact ih (hc.child hentry)
  -- there is no instance of the name on either side
  | case4 c mode children hb name rest hcut hi =>
    intro hc
    rw [hasModePath, h.body_eq hc, Component.relabel, hb]
    simp only
    split
    · next hcut' => cases hcut.symm.trans hcut'
    · next hcut' =>
      obtain ⟨rfl, rfl⟩ := Prod.mk.inj (Option.some.inj (hcut.symm.trans hcut'))
      rw [NameMap.get?_mapValues, hi]
      rfl

/-- `modeExists` takes the same texts for modes. -/
theorem modeExists_eq (h : tree.Mirrors tree' f) (hc : tree.Reachable c) (mode : String) :
    tree'.modeExists (f c) mode = tree.modeExists c mode := by
  rw [modeExists, modeExists, h.takeModes_eq hc (h.linked.covers hc) (h.covers' hc),
    h.hasModePath_eq hc]

/-- A component and its mirror image have `SameAnswers`. -/
theorem sameAnswers (h : tree.Mirrors tree' f) (hc : tree.Reachable c) :
    tree.SameAnswers tree' c (f c) where
  check := h.checkComponent_eq hc
  constantValue := h.constantValue_eq hc
  variableName := h.variableName_eq hc
  allVariables := h.allVariables_eq hc
  allConstants := h.allConstants_eq hc
  modeExists := h.modeExists_eq hc

/-! ## Texts -/

variable [Scalar κ]

/-- `linesWithin` gives the same lines, if both numbers of levels are large enough. -/
theorem linesWithin_eq (h : tree.Mirrors tree' f) (hc : tree.Reachable c)
    (hl : tree.Covers levels c) (hl' : tree.Covers levels' c) (depth : Nat) :
    tree'.linesWithin levels' (f c) depth = tree.linesWithin levels c depth := by
  revert depth
  refine Covers.induction (fun levels levels' c hc ih depth => ?_) hl hl' hc
  rw [linesWithin, linesWithin, h.get c hc]
  dsimp only
  rw [Component.headLines_relabel]
  refine congrArg _ ?_
  rw [Component.relabel]
  cases hb : (tree.get c).body with
  | base automaton => rfl
  | network children =>
    have hentries := Component.children_of_network hb
    refine List.flatMap_map_congr fun entry he => ?_
    -- a child is shown two levels deeper
    have hbelow : tree'.linesWithin levels' (entry.2.relabel f).child (depth + 2) =
        tree.linesWithin levels entry.2.child (depth + 2) := ih entry (hentries ▸ he) (depth + 2)
    simp only [hbelow]
    rfl

/-- `lines` shows both trees in the same way. -/
theorem lines_eq (h : tree.Mirrors tree' f) : tree'.lines = tree.lines := by
  have hroot := tree.reachable_root
  rw [lines, lines, h.root, h.linesWithin_eq hroot (h.linked.covers hroot) (h.covers' hroot)]

theorem render_eq (h : tree.Mirrors tree' f) : tree'.render = tree.render := by
  rw [render, render, h.lines_eq]

end Mirrors

end Tree
end HybridAutomata
