import HybridAutomata.Proofs.Rename.Result
/-!
# Renaming back

If the new names are different and occur nowhere, then they are chosen as they are desired, and no
two names become one. So every name can be given back: renaming from the new names to the old ones
restores the model, with every list and every map in its order.

A renaming is made at many places of a model, and at each of them it is undone for the same reason:
the names that occur there are given back one by one. This is `GivesBack`, and there is one lemma
for each kind of data.

* `Rename.givesBack_swap`                    the reversed pairs give the names back
* `Model.renameNames_renameNames`            a model whose names are given back is restored
* `renaming_is_undone_by_the_reversed_pairs` two runs with no effect in the end
-/

namespace HybridAutomata

variable {κ : Type} {names back : NameMap String}

/-- The second renaming gives back all names of a list, which the first one replaced. -/
def GivesBack (names back : NameMap String) (occurring : List String) : Prop :=
  ∀ name ∈ occurring, Expr.newName back (Expr.newName names name) = name

/-- What is given back to a list of names is given back to fewer names. -/
theorem GivesBack.mono {occurring others : List String} (h : GivesBack names back occurring)
    (hsub : others ⊆ occurring) : GivesBack names back others :=
  fun name hn => h name (hsub hn)

/-! ## What is given back to each kind of data -/

/-- An expression whose names are given back is restored. -/
theorem Expr.rename_rename {e : Expr κ} (h : GivesBack names back e.vars) :
    (e.rename names).rename back = e := by
  rw [rename_eq_mapNames, rename_eq_mapNames]
  exact mapNames_mapNames_eq_self_iff.2 h

/-- Updates whose names are given back are restored, with their variables as well as the names that
they mention. -/
theorem rename_rename_updates {updates : NameMap (Update κ)}
    (h : GivesBack names back (updateNames updates)) :
    ((((updates.mapValues fun update => { update with expr := update.expr.rename names }).rekey
      (Expr.newName names)).mapValues fun update =>
        { update with expr := update.expr.rename back }).rekey (Expr.newName back)) = updates := by
  have hnames {entry : String × Update κ} (he : entry ∈ updates.entries) :
      entry.1 :: entry.2.expr.vars ⊆ updateNames updates :=
    fun name hn => List.mem_flatMap.2 ⟨entry, he, hn⟩
  -- first all values, then all keys
  rw [← NameMap.rekey_mapValues, NameMap.mapValues_mapValues]
  have hvalues : (updates.mapValues fun update =>
      { update with expr := (update.expr.rename names).rename back }) = updates := by
    refine NameMap.mapValues_eq_self fun entry he => ?_
    rw [Expr.rename_rename (h.mono (List.Subset.trans (List.subset_cons_self ..) (hnames he)))]
  rw [hvalues]
  refine NameMap.rekey_rekey fun name hname => ?_
  obtain ⟨entry, he, rfl⟩ := List.mem_map.1 hname
  exact h entry.1 (hnames he List.mem_cons_self)

/-- A mode whose names are given back is restored. -/
theorem Mode.renameNames_renameNames {mode : Mode κ} (h : GivesBack names back mode.names) :
    (mode.renameNames names).renameNames back = mode := by
  have hinvariant := Expr.rename_rename (h.mono (List.subset_append_left ..))
  obtain ⟨name, invariant, urgent, flows⟩ := mode
  cases flows with
  | none => simp only [renameNames, mapExprs, Option.map_none, hinvariant]
  | some flows =>
    have hflows : GivesBack names back (updateNames flows) := h.mono (List.subset_append_right ..)
    simp only [renameNames, mapExprs, Option.map_some, hinvariant, rename_rename_updates hflows]

/-- A transition whose names are given back is restored. -/
theorem Transition.renameNames_renameNames {transition : Transition κ}
    (h : GivesBack names back transition.names) :
    (transition.renameNames names).renameNames back = transition := by
  have hguard : (transition.guard.rename names).rename back = transition.guard :=
    Expr.rename_rename (h.mono (List.Subset.trans (List.subset_append_right ..)
      (List.subset_append_left ..)))
  have hresets := rename_rename_updates (h.mono (List.subset_append_right ..))
  -- the label may be missing
  have hlabel : (transition.label.map (Expr.newName names)).map (Expr.newName back) =
      transition.label := by
    obtain ⟨source, target, label, guard, resets⟩ := transition
    cases label with
    | none => rfl
    | some label =>
      exact congrArg some (h label (List.mem_append_left _ (List.mem_append_left _
        List.mem_cons_self)))
  obtain ⟨source, target, label, guard, resets⟩ := transition
  simp only [renameNames, mapExprs] at hguard hresets hlabel ⊢
  rw [hguard, hresets, hlabel]

/-- The modes and the transitions of an automaton whose names are given back are restored. -/
theorem Automaton.renameNames_renameNames {automaton : Automaton κ}
    (h : GivesBack names back automaton.names) :
    (automaton.modes.mapValues fun mode => (mode.renameNames names).renameNames back) =
        automaton.modes ∧
      (automaton.transitions.map fun transition =>
        (transition.renameNames names).renameNames back) = automaton.transitions := by
  constructor
  · refine NameMap.mapValues_eq_self fun entry he => ?_
    -- the names of a part are names of the automaton
    have hmode : entry.2.names ⊆ automaton.names := fun name hn =>
      List.mem_append_left _ (List.mem_flatMap.2 ⟨_, List.mem_map_of_mem he, hn⟩)
    exact Mode.renameNames_renameNames (h.mono hmode)
  · refine List.map_eq_self fun transition ht => ?_
    have htransition : transition.names ⊆ automaton.names := fun name hn =>
      List.mem_append_right _ (List.mem_flatMap.2 ⟨transition, ht, hn⟩)
    exact Transition.renameNames_renameNames (h.mono htransition)

/-- A component whose names are given back by `GivesBack` is restored. -/
theorem Component.renameNames_renameNames {component : Component κ}
    (h : GivesBack names back component.names) :
    (component.renameNames names).renameNames back = component := by
  -- declarations are given back first, and then what the automaton mentions
  have hdeclared : GivesBack names back component.declaredNames :=
    h.mono (List.subset_append_left ..)
  have hvars : (component.vars.map (Expr.newName names)).map (Expr.newName back) =
      component.vars := by
    rw [List.map_map]
    exact List.map_eq_self fun name hn =>
      hdeclared name (List.mem_append_left _ (List.mem_append_left _ hn))
  have hconstants : (component.constants.rekey (Expr.newName names)).rekey (Expr.newName back) =
      component.constants :=
    NameMap.rekey_rekey fun name hn =>
      hdeclared name (List.mem_append_left _ (List.mem_append_right _ hn))
  have hlabels : (component.labels.map (Expr.newName names)).map (Expr.newName back) =
      component.labels := by
    rw [List.map_map]
    exact List.map_eq_self fun name hn => hdeclared name (List.mem_append_right _ hn)
  obtain ⟨parent, instanceName, vars, constants, labels, template, body⟩ := component
  cases body with
  | network children =>
    simp only [renameNames, mapAutomaton] at hvars hconstants hlabels ⊢
    rw [hvars, hconstants, hlabels]
  | base automaton =>
    have hautomaton : GivesBack names back automaton.names := h.mono (List.subset_append_right ..)
    obtain ⟨hmodes, htransitions⟩ := Automaton.renameNames_renameNames hautomaton
    simp only [renameNames, mapAutomaton, NameMap.mapValues_mapValues, List.map_map,
      Function.comp_def] at hvars hconstants hlabels htransitions ⊢
    rw [hvars, hconstants, hlabels, hmodes, htransitions]

/-- A model whose names are given back by `GivesBack` is restored. -/
theorem Model.renameNames_renameNames {model : Model κ} (h : GivesBack names back model.names) :
    (model.renameNames names).renameNames back = model := by
  have hcomponent : model.tree.rootComponent.names ⊆ model.names := fun name hn =>
    List.mem_append_left _ (List.mem_append_left _ hn)
  have htree :
      (model.tree.modify model.tree.root fun component => component.renameNames names).modify
      model.tree.root (fun component => component.renameNames back) = model.tree := by
    rw [Tree.modify_modify]
    exact Tree.modify_eq_self (Component.renameNames_renameNames (h.mono hcomponent))
  -- conditions and plot variables mention names of the model only
  have hconditions {conditions : NameMap (Expr κ)}
      (hsub : conditions.values.flatMap Expr.vars ⊆ model.names) :
      (conditions.mapValues fun e => (e.rename names).rename back) = conditions := by
    refine NameMap.mapValues_eq_self fun entry he => ?_
    have hentry : entry.2.vars ⊆ model.names := fun name hn =>
      hsub (List.mem_flatMap.2 ⟨_, List.mem_map_of_mem he, hn⟩)
    exact Expr.rename_rename (h.mono hentry)
  have hinitial : model.initial.values.flatMap Expr.vars ⊆ model.names := by
    intro name hn
    rw [Model.names, List.flatMap_append]
    exact List.mem_append_left _ (List.mem_append_right _ (List.mem_append_left _ hn))
  have hforbidden : model.forbidden.values.flatMap Expr.vars ⊆ model.names := by
    intro name hn
    rw [Model.names, List.flatMap_append]
    exact List.mem_append_left _ (List.mem_append_right _ (List.mem_append_right _ hn))
  have hplot {axis : Option String} (hsub : axis.toList ⊆ model.settings.plotVariables) :
      (axis.map (Expr.newName names)).map (Expr.newName back) = axis := by
    cases axis with
    | none => rfl
    | some name => exact congrArg some (h name (List.mem_append_right _ (hsub List.mem_cons_self)))
  have hsettings : (model.settings.renamePlotVariables (Expr.newName names)).renamePlotVariables
      (Expr.newName back) = model.settings := by
    rw [Settings.renamePlotVariables, Settings.renamePlotVariables,
      hplot (List.subset_append_left ..), hplot (List.subset_append_right ..)]
  simp only [renameNames, Tree.root_modify, NameMap.mapValues_mapValues, htree, hsettings,
    hconditions hinitial, hconditions hforbidden]

/-! ## Reversed pairs -/

namespace Rename

variable {pairs : List (String × String)}

/-- Pairs of different old names and different new names, where the new names occur nowhere: neither
among the old names nor in the model. -/
structure Fresh (model : Model κ) (pairs : List (String × String)) : Prop where
  nodup_old : (pairs.map Prod.fst).Nodup
  nodup_new : (pairs.map Prod.snd).Nodup
  new_not_old : ∀ pair ∈ pairs, pair.2 ∉ pairs.map Prod.fst
  new_not_mem : ∀ pair ∈ pairs, pair.2 ∉ model.names

/-- The first names of the reversed pairs are the second ones. -/
theorem map_fst_swap (pairs : List (String × String)) :
    (pairs.map Prod.swap).map Prod.fst = pairs.map Prod.snd := by
  rw [List.map_map]
  rfl

/-- The second names of the reversed pairs are the first ones. -/
theorem map_snd_swap (pairs : List (String × String)) :
    (pairs.map Prod.swap).map Prod.snd = pairs.map Prod.fst := by
  rw [List.map_map]
  rfl

/-- A map of pairs with different first names finds just the pairs. -/
theorem get?_ofList_iff (h : (pairs.map Prod.fst).Nodup) {old new : String} :
    (NameMap.ofList pairs).get? old = some new ↔ (old, new) ∈ pairs := by
  rw [NameMap.get?_eq_some_iff, NameMap.entries_ofList h]

/-- The reversed pairs give all names back, as `GivesBack` says, among which the new names do not
occur. -/
theorem givesBack_swap {occurring : List String} (hold : (pairs.map Prod.fst).Nodup)
    (hnew : (pairs.map Prod.snd).Nodup) (hfree : ∀ pair ∈ pairs, pair.2 ∉ occurring) :
    GivesBack (.ofList pairs) (.ofList (pairs.map Prod.swap)) occurring := by
  intro name hname
  have hback {old new : String} :
      (NameMap.ofList (pairs.map Prod.swap)).get? new = some old ↔ (old, new) ∈ pairs := by
    rw [get?_ofList_iff (by rwa [map_fst_swap])]
    exact ⟨fun h => by simpa using List.mem_map_of_mem (f := Prod.swap) h,
      fun h => List.mem_map_of_mem (f := Prod.swap) h⟩
  rcases newName_cases (NameMap.ofList pairs) name with hget | ⟨-, hkept⟩
  · -- a replaced name comes back by the reversed pair
    have hpair := (get?_ofList_iff hold).1 hget
    rw [Expr.newName, hback.2 hpair, Option.getD_some]
  · -- a name that was kept is not one of the new names
    rw [hkept, Expr.newName]
    cases hg : (NameMap.ofList (pairs.map Prod.swap)).get? name with
    | none => rfl
    | some old => exact absurd hname (hfree _ (hback.1 hg))

/-- The `declaredNames` of a renamed component are the new names of declared ones. -/
theorem declaredNames_renameNames_subset (component : Component κ) (names : NameMap String) :
    (component.renameNames names).declaredNames ⊆
      component.declaredNames.map (Expr.newName names) := by
  intro name hn
  rw [Component.declaredNames, List.map_append, List.map_append]
  -- a declared name is a variable, a constant or a label
  rcases List.mem_append.1 hn with hn | hlabel
  · rcases List.mem_append.1 hn with hvar | hconstant
    · exact List.mem_append_left _ (List.mem_append_left _ hvar)
    · refine List.mem_append_left _ (List.mem_append_right _ ?_)
      have hkey := NameMap.mem_keys_ofList.1 hconstant
      rw [List.map_map] at hkey
      rwa [NameMap.keys, List.map_map]
  · exact List.mem_append_right _ hlabel

/-- The root of a model after `renameNames` is the renamed root, even if it lies outside the arena.
-/
theorem rootComponent_renameNames_model (model : Model κ) (names : NameMap String) :
    (model.renameNames names).tree.rootComponent = model.tree.rootComponent.renameNames names :=
  Tree.get_modify_self_of_default rfl ..

/-- A renamed component is an automaton just if it was one. -/
theorem isBase_renameNames (component : Component κ) (names : NameMap String) :
    (component.renameNames names).isBase = component.isBase := by
  obtain ⟨_, _, _, _, _, _, body⟩ := component
  cases body <;> rfl

/-- A renamed model has a single automaton just if it had one. -/
theorem isFlat_renameNames (model : Model κ) (names : NameMap String) :
    (model.renameNames names).tree.isFlat = model.tree.isFlat := by
  rw [Tree.isFlat, rootComponent_renameNames_model, isBase_renameNames, Tree.isFlat]

/-- After the renaming by `Fresh` pairs none of the old names is declared any more. -/
theorem old_not_mem_declaredNames {model : Model κ} (h : Fresh model pairs) :
    ∀ pair ∈ pairs, pair.1 ∉
      (model.renameNames (.ofList pairs)).tree.rootComponent.declaredNames := by
  intro pair hp hm
  rw [rootComponent_renameNames_model] at hm
  obtain ⟨name, -, hname⟩ := List.mem_map.1 (declaredNames_renameNames_subset _ _ hm)
  rcases newName_cases (NameMap.ofList pairs) name with hget | ⟨hkept, heq⟩
  · -- a name that was replaced bears a new name
    rw [hname] at hget
    exact h.new_not_old _ ((get?_ofList_iff h.nodup_old).1 hget) (List.mem_map_of_mem hp)
  · -- an old name was not kept
    refine hkept (NameMap.mem_keys_ofList.2 ?_)
    rw [← heq, hname]
    exact List.mem_map_of_mem hp

/-! ## Lists of names -/

/-- The pairs as one list of names with colons between them. -/
def listText (pairs : List (String × String)) : String :=
  Text.join ":" (pairs.flatMap fun pair => [pair.1, pair.2])

/-- Pairs that can be written as a list: there is a pair, and no name is empty or has a colon. -/
def Listable (pairs : List (String × String)) : Prop :=
  pairs ≠ [] ∧ ∀ pair ∈ pairs, ∀ name ∈ [pair.1, pair.2], name ≠ "" ∧ ':' ∉ name.toList

/-- Reversed pairs can be listed if the pairs can. -/
theorem Listable.swap (h : Listable pairs) : Listable (pairs.map Prod.swap) := by
  refine ⟨fun he => h.1 (List.map_eq_nil_iff.1 he), fun pair hp name hname => ?_⟩
  obtain ⟨original, ho, rfl⟩ := List.mem_map.1 hp
  exact h.2 original ho name (by simpa [or_comm] using hname)

/-- `pairUp` makes pairs again of the names that are listed two by two. -/
theorem pairUp_flatMap (pairs : List (String × String)) :
    pairUp (pairs.flatMap fun pair => [pair.1, pair.2]) = pairs := by
  induction pairs with
  | nil => rfl
  | cons pair rest ih =>
    rw [List.flatMap_cons, List.cons_append, List.cons_append, List.nil_append, pairUp, ih]

/-- There are two names for each pair in a list. -/
theorem length_flatMap_pair (pairs : List (String × String)) :
    (pairs.flatMap fun pair => [pair.1, pair.2]).length = 2 * pairs.length := by
  induction pairs with
  | nil => rfl
  | cons pair rest ih =>
    rw [List.flatMap_cons, List.length_append, ih, List.length_cons]
    simp only [List.length_cons, List.length_nil]
    omega

/-- `readPairs` reads a list as the pairs that were written. -/
theorem readPairs_listText (h : Listable pairs) : readPairs (listText pairs) = .ok pairs := by
  have hnames : ∀ name ∈ pairs.flatMap fun pair => [pair.1, pair.2],
      name ≠ "" ∧ ':' ∉ name.toList := by
    intro name hn
    obtain ⟨pair, hp, hname⟩ := List.mem_flatMap.1 hn
    exact h.2 pair hp name hname
  have hne : (pairs.flatMap fun pair => [pair.1, pair.2]) ≠ [] := by
    intro he
    have hlength := congrArg List.length he
    rw [length_flatMap_pair, List.length_nil] at hlength
    exact h.1 (List.length_eq_zero_iff.1 (by omega))
  -- no name has a colon, so the text is cut just where the names end
  have hpieces : Text.pieces ':' (listText pairs) = pairs.flatMap fun pair => [pair.1, pair.2] :=
    Text.pieces_joinWith rfl hne fun name hn => (hnames name hn).2
  have hempty : (pairs.flatMap fun pair => [pair.1, pair.2]).findIdx? String.isEmpty = none := by
    refine List.findIdx?_eq_none_iff.2 fun name hn => ?_
    exact eq_false_of_ne_true fun he => (hnames name hn).1 (String.isEmpty_iff.1 he)
  rw [readPairs, hpieces, length_flatMap_pair, hempty, pairUp_flatMap]
  simp

end Rename

/-- On a model with a single automaton, for pairs of different old names and different new names
that occur nowhere: just the new names are chosen, and the run with the reversed pairs, which
chooses just the old names, restores the model. Both lists of pairs are read from the texts that
list them. -/
theorem renaming_is_undone_by_the_reversed_pairs (w : Workspace κ) (pairs : List (String × String))
    (hflat : w.model.tree.isFlat = true) (hfresh : Rename.Fresh w.model pairs) :
    (Rename.Listable pairs →
        Rename.readPairs (Rename.listText pairs) = .ok pairs ∧
          Rename.readPairs (Rename.listText (pairs.map Prod.swap)) = .ok (pairs.map Prod.swap)) ∧
      Rename.choices w.model.tree.rootComponent.declaredNames ∅ pairs = pairs ∧
      ∃ w₁ w₂ : Workspace κ,
        (Rename.run pairs).runOn w = (.ok (), w₁) ∧
        w₁.model = w.model.renameNames (.ofList pairs) ∧
        Rename.choices w₁.model.tree.rootComponent.declaredNames ∅ (pairs.map Prod.swap) =
          pairs.map Prod.swap ∧
        (Rename.run (pairs.map Prod.swap)).runOn w₁ = (.ok (), w₂) ∧
        w₂.model = w.model := by
  have hchoices : Rename.choices w.model.tree.rootComponent.declaredNames ∅ pairs = pairs := by
    refine Rename.choices_eq_self hfresh.nodup_new (fun pair hp hm => ?_)
      fun pair _ => List.not_mem_nil
    refine hfresh.new_not_mem pair hp (List.mem_append_left _ (List.mem_append_left _ ?_))
    exact List.mem_append_left _ hm
  obtain ⟨w₁, hrun₁, hmodel₁⟩ := Rename.runOn_run pairs w hflat
  rw [Rename.newNames, hchoices] at hmodel₁
  -- the old names are free now
  have hchoices' : Rename.choices w₁.model.tree.rootComponent.declaredNames ∅
      (pairs.map Prod.swap) = pairs.map Prod.swap := by
    refine Rename.choices_eq_self ?_ (fun pair hp => ?_) fun pair _ => List.not_mem_nil
    · rw [Rename.map_snd_swap]
      exact hfresh.nodup_old
    · obtain ⟨original, ho, rfl⟩ := List.mem_map.1 hp
      rw [hmodel₁]
      exact Rename.old_not_mem_declaredNames hfresh original ho
  have hflat₁ : w₁.model.tree.isFlat = true := by
    rw [hmodel₁, Rename.isFlat_renameNames, hflat]
  obtain ⟨w₂, hrun₂, hmodel₂⟩ := Rename.runOn_run (pairs.map Prod.swap) w₁ hflat₁
  rw [Rename.newNames, hchoices', hmodel₁, Model.renameNames_renameNames
    (Rename.givesBack_swap hfresh.nodup_old hfresh.nodup_new hfresh.new_not_mem)] at hmodel₂
  exact ⟨fun hlist => ⟨Rename.readPairs_listText hlist, Rename.readPairs_listText hlist.swap⟩,
    hchoices, w₁, w₂, hrun₁, hmodel₁, hchoices', hrun₂, hmodel₂⟩

/-- The variable and the label of an automaton are renamed, and get their names back. -/
theorem twoLabels_are_renamed_back :
    ∃ w₁ w₂ : Workspace Int,
      (Rename.run [("x", "position"), ("a", "go")]).runOn { model := twoLabels } = (.ok (), w₁) ∧
      w₁.model.tree.rootComponent.declaredNames = ["position", "go"] ∧
      (Rename.run [("position", "x"), ("go", "a")]).runOn w₁ = (.ok (), w₂) ∧
      w₂.model = twoLabels := by
  -- the reversed pairs are read off the theorem, and the first run is evaluated
  obtain ⟨-, -, w₁, w₂, hrun₁, hmodel₁, -, hrun₂, hmodel₂⟩ :=
    renaming_is_undone_by_the_reversed_pairs { model := twoLabels }
      [("x", "position"), ("a", "go")] rfl
      ⟨by decide, by decide, by decide, by decide +kernel⟩
  refine ⟨w₁, w₂, hrun₁, ?_, hrun₂, hmodel₂⟩
  rw [hmodel₁]
  decide +kernel

end HybridAutomata
