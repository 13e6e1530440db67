import HybridAutomata.Proofs.Model.Queries
import HybridAutomata.Proofs.Tree.Built
import HybridAutomata.Proofs.Tree.CopyBelow
import HybridAutomata.Proofs.Tree.StandIns
/-!
# Copies beside their originals

The copy of a component is placed in the network around the component, under a new name and with the
bindings of the original. Then every component of the tree stands for one that was there before: a
copy for its original, and everything else for itself. So the tree obeys the rules if it did before.

* `Twin.standsFor`                   what the components stand for
* `copying_in_place_is_isolated`     copying inside of an arena, and placing the copy
* `box_in_itself_is_not_copied`      why no way may lead back to what is copied
-/

namespace HybridAutomata

variable {κ : Type}

/-- An instance with the bindings of another one. -/
def Instance.boundAs (inst other : Instance) : Instance :=
  { inst with vars := other.vars, consts := other.consts, labels := other.labels }

namespace Tree

/-- The tree after a component was copied and its copy was placed in a network, bound as an
instance. -/
def withTwin (tree : Tree κ) (c parent : Handle) (name : String) (inst : Instance) : Tree κ :=
  ((tree.withCopy c).link parent name (tree.copied c c)).modifyInstance (tree.copied c c) fun new =>
    new.boundAs inst

/-- What a component of the tree with the copies stands for: a copy for its original, and an old
component for itself. -/
def IsOriginal (tree : Tree κ) (c d o : Handle) : Prop :=
  tree.Reachable o ∧ (d = o ∨ o ∈ tree.descendants c ∧ d = tree.copied c o)

/-- An instance of a network in a tree that obeys the rules, and a name for one more. -/
structure Twin (tree : Tree κ) (parent : Handle) (own : String) (inst : Instance) (name : String) :
    Prop where
  built : tree.WellBuilt
  reached : tree.Reachable parent
  entry : (own, inst) ∈ (tree.get parent).children.entries
  fresh : name ∉ (tree.get parent).children.keys
  spelled : Text.isIdentifier name = true

namespace Twin

variable {tree : Tree κ} {c d o parent : Handle} {own name : String} {inst : Instance}

/-! ## The original -/

theorem reachable (h : tree.Twin parent own inst name) : tree.Reachable inst.child :=
  h.reached.child h.entry

theorem index_lt (h : tree.Twin parent own inst name) : inst.child.index < tree.size :=
  h.built.linked.index_lt h.reachable

theorem linkedBelow (h : tree.Twin parent own inst name) : tree.LinkedBelow inst.child :=
  h.built.linked.below h.reachable

theorem noWayBack (h : tree.Twin parent own inst name) : tree.NoWayBack inst.child :=
  h.built.linked.noWayBack h.reachable

/-- A walk from the instance visits what is at or below it. -/
theorem mem_descendants_iff (h : tree.Twin parent own inst name) :
    d ∈ tree.descendants inst.child ↔ ∃ names, tree.follow inst.child names = some d :=
  h.linkedBelow.mem_descendants_iff h.index_lt h.noWayBack

/-- A walk from the instance visits the instance. -/
theorem mem_descendants_self (h : tree.Twin parent own inst name) :
    inst.child ∈ tree.descendants inst.child :=
  h.mem_descendants_iff.2 ⟨[], rfl⟩

/-- `withCopy` adds copies of the instance and of what is below it. -/
theorem isCopied (h : tree.Twin parent own inst name) :
    tree.IsCopied (tree.withCopy inst.child) inst.child (tree.copied inst.child inst.child) :=
  h.linkedBelow.isCopied_withCopy h.index_lt h.noWayBack

/-- What holds the instance is a network. -/
theorem isNetwork (h : tree.Twin parent own inst name) : (tree.get parent).isNetwork := by
  rcases hc : tree.get parent with ⟨_, _, _, _, _, _, _ | _⟩
  · have hentry := h.entry
    rw [hc] at hentry
    cases hentry
  · rfl

theorem parent_lt (h : tree.Twin parent own inst name) : parent.index < tree.size :=
  index_lt_of_isNetwork h.isNetwork

/-- `copied` leads to no place where something was before. -/
theorem copied_ne (hd : d.index < tree.size) (c o : Handle) : tree.copied c o ≠ d := by
  rintro rfl
  exact absurd hd (Nat.not_lt.2 (Nat.le_add_right ..))

/-! ## What is placed -/

/-- `checkPlace` lets the copy be placed. -/
theorem checkPlace_eq_ok (h : tree.Twin parent own inst name) :
    (tree.withCopy inst.child).checkPlace parent name = .ok () := by
  rw [checkPlace_eq_ok_iff, get_withCopy_of_lt h.parent_lt]
  exact ⟨h.isNetwork, h.fresh⟩

/-- `withTwin` binds the new instance by changing the entry that was just made. -/
theorem withTwin_eq (h : tree.Twin parent own inst name) :
    tree.withTwin inst.child parent name inst =
      ((tree.withCopy inst.child).link parent name (tree.copied inst.child inst.child)).modifyChild
        parent name fun new => new.boundAs inst := by
  have hlt := (isNew_copied h.mem_descendants_self).2
  rw [withTwin, modifyInstance, get_link_child hlt (copied_ne h.parent_lt _ _)]

/-- `withTwin` keeps the root. -/
theorem root_withTwin (h : tree.Twin parent own inst name) :
    (tree.withTwin inst.child parent name inst).root = tree.root := by
  rw [h.withTwin_eq]
  rfl

/-- `withTwin` adds a component for each one at or below the instance. -/
theorem size_withTwin (h : tree.Twin parent own inst name) :
    (tree.withTwin inst.child parent name inst).size =
      tree.size + (tree.descendants inst.child).length := by
  rw [h.withTwin_eq, modifyChild, size_modify, size_link, size_withCopy]

/-- In `withTwin` the network has one more entry. -/
theorem get_withTwin_parent (h : tree.Twin parent own inst name) :
    (tree.withTwin inst.child parent name inst).get parent = { tree.get parent with
      body := .network ((tree.get parent).children.insert name
        { inst with parent, child := tree.copied inst.child inst.child }) } := by
  have hlt : parent.index < (tree.withCopy inst.child).size := by
    rw [size_withCopy]
    exact Nat.lt_add_right _ h.parent_lt
  -- appending the copies and linking them changes the network in its entries only
  have hget := get_withCopy_of_lt (c := inst.child) h.parent_lt
  have hnetwork : ((tree.withCopy inst.child).get parent).isNetwork := by
    rw [hget]
    exact h.isNetwork
  rw [h.withTwin_eq, modifyChild, get_modify_self (by rwa [size_link]),
    get_link_parent hnetwork (copied_ne h.parent_lt _ _), hget]
  simp only [Component.mapChildren, NameMap.modify_insert, Instance.boundAs]

/-- In `withTwin` other old components stay as they are. -/
theorem get_withTwin_of_lt (h : tree.Twin parent own inst name) (hd : d.index < tree.size)
    (hne : d ≠ parent) : (tree.withTwin inst.child parent name inst).get d = tree.get d := by
  rw [h.withTwin_eq, modifyChild, get_modify_of_ne hne,
    get_link_of_ne hne (copied_ne hd _ _).symm, get_withCopy_of_lt hd]

/-- In `withTwin` the copy of the instance is placed under the new name. -/
theorem get_withTwin_top (h : tree.Twin parent own inst name) :
    (tree.withTwin inst.child parent name inst).get (tree.copied inst.child inst.child) =
      { (tree.get inst.child).relabel (tree.copied inst.child) with
        parent := some parent, instanceName := some name } := by
  have hlt := (isNew_copied h.mem_descendants_self).2
  have hne := copied_ne h.parent_lt inst.child inst.child
  rw [h.withTwin_eq, modifyChild, get_modify_of_ne hne, get_link_child hlt hne, h.isCopied.top]
  rfl

/-- In `withTwin` copies below the instance stay as they are. -/
theorem get_withTwin_below (h : tree.Twin parent own inst name)
    (hd : d ∈ tree.descendants inst.child) (hne : d ≠ inst.child) :
    (tree.withTwin inst.child parent name inst).get (tree.copied inst.child d) =
      (tree.get d).relabel (tree.copied inst.child) := by
  have hnep := copied_ne h.parent_lt inst.child d
  have hnec : tree.copied inst.child d ≠ tree.copied inst.child inst.child := by
    -- different components come at different places of the walk
    intro he
    have hindex := Nat.add_left_cancel (congrArg Handle.index he)
    exact hne ((List.idxOf_inj hd).1 hindex)
  rw [h.withTwin_eq, modifyChild, get_modify_of_ne hnep, get_link_of_ne hnep hnec,
    h.isCopied.below d hd hne]

/-! ## What stands for what -/

/-- In `withTwin` an old component is linked as before. -/
theorem links_withTwin (h : tree.Twin parent own inst name) (hd : d.index < tree.size) :
    ((tree.withTwin inst.child parent name inst).get d).parent = (tree.get d).parent ∧
      ((tree.withTwin inst.child parent name inst).get d).instanceName =
        (tree.get d).instanceName := by
  by_cases hp : d = parent
  · subst hp
    rw [h.get_withTwin_parent]
    exact ⟨rfl, rfl⟩
  · rw [h.get_withTwin_of_lt hd hp]
    exact ⟨rfl, rfl⟩

/-- In `withTwin` an old component has the entries it had, and the network has the new one. -/
theorem mem_entries_withTwin (h : tree.Twin parent own inst name) (hd : d.index < tree.size)
    {entry : String × Instance} :
    entry ∈ ((tree.withTwin inst.child parent name inst).get d).children.entries ↔
      entry ∈ (tree.get d).children.entries ∨ d = parent ∧ entry =
        (name, { inst with parent, child := tree.copied inst.child inst.child }) := by
  by_cases hp : d = parent
  · -- the new name goes behind the others
    subst hp
    rw [h.get_withTwin_parent, Component.children_of_network rfl,
      NameMap.entries_insert_of_not_mem h.fresh]
    simp
  · rw [h.get_withTwin_of_lt hd hp]
    simp [hp]

/-- In `withTwin` the entries of a copy are those of its original, with the new handles. -/
theorem entries_withTwin_copied (h : tree.Twin parent own inst name)
    (ho : o ∈ tree.descendants inst.child) :
    ((tree.withTwin inst.child parent name inst).get (tree.copied inst.child o)).children.entries =
      (tree.get o).children.entries.map fun entry =>
        (entry.1, entry.2.relabel (tree.copied inst.child)) := by
  rw [← Component.entries_children_relabel]
  -- the first copy gets other links than the rest, but no other entries
  by_cases hc : o = inst.child
  · subst hc
    rw [h.get_withTwin_top]
    rfl
  · rw [h.get_withTwin_below ho hc]

/-- In `withTwin` an old component and a copy declare what their originals declare. -/
theorem component_withTwin (h : tree.Twin parent own inst name)
    (ho : tree.IsOriginal inst.child d o) :
    ((tree.withTwin inst.child parent name inst).get d).StandsFor (tree.get o) := by
  -- an old component stands for itself, a new one for the component it was copied from
  obtain ⟨hreach, rfl | ⟨hmem, rfl⟩⟩ := ho
  · by_cases hp : d = parent
    · subst hp
      rw [h.get_withTwin_parent]
      refine ⟨rfl, rfl, rfl, ?_⟩
      rw [Component.eq_of_isNetwork h.isNetwork]
      rfl
    · rw [h.get_withTwin_of_lt (h.built.linked.index_lt hreach) hp]
      exact ⟨rfl, rfl, rfl, rfl⟩
  · have hautomaton : ((tree.get o).relabel (tree.copied inst.child)).automaton? =
        (tree.get o).automaton? := by
      rcases tree.get o with ⟨_, _, _, _, _, _, _ | _⟩ <;> rfl
    by_cases hc : o = inst.child
    · subst hc
      rw [h.get_withTwin_top]
      exact ⟨rfl, rfl, rfl, hautomaton⟩
    · rw [h.get_withTwin_below hmem hc]
      exact ⟨rfl, rfl, rfl, hautomaton⟩

/-- What lies below a component at or below the instance is copied with it. -/
theorem child_mem_descendants (h : tree.Twin parent own inst name)
    (ho : o ∈ tree.descendants inst.child) {entry : String × Instance}
    (he : entry ∈ (tree.get o).children.entries) :
    entry.2.child ∈ tree.descendants inst.child := by
  obtain ⟨names, hf⟩ := h.mem_descendants_iff.1 ho
  exact h.mem_descendants_iff.2 ⟨names ++ [entry.1], follow_concat_iff.2 ⟨o, entry.2, hf, he, rfl⟩⟩

/-- In `withTwin` the entries of a component and of its copy are linked. -/
theorem link_withTwin (h : tree.Twin parent own inst name) (ho : tree.IsOriginal inst.child d o)
    {entry : String × Instance}
    (he : entry ∈ ((tree.withTwin inst.child parent name inst).get d).children.entries) :
    (tree.withTwin inst.child parent name inst).LinkOk d entry.1 entry.2 ∧
      Text.isIdentifier entry.1 = true := by
  obtain ⟨hreach, rfl | ⟨hmem, rfl⟩⟩ := ho
  · rcases (h.mem_entries_withTwin (h.built.linked.index_lt hreach)).1 he with he | ⟨rfl, rfl⟩
    · obtain ⟨hlink, hspelled⟩ := h.built.links d hreach entry he
      obtain ⟨hparent, hname⟩ := h.links_withTwin (h.built.linked.index_lt (hreach.child he))
      exact ⟨⟨hlink.parent, hparent.trans hlink.childParent, hname.trans hlink.childName⟩, hspelled⟩
    · -- the new entry, and the copy that was placed
      have htop := h.get_withTwin_top
      exact ⟨⟨rfl, congrArg Component.parent htop, congrArg Component.instanceName htop⟩, h.spelled⟩
  · rw [h.entries_withTwin_copied hmem] at he
    obtain ⟨old, hold, rfl⟩ := List.mem_map.1 he
    obtain ⟨hlink, hspelled⟩ := h.built.links o hreach old hold
    obtain ⟨names, hf⟩ := h.mem_descendants_iff.1 hmem
    -- no entry leads back to the top, so the child is a copy that kept its links
    have hget := h.get_withTwin_below (h.child_mem_descendants hmem hold)
      (h.noWayBack.child_ne hf hold)
    have hparent : ((tree.get old.2.child).relabel (tree.copied inst.child)).parent =
        some (tree.copied inst.child o) := by
      rw [Component.relabel, hlink.childParent]
      rfl
    exact ⟨⟨congrArg (tree.copied inst.child) hlink.parent,
      (congrArg Component.parent hget).trans hparent,
      (congrArg Component.instanceName hget).trans hlink.childName⟩, hspelled⟩

/-- In `withTwin` every entry comes from an entry with the same bindings. -/
theorem origin_withTwin (h : tree.Twin parent own inst name) (ho : tree.IsOriginal inst.child d o)
    {entry : String × Instance}
    (he : entry ∈ ((tree.withTwin inst.child parent name inst).get d).children.entries) :
    ∃ old ∈ (tree.get o).children.entries, tree.IsOriginal inst.child entry.2.child old.2.child ∧
      ∀ kind, entry.2.bindings kind = old.2.bindings kind := by
  obtain ⟨hreach, rfl | ⟨hmem, rfl⟩⟩ := ho
  · rcases (h.mem_entries_withTwin (h.built.linked.index_lt hreach)).1 he with he | ⟨rfl, rfl⟩
    · exact ⟨entry, he, ⟨hreach.child he, .inl rfl⟩, fun _ => rfl⟩
    · -- the new entry is bound as that of the original
      exact ⟨(own, inst), h.entry, ⟨h.reachable, .inr ⟨h.mem_descendants_self, rfl⟩⟩,
        fun kind => by cases kind <;> rfl⟩
  · rw [h.entries_withTwin_copied hmem] at he
    obtain ⟨old, hold, rfl⟩ := List.mem_map.1 he
    exact ⟨old, hold, ⟨hreach.child hold, .inr ⟨h.child_mem_descendants hmem hold, rfl⟩⟩,
      fun kind => Instance.bindings_relabel _ _ kind⟩

/-- `withTwin` stands for the tree, each component for its original. -/
theorem standsFor (h : tree.Twin parent own inst name) :
    (tree.withTwin inst.child parent name inst).StandsFor tree (tree.IsOriginal inst.child) := by
  have hroot := h.links_withTwin h.built.linked.root_lt
  constructor
  case root_lt =>
    rw [h.root_withTwin, h.size_withTwin]
    exact Nat.lt_add_right _ h.built.linked.root_lt
  case rootName =>
    rw [rootComponent, h.root_withTwin, hroot.2]
    exact h.built.rootName
  case rootParent =>
    rw [rootComponent, h.root_withTwin, hroot.1]
    exact h.built.rootParent
  case root => exact ⟨tree.reachable_root, .inl h.root_withTwin⟩
  case reachable => exact fun d o ho => ho.1
  case component => exact fun d o ho => h.component_withTwin ho
  -- a network that is not empty is copied with its entries
  case nonempty =>
    rintro d o ⟨hreach, rfl | ⟨hmem, rfl⟩⟩ hne
    · obtain ⟨entry, he⟩ := List.exists_mem_of_ne_nil _ hne
      exact List.ne_nil_of_mem ((h.mem_entries_withTwin (h.built.linked.index_lt hreach)).2
        (.inl he))
    · rw [h.entries_withTwin_copied hmem]
      exact fun hnil => hne (List.map_eq_nil_iff.1 hnil)
  case link => exact fun d o ho entry he => h.link_withTwin ho he
  case origin => exact fun d o ho entry he => h.origin_withTwin ho he

end Twin

/-! ## Copying inside of an arena -/

variable {tree : Tree κ} {c : Handle}

/-- A copy that is placed under a new name beside its original, with the same bindings, keeps a tree
`WellBuilt`. -/
theorem exists_twin (htree : tree.WellBuilt) (hc : tree.Reachable c) (hne : c ≠ tree.root) :
    ∃ parent inst, (tree.get c).parent = some parent ∧ tree.instance? c = some inst ∧
      ∀ name, Text.isIdentifier name = true → name ∉ (tree.get parent).children.keys →
        ∃ placed,
          (attach parent name (tree.copied c c)).runOn (tree.withCopy c) = (.ok (), placed) ∧
          (placed.modifyInstance (tree.copied c c) fun new => new.boundAs inst).WellBuilt := by
  -- what is not the root is placed by an instance, whose bindings the copy takes over
  rcases htree.linked.instance?_cases hc with
    ⟨hroot, -⟩ | ⟨parent, own, inst, hp, he, rfl, hlink, hi⟩
  · exact absurd hroot hne
  · refine ⟨parent, inst, hlink.childParent, hi, fun name hspelled hfresh => ?_⟩
    have htwin : tree.Twin parent own inst name := ⟨htree, hp, he, hfresh, hspelled⟩
    refine ⟨_, ?_, htwin.standsFor.wellBuilt htree⟩
    rw [runOn_attach, htwin.checkPlace_eq_ok]

/-- In an arena with consistent links, copying a component with what is below it leaves the rest
alone, and the copies refer to each other only. This takes that no way down from the component leads
back to it (`NoWayBack`), since copying follows all of them to their ends. Then copying fails only
at a literal that does not read as a number. Whenever it fails it leaves the arena behind as it was.
If the component is an instance in a tree that passes its check, and the copy is placed beside it
under a new name and with the same bindings, the tree passes its check again. -/
theorem copying_in_place_is_isolated {κ : Type} [Scalar κ] (tree : Tree κ) (c : Handle)
    (hlinks : tree.AllLinked) (hlt : c.index < tree.size) :
    (tree.NoWayBack c → tree.NoLiteralsBelow c → ∃ after copy,
      (copyComponent c).runOn tree = (.ok copy, after) ∧ tree.IsCopied after c copy ∧
      (tree.check {} = .ok () → tree.Reachable c → c ≠ tree.root →
        ∃ parent inst, (tree.get c).parent = some parent ∧ tree.instance? c = some inst ∧
          ∀ name, Text.isIdentifier name = true → name ∉ (tree.get parent).children.keys →
            ∃ placed, (attach parent name copy).runOn after = (.ok (), placed) ∧
              (placed.modifyInstance copy fun new => new.boundAs inst).check {} = .ok ())) ∧
    ∀ cause after, (copyComponent c).runOn tree = (.error cause, after) →
      after = tree ∧
      (tree.NoWayBack c →
        ∃ names d, tree.follow c names = some d ∧ ∃ entry ∈ (tree.get d).children.entries,
          ∃ binding ∈ entry.2.consts, ∃ literal, binding.IsMalformed κ literal ∧
            cause = .malformedLiteral binding.inner literal) := by
  have hbelow := hlinks.linkedBelow c
  constructor
  · intro hback hliteral
    refine ⟨_, _, hbelow.runOn_copyComponent_eq hlt hback hliteral,
      hbelow.isCopied_withCopy hlt hback, fun hcheck hc hne => ?_⟩
    have htree : tree.WellBuilt := wellFormed_iff.1 ⟨hlinks.rootName, hlinks.rootParent, hcheck⟩
    obtain ⟨parent, inst, hparent, hi, hplaced⟩ := exists_twin htree hc hne
    refine ⟨parent, inst, hparent, hi, fun name hspelled hfresh => ?_⟩
    obtain ⟨placed, hattach, hwell⟩ := hplaced name hspelled hfresh
    exact ⟨placed, hattach, (wellFormed_iff.2 hwell).check⟩
  · intro cause after hcause
    refine ⟨copyComponent_atomicOn c tree cause after hcause, fun hback => ?_⟩
    -- the copies are gathered first, so this is where it has failed
    rw [runOn_copyComponent] at hcause
    split at hcause
    · cases hcause
    · next hfail =>
      cases hcause
      exact exists_of_copyWithin_eq_error (hbelow.covers hlt hback) hfail

/-- The box of the clock and the lamp is copied, and a second box is put beside the first one. -/
theorem box_is_copied_beside_itself :
    ∃ after copy inst placed, (copyComponent ⟨1⟩).runOn clockAndLamp.tree = (.ok copy, after) ∧
      clockAndLamp.tree.IsCopied after ⟨1⟩ copy ∧
      clockAndLamp.tree.instance? ⟨1⟩ = some inst ∧
      (attach ⟨0⟩ "spare" copy).runOn after = (.ok (), placed) ∧
      (placed.modifyInstance copy fun new => new.boundAs inst).check {} = .ok () := by
  have hlinks : clockAndLamp.tree.AllLinked :=
    .of_arena (by decide) (by decide) (by decide +kernel)
  have hc : clockAndLamp.tree.Reachable ⟨1⟩ := ⟨["box"], by decide +kernel⟩
  have hliteral : clockAndLamp.tree.NoLiteralsBelow ⟨1⟩ :=
    .of_arena (by decide +kernel)
  -- the box is reachable, so no way leads back to it
  obtain ⟨hcopies, -⟩ := copying_in_place_is_isolated clockAndLamp.tree ⟨1⟩ hlinks (by decide)
  obtain ⟨after, copy, hcopy, hcopied, hbeside⟩ := hcopies (hlinks.linked.noWayBack hc) hliteral
  obtain ⟨parent, inst, hparent, hi, hplaced⟩ :=
    hbeside (Except.eq_ok_of_isOk (by decide +kernel)) hc (by decide)
  obtain rfl : ⟨0⟩ = parent := Option.some.inj hparent
  obtain ⟨placed, hattach, hcheck⟩ := hplaced "spare" (by decide +kernel) (by decide +kernel)
  exact ⟨after, copy, inst, placed, hcopy, hcopied, hi, hattach, hcheck⟩

/-- An automaton at the root, and apart from it a box that is its own child. -/
def boxInItself : Tree Int where
  components := #[
    { body := .base .empty },
    { parent := some ⟨1⟩
      instanceName := some "box"
      body := .network (.ofList [("box", { parent := ⟨1⟩, child := ⟨1⟩ })]) }]
  root := ⟨0⟩

/-- Consistent links are not enough: the box in itself has them, no constant is bound there at all,
and yet there is always one more box to copy, however many levels are copied. -/
theorem box_in_itself_is_not_copied :
    boxInItself.AllLinked ∧ boxInItself.NoLiteralsBelow ⟨1⟩ ∧
      (∀ levels start,
        boxInItself.copyWithin levels start ⟨1⟩ = .error (.circularNesting "box")) ∧
      ¬ ∃ copy after, (copyComponent ⟨1⟩).runOn boxInItself = (.ok copy, after) := by
  have hendless (levels start : Nat) :
      boxInItself.copyWithin levels start ⟨1⟩ = .error (.circularNesting "box") := by
    induction levels generalizing start with
    | zero => rfl
    | succ levels ih =>
      -- the only child is the box again
      have hbody : (boxInItself.get ⟨1⟩).body =
          .network ⟨[("box", { parent := ⟨1⟩, child := ⟨1⟩ })], by decide⟩ := rfl
      simp only [copyWithin, hbody, List.foldlM_cons, ih, Except.error_bind]
  refine ⟨.of_arena (by decide) (by decide) (by decide +kernel), .of_arena (by decide +kernel),
    hendless, ?_⟩
  rintro ⟨copy, after, hcopy⟩
  rw [runOn_copyComponent, hendless] at hcopy
  cases hcopy

end Tree

end HybridAutomata
