import HybridAutomata.Proofs.Component.Body
import HybridAutomata.Proofs.Tree.Chain
/-!
# Other layouts of a tree

A tree is laid out in another arena if what its root leads to lies at other places there, with other
handles and with its instances in any order: `LaidOut`. What else the arenas hold does not matter,
and all ways correspond.

The other tree is a mirror if the order of instances is the same and the links of the tree are
consistent: `Mirrors`. Then links and chains correspond, so the mirror has consistent links too and
the places correspond one to one.

* `LaidOut.follow_eq`     ways down
* `Mirrors.linked'`       links back
* `Mirrors.injective`     different components lie at different places
* `Mirrors.chain`         chains of bindings
-/

namespace HybridAutomata

variable {κ : Type}

/-! ## Components with other handles -/

/-- An instance with its handles changed. -/
def Instance.relabel (f : Handle → Handle) (inst : Instance) : Instance :=
  { inst with parent := f inst.parent, child := f inst.child }

/-- A component with its handles changed. -/
def Component.relabel (f : Handle → Handle) (component : Component κ) : Component κ :=
  { component with
    parent := component.parent.map f
    body := match component.body with
      | .base automaton => .base automaton
      | .network children => .network (children.mapValues (Instance.relabel f)) }

@[simp] theorem Instance.bindings_relabel (f : Handle → Handle) (inst : Instance)
    (kind : NameKind) : (inst.relabel f).bindings kind = inst.bindings kind := by
  cases kind <;> rfl

/-- `relabel` keeps what the names of an instance are bound to. -/
@[simp] theorem Instance.outerName?_relabel (f : Handle → Handle) (inst : Instance)
    (kind : NameKind) (name : String) :
    (inst.relabel f).outerName? kind name = inst.outerName? kind name := by
  rw [outerName?, outerName?, bindings_relabel]

namespace Component

/-- The entries of a component after `relabel`. -/
theorem entries_children_relabel (f : Handle → Handle) (component : Component κ) :
    (component.relabel f).children.entries =
      component.children.entries.map fun entry => (entry.1, entry.2.relabel f) := by
  rcases component with ⟨_, _, _, _, _, _, _ | _⟩ <;> rfl

@[simp] theorem isBase_relabel (f : Handle → Handle) (component : Component κ) :
    (component.relabel f).isBase = component.isBase := by
  rcases component with ⟨_, _, _, _, _, _, _ | _⟩ <;> rfl

theorem mapChildren_id (component : Component κ) : component.mapChildren id = component := by
  rcases component with ⟨_, _, _, _, _, _, _ | _⟩ <;> rfl

/-- `mapChildren` by a function that changes the order of instances only gives the same entries in
another order. -/
theorem entries_children_mapChildren {order : NameMap Instance → NameMap Instance}
    (horder : ∀ map, (order map).entries.Perm map.entries) (component : Component κ) :
    (component.mapChildren order).children.entries.Perm component.children.entries := by
  rcases component with ⟨_, _, _, _, _, _, _ | children⟩
  · exact .refl _
  · exact horder children

/-- `relabel` by a function that leaves the handles of a component as they are leaves the component
as it is. -/
theorem relabel_eq_self {f : Handle → Handle} {component : Component κ}
    (hparent : component.parent.map f = component.parent)
    (hchildren : ∀ entry ∈ component.children.entries, entry.2.relabel f = entry.2) :
    component.relabel f = component := by
  -- an automaton has no entries; in a network each entry stays as it is
  rcases component with ⟨parent, _, _, _, _, _, _ | children⟩
  · simp only [relabel] at hparent ⊢
    rw [hparent]
  · have hmap : children.mapValues (Instance.relabel f) = children := by
      have hentries : children.entries.map (fun entry => (entry.1, entry.2.relabel f)) =
          children.entries.map id :=
        List.map_congr_left fun entry he => Prod.ext rfl (hchildren entry he)
      exact NameMap.ext (hentries.trans (List.map_id _))
    simp only [relabel] at hparent ⊢
    rw [hparent, hmap]

end Component

namespace Tree

/-- The components that are reachable in a tree have places in another arena, and differ from what
lies there in their handles and in the order of their instances only. -/
structure LaidOut (tree tree' : Tree κ) (f : Handle → Handle) : Prop where
  root : tree'.root = f tree.root
  get : ∀ c, tree.Reachable c → ∃ order : NameMap Instance → NameMap Instance,
    (∀ map, (order map).entries.Perm map.entries) ∧
      tree'.get (f c) = ((tree.get c).relabel f).mapChildren order

namespace LaidOut

variable {tree tree' : Tree κ} {f : Handle → Handle} {c d : Handle} {name : String}

/-- The entries at the place of a component are its entries, with other handles and in any order. -/
theorem entries_children (h : tree.LaidOut tree' f) (hc : tree.Reachable c) :
    (tree'.get (f c)).children.entries.Perm
      ((tree.get c).children.entries.map fun entry => (entry.1, entry.2.relabel f)) := by
  obtain ⟨order, horder, hget⟩ := h.get c hc
  rw [hget, ← Component.entries_children_relabel]
  exact Component.entries_children_mapChildren horder _

/-- The instances at the place of a component have the names that they had. -/
theorem childNamed?_eq (h : tree.LaidOut tree' f) (hc : tree.Reachable c) (name : String) :
    tree'.childNamed? (f c) name = (tree.childNamed? c name).map (Instance.relabel f) := by
  rw [childNamed?, childNamed?, ← NameMap.get?_mapValues]
  exact NameMap.get?_eq_of_perm (h.entries_children hc) name

/-- `follow` leads to corresponding places. -/
theorem follow_eq (h : tree.LaidOut tree' f) (hc : tree.Reachable c) (names : List String) :
    tree'.follow (f c) names = (tree.follow c names).map f := by
  -- induction on the names; each one leads to a child, which has a place as well
  induction names generalizing c with
  | nil => rfl
  | cons name rest ih =>
    rw [follow, follow, h.childNamed?_eq hc]
    cases hi : tree.childNamed? c name with
    | none => rfl
    | some inst => exact ih (hc.child (NameMap.get?_eq_some_iff.1 hi))

/-- `follow` from the root leads to corresponding places. -/
theorem follow_root_eq (h : tree.LaidOut tree' f) (names : List String) :
    tree'.follow tree'.root names = (tree.follow tree.root names).map f := by
  rw [h.root, h.follow_eq tree.reachable_root]

/-- The place of a reachable component is reachable. -/
theorem reachable (h : tree.LaidOut tree' f) (hc : tree.Reachable c) : tree'.Reachable (f c) := by
  obtain ⟨names, hf⟩ := hc
  exact ⟨names, by rw [h.follow_root_eq, hf]; rfl⟩

/-- Every reachable place is that of a reachable component. -/
theorem exists_of_reachable (h : tree.LaidOut tree' f) (hd : tree'.Reachable d) :
    ∃ c, tree.Reachable c ∧ f c = d := by
  obtain ⟨names, hf⟩ := hd
  rw [h.follow_root_eq] at hf
  obtain ⟨c, hc, he⟩ := Option.map_eq_some_iff.1 hf
  exact ⟨c, ⟨names, hc⟩, he⟩

end LaidOut

/-- The components that are reachable in a tree with consistent links have places in another arena,
and differ from what lies there in their handles only. -/
structure Mirrors (tree tree' : Tree κ) (f : Handle → Handle) : Prop where
  linked : tree.Linked
  root : tree'.root = f tree.root
  root_lt : tree'.root.index < tree'.size
  get : ∀ c, tree.Reachable c → tree'.get (f c) = (tree.get c).relabel f

namespace Mirrors

variable {tree tree' : Tree κ} {f : Handle → Handle} {c d : Handle} {name last : String}
  {kind : NameKind} {steps levels levels' : Nat}

/-! ## Ways -/

/-- The entries at the place of a component are its entries in the same order, with other handles.
-/
theorem entries_children (h : tree.Mirrors tree' f) (hc : tree.Reachable c) :
    (tree'.get (f c)).children.entries =
      (tree.get c).children.entries.map fun entry => (entry.1, entry.2.relabel f) := by
  rw [h.get c hc, Component.entries_children_relabel]

/-- A mirror is a layout in which no order changes. -/
theorem laidOut (h : tree.Mirrors tree' f) : tree.LaidOut tree' f where
  root := h.root
  get c hc := ⟨id, fun _ => .refl _, by rw [h.get c hc, Component.mapChildren_id]⟩

/-- `follow` leads to corresponding places. -/
theorem follow_eq (h : tree.Mirrors tree' f) (hc : tree.Reachable c) (names : List String) :
    tree'.follow (f c) names = (tree.follow c names).map f := h.laidOut.follow_eq hc names

/-- `follow` from the root leads to corresponding places. -/
theorem follow_root_eq (h : tree.Mirrors tree' f) (names : List String) :
    tree'.follow tree'.root names = (tree.follow tree.root names).map f :=
  h.laidOut.follow_root_eq names

theorem reachable (h : tree.Mirrors tree' f) (hc : tree.Reachable c) : tree'.Reachable (f c) :=
  h.laidOut.reachable hc

theorem exists_of_reachable (h : tree.Mirrors tree' f) (hd : tree'.Reachable d) :
    ∃ c, tree.Reachable c ∧ f c = d := h.laidOut.exists_of_reachable hd

/-! ## Links -/

/-- A mirror is `Linked`: its links are those of the tree, with other handles. -/
theorem linked' (h : tree.Mirrors tree' f) : tree'.Linked where
  root_lt := h.root_lt
  rootName := by
    rw [rootComponent, h.root, h.get _ tree.reachable_root]
    exact h.linked.rootName
  rootParent := by
    have hparent : (tree.get tree.root).parent = none := h.linked.rootParent
    rw [rootComponent, h.root, h.get _ tree.reachable_root, Component.relabel, hparent]
    rfl
  link d hd entry he := by
    obtain ⟨c, hc, rfl⟩ := h.exists_of_reachable hd
    -- the entries of the mirror are those of the tree, with other handles
    rw [h.entries_children hc] at he
    obtain ⟨own, ho, rfl⟩ := List.mem_map.1 he
    have hlink := h.linked.link c hc own ho
    have hchild := h.get _ (hc.child ho)
    exact {
      parent := congrArg f hlink.parent
      childParent := by
        show (tree'.get (f own.2.child)).parent = some (f c)
        rw [hchild, Component.relabel, hlink.childParent]
        rfl
      childName := by
        show (tree'.get (f own.2.child)).instanceName = some own.1
        rw [hchild]
        exact hlink.childName }

/-- Different components have different places in a mirror. -/
theorem injective (h : tree.Mirrors tree' f) (hc : tree.Reachable c) (hd : tree.Reachable d)
    (he : f c = f d) : c = d := by
  obtain ⟨names, hf⟩ := hc
  obtain ⟨names', hf'⟩ := hd
  -- there is only one way to the place
  have hway : tree'.follow tree'.root names = some (f c) := by rw [h.follow_root_eq, hf]; rfl
  have hway' : tree'.follow tree'.root names' = some (f c) := by rw [h.follow_root_eq, hf', he]; rfl
  rw [h.linked'.follow_inj hway hway', hf'] at hf
  exact (Option.some.inj hf).symm

/-- The arena of the mirror `Covers` the component as well. -/
theorem covers' (h : tree.Mirrors tree' f) (hc : tree.Reachable c) :
    tree.Covers tree'.size c := by
  intro names d hd
  exact h.linked'.covers (h.reachable hc) names (f d) (by rw [h.follow_eq hc, hd]; rfl)

/-- `instance?` finds corresponding instances. -/
theorem instance?_eq (h : tree.Mirrors tree' f) (hc : tree.Reachable c) :
    tree'.instance? (f c) = (tree.instance? c).map (Instance.relabel f) := by
  -- the root has no instance on either side, every other component is placed by a linked entry
  rcases h.linked.instance?_cases hc with ⟨rfl, hi⟩ | ⟨b, own, inst, hb, he, rfl, hlink, hi⟩
  · rw [hi, ← h.root, instance?_of_parent_eq_none h.linked'.rootParent]
    rfl
  · have he' : (own, inst.relabel f) ∈ (tree'.get (f b)).children.entries := by
      rw [h.entries_children hb]
      exact List.mem_map_of_mem he
    rw [hi]
    exact (h.linked'.link (f b) (h.reachable hb) _ he').instance?_eq he'

/-! ## Walks -/

/-- `preorder` goes through corresponding places, if both numbers of levels are large enough. -/
theorem preorder_eq (h : tree.Mirrors tree' f) (hc : tree.Reachable c)
    (hl : tree.Covers levels c) (hl' : tree.Covers levels' c) :
    tree'.preorder levels' (f c) = (tree.preorder levels c).map f := by
  refine Covers.induction (fun levels levels' c hc ih => ?_) hl hl' hc
  rw [preorder, preorder, flatMap_children, flatMap_children, h.entries_children hc, List.map_cons,
    List.map_flatMap]
  exact congrArg _ (List.flatMap_map_congr fun entry he => ih entry he)

/-- `descendants` of the root lie at corresponding places. -/
theorem descendants_eq (h : tree.Mirrors tree' f) :
    tree'.descendants tree'.root = (tree.descendants tree.root).map f := by
  have hroot := tree.reachable_root
  rw [Tree.descendants_eq, Tree.descendants_eq, h.root,
    h.preorder_eq hroot (h.linked.covers hroot) (h.covers' hroot)]

/-! ## Names -/

/-- `outerName?` of the instances that place two corresponding components is the same. -/
theorem bind_instance?_eq (h : tree.Mirrors tree' f) (hc : tree.Reachable c) (kind : NameKind)
    (name : String) :
    ((tree'.instance? (f c)).bind fun inst => inst.outerName? kind name) =
      (tree.instance? c).bind fun inst => inst.outerName? kind name := by
  rw [h.instance?_eq hc]
  cases tree.instance? c with
  | none => rfl
  | some inst => exact inst.outerName?_relabel f kind name

/-- A `Chain` of bindings has a mirror image, with the same names and as many steps. -/
theorem chain (h : tree.Mirrors tree' f) (hc : tree.Reachable c)
    (hchain : tree.Chain kind c name steps d last) :
    tree'.Chain kind (f c) name steps (f d) last := by
  -- induction along the chain, one link up on both sides
  induction hchain with
  | free hfree =>
    refine .free ?_
    rw [IsFree, h.bind_instance?_eq hc]
    exact hfree
  | bound hi ho _ ih =>
    have hi' := h.instance?_eq hc
    rw [hi] at hi'
    exact .bound hi' (by rw [Instance.outerName?_relabel]; exact ho)
      (ih (h.linked.reachable_parent hc hi))

/-- `path` spells the way to a component in the same way. -/
theorem path_eq (h : tree.Mirrors tree' f) (hc : tree.Reachable c) :
    tree'.path (f c) = tree.path c := by
  obtain ⟨names, hf⟩ := hc
  rw [h.linked.path_eq hf, h.linked'.path_eq (by rw [h.follow_root_eq, hf]; rfl)]

end Mirrors

end Tree
end HybridAutomata
