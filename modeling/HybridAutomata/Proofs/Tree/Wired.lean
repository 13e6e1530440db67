import HybridAutomata.Proofs.Component.Body
import HybridAutomata.Proofs.Tree.Blocks
/-!
# Wired trees

All links between the components of an arena agree with each other, also between those that cannot
be reached from the root: `Wired`. A change of an arena that concerns links either places components
at its end that are linked to each other only, or places a component without a parent in a network
that is not below it, and both keep a tree wired.

Seen from a component without a parent, a wired tree has consistent links (`Linked`), and every
component lies below one without a parent. So what holds of trees with consistent links holds below
every component of the arena.

* `Wired.append`, `Wired.link`   the changes of links
* `Wired.linked_withRoot`        the tree below a component without a parent
* `Wired.mem_descendants_iff`, `Wired.nodup_descendants`   a walk visits each component once
-/

namespace HybridAutomata

namespace Tree

variable {κ : Type}

/-! ## Links -/

/-- The links of the components of a tree. -/
def links (tree : Tree κ) (c : Handle) : Links :=
  (tree.get c).links

section

variable {tree : Tree κ} {c parent child : Handle} {name : String} {f : Component κ → Component κ}

/-- `links` of the arena are those of its components, in order. -/
theorem links_eq_linksFrom (tree : Tree κ) : tree.links = linksFrom 0 tree.components.toList := by
  -- by induction on the list, which starts at any place
  have key (components : List (Component κ)) (start i : Nat) :
      (components.getD i default).links = linksFrom start components ⟨start + i⟩ := by
    induction components generalizing start i with
    | nil => rfl
    | cons component rest ih =>
      cases i with
      | zero => exact (if_pos rfl).symm
      | succ i =>
        have hne : start + (i + 1) ≠ start := by omega
        rw [List.getD_cons_succ, linksFrom, if_neg hne, ih (start + 1) i, Nat.add_right_comm,
          Nat.add_assoc]
  funext c
  have hc := key tree.components.toList 0 c.index
  rw [Nat.zero_add] at hc
  rw [links, get, ← hc, Array.getD_eq_getD_getElem?, List.getD_eq_getElem?_getD,
    Array.getElem?_toList]

/-- `links` of a handle outside the arena are empty. -/
theorem links_eq_none (h : tree.size ≤ c.index) : tree.links c = {} := by
  rw [links, get_eq_default h]
  rfl

theorem index_lt_of_links (h : tree.links c ≠ {}) : c.index < tree.size :=
  Nat.lt_of_not_le fun hle => h (links_eq_none hle)

/-- An entry of a network is a port among its `links`. -/
theorem mem_ports_links {inst : Instance} (h : (name, inst) ∈ (tree.get c).children.entries) :
    (name, inst.parent, inst.child) ∈ (tree.links c).ports :=
  List.mem_map.2 ⟨(name, inst), h, rfl⟩

/-- A component without children that is `unlinked` has no links. -/
theorem links_unlinked {component : Component κ} (h : component.children.entries = []) :
    component.unlinked.links = {} := by
  have hchildren : component.unlinked.children = component.children := rfl
  rw [Component.links, hchildren, h]
  rfl

/-- `modify` by a function that keeps the links of every component keeps the `links` of the tree. -/
theorem links_modify (hf : ∀ component, (f component).links = component.links) :
    (tree.modify c f).links = tree.links := by
  funext d
  by_cases hd : d = c
  · subst hd
    by_cases hlt : d.index < tree.size
    · rw [links, get_modify_self hlt, hf, links]
    · rw [links_eq_none (Nat.le_of_not_lt hlt),
        links_eq_none (by rw [size_modify]; exact Nat.le_of_not_lt hlt)]
  · rw [links, get_modify_of_ne hd, links]

/-- `checkPlace` passes for a network that has no instance of the name. -/
theorem checkPlace_eq_ok_iff : tree.checkPlace parent name = .ok () ↔
    (tree.get parent).isNetwork ∧ name ∉ (tree.get parent).children.keys := by
  rw [checkPlace, ← NameMap.contains_iff, Component.children]
  cases hb : (tree.get parent).body with
  | base automaton => simp [Component.network?, Component.isNetwork, Component.isBase, hb]
  | network children => simp [Component.network?, Component.isNetwork, Component.isBase, hb]

/-- `link` gives the child its parent and its name. -/
theorem get_link_child (hchild : child.index < tree.size) (hne : child ≠ parent) :
    (tree.link parent name child).get child =
      { tree.get child with parent := some parent, instanceName := some name } := by
  rw [link, get_modify_of_ne hne, get_modify_self hchild]

/-- `link` gives the network an entry for the child. -/
theorem get_link_parent (hnetwork : (tree.get parent).isNetwork) (hne : child ≠ parent) :
    (tree.link parent name child).get parent = { tree.get parent with
      body := .network ((tree.get parent).children.insert name { parent, child }) } := by
  have hparent : parent.index < tree.size := index_lt_of_isNetwork hnetwork
  rw [link, get_modify_self (by rwa [size_modify]), get_modify_of_ne (Ne.symm hne),
    Component.mapChildren_of_isNetwork hnetwork]

/-- `link` keeps every other component. -/
theorem get_link_of_ne (hp : c ≠ parent) (hc : c ≠ child) :
    (tree.link parent name child).get c = tree.get c := by
  rw [link, get_modify_of_ne hp, get_modify_of_ne hc]

@[simp] theorem root_link : (tree.link parent name child).root = tree.root := rfl

@[simp] theorem size_link : (tree.link parent name child).size = tree.size := by
  rw [link, size_modify, size_modify]

/-- `link` makes a component a child, as `IsAttached` says. -/
theorem isAttached_link (hplace : tree.checkPlace parent name = .ok ())
    (hchild : child.index < tree.size) (hne : child ≠ parent) :
    Links.IsAttached tree.links (tree.link parent name child).links parent name child := by
  obtain ⟨hnetwork, hnew⟩ := checkPlace_eq_ok_iff.1 hplace
  -- the child has a parent and a name from then on, and the network one entry more
  have hgetChild : (tree.link parent name child).get child = _ := get_link_child hchild hne
  have hgetParent : (tree.link parent name child).get parent = _ := get_link_parent hnetwork hne
  constructor
  case child_parent => rw [links, hgetChild]; rfl
  case child_name => rw [links, hgetChild]; rfl
  case child_ports => rw [links, hgetChild]; rfl
  case parent_parent => rw [links, hgetParent]; rfl
  case parent_name => rw [links, hgetParent]; rfl
  case parent_ports =>
    rw [links, hgetParent]
    refine (congrArg (List.map _) (NameMap.entries_insert_of_not_mem hnew _)).trans ?_
    rw [List.map_append]
    rfl
  case others =>
    intro c hc hp
    rw [links, get_link_of_ne hp hc, links]

end

/-! ## Wired trees -/

/-- A tree whose root is no instance and whose links agree with each other. -/
structure Wired (tree : Tree κ) : Prop where
  root_lt : tree.root.index < tree.size
  root_parent : (tree.links tree.root).parent = none
  links : Links.Wired tree.links

/-- A tree of one component without children is `Wired`. -/
theorem wired_ofRoot {root : Component κ} (h : root.children.entries = []) :
    (ofRoot root).Wired := by
  have hlinks (c : Handle) : (ofRoot root).links c = {} := by
    rw [links_eq_linksFrom]
    change (if c.index = 0 then root.unlinked.links else {}) = {}
    rw [links_unlinked h, ite_self]
  exact ⟨Nat.zero_lt_one, congrArg Links.parent (hlinks _), Links.wired_of_none hlinks⟩

namespace Wired

variable {tree : Tree κ} {c d top parent copy : Handle} {name : String} {names : List String}

/-! ### What the operations keep -/

/-- A change that keeps the `links` keeps a tree `Wired`. -/
theorem of_links_eq (h : tree.Wired) {changed : Tree κ} (hsize : tree.size ≤ changed.size)
    (hroot : changed.root = tree.root) (hlinks : changed.links = tree.links) : changed.Wired where
  root_lt := hroot ▸ Nat.lt_of_lt_of_le h.root_lt hsize
  root_parent := by
    rw [hlinks, hroot]
    exact h.root_parent
  links := hlinks ▸ h.links

/-- `modify` keeps a tree `Wired` if the function keeps the links of components. -/
theorem modify (h : tree.Wired) {f : Component κ → Component κ}
    (hf : ∀ component, (f component).links = component.links) : (tree.modify c f).Wired :=
  h.of_links_eq (Nat.le_of_eq (size_modify ..).symm) (root_modify ..) (links_modify hf)

/-- `push` of a component without links keeps a tree `Wired`. -/
theorem push (h : tree.Wired) {component : Component κ} (hlinks : component.links = {}) :
    (tree.push component).Wired := by
  refine h.of_links_eq (by rw [size_push]; exact Nat.le_succ _) (root_push ..) (funext fun c => ?_)
  -- the places before the end, the end itself, and those behind it
  rcases Nat.lt_trichotomy c.index tree.size with hlt | heq | hgt
  · rw [Tree.links, get_push_of_lt hlt, Tree.links]
  · rw [links_eq_none (Nat.le_of_eq heq.symm), Tree.links,
      show c = ⟨tree.size⟩ from congrArg Handle.mk heq, get_push_self, hlinks]
  · rw [links_eq_none (Nat.le_of_lt hgt), links_eq_none (by rw [size_push]; exact hgt)]

/-- `append` of components that are linked to each other only keeps a tree `Wired`. -/
theorem append (h : tree.Wired) {components : List (Component κ)}
    (hblock : Block tree.size components) : (tree.append components).Wired := by
  have hlinks : (tree.append components).links =
      linksFrom 0 (tree.components.toList ++ components) := by
    rw [links_eq_linksFrom, toList_append]
  have hsize : 0 + tree.components.toList.length = tree.size := by
    rw [Nat.zero_add, Array.length_toList]
    rfl
  have hold := links_eq_linksFrom tree
  constructor
  case root_lt =>
    rw [size_append]
    exact Nat.lt_add_right _ h.root_lt
  case root_parent =>
    rw [hlinks, root_append]
    rcases linksFrom_append 0 tree.components.toList components tree.root with ⟨he, -⟩ | ⟨he, -⟩
    · rw [he, ← hold]
      exact h.root_parent
    · -- the root lies in front of the new components
      rw [he, linksFrom_of_lt (by rw [hsize]; exact h.root_lt)]
  case links =>
    rw [hlinks]
    -- the old and the new components have links of their own, side by side
    apply wired_append
    · rw [← hold]
      exact h.links
    · rw [hsize]
      exact hblock.wired

/-- `link` keeps a tree `Wired` if it places a component without a parent in a network that is not
below it. -/
theorem link (h : tree.Wired) (hplace : tree.checkPlace parent name = .ok ())
    (hcopy : copy.index < tree.size) (hfree : (tree.get copy).parent = none)
    (hroot : copy ≠ tree.root) (hbelow : ¬ Links.IsAbove tree.links copy parent) :
    (tree.link parent name copy).Wired := by
  -- a component is at or above itself, so it is not placed in itself
  have hne : copy ≠ parent := fun he => hbelow (he ▸ .refl)
  have hattached := isAttached_link hplace hcopy hne
  constructor
  case root_lt =>
    rw [size_link]
    exact h.root_lt
  case root_parent => exact (hattached.parent_of_ne (Ne.symm hroot)).trans h.root_parent
  case links => exact h.links.attach hattached hfree hbelow

/-- A new component without children can be placed in a network of a `Wired` tree. -/
theorem addInstance (h : tree.Wired) {child : Component κ} (hchild : child.children.entries = [])
    (hplace : tree.checkPlace parent name = .ok ()) :
    ((tree.push child).link parent name ⟨tree.size⟩).Wired := by
  -- the links that the new component brings along are overwritten
  have heq : (tree.push child).link parent name ⟨tree.size⟩ =
      (tree.push child.unlinked).link parent name ⟨tree.size⟩ := by
    rw [Tree.link, Tree.link, modify_push, modify_push]
    rfl
  have hlinks : child.unlinked.links = {} := links_unlinked hchild
  have hparent : parent.index < tree.size := index_lt_of_isNetwork (checkPlace_eq_ok_iff.1 hplace).1
  have hpushed := h.push hlinks
  have hlast : (tree.push child.unlinked).links ⟨tree.size⟩ = {} := by
    rw [Tree.links, get_push_self, hlinks]
  rw [heq]
  apply hpushed.link
  · rw [checkPlace, get_push_of_lt hparent]
    exact hplace
  · rw [size_push]
    exact Nat.lt_succ_self _
  · exact congrArg Links.parent hlast
  · rintro he
    have hlt := h.root_lt
    rw [root_push] at he
    rw [← he] at hlt
    exact Nat.lt_irrefl _ hlt
  · -- nothing is below the new component
    intro habove
    have he := hpushed.links.eq_of_isAbove (congrArg Links.ports hlast) habove
    rw [he] at hparent
    exact Nat.lt_irrefl _ hparent

end Wired

/-! ## Ways down in a wired tree -/

/-- The tree with another root. -/
def withRoot (tree : Tree κ) (top : Handle) : Tree κ :=
  { tree with root := top }

section

variable {tree : Tree κ} {c d top : Handle}

/-- `follow` does not depend on the root. -/
theorem follow_withRoot (names : List String) :
    (tree.withRoot top).follow c names = tree.follow c names := by
  have hchildren (d : Handle) : ((tree.withRoot top).get d).children = (tree.get d).children := rfl
  exact follow_congr hchildren c names

/-- `preorder` does not depend on the root. -/
theorem preorder_withRoot (levels : Nat) :
    (tree.withRoot top).preorder levels c = tree.preorder levels c := by
  have hchildren (d : Handle) : (tree.withRoot top).children d = tree.children d := rfl
  exact preorder_congr hchildren levels c

end

namespace Wired

variable {tree : Tree κ} {c d top parent : Handle} {name : String} {names : List String}
  {inst : Instance}

/-- Every entry of a `Wired` tree is `LinkOk`. -/
theorem linkOk (h : tree.Wired) (he : (name, inst) ∈ (tree.get c).children.entries) :
    tree.LinkOk c name inst := by
  obtain ⟨hparent, hchildParent, hchildName⟩ := (h.links c).port _ _ _ (mem_ports_links he)
  exact ⟨hparent, hchildParent, hchildName⟩

/-- A component with a parent is a child there, under its own name. -/
theorem exists_entry (h : tree.Wired) (hparent : (tree.get c).parent = some parent) :
    ∃ name inst, (tree.get c).instanceName = some name ∧
      (name, inst) ∈ (tree.get parent).children.entries ∧ inst.child = c := by
  obtain ⟨name, hname, hport⟩ := (h.links c).placed parent hparent
  obtain ⟨entry, he, heq⟩ := List.mem_map.1 hport
  cases heq
  exact ⟨entry.1, entry.2, hname, he, rfl⟩

/-- A component with a parent lies in the arena, and so does the parent. -/
theorem index_lt_of_parent (h : tree.Wired) (hparent : (tree.get c).parent = some parent) :
    c.index < tree.size ∧ parent.index < tree.size := by
  obtain ⟨name, -, hport⟩ := (h.links c).placed parent hparent
  exact ⟨index_lt_of_links (Links.ne_none_of_parent hparent),
    index_lt_of_links (Links.ne_none_of_mem_ports hport)⟩

/-- `withRoot` at a component without a parent is `Linked`. -/
theorem linked_withRoot (h : tree.Wired) (hlt : top.index < tree.size)
    (htop : (tree.get top).parent = none) : (tree.withRoot top).Linked where
  root_lt := hlt
  rootName := (h.links top).unnamed htop
  rootParent := htop
  link c _ entry he := by
    have hok : tree.LinkOk c entry.1 entry.2 := h.linkOk he
    exact ⟨hok.parent, hok.childParent, hok.childName⟩

/-- Every component of a `Wired` tree lies below one without a parent. -/
theorem exists_top (h : tree.Wired) (hc : c.index < tree.size) :
    ∃ top names, top.index < tree.size ∧ (tree.get top).parent = none ∧
      tree.follow top names = some c := by
  -- go up until there is no parent
  induction (h.links c).climbs with
  | intro c _ ih =>
    cases hparent : (tree.get c).parent with
    | none => exact ⟨c, [], hc, hparent, rfl⟩
    | some parent =>
      obtain ⟨top, names, hlt, htop, hf⟩ := ih parent hparent (h.index_lt_of_parent hparent).2
      obtain ⟨name, inst, -, he, hi⟩ := h.exists_entry hparent
      exact ⟨top, names ++ [name], hlt, htop, follow_concat_iff.2 ⟨parent, inst, hf, he, hi⟩⟩

/-- No way down is longer than the arena of a `Wired` tree. -/
theorem length_lt (h : tree.Wired) (hc : c.index < tree.size)
    (hf : tree.follow c names = some d) : names.length < tree.size := by
  -- the way is the end of one from a component without a parent
  obtain ⟨top, front, hlt, htop, hfront⟩ := h.exists_top hc
  have hway : (tree.withRoot top).follow top (front ++ names) = some d := by
    rw [follow_withRoot, follow_append, hfront]
    exact hf
  have hlength : (front ++ names).length < tree.size :=
    (h.linked_withRoot hlt htop).length_lt hway
  rw [List.length_append] at hlength
  omega

/-- `descendants` of a component are what is at or below it. -/
theorem mem_descendants_iff (h : tree.Wired) (hc : c.index < tree.size) :
    d ∈ tree.descendants c ↔ ∃ names, tree.follow c names = some d := by
  rw [descendants_eq, mem_preorder_iff]
  constructor
  · rintro ⟨names, -, hf⟩
    exact ⟨names, hf⟩
  · rintro ⟨names, hf⟩
    exact ⟨names, h.length_lt hc hf, hf⟩

/-- `descendants` of a component have no repetitions. -/
theorem nodup_descendants (h : tree.Wired) (hc : c.index < tree.size) :
    (tree.descendants c).Nodup := by
  obtain ⟨top, names, hlt, htop, hf⟩ := h.exists_top hc
  have hway : (tree.withRoot top).follow top names = some c := by rwa [follow_withRoot]
  have hwalk : ((tree.withRoot top).preorder tree.size c).Nodup :=
    (h.linked_withRoot hlt htop).nodup_preorder hway
  rwa [preorder_withRoot, ← descendants_eq] at hwalk

/-- `follow` leads down to whatever a component `IsAbove`. -/
theorem exists_follow_of_isAbove (h : tree.Wired) (habove : Links.IsAbove tree.links c d) :
    ∃ names, tree.follow c names = some d := by
  -- induction on the way up, whose last step becomes the last name of the way down
  induction habove with
  | refl => exact ⟨[], rfl⟩
  | tail _ hparent ih =>
    obtain ⟨names, hf⟩ := ih
    obtain ⟨name, inst, -, he, hi⟩ := h.exists_entry hparent
    exact ⟨names ++ [name], follow_concat_iff.2 ⟨_, inst, hf, he, hi⟩⟩

/-- `expectInstance` finds the instance of a component, if it has a parent. -/
theorem expectInstance_eq (h : tree.Wired) (c : Handle) :
    tree.expectInstance c = .ok (tree.instance? c) := by
  cases hparent : (tree.get c).parent with
  | none => rw [expectInstance, instance?_of_parent_eq_none hparent, hparent]
  | some parent =>
    obtain ⟨name, inst, -, he, rfl⟩ := h.exists_entry hparent
    simp only [expectInstance, hparent, (h.linkOk he).instance?_eq he]

end Wired

end Tree

end HybridAutomata
