import HybridAutomata.Proofs.ForStd.Except
import HybridAutomata.Proofs.ForStd.List
import HybridAutomata.Proofs.NameMap.Lookup
import HybridAutomata.Proofs.Text.Dotted
import HybridAutomata.Proofs.Tree.Arena
import HybridAutomata.Tree.Resolve
import HybridAutomata.Tree.Walk
/-!
# Consistent links

Instance names lead from the root down to a component: `follow`. The links of a tree are consistent
if every component that can be reached this way names the network around it and its own instance
name: `Linked`. Nothing is said about what the components declare.

Then the way down and the links back up agree. So every reachable component has exactly one way to
it, the components on a way are all different, and no way is longer than the arena.

* `follow_concat_iff`     the last step of a way
* `Straight.covers`       ways that do not lead back are not longer than the arena
* `Linked.follow_inj`     there is only one way to a component
* `Linked.length_lt`      no way is longer than the arena
* `Linked.path_eq`        the path of a component is the way to it
* `Linked.mem_descendants_iff`, `Linked.nodup_descendants`   a walk visits each component once
* `Linked.instance?_eq`   the links of a component lead back to its instance
-/

namespace HybridAutomata.Tree

variable {κ : Type}

/-! ## Ways down -/

/-- The component to which instance names lead, from `c` on. -/
def follow (tree : Tree κ) (c : Handle) : List String → Option Handle
  | [] => some c
  | name :: rest => (tree.childNamed? c name).bind fun inst => tree.follow inst.child rest

/-- Instance names lead from the root to the component. -/
def Reachable (tree : Tree κ) (c : Handle) : Prop :=
  ∃ names, tree.follow tree.root names = some c

@[simp] theorem follow_nil (tree : Tree κ) (c : Handle) : tree.follow c [] = some c := rfl

/-- The first step of a way goes through an instance of the component. -/
theorem follow_cons_iff {tree : Tree κ} {c d : Handle} {name : String} {rest : List String} :
    tree.follow c (name :: rest) = some d ↔
      ∃ inst, (name, inst) ∈ (tree.get c).children.entries ∧
        tree.follow inst.child rest = some d := by
  rw [follow, Option.bind_eq_some_iff]
  simp only [childNamed?, NameMap.get?_eq_some_iff]

/-- `follow` along two lists of names, one after the other. -/
theorem follow_append (tree : Tree κ) (c : Handle) (left right : List String) :
    tree.follow c (left ++ right) = (tree.follow c left).bind fun d => tree.follow d right := by
  -- induction on the first list, along which both sides go down
  induction left generalizing c with
  | nil => rfl
  | cons name rest ih =>
    rw [List.cons_append, follow, follow, Option.bind_assoc]
    exact congrArg _ (funext fun inst => ih inst.child)

/-- The last step of a way goes through an instance of the component that is reached before it. -/
theorem follow_concat_iff {tree : Tree κ} {c d : Handle} {names : List String} {name : String} :
    tree.follow c (names ++ [name]) = some d ↔
      ∃ b inst, tree.follow c names = some b ∧ (name, inst) ∈ (tree.get b).children.entries ∧
        inst.child = d := by
  rw [follow_append, Option.bind_eq_some_iff]
  simp only [follow_cons_iff, follow_nil, Option.some.injEq]
  -- one way with one last step, on both sides
  constructor
  · rintro ⟨b, hb, inst, hi, he⟩
    exact ⟨b, inst, hb, hi, he⟩
  · rintro ⟨b, inst, hb, hi, he⟩
    exact ⟨b, hb, inst, hi, he⟩

/-- `follow` depends on the children of components only. -/
theorem follow_congr {tree tree' : Tree κ} (h : ∀ d, (tree'.get d).children = (tree.get d).children)
    (c : Handle) (names : List String) : tree'.follow c names = tree.follow c names := by
  induction names generalizing c with
  | nil => rfl
  | cons name rest ih =>
    rw [follow, follow, childNamed?, childNamed?, h]
    exact congrArg _ (funext fun inst => ih inst.child)

theorem reachable_root (tree : Tree κ) : tree.Reachable tree.root := ⟨[], rfl⟩

/-- The children of a reachable component are reachable. -/
theorem Reachable.child {tree : Tree κ} {c : Handle} (h : tree.Reachable c)
    {entry : String × Instance} (he : entry ∈ (tree.get c).children.entries) :
    tree.Reachable entry.2.child := by
  obtain ⟨names, hf⟩ := h
  exact ⟨names ++ [entry.1], follow_concat_iff.2 ⟨c, entry.2, hf, he, rfl⟩⟩

/-- The members of `children` are the components behind the entries of the network. -/
theorem mem_children_iff {tree : Tree κ} {c child : Handle} :
    child ∈ tree.children c ↔ ∃ entry ∈ (tree.get c).children.entries, entry.2.child = child := by
  simp [children, NameMap.values]

/-- What is collected from `children` is collected from the entries of the network. -/
theorem flatMap_children {α : Type} (tree : Tree κ) (c : Handle) (f : Handle → List α) :
    (tree.children c).flatMap f =
      (tree.get c).children.entries.flatMap fun entry => f entry.2.child := by
  simp [children, NameMap.values, List.flatMap_map]

/-- `preorder` depends on the children of components only. -/
theorem preorder_congr {tree tree' : Tree κ} (h : ∀ d, tree'.children d = tree.children d)
    (levels : Nat) (c : Handle) : tree'.preorder levels c = tree.preorder levels c := by
  induction levels generalizing c with
  | zero => rfl
  | succ levels ih =>
    rw [preorder, preorder, h]
    exact congrArg _ (congrArg (fun below => (tree.children c).flatMap below) (funext ih))

/-- `preorder` with a number of levels meets what can be reached in fewer steps. -/
theorem mem_preorder_iff {tree : Tree κ} {levels : Nat} {c d : Handle} :
    d ∈ tree.preorder levels c ↔ ∃ names, names.length < levels ∧ tree.follow c names = some d := by
  induction levels generalizing c with
  | zero => simp [preorder]
  | succ levels ih =>
    simp only [preorder, List.mem_cons, List.mem_flatMap, mem_children_iff, ih]
    -- the walk goes down one level for every name of the way
    constructor
    · rintro (rfl | ⟨_, ⟨entry, he, rfl⟩, names, hl, hf⟩)
      · exact ⟨[], Nat.succ_pos _, rfl⟩
      · exact ⟨entry.1 :: names, Nat.succ_lt_succ hl, follow_cons_iff.2 ⟨entry.2, he, hf⟩⟩
    · rintro ⟨names, hl, hf⟩
      cases names with
      | nil => exact .inl (Option.some.inj hf).symm
      | cons name rest =>
        obtain ⟨inst, he, hf⟩ := follow_cons_iff.1 hf
        exact .inr ⟨inst.child, ⟨_, he, rfl⟩, rest, Nat.lt_of_succ_lt_succ hl, hf⟩

/-- No way down from a component is as long as the number of levels. -/
def Covers (tree : Tree κ) (levels : Nat) (c : Handle) : Prop :=
  ∀ names d, tree.follow c names = some d → names.length < levels

theorem not_covers_zero (tree : Tree κ) (c : Handle) : ¬ tree.Covers 0 c :=
  fun h => Nat.not_lt_zero _ (h [] c rfl)

/-- A child is covered by one level less. -/
theorem Covers.child {tree : Tree κ} {levels : Nat} {c : Handle} (h : tree.Covers (levels + 1) c)
    {entry : String × Instance} (he : entry ∈ (tree.get c).children.entries) :
    tree.Covers levels entry.2.child := fun names d hf =>
  Nat.lt_of_succ_lt_succ (h (entry.1 :: names) d (follow_cons_iff.2 ⟨entry.2, he, hf⟩))

/-- Two walks down from a reachable component, each with enough levels, go in step: what holds of a
component if it holds of its children holds of the component. -/
@[elab_as_elim]
theorem Covers.induction {tree : Tree κ} {motive : Nat → Nat → Handle → Prop}
    (step : ∀ levels levels' c, tree.Reachable c →
      (∀ entry ∈ (tree.get c).children.entries, motive levels levels' entry.2.child) →
      motive (levels + 1) (levels' + 1) c)
    {levels levels' : Nat} {c : Handle} (hl : tree.Covers levels c) (hl' : tree.Covers levels' c)
    (hc : tree.Reachable c) : motive levels levels' c := by
  -- induction on the first number of levels; the second one goes along
  induction levels generalizing levels' c with
  | zero => exact absurd hl (not_covers_zero tree c)
  | succ levels ih =>
    cases levels' with
    | zero => exact absurd hl' (not_covers_zero tree c)
    | succ levels' =>
      exact step levels levels' c hc fun entry he =>
        ih (hl.child he) (hl'.child he) (hc.child he)

/-- The components that a way goes through before its end, the first one first. -/
def passed (tree : Tree κ) (c : Handle) : List String → List Handle
  | [] => []
  | name :: rest =>
    match tree.childNamed? c name with
    | some inst => c :: tree.passed inst.child rest
    | none => []

/-- A component that a way has `passed` is where some front part of the way ends. -/
theorem exists_of_mem_passed {tree : Tree κ} {c d : Handle} {names : List String}
    (h : d ∈ tree.passed c names) :
    ∃ front name back, names = front ++ name :: back ∧ tree.follow c front = some d := by
  -- induction on the names; the component may be the first one
  induction names generalizing c with
  | nil => cases h
  | cons name rest ih =>
    rw [passed] at h
    split at h
    · next inst hi =>
      rcases List.mem_cons.1 h with rfl | h
      · exact ⟨[], name, rest, rfl, rfl⟩
      · obtain ⟨front, next, back, rfl, hf⟩ := ih h
        refine ⟨name :: front, next, back, rfl, ?_⟩
        rw [follow, hi]
        exact hf
    · cases h

/-- A way has `passed` one component before each of its names: a last step adds the component that
it starts from. -/
theorem passed_concat {tree : Tree κ} {c b : Handle} {names : List String} {name : String}
    {inst : Instance} (hf : tree.follow c names = some b)
    (he : (name, inst) ∈ (tree.get b).children.entries) :
    tree.passed c (names ++ [name]) = tree.passed c names ++ [b] := by
  -- induction on the names before the last one
  induction names generalizing c with
  | nil =>
    obtain rfl := Option.some.inj hf
    have hi : tree.childNamed? c name = some inst := NameMap.get?_eq_some_iff.2 he
    simp only [List.nil_append, passed, hi]
  | cons first rest ih =>
    rw [follow] at hf
    obtain ⟨inst', hi, hf⟩ := Option.bind_eq_some_iff.1 hf
    simp only [List.cons_append, passed, hi, ih hf]

/-- A way has `passed` as many components as it has names. -/
theorem length_passed {tree : Tree κ} {c d : Handle} {names : List String}
    (hf : tree.follow c names = some d) : (tree.passed c names).length = names.length := by
  induction names generalizing c with
  | nil => rfl
  | cons name rest ih =>
    rw [follow] at hf
    obtain ⟨inst, hi, hf⟩ := Option.bind_eq_some_iff.1 hf
    rw [passed, hi, List.length_cons, List.length_cons, ih hf]

/-- `path` is empty for a component without a name and a parent. -/
theorem path_eq_empty {tree : Tree κ} {c : Handle} (hname : (tree.get c).instanceName = none)
    (hparent : (tree.get c).parent = none) : tree.path c = "" := by
  rw [path]
  cases tree.size with
  | zero => rfl
  | succ levels =>
    rw [pathWithin, hname, hparent]
    rfl

/-! ## Ways that lead on -/

/-- A sum over different components of the arena is at most the sum over the whole arena. -/
theorem sum_map_le (tree : Tree κ) {f : Handle → Nat} {handles : List Handle}
    (hn : handles.Nodup) (hlt : ∀ c ∈ handles, c.index < tree.size) :
    (handles.map f).sum ≤ ((List.range tree.size).map fun i => f ⟨i⟩).sum := by
  -- different handles have different places
  have hplaces : (handles.map Handle.index).Nodup :=
    List.pairwise_map.2 (hn.imp fun hne he => hne (congrArg Handle.mk he))
  have hsum := List.sum_map_le_sum_range (f := fun i => f ⟨i⟩) hplaces fun i hi => by
    obtain ⟨c, hc, rfl⟩ := List.mem_map.1 hi
    exact hlt c hc
  rwa [List.map_map] at hsum

/-- No way leads from a component back to it. -/
def NoWayBack (tree : Tree κ) (c : Handle) : Prop :=
  ∀ names, tree.follow c names = some c → names = []

/-- No way leads from a component, or from one below it, back to where the way started. -/
def Straight (tree : Tree κ) (c : Handle) : Prop :=
  ∀ names d, tree.follow c names = some d → tree.NoWayBack d

namespace Straight

variable {tree : Tree κ} {c d : Handle} {names : List String}

/-- Below a `Straight` component a way goes through different components, and comes back to none of
them. -/
theorem nodup_passed (h : tree.Straight c) (hf : tree.follow c names = some d) :
    (tree.passed c names ++ [d]).Nodup := by
  induction names generalizing c with
  | nil => simp [passed]
  | cons name rest ih =>
    rw [follow] at hf
    obtain ⟨inst, hi, hf⟩ := Option.bind_eq_some_iff.1 hf
    have hway {names : List String} {b : Handle} (hb : tree.follow inst.child names = some b) :
        tree.follow c (name :: names) = some b := by
      rw [follow, hi]
      exact hb
    rw [passed, hi]
    refine List.nodup_cons.2 ⟨fun hm => ?_, ih (fun names b hb => h (name :: names) b (hway hb)) hf⟩
    -- the way would lead back to the component
    obtain ⟨back, hback⟩ : ∃ back, tree.follow inst.child back = some c := by
      rcases List.mem_append.1 hm with hm | hm
      · obtain ⟨back, _, _, -, hback⟩ := exists_of_mem_passed hm
        exact ⟨back, hback⟩
      · exact ⟨rest, List.mem_singleton.1 hm ▸ hf⟩
    exact List.cons_ne_nil name back (h [] c rfl (name :: back) (hway hback))

/-- The ways below a `Straight` component stay in the arena and go through different components, so
none of them is longer than the arena. -/
theorem covers (h : tree.Straight c)
    (hlt : ∀ names b, tree.follow c names = some b → b.index < tree.size) :
    tree.Covers tree.size c := by
  intro names d hf
  -- a way of `n` names goes through `n` components and ends at one more
  have hsum := sum_map_le tree (f := fun _ => 1) (h.nodup_passed hf) fun b hb => by
    rcases List.mem_append.1 hb with hb | hb
    · obtain ⟨front, _, _, -, hfront⟩ := exists_of_mem_passed hb
      exact hlt front b hfront
    · exact hlt names b (List.mem_singleton.1 hb ▸ hf)
  simp only [List.map_const', List.sum_replicate_nat, List.length_append, length_passed hf,
    List.length_singleton, List.length_range] at hsum
  omega

end Straight

/-! ## Links -/

/-- An instance and its child name the network around them, and the child bears the name of the
instance. -/
structure LinkOk (tree : Tree κ) (owner : Handle) (name : String) (inst : Instance) : Prop where
  parent : inst.parent = owner
  childParent : (tree.get inst.child).parent = some owner
  childName : (tree.get inst.child).instanceName = some name

/-- The links of the child lead back to its instance, so `instance?` finds it. -/
theorem LinkOk.instance?_eq {tree : Tree κ} {owner : Handle} {name : String} {inst : Instance}
    (h : tree.LinkOk owner name inst) (he : (name, inst) ∈ (tree.get owner).children.entries) :
    tree.instance? inst.child = some inst := by
  rw [instance?, h.childParent, h.childName]
  exact NameMap.get?_eq_some_iff.2 he

/-- One step of a look-up from the child of a linked instance: a bound name leads to a name of the
network. -/
theorem LinkOk.outer?_eq {tree : Tree κ} {owner : Handle} {name : String} {inst : Instance}
    (h : tree.LinkOk owner name inst) (he : (name, inst) ∈ (tree.get owner).children.entries)
    (kind : NameKind) (inner : String) :
    tree.outer? kind inst.child inner =
      .ok ((inst.outerName? kind inner).map fun outer => (owner, outer)) := by
  rw [outer?, expectInstance, h.childParent]
  simp only [h.instance?_eq he, Except.ok_bind, h.parent, Except.pure_eq_ok]

/-- `outer?` finds no binding for a component without a parent. -/
theorem outer?_of_parent_eq_none {tree : Tree κ} {c : Handle} (h : (tree.get c).parent = none)
    (kind : NameKind) (name : String) : tree.outer? kind c name = .ok none := by
  rw [outer?, expectInstance, h]
  rfl

/-- No instance places a component without a parent. -/
theorem instance?_of_parent_eq_none {tree : Tree κ} {c : Handle}
    (h : (tree.get c).parent = none) : tree.instance? c = none := by
  rw [instance?, h]

/-- A tree with a root that is no instance, whose reachable components are linked to the networks
around them. -/
structure Linked (tree : Tree κ) : Prop where
  root_lt : tree.root.index < tree.size
  rootName : tree.rootComponent.instanceName = none
  rootParent : tree.rootComponent.parent = none
  link : ∀ c, tree.Reachable c → ∀ entry ∈ (tree.get c).children.entries,
    tree.LinkOk c entry.1 entry.2

namespace Linked

variable {tree : Tree κ} {c d : Handle} {names names' : List String} {name : String}

/-- The last step of a way from the root, with the links that lead back along it. -/
theorem exists_link (h : tree.Linked) (hf : tree.follow tree.root (names ++ [name]) = some d) :
    ∃ b inst, tree.follow tree.root names = some b ∧
      (name, inst) ∈ (tree.get b).children.entries ∧ inst.child = d ∧ tree.LinkOk b name inst := by
  obtain ⟨b, inst, hb, he, hd⟩ := follow_concat_iff.1 hf
  exact ⟨b, inst, hb, he, hd, h.link b ⟨names, hb⟩ _ he⟩

/-- A component without a parent is reached by the empty way only, so it is the root. -/
theorem parent_eq_none_iff (h : tree.Linked) (hf : tree.follow tree.root names = some c) :
    (tree.get c).parent = none ↔ names = [] := by
  rcases List.eq_nil_or_concat names with rfl | ⟨front, last, he⟩
  · obtain rfl := Option.some.inj hf
    exact ⟨fun _ => rfl, fun _ => h.rootParent⟩
  · rw [List.concat_eq_append] at he
    subst he
    obtain ⟨b, inst, -, -, rfl, hok⟩ := h.exists_link hf
    rw [hok.childParent]
    simp

/-- Every `Reachable` component but the root has an instance name. -/
theorem isSome_instanceName (h : tree.Linked) (hf : tree.follow tree.root names = some c)
    (hne : names ≠ []) : (tree.get c).instanceName.isSome = true := by
  rcases List.eq_nil_or_concat names with rfl | ⟨front, last, he⟩
  · exact absurd rfl hne
  · rw [List.concat_eq_append] at he
    subst he
    obtain ⟨b, inst, -, -, rfl, hok⟩ := h.exists_link hf
    rw [hok.childName]
    rfl

/-- Every `Reachable` component lives in the arena. -/
theorem index_lt (h : tree.Linked) (hc : tree.Reachable c) : c.index < tree.size := by
  obtain ⟨names, hf⟩ := hc
  by_cases hn : names = []
  · subst hn
    obtain rfl := Option.some.inj hf
    exact h.root_lt
  · -- a handle outside leads to a component without a name
    apply Nat.lt_of_not_le
    intro hle
    have hname := h.isSome_instanceName hf hn
    rw [get_eq_default hle] at hname
    cases hname

/-- `pathWithin`, which goes up along the links, gives the names that `follow` has gone down by. -/
theorem pathWithin_eq (h : tree.Linked) {levels : Nat} (hne : names ≠ [])
    (hf : tree.follow tree.root names = some c) (hl : names.length ≤ levels) :
    tree.pathWithin levels c = names := by
  -- induction on the levels; the last name of the way comes off first
  induction levels generalizing names c with
  | zero => exact absurd (List.length_eq_zero_iff.1 (Nat.le_zero.1 hl)) hne
  | succ levels ih =>
    obtain rfl | ⟨front, last, he⟩ := List.eq_nil_or_concat names
    · exact absurd rfl hne
    rw [List.concat_eq_append] at he
    subst he
    obtain ⟨b, inst, hb, -, rfl, hok⟩ := h.exists_link hf
    rw [pathWithin, hok.childParent, hok.childName]
    by_cases hfront : front = []
    · -- the way starts at the root, which has no name
      subst hfront
      obtain rfl := Option.some.inj hb
      have hroot : (tree.get tree.root).instanceName = none := h.rootName
      simp [hroot]
    · have hname := h.isSome_instanceName hb hfront
      have hl' : front.length ≤ levels := by
        rw [List.length_append, List.length_singleton] at hl
        omega
      simp only [hname, if_true, Option.getD_some, ih hfront hb hl']

/-- There is only one way from the root to a component. -/
theorem follow_inj (h : tree.Linked) (hf : tree.follow tree.root names = some c)
    (hf' : tree.follow tree.root names' = some c) : names = names' := by
  -- both ways can be read off the links, or both are empty
  by_cases hn : names = []
  · have hp := (h.parent_eq_none_iff hf).2 hn
    rw [hn, (h.parent_eq_none_iff hf').1 hp]
  · have hn' : names' ≠ [] := fun he =>
      hn ((h.parent_eq_none_iff hf).1 ((h.parent_eq_none_iff hf').2 he))
    rw [← h.pathWithin_eq hn hf (Nat.le_max_left _ names'.length),
      h.pathWithin_eq hn' hf' (Nat.le_max_right names.length _)]

/-- `NoWayBack` of every component that can be reached: a way back would give it a second, longer
way. -/
theorem noWayBack (h : tree.Linked) (hc : tree.Reachable c) : tree.NoWayBack c := by
  obtain ⟨way, hway⟩ := hc
  intro names hf
  have hlonger : tree.follow tree.root (way ++ names) = some c := by
    rw [follow_append, hway]
    exact hf
  exact List.self_eq_append_right.1 (h.follow_inj hway hlonger)

theorem straight (h : tree.Linked) : tree.Straight tree.root :=
  fun names _ hf => h.noWayBack ⟨names, hf⟩

/-- What a way from the root has `passed` is `Reachable`. -/
theorem reachable_of_mem_passed (hd : d ∈ tree.passed tree.root names) : tree.Reachable d := by
  obtain ⟨front, _, _, -, hf⟩ := exists_of_mem_passed hd
  exact ⟨front, hf⟩

/-- No way from the root is longer than the arena. -/
theorem length_lt (h : tree.Linked) (hf : tree.follow tree.root names = some c) :
    names.length < tree.size :=
  h.straight.covers (fun front _ hb => h.index_lt ⟨front, hb⟩) names c hf

/-- The arena `Covers` every reachable component, so walks may take its size as their number of
levels. -/
theorem covers (h : tree.Linked) (hc : tree.Reachable c) : tree.Covers tree.size c := by
  intro rest d hd
  obtain ⟨names, hf⟩ := hc
  have hway : tree.follow tree.root (names ++ rest) = some d := by
    rw [follow_append, hf]
    exact hd
  have := h.length_lt hway
  rw [List.length_append] at this
  omega

/-- `path` joins the names on the way to a component. -/
theorem path_eq (h : tree.Linked) (hf : tree.follow tree.root names = some c) :
    tree.path c = Text.join "." names := by
  by_cases hn : names = []
  · subst hn
    obtain rfl := Option.some.inj hf
    exact path_eq_empty h.rootName h.rootParent
  · -- the arena is large enough for the whole way
    rw [path, h.pathWithin_eq hn hf (Nat.le_of_lt (h.length_lt hf))]

/-- A `Reachable` component is the root, or the child of an instance that `instance?` finds. -/
theorem instance?_cases (h : tree.Linked) (hc : tree.Reachable c) :
    (c = tree.root ∧ tree.instance? c = none) ∨
      ∃ b name inst, tree.Reachable b ∧ (name, inst) ∈ (tree.get b).children.entries ∧
        inst.child = c ∧ tree.LinkOk b name inst ∧ tree.instance? c = some inst := by
  obtain ⟨names, hf⟩ := hc
  -- the way to the component is empty, or has a last step
  rcases List.eq_nil_or_concat names with rfl | ⟨front, last, he⟩
  · obtain rfl := Option.some.inj hf
    exact .inl ⟨rfl, instance?_of_parent_eq_none h.rootParent⟩
  · rw [List.concat_eq_append] at he
    subst he
    obtain ⟨b, inst, hb, he, rfl, hok⟩ := h.exists_link hf
    exact .inr ⟨b, last, inst, ⟨front, hb⟩, he, rfl, hok, hok.instance?_eq he⟩

/-! ## Walks -/

/-- `descendants` of the root are the `Reachable` components. -/
theorem mem_descendants_iff (h : tree.Linked) :
    c ∈ tree.descendants tree.root ↔ tree.Reachable c := by
  rw [descendants_eq, mem_preorder_iff]
  constructor
  · rintro ⟨names, -, hf⟩
    exact ⟨names, hf⟩
  · rintro ⟨names, hf⟩
    exact ⟨names, h.length_lt hf, hf⟩

/-- `descendants` starts with the root. -/
theorem exists_descendants (h : tree.Linked) :
    ∃ below, tree.descendants tree.root = tree.root :: below := by
  have hpos : tree.size ≠ 0 := Nat.ne_of_gt (Nat.zero_lt_of_lt h.root_lt)
  obtain ⟨levels, hsize⟩ := Nat.exists_eq_succ_of_ne_zero hpos
  exact ⟨_, by rw [descendants_eq, hsize, preorder]⟩

/-- `preorder` meets each component once. -/
theorem nodup_preorder (h : tree.Linked) {levels : Nat}
    (hf : tree.follow tree.root names = some c) : (tree.preorder levels c).Nodup := by
  induction levels generalizing names c with
  | zero => exact List.nodup_nil
  | succ levels ih =>
    -- the way to a component that is met below `c` goes through `c`
    have hbelow {entry : String × Instance} (he : entry ∈ (tree.get c).children.entries)
        {d : Handle} (hd : d ∈ tree.preorder levels entry.2.child) :
        ∃ rest, tree.follow tree.root (names ++ entry.1 :: rest) = some d := by
      obtain ⟨rest, -, hr⟩ := mem_preorder_iff.1 hd
      refine ⟨rest, ?_⟩
      rw [follow_append, hf]
      exact follow_cons_iff.2 ⟨entry.2, he, hr⟩
    rw [preorder, flatMap_children, List.nodup_cons]
    constructor
    · -- a way through a child is longer than the way to its parent
      intro hm
      obtain ⟨entry, he, hd⟩ := List.mem_flatMap.1 hm
      obtain ⟨rest, hr⟩ := hbelow he hd
      simpa using h.follow_inj hf hr
    · rw [List.Nodup, List.pairwise_flatMap]
      refine ⟨fun entry he => ih (follow_concat_iff.2 ⟨c, entry.2, hf, he, rfl⟩), ?_⟩
      -- ways through different children differ in the name of the child
      refine List.Pairwise.imp_of_mem ?_ (List.pairwise_map.1 (tree.get c).children.nodup_keys)
      rintro entry other he ho hne d hd _ hd' rfl
      obtain ⟨rest, hr⟩ := hbelow he hd
      obtain ⟨rest', hr'⟩ := hbelow ho hd'
      have heq := List.append_cancel_left (h.follow_inj hr hr')
      exact hne (List.cons.inj heq).1

/-- `descendants` meets each component once. -/
theorem nodup_descendants (h : tree.Linked) : (tree.descendants tree.root).Nodup := by
  rw [descendants_eq]
  exact h.nodup_preorder (follow_nil ..)

end Linked

end HybridAutomata.Tree
