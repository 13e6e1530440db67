import HybridAutomata.Proofs.Expr.Places
import HybridAutomata.Proofs.Tree.ModeNames
import HybridAutomata.Proofs.Tree.Visits
import HybridAutomata.Proofs.Tree.Wired
import HybridAutomata.Tree.Render
/-!
# The order of walks

A walk through a tree keeps a list of pending components. It visits the first of them and puts the
children of this one in front of the others, until no component is pending: `Walk`. Nothing marks
what was visited before: a component with several entries is visited several times, and a walk would
go on for ever where a way leads back to where it started. This is all that is ruled out: `Acyclic`.

Then a walk goes through a component and what is below it in preorder, and this is the order in
which modes are taken off a list of modes and in which components are shown.

* `Covers.walk`             a walk with enough levels visits the preorder and then goes on
* `Covers.takeModes_eq`     modes are taken for one automaton after the other
* `Covers.linesWithin_eq`   the instances are shown one after the other
* `Wired.acyclic`           where the links agree with each other, no way leads back
* `walks_go_in_preorder`    all walks go in preorder, through trees and through expressions
-/

namespace HybridAutomata

variable {κ : Type}

/-- The lines of a component without those of its instances. -/
def Component.ownLines [Scalar κ] (component : Component κ) (depth : Nat) : List Line :=
  component.headLines depth ++
    match component.body with
    | .base automaton => automaton.lines (depth + 1)
    | .network _ => []

namespace Tree

variable {tree : Tree κ} {c child : Handle} {levels levels' : Nat}
    {pending visited visited' : List Handle}

/-! ## Walks -/

/-- What a walk visits: the first pending component, then the children of this one and the other
pending components. -/
inductive Walk (tree : Tree κ) : (pending visited : List Handle) → Prop where
  | done : Walk tree [] []
  | next {c : Handle} {pending visited : List Handle}
      (h : Walk tree (tree.children c ++ pending) visited) : Walk tree (c :: pending) (c :: visited)

/-- A `Walk` that comes to an end goes one way only. -/
theorem Walk.unique (h : tree.Walk pending visited) (h' : tree.Walk pending visited') :
    visited = visited' := by
  -- induction on the first walk, which says what the second one does next
  induction h generalizing visited' with
  | done =>
    cases h'
    rfl
  | next _ ih =>
    cases h' with
    | next h' => rw [ih h']

/-- A child is covered by one level less. -/
theorem Covers.of_mem_children (h : tree.Covers (levels + 1) c) (hm : child ∈ tree.children c) :
    tree.Covers levels child := by
  obtain ⟨entry, he, rfl⟩ := mem_children_iff.1 hm
  exact h.child he

/-- Where the ways down are bounded, a `Walk` visits the `preorder` of a component and then goes on
with the other pending components. -/
theorem Covers.walk (h : tree.Covers levels c) (hwalk : tree.Walk pending visited) :
    tree.Walk (c :: pending) (tree.preorder levels c ++ visited) := by
  -- induction on the levels, and within it along the children
  induction levels generalizing c pending visited with
  | zero => exact absurd h (not_covers_zero tree c)
  | succ levels ih =>
    -- the children come one after the other
    have key (handles : List Handle) (hh : ∀ child ∈ handles, tree.Covers levels child) :
        tree.Walk (handles ++ pending) (handles.flatMap (tree.preorder levels) ++ visited) := by
      induction handles with
      | nil => exact hwalk
      | cons child rest ih' =>
        rw [List.forall_mem_cons] at hh
        rw [List.flatMap_cons, List.append_assoc]
        exact ih hh.1 (ih' hh.2)
    exact .next (key (tree.children c) fun child hm => h.of_mem_children hm)

/-- `preorder` does not depend on the number of levels if there are enough of them. -/
theorem Covers.preorder_eq (h : tree.Covers levels c) (h' : tree.Covers levels' c) :
    tree.preorder levels c = tree.preorder levels' c := by
  -- both are what one and the same walk visits
  have hwalk := (h.walk .done).unique (h'.walk .done)
  rwa [List.append_nil, List.append_nil] at hwalk

/-! ## Taking modes -/

/-- Takes the first mode off a list of modes, if the component has this mode. -/
def takeMode (tree : Tree κ) (modes : String) (c : Handle) : Option String :=
  let (mode, rest) := (Text.cut? '.' modes).getD (modes, "")
  if mode ∈ (tree.get c).modeNames then some rest else none

/-- `takeModes` goes through the automata below a component, and takes one mode for each of them. -/
theorem Covers.takeModes_eq (h : tree.Covers levels c) (modes : String) :
    tree.takeModes levels c modes = (tree.automataWithin levels c).foldlM tree.takeMode modes := by
  -- induction on the levels; a network hands the text from instance to instance
  induction levels generalizing c modes with
  | zero => exact absurd h (not_covers_zero tree c)
  | succ levels ih =>
    rw [takeModes]
    cases hb : (tree.get c).body with
    | base automaton =>
      rw [automataWithin_base levels hb, List.foldlM_cons, takeMode, Component.modeNames_of_base hb]
      simp only [NameMap.contains_iff, List.foldlM_nil, bind_pure]
    | network children =>
      have hchild : ∀ inst ∈ children.values, ∀ rest, tree.takeModes levels inst.child rest =
          (tree.automataWithin levels inst.child).foldlM tree.takeMode rest := by
        intro inst hi
        obtain ⟨entry, he, rfl⟩ := List.mem_map.1 hi
        rw [← Component.children_of_network hb] at he
        exact ih (h.child he)
      rw [automataWithin_network levels hb, List.foldlM_flatMap]
      exact List.foldlM_congr_of_forall₂ (List.forall₂_same.2 hchild) modes

/-! ## Showing instances -/

/-- An instance that is shown, and how deep. -/
structure Placement where
  name : String
  inst : Instance
  depth : Nat

/-- The lines of an instance and of its component, without those of further instances. -/
def Placement.lines [Scalar κ] (tree : Tree κ) (placement : Placement) : List Line :=
  ⟨placement.depth, "instance " ++ placement.name⟩ ::
    (placement.inst.bindingLines (placement.depth + 1) ++
      (tree.get placement.inst.child).ownLines (placement.depth + 1))

/-- The instances below a component, each before those below it. -/
def placementsWithin (tree : Tree κ) : (levels : Nat) → Handle → (depth : Nat) → List Placement
  | 0, _, _ => []
  | levels + 1, c, depth => (tree.get c).children.entries.flatMap fun (name, inst) =>
    ⟨name, inst, depth + 1⟩ :: tree.placementsWithin levels inst.child (depth + 2)

/-- `preorder` meets the components of `placementsWithin` in the same order. -/
theorem Covers.preorder_eq_placements (h : tree.Covers levels c) (depth : Nat) :
    tree.preorder levels c =
      c :: (tree.placementsWithin levels c depth).map fun placement => placement.inst.child := by
  induction levels generalizing c depth with
  | zero => exact absurd h (not_covers_zero tree c)
  | succ levels ih =>
    rw [preorder, placementsWithin, flatMap_children, List.map_flatMap]
    exact congrArg _ (List.flatMap_congr fun entry he => ih (h.child he) (depth + 2))

/-- `linesWithin` gives the own lines of a component, then those of its placements, one after the
other. -/
theorem Covers.linesWithin_eq [Scalar κ] (h : tree.Covers levels c) (depth : Nat) :
    tree.linesWithin levels c depth = (tree.get c).ownLines depth ++
      (tree.placementsWithin levels c depth).flatMap (Placement.lines tree) := by
  -- induction on the levels; an automaton has lines of its own and no instances
  induction levels generalizing c depth with
  | zero => exact absurd h (not_covers_zero tree c)
  | succ levels ih =>
    rw [linesWithin, placementsWithin, Component.ownLines, List.flatMap_assoc]
    cases hb : (tree.get c).body with
    | base automaton =>
      rw [Component.children_of_base hb, NameMap.entries_empty, List.flatMap_nil, List.append_nil]
    | network children =>
      rw [List.append_nil]
      rw [Component.children_of_network hb]
      refine congrArg _ (List.flatMap_congr fun entry he => ?_)
      rw [← Component.children_of_network hb] at he
      dsimp only
      rw [ih (h.child he), List.flatMap_cons, Placement.lines, List.cons_append, List.append_assoc]

/-! ## Trees without ways that lead back -/

/-- All handles lead to components of the arena, and no way leads back to where it started. -/
structure Acyclic (tree : Tree κ) : Prop where
  root_lt : tree.root.index < tree.size
  index_lt : ∀ c, ∀ child ∈ tree.children c, child.index < tree.size
  noWayBack : ∀ c, tree.NoWayBack c

/-- A tree is `Acyclic` where every component lies before its children in the arena. -/
theorem acyclic_of_index_lt (hroot : tree.root.index < tree.size)
    (h : ∀ i < tree.size, ∀ entry ∈ (tree.get ⟨i⟩).children.entries,
      i < entry.2.child.index ∧ entry.2.child.index < tree.size) : tree.Acyclic := by
  have hentry {c : Handle} {entry : String × Instance}
      (he : entry ∈ (tree.get c).children.entries) :
      c.index < entry.2.child.index ∧ entry.2.child.index < tree.size :=
    h c.index (index_lt_of_mem_children he) entry he
  -- a way goes to later and later places
  have hway {names : List String} {c d : Handle} (hf : tree.follow c names = some d) :
      c.index ≤ d.index := by
    induction names generalizing c with
    | nil => exact Nat.le_of_eq (congrArg Handle.index (Option.some.inj hf))
    | cons name rest ih =>
      obtain ⟨inst, he, hf⟩ := follow_cons_iff.1 hf
      exact Nat.le_trans (Nat.le_of_lt (hentry he).1) (ih hf)
  refine ⟨hroot, fun c child hm => ?_, fun c names hf => ?_⟩
  · obtain ⟨entry, he, rfl⟩ := mem_children_iff.1 hm
    exact (hentry he).2
  -- a way back would lead to an earlier place
  · cases names with
    | nil => rfl
    | cons name rest =>
      obtain ⟨inst, he, hf⟩ := follow_cons_iff.1 hf
      exact absurd (hway hf) (Nat.not_le_of_lt (hentry he).1)

/-- A `Wired` tree is `Acyclic`. -/
theorem Wired.acyclic (h : tree.Wired) : tree.Acyclic where
  root_lt := h.root_lt
  index_lt c child hm := by
    obtain ⟨⟨name, inst⟩, he, rfl⟩ := mem_children_iff.1 hm
    exact (h.index_lt_of_parent (h.linkOk he).childParent).1
  noWayBack c names hf := by
    cases names with
    | nil => rfl
    | cons name rest =>
      obtain ⟨inst, he, -⟩ := follow_cons_iff.1 hf
      -- a way back would make ways longer than the arena
      have hcovers : tree.Covers tree.size c := fun _ _ => h.length_lt (index_lt_of_mem_children he)
      exact absurd hcovers (not_covers_of_follow_self hf (List.cons_ne_nil _ _))

namespace Acyclic

/-- The arena of an `Acyclic` tree `Covers` each of its components. -/
theorem covers (h : tree.Acyclic) (hc : c.index < tree.size) : tree.Covers tree.size c := by
  refine Straight.covers (fun _ d _ => h.noWayBack d) fun names d hf => ?_
  -- the end of a way is where it starts, or a child
  obtain rfl | ⟨front, last, rfl⟩ := List.eq_nil_or_concat names
  · exact Option.some.inj hf ▸ hc
  · rw [List.concat_eq_append] at hf
    obtain ⟨b, inst, -, he, rfl⟩ := follow_concat_iff.1 hf
    exact h.index_lt b inst.child (mem_children_iff.2 ⟨_, he, rfl⟩)

/-- `descendants` of a component are the component, then those of its children in order. -/
theorem descendants_eq_cons (h : tree.Acyclic) (hc : c.index < tree.size) :
    tree.descendants c = c :: (tree.children c).flatMap tree.descendants := by
  obtain ⟨levels, hsize⟩ := Nat.exists_eq_succ_of_ne_zero (Nat.ne_zero_of_lt hc)
  have hcovers := h.covers hc
  rw [hsize] at hcovers
  rw [descendants_eq, hsize, preorder]
  refine congrArg _ (List.flatMap_congr fun child hm => ?_)
  rw [descendants_eq]
  -- a child has more levels than it needs
  exact (hcovers.of_mem_children hm).preorder_eq (h.covers (h.index_lt c child hm))

end Acyclic

/-- A list for each component: the component, then the lists of its children in order. -/
def IsPreorder (tree : Tree κ) (order : Handle → List Handle) : Prop :=
  ∀ c, c.index < tree.size → order c = c :: (tree.children c).flatMap order

/-- An order that goes as `IsPreorder` says is the `preorder`. -/
theorem IsPreorder.eq_preorder {order : Handle → List Handle} (h : tree.IsPreorder order)
    (hacyclic : tree.Acyclic) (hl : tree.Covers levels c) (hc : c.index < tree.size) :
    order c = tree.preorder levels c := by
  -- induction on the levels; both sides go on with the children
  induction levels generalizing c with
  | zero => exact absurd hl (not_covers_zero tree c)
  | succ levels ih =>
    rw [h c hc, preorder]
    refine congrArg _ (List.flatMap_congr fun child hm => ?_)
    exact ih (hl.of_mem_children hm) (hacyclic.index_lt c child hm)

/-- The preorder of a tree is what a walk visits, the order in which modes are taken off a list, and
that in which components are shown. -/
structure WalkedInPreorder [Scalar κ] (tree : Tree κ) : Prop where
  /-- A walk comes to an end. -/
  walk : ∀ c, c.index < tree.size → ∀ visited, tree.Walk [c] visited ↔ visited = tree.descendants c
  /-- It visits each component before those below it, and these in the order of the instances. -/
  preorder : ∀ order,
    tree.IsPreorder order ↔ ∀ c, c.index < tree.size → order c = tree.descendants c
  modes : ∀ c, c.index < tree.size → ∀ modes, tree.takeModes tree.size c modes =
    ((tree.descendants c).filter fun d => (tree.get d).isBase).foldlM tree.takeMode modes
  rootModes : ∀ modes, tree.takeModes tree.size tree.root modes =
    tree.baseComponents.foldlM tree.takeMode modes
  /-- The root is shown first, then come the instances. -/
  lines : ∃ placements : List Placement,
    tree.descendants tree.root = tree.root ::
      placements.map (fun placement => placement.inst.child) ∧
    tree.lines = tree.rootComponent.ownLines 0 ++ placements.flatMap (Placement.lines tree)

/-- An `Acyclic` tree is `WalkedInPreorder`. -/
theorem Acyclic.walkedInPreorder [Scalar κ] (h : tree.Acyclic) : tree.WalkedInPreorder where
  walk c hc visited := by
    have hwalk := (h.covers hc).walk .done
    rw [List.append_nil, ← descendants_eq] at hwalk
    constructor
    · exact fun hvisited => hvisited.unique hwalk
    · rintro rfl
      exact hwalk
  preorder order := by
    -- each of the two orders is determined by what comes first and what is below
    constructor
    · intro horder c hc
      rw [descendants_eq]
      exact horder.eq_preorder h (h.covers hc) hc
    · intro horder c hc
      rw [horder c hc, h.descendants_eq_cons hc]
      exact congrArg _ (List.flatMap_congr fun child hm =>
        (horder child (h.index_lt c child hm)).symm)
  modes c hc modes := by
    rw [(h.covers hc).takeModes_eq, automataWithin, descendants_eq]
  rootModes modes := by
    rw [(h.covers h.root_lt).takeModes_eq, automataWithin, baseComponents, descendants_eq]
  lines := by
    have hcovers := h.covers h.root_lt
    exact ⟨_, (descendants_eq tree tree.root).trans (hcovers.preorder_eq_placements 0),
      hcovers.linesWithin_eq 0⟩

end Tree

/-- The walk through an expression visits its nodes in preorder. So does the walk through a tree
without ways that lead back, and modes are taken and components shown in the same order. -/
theorem walks_go_in_preorder [Scalar κ] (e : Expr κ) (tree : Tree κ) (h : tree.Acyclic) :
    e.WalkedInPreorder ∧ tree.WalkedInPreorder :=
  ⟨e.walkedInPreorder, h.walkedInPreorder⟩

/-- `clockAndLamp` is walked from the clock to the lamp, which lies before it in the arena. -/
theorem clockAndLamp_is_walked_in_preorder :
    clockAndLamp.tree.Acyclic ∧ clockAndLamp.tree.baseComponents = [⟨3⟩, ⟨2⟩] ∧
      (Expr.binary .less (.var "time") (.var "rate") : Expr Int).WalkedInPreorder ∧
      clockAndLamp.tree.WalkedInPreorder := by
  have hacyclic : clockAndLamp.tree.Acyclic :=
    Tree.acyclic_of_index_lt (by decide) (by decide +kernel)
  exact ⟨hacyclic, by decide +kernel,
    walks_go_in_preorder (.binary .less (.var "time") (.var "rate")) clockAndLamp.tree hacyclic⟩

end HybridAutomata
