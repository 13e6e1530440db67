import HybridAutomata.Proofs.Tree.Copy
import HybridAutomata.Proofs.Tree.Wiring
/-!
# The links of a copy

The copies of a component and of those below it lie at consecutive places and are linked to each
other only: they form a `Block`. A network takes the first place, and its entries are copied one
after the other; each of them adds a block behind the others and attaches its first component.
Nothing is asked of the links of the components that are copied.

* `wired_append`         blocks at consecutive places
* `Block.of_copyEntry`   one more entry of a network is copied
* `block_copyWithin`     the copies of a component and of those below it
-/

namespace HybridAutomata

variable {κ : Type}

/-- The links of components that lie at consecutive places. -/
def linksFrom : (start : Nat) → List (Component κ) → Handle → Links
  | _, [], _ => {}
  | start, component :: rest, c =>
    if c.index = start then component.links else linksFrom (start + 1) rest c

section

variable {start : Nat} {components left right back : List (Component κ)}
  {component other : Component κ} {c : Handle}

/-- `linksFrom` finds no links in front of the first place. -/
theorem linksFrom_of_lt (h : c.index < start) : linksFrom start components c = {} := by
  induction components generalizing start with
  | nil => rfl
  | cons component rest ih =>
    rw [linksFrom, if_neg (Nat.ne_of_lt h), ih (Nat.lt_succ_of_lt h)]

/-- `linksFrom` finds the links of a place in one of the two parts of a list. -/
theorem linksFrom_append (start : Nat) (left right : List (Component κ)) (c : Handle) :
    (linksFrom start (left ++ right) c = linksFrom start left c ∧
        linksFrom (start + left.length) right c = {}) ∨
      (linksFrom start (left ++ right) c = linksFrom (start + left.length) right c ∧
        linksFrom start left c = {}) := by
  -- induction on the first list; a handle belongs to it or to the second one
  induction left generalizing start with
  | nil => exact .inr ⟨rfl, rfl⟩
  | cons component rest ih =>
    rw [List.cons_append, linksFrom, linksFrom, List.length_cons, Nat.add_comm rest.length,
      ← Nat.add_assoc]
    by_cases hc : c.index = start
    · rw [if_pos hc, if_pos hc]
      exact .inl ⟨rfl, linksFrom_of_lt (by omega)⟩
    · rw [if_neg hc, if_neg hc]
      exact ih (start + 1)

/-- Components at consecutive places are `Wired` if both parts of them are. -/
theorem wired_append (hl : Links.Wired (linksFrom start left))
    (hr : Links.Wired (linksFrom (start + left.length) right)) :
    Links.Wired (linksFrom start (left ++ right)) :=
  hl.union hr (linksFrom_append start left right)

/-- `linksFrom` finds the links of the component behind others. -/
theorem linksFrom_middle (front : List (Component κ)) :
    linksFrom start (front ++ component :: back) ⟨start + front.length⟩ = component.links := by
  induction front generalizing start with
  | nil => exact if_pos rfl
  | cons first rest ih =>
    rw [List.cons_append, linksFrom, if_neg (by simp), List.length_cons, Nat.add_comm rest.length,
      ← Nat.add_assoc]
    exact ih

/-- `linksFrom` finds the same elsewhere if one component is changed. -/
theorem linksFrom_middle_of_ne (front : List (Component κ)) (hc : c ≠ ⟨start + front.length⟩) :
    linksFrom start (front ++ component :: back) c =
      linksFrom start (front ++ other :: back) c := by
  have hindex : c.index ≠ start + front.length := fun he => hc (congrArg Handle.mk he)
  clear hc
  induction front generalizing start with
  | nil => exact (if_neg hindex).trans (if_neg hindex).symm
  | cons first rest ih =>
    rw [List.cons_append, List.cons_append, linksFrom, linksFrom, ih]
    rw [List.length_cons] at hindex
    omega

end

/-- Components at consecutive places that are linked to each other only, the first one without a
parent. -/
structure Block (start : Nat) (components : List (Component κ)) : Prop where
  wired : Links.Wired (linksFrom start components)
  head : ∃ first rest, components = first :: rest ∧ first.parent = none

/-- A component without links is a `Block`. -/
theorem block_singleton {component : Component κ} (hparent : component.parent = none)
    (hname : component.instanceName = none) (hports : component.children = ∅) (start : Nat) :
    Block start [component] where
  wired := by
    apply Links.wired_of_none
    intro c
    -- a component without links and children is linked to nothing
    have hlinks : component.links = {} := by
      rw [Component.links, hparent, hname, hports]
      rfl
    rw [linksFrom, hlinks]
    exact ite_self _
  head := ⟨component, [], rfl, hparent⟩

/-! ## Copies -/

section

variable {component : Component κ} {instances : NameMap Instance} {start : Nat}
  {below : List (Component κ)} {name : String}

/-- The copy of a network as far as its entries have been copied. -/
def Component.copyWith (component : Component κ) (instances : NameMap Instance) : Component κ :=
  { component.detached with body := .network instances }

/-- A network whose entries are being copied has no parent and the entries made so far. -/
theorem linksFrom_copyWith (component : Component κ) (instances : NameMap Instance) (start : Nat)
    (rest : List (Component κ)) :
    linksFrom start (component.copyWith instances :: rest) ⟨start⟩ =
      { ports := instances.entries.map fun entry => (entry.1, entry.2.parent, entry.2.child) } :=
  if_pos rfl

section

variable {child child' : Component κ} {rest : List (Component κ)} {inst : Instance}

/-- `linksFrom` finds the first component behind a network and the components below it. -/
theorem linksFrom_behind (component : Component κ) :
    linksFrom start (component :: (below ++ child :: rest)) ⟨start + 1 + below.length⟩ =
      child.links := by
  rw [Nat.add_assoc, Nat.add_comm 1]
  exact linksFrom_middle (component :: below)

/-- A new entry of a network and the links of its child attach the child, as `IsAttached` says. -/
theorem isAttached_copyWith (hname : name ∉ instances.keys) (hinst : inst.parent = ⟨start⟩)
    (hplace : inst.child = ⟨start + 1 + below.length⟩)
    (hlinks : child'.links = { child.links with parent := some ⟨start⟩, name := some name }) :
    Links.IsAttached (linksFrom start (component.copyWith instances :: (below ++ child :: rest)))
      (linksFrom start
        (component.copyWith (instances.insert name inst) :: (below ++ child' :: rest)))
      ⟨start⟩ name ⟨start + 1 + below.length⟩ := by
  constructor
  case child_parent => rw [linksFrom_behind, hlinks]
  case child_name => rw [linksFrom_behind, hlinks]
  case child_ports => rw [linksFrom_behind, linksFrom_behind, hlinks]
  case parent_parent => rw [linksFrom_copyWith, linksFrom_copyWith]
  case parent_name => rw [linksFrom_copyWith, linksFrom_copyWith]
  case parent_ports =>
    rw [linksFrom_copyWith, linksFrom_copyWith, NameMap.entries_insert_of_not_mem hname,
      List.map_append, List.map_singleton, hinst, hplace]
  case others =>
    intro c hc hp
    rw [Nat.add_assoc, Nat.add_comm 1] at hc
    -- the network and the child change, one after the other
    calc linksFrom start
          (component.copyWith (instances.insert name inst) :: (below ++ child' :: rest)) c
        = linksFrom start (component.copyWith instances :: (below ++ child' :: rest)) c :=
          linksFrom_middle_of_ne [] hp
      _ = linksFrom start (component.copyWith instances :: (below ++ child :: rest)) c :=
          linksFrom_middle_of_ne (component.copyWith instances :: below) hc

/-- A `Block` behind a network becomes a child of the network. -/
theorem Block.attach (h : Block start (component.copyWith instances :: below))
    (hchild : Block (start + 1 + below.length) (child :: rest)) (hname : name ∉ instances.keys)
    (hinst : inst.parent = ⟨start⟩) (hplace : inst.child = ⟨start + 1 + below.length⟩)
    (hlinks : child'.links = { child.links with parent := some ⟨start⟩, name := some name }) :
    Block start (component.copyWith (instances.insert name inst) :: (below ++ child' :: rest)) := by
  have hboth : Links.Wired
      (linksFrom start (component.copyWith instances :: (below ++ child :: rest))) := by
    rw [Nat.add_assoc, Nat.add_comm 1] at hchild
    exact wired_append h.wired hchild.wired
  -- the first component of a block has no parent, so it is free to get one
  have hfree : child.parent = none := by
    obtain ⟨_, _, he, hparent⟩ := hchild.head
    cases he
    exact hparent
  constructor
  case wired =>
    apply hboth.attach (isAttached_copyWith hname hinst hplace hlinks)
    · rwa [linksFrom_behind]
    · -- the network has no parent, so the child is not above it
      intro habove
      have he := Links.eq_of_isAbove_of_parent (by rw [linksFrom_copyWith]) habove
      have : start = start + 1 + below.length := congrArg Handle.index he
      omega
  case head => exact ⟨_, _, rfl, rfl⟩

end

variable [Scalar κ] {tree : Tree κ} {levels : Nat}

/-- `placeCopy` links the first copy of a child to the network and names it. -/
theorem placeCopy_eq_ok {owner : Handle} {inst inst' : Instance} {child : Component κ}
    {rest copies : List (Component κ)}
    (h : Tree.placeCopy owner name inst start (child :: rest) = .ok (inst', copies)) :
    inst'.parent = owner ∧ inst'.child = ⟨start⟩ ∧ ∃ child', copies = child' :: rest ∧
      child'.links = { child.links with parent := some owner, name := some name } := by
  rw [Tree.placeCopy] at h
  obtain ⟨⟨constants, consts⟩, -, h⟩ := Except.bind_eq_ok_iff.1 h
  cases h
  exact ⟨rfl, rfl, _, rfl, rfl⟩

/-- `copyEntry` adds the block of its child to the block of the network. -/
theorem Block.of_copyEntry {entry : String × Instance}
    {state state' : NameMap Instance × List (Component κ)}
    (h : Block start (component.copyWith state.1 :: state.2)) (hname : entry.1 ∉ state.1.keys)
    (hchild : ∀ next copies, tree.copyWithin levels next entry.2.child = .ok copies →
      Block next copies)
    (hstep : tree.copyEntry levels start state entry = .ok state') :
    Block start (component.copyWith state'.1 :: state'.2) ∧
      state'.1.keys = state.1.keys ++ [entry.1] := by
  rw [Tree.copyEntry] at hstep
  -- the component is copied first, then the copies are placed
  obtain ⟨copies, hcopies, hstep⟩ := Except.bind_eq_ok_iff.1 hstep
  obtain ⟨⟨inst, placed⟩, hplaced, hstep⟩ := Except.bind_eq_ok_iff.1 hstep
  cases hstep
  have hblock := hchild _ _ hcopies
  obtain ⟨child, rest, rfl, -⟩ := hblock.head
  obtain ⟨hparent, hplace, child', rfl, hlinks⟩ := placeCopy_eq_ok hplaced
  refine ⟨h.attach hblock hname hparent hplace hlinks, ?_⟩
  rw [NameMap.keys_insert, if_neg hname]

/-- All entries of a network are copied, and with each of them the `Block` grows. -/
theorem Block.of_foldlM_copyEntry {entries : List (String × Instance)}
    {state state' : NameMap Instance × List (Component κ)}
    (h : Block start (component.copyWith state.1 :: state.2))
    (hnames : (state.1.keys ++ entries.map Prod.fst).Nodup)
    (hchildren : ∀ entry ∈ entries, ∀ next copies,
      tree.copyWithin levels next entry.2.child = .ok copies → Block next copies)
    (hfold : entries.foldlM (tree.copyEntry levels start) state = .ok state') :
    Block start (component.copyWith state'.1 :: state'.2) := by
  -- by induction on the entries: their names are different, so each one is new when it comes
  induction entries generalizing state with
  | nil =>
    cases hfold
    exact h
  | cons entry rest ih =>
    rw [List.foldlM_cons] at hfold
    obtain ⟨next, hstep, hfold⟩ := Except.bind_eq_ok_iff.1 hfold
    rw [List.map_cons, List.append_cons] at hnames
    have hnew : entry.1 ∉ state.1.keys := fun hm =>
      (List.nodup_append.1 (List.nodup_append.1 hnames).1).2.2 _ hm _ List.mem_cons_self rfl
    obtain ⟨hnext, hkeys⟩ := h.of_copyEntry hnew (hchildren entry List.mem_cons_self) hstep
    refine ih hnext ?_ (fun other ho => hchildren other (List.mem_cons_of_mem _ ho)) hfold
    rwa [hkeys]

/-- `copyWithin` gives a `Block`: the copies of a component and of those below it are linked to each
other only. -/
theorem block_copyWithin {c : Handle} {copies : List (Component κ)}
    (h : tree.copyWithin levels start c = .ok copies) : Block start copies := by
  induction levels generalizing start c copies with
  | zero => cases h
  | succ levels ih =>
    cases hb : (tree.get c).body with
    | base automaton =>
      rw [Tree.copyWithin] at h
      simp only [hb] at h
      cases h
      refine block_singleton rfl rfl (Component.children_of_isBase ?_) start
      rw [Component.isBase, Component.detached, hb]
    | network children =>
      rw [Tree.copyWithin_of_network hb] at h
      obtain ⟨⟨instances, below⟩, hfold, h⟩ := Except.bind_eq_ok_iff.1 h
      cases h
      -- the network without entries is a block, and its entries are copied one after the other
      have hempty : Block start [(tree.get c).copyWith ∅] := block_singleton rfl rfl rfl start
      refine Block.of_foldlM_copyEntry ?_ ?_ ?_ hfold
      · exact hempty
      · exact children.nodup_keys
      · exact fun entry _ next copies => ih

end

end HybridAutomata
