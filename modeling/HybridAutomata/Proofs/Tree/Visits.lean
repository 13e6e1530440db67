import HybridAutomata.Proofs.Component.Violations
import HybridAutomata.Proofs.Tree.Check
import HybridAutomata.Proofs.Tree.Settling
/-!
# How far a check gets

A check goes from a network to its entries, one after the other, and stops at the first violation.
So what it gets to look at depends on what it has seen before: `Visits`, `LooksUp`. Nothing is
assumed about links, but the entries must not lead down for ever.

The check runs away if and only if it gets to look up a constant whose look-up does not settle. It
does not where every component bears the name of its entry: then each look-up goes from a component
that the check has got to up to the network that holds it.

* `Nested.covers`                 a tree of finite depth is not deeper than the arena
* `checkWithin_isRunaway_iff`     when a check runs away
* `Visits.settles`                when it does not
-/

namespace HybridAutomata

variable {κ : Type}

/-- A violation that stands for a look-up or a walk that would never end. -/
def Violation.IsRunaway : Violation κ → Prop
  | .unresolvedConstant _ _ cause | .lookup cause => cause.IsCircular
  | .circularNesting _ => True
  | _ => False

/-- A violation that `IsRunaway` comes from going round or down. -/
theorem Violation.IsRunaway.isRecursive {violation : Violation κ} (h : violation.IsRunaway) :
    violation.IsRecursive := by
  cases violation <;> trivial

namespace Tree

variable {tree : Tree κ} {options : CheckOptions} {levels : Nat} {b c d : Handle} {name : String}
  {names : List String}

/-! ## Depth -/

/-- A way back to a component leaves no level that `Covers` it. -/
theorem not_covers_of_follow_self (hf : tree.follow c names = some c) (hne : names ≠ []) :
    ¬ tree.Covers levels c := by
  -- induction on the levels: each of them would be one too few
  induction levels with
  | zero => exact not_covers_zero tree c
  | succ levels ih =>
    -- every way can be made longer
    intro h
    refine ih fun rest d hd => ?_
    have hlonger := h (names ++ rest) d (by rw [follow_append, hf]; exact hd)
    have hpos := List.length_pos_iff.2 hne
    rw [List.length_append] at hlonger
    omega

/-- No way leads back below a component with a level that `Covers` it. -/
theorem Covers.straight (h : tree.Covers levels c) : tree.Straight c := by
  intro names b hb back hback
  by_contra hne
  have hround : ¬ tree.Covers levels b := not_covers_of_follow_self hback hne
  -- the ways below the end of a way are parts of ways from the start
  refine hround fun rest d hd => ?_
  have hlonger := h (names ++ rest) d (by rw [follow_append, hb]; exact hd)
  rw [List.length_append] at hlonger
  omega

/-- The entries of the networks lead down to components in the arena, and not for ever. -/
structure Nested (tree : Tree κ) : Prop where
  bounded : ∃ levels, tree.Covers levels tree.root
  index_lt : ∀ c, tree.Reachable c → c.index < tree.size

/-- A `Nested` tree is not deeper than the arena. -/
theorem Nested.covers (h : tree.Nested) : tree.Covers tree.size tree.root := by
  obtain ⟨levels, hcovers⟩ := h.bounded
  exact hcovers.straight.covers fun names b hb => h.index_lt b ⟨names, hb⟩

/-- A tree is `Nested` if its arena `Covers` the root and holds what a walk meets. -/
theorem Nested.of_covers (h : tree.Covers tree.size tree.root)
    (hlt : ∀ c ∈ tree.preorder tree.size tree.root, c.index < tree.size) : tree.Nested where
  bounded := ⟨tree.size, h⟩
  index_lt c hc := by
    obtain ⟨names, hf⟩ := hc
    exact hlt c (mem_preorder_iff.2 ⟨names, h names c hf, hf⟩)

/-- One level more than `Covers` each child `Covers` the component. -/
theorem Covers.of_children (h : ∀ child ∈ tree.children c, tree.Covers levels child) :
    tree.Covers (levels + 1) c := by
  intro names d hf
  cases names with
  | nil => exact Nat.succ_pos levels
  | cons name rest =>
    obtain ⟨inst, he, hf⟩ := follow_cons_iff.1 hf
    exact Nat.succ_lt_succ (h inst.child (mem_children_iff.2 ⟨_, he, rfl⟩) rest d hf)

/-! ## The course of a check -/

/-- One entry of a network is checked: its links and bindings, its component, the name. -/
def checkEntry (tree : Tree κ) (options : CheckOptions) (levels : Nat) (c : Handle)
    (entry : String × Instance) : Except (Violation κ) Unit := do
  tree.checkInstance options c entry.2
  tree.checkWithin options levels entry.2.child
  let declared := (tree.get entry.2.child).instanceName
  if declared ≠ some entry.1 then
    throw (.instanceNameMismatch entry.1 (declared.getD "<root>"))

/-- `checkWithin` of a network checks the entries one after the other. -/
theorem checkWithin_of_network {children : NameMap Instance}
    (hb : (tree.get c).body = .network children) (hne : children.isEmpty = false) :
    tree.checkWithin options (levels + 1) c =
      (tree.checkDeclarations options c >>= fun _ =>
        children.entries.forM (tree.checkEntry options levels c)) := by
  rw [checkWithin]
  simp only [hb, hne]
  rfl

/-- `checkInstance` never goes round or down. -/
theorem checkInstance_avoids (tree : Tree κ) (options : CheckOptions) (c : Handle)
    (inst : Instance) : (tree.checkInstance options c inst).Avoids Violation.IsRecursive := by
  rw [checkInstance]
  refine Except.avoids_guard not_false (List.avoids_forM fun kind _ => List.avoids_forM ?_)
  exact fun binding _ => binding.check_avoids _ _ _ _ _

/-- An entry in a list of the instances is one of `children`. -/
theorem mem_children_of_append {children : NameMap Instance} {front back : List (String × Instance)}
    {entry : String × Instance} (hb : (tree.get c).body = .network children)
    (hentries : children.entries = front ++ entry :: back) :
    entry ∈ (tree.get c).children.entries := by
  rw [Component.children_of_network hb, hentries]
  exact List.mem_append_right _ List.mem_cons_self

/-- The components that a check gets to, with the levels that are left for them: the root, and the
component of an entry when everything up to the links and bindings of the entry has passed. -/
inductive Visits (tree : Tree κ) (options : CheckOptions) : Nat → Handle → Prop where
  | root : Visits tree options tree.size tree.root
  | child {levels : Nat} {c : Handle} {children : NameMap Instance}
      {front back : List (String × Instance)} {name : String} {inst : Instance}
      (hvisits : Visits tree options (levels + 1) c)
      (hdeclared : tree.checkDeclarations options c = .ok ())
      (hbody : (tree.get c).body = .network children)
      (hentries : children.entries = front ++ (name, inst) :: back)
      (hfront : ∀ entry ∈ front, tree.checkEntry options levels c entry = .ok ())
      (hinst : tree.checkInstance options c inst = .ok ()) :
      Visits tree options levels inst.child

/-- The constants that a check looks up: those of the components that it gets to, if the links and
names of the component and the earlier constants have passed. -/
def LooksUp (tree : Tree κ) (options : CheckOptions) (c : Handle) (name : String) : Prop :=
  ∃ levels front back, tree.Visits options (levels + 1) c ∧ (tree.get c).checkLinks = .ok () ∧
    checkNames (κ := κ) (tree.get c).displayName [] ((tree.get c).checkedNames options) = .ok () ∧
    options.constants = true ∧ (tree.get c).constants.keys = front ++ name :: back ∧
    ∀ earlier ∈ front, ∃ value, tree.constantValue c earlier = .ok value

/-! ## Runaway checks -/

/-- The check that a constant has a value. -/
def checkConstant (tree : Tree κ) (c : Handle) (name : String) : Except (Violation κ) Unit :=
  match tree.constantValue c name with
  | .ok _ => .ok ()
  | .error cause => .error (.unresolvedConstant name (tree.get c).displayName cause)

/-- `checkConstant` passes if the constant has a value. -/
theorem checkConstant_eq_ok_iff :
    tree.checkConstant c name = .ok () ↔ ∃ value, tree.constantValue c name = .ok value := by
  rw [checkConstant]
  cases tree.constantValue c name <;> simp

/-- `checkConstant` runs away just if the look-up does not settle. -/
theorem checkConstant_isRunaway_iff :
    (∃ violation, tree.checkConstant c name = .error violation ∧ violation.IsRunaway) ↔
      ¬ tree.Settles c name := by
  rw [← constantValue_isCircular_iff, checkConstant]
  cases hvalue : tree.constantValue c name with
  | ok value => simp
  | error cause => simp [Violation.IsRunaway]

/-- `checkDeclarations` are a check of links, of names and of the values of constants. -/
theorem checkDeclarations_eq (tree : Tree κ) (options : CheckOptions) (c : Handle) :
    tree.checkDeclarations options c = (tree.get c).checkLinks >>= fun _ =>
      checkNames (tree.get c).displayName [] ((tree.get c).checkedNames options) >>= fun _ =>
        if options.constants then (tree.get c).constants.keys.forM (tree.checkConstant c)
        else pure () := rfl

/-- `checkDeclarations` runs away just if it looks up a constant that does not settle. -/
theorem checkDeclarations_isRunaway_iff (hvisits : tree.Visits options (levels + 1) c) :
    (∃ violation, tree.checkDeclarations options c = .error violation ∧ violation.IsRunaway) ↔
      ∃ name, tree.LooksUp options c name ∧ ¬ tree.Settles c name := by
  rw [checkDeclarations_eq]
  constructor
  -- links and names never run away, so a constant does
  · rintro ⟨violation, h, hrunaway⟩
    have hrecursive := hrunaway.isRecursive
    rcases Except.bind_eq_error_iff.1 h with h | ⟨_, hlinks, h⟩
    · exact absurd hrecursive ((tree.get c).checkLinks_avoids _ h)
    rcases Except.bind_eq_error_iff.1 h with h | ⟨_, hnames, h⟩
    · exact absurd hrecursive (checkNames_avoids _ _ _ _ h)
    split at h
    · next hconstants =>
      obtain ⟨front, name, back, hkeys, hfront, hname⟩ := List.forM_eq_error_iff.1 h
      refine ⟨name, ⟨levels, front, back, hvisits, hlinks, hnames, hconstants, hkeys, ?_⟩,
        checkConstant_isRunaway_iff.1 ⟨violation, hname, hrunaway⟩⟩
      exact fun earlier he => checkConstant_eq_ok_iff.1 (hfront earlier he)
    · cases h
  -- all that comes before the constant passes, so the check gets to it
  · rintro ⟨name, ⟨_, front, back, -, hlinks, hnames, hconstants, hkeys, hfront⟩, hsettles⟩
    obtain ⟨violation, hname, hrunaway⟩ := checkConstant_isRunaway_iff.2 hsettles
    refine ⟨violation, ?_, hrunaway⟩
    rw [hlinks, Except.ok_bind, hnames, Except.ok_bind, if_pos hconstants]
    exact List.forM_eq_error_iff.2 ⟨front, name, back, hkeys,
      fun earlier he => checkConstant_eq_ok_iff.2 (hfront earlier he), hname⟩

/-- Where a component that the check `Visits` does not pass, the whole check ends. -/
theorem Visits.checkWithin_eq_error (h : tree.Visits options levels c) {violation : Violation κ}
    (hc : tree.checkWithin options levels c = .error violation) :
    tree.checkWithin options tree.size tree.root = .error violation := by
  -- up along the visits: the entry ends the check of the network around it
  induction h with
  | root => exact hc
  | @child levels c children front back name inst _ hdeclared hbody hentries hfront hinst ih =>
    have hne : children.isEmpty = false := by
      rw [NameMap.isEmpty, hentries]
      simp
    have hentry : tree.checkEntry options levels c (name, inst) = .error violation := by
      rw [checkEntry, hinst, Except.ok_bind, hc]
      rfl
    refine ih ?_
    rw [checkWithin_of_network hbody hne, hdeclared, Except.ok_bind]
    exact List.forM_eq_error_iff.2 ⟨front, _, back, hentries, hfront, hentry⟩

/-- Where the check of the entries of a network runs away, it `Visits` a component below the network
and runs away there. -/
theorem Visits.exists_child_of_isRunaway {children : NameMap Instance} {violation : Violation κ}
    (hvisits : tree.Visits options (levels + 1) c)
    (hdeclared : tree.checkDeclarations options c = .ok ())
    (hbody : (tree.get c).body = .network children)
    (hentries : children.entries.forM (tree.checkEntry options levels c) = .error violation)
    (hrunaway : violation.IsRunaway) :
    ∃ entry ∈ (tree.get c).children.entries, tree.Visits options levels entry.2.child ∧
      tree.checkWithin options levels entry.2.child = .error violation := by
  -- the first entry that does not pass
  obtain ⟨front, ⟨name, inst⟩, back, hsplit, hfront, hentry⟩ := List.forM_eq_error_iff.1 hentries
  refine ⟨(name, inst), mem_children_of_append hbody hsplit, ?_⟩
  -- bindings and the name of the entry never run away, so the component does
  rcases Except.bind_eq_error_iff.1 hentry with h | ⟨_, hinst, h⟩
  · exact absurd hrunaway.isRecursive (tree.checkInstance_avoids options c inst _ h)
  rcases Except.bind_eq_error_iff.1 h with hbelow | ⟨_, -, h⟩
  · exact ⟨.child hvisits hdeclared hbody hsplit hfront hinst, hbelow⟩
  · dsimp only at h
    split at h
    · cases h
      exact absurd hrunaway not_false
    · cases h

/-- Below a component that the check `Visits`, it runs away only if it looks up a constant that does
not settle. -/
theorem exists_looksUp_of_isRunaway (hvisits : tree.Visits options levels c)
    (hl : tree.Covers levels c) {violation : Violation κ}
    (hc : tree.checkWithin options levels c = .error violation) (hrunaway : violation.IsRunaway) :
    ∃ d name, tree.LooksUp options d name ∧ ¬ tree.Settles d name := by
  -- induction on the levels: the declarations run away, or the check of an entry does
  induction levels generalizing c with
  | zero => exact absurd hl (not_covers_zero tree c)
  | succ levels ih =>
    cases hdeclared : tree.checkDeclarations options c with
    | error cause =>
      rw [checkWithin, hdeclared] at hc
      cases hc
      obtain ⟨name, hname⟩ := (checkDeclarations_isRunaway_iff hvisits).1 ⟨_, hdeclared, hrunaway⟩
      exact ⟨c, name, hname⟩
    | ok =>
    cases hb : (tree.get c).body with
    | base automaton =>
      rw [checkWithin, hdeclared, Except.ok_bind] at hc
      simp only [hb] at hc
      exact absurd hrunaway.isRecursive ((tree.get c).checkAutomaton_avoids automaton _ hc)
    | network children =>
      cases hempty : children.isEmpty with
      | true =>
        rw [checkWithin, hdeclared, Except.ok_bind] at hc
        simp only [hb, hempty] at hc
        cases hc
        exact absurd hrunaway not_false
      | false =>
        rw [checkWithin_of_network hb hempty, hdeclared, Except.ok_bind] at hc
        obtain ⟨entry, he, hchild, hbelow⟩ :=
          hvisits.exists_child_of_isRunaway hdeclared hb hc hrunaway
        exact ih hchild (hl.child he) hbelow

/-- `checkWithin` of a `Nested` tree runs away if and only if it looks up a constant that does not
settle. -/
theorem checkWithin_isRunaway_iff (h : tree.Nested) :
    (∃ violation, tree.checkWithin options tree.size tree.root = .error violation ∧
      violation.IsRunaway) ↔
      ∃ c name, tree.LooksUp options c name ∧ ¬ tree.Settles c name := by
  constructor
  · rintro ⟨violation, hroot, hrunaway⟩
    exact exists_looksUp_of_isRunaway .root h.covers hroot hrunaway
  · rintro ⟨c, name, hlooks, hsettles⟩
    -- the check gets to the component and ends there
    have ⟨levels, _, _, hvisits, _⟩ := hlooks
    obtain ⟨violation, hdeclared, hrunaway⟩ :=
      (checkDeclarations_isRunaway_iff hvisits).2 ⟨name, hlooks, hsettles⟩
    refine ⟨violation, hvisits.checkWithin_eq_error ?_, hrunaway⟩
    rw [checkWithin, hdeclared]
    rfl

/-! ## Checks that do not run away -/

/-- Every component bears the name of the entry that leads to it. -/
def BearsEntryNames (tree : Tree κ) : Prop :=
  ∀ c, tree.Reachable c → ∀ entry ∈ (tree.get c).children.entries,
    (tree.get entry.2.child).instanceName = some entry.1

/-- `BearsEntryNames` can be read off the arena. -/
theorem BearsEntryNames.of_arena (h : ∀ i < tree.size, ∀ entry ∈ (tree.get ⟨i⟩).children.entries,
    (tree.get entry.2.child).instanceName = some entry.1) : tree.BearsEntryNames :=
  fun c _ entry he => h c.index (index_lt_of_mem_children he) entry he

/-- What a check `Visits` is `Reachable`. -/
theorem Visits.reachable (h : tree.Visits options levels c) : tree.Reachable c := by
  induction h with
  | root => exact tree.reachable_root
  | child _ _ hbody hentries _ _ ih => exact ih.child (mem_children_of_append hbody hentries)

/-- When the links of an entry have passed and its component bears its name, the entry is `LinkOk`.
-/
theorem BearsEntryNames.linkOk (h : tree.BearsEntryNames) (hc : tree.Reachable c) {inst : Instance}
    (he : (name, inst) ∈ (tree.get c).children.entries)
    (hinst : tree.checkInstance options c inst = .ok ()) : tree.LinkOk c name inst := by
  obtain ⟨hparent, hchildParent⟩ := parents_of_checkInstance hinst
  exact ⟨hparent, hchildParent, h c hc _ he⟩

/-- `next?` leads from a component that the check `Visits` up to the network that holds it, which
the check has visited before. -/
theorem Visits.of_next? (h : tree.Visits options levels c) (hnames : tree.BearsEntryNames)
    (hroot : tree.rootComponent.parent = none) {outer : String}
    (hnext : tree.next? (c, name) = some (b, outer)) :
    tree.Visits options (levels + 1) b ∧
      ∃ entry ∈ (tree.get b).children.entries, entry.2.child = c := by
  cases h with
  | root => exact absurd hnext (next?_ne_some_of_parent_eq_none hroot)
  | child hvisits _ hbody hentries _ hinst =>
    have he := mem_children_of_append hbody hentries
    obtain rfl := (hnames.linkOk hvisits.reachable he hinst).eq_of_next? he hnext
    exact ⟨hvisits, _, he, rfl⟩

/-- All look-ups of a check settle, if every component bears the name of its entry. -/
theorem Visits.settles (h : tree.Visits options levels c) (hnames : tree.BearsEntryNames)
    (hroot : tree.rootComponent.parent = none) (name : String) : tree.Settles c name := by
  -- along the visits: a look-up goes up to where the check has come from
  induction h generalizing name with
  | root =>
    exact .of_next? fun b outer hnext => absurd hnext (next?_ne_some_of_parent_eq_none hroot)
  | child hvisits _ hbody hentries _ hinst ih =>
    have he := mem_children_of_append hbody hentries
    refine .of_next? fun b outer hnext => ?_
    obtain rfl := (hnames.linkOk hvisits.reachable he hinst).eq_of_next? he hnext
    exact ih outer

end Tree

end HybridAutomata
