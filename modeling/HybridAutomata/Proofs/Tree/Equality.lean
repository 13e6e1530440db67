import HybridAutomata.Proofs.Component.Equality
import HybridAutomata.Proofs.Tree.Climb
import HybridAutomata.Proofs.Tree.Relabel
import HybridAutomata.Proofs.Tree.Visits
/-!
# Equality of trees

A comparison walks down the left tree and looks for an instance of the same name in the right one.
It asks that networks have equally many instances, so nothing on the right goes unseen: two trees
are equal if and only if the same names lead down from their roots, to components that agree and
through instances that bind alike. What handles there are, what else the arenas hold and how
instances are ordered cannot be told from this, so none of it matters.

* `sameWithin_iff`       what a comparison establishes
* `SameShape.symm`, `SameShape.trans`   it is an equivalence
* `LaidOut.sameShape_iff`   it does not see how a tree is laid out
* `equality_forgets_layout_only`   all of this for `==`
-/

namespace HybridAutomata

variable {κ : Type}

namespace Tree

/-- The same names lead down from two components, to components that agree and through instances
with the same bindings. -/
structure SameBelow [Scalar κ] (left right : Tree κ) (c d : Handle) : Prop where
  paths : ∀ names, (left.follow c names).isSome = (right.follow d names).isSome
  components : ∀ names c' d', left.follow c names = some c' → right.follow d names = some d' →
    (left.get c').Agrees (right.get d')
  instances : ∀ names name c' d' inst inst', left.follow c names = some c' →
    right.follow d names = some d' → left.childNamed? c' name = some inst →
      right.childNamed? d' name = some inst' → inst.BindsAlike inst'

/-- Two trees have the same paths, with components that agree and instances with the same bindings.
-/
def SameShape [Scalar κ] (left right : Tree κ) : Prop :=
  left.SameBelow right left.root right.root

/-- A tree with consistent links is not deeper than its arena. -/
theorem Linked.nested {tree : Tree κ} (h : tree.Linked) : tree.Nested where
  bounded := ⟨tree.size, h.covers tree.reachable_root⟩
  index_lt _ hc := h.index_lt hc

/-- No number in a component that can be reached differs from itself. -/
def NumbersEqualThemselves [Scalar κ] (tree : Tree κ) : Prop :=
  ∀ c, tree.Reachable c → ∀ x ∈ (tree.get c).numbers, Scalar.eq x x = true

/-! ## The comparison -/

section

variable [Scalar κ] {left right last : Tree κ} {c d e : Handle} {levels : Nat}

/-- One step of `sameWithin`: the components agree and their instances correspond, name by name. -/
theorem sameWithin_succ_iff :
    left.sameWithin right (levels + 1) c d = true ↔
      (left.get c).Agrees (right.get d) ∧ (left.get c).children.Related
        (fun inst inst' => inst.BindsAlike inst' ∧
          left.sameWithin right levels inst.child inst'.child = true) (right.get d).children := by
  -- a comparison of bindings goes through the three kinds of names
  have hbinds (inst inst' : Instance) :
      inst.sameBindings inst' = true ↔ inst.BindsAlike inst' := by
    simp only [Instance.sameBindings, Bool.and_eq_true, beq_iff_eq]
    exact ⟨fun h kind => by cases kind; exacts [h.1.1, h.1.2, h.2],
      fun h => ⟨⟨h .var, h .const⟩, h .label⟩⟩
  rw [sameWithin, Bool.and_eq_true, Component.agrees_iff, and_assoc]
  refine and_congr_right fun _ => ?_
  rw [Component.isBase, Component.isBase, Component.automaton?, Component.automaton?,
    Component.children, Component.children, Component.network?, Component.network?]
  -- only two networks have instances to compare
  cases (left.get c).body <;> cases (right.get d).body
  · -- an automaton has no instances
    simp
  · simp
  · simp
  · simp [NameMap.same_iff_related, hbinds]

omit [Scalar κ] in
/-- `follow` along a name that leads to an instance goes on from the child of the instance. -/
theorem follow_cons_of_childNamed? {tree : Tree κ} {name : String} {inst : Instance}
    (hi : tree.childNamed? c name = some inst) (rest : List String) :
    tree.follow c (name :: rest) = tree.follow inst.child rest := by
  rw [follow, hi, Option.bind_some]

/-- `SameBelow` passes from two components to the children of instances of one name. -/
theorem SameBelow.child (h : left.SameBelow right c d) {name : String} {inst inst' : Instance}
    (hi : left.childNamed? c name = some inst) (hi' : right.childNamed? d name = some inst') :
    left.SameBelow right inst.child inst'.child := by
  have hleft := follow_cons_of_childNamed? hi
  have hright := follow_cons_of_childNamed? hi'
  refine ⟨fun names => ?_, fun names c' d' hc hd => ?_, fun names own c' d' i i' hc hd => ?_⟩
  · rw [← hleft, ← hright]
    exact h.paths _
  · exact h.components _ c' d' (hleft names ▸ hc) (hright names ▸ hd)
  · exact h.instances _ own c' d' i i' (hleft names ▸ hc) (hright names ▸ hd)

/-- Where a way leads somewhere in the left tree, it does so in the right tree of a `SameBelow`. -/
theorem SameBelow.exists_right (h : left.SameBelow right c d) {names : List String} {c' : Handle}
    (hc : left.follow c names = some c') : ∃ d', right.follow d names = some d' := by
  rw [← Option.isSome_iff_exists, ← h.paths names, hc]
  rfl

/-- `SameBelow`, unfolded by one level: the components `Agrees` and their children correspond by
name. -/
theorem sameBelow_iff :
    left.SameBelow right c d ↔
      (left.get c).Agrees (right.get d) ∧ (left.get c).children.Related
        (fun inst inst' => inst.BindsAlike inst' ∧ left.SameBelow right inst.child inst'.child)
        (right.get d).children := by
  constructor
  · intro h
    refine ⟨h.components [] c d rfl rfl, fun name => ?_⟩
    have hpath := h.paths [name]
    rw [follow, follow] at hpath
    change Option.Rel _ (left.childNamed? c name) (right.childNamed? d name)
    cases hi : left.childNamed? c name <;> cases hi' : right.childNamed? d name
    case none.none => exact .none
    case some.some inst inst' =>
      exact .some ⟨h.instances [] name c d inst inst' rfl rfl hi hi', h.child hi hi'⟩
    -- an instance on one side only would be a way on one side only
    all_goals simp [hi, hi'] at hpath
  · rintro ⟨hagrees, hchildren⟩
    -- a way is empty, or goes on from two instances that correspond
    have hway (name : String) :
        (∀ rest, left.follow c (name :: rest) = none ∧ right.follow d (name :: rest) = none) ∨
          ∃ inst inst' : Instance, left.SameBelow right inst.child inst'.child ∧
            ∀ rest, left.follow c (name :: rest) = left.follow inst.child rest ∧
              right.follow d (name :: rest) = right.follow inst'.child rest := by
      rcases hchildren.cases name with ⟨hl, hr⟩ | ⟨inst, inst', hl, hr, -, hbelow⟩
      · refine .inl fun rest => ?_
        rw [follow, follow, childNamed?, childNamed?, hl, hr]
        exact ⟨rfl, rfl⟩
      · exact .inr ⟨inst, inst', hbelow, fun rest =>
          ⟨follow_cons_of_childNamed? hl rest, follow_cons_of_childNamed? hr rest⟩⟩
    -- each of the three parts, for an empty way and for one that has a first name
    refine ⟨fun names => ?_, fun names c' d' hc hd => ?_,
      fun names own c' d' i i' hc hd hi hi' => ?_⟩
    · rcases names with _ | ⟨name, rest⟩
      · rfl
      · rcases hway name with hnone | ⟨inst, inst', hbelow, hrest⟩
        · rw [(hnone rest).1, (hnone rest).2]
        · rw [(hrest rest).1, (hrest rest).2]
          exact hbelow.paths rest
    · rcases names with _ | ⟨name, rest⟩
      · cases hc
        cases hd
        exact hagrees
      · rcases hway name with hnone | ⟨inst, inst', hbelow, hrest⟩
        · cases (hnone rest).1.symm.trans hc
        · rw [(hrest rest).1] at hc
          rw [(hrest rest).2] at hd
          exact hbelow.components rest c' d' hc hd
    · rcases names with _ | ⟨name, rest⟩
      · cases hc
        cases hd
        exact (hchildren.of_get? hi hi').1
      · rcases hway name with hnone | ⟨inst, inst', hbelow, hrest⟩
        · cases (hnone rest).1.symm.trans hc
        · rw [(hrest rest).1] at hc
          rw [(hrest rest).2] at hd
          exact hbelow.instances rest own c' d' i i' hc hd hi hi'

/-- With enough levels (`Covers`) the function `sameWithin` decides `SameBelow`. -/
theorem sameWithin_iff (h : left.Covers levels c) :
    left.sameWithin right levels c d = true ↔ left.SameBelow right c d := by
  induction levels generalizing c d with
  | zero => exact absurd h (not_covers_zero left c)
  | succ levels ih =>
    -- below the component there is one level less to compare
    rw [sameWithin_succ_iff, sameBelow_iff]
    refine and_congr_right fun _ => NameMap.related_congr fun entry he inst' => ?_
    exact and_congr_right fun _ => ih (h.child he)

theorem beq_iff_sameShape (h : left.Nested) : (left == right) = true ↔ left.SameShape right :=
  sameWithin_iff h.covers

/-! ## An equivalence -/

/-- A tree has the same shape as itself if its numbers satisfy `NumbersEqualThemselves`. -/
theorem SameShape.refl {tree : Tree κ} (h : tree.NumbersEqualThemselves) : tree.SameShape tree where
  paths _ := rfl
  components names c d hc hd := by
    obtain rfl := Option.some.inj (hc.symm.trans hd)
    exact .refl (h c ⟨names, hc⟩)
  instances names name c d inst inst' hc hd hi hi' := by
    obtain rfl := Option.some.inj (hc.symm.trans hd)
    obtain rfl := Option.some.inj (hi.symm.trans hi')
    exact fun _ => rfl

variable [Scalar.Comparable κ]

/-- `SameBelow` can be read from right to left. -/
theorem SameBelow.symm (h : left.SameBelow right c d) : right.SameBelow left d c where
  paths names := (h.paths names).symm
  components names c' d' hc hd := (h.components names d' c' hd hc).symm
  instances names name c' d' inst inst' hc hd hi hi' :=
    (h.instances names name d' c' inst' inst hd hc hi' hi).symm

/-- `SameBelow` is transitive. -/
theorem SameBelow.trans (h : left.SameBelow right c d) (h' : right.SameBelow last d e) :
    left.SameBelow last c e where
  paths names := (h.paths names).trans (h'.paths names)
  components names c' e' hc he := by
    obtain ⟨d', hd⟩ := h.exists_right hc
    exact (h.components names c' d' hc hd).trans (h'.components names d' e' hd he)
  instances names name c' e' inst inst' hc he hi hi' := by
    obtain ⟨d', hd⟩ := h.exists_right hc
    -- a component in the middle, and the instance of the same name that leads to it
    have hway : left.follow c (names ++ [name]) = some inst.child :=
      follow_concat_iff.2 ⟨c', inst, hc, NameMap.get?_eq_some_iff.1 hi, rfl⟩
    obtain ⟨child, hchild⟩ := h.exists_right hway
    obtain ⟨b, middle, hb, hentry, -⟩ := follow_concat_iff.1 hchild
    obtain rfl := Option.some.inj (hd.symm.trans hb)
    have hmiddle : right.childNamed? d' name = some middle := NameMap.get?_eq_some_iff.2 hentry
    exact fun kind => (h.instances names name c' d' inst middle hc hd hi hmiddle kind).trans
      (h'.instances names name d' e' middle inst' hd he hmiddle hi' kind)

end

/-! ## Layouts -/

/-- A tree and the same one in another layout: its components have other handles, its arena holds
other components that cannot be reached, or the instances of a network come in another order. -/
inductive Relaid : Tree κ → Tree κ → Prop where
  /-- Every component of the arena has a place in the other one. -/
  | renumbered {tree tree' : Tree κ} (f : Handle → Handle) (hroot : tree'.root = f tree.root)
    (hplaces : ∀ c, c.index < tree.size →
      (f c).index < tree'.size ∧ tree'.get (f c) = (tree.get c).relabel f) : Relaid tree tree'
  /-- The arenas differ in components that cannot be reached. -/
  | detached {tree tree' : Tree κ} (hroot : tree'.root = tree.root)
    (hsame : ∀ c, tree.Reachable c → c.index < tree'.size ∧ tree'.get c = tree.get c) :
    Relaid tree tree'
  /-- The instances of a network come in another order. -/
  | reordered {tree : Tree κ} (c : Handle) (order : NameMap Instance → NameMap Instance)
    (horder : ∀ map, (order map).entries.Perm map.entries) :
    Relaid tree (tree.modify c fun component => component.mapChildren order)

section

variable {tree tree' other : Tree κ} {f : Handle → Handle} {c d : Handle}

/-- One step of `Relaid` makes the new tree `LaidOut` by some renaming of handles, inside its arena.
-/
theorem Relaid.exists_laidOut (h : tree.Relaid tree') (htree : tree.Nested) :
    ∃ f, tree.LaidOut tree' f ∧ ∀ c, tree.Reachable c → (f c).index < tree'.size := by
  have hid (component : Component κ) : component.relabel id = component :=
    Component.relabel_eq_self (Option.map_id_apply ..) fun _ _ => rfl
  -- each kind of step names its own renaming and its own order of instances
  cases h with
  | renumbered f hroot hplaces =>
    refine ⟨f, ⟨hroot, fun c hc => ⟨id, fun _ => .refl _, ?_⟩⟩, fun c hc => ?_⟩
    · rw [Component.mapChildren_id]
      exact (hplaces c (htree.index_lt c hc)).2
    · exact (hplaces c (htree.index_lt c hc)).1
  | detached hroot hsame =>
    refine ⟨id, ⟨hroot, fun c hc => ⟨id, fun _ => .refl _, ?_⟩⟩, fun c hc => (hsame c hc).1⟩
    rw [Component.mapChildren_id, hid]
    exact (hsame c hc).2
  | reordered b order horder =>
    refine ⟨id, ⟨rfl, fun c hc => ?_⟩, fun c hc => ?_⟩
    · rw [hid]
      -- only the network whose instances move is different
      by_cases hcb : c = b
      · subst hcb
        exact ⟨order, horder, get_modify_self (htree.index_lt c hc) _⟩
      · refine ⟨id, fun _ => .refl _, ?_⟩
        rw [Component.mapChildren_id]
        exact get_modify_of_ne hcb _
    · rw [size_modify]
      exact htree.index_lt c hc

/-- A tree that is `LaidOut` in another arena stays `Nested`: its ways are the ways of the other
tree. -/
theorem LaidOut.nested (h : tree.LaidOut tree' f)
    (hlt : ∀ c, tree.Reachable c → (f c).index < tree'.size) (htree : tree.Nested) :
    tree'.Nested where
  -- the ways of the new arena are those of the old one
  bounded := by
    obtain ⟨levels, hcovers⟩ := htree.bounded
    refine ⟨levels, fun names d hd => ?_⟩
    rw [h.follow_root_eq] at hd
    obtain ⟨c, hc, -⟩ := Option.map_eq_some_iff.1 hd
    exact hcovers names c hc
  index_lt d hd := by
    obtain ⟨c, hc, rfl⟩ := h.exists_of_reachable hd
    exact hlt c hc

variable [Scalar κ]

/-- `Agrees` does not see handles and the order of instances, so it holds of a component just if it
holds of its place in a tree that is `LaidOut` by `f`. -/
theorem LaidOut.agrees_iff (h : tree.LaidOut tree' f) (hc : tree.Reachable c)
    {component : Component κ} :
    (tree'.get (f c)).Agrees component ↔ (tree.get c).Agrees component := by
  obtain ⟨order, -, hget⟩ := h.get c hc
  rw [hget]
  rcases tree.get c with ⟨_, _, _, _, _, _, _ | _⟩ <;> constructor <;>
    exact fun ha => ⟨ha.kind, ha.instanceName, ha.vars, ha.constants, ha.labels, ha.template,
      ha.automaton⟩

/-- `SameShape` does not see that a tree is `LaidOut` in another arena. -/
theorem LaidOut.sameShape_iff (h : tree.LaidOut tree' f) :
    tree'.SameShape other ↔ tree.SameShape other := by
  have hway {names : List String} {c : Handle} (hc : tree.follow tree.root names = some c) :
      tree'.follow tree'.root names = some (f c) := by
    rw [h.follow_root_eq, hc]
    rfl
  have hchild {names : List String} {c : Handle} (hc : tree.follow tree.root names = some c)
      (name : String) := h.childNamed?_eq ⟨names, hc⟩ name
  -- every way of the new tree is one of the old tree, with the same instances on it
  constructor
  · intro hshape
    refine ⟨fun names => ?_, fun names c d hc hd => ?_,
      fun names name c d inst inst' hc hd hi hi' => ?_⟩
    · rw [← hshape.paths, h.follow_root_eq, Option.isSome_map]
    · exact (h.agrees_iff ⟨names, hc⟩).1 (hshape.components names _ d (hway hc) hd)
    · have hi := hchild hc name |>.trans (congrArg _ hi)
      have hbinds := hshape.instances names name _ d _ inst' (hway hc) hd hi hi'
      exact fun kind => (inst.bindings_relabel f kind).symm.trans (hbinds kind)
  · intro hshape
    refine ⟨fun names => ?_, fun names c' d hc' hd => ?_,
      fun names name c' d inst inst' hc' hd hi hi' => ?_⟩
    · rw [h.follow_root_eq, Option.isSome_map]
      exact hshape.paths names
    all_goals
      rw [h.follow_root_eq] at hc'
      obtain ⟨c, hc, rfl⟩ := Option.map_eq_some_iff.1 hc'
    · exact (h.agrees_iff ⟨names, hc⟩).2 (hshape.components names c d hc hd)
    · rw [hchild hc] at hi
      obtain ⟨own, ho, rfl⟩ := Option.map_eq_some_iff.1 hi
      exact fun kind => (own.bindings_relabel f kind).trans
        (hshape.instances names name c d own inst' hc hd ho hi' kind)

/-- Along any chain of `Relaid` steps a tree stays `Nested`, and `SameShape` does not notice. -/
theorem sameShape_iff_of_relaid (h : Relation.ReflTransGen Relaid tree tree')
    (htree : tree.Nested) :
    tree'.Nested ∧ (tree'.SameShape other ↔ tree.SameShape other) := by
  -- induction on the chain; the ways stay bounded, which each step needs
  induction h with
  | refl => exact ⟨htree, Iff.rfl⟩
  | tail _ hstep ih =>
    obtain ⟨f, hlaid, hlt⟩ := hstep.exists_laidOut ih.1
    exact ⟨hlaid.nested hlt ih.1, hlaid.sameShape_iff.trans ih.2⟩

end

/-- Equality of trees whose ways down are bounded is an equivalence, if no number differs from
itself. It does not change with the layout of a tree, and says that the two have the same paths,
with components that agree and instances with the same bindings. -/
theorem equality_forgets_layout_only [Scalar κ] [Scalar.Comparable κ] {a a' b c : Tree κ}
    (ha : a.Nested) (hb : b.Nested) (hnumbers : a.NumbersEqualThemselves)
    (hlayout : Relation.ReflTransGen Relaid a a') :
    (a == a) = true ∧ (a == b) = (b == a) ∧
      ((a == b) = true → (b == c) = true → (a == c) = true) ∧
      (a' == b) = (a == b) ∧ (b == a') = (b == a) ∧
      ((a == b) = true ↔ a.SameShape b) := by
  obtain ⟨ha', hshape⟩ := sameShape_iff_of_relaid hlayout ha
  -- what is said about the right-hand side follows by symmetry
  have hsymm {left right : Tree κ} (hl : left.Nested) (hr : right.Nested) :
      (left == right) = (right == left) := by
    rw [Bool.eq_iff_iff, beq_iff_sameShape hl, beq_iff_sameShape hr]
    exact ⟨SameBelow.symm, SameBelow.symm⟩
  have hleft : (a' == b) = (a == b) := by
    rw [Bool.eq_iff_iff, beq_iff_sameShape ha', beq_iff_sameShape ha, hshape]
  refine ⟨?_, hsymm ha hb, fun hab hbc => ?_, hleft, ?_, beq_iff_sameShape ha⟩
  · exact (beq_iff_sameShape ha).2 (.refl hnumbers)
  · rw [beq_iff_sameShape ha] at hab ⊢
    exact hab.trans ((beq_iff_sameShape hb).1 hbc)
  · rw [hsymm hb ha', hsymm hb ha, hleft]

/-- A row of two switches, with a spare one or without, in the order in which they come in the
arena. -/
def switches : Tree Int where
  components := #[
    { body := .network (.ofList [
        ("left", { parent := ⟨0⟩, child := ⟨1⟩ }), ("right", { parent := ⟨0⟩, child := ⟨2⟩ })]) },
    switch ⟨0⟩ "left", switch ⟨0⟩ "right"]
  root := ⟨0⟩
where
  /-- A switch that goes off by itself. -/
  switch (row : Handle) (name : String) : Component Int :=
    { parent := some row
      instanceName := some name
      vars := ["t"]
      constants := .ofList [("delay", some (.point 3))]
      body := .base {
        modes := .ofList [("on", {
          name := "on"
          invariant := .binary .lessEqual (.var "t") (.const 3)
          urgent := false
          flows := some (.ofList [("t", { expr := .const 1 })]) })]
        transitions := [] } }

/-- The same switches from the last place of another arena, which also holds a spare one. -/
def movedSwitches : Tree Int where
  components := #[
    switches.switch ⟨3⟩ "right", switches.switch ⟨3⟩ "spare", switches.switch ⟨3⟩ "left",
    { body := .network (.ofList [
        ("left", { parent := ⟨3⟩, child := ⟨2⟩ }), ("right", { parent := ⟨3⟩, child := ⟨0⟩ })]) }]
  root := ⟨3⟩

/-- Instances in reverse. -/
def reversed (children : NameMap Instance) : NameMap Instance :=
  ⟨children.entries.reverse, by
    rw [List.map_reverse, List.nodup_reverse]
    exact children.nodup_keys⟩

/-- The switches are equal to themselves in whatever way they are moved. -/
theorem equality_of_moved_switches :
    (switches == switches) = true ∧ (switches == movedSwitches) = (movedSwitches == switches) ∧
      ((switches == movedSwitches) = true → (movedSwitches == switches) = true →
        (switches == switches) = true) ∧
      ((movedSwitches.modify ⟨3⟩ fun row => row.mapChildren reversed) == movedSwitches) =
        (switches == movedSwitches) ∧
      (movedSwitches == movedSwitches.modify ⟨3⟩ fun row => row.mapChildren reversed) =
        (movedSwitches == switches) ∧
      ((switches == movedSwitches) = true ↔ switches.SameShape movedSwitches) := by
  have hnested : switches.Nested :=
    (AllLinked.of_arena (by decide) (by decide) (by decide +kernel)).linked.nested
  have hmoved : movedSwitches.Nested :=
    (AllLinked.of_arena (by decide) (by decide) (by decide +kernel)).linked.nested
  have hrenumbered : Relaid switches movedSwitches := by
    -- the switches trade places, and the row comes last
    refine .renumbered (fun c => ⟨[3, 2, 0].getD c.index 0⟩) rfl fun c hc => ?_
    obtain ⟨_ | _ | _ | i⟩ := c
    · exact ⟨by decide, rfl⟩
    · exact ⟨by decide, rfl⟩
    · exact ⟨by decide, rfl⟩
    · exact absurd hc (Nat.not_lt.2 (Nat.le_add_left 3 i))
  have hreordered : movedSwitches.Relaid
      (movedSwitches.modify ⟨3⟩ fun row => row.mapChildren reversed) :=
    .reordered ⟨3⟩ reversed fun map => List.reverse_perm map.entries
  exact equality_forgets_layout_only hnested hmoved (fun c _ x _ => (lawful_int.eq_iff x x).2 rfl)
    (.tail (.single hrenumbered) hreordered)

end Tree

end HybridAutomata
