import HybridAutomata.Proofs.Component.Alike
import HybridAutomata.Proofs.ForStd.List
import HybridAutomata.Proofs.Scalar.Integer
/-!
# Equality of components

What is compared by `==` is compared symmetrically and transitively, if numbers are. Where no number
differs from itself, nothing does.

* `Scalar.Comparable`         what is asked of the equality of numbers
* `Automaton.beq_self`        an automaton equals itself if its numbers do
* `Component.Agrees`          what a comparison of trees asks of two components
-/

namespace HybridAutomata

/-- A number domain whose equality is symmetric and transitive. A number may differ from itself. -/
class Scalar.Comparable (κ : Type) [Scalar κ] : Prop where
  symm : ∀ {x y : κ}, Scalar.eq x y = true → Scalar.eq y x = true
  trans : ∀ {x y z : κ}, Scalar.eq x y = true → Scalar.eq y z = true → Scalar.eq x z = true

/-- `Lawful` equality is identity, so numbers are `Comparable`. -/
theorem Scalar.Lawful.comparable {κ : Type} [Scalar κ] (h : Scalar.Lawful κ) :
    Scalar.Comparable κ where
  symm hxy := (h.eq_iff ..).2 ((h.eq_iff ..).1 hxy).symm
  trans hxy hyz := (h.eq_iff ..).2 (((h.eq_iff ..).1 hxy).trans ((h.eq_iff ..).1 hyz))

instance : Scalar.Comparable Int := lawful_int.comparable

variable {κ : Type}

/-! ## Numbers -/

/-- The bounds of an interval. -/
def Interval.numbers (interval : Interval κ) : List κ :=
  [interval.lower, interval.upper]

/-- The numbers that occur in an expression. -/
def Expr.numbers (e : Expr κ) : List κ :=
  e.nodes.filterMap fun node =>
    match node with
    | .const value => some value
    | _ => none

/-- The numbers that occur in an update. -/
def Update.numbers (update : Update κ) : List κ :=
  update.expr.numbers ++ update.disturbance.toList.flatMap Interval.numbers

/-- The numbers that occur in the invariant and the flows of a mode. -/
def Mode.numbers (mode : Mode κ) : List κ :=
  mode.invariant.numbers ++ mode.flowMap.values.flatMap Update.numbers

/-- The numbers that occur in the guard and the resets of a transition. -/
def Transition.numbers (transition : Transition κ) : List κ :=
  transition.guard.numbers ++ transition.resets.values.flatMap Update.numbers

/-- The numbers that occur in modes and transitions. -/
def Automaton.numbers (automaton : Automaton κ) : List κ :=
  automaton.modes.values.flatMap Mode.numbers ++ automaton.transitions.flatMap Transition.numbers

/-- The numbers that occur in the values of constants and in the automaton, if there is one. -/
def Component.numbers (component : Component κ) : List κ :=
  (component.constants.values.flatMap fun value => value.toList.flatMap Interval.numbers) ++
    component.automaton?.toList.flatMap Automaton.numbers

/-! ## Expressions -/

section

variable [Scalar κ]

namespace Expr

/-- Operations are compared operand by operand. -/
theorem apply_beq_apply_iff {op op' : Operator} {operands operands' : List (Expr κ)} :
    (apply op operands == apply op' operands') = true ↔
      op = op' ∧ List.Forall₂ (fun e e' => (e == e') = true) operands operands' := by
  change beq _ _ = true ↔ _
  rw [beq, Bool.and_eq_true, beq_iff_eq, beqAll_iff]
  rfl

omit [Scalar κ] in
/-- `numbers` are the constants among the nodes of an expression. -/
theorem mem_numbers_iff {e : Expr κ} {x : κ} : x ∈ e.numbers ↔ const x ∈ e.preorder := by
  rw [numbers, nodes_eq, List.mem_filterMap]
  constructor
  · rintro ⟨node, hn, hx⟩
    cases node with
    | const value => exact Option.some.inj hx ▸ hn
    | bool => cases hx
    | var => cases hx
    | apply => cases hx
  · exact fun h => ⟨_, h, rfl⟩

omit [Scalar κ] in
/-- An operation has the `numbers` of its operands and none of its own. -/
theorem mem_numbers_apply {op : Operator} {operands : List (Expr κ)} {x : κ} :
    x ∈ (apply op operands).numbers ↔ ∃ e ∈ operands, x ∈ e.numbers := by
  simp [mem_numbers_iff, preorder, preorderAll_eq_flatMap]

/-- An expression equals itself if its numbers do. -/
theorem beq_self {e : Expr κ} (h : ∀ x ∈ e.numbers, Scalar.eq x x = true) : (e == e) = true := by
  -- induction on the expression, since the numbers of operands are among those of the operation
  induction e using induct with
  | bool value => exact beq_self_eq_true value
  | const value => exact h value (by simp [mem_numbers_iff, preorder])
  | var name => exact beq_self_eq_true name
  | apply op operands ih =>
    rw [apply_beq_apply_iff, List.forall₂_same]
    exact ⟨rfl, fun e he => ih e he fun x hx => h x (mem_numbers_apply.2 ⟨e, he, hx⟩)⟩

instance [Scalar.Comparable κ] : PartialEquivBEq (Expr κ) where
  symm {e e'} h := by
    -- equal expressions are made alike, and operands correspond by their places
    induction e using induct generalizing e' with
    | bool | var => cases e' <;> change beq _ _ = true at h ⊢ <;> simp_all [beq]
    | const value =>
      cases e' <;> change beq _ _ = true at h ⊢ <;> simp_all [beq]
      exact Scalar.Comparable.symm h
    | apply op operands ih =>
      cases e' with
      | apply op' operands' =>
        rw [apply_beq_apply_iff] at h ⊢
        have hflip := (List.forall₂_and_left operands operands').2 ⟨fun e he => @ih e he, h.2⟩
        exact ⟨h.1.symm, hflip.flip.imp fun _ _ hboth => hboth.1 hboth.2⟩
      | _ => cases h
  trans {e e' e''} h h' := by
    -- the expression in the middle has the head of the other two
    induction e using induct generalizing e' e'' with
    | bool | var =>
      cases e' <;> cases e'' <;> change beq _ _ = true at h h' ⊢ <;> simp_all [beq]
    | const value =>
      cases e' <;> cases e'' <;> change beq _ _ = true at h h' ⊢ <;> simp_all [beq]
      exact Scalar.Comparable.trans h h'
    | apply op operands ih =>
      cases e' with
      | apply op' operands' =>
        cases e'' with
        | apply op'' operands'' =>
          rw [apply_beq_apply_iff] at h h' ⊢
          exact ⟨h.1.trans h'.1, List.forall₂_trans h.2 h'.2 fun e he _ _ => ih e he⟩
        | _ => cases h'
      | _ => cases h

end Expr

/-! ## Records -/

/-- `Interval.beq` compares bound with bound. -/
theorem Interval.beq_iff {left right : Interval κ} :
    (left == right) = true ↔
      Scalar.eq left.lower right.lower = true ∧ Scalar.eq left.upper right.upper = true := by
  change left.beq right = true ↔ _
  rw [beq, Bool.and_eq_true]

/-- `Update.beq` compares expressions and disturbances. -/
theorem Update.beq_iff {left right : Update κ} :
    (left == right) = true ↔
      (left.expr == right.expr) = true ∧ (left.disturbance == right.disturbance) = true := by
  change left.beq right = true ↔ _
  rw [beq, Bool.and_eq_true]

/-- `Mode.beq` compares names and urgency by `=`, and the rest by its own `==`. -/
theorem Mode.beq_iff {left right : Mode κ} :
    (left == right) = true ↔
      left.name = right.name ∧ (left.invariant == right.invariant) = true ∧
        left.urgent = right.urgent ∧ (left.flows == right.flows) = true := by
  change left.beq right = true ↔ _
  simp only [beq, Bool.and_eq_true, beq_iff_eq, and_assoc]

/-- `Transition.beq` compares ends and labels by `=`, guard and resets by their own `==`. -/
theorem Transition.beq_iff {left right : Transition κ} :
    (left == right) = true ↔
      left.source = right.source ∧ left.target = right.target ∧ left.label = right.label ∧
        (left.guard == right.guard) = true ∧ (left.resets == right.resets) = true := by
  change left.beq right = true ↔ _
  simp only [beq, Bool.and_eq_true, beq_iff_eq, and_assoc]

/-- `Automaton.beq` compares modes by name and transitions in order. -/
theorem Automaton.beq_iff {left right : Automaton κ} :
    (left == right) = true ↔
      (left.modes == right.modes) = true ∧ (left.transitions == right.transitions) = true := by
  change left.beq right = true ↔ _
  rw [beq, Bool.and_eq_true]

section

variable [Scalar.Comparable κ]

instance : PartialEquivBEq (Interval κ) where
  symm h := by
    rw [Interval.beq_iff] at h ⊢
    exact h.imp Scalar.Comparable.symm Scalar.Comparable.symm
  trans h h' := by
    rw [Interval.beq_iff] at h h' ⊢
    exact ⟨Scalar.Comparable.trans h.1 h'.1, Scalar.Comparable.trans h.2 h'.2⟩

instance : PartialEquivBEq (Update κ) where
  symm h := by
    rw [Update.beq_iff] at h ⊢
    exact h.imp BEq.symm BEq.symm
  trans h h' := by
    rw [Update.beq_iff] at h h' ⊢
    exact ⟨BEq.trans h.1 h'.1, BEq.trans h.2 h'.2⟩

instance : PartialEquivBEq (Mode κ) where
  symm h := by
    rw [Mode.beq_iff] at h ⊢
    obtain ⟨hname, hinvariant, hurgent, hflows⟩ := h
    exact ⟨hname.symm, BEq.symm hinvariant, hurgent.symm, BEq.symm hflows⟩
  trans h h' := by
    rw [Mode.beq_iff] at h h' ⊢
    obtain ⟨hname, hinvariant, hurgent, hflows⟩ := h
    obtain ⟨hname', hinvariant', hurgent', hflows'⟩ := h'
    exact ⟨hname.trans hname', BEq.trans hinvariant hinvariant', hurgent.trans hurgent',
      BEq.trans hflows hflows'⟩

instance : PartialEquivBEq (Transition κ) where
  symm h := by
    rw [Transition.beq_iff] at h ⊢
    obtain ⟨hsource, htarget, hlabel, hguard, hresets⟩ := h
    exact ⟨hsource.symm, htarget.symm, hlabel.symm, BEq.symm hguard, BEq.symm hresets⟩
  trans h h' := by
    rw [Transition.beq_iff] at h h' ⊢
    obtain ⟨hsource, htarget, hlabel, hguard, hresets⟩ := h
    obtain ⟨hsource', htarget', hlabel', hguard', hresets'⟩ := h'
    exact ⟨hsource.trans hsource', htarget.trans htarget', hlabel.trans hlabel',
      BEq.trans hguard hguard', BEq.trans hresets hresets'⟩

instance : PartialEquivBEq (Automaton κ) where
  symm h := by
    rw [Automaton.beq_iff] at h ⊢
    exact h.imp BEq.symm BEq.symm
  trans h h' := by
    rw [Automaton.beq_iff] at h h' ⊢
    exact ⟨BEq.trans h.1 h'.1, BEq.trans h.2 h'.2⟩

end

/-! ## Reflexivity -/

/-- An interval equals itself if both of its `numbers` do. -/
theorem Interval.beq_self {interval : Interval κ}
    (h : ∀ x ∈ interval.numbers, Scalar.eq x x = true) : (interval == interval) = true :=
  beq_iff.2 ⟨h _ List.mem_cons_self, h _ (List.mem_cons_of_mem _ List.mem_cons_self)⟩

/-- An optional interval equals itself if its bounds do. -/
theorem Interval.beq_self_of_toList {value : Option (Interval κ)}
    (h : ∀ x ∈ value.toList.flatMap Interval.numbers, Scalar.eq x x = true) :
    (value == value) = true := by
  cases value with
  | none => rfl
  | some interval =>
    exact interval.beq_self fun x hx =>
      h x (List.mem_flatMap.2 ⟨interval, List.mem_singleton_self _, hx⟩)

/-- An update equals itself if its `numbers` do, those of the disturbance included. -/
theorem Update.beq_self {update : Update κ} (h : ∀ x ∈ update.numbers, Scalar.eq x x = true) :
    (update == update) = true := by
  rw [numbers, List.forall_mem_append] at h
  exact beq_iff.2 ⟨Expr.beq_self h.1, Interval.beq_self_of_toList h.2⟩

/-- Flows or resets equal themselves if their numbers do. -/
theorem Update.beq_self_of_values {updates : NameMap (Update κ)}
    (h : ∀ x ∈ updates.values.flatMap Update.numbers, Scalar.eq x x = true) :
    (updates == updates) = true :=
  NameMap.beq_self_of_values fun update hu => update.beq_self fun x hx =>
    h x (List.mem_flatMap.2 ⟨update, hu, hx⟩)

/-- A mode equals itself if the `numbers` of its invariant and its flows do. -/
theorem Mode.beq_self {mode : Mode κ} (h : ∀ x ∈ mode.numbers, Scalar.eq x x = true) :
    (mode == mode) = true := by
  rw [numbers, List.forall_mem_append] at h
  refine beq_iff.2 ⟨rfl, Expr.beq_self h.1, rfl, ?_⟩
  rw [flowMap] at h
  -- missing flows are equal, flows are compared as maps
  cases hflows : mode.flows with
  | none => rfl
  | some flows =>
    rw [hflows] at h
    exact Update.beq_self_of_values h.2

/-- A transition equals itself if the `numbers` of its guard and its resets do. -/
theorem Transition.beq_self {transition : Transition κ}
    (h : ∀ x ∈ transition.numbers, Scalar.eq x x = true) : (transition == transition) = true := by
  rw [numbers, List.forall_mem_append] at h
  exact beq_iff.2 ⟨rfl, rfl, rfl, Expr.beq_self h.1, Update.beq_self_of_values h.2⟩

/-- An automaton equals itself if its numbers do. -/
theorem Automaton.beq_self {automaton : Automaton κ}
    (h : ∀ x ∈ automaton.numbers, Scalar.eq x x = true) : (automaton == automaton) = true := by
  rw [numbers, List.forall_mem_append] at h
  -- modes are compared under their names, transitions in their places
  refine beq_iff.2 ⟨NameMap.beq_self_of_values fun mode hm => mode.beq_self fun x hx =>
    h.1 x (List.mem_flatMap.2 ⟨mode, hm, hx⟩), ?_⟩
  rw [List.beq_iff_forall₂, List.forall₂_same]
  exact fun transition ht => transition.beq_self fun x hx =>
    h.2 x (List.mem_flatMap.2 ⟨transition, ht, hx⟩)

/-! ## Components -/

theorem TemplateLink.sameText?_refl (link : Option TemplateLink) : sameText? link link = true := by
  rcases link with _ | _ | _ <;> simp [sameText?, sameText]

/-- `sameText?` compares two links symmetrically. -/
theorem TemplateLink.sameText?_symm {left right : Option TemplateLink}
    (h : sameText? left right = true) : sameText? right left = true := by
  rcases left with _ | _ | _ <;> rcases right with _ | _ | _ <;> simp_all [sameText?, sameText]

/-- `sameText?` is transitive. It accepts a missing link against a missing one only. -/
theorem TemplateLink.sameText?_trans {left right last : Option TemplateLink}
    (h : sameText? left right = true) (h' : sameText? right last = true) :
    sameText? left last = true := by
  rcases left with _ | _ | _ <;> rcases right with _ | _ | _ <;> rcases last with _ | _ | _ <;>
    simp_all [sameText?, sameText]

/-- Two components are of one kind and agree in what they declare and bear, and in their automata if
they are automata. Nothing is said about the instances of networks. -/
structure Component.Agrees (left right : Component κ) : Prop where
  kind : left.isBase = right.isBase
  instanceName : left.instanceName = right.instanceName
  vars : left.vars = right.vars
  constants : (left.constants == right.constants) = true
  labels : left.labels = right.labels
  template : TemplateLink.sameText? left.template right.template = true
  automaton : (left.automaton? == right.automaton?) = true

/-- `Component.Agrees` is what the comparison of trees asks of two components by its Booleans. -/
theorem Component.agrees_iff {left right : Component κ} :
    left.Agrees right ↔ left.sameDeclarations right = true ∧ left.isBase = right.isBase ∧
      (left.automaton? == right.automaton?) = true := by
  simp only [sameDeclarations, Bool.and_eq_true, beq_iff_eq]
  -- only the bracketing differs
  constructor
  · rintro ⟨hkind, hname, hvars, hconstants, hlabels, htemplate, hautomaton⟩
    exact ⟨⟨⟨⟨⟨hname, hvars⟩, hconstants⟩, hlabels⟩, htemplate⟩, hkind, hautomaton⟩
  · rintro ⟨⟨⟨⟨⟨hname, hvars⟩, hconstants⟩, hlabels⟩, htemplate⟩, hkind, hautomaton⟩
    exact ⟨hkind, hname, hvars, hconstants, hlabels, htemplate, hautomaton⟩

namespace Component.Agrees

variable {left right last : Component κ}

/-- A component agrees with itself if its numbers equal themselves. -/
theorem refl {component : Component κ} (h : ∀ x ∈ component.numbers, Scalar.eq x x = true) :
    component.Agrees component := by
  rw [numbers, List.forall_mem_append] at h
  refine ⟨rfl, rfl, rfl, NameMap.beq_self_of_values fun value hv => ?_, rfl,
    TemplateLink.sameText?_refl _, ?_⟩
  -- the numbers of the constants come first, those of the automaton behind them
  · exact Interval.beq_self_of_toList fun x hx => h.1 x (List.mem_flatMap.2 ⟨value, hv, hx⟩)
  · cases hautomaton : component.automaton? with
    | none => rfl
    | some automaton =>
      rw [hautomaton] at h
      exact automaton.beq_self fun x hx =>
        h.2 x (List.mem_flatMap.2 ⟨automaton, List.mem_singleton_self _, hx⟩)

variable [Scalar.Comparable κ]

/-- `Agrees` is symmetric if the equality of numbers is. -/
theorem symm (h : left.Agrees right) : right.Agrees left where
  kind := h.kind.symm
  instanceName := h.instanceName.symm
  vars := h.vars.symm
  constants := BEq.symm h.constants
  labels := h.labels.symm
  template := TemplateLink.sameText?_symm h.template
  automaton := BEq.symm h.automaton

/-- `Agrees` is transitive if the equality of numbers is. -/
theorem trans (h : left.Agrees right) (h' : right.Agrees last) : left.Agrees last where
  kind := h.kind.trans h'.kind
  instanceName := h.instanceName.trans h'.instanceName
  vars := h.vars.trans h'.vars
  constants := BEq.trans h.constants h'.constants
  labels := h.labels.trans h'.labels
  template := TemplateLink.sameText?_trans h.template h'.template
  automaton := BEq.trans h.automaton h'.automaton

end Component.Agrees

end

end HybridAutomata
