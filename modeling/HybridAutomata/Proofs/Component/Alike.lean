import Mathlib.Data.List.Forall2
import HybridAutomata.Proofs.Component.Body
import HybridAutomata.Proofs.Component.Rules
import HybridAutomata.Proofs.NameMap.Related
import HybridAutomata.Tree.Basic
/-!
# Components that are alike

The rules of components do not read everything: of a number nothing, of an expression the names that
it mentions and whether it is the literal `false`, of a constant whether it has a value, and the
order of modes, flows, constants and instances does not matter to them. Components that agree in
what is read are alike, and components that compare as equal are alike, whatever equality of numbers
is.

* `Expr.mem_vars_of_beq`          equal expressions mention the same names
* `Component.Alike.wellBehaved`   alike components obey the rules of automata alike
* `Component.Alike.checkNames`    and the rules of names
* `Component.alike_of_same`       equal components are alike
-/

namespace HybridAutomata

variable {κ : Type}

/-! ## Expressions -/

namespace Expr

section

variable [Scalar κ]

/-- `beqAll` compares operands place by place and gives up where one list is longer. -/
theorem beqAll_iff {es es' : List (Expr κ)} :
    beqAll es es' = true ↔ List.Forall₂ (fun e e' => beq e e' = true) es es' := by
  -- induction on the left operands; the right ones are taken apart along with them
  induction es generalizing es' with
  | nil => cases es' <;> simp [beqAll]
  | cons e rest ih => cases es' <;> simp [beqAll, ih]

/-- Equal expressions mention the same names. -/
theorem mem_vars_of_beq {e e' : Expr κ} (h : (e == e') = true) (name : String) :
    name ∈ e.vars ↔ name ∈ e'.vars := by
  replace h : beq e e' = true := h
  -- `beq` descends into both expressions at once, so the right one varies
  induction e using induct generalizing e' with
  | bool value => cases e' <;> simp [beq] at h ⊢
  | const value => cases e' <;> simp [beq] at h ⊢
  | var other =>
    cases e' <;> simp only [beq, Bool.false_eq_true, beq_iff_eq] at h
    rw [h]
  | apply op operands ih =>
    cases e' <;> simp only [beq, Bool.false_eq_true, Bool.and_eq_true, beqAll_iff] at h
    simp only [mem_vars_apply]
    -- operands correspond by their places
    obtain ⟨-, hall⟩ := h
    induction hall with
    | nil => simp
    | cons hhead _ ihrest =>
      rw [List.exists_mem_cons_iff, List.exists_mem_cons_iff]
      exact or_congr (ih _ List.mem_cons_self hhead)
        (ihrest fun e he => ih e (List.mem_cons_of_mem _ he))

/-- `isFalse` looks at the head of an expression only, and `beq` accepts no other head. -/
theorem isFalse_of_beq {e e' : Expr κ} (h : (e == e') = true) : e.isFalse = e'.isFalse := by
  replace h : beq e e' = true := h
  -- a literal is equal to literals only, so two heads of different form are ruled out
  cases e <;> cases e' <;> simp [beq, isFalse] at h ⊢
  exact h

end

/-- Two expressions mention the same names. -/
def MentionsAlike (e e' : Expr κ) : Prop :=
  ∀ name, name ∈ e.vars ↔ name ∈ e'.vars

end Expr

/-! ## Automata -/

/-- Two modes agree in what the rules of automata read. -/
structure Mode.Alike (left right : Mode κ) : Prop where
  name : left.name = right.name
  invariant : left.invariant.isFalse = right.invariant.isFalse
  urgent : left.urgent = right.urgent
  flows : left.flows.isSome = right.flows.isSome
  flowMap : left.flowMap.Related (fun flow flow' => flow.expr.MentionsAlike flow'.expr)
    right.flowMap

/-- Two transitions agree in what the rules of automata read. -/
structure Transition.Alike (left right : Transition κ) : Prop where
  source : left.source = right.source
  target : left.target = right.target
  label : left.label = right.label

/-- Two automata agree in what the rules of automata read. -/
structure Automaton.Alike (left right : Automaton κ) : Prop where
  modes : left.modes.Related Mode.Alike right.modes
  transitions : List.Forall₂ Transition.Alike left.transitions right.transitions

/-- Everything that `Mode.Alike` asks for is an equation or an equivalence. -/
theorem Mode.Alike.symm {left right : Mode κ} (h : left.Alike right) : right.Alike left where
  name := h.name.symm
  invariant := h.invariant.symm
  urgent := h.urgent.symm
  flows := h.flows.symm
  flowMap := h.flowMap.symm.mono fun _ _ hvars name => (hvars name).symm

/-- `Transition.Alike` asks for equal fields. -/
theorem Transition.Alike.symm {left right : Transition κ} (h : left.Alike right) :
    right.Alike left :=
  ⟨h.source.symm, h.target.symm, h.label.symm⟩

/-- `Automaton.Alike` is symmetric because modes and transitions are alike symmetrically. -/
theorem Automaton.Alike.symm {left right : Automaton κ} (h : left.Alike right) :
    right.Alike left where
  modes := h.modes.symm.mono fun _ _ hmode => hmode.symm
  transitions := h.transitions.flip.imp fun _ _ ht => ht.symm

namespace Automaton.Alike

variable {left right : Automaton κ}

/-- Every mode on the right has a `Mode.Alike` one among the modes on the left. -/
theorem exists_mode (h : left.Alike right) {mode : Mode κ} (hm : mode ∈ right.modes.values) :
    ∃ mode' ∈ left.modes.values, mode'.Alike mode := by
  obtain ⟨⟨key, mode⟩, he, rfl⟩ := List.mem_map.1 hm
  -- `Related` finds the partner of an entry on the left, so the relation is turned round
  obtain ⟨mode', he', halike⟩ := h.modes.symm.exists_right he
  exact ⟨mode', List.mem_map_of_mem he', halike⟩

/-- Every transition on the right has a `Transition.Alike` one on the left. -/
theorem exists_transition (h : left.Alike right) {transition : Transition κ}
    (ht : transition ∈ right.transitions) :
    ∃ transition' ∈ left.transitions, transition'.Alike transition := by
  -- transitions are in lists, so they correspond by position and not by name
  obtain ⟨i, hi, rfl⟩ := List.mem_iff_getElem.1 ht
  have hi' : i < left.transitions.length := h.transitions.length_eq ▸ hi
  exact ⟨_, List.getElem_mem hi', h.transitions.get hi' hi⟩

end Automaton.Alike

section

variable [Scalar κ]

/-- Modes that `Mode.beq` accepts are alike: equal flows have the same keys and mention the same
names. -/
theorem Mode.alike_of_beq {left right : Mode κ} (h : (left == right) = true) :
    left.Alike right := by
  replace h : left.beq right = true := h
  simp only [beq, Bool.and_eq_true, beq_iff_eq] at h
  obtain ⟨⟨⟨hname, hinvariant⟩, hurgent⟩, hflows⟩ := h
  -- flows may be missing on either side, and then `flowMap` is empty
  have hmap : left.flows.isSome = right.flows.isSome ∧
      left.flowMap.Related (fun flow flow' => flow.expr.MentionsAlike flow'.expr)
        right.flowMap := by
    rw [flowMap, flowMap]
    cases hl : left.flows with
    | none =>
      cases hr : right.flows with
      | none => exact ⟨rfl, fun name => .none⟩
      | some flows =>
        -- flows are not equal to missing flows
        rw [hl, hr] at hflows
        cases hflows
    | some flows =>
      cases hr : right.flows with
      | none =>
        rw [hl, hr] at hflows
        cases hflows
      | some flows' =>
        rw [hl, hr] at hflows
        refine ⟨rfl, NameMap.related_of_same hflows fun flow flow' hflow => ?_⟩
        exact Expr.mem_vars_of_beq (Bool.and_eq_true _ _ ▸ hflow).1
  exact ⟨hname, Expr.isFalse_of_beq hinvariant, hurgent, hmap.1, hmap.2⟩

/-- `Transition.beq` compares ends and labels by `=`; that guards and resets are equal is not
needed. -/
theorem Transition.alike_of_beq {left right : Transition κ} (h : (left == right) = true) :
    left.Alike right := by
  replace h : left.beq right = true := h
  simp only [beq, Bool.and_eq_true, beq_iff_eq] at h
  exact ⟨h.1.1.1.1, h.1.1.1.2, h.1.1.2⟩

/-- Automata that `Automaton.beq` accepts are alike: modes by name, transitions by position. -/
theorem Automaton.alike_of_beq {left right : Automaton κ} (h : (left == right) = true) :
    left.Alike right := by
  replace h : left.beq right = true := h
  rw [beq, Bool.and_eq_true] at h
  exact ⟨NameMap.related_of_same h.1 fun _ _ => Mode.alike_of_beq,
    (List.beq_iff_forall₂.1 h.2).imp fun _ _ => Transition.alike_of_beq⟩

end

/-! ## Components -/

/-- Two instances bind the same names in the same way. -/
def Instance.BindsAlike (left right : Instance) : Prop :=
  ∀ kind, left.bindings kind = right.bindings kind

/-- Two automata are alike, or two networks have instances of the same names, which bind alike. -/
inductive Body.Alike : Body κ → Body κ → Prop where
  | base {left right : Automaton κ} (h : left.Alike right) : Alike (.base left) (.base right)
  | network {left right : NameMap Instance} (h : left.Related Instance.BindsAlike right) :
      Alike (.network left) (.network right)

/-- Two components agree in what the rules read. -/
structure Component.Alike (left right : Component κ) : Prop where
  instanceName : left.instanceName = right.instanceName
  vars : left.vars = right.vars
  labels : left.labels = right.labels
  constants : left.constants.Related (fun own own' => own.isSome = own'.isSome) right.constants
  body : left.body.Alike right.body

theorem Instance.BindsAlike.symm {left right : Instance} (h : left.BindsAlike right) :
    right.BindsAlike left := fun kind => (h kind).symm

/-- `outerName?` reads nothing but the bindings. -/
theorem Instance.BindsAlike.outerName?_eq {left right : Instance} (h : left.BindsAlike right)
    (kind : NameKind) (name : String) : left.outerName? kind name = right.outerName? kind name := by
  rw [Instance.outerName?, Instance.outerName?, h kind]

/-- `Body.Alike` relates bodies of one kind, in both directions. -/
theorem Body.Alike.symm {left right : Body κ} (h : left.Alike right) : right.Alike left := by
  cases h with
  | base halike => exact .base halike.symm
  | network hrel => exact .network (hrel.symm.mono fun _ _ hbinds => hbinds.symm)

namespace Component.Alike

variable {left right : Component κ}

/-- `Component.Alike` is symmetric field by field. -/
theorem symm (h : left.Alike right) : right.Alike left where
  instanceName := h.instanceName.symm
  vars := h.vars.symm
  labels := h.labels.symm
  constants := h.constants.symm.mono fun _ _ => Eq.symm
  body := h.body.symm

/-- Bodies that are alike are two `Automaton.Alike` automata or two networks. -/
theorem body_cases (h : left.Alike right) :
    (∃ automaton automaton', left.body = .base automaton ∧ right.body = .base automaton' ∧
      automaton.Alike automaton') ∨
    ∃ children children', left.body = .network children ∧ right.body = .network children' ∧
      children.Related Instance.BindsAlike children' := by
  have hbody := h.body
  -- `Body.Alike` is indexed by the bodies, so `cases` needs them as variables
  generalize left.body = body, right.body = body' at hbody
  cases hbody with
  | base halike => exact .inl ⟨_, _, rfl, rfl, halike⟩
  | network hrel => exact .inr ⟨_, _, rfl, rfl, hrel⟩

theorem displayName_eq (h : left.Alike right) : left.displayName = right.displayName := by
  rw [displayName, displayName, h.instanceName]

theorem isBase_eq (h : left.Alike right) : left.isBase = right.isBase := by
  rcases h.body_cases with ⟨_, _, hl, hr, -⟩ | ⟨_, _, hl, hr, -⟩ <;> rw [isBase, isBase, hl, hr]

/-- The `children` of alike components have the same names, and `BindsAlike` instances under each of
them. -/
theorem children (h : left.Alike right) :
    left.children.Related Instance.BindsAlike right.children := by
  rcases h.body_cases with ⟨_, _, hl, hr, -⟩ | ⟨_, _, hl, hr, hrel⟩
  · rw [children_of_base hl, children_of_base hr]
    exact fun name => .none
  · rwa [children_of_network hl, children_of_network hr]

/-- `declares` answers alike for every kind of name. -/
theorem declares_eq (h : left.Alike right) (kind : NameKind) :
    left.declares kind = right.declares kind := by
  funext name
  cases kind with
  | var => rw [declares, declares, h.vars]
  | const => rw [declares, declares, h.constants.contains_eq]
  | label => rw [declares, declares, h.labels]

/-- A constant is declared by both or by none of them, and has a value in both or in none. -/
theorem constant_cases (h : left.Alike right) (name : String) :
    (left.constants.get? name = none ∧ right.constants.get? name = none) ∨
    (left.constants.get? name = some none ∧ right.constants.get? name = some none) ∨
    ∃ value value', left.constants.get? name = some (some value) ∧
      right.constants.get? name = some (some value') := by
  have hrel := h.constants name
  revert hrel
  -- nine pairs of entries, and `Related` leaves the three of the statement
  rcases left.constants.get? name with _ | _ | value <;>
    rcases right.constants.get? name with _ | _ | value' <;> simp

/-- `checkedNames` of alike components are the same up to order. -/
theorem checkedNames_perm (h : left.Alike right) (options : CheckOptions) :
    (left.checkedNames options).Perm (right.checkedNames options) := by
  rw [checkedNames, checkedNames, h.vars, h.labels]
  -- variables and labels stand in front in one order, constants behind them in any
  refine List.Perm.append_left _ ?_
  split
  · exact h.constants.keys_perm
  · exact List.Perm.refl _

/-- What `checkNames` accepts of one component it accepts of an alike one. -/
theorem checkNames (h : left.Alike right) {options : CheckOptions} {component : String}
    (hcheck : HybridAutomata.checkNames (κ := κ) component [] (left.checkedNames options) =
      .ok ()) :
    HybridAutomata.checkNames (κ := κ) component [] (right.checkedNames options) = .ok () := by
  have hperm := h.checkedNames_perm options
  -- as a rule the check does not depend on the order in which it goes through names
  rw [checkNames_eq_ok_iff] at hcheck ⊢
  exact ⟨hperm.nodup_iff.1 hcheck.1, fun name hn => hcheck.2 name (hperm.mem_iff.2 hn)⟩

/-- `WellBehaved` is carried over to an alike automaton in an alike component. -/
theorem wellBehaved (h : left.Alike right) {automaton automaton' : Automaton κ}
    (hautomata : automaton.Alike automaton') (hok : left.WellBehaved automaton) :
    right.WellBehaved automaton' where
  -- each rule for the right automaton is read off an alike mode or transition on the left
  nonempty hnil := by
    have hempty : automaton.modes.entries.isEmpty = automaton'.modes.entries.isEmpty :=
      hautomata.modes.isEmpty_eq
    refine hok.nonempty ?_
    rw [← List.isEmpty_iff, hempty, List.isEmpty_iff, hnil]
  filed entry he := by
    obtain ⟨mode', he', halike⟩ := hautomata.modes.symm.exists_right he
    rw [← halike.name]
    exact hok.filed _ he'
  invariant mode hm := by
    obtain ⟨mode', hm', halike⟩ := hautomata.exists_mode hm
    rw [Ne, ← Expr.isFalse_iff, ← halike.invariant, Expr.isFalse_iff]
    exact hok.invariant mode' hm'
  flows mode hm := by
    obtain ⟨mode', hm', halike⟩ := hautomata.exists_mode hm
    rw [← halike.flows, ← halike.urgent]
    exact hok.flows mode' hm'
  driven := by
    -- the same variables are driven, because flows of alike modes have the same keys
    obtain ⟨driven, hvars, hkeys⟩ := hok.driven
    refine ⟨driven, fun name hn => h.vars ▸ hvars name hn, fun mode hm hu name => ?_⟩
    obtain ⟨mode', hm', halike⟩ := hautomata.exists_mode hm
    rw [← halike.flowMap.mem_keys_iff]
    exact hkeys mode' hm' (halike.urgent.trans hu) name
  symbols mode hm hu flow hf symbol hs := by
    obtain ⟨mode', hm', halike⟩ := hautomata.exists_mode hm
    obtain ⟨⟨key, flow⟩, he, rfl⟩ := List.mem_map.1 hf
    obtain ⟨flow', he', hmentions⟩ := halike.flowMap.symm.exists_right he
    rw [← h.vars, ← h.constants.mem_keys_iff]
    exact hok.symbols mode' hm' (halike.urgent.trans hu) flow' (List.mem_map_of_mem he') symbol
      ((hmentions symbol).2 hs)
  ends transition ht := by
    obtain ⟨transition', ht', halike⟩ := hautomata.exists_transition ht
    rw [← halike.source, ← halike.target, ← hautomata.modes.mem_keys_iff,
      ← hautomata.modes.mem_keys_iff]
    exact hok.ends transition' ht'
  labels transition ht := by
    obtain ⟨transition', ht', halike⟩ := hautomata.exists_transition ht
    rw [← halike.label]
    exact hok.labels transition' ht'
  used label hl := by
    rw [← h.labels] at hl
    obtain ⟨transition', ht', hlabel⟩ := hok.used label hl
    -- a transition of the left is given here, so likeness is read backwards
    obtain ⟨transition, ht, halike⟩ := hautomata.symm.exists_transition ht'
    exact ⟨transition, ht, halike.label.trans hlabel⟩

end Component.Alike

end HybridAutomata
