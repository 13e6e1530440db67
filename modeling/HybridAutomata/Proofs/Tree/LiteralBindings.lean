import HybridAutomata.Proofs.Tree.Climb
import HybridAutomata.Proofs.Tree.Variables
/-!
# Literals in bindings

A literal takes the place of the outer name of a constant until the component is copied, and a check
that leaves constants alone lets it pass. The check does not ask what kind of name is bound, so it
lets the literal of a variable or of a label pass as well, although a copy keeps that as it stands.
Everything else that is bound is declared.

Declared variables and labels are identifiers, and a literal starts with `~`. So the mark tells the
two apart wherever a chain of bindings ends.

* `declares_outer_iff`             a bound name is declared, or it is a literal
* `declares_or_marked_of_chain`    a chain of variables ends at one of these
* `bound_names_are_declared_iff`   global names without the mark are those of declared variables
-/

namespace HybridAutomata

variable {κ : Type}

/-! ## The mark of a literal -/

/-- An identifier does not hold the mark of a literal. -/
theorem Text.tilde_not_mem_of_isIdentifier {name : String} (h : Text.isIdentifier name = true) :
    '~' ∉ name.toList := by
  intro hc
  cases Text.isInner_of_isIdentifier h hc

/-- A binding that `literal?` takes for a literal has the mark in its outer name. -/
theorem Binding.tilde_mem_of_literal? {binding : Binding} (h : binding.literal?.isSome = true) :
    '~' ∈ binding.outer.toList := by
  rw [literal?, Text.afterMark?] at h
  -- a literal starts with the mark
  split at h
  · cases h
  · next first rest hlist =>
    split at h
    · next hfirst =>
      rw [hlist, hfirst]
      exact List.mem_cons_self
    · cases h

/-- A binding to an identifier is no literal. -/
theorem Binding.literal?_eq_none_of_isIdentifier {binding : Binding}
    (h : Text.isIdentifier binding.outer = true) : binding.literal? = none := by
  rw [← Option.not_isSome_iff_eq_none]
  exact fun hliteral =>
    Text.tilde_not_mem_of_isIdentifier h (binding.tilde_mem_of_literal? hliteral)

namespace Tree

/-! ## Bindings -/

/-- Every binding of a kind leads to a name that the network declares. -/
def BindsDeclared (tree : Tree κ) (kind : NameKind) : Prop :=
  ∀ b, tree.Reachable b → ∀ entry ∈ (tree.get b).children.entries,
    ∀ binding ∈ entry.2.bindings kind, (tree.get b).declares kind binding.outer = true

/-- No binding of a kind has a literal. -/
def BindsNoLiteral (tree : Tree κ) (kind : NameKind) : Prop :=
  ∀ b, tree.Reachable b → ∀ entry ∈ (tree.get b).children.entries,
    ∀ binding ∈ entry.2.bindings kind, binding.literal? = none

/-- `BindsNoLiteral` follows if no instance in the arena binds a name of the kind to a literal. -/
theorem BindsNoLiteral.of_arena {tree : Tree κ} {kind : NameKind}
    (h : ∀ i < tree.size, ∀ entry ∈ (tree.get ⟨i⟩).children.entries,
      ∀ binding ∈ entry.2.bindings kind, binding.literal? = none) : tree.BindsNoLiteral kind :=
  fun b _ entry he => h b.index (index_lt_of_mem_children he) entry he

/-- A name is the qualified name of a variable that a reachable component declares. -/
def QualifiesVariable (tree : Tree κ) (listed : String) : Prop :=
  ∃ d, tree.Reachable d ∧ ∃ own ∈ (tree.get d).vars, listed = qualify (tree.path d) own

section Component

variable {tree : Tree κ} {levels : Nat} {b : Handle} {entry : String × Instance}
  {kind : NameKind} {binding : Binding}

/-- Variables and labels are always checked: the ones that a component `declares` are identifiers.
-/
theorem isIdentifier_of_declares
    (hcheck : tree.checkWithin .withoutConstants (levels + 1) b = .ok ()) (hkind : kind ≠ .const)
    {name : String} (h : (tree.get b).declares kind name = true) :
    Text.isIdentifier name = true := by
  refine (names_of_checkWithin hcheck).2 name (List.mem_append_left _ (List.mem_append.2 ?_))
  cases kind with
  | var => exact .inl (Component.declares_var_iff.1 h)
  | label => exact .inr (Component.declares_label_iff.1 h)
  | const => exact absurd rfl hkind

/-- Where constants are left alone, the outer name of a bound variable or label is declared just if
it is not a `literal?`. -/
theorem declares_outer_iff
    (hcheck : tree.checkWithin .withoutConstants (levels + 1) b = .ok ()) (hkind : kind ≠ .const)
    (he : entry ∈ (tree.get b).children.entries) (hb : binding ∈ entry.2.bindings kind) :
    (tree.get b).declares kind binding.outer = true ↔ binding.literal? = none := by
  constructor
  · exact fun h =>
      Binding.literal?_eq_none_of_isIdentifier (isIdentifier_of_declares hcheck hkind h)
  -- what is neither declared nor a literal is refused
  · intro hliteral
    have hinst := (entry_of_checkWithin hcheck he).1
    obtain hdeclared | ⟨-, hsome⟩ := (binding_of_checkInstance hinst hb).1
    · exact hdeclared
    · rw [hliteral] at hsome
      cases hsome

/-- The inner name of a bound variable or label is declared below, so it is an identifier. -/
theorem isIdentifier_inner (hcheck : tree.checkWithin .withoutConstants (levels + 1) b = .ok ())
    (hkind : kind ≠ .const) (he : entry ∈ (tree.get b).children.entries)
    (hb : binding ∈ entry.2.bindings kind) : Text.isIdentifier binding.inner = true := by
  obtain ⟨hinst, hbelow, -⟩ := entry_of_checkWithin hcheck he
  have hdeclared := (binding_of_checkInstance hinst hb).2
  cases levels with
  | zero => cases hbelow
  | succ levels => exact isIdentifier_of_declares hbelow hkind hdeclared

end Component

/-! ## Chains -/

namespace Linked

variable {tree : Tree κ} {c d : Handle} {name last : String} {steps : Nat}

/-- `IsFree` of a name with the mark: bound names are identifiers, so no binding leads on from it.
-/
theorem isFree_of_tilde_mem (h : tree.Linked)
    (hcheck : tree.checkWithin .withoutConstants tree.size tree.root = .ok ())
    (hc : tree.Reachable c) (hmark : '~' ∈ name.toList) : tree.IsFree .var c name := by
  obtain ⟨-, hi⟩ | ⟨b, own, inst, ⟨names, hf⟩, he, -, -, hi⟩ := h.instance?_cases hc
  · exact isFree_of_instance?_eq_none hi _ _
  · obtain ⟨below, -, hb⟩ := checkWithin_of_follow hcheck hf
    rw [isFree_iff_of_instance? hi]
    cases ho : inst.outerName? .var name with
    | none => rfl
    | some outer =>
      -- what is bound is a declared name, and these are identifiers
      obtain ⟨binding, hbinding, rfl, -⟩ := exists_binding_of_outerName? ho
      have hinner := isIdentifier_inner hb (by decide) he hbinding
      exact absurd hmark (Text.tilde_not_mem_of_isIdentifier hinner)

/-- A `Chain` of variables ends at a declared variable, or at a literal to which one is bound. -/
theorem declares_or_marked_of_chain (h : tree.Linked)
    (hcheck : tree.checkWithin .withoutConstants tree.size tree.root = .ok ())
    (hc : tree.Reachable c) (hname : name ∈ (tree.get c).vars)
    (hchain : tree.Chain .var c name steps d last) :
    last ∈ (tree.get d).vars ∨ ('~' ∈ last.toList ∧ ¬ tree.BindsNoLiteral .var) := by
  -- induction along the chain; each link ends at a declared name of the network, or at a literal
  induction hchain with
  | free => exact .inl hname
  -- a step leads to a name of the network around the component
  | @bound c d name outer last inst steps hi ho hrest ih =>
    obtain ⟨-, hi'⟩ | ⟨b, own, inst', hb, he, -, hlink, hi'⟩ := h.instance?_cases hc
    · cases hi.symm.trans hi'
    obtain rfl := Option.some.inj (hi.symm.trans hi')
    have hparent : inst.parent = b := hlink.parent
    rw [hparent] at hrest ih
    obtain ⟨binding, hbinding, -, houter⟩ := exists_binding_of_outerName? ho
    obtain ⟨names, hf⟩ := hb
    obtain ⟨below, -, hcheckb⟩ := checkWithin_of_follow hcheck hf
    have hiff := declares_outer_iff hcheckb (by decide) he hbinding
    cases hliteral : binding.literal? with
    | none =>
      have hdeclared := Component.declares_var_iff.1 (hiff.2 hliteral)
      rw [houter] at hdeclared
      exact ih ⟨names, hf⟩ hdeclared
    | some literal =>
      have hmark := binding.tilde_mem_of_literal? (by rw [hliteral]; rfl)
      rw [houter] at hmark
      -- the chain ends here, since nothing binds a literal
      obtain ⟨-, -, rfl⟩ := hrest.unique (.free (h.isFree_of_tilde_mem hcheck ⟨names, hf⟩ hmark))
      refine .inr ⟨hmark, fun hno => ?_⟩
      have hnone := hno b ⟨names, hf⟩ _ he binding hbinding
      cases hliteral.symm.trans hnone

/-- The path of a component does not bear the mark, so `qualify` gives a name that bears it just if
the name does. -/
theorem tilde_mem_qualify_iff (h : tree.Linked) {options : CheckOptions}
    (hcheck : tree.checkWithin options tree.size tree.root = .ok ()) (hc : tree.Reachable c)
    (name : String) : '~' ∈ (qualify (tree.path c) name).toList ↔ '~' ∈ name.toList := by
  obtain ⟨names, hf⟩ := hc
  have hnames (own : String) (hown : own ∈ names) : Text.isIdentifier own = true :=
    isIdentifier_of_follow hcheck hf hown
  rw [h.qualify_path_eq hf fun own hown => Text.ne_empty_of_isIdentifier (hnames own hown),
    Text.mem_toList_join_iff (by decide)]
  -- the mark is not in the names of the way, so it is in the last name
  constructor
  · rintro ⟨own, hown, hmark⟩
    rcases List.mem_append.1 hown with hown | hown
    · exact absurd hmark (Text.tilde_not_mem_of_isIdentifier (hnames own hown))
    · rwa [← List.mem_singleton.1 hown]
  · exact fun hmark => ⟨name, by simp, hmark⟩

/-- The global name of a declared variable `QualifiesVariable` just if it does not bear the mark. -/
theorem qualifiesVariable_iff (h : tree.Linked)
    (hcheck : tree.checkWithin .withoutConstants tree.size tree.root = .ok ())
    (hc : tree.Reachable c) (hname : name ∈ (tree.get c).vars) :
    ∃ listed, tree.variableName c name = .ok listed ∧
      (tree.QualifiesVariable listed ↔ '~' ∉ listed.toList) ∧
      (tree.BindsNoLiteral .var → tree.QualifiesVariable listed) := by
  -- the global name is the last name of the chain behind the path of its component
  obtain ⟨steps, d, last, hchain, -⟩ := h.exists_chain hc .var name
  have hd := h.reachable_of_chain hc hchain
  have hend := h.declares_or_marked_of_chain hcheck hc hname hchain
  have hfree : tree.freeName d last = qualify (tree.path d) last := by
    obtain ⟨names, hf⟩ := hd
    exact h.freeName_eq hf
      (fun own hown => Text.ne_empty_of_isIdentifier (isIdentifier_of_follow hcheck hf hown)) last
  have hqualifies (hlast : last ∈ (tree.get d).vars) :
      tree.QualifiesVariable (tree.freeName d last) := ⟨d, hd, last, hlast, hfree⟩
  refine ⟨tree.freeName d last, h.variableName_eq hc ⟨steps, hchain⟩, ⟨?_, ?_⟩, fun hno => ?_⟩
  -- what a component declares is an identifier, and so is every name on the way to it
  · rintro ⟨e, he, own, hown, heq⟩
    rw [heq, h.tilde_mem_qualify_iff hcheck he]
    obtain ⟨names, hf⟩ := he
    obtain ⟨below, -, hbelow⟩ := checkWithin_of_follow hcheck hf
    exact Text.tilde_not_mem_of_isIdentifier
      (isIdentifier_of_declares hbelow (by decide) (Component.declares_var_iff.2 hown))
  -- a chain that does not end at a literal ends at a declared variable
  · intro hmark
    rw [hfree, h.tilde_mem_qualify_iff hcheck hd] at hmark
    exact hqualifies (hend.resolve_right fun hliteral => hmark hliteral.1)
  · exact hqualifies (hend.resolve_right fun hliteral => hliteral.2 hno)

end Linked

/-- In a tree that passes with constants left alone, the variables and labels that are bound are
declared just where no literal takes their place. If the root is no instance then every declared
variable has a global name; it is that of a declared variable just if it bears no mark, so always if
no variable is bound to a literal. -/
theorem bound_names_are_declared_iff (tree : Tree κ)
    (hcheck : tree.check .withoutConstants = .ok ()) :
    (∀ kind, kind ≠ .const → (tree.BindsDeclared kind ↔ tree.BindsNoLiteral kind)) ∧
      (tree.rootComponent.parent = none → ∀ c, tree.Reachable c → ∀ name ∈ (tree.get c).vars,
        ∃ listed, tree.variableName c name = .ok listed ∧
          (tree.QualifiesVariable listed ↔ '~' ∉ listed.toList) ∧
          (tree.BindsNoLiteral .var → tree.QualifiesVariable listed)) := by
  have hwithin : tree.checkWithin .withoutConstants tree.size tree.root = .ok () := hcheck
  constructor
  · intro kind hkind
    refine forall_congr' fun b => forall_congr' fun hb => forall₂_congr fun entry he =>
      forall₂_congr fun binding hbinding => ?_
    obtain ⟨names, hf⟩ := hb
    obtain ⟨below, -, hbelow⟩ := checkWithin_of_follow hwithin hf
    exact declares_outer_iff hbelow hkind he hbinding
  · intro hparent c hc name hname
    -- a root without a parent has no name
    obtain ⟨below, -, hroot⟩ := checkWithin_of_follow hwithin (follow_nil tree tree.root)
    have hlinks := (names_of_checkWithin hroot).1.2
    rw [← rootComponent, hparent] at hlinks
    have hlinked := linked_of_checkWithin (by simpa using hlinks) hparent hwithin
    exact hlinked.qualifiesVariable_iff hwithin hc hname

/-- A timer in a box. Its constant is set by a literal, its variable is bound to a given name. -/
def boxedTimer (outer : String) : Tree Int where
  components := #[
    { vars := ["time"]
      body := .network (.ofList [("timer", {
        parent := ⟨0⟩
        child := ⟨1⟩
        vars := [⟨"t", outer⟩]
        consts := [⟨"k", "~5"⟩] })]) },
    { parent := some ⟨0⟩
      instanceName := some "timer"
      vars := ["t"]
      constants := .ofList [("k", none)]
      body := .base {
        modes := .ofList [("run", {
          name := "run"
          invariant := .binary .lessEqual (.var "t") (.var "k")
          urgent := false
          flows := some (.ofList [("t", { expr := .const 1 })]) })]
        transitions := [] } }]
  root := ⟨0⟩

/-- With `time` for an outer name, `boxedTimer` binds its variable to the time of the box, whatever
its constant is set to. -/
theorem boxedTimer_is_named_by_time :
    (boxedTimer "time").check .withoutConstants = .ok () ∧ (boxedTimer "time").BindsDeclared .var ∧
      ∃ listed, (boxedTimer "time").variableName ⟨1⟩ "t" = .ok listed ∧
        (boxedTimer "time").QualifiesVariable listed := by
  have hcheck : (boxedTimer "time").check .withoutConstants = .ok () :=
    Except.eq_ok_of_isOk (by decide +kernel)
  have hno : (boxedTimer "time").BindsNoLiteral .var := .of_arena (by decide +kernel)
  have htimer : (boxedTimer "time").Reachable ⟨1⟩ := ⟨["timer"], rfl⟩
  -- the variable is bound to a declared name
  obtain ⟨hbound, hnames⟩ := bound_names_are_declared_iff (boxedTimer "time") hcheck
  obtain ⟨listed, hlisted, -, hnamed⟩ := hnames rfl ⟨1⟩ htimer "t" (by decide)
  exact ⟨hcheck, (hbound .var (by decide)).2 hno, listed, hlisted, hnamed hno⟩

/-- With a literal for an outer name, `boxedTimer` passes all the same, and the timer is named by
what no component declares. -/
theorem boxedTimer_is_named_by_literal :
    (boxedTimer "~x").check .withoutConstants = .ok () ∧ ¬ (boxedTimer "~x").BindsDeclared .var ∧
      (boxedTimer "~x").variableName ⟨1⟩ "t" = .ok "~x" ∧
      ¬ (boxedTimer "~x").QualifiesVariable "~x" := by
  have hcheck : (boxedTimer "~x").check .withoutConstants = .ok () :=
    Except.eq_ok_of_isOk (by decide +kernel)
  have hlinked : (boxedTimer "~x").Linked := linked_of_checkWithin rfl rfl hcheck
  have htimer : (boxedTimer "~x").Reachable ⟨1⟩ := ⟨["timer"], rfl⟩
  have hname : (boxedTimer "~x").variableName ⟨1⟩ "t" = .ok "~x" := rfl
  refine ⟨hcheck, fun hdeclared => ?_, hname, fun hnamed => ?_⟩
  -- the box does not declare the literal
  · have h := hdeclared ⟨0⟩ (boxedTimer "~x").reachable_root _ List.mem_cons_self ⟨"t", "~x"⟩
      List.mem_cons_self
    exact absurd h (by decide)
  · obtain ⟨listed, hlisted, hiff, -⟩ := hlinked.qualifiesVariable_iff hcheck htimer
      (show "t" ∈ _ by decide)
    obtain rfl := Except.ok.inj (hname.symm.trans hlisted)
    exact absurd (hiff.1 hnamed) (by decide)

end Tree

end HybridAutomata
