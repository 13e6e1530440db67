import HybridAutomata.Proofs.Component.Check
import HybridAutomata.Proofs.Scalar.Integer
import HybridAutomata.Tree.Check
/-!
# The first name that offends

The variables of a component, its labels and its constants are compared with the same names seen
before, which become more from one kind to the next. So the kinds are gone through as one list, and
the check ends at the first place of the list where a name comes again or is no identifier. A name
that comes again has been looked at, so it is an identifier.

* `checkNames_append`           lists of names, one after the other
* `checkNames_eq_error_iff`     where a check of names ends
* `OffendsAt`                   what is wrong at a place of a list
* `first_offending_name_is_reported`   the check of a component reports the first place
-/

namespace HybridAutomata

variable {κ : Type} {component name : String} {seen names : List String} {violation : Violation κ}

/-! ## The course of the check -/

/-- `checkNames` goes through a list part by part; the names of one part are seen in the next. -/
theorem checkNames_append (component : String) (seen left right : List String) :
    checkNames (κ := κ) component seen (left ++ right) =
      checkNames component seen left >>= fun _ =>
        checkNames component (left.reverse ++ seen) right := by
  -- induction on the first part, whose names become seen ones
  induction left generalizing seen with
  | nil => rfl
  | cons name rest ih =>
    rw [List.cons_append, checkNames, checkNames]
    split
    · rfl
    · rw [bind_assoc, List.reverse_cons, List.append_assoc, List.singleton_append]
      exact congrArg _ (funext fun _ => ih (name :: seen))

/-- `checkNames` ends at a name that was seen or is no identifier, if those before it pass. -/
theorem checkNames_eq_error_iff :
    checkNames component seen names = .error violation ↔
      ∃ front name back, names = front ++ name :: back ∧
        checkNames (κ := κ) component seen front = .ok () ∧
        (name ∈ front.reverse ++ seen ∧ violation = .repeatedName name component ∨
          name ∉ front.reverse ++ seen ∧ Text.isIdentifier name = false ∧
            violation = .invalidName name component) := by
  constructor
  · intro h
    -- induction on the names, for whatever was seen before
    induction names generalizing seen with
    | nil => cases h
    | cons name rest ih =>
      rw [checkNames] at h
      split at h
      · next hs =>
        -- the name was seen
        cases h
        exact ⟨[], name, rest, rfl, rfl, .inl ⟨List.contains_iff_mem.1 hs, rfl⟩⟩
      next hs =>
      have hnew : name ∉ seen := fun hm => hs (List.contains_iff_mem.2 hm)
      rcases Except.bind_eq_error_iff.1 h with h | ⟨_, hname, h⟩
      · -- the name is no identifier
        rw [checkName] at h
        split at h
        · cases h
        · next hi =>
          cases h
          exact ⟨[], name, rest, rfl, rfl, .inr ⟨hnew, Bool.eq_false_iff.2 hi, rfl⟩⟩
      · -- the name passes, and the check goes on behind it
        obtain ⟨front, other, back, rfl, hfront, hother⟩ := ih h
        refine ⟨name :: front, other, back, rfl, ?_, ?_⟩
        · rw [checkNames, if_neg hs, hname, Except.ok_bind, hfront]
        · rwa [List.reverse_cons, List.append_assoc, List.singleton_append]
  · rintro ⟨front, name, back, rfl, hfront, hname⟩
    rw [checkNames_append, hfront, Except.ok_bind, checkNames]
    rcases hname with ⟨hm, rfl⟩ | ⟨hm, hi, rfl⟩
    · rw [if_pos (List.contains_iff_mem.2 hm)]
    · rw [if_neg fun hc => hm (List.contains_iff_mem.1 hc), checkName, hi]
      rfl

/-! ## Places -/

/-- What is wrong at a place of a list of names: the name there comes earlier as well, or it is no
identifier. -/
inductive OffendsAt (component : String) (names : List String) :
    (place : Nat) → Violation κ → Prop where
  | repeated {place : Nat} {name : String} (hname : names[place]? = some name)
    (hearlier : name ∈ names.take place) :
    OffendsAt component names place (.repeatedName name component)
  | invalid {place : Nat} {name : String} (hname : names[place]? = some name)
    (hinvalid : Text.isIdentifier name = false) :
    OffendsAt component names place (.invalidName name component)

/-- What is wrong at a place where something is wrong, but nowhere before. -/
structure OffendsFirstAt (component : String) (names : List String) (place : Nat)
    (violation : Violation κ) : Prop where
  offends : OffendsAt component names place violation
  first : ∀ earlier < place, ∀ other : Violation κ, ¬ OffendsAt component names earlier other

/-- Nothing is wrong before a place just if the names there are different identifiers, as
`OffendsAt` says. -/
theorem not_offendsAt_iff {place : Nat} :
    (∀ earlier < place, ∀ other : Violation κ, ¬ OffendsAt component names earlier other) ↔
      (names.take place).Nodup ∧ ∀ name ∈ names.take place, Text.isIdentifier name = true := by
  rw [List.Nodup, List.pairwise_iff_getElem]
  simp only [List.length_take, Nat.lt_min, List.getElem_take, List.mem_take_iff_getElem]
  constructor
  · intro h
    constructor
    · -- the later one of two equal names would offend
      intro i j hi hj hij hsame
      refine h j hj.1 _ (.repeated (List.getElem?_eq_getElem hj.2) ?_)
      exact List.mem_take_iff_getElem.2 ⟨i, Nat.lt_min.2 ⟨hij, hi.2⟩, hsame⟩
    · rintro _ ⟨i, hi, rfl⟩
      by_contra hinvalid
      exact h i hi.1 _ (.invalid (List.getElem?_eq_getElem hi.2) (Bool.eq_false_iff.2 hinvalid))
  · rintro ⟨hnodup, hidentifiers⟩ earlier hlt other hoffends
    cases hoffends with
    | repeated hname hearlier =>
      -- the name would come twice before the place
      obtain ⟨hlength, rfl⟩ := List.getElem?_eq_some_iff.1 hname
      obtain ⟨i, hi, hsame⟩ := List.mem_take_iff_getElem.1 hearlier
      obtain ⟨hie, hin⟩ := Nat.lt_min.1 hi
      exact hnodup i earlier ⟨Nat.lt_trans hie hlt, hin⟩ ⟨hlt, hlength⟩ hie hsame
    | invalid hname hinvalid =>
      obtain ⟨hlength, rfl⟩ := List.getElem?_eq_some_iff.1 hname
      rw [hidentifiers _ ⟨earlier, ⟨hlt, hlength⟩, rfl⟩] at hinvalid
      cases hinvalid

/-- `checkNames` from the start ends at the first place where something is wrong. -/
theorem checkNames_nil_eq_error_iff :
    checkNames component [] names = .error violation ↔
      ∃ place, OffendsFirstAt component names place violation := by
  rw [checkNames_eq_error_iff]
  simp only [List.append_nil, List.mem_reverse, checkNames_eq_ok_iff, List.not_mem_nil,
    not_false_eq_true, and_true]
  constructor
  -- the names that have passed are those before the place
  · rintro ⟨front, name, back, rfl, hfront, hname⟩
    have hfound : (front ++ name :: back)[front.length]? = some name := by simp
    have htake : (front ++ name :: back).take front.length = front := by simp
    refine ⟨front.length, ?_, ?_⟩
    · rcases hname with ⟨hm, rfl⟩ | ⟨-, hi, rfl⟩
      · exact .repeated hfound (htake.symm ▸ hm)
      · exact .invalid hfound hi
    · rw [not_offendsAt_iff, htake]
      exact hfront
  · rintro ⟨place, hoffends, hfirst⟩
    rw [not_offendsAt_iff] at hfirst
    -- the list falls apart at the place
    have hsplit {name : String} (hname : names[place]? = some name) :
        names = names.take place ++ name :: names.drop (place + 1) := by
      obtain ⟨hlt, rfl⟩ := List.getElem?_eq_some_iff.1 hname
      rw [← List.drop_eq_getElem_cons hlt, List.take_append_drop]
    cases hoffends with
    | repeated hname hearlier =>
      exact ⟨_, _, _, hsplit hname, hfirst, .inl ⟨hearlier, rfl⟩⟩
    | invalid hname hinvalid =>
      refine ⟨_, _, _, hsplit hname, hfirst, .inr ⟨fun hm => ?_, hinvalid, rfl⟩⟩
      -- an earlier place would be the first
      rw [hfirst.2 _ hm] at hinvalid
      cases hinvalid

/-- At the first place where something is wrong, a repeated name has been looked at before, so it is
an identifier. -/
theorem OffendsFirstAt.isIdentifier {place : Nat} {owner : String}
    (h : OffendsFirstAt (κ := κ) component names place (.repeatedName name owner)) :
    Text.isIdentifier name = true := by
  cases h.offends with
  | repeated _ hearlier => exact (not_offendsAt_iff.1 h.first).2 name hearlier

/-! ## The names of a component -/

namespace Component

/-- The variables of a component are checked first, then its labels, then its constants unless they
are left alone. Each kind is compared with those before it. -/
def checkNamesByKind (component : Component κ) (options : CheckOptions) :
    Except (Violation κ) Unit := do
  checkNames component.displayName [] component.vars
  checkNames component.displayName component.vars.reverse component.labels
  if options.constants then
    checkNames component.displayName (component.labels.reverse ++ component.vars.reverse)
      component.constants.keys

/-- `checkNamesByKind` goes through the kinds as one list. -/
theorem checkNamesByKind_eq (component : Component κ) (options : CheckOptions) :
    component.checkNamesByKind options =
      checkNames component.displayName [] (component.checkedNames options) := by
  rw [checkNamesByKind, checkedNames, checkNames_append, checkNames_append, bind_assoc]
  simp only [List.append_nil, List.reverse_append]
  cases options.constants <;> rfl

end Component

namespace Tree

variable {tree : Tree κ} {options : CheckOptions} {c : Handle}

/-- `checkComponent` reports what is wrong with the names of a component, if the links of the
component are right. -/
theorem checkComponent_eq_error (hc : c.index < tree.size) (henabled : options.enabled = true)
    (hlinks : (tree.get c).checkLinks = .ok ())
    (hnames : (tree.get c).checkNamesByKind options = .error violation) :
    tree.checkComponent c options = .error violation := by
  obtain ⟨levels, hsize⟩ := Nat.exists_eq_succ_of_ne_zero (Nat.ne_of_gt (Nat.zero_lt_of_lt hc))
  rw [Component.checkNamesByKind_eq] at hnames
  -- the links pass, and the names come next
  rw [checkComponent, if_pos henabled, hsize, checkWithin, checkDeclarations]
  simp only [hlinks, hnames, Except.ok_bind, Except.error_bind]

/-- How the names of a component are checked. -/
structure ReportsFirstOffence (tree : Tree κ) (options : CheckOptions) (c : Handle) : Prop where
  accepts : (tree.get c).checkNamesByKind options = .ok () ↔
    ((tree.get c).checkedNames options).Nodup ∧
      ∀ name ∈ (tree.get c).checkedNames options, Text.isIdentifier name = true
  refuses : ∀ violation, (tree.get c).checkNamesByKind options = .error violation ↔
    ∃ place,
      OffendsFirstAt (tree.get c).displayName ((tree.get c).checkedNames options) place violation
  repeated : ∀ name owner,
    (tree.get c).checkNamesByKind options = .error (.repeatedName name owner) →
      Text.isIdentifier name = true
  /-- The names come right behind the links of the component. -/
  reported : (tree.get c).checkLinks = .ok () → ∀ violation,
    (tree.get c).checkNamesByKind options = .error violation →
      tree.checkComponent c options = .error violation

/-- The variables, the labels and, unless they are left alone, the constants of a component are
checked as one list. They pass if they are different identifiers. Otherwise the check ends at the
first place where a name is no identifier or comes again; a name that comes again is an identifier.
-/
theorem first_offending_name_is_reported (tree : Tree κ) (options : CheckOptions) (c : Handle)
    (hc : c.index < tree.size) (henabled : options.enabled = true) :
    tree.ReportsFirstOffence options c where
  accepts := by simp [Component.checkNamesByKind_eq, checkNames_eq_ok_iff]
  refuses _ := by rw [Component.checkNamesByKind_eq, checkNames_nil_eq_error_iff]
  repeated name owner h := by
    rw [Component.checkNamesByKind_eq, checkNames_nil_eq_error_iff] at h
    obtain ⟨place, hplace⟩ := h
    exact hplace.isIdentifier
  reported hlinks _ hnames := checkComponent_eq_error hc henabled hlinks hnames

/-- A component with a label that is a variable, and with a constant that is no identifier. -/
def conflictingNames : Tree Int :=
  .ofRoot { vars := ["x", "y"], constants := .ofList [("1st", none)], labels := ["go", "x"]
            body := .base .empty }

/-- In `conflictingNames` the label comes before the constant, and it offends although it is an
identifier. -/
theorem conflictingNames_report_label :
    conflictingNames.root.index < conflictingNames.size ∧
      conflictingNames.check {} = .error (.repeatedName "x" "<root>") ∧
      OffendsFirstAt (κ := Int) "<root>" ["x", "y", "go", "x", "1st"] 3
        (.repeatedName "x" "<root>") := by
  have hreports := first_offending_name_is_reported conflictingNames {} conflictingNames.root
    (by decide) rfl
  have hoffends : OffendsFirstAt (κ := Int) "<root>" ["x", "y", "go", "x", "1st"] 3
      (.repeatedName "x" "<root>") :=
    ⟨.repeated rfl (by decide), not_offendsAt_iff.2 (by decide)⟩
  exact ⟨by decide, hreports.reported rfl _ ((hreports.refuses _).2 ⟨3, hoffends⟩), hoffends⟩

end Tree

end HybridAutomata
