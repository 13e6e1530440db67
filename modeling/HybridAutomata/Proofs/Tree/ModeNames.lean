import HybridAutomata.Proofs.Component.Body
import HybridAutomata.Proofs.Model.Queries
import HybridAutomata.Proofs.Tree.Location
import HybridAutomata.Tree.Modes
import Mathlib.Data.List.Forall2
/-!
# How modes are spelled

A mode of a tree has two spellings: a mode of each automaton, in the order of a walk, or the way to
one automaton and then one of its modes. Both are dotted lists of identifiers.

The search for the first spelling takes the modes off the text one after the other, and cannot tell
a text that ends behind a mode from one that has a dot left there. So it takes a dot at the end of a
list of modes as well, and this is the only text it takes that spells nothing.

* `takeModes_eq_some_iff`   what comes off a text, and what is left
* `hasModePath_iff`         the second spelling
* `modeExists_iff`          the texts that are taken for modes
* `modes_are_spelled_exactly_iff`   they are the spellings, and spellings with a dot at the end
-/

namespace HybridAutomata

variable {κ : Type}

/-- The names of the modes of a component; a network has none. -/
def Component.modeNames (component : Component κ) : List String :=
  match component.body with
  | .base automaton => automaton.modes.keys
  | .network _ => []

/-- The `modeNames` of an automaton are the names of its modes. -/
theorem Component.modeNames_of_base {component : Component κ} {automaton : Automaton κ}
    (h : component.body = .base automaton) : component.modeNames = automaton.modes.keys := by
  rw [modeNames, h]

/-- A component with `modeNames` is an automaton. -/
theorem Component.exists_automaton_of_mem_modeNames {component : Component κ} {mode : String}
    (h : mode ∈ component.modeNames) :
    ∃ automaton, component.body = .base automaton ∧ mode ∈ automaton.modes.keys := by
  rcases component with ⟨_, _, _, _, _, _, automaton | _⟩
  · exact ⟨automaton, rfl, h⟩
  · cases h

namespace Tree

/-! ## Spellings -/

/-- A list has one mode for each of the given automata, in their order. -/
def HasModes (tree : Tree κ) (modes : List String) (automata : List Handle) : Prop :=
  List.Forall₂ (fun mode c => mode ∈ (tree.get c).modeNames) modes automata

/-- A text lists one mode of each automaton, with dots between them. -/
def IsModeList (tree : Tree κ) (text : String) : Prop :=
  ∃ modes, tree.HasModes modes tree.baseComponents ∧ text = Text.join "." modes

/-- A text is the way from `c` to an automaton, followed by one of its modes. -/
def IsModePath (tree : Tree κ) (c : Handle) (text : String) : Prop :=
  ∃ names d mode, tree.follow c names = some d ∧ mode ∈ (tree.get d).modeNames ∧
    text = Text.join "." (names ++ [mode])

/-- A text names modes, in one of the two spellings. -/
def SpellsMode (tree : Tree κ) (text : String) : Prop :=
  tree.IsModeList text ∨ tree.IsModePath tree.root text

/-- A text is a list of modes with a dot at its end. -/
def IsDottedModeList (tree : Tree κ) (text : String) : Prop :=
  tree.baseComponents ≠ [] ∧ ∃ modes, tree.IsModeList modes ∧ text = modes ++ "."

/-- All instances and modes that can be reached are named by identifiers. -/
structure NamesModes (tree : Tree κ) : Prop where
  instances : ∀ c, tree.Reachable c → ∀ name ∈ (tree.get c).children.keys,
    Text.isIdentifier name = true
  modes : ∀ c, tree.Reachable c → ∀ mode ∈ (tree.get c).modeNames, Text.isIdentifier mode = true

variable {tree : Tree κ}

/-! ## Taking modes off a text -/

/-- A text starts with modes and goes on with the rest, or ends behind the last mode. -/
def Lists (modes : List String) (rest text : String) : Prop :=
  text = Text.join "." (modes ++ [rest]) ∨ modes ≠ [] ∧ text = Text.join "." modes ∧ rest = ""

theorem lists_nil_iff {rest text : String} : Lists [] rest text ↔ text = rest := by
  simp [Lists, Text.join]

/-- No text that `Lists` modes is empty. -/
theorem not_lists_empty {modes : List String} {rest : String} (hne : modes ≠ [])
    (hmodes : ∀ mode ∈ modes, mode ≠ "") : ¬ Lists modes rest "" := by
  obtain ⟨mode, others, rfl⟩ := List.exists_cons_of_ne_nil hne
  have hmode := hmodes mode List.mem_cons_self
  rintro (h | ⟨-, h, -⟩)
  · exact Text.join_ne_empty hmode h.symm
  · exact Text.join_ne_empty hmode h.symm

/-- A text `Lists` modes together just if it does so one part after the other. -/
theorem lists_append_iff {left right : List String} {rest text : String}
    (hright : ∀ mode ∈ right, mode ≠ "") :
    Lists (left ++ right) rest text ↔
      ∃ middle, Lists left middle text ∧ Lists right rest middle := by
  by_cases hl : left = []
  · subst hl
    simp [lists_nil_iff]
  by_cases hr : right = []
  · subst hr
    simp [lists_nil_iff]
  have hrest : right ++ [rest] ≠ [] := List.append_ne_nil_of_right_ne_nil _ (List.cons_ne_nil _ _)
  constructor
  · -- the middle is what the right part lists
    rintro (rfl | ⟨-, rfl, rfl⟩)
    · refine ⟨Text.join "." (right ++ [rest]), .inl ?_, .inl rfl⟩
      rw [List.append_assoc, Text.join_append hrest]
    · exact ⟨Text.join "." right, .inl (Text.join_append hr), .inr ⟨hr, rfl, rfl⟩⟩
  · rintro ⟨middle, rfl | ⟨-, -, rfl⟩, hm⟩
    · rcases hm with rfl | ⟨-, rfl, rfl⟩
      · refine .inl ?_
        rw [List.append_assoc, Text.join_append hrest]
      · exact .inr ⟨by simp [hl], (Text.join_append hr).symm, rfl⟩
    · -- the left part has used up the text
      exact absurd hm (not_lists_empty hr hright)

/-- `takeModes` takes one mode of an automaton off. -/
theorem takeModes_base_iff {c : Handle} {automaton : Automaton κ} {levels : Nat}
    {rest text : String} (hb : (tree.get c).body = .base automaton)
    (hdots : ∀ mode ∈ automaton.modes.keys, '.' ∉ mode.toList) :
    tree.takeModes (levels + 1) c text = some rest ↔
      ∃ mode ∈ automaton.modes.keys, Lists [mode] rest text := by
  have hone {mode : String} :
      Lists [mode] rest text ↔ text = mode ++ "." ++ rest ∨ text = mode ∧ rest = "" := by
    simp [Lists, Text.join]
  simp only [hone]
  rw [takeModes, hb]
  cases hcut : Text.cut? '.' text with
  | none =>
    -- the text is one mode, and nothing is left
    have hdot := Text.cut?_eq_none_iff.1 hcut
    simp only [Option.getD_none, Option.ite_none_right_eq_some, NameMap.contains_iff,
      Option.some.injEq]
    constructor
    · rintro ⟨hm, rfl⟩
      exact ⟨text, hm, .inr ⟨rfl, rfl⟩⟩
    · rintro ⟨mode, hm, rfl | ⟨rfl, rfl⟩⟩
      · exact absurd (Text.mem_toList_dotted mode rest) hdot
      · exact ⟨hm, rfl⟩
  | some cut =>
    -- the mode ends at the first dot
    obtain ⟨head, tail⟩ := cut
    simp only [Option.getD_some, Option.ite_none_right_eq_some, NameMap.contains_iff,
      Option.some.injEq]
    constructor
    · rintro ⟨hm, rfl⟩
      exact ⟨head, hm, .inl (Text.cut?_eq_some_iff.1 hcut).2⟩
    · rintro ⟨mode, hm, rfl | ⟨rfl, rfl⟩⟩
      · rw [Text.cut?_eq_some_iff.2 ⟨hdots mode hm, rfl⟩] at hcut
        obtain ⟨rfl, rfl⟩ := Prod.mk.inj (Option.some.inj hcut)
        exact ⟨hm, rfl⟩
      · rw [Text.cut?_of_not_mem (hdots text hm)] at hcut
        cases hcut

/-- The automata at and below a component, in the order of a walk. -/
def automataWithin (tree : Tree κ) (levels : Nat) (c : Handle) : List Handle :=
  (tree.preorder levels c).filter fun d => (tree.get d).isBase

/-- At an automaton, `automataWithin` stops. -/
theorem automataWithin_base {c : Handle} {automaton : Automaton κ} (levels : Nat)
    (hb : (tree.get c).body = .base automaton) : tree.automataWithin (levels + 1) c = [c] := by
  have hbase : (tree.get c).isBase = true := by rw [Component.isBase, hb]
  rw [automataWithin, preorder, flatMap_children, Component.children_of_base hb]
  simp [hbase]

/-- In a network, `automataWithin` collects what is below each instance. -/
theorem automataWithin_network {c : Handle} {children : NameMap Instance} (levels : Nat)
    (hb : (tree.get c).body = .network children) :
    tree.automataWithin (levels + 1) c =
      children.values.flatMap fun inst => tree.automataWithin levels inst.child := by
  have hbase : (tree.get c).isBase = false := by rw [Component.isBase, hb]
  rw [automataWithin, preorder, flatMap_children, Component.children_of_network hb,
    List.filter_cons_of_neg (by simp [hbase]), List.filter_flatMap, NameMap.values,
    List.flatMap_map]
  rfl

/-- `HasModes` for automata in two parts splits the modes in two parts as well. -/
theorem hasModes_append_iff {modes : List String} {left right : List Handle} :
    tree.HasModes modes (left ++ right) ↔ ∃ front back, modes = front ++ back ∧
      tree.HasModes front left ∧ tree.HasModes back right := by
  constructor
  · intro h
    exact ⟨_, _, (List.take_append_drop left.length modes).symm,
      List.forall₂_take_append modes left right h, List.forall₂_drop_append modes left right h⟩
  · rintro ⟨front, back, rfl, hl, hr⟩
    exact List.rel_append hl hr

/-- What holds of all modes of the automata holds of modes that `HasModes` picks. -/
theorem forall_of_hasModes {p : String → Prop} {modes : List String} {automata : List Handle}
    (hm : tree.HasModes modes automata)
    (hnames : ∀ c ∈ automata, ∀ mode ∈ (tree.get c).modeNames, p mode) :
    ∀ mode ∈ modes, p mode := by
  -- induction on the pairs of a mode and its automaton
  induction hm with
  | nil => simp
  | cons hmode _ ih =>
    rw [List.forall_mem_cons] at hnames ⊢
    exact ⟨hnames.1 _ hmode, ih hnames.2⟩

/-- If each item takes the modes of its automata off a text then `foldlM` over all items takes the
modes of all automata. -/
theorem foldlM_eq_some_iff {α : Type} {items : List α} {take : String → α → Option String}
    {automata : α → List Handle}
    (htake : ∀ item ∈ items, ∀ text rest, take text item = some rest ↔
      ∃ modes, tree.HasModes modes (automata item) ∧ Lists modes rest text)
    (hnames : ∀ c ∈ items.flatMap automata, ∀ mode ∈ (tree.get c).modeNames, mode ≠ "")
    {rest text : String} :
    items.foldlM take text = some rest ↔
      ∃ modes, tree.HasModes modes (items.flatMap automata) ∧ Lists modes rest text := by
  -- induction on the items, for all texts
  induction items generalizing text with
  | nil =>
    simp only [List.foldlM_nil, List.flatMap_nil, Option.pure_def, Option.some.injEq]
    constructor
    · rintro rfl
      exact ⟨[], .nil, lists_nil_iff.2 rfl⟩
    · rintro ⟨_, _ | _, hlists⟩
      exact lists_nil_iff.1 hlists
  | cons item others ih =>
    rw [List.flatMap_cons] at hnames ⊢
    have hothers := fun c hc => hnames c (List.mem_append_right _ hc)
    have hback {back : List String} (hb : tree.HasModes back (others.flatMap automata)) :=
      forall_of_hasModes hb hothers
    rw [List.foldlM_cons]
    simp only [Option.bind_eq_bind, Option.bind_eq_some_iff, hasModes_append_iff,
      htake item List.mem_cons_self,
      ih (fun other ho => htake other (List.mem_cons_of_mem _ ho)) hothers]
    -- what one item leaves goes to the next
    constructor
    · rintro ⟨middle, ⟨front, hf, hlf⟩, back, hb, hlb⟩
      exact ⟨front ++ back, ⟨front, back, rfl, hf, hb⟩,
        (lists_append_iff (hback hb)).2 ⟨middle, hlf, hlb⟩⟩
    · rintro ⟨_, ⟨front, back, rfl, hf, hb⟩, hlists⟩
      obtain ⟨middle, hlf, hlb⟩ := (lists_append_iff (hback hb)).1 hlists
      exact ⟨middle, ⟨front, hf, hlf⟩, back, hb, hlb⟩

/-- `automataWithin` a reachable component are `Reachable`. -/
theorem reachable_of_mem_automataWithin {c d : Handle} {levels : Nat} (hc : tree.Reachable c)
    (hd : d ∈ tree.automataWithin levels c) : tree.Reachable d := by
  obtain ⟨names, hf⟩ := hc
  obtain ⟨rest, -, hr⟩ := mem_preorder_iff.1 (List.mem_filter.1 hd).1
  refine ⟨names ++ rest, ?_⟩
  rw [follow_append, hf]
  exact hr

/-- `takeModes` takes a mode of each automaton off, in order, and nothing else. -/
theorem takeModes_eq_some_iff (h : tree.NamesModes) {levels : Nat} {c : Handle}
    (hc : tree.Reachable c) (hl : tree.Covers levels c) {rest text : String} :
    tree.takeModes levels c text = some rest ↔
      ∃ modes, tree.HasModes modes (tree.automataWithin levels c) ∧ Lists modes rest text := by
  -- induction on the levels; the texts vary, since each instance takes what the last one left
  induction levels generalizing c rest text with
  | zero => exact absurd hl (not_covers_zero tree c)
  | succ levels ih =>
    cases hb : (tree.get c).body with
    | base automaton =>
      have hmodes := Component.modeNames_of_base hb
      rw [automataWithin_base levels hb, takeModes_base_iff hb fun mode hm =>
        Text.not_mem_of_isIdentifier (h.modes c hc mode (hmodes ▸ hm))]
      constructor
      · rintro ⟨mode, hm, hlists⟩
        exact ⟨[mode], .cons (hmodes ▸ hm) .nil, hlists⟩
      · rintro ⟨_, _ | ⟨hm, _ | _⟩, hlists⟩
        exact ⟨_, hmodes ▸ hm, hlists⟩
    -- a network hands the text to its instances in order
    | network children =>
      have hchild {inst : Instance} (hi : inst ∈ children.values) :
          tree.Reachable inst.child ∧ tree.Covers levels inst.child := by
        obtain ⟨entry, he, rfl⟩ := List.mem_map.1 hi
        rw [← Component.children_of_network hb] at he
        exact ⟨hc.child he, hl.child he⟩
      rw [takeModes, hb, automataWithin_network levels hb]
      refine foldlM_eq_some_iff (fun inst hi text rest => ih (hchild hi).1 (hchild hi).2) ?_
      intro d hd mode hm
      obtain ⟨inst, hi, hd⟩ := List.mem_flatMap.1 hd
      have hreach := reachable_of_mem_automataWithin (hchild hi).1 hd
      exact Text.ne_empty_of_isIdentifier (h.modes d hreach mode hm)

/-! ## Following a path -/

/-- `hasModePath` decides `IsModePath`, from any component. -/
theorem hasModePath_iff {c : Handle} {text : String}
    (hdots : ∀ names d, tree.follow c names = some d → ∀ name ∈ names, '.' ∉ name.toList) :
    tree.hasModePath c text = true ↔ tree.IsModePath c text := by
  constructor
  · -- induction along the search, which puts one name in front of the way
    clear hdots
    fun_induction hasModePath tree c text with
    | case1 c text automaton hb =>
      intro h
      exact ⟨[], c, text, rfl, Component.modeNames_of_base hb ▸ NameMap.contains_iff.1 h, rfl⟩
    | case2 => simp
    | case3 c text children hb name rest hcut inst hi ih =>
      intro h
      obtain ⟨names, d, mode, hf, hm, rfl⟩ := ih h
      refine ⟨name :: names, d, mode, ?_, hm, ?_⟩
      · rw [follow, childNamed?, Component.children_of_network hb, hi]
        exact hf
      · rw [(Text.cut?_eq_some_iff.1 hcut).2, List.cons_append, Text.join_cons (by simp)]
    | case4 => simp
  · -- induction on the way, whose first name the search cuts off
    rintro ⟨names, d, mode, hf, hm, rfl⟩
    induction names generalizing c with
    | nil =>
      obtain rfl := Option.some.inj hf
      obtain ⟨automaton, hb, hm⟩ := Component.exists_automaton_of_mem_modeNames hm
      rw [hasModePath, hb]
      exact NameMap.contains_iff.2 hm
    | cons name rest ih =>
      have hname := hdots _ _ hf name List.mem_cons_self
      obtain ⟨inst, he, hrest⟩ := follow_cons_iff.1 hf
      have hnext := ih (fun names d' hd other ho => hdots (name :: names) d'
        (follow_cons_iff.2 ⟨inst, he, hd⟩) other (List.mem_cons_of_mem _ ho)) hrest
      cases hb : (tree.get c).body with
      | base automaton =>
        rw [Component.children_of_base hb] at he
        cases he
      | network children =>
        rw [Component.children_of_network hb] at he
        have hcut : Text.cut? '.' (Text.join "." (name :: (rest ++ [mode]))) =
            some (name, Text.join "." (rest ++ [mode])) := Text.cut?_join (by simp) hname
        rw [List.cons_append, hasModePath, hb]
        simp only
        split
        · next h => cases hcut.symm.trans h
        · next h =>
          obtain ⟨rfl, rfl⟩ := Prod.mk.inj (Option.some.inj (hcut.symm.trans h))
          rw [NameMap.get?_eq_some_iff.2 he]
          exact hnext

/-! ## The texts that are taken for modes -/

/-- The names on a way through a tree that `NamesModes` are identifiers. -/
theorem NamesModes.isIdentifier_of_follow (h : tree.NamesModes) {c d : Handle}
    {names : List String} (hc : tree.Reachable c) (hf : tree.follow c names = some d) :
    ∀ name ∈ names, Text.isIdentifier name = true := by
  induction names generalizing c with
  | nil => simp
  | cons name rest ih =>
    obtain ⟨inst, he, hf⟩ := follow_cons_iff.1 hf
    exact List.forall_mem_cons.2
      ⟨h.instances c hc name (NameMap.mem_keys_of_mem he), ih (hc.child he) hf⟩

/-- `baseComponents` are `Reachable`. -/
theorem reachable_of_mem_baseComponents {c : Handle} (hc : c ∈ tree.baseComponents) :
    tree.Reachable c := by
  rw [baseComponents, descendants_eq] at hc
  exact reachable_of_mem_automataWithin tree.reachable_root hc

/-- Modes that `HasModes` picks from reachable automata are identifiers. -/
theorem NamesModes.isIdentifier_of_hasModes (h : tree.NamesModes) {modes : List String}
    {automata : List Handle} (hm : tree.HasModes modes automata)
    (hreach : ∀ c ∈ automata, tree.Reachable c) : ∀ mode ∈ modes, Text.isIdentifier mode = true :=
  forall_of_hasModes hm fun c hc => h.modes c (hreach c hc)

/-- `IsDottedModeList` in terms of names: an empty name stands behind the modes. -/
theorem isDottedModeList_iff {text : String} :
    tree.IsDottedModeList text ↔ ∃ modes, modes ≠ [] ∧
      tree.HasModes modes tree.baseComponents ∧ text = Text.join "." (modes ++ [""]) := by
  -- there is a mode for each automaton
  have hempty {modes : List String} (hm : tree.HasModes modes tree.baseComponents) :
      tree.baseComponents ≠ [] ↔ modes ≠ [] := by
    rw [← List.length_pos_iff, ← hm.length_eq, List.length_pos_iff]
  constructor
  · rintro ⟨hne, _, ⟨modes, hm, rfl⟩, rfl⟩
    refine ⟨modes, (hempty hm).1 hne, hm, ?_⟩
    rw [Text.join_concat ((hempty hm).1 hne), String.append_empty]
  · rintro ⟨modes, hne, hm, rfl⟩
    refine ⟨(hempty hm).2 hne, _, ⟨modes, hm, rfl⟩, ?_⟩
    rw [Text.join_concat hne, String.append_empty]

/-- A spelling has no empty name, so `IsDottedModeList` and `SpellsMode` exclude each other. -/
theorem NamesModes.not_spellsMode (h : tree.NamesModes) {text : String}
    (hd : tree.IsDottedModeList text) : ¬ tree.SpellsMode text := by
  obtain ⟨modes, hne, hm, rfl⟩ := isDottedModeList_iff.1 hd
  have hmodes := h.isIdentifier_of_hasModes hm fun c hc => reachable_of_mem_baseComponents hc
  -- a dotted list of identifiers can be taken apart, and no identifier is empty
  have key {names : List String} (hnames : ∀ name ∈ names, Text.isIdentifier name = true)
      (hn : names ≠ []) : Text.join "." (modes ++ [""]) ≠ Text.join "." names := by
    intro he
    have hdots : ∀ name ∈ modes ++ [""], '.' ∉ name.toList := by
      intro name hname
      rcases List.mem_append.1 hname with hname | hname
      · exact Text.not_mem_of_isIdentifier (hmodes name hname)
      · rw [List.mem_singleton.1 hname]
        exact List.not_mem_nil
    have heq := Text.join_inj (by simp) hn hdots
      (fun name hname => Text.not_mem_of_isIdentifier (hnames name hname)) he
    have hlast : "" ∈ names := heq ▸ List.mem_append_right _ List.mem_cons_self
    exact Text.ne_empty_of_isIdentifier (hnames "" hlast) rfl
  rintro (⟨others, ho, he⟩ | ⟨names, d, mode, hf, hmode, he⟩)
  · refine key (h.isIdentifier_of_hasModes ho fun c hc => reachable_of_mem_baseComponents hc) ?_ he
    rintro rfl
    rw [← List.length_pos_iff, hm.length_eq, ← ho.length_eq] at hne
    cases hne
  · refine key (fun name hname => ?_) (by simp) he
    rcases List.mem_append.1 hname with hname | hname
    · exact h.isIdentifier_of_follow tree.reachable_root hf name hname
    · rw [List.mem_singleton.1 hname]
      exact h.modes d ⟨names, hf⟩ mode hmode

/-- `modeExists` takes the texts that `SpellsMode`, and those that are `IsDottedModeList`, and no
others. -/
theorem modeExists_iff (hlinked : tree.Linked) (h : tree.NamesModes) {text : String} :
    tree.modeExists tree.root text = true ↔ tree.SpellsMode text ∨ tree.IsDottedModeList text := by
  -- the first spelling leaves nothing, or an empty name behind the modes
  have htake : tree.takeModes tree.size tree.root text = some "" ↔
      tree.IsModeList text ∨ tree.IsDottedModeList text := by
    rw [takeModes_eq_some_iff h tree.reachable_root (hlinked.covers tree.reachable_root),
      isDottedModeList_iff, IsModeList, baseComponents, descendants_eq]
    constructor
    · rintro ⟨modes, hm, rfl | ⟨-, rfl, -⟩⟩
      · by_cases hne : modes = []
        · subst hne
          exact .inl ⟨[], hm, rfl⟩
        · exact .inr ⟨modes, hne, hm, rfl⟩
      · exact .inl ⟨modes, hm, rfl⟩
    · rintro (⟨modes, hm, rfl⟩ | ⟨modes, -, hm, rfl⟩)
      · by_cases hne : modes = []
        · subst hne
          exact ⟨[], hm, .inl rfl⟩
        · exact ⟨modes, hm, .inr ⟨hne, rfl, rfl⟩⟩
      · exact ⟨modes, hm, .inl rfl⟩
  have hpath : tree.hasModePath tree.root text = true ↔ tree.IsModePath tree.root text :=
    hasModePath_iff fun names d hf name hn =>
      Text.not_mem_of_isIdentifier (h.isIdentifier_of_follow tree.reachable_root hf name hn)
  rw [modeExists, Bool.or_eq_true, beq_iff_eq, htake, hpath, SpellsMode]
  exact or_right_comm

/-- A `WellFormed` tree `NamesModes`. -/
theorem WellFormed.namesModes (h : tree.WellFormed) : tree.NamesModes where
  instances c hc name hname := by
    obtain ⟨inst, he⟩ := NameMap.mem_keys_iff.1 hname
    rw [NameMap.get?_eq_some_iff] at he
    obtain ⟨names, hf⟩ := hc
    -- the name of an instance is checked where its child is checked
    have hlink := ((h.nodeOk hf).instances _ he).linkOk
    have hchild : tree.follow tree.root (names ++ [name]) = some inst.child :=
      follow_concat_iff.2 ⟨c, inst, hf, he, rfl⟩
    exact (h.nodeOk hchild).ownName name hlink.childName
  modes c hc mode hm := by
    obtain ⟨names, hf⟩ := hc
    obtain ⟨automaton, hb, hm⟩ := Component.exists_automaton_of_mem_modeNames hm
    exact ((h.nodeOk hf).automaton automaton hb).isIdentifier_of_mem_keys hm

/-- In a tree with consistent links whose instances and modes are named by identifiers, a text is
taken for a mode just if it spells one, unless it is a list of modes with a dot at the end. -/
theorem modes_are_spelled_exactly_iff (tree : Tree κ) (hlinked : tree.Linked)
    (hnames : tree.NamesModes) (text : String) :
    (tree.modeExists tree.root text = true ↔ tree.SpellsMode text) ↔
      ¬ tree.IsDottedModeList text := by
  rw [modeExists_iff hlinked hnames]
  constructor
  · intro h hd
    exact hnames.not_spellsMode hd (h.1 (.inr hd))
  · exact fun hd => or_iff_left hd

end Tree

/-! ## Modes of a clock and a lamp -/

/-- `clockAndLamp` takes `run.off` for modes, which spells the mode of the clock and a mode of the
lamp. -/
theorem clockAndLamp_spells_modes_exactly :
    clockAndLamp.tree.Linked ∧ clockAndLamp.tree.NamesModes ∧
      (clockAndLamp.tree.modeExists clockAndLamp.tree.root "run.off" = true ↔
        clockAndLamp.tree.SpellsMode "run.off") := by
  have hchecked : clockAndLamp.tree.WellFormed :=
    ⟨rfl, rfl, Except.eq_ok_of_isOk (by decide +kernel)⟩
  refine ⟨hchecked.linked, hchecked.namesModes,
    (Tree.modes_are_spelled_exactly_iff clockAndLamp.tree hchecked.linked hchecked.namesModes
      "run.off").2 fun hd => ?_⟩
  obtain ⟨-, modes, -, he⟩ := hd
  -- the last character is no dot
  have hlast := congrArg (fun text => text.toList.getLast?) he
  rw [String.toList_append, Text.toList_dot, List.getLast?_concat] at hlast
  exact absurd hlast (by decide)

/-- `clockAndLamp` takes `run.off.` for modes as well: a dot at the end is overlooked. -/
theorem mode_with_final_dot_is_taken :
    clockAndLamp.check = .ok () ∧
      clockAndLamp.tree.modeExists clockAndLamp.tree.root "run.off." = true ∧
      ¬ clockAndLamp.tree.SpellsMode "run.off." := by
  have hchecked : clockAndLamp.tree.WellFormed :=
    ⟨rfl, rfl, Except.eq_ok_of_isOk (by decide +kernel)⟩
  -- the modes of the clock and of the lamp, in the order of the walk
  have hmodes : clockAndLamp.tree.HasModes ["run", "off"] clockAndLamp.tree.baseComponents := by
    have hbase : clockAndLamp.tree.baseComponents = [⟨3⟩, ⟨2⟩] := by decide +kernel
    rw [hbase]
    exact .cons (by decide) (.cons (by decide) .nil)
  have hdotted : clockAndLamp.tree.IsDottedModeList "run.off." :=
    Tree.isDottedModeList_iff.2 ⟨["run", "off"], List.cons_ne_nil _ _, hmodes, rfl⟩
  exact ⟨Except.eq_ok_of_isOk (by decide +kernel),
    (Tree.modeExists_iff hchecked.linked hchecked.namesModes).2 (.inr hdotted),
    hchecked.namesModes.not_spellsMode hdotted⟩

end HybridAutomata
