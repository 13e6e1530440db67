import HybridAutomata.Proofs.Expr.Folding
import HybridAutomata.Proofs.Expr.Substitution
/-!
# The places of an expression

A node of an expression lies at a place, which says which operand to take from the root down. The
places are put in order as lists of numbers are: a node comes before those below it, and an operand
before the operands to its right. A walk through an expression meets each place once, in this order,
and what is read off the walk is what lies at the places.

* `mem_places_iff`       the places at which there is a node
* `pairwise_places`      they are listed in order
* `map_nodeAt?_places`   with the nodes of the preorder
* `walkedInPreorder`     what a walk finds
-/

namespace HybridAutomata.Expr

variable {κ : Type}

/-- The node at a place, if there is one. -/
def nodeAt? : (place : List Nat) → Expr κ → Option (Expr κ)
  | [], e => some e
  | i :: place, e => e.operands[i]?.bind (nodeAt? place)

mutual
/-- The places of an expression: the root, then those of the operands from left to right. -/
def places : Expr κ → List (List Nat)
  | apply _ operands => [] :: placesAll 0 operands
  | _ => [[]]

/-- The places in operands that are counted from a start. -/
def placesAll : (start : Nat) → List (Expr κ) → List (List Nat)
  | _, [] => []
  | start, e :: rest => (places e).map (start :: ·) ++ placesAll (start + 1) rest
end

theorem places_eq (e : Expr κ) : e.places = [] :: placesAll 0 e.operands := by
  cases e <;> simp [places, operands, placesAll]

variable {e : Expr κ} {es front : List (Expr κ)} {place : List Nat} {start : Nat}

/-- `placesAll` are the places that begin with the number of an operand and go on inside it. -/
theorem mem_placesAll_iff :
    place ∈ placesAll start es ↔
      ∃ i e below, es[i]? = some e ∧ below ∈ e.places ∧ place = (start + i) :: below := by
  -- induction on the operands; numbers are counted from the start, so it varies
  induction es generalizing start with
  | nil => simp [placesAll]
  | cons e rest ih =>
    rw [placesAll, List.mem_append, List.mem_map, ih]
    constructor
    · rintro (⟨below, hb, rfl⟩ | ⟨i, other, below, ho, hb, rfl⟩)
      · exact ⟨0, e, below, rfl, hb, rfl⟩
      · exact ⟨i + 1, other, below, ho, hb, by rw [Nat.add_right_comm, Nat.add_assoc]⟩
    · rintro ⟨i, other, below, ho, hb, rfl⟩
      cases i with
      | zero =>
        obtain rfl := Option.some.inj ho
        exact .inl ⟨below, hb, rfl⟩
      | succ i => exact .inr ⟨i, other, below, ho, hb, by rw [Nat.add_right_comm, Nat.add_assoc]⟩

/-- `places` are those at which `nodeAt?` finds a node. -/
theorem mem_places_iff : place ∈ e.places ↔ (nodeAt? place e).isSome = true := by
  -- induction on the place, one operand deeper with each number
  induction place generalizing e with
  | nil => simp [places_eq, nodeAt?]
  | cons i below ih =>
    rw [places_eq, List.mem_cons, mem_placesAll_iff, nodeAt?]
    cases hi : e.operands[i]? with
    | none =>
      simp only [Nat.zero_add, List.cons.injEq, reduceCtorEq, false_or, Option.bind_none,
        Option.isSome_none, Bool.false_eq_true, iff_false]
      -- there is no operand of the number, and so no place that begins with it
      rintro ⟨_, _, _, hsome, -, rfl, -⟩
      rw [hi] at hsome
      cases hsome
    | some operand =>
      rw [Option.bind_some, ← ih]
      constructor
      · rintro (hnil | ⟨j, other, rest, ho, hm, heq⟩)
        · cases hnil
        · rw [Nat.zero_add] at heq
          obtain ⟨rfl, rfl⟩ := List.cons.inj heq
          obtain rfl := Option.some.inj (hi.symm.trans ho)
          exact hm
      · exact fun hm => .inr ⟨i, operand, below, hi, hm, by rw [Nat.zero_add]⟩

/-- `placesAll` are in order if the places of every operand are. -/
theorem pairwise_placesAll (h : ∀ e ∈ es, e.places.Pairwise (· < ·)) :
    (placesAll start es).Pairwise (· < ·) := by
  induction es generalizing start with
  | nil => exact .nil
  | cons e rest ih =>
    rw [List.forall_mem_cons] at h
    rw [placesAll, List.pairwise_append]
    refine ⟨List.pairwise_map.2 (h.1.imp fun hlt => ?_), ih h.2, fun left hl right hr => ?_⟩
    -- places in one operand are compared behind its number
    · exact List.cons_lt_cons_iff.2 (.inr ⟨rfl, hlt⟩)
    · -- the operand of the one place lies left of that of the other
      obtain ⟨below, -, rfl⟩ := List.mem_map.1 hl
      obtain ⟨i, _, below', -, -, rfl⟩ := mem_placesAll_iff.1 hr
      exact List.cons_lt_cons_iff.2 (.inl (by omega))

/-- `places` are in the order of lists of numbers. -/
theorem pairwise_places (e : Expr κ) : e.places.Pairwise (· < ·) := by
  -- the root comes before everything below it
  have hroot (operands : List (Expr κ)) :
      ∀ place ∈ placesAll 0 operands, ([] : List Nat) < place := by
    intro place hplace
    obtain ⟨i, _, below, -, -, rfl⟩ := mem_placesAll_iff.1 hplace
    exact List.nil_lt_cons ..
  induction e using induct with
  | apply op operands ih => exact .cons (hroot operands) (pairwise_placesAll ih)
  | bool | const | var => exact List.pairwise_singleton ..

/-- `nodeAt?` at the places in some operands finds the nodes of these operands in preorder. `front`
are the operands before them. -/
theorem map_nodeAt?_placesAll (he : e.operands = front ++ es)
    (h : ∀ e ∈ es, e.places.map (nodeAt? · e) = e.preorder.map some) :
    (placesAll front.length es).map (nodeAt? · e) = (preorderAll es).map some := by
  -- induction on the operands; each one that is done goes to `front`
  induction es generalizing front with
  | nil => rfl
  | cons operand rest ih =>
    rw [List.forall_mem_cons] at h
    -- the number of the operand leads to it from the whole expression
    have hoperand : e.operands[front.length]? = some operand := by simp [he]
    have hnext : e.operands = (front ++ [operand]) ++ rest := by simp [he]
    have hrest := ih hnext h.2
    rw [List.length_append, List.length_singleton] at hrest
    rw [placesAll, preorderAll, List.map_append, List.map_append, hrest, ← h.1, List.map_map]
    simp only [Function.comp_def, nodeAt?, hoperand, Option.bind_some]

/-- `nodeAt?` at the `places`, in order, gives the nodes of the `preorder`. -/
theorem map_nodeAt?_places (e : Expr κ) : e.places.map (nodeAt? · e) = e.preorder.map some := by
  induction e using induct with
  | apply op operands ih =>
    rw [places, preorder, List.map_cons, List.map_cons]
    have hoperands : (apply op operands).operands = [] ++ operands := rfl
    exact congrArg _ (map_nodeAt?_placesAll hoperands ih)
  | bool | const | var => rfl

/-- A node of the `preorder` is one that `nodeAt?` finds at some place. -/
theorem mem_preorder_iff {node : Expr κ} :
    node ∈ e.preorder ↔ ∃ place, nodeAt? place e = some node := by
  have hmem : node ∈ e.preorder ↔ some node ∈ e.places.map (nodeAt? · e) := by
    rw [map_nodeAt?_places]
    simp
  rw [hmem, List.mem_map]
  constructor
  · rintro ⟨place, -, hnode⟩
    exact ⟨place, hnode⟩
  -- where a node is found there is a place that is listed
  · rintro ⟨place, hnode⟩
    exact ⟨place, mem_places_iff.2 (by rw [hnode]; rfl), hnode⟩

/-- `mentions` finds a name just if it is a node. -/
theorem mentions_iff {name : String} : e.mentions name = true ↔ var name ∈ e.preorder := by
  rw [mentions, ← mem_vars_iff, vars, mem_firstOccurrences, List.any_eq_true, List.mem_filterMap]
  simp only [beq_iff_eq]

/-- What a walk through an expression finds. -/
structure WalkedInPreorder (e : Expr κ) : Prop where
  /-- A node comes first, then its operands from left to right. -/
  preorder : e.nodes = e.preorder
  /-- There is a node at every place that is listed and at no other, and no place is listed twice.
  -/
  places : e.places.Pairwise (· < ·) ∧ ∀ place, place ∈ e.places ↔ (nodeAt? place e).isSome = true
  nodes : e.nodes.map some = e.places.map (nodeAt? · e)
  /-- The names come in the order of their first occurrences. -/
  order : e.vars.Pairwise fun left right => e.occurrences.idxOf left < e.occurrences.idxOf right
  vars : ∀ name, name ∈ e.vars ↔ ∃ place, nodeAt? place e = some (.var name)
  mentions : ∀ name, e.mentions name = true ↔ ∃ place, nodeAt? place e = some (.var name)
  uses : ∀ op, e.uses op = true ↔ ∃ place operands, nodeAt? place e = some (.apply op operands)

/-- Every expression is walked in preorder. -/
theorem walkedInPreorder (e : Expr κ) : e.WalkedInPreorder where
  -- each part is a lemma about the list of places or the list of nodes
  preorder := e.nodes_eq
  places := ⟨e.pairwise_places, fun _ => mem_places_iff⟩
  nodes := by rw [nodes_eq, map_nodeAt?_places]
  order := by
    rw [vars_eq_firstOccurrences]
    exact pairwise_firstOccurrences _
  vars _ := mem_vars_iff.trans mem_preorder_iff
  mentions _ := mentions_iff.trans mem_preorder_iff
  uses op := by
    rw [uses_iff, exists_comm]
    exact exists_congr fun _ => mem_preorder_iff

end HybridAutomata.Expr
