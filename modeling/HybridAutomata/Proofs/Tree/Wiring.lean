import HybridAutomata.Component.Basic
import Mathlib.Logic.Relation
/-!
# Wiring

A component is linked to others in two ways: it names the network around it and the name it has
there, and if it is a network it names its children. `Links` is what is left of a component when
everything else is forgotten. Here a function gives the links of each handle, and a handle that is
linked to nothing has none.

A wiring is consistent if both ways agree and the way up from each component ends: `Wired`. There
are two ways of changing a wiring: wirings of different handles are put side by side, and a
component without a parent becomes the child of a component that is not below it.

* `Wired.union`    two wirings side by side
* `Wired.attach`   a component becomes a child
-/

namespace HybridAutomata

/-- The links of a component: the network around it, its own name, and its children with their names
and the network that each entry names as its own. -/
structure Links where
  parent : Option Handle := none
  name : Option String := none
  ports : List (String × Handle × Handle) := []

variable {κ : Type}

/-- The links of a component. -/
def Component.links (component : Component κ) : Links where
  parent := component.parent
  name := component.instanceName
  ports := component.children.entries.map fun entry => (entry.1, entry.2.parent, entry.2.child)

namespace Links

/-- One component names another one as the network around it. -/
def IsParent (links : Handle → Links) (parent c : Handle) : Prop :=
  (links c).parent = some parent

/-- A component is at or above another one. -/
def IsAbove (links : Handle → Links) : Handle → Handle → Prop :=
  Relation.ReflTransGen (IsParent links)

/-- The links of one component agree with those of the others. -/
structure WiredAt (links : Handle → Links) (c : Handle) : Prop where
  /-- A child names the network around it, and bears the name of its entry. -/
  port : ∀ name owner child, (name, owner, child) ∈ (links c).ports →
    owner = c ∧ (links child).parent = some c ∧ (links child).name = some name
  /-- A component with a parent is a child there, under its own name. -/
  placed : ∀ parent, (links c).parent = some parent →
    ∃ name, (links c).name = some name ∧ (name, parent, c) ∈ (links parent).ports
  /-- A component without a parent has no name. -/
  unnamed : (links c).parent = none → (links c).name = none
  /-- The way up ends. -/
  climbs : Acc (IsParent links) c

/-- All links agree with each other. -/
def Wired (links : Handle → Links) : Prop :=
  ∀ c, WiredAt links c

variable {links links' left right : Handle → Links}

/-- A handle with a port has links. -/
theorem ne_none_of_mem_ports {c : Handle} {port : String × Handle × Handle}
    (h : port ∈ (links c).ports) : links c ≠ {} := by
  intro he
  rw [he] at h
  cases h

/-- A handle with a parent has links. -/
theorem ne_none_of_parent {c parent : Handle} (h : (links c).parent = some parent) :
    links c ≠ {} := by
  intro he
  rw [he] at h
  cases h

/-- A wiring without any links is `Wired`. -/
theorem wired_of_none (h : ∀ c, links c = {}) : Wired links := by
  intro c
  -- a handle without links has neither an entry nor a parent
  constructor
  case port =>
    intro name owner child hp
    exact absurd (h c) (ne_none_of_mem_ports hp)
  case placed =>
    intro parent hp
    exact absurd (h c) (ne_none_of_parent hp)
  case unnamed =>
    intro _
    rw [h c]
  case climbs =>
    exact ⟨c, fun parent hp => absurd (h c) (ne_none_of_parent hp)⟩

/-! ## Wirings side by side -/

/-- `WiredAt` carries over from a part to a larger wiring at the handles where the two agree. -/
theorem Wired.at_of_agree (h : Wired left) (hagree : ∀ c, left c ≠ {} → links c = left c)
    {c : Handle} (hc : links c = left c) : WiredAt links c := by
  constructor
  case port =>
    intro name owner child hp
    rw [hc] at hp
    obtain ⟨howner, hparent, hname⟩ := (h c).port name owner child hp
    -- a child is linked, so it has the same links in both wirings
    rw [hagree child (ne_none_of_parent hparent)]
    exact ⟨howner, hparent, hname⟩
  case placed =>
    intro parent hp
    rw [hc] at hp
    obtain ⟨name, hname, hport⟩ := (h c).placed parent hp
    rw [hagree parent (ne_none_of_mem_ports hport), hc]
    exact ⟨name, hname, hport⟩
  case unnamed =>
    rw [hc]
    exact (h c).unnamed
  case climbs =>
    -- the way up stays in the part
    induction (h c).climbs with
    | intro c _ ih =>
      refine ⟨c, fun parent hp => ?_⟩
      rw [IsParent, hc] at hp
      obtain ⟨name, -, hport⟩ := (h c).placed parent hp
      exact ih parent hp (hagree parent (ne_none_of_mem_ports hport))

/-- Two `Wired` wirings of different handles can be put side by side. -/
theorem Wired.union (hl : Wired left) (hr : Wired right)
    (h : ∀ c, (links c = left c ∧ right c = {}) ∨ (links c = right c ∧ left c = {})) :
    Wired links := by
  have hleft (c : Handle) (hc : left c ≠ {}) : links c = left c := by
    rcases h c with ⟨he, -⟩ | ⟨-, he⟩
    · exact he
    · exact absurd he hc
  have hright (c : Handle) (hc : right c ≠ {}) : links c = right c := by
    rcases h c with ⟨-, he⟩ | ⟨he, -⟩
    · exact absurd he hc
    · exact he
  -- each handle has the links that one of the two parts gives it
  intro c
  rcases h c with ⟨hc, -⟩ | ⟨hc, -⟩
  · exact hl.at_of_agree hleft hc
  · exact hr.at_of_agree hright hc

/-! ## A new child -/

/-- What becomes of a wiring when a component becomes the child of another one. -/
structure IsAttached (links links' : Handle → Links) (parent : Handle) (name : String)
    (child : Handle) : Prop where
  child_parent : (links' child).parent = some parent
  child_name : (links' child).name = some name
  child_ports : (links' child).ports = (links child).ports
  parent_parent : (links' parent).parent = (links parent).parent
  parent_name : (links' parent).name = (links parent).name
  parent_ports : (links' parent).ports = (links parent).ports ++ [(name, parent, child)]
  others : ∀ c, c ≠ child → c ≠ parent → links' c = links c

namespace IsAttached

variable {parent child c : Handle} {name : String}

/-- `IsAttached` keeps the parents of all but the child. -/
theorem parent_of_ne (h : IsAttached links links' parent name child) (hc : c ≠ child) :
    (links' c).parent = (links c).parent := by
  by_cases hp : c = parent
  · rw [hp, h.parent_parent]
  · rw [h.others c hc hp]

/-- `IsAttached` keeps the names of all but the child. -/
theorem name_of_ne (h : IsAttached links links' parent name child) (hc : c ≠ child) :
    (links' c).name = (links c).name := by
  by_cases hp : c = parent
  · rw [hp, h.parent_name]
  · rw [h.others c hc hp]

/-- `IsAttached` keeps the entries of all but the parent. -/
theorem ports_of_ne (h : IsAttached links links' parent name child) (hc : c ≠ parent) :
    (links' c).ports = (links c).ports := by
  by_cases hch : c = child
  · rw [hch, h.child_ports]
  · rw [h.others c hch hc]

/-- `IsAttached` adds the new entry and changes no other. -/
theorem mem_ports_iff (h : IsAttached links links' parent name child)
    {port : String × Handle × Handle} :
    port ∈ (links' c).ports ↔
      port ∈ (links c).ports ∨ c = parent ∧ port = (name, parent, child) := by
  by_cases hc : c = parent
  · rw [hc, h.parent_ports, List.mem_append, List.mem_singleton]
    simp
  · rw [h.ports_of_ne hc]
    simp [hc]

/-- `IsAttached` lets the way up end still: a component that is not below the child has the way it
had, and the new parent is not below the child. -/
theorem acc (h : IsAttached links links' parent name child) (hw : Wired links)
    (hbelow : ¬ IsAbove links child parent) (c : Handle) : Acc (IsParent links') c := by
  -- beside the child nothing has changed on the way up
  have haside (d : Handle) (hd : ¬ IsAbove links child d) : Acc (IsParent links') d := by
    induction (hw d).climbs with
    | intro d _ ih =>
      have hne : d ≠ child := fun he => hd (he ▸ .refl)
      refine ⟨d, fun p hp => ?_⟩
      have hold : IsParent links p d := by
        rwa [IsParent, h.parent_of_ne hne] at hp
      exact ih p hold fun habove => hd (habove.tail hold)
  have hchild : Acc (IsParent links') child := by
    refine ⟨child, fun p hp => ?_⟩
    obtain rfl := Option.some.inj (hp.symm.trans h.child_parent)
    exact haside p hbelow
  -- from anywhere else, the way up is the old one until it meets the child
  induction (hw c).climbs with
  | intro c _ ih =>
    by_cases hc : c = child
    · rwa [hc]
    · refine ⟨c, fun p hp => ih p ?_⟩
      rwa [IsParent, h.parent_of_ne hc] at hp

end IsAttached

/-- In a `Wired` wiring a component without a parent can become the child of a component that is not
below it. -/
theorem Wired.attach {parent child : Handle} {name : String} (hw : Wired links)
    (h : IsAttached links links' parent name child) (hfree : (links child).parent = none)
    (hbelow : ¬ IsAbove links child parent) : Wired links' := by
  intro c
  constructor
  case port =>
    intro name' owner child' hp
    rcases h.mem_ports_iff.1 hp with hp | ⟨rfl, he⟩
    · -- an old entry leads to a component with a parent
      obtain ⟨howner, hparent, hname⟩ := (hw c).port name' owner child' hp
      have hne : child' ≠ child := by
        rintro rfl
        cases hparent.symm.trans hfree
      rw [h.parent_of_ne hne, h.name_of_ne hne]
      exact ⟨howner, hparent, hname⟩
    · cases he
      exact ⟨rfl, h.child_parent, h.child_name⟩
  case placed =>
    intro p hp
    -- the child itself is placed by the new entry
    by_cases hc : c = child
    · subst hc
      obtain rfl := Option.some.inj (hp.symm.trans h.child_parent)
      exact ⟨name, h.child_name, h.mem_ports_iff.2 (.inr ⟨rfl, rfl⟩)⟩
    · rw [h.parent_of_ne hc] at hp
      obtain ⟨name', hname, hport⟩ := (hw c).placed p hp
      exact ⟨name', (h.name_of_ne hc).trans hname, h.mem_ports_iff.2 (.inl hport)⟩
  case unnamed =>
    intro hp
    have hc : c ≠ child := by
      rintro rfl
      cases hp.symm.trans h.child_parent
    rw [h.parent_of_ne hc] at hp
    rw [h.name_of_ne hc]
    exact (hw c).unnamed hp
  case climbs => exact h.acc hw hbelow c

/-- A component without children `IsAbove` itself only. -/
theorem Wired.eq_of_isAbove {c d : Handle} (hw : Wired links) (hports : (links c).ports = [])
    (h : IsAbove links c d) : d = c := by
  rcases h.cases_head with he | ⟨b, hb, -⟩
  · exact he.symm
  · obtain ⟨name, -, hport⟩ := (hw b).placed c hb
    rw [hports] at hport
    cases hport

/-- Only a component without a parent itself `IsAbove` it. -/
theorem eq_of_isAbove_of_parent {c d : Handle} (hparent : (links d).parent = none)
    (h : IsAbove links c d) : d = c := by
  rcases h.cases_tail with he | ⟨b, -, hb⟩
  · exact he
  · cases hb.symm.trans hparent

end Links

end HybridAutomata
