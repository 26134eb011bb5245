/-
  How a builder grows.

  A builder only appends, and a new edge leads to a new state: this is `Extends`.
  For a fragment more is true (`Part`): its entry and its exit are new, and nothing
  leads to the entry yet. So once a fragment is finished, whatever is built later
  can reach it through its entry alone, and the edges into its other states are
  known for good.
-/
import StyleStream.Nfa.Builder

namespace StyleStream

namespace Nfa

namespace Builder

/-! ### Well-formed builders -/

/-- All states that the edges mention exist. -/
structure WellFormed (b : Builder) : Prop where
  /-- The start and the accepting state exist. -/
  two_le : 2 ≤ b.size
  source_lt : ∀ l ∈ b.links, l.source < b.size
  target_lt : ∀ l ∈ b.links, l.edge.target < b.size

theorem WellFormed.start_lt {b : Builder} (hb : b.WellFormed) : start < b.size :=
  Nat.lt_of_lt_of_le Nat.two_pos hb.two_le

theorem WellFormed.accept_lt {b : Builder} (hb : b.WellFormed) : Nfa.accept < b.size :=
  Nat.lt_of_lt_of_le Nat.one_lt_two hb.two_le

theorem wellFormed_empty (labels : Labels) : WellFormed { labels } :=
  ⟨Nat.le_refl 2, fun _ h => absurd h List.not_mem_nil, fun _ h => absurd h List.not_mem_nil⟩

/-- The states of the finished automaton are the states made. -/
theorem state_build {b : Builder} {q : StateId} (hq : q < b.size) :
    b.build.state q = b.state q := by
  simp [Nfa.state, build, Array.getD_eq_getD_getElem?, hq]

/-- There are no others. -/
theorem state_build_of_not_lt {b : Builder} {q : StateId} (hq : ¬q < b.size) :
    b.build.state q = {} := by
  simp [Nfa.state, build, Array.getD_eq_getD_getElem?, hq]

/-- The edges of the finished automaton are the edges made. -/
theorem mem_targets_build {b : Builder} (hb : b.WellFormed) {event : Event} {q x : StateId} :
    x ∈ (b.build.state q).targets event ↔ ⟨q, event, x⟩ ∈ b.links := by
  have hstate : x ∈ (b.state q).targets event ↔ ⟨q, event, x⟩ ∈ b.links := by
    simp only [Builder.state, State.targets, List.mem_filterMap, List.mem_map, List.mem_filter,
      decide_eq_true_eq, Option.ite_none_right_eq_some, Option.some.injEq]
    constructor
    · rintro ⟨_, ⟨⟨source, edge⟩, ⟨hl, rfl⟩, rfl⟩, rfl, rfl⟩
      exact hl
    · intro hl
      exact ⟨_, ⟨_, ⟨hl, rfl⟩, rfl⟩, rfl, rfl⟩
  by_cases hq : q < b.size
  · rw [state_build hq]
    exact hstate
  · rw [state_build_of_not_lt hq]
    exact ⟨fun h => absurd h List.not_mem_nil, fun h => absurd (hb.source_lt _ h) hq⟩

/-! ### Growing -/

/-- `b'` is `b` with more labels, states and edges, and every new edge leads to a
new state. -/
structure Extends (b b' : Builder) : Prop where
  size_le : b.size ≤ b'.size
  links_subset : b.links ⊆ b'.links
  /-- A new edge leads from a state that exists to a new one. -/
  new_link : ∀ l ∈ b'.links, l ∈ b.links ∨
    l.source < b'.size ∧ b.size ≤ l.edge.target ∧ l.edge.target < b'.size
  names : b.labels.names <+: b'.labels.names
  conditions : b.labels.conditions <+: b'.labels.conditions
  acceptances : b'.acceptances = b.acceptances
  exits : b'.exits = b.exits

namespace Extends

variable {b b' b'' : Builder}

theorem refl (b : Builder) : b.Extends b :=
  ⟨Nat.le_refl _, List.Subset.refl _, fun _ h => Or.inl h, List.prefix_rfl, List.prefix_rfl, rfl,
    rfl⟩

theorem trans (h : b.Extends b') (h' : b'.Extends b'') : b.Extends b'' := by
  refine ⟨Nat.le_trans h.size_le h'.size_le, List.Subset.trans h.links_subset h'.links_subset,
    fun l hl => ?_, h.names.trans h'.names, h.conditions.trans h'.conditions,
    h'.acceptances.trans h.acceptances, h'.exits.trans h.exits⟩
  rcases h'.new_link l hl with hl | ⟨hsource, hge, hlt⟩
  · rcases h.new_link l hl with hl | ⟨hsource, hge, hlt⟩
    · exact Or.inl hl
    · exact Or.inr ⟨Nat.lt_of_lt_of_le hsource h'.size_le, hge, Nat.lt_of_lt_of_le hlt h'.size_le⟩
  · exact Or.inr ⟨hsource, Nat.le_trans h.size_le hge, hlt⟩

theorem grow (h : b.Extends b') (count : Nat) : b.Extends (b'.grow count) := by
  have hsize : b'.size ≤ (b'.grow count).size := Nat.le_add_right _ _
  refine { h with size_le := Nat.le_trans h.size_le hsize, new_link := fun l hl => ?_ }
  rcases h.new_link l hl with hl | ⟨hsource, hge, hlt⟩
  · exact Or.inl hl
  · exact Or.inr ⟨Nat.lt_of_lt_of_le hsource hsize, hge, Nat.lt_of_lt_of_le hlt hsize⟩

theorem internName (h : b.Extends b') (label : String) : b.Extends (b'.internName label) := by
  obtain ⟨tail, htail⟩ := exists_intern_eq_append b'.labels.names label
  have hnames : b'.labels.names <+: (b'.internName label).labels.names := ⟨tail, htail.symm⟩
  exact { h with names := h.names.trans hnames }

theorem internCondition (h : b.Extends b') (condition : Condition) :
    b.Extends (b'.internCondition condition) := by
  obtain ⟨tail, htail⟩ := exists_intern_eq_append b'.labels.conditions condition
  have hconditions : b'.labels.conditions <+: (b'.internCondition condition).labels.conditions :=
    ⟨tail, htail.symm⟩
  exact { h with conditions := h.conditions.trans hconditions }

/-- An edge may be made to any state that is new with respect to the builder that
one started from. -/
theorem link (h : b.Extends b') {source target : StateId} (event : Event)
    (hsource : source < b'.size) (hge : b.size ≤ target) (hlt : target < b'.size) :
    b.Extends (b'.link source event target) := by
  have hsubset : b'.links ⊆ (b'.link source event target).links := List.subset_append_left _ _
  refine { h with links_subset := List.Subset.trans h.links_subset hsubset, new_link := ?_ }
  intro l hl
  rcases List.mem_append.1 hl with hl | hl
  · exact h.new_link l hl
  · rw [List.mem_singleton.1 hl]
    exact Or.inr ⟨hsource, hge, hlt⟩

theorem wellFormed (h : b.Extends b') (hb : b.WellFormed) : b'.WellFormed := by
  have := h.size_le
  have := hb.two_le
  refine ⟨by omega, fun l hl => ?_, fun l hl => ?_⟩
  · rcases h.new_link l hl with hl | ⟨hsource, _, _⟩
    · exact Nat.lt_of_lt_of_le (hb.source_lt l hl) h.size_le
    · exact hsource
  · rcases h.new_link l hl with hl | ⟨_, _, hlt⟩
    · exact Nat.lt_of_lt_of_le (hb.target_lt l hl) h.size_le
    · exact hlt

end Extends

/-- A further condition is asked on an edge to a new state. -/
theorem extends_filter {b : Builder} {inner : Fragment} (hexit : inner.exit < b.size)
    (condition : Condition) : b.Extends (b.filter inner condition).2 :=
  (((Extends.refl b).internCondition condition).grow 1).link _ (Nat.lt_succ_of_lt hexit)
    (Nat.le_refl _) (Nat.lt_succ_self _)

/-- A bridge leaves a state that is there and arrives at a state that is there. -/
theorem extends_bridge {b : Builder} {exit : StateId} (hexit : exit < b.size)
    (combinator : Combinator) :
    b.Extends (b.bridge exit combinator).2 ∧
      (b.bridge exit combinator).1 < (b.bridge exit combinator).2.size := by
  cases combinator with
  | child => exact ⟨.refl b, hexit⟩
  | descendant =>
    have hnew : ∀ i < 4, b.size + i < b.size + 4 := fun i hi => Nat.add_lt_add_left hi _
    have hge : ∀ i, b.size ≤ b.size + i := fun i => Nat.le_add_right _ _
    -- Edge by edge: into the loop, on to an element or out, over the element, and back.
    have hentry := (((Extends.refl b).grow 4).internName anyLabel).link .epsilon
      (Nat.lt_of_lt_of_le hexit (hge 4)) (hge 0) (hnew 0 (by decide))
    have hbefore := hentry.link .epsilon (hnew 0 (by decide)) (hge 1) (hnew 1 (by decide))
    have hout := hbefore.link .epsilon (hnew 0 (by decide)) (hge 3) (hnew 3 (by decide))
    have hbehind := hout.link (.consume (.name ((b.internName anyLabel).labels.names.idxOf anyLabel)))
      (hnew 1 (by decide)) (hge 2) (hnew 2 (by decide))
    have hback := hbehind.link .epsilon (hnew 2 (by decide)) (hge 0) (hnew 0 (by decide))
    exact ⟨hback, hnew 3 (by decide)⟩
  | adjacent =>
    have hnew : ∀ i < 2, b.size + i < b.size + 2 := fun i hi => Nat.add_lt_add_left hi _
    have hge : ∀ i, b.size ≤ b.size + i := fun i => Nat.le_add_right _ _
    have hentry := ((Extends.refl b).grow 2).link .epsilon
      (Nat.lt_of_lt_of_le hexit (hge 2)) (hge 0) (hnew 0 (by decide))
    have hsibling := hentry.link (.consume .sibling) (hnew 0 (by decide)) (hge 1)
      (hnew 1 (by decide))
    exact ⟨hsibling, hnew 1 (by decide)⟩

/-! ### Fragments -/

/-- `part` is a finished fragment that was made on the way from `b` to `b'`. -/
structure Part (b b' : Builder) (part : Fragment) : Prop where
  extends_ : b.Extends b'
  entry_ge : b.size ≤ part.entry
  entry_lt : part.entry < b'.size
  exit_ge : b.size ≤ part.exit
  exit_lt : part.exit < b'.size
  /-- Nothing leads to the entry yet. -/
  entry_fresh : ∀ l ∈ b'.links, l.edge.target ≠ part.entry

namespace Part

variable {b b' : Builder} {part : Fragment}

theorem name (hb : b.WellFormed) (label : String) : Part b (b.name label).2 (b.name label).1 where
  extends_ := (((Extends.refl b).internName label).grow 2).link _
    (Nat.lt_add_of_pos_right (by decide)) (Nat.le_succ _) (Nat.lt_succ_self _)
  entry_ge := Nat.le_refl _
  entry_lt := Nat.lt_add_of_pos_right (by decide)
  exit_ge := Nat.le_succ _
  exit_lt := Nat.lt_succ_self _
  entry_fresh := by
    intro l hl
    rcases List.mem_append.1 hl with hl | hl
    · exact Nat.ne_of_lt (hb.target_lt l hl)
    · rw [List.mem_singleton.1 hl]
      exact Nat.succ_ne_self _

theorem filter (h : Part b b' part) (condition : Condition) :
    Part b (b'.filter part condition).2 (b'.filter part condition).1 where
  extends_ := h.extends_.trans (extends_filter h.exit_lt condition)
  entry_ge := h.entry_ge
  entry_lt := Nat.lt_succ_of_lt h.entry_lt
  exit_ge := h.extends_.size_le
  exit_lt := Nat.lt_succ_self _
  entry_fresh := by
    intro l hl
    rcases List.mem_append.1 hl with hl | hl
    · exact h.entry_fresh l hl
    · rw [List.mem_singleton.1 hl]
      exact Nat.ne_of_gt h.entry_lt

end Part

/-! ### The fragment of a selector -/

section Cases

variable {b b' : Builder} {part : Fragment} {combinator : Combinator} {left right inner : Selector}
  {condition : Condition}

theorem fragment_filtered : b.fragment (.filtered inner condition) = some (part, b') ↔
    ∃ part₁ b₁, b.fragment inner = some (part₁, b₁) ∧ b₁.filter part₁ condition = (part, b') := by
  rw [fragment]
  constructor
  · intro h
    obtain ⟨⟨part₁, b₁⟩, hinner, hfilter⟩ := Option.bind_eq_some_iff.1 h
    exact ⟨part₁, b₁, hinner, Option.some.inj hfilter⟩
  · rintro ⟨part₁, b₁, hinner, hfilter⟩
    exact Option.bind_eq_some_iff.2 ⟨_, hinner, congrArg some hfilter⟩

theorem fragment_combined_pseudo (h : right.isPseudo) :
    b.fragment (.combined combinator left right) = b.fragment left := by
  rw [fragment, if_pos h]

theorem fragment_combined (h : ¬right.isPseudo) :
    b.fragment (.combined combinator left right) = some (part, b') ↔
      ∃ head b₁ tail b₃, b.fragment left = some (head, b₁) ∧
        (b₁.bridge head.exit combinator).2.fragment right = some (tail, b₃) ∧
        part = ⟨head.entry, tail.exit⟩ ∧
        b' = b₃.link (b₁.bridge head.exit combinator).1 .epsilon tail.entry := by
  rw [fragment, if_neg h]
  constructor
  · intro h
    obtain ⟨⟨head, b₁⟩, hleft, h⟩ := Option.bind_eq_some_iff.1 h
    obtain ⟨⟨tail, b₃⟩, hright, h⟩ := Option.bind_eq_some_iff.1 h
    obtain ⟨rfl, rfl⟩ := Prod.mk.inj (Option.some.inj h)
    exact ⟨head, b₁, tail, b₃, hleft, hright, rfl, rfl⟩
  · rintro ⟨head, b₁, tail, b₃, hleft, hright, rfl, rfl⟩
    exact Option.bind_eq_some_iff.2 ⟨_, hleft, Option.bind_eq_some_iff.2 ⟨_, hright, rfl⟩⟩

end Cases

/-- **What is made for a selector is a fragment.** -/
theorem part_fragment {s : Selector} {b b' : Builder} {part : Fragment} (hb : b.WellFormed)
    (h : b.fragment s = some (part, b')) : Part b b' part := by
  induction s generalizing b part b' with
  | element test =>
    obtain ⟨rfl, rfl⟩ := Prod.mk.inj (Option.some.inj h)
    exact .name hb _
  | filtered inner condition ih =>
    obtain ⟨part₁, b₁, hinner, hfilter⟩ := fragment_filtered.1 h
    obtain ⟨rfl, rfl⟩ := Prod.mk.inj hfilter
    exact (ih hb hinner).filter condition
  | combined combinator left right ihl ihr =>
    by_cases hpseudo : right.isPseudo
    · exact ihl hb (fragment_combined_pseudo hpseudo ▸ h)
    · obtain ⟨head, b₁, tail, b₃, hleft, hright, rfl, rfl⟩ := (fragment_combined hpseudo).1 h
      have hhead := ihl hb hleft
      obtain ⟨hbridge, hplace⟩ := extends_bridge hhead.exit_lt combinator
      have htail := ihr (hbridge.wellFormed (hhead.extends_.wellFormed hb)) hright
      have hbase := hhead.extends_.trans hbridge
      have hends := hbase.trans htail.extends_
      refine ⟨hends.link _ (Nat.lt_of_lt_of_le hplace htail.extends_.size_le)
        (Nat.le_trans hbase.size_le htail.entry_ge) htail.entry_lt, hhead.entry_ge,
        Nat.lt_of_lt_of_le hhead.entry_lt (hbridge.trans htail.extends_).size_le,
        Nat.le_trans hbase.size_le htail.exit_ge, htail.exit_lt, fun l hl => ?_⟩
      -- Later parts lead to states that are newer than the entry of the head.
      have hentry : head.entry < (b₁.bridge head.exit combinator).2.size :=
        Nat.lt_of_lt_of_le hhead.entry_lt hbridge.size_le
      rcases List.mem_append.1 hl with hl | hl
      · rcases (hbridge.trans htail.extends_).new_link l hl with hl | ⟨_, hge, _⟩
        · exact hhead.entry_fresh l hl
        · exact Nat.ne_of_gt (Nat.lt_of_lt_of_le hhead.entry_lt hge)
      · rw [List.mem_singleton.1 hl]
        exact Nat.ne_of_gt (Nat.lt_of_lt_of_le hentry htail.entry_ge)
  | pseudo p =>
    obtain ⟨rfl, rfl⟩ := Prod.mk.inj (Option.some.inj h)
    exact .name hb _
  | unsupported text => cases h

/-- **A selector that is understood has a fragment.** -/
theorem isSome_fragment {s : Selector} (h : s.isSupported) (b : Builder) :
    (b.fragment s).isSome := by
  induction s generalizing b with
  | element test => rfl
  | filtered inner condition ih =>
    have hinner := ih (by rw [Selector.isSupported, Bool.and_eq_true] at h; exact h.1) b
    obtain ⟨made, hmade⟩ := Option.isSome_iff_exists.1 hinner
    rw [fragment, hmade]
    rfl
  | combined combinator left right ihl ihr =>
    rw [Selector.isSupported, Bool.and_eq_true] at h
    obtain ⟨made, hmade⟩ := Option.isSome_iff_exists.1 (ihl h.1 b)
    by_cases hpseudo : right.isPseudo
    · rw [fragment_combined_pseudo hpseudo, hmade]
      rfl
    · obtain ⟨made', hmade'⟩ :=
        Option.isSome_iff_exists.1 (ihr h.2 (made.2.bridge made.1.exit combinator).2)
      rw [Option.isSome_iff_exists]
      exact ⟨_, (fragment_combined hpseudo).2
        ⟨made.1, made.2, made'.1, made'.2, hmade, hmade', rfl, rfl⟩⟩
  | pseudo p => rfl
  | unsupported text => cases h

end Builder

end Nfa

end StyleStream
