/-
  The subset construction is exact.

  `Explored` is the invariant of the search for subsets: the table holds distinct
  sets of states, and the successors of every set before the index under
  examination are in it. There are only `2 ^ size` sets, so the fuel of the search
  never runs out, and at its end the table is closed under successors
  (`successor_mem_subsets`). Hence the deterministic automaton has a state for
  every set that it refers to, and its edges lead to the sets that they should
  (`step?_ofNfa`, `mem_conditions_ofNfa`).
-/
import Mathlib.Algebra.Group.Nat.Defs
import Mathlib.Data.List.Sublists
import StyleStream.Machine
import StyleStream.Proofs.Closure

namespace StyleStream

namespace Nfa

variable {nfa : Nfa} {subset : List StateId} {label : Label} {condition : ConditionId}

/-! ### What a set of states reads -/

theorem mem_labelsOf : label ∈ nfa.labelsOf subset ↔
    ∃ q ∈ subset, ∃ t, t ∈ (nfa.state q).targets (.consume label) := by
  have hread : label ∈ (subset.flatMap fun id => (nfa.state id).edges).filterMap (·.event.label?) ↔
      ∃ q ∈ subset, ∃ t, t ∈ (nfa.state q).targets (.consume label) := by
    simp only [List.mem_filterMap, List.mem_flatMap, State.mem_targets]
    constructor
    · rintro ⟨⟨event, t⟩, ⟨q, hq, hedge⟩, hlabel⟩
      cases event <;> simp only [Event.label?, Option.some.injEq, reduceCtorEq] at hlabel
      exact ⟨q, hq, t, hlabel ▸ hedge⟩
    · rintro ⟨q, hq, t, hedge⟩
      exact ⟨_, ⟨q, hq, hedge⟩, rfl⟩
  rw [← hread, labelsOf]
  cases label with
  | name symbol =>
    simp only [List.mem_append, List.mem_map, mem_ascending, List.mem_filterMap, Label.name.injEq]
    constructor
    · rintro (⟨s, ⟨l, hl, hs⟩, rfl⟩ | h)
      · cases l <;> simp only [Option.some.injEq, reduceCtorEq] at hs
        exact hs ▸ hl
      · split at h <;> simp at h
    · intro h
      exact Or.inl ⟨symbol, ⟨.name symbol, h, rfl⟩, rfl⟩
  | sibling =>
    simp only [List.mem_append, List.mem_map, reduceCtorEq, and_false, exists_false, false_or]
    split
    · next h => simpa using h
    · next h => simpa using h

theorem mem_conditionsOf : condition ∈ nfa.conditionsOf subset ↔
    ∃ q ∈ subset, ∃ t, t ∈ (nfa.state q).targets (.guard condition) := by
  rw [conditionsOf, mem_ascending]
  simp only [List.mem_filterMap, List.mem_flatMap, State.mem_targets]
  constructor
  · rintro ⟨⟨event, t⟩, ⟨q, hq, hedge⟩, hcondition⟩
    cases event <;> simp only [Event.condition?, Option.some.injEq, reduceCtorEq] at hcondition
    exact ⟨q, hq, t, hcondition ▸ hedge⟩
  · rintro ⟨q, hq, t, hedge⟩
    exact ⟨_, ⟨q, hq, hedge⟩, rfl⟩

/-! ### The search -/

/-- The state of the search for subsets at the index `next`. -/
structure Explored (nfa : Nfa) (table : List (List StateId)) (next : Nat) : Prop where
  nodup : table.Nodup
  sublist : ∀ subset ∈ table, subset.Sublist (List.range nfa.size)
  /-- The successors of the sets examined so far are known. -/
  closed : ∀ i < next, ∀ subset, table[i]? = some subset →
    ∀ target ∈ nfa.successors subset, target ∈ table

theorem sublist_range_of_mem_successors {target : List StateId}
    (h : target ∈ nfa.successors subset) : target.Sublist (List.range nfa.size) := by
  rcases List.mem_append.1 h with h | h
  · obtain ⟨label, _, rfl⟩ := List.mem_map.1 h
    exact closure_sublist_range
  · obtain ⟨condition, _, rfl⟩ := List.mem_map.1 h
    exact closure_sublist_range

/-- There are only so many sets. -/
theorem Explored.length_le {table : List (List StateId)} {next : Nat}
    (h : Explored nfa table next) : table.length ≤ 2 ^ nfa.size := by
  have hsub : table ⊆ (List.range nfa.size).sublists := fun subset hs =>
    List.mem_sublists.2 (h.sublist subset hs)
  have := (h.nodup.subperm hsub).length_le
  rwa [List.length_sublists, List.length_range] at this

/-- One step of the search. -/
theorem Explored.examine {table : List (List StateId)} {next : Nat}
    (h : Explored nfa table next) (hsubset : table[next]? = some subset) :
    Explored nfa ((nfa.successors subset).foldl intern table) (next + 1) := by
  refine ⟨nodup_foldl_intern h.nodup, fun s hs => ?_, fun i hi s hs t ht => ?_⟩
  · rcases mem_foldl_intern.1 hs with hs | hs
    · exact h.sublist s hs
    · exact sublist_range_of_mem_successors hs
  · -- The table grew at its end, so the examined sets have kept their indices.
    obtain ⟨hlt, _⟩ := List.getElem?_eq_some_iff.1 hsubset
    have hold : table[i]? = some s := by
      have hkept := List.prefix_iff_getElem?.1
        (prefix_foldl_intern table (nfa.successors subset)) i (by omega)
      rw [List.getElem?_eq_getElem (by omega), ← hkept]
      exact hs
    rcases Nat.lt_succ_iff_lt_or_eq.1 hi with hi | rfl
    · exact mem_foldl_intern.2 (Or.inl (h.closed i hi s hold t ht))
    · rw [hold, Option.some.injEq] at hsubset
      exact mem_foldl_intern.2 (Or.inr (hsubset ▸ ht))

/-- **The search ends by itself**: with fuel for all sets that there are, it stops
because every set in the table has been examined. -/
theorem explored_explore : ∀ (fuel : Nat) {table : List (List StateId)} {next : Nat},
    Explored nfa table next → 2 ^ nfa.size ≤ fuel + next →
      Explored nfa (nfa.explore fuel table next) (nfa.explore fuel table next).length ∧
        table <+: nfa.explore fuel table next
  | 0, table, next, h, hfuel => by
    have := h.length_le
    exact ⟨⟨h.nodup, h.sublist, fun i hi => h.closed i (by simp only [explore] at hi; omega)⟩,
      List.prefix_rfl⟩
  | fuel + 1, table, next, h, hfuel => by
    unfold explore
    split
    · next hnone =>
      have := List.getElem?_eq_none_iff.1 hnone
      exact ⟨⟨h.nodup, h.sublist, fun i hi => h.closed i (by omega)⟩, List.prefix_rfl⟩
    · next subset hsubset =>
      obtain ⟨hdone, hprefix⟩ := explored_explore fuel (h.examine hsubset) (by omega)
      exact ⟨hdone, (prefix_foldl_intern table _).trans hprefix⟩

theorem explored_subsets (nfa : Nfa) :
    Explored nfa nfa.subsets nfa.subsets.length ∧ [nfa.initial] <+: nfa.subsets := by
  refine explored_explore _ ⟨List.nodup_singleton _, fun s hs => ?_, fun i hi => ?_⟩ ?_
  · rw [List.mem_singleton.1 hs]
    exact closure_sublist_range
  · omega
  · exact Nat.le_refl _

theorem getElem?_subsets_zero (nfa : Nfa) : nfa.subsets[0]? = some nfa.initial :=
  List.prefix_iff_getElem?.1 (explored_subsets nfa).2 0 (by simp)

/-- **The table of subsets is closed under successors.** -/
theorem successor_mem_subsets {target : List StateId} (hsubset : subset ∈ nfa.subsets)
    (htarget : target ∈ nfa.successors subset) : target ∈ nfa.subsets := by
  obtain ⟨i, hi, hget⟩ := List.getElem_of_mem hsubset
  exact (explored_subsets nfa).1.closed i hi subset (List.getElem?_eq_some_iff.2 ⟨hi, hget⟩)
    target htarget

end Nfa

/-! ### The automaton -/

namespace Dfa

variable {nfa : Nfa} {subset : List StateId} {id : StateId}

/-- The state with the number of a set stands for that set. -/
theorem state_ofNfa (h : nfa.subsets[id]? = some subset) :
    (ofNfa nfa).state id = State.ofSubset nfa nfa.subsets subset := by
  simp [ofNfa, state, Array.getD_eq_getD_getElem?, h]

/-- A number that no set has stands for nothing. -/
theorem state_ofNfa_of_none (h : nfa.subsets[id]? = none) : (ofNfa nfa).state id = .empty := by
  simp [ofNfa, state, Array.getD_eq_getD_getElem?, h]

theorem size_ofNfa : (ofNfa nfa).size = nfa.subsets.length := by
  simp [ofNfa, size]

/-- A member of what a state stands for says that the state exists. -/
theorem getElem?_of_mem_subset {q : StateId} (h : q ∈ ((ofNfa nfa).state id).subset) :
    nfa.subsets[id]? = some ((ofNfa nfa).state id).subset := by
  cases hs : nfa.subsets[id]? with
  | none =>
    rw [state_ofNfa_of_none hs] at h
    simp [State.empty] at h
  | some subset =>
    rw [state_ofNfa hs]
    rfl

theorem lt_size_of_mem_subset {q : StateId} (h : q ∈ ((ofNfa nfa).state id).subset) :
    id < (ofNfa nfa).size := by
  rw [size_ofNfa]
  exact (List.getElem?_eq_some_iff.1 (getElem?_of_mem_subset h)).1

/-- The number that the table gives to one of its sets stands for it. -/
theorem getElem?_idxOf (h : subset ∈ nfa.subsets) :
    nfa.subsets[nfa.subsets.idxOf subset]? = some subset := by
  rw [List.getElem?_eq_getElem (List.idxOf_lt_length_of_mem h), List.getElem_idxOf]

end Dfa

/-- States stand for states that exist. -/
theorem Nfa.lt_size_of_mem_subset {nfa : Nfa} {id q : StateId}
    (h : q ∈ ((Dfa.ofNfa nfa).state id).subset) : q < nfa.size := by
  have hmem := List.mem_of_getElem? (Dfa.getElem?_of_mem_subset h)
  exact List.mem_range.1 (((explored_subsets nfa).1.sublist _ hmem).subset h)

end StyleStream
