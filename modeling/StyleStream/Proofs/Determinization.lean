/-
  The deterministic automaton is the subset automaton, and no more than that.

  `Dfa.ofNfa` first finds the table of subsets and then reads the states off it. Here the
  construction is followed as a loop that makes one state in each round (`Rounds`): it
  numbers the successors of the subset under examination, most of which have no state yet,
  and goes on while there are subsets without a state. `rounds_ofNfa` says that this loop ends by
  itself, after one round for each state, with the states of `Dfa.ofNfa`. The numbers that are
  given out early are right because the table only grows at its end.

  `IsSubsetAutomaton` collects what the construction promises: each state stands for a set of its
  own, can be reached, and has exactly the edges and declarations that its members have. The
  invariants of the search carry over to all subsets by `subsets_invariant`.
-/
import Mathlib.Logic.Relation
import StyleStream.Proofs.Refusal

namespace StyleStream

/-! ### Automata whose edges lead somewhere -/

namespace Nfa

variable {nfa : Nfa} {subset : List StateId} {label : Label} {condition : ConditionId}

/-- The start state exists, and so do the states that edges lead to. -/
structure Bounded (nfa : Nfa) : Prop where
  start_lt : start < nfa.size
  target_lt : ∀ q, ∀ edge ∈ (nfa.state q).edges, edge.target < nfa.size

theorem Builder.size_build (b : Builder) : b.build.size = b.size := by
  show (Array.map b.state (Array.range b.size)).size = b.size
  rw [Array.size_map, Array.size_range]

theorem Builder.WellFormed.bounded_build {b : Builder} (hb : b.WellFormed) : b.build.Bounded where
  start_lt := by
    rw [b.size_build]
    exact hb.start_lt
  target_lt q edge hedge := by
    have hlink := (mem_targets_build hb).1 (State.mem_targets.2 hedge)
    rw [b.size_build]
    exact hb.target_lt _ hlink

theorem Bounded.closure_eq_nil_iff (h : nfa.Bounded) {sources : List StateId} {event : Event} :
    nfa.closure (nfa.targets sources event) = [] ↔ nfa.targets sources event = [] := by
  constructor
  · intro hclosure
    apply List.eq_nil_iff_forall_not_mem.2
    intro t ht
    obtain ⟨q, -, hq⟩ := mem_targets.1 ht
    have hmem := mem_closure_of_mem ht (h.target_lt q _ (State.mem_targets.1 hq))
    rw [hclosure] at hmem
    exact List.not_mem_nil hmem
  · intro htargets
    apply List.eq_nil_iff_forall_not_mem.2
    intro x hx
    obtain ⟨s, hs, -⟩ := mem_closure_iff_exists.1 hx
    rw [htargets] at hs
    exact List.not_mem_nil hs

theorem targets_eq_nil_iff {sources : List StateId} {event : Event} :
    nfa.targets sources event = [] ↔ ¬∃ q ∈ sources, ∃ t, t ∈ (nfa.state q).targets event := by
  rw [List.eq_nil_iff_forall_not_mem]
  constructor
  · rintro h ⟨q, hq, t, ht⟩
    exact h t (mem_targets.2 ⟨q, hq, ht⟩)
  · intro h t ht
    obtain ⟨q, hq, ht⟩ := mem_targets.1 ht
    exact h ⟨q, hq, t, ht⟩

/-- **Nothing is read under a label that no member has.** -/
theorem Bounded.step_eq_nil_iff (h : nfa.Bounded) :
    nfa.step subset label = [] ↔ label ∉ nfa.labelsOf subset := by
  rw [mem_labelsOf, ← targets_eq_nil_iff]
  exact h.closure_eq_nil_iff

theorem Bounded.pass_eq_nil_iff (h : nfa.Bounded) :
    nfa.pass subset condition = [] ↔ condition ∉ nfa.conditionsOf subset := by
  rw [mem_conditionsOf, ← targets_eq_nil_iff]
  exact h.closure_eq_nil_iff

/-- A closure is closed. -/
theorem closure_closure {seeds : List StateId} :
    nfa.closure (nfa.closure seeds) = nfa.closure seeds := by
  refine eq_of_pairwise_of_mem_iff pairwise_closure pairwise_closure fun x => ?_
  constructor
  · intro hx
    replace hx := mem_closure.1 hx
    induction hx with
    | seed hseed _ => exact hseed
    | step _ hy hlt ih => exact mem_closure_of_edge ih hy hlt
  · intro hx
    exact mem_closure_of_mem hx (lt_size_of_mem_closure hx)

/-! ### What holds of all subsets -/

theorem explore_invariant {P : List StateId → Prop}
    (hstep : ∀ subset, P subset → ∀ target ∈ nfa.successors subset, P target) :
    ∀ (fuel : Nat) (table : List (List StateId)) (next : Nat), (∀ subset ∈ table, P subset) →
      ∀ subset ∈ nfa.explore fuel table next, P subset
  | 0, _, _, h => h
  | fuel + 1, table, next, h => by
    unfold explore
    split
    · exact h
    · next subset hsubset =>
      apply explore_invariant hstep fuel
      intro target htarget
      rcases mem_foldl_intern.1 htarget with htarget | htarget
      · exact h target htarget
      · exact hstep subset (h subset (List.mem_of_getElem? hsubset)) target htarget

/-- **What the search preserves holds of all that it finds.** -/
theorem subsets_invariant {P : List StateId → Prop} (hinitial : P nfa.initial)
    (hstep : ∀ subset, P subset → ∀ target ∈ nfa.successors subset, P target) :
    ∀ subset ∈ nfa.subsets, P subset := by
  apply explore_invariant hstep
  intro subset hsubset
  rw [List.mem_singleton.1 hsubset]
  exact hinitial

theorem closure_of_mem_subsets (h : subset ∈ nfa.subsets) : nfa.closure subset = subset := by
  refine subsets_invariant (P := fun subset => nfa.closure subset = subset) closure_closure
    (fun subset _ target htarget => ?_) subset h
  rcases List.mem_append.1 htarget with htarget | htarget
  · obtain ⟨label, -, rfl⟩ := List.mem_map.1 htarget
    exact closure_closure
  · obtain ⟨condition, -, rfl⟩ := List.mem_map.1 htarget
    exact closure_closure

theorem Bounded.ne_nil_of_mem_subsets (hnfa : nfa.Bounded) (h : subset ∈ nfa.subsets) :
    subset ≠ [] := by
  refine subsets_invariant (P := (· ≠ [])) ?_ (fun subset _ target htarget => ?_) subset h
  · exact List.ne_nil_of_mem (mem_closure_of_mem (List.mem_singleton_self _) hnfa.start_lt)
  · rcases List.mem_append.1 htarget with htarget | htarget
    · obtain ⟨label, hlabel, rfl⟩ := List.mem_map.1 htarget
      exact fun hnil => hnfa.step_eq_nil_iff.1 hnil hlabel
    · obtain ⟨condition, hcondition, rfl⟩ := List.mem_map.1 htarget
      exact fun hnil => hnfa.pass_eq_nil_iff.1 hnil hcondition

end Nfa

namespace Dfa

variable {nfa : Nfa} {subset : List StateId} {id : StateId}

/-! ### The construction as a loop -/

/-- The loop of the construction, begun with a table of subsets and the states of the first of
them, ends after some rounds with all states. A round numbers the successors of the first
subset that has no state, and makes its state. -/
inductive Rounds (nfa : Nfa) :
    Nat → List (List StateId) → List State → List State → Prop where
  /-- Every subset has its state. -/
  | done {table : List (List StateId)} {states : List State} :
    table[states.length]? = none → Rounds nfa 0 table states states
  | round {rounds : Nat} {table : List (List StateId)} {states result : List State}
    {subset : List StateId} : table[states.length]? = some subset →
      Rounds nfa rounds ((nfa.successors subset).foldl intern table)
        (states ++ [.ofSubset nfa ((nfa.successors subset).foldl intern table) subset]) result →
      Rounds nfa (rounds + 1) table states result

/-- The loop runs in one way only. -/
theorem Rounds.unique {rounds rounds' : Nat} {table : List (List StateId)}
    {states result result' : List State} (h : Rounds nfa rounds table states result)
    (h' : Rounds nfa rounds' table states result') : rounds = rounds' ∧ result = result' := by
  induction h generalizing rounds' with
  | done hnone =>
    cases h' with
    | done _ => exact ⟨rfl, rfl⟩
    | round hsome _ =>
      rw [hnone] at hsome
      cases hsome
  | round hsome _ ih =>
    cases h' with
    | done hnone =>
      rw [hnone] at hsome
      cases hsome
    | round hsome' h' =>
      obtain rfl := Option.some.inj (hsome.symm.trans hsome')
      obtain ⟨hrounds, hresult⟩ := ih h'
      exact ⟨congrArg (· + 1) hrounds, hresult⟩

/-- **Numbers are given out for good**: the state made from the table of its round is the one
made from the table in the end. -/
theorem ofSubset_eq_of_grows {table table' : List (List StateId)} (hgrows : table <+: table')
    (hmem : ∀ target ∈ nfa.successors subset, target ∈ table) :
    State.ofSubset nfa table subset = State.ofSubset nfa table' subset := by
  have hlabels : ∀ label ∈ nfa.labelsOf subset,
      (label, table.idxOf (nfa.step subset label)) =
        (label, table'.idxOf (nfa.step subset label)) := by
    intro label hlabel
    rw [hgrows.idxOf_eq_of_mem (hmem _ (List.mem_append_left _ (List.mem_map_of_mem hlabel)))]
  have hconditions : ∀ condition ∈ nfa.conditionsOf subset,
      (condition, table.idxOf (nfa.pass subset condition)) =
        (condition, table'.idxOf (nfa.pass subset condition)) := by
    intro condition hcondition
    rw [hgrows.idxOf_eq_of_mem
      (hmem _ (List.mem_append_right _ (List.mem_map_of_mem hcondition)))]
  unfold State.ofSubset
  rw [List.map_congr_left hlabels, List.map_congr_left hconditions]

/-- With fuel for all sets that there are, the search finds what the loop finds, and the loop
goes through one round for each subset that has no state yet. -/
theorem rounds_explore : ∀ (fuel : Nat) {table : List (List StateId)} {states : List State},
    Nfa.Explored nfa table states.length → 2 ^ nfa.size ≤ fuel + states.length →
      states.length ≤ table.length →
      let final := nfa.explore fuel table states.length
      states = (final.take states.length).map (.ofSubset nfa final) →
        Rounds nfa (final.length - states.length) table states (final.map (.ofSubset nfa final))
  | 0, table, states, h, hfuel, hle => by
    intro final hstates
    have hlength := h.length_le
    have hfinal : final = table := rfl
    rw [hfinal, List.take_of_length_le (by omega)] at hstates
    rw [hfinal, ← hstates, Nat.sub_eq_zero_of_le (by omega)]
    exact .done (List.getElem?_eq_none_iff.2 (by omega))
  | fuel + 1, table, states, h, hfuel, hle => by
    intro final hstates
    cases hnext : table[states.length]? with
    | none =>
      have hlength := List.getElem?_eq_none_iff.1 hnext
      have hfinal : final = table := by
        simp only [final, Nfa.explore, hnext]
      rw [hfinal, List.take_of_length_le hlength] at hstates
      rw [hfinal, ← hstates, Nat.sub_eq_zero_of_le hlength]
      exact .done hnext
    | some subset =>
      obtain ⟨hlt, -⟩ := List.getElem?_eq_some_iff.1 hnext
      let grown := (nfa.successors subset).foldl intern table
      have hfinal : final = nfa.explore fuel grown (states.length + 1) := by
        simp only [final, grown, Nfa.explore, hnext]
      have hgrown : Nfa.Explored nfa grown (states.length + 1) := h.examine hnext
      have hgrows : grown <+: final := by
        rw [hfinal]
        exact (Nfa.explored_explore fuel hgrown (by omega)).2
      have htable : table <+: final := (prefix_foldl_intern table _).trans hgrows
      have hlength := htable.length_le
      -- The state of this round is the one that the final table gives.
      have hstate : State.ofSubset nfa grown subset = State.ofSubset nfa final subset :=
        ofSubset_eq_of_grows hgrows fun target htarget => mem_foldl_intern.2 (Or.inr htarget)
      have hget : final[states.length]? = some subset := by
        rw [← hnext, List.getElem?_eq_getElem hlt]
        exact List.prefix_iff_getElem?.1 htable _ hlt
      have hstates' : states ++ [State.ofSubset nfa grown subset] =
          (final.take (states.length + 1)).map (.ofSubset nfa final) := by
        rw [List.take_add_one, hget, List.map_append, ← hstates, hstate]
        rfl
      have hsize : (states ++ [State.ofSubset nfa grown subset]).length = states.length + 1 :=
        List.length_append
      have ih := @rounds_explore fuel grown (states ++ [State.ofSubset nfa grown subset])
      rw [hsize, ← hfinal] at ih
      have hrounds := ih hgrown (by omega)
        (Nat.lt_of_lt_of_le hlt (prefix_foldl_intern table _).length_le) hstates'
      have hcount : final.length - states.length = final.length - (states.length + 1) + 1 := by
        omega
      rw [hcount]
      exact .round hnext hrounds

/-- **The loop ends by itself** with the states of the automaton, after one round for each. -/
theorem rounds_ofNfa {rounds : Nat} {result : List State} :
    Rounds nfa rounds [nfa.initial] [] result ↔
      rounds = (ofNfa nfa).size ∧ result = (ofNfa nfa).states.toList := by
  have hstart : Nfa.Explored nfa [nfa.initial] 0 :=
    ⟨List.nodup_singleton _, fun s hs => List.mem_singleton.1 hs ▸ Nfa.closure_sublist_range,
      fun i hi => absurd hi (Nat.not_lt_zero i)⟩
  have hrounds : Rounds nfa nfa.subsets.length [nfa.initial] []
      (nfa.subsets.map (.ofSubset nfa nfa.subsets)) :=
    @rounds_explore nfa (Nat.pow 2 nfa.size) [nfa.initial] [] hstart (Nat.le_refl _)
      (Nat.zero_le _) rfl
  have hstates : (ofNfa nfa).states.toList = nfa.subsets.map (.ofSubset nfa nfa.subsets) := rfl
  rw [size_ofNfa, hstates]
  constructor
  · intro h
    exact h.unique hrounds
  · rintro ⟨rfl, rfl⟩
    exact hrounds

/-! ### Subset automata -/

/-- An edge leads from a state to a state, over a label or over a condition. -/
def Edge (dfa : Dfa) (source target : StateId) : Prop :=
  (∃ label, dfa.step? source label = some target) ∨
    ∃ condition, (condition, target) ∈ (dfa.state source).conditions

/-- `dfa` is the automaton of the sets of states of `nfa` that can be reached. -/
structure IsSubsetAutomaton (nfa : Nfa) (dfa : Dfa) : Prop where
  start_lt : start < dfa.size
  subset_start : (dfa.state start).subset = nfa.closure [Nfa.start]
  /-- No set has two states. -/
  subset_injective : ∀ id < dfa.size, ∀ id' < dfa.size,
    (dfa.state id).subset = (dfa.state id').subset → id = id'
  subset_ne_nil : ∀ id < dfa.size, (dfa.state id).subset ≠ []
  subset_ascending : ∀ id < dfa.size, (dfa.state id).subset.Pairwise (· < ·)
  subset_closed : ∀ id < dfa.size, nfa.closure (dfa.state id).subset = (dfa.state id).subset
  reachable : ∀ id < dfa.size, Relation.ReflTransGen dfa.Edge start id
  /-- A label leads nowhere exactly if no member of the set can read it. -/
  step?_eq_none_iff : ∀ id < dfa.size, ∀ label,
    dfa.step? id label = none ↔ nfa.step (dfa.state id).subset label = []
  subset_of_step? : ∀ id < dfa.size, ∀ label target, dfa.step? id label = some target →
    target < dfa.size ∧ (dfa.state target).subset = nfa.step (dfa.state id).subset label
  conditions_ascending : ∀ id < dfa.size,
    ((dfa.state id).conditions.map (·.1)).Pairwise (· < ·)
  /-- A condition has an edge exactly if it guards an edge out of a member of the set. -/
  exists_condition_iff : ∀ id < dfa.size, ∀ condition,
    (∃ target, (condition, target) ∈ (dfa.state id).conditions) ↔
      nfa.targets (dfa.state id).subset (.guard condition) ≠ []
  subset_of_condition : ∀ id < dfa.size, ∀ condition target,
    (condition, target) ∈ (dfa.state id).conditions →
      target < dfa.size ∧ (dfa.state target).subset =
        nfa.closure (nfa.targets (dfa.state id).subset (.guard condition))
  declarations_ascending : ∀ id < dfa.size, (dfa.state id).declarations.Pairwise (· < ·)
  mem_declarations : ∀ id < dfa.size, ∀ declaration,
    declaration ∈ (dfa.state id).declarations ↔
      ∃ q ∈ (dfa.state id).subset, declaration ∈ (nfa.state q).declarations
  pseudoDeclarations_ascending : ∀ id < dfa.size,
    (dfa.state id).pseudoDeclarations.Pairwise (· < ·)
  mem_pseudoDeclarations : ∀ id < dfa.size, ∀ declaration,
    declaration ∈ (dfa.state id).pseudoDeclarations ↔
      ∃ q ∈ (dfa.state id).subset, declaration ∈ (nfa.state q).pseudoDeclarations

/-- A state that exists stands for the subset with its number. -/
theorem getElem?_subsets_of_lt (h : id < (ofNfa nfa).size) :
    nfa.subsets[id]? = some ((ofNfa nfa).state id).subset := by
  rw [size_ofNfa] at h
  have hget := List.getElem?_eq_getElem h
  rw [hget, state_ofNfa hget]
  rfl

theorem idxOf_lt_size (h : subset ∈ nfa.subsets) : nfa.subsets.idxOf subset < (ofNfa nfa).size := by
  rw [size_ofNfa]
  exact List.idxOf_lt_length_of_mem h

theorem idxOf_subset (h : id < (ofNfa nfa).size) :
    nfa.subsets.idxOf ((ofNfa nfa).state id).subset = id := by
  obtain ⟨hlt, hget⟩ := List.getElem?_eq_some_iff.1 (getElem?_subsets_of_lt h)
  rw [← hget]
  exact (Nfa.explored_subsets nfa).1.nodup.idxOf_getElem id hlt

theorem idxOf_initial : nfa.subsets.idxOf nfa.initial = start := by
  obtain ⟨hlt, hget⟩ := List.getElem?_eq_some_iff.1 (Nfa.getElem?_subsets_zero nfa)
  have hidx := (Nfa.explored_subsets nfa).1.nodup.idxOf_getElem 0 hlt
  rwa [hget] at hidx

/-- Edges lead from a set to its successors. -/
theorem edge_of_mem_successors {target : List StateId} (hsubset : subset ∈ nfa.subsets)
    (h : target ∈ nfa.successors subset) :
    (ofNfa nfa).Edge (nfa.subsets.idxOf subset) (nfa.subsets.idxOf target) := by
  have hget := getElem?_idxOf hsubset
  rcases List.mem_append.1 h with h | h
  · obtain ⟨label, hlabel, rfl⟩ := List.mem_map.1 h
    exact Or.inl ⟨label, (step?_ofNfa hget).2 ⟨hlabel, rfl⟩⟩
  · obtain ⟨condition, hcondition, rfl⟩ := List.mem_map.1 h
    exact Or.inr ⟨condition, (mem_conditions_ofNfa hget).2 ⟨hcondition, rfl⟩⟩

/-- **Every state can be reached.** -/
theorem reachable_ofNfa (h : id < (ofNfa nfa).size) :
    Relation.ReflTransGen (ofNfa nfa).Edge start id := by
  have hmem := List.mem_of_getElem? (getElem?_subsets_of_lt h)
  have hreached : ∀ subset ∈ nfa.subsets, subset ∈ nfa.subsets ∧
      Relation.ReflTransGen (ofNfa nfa).Edge start (nfa.subsets.idxOf subset) := by
    apply Nfa.subsets_invariant
    · rw [idxOf_initial]
      exact ⟨List.mem_of_getElem? (Nfa.getElem?_subsets_zero nfa), .refl⟩
    · rintro subset ⟨hsubset, hreached⟩ target htarget
      exact ⟨Nfa.successor_mem_subsets hsubset htarget,
        hreached.tail (edge_of_mem_successors hsubset htarget)⟩
  have hid := (hreached _ hmem).2
  rwa [idxOf_subset h] at hid

/-- **The subset construction makes the subset automaton** of every automaton whose edges lead
somewhere. -/
theorem isSubsetAutomaton_ofNfa (hnfa : nfa.Bounded) : IsSubsetAutomaton nfa (ofNfa nfa) := by
  have hmem : ∀ {id}, id < (ofNfa nfa).size → ((ofNfa nfa).state id).subset ∈ nfa.subsets :=
    fun h => List.mem_of_getElem? (getElem?_subsets_of_lt h)
  have hconditions : ∀ {id}, id < (ofNfa nfa).size →
      ((ofNfa nfa).state id).conditions.map (·.1) =
        nfa.conditionsOf ((ofNfa nfa).state id).subset := by
    intro id h
    rw [state_ofNfa (getElem?_subsets_of_lt h)]
    show List.map _ (List.map _ _) = _
    rw [List.map_map]
    exact List.map_id _
  have hlists : ∀ {id}, id < (ofNfa nfa).size →
      ((ofNfa nfa).state id).declarations.Pairwise (· < ·) ∧
        ((ofNfa nfa).state id).pseudoDeclarations.Pairwise (· < ·) := by
    intro id h
    rw [state_ofNfa (getElem?_subsets_of_lt h)]
    exact ⟨pairwise_ascending _, pairwise_ascending _⟩
  constructor
  case start_lt =>
    rw [size_ofNfa]
    exact (List.getElem?_eq_some_iff.1 (Nfa.getElem?_subsets_zero nfa)).1
  case subset_start =>
    rw [start, state_ofNfa (Nfa.getElem?_subsets_zero nfa)]
    rfl
  case subset_injective =>
    intro id h id' h' heq
    rw [← idxOf_subset h, heq, idxOf_subset h']
  case subset_ne_nil =>
    intro id h
    exact hnfa.ne_nil_of_mem_subsets (hmem h)
  case subset_ascending =>
    intro id h
    rw [← Nfa.closure_of_mem_subsets (hmem h)]
    exact Nfa.pairwise_closure
  case subset_closed =>
    intro id h
    exact Nfa.closure_of_mem_subsets (hmem h)
  case reachable =>
    intro id h
    exact reachable_ofNfa h
  case step?_eq_none_iff =>
    intro id h label
    rw [hnfa.step_eq_nil_iff, Option.eq_none_iff_forall_ne_some]
    simp only [ne_eq, step?_ofNfa (getElem?_subsets_of_lt h)]
    constructor
    · intro hnone hlabel
      exact hnone _ ⟨hlabel, rfl⟩
    · rintro hlabel target ⟨hlabel', -⟩
      exact hlabel hlabel'
  case subset_of_step? =>
    intro id h label target hstep
    obtain ⟨hlabel, rfl⟩ := (step?_ofNfa (getElem?_subsets_of_lt h)).1 hstep
    refine ⟨idxOf_lt_size ?_, subset_idxOf_step (getElem?_subsets_of_lt h) hlabel⟩
    exact Nfa.successor_mem_subsets (hmem h)
      (List.mem_append_left _ (List.mem_map_of_mem hlabel))
  case conditions_ascending =>
    intro id h
    rw [hconditions h]
    exact pairwise_ascending _
  case exists_condition_iff =>
    intro id h condition
    rw [ne_eq, Nfa.targets_eq_nil_iff, not_not, ← Nfa.mem_conditionsOf, ← hconditions h]
    simp only [List.mem_map, Prod.exists, exists_and_right, exists_eq_right]
  case subset_of_condition =>
    intro id h condition target hedge
    obtain ⟨hcondition, rfl⟩ := (mem_conditions_ofNfa (getElem?_subsets_of_lt h)).1 hedge
    refine ⟨idxOf_lt_size ?_, subset_idxOf_pass (getElem?_subsets_of_lt h) hcondition⟩
    exact Nfa.successor_mem_subsets (hmem h)
      (List.mem_append_right _ (List.mem_map_of_mem hcondition))
  case declarations_ascending =>
    intro id h
    exact (hlists h).1
  case mem_declarations =>
    intro id _ declaration
    exact Machine.mem_declarations_ofNfa
  case pseudoDeclarations_ascending =>
    intro id h
    exact (hlists h).2
  case mem_pseudoDeclarations =>
    intro id _ declaration
    exact Machine.mem_pseudoDeclarations_ofNfa

/-- **The subset construction is exact.** Whatever label tables a builder starts with and whatever
rules it has been asked to add, the construction from its automaton ends by itself, after one round
for each state and with at most `2 ^ size` states, and the result is the subset automaton. -/
theorem ofNfa_build_serve_exact (labels : Labels) (requests : List Nfa.Builder.Request) :
    let nfa := (Nfa.Builder.serve { labels } requests).build
    (∀ rounds result, Rounds nfa rounds [nfa.initial] [] result ↔
        rounds = (ofNfa nfa).size ∧ result = (ofNfa nfa).states.toList) ∧
      (ofNfa nfa).size ≤ 2 ^ nfa.size ∧
      IsSubsetAutomaton nfa (ofNfa nfa) := by
  intro nfa
  have hbuilder := (Nfa.settled_serve (Nfa.settled_empty labels) requests).wellFormed
  have hsize : (ofNfa nfa).size ≤ 2 ^ nfa.size := by
    rw [size_ofNfa]
    exact (Nfa.explored_subsets nfa).1.length_le
  exact ⟨fun _ _ => rounds_ofNfa, hsize, isSubsetAutomaton_ofNfa hbuilder.bounded_build⟩

end Dfa

end StyleStream
