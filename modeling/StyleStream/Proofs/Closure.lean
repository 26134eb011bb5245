/-
  Laws of reachability and of the silent closure.

  A walk starts at one seed, so what is reachable from several seeds is the union
  of what is reachable from each (`reachable_iff_exists_seed`). For an automaton
  this says that reading a label, and passing a condition, distribute over the
  states read from (`mem_step`, `mem_pass`), which is why an automaton can be
  followed on several sets of states at once.
-/
import Mathlib.Data.List.Sort
import StyleStream.Nfa.Basic

namespace StyleStream

/-- **What a walk has found**, in whatever order, is an ascending list once it is sorted. -/
theorem mergeSort_eq_of_mem_iff {found result : List Nat} (hnodup : found.Nodup)
    (hresult : result.Pairwise (· < ·)) (h : ∀ x, x ∈ found ↔ x ∈ result) :
    found.mergeSort = result := by
  have hsorted : found.mergeSort.Pairwise (· < ·) :=
    (List.sortedLE_mergeSort.sortedLT_of_nodup (List.nodup_mergeSort.2 hnodup)).pairwise
  refine eq_of_pairwise_of_mem_iff hsorted hresult fun x => ?_
  rw [List.mem_mergeSort]
  exact h x

section Reachable

variable {size : Nat} {next : Nat → List Nat} {seeds seeds' : List Nat} {x : Nat}

theorem Reachable.mono (h : ∀ s ∈ seeds, s ∈ seeds') (hx : Reachable size next seeds x) :
    Reachable size next seeds' x := by
  induction hx with
  | seed hx hlt => exact .seed (h _ hx) hlt
  | step _ hy hlt ih => exact .step ih hy hlt

/-- **A walk starts at one seed.** -/
theorem reachable_iff_exists_seed :
    Reachable size next seeds x ↔ ∃ s ∈ seeds, Reachable size next [s] x := by
  constructor
  · intro h
    induction h with
    | seed hx hlt => exact ⟨_, hx, .seed List.mem_cons_self hlt⟩
    | step _ hy hlt ih =>
      obtain ⟨s, hs, h⟩ := ih
      exact ⟨s, hs, .step h hy hlt⟩
  · rintro ⟨s, hs, h⟩
    exact h.mono fun _ ht => List.mem_singleton.1 ht ▸ hs

end Reachable

namespace Nfa

variable {nfa : Nfa} {seeds sources : List StateId} {event : Event} {x y : StateId}

/-! ### Edges -/

theorem State.mem_targets {state : State} :
    x ∈ state.targets event ↔ ⟨event, x⟩ ∈ state.edges := by
  simp only [State.targets, List.mem_filterMap, Option.ite_none_right_eq_some, Option.some.injEq]
  constructor
  · rintro ⟨edge, hedge, rfl, rfl⟩
    exact hedge
  · intro h
    exact ⟨⟨event, x⟩, h, rfl, rfl⟩

theorem mem_targets :
    x ∈ nfa.targets sources event ↔ ∃ q ∈ sources, x ∈ (nfa.state q).targets event := by
  rw [targets, List.mem_flatMap]

/-! ### Closure -/

theorem mem_closure :
    x ∈ nfa.closure seeds ↔
      Reachable nfa.size (fun id => (nfa.state id).targets .epsilon) seeds x :=
  mem_reach

/-- **The closure of a set is the union of the closures of its members.** -/
theorem mem_closure_iff_exists : x ∈ nfa.closure seeds ↔ ∃ s ∈ seeds, x ∈ nfa.closure [s] := by
  simp only [mem_closure]
  exact reachable_iff_exists_seed

theorem mem_closure_of_mem (hx : x ∈ seeds) (hlt : x < nfa.size) : x ∈ nfa.closure seeds :=
  mem_closure.2 (.seed hx hlt)

theorem mem_closure_of_edge (hx : x ∈ nfa.closure seeds) (hy : y ∈ (nfa.state x).targets .epsilon)
    (hlt : y < nfa.size) : y ∈ nfa.closure seeds :=
  mem_closure.2 (.step (mem_closure.1 hx) hy hlt)

/-- A member of a closure is a seed, or a silent edge leads to it from a member. -/
theorem mem_seeds_or_edge_of_mem_closure (hx : x ∈ nfa.closure seeds) :
    x ∈ seeds ∨ ∃ y ∈ nfa.closure seeds, x ∈ (nfa.state y).targets .epsilon := by
  cases mem_closure.1 hx with
  | seed h _ => exact Or.inl h
  | step h hy _ => exact Or.inr ⟨_, mem_closure.2 h, hy⟩

theorem lt_size_of_mem_closure (hx : x ∈ nfa.closure seeds) : x < nfa.size :=
  (mem_closure.1 hx).lt

theorem pairwise_closure : (nfa.closure seeds).Pairwise (· < ·) :=
  pairwise_reach

theorem closure_sublist_range : (nfa.closure seeds).Sublist (List.range nfa.size) :=
  List.filter_sublist

/-! ### Reading and passing -/

theorem mem_closure_targets :
    x ∈ nfa.closure (nfa.targets sources event) ↔
      ∃ q ∈ sources, ∃ t ∈ (nfa.state q).targets event, x ∈ nfa.closure [t] := by
  rw [mem_closure_iff_exists]
  constructor
  · rintro ⟨t, ht, hx⟩
    obtain ⟨q, hq, ht⟩ := mem_targets.1 ht
    exact ⟨q, hq, t, ht, hx⟩
  · rintro ⟨q, hq, t, ht, hx⟩
    exact ⟨t, mem_targets.2 ⟨q, hq, ht⟩, hx⟩

theorem mem_step {label : Label} :
    x ∈ nfa.step sources label ↔
      ∃ q ∈ sources, ∃ t ∈ (nfa.state q).targets (.consume label), x ∈ nfa.closure [t] :=
  mem_closure_targets

theorem mem_pass {condition : ConditionId} :
    x ∈ nfa.pass sources condition ↔
      ∃ q ∈ sources, ∃ t ∈ (nfa.state q).targets (.guard condition), x ∈ nfa.closure [t] :=
  mem_closure_targets

end Nfa

end StyleStream
