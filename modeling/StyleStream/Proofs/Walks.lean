/-
  Walks along silent edges.

  The silent closure of a list of seeds is found by a walk with a stack. A turn takes the state on
  top. If it has a mark it is dropped, and if not it gets one and the targets of its silent edges
  that have none are put on the stack. A mark is set when a state is taken, and not when it is put
  on the stack, so one state may wait there several times, as may the seeds themselves.

  What has been found is closed, but for the states that still wait (`Sound.closed`), so it is
  all that can be reached as soon as nothing waits. A turn either drops a state or pays for what it
  puts on the stack with the edges of a state that is taken only once: `left` counts what waits and
  the silent edges of the states without marks, and every turn makes it smaller
  (`left_lt_of_turn?`). That bounds the turns by the number of seeds and silent edges.

  The marks and the states are looked up by numbers, and `index` says what is read back of a number.
  All that is asked of it is that it returns the numbers of states as they are.
-/
import Mathlib.Algebra.BigOperators.Group.Finset.Basic
import Mathlib.Logic.Relation
import StyleStream.Proofs.Determinization

namespace StyleStream

namespace Nfa

/-! ### Silent edges -/

/-- A silent edge leads from the one state to the other. -/
def Silent (nfa : Nfa) (q t : StateId) : Prop :=
  ⟨.epsilon, t⟩ ∈ (nfa.state q).edges

/-- Some number of silent edges, possibly none, lead from a seed to the state. -/
def Reaches (nfa : Nfa) (seeds : List StateId) (q : StateId) : Prop :=
  ∃ s ∈ seeds, Relation.ReflTransGen nfa.Silent s q

/-- How many silent edges leave a state. -/
def silentDegree (nfa : Nfa) (q : StateId) : Nat :=
  ((nfa.state q).targets .epsilon).length

/-! ### Turns -/

/-- A walk under way. -/
structure Walk where
  /-- One mark for each state of the automaton. -/
  visited : List Bool
  /-- The states that wait, the next one first. -/
  stack : List StateId
  /-- The states that have a mark, in the order in which they got it. -/
  found : List StateId

namespace Walk

/-- Before the first turn the seeds wait, the last one on top. -/
def begin (nfa : Nfa) (seeds : List StateId) : Walk where
  visited := List.replicate nfa.size false
  stack := seeds.reverse
  found := []

/-- The states of a list that have no mark. -/
def fresh? (index : StateId → Nat) (visited : List Bool) :
    List StateId → Option (List StateId)
  | [] => some []
  | t :: targets => do
    let seen ← visited[index t]?
    let fresh ← fresh? index visited targets
    return if seen then fresh else t :: fresh

/-- **One turn**, with the state on top of the stack and those below it. There is none if a state
that is looked up does not exist. -/
def turn? (index : StateId → Nat) (nfa : Nfa) (w : Walk) (q : StateId) (below : List StateId) :
    Option Walk := do
  if ← w.visited[index q]? then return { w with stack := below }
  else
    let state ← nfa.states[index q]?
    let visited := w.visited.set (index q) true
    let fresh ← fresh? index visited (state.targets .epsilon)
    return ⟨visited, fresh.reverse ++ below, w.found ++ [q]⟩

/-! ### How many turns there are -/

/-- The places without a mark. -/
def unmarked (visited : List Bool) : Finset Nat :=
  (Finset.range visited.length).filter fun i => visited[i]? = some false

/-- What is left to do: the states that wait, and the silent edges of those without a mark. -/
def left (nfa : Nfa) (w : Walk) : Nat :=
  w.stack.length + ∑ q ∈ unmarked w.visited, nfa.silentDegree q

section Turns

variable {index : StateId → Nat} {nfa : Nfa} {w next : Walk} {seeds below : List StateId}
  {q : StateId} {visited : List Bool} {i : Nat}

theorem mem_unmarked : i ∈ unmarked visited ↔ visited[i]? = some false := by
  unfold unmarked
  rw [Finset.mem_filter, Finset.mem_range]
  refine and_iff_right_of_imp fun h => ?_
  exact (List.getElem?_eq_some_iff.1 h).1

theorem unmarked_set (i : Nat) : unmarked (visited.set i true) = (unmarked visited).erase i := by
  ext j
  rw [Finset.mem_erase, mem_unmarked, mem_unmarked, List.getElem?_set]
  by_cases hij : i = j
  · subst hij
    simp
  · simp [hij, Ne.symm hij]

theorem left_begin : (begin nfa seeds).left nfa =
    seeds.length + ∑ q ∈ Finset.range nfa.size, nfa.silentDegree q := by
  have hall : unmarked (List.replicate nfa.size false) = Finset.range nfa.size := by
    ext i
    rw [mem_unmarked, List.getElem?_replicate, Finset.mem_range]
    simp
  show seeds.reverse.length + ∑ q ∈ unmarked (List.replicate nfa.size false), _ = _
  rw [List.length_reverse, hall]

theorem length_le_of_fresh? {targets fresh : List StateId}
    (h : fresh? index visited targets = some fresh) : fresh.length ≤ targets.length := by
  induction targets generalizing fresh with
  | nil =>
    obtain rfl := Option.some.inj h
    exact Nat.le_refl _
  | cons t targets ih =>
    obtain ⟨seen, -, h⟩ := Option.bind_eq_some_iff.1 h
    obtain ⟨rest, hrest, h⟩ := Option.bind_eq_some_iff.1 h
    obtain rfl := Option.some.inj h
    have hle := ih hrest
    cases seen with
    | true => exact Nat.le_succ_of_le hle
    | false => exact Nat.succ_le_succ hle

/-- **A turn makes what is left smaller**: a mark pays for what is put on the stack. -/
theorem left_lt_of_turn? (hstack : w.stack = q :: below)
    (h : turn? index nfa w q below = some next) : next.left nfa < w.left nfa := by
  obtain ⟨seen, hseen, h⟩ := Option.bind_eq_some_iff.1 h
  have hlength : w.stack.length = below.length + 1 := by rw [hstack, List.length_cons]
  cases seen with
  | true =>
    obtain rfl := Option.some.inj h
    unfold left
    rw [hlength]
    exact Nat.add_lt_add_right (Nat.lt_succ_self _) _
  | false =>
    obtain ⟨state, hstate, h⟩ := Option.bind_eq_some_iff.1 h
    obtain ⟨fresh, hfresh, h⟩ := Option.bind_eq_some_iff.1 h
    obtain rfl := Option.some.inj h
    have hsum : nfa.silentDegree (index q) +
        ∑ p ∈ (unmarked w.visited).erase (index q), nfa.silentDegree p =
          ∑ p ∈ unmarked w.visited, nfa.silentDegree p :=
      Finset.add_sum_erase _ _ (mem_unmarked.2 hseen)
    have hdegree : nfa.silentDegree (index q) = (state.targets .epsilon).length := by
      rw [silentDegree, Nfa.state, Array.getD_eq_getD_getElem?, hstate, Option.getD_some]
    have hpushed := length_le_of_fresh? hfresh
    unfold left
    rw [hlength, unmarked_set, List.length_append, List.length_reverse]
    omega

end Turns

/-! ### Runs -/

/-- **Turns until nothing waits.** What has been found then is the result. There is none if a turn
fails. -/
def finish? (index : StateId → Nat) (nfa : Nfa) (w : Walk) : Option (List StateId) :=
  match _ : w.stack with
  | [] => some w.found
  | q :: below =>
    match _ : turn? index nfa w q below with
    | none => none
    | some next => finish? index nfa next
termination_by w.left nfa
decreasing_by exact left_lt_of_turn? ‹w.stack = q :: below› ‹_›

theorem finish?_of_turn? {index : StateId → Nat} {nfa : Nfa} {w next : Walk} {q : StateId}
    {below : List StateId} (hstack : w.stack = q :: below)
    (hturn : turn? index nfa w q below = some next) :
    finish? index nfa w = finish? index nfa next := by
  rw [finish?]
  split
  · next hempty =>
    rw [hempty] at hstack
    cases hstack
  · next hstack' =>
    obtain ⟨rfl, rfl⟩ := List.cons.inj (hstack.symm.trans hstack')
    split
    · next hfails =>
      rw [hturn] at hfails
      cases hfails
    · next hturn' =>
      obtain rfl := Option.some.inj (hturn.symm.trans hturn')
      rfl

/-- After so many turns nothing waits, and these states have been found. -/
inductive Ends (index : StateId → Nat) (nfa : Nfa) : Nat → Walk → List StateId → Prop where
  | done {visited : List Bool} {found : List StateId} :
      Ends index nfa 0 ⟨visited, [], found⟩ found
  | turn {turns : Nat} {visited : List Bool} {q : StateId} {below found result : List StateId}
      {next : Walk} : turn? index nfa ⟨visited, q :: below, found⟩ q below = some next →
      Ends index nfa turns next result →
      Ends index nfa (turns + 1) ⟨visited, q :: below, found⟩ result

variable {index : StateId → Nat} {nfa : Nfa} {w w' : Walk}
  {seeds below result result' : List StateId} {q : StateId} {turns turns' : Nat}

/-- The end of a walk is what its turns come to. -/
theorem Ends.finish?_eq (h : Ends index nfa turns w result) :
    finish? index nfa w = some result := by
  induction h with
  | done => rw [finish?]
  | turn hturn _ ih =>
    rw [finish?_of_turn? rfl hturn]
    exact ih

/-- A walk has one end. -/
theorem Ends.unique (h : Ends index nfa turns w result) (h' : Ends index nfa turns' w result') :
    turns' = turns ∧ result' = result := by
  induction h generalizing turns' with
  | done =>
    cases h' with
    | done => exact ⟨rfl, rfl⟩
  | turn hturn _ ih =>
    cases h' with
    | turn hturn' h' =>
      obtain rfl := Option.some.inj (hturn.symm.trans hturn')
      obtain ⟨rfl, rfl⟩ := ih h'
      exact ⟨rfl, rfl⟩

theorem fresh?_eq {visited : List Bool} (hindex : ∀ t < visited.length, index t = t)
    {targets : List StateId} (h : ∀ t ∈ targets, t < visited.length) :
    fresh? index visited targets = some (targets.filter fun t => visited[t]? = some false) := by
  induction targets with
  | nil => rfl
  | cons t targets ih =>
    obtain ⟨ht, htargets⟩ := List.forall_mem_cons.1 h
    unfold fresh?
    rw [ih htargets, List.filter_cons, hindex t ht, List.getElem?_eq_getElem ht]
    cases visited[t] <;> rfl

/-! ### What a turn preserves -/

/-- What is true of a walk from the seeds, before and after each turn. -/
structure Sound (nfa : Nfa) (seeds : List StateId) (w : Walk) : Prop where
  length_visited : w.visited.length = nfa.size
  visited_iff : ∀ q : StateId, w.visited[q]? = some true ↔ q ∈ w.found
  nodup : w.found.Nodup
  stack_lt : ∀ q ∈ w.stack, q < nfa.size
  reaches : ∀ q, q ∈ w.found ∨ q ∈ w.stack → nfa.Reaches seeds q
  seeds_subset : ∀ s ∈ seeds, s ∈ w.found ∨ s ∈ w.stack
  /-- Silent edges lead from what has been found to what has been found or waits. -/
  closed : ∀ q ∈ w.found, ∀ t, nfa.Silent q t → t ∈ w.found ∨ t ∈ w.stack

theorem sound_begin (hseeds : ∀ s ∈ seeds, s < nfa.size) : (begin nfa seeds).Sound nfa seeds where
  length_visited := List.length_replicate
  visited_iff q := by
    show (List.replicate nfa.size false)[q]? = some true ↔ q ∈ []
    simp [List.getElem?_replicate]
  nodup := List.nodup_nil
  stack_lt q hq := hseeds q (List.mem_reverse.1 hq)
  reaches q hq := by
    rcases hq with hq | hq
    · exact absurd hq List.not_mem_nil
    · exact ⟨q, List.mem_reverse.1 hq, .refl⟩
  seeds_subset s hs := Or.inr (List.mem_reverse.2 hs)
  closed q hq := absurd hq List.not_mem_nil

section Turn

variable (hnfa : nfa.Bounded) (h : w.Sound nfa seeds) (hstack : w.stack = q :: below)

/-- What has no mark has not been found. -/
theorem getElem?_eq_some_false_iff {visited : List Bool} {found : List StateId}
    (hvisited : ∀ q : StateId, visited[q]? = some true ↔ q ∈ found) (hq : q < visited.length) :
    visited[q]? = some false ↔ q ∉ found := by
  rw [← hvisited, List.getElem?_eq_getElem hq]
  simp

include h hstack

theorem Sound.top_lt : q < nfa.size :=
  h.stack_lt q (hstack ▸ List.mem_cons_self)

omit h in
theorem eq_or_mem_below {t : StateId} (ht : t ∈ w.stack) : t = q ∨ t ∈ below := by
  rw [hstack] at ht
  exact List.mem_cons.1 ht

theorem Sound.visited_set_iff (t : StateId) :
    (w.visited.set q true)[t]? = some true ↔ t ∈ w.found ++ [q] := by
  have hlt : q < w.visited.length := h.length_visited ▸ h.top_lt hstack
  rw [List.mem_append, List.mem_singleton]
  by_cases ht : q = t
  · subst ht
    rw [List.getElem?_set_self hlt]
    simp
  · rw [List.getElem?_set_ne ht, h.visited_iff]
    simp [Ne.symm ht]

omit h in
/-- If `q` has been found, nothing is lost when it is dropped. -/
theorem found_or_below {t : StateId} (hq : q ∈ w.found) (ht : t ∈ w.found ∨ t ∈ w.stack) :
    t ∈ w.found ∨ t ∈ below := by
  rcases ht with hfound | hwaits
  · exact Or.inl hfound
  · rcases eq_or_mem_below hstack hwaits with rfl | hbelow
    · exact Or.inl hq
    · exact Or.inr hbelow

/-- The walk after `q` has been dropped. -/
theorem Sound.drop (hq : q ∈ w.found) : Sound nfa seeds { w with stack := below } where
  length_visited := h.length_visited
  visited_iff := h.visited_iff
  nodup := h.nodup
  stack_lt t ht := h.stack_lt t (hstack ▸ List.mem_cons_of_mem q ht)
  reaches t ht := h.reaches t (ht.imp_right fun ht => hstack ▸ List.mem_cons_of_mem q ht)
  seeds_subset s hs := found_or_below hstack hq (h.seeds_subset s hs)
  closed p hp t ht := found_or_below hstack hq (h.closed p hp t ht)

/-- What waits after `q` has got its mark. -/
def pushed (nfa : Nfa) (w : Walk) (q : StateId) (below : List StateId) : List StateId :=
  (((nfa.state q).targets .epsilon).filter (· ∉ w.found ++ [q])).reverse ++ below

omit h hstack in
theorem mem_pushed {t : StateId} : t ∈ pushed nfa w q below ↔
    (nfa.Silent q t ∧ t ∉ w.found ++ [q]) ∨ t ∈ below := by
  rw [pushed, List.mem_append, List.mem_reverse, List.mem_filter, State.mem_targets,
    decide_eq_true_eq]
  rfl

omit h in
/-- What has been found or waits goes on to do so when `q` gets its mark. -/
theorem found_or_pushed {t : StateId} (ht : t ∈ w.found ∨ t ∈ w.stack) :
    t ∈ w.found ++ [q] ∨ t ∈ pushed nfa w q below := by
  rcases ht with hfound | hwaits
  · exact Or.inl (List.mem_append_left _ hfound)
  · rcases eq_or_mem_below hstack hwaits with rfl | hbelow
    · exact Or.inl (List.mem_append_right _ (List.mem_singleton_self _))
    · exact Or.inr (mem_pushed.2 (Or.inr hbelow))

include hnfa in
/-- The walk after `q` has got its mark. -/
theorem Sound.mark (hq : q ∉ w.found) :
    Sound nfa seeds ⟨w.visited.set q true, pushed nfa w q below, w.found ++ [q]⟩ where
  length_visited := List.length_set.trans h.length_visited
  visited_iff := h.visited_set_iff hstack
  nodup := by
    show (w.found ++ [q]).Nodup
    rw [List.nodup_append]
    exact ⟨h.nodup, List.nodup_singleton q, fun p hp p' hp' heq =>
      hq (List.mem_singleton.1 hp' ▸ heq ▸ hp)⟩
  stack_lt t ht := by
    rcases mem_pushed.1 ht with ⟨hsilent, -⟩ | ht
    · exact hnfa.target_lt q _ hsilent
    · exact h.stack_lt t (hstack ▸ List.mem_cons_of_mem q ht)
  reaches t ht := by
    have hreached : nfa.Reaches seeds q := h.reaches q (Or.inr (hstack ▸ List.mem_cons_self))
    rcases ht with hfound | hwaits
    · rcases List.mem_append.1 hfound with hfound | hfound
      · exact h.reaches t (Or.inl hfound)
      · rw [List.mem_singleton.1 hfound]
        exact hreached
    · rcases mem_pushed.1 hwaits with ⟨hsilent, -⟩ | hbelow
      · obtain ⟨s, hs, hpath⟩ := hreached
        exact ⟨s, hs, hpath.tail hsilent⟩
      · exact h.reaches t (Or.inr (hstack ▸ List.mem_cons_of_mem q hbelow))
  seeds_subset s hs := found_or_pushed hstack (h.seeds_subset s hs)
  closed p hp t ht := by
    rcases List.mem_append.1 hp with hp | hp
    · exact found_or_pushed hstack (h.closed p hp t ht)
    · rw [List.mem_singleton.1 hp] at ht
      by_cases hfound : t ∈ w.found ++ [q]
      · exact Or.inl hfound
      · exact Or.inr (mem_pushed.2 (Or.inl ⟨ht, hfound⟩))

include hnfa

/-- **A turn preserves** what is true. -/
theorem Sound.turn (hindex : ∀ q < nfa.size, index q = q) :
    ∃ next, turn? index nfa w q below = some next ∧ next.Sound nfa seeds := by
  have hlt : q < w.visited.length := h.length_visited ▸ h.top_lt hstack
  have htop : index q = q := hindex q (h.top_lt hstack)
  by_cases hq : q ∈ w.found
  · refine ⟨{ w with stack := below }, ?_, h.drop hstack hq⟩
    unfold turn?
    rw [htop, (h.visited_iff q).2 hq]
    rfl
  · refine ⟨_, ?_, h.mark hnfa hstack hq⟩
    have hmark : w.visited[q]? = some false := (getElem?_eq_some_false_iff h.visited_iff hlt).2 hq
    have hstate : nfa.states[q]? = some (nfa.state q) := by
      have hsize : q < nfa.states.size := h.top_lt hstack
      simp [Nfa.state, Array.getD_eq_getD_getElem?, hsize]
    have hlength : (w.visited.set q true).length = nfa.size := by
      rw [List.length_set, h.length_visited]
    have htargets : ∀ t ∈ (nfa.state q).targets .epsilon, t < (w.visited.set q true).length := by
      intro t ht
      rw [hlength]
      exact hnfa.target_lt q _ (State.mem_targets.1 ht)
    have hfilter : ((nfa.state q).targets .epsilon).filter
        (fun t => (w.visited.set q true)[t]? = some false) =
          ((nfa.state q).targets .epsilon).filter (· ∉ w.found ++ [q]) := by
      refine List.filter_congr fun t ht => ?_
      rw [decide_eq_decide]
      exact getElem?_eq_some_false_iff (h.visited_set_iff hstack) (htargets t ht)
    unfold turn?
    rw [htop, hmark, hstate]
    simp only [Option.bind_eq_bind, Option.bind_some, fresh?_eq (hlength ▸ hindex) htargets,
      hfilter]
    rfl

end Turn

/-! ### What a walk finds -/

variable (hnfa : nfa.Bounded) (hindex : ∀ q < nfa.size, index q = q)
include hnfa hindex

/-- **Every walk comes to an end**, in no more turns than there is left to do. -/
theorem Sound.exists_ends (h : w.Sound nfa seeds) :
    ∃ turns result, Ends index nfa turns w result ∧ turns ≤ w.left nfa := by
  induction hleft : w.left nfa using Nat.strong_induction_on generalizing w with
  | _ n ih =>
    obtain ⟨visited, stack, found⟩ := w
    cases stack with
    | nil => exact ⟨0, found, .done, Nat.zero_le _⟩
    | cons q below =>
      obtain ⟨next, hturn, hnext⟩ := h.turn hnfa rfl hindex
      have hlt := left_lt_of_turn? rfl hturn
      obtain ⟨turns, result, hends, hle⟩ := ih _ (hleft ▸ hlt) hnext rfl
      exact ⟨turns + 1, result, .turn hturn hends, by omega⟩

/-- **What is found at the end** is what the seeds reach, each state once. -/
theorem Ends.nodup_and_mem_iff (hends : Ends index nfa turns w result)
    (h : w.Sound nfa seeds) : result.Nodup ∧ ∀ q, q ∈ result ↔ nfa.Reaches seeds q := by
  induction hends with
  | done =>
    refine ⟨h.nodup, fun q => ⟨fun hq => h.reaches q (Or.inl hq), ?_⟩⟩
    rintro ⟨s, hs, hpath⟩
    induction hpath with
    | refl => exact (h.seeds_subset s hs).resolve_right List.not_mem_nil
    | tail _ hsilent ih => exact (h.closed _ ih _ hsilent).resolve_right List.not_mem_nil
  | turn hturn _ ih =>
    obtain ⟨next, hnext, hsound⟩ := h.turn hnfa rfl hindex
    obtain rfl := Option.some.inj (hturn.symm.trans hnext)
    exact ih hsound

end Walk

/-! ### The closure -/

section Closure

variable {nfa : Nfa} {seeds : List StateId} {q : StateId}

/-- **The closure holds what the seeds reach.** -/
theorem mem_closure_iff_reaches (hnfa : nfa.Bounded) (hseeds : ∀ s ∈ seeds, s < nfa.size) :
    q ∈ nfa.closure seeds ↔ nfa.Reaches seeds q := by
  constructor
  · intro hq
    induction mem_closure.1 hq with
    | seed hs _ => exact ⟨_, hs, .refl⟩
    | step hr ht _ ih =>
      obtain ⟨s, hs, hpath⟩ := ih (mem_closure.2 hr)
      exact ⟨s, hs, hpath.tail (State.mem_targets.1 ht)⟩
  · rintro ⟨s, hs, hpath⟩
    induction hpath with
    | refl => exact mem_closure_of_mem hs (hseeds s hs)
    | tail _ hsilent ih =>
      exact mem_closure_of_edge ih (State.mem_targets.2 hsilent) (hnfa.target_lt _ _ hsilent)

theorem Reaches.mono {seeds' : List StateId} (h : nfa.Reaches seeds q) (hsub : seeds ⊆ seeds') :
    nfa.Reaches seeds' q := by
  obtain ⟨s, hs, hpath⟩ := h
  exact ⟨s, hsub hs, hpath⟩

theorem reaches_append {seeds' : List StateId} :
    nfa.Reaches (seeds ++ seeds') q ↔ nfa.Reaches seeds q ∨ nfa.Reaches seeds' q := by
  simp only [Reaches, List.mem_append, or_and_right, exists_or]

/-- What a walk finds, in order, is the closure. -/
theorem mergeSort_eq_closure (hnfa : nfa.Bounded) {index : StateId → Nat}
    (hindex : ∀ q < nfa.size, index q = q) (hseeds : ∀ s ∈ seeds, s < nfa.size) {turns : Nat}
    {found : List StateId} (hends : Walk.Ends index nfa turns (.begin nfa seeds) found) :
    found.mergeSort = nfa.closure seeds := by
  obtain ⟨hnodup, hmem⟩ := hends.nodup_and_mem_iff hnfa hindex (Walk.sound_begin hseeds)
  refine mergeSort_eq_of_mem_iff hnodup pairwise_closure fun q => ?_
  rw [hmem, mem_closure_iff_reaches hnfa hseeds]

end Closure

/-- **The silent closure is reachability.** In the automaton of a builder, whatever label tables it
starts with and whatever rules it has been asked to add, a walk from any list of states ends, in no
more turns than there are seeds and silent edges, and has one end. What it has found, in order, is
the closure of the seeds: the strictly ascending list of the states that silent edges reach from a
seed. So the closure of a closure is the closure itself, more seeds have a larger closure, and the
closure of two lists of seeds together is the union of their closures. -/
theorem closure_build_serve_exact (labels : Labels) (requests : List Builder.Request)
    (seeds : List StateId) :
    let nfa := (Builder.serve { labels } requests).build
    (∀ s ∈ seeds, s < nfa.size) →
      (∃ turns found, Walk.Ends id nfa turns (.begin nfa seeds) found ∧
        (∀ turns' found', Walk.Ends id nfa turns' (.begin nfa seeds) found' →
          turns' = turns ∧ found' = found) ∧
        turns ≤ seeds.length + ∑ q ∈ Finset.range nfa.size, nfa.silentDegree q ∧
        found.mergeSort = nfa.closure seeds) ∧
      (nfa.closure seeds).Pairwise (· < ·) ∧
      (∀ q, q ∈ nfa.closure seeds ↔ ∃ s ∈ seeds, Relation.ReflTransGen nfa.Silent s q) ∧
      nfa.closure (nfa.closure seeds) = nfa.closure seeds ∧
      ∀ seeds' : List StateId, (∀ s ∈ seeds', s < nfa.size) →
        (seeds ⊆ seeds' → nfa.closure seeds ⊆ nfa.closure seeds') ∧
        ∀ q, q ∈ nfa.closure (seeds ++ seeds') ↔
          q ∈ nfa.closure seeds ∨ q ∈ nfa.closure seeds' := by
  intro nfa hseeds
  have hnfa : nfa.Bounded := (settled_serve (settled_empty labels) requests).wellFormed.bounded_build
  have hmem : ∀ {seeds q}, (∀ s ∈ seeds, s < nfa.size) →
      (q ∈ nfa.closure seeds ↔ nfa.Reaches seeds q) := fun h => mem_closure_iff_reaches hnfa h
  have hindex : ∀ q < nfa.size, id q = q := fun _ _ => rfl
  obtain ⟨turns, found, hends, hle⟩ := (Walk.sound_begin hseeds).exists_ends hnfa hindex
  refine ⟨⟨turns, found, hends, fun _ _ h => hends.unique h, Walk.left_begin ▸ hle,
    mergeSort_eq_closure hnfa hindex hseeds hends⟩, pairwise_closure, fun q => hmem hseeds,
    closure_closure, fun seeds' hseeds' => ⟨fun hsub q hq => ?_, fun q => ?_⟩⟩
  · exact (hmem hseeds').2 (((hmem hseeds).1 hq).mono hsub)
  · have hboth : ∀ s ∈ seeds ++ seeds', s < nfa.size := fun s hs =>
      (List.mem_append.1 hs).elim (hseeds s) (hseeds' s)
    rw [hmem hboth, hmem hseeds, hmem hseeds', reaches_append]

/-- Seeds in no order and one of them twice, on the loop for the paragraphs in sections. -/
theorem closure_build_serve_exact_loop :
    let requests : List Builder.Request :=
      [⟨.combined .descendant (.ofName "section") (.ofName "p"), 0, false⟩]
    let nfa := (Builder.serve {} requests).build
    (∀ s ∈ [6, 0, 6], s < nfa.size) ∧ ∃ turns found,
      Walk.Ends id nfa turns (.begin nfa [6, 0, 6]) found ∧
        found.mergeSort = [0, 2, 4, 5, 6, 7, 8] := by
  intro requests nfa
  have hseeds : ∀ s ∈ [6, 0, 6], s < nfa.size := by decide +kernel
  obtain ⟨⟨turns, found, hends, -, -, hfound⟩, -⟩ :=
    closure_build_serve_exact {} requests [6, 0, 6] hseeds
  exact ⟨hseeds, turns, found, hends, hfound.trans (by decide +kernel)⟩

end Nfa

end StyleStream
