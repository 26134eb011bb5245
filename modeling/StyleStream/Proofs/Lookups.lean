/-
  Lookups that can fail.

  The definitions that run read a table at a number, and have an answer ready for a number that
  is not an index of the table. Here they get counterparts that have none. A counterpart, with
  a question mark in its name, takes every number from the word of 32 bits in which it is
  stored (`stored`), looks it up by `fetch?`, and gives up at the first number that is not an
  index of the table it is used on. This goes for the members of a set of states, for the targets
  of edges and for the numbers that wait on the stack of a walk.

  If the edges of an automaton lead to states that exist and there are at most `2 ^ 32` of them,
  no lookup fails, and the counterparts come to the same as the definitions that run
  (`Nfa.closure?_eq`, `Nfa.step?_eq`, `Dfa.ofNfa?_eq`).
-/
import StyleStream.Proofs.Walks

namespace StyleStream

/-! ### Numbers in tables -/

/-- What is read back of a number that has been stored in a word of 32 bits. -/
def stored (n : Nat) : Nat :=
  (UInt32.ofNat n).toNat

theorem stored_of_lt {n : Nat} (h : n < 2 ^ 32) : stored n = n := by
  unfold stored
  rw [UInt32.toNat_ofNat', Nat.mod_eq_of_lt h]

section Tables

variable {α β γ : Type}

/-- The entry of a table at a stored number. -/
def fetch? (table : List α) (n : Nat) : Option α :=
  table[stored n]?

theorem fetch?_eq {table : List α} {n : Nat} (hsize : table.length ≤ 2 ^ 32)
    (h : n < table.length) : fetch? table n = some table[n] := by
  unfold fetch?
  rw [stored_of_lt (Nat.lt_of_lt_of_le h hsize), List.getElem?_eq_getElem h]

/-- **Where every step succeeds**, so does the whole. -/
theorem mapM_eq_some_map {f : α → Option β} {g : α → β} {l : List α}
    (h : ∀ a ∈ l, f a = some (g a)) : l.mapM f = some (l.map g) := by
  induction l with
  | nil => rfl
  | cons a l ih =>
    obtain ⟨ha, hl⟩ := List.forall_mem_cons.1 h
    rw [List.mapM_cons, ha, ih hl]
    rfl

/-- A step that may fail, with something after it that cannot. -/
theorem mapM_map_eq_some_map {f : α → Option β} {g : α → β} {l : List α} (k : α → β → γ)
    (h : ∀ a ∈ l, f a = some (g a)) :
    l.mapM (fun a => (f a).map (k a)) = some (l.map fun a => k a (g a)) := by
  refine mapM_eq_some_map fun a ha => ?_
  rw [h a ha, Option.map_some]

theorem mapM_fetch?_eq {table : List α} {l : List Nat} (hsize : table.length ≤ 2 ^ 32)
    (h : ∀ n ∈ l, n < table.length) :
    l.mapM (fetch? table) = some (l.filterMap (table[·]?)) := by
  induction l with
  | nil => rfl
  | cons n l ih =>
    obtain ⟨hn, hl⟩ := List.forall_mem_cons.1 h
    rw [List.mapM_cons, fetch?_eq hsize hn, ih hl,
      List.filterMap_cons_some (List.getElem?_eq_getElem hn)]
    rfl

end Tables

/-! ### Nondeterministic automata -/

namespace Nfa

/-- The labels among the events of edges, as in `labelsOf`. -/
def labelsAmong (edges : List Edge) : List Label :=
  let read := edges.filterMap (·.event.label?)
  let symbols := read.filterMap fun label =>
    match label with
    | .name symbol => some symbol
    | .sibling => none
  (ascending symbols).map .name ++ if .sibling ∈ read then [.sibling] else []

/-- The conditions among the events of edges, as in `conditionsOf`. -/
def conditionsAmong (edges : List Edge) : List ConditionId :=
  ascending (edges.filterMap (·.event.condition?))

/-- `state` as a lookup that can fail. -/
def state? (nfa : Nfa) (id : StateId) : Option State :=
  fetch? nfa.states.toList id

def targets? (nfa : Nfa) (sources : List StateId) (event : Event) : Option (List StateId) := do
  let states ← sources.mapM nfa.state?
  return states.flatMap (·.targets event)

/-- What a walk from the seeds finds, in order. -/
def closure? (nfa : Nfa) (seeds : List StateId) : Option (List StateId) :=
  (Walk.finish? stored nfa (.begin nfa seeds)).map fun found => found.mergeSort

def initial? (nfa : Nfa) : Option (List StateId) :=
  nfa.closure? [start]

def step? (nfa : Nfa) (sources : List StateId) (label : Label) : Option (List StateId) := do
  nfa.closure? (← nfa.targets? sources (.consume label))

def pass? (nfa : Nfa) (sources : List StateId) (condition : ConditionId) :
    Option (List StateId) := do
  nfa.closure? (← nfa.targets? sources (.guard condition))

def successors? (nfa : Nfa) (subset : List StateId) : Option (List (List StateId)) := do
  let states ← subset.mapM nfa.state?
  let edges := states.flatMap (·.edges)
  let read ← (labelsAmong edges).mapM (nfa.step? subset)
  let passed ← (conditionsAmong edges).mapM (nfa.pass? subset)
  return read ++ passed

def explore? (nfa : Nfa) : Nat → List (List StateId) → Nat → Option (List (List StateId))
  | 0, table, _ => some table
  | fuel + 1, table, next =>
    match table[next]? with
    | none => some table
    | some subset => do
      let successors ← nfa.successors? subset
      explore? nfa fuel (successors.foldl intern table) (next + 1)

def subsets? (nfa : Nfa) : Option (List (List StateId)) := do
  nfa.explore? (Nat.pow 2 nfa.size) [← nfa.initial?] 0

section Agreement

variable {nfa : Nfa} {sources subset : List StateId} {event : Event} {label : Label}
  {condition : ConditionId} {id : StateId}

theorem state?_eq (hsize : nfa.size ≤ 2 ^ 32) (h : id < nfa.size) :
    nfa.state? id = some (nfa.state id) := by
  have hfetch : nfa.state? id = some nfa.states[id] := fetch?_eq hsize h
  have hstate : nfa.state id = nfa.states[id] := by
    rw [state, Array.getD_eq_getD_getElem?, Array.getElem?_eq_getElem h]
    rfl
  rw [hfetch, hstate]

theorem mapM_state?_eq (hsize : nfa.size ≤ 2 ^ 32) (h : ∀ q ∈ sources, q < nfa.size) :
    sources.mapM nfa.state? = some (sources.map nfa.state) :=
  mapM_eq_some_map fun q hq => state?_eq hsize (h q hq)

theorem targets?_eq (hsize : nfa.size ≤ 2 ^ 32) (h : ∀ q ∈ sources, q < nfa.size) :
    nfa.targets? sources event = some (nfa.targets sources event) := by
  unfold targets? targets
  rw [mapM_state?_eq hsize h]
  show some (List.flatMap _ (List.map _ _)) = _
  rw [List.flatMap_map]

variable (hnfa : nfa.Bounded) (hsize : nfa.size ≤ 2 ^ 32)
include hnfa

theorem Bounded.lt_of_mem_targets {t : StateId} (h : t ∈ nfa.targets sources event) :
    t < nfa.size := by
  obtain ⟨q, -, hq⟩ := mem_targets.1 h
  exact hnfa.target_lt q _ (State.mem_targets.1 hq)

include hsize

/-- **No lookup of a closure fails.** -/
theorem closure?_eq {seeds : List StateId} (h : ∀ q ∈ seeds, q < nfa.size) :
    nfa.closure? seeds = some (nfa.closure seeds) := by
  have hstored : ∀ q < nfa.size, stored q = q := fun q hq =>
    stored_of_lt (Nat.lt_of_lt_of_le hq hsize)
  obtain ⟨turns, found, hends, -⟩ := (Walk.sound_begin h).exists_ends hnfa hstored
  rw [closure?, hends.finish?_eq, Option.map_some, mergeSort_eq_closure hnfa hstored h hends]

theorem initial?_eq : nfa.initial? = some nfa.initial :=
  closure?_eq hnfa hsize (List.forall_mem_singleton.2 hnfa.start_lt)

theorem closure?_targets?_eq (h : ∀ q ∈ sources, q < nfa.size) :
    (do nfa.closure? (← nfa.targets? sources event)) =
      some (nfa.closure (nfa.targets sources event)) := by
  rw [targets?_eq hsize h]
  exact closure?_eq hnfa hsize fun t ht => hnfa.lt_of_mem_targets ht

theorem step?_eq (h : ∀ q ∈ sources, q < nfa.size) :
    nfa.step? sources label = some (nfa.step sources label) :=
  closure?_targets?_eq hnfa hsize h

theorem pass?_eq (h : ∀ q ∈ sources, q < nfa.size) :
    nfa.pass? sources condition = some (nfa.pass sources condition) :=
  closure?_targets?_eq hnfa hsize h

theorem successors?_eq (h : ∀ q ∈ subset, q < nfa.size) :
    nfa.successors? subset = some (nfa.successors subset) := by
  unfold successors?
  rw [mapM_state?_eq hsize h]
  show (do
    let read ← (labelsAmong ((subset.map nfa.state).flatMap State.edges)).mapM (nfa.step? subset)
    let passed ← (conditionsAmong ((subset.map nfa.state).flatMap State.edges)).mapM
      (nfa.pass? subset)
    return read ++ passed) = _
  rw [List.flatMap_map, mapM_eq_some_map fun _ _ => step?_eq hnfa hsize h,
    mapM_eq_some_map fun _ _ => pass?_eq hnfa hsize h]
  rfl

/-- **No lookup of the search for subsets fails.** -/
theorem explore?_eq : ∀ (fuel : Nat) (table : List (List StateId)) (next : Nat),
    (∀ subset ∈ table, ∀ q ∈ subset, q < nfa.size) →
      nfa.explore? fuel table next = some (nfa.explore fuel table next)
  | 0, _, _, _ => rfl
  | fuel + 1, table, next, h => by
    unfold explore? explore
    cases hnext : table[next]? with
    | none => rfl
    | some subset =>
      have hsubset := h subset (List.mem_of_getElem? hnext)
      show (do
        let successors ← nfa.successors? subset
        nfa.explore? fuel (successors.foldl intern table) (next + 1)) = _
      rw [successors?_eq hnfa hsize hsubset]
      -- The sets that are added are closures, so they hold numbers of states as well.
      refine explore?_eq fuel _ _ fun target htarget q hq => ?_
      rcases mem_foldl_intern.1 htarget with htarget | htarget
      · exact h target htarget q hq
      · exact List.mem_range.1 ((sublist_range_of_mem_successors htarget).subset hq)

theorem subsets?_eq : nfa.subsets? = some nfa.subsets := by
  unfold subsets?
  rw [initial?_eq hnfa hsize]
  refine explore?_eq hnfa hsize _ _ _ fun subset hsubset q hq => ?_
  rw [List.mem_singleton.1 hsubset] at hq
  exact lt_size_of_mem_closure hq

end Agreement

end Nfa

/-! ### Deterministic automata -/

namespace Dfa

/-- `State.ofSubset` with lookups that can fail. The numbers of the targets, which need not have
states yet, are stored. -/
def State.ofSubset? (nfa : Nfa) (table : List (List StateId)) (subset : List StateId) :
    Option State := do
  let states ← subset.mapM nfa.state?
  let edges := states.flatMap (·.edges)
  let transitions ← (Nfa.labelsAmong edges).mapM fun label =>
    (nfa.step? subset label).map fun target => (label, stored (table.idxOf target))
  let conditions ← (Nfa.conditionsAmong edges).mapM fun condition =>
    (nfa.pass? subset condition).map fun target => (condition, stored (table.idxOf target))
  return {
    transitions
    conditions
    declarations := ascending (states.flatMap (·.declarations))
    pseudoDeclarations := ascending (states.flatMap (·.pseudoDeclarations))
    subset }

/-- The subset construction with lookups that can fail. -/
def ofNfa? (nfa : Nfa) : Option Dfa := do
  let table ← nfa.subsets?
  let states ← table.mapM (State.ofSubset? nfa table)
  return { states := states.toArray }

/-- `state` as a lookup that can fail. -/
def state? (dfa : Dfa) (id : StateId) : Option State :=
  fetch? dfa.states.toList id

section Agreement

variable {nfa : Nfa} {dfa : Dfa} {id : StateId}

theorem state?_eq (hsize : dfa.size ≤ 2 ^ 32) (h : id < dfa.size) :
    dfa.state? id = some (dfa.state id) := by
  have hfetch : dfa.state? id = some dfa.states[id] := fetch?_eq hsize h
  have hstate : dfa.state id = dfa.states[id] := by
    rw [state, Array.getD_eq_getD_getElem?, Array.getElem?_eq_getElem h]
    rfl
  rw [hfetch, hstate]

variable (hnfa : nfa.Bounded) (hsize : nfa.size ≤ 2 ^ 32) (hlength : (ofNfa nfa).size ≤ 2 ^ 32)

include hlength in
/-- **Numbers are handed out** before the states that they are for are made, but only for subsets
that get their states. So nothing is lost when they are stored. -/
theorem mapM_stored_idxOf {κ : Type} {keys : List κ} {target? : κ → Option (List StateId)}
    {target : κ → List StateId} (htarget : ∀ key ∈ keys, target? key = some (target key))
    (hmem : ∀ key ∈ keys, target key ∈ nfa.subsets) :
    keys.mapM (fun key => (target? key).map fun subset =>
      (key, stored (nfa.subsets.idxOf subset))) =
        some (keys.map fun key => (key, nfa.subsets.idxOf (target key))) := by
  refine mapM_eq_some_map fun key hkey => ?_
  have hlt := Nat.lt_of_lt_of_le (idxOf_lt_size (hmem key hkey)) hlength
  rw [htarget key hkey, Option.map_some, stored_of_lt hlt]

include hnfa hsize hlength

theorem ofSubset?_eq {subset : List StateId} (h : subset ∈ nfa.subsets) :
    State.ofSubset? nfa nfa.subsets subset = some (.ofSubset nfa nfa.subsets subset) := by
  have hmembers : ∀ q ∈ subset, q < nfa.size := fun q hq =>
    List.mem_range.1 (((Nfa.explored_subsets nfa).1.sublist subset h).subset hq)
  have htransitions := mapM_stored_idxOf hlength
    (fun _ _ => Nfa.step?_eq hnfa hsize hmembers)
    fun label (hlabel : label ∈ nfa.labelsOf subset) =>
      Nfa.successor_mem_subsets h (List.mem_append_left _ (List.mem_map_of_mem hlabel))
  have hconditions := mapM_stored_idxOf hlength
    (fun _ _ => Nfa.pass?_eq hnfa hsize hmembers)
    fun condition (hcondition : condition ∈ nfa.conditionsOf subset) =>
      Nfa.successor_mem_subsets h (List.mem_append_right _ (List.mem_map_of_mem hcondition))
  have hlabels : Nfa.labelsAmong (subset.flatMap fun id => (nfa.state id).edges) =
      nfa.labelsOf subset := rfl
  have hguards : Nfa.conditionsAmong (subset.flatMap fun id => (nfa.state id).edges) =
      nfa.conditionsOf subset := rfl
  unfold State.ofSubset?
  simp only [Nfa.mapM_state?_eq hsize hmembers, Option.bind_eq_bind, Option.bind_some,
    List.flatMap_map, hlabels, hguards, htransitions, hconditions]
  rfl

/-- **No lookup of the subset construction fails.** -/
theorem ofNfa?_eq : ofNfa? nfa = some (ofNfa nfa) := by
  unfold ofNfa?
  rw [Nfa.subsets?_eq hnfa hsize]
  show (do
    let states ← nfa.subsets.mapM (State.ofSubset? nfa nfa.subsets)
    return ({ states := states.toArray } : Dfa)) = _
  rw [mapM_eq_some_map fun _ => ofSubset?_eq hnfa hsize hlength]
  rfl

end Agreement

end Dfa

end StyleStream
