/-
  What a matcher looks up in an automaton.

  Both kinds of automata get their lookups that can fail (`Machine.Lookups`). `Machine.Sound`
  says that they succeed at the numbers of states, and that they lead to numbers in range. It
  holds of every automaton whose own numbers are in range: `Nfa.InRange.sound` and
  `Dfa.InRange.sound`.
-/
import StyleStream.Proofs.Lookups
import StyleStream.Proofs.Ranges

namespace StyleStream

/-! ### Tables of labels -/

namespace Labels

def name? (labels : Labels) (symbol : Symbol) : Option String :=
  fetch? labels.names symbol

def conditionText? (labels : Labels) (id : ConditionId) : Option String :=
  (fetch? labels.conditions id).map Condition.text

def text? (labels : Labels) : Label → Option String
  | .name symbol => labels.name? symbol
  | .sibling => some "SIBLING"

variable {labels : Labels}

theorem text?_eq (hnames : labels.names.length ≤ 2 ^ 32) {label : Label}
    (h : label.InRange labels) : labels.text? label = some (labels.text label) := by
  cases label with
  | sibling => rfl
  | name symbol =>
    have hlt : symbol < labels.names.length := h
    show fetch? labels.names symbol = some (labels.names.getD symbol "")
    rw [fetch?_eq hnames hlt, List.getD_eq_getElem?_getD, List.getElem?_eq_getElem hlt]
    rfl

theorem conditionText?_eq (hconditions : labels.conditions.length ≤ 2 ^ 32) {id : ConditionId}
    (h : id < labels.conditions.length) :
    labels.conditionText? id = some (labels.conditionText id) := by
  unfold conditionText? conditionText
  rw [fetch?_eq hconditions h, List.getElem?_eq_getElem h]
  rfl

end Labels

/-! ### Machines -/

/-- The guarded edges out of a state, by condition and target. -/
def Nfa.State.guarded (state : Nfa.State) : List (ConditionId × StateId) :=
  state.edges.filterMap fun edge =>
    edge.event.condition?.map fun condition => (condition, edge.target)

/-- What a matcher looks up in an automaton. -/
class Machine.Lookups (M : Type) where
  initial? : M → Option (List StateId)
  step? : M → List StateId → Label → Option (List StateId)
  guards? : M → StateId → Option (List (ConditionId × List StateId))
  declarations? : M → StateId → Option (List DeclarationId)
  pseudoDeclarations? : M → StateId → Option (List DeclarationId)

open Machine (Lookups)

instance : Lookups Nfa where
  initial? nfa := nfa.initial?
  step? nfa sources label := nfa.step? sources label
  guards? nfa id := do
    let state ← nfa.state? id
    state.guarded.mapM fun edge => (nfa.closure? [edge.2]).map fun behind => (edge.1, behind)
  declarations? nfa id := (nfa.state? id).map (·.declarations)
  pseudoDeclarations? nfa id := (nfa.state? id).map (·.pseudoDeclarations)

instance : Lookups Dfa where
  initial? _ := some [Dfa.start]
  step? dfa sources label := do
    let states ← sources.mapM dfa.state?
    return states.filterMap (·.transitions.lookup label)
  guards? dfa id := (dfa.state? id).map fun state =>
    state.conditions.map fun (condition, target) => (condition, [target])
  declarations? dfa id := (dfa.state? id).map (·.declarations)
  pseudoDeclarations? dfa id := (dfa.state? id).map (·.pseudoDeclarations)

/-- The lookups at states succeed and lead to states, to conditions and to declarations. -/
structure Machine.Sound {M : Type} [Machine M] [Lookups M] (m : M)
    (conditions declarations : Nat) : Prop where
  initial?_eq : Lookups.initial? m = some (initial m)
  initial_lt : ∀ q ∈ initial m, q < size m
  step?_eq : ∀ sources label, (∀ q ∈ sources, q < size m) →
    Lookups.step? m sources label = some (step m sources label)
  step_lt : ∀ sources label, ∀ q ∈ step m sources label, q < size m
  guards?_eq : ∀ q < size m, Lookups.guards? m q = some (guards m q)
  guard_lt : ∀ q < size m, ∀ guarded ∈ guards m q, guarded.1 < conditions ∧
    ∀ t ∈ guarded.2, t < size m
  declarations?_eq : ∀ q < size m, Lookups.declarations? m q = some (Machine.declarations m q)
  declaration_lt : ∀ q < size m, ∀ i ∈ Machine.declarations m q, i < declarations
  pseudoDeclarations?_eq : ∀ q < size m,
    Lookups.pseudoDeclarations? m q = some (pseudoDeclarations m q)
  pseudoDeclaration_lt : ∀ q < size m, ∀ i ∈ pseudoDeclarations m q, i < declarations

theorem Machine.guards_nfa_eq_map (nfa : Nfa) (q : StateId) :
    guards nfa q = (nfa.state q).guarded.map fun edge => (edge.1, nfa.closure [edge.2]) := by
  unfold Nfa.State.guarded
  rw [List.map_filterMap]
  simp only [Option.map_map]
  rfl

section Sound

variable {nfa : Nfa} {dfa : Dfa} {labels : Labels} {declarations : Nat}

theorem Nfa.InRange.guard_lt (h : nfa.InRange labels declarations) (q : StateId) :
    ∀ guarded ∈ Machine.guards nfa q, guarded.1 < labels.conditions.length ∧
      ∀ t ∈ guarded.2, t < nfa.size := by
  intro guarded hguarded
  obtain ⟨⟨event, target⟩, hedge, hevent⟩ := List.mem_filterMap.1 hguarded
  obtain ⟨condition, hcondition, rfl⟩ := Option.map_eq_some_iff.1 hevent
  have hrange := h.event q _ hedge
  cases event <;> simp only [Event.condition?, Option.some.injEq, reduceCtorEq] at hcondition
  subst hcondition
  exact ⟨hrange, fun t ht => lt_size_of_mem_closure ht⟩

theorem Dfa.InRange.guard_lt (h : dfa.InRange nfa labels declarations) (q : StateId) :
    ∀ guarded ∈ Machine.guards dfa q, guarded.1 < labels.conditions.length ∧
      ∀ t ∈ guarded.2, t < dfa.size := by
  intro guarded hguarded
  obtain ⟨edge, hedge, rfl⟩ := List.mem_map.1 hguarded
  exact ⟨(h.condition q edge hedge).1, List.forall_mem_singleton.2 (h.condition q edge hedge).2⟩

/-- **Nondeterministic automata** with numbers in range. -/
theorem Nfa.InRange.sound (h : nfa.InRange labels declarations) (hsize : nfa.size ≤ 2 ^ 32) :
    Machine.Sound nfa labels.conditions.length declarations where
  initial?_eq := initial?_eq h.bounded hsize
  initial_lt _ hq := lt_size_of_mem_closure hq
  step?_eq _ _ hsources := step?_eq h.bounded hsize hsources
  step_lt _ _ _ hq := lt_size_of_mem_closure hq
  guards?_eq q hq := by
    have hclosures : (nfa.state q).guarded.mapM (fun edge =>
        (nfa.closure? [edge.2]).map fun behind => (edge.1, behind)) =
          some ((nfa.state q).guarded.map fun edge => (edge.1, nfa.closure [edge.2])) := by
      refine mapM_map_eq_some_map _ fun guarded hguarded => ?_
      obtain ⟨edge, hedge, hevent⟩ := List.mem_filterMap.1 hguarded
      obtain ⟨_, -, rfl⟩ := Option.map_eq_some_iff.1 hevent
      exact closure?_eq h.bounded hsize (List.forall_mem_singleton.2 (h.target_lt q edge hedge))
    simp only [Lookups.guards?, state?_eq hsize hq, Option.bind_eq_bind, Option.bind_some,
      hclosures, Machine.guards_nfa_eq_map]
  guard_lt q _ := h.guard_lt q
  declarations?_eq q hq := congrArg (Option.map State.declarations) (state?_eq hsize hq)
  declaration_lt q _ := h.declaration_lt q
  pseudoDeclarations?_eq q hq :=
    congrArg (Option.map State.pseudoDeclarations) (state?_eq hsize hq)
  pseudoDeclaration_lt q _ := h.pseudoDeclaration_lt q

/-- **Deterministic automata** with numbers in range. -/
theorem Dfa.InRange.sound (h : dfa.InRange nfa labels declarations) (hsize : dfa.size ≤ 2 ^ 32) :
    Machine.Sound dfa labels.conditions.length declarations where
  initial?_eq := rfl
  initial_lt := List.forall_mem_singleton.2 h.start_lt
  step?_eq sources label hsources := by
    have hstates : sources.mapM dfa.state? = some (sources.map dfa.state) :=
      mapM_eq_some_map fun q hq => state?_eq hsize (hsources q hq)
    simp only [Lookups.step?, hstates, Option.bind_eq_bind, Option.bind_some, List.filterMap_map]
    rfl
  step_lt sources label target htarget := by
    obtain ⟨q, -, hstep⟩ := List.mem_filterMap.1 htarget
    obtain ⟨before, behind, hsplit, -⟩ := List.lookup_eq_some_iff.1 hstep
    have hmem : (label, target) ∈ (dfa.state q).transitions := by
      rw [hsplit]
      exact List.mem_append_right _ List.mem_cons_self
    exact (h.transition q _ hmem).2
  guards?_eq q hq := congrArg (Option.map fun state : State =>
    state.conditions.map fun (condition, target) => (condition, [target])) (state?_eq hsize hq)
  guard_lt q _ := h.guard_lt q
  declarations?_eq q hq := congrArg (Option.map State.declarations) (state?_eq hsize hq)
  declaration_lt q _ := h.declaration_lt q
  pseudoDeclarations?_eq q hq :=
    congrArg (Option.map State.pseudoDeclarations) (state?_eq hsize hq)
  pseudoDeclaration_lt q _ := h.pseudoDeclaration_lt q

end Sound

end StyleStream
