/-
  Deterministic selector automata by the subset construction.

  A state stands for a set of states of the nondeterministic automaton, kept as
  a strictly ascending list. From each such set there is at most one edge for
  each label and one for each condition, and it leads to the set of everything
  that can be reached that way. `subsets` finds the sets and numbers them as
  they are first met; the states are then read off the table of sets.
-/
import StyleStream.Nfa.Basic

namespace StyleStream

/-! ### Subsets -/

namespace Nfa

/-- The labels on edges out of a set of states, each once: names by number,
the sibling step last. -/
def labelsOf (nfa : Nfa) (subset : List StateId) : List Label :=
  let read := (subset.flatMap fun id => (nfa.state id).edges).filterMap (·.event.label?)
  let symbols := read.filterMap fun label =>
    match label with
    | .name symbol => some symbol
    | .sibling => none
  (ascending symbols).map .name ++ if .sibling ∈ read then [.sibling] else []

/-- The conditions on edges out of a set of states, by number. -/
def conditionsOf (nfa : Nfa) (subset : List StateId) : List ConditionId :=
  ascending ((subset.flatMap fun id => (nfa.state id).edges).filterMap (·.event.condition?))

/-- The sets that a set has edges to, over its labels and then over its conditions. -/
def successors (nfa : Nfa) (subset : List StateId) : List (List StateId) :=
  (nfa.labelsOf subset).map (nfa.step subset) ++ (nfa.conditionsOf subset).map (nfa.pass subset)

/-- Extends a table of sets by the successors of the set at index `next`, then
of the one after it, and so on to the end of the growing table. -/
def explore (nfa : Nfa) : Nat → List (List StateId) → Nat → List (List StateId)
  | 0, table, _ => table
  | fuel + 1, table, next =>
    match table[next]? with
    | none => table
    | some subset => explore nfa fuel ((nfa.successors subset).foldl intern table) (next + 1)

/-- The sets reachable from the initial one, in the order in which they are
first met. There are at most `2 ^ size` sets, so the search always ends by
itself. -/
def subsets (nfa : Nfa) : List (List StateId) :=
  nfa.explore (Nat.pow 2 nfa.size) [nfa.initial] 0

end Nfa

/-! ### The automaton -/

namespace Dfa

structure State where
  /-- The edges that read a label: names by number, the sibling step last. -/
  transitions : List (Label × StateId)
  conditions : List (ConditionId × StateId)
  declarations : List DeclarationId
  pseudoDeclarations : List DeclarationId
  /-- The states of the nondeterministic automaton that this state stands for. -/
  subset : List StateId
deriving DecidableEq

/-- The state that stands for nothing. -/
def State.empty : State := ⟨[], [], [], [], []⟩

/-- The state for a set, with targets numbered by a table of sets. -/
def State.ofSubset (nfa : Nfa) (table : List (List StateId)) (subset : List StateId) : State where
  transitions := (nfa.labelsOf subset).map fun label =>
    (label, table.idxOf (nfa.step subset label))
  conditions := (nfa.conditionsOf subset).map fun condition =>
    (condition, table.idxOf (nfa.pass subset condition))
  declarations := ascending (subset.flatMap fun id => (nfa.state id).declarations)
  pseudoDeclarations := ascending (subset.flatMap fun id => (nfa.state id).pseudoDeclarations)
  subset := subset

end Dfa

structure Dfa where
  states : Array Dfa.State
deriving DecidableEq

namespace Dfa

def start : StateId := 0

def size (dfa : Dfa) : Nat := dfa.states.size

/-- The state with a number. A number that is not in use counts as a state
that stands for nothing. -/
def state (dfa : Dfa) (id : StateId) : State :=
  dfa.states.getD id .empty

/-- The state reached by reading a label. -/
def step? (dfa : Dfa) (id : StateId) (label : Label) : Option StateId :=
  (dfa.state id).transitions.lookup label

/-- The subset construction. -/
def ofNfa (nfa : Nfa) : Dfa :=
  let table := nfa.subsets
  { states := (table.map (State.ofSubset nfa table)).toArray }

end Dfa

end StyleStream
