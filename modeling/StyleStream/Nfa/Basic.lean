/-
  Nondeterministic selector automata.

  An edge either consumes a label, or is guarded by a condition on the element
  that was read last, or is silent. A state accepts declarations: some for the
  element that was read last, some for its pseudo-elements. State 0 is the start
  of every rule, and state 1 is where all rules end.
-/
import StyleStream.Label
import StyleStream.Reach

namespace StyleStream

/-- What an edge does. -/
inductive Event where
  | consume (label : Label)
  | guard (condition : ConditionId)
  | epsilon
deriving DecidableEq

/-- The label that an edge reads, if it reads one. -/
def Event.label? : Event → Option Label
  | consume label => some label
  | _ => none

/-- The condition that an edge asks about, if it asks about one. -/
def Event.condition? : Event → Option ConditionId
  | guard condition => some condition
  | _ => none

namespace Nfa

structure Edge where
  event : Event
  target : StateId
deriving DecidableEq

structure State where
  edges : List Edge := []
  declarations : List DeclarationId := []
  pseudoDeclarations : List DeclarationId := []
deriving DecidableEq

/-- The targets of the edges with an event. -/
def State.targets (state : State) (event : Event) : List StateId :=
  state.edges.filterMap fun edge => if edge.event = event then some edge.target else none

end Nfa

structure Nfa where
  states : Array Nfa.State
deriving DecidableEq

namespace Nfa

/-- The state where every rule starts. -/
def start : StateId := 0

/-- The state where every rule ends. -/
def accept : StateId := 1

def size (nfa : Nfa) : Nat := nfa.states.size

/-- The state with a number. A number that is not in use counts as a state
without edges and declarations. -/
def state (nfa : Nfa) (id : StateId) : State :=
  nfa.states.getD id {}

/-- The targets of the edges with an event out of any of the given states. -/
def targets (nfa : Nfa) (sources : List StateId) (event : Event) : List StateId :=
  sources.flatMap fun id => (nfa.state id).targets event

/-- **Silent closure**: the states reached from the seeds by silent edges alone,
in ascending order. -/
def closure (nfa : Nfa) (seeds : List StateId) : List StateId :=
  reach nfa.size (fun id => (nfa.state id).targets .epsilon) seeds

/-- The states live before anything is read. -/
def initial (nfa : Nfa) : List StateId :=
  nfa.closure [start]

/-- The states reached by reading a label. -/
def step (nfa : Nfa) (sources : List StateId) (label : Label) : List StateId :=
  nfa.closure (nfa.targets sources (.consume label))

/-- The states reached over the edges guarded by a condition. -/
def pass (nfa : Nfa) (sources : List StateId) (condition : ConditionId) : List StateId :=
  nfa.closure (nfa.targets sources (.guard condition))

end Nfa

end StyleStream
