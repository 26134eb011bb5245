/-
  What a matcher needs of a selector automaton, deterministic or not.

  Both kinds read a document in the same way. A matcher holds a set of live
  states; the automaton says which states are live at first, which ones a label
  leads to, which ones wait behind a condition, and what each state accepts.
-/
import StyleStream.Dfa

namespace StyleStream

/-- An automaton on which a document can be matched. -/
class Machine (M : Type) where
  size : M → Nat
  /-- The states live before anything is read. -/
  initial : M → List StateId
  /-- The states that a label leads to from the given ones. -/
  step : M → List StateId → Label → List StateId
  /-- The conditions that guard edges out of a state, each with the states behind it. -/
  guards : M → StateId → List (ConditionId × List StateId)
  declarations : M → StateId → List DeclarationId
  pseudoDeclarations : M → StateId → List DeclarationId
  showState : M → StateId → String

/-- The states behind those guards of a state whose conditions hold. -/
def Machine.fire {M : Type} [Machine M] (m : M) (holds : ConditionId → Bool) (id : StateId) :
    List StateId :=
  ((Machine.guards m id).filter fun guarded => holds guarded.1).flatMap (·.2)

/-- In a nondeterministic automaton a guarded edge leads to the silent closure
of its target. -/
instance : Machine Nfa where
  size nfa := nfa.size
  initial nfa := nfa.initial
  step nfa sources label := nfa.step sources label
  guards nfa id := (nfa.state id).edges.filterMap fun edge =>
    edge.event.condition?.map fun condition => (condition, nfa.closure [edge.target])
  declarations nfa id := (nfa.state id).declarations
  pseudoDeclarations nfa id := (nfa.state id).pseudoDeclarations
  showState _ id := s!"NfaStateId({id})"

/-- A deterministic automaton steps each state by itself. Two states may lead
to one, which is then named twice. -/
instance : Machine Dfa where
  size dfa := dfa.size
  initial _ := [Dfa.start]
  step dfa sources label := sources.filterMap (dfa.step? · label)
  guards dfa id := (dfa.state id).conditions.map fun (condition, target) => (condition, [target])
  declarations dfa id := (dfa.state id).declarations
  pseudoDeclarations dfa id := (dfa.state id).pseudoDeclarations
  showState _ id := s!"DfaStateId({id})"

end StyleStream
