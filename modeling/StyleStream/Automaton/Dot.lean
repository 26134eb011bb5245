/-
  Graph descriptions of compiled automata, in the DOT language.

  A description has one line for each edge, with the label of the edge in
  quotes, and one comment line for each declaration that a state accepts.
-/
import StyleStream.Automaton

namespace StyleStream

namespace Dot

/-- A label inside quotes: a backslash goes in front of each backslash and each
quote. -/
def escape (label : List Char) : List Char :=
  label.flatMap fun c => if c = '\\' ∨ c = '"' then ['\\', c] else [c]

/-- A label in quotes. -/
def quoted (label : String) : String :=
  "\"" ++ String.ofList (escape label.toList) ++ "\""

/-- The line of an edge, with more attributes after the label. -/
def edge (source : StateId) (label : String) (target : StateId) (more : String) : String :=
  "\t" ++ toString source ++ " -> " ++ toString target ++ " [label=" ++ quoted label ++ more ++ "];"

/-- The line that gives a state a special shape. -/
def shaped (id : StateId) (shape : String) : String :=
  "\t" ++ toString id ++ " [" ++ shape ++ "];"

/-- A declaration in a comment, after the pseudo-element that it is for. -/
def declarationText (d : Declaration) : String :=
  match d.pseudoElement with
  | some pseudo => "::" ++ pseudo.name ++ " " ++ d.text
  | none => d.text

/-- The comment line of a declaration that a state accepts. -/
def comment (id : StateId) (d : Declaration) : String :=
  "\t// [" ++ toString id ++ "] " ++ declarationText d

/-- A graph: a name and the lines of its body. -/
def graph (name : String) (body : List String) : String :=
  String.join ((["digraph " ++ name ++ " \x7b", "\trankdir=LR;"] ++ body ++ ["\x7d"]).map (· ++ "\n"))

end Dot

namespace Automaton

variable {M : Type}

/-- The comment lines of a state: declarations for the element, then those for
pseudo-elements. -/
def dotComments [Machine M] (a : Automaton M) (id : StateId) : List String :=
  (Machine.declarations a.machine id ++ Machine.pseudoDeclarations a.machine id).filterMap
    fun declaration => a.declarations[declaration]?.map (Dot.comment id)

/-- The text of what an edge does. -/
def eventText (a : Automaton M) : Event → String
  | .consume label => a.labels.text label
  | .guard condition => a.labels.conditionText condition
  | .epsilon => "ε"

/-- The nondeterministic automaton as a graph. -/
def nfaDot (a : Automaton Nfa) : String :=
  Dot.graph "nfa" <|
    [Dot.shaped Nfa.start "shape=box", Dot.shaped Nfa.accept "peripheries=2"] ++
      (List.range a.machine.size).flatMap fun id =>
        a.dotComments id ++
          (a.machine.state id).edges.map fun edge =>
            Dot.edge id (a.eventText edge.event) edge.target ""

/-- The deterministic automaton as a graph. Guarded edges are dashed. -/
def dfaDot (a : Automaton Dfa) : String :=
  Dot.graph "dfa" <|
    [Dot.shaped Dfa.start "shape=box"] ++
      (List.range a.machine.size).flatMap fun id =>
        a.dotComments id ++
          ((a.machine.state id).transitions.map fun (label, target) =>
            Dot.edge id (a.labels.text label) target "") ++
          (a.machine.state id).conditions.map fun (condition, target) =>
            Dot.edge id (a.labels.conditionText condition) target ", style=dashed"

end Automaton

end StyleStream
