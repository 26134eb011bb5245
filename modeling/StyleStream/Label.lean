/-
  Labels: what an automaton reads.

  A document is read as a word of labels. An element is read under the labels
  of its name, from the most specific to the one that fits every element; the
  step from an element to the next sibling is read as a label of its own.
  Labels of names and conditions are numbered in a table, and the automata refer
  to them by number.

  A number is kept in a word of 32 bits. Here it has no bound: it is assumed that
  no table has `2 ^ 32` entries or more, so that no number wraps around. Under
  this assumption `Automaton.lookups_succeed` says that storing the numbers in
  words changes nothing.
-/
import StyleStream.Condition
import StyleStream.Intern

namespace StyleStream

/-- The number of a state in its automaton, for a word of 32 bits. Automata are assumed to have
fewer than `2 ^ 32` states, as in `Automaton.lookups_succeed`. -/
abbrev StateId := Nat

/-- The number of a name label in its table, for a word of 32 bits. Tables are assumed to have
fewer than `2 ^ 32` names, as in `Automaton.lookups_succeed`. -/
abbrev Symbol := Nat

/-- The number of a condition in its table, for a word of 32 bits. Tables are assumed to have
fewer than `2 ^ 32` conditions, as in `Automaton.lookups_succeed`. -/
abbrev ConditionId := Nat

/-- The number of a declaration among the compiled ones, for a word of 32 bits. There are assumed
to be fewer than `2 ^ 32` of them, as in `Automaton.lookups_succeed`. -/
abbrev DeclarationId := Nat

/-! ### Labels of names -/

/-- The label of a demand on a name: the namespace, a bar and the local name,
with a star for each component on which nothing is demanded. -/
def nameLabel (ns localName : Option String) : String :=
  ns.getD "*" ++ "|" ++ localName.getD "*"

/-- The label that every element has. -/
def anyLabel : String := nameLabel none none

/-- The labels of an element, the most specific first. An element without a
namespace has the empty one. -/
def elementLabels (ns : Option String) (localName : String) : List String :=
  let own := ns.getD ""
  [nameLabel (some own) (some localName), nameLabel none (some localName),
    nameLabel (some own) none, anyLabel]

/-! ### What an automaton reads -/

/-- A letter of the words that an automaton reads. -/
inductive Label where
  /-- An element under one of its name labels. -/
  | name (symbol : Symbol)
  /-- The step to the next sibling. -/
  | sibling
deriving DecidableEq

/-! ### The tables -/

/-- The name labels and the conditions of an automaton, each numbered in the
order in which they first came. -/
structure Labels where
  names : List String := []
  conditions : List Condition := []
deriving DecidableEq

namespace Labels

def internName (labels : Labels) (label : String) : Labels :=
  { labels with names := intern labels.names label }

def internCondition (labels : Labels) (condition : Condition) : Labels :=
  { labels with conditions := intern labels.conditions condition }

/-- The number of a name label, if it has one. -/
def symbol? (labels : Labels) (label : String) : Option Symbol :=
  labels.names.idxOf? label

/-- The number of a condition, if it has one. -/
def conditionId? (labels : Labels) (condition : Condition) : Option ConditionId :=
  labels.conditions.idxOf? condition

/-- The name label with a number. -/
def name (labels : Labels) (symbol : Symbol) : String :=
  labels.names.getD symbol ""

def conditionText (labels : Labels) (id : ConditionId) : String :=
  (labels.conditions[id]?.map Condition.text).getD ""

/-- The numbers of those labels of an element that the table knows, without
repetition. -/
def elementSymbols (labels : Labels) (ns : Option String) (localName : String) : List Symbol :=
  ((elementLabels ns localName).filterMap labels.symbol?).eraseDups

def text (labels : Labels) : Label → String
  | .name symbol => labels.name symbol
  | .sibling => "SIBLING"

end Labels

end StyleStream
