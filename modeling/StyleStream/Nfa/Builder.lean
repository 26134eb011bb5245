/-
  Building a selector automaton, one rule at a time.

  A selector becomes a fragment, a part of the automaton with one entry and one
  exit, by recursion on the selector:

      element test    entry --label--> exit
      filtered        [inner] --condition--> exit
      A > B           [A] --> [B]
      A B             [A] --> (any element)* --> [B]
      A + B           [A] --sibling--> [B]

  A fragment is entered from the shared start state and left to the shared
  accepting state. The declarations of a rule are accepted at the exit of its
  selector's fragment, and rules with equal selectors share a fragment. The
  builder only ever appends: to the label tables, to the numbers in use and to
  the list of edges.
-/
import StyleStream.Nfa.Basic
import StyleStream.Selector

namespace StyleStream

namespace Nfa

/-- The entry and the exit of a part of the automaton. -/
structure Fragment where
  /-- The state through which the part is entered. -/
  entry : StateId
  /-- The state in which the part has been read. -/
  exit : StateId
deriving DecidableEq

/-- An edge together with the state that it leaves. -/
structure Link where
  source : StateId
  edge : Edge
deriving DecidableEq

/-- A declaration accepted at a state. -/
structure Acceptance where
  state : StateId
  declaration : DeclarationId
  pseudo : Bool
deriving DecidableEq

/-- An automaton under construction. -/
structure Builder where
  labels : Labels := {}
  /-- The number of states made so far. A new builder has the start and the accepting state. -/
  size : Nat := 2
  links : List Link := []
  acceptances : List Acceptance := []
  /-- The exit of the fragment of each selector compiled so far. -/
  exits : List (Selector × StateId) := []
deriving DecidableEq

namespace Builder

/-! ### Single steps -/

def link (b : Builder) (source : StateId) (event : Event) (target : StateId) : Builder :=
  { b with links := b.links ++ [⟨source, event, target⟩] }

/-- Makes `count` states. They have the numbers from the old size on. -/
def grow (b : Builder) (count : Nat) : Builder :=
  { b with size := b.size + count }

def internName (b : Builder) (label : String) : Builder :=
  { b with labels := b.labels.internName label }

def internCondition (b : Builder) (condition : Condition) : Builder :=
  { b with labels := b.labels.internCondition condition }

/-- Lets a state accept a declaration. -/
def accept (b : Builder) (state : StateId) (declaration : DeclarationId) (pseudo : Bool) :
    Builder :=
  { b with acceptances := b.acceptances ++ [⟨state, declaration, pseudo⟩] }

/-! ### Fragments -/

/-- The event that reads an element under a name label of the builder's table. -/
def reads (b : Builder) (label : String) : Event :=
  .consume (.name (b.labels.names.idxOf label))

/-- The fragment that reads one element under a name label. -/
def name (b : Builder) (label : String) : Fragment × Builder :=
  let b := b.internName label
  let entry := b.size
  (⟨entry, entry + 1⟩, (b.grow 2).link entry (b.reads label) (entry + 1))

/-- A fragment with one more condition on the element that it read last. -/
def filter (b : Builder) (inner : Fragment) (condition : Condition) : Fragment × Builder :=
  let b := b.internCondition condition
  let exit := b.size
  let id := b.labels.conditions.idxOf condition
  (⟨inner.entry, exit⟩, (b.grow 1).link inner.exit (.guard id) exit)

/-- Leads from the exit of the left side of a combinator to the place where the
right side starts, and returns that place. -/
def bridge (b : Builder) (exit : StateId) : Combinator → StateId × Builder
  | .child => (exit, b)
  | .descendant =>
    -- Four states: entry, before and behind one element of any name, exit.
    let entry := b.size
    let b := (b.grow 4).internName anyLabel
    let b := b.link exit .epsilon entry
    let b := b.link entry .epsilon (entry + 1)
    let b := b.link entry .epsilon (entry + 3)
    let b := b.link (entry + 1) (b.reads anyLabel) (entry + 2)
    (entry + 3, b.link (entry + 2) .epsilon entry)
  | .adjacent =>
    let entry := b.size
    let b := (b.grow 2).link exit .epsilon entry
    (entry + 1, b.link entry (.consume .sibling) (entry + 1))

/-- The fragment of a selector, or `none` if a part of it is not understood. A
pseudo-element at the right of a combinator is never read: the chain ends at
the element that owns it. -/
def fragment (b : Builder) : Selector → Option (Fragment × Builder)
  | .element test => some (b.name (nameLabel test.ns test.localName))
  | .filtered inner condition => do
    let (part, b) ← b.fragment inner
    return b.filter part condition
  | .combined combinator left right =>
    if right.isPseudo then b.fragment left
    else do
      let (head, b) ← b.fragment left
      let (place, b) := b.bridge head.exit combinator
      let (tail, b) ← b.fragment right
      return (⟨head.entry, tail.exit⟩, b.link place .epsilon tail.entry)
  | .pseudo _ => some (b.name anyLabel)
  | .unsupported _ => none

/-! ### Rules -/

/-- Adds the fragment of a selector between the start and the accepting state
and returns its exit. A selector that was compiled before keeps its fragment. -/
def selector (b : Builder) (selector : Selector) : Option (StateId × Builder) :=
  match b.exits.lookup selector with
  | some exit => some (exit, b)
  | none =>
    if selector.isSupported then do
      let (part, b) ← b.fragment selector
      let b := (b.link Nfa.start .epsilon part.entry).link part.exit .epsilon Nfa.accept
      return (part.exit, { b with exits := (selector, part.exit) :: b.exits })
    else none

/-- Adds a rule: its declaration is accepted at the exit of its selector. A
rule whose selector is not understood is refused. -/
def addRule (b : Builder) (selector : Selector) (declaration : DeclarationId) (pseudo : Bool) :
    Option Builder := do
  let (exit, b) ← b.selector selector
  return b.accept exit declaration pseudo

/-! ### The finished automaton -/

/-- The state with a number: the edges that leave it and the declarations that
it accepts, in the order in which they were made. -/
def state (b : Builder) (id : StateId) : State where
  edges := (b.links.filter (·.source = id)).map (·.edge)
  declarations := (b.acceptances.filter fun a => a.state = id ∧ !a.pseudo).map (·.declaration)
  pseudoDeclarations := (b.acceptances.filter fun a => a.state = id ∧ a.pseudo).map (·.declaration)

def build (b : Builder) : Nfa where
  states := (Array.range b.size).map b.state

end Builder

end Nfa

end StyleStream
