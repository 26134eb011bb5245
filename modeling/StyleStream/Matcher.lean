/-
  Matching a document as it is read.

  A matcher follows the starts and ends of elements. For each open element it
  keeps a frame with the element's language, its place among its siblings and
  its live automaton states, and with the live states of the child that closed
  last. A frame of the same kind stands for the document around the outermost
  elements. What was inside a closed element is forgotten.
-/
import StyleStream.Cascade
import StyleStream.Config
import StyleStream.Element
import StyleStream.Log

namespace StyleStream

/-- What is remembered of an open element, or of the document. -/
structure Frame where
  /-- The language in force. -/
  language : String
  /-- How many siblings started before. -/
  position : Nat := 0
  /-- How many children have started. -/
  children : Nat := 0
  live : List StateId := []
  /-- The live states of the child that closed last, if one has closed. -/
  lastChild : Option (List StateId) := none
deriving DecidableEq

structure Matcher (M : Type) where
  automaton : Automaton M
  config : Config
  document : Frame
  /-- The frames of the open elements, the innermost first. -/
  stack : List Frame
deriving DecidableEq

namespace Matcher

variable {M : Type}

/-- The frame of a document of which nothing has been read. -/
def freshDocument (config : Config) : Frame where
  language := config.defaultLanguage

/-- A matcher at the beginning of a document. -/
def new (automaton : Automaton M) (config : Config) : Matcher M where
  automaton := automaton
  config := config
  document := freshDocument config
  stack := []

def depth (m : Matcher M) : Nat := m.stack.length

/-- The frame around whatever starts next: that of the current element, or that
of the document. -/
def enclosing (m : Matcher M) : Frame :=
  m.stack.headD m.document

/-- Changes the frame around whatever starts next. -/
def modifyEnclosing (m : Matcher M) (f : Frame → Frame) : Matcher M :=
  match m.stack with
  | frame :: rest => { m with stack := f frame :: rest }
  | [] => { m with document := f m.document }

/-! ### Live states -/

/-- The states from which an element is read: those live around it, the initial
ones, and those that the sibling step leads to from the sibling just before. -/
def seeds [Machine M] (machine : M) (around : Frame) : List StateId :=
  ascending <| around.live ++ Machine.initial machine ++
    match around.lastChild with
    | some previous => Machine.step machine previous .sibling
    | none => []

/-- The states reached by reading an element under each of its labels. -/
def read [Machine M] (automaton : Automaton M) (element : Element) (seeds : List StateId) :
    List StateId :=
  ascending <| (automaton.labels.elementSymbols element.ns element.localName).flatMap fun symbol =>
    Machine.step automaton.machine seeds (.name symbol)

/-- **Condition closure**: the states reached from the live ones over guarded
edges whose conditions hold. Each condition is decided once. -/
def settle [Machine M] (automaton : Automaton M) (context : Context) (live : List StateId) :
    List StateId :=
  let verdicts := (automaton.labels.conditions.map context.holds).toArray
  let holds := fun condition => verdicts.getD condition false
  reach (Machine.size automaton.machine) (Machine.fire automaton.machine holds) live

/-- What the conditions see of an element that starts in a frame. -/
def context (around : Frame) (element : Element) : Context where
  element := element
  position := around.children
  language := element.declaredLanguage?.getD around.language

/-- The frame of an element that starts in a frame. -/
def frameOf [Machine M] (automaton : Automaton M) (around : Frame) (element : Element) : Frame :=
  let context := context around element
  { language := context.language
    position := context.position
    live := settle automaton context (read automaton element (seeds automaton.machine around)) }

/-! ### Events -/

/-- An element starts. -/
def start [Machine M] (m : Matcher M) (element : Element) : Matcher M :=
  let frame := frameOf m.automaton m.enclosing element
  let m := m.modifyEnclosing fun around => { around with children := around.children + 1 }
  { m with stack := frame :: m.stack }

/-- The current element ends. Its live states are remembered in the frame around it. -/
def finish (m : Matcher M) : Except Error (Matcher M) :=
  match m.stack with
  | [] => .error .unbalancedEnd
  | frame :: rest =>
    .ok (({ m with stack := rest } : Matcher M).modifyEnclosing fun around =>
      { around with lastChild := some frame.live })

def reset (m : Matcher M) : Matcher M :=
  { m with document := freshDocument m.config, stack := [] }

/-! ### Questions -/

/-- The frame of the current element. -/
def current (m : Matcher M) (query : Query) : Except Error Frame :=
  match m.stack with
  | frame :: _ => .ok frame
  | [] => .error (.noOpenElement query)

/-- The declarations for the current element, in cascade order. -/
def declarations [Machine M] (m : Matcher M) : Except Error (List Declaration) := do
  let frame ← m.current .declarations
  return m.automaton.collect frame.live none

/-- The declarations for a pseudo-element of the current element, in cascade order. -/
def pseudoDeclarations [Machine M] (m : Matcher M) (pseudo : PseudoElement) :
    Except Error (List Declaration) := do
  let frame ← m.current .pseudoDeclarations
  return m.automaton.collect frame.live (some pseudo)

/-- The winning declaration of each property of the current element. -/
def computed [Machine M] (m : Matcher M) : Except Error (List (String × Declaration)) := do
  return winners (← m.declarations)

def language (m : Matcher M) : Except Error String := do
  return (← m.current .language).language

/-- How many siblings of the current element started before it. -/
def position (m : Matcher M) : Except Error Nat := do
  return (← m.current .position).position

def liveStates (m : Matcher M) : Except Error (List StateId) := do
  return (← m.current .liveStates).live

/-! ### Log -/

/-- The report on the element that has just started. -/
def logStarted [Machine M] (m : Matcher M) (element : Element) : List LogEntry :=
  match m.config.trace, m.stack with
  | true, frame :: _ =>
    let live := frame.live.map (Machine.showState m.automaton.machine)
    [{ level := .trace
       message := "element started"
       fields :=
         [("element", element.localName), ("depth", toString m.depth),
          ("position", toString frame.position), ("language", frame.language),
          ("live", "[" ++ ", ".intercalate live ++ "]")] }]
  | _, _ => []

end Matcher

end StyleStream
