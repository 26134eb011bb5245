/-
  The document that a stream of elements spells out.

  Starts and ends of elements spell out a forest whose right edge is still open.
  A `Reading` is that forest with a finger on the innermost open element: the
  open elements from the inside to the outside, each with the siblings that
  ended before it started, and the children of the innermost one that have ended
  so far. Nothing is forgotten, so this is the whole forest read since the last
  reset. A `Place` is one element of such a forest together with where it
  stands, which is all that a selector can ask about.
-/
import StyleStream.Config
import StyleStream.Element
import StyleStream.Error

namespace StyleStream

/-- Something that happens in a stream of elements. -/
inductive StreamEvent where
  | starts (element : Element)
  | ends
  /-- What was read is given up, and a new document begins. -/
  | reset
deriving DecidableEq

/-- An element that has ended, with its children in document order. -/
inductive Tree where
  | node (element : Element) (children : List Tree)

/-- The element at the root of a tree. -/
def Tree.element : Tree → Element
  | node element _ => element

/-- An element among its siblings. -/
structure Level where
  /-- The siblings that started before it, the nearest first. All of them have ended. -/
  earlier : List Tree
  element : Element

/-! ### Places -/

/-- The language in force inside a path of open elements, the innermost first:
the one that the nearest of them declares. -/
def languageIn (config : Config) : List Level → String
  | [] => config.defaultLanguage
  | level :: above => level.element.declaredLanguage?.getD (languageIn config above)

/-- An element where it stands in a document. -/
structure Place where
  here : Level
  /-- The elements around it, the innermost first. -/
  above : List Level

namespace Place

def element (p : Place) : Element := p.here.element

/-- The place of the innermost element of a path. -/
def ofPath? : List Level → Option Place
  | [] => none
  | here :: above => some ⟨here, above⟩

/-- The place of every element of a path, the innermost first. -/
def allOfPath : List Level → List Place
  | [] => []
  | here :: above => ⟨here, above⟩ :: allOfPath above

def parent? (p : Place) : Option Place := ofPath? p.above

/-- The proper ancestors, the nearest first. -/
def ancestors (p : Place) : List Place := allOfPath p.above

/-- The sibling just before. -/
def previous? (p : Place) : Option Place :=
  match p.here.earlier with
  | [] => none
  | sibling :: earlier => some ⟨⟨earlier, sibling.element⟩, p.above⟩

/-- What conditions can see of the element: itself, how many siblings started
before it, and its language. -/
def context (config : Config) (p : Place) : Context where
  element := p.element
  position := p.here.earlier.length
  language := languageIn config (p.here :: p.above)

/-- The proper ancestors are the parent and its ancestors. -/
theorem mem_ancestors {p outer : Place} : outer ∈ p.ancestors ↔
    ∃ parent, p.parent? = some parent ∧ (outer = parent ∨ outer ∈ parent.ancestors) := by
  obtain ⟨here, above⟩ := p
  cases above with
  | nil => simp [ancestors, allOfPath, parent?, ofPath?]
  | cons level above => simp [ancestors, allOfPath, parent?, ofPath?]

end Place

/-! ### Reading -/

/-- What has been read of a document. -/
structure Reading where
  /-- The open elements, the innermost first. -/
  path : List Level := []
  /-- The children of the innermost open element that have ended, the latest
  first; outside all elements, the trees that are complete. -/
  closed : List Tree := []

namespace Reading

/-- Reads one more event. An end outside all elements changes nothing. -/
def advance (r : Reading) : StreamEvent → Reading
  | .starts element => { path := ⟨r.closed, element⟩ :: r.path }
  | .ends =>
    match r.path with
    | [] => r
    | level :: above =>
      { path := above, closed := .node level.element r.closed.reverse :: level.earlier }
  | .reset => {}

/-- What a stream of events spells out. -/
def of (events : List StreamEvent) : Reading :=
  events.foldl advance {}

/-- The place of the innermost open element. -/
def current? (r : Reading) : Option Place := Place.ofPath? r.path

/-- A question about the innermost open element, answered by its place. Outside all
elements there is no answer. -/
def answer {α : Type} (r : Reading) (query : Query) (f : Place → α) : Except Error α :=
  match r.current? with
  | some p => .ok (f p)
  | none => .error (.noOpenElement query)

end Reading

end StyleStream
