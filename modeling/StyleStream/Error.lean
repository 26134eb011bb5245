/-
  What can go wrong while a document is read: an end without a start, a
  question about the current element while none is open, and a pseudo-element
  name that nobody knows.

  A selector that the compiler does not understand is not an error. Its rule is
  left out and never matches.
-/

namespace StyleStream

/-- A question that can be asked about the current element. -/
inductive Query where
  /-- The declarations for the element itself. -/
  | declarations
  /-- The declarations for one of its pseudo-elements. -/
  | pseudoDeclarations
  | language
  | position
  | liveStates
deriving DecidableEq

def Query.name : Query → String
  | .declarations => "declarations"
  | .pseudoDeclarations => "pseudo_declarations"
  | .language => "language"
  | .position => "position"
  | .liveStates => "live_states"

/-- Why a request was refused. -/
inductive Error where
  /-- An element ended while none was open. -/
  | unbalancedEnd
  /-- A question about the current element while none was open. -/
  | noOpenElement (query : Query)
  | unknownPseudoElement (name : String)
deriving DecidableEq

def Error.message : Error → String
  | .unbalancedEnd => "Unbalanced element end: no element is open"
  | .noOpenElement query => "No open element for '" ++ query.name ++ "'"
  | .unknownPseudoElement name => "Unknown pseudo-element '" ++ name ++ "'"

end StyleStream
