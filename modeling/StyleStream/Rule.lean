/-
  Rules: a selector and one declaration for the elements that it selects.
-/
import StyleStream.Declaration
import StyleStream.Selector

namespace StyleStream

/-- A selector and a declaration for what it selects. -/
structure Rule where
  selector : Selector
  declaration : Declaration
deriving DecidableEq

namespace Rule

/-- The rule that puts a declaration under a selector. The declaration takes the
weight of the selector and, unless it names a pseudo-element of its own, the
pseudo-element at the end of the selector. -/
def of (selector : Selector) (declaration : Declaration) : Rule where
  selector := selector
  declaration :=
    { declaration with
      specificity := selector.specificity
      pseudoElement := declaration.pseudoElement.or selector.pseudoElement? }

/-- The rule for the elements with a local name. -/
def ofName (localName : String) : Declaration → Rule := of (.ofName localName)

/-- The rule for the elements of a class. -/
def ofClass (word : String) : Declaration → Rule := of (.ofClass word)

/-- The rule for the element with an identifier. -/
def ofId (value : String) : Declaration → Rule := of (.ofId value)

/-- The same rule at another place. -/
def moveTo (rule : Rule) (position : Int) : Rule :=
  { rule with declaration := { rule.declaration with position } }

/-- Whether the rule is for a pseudo-element. -/
def isPseudo (rule : Rule) : Bool :=
  rule.declaration.pseudoElement.isSome

end Rule

end StyleStream
