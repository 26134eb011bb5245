/-
  Selectors: trees that say which elements a rule is for.

  A combinator holds what is further away, an ancestor or a preceding sibling,
  on its left and what stands at the element itself on its right. A
  pseudo-element may stand at the right end of a chain; it names a part of the
  element that the rest of the chain selects and is never looked for in the
  document.
-/
import StyleStream.Condition
import StyleStream.PseudoElement

namespace StyleStream

/-- A demand on an element's name. A component that is absent demands nothing;
the empty namespace demands that the element has none. -/
structure ElementTest where
  /-- The namespace, or `none` for any. -/
  ns : Option String := none
  /-- The local name, or `none` for any. -/
  localName : Option String := none
deriving DecidableEq

/-- The namespace and a bar if a namespace is demanded, then the local name or a star. -/
def ElementTest.text (test : ElementTest) : String :=
  (match test.ns with
    | some ns => ns ++ "|"
    | none => "") ++ test.localName.getD "*"

/-- How the element on the left of a selector stands to the one on the right. -/
inductive Combinator where
  | child
  | descendant
  /-- It is the sibling just before. -/
  | adjacent
deriving DecidableEq

/-- The combinator as it is written between two selectors. -/
def Combinator.text : Combinator → String
  | .child => " > "
  | .descendant => " "
  | .adjacent => " + "

inductive Selector where
  | element (test : ElementTest)
  /-- A selector with one more condition on its element. -/
  | filtered (inner : Selector) (condition : Condition)
  | combined (combinator : Combinator) (left right : Selector)
  /-- A part of the element that stands to the left of it. -/
  | pseudo (pseudo : PseudoElement)
  /-- A selector that is not understood. It selects nothing. -/
  | unsupported (text : String)
deriving DecidableEq

namespace Selector

/-! ### Common selectors -/

def universal : Selector := element {}

/-- The selector of the elements with a local name, in any namespace. -/
def ofName (localName : String) : Selector := element { localName := some localName }

/-- The selector of the elements of a class. -/
def ofClass (word : String) : Selector := universal.filtered (.className word)

/-- The selector of the element with an identifier. -/
def ofId (value : String) : Selector := universal.filtered (.id value)

/-! ### Properties -/

/-- Whether the selector is a pseudo-element and nothing else. -/
def isPseudo : Selector → Bool
  | pseudo _ => true
  | _ => false

/-- The pseudo-element at the right end of a chain of combinators. -/
def pseudoElement? : Selector → Option PseudoElement
  | pseudo p => some p
  | combined _ _ right => right.pseudoElement?
  | _ => none

/-- Whether every part of the selector is understood. -/
def isSupported : Selector → Bool
  | element _ | pseudo _ => true
  | filtered inner condition => inner.isSupported && condition.isSupported
  | combined _ left right => left.isSupported && right.isSupported
  | unsupported _ => false

/-- What is written between the two sides of a combinator. A pseudo-element
follows its element directly, except that the sign of the adjacent sibling is
always written. -/
def joint (combinator : Combinator) (right : Selector) : String :=
  if combinator ≠ .adjacent ∧ right.isPseudo then "" else combinator.text

/-- The selector as it is written in a style sheet. -/
def text : Selector → String
  | element test => test.text
  | filtered inner condition => inner.text ++ condition.text
  | combined combinator left right => left.text ++ joint combinator right ++ right.text
  | pseudo p => "::" ++ p.name
  | unsupported text => text

/-- The weight of a selector: one type for each local name and each
pseudo-element, and the weights of all conditions. -/
def specificity : Selector → Specificity
  | element test => ⟨0, 0, if test.localName.isSome then 1 else 0⟩
  | filtered inner condition => inner.specificity + condition.specificity
  | combined _ left right => left.specificity + right.specificity
  | pseudo _ => ⟨0, 0, 1⟩
  | unsupported _ => .zero

end Selector

end StyleStream
