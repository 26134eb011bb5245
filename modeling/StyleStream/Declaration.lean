/-
  Declarations: a value for one property, with everything that decides its rank
  among the declarations for the same property.
-/
import StyleStream.PseudoElement
import StyleStream.Specificity

namespace StyleStream

/-- A value for one property. -/
structure Declaration where
  property : String
  value : String
  important : Bool := false
  /-- The weight of the selector that the declaration stands under. -/
  specificity : Specificity := .zero
  /-- The place among all declarations. -/
  position : Int := 0
  /-- The pseudo-element that the declaration is for, or `none` for the element itself. -/
  pseudoElement : Option PseudoElement := none
deriving DecidableEq

/-- The declaration as it is written in a style sheet. -/
def Declaration.text (d : Declaration) : String :=
  d.property ++ ": " ++ d.value ++ if d.important then " !important" else ""

end StyleStream
