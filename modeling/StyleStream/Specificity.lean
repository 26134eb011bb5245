/-
  Specificity: the weight of a selector in the cascade, as three counts that
  are compared from the left.
-/

namespace StyleStream

/-- The weight of a selector. The first count that differs decides: one
identifier outweighs any number of attributes, one attribute any number of
types. -/
structure Specificity where
  ids : Nat := 0
  /-- All other conditions: classes, attributes, languages, positions, pseudo-classes. -/
  attributes : Nat := 0
  /-- Element names and pseudo-elements. -/
  types : Nat := 0
deriving DecidableEq

namespace Specificity

/-- The weight of a selector that demands nothing. -/
def zero : Specificity := {}

/-- Weights add count by count. -/
instance : Add Specificity where
  add a b := ⟨a.ids + b.ids, a.attributes + b.attributes, a.types + b.types⟩

/-- Weights are ordered lexicographically. -/
instance : Ord Specificity where
  compare a b :=
    (compare a.ids b.ids).then
      ((compare a.attributes b.attributes).then (compare a.types b.types))

/-- The heavier of two weights. -/
def heavier (a b : Specificity) : Specificity :=
  if compare a b = .gt then a else b

/-- The weights from the lightest to the heaviest. -/
def sort (weights : List Specificity) : List Specificity :=
  weights.mergeSort fun a b => (compare a b).isLE

/-- The three counts in brackets. -/
def text (s : Specificity) : String :=
  s!"({s.ids},{s.attributes},{s.types})"

end Specificity

end StyleStream
