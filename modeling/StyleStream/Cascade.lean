/-
  The cascade: which of several declarations for a property wins.

  Declarations are listed so that a later one overrides an earlier one for the
  same property. They are ordered by property, then importance, then the weight
  of the selector, then position; declarations that agree in all four keep the
  order in which they came.
-/
import StyleStream.Automaton

namespace StyleStream

/-! ### Order -/

/-- The cascade order: by property in code point order, normal before important,
lighter before heavier, earlier before later. -/
def Declaration.cascade (a b : Declaration) : Ordering :=
  (compare a.property b.property).then <|
    (compare a.important b.important).then <|
      (compare a.specificity b.specificity).then (compare a.position b.position)

/-- The declarations in cascade order. -/
def cascadeSort (declarations : List Declaration) : List Declaration :=
  declarations.mergeSort fun a b => (a.cascade b).isLE

/-! ### Winners -/

/-- Sets the declaration of a property. A property that is listed already keeps
its place. -/
def setWinner (d : Declaration) : List (String × Declaration) → List (String × Declaration)
  | [] => [(d.property, d)]
  | (property, old) :: rest =>
    if property = d.property then (property, d) :: rest
    else (property, old) :: setWinner d rest

/-- The last declaration of each property, in the order in which the properties
first occur. -/
def winners (declarations : List Declaration) : List (String × Declaration) :=
  declarations.foldl (fun table d => setWinner d table) []

/-! ### Declarations of live states -/

/-- The declarations that a set of live states accepts, in cascade order: those
for the element itself, or those for one of its pseudo-elements. A declaration
that several states accept is listed once. -/
def Automaton.collect {M : Type} [Machine M] (a : Automaton M) (live : List StateId)
    (pseudo : Option PseudoElement) : List Declaration :=
  let accepted := live.flatMap <|
    match pseudo with
    | none => Machine.declarations a.machine
    | some _ => Machine.pseudoDeclarations a.machine
  let declarations := (ascending accepted).filterMap (a.declarations[·]?)
  cascadeSort (declarations.filter (·.pseudoElement = pseudo))

end StyleStream
