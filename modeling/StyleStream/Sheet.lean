/-
  Style sheets and where they come from.

  The three origins take precedence over one another. Each owns a band of
  positions, and the bands do not overlap, so that the position of a rule alone
  says which of two rules from different origins comes later.
-/
import StyleStream.Rule

namespace StyleStream

/-- Where a style sheet comes from. -/
inductive Origin where
  /-- The defaults of the program that shows the document. -/
  | userAgent
  /-- The preferences of the reader. -/
  | user
  /-- The document itself. -/
  | author
deriving DecidableEq

namespace Origin

/-- The precedence of an origin. -/
def rank : Origin → Nat
  | userAgent => 0
  | user => 1
  | author => 2

/-- The number of positions in the band of an origin: two to the power of forty. -/
def bandWidth : Int := 0x10000000000

/-- The first position of the band. The band of the reader starts at zero. -/
def bandStart (origin : Origin) : Int :=
  ((origin.rank : Int) - 1) * bandWidth

end Origin

/-- A list of rules from one source. -/
structure Sheet where
  origin : Origin := .author
  source : Option String := none
  rules : List Rule := []
deriving DecidableEq

namespace Sheet

/-- Adds a rule at the end. The rule's position becomes its index in the sheet. -/
def add (sheet : Sheet) (rule : Rule) : Sheet :=
  { sheet with rules := sheet.rules ++ [rule.moveTo sheet.rules.length] }

/-- Adds a declaration under a selector. -/
def addDeclaration (sheet : Sheet) (selector : Selector) (declaration : Declaration) : Sheet :=
  sheet.add (.of selector declaration)

/-- Adds several declarations under one selector, each as a rule of its own. -/
def addBlock (sheet : Sheet) (selector : Selector) (block : List Declaration) : Sheet :=
  block.foldl (fun sheet declaration => sheet.addDeclaration selector declaration) sheet

def clear (sheet : Sheet) : Sheet :=
  { sheet with rules := [] }

end Sheet

end StyleStream
