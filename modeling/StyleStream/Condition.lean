/-
  Conditions: what a selector may demand of a single element beyond its name.

  A condition says nothing about other elements, so it can guard an edge of an
  automaton and be decided once for each element. Its text is what it looks
  like in a style sheet.
-/
import StyleStream.Specificity

namespace StyleStream

/-- The qualified name of an attribute. Without a namespace it names an
attribute in no namespace; it is never a wildcard. -/
structure AttributeName where
  ns : Option String := none
  localName : String
deriving DecidableEq

/-- The local name, after the namespace and a bar if there is a namespace. -/
def AttributeName.text (name : AttributeName) : String :=
  match name.ns with
  | some ns => ns ++ "|" ++ name.localName
  | none => name.localName

/-- A demand on one element, its place among its siblings and its language. -/
inductive Condition where
  | id (value : String)
  | className (word : String)
  /-- An attribute of this name, with this value if one is given. -/
  | hasAttribute (name : AttributeName) (value : Option String)
  | oneOf (name : AttributeName) (word : String)
  /-- An attribute that is this head, or continues it at a hyphen. -/
  | beginsHyphen (name : AttributeName) (head : String)
  /-- A language that is this tag, or continues it at a hyphen. -/
  | lang (tag : String)
  | negation (inner : Condition)
  | both (left right : Condition)
  | either (left right : Condition)
  /-- The place among the siblings, counted from zero. -/
  | positional (index : Nat)
  | pseudoClass (name : String)
  /-- A demand that is not understood. -/
  | unsupported (text : String)
deriving DecidableEq

namespace Condition

/-- Whether every part of the condition is understood. -/
def isSupported : Condition → Bool
  | unsupported _ => false
  | negation inner => inner.isSupported
  | both left right | either left right => left.isSupported && right.isSupported
  | _ => true

/-- The condition as it is written in a style sheet. A place is written counted from one. Here
that number has no bound; a place kept in a machine word is assumed to be smaller than the largest
word, because adding one to that would overflow. -/
def text : Condition → String
  | id value => "#" ++ value
  | className word => "." ++ word
  | hasAttribute name none => "[" ++ name.text ++ "]"
  | hasAttribute name (some value) => "[" ++ name.text ++ "=\"" ++ value ++ "\"]"
  | oneOf name word => "[" ++ name.text ++ "~=\"" ++ word ++ "\"]"
  | beginsHyphen name head => "[" ++ name.text ++ "|=\"" ++ head ++ "\"]"
  | lang tag => ":lang(" ++ tag ++ ")"
  | negation inner => ":not(" ++ inner.text ++ ")"
  | both left right => left.text ++ right.text
  | either left right => ":or(" ++ left.text ++ ", " ++ right.text ++ ")"
  | positional 0 => ":first-child"
  | positional (index + 1) => ":nth-child(" ++ toString (index + 2) ++ ")"
  | pseudoClass name => ":" ++ name
  | unsupported text => text

/-- The weight of a condition. A negation weighs what it negates, and an
alternative weighs as much as its heavier side. -/
def specificity : Condition → Specificity
  | id _ => ⟨1, 0, 0⟩
  | negation inner => inner.specificity
  | both left right => left.specificity + right.specificity
  | either left right => left.specificity.heavier right.specificity
  | unsupported _ => .zero
  | _ => ⟨0, 1, 0⟩

end Condition

end StyleStream
