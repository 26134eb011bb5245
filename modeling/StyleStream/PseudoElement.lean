/-
  Pseudo-elements: the parts of an element that receive declarations of their
  own.
-/
import StyleStream.Error
import StyleStream.Text

namespace StyleStream

/-- A part of an element with a declaration set of its own. -/
inductive PseudoElement where
  | before
  | after
  | firstLine
  | firstLetter
deriving DecidableEq

namespace PseudoElement

/-- Every pseudo-element. -/
def all : List PseudoElement :=
  [.before, .after, .firstLine, .firstLetter]

/-- The name without colons. -/
def name : PseudoElement → String
  | .before => "before"
  | .after => "after"
  | .firstLine => "first-line"
  | .firstLetter => "first-letter"

/-- Reads a name, with any number of colons in front and in any ASCII case. The
error repeats the text as it was given. -/
def parse (text : String) : Except Error PseudoElement :=
  let bare := Text.fold (text.toList.dropWhile (· == ':'))
  match all.find? fun pseudo => pseudo.name.toList == bare with
  | some pseudo => .ok pseudo
  | none => .error (.unknownPseudoElement text)

end PseudoElement

end StyleStream
