/-
  Readings of a text at the level of its characters: the words of an attribute
  value, and values that continue a given head at a hyphen.

  Both readings are ASCII readings of arbitrary Unicode text. Only five ASCII
  blanks separate words, and only ASCII letters have a case to ignore; every
  other character stands for itself. Texts are read as lists of characters, so
  that each reading is a recursion on the list.
-/

namespace StyleStream.Text

/-! ### Words -/

/-- The separators of words: space, tab, line feed, form feed and carriage
return. No other Unicode space separates words. -/
def isBlank (c : Char) : Bool :=
  c = ' ' || c = '\t' || c = '\n' || c = '\x0c' || c = '\r'

/-- The words of a text: its maximal runs of characters that are not blank. -/
def words (text : List Char) : List (List Char) :=
  (text.splitOnP isBlank).filter fun word => !word.isEmpty

/-- Whether `word` is one of the words of `text`. The empty word never is, and
neither is a word that holds a blank. -/
def hasWord (text word : String) : Bool :=
  (words text.toList).contains word.toList

/-! ### Case -/

/-- The characters of a text with ASCII capitals replaced by small letters. -/
def fold (text : List Char) : List Char :=
  text.map Char.toLower

/-- Equality of texts up to the case of ASCII letters. -/
def sameFolded (s t : String) : Bool :=
  fold s.toList == fold t.toList

/-! ### Heads that end at a hyphen -/

/-- Whether a head may end before `rest`: nothing is left, or a hyphen follows. -/
def breaksBefore (rest : List Char) : Bool :=
  rest.isEmpty || rest.head? == some '-'

/-- Whether `value` is `head`, or `head` followed by a hyphen and anything. -/
def continues (value head : String) : Bool :=
  match head.toList.isPrefixOf? value.toList with
  | some rest => breaksBefore rest
  | none => false

/-- The number of bytes that a text takes in UTF-8. -/
def byteLength (text : List Char) : Nat :=
  text.foldr (fun c length => c.utf8Size + length) 0

/-- The split of a text after its first `n` bytes in UTF-8, or `none` if that
place lies inside a character or past the end. -/
def splitAtByte? : Nat → List Char → Option (List Char × List Char)
  | 0, rest => some ([], rest)
  | _ + 1, [] => none
  | n + 1, c :: rest =>
    if c.utf8Size ≤ n + 1 then
      (splitAtByte? (n + 1 - c.utf8Size) rest).map fun (head, tail) => (c :: head, tail)
    else none

/-- Whether `value` starts with a text that equals `head` up to ASCII case and
is followed by nothing or by a hyphen. The value is cut at the byte length of
`head`: a text that equals `head` up to ASCII case has exactly that length. -/
def continuesFolded (value head : String) : Bool :=
  match splitAtByte? (byteLength head.toList) value.toList with
  | some (start, rest) => fold start == fold head.toList && breaksBefore rest
  | none => false

end StyleStream.Text
