/-
  Settings that compiler, matcher and engine share.
-/

namespace StyleStream

/-- The settings of an engine. -/
structure Config where
  trace : Bool := false
  /-- The language of an element when neither it nor an ancestor declares one. -/
  defaultLanguage : String := "en"
  cacheCapacity : Nat := 64
deriving DecidableEq

end StyleStream
