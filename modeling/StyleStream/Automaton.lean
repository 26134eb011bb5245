/-
  Compiled rules: a selector automaton with the tables that its numbers refer to.
-/
import StyleStream.Machine
import StyleStream.Nfa.Builder
import StyleStream.Rule

namespace StyleStream

/-- A compiled list of rules. -/
structure Automaton (M : Type) where
  /-- The name labels and conditions on the edges. -/
  labels : Labels
  /-- The declarations of the rules that were compiled, by number. -/
  declarations : List Declaration
  machine : M
  /-- The selectors of the rules that were left out, in order. -/
  skipped : List Selector
deriving DecidableEq

/-! ### Compilation -/

/-- What is known after some of the rules have been compiled. -/
structure Compilation where
  builder : Nfa.Builder := {}
  declarations : List Declaration := []
  skipped : List Selector := []
deriving DecidableEq

/-- Compiles one more rule. A rule that is left out takes no number. -/
def Compilation.add (c : Compilation) (rule : Rule) : Compilation :=
  match c.builder.addRule rule.selector c.declarations.length rule.isPseudo with
  | some builder => { c with builder, declarations := c.declarations ++ [rule.declaration] }
  | none => { c with skipped := c.skipped ++ [rule.selector] }

namespace Automaton

/-- The rules as a nondeterministic automaton. -/
def compileNfa (rules : List Rule) : Automaton Nfa :=
  let c := rules.foldl Compilation.add {}
  { labels := c.builder.labels
    declarations := c.declarations
    machine := c.builder.build
    skipped := c.skipped }

/-- The same rules on the deterministic automaton. -/
def determinize (a : Automaton Nfa) : Automaton Dfa :=
  { labels := a.labels
    declarations := a.declarations
    machine := .ofNfa a.machine
    skipped := a.skipped }

/-- The rules as a deterministic automaton. -/
def compile (rules : List Rule) : Automaton Dfa :=
  (compileNfa rules).determinize

variable {M : Type}

/-- The number of rules that were compiled. -/
def ruleCount (a : Automaton M) : Nat := a.declarations.length

/-- The number of rules that were left out. -/
def skippedCount (a : Automaton M) : Nat := a.skipped.length

end Automaton

end StyleStream
