/-
  Log entries.

  Nothing here is written anywhere. A function that has something to report
  returns the entries, and its caller decides what becomes of them.
-/
import StyleStream.Automaton.Dot
import StyleStream.Config

namespace StyleStream

/-- How much an entry matters. -/
inductive LogLevel where
  /-- Single decisions of the compiler and the engine. -/
  | debug
  /-- Dumps of automata and live states, and cache hits. -/
  | trace
deriving DecidableEq

def LogLevel.name : LogLevel → String
  | debug => "DEBUG"
  | trace => "TRACE"

/-- Something worth reporting. -/
structure LogEntry where
  level : LogLevel
  message : String
  fields : List (String × String) := []
deriving DecidableEq

namespace LogEntry

/-- A rule was left out. -/
def skipped (selector : Selector) : LogEntry where
  level := .debug
  message := "Skipping unsupported selector: " ++ selector.text

/-- A compiled automaton was found in the cache. -/
def cacheHit : LogEntry where
  level := .trace
  message := "automaton cache hit"

/-- The sheets of an engine are about to be compiled. -/
def compilingSheets (sheets rules : Nat) : LogEntry where
  level := .debug
  message := "compiling style sheets"
  fields := [("sheets", toString sheets), ("rules", toString rules)]

end LogEntry

namespace Automaton

/-- The report on a nondeterministic automaton: the selectors left out, and a
dump of the automaton if dumps are wanted. -/
def logNfa (config : Config) (a : Automaton Nfa) : List LogEntry :=
  a.skipped.map .skipped ++
    if config.trace then [{ level := .trace, message := "selector NFA:\n" ++ a.nfaDot }] else []

/-- The report on the compilation of a list of rules, through the
nondeterministic automaton to the deterministic one. -/
def logCompile (config : Config) (rules : List Rule) : List LogEntry :=
  let nfa := compileNfa rules
  let dfa := nfa.determinize
  nfa.logNfa config ++
    [{ level := .debug
       message := "compiled style automaton"
       fields :=
         [("rules", toString nfa.ruleCount), ("skipped", toString nfa.skippedCount),
          ("nfa_states", toString nfa.machine.size), ("dfa_states", toString dfa.machine.size)] }] ++
    if config.trace then [{ level := .trace, message := "selector DFA:\n" ++ dfa.dfaDot }] else []

end Automaton

end StyleStream
