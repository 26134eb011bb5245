/-
  The style engine: a register of style sheets from all origins, compiled into
  one automaton on demand.

  Sheets are kept by origin, and in the order of their registration within an
  origin. For compilation the rules of all sheets form one list, and each rule
  moves to the next free position of its origin's band. Compiled automata are
  cached; each compilation has a serial number, which tells a reused automaton
  from one that was compiled again.
-/
import StyleStream.Cache
import StyleStream.Matcher

namespace StyleStream

/-- A compiled automaton and the number of its compilation. -/
structure Compiled where
  /-- How many compilations came before. -/
  serial : Nat
  automaton : Automaton Dfa
deriving DecidableEq

structure Engine where
  config : Config
  /-- The registered sheets, by origin and then by registration. -/
  sheets : List Sheet
  cache : Cache Compiled
  compilations : Nat
deriving DecidableEq

namespace Engine

def new (config : Config) : Engine where
  config := config
  sheets := []
  cache := { capacity := config.cacheCapacity }
  compilations := 0

/-! ### Sheets -/

/-- Registers a sheet behind all sheets of its origin. -/
def addSheet (e : Engine) (sheet : Sheet) : Engine :=
  { e with sheets := (e.sheets ++ [sheet]).mergeSort fun a b => a.origin.rank ≤ b.origin.rank }

/-- Drops the sheets from a source, and the automata to which the source contributed. -/
def removeSource (e : Engine) (source : String) : Engine :=
  { e with
    sheets := e.sheets.filter fun sheet => sheet.source ≠ some source
    cache := e.cache.invalidate source }

def clearSheets (e : Engine) : Engine :=
  { e with sheets := [] }

def invalidateAll (e : Engine) : Engine :=
  { e with cache := e.cache.clear }

def sheetCountOf (e : Engine) (origin : Origin) : Nat :=
  e.sheets.countP fun sheet => sheet.origin = origin

def ruleCount (e : Engine) : Nat :=
  (e.sheets.flatMap (·.rules)).length

/-! ### Rules -/

/-- Moves rules to consecutive positions of a band, starting `offset` positions
behind its first. -/
def rebase (origin : Origin) (offset : Nat) (rules : List Rule) : List Rule :=
  (rules.zipIdx offset).map fun (rule, index) => rule.moveTo (origin.bandStart + index)

/-- The rules of a list of sheets, each at the next free position of its
origin's band, given how many positions of each band are taken. -/
def mergeRules (taken : Origin → Nat) : List Sheet → List Rule
  | [] => []
  | sheet :: rest =>
    rebase sheet.origin (taken sheet.origin) sheet.rules ++
      mergeRules (fun origin =>
        if origin = sheet.origin then taken origin + sheet.rules.length else taken origin) rest

/-- The rules of all sheets, in the order of the sheets. -/
def rules (e : Engine) : List Rule :=
  mergeRules (fun _ => 0) e.sheets

/-! ### Compilation -/

/-- The automaton of the registered sheets, from the cache if it is there.
`keep` chooses what stays in a full cache. -/
def compileKeeping (keep : List (CacheKey × Compiled) → List (CacheKey × Compiled)) (e : Engine) :
    Compiled × Engine :=
  let key := CacheKey.of e.sheets
  let (compiled, cache) := e.cache.fetchKeeping keep key fun _ => ⟨e.compilations, .compile e.rules⟩
  let fresh := (e.cache.get? key).isNone
  (compiled, { e with cache, compilations := e.compilations + if fresh then 1 else 0 })

/-- The automaton of the registered sheets, from the cache if it is there. -/
def compile (e : Engine) : Compiled × Engine :=
  e.compileKeeping Cache.newerHalf

/-- A matcher for one document under the registered sheets, with the compilation
that it runs on. `keep` chooses what stays in a full cache. -/
def matcherKeeping (keep : List (CacheKey × Compiled) → List (CacheKey × Compiled)) (e : Engine) :
    Compiled × Matcher Dfa × Engine :=
  let (compiled, e) := e.compileKeeping keep
  (compiled, .new compiled.automaton e.config, e)

/-- A matcher for one document under the registered sheets, with the compilation
that it runs on. -/
def matcher (e : Engine) : Compiled × Matcher Dfa × Engine :=
  e.matcherKeeping Cache.newerHalf

def logCompile (e : Engine) : List LogEntry :=
  e.cache.logFetch (.of e.sheets) fun _ =>
    .compilingSheets e.sheets.length e.ruleCount :: Automaton.logCompile e.config e.rules

end Engine

end StyleStream
