/-
  No lookup fails.

  Everything that a matcher does gets a counterpart that can fail: to read an element, to decide
  its conditions, to follow a stream of events and to answer a question; and so does writing an
  automaton down as a graph. One event leaves only numbers of states in the frames of a matcher
  and fails at no lookup (`Matcher.InRange.respond`, `Matcher.InRange.respond?_eq`), so the
  same holds of every run (`Matcher.InRange.run?_eq`).
-/
import StyleStream.Automaton.Dot
import StyleStream.Proofs.Settling

namespace StyleStream

open Machine (Lookups)

/-! ### Automata and their tables -/

variable {M : Type}

/-- No table of the automaton has more entries than a word of 32 bits can tell apart. -/
structure Automaton.Fits [Machine M] (a : Automaton M) : Prop where
  states : Machine.size a.machine < 2 ^ 32
  names : a.labels.names.length < 2 ^ 32
  conditions : a.labels.conditions.length < 2 ^ 32
  declarations : a.declarations.length < 2 ^ 32

namespace Automaton

/-- The machine of the automaton is sound for its tables. -/
def Sound [Machine M] [Lookups M] (a : Automaton M) : Prop :=
  Machine.Sound a.machine a.labels.conditions.length a.declarations.length

/-- `accepted` with lookups that can fail. -/
def accepted? [Lookups M] (a : Automaton M) (live : List StateId)
    (pseudo : Option PseudoElement) : Option (List DeclarationId) := do
  let lists ← live.mapM <|
    match pseudo with
    | none => Lookups.declarations? a.machine
    | some _ => Lookups.pseudoDeclarations? a.machine
  return ascending lists.flatten

/-- `collect` with lookups that can fail. -/
def collect? [Lookups M] (a : Automaton M) (live : List StateId)
    (pseudo : Option PseudoElement) : Option (List Declaration) := do
  let numbers ← a.accepted? live pseudo
  let declarations ← numbers.mapM (fetch? a.declarations)
  return cascadeSort (declarations.filter (·.pseudoElement = pseudo))

/-- `dotComments` with lookups that can fail. -/
def dotComments? [Lookups M] (a : Automaton M) (id : StateId) : Option (List String) := do
  let own ← Lookups.declarations? a.machine id
  let pseudo ← Lookups.pseudoDeclarations? a.machine id
  let declarations ← (own ++ pseudo).mapM (fetch? a.declarations)
  return declarations.map (Dot.comment id)

def eventText? (a : Automaton M) : Event → Option String
  | .consume label => a.labels.text? label
  | .guard condition => a.labels.conditionText? condition
  | .epsilon => some "ε"

/-- The lines of a state in the graph of a nondeterministic automaton. -/
def nfaLines? (a : Automaton Nfa) (id : StateId) : Option (List String) := do
  let comments ← a.dotComments? id
  let state ← a.machine.state? id
  let edges ← state.edges.mapM fun edge =>
    (a.eventText? edge.event).map fun text => Dot.edge id text edge.target ""
  return comments ++ edges

/-- `nfaDot` with lookups that can fail. -/
def nfaDot? (a : Automaton Nfa) : Option String := do
  let lines ← (List.range a.machine.size).mapM a.nfaLines?
  return Dot.graph "nfa" <|
    [Dot.shaped Nfa.start "shape=box", Dot.shaped Nfa.accept "peripheries=2"] ++ lines.flatten

/-- The lines of a state in the graph of a deterministic automaton. -/
def dfaLines? (a : Automaton Dfa) (id : StateId) : Option (List String) := do
  let comments ← a.dotComments? id
  let state ← a.machine.state? id
  let transitions ← state.transitions.mapM fun edge =>
    (a.labels.text? edge.1).map fun text => Dot.edge id text edge.2 ""
  let conditions ← state.conditions.mapM fun edge =>
    (a.labels.conditionText? edge.1).map fun text => Dot.edge id text edge.2 ", style=dashed"
  return comments ++ transitions ++ conditions

/-- `dfaDot` with lookups that can fail. -/
def dfaDot? (a : Automaton Dfa) : Option String := do
  let lines ← (List.range a.machine.size).mapM a.dfaLines?
  return Dot.graph "dfa" <| [Dot.shaped Dfa.start "shape=box"] ++ lines.flatten

section Agreement

variable [Machine M] [Lookups M] {a : Automaton M}

/-- Nothing is lost when the numbers are read from words. -/
theorem Fits.faithful_words (hfits : a.Fits) (hsound : a.Sound) :
    (Reader.words : Reader M).Faithful a where
  index_eq _ hlt := stored_of_lt (Nat.lt_trans hlt hfits.conditions)
  guards?_eq := hsound.guards?_eq

theorem accepted?_eq (hsound : a.Sound) {live : List StateId}
    (hlive : ∀ q ∈ live, q < Machine.size a.machine) (pseudo : Option PseudoElement) :
    a.accepted? live pseudo = some (a.accepted live pseudo) := by
  unfold accepted?
  cases pseudo with
  | none =>
    rw [mapM_eq_some_map fun q hq => hsound.declarations?_eq q (hlive q hq)]
    rfl
  | some pseudo =>
    rw [mapM_eq_some_map fun q hq => hsound.pseudoDeclarations?_eq q (hlive q hq)]
    rfl

theorem accepted_lt (hsound : a.Sound) {live : List StateId}
    (hlive : ∀ q ∈ live, q < Machine.size a.machine) (pseudo : Option PseudoElement) :
    ∀ i ∈ a.accepted live pseudo, i < a.declarations.length := by
  intro i hi
  obtain ⟨q, hq, hi⟩ := List.mem_flatMap.1 (mem_ascending.1 hi)
  cases pseudo with
  | none => exact hsound.declaration_lt q (hlive q hq) i hi
  | some pseudo => exact hsound.pseudoDeclaration_lt q (hlive q hq) i hi

/-- **No lookup of a declaration fails.** -/
theorem collect?_eq (hfits : a.Fits) (hsound : a.Sound) {live : List StateId}
    (hlive : ∀ q ∈ live, q < Machine.size a.machine) (pseudo : Option PseudoElement) :
    a.collect? live pseudo = some (a.collect live pseudo) := by
  have hdeclarations := mapM_fetch?_eq (Nat.le_of_lt hfits.declarations)
    (accepted_lt hsound hlive pseudo)
  simp only [collect?, accepted?_eq hsound hlive, Option.bind_eq_bind, Option.bind_some,
    hdeclarations, collect_eq_accepted]
  rfl

theorem dotComments?_eq (hfits : a.Fits) (hsound : a.Sound) {id : StateId}
    (hid : id < Machine.size a.machine) : a.dotComments? id = some (a.dotComments id) := by
  have hdeclarations : (Machine.declarations a.machine id ++
      Machine.pseudoDeclarations a.machine id).mapM (fetch? a.declarations) =
        some ((Machine.declarations a.machine id ++
          Machine.pseudoDeclarations a.machine id).filterMap (a.declarations[·]?)) := by
    refine mapM_fetch?_eq (Nat.le_of_lt hfits.declarations) fun i hi => ?_
    rcases List.mem_append.1 hi with hi | hi
    · exact hsound.declaration_lt id hid i hi
    · exact hsound.pseudoDeclaration_lt id hid i hi
  unfold dotComments? dotComments
  rw [← List.map_filterMap]
  simp only [hsound.declarations?_eq id hid, hsound.pseudoDeclarations?_eq id hid,
    Option.bind_eq_bind, Option.bind_some, hdeclarations]
  rfl

end Agreement

theorem eventText?_eq {a : Automaton Nfa} (hfits : a.Fits) {event : Event}
    (h : event.InRange a.labels) : a.eventText? event = some (a.eventText event) := by
  cases event with
  | consume label => exact Labels.text?_eq (Nat.le_of_lt hfits.names) h
  | guard condition => exact Labels.conditionText?_eq (Nat.le_of_lt hfits.conditions) h
  | epsilon => rfl

theorem nfaLines?_eq {a : Automaton Nfa} (hfits : a.Fits)
    (h : a.machine.InRange a.labels a.declarations.length) {id : StateId}
    (hid : id < a.machine.size) : a.nfaLines? id = some (a.dotComments id ++
      (a.machine.state id).edges.map fun edge =>
        Dot.edge id (a.eventText edge.event) edge.target "") := by
  have hsize : a.machine.size ≤ 2 ^ 32 := Nat.le_of_lt hfits.states
  have hedges : (a.machine.state id).edges.mapM (fun edge =>
      (a.eventText? edge.event).map fun text => Dot.edge id text edge.target "") =
        some ((a.machine.state id).edges.map fun edge =>
          Dot.edge id (a.eventText edge.event) edge.target "") :=
    mapM_map_eq_some_map _ fun edge hedge => eventText?_eq hfits (h.event id edge hedge)
  simp only [nfaLines?, dotComments?_eq hfits (h.sound hsize) hid, Nfa.state?_eq hsize hid,
    Option.bind_eq_bind, Option.bind_some, hedges]
  rfl

/-- **No lookup fails** while a nondeterministic automaton is written down. -/
theorem nfaDot?_eq {a : Automaton Nfa} (hfits : a.Fits)
    (h : a.machine.InRange a.labels a.declarations.length) : a.nfaDot? = some a.nfaDot := by
  rw [nfaDot?, mapM_eq_some_map fun id hid => nfaLines?_eq hfits h (List.mem_range.1 hid)]
  rfl

theorem dfaLines?_eq {a : Automaton Dfa} {nfa : Nfa} (hfits : a.Fits)
    (h : a.machine.InRange nfa a.labels a.declarations.length) {id : StateId}
    (hid : id < a.machine.size) : a.dfaLines? id = some (a.dotComments id ++
      ((a.machine.state id).transitions.map fun edge =>
        Dot.edge id (a.labels.text edge.1) edge.2 "") ++
      (a.machine.state id).conditions.map fun edge =>
        Dot.edge id (a.labels.conditionText edge.1) edge.2 ", style=dashed") := by
  have hsize : a.machine.size ≤ 2 ^ 32 := Nat.le_of_lt hfits.states
  have htransitions : (a.machine.state id).transitions.mapM (fun edge =>
      (a.labels.text? edge.1).map fun text => Dot.edge id text edge.2 "") =
        some ((a.machine.state id).transitions.map fun edge =>
          Dot.edge id (a.labels.text edge.1) edge.2 "") :=
    mapM_map_eq_some_map _ fun edge hedge =>
      Labels.text?_eq (Nat.le_of_lt hfits.names) (h.transition id edge hedge).1
  have hconditions : (a.machine.state id).conditions.mapM (fun edge =>
      (a.labels.conditionText? edge.1).map fun text => Dot.edge id text edge.2 ", style=dashed") =
        some ((a.machine.state id).conditions.map fun edge =>
          Dot.edge id (a.labels.conditionText edge.1) edge.2 ", style=dashed") :=
    mapM_map_eq_some_map _ fun edge hedge =>
      Labels.conditionText?_eq (Nat.le_of_lt hfits.conditions) (h.condition id edge hedge).1
  simp only [dfaLines?, dotComments?_eq hfits (h.sound hsize) hid, Dfa.state?_eq hsize hid,
    Option.bind_eq_bind, Option.bind_some, htransitions, hconditions]
  rfl

/-- **No lookup fails** while a deterministic automaton is written down. -/
theorem dfaDot?_eq {a : Automaton Dfa} {nfa : Nfa} (hfits : a.Fits)
    (h : a.machine.InRange nfa a.labels a.declarations.length) : a.dfaDot? = some a.dfaDot := by
  rw [dfaDot?, mapM_eq_some_map fun id hid => dfaLines?_eq hfits h (List.mem_range.1 hid)]
  rfl

end Automaton

/-! ### Matchers -/

/-- The numbers that the frame holds are numbers of states. -/
structure Frame.InRange (size : Nat) (frame : Frame) : Prop where
  live_lt : ∀ q ∈ frame.live, q < size
  lastChild_lt : ∀ states, frame.lastChild = some states → ∀ q ∈ states, q < size

namespace Matcher

/-! ### Reading an element -/

section Read

variable [Lookups M]

/-- `seeds` with lookups that can fail. -/
def seeds? (machine : M) (around : Frame) : Option (List StateId) := do
  let initial ← Lookups.initial? machine
  let beside ←
    match around.lastChild with
    | some previous => Lookups.step? machine previous .sibling
    | none => some []
  return ascending (around.live ++ initial ++ beside)

/-- `read` with lookups that can fail. -/
def read? (automaton : Automaton M) (element : Element) (seeds : List StateId) :
    Option (List StateId) := do
  let targets ← (automaton.labels.elementSymbols element.ns element.localName).mapM fun symbol =>
    Lookups.step? automaton.machine seeds (.name symbol)
  return ascending targets.flatten

/-- `settle` with lookups that can fail: of the states that wait, of the conditions and of the
answers to them. No state is taken twice, so there are as many rounds as there are states. -/
def settle? [Machine M] (automaton : Automaton M) (context : Context) (live : List StateId) :
    Option (List StateId) :=
  if automaton.labels.conditions = [] then some live
  else do
    let settled ← Settling.finish? .words automaton context (Machine.size automaton.machine)
      (.begin automaton live)
    return settled.mergeSort

/-- `frameOf` with lookups that can fail. -/
def frameOf? [Machine M] (automaton : Automaton M) (around : Frame) (element : Element) :
    Option Frame := do
  let context := context around element
  let seeds ← seeds? automaton.machine around
  let read ← read? automaton element seeds
  let live ← settle? automaton context read
  return { language := context.language, position := context.position, live }

end Read

section Agreement

variable [Machine M] [Lookups M] {a : Automaton M} {around : Frame} {element : Element}

theorem seeds?_eq (hsound : a.Sound) (haround : around.InRange (Machine.size a.machine)) :
    seeds? a.machine around = some (seeds a.machine around) := by
  unfold seeds? seeds
  rw [hsound.initial?_eq]
  cases hprevious : around.lastChild with
  | none => rfl
  | some previous =>
    simp only [hsound.step?_eq previous .sibling (haround.lastChild_lt previous hprevious)]
    rfl

theorem seeds_lt (hsound : a.Sound) (haround : around.InRange (Machine.size a.machine)) :
    ∀ q ∈ seeds a.machine around, q < Machine.size a.machine := by
  intro q hq
  rcases List.mem_append.1 (mem_ascending.1 hq) with hq | hq
  · rcases List.mem_append.1 hq with hq | hq
    · exact haround.live_lt q hq
    · exact hsound.initial_lt q hq
  · split at hq
    · exact hsound.step_lt _ _ q hq
    · exact absurd hq List.not_mem_nil

theorem read?_eq (hsound : a.Sound) {sources : List StateId}
    (hsources : ∀ q ∈ sources, q < Machine.size a.machine) :
    read? a element sources = some (read a element sources) := by
  unfold read?
  rw [mapM_eq_some_map fun symbol _ => hsound.step?_eq sources (.name symbol) hsources]
  rfl

omit [Lookups M] in
theorem pairwise_read {sources : List StateId} :
    (read a element sources).Pairwise (· < ·) :=
  pairwise_ascending _

theorem read_lt (hsound : a.Sound) {sources : List StateId} :
    ∀ q ∈ read a element sources, q < Machine.size a.machine := by
  intro q hq
  obtain ⟨symbol, -, hq⟩ := List.mem_flatMap.1 (mem_ascending.1 hq)
  exact hsound.step_lt _ _ q hq

/-- **No lookup of the condition closure fails**: neither that of a state, nor that of a condition,
nor that of an answer. -/
theorem settle?_eq (hfits : a.Fits) (hsound : a.Sound) {context : Context} {live : List StateId}
    (hascending : live.Pairwise (· < ·)) (hlive : ∀ q ∈ live, q < Machine.size a.machine) :
    settle? a context live = some (settle a context live) := by
  have hguarded : a.Guarded := hsound.guard_lt
  unfold settle?
  split
  · next hconditions =>
    rw [settle_of_conditions_eq_nil hguarded hascending hlive hconditions]
  · obtain ⟨settled, hfinish, hsorted⟩ :=
      Settling.exists_finish?_eq (hfits.faithful_words hsound) hguarded hascending hlive
    rw [hfinish, ← hsorted]
    rfl

/-- **No lookup fails** when an element starts. -/
theorem frameOf?_eq (hfits : a.Fits) (hsound : a.Sound)
    (haround : around.InRange (Machine.size a.machine)) :
    frameOf? a around element = some (frameOf a around element) := by
  simp only [frameOf?, seeds?_eq hsound haround, read?_eq hsound (seeds_lt hsound haround),
    settle?_eq hfits hsound pairwise_read (read_lt hsound), Option.bind_eq_bind,
    Option.bind_some]
  rfl

end Agreement

/-! ### Frames -/

section Frames

variable [Machine M]

theorem inRange_frameOf {a : Automaton M} {around : Frame} {element : Element} :
    (frameOf a around element).InRange (Machine.size a.machine) where
  live_lt _ hq := (mem_reach.1 hq).lt
  lastChild_lt _ h := by cases h

/-- The matcher runs on an automaton, and its frames hold numbers of states of it. -/
structure InRange (a : Automaton M) (m : Matcher M) : Prop where
  automaton_eq : m.automaton = a
  document : m.document.InRange (Machine.size a.machine)
  stack : ∀ frame ∈ m.stack, frame.InRange (Machine.size a.machine)

variable {a : Automaton M} {m : Matcher M} {config : Config}

theorem inRange_freshDocument {size : Nat} : (freshDocument config).InRange size where
  live_lt _ hq := absurd hq List.not_mem_nil
  lastChild_lt _ h := by cases h

theorem inRange_new : (new a config).InRange a where
  automaton_eq := rfl
  document := inRange_freshDocument
  stack _ h := absurd h List.not_mem_nil

theorem InRange.enclosing (h : m.InRange a) : m.enclosing.InRange (Machine.size a.machine) := by
  obtain ⟨automaton, config, document, stack⟩ := m
  cases stack with
  | nil => exact h.document
  | cons frame rest => exact h.stack frame List.mem_cons_self

theorem InRange.modifyEnclosing (h : m.InRange a) {f : Frame → Frame}
    (hf : ∀ frame : Frame, frame.InRange (Machine.size a.machine) →
      (f frame).InRange (Machine.size a.machine)) : (m.modifyEnclosing f).InRange a := by
  obtain ⟨automaton, config, document, stack⟩ := m
  cases stack with
  | nil => exact ⟨h.automaton_eq, hf document h.document, h.stack⟩
  | cons frame rest =>
    obtain ⟨hframe, hrest⟩ := List.forall_mem_cons.1 h.stack
    exact ⟨h.automaton_eq, h.document, List.forall_mem_cons.2 ⟨hf frame hframe, hrest⟩⟩

theorem InRange.start (h : m.InRange a) (element : Element) : (m.start element).InRange a := by
  have haround := h.modifyEnclosing
    (f := fun around => { around with children := around.children + 1 })
    fun _ hframe => ⟨hframe.live_lt, hframe.lastChild_lt⟩
  have hframe : (frameOf m.automaton m.enclosing element).InRange (Machine.size a.machine) :=
    h.automaton_eq ▸ inRange_frameOf
  exact ⟨haround.automaton_eq, haround.document, List.forall_mem_cons.2 ⟨hframe, haround.stack⟩⟩

theorem InRange.finish (h : m.InRange a) {m' : Matcher M} (hfinish : m.finish = .ok m') :
    m'.InRange a := by
  obtain ⟨automaton, config, document, stack⟩ := m
  cases stack with
  | nil => cases hfinish
  | cons frame rest =>
    obtain ⟨hframe, hrest⟩ := List.forall_mem_cons.1 h.stack
    obtain rfl := Except.ok.inj hfinish
    have hleft : InRange a ⟨automaton, config, document, rest⟩ :=
      ⟨h.automaton_eq, h.document, hrest⟩
    -- The live states of the element that ends become those of the last child.
    refine hleft.modifyEnclosing fun around haround => ⟨haround.live_lt, fun states hstates => ?_⟩
    obtain rfl : frame.live = states := Option.some.inj hstates
    exact hframe.live_lt

/-- **One event** leaves only numbers of states in the frames. -/
theorem InRange.respond (h : m.InRange a) {event : StreamEvent} {m' : Matcher M}
    (hrespond : m.respond event = .ok m') : m'.InRange a := by
  cases event with
  | starts element =>
    obtain rfl := Except.ok.inj hrespond
    exact h.start element
  | ends => exact h.finish hrespond
  | reset =>
    obtain rfl := Except.ok.inj hrespond
    exact ⟨h.automaton_eq, inRange_freshDocument, fun _ h => absurd h List.not_mem_nil⟩

end Frames

/-! ### Following events -/

section Events

variable [Machine M] [Lookups M]

/-- `start` with lookups that can fail. -/
def start? (m : Matcher M) (element : Element) : Option (Matcher M) := do
  let frame ← frameOf? m.automaton m.enclosing element
  let m := m.modifyEnclosing fun around => { around with children := around.children + 1 }
  return { m with stack := frame :: m.stack }

/-- `respond` with lookups that can fail. -/
def respond? (m : Matcher M) : StreamEvent → Option (Except Error (Matcher M))
  | .starts element => (m.start? element).map .ok
  | .ends => some m.finish
  | .reset => some (.ok m.reset)

/-- `run` with lookups that can fail. -/
def run? (m : Matcher M) : List StreamEvent → Option (Matcher M)
  | [] => some m
  | event :: events => do
    match ← m.respond? event with
    | .ok next => next.run? events
    | .error _ => m.run? events

/-- `declarationsFor` with lookups that can fail. -/
def declarationsFor? (m : Matcher M) (pseudo : Option PseudoElement) :
    Option (Except Error (List Declaration)) :=
  match m.current (queryFor pseudo) with
  | .ok frame => (m.automaton.collect? frame.live pseudo).map .ok
  | .error e => some (.error e)

variable {a : Automaton M} {m : Matcher M}

/-- **No lookup fails at one event.** -/
theorem InRange.respond?_eq (h : m.InRange a) (hfits : a.Fits) (hsound : a.Sound)
    (event : StreamEvent) : m.respond? event = some (m.respond event) := by
  cases event with
  | starts element =>
    obtain rfl := h.automaton_eq
    simp only [respond?, start?, frameOf?_eq hfits hsound h.enclosing, Option.bind_eq_bind,
      Option.bind_some]
    rfl
  | ends => rfl
  | reset => rfl

/-- **No lookup fails in a run**, and all its frames hold numbers of states. -/
theorem InRange.run?_eq (h : m.InRange a) (hfits : a.Fits) (hsound : a.Sound)
    (events : List StreamEvent) :
    m.run? events = some (m.run events) ∧ (m.run events).InRange a := by
  induction events generalizing m with
  | nil => exact ⟨rfl, h⟩
  | cons event events ih =>
    have hrespond := h.respond?_eq hfits hsound event
    rw [run_cons, advance, run?, hrespond]
    -- An event that is refused leaves the matcher as it was.
    cases hnext : m.respond event with
    | ok next => exact ih (h.respond hnext)
    | error _ => exact ih h

/-- **No lookup fails** when the declarations for an element are asked for. -/
theorem InRange.declarationsFor?_eq (h : m.InRange a) (hfits : a.Fits) (hsound : a.Sound)
    (pseudo : Option PseudoElement) :
    m.declarationsFor? pseudo = some (m.declarationsFor pseudo) := by
  rw [declarationsFor?, declarationsFor_eq_map]
  obtain ⟨automaton, config, document, stack⟩ := m
  obtain rfl := h.automaton_eq
  cases stack with
  | nil => rfl
  | cons frame rest =>
    have hframe := h.stack frame List.mem_cons_self
    show (automaton.collect? frame.live pseudo).map Except.ok = _
    rw [Automaton.collect?_eq hfits hsound hframe.live_lt]
    rfl

end Events

end Matcher

/-! ### Compiled rules -/

/-- On this automaton no lookup of a run over the events fails, nor of the questions after it, and
the frames hold numbers of states. -/
structure Matcher.Unfailing [Machine M] [Lookups M] (a : Automaton M) (config : Config)
    (events : List StreamEvent) : Prop where
  run?_eq : (new a config).run? events = some ((new a config).run events)
  inRange : ((new a config).run events).InRange a
  declarationsFor?_eq : ∀ pseudo, ((new a config).run events).declarationsFor? pseudo =
    some (((new a config).run events).declarationsFor pseudo)

theorem Matcher.unfailing [Machine M] [Lookups M] {a : Automaton M} (hfits : a.Fits)
    (hsound : a.Sound) (config : Config) (events : List StreamEvent) :
    Unfailing a config events := by
  obtain ⟨hrun, hrange⟩ := (@inRange_new M _ a config).run?_eq hfits hsound events
  exact ⟨hrun, hrange, hrange.declarationsFor?_eq hfits hsound⟩

namespace Automaton

/-- **No lookup by a number is ever out of range.** If the tables of compiled rules have fewer
than `2 ^ 32` entries, then every number in the automaton is an index of the table that it is used
on; after every stream of events so are the numbers in the frames of a matcher; and no lookup
fails, neither while the automaton is determinized or written down as a graph, nor while
the events are followed, whatever waits to be visited in a closure, nor when declarations are
asked for after the events. This holds on the nondeterministic and on the deterministic
automaton. -/
theorem lookups_succeed (rules : List Rule) (hnfa : (compileNfa rules).Fits) :
    let nfa := compileNfa rules
    let dfa := compile rules
    (nfa.machine.InRange nfa.labels nfa.declarations.length ∧
      nfa.nfaDot? = some nfa.nfaDot ∧
      ∀ config events, Matcher.Unfailing nfa config events) ∧
    (dfa.Fits →
      Dfa.ofNfa? nfa.machine = some dfa.machine ∧
      dfa.machine.InRange nfa.machine dfa.labels dfa.declarations.length ∧
      dfa.dfaDot? = some dfa.dfaDot ∧
      ∀ config events, Matcher.Unfailing dfa config events) := by
  intro nfa dfa
  have hrange : nfa.machine.InRange nfa.labels nfa.declarations.length := inRange_compileNfa rules
  have hsize : nfa.machine.size ≤ 2 ^ 32 := Nat.le_of_lt hnfa.states
  refine ⟨⟨hrange, nfaDot?_eq hnfa hrange, Matcher.unfailing hnfa (hrange.sound hsize)⟩,
    fun hdfa => ?_⟩
  have hrange' : dfa.machine.InRange nfa.machine dfa.labels dfa.declarations.length :=
    inRange_ofNfa hrange
  have hsize' : dfa.machine.size ≤ 2 ^ 32 := Nat.le_of_lt hdfa.states
  exact ⟨Dfa.ofNfa?_eq hrange.bounded hsize hsize', hrange', dfaDot?_eq hdfa hrange',
    Matcher.unfailing hdfa (hrange'.sound hsize')⟩

/-- A rule with a condition, on a paragraph that follows a heading. -/
theorem lookups_succeed_note :
    let note : Rule := .of (.filtered (.ofName "p") (.className "note"))
      { property := "color", value := "red" }
    let events : List StreamEvent :=
      [.starts { localName := "h1" }, .ends, .starts { localName := "p" }]
    (compileNfa [note]).Fits ∧ (compile [note]).Fits ∧
      Matcher.Unfailing (compileNfa [note]) {} events ∧
      Matcher.Unfailing (compile [note]) {} events := by
  intro note events
  have hnfa : (compileNfa [note]).Fits := ⟨by decide +kernel, by decide, by decide, by decide⟩
  have hdfa : (compile [note]).Fits := ⟨by decide +kernel, by decide, by decide, by decide⟩
  obtain ⟨⟨-, -, hfirst⟩, hsecond⟩ := lookups_succeed [note] hnfa
  exact ⟨hnfa, hdfa, hfirst {} events, (hsecond hdfa).2.2.2 {} events⟩

end Automaton

end StyleStream
