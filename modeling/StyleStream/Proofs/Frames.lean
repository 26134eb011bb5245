/-
  What a matcher remembers, as a function of what it has read.

  `Matcher.of` writes down the matcher that stands at the end of a reading: one
  frame for each open element, computed from the elements around it and before
  it. The main statement is `run_new`: a matcher that has followed a stream of
  events is the one written down for what the stream spells out. So everything
  about a run is a statement about places in a document, and inside a closed
  element there is nothing that a matcher could still remember.
-/
import StyleStream.Matcher
import StyleStream.Proofs.Document

namespace StyleStream

namespace Matcher

variable {M : Type} [Machine M]

/-! ### Runs -/

/-- The answer to an event. -/
def respond (m : Matcher M) : StreamEvent → Except Error (Matcher M)
  | .starts element => .ok (m.start element)
  | .ends => m.finish
  | .reset => .ok m.reset

/-- The matcher after an event. A refused event changes nothing. -/
def advance (m : Matcher M) (event : StreamEvent) : Matcher M :=
  match m.respond event with
  | .ok next => next
  | .error _ => m

def run (m : Matcher M) (events : List StreamEvent) : Matcher M :=
  events.foldl advance m

theorem run_cons {m : Matcher M} {event : StreamEvent} {events : List StreamEvent} :
    m.run (event :: events) = (m.advance event).run events := rfl

/-! ### Frames of a document -/

/-- The frame of an element with the given earlier siblings, before any of its
children has started. `outer` is the frame around it. -/
def frameAmong (a : Automaton M) (outer : Frame) : List Tree → Element → Frame
  | [], element => frameOf a { outer with children := 0, lastChild := none } element
  | sibling :: earlier, element =>
    frameOf a
      { outer with
        children := earlier.length + 1
        lastChild := some (frameAmong a outer earlier sibling.element).live }
      element

/-- The frame of the innermost element of a path before any of its children has
started, and the frame of the document for the empty path. -/
def frameAt (a : Automaton M) (config : Config) : List Level → Frame
  | [] => freshDocument config
  | level :: above => frameAmong a (frameAt a config above) level.earlier level.element

/-- The frame of the innermost element of a path, or of the document, after
`started` children have started and the given ones have ended. -/
def frameAfter (a : Automaton M) (config : Config) (path : List Level) (closed : List Tree)
    (started : Nat) : Frame :=
  { frameAt a config path with
    children := started
    lastChild :=
      match closed with
      | [] => none
      | sibling :: earlier => some (frameAt a config (⟨earlier, sibling.element⟩ :: path)).live }

/-- The frames of a path of open elements. All but the innermost have one child
that has started and not ended. -/
def stackAt (a : Automaton M) (config : Config) : List Level → List Tree → Nat → List Frame
  | [], _, _ => []
  | level :: above, closed, started =>
    frameAfter a config (level :: above) closed started ::
      stackAt a config above level.earlier (level.earlier.length + 1)

/-- The frame of the document around a path of open elements. -/
def documentAt (a : Automaton M) (config : Config) : List Level → List Tree → Nat → Frame
  | [], closed, started => frameAfter a config [] closed started
  | level :: above, _, _ => documentAt a config above level.earlier (level.earlier.length + 1)

/-- The matcher inside a path of open elements, after `started` children of the
innermost one have started and the given ones have ended. -/
def inside (a : Automaton M) (config : Config) (path : List Level) (closed : List Tree)
    (started : Nat) : Matcher M where
  automaton := a
  config := config
  document := documentAt a config path closed started
  stack := stackAt a config path closed started

/-- The matcher at the end of a reading. -/
def of (a : Automaton M) (config : Config) (r : Reading) : Matcher M :=
  inside a config r.path r.closed r.closed.length

/-! ### One event -/

section Step

variable {a : Automaton M} {config : Config} {path above : List Level} {level : Level}
  {closed closed' : List Tree} {started started' : Nat}

/-- An element starts in the frame that its earlier siblings have left. -/
theorem frameAt_cons : frameAt a config (level :: above) =
    frameOf a (frameAfter a config above level.earlier level.earlier.length) level.element := by
  obtain ⟨earlier, element⟩ := level
  cases earlier <;> rfl

theorem frameAfter_nil : frameAfter a config (level :: above) [] 0 =
    frameAt a config (level :: above) := by
  rw [frameAfter, frameAt_cons]
  rfl

theorem enclosing_inside :
    (inside a config path closed started).enclosing = frameAfter a config path closed started := by
  cases path <;> rfl

theorem modifyEnclosing_inside {f : Frame → Frame}
    (h : f (frameAfter a config path closed started) = frameAfter a config path closed' started') :
    (inside a config path closed started).modifyEnclosing f =
      inside a config path closed' started' := by
  cases path with
  | nil => simp [modifyEnclosing, inside, stackAt, documentAt, h]
  | cons level above => simp [modifyEnclosing, inside, stackAt, documentAt, h]

theorem start_of (r : Reading) (element : Element) :
    (of a config r).start element = of a config (r.advance (.starts element)) := by
  have hmodify : (of a config r).modifyEnclosing
      (fun around => { around with children := around.children + 1 }) =
        inside a config r.path r.closed (r.closed.length + 1) :=
    modifyEnclosing_inside rfl
  have hframe : frameOf a (of a config r).enclosing element =
      frameAfter a config (⟨r.closed, element⟩ :: r.path) [] 0 := by
    rw [frameAfter_nil, frameAt_cons, of, enclosing_inside]
  have hautomaton : (of a config r).automaton = a := rfl
  simp only [start, hmodify, hautomaton, hframe]
  rfl

theorem finish_inside_cons : (inside a config (level :: above) closed started).finish =
    .ok (inside a config above (.node level.element closed.reverse :: level.earlier)
      (level.earlier.length + 1)) := by
  refine congrArg Except.ok (modifyEnclosing_inside ?_)
  rfl

/-- **One event keeps the matcher in step with the reading.** -/
theorem advance_of (r : Reading) (event : StreamEvent) :
    (of a config r).advance event = of a config (r.advance event) := by
  cases event with
  | starts element => exact start_of r element
  | reset => rfl
  | ends =>
    obtain ⟨path, closed⟩ := r
    cases path with
    | nil => rfl
    | cons level above =>
      simp only [advance, respond, of, finish_inside_cons, Reading.advance, List.length_cons]

end Step

/-! ### Whole runs -/

/-- **A matcher is a function of what it has read**: after any stream of events
it holds the frames of the elements that are open, and each frame depends on
nothing but the elements around and before it. -/
theorem run_new (a : Automaton M) (config : Config) (events : List StreamEvent) :
    (new a config).run events = of a config (.of events) := by
  -- By induction on the events, from any reading on.
  have key : ∀ (events : List StreamEvent) (r : Reading),
      (of a config r).run events = of a config (events.foldl Reading.advance r) := by
    intro events
    induction events with
    | nil => intro r; rfl
    | cons event events ih =>
      intro r
      rw [run_cons, advance_of, ih, List.foldl_cons]
  exact key events {}

/-! ### Live states by place -/

section Place

variable {a : Automaton M} {config : Config} {p : Place}

/-- The live states of an element. -/
def liveAt (a : Automaton M) (config : Config) (p : Place) : List StateId :=
  (frameAt a config (p.here :: p.above)).live

/-- The states from which an element is read. -/
def seedsAt (a : Automaton M) (config : Config) (p : Place) : List StateId :=
  seeds a.machine (frameAfter a config p.above p.here.earlier p.here.earlier.length)

/-- The language of a frame is that of its path. -/
theorem language_frameAt (a : Automaton M) (config : Config) (path : List Level) :
    (frameAt a config path).language = languageIn config path := by
  induction path with
  | nil => rfl
  | cons level above ih =>
    rw [frameAt_cons, languageIn, ← ih]
    rfl

theorem context_frameAfter : context
    (frameAfter a config p.above p.here.earlier p.here.earlier.length) p.element =
      p.context config := by
  rw [Place.context, languageIn, ← language_frameAt a]
  rfl

theorem liveAt_eq : liveAt a config p =
    settle a (p.context config) (read a p.element (seedsAt a config p)) := by
  rw [liveAt, frameAt_cons, ← context_frameAfter (a := a)]
  rfl

theorem live_frameAfter {closed : List Tree} {started : Nat} :
    (frameAfter a config p.above closed started).live =
      match p.parent? with
      | some parent => liveAt a config parent
      | none => [] := by
  obtain ⟨here, above⟩ := p
  cases above <;> rfl

theorem lastChild_frameAfter {started : Nat} :
    (frameAfter a config p.above p.here.earlier started).lastChild =
      p.previous?.map (liveAt a config) := by
  obtain ⟨⟨earlier, element⟩, above⟩ := p
  cases earlier <;> rfl

/-- A question finds the frame of the place that has been reached, or no frame. -/
theorem current_of (r : Reading) (query : Query) : (of a config r).current query =
    match r.path with
    | [] => .error (.noOpenElement query)
    | level :: above => .ok (frameAfter a config (level :: above) r.closed r.closed.length) := by
  obtain ⟨path, closed⟩ := r
  cases path <;> rfl

/-- An answer that depends on nothing but the live states is determined by the place. -/
theorem map_current_of {β : Type} (r : Reading) (query : Query) (f : List StateId → β) :
    ((of a config r).current query).map (fun frame => f frame.live) =
      r.answer query fun p => f (liveAt a config p) := by
  rw [current_of]
  obtain ⟨path, closed⟩ := r
  cases path <;> rfl

end Place

/-! ### Declarations -/

section Declarations

variable {M : Type} [Machine M]

/-- The question for the declarations of an element, or of one of its pseudo-elements. -/
def queryFor : Option PseudoElement → Query
  | none => .declarations
  | some _ => .pseudoDeclarations

/-- The declarations for the current element, or for one of its pseudo-elements. -/
def declarationsFor (m : Matcher M) : Option PseudoElement → Except Error (List Declaration)
  | none => m.declarations
  | some pseudo => m.pseudoDeclarations pseudo

theorem declarationsFor_eq_map (m : Matcher M) (pseudo : Option PseudoElement) :
    m.declarationsFor pseudo =
      (m.current (queryFor pseudo)).map fun frame => m.automaton.collect frame.live pseudo := by
  cases pseudo with
  | none =>
    rw [declarationsFor, declarations, queryFor]
    cases m.current .declarations <;> rfl
  | some pseudo =>
    rw [declarationsFor, pseudoDeclarations, queryFor]
    cases m.current .pseudoDeclarations <;> rfl

theorem declarationsFor_of (a : Automaton M) (config : Config) (r : Reading)
    (pseudo : Option PseudoElement) : (of a config r).declarationsFor pseudo =
      r.answer (queryFor pseudo) fun p => a.collect (liveAt a config p) pseudo := by
  rw [declarationsFor_eq_map]
  exact map_current_of r (queryFor pseudo) (a.collect · pseudo)

end Declarations

end Matcher

end StyleStream
