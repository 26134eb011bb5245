/-
  What was inside a closed element is forgotten.

  Events are balanced if they end every element that they start and no other. Balanced
  events touch the frame around them alone, and of that frame only what it remembers of
  its children (`replay_balanced`). When the element around them ends, its frame goes, and
  with it all that they have left; what stays behind is the element's own set of live
  states (`finish_inside_start`).
-/
import StyleStream.Proofs.Frames

namespace StyleStream

/-- Events that end every element that they start, and no other. -/
inductive Balanced : List StreamEvent → Prop
  | nil : Balanced []
  | node (element : Element) {inside rest : List StreamEvent} : Balanced inside → Balanced rest →
      Balanced (.starts element :: (inside ++ .ends :: rest))

namespace Matcher

variable {M : Type} {m m' : Matcher M} {f g : Frame → Frame}

/-! ### The frame around -/

theorem modifyEnclosing_of_eq (h : f m.enclosing = m.enclosing) : m.modifyEnclosing f = m := by
  obtain ⟨automaton, config, document, stack⟩ := m
  cases stack with
  | nil =>
    have hdocument : f document = document := h
    simp only [modifyEnclosing, hdocument]
  | cons frame rest =>
    have hframe : f frame = frame := h
    simp only [modifyEnclosing, hframe]

theorem modifyEnclosing_modifyEnclosing :
    (m.modifyEnclosing f).modifyEnclosing g = m.modifyEnclosing fun around => g (f around) := by
  obtain ⟨automaton, config, document, stack⟩ := m
  cases stack <;> rfl

variable [Machine M] {element : Element} {events inside later : List StreamEvent}

/-! ### Elements that have ended -/

/-- What an element leaves behind when it has ended: one more child of the frame around, and
the live states with which it started. -/
def afterElement (m : Matcher M) (element : Element) : Matcher M :=
  m.modifyEnclosing fun around =>
    { around with
      children := around.children + 1
      lastChild := some (frameOf m.automaton m.enclosing element).live }

/-- **The end of an element** discards all that its content has left in its frame. -/
theorem finish_inside_start (element : Element) (children : Nat)
    (lastChild : Option (List StateId)) :
    ((m.start element).modifyEnclosing fun frame => { frame with children, lastChild }).finish =
      .ok (m.afterElement element) := by
  obtain ⟨automaton, config, document, stack⟩ := m
  cases stack <;> rfl

/-! ### Events that are all accepted -/

/-- The matcher after a list of events, or the error with which the first refused one is refused. -/
def replay (m : Matcher M) (events : List StreamEvent) : Except Error (Matcher M) :=
  events.foldlM respond m

theorem replay_nil : m.replay [] = .ok m := rfl

theorem replay_starts :
    m.replay (.starts element :: events) = (m.start element).replay events := rfl

theorem replay_ends (h : m.finish = .ok m') : m.replay (.ends :: events) = m'.replay events := by
  show m.finish >>= _ = _
  rw [h]
  rfl

theorem replay_append (h : m.replay events = .ok m') :
    m.replay (events ++ later) = m'.replay later := by
  rw [replay, List.foldlM_append, ← replay, h]
  rfl

/-- Where no event is refused, a run is a replay. -/
theorem run_append_of_replay (h : m.replay events = .ok m') :
    m.run (events ++ later) = m'.run later := by
  induction events generalizing m with
  | nil => rw [Except.ok.inj h, List.nil_append]
  | cons event events ih =>
    rw [replay, List.foldlM_cons] at h
    rw [List.cons_append, run_cons, advance]
    cases hevent : m.respond event with
    | ok next =>
      rw [hevent] at h
      exact ih h
    | error _ =>
      rw [hevent] at h
      cases h

/-! ### Balanced events -/

/-- **Balanced events** are never refused, and all that they change is what the frame around
them remembers of its children. -/
theorem replay_balanced (h : Balanced events) (m : Matcher M) :
    ∃ children lastChild, m.replay events =
      .ok (m.modifyEnclosing fun around => { around with children, lastChild }) := by
  induction h generalizing m with
  | nil =>
    refine ⟨m.enclosing.children, m.enclosing.lastChild, ?_⟩
    rw [replay_nil, modifyEnclosing_of_eq rfl]
  | @node element inside rest _ _ ihinside ihrest =>
    obtain ⟨children, lastChild, hinside⟩ := ihinside (m.start element)
    have hfinish := finish_inside_start (m := m) element children lastChild
    -- What the first element leaves in the frame around is overwritten by the rest.
    obtain ⟨children, lastChild, hrest⟩ := ihrest (m.afterElement element)
    refine ⟨children, lastChild, ?_⟩
    rw [replay_starts, replay_append hinside, replay_ends hfinish, hrest, afterElement,
      modifyEnclosing_modifyEnclosing]

theorem replay_element (h : Balanced inside) :
    m.replay (.starts element :: (inside ++ [.ends])) = .ok (m.afterElement element) := by
  obtain ⟨children, lastChild, hinside⟩ := replay_balanced h (m.start element)
  rw [replay_starts, replay_append hinside,
    replay_ends (finish_inside_start element children lastChild), replay_nil]

/-- **Closed content is forgotten.** Whatever balanced events stand between the start and the
end of an element, none of them is refused, and the matcher ends up as if the element had
been empty: the frame around has one more child, the child that closed last is the element
with the live states that it had when it started, and nothing else has changed. So no later
answer depends on what was inside. -/
theorem replay_around_balanced (m : Matcher M) (element : Element) (inside : List StreamEvent)
    (h : Balanced inside) :
    ∃ live, (m.start element).liveStates = .ok live ∧
      let left := m.modifyEnclosing fun around =>
        { around with children := around.children + 1, lastChild := some live }
      m.replay [.starts element, .ends] = .ok left ∧
        m.replay (.starts element :: (inside ++ [.ends])) = .ok left ∧
        ∀ later, m.run (.starts element :: (inside ++ .ends :: later)) =
          m.run (.starts element :: .ends :: later) := by
  have hempty : m.replay [.starts element, .ends] = .ok (m.afterElement element) :=
    replay_element .nil
  have hfull : m.replay (.starts element :: (inside ++ [.ends])) = .ok (m.afterElement element) :=
    replay_element h
  refine ⟨_, rfl, hempty, hfull, fun later => ?_⟩
  calc m.run (.starts element :: (inside ++ .ends :: later))
      = m.run ((.starts element :: (inside ++ [.ends])) ++ later) := by simp
    _ = (m.afterElement element).run later := run_append_of_replay hfull
    _ = m.run (.starts element :: .ends :: later) := (run_append_of_replay hempty).symm

/-- The content of a heading with two nested elements and an empty one. -/
def headingContent : List StreamEvent :=
  [.starts { localName := "em" }, .starts { localName := "b" }, .ends, .ends,
    .starts { localName := "br" }, .ends]

/-- A heading in a section, under a rule for the paragraph that follows it. -/
theorem replay_around_balanced_heading :
    let spaced : Rule := .of (.combined .adjacent (.ofName "h1") (.ofName "p"))
      { property := "margin-top", value := "0" }
    let m := (new (.compile [spaced]) {}).run [.starts { localName := "section" }]
    let h1 : Element := { localName := "h1" }
    Balanced headingContent ∧ ∃ live, (m.start h1).liveStates = .ok live ∧
      m.replay (.starts h1 :: (headingContent ++ [.ends])) =
        .ok (m.modifyEnclosing fun around =>
          { around with children := around.children + 1, lastChild := some live }) := by
  intro spaced m h1
  have hbalanced : Balanced headingContent :=
    .node _ (.node _ .nil .nil) (.node _ .nil .nil)
  obtain ⟨live, hlive, -, hfull, -⟩ := replay_around_balanced m h1 headingContent hbalanced
  exact ⟨hbalanced, live, hlive, hfull⟩

end Matcher

end StyleStream
