/-
  Depth, position and language, read off the events alone.

  A matcher keeps a count of children and a language in each frame. What it answers is a function
  of the list of events, told here without frames: the depth by counting starts and accepted ends,
  the position by counting the elements that started earlier under the same parent, and the
  language by looking for a declaration from the current element outward (`answers_follow_events`).
-/
import Mathlib.Data.List.DropRight
import StyleStream.Proofs.Frames
import StyleStream.Proofs.Openings

namespace StyleStream

/-! ### Declared languages -/

/-- The language inside a path is that of the nearest element that declares one. -/
theorem languageIn_eq (config : Config) (path : List Level) : languageIn config path =
    ((path.map (·.element)).findSome? (·.declaredLanguage?)).getD config.defaultLanguage := by
  induction path with
  | nil => rfl
  | cons level above ih =>
    rw [languageIn, ih, List.map_cons, List.findSome?_cons]
    cases level.element.declaredLanguage? <;> rfl

/-- The first attribute of the element with this qualified name has this value. -/
def Element.FirstValue (e : Element) (ns : Option String) (localName value : String) : Prop :=
  ∃ before a behind, e.attributes = before ++ a :: behind ∧ a.isNamed ns localName ∧
    (∀ other ∈ before, ¬ other.isNamed ns localName) ∧ a.value = value

/-- The element declares this language: in the namespace of XML, or if it declares none there, in
no namespace. -/
def Element.Declares (e : Element) (language : String) : Prop :=
  e.FirstValue (some xmlNamespace) "lang" language ∨
    (∀ other ∈ e.attributes, ¬ other.isNamed (some xmlNamespace) "lang") ∧
      e.FirstValue none "lang" language

theorem Element.value?_eq_some_iff {e : Element} {ns : Option String} {localName value : String} :
    e.value? ns localName = some value ↔ e.FirstValue ns localName value := by
  unfold value? attribute? FirstValue
  rw [Option.map_eq_some_iff]
  constructor
  · rintro ⟨a, hfind, hvalue⟩
    obtain ⟨hnamed, before, behind, hsplit, hbefore⟩ := List.find?_eq_some_iff_append.1 hfind
    exact ⟨before, a, behind, hsplit, hnamed, by simpa using hbefore, hvalue⟩
  · rintro ⟨before, a, behind, hsplit, hnamed, hbefore, hvalue⟩
    refine ⟨a, List.find?_eq_some_iff_append.2 ⟨hnamed, before, behind, hsplit, ?_⟩, hvalue⟩
    simpa using hbefore

theorem Element.value?_eq_none_iff {e : Element} {ns : Option String} {localName : String} :
    e.value? ns localName = none ↔ ∀ other ∈ e.attributes, ¬ other.isNamed ns localName := by
  unfold value? attribute?
  rw [Option.map_eq_none_iff, List.find?_eq_none]

/-- **The declared language** of an element. -/
theorem Element.declaredLanguage?_eq_some_iff {e : Element} {language : String} :
    e.declaredLanguage? = some language ↔ e.Declares language := by
  unfold declaredLanguage? Declares
  rw [← value?_eq_some_iff, ← value?_eq_none_iff, ← value?_eq_some_iff, Option.or_eq_some_iff]

namespace Matcher

variable {M : Type} {m : Matcher M}

/-! ### Ends that are refused -/

/-- The end of an element as it is carried out, with the matcher that it leaves even if it is
refused: the innermost frame is taken off first. -/
def finishInPlace (m : Matcher M) : Except Error Unit × Matcher M :=
  let rest := { m with stack := m.stack.tail }
  match m.stack.head? with
  | none => (.error .unbalancedEnd, rest)
  | some frame =>
    (.ok (), rest.modifyEnclosing fun around => { around with lastChild := some frame.live })

/-- **A refused end leaves the matcher as it was.** -/
theorem finishInPlace_eq (m : Matcher M) : m.finishInPlace =
    match m.finish with
    | .ok next => (.ok (), next)
    | .error error => (.error error, m) := by
  obtain ⟨automaton, config, document, stack⟩ := m
  cases stack <;> rfl

/-- An end that is accepted takes off one open element. -/
theorem depth_finish {next : Matcher M} (h : m.finish = .ok next) : next.depth + 1 = m.depth := by
  obtain ⟨automaton, config, document, stack⟩ := m
  cases stack with
  | nil => cases h
  | cons frame rest =>
    obtain rfl := Except.ok.inj h
    cases rest <;> rfl

variable [Machine M]

/-- An end is refused at depth zero and nowhere else. -/
theorem finish_eq (m : Matcher M) : m.finish =
    if m.depth = 0 then .error .unbalancedEnd else .ok (m.advance .ends) := by
  obtain ⟨automaton, config, document, stack⟩ := m
  cases stack with
  | nil => rfl
  | cons frame rest =>
    show _ = ite (rest.length + 1 = 0) _ _
    rw [if_neg (Nat.succ_ne_zero _)]
    rfl

/-! ### Depth -/

/-- The events with the answers to them: whether each was accepted. -/
def answers (m : Matcher M) : List StreamEvent → List (StreamEvent × Bool)
  | [] => []
  | event :: events => (event, (m.respond event).isOk) :: (m.advance event).answers events

theorem answers_concat (m : Matcher M) (events : List StreamEvent) (event : StreamEvent) :
    m.answers (events ++ [event]) =
      m.answers events ++ [(event, ((m.run events).respond event).isOk)] := by
  induction events generalizing m with
  | nil => rfl
  | cons first events ih => rw [List.cons_append, answers, ih, answers, List.cons_append, run_cons]

theorem run_concat (m : Matcher M) (events : List StreamEvent) (event : StreamEvent) :
    m.run (events ++ [event]) = (m.run events).advance event := by
  unfold run
  rw [List.foldl_append]
  rfl

/-- The answers since the last reset. -/
def sinceReset (answers : List (StreamEvent × Bool)) : List (StreamEvent × Bool) :=
  answers.rtakeWhile fun answer => answer.1 ≠ .reset

theorem depth_start (m : Matcher M) (element : Element) :
    (m.start element).depth = m.depth + 1 := by
  obtain ⟨automaton, config, document, stack⟩ := m
  cases stack <;> rfl

/-- **The depth** is what the starts since the last reset exceed the accepted ends by. -/
theorem countP_sinceReset (a : Automaton M) (config : Config) (events : List StreamEvent) :
    (sinceReset ((new a config).answers events)).countP (·.1.element?.isSome) =
      ((new a config).run events).depth +
        (sinceReset ((new a config).answers events)).count (.ends, true) := by
  induction events using List.reverseRecOn with
  | nil => rfl
  | append_singleton events event ih =>
    rw [answers_concat, run_concat]
    unfold sinceReset at ih ⊢
    rw [List.rtakeWhile_concat]
    generalize (new a config).run events = m at ih ⊢
    generalize ((new a config).answers events).rtakeWhile _ = since at ih ⊢
    cases event with
    | starts element =>
      rw [if_pos (by simp), List.countP_append, List.count_append]
      show since.countP _ + 1 = (m.start element).depth + (since.count _ + 0)
      rw [depth_start]
      omega
    | ends =>
      rw [if_pos (by simp), List.countP_append, List.count_append]
      have hrespond : m.respond .ends = m.finish := rfl
      unfold advance
      rw [hrespond]
      cases hfinish : m.finish with
      | ok next =>
        have hdepth := depth_finish hfinish
        show since.countP _ + 0 = next.depth + (since.count _ + 1)
        omega
      | error error =>
        show since.countP _ + 0 = m.depth + (since.count _ + 0)
        omega
    | reset =>
      rw [if_neg (by simp)]
      rfl

/-! ### Position and language -/

section Of

variable {a : Automaton M} {config : Config}

theorem position_of (r : Reading) : (of a config r).position =
    r.answer .position fun p => p.here.earlier.length := by
  unfold position
  rw [current_of]
  obtain ⟨path, closed⟩ := r
  cases path with
  | nil => rfl
  | cons level above =>
    show (Except.ok (frameAt a config (level :: above)).position : Except Error Nat) = _
    rw [frameAt_cons]
    rfl

theorem language_of (r : Reading) : (of a config r).language =
    r.answer .language fun p => languageIn config (p.here :: p.above) := by
  unfold language
  rw [current_of]
  obtain ⟨path, closed⟩ := r
  cases path with
  | nil => rfl
  | cons level above =>
    show (Except.ok (frameAt a config (level :: above)).language : Except Error String) = _
    rw [language_frameAt]
    rfl

end Of

/-- **Depth, position and language follow the events.** After any events, refused ends included:

The depth is the number of starts since the last reset less the number of accepted ends. At depth
zero, and nowhere else, an end is refused, and then it changes nothing.

The position of the current element is the number of elements that started before it under the
parent that was open when it started, since the last reset. Its language is the one declared by the
nearest open element that declares one, itself included, and the configured one if there is none. An
element declares a language in the namespace of XML or, failing that, in no namespace, and an empty
one counts. -/
theorem answers_follow_events (a : Automaton M) (config : Config) (events : List StreamEvent) :
    let m := (new a config).run events
    let since := sinceReset ((new a config).answers events)
    since.countP (·.1.element?.isSome) = m.depth + since.count (.ends, true) ∧
      m.finish = (if m.depth = 0 then .error .unbalancedEnd else .ok (m.advance .ends)) ∧
      m.finishInPlace = (match m.finish with
        | .ok next => (.ok (), next)
        | .error error => (.error error, m)) ∧
      m.position = (match openStarts events with
        | [] => .error (.noOpenElement .position)
        | start :: _ => .ok (childStarts (events.take start)).length) ∧
      m.language = (match openElements events with
        | [] => .error (.noOpenElement .language)
        | current :: outer =>
          .ok (((current :: outer).findSome? (·.declaredLanguage?)).getD config.defaultLanguage)) ∧
      ∀ (e : Element) (language : String),
        e.declaredLanguage? = some language ↔ e.Declares language := by
  intro m since
  have hrun : m = of a config (.of events) := run_new a config events
  refine ⟨countP_sinceReset a config events, finish_eq m, finishInPlace_eq m, ?_, ?_,
    fun e language => Element.declaredLanguage?_eq_some_iff⟩
  · have hpath := (tells_reading events).1
    rw [hrun, position_of]
    unfold Reading.answer Reading.current?
    generalize (Reading.of events).path = path at hpath ⊢
    generalize openStarts events = starts at hpath ⊢
    cases hpath with
    | nil => rfl
    | cons _ _ hearlier _ =>
      show Except.ok _ = Except.ok _
      rw [hearlier]
  · rw [hrun, language_of, openElements_eq]
    unfold Reading.answer Reading.current?
    cases (Reading.of events).path with
    | nil => rfl
    | cons level above =>
      show Except.ok (languageIn config (level :: above)) = _
      rw [languageIn_eq]
      rfl

end Matcher

end StyleStream
