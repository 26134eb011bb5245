/-
  Which answers the rule for a pseudo-element contributes to.

  The subject of a selector stands at its right end, behind all combinators and under all
  conditions (`Selector.subject?`). A rule takes its pseudo-element from
  `Selector.pseudoElement?`, which stops at the first condition, so the two agree unless a
  condition stands above the subject (`Selector.pseudoElement?_eq`). Where one does, the
  selector is compiled and weighed with its subject all the same, but the rule is left
  without a pseudo-element: it is for the element at which the condition is decided.
-/
import StyleStream.Proofs.Contributions

namespace StyleStream

namespace Selector

/-- The pseudo-element at the right end of the selector, whatever conditions stand above it. -/
def subject? : Selector → Option PseudoElement
  | pseudo p => some p
  | filtered inner _ => inner.subject?
  | combined _ _ right => right.subject?
  | element _ | unsupported _ => none

/-- Whether a condition stands above the right end of the selector. -/
def isGuarded : Selector → Bool
  | filtered _ _ => true
  | combined _ _ right => right.isGuarded
  | element _ | pseudo _ | unsupported _ => false

/-- **A condition hides the subject.** -/
theorem pseudoElement?_eq (s : Selector) :
    s.pseudoElement? = if s.isGuarded then none else s.subject? := by
  induction s with
  | element test => rfl
  | filtered inner condition ih => rfl
  | combined combinator left right ihl ihr => exact ihr
  | pseudo p => rfl
  | unsupported text => rfl

end Selector

/-- The rule with a number is among those that contribute. -/
def Contributes (rules : List Rule) (config : Config) (events : List StreamEvent) (number : Nat)
    (pseudo : Option PseudoElement) : Prop :=
  ∃ l, contributions rules.zipIdx config events pseudo = .ok l ∧ number ∈ l.map (·.2)

section Contributes

variable {rules : List Rule} {config : Config} {events : List StreamEvent} {number : Nat}
  {pseudo : Option PseudoElement} {rule : Rule}

/-- **A rule contributes** where it is understood, matches, and is for what is asked about. -/
theorem contributes_iff (h : rules[number]? = some rule) :
    Contributes rules config events number pseudo ↔
      rule.selector.isSupported ∧ rule.declaration.pseudoElement = pseudo ∧
        ∃ p, (Reading.of events).current? = some p ∧ rule.selector.Matches config p := by
  have hmem : ∀ p, number ∈ (cascadeSortTagged
      (matchingTagged config rules.zipIdx p pseudo)).map (·.2) ↔
        rule.selector.isSupported ∧ rule.selector.Matches config p ∧
          rule.declaration.pseudoElement = pseudo := by
    intro p
    rw [((perm_cascadeSortTagged _).map _).mem_iff, List.mem_map]
    constructor
    · rintro ⟨x, hx, rfl⟩
      obtain ⟨other, hother, hsupported, hmatches, hpseudo, -⟩ := mem_matchingTagged.1 hx
      rw [List.mem_zipIdx_iff_getElem?, h] at hother
      obtain rfl : rule = other := Option.some.inj hother
      exact ⟨hsupported, hmatches, hpseudo⟩
    · rintro ⟨hsupported, hmatches, hpseudo⟩
      refine ⟨(rule.declaration, number), mem_matchingTagged.2 ⟨rule, ?_, hsupported, hmatches,
        hpseudo, rfl⟩, rfl⟩
      exact List.mem_zipIdx_iff_getElem?.2 h
  rw [Contributes, contributions_run, Reading.answer]
  cases (Reading.of events).current? with
  | none => simp
  | some p =>
    simp only [Except.ok.injEq, exists_eq_left', hmem, Option.some.injEq]
    constructor
    · rintro ⟨hsupported, hmatches, hpseudo⟩
      exact ⟨hsupported, hpseudo, hmatches⟩
    · rintro ⟨hsupported, hpseudo, hmatches⟩
      exact ⟨hsupported, hmatches, hpseudo⟩

/-- **Where the rule for a pseudo-element goes.** Let the subject of a selector be a
pseudo-element, and let its declaration name none. Where the selector matches, the rule
contributes to the declarations for this pseudo-element and to no others, unless the selector
is guarded; if it is, the rule styles the element itself and none of its pseudo-elements. -/
theorem contributes_of_subject (rules : List Rule) (config : Config) (events : List StreamEvent)
    (number : Nat) (s : Selector) (d : Declaration) (subject : PseudoElement)
    (hrule : rules[number]? = some (.of s d)) (hsupported : s.isSupported)
    (hsubject : s.subject? = some subject) (hd : d.pseudoElement = none) :
    (Contributes rules config events number none ↔ s.isGuarded ∧
        ∃ p, (Reading.of events).current? = some p ∧ s.Matches config p) ∧
      ∀ pseudo, Contributes rules config events number (some pseudo) ↔
        ¬ s.isGuarded ∧ pseudo = subject ∧
          ∃ p, (Reading.of events).current? = some p ∧ s.Matches config p := by
  have hpseudo : (Rule.of s d).declaration.pseudoElement =
      if s.isGuarded then none else some subject := by
    rw [Rule.of, hd, Option.none_or, s.pseudoElement?_eq, hsubject]
  have hselector : (Rule.of s d).selector = s := rfl
  constructor
  · rw [contributes_iff hrule, hpseudo, hselector, and_iff_right hsupported]
    cases s.isGuarded <;> simp
  · intro pseudo
    rw [contributes_iff hrule, hpseudo, hselector, and_iff_right hsupported]
    cases s.isGuarded <;> simp [eq_comm]

/-- A class on the element that owns the pseudo-element. -/
theorem contributes_of_subject_owner :
    let s : Selector := .combined .child ((Selector.ofName "p").filtered (.className "x"))
      (.pseudo .before)
    let rules : List Rule := [.of s { property := "content", value := "*" }]
    let events : List StreamEvent :=
      [.starts { localName := "p", attributes := [{ localName := "class", value := "x" }] }]
    ¬ Contributes rules {} events 0 none ∧ Contributes rules {} events 0 (some .before) := by
  intro s rules events
  have h := contributes_of_subject rules {} events 0 s { property := "content", value := "*" }
    .before rfl rfl rfl rfl
  exact ⟨fun hnone => absurd (h.1.1 hnone).1 (by decide),
    (h.2 .before).2 ⟨by decide, rfl, _, rfl, by decide⟩⟩

/-- **A class on the pseudo-element** makes the rule style the element. -/
theorem declarations_of_guarded_subject :
    let s : Selector := (Selector.combined .child (.ofName "p") (.pseudo .before)).filtered
      (.className "x")
    let rule : Rule := .of s { property := "content", value := "*" }
    let events : List StreamEvent :=
      [.starts { localName := "p", attributes := [{ localName := "class", value := "x" }] }]
    let m := (Matcher.new (.compile [rule]) {}).run events
    s.isSupported ∧ s.subject? = some .before ∧
      m.declarations = .ok [rule.declaration] ∧ m.pseudoDeclarations .before = .ok [] := by
  intro s rule events m
  let p : Place :=
    ⟨⟨[], { localName := "p", attributes := [{ localName := "class", value := "x" }] }⟩, []⟩
  have hnone : matching {} [rule] p none = [rule.declaration] := by decide
  have hbefore : matching {} [rule] p (some .before) = [] := by decide
  refine ⟨rfl, rfl, ?_, ?_⟩
  · rw [Matcher.declarations_run]
    refine congrArg Except.ok ((congrArg cascadeSort hnone).trans ?_)
    exact List.mergeSort_singleton _
  · rw [Matcher.pseudoDeclarations_run]
    refine congrArg Except.ok ((congrArg cascadeSort hbefore).trans ?_)
    exact List.mergeSort_nil

end Contributes

end StyleStream
