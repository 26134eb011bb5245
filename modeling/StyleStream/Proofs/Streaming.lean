/-
  A stream of elements is matched exactly.

  At every moment of a stream the declarations for the current element are those of
  the rules that match it where it stands in the document, and no others. The
  argument meets itself in the middle: a deterministic matcher stands for a
  nondeterministic one (`Simulation`), whose frames are determined by the document
  (`Frames`) and are balanced along the edges (`Flow`), so that the exit of each
  selector is live at its matches (`Compilation`).
-/
import StyleStream.Proofs.Compilation
import StyleStream.Proofs.Precedence

namespace StyleStream

/-! ### Selecting by number -/

section Select

variable {α : Type} {xs : List α} {P : α → Bool}

theorem filterMap_getElem?_range :
    ((List.range xs.length).filter fun i => xs[i]?.any P).filterMap (xs[·]?) = xs.filter P := by
  induction xs with
  | nil => rfl
  | cons x xs ih =>
    rw [List.length_cons, List.range_succ_eq_map, List.filter_cons, List.filter_cons]
    simp only [List.getElem?_cons_zero, Option.any_some, List.filter_map]
    split
    · -- The numbers behind zero pick from the tail.
      have hzero : (x :: xs)[0]? = some x := rfl
      rw [List.filterMap_cons_some hzero, List.filterMap_map, ← ih]
      rfl
    · rw [List.filterMap_map, ← ih]
      rfl

/-- **Numbers in ascending order pick values in their order.** -/
theorem filterMap_getElem?_eq_filter {l : List Nat} (hl : l.Pairwise (· < ·))
    (h : ∀ i, i ∈ l ↔ ∃ x, xs[i]? = some x ∧ P x) : l.filterMap (xs[·]?) = xs.filter P := by
  have hrange : l = (List.range xs.length).filter fun i => xs[i]?.any P := by
    refine eq_of_pairwise_of_mem_iff hl (List.pairwise_lt_range.filter _) fun i => ?_
    rw [h, List.mem_filter, List.mem_range]
    constructor
    · rintro ⟨x, hx, hp⟩
      exact ⟨(List.getElem?_eq_some_iff.1 hx).1, by simpa [hx] using hp⟩
    · rintro ⟨hlt, hp⟩
      exact ⟨xs[i], List.getElem?_eq_getElem hlt, by simpa [hlt] using hp⟩
  rw [hrange]
  exact filterMap_getElem?_range

end Select

/-! ### What is accepted at an element -/

/-- What a state accepts for the element itself, or for its pseudo-elements. -/
def acceptedAt (nfa : Nfa) (pseudo : Option PseudoElement) (q : StateId) : List DeclarationId :=
  match pseudo with
  | none => (nfa.state q).declarations
  | some _ => (nfa.state q).pseudoDeclarations

theorem mem_acceptedAt_build {b : Nfa.Builder} {pseudo : Option PseudoElement} {q : StateId}
    {i : DeclarationId} : i ∈ acceptedAt b.build pseudo q ↔
      q < b.size ∧ ⟨q, i, pseudo.isSome⟩ ∈ b.acceptances := by
  have hmem : ∀ (l : List Nfa.Acceptance) (flag : Bool),
      i ∈ (l.filter fun a => a.state = q ∧ a.pseudo = flag).map (·.declaration) ↔
        ⟨q, i, flag⟩ ∈ l := by
    intro l flag
    simp only [List.mem_map, List.mem_filter, decide_eq_true_eq]
    constructor
    · rintro ⟨⟨_, _, _⟩, ⟨h, rfl, rfl⟩, rfl⟩
      exact h
    · intro h
      exact ⟨_, ⟨h, rfl, rfl⟩, rfl⟩
  by_cases hq : q < b.size
  · rw [and_iff_right hq, ← hmem]
    cases pseudo with
    | none =>
      rw [acceptedAt, Nfa.Builder.state_build hq]
      simp [Nfa.Builder.state]
    | some pseudo =>
      rw [acceptedAt, Nfa.Builder.state_build hq]
      simp [Nfa.Builder.state]
  · have hstate := Nfa.Builder.state_build_of_not_lt hq
    cases pseudo with
    | none => simp [acceptedAt, hstate, hq]
    | some pseudo => simp [acceptedAt, hstate, hq]

section Matching

variable {rules : List Rule} {config : Config} {p : Place} {pseudo : Option PseudoElement}

/-- The declarations of the rules that match an element, for the element itself or for
one of its pseudo-elements, in the order of the rules. -/
def matching (config : Config) (rules : List Rule) (p : Place) (pseudo : Option PseudoElement) :
    List Declaration :=
  (rules.filter fun rule => rule.selector.isSupported ∧ rule.selector.Matches config p ∧
    rule.declaration.pseudoElement = pseudo).map (·.declaration)

/-- **A number is accepted at an element** if its rule matches. -/
theorem mem_accepted_liveAt {i : DeclarationId} :
    i ∈ (Automaton.compileNfa rules).accepted
        (Matcher.liveAt (.compileNfa rules) config p) pseudo ↔
      ∃ rule, (understood rules)[i]? = some rule ∧
        rule.selector.Matches config p ∧ rule.isPseudo = pseudo.isSome := by
  obtain ⟨haccepts, -⟩ := accepts_foldl_add rules
  have flow : Flow config (Automaton.compileNfa rules).labels _ _ _ :=
    Matcher.flow_matcher haccepts.settled.wellFormed rfl
  have haccepted : i ∈ (Automaton.compileNfa rules).accepted
      (Matcher.liveAt (.compileNfa rules) config p) pseudo ↔
        ∃ q ∈ Matcher.liveAt (.compileNfa rules) config p,
          i ∈ acceptedAt (Automaton.compileNfa rules).machine pseudo q := by
    cases pseudo <;> exact mem_ascending.trans List.mem_flatMap
  rw [haccepted]
  constructor
  · rintro ⟨q, hq, hi⟩
    obtain ⟨-, ha⟩ := mem_acceptedAt_build.1 hi
    obtain ⟨rule, hget, hpseudo, hcarries⟩ := haccepts.sound _ ha
    exact ⟨rule, hget, (hcarries.live_exit_iff_matches flow p).1 hq, hpseudo.symm⟩
  · rintro ⟨rule, hget, hmatches, hpseudo⟩
    have hlt := (List.getElem?_eq_some_iff.1 hget).1
    obtain ⟨⟨q, j, flag⟩, ha, rfl⟩ := haccepts.complete i hlt
    obtain ⟨rule', hget', hflag, hcarries⟩ := haccepts.sound _ ha
    obtain rfl : rule' = rule := Option.some.inj (hget'.symm.trans hget)
    refine ⟨q, (hcarries.live_exit_iff_matches flow p).2 hmatches,
      mem_acceptedAt_build.2 ⟨hcarries.exit_lt, ?_⟩⟩
    rw [← hpseudo, ← hflag]
    exact ha

/-- **The numbers accepted at an element pick the rules that match it**, out of any list of
things with rules. -/
theorem filter_filterMap_accepted {β : Type} (rule : β → Rule) (xs : List β) :
    (((Automaton.compileNfa (xs.map rule)).accepted
        (Matcher.liveAt (.compileNfa (xs.map rule)) config p) pseudo).filterMap
      ((xs.filter fun x => (rule x).selector.isSupported)[·]?)).filter
        (fun x => (rule x).declaration.pseudoElement = pseudo) =
      xs.filter fun x => (rule x).selector.isSupported ∧ (rule x).selector.Matches config p ∧
        (rule x).declaration.pseudoElement = pseudo := by
  have hunderstood : understood (xs.map rule) =
      (xs.filter fun x => (rule x).selector.isSupported).map rule := List.filter_map
  have hmem : ∀ i, i ∈ (Automaton.compileNfa (xs.map rule)).accepted
      (Matcher.liveAt (.compileNfa (xs.map rule)) config p) pseudo ↔
        ∃ x, (xs.filter fun x => (rule x).selector.isSupported)[i]? = some x ∧
          decide ((rule x).selector.Matches config p ∧ (rule x).isPseudo = pseudo.isSome) := by
    intro i
    rw [mem_accepted_liveAt, hunderstood]
    simp only [List.getElem?_map, Option.map_eq_some_iff, decide_eq_true_eq]
    constructor
    · rintro ⟨_, ⟨x, hx, rfl⟩, h⟩
      exact ⟨x, hx, h⟩
    · rintro ⟨x, hx, h⟩
      exact ⟨_, ⟨x, hx, rfl⟩, h⟩
  rw [filterMap_getElem?_eq_filter (Automaton.pairwise_accepted _ _ _) hmem]
  rw [List.filter_filter, List.filter_filter]
  refine List.filter_congr fun x _ => ?_
  rw [Bool.eq_iff_iff]
  simp only [Bool.and_eq_true, decide_eq_true_eq]
  constructor
  · rintro ⟨⟨hpseudo, hmatches, -⟩, hsupported⟩
    exact ⟨hsupported, hmatches, hpseudo⟩
  · rintro ⟨hsupported, hmatches, rfl⟩
    exact ⟨⟨rfl, hmatches, rfl⟩, hsupported⟩

/-- **The declarations collected at an element** are those of the rules that match it. -/
theorem collect_liveAt : (Automaton.compileNfa rules).collect
    (Matcher.liveAt (.compileNfa rules) config p) pseudo =
      cascadeSort (matching config rules p pseudo) := by
  have hdeclarations : (Automaton.compileNfa rules).declarations =
      (understood rules).map (·.declaration) := (accepts_foldl_add rules).2
  have hpick := @filter_filterMap_accepted config p pseudo Rule id rules
  rw [List.map_id] at hpick
  simp only [Automaton.collect_eq_accepted, hdeclarations, List.getElem?_map,
    ← List.map_filterMap, List.filter_map]
  exact congrArg (fun l => cascadeSort (l.map (·.declaration))) hpick

end Matching

/-! ### Streams -/

namespace Matcher

/-- The declarations for the current element of a stream, or for one of its
pseudo-elements. -/
theorem declarationsFor_run (rules : List Rule) (config : Config) (events : List StreamEvent)
    (pseudo : Option PseudoElement) :
    ((new (.compile rules) config).run events).declarationsFor pseudo =
      (Reading.of events).answer (queryFor pseudo) fun p =>
        cascadeSort (matching config rules p pseudo) := by
  have hautomaton : ((new (.compile rules) config).run events).automaton =
      (Automaton.compileNfa rules).determinize := automaton_run _ _
  rw [← declarationsFor_expand hautomaton, Automaton.compile, ← run_expand, run_new,
    declarationsFor_of]
  simp only [collect_liveAt]

theorem declarations_run (rules : List Rule) (config : Config) (events : List StreamEvent) :
    ((new (.compile rules) config).run events).declarations =
      (Reading.of events).answer .declarations fun p =>
        cascadeSort (matching config rules p none) :=
  declarationsFor_run rules config events none

theorem pseudoDeclarations_run (rules : List Rule) (config : Config) (events : List StreamEvent)
    (pseudo : PseudoElement) :
    ((new (.compile rules) config).run events).pseudoDeclarations pseudo =
      (Reading.of events).answer .pseudoDeclarations fun p =>
        cascadeSort (matching config rules p (some pseudo)) :=
  declarationsFor_run rules config events (some pseudo)

/-- **Streams are matched soundly and completely.** After any stream of events, the
current element has the declarations of exactly those rules that are understood and
match it in the forest read since the last reset: those without a pseudo-element among its
own, and those with one among the declarations for that pseudo-element. Putting them in
cascade order neither drops nor repeats one, so each rule contributes once. -/
theorem run_compile_sound_and_complete (rules : List Rule) (config : Config)
    (events : List StreamEvent) :
    ((new (.compile rules) config).run events).declarations =
        (Reading.of events).answer .declarations (fun p =>
          cascadeSort (matching config rules p none)) ∧
      (∀ pseudo, ((new (.compile rules) config).run events).pseudoDeclarations pseudo =
        (Reading.of events).answer .pseudoDeclarations fun p =>
          cascadeSort (matching config rules p (some pseudo))) ∧
      ∀ p pseudo, (cascadeSort (matching config rules p pseudo)).Perm
        (matching config rules p pseudo) :=
  ⟨declarations_run rules config events, pseudoDeclarations_run rules config events,
    fun p pseudo => perm_cascadeSort (matching config rules p pseudo)⟩

end Matcher

end StyleStream
