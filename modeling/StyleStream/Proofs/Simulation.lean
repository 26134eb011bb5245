/-
  The deterministic automaton follows the nondeterministic one.

  A live set of deterministic states stands for a set of nondeterministic ones:
  the union of the subsets of its members, `Dfa.cover`. Each operation of a
  matcher commutes with `cover`: the initial states, reading a label, and the
  closure under guarded edges, which may fire again and again within one element.
  So a matcher on the deterministic automaton, with every live set replaced by its
  cover, *is* the matcher on the nondeterministic automaton (`run_expand`), and
  the two give the same answers.
-/
import Mathlib.Data.List.Basic
import StyleStream.Proofs.Frames
import StyleStream.Proofs.Subsets

namespace StyleStream

/-! ### Single states -/

namespace Dfa

variable {nfa : Nfa} {subset : List StateId} {label : Label} {condition : ConditionId}
  {id target q : StateId}

/-- The state reached from the state of a set stands for what the set reads. -/
theorem step?_ofNfa (h : nfa.subsets[id]? = some subset) :
    (ofNfa nfa).step? id label = some target ↔
      label ∈ nfa.labelsOf subset ∧ nfa.subsets.idxOf (nfa.step subset label) = target := by
  simp only [step?, state_ofNfa h, State.ofSubset]
  constructor
  · intro hlookup
    obtain ⟨before, behind, hsplit, -⟩ := List.lookup_eq_some_iff.1 hlookup
    have hmem : (label, target) ∈ (nfa.labelsOf subset).map fun label =>
        (label, nfa.subsets.idxOf (nfa.step subset label)) := by
      rw [hsplit]
      exact List.mem_append_right _ List.mem_cons_self
    obtain ⟨l, hl, h⟩ := List.mem_map.1 hmem
    obtain ⟨rfl, rfl⟩ := Prod.mk.inj h
    exact ⟨hl, rfl⟩
  · rintro ⟨hlabel, rfl⟩
    exact List.lookup_graph _ hlabel

/-- A guarded edge out of the state of a set leads to what lies behind its condition. -/
theorem mem_conditions_ofNfa (h : nfa.subsets[id]? = some subset) :
    (condition, target) ∈ ((ofNfa nfa).state id).conditions ↔
      condition ∈ nfa.conditionsOf subset ∧
        nfa.subsets.idxOf (nfa.pass subset condition) = target := by
  rw [state_ofNfa h, State.ofSubset]
  simp only [List.mem_map, Prod.mk.injEq]
  constructor
  · rintro ⟨c, hc, rfl, rfl⟩
    exact ⟨hc, rfl⟩
  · rintro ⟨hc, rfl⟩
    exact ⟨condition, hc, rfl, rfl⟩

/-- The state numbered for a label stands for the set read under the label. -/
theorem subset_idxOf_step (hid : nfa.subsets[id]? = some subset)
    (hlabel : label ∈ nfa.labelsOf subset) :
    ((ofNfa nfa).state (nfa.subsets.idxOf (nfa.step subset label))).subset =
      nfa.step subset label := by
  have hmem : nfa.step subset label ∈ nfa.subsets :=
    Nfa.successor_mem_subsets (List.mem_of_getElem? hid)
      (List.mem_append_left _ (List.mem_map_of_mem hlabel))
  rw [state_ofNfa (getElem?_idxOf hmem), State.ofSubset]

/-- The state numbered for a condition stands for the set behind the condition. -/
theorem subset_idxOf_pass (hid : nfa.subsets[id]? = some subset)
    (hcondition : condition ∈ nfa.conditionsOf subset) :
    ((ofNfa nfa).state (nfa.subsets.idxOf (nfa.pass subset condition))).subset =
      nfa.pass subset condition := by
  have hmem : nfa.pass subset condition ∈ nfa.subsets :=
    Nfa.successor_mem_subsets (List.mem_of_getElem? hid)
      (List.mem_append_right _ (List.mem_map_of_mem hcondition))
  rw [state_ofNfa (getElem?_idxOf hmem), State.ofSubset]

/-! ### Covers -/

/-- The states of the nondeterministic automaton that a list of states stands for. -/
def cover (dfa : Dfa) (live : List StateId) : List StateId :=
  ascending (live.flatMap fun id => (dfa.state id).subset)

theorem mem_cover {dfa : Dfa} {live : List StateId} :
    q ∈ dfa.cover live ↔ ∃ id ∈ live, q ∈ (dfa.state id).subset := by
  rw [cover, mem_ascending, List.mem_flatMap]

theorem pairwise_cover {dfa : Dfa} {live : List StateId} : (dfa.cover live).Pairwise (· < ·) :=
  pairwise_ascending _

/-- A cover depends on nothing but the members of the list. -/
theorem cover_congr {dfa : Dfa} {live live' : List StateId} (h : ∀ id, id ∈ live ↔ id ∈ live') :
    dfa.cover live = dfa.cover live' := by
  refine eq_of_pairwise_of_mem_iff pairwise_cover pairwise_cover fun q => ?_
  simp only [mem_cover, h]

@[simp] theorem cover_ascending {dfa : Dfa} {live : List StateId} :
    dfa.cover (ascending live) = dfa.cover live :=
  cover_congr fun _ => mem_ascending

/-- **Before anything is read** both automata are in the same states. -/
theorem cover_initial (nfa : Nfa) :
    (ofNfa nfa).cover (Machine.initial (ofNfa nfa)) = Machine.initial nfa := by
  refine eq_of_pairwise_of_mem_iff pairwise_cover Nfa.pairwise_closure fun q => ?_
  have hstart := state_ofNfa (Nfa.getElem?_subsets_zero nfa)
  simp only [mem_cover, Machine.initial, List.mem_singleton, exists_eq_left, start, hstart]
  rfl

/-- **Reading a label** leads both automata to the same states. -/
theorem cover_step (nfa : Nfa) (live : List StateId) (label : Label) :
    (ofNfa nfa).cover (Machine.step (ofNfa nfa) live label) =
      Machine.step nfa ((ofNfa nfa).cover live) label := by
  refine eq_of_pairwise_of_mem_iff pairwise_cover Nfa.pairwise_closure fun q => ?_
  simp only [mem_cover, Machine.step, List.mem_filterMap, Nfa.mem_step]
  constructor
  · rintro ⟨target, ⟨id, hid, hstep⟩, hq⟩
    -- A number that no set has leads nowhere.
    cases hsubset : nfa.subsets[id]? with
    | none =>
      rw [step?, state_ofNfa_of_none hsubset] at hstep
      cases hstep
    | some subset =>
      obtain ⟨hlabel, rfl⟩ := (step?_ofNfa hsubset).1 hstep
      rw [subset_idxOf_step hsubset hlabel] at hq
      obtain ⟨r, hr, t, ht, hq⟩ := Nfa.mem_step.1 hq
      exact ⟨r, ⟨id, hid, by rw [state_ofNfa hsubset]; exact hr⟩, t, ht, hq⟩
  · rintro ⟨r, ⟨id, hid, hr⟩, t, ht, hq⟩
    have hsubset := getElem?_of_mem_subset hr
    have hlabel := Nfa.mem_labelsOf.2 ⟨r, hr, t, ht⟩
    refine ⟨_, ⟨id, hid, (step?_ofNfa hsubset).2 ⟨hlabel, rfl⟩⟩, ?_⟩
    rw [subset_idxOf_step hsubset hlabel]
    exact Nfa.mem_step.2 ⟨r, hr, t, ht, hq⟩

end Dfa

/-! ### Guarded edges -/

/-- A verdict is found under the number of its condition. -/
theorem Labels.getD_verdicts {labels : Labels} {context : Context} {id : ConditionId} :
    (labels.conditions.map context.holds).toArray.getD id false ↔
      ∃ condition, labels.conditions[id]? = some condition ∧ context.holds condition := by
  simp only [Array.getD_eq_getD_getElem?, List.getElem?_toArray, List.getElem?_map]
  cases labels.conditions[id]? with
  | none => simp
  | some condition => simp

namespace Machine

variable {nfa : Nfa} {holds : ConditionId → Bool} {id target p q : StateId}

theorem mem_fire {M : Type} [Machine M] {m : M} :
    p ∈ fire m holds q ↔ ∃ guarded ∈ guards m q, holds guarded.1 ∧ p ∈ guarded.2 := by
  simp only [fire, List.mem_flatMap, List.mem_filter, and_assoc]

/-- Behind the guards of a nondeterministic state lie the closures of their targets. -/
theorem mem_fire_nfa : p ∈ fire nfa holds q ↔
    ∃ condition t, t ∈ (nfa.state q).targets (.guard condition) ∧ holds condition ∧
      p ∈ nfa.closure [t] := by
  simp only [mem_fire, guards, List.mem_filterMap, Option.map_eq_some_iff, Nfa.State.mem_targets]
  constructor
  · rintro ⟨_, ⟨⟨event, t⟩, hedge, condition, hcondition, rfl⟩, hholds, hp⟩
    cases event <;> simp only [Event.condition?, Option.some.injEq, reduceCtorEq] at hcondition
    exact ⟨condition, t, hcondition ▸ hedge, hholds, hp⟩
  · rintro ⟨condition, t, hedge, hholds, hp⟩
    exact ⟨_, ⟨_, hedge, condition, rfl, rfl⟩, hholds, hp⟩

theorem mem_fire_dfa {dfa : Dfa} : target ∈ fire dfa holds id ↔
    ∃ condition, (condition, target) ∈ (dfa.state id).conditions ∧ holds condition := by
  simp only [mem_fire, guards, List.mem_map]
  constructor
  · rintro ⟨_, ⟨⟨condition, t⟩, hedge, rfl⟩, hholds, htarget⟩
    rw [List.mem_singleton.1 htarget]
    exact ⟨condition, hedge, hholds⟩
  · rintro ⟨condition, hedge, hholds⟩
    exact ⟨_, ⟨_, hedge, rfl⟩, hholds, List.mem_singleton_self _⟩

/-- A guard of a deterministic state leads to states that lie behind a guard of a
member of its subset. -/
theorem exists_fire_nfa_of_fire_dfa (h : target ∈ fire (Dfa.ofNfa nfa) holds id)
    (hp : p ∈ ((Dfa.ofNfa nfa).state target).subset) :
    ∃ q ∈ ((Dfa.ofNfa nfa).state id).subset, p ∈ fire nfa holds q := by
  obtain ⟨condition, hedge, hholds⟩ := mem_fire_dfa.1 h
  cases hsubset : nfa.subsets[id]? with
  | none =>
    rw [Dfa.state_ofNfa_of_none hsubset] at hedge
    simp [Dfa.State.empty] at hedge
  | some subset =>
    obtain ⟨hcondition, rfl⟩ := (Dfa.mem_conditions_ofNfa hsubset).1 hedge
    rw [Dfa.subset_idxOf_pass hsubset hcondition] at hp
    obtain ⟨q, hq, t, ht, hp⟩ := Nfa.mem_pass.1 hp
    refine ⟨q, ?_, mem_fire_nfa.2 ⟨condition, t, ht, hholds, hp⟩⟩
    rw [Dfa.state_ofNfa hsubset]
    exact hq

/-- What lies behind a guard of a member of a subset lies behind a guard of the
state for the subset. -/
theorem exists_fire_dfa_of_fire_nfa (hq : q ∈ ((Dfa.ofNfa nfa).state id).subset)
    (h : p ∈ fire nfa holds q) :
    ∃ target ∈ fire (Dfa.ofNfa nfa) holds id, target < (Dfa.ofNfa nfa).size ∧
      p ∈ ((Dfa.ofNfa nfa).state target).subset := by
  obtain ⟨condition, t, ht, hholds, hp⟩ := mem_fire_nfa.1 h
  have hsubset := Dfa.getElem?_of_mem_subset hq
  have hcondition := Nfa.mem_conditionsOf.2 ⟨q, hq, t, ht⟩
  have hedge := (Dfa.mem_conditions_ofNfa hsubset).2 ⟨hcondition, rfl⟩
  have hmem := Dfa.subset_idxOf_pass hsubset hcondition ▸ Nfa.mem_pass.2 ⟨q, hq, t, ht, hp⟩
  exact ⟨_, mem_fire_dfa.2 ⟨condition, hedge, hholds⟩, Dfa.lt_size_of_mem_subset hmem, hmem⟩

/-- **Condition closure** leads both automata to the same states, however often
guards fire in a row. -/
theorem cover_reach (nfa : Nfa) (holds : ConditionId → Bool) (live : List StateId) :
    (Dfa.ofNfa nfa).cover (reach (size (Dfa.ofNfa nfa)) (fire (Dfa.ofNfa nfa) holds) live) =
      reach (size nfa) (fire nfa holds) ((Dfa.ofNfa nfa).cover live) := by
  refine eq_of_pairwise_of_mem_iff Dfa.pairwise_cover pairwise_reach fun q => ?_
  simp only [Dfa.mem_cover, mem_reach]
  constructor
  · rintro ⟨id, hid, hq⟩
    -- A walk over sets is followed backwards, from a member of the last set to the seeds.
    induction hid generalizing q with
    | seed hid _ => exact .seed (Dfa.mem_cover.2 ⟨_, hid, hq⟩) (Nfa.lt_size_of_mem_subset hq)
    | step _ hfire _ ih =>
      obtain ⟨r, hr, hq'⟩ := exists_fire_nfa_of_fire_dfa hfire hq
      exact .step (ih r hr) hq' (Nfa.lt_size_of_mem_subset hq)
  · intro h
    -- A walk over states is followed forwards, and a set goes along with it.
    induction h with
    | seed hq _ =>
      obtain ⟨id, hid, hq⟩ := Dfa.mem_cover.1 hq
      exact ⟨id, .seed hid (Dfa.lt_size_of_mem_subset hq), hq⟩
    | step _ hfire _ ih =>
      obtain ⟨id, hid, hr⟩ := ih
      obtain ⟨target, htarget, hlt, hq⟩ := exists_fire_dfa_of_fire_nfa hr hfire
      exact ⟨target, .step hid htarget hlt, hq⟩

end Machine

/-! ### Matchers -/

/-- A frame with the sets of states that its live sets stand for. -/
def Frame.expand (dfa : Dfa) (frame : Frame) : Frame :=
  { frame with live := dfa.cover frame.live, lastChild := frame.lastChild.map dfa.cover }

namespace Matcher

/-- The matcher on the nondeterministic automaton that a matcher on the
deterministic one stands for. -/
def expand (a : Automaton Nfa) (m : Matcher Dfa) : Matcher Nfa where
  automaton := a
  config := m.config
  document := m.document.expand (.ofNfa a.machine)
  stack := m.stack.map (Frame.expand (.ofNfa a.machine))

variable {a : Automaton Nfa} {m : Matcher Dfa} {around : Frame} {element : Element}

theorem cover_seeds (nfa : Nfa) (around : Frame) :
    (Dfa.ofNfa nfa).cover (seeds (Dfa.ofNfa nfa) around) =
      seeds nfa (around.expand (Dfa.ofNfa nfa)) := by
  refine eq_of_pairwise_of_mem_iff Dfa.pairwise_cover (pairwise_ascending _) fun q => ?_
  obtain ⟨language, position, children, live, lastChild⟩ := around
  simp only [seeds, Frame.expand, Dfa.cover_ascending, mem_ascending, List.mem_append,
    ← Dfa.cover_initial]
  cases lastChild with
  | none => simp [Dfa.mem_cover, or_and_right, exists_or]
  | some previous =>
    simp only [Dfa.mem_cover, List.mem_append, Option.map_some, or_and_right, exists_or,
      ← Dfa.cover_step]

theorem cover_read (a : Automaton Nfa) (element : Element) (seeds : List StateId) :
    (Dfa.ofNfa a.machine).cover (read a.determinize element seeds) =
      read a element ((Dfa.ofNfa a.machine).cover seeds) := by
  refine eq_of_pairwise_of_mem_iff Dfa.pairwise_cover (pairwise_ascending _) fun q => ?_
  simp only [read, Dfa.cover_ascending, mem_ascending, List.mem_flatMap, ← Dfa.cover_step,
    Dfa.mem_cover, Automaton.determinize]
  constructor
  · rintro ⟨id, ⟨symbol, hsymbol, hid⟩, hq⟩
    exact ⟨symbol, hsymbol, id, hid, hq⟩
  · rintro ⟨symbol, hsymbol, id, hid, hq⟩
    exact ⟨id, ⟨symbol, hsymbol, hid⟩, hq⟩

/-- **An element starts** alike on both automata. -/
theorem frameOf_expand : frameOf a (around.expand (.ofNfa a.machine)) element =
    (frameOf a.determinize around element).expand (.ofNfa a.machine) := by
  have hlive : settle a (context around element) (read a element
      (seeds a.machine (around.expand (.ofNfa a.machine)))) =
        (Dfa.ofNfa a.machine).cover (settle a.determinize (context around element)
          (read a.determinize element (seeds (Dfa.ofNfa a.machine) around))) := by
    rw [← cover_seeds, ← cover_read]
    exact (Machine.cover_reach a.machine _ _).symm
  have hframe : frameOf a (around.expand (.ofNfa a.machine)) element =
      { language := (context around element).language
        position := (context around element).position
        live := settle a (context around element) (read a element
          (seeds a.machine (around.expand (.ofNfa a.machine)))) } := rfl
  rw [hframe, hlive]
  rfl

theorem enclosing_expand :
    (m.expand a).enclosing = m.enclosing.expand (.ofNfa a.machine) := by
  obtain ⟨automaton, config, document, stack⟩ := m
  cases stack <;> rfl

theorem start_expand (h : m.automaton = a.determinize) :
    (m.expand a).start element = (m.start element).expand a := by
  have hframe : frameOf a (m.expand a).enclosing element =
      (frameOf m.automaton m.enclosing element).expand (.ofNfa a.machine) := by
    rw [enclosing_expand, frameOf_expand, h]
  have hautomaton : (m.expand a).automaton = a := rfl
  simp only [start, hautomaton, hframe]
  obtain ⟨automaton, config, document, stack⟩ := m
  cases stack <;> rfl

theorem finish_expand : (m.expand a).finish = m.finish.map (expand a) := by
  obtain ⟨automaton, config, document, stack⟩ := m
  match stack with
  | [] => rfl
  | [_] => rfl
  | _ :: _ :: _ => rfl

/-- **One event** has the same effect on both automata, and is refused by both or
by neither. -/
theorem respond_expand (h : m.automaton = a.determinize) (event : StreamEvent) :
    (m.expand a).respond event = (m.respond event).map (expand a) := by
  cases event with
  | starts element => exact congrArg Except.ok (start_expand h)
  | ends => exact finish_expand
  | reset => rfl

theorem automaton_advance {M : Type} [Machine M] (m : Matcher M) (event : StreamEvent) :
    (m.advance event).automaton = m.automaton := by
  obtain ⟨automaton, config, document, stack⟩ := m
  cases event with
  | starts element => cases stack <;> rfl
  | ends =>
    match stack with
    | [] => rfl
    | [_] => rfl
    | _ :: _ :: _ => rfl
  | reset => rfl

theorem advance_expand (h : m.automaton = a.determinize) (event : StreamEvent) :
    (m.expand a).advance event = (m.advance event).expand a := by
  rw [advance, advance, respond_expand h]
  cases m.respond event <;> rfl

/-- **Whole runs agree**: the matcher on the nondeterministic automaton is what the
matcher on the deterministic one stands for. -/
theorem run_expand (a : Automaton Nfa) (config : Config) (events : List StreamEvent) :
    (new a config).run events = ((new a.determinize config).run events).expand a := by
  have key : ∀ (events : List StreamEvent) (m : Matcher Dfa), m.automaton = a.determinize →
      (m.expand a).run events = (m.run events).expand a := by
    intro events
    induction events with
    | nil => intro m _; rfl
    | cons event events ih =>
      intro m h
      have hautomaton : (m.advance event).automaton = a.determinize := by
        rw [automaton_advance, h]
      rw [run_cons, advance_expand h, ih _ hautomaton, run_cons]
  exact key events (new a.determinize config) rfl

end Matcher

/-! ### Answers -/

namespace Machine

variable {nfa : Nfa} {id : StateId} {declaration : DeclarationId}

/-- A deterministic state accepts what the members of its subset accept. -/
theorem mem_declarations_ofNfa : declaration ∈ declarations (Dfa.ofNfa nfa) id ↔
    ∃ q ∈ ((Dfa.ofNfa nfa).state id).subset, declaration ∈ declarations nfa q := by
  cases hsubset : nfa.subsets[id]? with
  | none => simp [declarations, Dfa.state_ofNfa_of_none hsubset, Dfa.State.empty]
  | some subset => simp [declarations, Dfa.state_ofNfa hsubset, Dfa.State.ofSubset]

theorem mem_pseudoDeclarations_ofNfa : declaration ∈ pseudoDeclarations (Dfa.ofNfa nfa) id ↔
    ∃ q ∈ ((Dfa.ofNfa nfa).state id).subset, declaration ∈ pseudoDeclarations nfa q := by
  cases hsubset : nfa.subsets[id]? with
  | none => simp [pseudoDeclarations, Dfa.state_ofNfa_of_none hsubset, Dfa.State.empty]
  | some subset => simp [pseudoDeclarations, Dfa.state_ofNfa hsubset, Dfa.State.ofSubset]

end Machine

namespace Automaton

/-- The numbers of the declarations that a set of live states accepts, in ascending order. -/
def accepted {M : Type} [Machine M] (a : Automaton M) (live : List StateId)
    (pseudo : Option PseudoElement) : List DeclarationId :=
  ascending <| live.flatMap <|
    match pseudo with
    | none => Machine.declarations a.machine
    | some _ => Machine.pseudoDeclarations a.machine

theorem pairwise_accepted {M : Type} [Machine M] (a : Automaton M) (live : List StateId)
    (pseudo : Option PseudoElement) : (a.accepted live pseudo).Pairwise (· < ·) :=
  pairwise_ascending _

/-- What is collected are the declarations with the accepted numbers. -/
theorem collect_eq_accepted {M : Type} [Machine M] (a : Automaton M) (live : List StateId)
    (pseudo : Option PseudoElement) : a.collect live pseudo =
      cascadeSort (((a.accepted live pseudo).filterMap (a.declarations[·]?)).filter
        (·.pseudoElement = pseudo)) := rfl

/-- **Both automata accept the same declarations.** -/
theorem accepted_cover (a : Automaton Nfa) (live : List StateId) (pseudo : Option PseudoElement) :
    a.accepted ((Dfa.ofNfa a.machine).cover live) pseudo = a.determinize.accepted live pseudo := by
  -- Numbers are sorted and made unique, so it is enough that the same ones are accepted.
  have hids : ∀ (f : StateId → List DeclarationId) (g : StateId → List DeclarationId),
      (∀ id declaration, declaration ∈ g id ↔
        ∃ q ∈ ((Dfa.ofNfa a.machine).state id).subset, declaration ∈ f q) →
      ascending (((Dfa.ofNfa a.machine).cover live).flatMap f) = ascending (live.flatMap g) := by
    intro f g h
    refine eq_of_pairwise_of_mem_iff (pairwise_ascending _) (pairwise_ascending _) fun d => ?_
    simp only [mem_ascending, List.mem_flatMap, Dfa.mem_cover, h]
    constructor
    · rintro ⟨q, ⟨id, hid, hq⟩, hd⟩
      exact ⟨id, hid, q, hq, hd⟩
    · rintro ⟨id, hid, q, hq, hd⟩
      exact ⟨q, ⟨id, hid, hq⟩, hd⟩
  cases pseudo with
  | none => exact hids _ _ fun _ _ => Machine.mem_declarations_ofNfa
  | some pseudo => exact hids _ _ fun _ _ => Machine.mem_pseudoDeclarations_ofNfa

theorem collect_cover (a : Automaton Nfa) (live : List StateId) (pseudo : Option PseudoElement) :
    a.collect ((Dfa.ofNfa a.machine).cover live) pseudo = a.determinize.collect live pseudo := by
  rw [collect_eq_accepted, accepted_cover, collect_eq_accepted]
  rfl

end Automaton

namespace Matcher

variable {a : Automaton Nfa} {m : Matcher Dfa}

theorem current_expand (query : Query) :
    (m.expand a).current query = (m.current query).map (Frame.expand (.ofNfa a.machine)) := by
  obtain ⟨automaton, config, document, stack⟩ := m
  cases stack <;> rfl

theorem map_current_expand {β : Type} (query : Query) (f : List StateId → β) :
    ((m.expand a).current query).map (fun frame => f frame.live) =
      (m.current query).map fun frame => f ((Dfa.ofNfa a.machine).cover frame.live) := by
  rw [current_expand]
  cases m.current query <;> rfl

theorem declarationsFor_expand (h : m.automaton = a.determinize) (pseudo : Option PseudoElement) :
    (m.expand a).declarationsFor pseudo = m.declarationsFor pseudo := by
  have hautomaton : (m.expand a).automaton = a := rfl
  rw [declarationsFor_eq_map, declarationsFor_eq_map, hautomaton, h,
    map_current_expand (queryFor pseudo) (a.collect · pseudo)]
  simp only [Automaton.collect_cover]

theorem declarations_expand (h : m.automaton = a.determinize) :
    (m.expand a).declarations = m.declarations :=
  declarationsFor_expand h none

theorem pseudoDeclarations_expand (h : m.automaton = a.determinize) (pseudo : PseudoElement) :
    (m.expand a).pseudoDeclarations pseudo = m.pseudoDeclarations pseudo :=
  declarationsFor_expand h (some pseudo)

theorem computed_expand (h : m.automaton = a.determinize) :
    (m.expand a).computed = m.computed := by
  rw [computed, declarations_expand h, computed]

theorem language_expand : (m.expand a).language = m.language := by
  rw [language, current_expand, language]
  cases m.current .language <;> rfl

theorem position_expand : (m.expand a).position = m.position := by
  rw [position, current_expand, position]
  cases m.current .position <;> rfl

theorem depth_expand : (m.expand a).depth = m.depth :=
  List.length_map _

theorem liveStates_expand :
    (m.expand a).liveStates = m.liveStates.map (Dfa.cover (.ofNfa a.machine)) := by
  rw [liveStates, current_expand, liveStates]
  cases m.current .liveStates <;> rfl

theorem automaton_run {M : Type} [Machine M] (m : Matcher M) (events : List StreamEvent) :
    (m.run events).automaton = m.automaton := by
  induction events generalizing m with
  | nil => rfl
  | cons event events ih => rw [run_cons, ih, automaton_advance]

/-- **Deterministic and nondeterministic matchers agree.** After any stream of
events the matchers on the two automata for the same rules give the same answer to
every question, errors included; they refuse the same events; and the live states of the
nondeterministic automaton are the union of the subsets of the live states of the
deterministic one. -/
theorem run_compile_agrees_with_run_compileNfa (rules : List Rule) (config : Config)
    (events : List StreamEvent) :
    let dfa := (new (.compile rules) config).run events
    let nfa := (new (.compileNfa rules) config).run events
    dfa.declarations = nfa.declarations ∧
      (∀ pseudo, dfa.pseudoDeclarations pseudo = nfa.pseudoDeclarations pseudo) ∧
      dfa.computed = nfa.computed ∧
      dfa.language = nfa.language ∧
      dfa.position = nfa.position ∧
      dfa.depth = nfa.depth ∧
      (∀ event, (dfa.respond event).map (fun _ => ()) = (nfa.respond event).map fun _ => ()) ∧
      dfa.liveStates.map (Dfa.cover (Automaton.compile rules).machine) = nfa.liveStates := by
  intro dfa nfa
  have hautomaton : dfa.automaton = (Automaton.compileNfa rules).determinize := automaton_run _ _
  have hnfa : nfa = dfa.expand (.compileNfa rules) := run_expand _ _ _
  rw [hnfa]
  refine ⟨(declarations_expand hautomaton).symm,
    fun pseudo => (pseudoDeclarations_expand hautomaton pseudo).symm,
    (computed_expand hautomaton).symm, language_expand.symm, position_expand.symm,
    depth_expand.symm, fun event => ?_, liveStates_expand.symm⟩
  rw [respond_expand hautomaton]
  cases dfa.respond event <;> rfl

end Matcher

end StyleStream
