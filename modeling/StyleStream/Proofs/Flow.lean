/-
  Which states are live, edge by edge.

  For an element of a document there are two sets of states: those from which it is
  read (`ahead`) and those that are live once it has been read (`live`). `Flow`
  says that both sets are balanced: a state is in one of them exactly if an edge
  into it, or the way the document runs on, brings it there. `flow_matcher` shows
  this of the frames of a matcher on a nondeterministic automaton. What remains
  is a matter of edges: where a single edge leads to a state, the state is live
  exactly where that edge can be taken (`Sole`).
-/
import StyleStream.Proofs.Growth
import StyleStream.Proofs.Simulation

namespace StyleStream

open Nfa (Link)

/-- An element is read under the name label with a number. -/
def Labels.Fires (labels : Labels) (p : Place) (symbol : Symbol) : Prop :=
  symbol ∈ labels.elementSymbols p.element.ns p.element.localName

/-- The condition with a number holds for an element. -/
def Labels.Passes (labels : Labels) (config : Config) (p : Place) (id : ConditionId) : Prop :=
  ∃ condition, labels.conditions[id]? = some condition ∧ (p.context config).holds condition

/-- A label keeps its number when the table grows, so it is read exactly by the
elements that have it. -/
theorem Labels.fires_idxOf {labels : Labels} {names : List String} {label : String} {p : Place}
    (hgrown : names <+: labels.names) (hlabel : label ∈ names) :
    labels.Fires p (names.idxOf label) ↔ label ∈ p.element.labels := by
  have hmem : label ∈ labels.names := hgrown.subset hlabel
  have hsymbol : ∀ l, labels.symbol? l = some (names.idxOf label) ↔ l = label := by
    intro l
    rw [hgrown.idxOf_eq_of_mem hlabel, Labels.symbol?, List.idxOf?_eq_some_iff]
    constructor
    · rintro ⟨h, hl, -⟩
      rw [← hl, List.getElem_idxOf]
    · rintro rfl
      have hlt := List.idxOf_lt_length_of_mem hmem
      refine ⟨hlt, List.getElem_idxOf hlt, fun j hj => ?_⟩
      simpa using List.not_of_lt_findIdx hj
  rw [Labels.Fires, Labels.elementSymbols, List.mem_eraseDups, List.mem_filterMap]
  simp only [hsymbol, exists_eq_right]
  rfl

/-- A condition keeps its number when the table grows, so the number asks for
exactly this condition. -/
theorem Labels.passes_idxOf {labels : Labels} {conditions : List Condition}
    {condition : Condition} {config : Config} {p : Place}
    (hgrown : conditions <+: labels.conditions) (hcondition : condition ∈ conditions) :
    labels.Passes config p (conditions.idxOf condition) ↔ (p.context config).holds condition := by
  have hmem : condition ∈ labels.conditions := hgrown.subset hcondition
  have hget : labels.conditions[conditions.idxOf condition]? = some condition := by
    rw [hgrown.idxOf_eq_of_mem hcondition]
    exact List.getElem?_idxOf hmem
  simp only [Labels.Passes, hget, Option.some.injEq, exists_eq_left']

/-- The states `ahead` of each element and those `live` at it are balanced. -/
structure Flow (config : Config) (labels : Labels) (links : List Link)
    (ahead live : Place → StateId → Prop) : Prop where
  /-- The start state is ahead of every element. So is what is live at its parent, and
  what a sibling edge or a silent edge leads to. -/
  ahead_iff : ∀ p q, ahead p q ↔
    q = Nfa.start ∨
    (∃ parent, p.parent? = some parent ∧ live parent q) ∨
    (∃ previous, p.previous? = some previous ∧
      ∃ r, live previous r ∧ ⟨r, .consume .sibling, q⟩ ∈ links) ∨
    ∃ r, ahead p r ∧ ⟨r, .epsilon, q⟩ ∈ links
  /-- What edges lead to that read the element, or that pass its conditions, or silently. -/
  live_iff : ∀ p q, live p q ↔
    (∃ r symbol, ahead p r ∧ labels.Fires p symbol ∧
      ⟨r, .consume (.name symbol), q⟩ ∈ links) ∨
    (∃ r id, live p r ∧ labels.Passes config p id ∧ ⟨r, .guard id, q⟩ ∈ links) ∨
    ∃ r, live p r ∧ ⟨r, .epsilon, q⟩ ∈ links

/-! ### Shapes of edges -/

/-- `l` is the only edge to its target. -/
structure Sole (links : List Link) (l : Link) : Prop where
  mem : l ∈ links
  only : ∀ l' ∈ links, l'.edge.target = l.edge.target → l' = l

theorem Sole.eq_of_mem {links : List Link} {r r' q : StateId} {event event' : Event}
    (sole : Sole links ⟨r, event, q⟩) (hl : ⟨r', event', q⟩ ∈ links) : r' = r ∧ event' = event := by
  have hsame := sole.only _ hl rfl
  simp only [Link.mk.injEq, Nfa.Edge.mk.injEq, and_true] at hsame
  exact hsame

/-- A loop that reads one element of any name after another. It is entered from `exit`
and by nobody else. -/
structure Loop (labels : Labels) (links : List Link) (exit entry before behind : StateId)
    (symbol : Symbol) : Prop where
  /-- Two edges lead to the entry: the one from outside, and the one that closes the loop. -/
  into_entry : ∀ l, l ∈ links ∧ l.edge.target = entry ↔
    l = ⟨exit, .epsilon, entry⟩ ∨ l = ⟨behind, .epsilon, entry⟩
  into_before : Sole links ⟨entry, .epsilon, before⟩
  into_behind : Sole links ⟨before, .consume (.name symbol), behind⟩
  fires : ∀ p, labels.Fires p symbol
  start_notMem : Nfa.start ∉ [entry, before, behind]

theorem Loop.mem_links_entry {labels : Labels} {links : List Link}
    {exit entry before behind : StateId} {symbol : Symbol}
    (loop : Loop labels links exit entry before behind symbol) {r : StateId} {event : Event} :
    ⟨r, event, entry⟩ ∈ links ↔ event = .epsilon ∧ (r = exit ∨ r = behind) := by
  have h := loop.into_entry ⟨r, event, entry⟩
  simp only [and_true, Link.mk.injEq, Nfa.Edge.mk.injEq] at h
  rw [h, ← or_and_right, and_comm]

namespace Flow

variable {config : Config} {labels : Labels} {links : List Link}
  {ahead live : Place → StateId → Prop} {p : Place} {q r : StateId}

/-- What is live at an element is ahead of its children. -/
theorem ahead_of_live (flow : Flow config labels links ahead live) {parent : Place}
    (hparent : p.parent? = some parent) (h : live parent q) : ahead p q :=
  (flow.ahead_iff p q).2 (Or.inr (Or.inl ⟨parent, hparent, h⟩))

theorem live_of_epsilon (flow : Flow config labels links ahead live) (h : live p r)
    (hl : ⟨r, .epsilon, q⟩ ∈ links) : live p q :=
  (flow.live_iff p q).2 (Or.inr (Or.inr ⟨r, h, hl⟩))

theorem ahead_of_epsilon (flow : Flow config labels links ahead live) (h : ahead p r)
    (hl : ⟨r, .epsilon, q⟩ ∈ links) : ahead p q :=
  (flow.ahead_iff p q).2 (Or.inr (Or.inr (Or.inr ⟨r, h, hl⟩)))

section Event

variable {event : Event} (flow : Flow config labels links ahead live)
  (sole : Sole links ⟨r, event, q⟩)
include flow sole

/-- Behind a sole edge there is what the edge lets through. -/
theorem live_iff_of_sole : live p q ↔
    (∃ symbol, event = .consume (.name symbol) ∧ ahead p r ∧ labels.Fires p symbol) ∨
    (∃ id, event = .guard id ∧ live p r ∧ labels.Passes config p id) ∨
    (event = .epsilon ∧ live p r) := by
  rw [flow.live_iff]
  constructor
  · rintro (⟨r', symbol, h, hfires, hl⟩ | ⟨r', id, h, hpasses, hl⟩ | ⟨r', h, hl⟩)
    · obtain ⟨rfl, rfl⟩ := sole.eq_of_mem hl
      exact Or.inl ⟨symbol, rfl, h, hfires⟩
    · obtain ⟨rfl, rfl⟩ := sole.eq_of_mem hl
      exact Or.inr (Or.inl ⟨id, rfl, h, hpasses⟩)
    · obtain ⟨rfl, rfl⟩ := sole.eq_of_mem hl
      exact Or.inr (Or.inr ⟨rfl, h⟩)
  · rintro (⟨symbol, rfl, h, hfires⟩ | ⟨id, rfl, h, hpasses⟩ | ⟨rfl, h⟩)
    · exact Or.inl ⟨r, symbol, h, hfires, sole.mem⟩
    · exact Or.inr (Or.inl ⟨r, id, h, hpasses, sole.mem⟩)
    · exact Or.inr (Or.inr ⟨r, h, sole.mem⟩)

theorem ahead_iff_of_sole (hq : q ≠ Nfa.start) : ahead p q ↔
    (∃ parent, p.parent? = some parent ∧ live parent q) ∨
    (event = .consume .sibling ∧ ∃ previous, p.previous? = some previous ∧ live previous r) ∨
    (event = .epsilon ∧ ahead p r) := by
  rw [flow.ahead_iff]
  constructor
  · rintro (h | h | ⟨previous, hprevious, r', h, hl⟩ | ⟨r', h, hl⟩)
    · exact absurd h hq
    · exact Or.inl h
    · obtain ⟨rfl, rfl⟩ := sole.eq_of_mem hl
      exact Or.inr (Or.inl ⟨rfl, previous, hprevious, h⟩)
    · obtain ⟨rfl, rfl⟩ := sole.eq_of_mem hl
      exact Or.inr (Or.inr ⟨rfl, h⟩)
  · rintro (h | ⟨rfl, previous, hprevious, h⟩ | ⟨rfl, h⟩)
    · exact Or.inr (Or.inl h)
    · exact Or.inr (Or.inr (Or.inl ⟨previous, hprevious, r, h, sole.mem⟩))
    · exact Or.inr (Or.inr (Or.inr ⟨r, h, sole.mem⟩))

end Event

/-- **A sole silent edge** joins two states into one. -/
theorem live_epsilon (flow : Flow config labels links ahead live)
    (sole : Sole links ⟨r, .epsilon, q⟩) : live p q ↔ live p r := by
  simp [flow.live_iff_of_sole sole]

theorem ahead_epsilon (flow : Flow config labels links ahead live)
    (sole : Sole links ⟨r, .epsilon, q⟩) (hq : q ≠ Nfa.start) : ahead p q ↔ ahead p r := by
  simp only [flow.ahead_iff_of_sole sole hq, flow.live_epsilon sole, reduceCtorEq, false_and,
    true_and, false_or]
  constructor
  · rintro (⟨parent, hparent, h⟩ | h)
    · exact flow.ahead_of_live hparent h
    · exact h
  · exact Or.inr

/-- **Behind a sole sibling edge** nothing is live, and ahead of an element there is what
was live at the sibling just before. -/
theorem not_live_sibling (flow : Flow config labels links ahead live)
    (sole : Sole links ⟨r, .consume .sibling, q⟩) : ¬live p q := by
  simp [flow.live_iff_of_sole sole]

theorem ahead_sibling (flow : Flow config labels links ahead live)
    (sole : Sole links ⟨r, .consume .sibling, q⟩) (hq : q ≠ Nfa.start) :
    ahead p q ↔ ∃ previous, p.previous? = some previous ∧ live previous r := by
  simp [flow.ahead_iff_of_sole sole hq, flow.not_live_sibling sole]

/-- **Behind a sole edge that reads a name** there is what the name lets through. -/
theorem live_name (flow : Flow config labels links ahead live) {symbol : Symbol}
    (sole : Sole links ⟨r, .consume (.name symbol), q⟩) :
    live p q ↔ ahead p r ∧ labels.Fires p symbol := by
  simp [flow.live_iff_of_sole sole]

/-- **Behind a sole guarded edge** there is what the condition lets through. -/
theorem live_guard (flow : Flow config labels links ahead live) {id : ConditionId}
    (sole : Sole links ⟨r, .guard id, q⟩) :
    live p q ↔ live p r ∧ labels.Passes config p id := by
  simp [flow.live_iff_of_sole sole]

/-- A state behind a sole edge that consumes or asks is ahead of an element only
because it is live at the parent. -/
theorem ahead_of_sole (flow : Flow config labels links ahead live) {event : Event}
    (sole : Sole links ⟨r, event, q⟩) (hq : q ≠ Nfa.start) (hsibling : event ≠ .consume .sibling)
    (hepsilon : event ≠ .epsilon) :
    ahead p q ↔ ∃ parent, p.parent? = some parent ∧ live parent q := by
  simp [flow.ahead_iff_of_sole sole hq, hsibling, hepsilon]

/-! ### Loops over elements -/

section Loop

variable {exit entry before behind : StateId} {symbol : Symbol}
  (flow : Flow config labels links ahead live)
  (loop : Loop labels links exit entry before behind symbol)
include flow loop

/-- One more element may always be read. -/
theorem live_behind : live p behind ↔ ahead p entry := by
  have hstart : before ≠ Nfa.start := fun h => loop.start_notMem (by simp [h])
  rw [flow.live_name loop.into_behind, flow.ahead_epsilon loop.into_before hstart]
  exact and_iff_left (loop.fires p)

theorem live_entry : live p entry ↔ live p exit ∨ ahead p entry := by
  rw [flow.live_iff]
  simp only [loop.mem_links_entry, reduceCtorEq, false_and, and_false, exists_false, false_or,
    true_and]
  constructor
  · rintro ⟨r, hr, rfl | rfl⟩
    · exact Or.inl hr
    · exact Or.inr ((flow.live_behind loop).1 hr)
  · rintro (hr | hr)
    · exact ⟨exit, hr, Or.inl rfl⟩
    · exact ⟨behind, (flow.live_behind loop).2 hr, Or.inr rfl⟩

section Exit

variable (hexit : ∀ p, ahead p exit ↔ ∃ parent, p.parent? = some parent ∧ live parent exit)
include hexit

/-- The loop goes on inside an element at which it is entered or closed. -/
theorem ahead_entry : ahead p entry ↔
    ∃ parent, p.parent? = some parent ∧ live parent entry := by
  constructor
  · intro h
    rcases (flow.ahead_iff p entry).1 h with h | h | ⟨_, -, r, -, hl⟩ | ⟨r, hr, hl⟩
    · exact absurd h fun h => loop.start_notMem (by simp [h])
    · exact h
    · have := (loop.mem_links_entry.1 hl).1
      cases this
    · rcases (loop.mem_links_entry.1 hl).2 with rfl | rfl
      · obtain ⟨parent, hparent, hr⟩ := (hexit p).1 hr
        exact ⟨parent, hparent, (flow.live_entry loop).2 (Or.inl hr)⟩
      · have hstart : r ≠ Nfa.start := fun h => loop.start_notMem (by simp [h])
        obtain ⟨parent, hparent, hr⟩ :=
          (flow.ahead_of_sole loop.into_behind hstart (by simp) (by simp)).1 hr
        exact ⟨parent, hparent, flow.live_of_epsilon hr (loop.mem_links_entry.2 ⟨rfl, Or.inr rfl⟩)⟩
  · rintro ⟨parent, hparent, h⟩
    exact flow.ahead_of_live hparent h

/-- **A loop leads to all that is inside** of the elements at which it is entered. -/
theorem ahead_entry_iff_exists_ancestor :
    ahead p entry ↔ ∃ outer ∈ p.ancestors, live outer exit := by
  -- The induction is on the elements around: each is an entrance, or one element on the way.
  obtain ⟨here, above⟩ := p
  induction above generalizing here with
  | nil =>
    rw [flow.ahead_entry loop hexit]
    simp [Place.parent?, Place.ofPath?, Place.ancestors, Place.allOfPath]
  | cons level above ih =>
    have hparent : Place.parent? ⟨here, level :: above⟩ = some ⟨level, above⟩ := rfl
    rw [flow.ahead_entry loop hexit]
    simp only [Place.mem_ancestors (p := ⟨here, level :: above⟩), hparent, Option.some.injEq,
      exists_eq_left', flow.live_entry loop, ih]
    constructor
    · rintro (h | ⟨outer, hmem, h⟩)
      · exact ⟨_, Or.inl rfl, h⟩
      · exact ⟨outer, Or.inr hmem, h⟩
    · rintro ⟨outer, rfl | hmem, h⟩
      · exact Or.inl h
      · exact Or.inr ⟨outer, hmem, h⟩

end Exit

end Loop

end Flow

/-! ### The frames of a matcher -/

namespace Matcher

open Nfa (Builder)

variable {a : Automaton Nfa} {b : Builder} {config : Config} {p : Place} {q r : StateId}

theorem mem_seedsAt : q ∈ seedsAt a config p ↔
    (∃ parent, p.parent? = some parent ∧ q ∈ liveAt a config parent) ∨
    q ∈ a.machine.initial ∨
    ∃ previous, p.previous? = some previous ∧
      q ∈ a.machine.step (liveAt a config previous) .sibling := by
  have hlive : q ∈ (frameAfter a config p.above p.here.earlier p.here.earlier.length).live ↔
      ∃ parent, p.parent? = some parent ∧ q ∈ liveAt a config parent := by
    rw [live_frameAfter]
    cases p.parent? <;> simp
  rw [seedsAt, seeds, mem_ascending, List.mem_append, List.mem_append, hlive, lastChild_frameAfter,
    or_assoc]
  refine or_congr_right (or_congr_right ?_)
  cases p.previous? <;> simp [Machine.step]

theorem mem_read {element : Element} {sources : List StateId} : q ∈ read a element sources ↔
    ∃ symbol ∈ a.labels.elementSymbols element.ns element.localName,
      q ∈ a.machine.step sources (.name symbol) := by
  rw [read, mem_ascending, List.mem_flatMap]
  rfl

section Built

variable (hb : b.WellFormed) (hmachine : a.machine = b.build)
include hb hmachine

theorem mem_targets_machine {event : Event} :
    q ∈ (a.machine.state r).targets event ↔ ⟨r, event, q⟩ ∈ b.links := by
  rw [hmachine]
  exact Builder.mem_targets_build hb

theorem lt_size_of_mem_links {l : Link} (hl : l ∈ b.links) : l.edge.target < a.machine.size := by
  have hsize : a.machine.size = b.size := by simp [hmachine, Builder.build, Nfa.size]
  rw [hsize]
  exact hb.target_lt l hl

/-- Silent edges do not lead out of a closure. -/
theorem mem_closure_of_link {sources : List StateId} (h : r ∈ a.machine.closure sources)
    (hl : ⟨r, .epsilon, q⟩ ∈ b.links) : q ∈ a.machine.closure sources :=
  Nfa.mem_closure_of_edge h ((mem_targets_machine hb hmachine).2 hl)
    (lt_size_of_mem_links hb hmachine hl)

/-- What a label leads to, edge by edge. -/
theorem mem_step_iff {sources : List StateId} {label : Label} :
    q ∈ a.machine.step sources label ↔
      (∃ r ∈ sources, ⟨r, .consume label, q⟩ ∈ b.links) ∨
      ∃ r ∈ a.machine.step sources label, ⟨r, .epsilon, q⟩ ∈ b.links := by
  constructor
  · intro h
    rcases Nfa.mem_seeds_or_edge_of_mem_closure h with h | ⟨r, hr, h⟩
    · obtain ⟨r, hr, h⟩ := Nfa.mem_targets.1 h
      exact Or.inl ⟨r, hr, (mem_targets_machine hb hmachine).1 h⟩
    · exact Or.inr ⟨r, hr, (mem_targets_machine hb hmachine).1 h⟩
  · rintro (⟨r, hr, hl⟩ | ⟨r, hr, hl⟩)
    · refine Nfa.mem_closure_of_mem (Nfa.mem_targets.2 ⟨r, hr, ?_⟩)
        (lt_size_of_mem_links hb hmachine hl)
      exact (mem_targets_machine hb hmachine).2 hl
    · exact mem_closure_of_link hb hmachine hr hl

/-- What is live at an element was read, or lies behind a condition that it meets. -/
theorem mem_liveAt : q ∈ liveAt a config p ↔
    q ∈ read a p.element (seedsAt a config p) ∨
    ∃ r ∈ liveAt a config p, ∃ id t, a.labels.Passes config p id ∧
      ⟨r, .guard id, t⟩ ∈ b.links ∧ q ∈ a.machine.closure [t] := by
  have hfire : ∀ r, q ∈ Machine.fire a.machine
      (fun id => (a.labels.conditions.map (p.context config).holds).toArray.getD id false) r ↔
        ∃ id t, a.labels.Passes config p id ∧ ⟨r, .guard id, t⟩ ∈ b.links ∧
          q ∈ a.machine.closure [t] := by
    intro r
    rw [Machine.mem_fire_nfa]
    simp only [mem_targets_machine hb hmachine, Labels.getD_verdicts, Labels.Passes]
    grind
  rw [liveAt_eq, settle, mem_reach]
  constructor
  · intro h
    cases h with
    | seed h _ => exact Or.inl h
    | step h hq _ => exact Or.inr ⟨_, mem_reach.2 h, (hfire _).1 hq⟩
  · rintro (h | ⟨r, hr, h⟩)
    · obtain ⟨symbol, -, hstep⟩ := mem_read.1 h
      exact .seed h (Nfa.lt_size_of_mem_closure hstep)
    · have hlt : q < a.machine.size := by
        obtain ⟨_, _, _, _, hq⟩ := h
        exact Nfa.lt_size_of_mem_closure hq
      exact .step (mem_reach.1 hr) ((hfire r).2 h) hlt

/-- Silent edges do not lead out of what is live. -/
theorem mem_liveAt_of_link (h : r ∈ liveAt a config p) (hl : ⟨r, .epsilon, q⟩ ∈ b.links) :
    q ∈ liveAt a config p := by
  rcases (mem_liveAt hb hmachine).1 h with h | ⟨r', hr', id, t, hpasses, ht, h⟩
  · obtain ⟨symbol, hsymbol, h⟩ := mem_read.1 h
    exact (mem_liveAt hb hmachine).2
      (Or.inl (mem_read.2 ⟨symbol, hsymbol, mem_closure_of_link hb hmachine h hl⟩))
  · exact (mem_liveAt hb hmachine).2
      (Or.inr ⟨r', hr', id, t, hpasses, ht, mem_closure_of_link hb hmachine h hl⟩)

/-- **The frames of a matcher are balanced.** -/
theorem flow_matcher : Flow config a.labels b.links
    (fun p q => q ∈ seedsAt a config p) (fun p q => q ∈ liveAt a config p) where
  ahead_iff p q := by
    rw [mem_seedsAt]
    constructor
    · rintro (h | h | ⟨previous, hprevious, h⟩)
      · exact Or.inr (Or.inl h)
      · rcases Nfa.mem_seeds_or_edge_of_mem_closure h with h | ⟨r, hr, h⟩
        · exact Or.inl (List.mem_singleton.1 h)
        · exact Or.inr (Or.inr (Or.inr ⟨r, mem_seedsAt.2 (Or.inr (Or.inl hr)),
            (mem_targets_machine hb hmachine).1 h⟩))
      · rcases (mem_step_iff hb hmachine).1 h with ⟨r, hr, hl⟩ | ⟨r, hr, hl⟩
        · exact Or.inr (Or.inr (Or.inl ⟨previous, hprevious, r, hr, hl⟩))
        · exact Or.inr (Or.inr (Or.inr ⟨r,
            mem_seedsAt.2 (Or.inr (Or.inr ⟨previous, hprevious, hr⟩)), hl⟩))
    · rintro (rfl | h | ⟨previous, hprevious, r, hr, hl⟩ | ⟨r, hr, hl⟩)
      · have hlt : Nfa.start < a.machine.size := by
          simp only [hmachine, Builder.build, Nfa.size, Array.size_map, Array.size_range]
          exact hb.start_lt
        exact Or.inr (Or.inl (Nfa.mem_closure_of_mem (List.mem_singleton_self _) hlt))
      · exact Or.inl h
      · exact Or.inr (Or.inr ⟨previous, hprevious,
          (mem_step_iff hb hmachine).2 (Or.inl ⟨r, hr, hl⟩)⟩)
      · -- A silent edge stays in the part of the union that its source is in.
        rcases mem_seedsAt.1 hr with ⟨parent, hparent, hr⟩ | hr | ⟨previous, hprevious, hr⟩
        · exact Or.inl ⟨parent, hparent, mem_liveAt_of_link hb hmachine hr hl⟩
        · exact Or.inr (Or.inl (mem_closure_of_link hb hmachine hr hl))
        · exact Or.inr (Or.inr ⟨previous, hprevious, mem_closure_of_link hb hmachine hr hl⟩)
  live_iff p q := by
    constructor
    · intro h
      rcases (mem_liveAt hb hmachine).1 h with h | ⟨r, hr, id, t, hpasses, ht, h⟩
      · obtain ⟨symbol, hsymbol, h⟩ := mem_read.1 h
        rcases (mem_step_iff hb hmachine).1 h with ⟨r, hr, hl⟩ | ⟨r, hr, hl⟩
        · exact Or.inl ⟨r, symbol, hr, hsymbol, hl⟩
        · exact Or.inr (Or.inr ⟨r,
            (mem_liveAt hb hmachine).2 (Or.inl (mem_read.2 ⟨symbol, hsymbol, hr⟩)), hl⟩)
      · rcases Nfa.mem_seeds_or_edge_of_mem_closure h with h | ⟨y, hy, h⟩
        · rw [List.mem_singleton.1 h]
          exact Or.inr (Or.inl ⟨r, id, hr, hpasses, ht⟩)
        · exact Or.inr (Or.inr ⟨y,
            (mem_liveAt hb hmachine).2 (Or.inr ⟨r, hr, id, t, hpasses, ht, hy⟩),
            (mem_targets_machine hb hmachine).1 h⟩)
    · rintro (⟨r, symbol, hr, hfires, hl⟩ | ⟨r, id, hr, hpasses, hl⟩ | ⟨r, hr, hl⟩)
      · refine (mem_liveAt hb hmachine).2 (Or.inl (mem_read.2 ⟨symbol, hfires, ?_⟩))
        exact (mem_step_iff hb hmachine).2 (Or.inl ⟨r, hr, hl⟩)
      · refine (mem_liveAt hb hmachine).2 (Or.inr ⟨r, hr, id, q, hpasses, hl, ?_⟩)
        exact Nfa.mem_closure_of_mem (List.mem_singleton_self _)
          (lt_size_of_mem_links hb hmachine hl)
      · exact mem_liveAt_of_link hb hmachine hr hl

end Built

end Matcher

end StyleStream
