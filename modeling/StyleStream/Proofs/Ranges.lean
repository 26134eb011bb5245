/-
  Numbers in range.

  The label tables of a builder only grow, and an edge is made with the number of a label or of a
  condition that has just been entered, so all numbers on the edges stay in range
  (`labelled_fragment`). A declaration gets the number of the next free place before it is known
  whether its rule will be compiled, and takes that place if it is. With the targets of the edges,
  which exist, this makes an automaton in which every number is an index of the table it is used
  on: `Nfa.InRange`. The subset construction hands the numbers on, and its own numbers are those of
  subsets that get their states: `Dfa.InRange`.
-/
import StyleStream.Proofs.Determinization
import StyleStream.Proofs.Streaming

namespace StyleStream

/-! ### Labels and conditions -/

/-- The number of the name is an index of the table of names. -/
def Label.InRange (labels : Labels) : Label → Prop
  | .name symbol => symbol < labels.names.length
  | .sibling => True

/-- The number of the name or of the condition is an index of its table. -/
def Event.InRange (labels : Labels) : Event → Prop
  | .consume label => label.InRange labels
  | .guard condition => condition < labels.conditions.length
  | .epsilon => True

/-- **What is in range stays in range** when the tables grow. -/
theorem Event.InRange.mono {labels labels' : Labels} {event : Event} (h : event.InRange labels)
    (hnames : labels.names <+: labels'.names)
    (hconditions : labels.conditions <+: labels'.conditions) : event.InRange labels' := by
  cases event with
  | consume label =>
    cases label with
    | name symbol => exact Nat.lt_of_lt_of_le h hnames.length_le
    | sibling => trivial
  | guard condition => exact Nat.lt_of_lt_of_le h hconditions.length_le
  | epsilon => trivial

namespace Nfa

open Builder

namespace Builder

/-- The events of all edges are in range. -/
def Labelled (b : Builder) : Prop :=
  ∀ l ∈ b.links, l.edge.event.InRange b.labels

end Builder

section Labelled

variable {b b' : Builder} {s : Selector} {part : Fragment} {source target : StateId}
  {event : Event}

theorem labelled_empty : Labelled {} :=
  fun _ h => absurd h List.not_mem_nil

theorem Builder.Labelled.link (h : b.Labelled) (hevent : event.InRange b.labels) :
    (b.link source event target).Labelled := by
  intro l hl
  rcases List.mem_append.1 hl with hl | hl
  · exact h l hl
  · rw [List.mem_singleton.1 hl]
    exact hevent

theorem Builder.Labelled.silent (h : b.Labelled) : (b.link source .epsilon target).Labelled :=
  h.link trivial

theorem Builder.Labelled.grow (h : b.Labelled) (count : Nat) : (b.grow count).Labelled := h

theorem Builder.Labelled.internName (h : b.Labelled) (label : String) :
    (b.internName label).Labelled := by
  obtain ⟨tail, htail⟩ := exists_intern_eq_append b.labels.names label
  exact fun l hl => (h l hl).mono ⟨tail, htail.symm⟩ List.prefix_rfl

theorem Builder.Labelled.internCondition (h : b.Labelled) (condition : Condition) :
    (b.internCondition condition).Labelled := by
  obtain ⟨tail, htail⟩ := exists_intern_eq_append b.labels.conditions condition
  exact fun l hl => (h l hl).mono List.prefix_rfl ⟨tail, htail.symm⟩

/-- A name that has been entered has a number in range. -/
theorem inRange_reads (b : Builder) (label : String) :
    ((b.internName label).reads label).InRange (b.internName label).labels :=
  List.idxOf_lt_length_of_mem (mem_intern.2 (Or.inr rfl))

theorem Builder.Labelled.name (h : b.Labelled) (label : String) : (b.name label).2.Labelled :=
  ((h.internName label).grow 2).link (inRange_reads b label)

theorem Builder.Labelled.filter (h : b.Labelled) (inner : Fragment) (condition : Condition) :
    (b.filter inner condition).2.Labelled :=
  ((h.internCondition condition).grow 1).link
    (List.idxOf_lt_length_of_mem (mem_intern.2 (Or.inr rfl)))

theorem Builder.Labelled.bridge (h : b.Labelled) (exit : StateId) (op : Combinator) :
    (b.bridge exit op).2.Labelled := by
  cases op with
  | child => exact h
  | descendant =>
    have hentry : Labelled ((b.grow 4).internName anyLabel) := (h.grow 4).internName anyLabel
    exact (hentry.silent.silent.silent.link (inRange_reads (b.grow 4) anyLabel)).silent
  | adjacent =>
    have hsibling : Event.InRange b.labels (.consume .sibling) := trivial
    exact (h.grow 2).silent.link hsibling

/-- **A fragment** has no number that is out of range. -/
theorem labelled_fragment (h : b.Labelled) (hs : b.fragment s = some (part, b')) :
    b'.Labelled := by
  induction s generalizing b part b' with
  | element test =>
    obtain ⟨rfl, rfl⟩ := Prod.mk.inj (Option.some.inj hs)
    exact h.name _
  | filtered inner condition ih =>
    obtain ⟨part₁, b₁, hinner, hfilter⟩ := fragment_filtered.1 hs
    obtain ⟨rfl, rfl⟩ := Prod.mk.inj hfilter
    exact (ih h hinner).filter part₁ condition
  | combined op left right ihl ihr =>
    by_cases hpseudo : right.isPseudo
    · exact ihl h (fragment_combined_pseudo hpseudo ▸ hs)
    · obtain ⟨head, b₁, tail, b₃, hleft, hright, rfl, rfl⟩ := (fragment_combined hpseudo).1 hs
      exact (ihr ((ihl h hleft).bridge head.exit op) hright).silent
  | pseudo p =>
    obtain ⟨rfl, rfl⟩ := Prod.mk.inj (Option.some.inj hs)
    exact h.name _
  | unsupported text => cases hs

theorem labelled_addRule {declaration : DeclarationId} {pseudo : Bool} (h : b.Labelled)
    (hadd : b.addRule s declaration pseudo = some b') : b'.Labelled := by
  obtain ⟨⟨exit, b₁⟩, hselector, hadd⟩ := Option.bind_eq_some_iff.1 hadd
  obtain rfl := Option.some.inj hadd
  rcases selector_cases hselector with ⟨-, rfl⟩ | ⟨part, made, -, hmade, rfl, rfl⟩
  · exact h
  · exact (labelled_fragment h hmade).silent.silent

end Labelled

end Nfa

theorem labelled_foldl_add (rules : List Rule) {c : Compilation} (hc : c.builder.Labelled) :
    (rules.foldl Compilation.add c).builder.Labelled := by
  induction rules generalizing c with
  | nil => exact hc
  | cons rule rules ih =>
    rw [List.foldl_cons]
    apply ih
    unfold Compilation.add
    split
    · next b hb => exact Nfa.labelled_addRule hc hb
    · exact hc

/-! ### Nondeterministic automata -/

/-- Every number in the automaton is an index of the table that it is used on. -/
structure Nfa.InRange (nfa : Nfa) (labels : Labels) (declarations : Nat) : Prop where
  start_lt : start < nfa.size
  accept_lt : accept < nfa.size
  target_lt : ∀ q, ∀ edge ∈ (nfa.state q).edges, edge.target < nfa.size
  event : ∀ q, ∀ edge ∈ (nfa.state q).edges, edge.event.InRange labels
  declaration_lt : ∀ q, ∀ i ∈ (nfa.state q).declarations, i < declarations
  pseudoDeclaration_lt : ∀ q, ∀ i ∈ (nfa.state q).pseudoDeclarations, i < declarations

theorem Nfa.InRange.bounded {nfa : Nfa} {labels : Labels} {declarations : Nat}
    (h : nfa.InRange labels declarations) : nfa.Bounded :=
  ⟨h.start_lt, h.target_lt⟩

/-- **The numbers in a compiled automaton are in range.** -/
theorem inRange_compileNfa (rules : List Rule) :
    (Automaton.compileNfa rules).machine.InRange (Automaton.compileNfa rules).labels
      (Automaton.compileNfa rules).declarations.length := by
  obtain ⟨haccepts, hdeclarations⟩ := accepts_foldl_add rules
  have hwell := haccepts.settled.wellFormed
  have hlabelled : ((rules.foldl Compilation.add {}).builder).Labelled :=
    labelled_foldl_add rules Nfa.labelled_empty
  have hlength : (Automaton.compileNfa rules).declarations.length = (understood rules).length := by
    show (rules.foldl Compilation.add {}).declarations.length = _
    rw [hdeclarations, List.length_map]
  have hsize : (Automaton.compileNfa rules).machine.size =
      (rules.foldl Compilation.add {}).builder.size :=
    Nfa.Builder.size_build _
  -- A number is accepted for a rule that has been compiled, so it is one of theirs.
  have hlt : ∀ pseudo q, ∀ i ∈ acceptedAt (Automaton.compileNfa rules).machine pseudo q,
      i < (Automaton.compileNfa rules).declarations.length := by
    intro pseudo q i hi
    obtain ⟨-, hmem⟩ := mem_acceptedAt_build.1 hi
    obtain ⟨rule, hget, -⟩ := haccepts.sound _ hmem
    rw [hlength]
    exact (List.getElem?_eq_some_iff.1 hget).1
  constructor
  case start_lt => exact hwell.bounded_build.start_lt
  case accept_lt =>
    rw [hsize]
    exact hwell.accept_lt
  case target_lt => exact hwell.bounded_build.target_lt
  case event =>
    intro q edge hedge
    exact hlabelled _ ((Nfa.Builder.mem_targets_build hwell).1 (Nfa.State.mem_targets.2 hedge))
  case declaration_lt => exact hlt none
  case pseudoDeclaration_lt => exact hlt (some .before)

/-! ### Deterministic automata -/

/-- Every number in the automaton, which was made from `nfa`, is an index of the table that it is
used on. -/
structure Dfa.InRange (dfa : Dfa) (nfa : Nfa) (labels : Labels) (declarations : Nat) : Prop where
  start_lt : start < dfa.size
  transition : ∀ id, ∀ edge ∈ (dfa.state id).transitions,
    edge.1.InRange labels ∧ edge.2 < dfa.size
  condition : ∀ id, ∀ edge ∈ (dfa.state id).conditions,
    edge.1 < labels.conditions.length ∧ edge.2 < dfa.size
  declaration_lt : ∀ id, ∀ i ∈ (dfa.state id).declarations, i < declarations
  pseudoDeclaration_lt : ∀ id, ∀ i ∈ (dfa.state id).pseudoDeclarations, i < declarations
  member_lt : ∀ id, ∀ q ∈ (dfa.state id).subset, q < nfa.size

/-- **The subset construction keeps numbers in range.** -/
theorem inRange_ofNfa {nfa : Nfa} {labels : Labels} {declarations : Nat}
    (h : nfa.InRange labels declarations) :
    (Dfa.ofNfa nfa).InRange nfa labels declarations := by
  constructor
  case start_lt =>
    rw [Dfa.size_ofNfa]
    exact (List.getElem?_eq_some_iff.1 (Nfa.getElem?_subsets_zero nfa)).1
  case transition =>
    intro id edge hedge
    cases hsubset : nfa.subsets[id]? with
    | none =>
      rw [Dfa.state_ofNfa_of_none hsubset] at hedge
      exact absurd hedge List.not_mem_nil
    | some subset =>
      rw [Dfa.state_ofNfa hsubset] at hedge
      obtain ⟨label, hlabel, rfl⟩ := List.mem_map.1 hedge
      obtain ⟨q, -, t, ht⟩ := Nfa.mem_labelsOf.1 hlabel
      have htarget : nfa.step subset label ∈ nfa.subsets :=
        Nfa.successor_mem_subsets (List.mem_of_getElem? hsubset)
          (List.mem_append_left _ (List.mem_map_of_mem hlabel))
      exact ⟨h.event q _ (Nfa.State.mem_targets.1 ht), Dfa.idxOf_lt_size htarget⟩
  case condition =>
    rintro id ⟨condition, target⟩ hedge
    cases hsubset : nfa.subsets[id]? with
    | none =>
      rw [Dfa.state_ofNfa_of_none hsubset] at hedge
      exact absurd hedge List.not_mem_nil
    | some subset =>
      obtain ⟨hcondition, rfl⟩ := (Dfa.mem_conditions_ofNfa hsubset).1 hedge
      obtain ⟨q, -, t, ht⟩ := Nfa.mem_conditionsOf.1 hcondition
      have htarget : nfa.pass subset condition ∈ nfa.subsets :=
        Nfa.successor_mem_subsets (List.mem_of_getElem? hsubset)
          (List.mem_append_right _ (List.mem_map_of_mem hcondition))
      exact ⟨h.event q _ (Nfa.State.mem_targets.1 ht), Dfa.idxOf_lt_size htarget⟩
  case declaration_lt =>
    intro id i hi
    obtain ⟨q, -, hq⟩ := Machine.mem_declarations_ofNfa.1 hi
    exact h.declaration_lt q i hq
  case pseudoDeclaration_lt =>
    intro id i hi
    obtain ⟨q, -, hq⟩ := Machine.mem_pseudoDeclarations_ofNfa.1 hi
    exact h.pseudoDeclaration_lt q i hq
  case member_lt =>
    intro id q hq
    exact Nfa.lt_size_of_mem_subset hq

end StyleStream
