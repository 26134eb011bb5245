/-
  Every exit can be reached.

  A path leads through each fragment, from its entry to its exit (`path_fragment`), and the start
  leads to the entry, so a path leads from the start to the exit of every compiled selector. It does
  not matter whether an element can ever satisfy the conditions on the way. The subset construction
  keeps whatever a path leads to (`Bounded.exists_mem_subsets`). So the declaration of each rule
  that is understood is accepted by a state of both automata (`exists_mem_declarations`).
-/
import Mathlib.Logic.Relation
import StyleStream.Proofs.Regions
import StyleStream.Proofs.Streaming

namespace StyleStream

namespace Nfa

open Builder

/-! ### Paths through a fragment -/

/-- One of the edges leads from the one state to the other. -/
def Joins (links : List Link) (q q' : StateId) : Prop :=
  ∃ event, ⟨q, event, q'⟩ ∈ links

section Paths

variable {b b' f : Builder} {s : Selector} {part : Fragment} {exit q q' : StateId}
  {links links' : List Link}

/-- A path stays when edges are added. -/
theorem path_mono (h : links ⊆ links') (hpath : Relation.ReflTransGen (Joins links) q q') :
    Relation.ReflTransGen (Joins links') q q' :=
  Relation.ReflTransGen.mono (fun _ _ ⟨event, hl⟩ => ⟨event, h hl⟩) _ _ hpath

theorem path_bridge (b : Builder) (exit : StateId) (op : Combinator) :
    Relation.ReflTransGen (Joins (b.bridge exit op).2.links) exit (b.bridge exit op).1 := by
  cases op with
  | child => exact .refl
  | descendant =>
    have henter : Joins (b.bridge exit .descendant).2.links exit b.size :=
      ⟨.epsilon, by simp [bridge, link]⟩
    have hleave : Joins (b.bridge exit .descendant).2.links b.size (b.size + 3) :=
      ⟨.epsilon, by simp [bridge, link]⟩
    exact (Relation.ReflTransGen.single henter).tail hleave
  | adjacent =>
    have henter : Joins (b.bridge exit .adjacent).2.links exit b.size :=
      ⟨.epsilon, by simp [bridge, link]⟩
    have hleave : Joins (b.bridge exit .adjacent).2.links b.size (b.size + 1) :=
      ⟨.consume .sibling, by simp [bridge, link]⟩
    exact (Relation.ReflTransGen.single henter).tail hleave

theorem path_name (b : Builder) (label : String) :
    Relation.ReflTransGen (Joins (b.name label).2.links) (b.name label).1.entry
      (b.name label).1.exit :=
  .single ⟨_, List.mem_append_right _ (List.mem_singleton_self _)⟩

/-- **A path leads through every fragment.** -/
theorem path_fragment (hb : b.WellFormed) (hs : b.fragment s = some (part, b')) :
    Relation.ReflTransGen (Joins b'.links) part.entry part.exit := by
  induction s generalizing b part b' with
  | element test =>
    obtain ⟨rfl, rfl⟩ := Prod.mk.inj (Option.some.inj hs)
    exact path_name b _
  | filtered inner condition ih =>
    obtain ⟨part₁, b₁, hinner, hfilter⟩ := fragment_filtered.1 hs
    obtain ⟨rfl, rfl⟩ := Prod.mk.inj hfilter
    have hkept : b₁.links ⊆ (b₁.filter part₁ condition).2.links :=
      (extends_filter (part_fragment hb hinner).exit_lt condition).links_subset
    exact (path_mono hkept (ih hb hinner)).tail
      ⟨_, List.mem_append_right _ (List.mem_singleton_self _)⟩
  | combined op left right ihl ihr =>
    by_cases hpseudo : right.isPseudo
    · exact ihl hb (fragment_combined_pseudo hpseudo ▸ hs)
    · obtain ⟨head, b₁, tail, b₃, hleft, hright, rfl, rfl⟩ := (fragment_combined hpseudo).1 hs
      have hhead := part_fragment hb hleft
      obtain ⟨hbridge, -⟩ := extends_bridge hhead.exit_lt op
      have hb₂ := hbridge.wellFormed (hhead.extends_.wellFormed hb)
      have htail := part_fragment hb₂ hright
      have hlast : b₃.links ⊆
          (b₃.link (b₁.bridge head.exit op).1 .epsilon tail.entry).links :=
        List.subset_append_left _ _
      have hplaced := List.Subset.trans htail.extends_.links_subset hlast
      have hthrough : Relation.ReflTransGen
          (Joins (b₃.link (b₁.bridge head.exit op).1 .epsilon tail.entry).links)
          head.entry (b₁.bridge head.exit op).1 :=
        (path_mono (List.Subset.trans hbridge.links_subset hplaced) (ihl hb hleft)).trans
          (path_mono hplaced (path_bridge b₁ head.exit op))
      have hover := hthrough.tail
        ⟨.epsilon, List.mem_append_right _ (List.mem_singleton_self _)⟩
      exact hover.trans (path_mono hlast (ihr hb₂ hright))
  | pseudo p =>
    obtain ⟨rfl, rfl⟩ := Prod.mk.inj (Option.some.inj hs)
    exact path_name b _
  | unsupported text => cases hs

theorem Carries.path_exit (h : Carries f s exit) :
    Relation.ReflTransGen (Joins f.links) start exit := by
  obtain ⟨b, b', part, hb, hs, rfl, hkeeps, hsole⟩ := h.fragment
  exact (Relation.ReflTransGen.single ⟨_, hsole.mem⟩).trans
    (path_mono hkeeps.links_subset (path_fragment hb hs))

end Paths

/-! ### Paths and subsets -/

/-- **What a path leads to is in a subset.** -/
theorem Bounded.exists_mem_subsets {nfa : Nfa} (hnfa : nfa.Bounded) {q : StateId}
    (hpath : Relation.ReflTransGen (fun q q' => ∃ event, nfa.HasLink ⟨q, event, q'⟩) start q) :
    ∃ subset ∈ nfa.subsets, q ∈ subset := by
  induction hpath with
  | refl =>
    exact ⟨nfa.initial, List.mem_of_getElem? (getElem?_subsets_zero nfa),
      mem_closure_of_mem (List.mem_singleton_self _) hnfa.start_lt⟩
  | @tail q q' _ hedge ih =>
    obtain ⟨subset, hsubset, hq⟩ := ih
    obtain ⟨event, hlink⟩ := hedge
    have hlt : q' < nfa.size := hnfa.target_lt q _ hlink
    have htarget : q' ∈ (nfa.state q).targets event := State.mem_targets.2 hlink
    have hself : q' ∈ nfa.closure [q'] := mem_closure_of_mem (List.mem_singleton_self _) hlt
    cases event with
    | consume label =>
      have hsuccessor : nfa.step subset label ∈ nfa.successors subset :=
        List.mem_append_left _ (List.mem_map_of_mem (mem_labelsOf.2 ⟨q, hq, q', htarget⟩))
      exact ⟨_, successor_mem_subsets hsubset hsuccessor, mem_step.2 ⟨q, hq, q', htarget, hself⟩⟩
    | guard condition =>
      have hsuccessor : nfa.pass subset condition ∈ nfa.successors subset :=
        List.mem_append_right _ (List.mem_map_of_mem (mem_conditionsOf.2 ⟨q, hq, q', htarget⟩))
      exact ⟨_, successor_mem_subsets hsubset hsuccessor, mem_pass.2 ⟨q, hq, q', htarget, hself⟩⟩
    | epsilon =>
      -- A subset is closed, so it holds the target itself.
      rw [← closure_of_mem_subsets hsubset] at hq
      refine ⟨subset, hsubset, ?_⟩
      rw [← closure_of_mem_subsets hsubset]
      exact mem_closure_of_edge hq htarget hlt

end Nfa

/-! ### Declarations -/

/-- **The declaration of each compiled rule is accepted** by a state of the nondeterministic
automaton and by one of the deterministic automaton. -/
theorem exists_mem_declarations {rules : List Rule} {i : DeclarationId}
    (h : i < (understood rules).length) :
    (∃ q < (Automaton.compileNfa rules).machine.size,
      i ∈ Machine.declarations (Automaton.compileNfa rules).machine q ++
        Machine.pseudoDeclarations (Automaton.compileNfa rules).machine q) ∧
    ∃ id < (Automaton.compile rules).machine.size,
      i ∈ Machine.declarations (Automaton.compile rules).machine id ++
        Machine.pseudoDeclarations (Automaton.compile rules).machine id := by
  obtain ⟨haccepts, -⟩ := accepts_foldl_add rules
  have hwell := haccepts.settled.wellFormed
  obtain ⟨⟨q, j, pseudo⟩, ha, rfl⟩ := haccepts.complete i h
  obtain ⟨rule, -, -, hcarries⟩ := haccepts.sound _ ha
  have hlt : q < (rules.foldl Compilation.add {}).builder.size := hcarries.exit_lt
  have hq : j ∈ Machine.declarations (Automaton.compileNfa rules).machine q ++
      Machine.pseudoDeclarations (Automaton.compileNfa rules).machine q := by
    cases pseudo with
    | false =>
      exact List.mem_append_left _ ((@mem_acceptedAt_build _ none q j).2 ⟨hlt, ha⟩)
    | true =>
      exact List.mem_append_right _ ((@mem_acceptedAt_build _ (some .before) q j).2 ⟨hlt, ha⟩)
  -- The exit is in a subset, and the state for the subset accepts what its members accept.
  have hpath : Relation.ReflTransGen (fun p p' => ∃ event,
      (Automaton.compileNfa rules).machine.HasLink ⟨p, event, p'⟩) Nfa.start q :=
    Relation.ReflTransGen.mono
      (fun _ _ ⟨event, hl⟩ => ⟨event, (Nfa.hasLink_build hwell).2 hl⟩) _ _ hcarries.path_exit
  obtain ⟨subset, hsubset, hmem⟩ := hwell.bounded_build.exists_mem_subsets hpath
  have hstate : q ∈ ((Automaton.compile rules).machine.state
      ((Automaton.compileNfa rules).machine.subsets.idxOf subset)).subset := by
    have hget := Dfa.state_ofNfa (Dfa.getElem?_idxOf hsubset)
    exact hget ▸ hmem
  refine ⟨⟨q, hlt.trans_eq (Nfa.Builder.size_build _).symm, hq⟩, _, Dfa.idxOf_lt_size hsubset, ?_⟩
  rcases List.mem_append.1 hq with hq | hq
  · exact List.mem_append_left _ (Machine.mem_declarations_ofNfa.2 ⟨q, hstate, hq⟩)
  · exact List.mem_append_right _ (Machine.mem_pseudoDeclarations_ofNfa.2 ⟨q, hstate, hq⟩)

end StyleStream
