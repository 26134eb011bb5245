/-
  What a compiled list of rules accepts.

  A rule is compiled by putting the fragment of its selector between the start and
  the accepting state, or by finding the one that a rule with the same selector has
  put there. `Carries` says of a state that it is the exit of such a fragment, and
  stays true while more rules are added (`Carries.grows`). So in the end every rule
  that is understood has an exit that is live at exactly the elements that its
  selector matches, `live_exit_iff_matches`, and accepts its declaration there.
-/
import StyleStream.Automaton
import StyleStream.Proofs.Fragments

namespace StyleStream

namespace Nfa

open Builder

/-! ### Growing by whole rules -/

/-- `f'` is `f` with more rules: a new edge leads to a new state or to the accepting one. -/
structure Grows (f f' : Builder) : Prop where
  size_le : f.size ≤ f'.size
  links_subset : f.links ⊆ f'.links
  new_link : ∀ l ∈ f'.links, l ∈ f.links ∨ l.edge.target = accept ∨ f.size ≤ l.edge.target
  names : f.labels.names <+: f'.labels.names
  conditions : f.labels.conditions <+: f'.labels.conditions

variable {f f' b b' : Builder} {s : Selector} {exit : StateId}

theorem Grows.refl (f : Builder) : Grows f f :=
  ⟨Nat.le_refl _, List.Subset.refl _, fun _ => Or.inl, List.prefix_rfl, List.prefix_rfl⟩

theorem Keeps.grows {entries : List StateId} (h : Keeps f b b' entries) (hb : b.WellFormed)
    (hf : Grows f f') : Keeps f' b b' entries where
  size_le := Nat.le_trans h.size_le hf.size_le
  links_subset := List.Subset.trans h.links_subset hf.links_subset
  names := h.names.trans hf.names
  conditions := h.conditions.trans hf.conditions
  only l hl hge hlt hentry := by
    rcases hf.new_link l hl with hl | haccept | hnew
    · exact h.only l hl hge hlt hentry
    · -- The accepting state is older than any builder's own states.
      rw [haccept] at hge
      exact absurd hb.accept_lt (Nat.not_lt_of_le hge)
    · exact absurd (Nat.lt_of_lt_of_le hlt h.size_le) (Nat.not_lt_of_le hnew)

theorem Grows.sole {l : Link} (hf : Grows f f') (h : Sole f.links l)
    (haccept : l.edge.target ≠ accept) (hlt : l.edge.target < f.size) : Sole f'.links l where
  mem := hf.links_subset h.mem
  only l' hl' htarget := by
    rcases hf.new_link l' hl' with hl' | heq | hnew
    · exact h.only l' hl' htarget
    · exact absurd (htarget.symm.trans heq) haccept
    · rw [htarget] at hnew
      exact absurd hlt (Nat.not_lt_of_le hnew)

/-! ### Compiled selectors -/

/-- In `f` the selector has been compiled, and `exit` is the exit of its fragment. -/
structure Carries (f : Builder) (s : Selector) (exit : StateId) : Prop where
  supported : s.isSupported
  fragment : ∃ b b' part, b.WellFormed ∧ b.fragment s = some (part, b') ∧ part.exit = exit ∧
    Keeps f b b' [part.entry] ∧ Sole f.links ⟨start, .epsilon, part.entry⟩

/-- What is compiled stays compiled. -/
theorem Carries.grows (h : Carries f s exit) (hf : Grows f f') : Carries f' s exit := by
  obtain ⟨b, b', part, hb, hs, hexit, hkeeps, hsole⟩ := h.fragment
  have hpart := part_fragment hb hs
  have haccept : part.entry ≠ accept :=
    Nat.ne_of_gt (Nat.lt_of_lt_of_le hb.accept_lt hpart.entry_ge)
  have hlt := Nat.lt_of_lt_of_le hpart.entry_lt hkeeps.size_le
  exact ⟨h.supported, b, b', part, hb, hs, hexit, hkeeps.grows hb hf, hf.sole hsole haccept hlt⟩

theorem Carries.exit_lt (h : Carries f s exit) : exit < f.size := by
  obtain ⟨b, b', part, hb, hs, rfl, hkeeps, -⟩ := h.fragment
  exact Nat.lt_of_lt_of_le (part_fragment hb hs).exit_lt hkeeps.size_le

/-- **The exit of a compiled selector is live at the elements that the selector matches.** -/
theorem Carries.live_exit_iff_matches {config : Config} {ahead live : Place → StateId → Prop}
    (flow : Flow config f.labels f.links ahead live) (h : Carries f s exit) (p : Place) :
    live p exit ↔ s.Matches config p := by
  obtain ⟨b, b', part, hb, hs, rfl, hkeeps, hsole⟩ := h.fragment
  have hspells := spells_fragment flow hb hs hkeeps
  have hahead : ∀ first, ahead first part.entry := fun first =>
    flow.ahead_of_epsilon ((flow.ahead_iff first start).2 (Or.inl rfl)) hsole.mem
  rw [hspells.live_exit, Selector.Matches]
  simp only [hahead, true_and]

/-! ### One selector -/

/-- The builder in which a new fragment has been put between the start and the
accepting state. -/
def attach (made : Builder) (s : Selector) (part : Fragment) : Builder :=
  { (made.link start .epsilon part.entry).link part.exit .epsilon accept with
    exits := (s, part.exit) :: made.exits }

theorem mem_of_lookup (h : b.exits.lookup s = some exit) : (s, exit) ∈ b.exits := by
  obtain ⟨before, behind, hsplit, -⟩ := List.lookup_eq_some_iff.1 h
  rw [hsplit]
  exact List.mem_append_right _ List.mem_cons_self

/-- A selector is compiled once. -/
theorem selector_cases (h : b.selector s = some (exit, b')) :
    (b.exits.lookup s = some exit ∧ b' = b) ∨
    ∃ part made, s.isSupported ∧ b.fragment s = some (part, made) ∧ exit = part.exit ∧
      b' = attach made s part := by
  rw [Builder.selector] at h
  split at h
  · next hlookup =>
    obtain ⟨rfl, rfl⟩ := Prod.mk.inj (Option.some.inj h)
    exact Or.inl ⟨hlookup, rfl⟩
  · split at h
    · next hsupported =>
      obtain ⟨⟨part, made⟩, hmade, h⟩ := Option.bind_eq_some_iff.1 h
      obtain ⟨rfl, rfl⟩ := Prod.mk.inj (Option.some.inj h)
      exact Or.inr ⟨part, made, hsupported, hmade, rfl, rfl⟩
    · cases h

/-- A builder that has compiled whole selectors. -/
structure Settled (b : Builder) : Prop where
  wellFormed : b.WellFormed
  carries : ∀ s exit, (s, exit) ∈ b.exits → Carries b s exit

theorem settled_empty (labels : Labels) : Settled { labels } :=
  ⟨wellFormed_empty labels, fun _ _ h => absurd h List.not_mem_nil⟩

/-- A selector that was compiled before has its exit, and no other is refused. -/
theorem isSome_selector (hb : Settled b) : (b.selector s).isSome ↔ s.isSupported := by
  constructor
  · intro h
    obtain ⟨⟨exit, b'⟩, h⟩ := Option.isSome_iff_exists.1 h
    rcases selector_cases h with ⟨hlookup, -⟩ | ⟨_, _, hsupported, -⟩
    · exact (hb.carries s exit (mem_of_lookup hlookup)).supported
    · exact hsupported
  · intro h
    obtain ⟨made, hmade⟩ := Option.isSome_iff_exists.1 (isSome_fragment h b)
    rw [Builder.selector]
    split
    · rfl
    · rw [if_pos h, hmade]
      rfl

section Attach

variable {made : Builder} {part : Fragment} {l : Link}

theorem mem_links_attach : l ∈ (attach made s part).links ↔
    l ∈ made.links ∨ l = ⟨start, .epsilon, part.entry⟩ ∨ l = ⟨part.exit, .epsilon, accept⟩ := by
  simp [attach, link]

variable (hb : b.WellFormed) (hpart : Part b made part)
include hpart

theorem grows_attach : Grows b (attach made s part) where
  size_le := hpart.extends_.size_le
  links_subset l hl := mem_links_attach.2 (Or.inl (hpart.extends_.links_subset hl))
  new_link l hl := by
    rcases mem_links_attach.1 hl with hl | rfl | rfl
    · rcases hpart.extends_.new_link l hl with hl | ⟨-, hge, -⟩
      · exact Or.inl hl
      · exact Or.inr (Or.inr hge)
    · exact Or.inr (Or.inr hpart.entry_ge)
    · exact Or.inr (Or.inl rfl)
  names := hpart.extends_.names
  conditions := hpart.extends_.conditions

include hb

theorem wellFormed_attach : (attach made s part).WellFormed := by
  have hmade := hpart.extends_.wellFormed hb
  refine ⟨hmade.two_le, fun l hl => ?_, fun l hl => ?_⟩
  · rcases mem_links_attach.1 hl with hl | rfl | rfl
    · exact hmade.source_lt l hl
    · exact hmade.start_lt
    · exact hpart.exit_lt
  · rcases mem_links_attach.1 hl with hl | rfl | rfl
    · exact hmade.target_lt l hl
    · exact hpart.entry_lt
    · exact hmade.accept_lt

theorem carries_attach (hsupported : s.isSupported) (hs : b.fragment s = some (part, made)) :
    Carries (attach made s part) s part.exit := by
  have haccept := hb.accept_lt
  refine ⟨hsupported, b, made, part, hb, hs, rfl, ⟨Nat.le_refl _, ?_, List.prefix_rfl,
    List.prefix_rfl, fun l hl hge _ hentry => ?_⟩, ?_, fun l hl htarget => ?_⟩
  · exact fun l hl => mem_links_attach.2 (Or.inl hl)
  · rcases mem_links_attach.1 hl with hl | rfl | rfl
    · exact hl
    · exact absurd (List.mem_singleton_self _) hentry
    · exact absurd haccept (Nat.not_lt_of_le hge)
  · exact mem_links_attach.2 (Or.inr (Or.inl rfl))
  · rcases mem_links_attach.1 hl with hl | rfl | rfl
    · exact absurd htarget (hpart.entry_fresh l hl)
    · rfl
    · exact absurd htarget (Nat.ne_of_lt (Nat.lt_of_lt_of_le haccept hpart.entry_ge))

end Attach

/-- **Compiling a selector** keeps what is compiled, and adds this one. -/
theorem settled_selector (hb : Settled b) (h : b.selector s = some (exit, b')) :
    Settled b' ∧ Grows b b' ∧ Carries b' s exit ∧ b'.acceptances = b.acceptances := by
  rcases selector_cases h with ⟨hlookup, rfl⟩ | ⟨part, made, hsupported, hmade, rfl, rfl⟩
  · have hcarries := hb.carries s exit (mem_of_lookup hlookup)
    exact ⟨hb, .refl b', hcarries, rfl⟩
  · have hpart := part_fragment hb.wellFormed hmade
    have hgrows := grows_attach (s := s) hpart
    have hcarries := carries_attach hb.wellFormed hpart hsupported hmade
    refine ⟨⟨wellFormed_attach hb.wellFormed hpart, fun s' exit hmem => ?_⟩, hgrows, hcarries,
      hpart.extends_.acceptances⟩
    rcases List.mem_cons.1 hmem with heq | hmem
    · obtain ⟨rfl, rfl⟩ := Prod.mk.inj heq
      exact hcarries
    · rw [hpart.extends_.exits] at hmem
      exact (hb.carries s' exit hmem).grows hgrows

/-! ### Rules -/

/-- `b` accepts the declarations of the rules, each at the exit of its selector and under
its number. -/
structure Accepts (b : Builder) (rules : List Rule) : Prop where
  settled : Settled b
  sound : ∀ a ∈ b.acceptances, ∃ rule, rules[a.declaration]? = some rule ∧
    a.pseudo = rule.isPseudo ∧ Carries b rule.selector a.state
  complete : ∀ i < rules.length, ∃ a ∈ b.acceptances, a.declaration = i

theorem accepts_empty : Accepts {} [] :=
  ⟨settled_empty {}, fun _ h => absurd h List.not_mem_nil, fun _ h => absurd h (Nat.not_lt_zero _)⟩

/-- Accepting a declaration changes neither the states nor the edges. -/
theorem grows_accept {state : StateId} {declaration : DeclarationId} {pseudo : Bool} :
    Grows b (b.accept state declaration pseudo) :=
  ⟨Nat.le_refl _, List.Subset.refl _, fun _ => Or.inl, List.prefix_rfl, List.prefix_rfl⟩

theorem Settled.accept {state : StateId} {declaration : DeclarationId} {pseudo : Bool}
    (h : Settled b) : Settled (b.accept state declaration pseudo) :=
  ⟨⟨h.wellFormed.two_le, h.wellFormed.source_lt, h.wellFormed.target_lt⟩,
    fun s x hx => (h.carries s x hx).grows grows_accept⟩

/-- **Adding a rule** adds it to what is accepted. -/
theorem accepts_addRule {rules : List Rule} {rule : Rule} (hb : Accepts b rules)
    (h : b.addRule rule.selector rules.length rule.isPseudo = some b') :
    Accepts b' (rules ++ [rule]) := by
  obtain ⟨⟨exit, b₁⟩, hselector, h⟩ := Option.bind_eq_some_iff.1 h
  obtain rfl := Option.some.inj h
  obtain ⟨hsettled, hgrows, hcarries, hacceptances⟩ := settled_selector hb.settled hselector
  have hmem : ∀ a, a ∈ (b₁.accept exit rules.length rule.isPseudo).acceptances ↔
      a ∈ b.acceptances ∨ a = ⟨exit, rules.length, rule.isPseudo⟩ := by
    intro a
    rw [Builder.accept, List.mem_append, List.mem_singleton, hacceptances]
  refine ⟨hsettled.accept, fun a ha => ?_, fun i hi => ?_⟩
  · rcases (hmem a).1 ha with ha | rfl
    · obtain ⟨rule', hget, hpseudo, hcarries'⟩ := hb.sound a ha
      have hlt := (List.getElem?_eq_some_iff.1 hget).1
      exact ⟨rule', by rw [List.getElem?_append_left hlt, hget], hpseudo,
        (hcarries'.grows hgrows).grows grows_accept⟩
    · exact ⟨rule, by simp, rfl, hcarries.grows grows_accept⟩
  · rw [List.length_append, List.length_singleton] at hi
    rcases Nat.lt_or_eq_of_le (Nat.le_of_lt_succ hi) with hi | rfl
    · obtain ⟨a, ha, hdeclaration⟩ := hb.complete i hi
      exact ⟨a, (hmem a).2 (Or.inl ha), hdeclaration⟩
    · exact ⟨_, (hmem _).2 (Or.inr rfl), rfl⟩

theorem isSome_addRule {declaration : DeclarationId} {pseudo : Bool} (hb : Settled b) :
    (b.addRule s declaration pseudo).isSome ↔ s.isSupported := by
  rw [← isSome_selector hb, addRule]
  cases b.selector s <;> rfl

end Nfa

/-- The rules whose selectors are understood. -/
def understood (rules : List Rule) : List Rule :=
  rules.filter (·.selector.isSupported)

/-- **What is compiled** of a list of rules are those that are understood. -/
theorem accepts_foldl_add (rules : List Rule) :
    Nfa.Accepts (rules.foldl Compilation.add {}).builder (understood rules) ∧
      (rules.foldl Compilation.add {}).declarations =
        (understood rules).map (·.declaration) := by
  -- The induction is on the rules still to come; `known` are those that have been compiled.
  have key : ∀ (rules known : List Rule) (c : Compilation), Nfa.Accepts c.builder known →
      c.declarations = known.map (·.declaration) →
      Nfa.Accepts (rules.foldl Compilation.add c).builder (known ++ understood rules) ∧
        (rules.foldl Compilation.add c).declarations =
          (known ++ understood rules).map (·.declaration) := by
    intro rules
    induction rules with
    | nil =>
      intro known c hc hdeclarations
      rw [understood, List.filter_nil, List.append_nil]
      exact ⟨hc, hdeclarations⟩
    | cons rule rules ih =>
      intro known c hc hdeclarations
      have hlength : c.declarations.length = known.length := by
        rw [hdeclarations, List.length_map]
      have hadd : (c.builder.addRule rule.selector known.length rule.isPseudo).isSome ↔
          rule.selector.isSupported := Nfa.isSome_addRule hc.settled
      rw [List.foldl_cons, Compilation.add, hlength]
      split
      · next b hb =>
        rw [hb] at hadd
        have hrule : understood (rule :: rules) = rule :: understood rules :=
          List.filter_cons_of_pos (hadd.1 rfl)
        rw [hrule, List.append_cons known]
        have haccepts : Nfa.Accepts b (known ++ [rule]) := Nfa.accepts_addRule hc hb
        refine ih _ ⟨b, c.declarations ++ [rule.declaration], c.skipped⟩ haccepts ?_
        rw [List.map_append, ← hdeclarations]
        rfl
      · next hb =>
        rw [hb] at hadd
        have hrule : understood (rule :: rules) = understood rules :=
          List.filter_cons_of_neg fun h => absurd (hadd.2 h) (by decide)
        rw [hrule]
        exact ih _ _ hc hdeclarations
  exact key rules [] {} Nfa.accepts_empty rfl

end StyleStream
