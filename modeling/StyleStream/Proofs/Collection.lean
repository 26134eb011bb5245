/-
  What is collected from live states, whatever order they come in.

  A state keeps its declarations for elements apart from those for pseudo-elements, since a rule
  is accepted with a flag that says which kind it is (`Split`). So it is enough to say which rules
  the live states accept, one way or the other, and which of them are for what is asked about.
  Each of these rules gives one entry, and sorting breaks ties by the indices of the rules,
  because the numbers of the compiled rules ascend with their indices (`Collects`). That leaves no
  choice of the result, and nothing of it depends on the order in which the live states are
  listed, nor on how often each of them is.
-/
import StyleStream.Proofs.Contributions
import StyleStream.Proofs.Sorting

namespace StyleStream

/-! ### Indices of rules -/

/-- The number of the rule at an index among the compiled rules: how many are compiled before
it. -/
def compiledNumber (rules : List Rule) (index : Nat) : DeclarationId :=
  (understood (rules.take index)).length

/-- **What a numbered list keeps** of its members: each comes behind those kept before it. -/
theorem getElem?_filter_zipIdx {α : Type} {P : α → Bool} {l : List α} {offset i n : Nat} {a : α} :
    ((l.zipIdx offset).filter fun x => P x.1)[i]? = some (a, n) ↔
      ∃ m : Nat, l[m]? = some a ∧ P a ∧ n = offset + m ∧ i = ((l.take m).filter P).length := by
  induction l generalizing offset i with
  | nil => simp
  | cons b l ih =>
    rw [List.zipIdx_cons]
    by_cases hb : P b
    · rw [List.filter_cons_of_pos (p := fun x : α × Nat => P x.1) hb]
      cases i with
      | zero =>
        rw [List.getElem?_cons_zero, Option.some.injEq, Prod.mk.injEq]
        constructor
        · rintro ⟨rfl, rfl⟩
          exact ⟨0, rfl, hb, rfl, rfl⟩
        · rintro ⟨m, hm, -, rfl, hlength⟩
          cases m with
          | zero => exact ⟨Option.some.inj hm, rfl⟩
          | succ m => simp [hb] at hlength
      | succ i =>
        rw [List.getElem?_cons_succ, ih]
        constructor
        · rintro ⟨m, hm, ha, rfl, rfl⟩
          exact ⟨m + 1, hm, ha, by omega, by simp [hb]⟩
        · rintro ⟨m, hm, ha, rfl, hlength⟩
          cases m with
          | zero => simp at hlength
          | succ m => exact ⟨m, hm, ha, by omega, by simpa [hb] using hlength⟩
    · rw [List.filter_cons_of_neg (p := fun x : α × Nat => P x.1) hb, ih]
      constructor
      · rintro ⟨m, hm, ha, rfl, rfl⟩
        exact ⟨m + 1, hm, ha, by omega, by simp [hb]⟩
      · rintro ⟨m, hm, ha, rfl, rfl⟩
        cases m with
        | zero =>
          obtain rfl : b = a := Option.some.inj hm
          exact absurd ha hb
        | succ m => exact ⟨m, hm, ha, by omega, by simp [hb]⟩

/-- **The declarations of the compiled rules**, each with the index of its rule. -/
theorem getElem?_zip_understoodTags {rules : List Rule} {i : DeclarationId} {d : Declaration}
    {index : Nat} :
    ((Automaton.compileNfa rules).declarations.zip (understoodTags rules.zipIdx))[i]? =
        some (d, index) ↔
      ∃ rule, rules[index]? = some rule ∧ rule.selector.isSupported ∧ rule.declaration = d ∧
        i = compiledNumber rules index := by
  have hdeclarations := declarations_compileNfa_map rules.zipIdx
  rw [List.zipIdx_map_fst] at hdeclarations
  rw [hdeclarations, understoodTags, List.zip_map', List.getElem?_map, Option.map_eq_some_iff]
  have hfilter : ∀ rule, (rules.zipIdx.filter fun x => x.1.selector.isSupported)[i]? =
      some (rule, index) ↔ ∃ m, rules[m]? = some rule ∧ rule.selector.isSupported ∧
        index = 0 + m ∧ i = compiledNumber rules m :=
    fun _ => getElem?_filter_zipIdx (P := fun rule : Rule => rule.selector.isSupported)
  constructor
  · rintro ⟨⟨rule, n⟩, hget, heq⟩
    obtain ⟨rfl, rfl⟩ := Prod.mk.inj heq
    obtain ⟨m, hm, hsupported, hindex, hi⟩ := (hfilter rule).1 hget
    rw [Nat.zero_add] at hindex
    subst hindex
    exact ⟨rule, hm, hsupported, rfl, hi⟩
  · rintro ⟨rule, hrule, hsupported, rfl, hi⟩
    exact ⟨(rule, index), (hfilter rule).2
      ⟨index, hrule, hsupported, (Nat.zero_add index).symm, hi⟩, rfl⟩

theorem pairwise_understoodTags (rules : List Rule) :
    (understoodTags rules.zipIdx).Pairwise (· < ·) := by
  have hsublist : (understoodTags rules.zipIdx).Sublist (rules.zipIdx.map (·.2)) :=
    List.filter_sublist.map _
  rw [List.zipIdx_map_snd] at hsublist
  exact (List.pairwise_lt_range' 1).sublist hsublist

namespace Automaton

variable {M : Type} [Machine M]

/-! ### Accepted declarations -/

/-- The state accepts the declaration with the number, for the element or for one of its
pseudo-elements. -/
def AcceptsAt (a : Automaton M) (q : StateId) (i : DeclarationId) : Prop :=
  i ∈ Machine.declarations a.machine q ∨ i ∈ Machine.pseudoDeclarations a.machine q

/-- The states keep declarations for elements apart from those for pseudo-elements. -/
structure Split (a : Automaton M) : Prop where
  declarations : ∀ q, ∀ i ∈ Machine.declarations a.machine q, ∀ d,
    a.declarations[i]? = some d → d.pseudoElement = none
  pseudoDeclarations : ∀ q, ∀ i ∈ Machine.pseudoDeclarations a.machine q, ∀ d,
    a.declarations[i]? = some d → d.pseudoElement ≠ none

/-- **Compiling keeps them apart**: a rule is accepted with the flag that says what it is for. -/
theorem split_compileNfa (rules : List Rule) : (compileNfa rules).Split := by
  obtain ⟨haccepts, hdeclarations⟩ := accepts_foldl_add rules
  have hflag : ∀ pseudo q, ∀ i ∈ acceptedAt (compileNfa rules).machine pseudo q, ∀ d,
      (compileNfa rules).declarations[i]? = some d → d.pseudoElement.isSome = pseudo.isSome := by
    intro pseudo q i hi d hd
    obtain ⟨-, hmem⟩ := mem_acceptedAt_build.1 hi
    obtain ⟨rule, hrule, hpseudo, -⟩ := haccepts.sound _ hmem
    have hget : (compileNfa rules).declarations[i]? = some rule.declaration := by
      rw [compileNfa, hdeclarations, List.getElem?_map, hrule, Option.map_some]
    obtain rfl := Option.some.inj (hget.symm.trans hd)
    exact hpseudo.symm
  constructor
  case declarations =>
    intro q i hi d hd
    exact Option.isNone_iff_eq_none.1 (by simpa using hflag none q i hi d hd)
  case pseudoDeclarations =>
    intro q i hi d hd
    exact Option.isSome_iff_ne_none.1 (hflag (some .before) q i hi d hd)

/-- **So does the subset construction.** -/
theorem Split.determinize {a : Automaton Nfa} (h : a.Split) : a.determinize.Split where
  declarations id i hi := by
    obtain ⟨q, -, hq⟩ := Machine.mem_declarations_ofNfa.1 hi
    exact h.declarations q i hq
  pseudoDeclarations id i hi := by
    obtain ⟨q, -, hq⟩ := Machine.mem_pseudoDeclarations_ofNfa.1 hi
    exact h.pseudoDeclarations q i hq

variable {a : Automaton M} {live live' : List StateId} {pseudo : Option PseudoElement}

/-- A declaration for what is asked about is in the lists that are read, if in any. -/
theorem Split.mem_accepted (h : a.Split) {i : DeclarationId} {d : Declaration}
    (hd : a.declarations[i]? = some d) (hpseudo : d.pseudoElement = pseudo) :
    i ∈ a.accepted live pseudo ↔ ∃ q ∈ live, a.AcceptsAt q i := by
  unfold accepted
  rw [mem_ascending, List.mem_flatMap]
  refine exists_congr fun q => and_congr_right fun _ => ?_
  cases pseudo with
  | none =>
    refine ⟨Or.inl, fun hq => hq.resolve_right fun hi => ?_⟩
    exact h.pseudoDeclarations q i hi d hd hpseudo
  | some pseudo =>
    refine ⟨Or.inr, fun hq => hq.resolve_left fun hi => ?_⟩
    rw [h.declarations q i hi d hd] at hpseudo
    cases hpseudo

/-- Only the members of the list of live states count. -/
theorem collect_congr (a : Automaton M) (h : ∀ q, q ∈ live ↔ q ∈ live')
    (pseudo : Option PseudoElement) : a.collect live pseudo = a.collect live' pseudo := by
  have haccepted : a.accepted live pseudo = a.accepted live' pseudo := by
    refine eq_of_pairwise_of_mem_iff (pairwise_accepted _ _ _) (pairwise_accepted _ _ _) fun i => ?_
    unfold accepted
    simp only [mem_ascending, List.mem_flatMap, h]
  rw [collect_eq_accepted, haccepted, collect_eq_accepted]

/-! ### Entries -/

/-- The entries are the declarations of the rules that the live states accept, as far as they are
for what is asked about, each with the index of its rule. They are in cascade order, and those
that tie are in the order of their rules. -/
structure Collects (a : Automaton M) (rules : List Rule) (live : List StateId)
    (pseudo : Option PseudoElement) (entries : List (Declaration × Nat)) : Prop where
  mem_iff : ∀ d index, (d, index) ∈ entries ↔
    ∃ rule, rules[index]? = some rule ∧ rule.selector.isSupported ∧ rule.declaration = d ∧
      d.pseudoElement = pseudo ∧ ∃ q ∈ live, a.AcceptsAt q (compiledNumber rules index)
  sorted : entries.Pairwise fun x y =>
    x.1.cascade y.1 = .lt ∨ x.1.cascade y.1 = .eq ∧ x.2 < y.2

/-- **There is one such list only**: it holds no entry twice, and its order is strict. -/
theorem Collects.unique {rules : List Rule} {entries entries' : List (Declaration × Nat)}
    (h : a.Collects rules live pseudo entries) (h' : a.Collects rules live pseudo entries') :
    entries = entries' := by
  have hself : ∀ d : Declaration, d.cascade d = .eq :=
    fun _ => Declaration.cascade_eq_iff.2 ⟨rfl, rfl, rfl, rfl⟩
  have hswap : ∀ d d' : Declaration, d'.cascade d = (d.cascade d').swap :=
    fun _ _ => Std.OrientedCmp.eq_swap
  have hnodup : ∀ {l : List (Declaration × Nat)}, (l.Pairwise fun x y =>
      x.1.cascade y.1 = .lt ∨ x.1.cascade y.1 = .eq ∧ x.2 < y.2) → l.Nodup := by
    intro l hl
    refine hl.imp fun {x y} hxy heq => ?_
    subst heq
    rcases hxy with hlt | ⟨-, hlt⟩
    · rw [hself] at hlt
      cases hlt
    · exact Nat.lt_irrefl _ hlt
  have hperm : entries.Perm entries' := by
    refine (List.perm_ext_iff_of_nodup (hnodup h.sorted) (hnodup h'.sorted)).2 fun x => ?_
    exact (h.mem_iff x.1 x.2).trans (h'.mem_iff x.1 x.2).symm
  -- No two entries can each stand before the other.
  refine hperm.eq_of_pairwise (fun x y _ _ hxy hyx => absurd hyx ?_) h.sorted h'.sorted
  rw [hswap x.1 y.1]
  rcases hxy with hlt | ⟨heq, hlt⟩
  · simp [hlt]
  · simp only [heq, Ordering.swap_eq, reduceCtorEq, false_or, true_and]
    omega

/-- Tags that ascend with the numbers of the declarations break the ties. -/
theorem sorted_collectTagged {tags : List Nat} (htags : tags.Pairwise (· < ·))
    (live : List StateId) (pseudo : Option PseudoElement) :
    (a.collectTagged tags live pseudo).Pairwise fun x y =>
      x.1.cascade y.1 = .lt ∨ x.1.cascade y.1 = .eq ∧ x.2 < y.2 := by
  -- Before they are sorted the entries are in the order of their tags.
  have hascending : (((a.accepted live pseudo).filterMap ((a.declarations.zip tags)[·]?)).filter
      (·.1.pseudoElement = pseudo)).Pairwise fun x y => x.2 < y.2 := by
    refine List.Pairwise.filter _ (List.pairwise_filterMap.2 ?_)
    refine (pairwise_accepted a live pseudo).imp fun {i j} hlt x hx y hy => ?_
    obtain ⟨-, hi⟩ := List.getElem?_zip_eq_some.1 hx
    obtain ⟨-, hj⟩ := List.getElem?_zip_eq_some.1 hy
    obtain ⟨hilt, hi⟩ := List.getElem?_eq_some_iff.1 hi
    obtain ⟨hjlt, hj⟩ := List.getElem?_eq_some_iff.1 hj
    rw [← hi, ← hj]
    exact List.pairwise_iff_getElem.1 htags i j hilt hjlt hlt
  have hstable := pairwise_mergeSort_of_pairwise
    (fun x y z : Declaration × Nat => Declaration.isLE_cascade_trans x.1 y.1 z.1)
    (fun x y => Declaration.isLE_cascade_total x.1 y.1) hascending
  refine hstable.imp fun {x y} hxy => ?_
  rcases Ordering.isLE_iff_eq_lt_or_eq_eq.1 hxy.1 with hlt | heq
  · exact Or.inl hlt
  · have hswap : y.1.cascade x.1 = (x.1.cascade y.1).swap := Std.OrientedCmp.eq_swap
    rw [heq] at hswap
    exact Or.inr ⟨heq, hxy.2 (by rw [hswap]; rfl)⟩

/-- **What is collected** from an automaton for the rules that keeps declarations apart. -/
theorem Split.collects (h : a.Split) {rules : List Rule}
    (hdeclarations : a.declarations = (compileNfa rules).declarations) (live : List StateId)
    (pseudo : Option PseudoElement) :
    ∃ entries, a.Collects rules live pseudo entries ∧
      a.collect live pseudo = entries.map (·.1) := by
  have hlength : (understoodTags rules.zipIdx).length = a.declarations.length := by
    rw [length_understoodTags, List.zipIdx_map_fst, hdeclarations]
  refine ⟨a.collectTagged (understoodTags rules.zipIdx) live pseudo, ⟨fun d index => ?_,
    sorted_collectTagged (pairwise_understoodTags rules) live pseudo⟩,
    (map_fst_collectTagged hlength live).symm⟩
  rw [collectTagged, (perm_cascadeSortTagged _).mem_iff, List.mem_filter, List.mem_filterMap,
    decide_eq_true_eq, hdeclarations]
  simp only [getElem?_zip_understoodTags]
  -- The number of a compiled rule leads to its declaration, and so to the lists it can be in.
  have hnumber : ∀ rule, rules[index]? = some rule → rule.selector.isSupported →
      a.declarations[compiledNumber rules index]? = some rule.declaration := by
    intro rule hrule hsupported
    have hget := getElem?_zip_understoodTags.2 ⟨rule, hrule, hsupported, rfl, rfl⟩
    rw [hdeclarations]
    exact (List.getElem?_zip_eq_some.1 hget).1
  constructor
  · rintro ⟨⟨_, haccepted, rule, hrule, hsupported, rfl, rfl⟩, hpseudo⟩
    exact ⟨rule, hrule, hsupported, rfl, hpseudo,
      (h.mem_accepted (hnumber rule hrule hsupported) hpseudo).1 haccepted⟩
  · rintro ⟨rule, hrule, hsupported, rfl, hpseudo, hlive⟩
    exact ⟨⟨_, (h.mem_accepted (hnumber rule hrule hsupported) hpseudo).2 hlive, rule, hrule,
      hsupported, rfl, rfl⟩, hpseudo⟩

/-- What is collected from any live states of the automaton are the declarations of the entries,
and the states count as a set. -/
structure CollectsSets (a : Automaton M) (rules : List Rule) : Prop where
  entries : ∀ live pseudo, ∃! entries, a.Collects rules live pseudo entries ∧
    a.collect live pseudo = entries.map (·.1)
  congr : ∀ live live' pseudo, (∀ q, q ∈ live ↔ q ∈ live') →
    a.collect live pseudo = a.collect live' pseudo

theorem Split.collectsSets (h : a.Split) {rules : List Rule}
    (hdeclarations : a.declarations = (compileNfa rules).declarations) : a.CollectsSets rules where
  entries live pseudo := by
    obtain ⟨entries, hcollects, hmap⟩ := h.collects hdeclarations live pseudo
    exact ⟨entries, ⟨hcollects, hmap⟩, fun _ hother => hother.1.unique hcollects⟩
  congr _ _ pseudo hsame := a.collect_congr hsame pseudo

/-- **Collection depends on nothing but the set of live states.** On both automata for a list of
rules, and for any list of states, the declarations that are collected are those of the rules that
some listed state accepts and that are for what is asked about, each once, in cascade order, and
where they tie in the order of the rules. Listing the states in another order, or some of
them more than once, changes nothing. The cascade order is a total preorder, and two
declarations tie exactly if they agree in property, importance, specificity and position. -/
theorem collect_exact (rules : List Rule) :
    (compileNfa rules).CollectsSets rules ∧ (compile rules).CollectsSets rules ∧
      (∀ a b : Declaration, (a.cascade b).isLE || (b.cascade a).isLE) ∧
      (∀ a b c : Declaration, (a.cascade b).isLE → (b.cascade c).isLE → (a.cascade c).isLE) ∧
      (∀ a b : Declaration, b.cascade a = (a.cascade b).swap) ∧
      ∀ a b : Declaration, a.cascade b = .eq ↔ a.property = b.property ∧
        a.important = b.important ∧ a.specificity = b.specificity ∧ a.position = b.position := by
  have hsplit := split_compileNfa rules
  exact ⟨hsplit.collectsSets rfl, hsplit.determinize.collectsSets rfl,
    Declaration.isLE_cascade_total, Declaration.isLE_cascade_trans,
    fun _ _ => Std.OrientedCmp.eq_swap, fun _ _ => Declaration.cascade_eq_iff⟩

end Automaton

end StyleStream
