/-
  What each rule contributes to the answers.

  A list of declarations does not say which rules they are from, and different rules may
  have equal declarations. So each rule is given a tag, and each declaration goes together
  with the tag of its rule. The machine accepts numbers, and the numbers of the declarations
  are those of the rules that are understood; so the tags follow the declarations through
  collection and sorting, and without them the answers are the old ones
  (`map_fst_contributions`). What is contributed is again determined by the place of the
  element in the document (`contributions_run`), where every rule is asked for itself. So
  some of the rules contribute by themselves what they contribute among all.
-/
import Mathlib.Data.List.Nodup
import Mathlib.Data.List.Perm.Subperm
import Mathlib.Data.Multiset.Defs
import StyleStream.Proofs.Streaming

namespace StyleStream

variable {α : Type} {pseudo : Option PseudoElement}

/-! ### Tagged declarations -/

/-- The declarations in cascade order, each with its tag. -/
def cascadeSortTagged (l : List (Declaration × α)) : List (Declaration × α) :=
  l.mergeSort fun x y => (x.1.cascade y.1).isLE

theorem perm_cascadeSortTagged (l : List (Declaration × α)) : (cascadeSortTagged l).Perm l :=
  List.mergeSort_perm l _

theorem map_fst_cascadeSortTagged (l : List (Declaration × α)) :
    (cascadeSortTagged l).map (·.1) = cascadeSort (l.map (·.1)) :=
  List.map_mergeSort fun _ _ _ _ => rfl

theorem pairwise_cascadeSortTagged (l : List (Declaration × α)) :
    (cascadeSortTagged l).Pairwise fun x y => (x.1.cascade y.1).isLE := by
  have h := pairwise_cascadeSort (l.map (·.1))
  rwa [← map_fst_cascadeSortTagged, List.pairwise_map] at h

namespace Automaton

variable {M : Type} [Machine M]

/-- What a set of live states accepts, in cascade order. The tags are in the order of the
declarations of the automaton. -/
def collectTagged (a : Automaton M) (tags : List α) (live : List StateId)
    (pseudo : Option PseudoElement) : List (Declaration × α) :=
  cascadeSortTagged (((a.accepted live pseudo).filterMap ((a.declarations.zip tags)[·]?)).filter
    (·.1.pseudoElement = pseudo))

/-- **Without the tags** the same is collected. -/
theorem map_fst_collectTagged {a : Automaton M} {tags : List α}
    (h : tags.length = a.declarations.length) (live : List StateId) :
    (a.collectTagged tags live pseudo).map (·.1) = a.collect live pseudo := by
  have hdeclarations : a.declarations = (a.declarations.zip tags).map (·.1) :=
    (List.map_fst_zip h.ge).symm
  rw [collect_eq_accepted, hdeclarations, collectTagged, map_fst_cascadeSortTagged]
  simp only [List.getElem?_map, ← List.map_filterMap, List.filter_map]
  rfl

theorem collectTagged_cover (a : Automaton Nfa) (tags : List α) (live : List StateId) :
    a.collectTagged tags ((Dfa.ofNfa a.machine).cover live) pseudo =
      a.determinize.collectTagged tags live pseudo := by
  rw [collectTagged, accepted_cover, collectTagged]
  rfl

end Automaton

/-! ### Tagged answers -/

namespace Matcher

variable {M : Type} [Machine M]

/-- The declarations for the current element, or for one of its pseudo-elements, each with
its tag. -/
def tagged (m : Matcher M) (tags : List α) (pseudo : Option PseudoElement) :
    Except Error (List (Declaration × α)) :=
  (m.current (queryFor pseudo)).map fun frame => m.automaton.collectTagged tags frame.live pseudo

theorem map_fst_tagged {m : Matcher M} {tags : List α}
    (h : tags.length = m.automaton.declarations.length) :
    (m.tagged tags pseudo).map (·.map (·.1)) = m.declarationsFor pseudo := by
  rw [tagged, declarationsFor_eq_map]
  cases m.current (queryFor pseudo) with
  | error _ => rfl
  | ok frame => exact congrArg Except.ok (Automaton.map_fst_collectTagged h frame.live)

theorem tagged_expand {a : Automaton Nfa} {m : Matcher Dfa} (h : m.automaton = a.determinize)
    (tags : List α) : (m.expand a).tagged tags pseudo = m.tagged tags pseudo := by
  have hautomaton : (m.expand a).automaton = a := rfl
  rw [tagged, tagged, hautomaton, h,
    map_current_expand (queryFor pseudo) (a.collectTagged tags · pseudo)]
  simp only [Automaton.collectTagged_cover]

theorem tagged_of (a : Automaton M) (config : Config) (r : Reading) (tags : List α) :
    (of a config r).tagged tags pseudo =
      r.answer (queryFor pseudo) fun p => a.collectTagged tags (liveAt a config p) pseudo :=
  map_current_of r (queryFor pseudo) (a.collectTagged tags · pseudo)

end Matcher

/-! ### Rules with tags -/

section Rules

variable {rules : List (Rule × α)} {config : Config} {p : Place}

/-- The tags of the rules that are understood. -/
def understoodTags (rules : List (Rule × α)) : List α :=
  (rules.filter fun x => x.1.selector.isSupported).map (·.2)

/-- **What the rules contribute** to the declarations for the current element of a stream, or
for one of its pseudo-elements: the declarations, each with the tag of its rule. -/
def contributions (rules : List (Rule × α)) (config : Config) (events : List StreamEvent)
    (pseudo : Option PseudoElement) : Except Error (List (Declaration × α)) :=
  ((Matcher.new (.compile (rules.map (·.1))) config).run events).tagged (understoodTags rules) pseudo

/-- The declarations of the rules that match an element, for the element itself or for one of
its pseudo-elements, each with the tag of its rule, in the order of the rules. -/
def matchingTagged (config : Config) (rules : List (Rule × α)) (p : Place)
    (pseudo : Option PseudoElement) : List (Declaration × α) :=
  (rules.filter fun x => x.1.selector.isSupported ∧ x.1.selector.Matches config p ∧
    x.1.declaration.pseudoElement = pseudo).map fun x => (x.1.declaration, x.2)

theorem mem_matchingTagged {x : Declaration × α} : x ∈ matchingTagged config rules p pseudo ↔
    ∃ rule, (rule, x.2) ∈ rules ∧ rule.selector.isSupported ∧ rule.selector.Matches config p ∧
      rule.declaration.pseudoElement = pseudo ∧ rule.declaration = x.1 := by
  obtain ⟨d, tag⟩ := x
  simp only [matchingTagged, List.mem_map, List.mem_filter, decide_eq_true_eq, Prod.mk.injEq]
  constructor
  · rintro ⟨⟨rule, _⟩, ⟨hmem, hsupported, hmatches, hpseudo⟩, hd, rfl⟩
    exact ⟨rule, hmem, hsupported, hmatches, hpseudo, hd⟩
  · rintro ⟨rule, hmem, hsupported, hmatches, hpseudo, hd⟩
    exact ⟨(rule, tag), ⟨hmem, hsupported, hmatches, hpseudo⟩, hd, rfl⟩

/-- The declarations of the compiled rules, in the order of their numbers. -/
theorem declarations_compileNfa_map (rules : List (Rule × α)) :
    (Automaton.compileNfa (rules.map (·.1))).declarations =
      (rules.filter fun x => x.1.selector.isSupported).map (·.1.declaration) := by
  have hunderstood : understood (rules.map (·.1)) =
      (rules.filter fun x => x.1.selector.isSupported).map (·.1) := List.filter_map
  rw [Automaton.compileNfa, (accepts_foldl_add _).2, hunderstood, List.map_map]
  rfl

theorem length_understoodTags (rules : List (Rule × α)) : (understoodTags rules).length =
    (Automaton.compileNfa (rules.map (·.1))).declarations.length := by
  rw [declarations_compileNfa_map, understoodTags, List.length_map, List.length_map]

/-- **What is collected at an element** comes from the rules that match it. -/
theorem collectTagged_liveAt : (Automaton.compileNfa (rules.map (·.1))).collectTagged
    (understoodTags rules) (Matcher.liveAt (.compileNfa (rules.map (·.1))) config p) pseudo =
      cascadeSortTagged (matchingTagged config rules p pseudo) := by
  rw [Automaton.collectTagged, declarations_compileNfa_map, understoodTags, List.zip_map']
  simp only [List.getElem?_map, ← List.map_filterMap, List.filter_map]
  exact congrArg (fun l => cascadeSortTagged (l.map fun x => (x.1.declaration, x.2)))
    (filter_filterMap_accepted (fun x : Rule × α => x.1) rules)

/-- **Without the tags** the contributions are the declarations of the stream. -/
theorem map_fst_contributions (rules : List (Rule × α)) (config : Config)
    (events : List StreamEvent) (pseudo : Option PseudoElement) :
    (contributions rules config events pseudo).map (·.map (·.1)) =
      ((Matcher.new (.compile (rules.map (·.1))) config).run events).declarationsFor pseudo := by
  refine Matcher.map_fst_tagged ?_
  rw [Matcher.automaton_run]
  exact length_understoodTags rules

theorem contributions_run (rules : List (Rule × α)) (config : Config) (events : List StreamEvent)
    (pseudo : Option PseudoElement) : contributions rules config events pseudo =
      (Reading.of events).answer (Matcher.queryFor pseudo) fun p =>
        cascadeSortTagged (matchingTagged config rules p pseudo) := by
  have hautomaton : ((Matcher.new (.compile (rules.map (·.1))) config).run events).automaton =
      (Automaton.compileNfa (rules.map (·.1))).determinize := Matcher.automaton_run _ _
  rw [contributions, ← Matcher.tagged_expand hautomaton, Automaton.compile, ← Matcher.run_expand,
    Matcher.run_new, Matcher.tagged_of]
  simp only [collectTagged_liveAt]

end Rules

theorem Reading.map_answer {β : Type} (r : Reading) (query : Query) (f : Place → α) (g : α → β) :
    (r.answer query f).map g = r.answer query fun p => g (f p) := by
  rw [answer, answer]
  cases r.current? <;> rfl

/-! ### Some of the rules -/

section Kept

variable {rules : List Rule} {kept : List (Rule × Nat)} {config : Config} {p : Place}

/-- What of the contributions comes from the rules with certain numbers. -/
def comingFrom (numbers : List Nat) (l : List (Declaration × Nat)) : List (Declaration × Nat) :=
  l.filter fun x => x.2 ∈ numbers

/-- Numbered rules that have been kept are, in some order, those with the numbers kept. -/
theorem perm_filter_zipIdx (h : kept.Subperm rules.zipIdx) :
    kept.Perm (rules.zipIdx.filter fun x => x.2 ∈ kept.map (·.2)) := by
  have hnumbers : rules.zipIdx.Nodup := by
    refine List.Nodup.of_map (·.2) ?_
    rw [List.zipIdx_map_snd]
    exact List.nodup_range'
  have hkept : kept.Nodup := by
    obtain ⟨sublist, hperm, hsublist⟩ := h
    exact hperm.nodup_iff.1 (hnumbers.sublist hsublist)
  refine (List.perm_ext_iff_of_nodup hkept (hnumbers.filter _)).2 fun x => ?_
  rw [List.mem_filter, decide_eq_true_eq, List.mem_map]
  constructor
  · intro hx
    exact ⟨h.subset hx, x, hx, rfl⟩
  · rintro ⟨hx, y, hy, hnumber⟩
    -- A number belongs to one rule.
    have hget := List.mem_zipIdx_iff_getElem?.1 (h.subset hy)
    rw [hnumber, List.mem_zipIdx_iff_getElem?.1 hx] at hget
    rwa [Prod.ext (Option.some.inj hget) hnumber.symm]

/-- **At an element** the kept rules match as they do among all the rules. -/
theorem perm_matchingTagged (h : kept.Subperm rules.zipIdx) :
    (matchingTagged config kept p pseudo).Perm
      (comingFrom (kept.map (·.2)) (matchingTagged config rules.zipIdx p pseudo)) := by
  refine (((perm_filter_zipIdx h).filter _).map _).trans (List.Perm.of_eq ?_)
  rw [comingFrom, matchingTagged, List.filter_map, List.filter_filter, List.filter_filter]
  refine congrArg _ (List.filter_congr fun x _ => ?_)
  exact Bool.and_comm _ _

theorem perm_cascadeSortTagged_matchingTagged (h : kept.Subperm rules.zipIdx) :
    (cascadeSortTagged (matchingTagged config kept p pseudo)).Perm
      (comingFrom (kept.map (·.2))
        (cascadeSortTagged (matchingTagged config rules.zipIdx p pseudo))) :=
  (perm_cascadeSortTagged _).trans <|
    (perm_matchingTagged h).trans ((perm_cascadeSortTagged _).filter _).symm

/-- **Where positions differ**, declarations that tie in the cascade come from one rule. -/
theorem eq_of_cascade_eq (hpositions : (rules.map (·.declaration.position)).Nodup)
    {x y : Declaration × Nat} (hx : x ∈ matchingTagged config rules.zipIdx p pseudo)
    (hy : y ∈ matchingTagged config rules.zipIdx p pseudo) (htie : x.1.cascade y.1 = .eq) :
    x = y := by
  obtain ⟨rule, hrule, -, -, -, hdeclaration⟩ := mem_matchingTagged.1 hx
  obtain ⟨rule', hrule', -, -, -, hdeclaration'⟩ := mem_matchingTagged.1 hy
  rw [List.mem_zipIdx_iff_getElem?] at hrule hrule'
  have hposition : x.1.position = y.1.position := (Declaration.cascade_eq_iff.1 htie).2.2.2
  have hnumber : x.2 = y.2 := by
    have hlt := (List.getElem?_eq_some_iff.1 hrule).1
    refine (List.getElem?_inj ((List.length_map _).symm ▸ hlt) hpositions).1 ?_
    simp only [List.getElem?_map, hrule, hrule', Option.map_some, hdeclaration, hdeclaration',
      hposition]
  rw [hnumber, hrule'] at hrule
  have hsame : rule' = rule := Option.some.inj hrule
  refine Prod.ext ?_ hnumber
  rw [← hdeclaration, ← hdeclaration', hsame]

theorem cascadeSortTagged_matchingTagged (h : kept.Subperm rules.zipIdx)
    (hpositions : (rules.map (·.declaration.position)).Nodup) :
    cascadeSortTagged (matchingTagged config kept p pseudo) =
      comingFrom (kept.map (·.2))
        (cascadeSortTagged (matchingTagged config rules.zipIdx p pseudo)) := by
  have hperm : (cascadeSortTagged (matchingTagged config kept p pseudo)).Perm
      (comingFrom (kept.map (·.2))
        (cascadeSortTagged (matchingTagged config rules.zipIdx p pseudo))) :=
    perm_cascadeSortTagged_matchingTagged h
  have hmem : ∀ x ∈ cascadeSortTagged (matchingTagged config kept p pseudo),
      x ∈ matchingTagged config rules.zipIdx p pseudo := fun x hx =>
    (perm_cascadeSortTagged _).mem_iff.1 (List.mem_filter.1 (hperm.mem_iff.1 hx)).1
  refine hperm.eq_of_pairwise (fun x y hx hy hxy hyx => ?_) (pairwise_cascadeSortTagged _)
    ((pairwise_cascadeSortTagged _).filter _)
  exact eq_of_cascade_eq hpositions (hmem x hx) (hmem y (hperm.mem_iff.2 hy))
    (Std.OrientedCmp.isLE_antisymm hxy hyx)

/-- **Rules do not interfere.** Let some of the rules of a list be kept, in any order, each with
its number in the full list. After every stream of events they contribute to the declarations
for the current element, and for each of its pseudo-elements, what they contribute among all
the rules: the same declarations of the same rules, each as often; and if no two rules have
the same position, in the same order. -/
theorem contributions_of_subperm (rules : List Rule) (kept : List (Rule × Nat))
    (h : kept.Subperm rules.zipIdx) (config : Config) (events : List StreamEvent)
    (pseudo : Option PseudoElement) :
    let part := contributions kept config events pseudo
    let whole := contributions rules.zipIdx config events pseudo
    let keptFrom := comingFrom (kept.map (·.2))
    part.map (·.map (·.1)) = ((Matcher.new (.compile (kept.map (·.1))) config).run
        events).declarationsFor pseudo ∧
      whole.map (·.map (·.1)) = ((Matcher.new (.compile rules) config).run
        events).declarationsFor pseudo ∧
      part.map Multiset.ofList = whole.map (fun l => Multiset.ofList (keptFrom l)) ∧
      ((rules.map (·.declaration.position)).Nodup → part = whole.map keptFrom) := by
  intro part whole keptFrom
  have hrules : rules.zipIdx.map (·.1) = rules := List.zipIdx_map_fst 0 rules
  have hpart : part = (Reading.of events).answer (Matcher.queryFor pseudo) fun p =>
      cascadeSortTagged (matchingTagged config kept p pseudo) := contributions_run ..
  have hwhole : whole = (Reading.of events).answer (Matcher.queryFor pseudo) fun p =>
      cascadeSortTagged (matchingTagged config rules.zipIdx p pseudo) := contributions_run ..
  refine ⟨map_fst_contributions .., ?_, ?_, fun hpositions => ?_⟩
  · rw [← congrArg Automaton.compile hrules]
    exact map_fst_contributions ..
  · rw [hpart, hwhole, Reading.map_answer, Reading.map_answer]
    refine congrArg _ (funext fun p => ?_)
    exact Multiset.coe_eq_coe.2 (perm_cascadeSortTagged_matchingTagged h)
  · rw [hpart, hwhole, Reading.map_answer]
    exact congrArg _ (funext fun p => cascadeSortTagged_matchingTagged h hpositions)

/-- Four rules for paragraphs. -/
def paragraphRules : List Rule :=
  [.ofName "p" { property := "color", value := "black" },
    .of (.combined .adjacent (.ofName "h1") (.ofName "p"))
      { property := "color", value := "gray", position := 1 },
    .of ((Selector.ofName "p").filtered (.className "note"))
      { property := "color", value := "blue", position := 2 },
    .of (.combined .child (.ofName "p") (.pseudo .before))
      { property := "content", value := "*", position := 3 }]

/-- The third rule and the first, in this order. -/
def keptParagraphRules : List (Rule × Nat) :=
  [(.of ((Selector.ofName "p").filtered (.className "note"))
      { property := "color", value := "blue", position := 2 }, 2),
    (.ofName "p" { property := "color", value := "black" }, 0)]

/-- A note after a heading. -/
theorem contributions_of_subperm_note :
    let events : List StreamEvent := [.starts { localName := "h1" }, .ends,
      .starts { localName := "p", attributes := [{ localName := "class", value := "note" }] }]
    keptParagraphRules.Subperm paragraphRules.zipIdx ∧
      (paragraphRules.map (·.declaration.position)).Nodup ∧
      contributions keptParagraphRules {} events none =
        (contributions paragraphRules.zipIdx {} events none).map (comingFrom [2, 0]) := by
  intro events
  have hkept : keptParagraphRules.Subperm paragraphRules.zipIdx := by decide
  have hpositions : (paragraphRules.map (·.declaration.position)).Nodup := by decide
  exact ⟨hkept, hpositions,
    (contributions_of_subperm paragraphRules keptParagraphRules hkept {} events none).2.2.2
      hpositions⟩

end Kept

end StyleStream
