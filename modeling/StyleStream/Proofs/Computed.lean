/-
  Which rule decides a property.

  Everything meets here: the sheets that survive a history of the engine, the
  positions to which their rules are moved, the declarations that the current element
  of a stream receives, and the cascade. Of the candidates whose declarations the
  element receives for a property, the greatest by importance, specificity, origin,
  registration and index wins (`mem_winners_iff_wins`).
-/
import Mathlib.Algebra.Group.Nat.Defs
import StyleStream.Proofs.Precedence
import StyleStream.Proofs.Provenance
import StyleStream.Proofs.Streaming
import StyleStream.Proofs.Transparency

namespace StyleStream

/-! ### Winning candidates -/

/-- The candidate is the greatest of those whose declarations for the property are listed. -/
structure Candidate.Wins (sheets : List Sheet) (declarations : List Declaration)
    (property : String) (c : Candidate) : Prop where
  isOf : c.IsOf sheets
  mem : c.declaration sheets ∈ declarations
  property_eq : c.rule.declaration.property = property
  greatest : ∀ other : Candidate, other.IsOf sheets → other.declaration sheets ∈ declarations →
    other.rule.declaration.property = property → other ≠ c → other.precedence c = .lt

section Wins

variable {sheets : List Sheet} {declarations : List Declaration} {property : String}
  {d : Declaration} (hfits : ∀ origin, ((rulesOf sheets origin).length : Int) ≤ Origin.bandWidth)
include hfits

/-- A declaration comes from one candidate only. -/
theorem eq_of_declaration_eq {a b : Candidate} (ha : a.IsOf sheets) (hb : b.IsOf sheets)
    (h : a.declaration sheets = b.declaration sheets) : a = b :=
  Candidate.eq_of_place_eq hfits ha hb (congrArg Declaration.position h)

/-- No two candidates come at the same time. -/
theorem precedence_ne_eq {a b : Candidate} (ha : a.IsOf sheets) (hb : b.IsOf sheets) (hne : a ≠ b) :
    a.precedence b ≠ .eq := by
  intro heq
  simp only [Candidate.precedence, Ordering.then_eq_eq] at heq
  have hplace := Candidate.compare_place hfits ha hb
  rw [heq.2.2.1, heq.2.2.2.1, heq.2.2.2.2] at hplace
  exact hne (Candidate.eq_of_place_eq hfits ha hb (Int.compare_eq_eq.1 hplace))

/-- Of two candidates for a property only one wins. -/
theorem eq_of_wins {a b : Candidate} (ha : a.Wins sheets declarations property)
    (hb : b.Wins sheets declarations property) : a = b := by
  by_contra hne
  have hab := hb.greatest a ha.isOf ha.mem ha.property_eq hne
  have hba := ha.greatest b hb.isOf hb.mem hb.property_eq fun heq => hne heq.symm
  have hproperty := ha.property_eq.trans hb.property_eq.symm
  rw [← Candidate.cascade_declaration hfits ha.isOf hb.isOf hproperty] at hab
  rw [← Candidate.cascade_declaration hfits hb.isOf ha.isOf hproperty.symm] at hba
  have hswap : (b.declaration sheets).cascade (a.declaration sheets) =
      ((a.declaration sheets).cascade (b.declaration sheets)).swap := Std.OrientedCmp.eq_swap
  rw [hab, hba] at hswap
  cases hswap

/-- **The table of winners lists the winning candidates.** -/
theorem mem_winners_iff_wins
    (hlisted : ∀ d ∈ declarations, ∃ c : Candidate, c.IsOf sheets ∧ c.declaration sheets = d) :
    (property, d) ∈ winners (cascadeSort declarations) ↔
      ∃ c : Candidate, c.Wins sheets declarations property ∧ c.declaration sheets = d := by
  have hwins : ∀ d, (property, d) ∈ winners (cascadeSort declarations) →
      ∃ c : Candidate, c.Wins sheets declarations property ∧ c.declaration sheets = d := by
    intro d h
    obtain ⟨hd, hproperty, hgreatest⟩ := isLE_cascade_of_mem_winners h
    obtain ⟨c, hc, rfl⟩ := hlisted d hd
    refine ⟨c, ⟨hc, hd, hproperty, fun other hother hmem hother' hne => ?_⟩, rfl⟩
    have hle := hgreatest _ hmem hother'
    rw [Candidate.cascade_declaration hfits hother hc (hother'.trans hproperty.symm)] at hle
    rcases Ordering.isLE_iff_eq_lt_or_eq_eq.1 hle with hlt | heq
    · exact hlt
    · exact absurd heq (precedence_ne_eq hfits hother hc hne)
  constructor
  · exact hwins d
  · rintro ⟨c, hc, rfl⟩
    -- The property has some winner, and by the first half this winner is `c`.
    obtain ⟨winner, hwinner⟩ := exists_mem_winners (mem_cascadeSort.2 hc.mem)
    have hproperty : (c.declaration sheets).property = property := hc.property_eq
    rw [hproperty] at hwinner
    obtain ⟨c', hc', rfl⟩ := hwins winner hwinner
    rw [eq_of_wins hfits hc hc']
    exact hwinner

end Wins

/-! ### What an engine computes -/

namespace Engine

/-- What a matcher of an engine lists is in cascade order, and comes from the surviving sheets. -/
theorem declarations_run_matcher {config : Config} {history : List Operation}
    {eviction : Eviction} {events : List StreamEvent} {declarations : List Declaration}
    (h : ((((new config).run history).matcherKeeping eviction.keep).2.1.run
      events).declarations = .ok declarations) :
    cascadeSort declarations = declarations ∧ ∀ d ∈ declarations, ∃ c : Candidate,
      c.IsOf (survivors history) ∧ c.declaration (survivors history) = d := by
  have hcoherent : ((new config).run history).Coherent := coherent_run (coherent_new config) history
  rw [matcherKeeping_of_coherent hcoherent, Matcher.declarations_run, Reading.answer] at h
  cases hcurrent : (Reading.of events).current? with
  | none =>
    rw [hcurrent] at h
    cases h
  | some p =>
    rw [hcurrent] at h
    obtain rfl := Except.ok.inj h
    refine ⟨cascadeSort_cascadeSort _, fun d hd => ?_⟩
    obtain ⟨rule, hrule, rfl⟩ := List.mem_map.1 (mem_cascadeSort.1 hd)
    have hmem := (List.mem_filter.1 hrule).1
    rw [rules, sheets_run] at hmem
    obtain ⟨c, hc, rfl⟩ := Candidate.mem_mergeRules_byOrigin.1 hmem
    exact ⟨c, hc, rfl⟩

/-- **The cascade from end to end.** Let an engine have any history that leaves no origin
with more rules than its band has positions, and let a matcher of it have followed any
stream. Then what is computed for the current element has its properties in strictly
ascending order; it has an entry for each property that occurs among the declarations of the
element; and the entry of a property is the declaration of the greatest candidate. Each of
these declarations comes from one candidate. -/
theorem computed_run_matcher (config : Config) (history : List Operation) (eviction : Eviction)
    (events : List StreamEvent) (declarations : List Declaration)
    (hfits : ∀ origin, (rulesOf (survivors history) origin).length ≤ 2 ^ 40)
    (hdeclarations : ((((new config).run history).matcherKeeping eviction.keep).2.1.run
      events).declarations = .ok declarations) :
    (∀ d ∈ declarations, ∃! c : Candidate,
      c.IsOf (survivors history) ∧ c.declaration (survivors history) = d) ∧
    ∃ table, ((((new config).run history).matcherKeeping eviction.keep).2.1.run
        events).computed = .ok table ∧
      (table.map (·.1)).Pairwise (· < ·) ∧
      (∀ property, property ∈ table.map (·.1) ↔ ∃ d ∈ declarations, d.property = property) ∧
      ∀ property d, (property, d) ∈ table ↔ ∃ c : Candidate,
        c.Wins (survivors history) declarations property ∧
          c.declaration (survivors history) = d := by
  have hfits' : ∀ origin,
      ((rulesOf (survivors history) origin).length : Int) ≤ Origin.bandWidth := by
    intro origin
    have := hfits origin
    unfold Origin.bandWidth
    omega
  obtain ⟨hsorted, hlisted⟩ := declarations_run_matcher hdeclarations
  refine ⟨fun d hd => ?_, winners declarations, ?_, ?_, fun property => ?_, fun property d => ?_⟩
  · obtain ⟨c, hc, hd⟩ := hlisted d hd
    refine ⟨c, ⟨hc, hd⟩, fun other hother => ?_⟩
    exact eq_of_declaration_eq hfits' hother.1 hc (hother.2.trans hd.symm)
  · rw [Matcher.computed, hdeclarations]
    rfl
  · rw [← hsorted]
    exact pairwise_map_fst_winners declarations
  · rw [map_fst_winners, mem_foldl_intern, List.mem_map]
    simp
  · have h : (property, d) ∈ winners (cascadeSort declarations) ↔ _ :=
      mem_winners_iff_wins hfits' hlisted
    rwa [hsorted] at h

/-- A history with an important default, two sheets of the author that set the same
property, and a third one that is given up after it has been compiled. -/
def contested : List Operation :=
  [.addSheet { rules := [.ofName "p" { property := "margin", value := "0" }] },
    .addSheet
      { source := some "draft"
        rules := [.ofName "p" { property := "color", value := "red" }] },
    .compile .newerHalf,
    .addSheet
      { origin := .userAgent
        rules := [.ofName "p" { property := "color", value := "black", important := true }] },
    .addSheet
      { rules :=
          [.ofName "p" { property := "margin", value := "1" },
            .ofName "p" { property := "color", value := "blue" }] },
    .removeSource "draft"]

/-- What a paragraph receives from these sheets, in cascade order. -/
def contestedDeclarations : List Declaration :=
  [{ property := "color", value := "blue", specificity := ⟨0, 0, 1⟩, position := 0x10000000002 },
    { property := "color", value := "black", important := true, specificity := ⟨0, 0, 1⟩,
      position := -0x10000000000 },
    { property := "margin", value := "0", specificity := ⟨0, 0, 1⟩, position := 0x10000000000 },
    { property := "margin", value := "1", specificity := ⟨0, 0, 1⟩, position := 0x10000000001 }]

theorem computed_run_matcher_contested :
    (∀ origin, (rulesOf (survivors contested) origin).length ≤ 2 ^ 40) ∧
      ((((new {}).run contested).matcherKeeping Eviction.newerHalf.keep).2.1.run
        [.starts { localName := "p" }]).declarations = .ok contestedDeclarations ∧
      ∃ table, ((((new {}).run contested).matcherKeeping Eviction.newerHalf.keep).2.1.run
          [.starts { localName := "p" }]).computed = .ok table ∧
        (table.map (·.1)).Pairwise (· < ·) ∧
        ∀ property d, (property, d) ∈ table ↔ ∃ c : Candidate,
          c.Wins (survivors contested) contestedDeclarations property ∧
            c.declaration (survivors contested) = d := by
  have hfits : ∀ origin, (rulesOf (survivors contested) origin).length ≤ 2 ^ 40 := by
    intro origin
    cases origin <;> decide
  have hdeclarations : ((((new {}).run contested).matcherKeeping Eviction.newerHalf.keep).2.1.run
      [.starts { localName := "p" }]).declarations = .ok contestedDeclarations := by
    have hcoherent := coherent_run (coherent_new {}) contested
    have hconfig : ((new {}).run contested).config = {} := rfl
    have hmatching : matching {} (mergeRules (fun _ => 0) (byOrigin (survivors contested)))
        ⟨⟨[], { localName := "p" }⟩, []⟩ none =
          [contestedDeclarations[1], contestedDeclarations[2], contestedDeclarations[3],
            contestedDeclarations[0]] := by
      cbv
    rw [matcherKeeping_of_coherent hcoherent, Matcher.declarations_run, hconfig, rules, sheets_run]
    refine congrArg Except.ok ((congrArg cascadeSort hmatching).trans ?_)
    exact cascadeSort_eq_of_perm (by decide) (by decide)
  obtain ⟨-, table, hcomputed, hkeys, -, hwins⟩ := computed_run_matcher {} contested .newerHalf
    [.starts { localName := "p" }] contestedDeclarations hfits hdeclarations
  exact ⟨hfits, hdeclarations, table, hcomputed, hkeys, hwins⟩

end Engine

end StyleStream
