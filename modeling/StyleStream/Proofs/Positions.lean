/-
  The positions to which an engine moves its rules.

  The rules of an engine are those of the surviving sheets, origin by origin, and only their
  positions change: those of one origin are moved to consecutive positions of its band (`band`).
  So it does not matter how the sheets of different origins were registered in between each other.

  Positions are kept in signed words of 64 bits. `rules?` numbers the rules by counters in such
  words, one for each origin, and gives up at the first number that does not fit. As long as no
  origin has more rules than its band has positions, it never gives up (`mergeRules?_eq`).
-/
import Mathlib.Algebra.Group.Nat.Defs
import Mathlib.Algebra.Ring.Int.Defs
import StyleStream.Proofs.Provenance

namespace StyleStream

/-! ### Bands -/

/-- The rules of an origin at the positions of its band, in the order of the sheets. -/
def band (sheets : List Sheet) (origin : Origin) : List Rule :=
  (rulesOf sheets origin).mapIdx fun index rule => rule.moveTo (origin.bandStart + index)

section Bands

variable {sheets : List Sheet} {origin origin' : Origin} {rule rule' : Rule}

theorem band_eq_rebase (sheets : List Sheet) (origin : Origin) :
    band sheets origin = Engine.rebase origin 0 (rulesOf sheets origin) :=
  List.mapIdx_eq_zipIdx_map

/-- In a band the positions ascend. -/
theorem pairwise_band (sheets : List Sheet) (origin : Origin) :
    (band sheets origin).Pairwise fun a b => a.declaration.position < b.declaration.position := by
  rw [List.pairwise_iff_getElem]
  intro i j hi hj hlt
  simp only [band, List.getElem_mapIdx]
  show origin.bandStart + (i : Int) < origin.bandStart + j
  omega

section Fits

variable (hfits : ∀ origin, (rulesOf sheets origin).length ≤ 2 ^ 40)
include hfits

/-- **Every rule stays in the band** of its origin. -/
theorem position_of_mem_band (h : rule ∈ band sheets origin) :
    origin.bandStart ≤ rule.declaration.position ∧
      rule.declaration.position < origin.bandStart + Origin.bandWidth := by
  obtain ⟨i, hi, rfl⟩ := List.mem_iff_getElem.1 h
  have hlength := hfits origin
  simp only [band, List.length_mapIdx] at hi
  simp only [band, List.getElem_mapIdx]
  show origin.bandStart ≤ origin.bandStart + (i : Int) ∧
    origin.bandStart + (i : Int) < origin.bandStart + Origin.bandWidth
  unfold Origin.bandWidth
  omega

/-- **Bands do not overlap.** -/
theorem position_lt_of_rank_lt (hrank : origin.rank < origin'.rank) (h : rule ∈ band sheets origin)
    (h' : rule' ∈ band sheets origin') :
    rule.declaration.position < rule'.declaration.position := by
  have hend := (position_of_mem_band hfits h).2
  have hstart := (position_of_mem_band hfits h').1
  have hband : origin.bandStart + Origin.bandWidth ≤ origin'.bandStart := by
    unfold Origin.bandStart Origin.bandWidth
    omega
  omega

/-- **One behind the other** the bands are in order throughout. -/
theorem pairwise_bands :
    (band sheets .userAgent ++ band sheets .user ++ band sheets .author).Pairwise
      fun a b => a.declaration.position < b.declaration.position := by
  rw [List.pairwise_append, List.pairwise_append]
  refine ⟨⟨pairwise_band _ _, pairwise_band _ _, fun a ha b hb => ?_⟩, pairwise_band _ _,
    fun a ha b hb => ?_⟩
  · exact position_lt_of_rank_lt hfits (by decide) ha hb
  · rcases List.mem_append.1 ha with ha | ha
    · exact position_lt_of_rank_lt hfits (by decide) ha hb
    · exact position_lt_of_rank_lt hfits (by decide) ha hb

end Fits

end Bands

/-! ### Words of 64 bits -/

/-- The number, if a signed word of 64 bits holds it. -/
def word? (n : Int) : Option Int :=
  if -2 ^ 63 ≤ n ∧ n < 2 ^ 63 then some n else none

theorem word?_eq {n : Int} (hle : -2 ^ 63 ≤ n) (hlt : n < 2 ^ 63) : word? n = some n :=
  if_pos ⟨hle, hlt⟩

/-- `bandStart` in words. -/
def Origin.bandStart? (origin : Origin) : Option Int := do
  let above ← word? ((origin.rank : Int) - 1)
  word? (above * bandWidth)

theorem Origin.bandStart?_eq (origin : Origin) : origin.bandStart? = some origin.bandStart := by
  cases origin <;> rfl

theorem Origin.bandStart_bounds (origin : Origin) :
    -2 ^ 40 ≤ origin.bandStart ∧ origin.bandStart ≤ 2 ^ 40 := by
  cases origin <;> decide

namespace Engine

/-- `rebase` in words, rule by rule. It is given the counter of the origin, and returns with the
rules what the counter has come to. -/
def rebase? (origin : Origin) : Int → List Rule → Option (List Rule × Int)
  | counter, [] => some ([], counter)
  | counter, rule :: rest => do
    let start ← origin.bandStart?
    let position ← word? (start + counter)
    let next ← word? (counter + 1)
    let (moved, last) ← rebase? origin next rest
    return (rule.moveTo position :: moved, last)

/-- `mergeRules` in words, with a counter for each origin. -/
def mergeRules? (counters : Origin → Int) : List Sheet → Option (List Rule)
  | [] => some []
  | sheet :: rest => do
    let (moved, last) ← rebase? sheet.origin (counters sheet.origin) sheet.rules
    let behind ← mergeRules? (fun origin =>
      if origin = sheet.origin then last else counters origin) rest
    return moved ++ behind

/-- `rules` in words. -/
def rules? (e : Engine) : Option (List Rule) :=
  mergeRules? (fun _ => 0) e.sheets

theorem rebase_cons (origin : Origin) (offset : Nat) (rule : Rule) (rest : List Rule) :
    rebase origin offset (rule :: rest) =
      rule.moveTo (origin.bandStart + offset) :: rebase origin (offset + 1) rest := rfl

/-- **No number overflows** within a sheet that leaves its band with room. -/
theorem rebase?_eq (origin : Origin) {offset : Nat} {rules : List Rule}
    (h : offset + rules.length ≤ 2 ^ 40) : rebase? origin offset rules =
      some (rebase origin offset rules, ((offset + rules.length : Nat) : Int)) := by
  induction rules generalizing offset with
  | nil => rfl
  | cons rule rest ih =>
    rw [List.length_cons] at h
    obtain ⟨hle, hge⟩ := origin.bandStart_bounds
    have hposition : word? (origin.bandStart + offset) = some (origin.bandStart + offset) :=
      word?_eq (by omega) (by omega)
    have hnext : word? ((offset : Int) + 1) = some ((offset + 1 : Nat) : Int) :=
      word?_eq (by omega) (by omega)
    have hrest := ih (show offset + 1 + rest.length ≤ 2 ^ 40 by omega)
    have hlast : offset + 1 + rest.length = offset + (rest.length + 1) := by omega
    simp only [rebase?, Origin.bandStart?_eq, hposition, hnext, hrest, Option.bind_eq_bind,
      Option.bind_some]
    rw [rebase_cons, List.length_cons, hlast]
    rfl

/-- **No number overflows** as long as all bands have room for the rules of their origins. -/
theorem mergeRules?_eq {taken : Origin → Nat} {sheets : List Sheet}
    (h : ∀ origin, taken origin + (rulesOf sheets origin).length ≤ 2 ^ 40) :
    mergeRules? (fun origin => (taken origin : Int)) sheets = some (mergeRules taken sheets) := by
  induction sheets generalizing taken with
  | nil => rfl
  | cons sheet rest ih =>
    have hlength : ∀ origin, (rulesOf (sheet :: rest) origin).length =
        (if origin = sheet.origin then sheet.rules.length else 0) +
          (rulesOf rest origin).length := by
      intro origin
      by_cases horigin : origin = sheet.origin
      · simp [rulesOf, sheetsOf, horigin]
      · have hne : sheet.origin ≠ origin := fun heq => horigin heq.symm
        simp [rulesOf, sheetsOf, horigin, hne]
    have hown : taken sheet.origin + sheet.rules.length ≤ 2 ^ 40 := by
      have hroom := h sheet.origin
      rw [hlength, if_pos rfl] at hroom
      omega
    -- The sheet takes its positions from the band of its own origin only.
    have hothers : ∀ origin, (if origin = sheet.origin
        then taken origin + sheet.rules.length else taken origin) +
          (rulesOf rest origin).length ≤ 2 ^ 40 := by
      intro origin
      have hroom := h origin
      rw [hlength] at hroom
      by_cases horigin : origin = sheet.origin
      · rw [if_pos horigin] at hroom ⊢
        omega
      · rw [if_neg horigin] at hroom ⊢
        omega
    have hcounters : (fun origin => if origin = sheet.origin
        then ((taken sheet.origin + sheet.rules.length : Nat) : Int) else (taken origin : Int)) =
      fun origin => ((if origin = sheet.origin
        then taken origin + sheet.rules.length else taken origin : Nat) : Int) := by
      ext origin
      split
      · next heq => rw [heq]
      · rfl
    simp only [mergeRules?, rebase?_eq sheet.origin hown, Option.bind_eq_bind, Option.bind_some,
      hcounters, ih hothers]
    rfl

/-! ### The rules of an engine -/

theorem rules_run_eq_bands (config : Config) (history : List Operation) :
    ((new config).run history).rules = band (survivors history) .userAgent ++
      band (survivors history) .user ++ band (survivors history) .author := by
  rw [rules, sheets_run, mergeRules_byOrigin, band_eq_rebase, band_eq_rebase, band_eq_rebase]

/-- **The rules of an engine** after any history are those of the surviving sheets: origin by
origin, in the order in which the sheets of an origin were registered, and unchanged but for their
positions. So another history that leaves each origin the same sheets leaves the same rules,
however the origins were mixed in it. If no origin has more than `2 ^ 40` rules, then no
number that is needed on the way overflows its word, the positions ascend strictly through the
whole list, and each is in the band of its origin. -/
theorem rules_run (config config' : Config) (history history' : List Operation) :
    let rules := ((new config).run history).rules
    let sheets := survivors history
    rules = band sheets .userAgent ++ band sheets .user ++ band sheets .author ∧
      ((∀ origin, sheetsOf sheets origin = sheetsOf (survivors history') origin) →
        ((new config').run history').rules = rules) ∧
      ((∀ origin, (rulesOf sheets origin).length ≤ 2 ^ 40) →
        ((new config).run history).rules? = some rules ∧
          (rules.map (·.declaration.position)).Pairwise (· < ·) ∧
          ∀ origin, ∀ rule ∈ band sheets origin,
            origin.bandStart ≤ rule.declaration.position ∧
              rule.declaration.position < origin.bandStart + Origin.bandWidth) := by
  intro rules sheets
  have hrules : rules = _ := rules_run_eq_bands config history
  refine ⟨hrules, fun hsame => ?_, fun hfits => ⟨?_, ?_, ?_⟩⟩
  · have hband : ∀ origin, band (survivors history') origin = band sheets origin := by
      intro origin
      rw [band, rulesOf, ← hsame origin]
      rfl
    rw [rules_run_eq_bands, hband, hband, hband, hrules]
  · have hroom : ∀ origin, 0 + (rulesOf (byOrigin sheets) origin).length ≤ 2 ^ 40 := by
      intro origin
      rw [Nat.zero_add, rulesOf, sheetsOf_byOrigin]
      exact hfits origin
    have hmerge := mergeRules?_eq hroom
    rw [← sheets_run config history] at hmerge
    exact hmerge
  · rw [hrules, List.pairwise_map]
    exact pairwise_bands hfits
  · exact fun origin rule hrule => position_of_mem_band hfits hrule

/-- A sheet of each origin, the one of the author first. -/
def authorFirst : List Operation :=
  [.addSheet
      { rules :=
          [.ofName "p" { property := "color", value := "blue" },
            .ofClass "note" { property := "margin", value := "0" }] },
    .addSheet
      { origin := .userAgent
        rules := [.ofName "p" { property := "color", value := "black" }] },
    .addSheet { origin := .user, rules := [.ofName "p" { property := "color", value := "green" }] }]

/-- The same sheets, the one of the author last, with another one that is removed. -/
def authorLast : List Operation :=
  [.addSheet
      { origin := .userAgent
        rules := [.ofName "p" { property := "color", value := "black" }] },
    .addSheet
      { source := some "draft"
        rules := [.ofName "p" { property := "color", value := "red" }] },
    .addSheet { origin := .user, rules := [.ofName "p" { property := "color", value := "green" }] },
    .removeSource "draft",
    .addSheet
      { rules :=
          [.ofName "p" { property := "color", value := "blue" },
            .ofClass "note" { property := "margin", value := "0" }] }]

theorem rules_run_author :
    (∀ origin, sheetsOf (survivors authorFirst) origin = sheetsOf (survivors authorLast) origin) ∧
      (∀ origin, (rulesOf (survivors authorFirst) origin).length ≤ 2 ^ 40) ∧
      ((new {}).run authorLast).rules = ((new {}).run authorFirst).rules ∧
      ((new {}).run authorFirst).rules? = some ((new {}).run authorFirst).rules ∧
      (((new {}).run authorFirst).rules.map (·.declaration.position)).Pairwise (· < ·) ∧
      (band (survivors authorFirst) .author).map (·.declaration.position) =
        [0x10000000000, 0x10000000001] := by
  have hsame : ∀ origin,
      sheetsOf (survivors authorFirst) origin = sheetsOf (survivors authorLast) origin := by
    intro origin
    cases origin <;> decide
  have hfits : ∀ origin, (rulesOf (survivors authorFirst) origin).length ≤ 2 ^ 40 := by
    intro origin
    cases origin <;> decide
  obtain ⟨-, hequal, hpositions⟩ := rules_run {} {} authorFirst authorLast
  obtain ⟨hwords, hascending, -⟩ := hpositions hfits
  exact ⟨hsame, hfits, hequal hsame, hwords, hascending, by decide⟩

end Engine

end StyleStream
