/-
  Where each rule of an engine comes from.

  A `Candidate` is a rule with its origin, the number of its sheet among those of
  the origin, and its index in the sheet. For a compilation it moves to a position
  that counts all rules of its origin before it. As long as no origin has more rules
  than its band has positions, comparing positions is comparing origin, sheet and
  index (`compare_place`), so a position gives its candidate away.
-/
import StyleStream.Proofs.Histories

namespace StyleStream

/-! ### Flattened lists -/

section FlatMap

variable {α β : Type} {f : α → List β} {l : List α} {b : β} {n : Nat}

/-- An element of a flattened list is an element of one of the lists, behind all lists
before it. -/
theorem getElem?_flatMap_eq_some : (l.flatMap f)[n]? = some b ↔
    ∃ k i a, l[k]? = some a ∧ (f a)[i]? = some b ∧ n = ((l.take k).flatMap f).length + i := by
  induction l generalizing n with
  | nil => simp
  | cons a l ih =>
    rw [List.flatMap_cons]
    by_cases hn : n < (f a).length
    · rw [List.getElem?_append_left hn]
      constructor
      · intro h
        exact ⟨0, n, a, rfl, h, by simp⟩
      · rintro ⟨k, i, a', hk, hi, hsum⟩
        cases k with
        | zero =>
          obtain rfl : a = a' := Option.some.inj hk
          simpa [hsum] using hi
        | succ k =>
          rw [List.take_succ_cons, List.flatMap_cons, List.length_append] at hsum
          omega
    · rw [List.getElem?_append_right (Nat.le_of_not_lt hn), ih]
      constructor
      · rintro ⟨k, i, a', hk, hi, hsum⟩
        refine ⟨k + 1, i, a', hk, hi, ?_⟩
        rw [List.take_succ_cons, List.flatMap_cons, List.length_append]
        omega
      · rintro ⟨k, i, a', hk, hi, hsum⟩
        cases k with
        | zero =>
          obtain rfl : a = a' := Option.some.inj hk
          have hlt := (List.getElem?_eq_some_iff.1 hi).1
          simp at hsum
          omega
        | succ k =>
          refine ⟨k, i, a', hk, hi, ?_⟩
          rw [List.take_succ_cons, List.flatMap_cons, List.length_append] at hsum
          omega

/-- What stands in one list comes before all later lists. -/
theorem length_flatMap_take_add_lt {k k' i : Nat} {a : α} (hk : l[k]? = some a)
    (hi : i < (f a).length) (hlt : k < k') :
    ((l.take k).flatMap f).length + i < ((l.take k').flatMap f).length := by
  -- The lists before `k'` are those before `k`, the list `k` itself, and some more.
  obtain ⟨m, rfl⟩ := Nat.exists_eq_add_of_lt hlt
  have hsplit : l.take (k + m + 1) = l.take k ++ [a] ++ (l.drop (k + 1)).take m := by
    rw [Nat.add_right_comm, List.take_add, List.take_add_one, hk]
    rfl
  rw [hsplit, List.flatMap_append, List.flatMap_append, List.length_append, List.length_append,
    List.flatMap_singleton]
  omega

end FlatMap

/-! ### Merged rules -/

/-- The rules of one origin, sheet by sheet. -/
def rulesOf (sheets : List Sheet) (origin : Origin) : List Rule :=
  (sheetsOf sheets origin).flatMap (·.rules)

namespace Engine

variable {sheets : List Sheet} {taken : Origin → Nat} {origin : Origin}

theorem rebase_append (origin : Origin) (offset : Nat) (rules rules' : List Rule) :
    rebase origin offset (rules ++ rules') =
      rebase origin offset rules ++ rebase origin (offset + rules.length) rules' := by
  rw [rebase, List.zipIdx_append, List.map_append]
  rfl

/-- Sheets of one origin fill its band one behind the other. -/
theorem mergeRules_append_of_origin {sheets' : List Sheet}
    (h : ∀ sheet ∈ sheets, sheet.origin = origin) :
    mergeRules taken (sheets ++ sheets') =
      rebase origin (taken origin) (sheets.flatMap (·.rules)) ++
        mergeRules (fun other => if other = origin
          then taken origin + (sheets.flatMap (·.rules)).length else taken other) sheets' := by
  induction sheets generalizing taken with
  | nil =>
    have htaken :
        taken = fun other => if other = origin then taken origin + 0 else taken other := by
      ext other
      split
      · next heq => rw [heq, Nat.add_zero]
      · rfl
    rw [List.flatMap_nil, List.length_nil, ← htaken]
    rfl
  | cons sheet sheets ih =>
    have horigin : sheet.origin = origin := h sheet List.mem_cons_self
    rw [List.cons_append, mergeRules, horigin,
      ih fun other hother => h other (List.mem_cons_of_mem _ hother), List.flatMap_cons,
      rebase_append, List.append_assoc, List.length_append]
    simp only [if_true]
    congr 3
    ext other
    split
    · rw [Nat.add_assoc]
    · rfl

/-- **The merged rules** are the rules origin by origin, each in the band of its origin. -/
theorem mergeRules_byOrigin (sheets : List Sheet) :
    mergeRules (fun _ => 0) (byOrigin sheets) =
      rebase .userAgent 0 (rulesOf sheets .userAgent) ++ rebase .user 0 (rulesOf sheets .user) ++
        rebase .author 0 (rulesOf sheets .author) := by
  have horigin : ∀ origin, ∀ sheet ∈ sheetsOf sheets origin, sheet.origin = origin :=
    fun _ _ hsheet => (mem_sheetsOf.1 hsheet).2
  rw [byOrigin, List.append_assoc, mergeRules_append_of_origin (horigin .userAgent),
    mergeRules_append_of_origin (horigin .user), ← List.append_nil (sheetsOf sheets .author),
    mergeRules_append_of_origin (horigin .author)]
  simp [rulesOf, mergeRules]

theorem mem_rebase {offset : Nat} {rules : List Rule} {rule : Rule} :
    rule ∈ rebase origin offset rules ↔ ∃ (n : Nat) (original : Rule),
      rules[n]? = some original ∧
        rule = original.moveTo (origin.bandStart + (offset + n : Nat)) := by
  rw [rebase, List.mem_map]
  constructor
  · rintro ⟨⟨original, m⟩, hmem, rfl⟩
    obtain ⟨hle, hget⟩ := List.mk_mem_zipIdx_iff_le_and_getElem?_sub.1 hmem
    exact ⟨m - offset, original, hget, by rw [Nat.add_sub_of_le hle]⟩
  · rintro ⟨n, original, hget, rfl⟩
    exact ⟨(original, offset + n), List.mk_add_mem_zipIdx_iff_getElem?.2 hget, rfl⟩

end Engine

/-! ### Candidates -/

theorem Origin.eq_of_rank_eq {a b : Origin} (h : a.rank = b.rank) : a = b := by
  revert h
  cases a <;> cases b <;> decide

/-- A rule and where it stands. -/
structure Candidate where
  origin : Origin
  /-- The number of its sheet among the sheets of the origin, in the order in which they
  were registered. -/
  sheet : Nat
  index : Nat
  rule : Rule
deriving DecidableEq

namespace Candidate

/-- The candidate is a rule of the sheets. -/
def IsOf (c : Candidate) (sheets : List Sheet) : Prop :=
  ∃ sheet, (sheetsOf sheets c.origin)[c.sheet]? = some sheet ∧ sheet.rules[c.index]? = some c.rule

/-- How many rules of the same origin come before. -/
def offset (sheets : List Sheet) (c : Candidate) : Nat :=
  (((sheetsOf sheets c.origin).take c.sheet).flatMap (·.rules)).length + c.index

/-- The position for which the candidate is compiled. -/
def place (sheets : List Sheet) (c : Candidate) : Int :=
  c.origin.bandStart + (c.offset sheets : Int)

/-- The declaration of the candidate where it is compiled. -/
def declaration (sheets : List Sheet) (c : Candidate) : Declaration :=
  (c.rule.moveTo (c.place sheets)).declaration

/-- **Which of two candidates comes first**: normal before important, then by specificity,
then by origin, then by the registration of the sheets, then by the index in the sheet. -/
def precedence (a b : Candidate) : Ordering :=
  (compare a.rule.declaration.important b.rule.declaration.important).then <|
    (compare a.rule.declaration.specificity b.rule.declaration.specificity).then <|
      (compare a.origin.rank b.origin.rank).then <|
        (compare a.sheet b.sheet).then (compare a.index b.index)

variable {sheets : List Sheet} {a b c : Candidate}

theorem IsOf.getElem?_rulesOf (h : c.IsOf sheets) :
    (rulesOf sheets c.origin)[c.offset sheets]? = some c.rule := by
  obtain ⟨sheet, hsheet, hrule⟩ := h
  exact getElem?_flatMap_eq_some.2 ⟨c.sheet, c.index, sheet, hsheet, hrule, rfl⟩

theorem IsOf.offset_lt (h : c.IsOf sheets) : c.offset sheets < (rulesOf sheets c.origin).length :=
  (List.getElem?_eq_some_iff.1 h.getElem?_rulesOf).1

theorem exists_isOf {origin : Origin} {n : Nat} {rule : Rule}
    (h : (rulesOf sheets origin)[n]? = some rule) :
    ∃ c : Candidate, c.IsOf sheets ∧ c.origin = origin ∧ c.offset sheets = n ∧ c.rule = rule := by
  obtain ⟨k, i, sheet, hsheet, hrule, hn⟩ := getElem?_flatMap_eq_some.1 h
  exact ⟨⟨origin, k, i, rule⟩, ⟨sheet, hsheet, hrule⟩, rfl, hn.symm, rfl⟩

/-- **The merged rules are the candidates**, each at its place. -/
theorem mem_mergeRules_byOrigin {rule : Rule} :
    rule ∈ Engine.mergeRules (fun _ => 0) (byOrigin sheets) ↔
      ∃ c : Candidate, c.IsOf sheets ∧ rule = c.rule.moveTo (c.place sheets) := by
  have hband : ∀ origin, rule ∈ Engine.rebase origin 0 (rulesOf sheets origin) ↔
      ∃ c : Candidate, c.IsOf sheets ∧ c.origin = origin ∧
        rule = c.rule.moveTo (c.place sheets) := by
    intro origin
    rw [Engine.mem_rebase]
    constructor
    · rintro ⟨n, original, hget, rfl⟩
      obtain ⟨c, hc, rfl, rfl, rfl⟩ := exists_isOf hget
      exact ⟨c, hc, rfl, by rw [place, Nat.zero_add]⟩
    · rintro ⟨c, hc, rfl, rfl⟩
      exact ⟨_, _, hc.getElem?_rulesOf, by rw [place, Nat.zero_add]⟩
  rw [Engine.mergeRules_byOrigin, List.mem_append, List.mem_append, hband, hband, hband]
  constructor
  · rintro ((⟨c, hc, -, hrule⟩ | ⟨c, hc, -, hrule⟩) | ⟨c, hc, -, hrule⟩)
    · exact ⟨c, hc, hrule⟩
    · exact ⟨c, hc, hrule⟩
    · exact ⟨c, hc, hrule⟩
  · rintro ⟨c, hc, hrule⟩
    cases horigin : c.origin with
    | userAgent => exact Or.inl (Or.inl ⟨c, hc, horigin, hrule⟩)
    | user => exact Or.inl (Or.inr ⟨c, hc, horigin, hrule⟩)
    | author => exact Or.inr ⟨c, hc, horigin, hrule⟩

/-! ### The order of places -/

theorem offset_lt_of_sheet_lt (ha : a.IsOf sheets) (horigin : a.origin = b.origin)
    (h : a.sheet < b.sheet) : a.offset sheets < b.offset sheets := by
  obtain ⟨sheet, hsheet, hrule⟩ := ha
  have hlt := length_flatMap_take_add_lt hsheet (List.getElem?_eq_some_iff.1 hrule).1 h
  rw [offset, offset, ← horigin]
  exact Nat.lt_of_lt_of_le hlt (Nat.le_add_right _ _)

/-- **Within an origin** candidates are numbered by sheet and index. -/
theorem compare_offset (ha : a.IsOf sheets) (hb : b.IsOf sheets) (horigin : a.origin = b.origin) :
    compare (a.offset sheets) (b.offset sheets) =
      (compare a.sheet b.sheet).then (compare a.index b.index) := by
  rcases Nat.lt_trichotomy a.sheet b.sheet with h | h | h
  · have hlt := offset_lt_of_sheet_lt ha horigin h
    rw [Nat.compare_eq_lt.2 h, Nat.compare_eq_lt.2 hlt]
    rfl
  · have hindex : compare (a.offset sheets) (b.offset sheets) = compare a.index b.index := by
      rw [offset, offset, horigin, h]
      simp only [Nat.compare_eq_ite_lt, Nat.add_lt_add_iff_left]
    rw [hindex, Nat.compare_eq_eq.2 h]
    rfl
  · have hlt := offset_lt_of_sheet_lt hb horigin.symm h
    rw [Nat.compare_eq_gt.2 h, Nat.compare_eq_gt.2 hlt]
    rfl

section Fits

variable (hfits : ∀ origin, ((rulesOf sheets origin).length : Int) ≤ Origin.bandWidth)
include hfits

/-- A band ends before the next one begins. -/
theorem place_lt_of_rank_lt (ha : a.IsOf sheets) (h : a.origin.rank < b.origin.rank) :
    a.place sheets < b.place sheets := by
  have hlt : (a.offset sheets : Int) < Origin.bandWidth := by
    have := hfits a.origin
    have := ha.offset_lt
    omega
  have hband : a.origin.bandStart + Origin.bandWidth ≤ b.origin.bandStart := by
    unfold Origin.bandStart Origin.bandWidth
    omega
  unfold place
  omega

/-- **Places are in the order of origin, sheet and index.** -/
theorem compare_place (ha : a.IsOf sheets) (hb : b.IsOf sheets) :
    compare (a.place sheets) (b.place sheets) =
      (compare a.origin.rank b.origin.rank).then
        ((compare a.sheet b.sheet).then (compare a.index b.index)) := by
  rcases Nat.lt_trichotomy a.origin.rank b.origin.rank with h | h | h
  · have hlt := place_lt_of_rank_lt hfits ha h
    rw [Nat.compare_eq_lt.2 h, Int.compare_eq_lt.2 hlt]
    rfl
  · have horigin := Origin.eq_of_rank_eq h
    rw [Nat.compare_eq_eq.2 h, ← compare_offset ha hb horigin, place, place, horigin]
    simp only [Int.compare_eq_ite_lt, Nat.compare_eq_ite_lt, Int.add_lt_add_iff_left,
      Int.ofNat_lt, Ordering.eq_then]
  · have hlt := place_lt_of_rank_lt hfits hb h
    rw [Nat.compare_eq_gt.2 h, Int.compare_eq_gt.2 hlt]
    rfl

/-- **A place gives its candidate away.** -/
theorem eq_of_place_eq (ha : a.IsOf sheets) (hb : b.IsOf sheets)
    (h : a.place sheets = b.place sheets) : a = b := by
  have hcompare := compare_place hfits ha hb
  rw [Int.compare_eq_eq.2 h, eq_comm, Ordering.then_eq_eq, Ordering.then_eq_eq,
    Nat.compare_eq_eq, Nat.compare_eq_eq, Nat.compare_eq_eq] at hcompare
  obtain ⟨hrank, hnumber, hindex⟩ := hcompare
  -- The same sheet and the same index hold the same rule.
  obtain ⟨origin, number, index, rule⟩ := a
  obtain ⟨origin', number', index', rule'⟩ := b
  obtain rfl : origin = origin' := Origin.eq_of_rank_eq hrank
  obtain rfl : number = number' := hnumber
  obtain rfl : index = index' := hindex
  obtain ⟨sheet, hsheet, hrule⟩ := ha
  obtain ⟨sheet', hsheet', hrule'⟩ := hb
  obtain rfl : sheet = sheet' := Option.some.inj (hsheet.symm.trans hsheet')
  obtain rfl : rule = rule' := Option.some.inj (hrule.symm.trans hrule')
  rfl

/-- The cascade orders declarations for one property as their candidates are ordered. -/
theorem cascade_declaration (ha : a.IsOf sheets) (hb : b.IsOf sheets)
    (hproperty : a.rule.declaration.property = b.rule.declaration.property) :
    (a.declaration sheets).cascade (b.declaration sheets) = a.precedence b := by
  show (compare a.rule.declaration.property b.rule.declaration.property).then
    ((compare a.rule.declaration.important b.rule.declaration.important).then
      ((compare a.rule.declaration.specificity b.rule.declaration.specificity).then
        (compare (a.place sheets) (b.place sheets)))) = _
  rw [hproperty, Std.ReflOrd.compare_self, compare_place hfits ha hb]
  rfl

end Fits

end Candidate

end StyleStream
