/-
  Strictly ascending lists of numbers, the canonical form of the finite sets of
  state, symbol and declaration numbers.
-/

namespace StyleStream

/-- Puts a number in its place in an ascending list, unless it is there already. -/
def insertAscending (x : Nat) : List Nat → List Nat
  | [] => [x]
  | y :: rest =>
    if x < y then x :: y :: rest
    else if x = y then y :: rest
    else y :: insertAscending x rest

/-- The members of a list in strictly ascending order. -/
def ascending (l : List Nat) : List Nat :=
  l.foldr insertAscending []

@[simp] theorem mem_insertAscending {x y : Nat} {l : List Nat} :
    x ∈ insertAscending y l ↔ x = y ∨ x ∈ l := by
  induction l with
  | nil => simp [insertAscending]
  | cons z rest ih =>
    simp only [insertAscending]
    split
    · simp
    · split
      · next h => subst h; simp
      · simp only [List.mem_cons, ih]
        exact or_left_comm

/-- **Nothing is lost and nothing is added.** -/
@[simp] theorem mem_ascending {x : Nat} {l : List Nat} : x ∈ ascending l ↔ x ∈ l := by
  induction l with
  | nil => simp [ascending]
  | cons y rest ih =>
    rw [ascending, List.foldr_cons, ← ascending, mem_insertAscending, ih, List.mem_cons]

theorem pairwise_insertAscending {x : Nat} {l : List Nat} (h : l.Pairwise (· < ·)) :
    (insertAscending x l).Pairwise (· < ·) := by
  induction l with
  | nil => simp [insertAscending]
  | cons y rest ih =>
    have hrest := (List.pairwise_cons.1 h).2
    have hy := (List.pairwise_cons.1 h).1
    simp only [insertAscending]
    split
    · next hxy =>
      refine List.pairwise_cons.2 ⟨fun z hz => ?_, h⟩
      rcases List.mem_cons.1 hz with rfl | hz
      · exact hxy
      · exact Nat.lt_trans hxy (hy z hz)
    · split
      · exact h
      · next hlt hne =>
        refine List.pairwise_cons.2 ⟨fun z hz => ?_, ih hrest⟩
        rcases mem_insertAscending.1 hz with rfl | hz
        · omega
        · exact hy z hz

/-- **The result is strictly ascending**, so it holds every member once. -/
theorem pairwise_ascending (l : List Nat) : (ascending l).Pairwise (· < ·) := by
  induction l with
  | nil => simp [ascending]
  | cons x rest ih =>
    rw [ascending, List.foldr_cons, ← ascending]
    exact pairwise_insertAscending ih

/-- Strictly ascending lists with the same members are equal. -/
theorem eq_of_pairwise_of_mem_iff {l₁ l₂ : List Nat} (h₁ : l₁.Pairwise (· < ·))
    (h₂ : l₂.Pairwise (· < ·)) (h : ∀ x, x ∈ l₁ ↔ x ∈ l₂) : l₁ = l₂ := by
  induction l₁ generalizing l₂ with
  | nil =>
    cases l₂ with
    | nil => rfl
    | cons y _ => simpa using h y
  | cons x rest₁ ih =>
    cases l₂ with
    | nil => simpa using h x
    | cons y rest₂ =>
      have hx := List.pairwise_cons.1 h₁
      have hy := List.pairwise_cons.1 h₂
      -- Each head is the least member of its list, so the heads agree.
      have hxy : x = y := by
        have hxin := (h x).1 List.mem_cons_self
        have hyin := (h y).2 List.mem_cons_self
        rcases List.mem_cons.1 hxin with rfl | hxr
        · rfl
        · rcases List.mem_cons.1 hyin with rfl | hyr
          · rfl
          · have := hx.1 y hyr
            have := hy.1 x hxr
            omega
      subst hxy
      congr 1
      refine ih hx.2 hy.2 fun z => ?_
      have hz := h z
      simp only [List.mem_cons] at hz
      constructor
      · intro hzr
        have := hx.1 z hzr
        rcases hz.1 (Or.inr hzr) with rfl | hz'
        · omega
        · exact hz'
      · intro hzr
        have := hy.1 z hzr
        rcases hz.2 (Or.inr hzr) with rfl | hz'
        · omega
        · exact hz'

end StyleStream
