/-
  Reachability in a finite graph whose nodes are the numbers below a bound.

  `reach` is the engine behind both closures of this library: the closure of
  automaton states under silent edges, and the closure of the live states of an
  element under the guarded edges whose conditions hold. It walks the graph with
  a stack and a table of marks. The relation `Reachable` says what it computes
  without mentioning the walk, and `mem_reach` says that the walk is exact.
-/
import StyleStream.Ascending

namespace StyleStream

/-- Marks every node that a walk from the nodes on the stack meets, but not more
than `fuel` of them. A node that is already marked, or that lies outside the
table, is passed over. -/
def visit (next : Nat → List Nat) : Nat → Array Bool → List Nat → Array Bool
  | 0, marks, _ => marks
  | fuel + 1, marks, stack =>
    match stack.dropWhile fun x => marks[x]? ≠ some false with
    | [] => marks
    | x :: rest => visit next fuel (marks.setIfInBounds x true) (next x ++ rest)

/-- The nodes below `size` that can be reached from the seeds by any number of
steps, in ascending order. -/
def reach (size : Nat) (next : Nat → List Nat) (seeds : List Nat) : List Nat :=
  let marks := visit next size (Array.replicate size false) seeds
  (List.range size).filter fun x => marks[x]? = some true

/-- A node below `size` is reachable if it is a seed or if an edge leads to it
from a reachable node. -/
inductive Reachable (size : Nat) (next : Nat → List Nat) (seeds : List Nat) : Nat → Prop where
  /-- Seeds are reachable. -/
  | seed {x : Nat} : x ∈ seeds → x < size → Reachable size next seeds x
  /-- So is whatever an edge leads to. -/
  | step {x y : Nat} : Reachable size next seeds x → y ∈ next x → y < size →
      Reachable size next seeds y

/-! ### The walk -/

section Walk

variable {next : Nat → List Nat}

/-- What the head of the remaining stack is: a node of the old stack that has no
mark yet. -/
private theorem unmarked_of_dropWhile_eq_cons {marks : Array Bool} {stack rest : List Nat} {x : Nat}
    (h : (stack.dropWhile fun x => marks[x]? ≠ some false) = x :: rest) :
    marks[x]? = some false := by
  have := List.head?_dropWhile_not (fun x => decide (marks[x]? ≠ some false)) stack
  rw [h] at this
  simpa using this

/-- Everything on the old stack is either outside the table, or marked, or still
on the stack. -/
private theorem mem_of_mem_stack {marks : Array Bool} {stack : List Nat} {y : Nat}
    (hy : y ∈ stack) (hlt : y < marks.size) :
    marks[y]? = some true ∨ y ∈ stack.dropWhile fun x => marks[x]? ≠ some false := by
  induction stack with
  | nil => simp at hy
  | cons z stack ih =>
    rw [List.dropWhile_cons]
    split
    · next hz =>
      rcases List.mem_cons.1 hy with rfl | hy
      · left
        simp only [ne_eq, decide_not, Bool.not_eq_eq_eq_not, Bool.not_true,
          decide_eq_false_iff_not] at hz
        rw [Array.getElem?_eq_getElem hlt] at hz ⊢
        cases hm : marks[y] with
        | true => rfl
        | false => exact absurd (congrArg some hm) hz
      · exact ih hy
    · exact Or.inr hy

private theorem count_setIfInBounds {marks : Array Bool} {x : Nat} (h : marks[x]? = some false) :
    (marks.setIfInBounds x true).count false + 1 = marks.count false := by
  obtain ⟨hx, hm⟩ := Array.getElem?_eq_some_iff.1 h
  have hpos : 0 < marks.count false := Array.count_pos_iff.2 (hm ▸ Array.getElem_mem hx)
  have : (marks.setIfInBounds x true).count false = marks.count false - 1 := by
    simp [Array.setIfInBounds, hx, Array.count_set, hm]
  omega

/-- The walk stays inside every set that holds the stack and is closed under edges. -/
private theorem visit_sound {P : Nat → Prop} {size : Nat}
    (hclosed : ∀ x y, P x → y ∈ next x → y < size → P y) :
    ∀ (fuel : Nat) (marks : Array Bool) (stack : List Nat), marks.size = size →
      (∀ x ∈ stack, x < size → P x) → (∀ x : Nat, marks[x]? = some true → P x) →
      ∀ x : Nat, (visit next fuel marks stack)[x]? = some true → P x
  | 0, _, _, _, _, hmarks, x, hx => hmarks x hx
  | fuel + 1, marks, stack, hsize, hstack, hmarks, x, hx => by
    unfold visit at hx
    split at hx
    · exact hmarks x hx
    · next z rest hz =>
      have hzf := unmarked_of_dropWhile_eq_cons hz
      have hzlt : z < size := hsize ▸ (Array.getElem?_eq_some_iff.1 hzf).1
      have hsub : ∀ y ∈ z :: rest, y ∈ stack := fun y hy =>
        (List.dropWhile_suffix _).subset (hz ▸ hy)
      have hPz : P z := hstack z (hsub z List.mem_cons_self) hzlt
      refine visit_sound hclosed fuel _ _ (by simpa using hsize) ?_ ?_ x hx
      · intro y hy hlt
        rcases List.mem_append.1 hy with hy | hy
        · exact hclosed z y hPz hy hlt
        · exact hstack y (hsub y (List.mem_cons_of_mem _ hy)) hlt
      · intro y hy
        by_cases hzy : z = y
        · exact hzy ▸ hPz
        · rw [Array.getElem?_setIfInBounds_ne hzy] at hy
          exact hmarks y hy

/-- With enough fuel the walk marks the whole stack, keeps all marks, and ends
with a set that is closed under edges. -/
private theorem visit_complete {size : Nat} :
    ∀ (fuel : Nat) (marks : Array Bool) (stack : List Nat), marks.size = size →
      marks.count false ≤ fuel →
      (∀ x y : Nat, marks[x]? = some true → y ∈ next x → y < size →
        marks[y]? = some true ∨ y ∈ stack) →
      let done := visit next fuel marks stack
      (∀ x : Nat, marks[x]? = some true → done[x]? = some true) ∧
        (∀ x ∈ stack, x < size → done[x]? = some true) ∧
        ∀ x y : Nat, done[x]? = some true → y ∈ next x → y < size → done[y]? = some true
  | 0, marks, stack, hsize, hfuel, _ => by
    -- Without fuel there was nothing left to mark.
    have hall : ∀ x, x < size → marks[x]? = some true := by
      intro x hx
      have hx' : x < marks.size := hsize ▸ hx
      rw [Array.getElem?_eq_getElem hx']
      cases hm : marks[x] with
      | true => rfl
      | false =>
        have : 0 < marks.count false := Array.count_pos_iff.2 (hm ▸ Array.getElem_mem hx')
        omega
    exact ⟨fun x hx => hx, fun x _ hx => hall x hx, fun x y _ _ hy => hall y hy⟩
  | fuel + 1, marks, stack, hsize, hfuel, hclosed => by
    intro done
    cases hz : stack.dropWhile fun x => marks[x]? ≠ some false with
    | nil =>
      have hdone : done = marks := by simp only [done, visit, hz]
      have hstack : ∀ x ∈ stack, x < size → marks[x]? = some true := by
        intro x hx hlt
        rcases mem_of_mem_stack hx (hsize.symm ▸ hlt) with h | h
        · exact h
        · rw [hz] at h
          simp at h
      rw [hdone]
      refine ⟨fun x hx => hx, hstack, fun x y hx hy hlt => ?_⟩
      rcases hclosed x y hx hy hlt with h | h
      · exact h
      · exact hstack y h hlt
    | cons z rest =>
      have hzf := unmarked_of_dropWhile_eq_cons hz
      have hzlt : z < marks.size := (Array.getElem?_eq_some_iff.1 hzf).1
      have hdone : done = visit next fuel (marks.setIfInBounds z true) (next z ++ rest) := by
        simp only [done, visit, hz]
      have hself : (marks.setIfInBounds z true)[z]? = some true :=
        Array.getElem?_setIfInBounds_self_of_lt hzlt
      have hkeep : ∀ x : Nat, marks[x]? = some true →
          (marks.setIfInBounds z true)[x]? = some true := by
        intro x hx
        by_cases hzx : z = x
        · exact hzx ▸ hself
        · rw [Array.getElem?_setIfInBounds_ne hzx]
          exact hx
      -- A node of the old stack is marked now, or it is on the new stack.
      have hmoved : ∀ x ∈ stack, x < size →
          (marks.setIfInBounds z true)[x]? = some true ∨ x ∈ next z ++ rest := by
        intro x hx hlt
        rcases mem_of_mem_stack hx (hsize.symm ▸ hlt) with h | h
        · exact Or.inl (hkeep x h)
        · rw [hz] at h
          rcases List.mem_cons.1 h with rfl | h
          · exact Or.inl hself
          · exact Or.inr (List.mem_append_right _ h)
      have ih := visit_complete fuel (marks.setIfInBounds z true) (next z ++ rest)
        (by simpa using hsize) (by have := count_setIfInBounds hzf; omega)
        (by
          intro x y hx hy hlt
          by_cases hzx : z = x
          · subst hzx
            exact Or.inr (List.mem_append_left _ hy)
          · rw [Array.getElem?_setIfInBounds_ne hzx] at hx
            rcases hclosed x y hx hy hlt with h | h
            · exact Or.inl (hkeep y h)
            · exact hmoved y h hlt)
      rw [hdone]
      refine ⟨fun x hx => ih.1 x (hkeep x hx), fun x hx hlt => ?_, ih.2.2⟩
      rcases hmoved x hx hlt with h | h
      · exact ih.1 x h
      · exact ih.2.1 x h hlt

end Walk

/-! ### Exactness -/

variable {size : Nat} {next : Nat → List Nat} {seeds : List Nat} {x : Nat}

/-- **The walk is exact**: it finds the reachable nodes and nothing else. -/
theorem mem_reach : x ∈ reach size next seeds ↔ Reachable size next seeds x := by
  have hmarks : ∀ x : Nat, (Array.replicate size false)[x]? ≠ some true := by
    intro x hx
    rw [Array.getElem?_replicate] at hx
    split at hx <;> simp at hx
  simp only [reach, List.mem_filter, List.mem_range, decide_eq_true_eq]
  constructor
  · rintro ⟨_, hx⟩
    exact visit_sound (P := Reachable size next seeds) (fun a b ha hb hlt => .step ha hb hlt) size
      (Array.replicate size false) seeds (by simp) (fun a ha hlt => .seed ha hlt)
      (fun a ha => absurd ha (hmarks a)) x hx
  · intro h
    have hdone := @visit_complete next size size (Array.replicate size false)
      seeds (by simp) (by simp) (fun a _ ha => absurd ha (hmarks a))
    induction h with
    | seed hx hlt => exact ⟨hlt, hdone.2.1 _ hx hlt⟩
    | step _ hy hlt ih => exact ⟨hlt, hdone.2.2 _ _ ih.2 hy hlt⟩

/-- The result is strictly ascending, so it holds every node once. -/
theorem pairwise_reach : (reach size next seeds).Pairwise (· < ·) :=
  List.pairwise_lt_range.filter _

theorem Reachable.lt (h : Reachable size next seeds x) : x < size := by
  cases h with
  | seed _ h => exact h
  | step _ _ h => exact h

end StyleStream
