/-
  Tables of distinct values, numbered in the order in which they first came.

  A table is a list. The number of a value is its index, `List.idxOf`, and stays
  the same when the table grows.
-/

namespace StyleStream

/-- Adds a value at the end of a table, unless it is there already. -/
def intern {α : Type} [DecidableEq α] (table : List α) (a : α) : List α :=
  if a ∈ table then table else table ++ [a]

variable {α : Type} [DecidableEq α] {table : List α} {a b : α}

@[simp] theorem mem_intern : b ∈ intern table a ↔ b ∈ table ∨ b = a := by
  unfold intern
  split
  · next h =>
    constructor
    · exact Or.inl
    · rintro (hb | rfl)
      · exact hb
      · exact h
  · simp

/-- **A table grows only at its end**, so no value ever changes its number. -/
theorem exists_intern_eq_append (table : List α) (a : α) :
    ∃ tail, intern table a = table ++ tail := by
  unfold intern
  split
  · exact ⟨[], (List.append_nil table).symm⟩
  · exact ⟨[a], rfl⟩

/-- The values of a table stay distinct. -/
theorem nodup_intern (h : table.Nodup) : (intern table a).Nodup := by
  unfold intern
  split
  · exact h
  · next ha =>
    refine List.nodup_append.2 ⟨h, List.pairwise_singleton _ _, fun x hx y hy hxy => ?_⟩
    rw [List.mem_singleton] at hy
    subst hxy hy
    exact ha hx

/-! ### Several values -/

theorem mem_foldl_intern {l : List α} : b ∈ l.foldl intern table ↔ b ∈ table ∨ b ∈ l := by
  induction l generalizing table with
  | nil => simp
  | cons a l ih =>
    rw [List.foldl_cons, ih, mem_intern, List.mem_cons]
    exact or_assoc

theorem prefix_foldl_intern (table l : List α) : table <+: l.foldl intern table := by
  induction l generalizing table with
  | nil => exact List.prefix_rfl
  | cons a l ih =>
    obtain ⟨tail, htail⟩ := exists_intern_eq_append table a
    exact (htail ▸ List.prefix_append table tail).trans (ih _)

/-- The values that are added come in the order in which they are met. -/
theorem exists_foldl_intern_eq_append (table l : List α) :
    ∃ tail, l.foldl intern table = table ++ tail ∧ tail.Sublist l := by
  induction l generalizing table with
  | nil => exact ⟨[], (List.append_nil table).symm, List.Sublist.slnil⟩
  | cons a l ih =>
    obtain ⟨tail, htail, hsublist⟩ := ih (intern table a)
    rw [List.foldl_cons, htail]
    unfold intern
    split
    · exact ⟨tail, rfl, hsublist.cons a⟩
    · exact ⟨a :: tail, List.append_assoc table [a] tail, hsublist.cons_cons a⟩

/-- **What is added are the new values**, each where it is met first. -/
theorem foldl_intern_eq_append_eraseDups (table l : List α) :
    l.foldl intern table = table ++ (l.filter (· ∉ table)).eraseDups := by
  induction l generalizing table with
  | nil => simp
  | cons a l ih =>
    rw [List.foldl_cons, ih]
    by_cases ha : a ∈ table
    · rw [intern, if_pos ha, List.filter_cons_of_neg (by simpa using ha)]
    · rw [intern, if_neg ha, List.filter_cons_of_pos (by simpa using ha), List.eraseDups_cons,
        List.filter_filter, List.append_assoc, List.singleton_append]
      congr 3
      refine List.filter_congr fun b _ => ?_
      rw [Bool.eq_iff_iff]
      simp [and_comm]

theorem nodup_foldl_intern {l : List α} (h : table.Nodup) : (l.foldl intern table).Nodup := by
  induction l generalizing table with
  | nil => exact h
  | cons a l ih => exact ih (nodup_intern h)

end StyleStream
