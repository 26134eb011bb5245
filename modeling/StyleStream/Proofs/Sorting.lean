/-
  Sorting is stable: what ties keeps its order.

  Members that all tie can be taken out before or after sorting, it comes to the same
  (`filter_mergeSort`). So after sorting each pair is either in strict order or in the
  order in which it came (`pairwise_mergeSort_of_pairwise`).
-/
namespace StyleStream

section Stability

variable {α : Type} {le : α → α → Bool} {l : List α}
  (htrans : ∀ a b c, le a b → le b c → le a c) (htotal : ∀ a b, le a b || le b a)
include htrans htotal

/-- **Members that tie are not moved past one another.** -/
theorem filter_mergeSort {P : α → Bool} (hP : ∀ a b, P a → P b → le a b) :
    (l.mergeSort le).filter P = l.filter P := by
  have hsorted : (l.filter P).Pairwise fun a b => le a b := by
    refine List.pairwise_of_forall_mem_list fun a ha b hb => ?_
    exact hP a b (List.mem_filter.1 ha).2 (List.mem_filter.1 hb).2
  -- What is in order already stays in its order.
  have hsublist := (List.sublist_mergeSort htrans htotal hsorted List.filter_sublist).filter P
  have hlength := ((List.mergeSort_perm l le).filter P).length_eq
  rw [List.filter_filter] at hsublist
  simp only [Bool.and_self] at hsublist
  exact (hsublist.eq_of_length hlength.symm).symm

/-- **Ties are broken by the old order.** -/
theorem pairwise_mergeSort_of_pairwise {R : α → α → Prop} (h : l.Pairwise R) :
    (l.mergeSort le).Pairwise fun a b => le a b ∧ (le b a → R a b) := by
  rw [List.pairwise_iff_forall_sublist]
  intro a b hab
  have hle : le a b :=
    List.pairwise_iff_forall_sublist.1 (List.pairwise_mergeSort htrans htotal l) hab
  refine ⟨hle, fun hge => ?_⟩
  -- Both are among the members that tie with `a`, and these have kept their order.
  let tied := fun x => le a x && le x a
  have hrefl : le a a := htrans a b a hle hge
  have hpair : [a, b].filter tied = [a, b] := by simp [tied, hrefl, hle, hge]
  have hties : ∀ x y, tied x → tied y → le x y := by
    intro x y hx hy
    rw [Bool.and_eq_true] at hx hy
    exact htrans x a y hx.2 hy.1
  have hsublist := hab.filter tied
  rw [hpair, filter_mergeSort htrans htotal hties] at hsublist
  exact List.pairwise_iff_forall_sublist.1 h (hsublist.trans List.filter_sublist)

end Stability

end StyleStream
