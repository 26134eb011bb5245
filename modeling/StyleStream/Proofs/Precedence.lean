/-
  Laws of the cascade.

  The cascade order is a total preorder, so sorting puts each declaration behind all
  that it overrides. The table of winners has one entry for each property, namely
  the last declaration of the property (`mem_winners`). Together: after sorting, the
  winner of a property is a greatest declaration of it (`isLE_cascade_of_mem_winners`),
  and the table is in the order of the properties (`pairwise_keys_winners`).
-/
import Mathlib.Data.List.Induction
import StyleStream.Cascade

namespace StyleStream

/-! ### The cascade order -/

instance : Std.TransOrd Specificity :=
  inferInstanceAs (Std.TransCmp (compareLex (compareOn Specificity.ids)
    (compareLex (compareOn Specificity.attributes) (compareOn Specificity.types))))

instance : Std.TransCmp Declaration.cascade :=
  inferInstanceAs (Std.TransCmp (compareLex (compareOn Declaration.property)
    (compareLex (compareOn Declaration.important)
      (compareLex (compareOn Declaration.specificity) (compareOn Declaration.position)))))

instance : Std.LawfulEqOrd Specificity where
  eq_of_compare {a b} h := by
    obtain ⟨ids, attributes, types⟩ := a
    obtain ⟨ids', attributes', types'⟩ := b
    obtain ⟨hids, hrest⟩ := Ordering.then_eq_eq.1 h
    obtain ⟨hattributes, htypes⟩ := Ordering.then_eq_eq.1 hrest
    obtain rfl := Nat.compare_eq_eq.1 hids
    obtain rfl := Nat.compare_eq_eq.1 hattributes
    obtain rfl := Nat.compare_eq_eq.1 htypes
    rfl

/-- **Which declarations tie**: the value and the pseudo-element do not count. -/
theorem Declaration.cascade_eq_iff {a b : Declaration} : a.cascade b = .eq ↔
    a.property = b.property ∧ a.important = b.important ∧ a.specificity = b.specificity ∧
      a.position = b.position := by
  simp only [cascade, Ordering.then_eq_eq, Std.LawfulEqOrd.compare_eq_iff_eq]

theorem Declaration.isLE_cascade_trans (a b c : Declaration) (hab : (a.cascade b).isLE)
    (hbc : (b.cascade c).isLE) : (a.cascade c).isLE :=
  Std.TransCmp.isLE_trans hab hbc

theorem Declaration.isLE_cascade_total (a b : Declaration) :
    (a.cascade b).isLE || (b.cascade a).isLE := by
  have hswap : b.cascade a = (a.cascade b).swap := Std.OrientedCmp.eq_swap
  rw [hswap]
  cases a.cascade b with
  | lt => rfl
  | eq => rfl
  | gt => rfl

/-! ### Sorting -/

section Sorting

variable {l : List Declaration} {d : Declaration}

theorem perm_cascadeSort (l : List Declaration) : (cascadeSort l).Perm l :=
  List.mergeSort_perm l _

@[simp] theorem mem_cascadeSort : d ∈ cascadeSort l ↔ d ∈ l :=
  (perm_cascadeSort l).mem_iff

/-- **Sorting orders**: no declaration stands before one that it overrides. -/
theorem pairwise_cascadeSort (l : List Declaration) :
    (cascadeSort l).Pairwise fun a b => (a.cascade b).isLE :=
  List.pairwise_mergeSort Declaration.isLE_cascade_trans Declaration.isLE_cascade_total l

theorem cascadeSort_cascadeSort (l : List Declaration) :
    cascadeSort (cascadeSort l) = cascadeSort l :=
  List.mergeSort_of_pairwise (pairwise_cascadeSort l)

/-- **Where nothing ties, the order is determined**: a list in strict cascade order is what
sorting makes of its members, however they come. -/
theorem cascadeSort_eq_of_perm {l' : List Declaration} (hperm : l'.Perm l)
    (hsorted : l'.Pairwise fun a b => a.cascade b = .lt) : cascadeSort l = l' := by
  have hswap : ∀ a b : Declaration, b.cascade a = (a.cascade b).swap :=
    fun _ _ => Std.OrientedCmp.eq_swap
  -- Two members that tie are one, so the two sorted lists agree place by place.
  have htie : ∀ a ∈ l', ∀ b ∈ l', a.cascade b = .eq → a = b := by
    refine List.Pairwise.forall_of_forall_of_flip (fun a _ _ => rfl)
      (hsorted.imp fun {a b} hlt heq => ?_) (hsorted.imp fun {a b} hlt heq => ?_)
    · rw [hlt] at heq
      cases heq
    · rw [hswap, hlt] at heq
      cases heq
  have hmem : ∀ a, a ∈ cascadeSort l ↔ a ∈ l' := fun a => mem_cascadeSort.trans hperm.mem_iff.symm
  refine List.Perm.eq_of_pairwise (fun a b ha hb hab hba => ?_) (pairwise_cascadeSort l)
    (hsorted.imp fun {a b} hlt => ?_) ((perm_cascadeSort l).trans hperm.symm)
  · exact htie a ((hmem a).1 ha) b hb (Std.OrientedCmp.isLE_antisymm hab hba)
  · rw [hlt]
    rfl

/-- In cascade order the properties ascend. -/
theorem pairwise_property_cascadeSort (l : List Declaration) :
    ((cascadeSort l).map (·.property)).Pairwise (· ≤ ·) := by
  rw [List.pairwise_map]
  refine (pairwise_cascadeSort l).imp fun {a b} h => ?_
  have hproperty : (compareOfLessAndEq a.property b.property).isLE :=
    (Ordering.isLE_then_iff_and.1 h).1
  unfold compareOfLessAndEq at hproperty
  split at hproperty
  · next hlt => exact (String.le_total _ _).resolve_right (String.not_le.2 hlt)
  · split at hproperty
    · next heq => exact heq ▸ String.le_refl _
    · cases hproperty

end Sorting

/-! ### The table of winners -/

section Winners

variable {table : List (String × Declaration)} {l : List Declaration} {d : Declaration}
  {property : String}

theorem map_fst_setWinner (d : Declaration) (table : List (String × Declaration)) :
    (setWinner d table).map (·.1) = intern (table.map (·.1)) d.property := by
  induction table with
  | nil => rfl
  | cons entry rest ih =>
    obtain ⟨property, old⟩ := entry
    rw [setWinner]
    by_cases h : property = d.property
    · simp [intern, h]
    · have hne : d.property ≠ property := fun heq => h heq.symm
      rw [if_neg h, List.map_cons, ih]
      unfold intern
      by_cases hmem : d.property ∈ rest.map (·.1)
      · simp [hmem]
      · simp [hmem, hne]

/-- The properties stand in the table in the order in which they first occur. -/
theorem map_fst_winners (l : List Declaration) :
    (winners l).map (·.1) = (l.map (·.property)).foldl intern [] := by
  have key : ∀ (l : List Declaration) (table : List (String × Declaration)),
      (l.foldl (fun table d => setWinner d table) table).map (·.1) =
        (l.map (·.property)).foldl intern (table.map (·.1)) := by
    intro l
    induction l with
    | nil => intro table; rfl
    | cons d l ih =>
      intro table
      rw [List.foldl_cons, ih, map_fst_setWinner, List.map_cons, List.foldl_cons]
  exact key l []

theorem nodup_map_fst_winners (l : List Declaration) : ((winners l).map (·.1)).Nodup := by
  rw [map_fst_winners]
  exact nodup_foldl_intern List.nodup_nil

theorem mem_setWinner (h : (table.map (·.1)).Nodup) {entry : String × Declaration} :
    entry ∈ setWinner d table ↔
      entry = (d.property, d) ∨ entry ∈ table ∧ entry.1 ≠ d.property := by
  induction table with
  | nil => simp [setWinner]
  | cons head rest ih =>
    obtain ⟨p, old⟩ := head
    rw [List.map_cons, List.nodup_cons] at h
    have hrest : ∀ entry ∈ rest, entry.1 ≠ p := by
      intro entry hentry heq
      exact h.1 (List.mem_map.2 ⟨entry, hentry, heq⟩)
    rw [setWinner]
    by_cases hp : p = d.property
    · rw [if_pos hp, List.mem_cons, List.mem_cons, hp]
      constructor
      · rintro (heq | hentry)
        · exact Or.inl heq
        · exact Or.inr ⟨Or.inr hentry, hp ▸ hrest entry hentry⟩
      · rintro (heq | ⟨rfl | hentry, hne⟩)
        · exact Or.inl heq
        · exact absurd rfl hne
        · exact Or.inr hentry
    · rw [if_neg hp, List.mem_cons, List.mem_cons, ih h.2]
      constructor
      · rintro (rfl | heq | ⟨hentry, hne⟩)
        · exact Or.inr ⟨Or.inl rfl, hp⟩
        · exact Or.inl heq
        · exact Or.inr ⟨Or.inr hentry, hne⟩
      · rintro (heq | ⟨rfl | hentry, hne⟩)
        · exact Or.inr (Or.inl heq)
        · exact Or.inl rfl
        · exact Or.inr (Or.inr ⟨hentry, hne⟩)

/-- **The winner of a property is its last declaration.** -/
theorem mem_winners : (property, d) ∈ winners l ↔
    (l.filter (·.property = property)).getLast? = some d := by
  induction l using List.reverseRecOn with
  | nil => simp [winners]
  | append_singleton l last ih =>
    have hwinners : winners (l ++ [last]) = setWinner last (winners l) := by
      rw [winners, List.foldl_append]
      rfl
    rw [hwinners, mem_setWinner (nodup_map_fst_winners l), ih, List.filter_append]
    by_cases h : last.property = property
    · simp [h, eq_comm]
    · have hne : property ≠ last.property := fun heq => h heq.symm
      simp [h, hne]

/-- **In cascade order the winners come in the order of their properties.** -/
theorem pairwise_map_fst_winners (l : List Declaration) :
    ((winners (cascadeSort l)).map (·.1)).Pairwise (· < ·) := by
  have hne := nodup_map_fst_winners (cascadeSort l)
  obtain ⟨tail, htail, hsublist⟩ :=
    exists_foldl_intern_eq_append [] ((cascadeSort l).map (·.property))
  rw [List.nil_append, ← map_fst_winners] at htail
  rw [htail] at hne ⊢
  refine (((pairwise_property_cascadeSort l).sublist hsublist).and hne).imp ?_
  rintro a b ⟨hle, hne⟩
  exact String.not_le.1 fun hge => hne (String.le_antisymm hle hge)

/-- **After sorting, the winner of a property is a greatest declaration of it.** -/
theorem isLE_cascade_of_mem_winners (h : (property, d) ∈ winners (cascadeSort l)) :
    d ∈ l ∧ d.property = property ∧
      ∀ other ∈ l, other.property = property → (other.cascade d).isLE := by
  rw [mem_winners] at h
  have hmem : ∀ other, other ∈ (cascadeSort l).filter (·.property = property) ↔
      other ∈ l ∧ other.property = property := by
    intro other
    rw [List.mem_filter, mem_cascadeSort, decide_eq_true_eq]
  -- The winner stands last among the declarations of its property, behind all the others.
  obtain ⟨before, hsplit⟩ := List.getLast?_eq_some_iff.1 h
  have hsorted := (pairwise_cascadeSort l).filter fun d => d.property = property
  rw [hsplit, List.pairwise_append] at hsorted
  have hlast : d ∈ (cascadeSort l).filter (·.property = property) := by simp [hsplit]
  obtain ⟨hd, hproperty⟩ := (hmem d).1 hlast
  refine ⟨hd, hproperty, fun other hother hother' => ?_⟩
  have hfilter := (hmem other).2 ⟨hother, hother'⟩
  rw [hsplit, List.mem_append, List.mem_singleton] at hfilter
  rcases hfilter with hbefore | rfl
  · exact hsorted.2.2 other hbefore d (List.mem_singleton_self d)
  · exact Std.ReflCmp.isLE_rfl

/-- Every property has a winner. -/
theorem exists_mem_winners (h : d ∈ l) : ∃ winner, (d.property, winner) ∈ winners l := by
  have hmem : d.property ∈ (winners l).map (·.1) := by
    rw [map_fst_winners, mem_foldl_intern]
    exact Or.inr (List.mem_map_of_mem h)
  obtain ⟨⟨property, winner⟩, hentry, heq⟩ := List.mem_map.1 hmem
  exact ⟨winner, heq ▸ hentry⟩

end Winners

end StyleStream
