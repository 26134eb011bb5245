/-
  Which declarations win, told by their places in the list.

  The table of winners keeps the place of the first declaration of a property and takes the value
  of the last (`mem_winners_iff_isLast`). After sorting that is a greatest declaration, and since
  sorting leaves ties in their order, it is the last of its ties in the list before sorting
  (`mem_winners_cascadeSort_iff`).
-/
import StyleStream.Proofs.Precedence
import StyleStream.Proofs.Sorting

namespace StyleStream

/-! ### Last members -/

/-- `a` stands in the list and has the property, and no member with the property stands behind
it. -/
def IsLast {α : Type} (l : List α) (P : α → Prop) (a : α) : Prop :=
  ∃ n : Nat, l[n]? = some a ∧ P a ∧ ∀ (m : Nat) b, l[m]? = some b → P b → m ≤ n

section IsLast

variable {α : Type} {l : List α} {P : α → Prop} {a b : α}

theorem isLast_append_of_pos (hb : P b) : IsLast (l ++ [b]) P a ↔ a = b := by
  have hget : (l ++ [b])[l.length]? = some b := List.getElem?_concat_length
  constructor
  · rintro ⟨n, hn, -, hlast⟩
    have hlt := (List.getElem?_eq_some_iff.1 hn).1
    have hle := hlast l.length b hget hb
    rw [List.length_append, List.length_singleton] at hlt
    obtain rfl : n = l.length := by omega
    exact Option.some.inj (hn.symm.trans hget)
  · rintro rfl
    refine ⟨l.length, hget, hb, fun m c hm _ => ?_⟩
    have hlt := (List.getElem?_eq_some_iff.1 hm).1
    rw [List.length_append, List.length_singleton] at hlt
    omega

theorem isLast_append_of_neg (hb : ¬ P b) : IsLast (l ++ [b]) P a ↔ IsLast l P a := by
  -- A member with the property is not the new one, so it stands where it stood.
  have hget : ∀ (n : Nat) c, P c → ((l ++ [b])[n]? = some c ↔ l[n]? = some c) := by
    intro n c hc
    by_cases hn : n < l.length
    · rw [List.getElem?_append_left hn]
    · have hnone : l[n]? = none := List.getElem?_eq_none_iff.2 (Nat.le_of_not_lt hn)
      rw [List.getElem?_append_right (Nat.le_of_not_lt hn), hnone, List.getElem?_singleton]
      split
      · refine iff_of_false (fun h => hb ?_) (by simp)
        rw [Option.some.inj h]
        exact hc
      · rfl
  unfold IsLast
  constructor
  · rintro ⟨n, hn, ha, hlast⟩
    exact ⟨n, (hget n a ha).1 hn, ha, fun m c hm hc => hlast m c ((hget m c hc).2 hm) hc⟩
  · rintro ⟨n, hn, ha, hlast⟩
    exact ⟨n, (hget n a ha).2 hn, ha, fun m c hm hc => hlast m c ((hget m c hc).1 hm) hc⟩

theorem isLast_iff_getLast?_filter [DecidablePred P] :
    IsLast l P a ↔ (l.filter P).getLast? = some a := by
  induction l using List.reverseRecOn with
  | nil => simp [IsLast]
  | append_singleton l b ih =>
    rw [List.filter_append]
    by_cases hb : P b
    · rw [isLast_append_of_pos hb]
      simp [hb, eq_comm]
    · rw [isLast_append_of_neg hb, ih]
      simp [hb]

theorem IsLast.mem (h : IsLast l P a) : a ∈ l := by
  obtain ⟨n, hn, -⟩ := h
  exact List.mem_of_getElem? hn

end IsLast

/-! ### Winners -/

section Winners

variable {l : List Declaration} {d : Declaration} {property : String}

/-- **The winner of a property** is its last declaration. -/
theorem mem_winners_iff_isLast :
    (property, d) ∈ winners l ↔ IsLast l (fun other => other.property = property) d := by
  rw [mem_winners, isLast_iff_getLast?_filter]

/-- Taking out the declarations that tie with one gives the same before and after sorting. -/
theorem filter_cascadeSort (l : List Declaration) (d : Declaration) :
    (cascadeSort l).filter (fun other => other.cascade d = .eq) =
      l.filter fun other => other.cascade d = .eq := by
  refine filter_mergeSort Declaration.isLE_cascade_trans Declaration.isLE_cascade_total
    fun a b ha hb => ?_
  -- Two declarations that tie with `d` tie with each other.
  rw [decide_eq_true_eq, Declaration.cascade_eq_iff] at ha hb
  obtain ⟨hproperty, himportant, hspecificity, hposition⟩ := ha
  obtain ⟨hproperty', himportant', hspecificity', hposition'⟩ := hb
  have htie : a.cascade b = .eq := Declaration.cascade_eq_iff.2
    ⟨hproperty.trans hproperty'.symm, himportant.trans himportant'.symm,
      hspecificity.trans hspecificity'.symm, hposition.trans hposition'.symm⟩
  rw [htie]
  rfl

/-- **The winner after sorting** is the last of its ties in the list as it was. -/
theorem isLast_of_mem_winners_cascadeSort (h : (property, d) ∈ winners (cascadeSort l)) :
    IsLast l (fun other => other.cascade d = .eq) d := by
  rw [isLast_iff_getLast?_filter, ← filter_cascadeSort]
  -- Among the declarations of the property, which end with `d`, are all its ties.
  obtain ⟨-, hproperty, -⟩ := isLE_cascade_of_mem_winners h
  obtain ⟨before, hsplit⟩ := List.getLast?_eq_some_iff.1 (mem_winners.1 h)
  have hties : (cascadeSort l).filter (fun other => other.cascade d = .eq) =
      ((cascadeSort l).filter (·.property = property)).filter
        fun other => other.cascade d = .eq := by
    rw [List.filter_filter]
    refine List.filter_congr fun other _ => ?_
    rw [Bool.eq_iff_iff, Bool.and_eq_true, decide_eq_true_eq, decide_eq_true_eq, iff_self_and]
    exact fun htie => (Declaration.cascade_eq_iff.1 htie).1.trans hproperty
  have hself : d.cascade d = .eq := Declaration.cascade_eq_iff.2 ⟨rfl, rfl, rfl, rfl⟩
  rw [hties, hsplit, List.filter_append]
  simp [hself]

/-- **After sorting** the winner of a property is the last of its greatest declarations. -/
theorem mem_winners_cascadeSort_iff : (property, d) ∈ winners (cascadeSort l) ↔
    d.property = property ∧ (∀ other ∈ l, other.property = property → (other.cascade d).isLE) ∧
      IsLast l (fun other => other.cascade d = .eq) d := by
  constructor
  · intro h
    obtain ⟨-, hproperty, hgreatest⟩ := isLE_cascade_of_mem_winners h
    exact ⟨hproperty, hgreatest, isLast_of_mem_winners_cascadeSort h⟩
  · rintro ⟨rfl, hgreatest, hlast⟩
    -- The winner of the property and `d` are both greatest, so they tie, and both come last.
    obtain ⟨winner, hwinner⟩ := exists_mem_winners (mem_cascadeSort.2 hlast.mem)
    obtain ⟨hmem, hproperty, hgreatest'⟩ := isLE_cascade_of_mem_winners hwinner
    have htie : d.cascade winner = .eq :=
      Std.OrientedCmp.isLE_antisymm (hgreatest' d hlast.mem rfl) (hgreatest winner hmem hproperty)
    have hlast' := isLast_of_mem_winners_cascadeSort hwinner
    simp only [isLast_iff_getLast?_filter] at hlast hlast'
    have hties : ∀ other : Declaration, other.cascade d = .eq ↔ other.cascade winner = .eq := by
      intro other
      simp only [Declaration.cascade_eq_iff] at htie ⊢
      rw [htie.1, htie.2.1, htie.2.2.1, htie.2.2.2]
    simp only [hties] at hlast
    obtain rfl : d = winner := Option.some.inj (hlast.symm.trans hlast')
    exact hwinner

/-- **The table of winners.** It has one entry for each property, in the order in which the
properties first occur, and the entry holds the last declaration of the property. So if the
declarations are sorted before, the properties come in strictly ascending order, and the entry
of a property holds a greatest declaration of it, namely the one that stands last
among its ties in the list before sorting. -/
theorem winners_exact (l : List Declaration) :
    (winners l).map (·.1) = (l.map (·.property)).eraseDups ∧
      (∀ property d, (property, d) ∈ winners l ↔
        IsLast l (fun other => other.property = property) d) ∧
      ((winners (cascadeSort l)).map (·.1)).Pairwise (· < ·) ∧
      ∀ property d, (property, d) ∈ winners (cascadeSort l) ↔
        d.property = property ∧
          (∀ other ∈ l, other.property = property → (other.cascade d).isLE) ∧
          IsLast l (fun other => other.cascade d = .eq) d := by
  have hkeys : (winners l).map (·.1) = (l.map (·.property)).eraseDups := by
    rw [map_fst_winners, foldl_intern_eq_append_eraseDups, List.nil_append,
      List.filter_eq_self.2 fun _ _ => decide_eq_true List.not_mem_nil]
  exact ⟨hkeys, fun _ _ => mem_winners_iff_isLast, pairwise_map_fst_winners l,
    fun _ _ => mem_winners_cascadeSort_iff⟩

end Winners

end StyleStream
