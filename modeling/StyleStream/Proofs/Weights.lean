/-
  What a weight counts.

  A condition with alternatives can be resolved: one side is kept at each of them, and the tree that
  remains has only parts to count. A weight is defined by a recursion that takes the heavier side as
  soon as it meets an alternative, somewhere below a conjunction, a negation or a combinator. That
  the outcome is the greatest tally of all resolutions (`heaviest_specificity`) is due to the order:
  it is lexicographic, and adding count by count preserves it (`isLE_compare_add`).

  The counts are kept in words of 32 bits, which the recursion passes along and adds to. A tree of
  fewer than 2 ^ 32 nodes does not fill a word, since no node gives more than one point: each step
  of the recursion `Adds` what it should as long as points and nodes together fit.
-/
import StyleStream.Proofs.Grouping

namespace StyleStream

/-! ### The order of weights -/

namespace Specificity

variable {a b c d : Specificity}

@[simp] theorem ids_add (a b : Specificity) : (a + b).ids = a.ids + b.ids := rfl

@[simp] theorem attributes_add (a b : Specificity) :
    (a + b).attributes = a.attributes + b.attributes := rfl

@[simp] theorem types_add (a b : Specificity) : (a + b).types = a.types + b.types := rfl

theorem zero_add (a : Specificity) : zero + a = a := by
  show Specificity.mk _ _ _ = a
  simp [zero]

/-- **The order of weights as arithmetic.** -/
theorem isLE_compare_iff : (compare a b).isLE ↔
    a.ids < b.ids ∨ a.ids = b.ids ∧
      (a.attributes < b.attributes ∨ a.attributes = b.attributes ∧ a.types ≤ b.types) := by
  show ((compare a.ids b.ids).then
    ((compare a.attributes b.attributes).then (compare a.types b.types))).isLE ↔ _
  rw [Ordering.isLE_then_iff_or, Ordering.isLE_then_iff_or, Nat.isLE_compare,
    Nat.compare_eq_lt, Nat.compare_eq_lt, Nat.compare_eq_eq, Nat.compare_eq_eq]

/-- **Adding keeps the order**: the first count that differs decides, and sums differ first where
one of the two pairs does. -/
theorem isLE_compare_add (hab : (compare a b).isLE) (hcd : (compare c d).isLE) :
    (compare (a + c) (b + d)).isLE := by
  rw [isLE_compare_iff] at hab hcd ⊢
  rw [ids_add, ids_add, attributes_add, attributes_add, types_add, types_add]
  omega

theorem eq_of_isLE_compare (hab : (compare a b).isLE) (hba : (compare b a).isLE) : a = b :=
  Std.LawfulEqOrd.eq_of_compare (Std.OrientedCmp.isLE_antisymm hab hba)

theorem heavier_eq_or (a b : Specificity) : a.heavier b = a ∨ a.heavier b = b := by
  unfold heavier
  by_cases h : compare a b = .gt
  · exact .inl (if_pos h)
  · exact .inr (if_neg h)

theorem isLE_compare_heavier_left (a b : Specificity) : (compare a (a.heavier b)).isLE := by
  unfold heavier
  split
  · exact Std.ReflCmp.isLE_rfl
  · rename_i h
    exact Ordering.isLE_iff_ne_gt.2 h

theorem isLE_compare_heavier_right (a b : Specificity) : (compare b (a.heavier b)).isLE := by
  unfold heavier
  split
  · rename_i h
    have hlt : compare b a = .lt := Std.OrientedCmp.lt_of_gt h
    rw [hlt]
    rfl
  · exact Std.ReflCmp.isLE_rfl

end Specificity

/-! ### Parts and tallies -/

/-- What a selector without alternatives is made of. -/
inductive Part where
  | name (test : ElementTest)
  | pseudo (pseudo : PseudoElement)
  | condition (condition : Condition)
  /-- A selector or a condition that is not understood. -/
  | unsupported (text : String)
deriving DecidableEq

namespace Part

def isId : Part → Bool
  | condition (.id _) => true
  | _ => false

/-- Any condition but an identifier. -/
def isAttribute : Part → Bool
  | condition (.id _) => false
  | condition _ => true
  | _ => false

/-- A local name or a pseudo-element. -/
def isType : Part → Bool
  | name test => test.localName.isSome
  | pseudo _ => true
  | _ => false

end Part

/-- The three counts over some parts. -/
def tally (parts : List Part) : Specificity where
  ids := parts.countP Part.isId
  attributes := parts.countP Part.isAttribute
  types := parts.countP Part.isType

theorem tally_append (xs ys : List Part) : tally (xs ++ ys) = tally xs + tally ys := by
  show tally (xs ++ ys) = Specificity.mk _ _ _
  unfold tally
  rw [List.countP_append, List.countP_append, List.countP_append]

theorem tally_perm {xs ys : List Part} (h : xs.Perm ys) : tally xs = tally ys := by
  unfold tally
  rw [h.countP_eq, h.countP_eq, h.countP_eq]

/-! ### The heaviest choice -/

/-- The parts are the heaviest of some choices, and this is their weight. -/
structure Heaviest (choices : List (List Part)) (weight : Specificity) : Prop where
  attained : ∃ parts ∈ choices, tally parts = weight
  bound : ∀ parts ∈ choices, (compare (tally parts) weight).isLE

/-- Each choice on the left with each choice on the right. -/
def pairings (lefts rights : List (List Part)) : List (List Part) :=
  lefts.flatMap fun left => rights.map (left ++ ·)

/-- The parts of all trees with a left side and a right side from two lists. -/
theorem map_flatMap_eq_pairings {α β γ : Type} {node : α → β → γ} {whole : γ → List Part}
    {left : α → List Part} {right : β → List Part}
    (h : ∀ a b, whole (node a b) = left a ++ right b) (lefts : List α) (rights : List β) :
    (lefts.flatMap fun a => rights.map (node a)).map whole =
      pairings (lefts.map left) (rights.map right) := by
  unfold pairings
  rw [List.map_flatMap, List.flatMap_map]
  congr 1
  funext a
  rw [List.map_map, List.map_map]
  apply List.map_congr_left
  intro b _
  exact h a b

/-- Each choice on the left is one on the right, in some order of its parts. -/
def Covered (lefts rights : List (List Part)) : Prop :=
  ∀ left ∈ lefts, ∃ right ∈ rights, left.Perm right

instance (lefts rights : List (List Part)) : Decidable (Covered lefts rights) :=
  inferInstanceAs (Decidable (∀ left ∈ lefts, ∃ right ∈ rights, left.Perm right))

namespace Heaviest

variable {xs ys : List (List Part)} {v w : Specificity}

theorem single (parts : List Part) : Heaviest [parts] (tally parts) where
  attained := ⟨parts, List.mem_singleton_self parts, rfl⟩
  bound other hother := by
    obtain rfl := List.mem_singleton.1 hother
    exact Std.ReflCmp.isLE_rfl

/-- Of two lots the heavier one decides. -/
theorem append (hx : Heaviest xs v) (hy : Heaviest ys w) : Heaviest (xs ++ ys) (v.heavier w) where
  attained := by
    obtain h | h := Specificity.heavier_eq_or v w <;> rw [h]
    · obtain ⟨parts, hmem, heq⟩ := hx.attained
      exact ⟨parts, List.mem_append_left ys hmem, heq⟩
    · obtain ⟨parts, hmem, heq⟩ := hy.attained
      exact ⟨parts, List.mem_append_right xs hmem, heq⟩
  bound parts hmem := by
    obtain hmem | hmem := List.mem_append.1 hmem
    · exact Std.TransCmp.isLE_trans (hx.bound parts hmem)
        (Specificity.isLE_compare_heavier_left v w)
    · exact Std.TransCmp.isLE_trans (hy.bound parts hmem)
        (Specificity.isLE_compare_heavier_right v w)

/-- **The heaviest pairing is that of the heaviest.** -/
theorem pairings (hx : Heaviest xs v) (hy : Heaviest ys w) :
    Heaviest (pairings xs ys) (v + w) where
  attained := by
    obtain ⟨left, hleft, rfl⟩ := hx.attained
    obtain ⟨right, hright, rfl⟩ := hy.attained
    refine ⟨left ++ right, ?_, tally_append left right⟩
    exact List.mem_flatMap.2 ⟨left, hleft, List.mem_map_of_mem hright⟩
  bound parts hmem := by
    obtain ⟨left, hleft, hmem⟩ := List.mem_flatMap.1 hmem
    obtain ⟨right, hright, rfl⟩ := List.mem_map.1 hmem
    rw [tally_append]
    exact Specificity.isLE_compare_add (hx.bound left hleft) (hy.bound right hright)

theorem isLE_of_covered (hx : Heaviest xs v) (hy : Heaviest ys w) (h : Covered xs ys) :
    (compare v w).isLE := by
  obtain ⟨left, hleft, rfl⟩ := hx.attained
  obtain ⟨right, hright, hperm⟩ := h left hleft
  rw [tally_perm hperm]
  exact hy.bound right hright

/-- Choices that are the same up to the order of parts have the same greatest weight. -/
theorem eq_of_covered (hx : Heaviest xs v) (hy : Heaviest ys w) (hxy : Covered xs ys)
    (hyx : Covered ys xs) : v = w :=
  Specificity.eq_of_isLE_compare (hx.isLE_of_covered hy hxy) (hy.isLE_of_covered hx hyx)

end Heaviest

/-! ### Resolving alternatives -/

namespace Condition

/-- What can remain of the condition when one side is kept at each alternative. -/
def resolutions : Condition → List Condition
  | negation inner => inner.resolutions.map negation
  | both left right => left.resolutions.flatMap fun l => right.resolutions.map (both l)
  | either left right => left.resolutions ++ right.resolutions
  | c => [c]

/-- The leaves of the condition. -/
def parts : Condition → List Part
  | negation inner => inner.parts
  | both left right | either left right => left.parts ++ right.parts
  | unsupported text => [.unsupported text]
  | c => [.condition c]

/-- The leaves that can remain when alternatives are resolved. -/
def choices (c : Condition) : List (List Part) :=
  c.resolutions.map parts

theorem choices_negation (inner : Condition) : (negation inner).choices = inner.choices := by
  unfold choices
  rw [resolutions, List.map_map]
  rfl

theorem choices_both (left right : Condition) :
    (both left right).choices = pairings left.choices right.choices := by
  have hparts : ∀ l r, (both l r).parts = l.parts ++ r.parts := fun _ _ => rfl
  exact map_flatMap_eq_pairings hparts left.resolutions right.resolutions

theorem choices_either (left right : Condition) :
    (either left right).choices = left.choices ++ right.choices := by
  unfold choices
  rw [resolutions, List.map_append]

/-- **The weight of a condition is its heaviest resolution.** -/
theorem heaviest_specificity (c : Condition) : Heaviest c.choices c.specificity := by
  induction c with
  | negation inner ih =>
    rw [choices_negation]
    exact ih
  | both left right ihl ihr =>
    rw [choices_both]
    exact ihl.pairings ihr
  | either left right ihl ihr =>
    rw [choices_either]
    exact ihl.append ihr
  | _ => exact Heaviest.single _

end Condition

namespace Selector

/-- What can remain of the selector when one side is kept at each alternative of its conditions. -/
def resolutions : Selector → List Selector
  | filtered inner condition =>
    inner.resolutions.flatMap fun s => condition.resolutions.map (filtered s)
  | combined op left right =>
    left.resolutions.flatMap fun l => right.resolutions.map (combined op l)
  | s => [s]

/-- The leaves of the selector, those of its conditions included. -/
def parts : Selector → List Part
  | element test => [.name test]
  | filtered inner condition => inner.parts ++ condition.parts
  | combined _ left right => left.parts ++ right.parts
  | pseudo p => [.pseudo p]
  | unsupported text => [.unsupported text]

/-- The leaves that can remain when alternatives are resolved. -/
def choices (s : Selector) : List (List Part) :=
  s.resolutions.map parts

theorem choices_filtered (inner : Selector) (condition : Condition) :
    (filtered inner condition).choices = pairings inner.choices condition.choices := by
  have hparts : ∀ s c, (filtered s c).parts = s.parts ++ c.parts := fun _ _ => rfl
  exact map_flatMap_eq_pairings hparts inner.resolutions condition.resolutions

theorem choices_combined (op : Combinator) (left right : Selector) :
    (combined op left right).choices = pairings left.choices right.choices := by
  have hparts : ∀ l r, (combined op l r).parts = l.parts ++ r.parts := fun _ _ => rfl
  exact map_flatMap_eq_pairings hparts left.resolutions right.resolutions

/-- **The weight of a selector is its heaviest resolution.** -/
theorem heaviest_specificity (s : Selector) : Heaviest s.choices s.specificity := by
  induction s with
  | element test =>
    obtain ⟨ns, localName⟩ := test
    cases localName with
    | none => exact Heaviest.single [.name ⟨ns, none⟩]
    | some localName => exact Heaviest.single [.name ⟨ns, some localName⟩]
  | filtered inner condition ih =>
    rw [choices_filtered]
    exact ih.pairings condition.heaviest_specificity
  | combined op left right ihl ihr =>
    rw [choices_combined]
    exact ihl.pairings ihr
  | pseudo p => exact Heaviest.single [.pseudo p]
  | unsupported text => exact Heaviest.single [.unsupported text]

end Selector

/-! ### Weights in words -/

namespace Specificity

/-- The sum of weights whose counts are words of 32 bits, unless a count overflows. -/
def add? (acc weight : Specificity) : Option Specificity :=
  if acc.ids + weight.ids < 2 ^ 32 ∧ acc.attributes + weight.attributes < 2 ^ 32 ∧
      acc.types + weight.types < 2 ^ 32 then
    some (acc + weight)
  else
    none

/-- All points of a weight, of whatever kind. -/
def points (weight : Specificity) : Nat :=
  weight.ids + weight.attributes + weight.types

theorem points_add (a b : Specificity) : (a + b).points = a.points + b.points := by
  unfold points
  rw [ids_add, attributes_add, types_add]
  omega

theorem add?_eq {acc weight : Specificity} (h : acc.points + weight.points < 2 ^ 32) :
    acc.add? weight = some (acc + weight) := by
  unfold points at h
  exact if_pos ⟨by omega, by omega, by omega⟩

end Specificity

namespace Condition

/-- How many nodes the tree has. -/
def nodeCount : Condition → Nat
  | negation inner => inner.nodeCount + 1
  | both left right | either left right => left.nodeCount + right.nodeCount + 1
  | _ => 1

/-- Adds the weight of the condition to words, leaf by leaf. The sides of an alternative are weighed
on their own, each from zero. -/
def addTo? : Condition → Specificity → Option Specificity
  | id _, acc => acc.add? ⟨1, 0, 0⟩
  | negation inner, acc => inner.addTo? acc
  | both left right, acc => (left.addTo? acc).bind right.addTo?
  | either left right, acc => do
    let left ← left.addTo? .zero
    let right ← right.addTo? .zero
    acc.add? (left.heavier right)
  | unsupported _, acc => some acc
  | _, acc => acc.add? ⟨0, 1, 0⟩

/-- The weight of the condition in words. -/
def specificity? (c : Condition) : Option Specificity :=
  c.addTo? .zero

end Condition

namespace Selector

/-- How many nodes the tree has, those of its conditions included. -/
def nodeCount : Selector → Nat
  | filtered inner condition => inner.nodeCount + condition.nodeCount + 1
  | combined _ left right => left.nodeCount + right.nodeCount + 1
  | _ => 1

/-- Adds the weight of the selector to words, leaf by leaf. -/
def addTo? : Selector → Specificity → Option Specificity
  | element test, acc => if test.localName.isSome then acc.add? ⟨0, 0, 1⟩ else some acc
  | filtered inner condition, acc => (inner.addTo? acc).bind condition.addTo?
  | combined _ left right, acc => (left.addTo? acc).bind right.addTo?
  | pseudo _, acc => acc.add? ⟨0, 0, 1⟩
  | unsupported _, acc => some acc

/-- The weight of the selector in words. -/
def specificity? (s : Selector) : Option Specificity :=
  s.addTo? .zero

end Selector

/-- Weighing some nodes adds a weight of at most that many points, and no word overflows while the
points that are there and the nodes fit in one. -/
structure Adds (step : Specificity → Option Specificity) (weight : Specificity) (nodes : Nat) :
    Prop where
  points_le : weight.points ≤ nodes
  eq_some : ∀ acc : Specificity, acc.points + nodes < 2 ^ 32 → step acc = some (acc + weight)

namespace Adds

variable {f g : Specificity → Option Specificity} {v w : Specificity} {m n : Nat}

theorem nothing : Adds some .zero 1 where
  points_le := Nat.zero_le 1
  eq_some _ _ := rfl

/-- A leaf that gives one point. -/
theorem point (h : v.points = 1) : Adds (fun acc => acc.add? v) v 1 where
  points_le := h.le
  eq_some _ hacc := Specificity.add?_eq (h.symm ▸ hacc)

/-- One more node that weighs nothing. -/
theorem succ (hf : Adds f v m) : Adds f v (m + 1) where
  points_le := Nat.le_succ_of_le hf.points_le
  eq_some acc hacc := hf.eq_some acc (by omega)

theorem andThen (hf : Adds f v m) (hg : Adds g w n) :
    Adds (fun acc => (f acc).bind g) (v + w) (m + n + 1) where
  points_le := by
    have hv := hf.points_le
    have hw := hg.points_le
    rw [Specificity.points_add]
    omega
  eq_some acc hacc := by
    have hv := hf.points_le
    have hrest : (acc + v).points + n < 2 ^ 32 := by
      rw [Specificity.points_add]
      omega
    rw [hf.eq_some acc (by omega), Option.bind_some, hg.eq_some (acc + v) hrest,
      Specificity.add_assoc]

/-- What is weighed from zero is added as a whole. -/
theorem heavier (hf : Adds f v m) (hg : Adds g w n) :
    Adds (fun acc => do
      let left ← f .zero
      let right ← g .zero
      acc.add? (left.heavier right)) (v.heavier w) (m + n + 1) := by
  have hv := hf.points_le
  have hw := hg.points_le
  have hle : (v.heavier w).points ≤ m + n := by
    obtain h | h := Specificity.heavier_eq_or v w <;> rw [h] <;> omega
  refine ⟨Nat.le_succ_of_le hle, fun acc hacc => ?_⟩
  have hzero : Specificity.zero.points = 0 := rfl
  rw [hf.eq_some .zero (by omega), hg.eq_some .zero (by omega), Specificity.zero_add,
    Specificity.zero_add]
  exact Specificity.add?_eq (by omega)

end Adds

/-- **Few nodes do not fill a word.** -/
theorem Condition.adds (c : Condition) : Adds c.addTo? c.specificity c.nodeCount := by
  induction c with
  | negation inner ih => exact ih.succ
  | both left right ihl ihr => exact ihl.andThen ihr
  | either left right ihl ihr => exact ihl.heavier ihr
  | unsupported text => exact .nothing
  | _ => exact .point rfl

/-- **Few nodes do not fill a word**, those of conditions included. -/
theorem Selector.adds (s : Selector) : Adds s.addTo? s.specificity s.nodeCount := by
  induction s with
  | element test =>
    obtain ⟨ns, localName⟩ := test
    cases localName with
    | none => exact .nothing
    | some localName => exact .point rfl
  | filtered inner condition ih => exact ih.andThen condition.adds
  | combined op left right ihl ihr => exact ihl.andThen ihr
  | pseudo p => exact .point rfl
  | unsupported text => exact .nothing

theorem Condition.specificity?_eq {c : Condition} (h : c.nodeCount < 2 ^ 32) :
    c.specificity? = some c.specificity := by
  unfold specificity?
  rw [c.adds.eq_some .zero (by show 0 + _ < _; omega), Specificity.zero_add]

theorem Selector.specificity?_eq {s : Selector} (h : s.nodeCount < 2 ^ 32) :
    s.specificity? = some s.specificity := by
  unfold specificity?
  rw [s.adds.eq_some .zero (by show 0 + _ < _; omega), Specificity.zero_add]

/-! ### The heaviest resolution -/

/-- **A weight is that of the heaviest resolution.** As long as a word can count the nodes of a tree,
no sum overflows, and the words hold the greatest tally of all ways of resolving the tree. Negation
weighs nothing, and conjunction, combinators and guards add. How the tree is nested does not count:
two trees that can leave the same parts, in whatever order, weigh the same. -/
theorem weight_heaviest_resolution :
    (∀ c : Condition, c.nodeCount < 2 ^ 32 →
      c.specificity? = some c.specificity ∧ Heaviest c.choices c.specificity) ∧
    (∀ s : Selector, s.nodeCount < 2 ^ 32 →
      s.specificity? = some s.specificity ∧ Heaviest s.choices s.specificity) ∧
    (∀ c : Condition, c.negation.specificity = c.specificity) ∧
    (∀ a b : Condition, (a.both b).specificity = a.specificity + b.specificity) ∧
    (∀ (s : Selector) (c : Condition),
      (s.filtered c).specificity = s.specificity + c.specificity) ∧
    (∀ (op : Combinator) (l r : Selector),
      (Selector.combined op l r).specificity = l.specificity + r.specificity) ∧
    (∀ a b : Condition, Covered a.choices b.choices → Covered b.choices a.choices →
      a.specificity = b.specificity) ∧
    ∀ s t : Selector, Covered s.choices t.choices → Covered t.choices s.choices →
      s.specificity = t.specificity := by
  refine ⟨?_, ?_, fun _ => rfl, fun _ _ => rfl, fun _ _ => rfl, fun _ _ _ => rfl, ?_, ?_⟩
  · intro c h
    exact ⟨Condition.specificity?_eq h, c.heaviest_specificity⟩
  · intro s h
    exact ⟨Selector.specificity?_eq h, s.heaviest_specificity⟩
  · intro a b hab hba
    exact a.heaviest_specificity.eq_of_covered b.heaviest_specificity hab hba
  · intro s t hst hts
    exact s.heaviest_specificity.eq_of_covered t.heaviest_specificity hst hts

/-- An identifier below a negation and a conjunction outweighs two classes and a position. Conditions
may change places and become guards one by one, and a double negation may be dropped. -/
theorem weight_heaviest_resolution_identifier :
    let c : Condition := .both (.negation (.either
      (.both (.className "a") (.both (.className "b") (.positional 0))) (.id "x"))) (.lang "en")
    let s : Selector := .combined .child (.ofName "ul") (.combined .adjacent
      (.filtered (.ofName "li") (.either (.className "a") (.unsupported ":y"))) (.pseudo .before))
    c.specificity? = some ⟨1, 1, 0⟩ ∧ Heaviest c.choices ⟨1, 1, 0⟩ ∧
    s.specificity? = some ⟨0, 1, 3⟩ ∧ Heaviest s.choices ⟨0, 1, 3⟩ ∧
    (Condition.both (.id "x") (.negation (.negation (.className "a")))).specificity =
      (Condition.both (.className "a") (.id "x")).specificity ∧
    (Selector.filtered (.filtered .universal (.id "x")) (.className "a")).specificity =
      (Selector.filtered .universal (.both (.className "a") (.id "x"))).specificity := by
  intro c s
  obtain ⟨hconditions, hselectors, -, -, -, -, hsame, hsameSelectors⟩ := weight_heaviest_resolution
  obtain ⟨hwords, hheaviest⟩ := hconditions c (by decide)
  obtain ⟨hwords', hheaviest'⟩ := hselectors s (by decide)
  refine ⟨hwords, hheaviest, hwords', hheaviest', ?_, ?_⟩
  · exact hsame _ _ (by decide) (by decide)
  · exact hsameSelectors _ _ (by decide) (by decide)

end StyleStream
