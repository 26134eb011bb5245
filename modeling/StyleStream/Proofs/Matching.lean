/-
  What it means for a selector to match an element of a document.

  A selector is a chain of simple selectors, and under a nested combinator it
  matters where the chain begins: in `A > (B > C)` the parent that `A` asks about
  is the parent of the element for `B`. So the relation is `Spans first last`: the
  selector matches at `last`, and its leftmost simple selector stands at `first`.
  Nothing here mentions an automaton. `anchors` computes the places where a chain
  may begin, which makes matching decidable.
-/
import StyleStream.Proofs.Document
import StyleStream.Selector

namespace StyleStream

/-- The places that may stand on the left of a place under a combinator. -/
def Combinator.partners : Combinator → Place → List Place
  | .child, p => p.parent?.toList
  | .descendant, p => p.ancestors
  | .adjacent, p => p.previous?.toList

namespace Selector

/-- **The selector matches at `last` and its leftmost simple selector stands at
`first`.** A pseudo-element on the right of a combinator is not looked for; one
that stands alone is a part of any element. -/
def Spans (config : Config) : Selector → Place → Place → Prop
  | element test, first, last =>
    first = last ∧ nameLabel test.ns test.localName ∈ last.element.labels
  | filtered inner condition, first, last =>
    inner.Spans config first last ∧ (last.context config).holds condition
  | combined combinator left right, first, last =>
    if right.isPseudo then left.Spans config first last
    else ∃ inner, right.Spans config inner last ∧
      ∃ outer ∈ combinator.partners inner, left.Spans config first outer
  | pseudo _, first, last => first = last
  | unsupported _, _, _ => False

/-- The selector matches at a place. -/
def Matches (config : Config) (s : Selector) (p : Place) : Prop :=
  ∃ first, s.Spans config first p

/-- The places where the leftmost simple selector may stand if the selector
matches at a place. -/
def anchors (config : Config) : Selector → Place → List Place
  | element test, p => if nameLabel test.ns test.localName ∈ p.element.labels then [p] else []
  | filtered inner condition, p =>
    if (p.context config).holds condition then inner.anchors config p else []
  | combined combinator left right, p =>
    if right.isPseudo then left.anchors config p
    else (right.anchors config p).flatMap fun inner =>
      (combinator.partners inner).flatMap (left.anchors config)
  | pseudo _, p => [p]
  | unsupported _, _ => []

theorem mem_anchors {config : Config} {s : Selector} {first last : Place} :
    first ∈ s.anchors config last ↔ s.Spans config first last := by
  induction s generalizing first last with
  | element test =>
    rw [anchors, Spans]
    split
    · next h => simp [h]
    · next h => simp [h]
  | filtered inner condition ih =>
    rw [anchors, Spans]
    split
    · next h => simp [h, ih]
    · next h => simp [h]
  | combined combinator left right ihl ihr =>
    rw [anchors, Spans]
    split
    · exact ihl
    · simp only [List.mem_flatMap, ihl, ihr]
  | pseudo p => simp [anchors, Spans]
  | unsupported text => simp [anchors, Spans]

theorem matches_iff_anchors_ne_nil {config : Config} {s : Selector} {p : Place} :
    s.Matches config p ↔ s.anchors config p ≠ [] := by
  constructor
  · rintro ⟨first, h⟩
    exact List.ne_nil_of_mem (mem_anchors.2 h)
  · intro h
    obtain ⟨first, h⟩ := List.exists_mem_of_ne_nil _ h
    exact ⟨first, mem_anchors.1 h⟩

instance (config : Config) (s : Selector) (p : Place) : Decidable (s.Matches config p) :=
  if h : s.anchors config p = [] then
    isFalse fun hmatches => matches_iff_anchors_ne_nil.1 hmatches h
  else
    isTrue (matches_iff_anchors_ne_nil.2 h)

end Selector

end StyleStream
