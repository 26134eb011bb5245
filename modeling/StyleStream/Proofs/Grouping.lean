/-
  How a selector is bracketed does not matter.

  A selector is a chain of simple selectors with a combinator between each two, and a tree
  is one way to set brackets in the chain. `Regroups` relates the trees of a chain: brackets
  may move over a combinator, and a condition on a chain may move to the right end of the
  chain, anywhere inside a selector. Only the simple selector that the brackets move over
  must not be a bare pseudo-element, since that is read in one way on the right of a
  combinator and in another way on the left. Each recursion over selectors gives the same result
  for both trees, so rules with one or the other contribute the same to every answer
  (`regrouped_interchangeable`), although their fragments have different shapes.
-/
import StyleStream.Proofs.Contributions

namespace StyleStream

/-! ### Trees of one chain -/

namespace Selector

/-- The two trees have the same chain. -/
inductive Regroups : Selector → Selector → Prop where
  | refl (s : Selector) : Regroups s s
  | symm {s s' : Selector} : Regroups s s' → Regroups s' s
  | trans {s s' s'' : Selector} : Regroups s s' → Regroups s' s'' → Regroups s s''
  /-- Brackets move over a selector between two combinators. -/
  | assoc {a b : Selector} (op₁ op₂ : Combinator) (c : Selector) (hb : ¬b.isPseudo) :
    Regroups (.combined op₂ (.combined op₁ a b) c) (.combined op₁ a (.combined op₂ b c))
  /-- A condition on a chain is a condition on its right end. -/
  | guard {a b : Selector} (op : Combinator) (condition : Condition) (hb : ¬b.isPseudo) :
    Regroups (.filtered (.combined op a b) condition) (.combined op a (.filtered b condition))
  /-- Brackets may move inside a selector with a condition. -/
  | filtered {s s' : Selector} (condition : Condition) :
    Regroups s s' → Regroups (.filtered s condition) (.filtered s' condition)
  /-- Brackets may move on both sides of a combinator. -/
  | combined {l l' r r' : Selector} (op : Combinator) :
    Regroups l l' → Regroups r r' → Regroups (.combined op l r) (.combined op l' r')

end Selector

theorem Specificity.add_assoc (a b c : Specificity) : a + b + c = a + (b + c) := by
  show Specificity.mk _ _ _ = Specificity.mk _ _ _
  rw [Specificity.mk.injEq]
  exact ⟨Nat.add_assoc _ _ _, Nat.add_assoc _ _ _, Nat.add_assoc _ _ _⟩

namespace Selector

variable {s s' : Selector}

/-- A chain of one pseudo-element has one tree. -/
theorem Regroups.isPseudo_eq (h : Regroups s s') : s.isPseudo = s'.isPseudo := by
  induction h with
  | refl s => rfl
  | symm _ ih => exact ih.symm
  | trans _ _ ih ih' => exact ih.trans ih'
  | assoc op₁ op₂ c hb => rfl
  | guard op condition hb => rfl
  | filtered condition _ _ => rfl
  | combined op _ _ _ _ => rfl

/-- What is written between two sides depends on the combinator alone if the right side is more
than a pseudo-element. -/
theorem joint_of_not_isPseudo {op : Combinator} {r : Selector} (h : ¬r.isPseudo) :
    joint op r = op.text := by
  rw [joint, if_neg fun hjoint => h hjoint.2]

/-- **Brackets are not written.** -/
theorem Regroups.text_eq (h : Regroups s s') : s.text = s'.text := by
  induction h with
  | refl s => rfl
  | symm _ ih => exact ih.symm
  | trans _ _ ih ih' => exact ih.trans ih'
  | assoc op₁ op₂ c hb =>
    simp only [text, joint_of_not_isPseudo hb,
      joint_of_not_isPseudo (r := .combined op₂ _ c) Bool.false_ne_true, String.append_assoc]
  | guard op condition hb =>
    simp only [text, joint_of_not_isPseudo hb,
      joint_of_not_isPseudo (r := .filtered _ condition) Bool.false_ne_true, String.append_assoc]
  | filtered condition _ ih => rw [text, ih, text]
  | combined op _ hr ihl ihr => simp only [text, joint, ihl, ihr, hr.isPseudo_eq]

/-- **Brackets weigh nothing.** -/
theorem Regroups.specificity_eq (h : Regroups s s') : s.specificity = s'.specificity := by
  induction h with
  | refl s => rfl
  | symm _ ih => exact ih.symm
  | trans _ _ ih ih' => exact ih.trans ih'
  | assoc op₁ op₂ c hb => exact Specificity.add_assoc _ _ _
  | guard op condition hb => exact Specificity.add_assoc _ _ _
  | filtered condition _ ih => rw [specificity, ih, specificity]
  | combined op _ _ ihl ihr => rw [specificity, ihl, ihr, specificity]

theorem Regroups.pseudoElement?_eq (h : Regroups s s') :
    s.pseudoElement? = s'.pseudoElement? := by
  induction h with
  | refl s => rfl
  | symm _ ih => exact ih.symm
  | trans _ _ ih ih' => exact ih.trans ih'
  | assoc op₁ op₂ c hb => rfl
  | guard op condition hb => rfl
  | filtered condition _ _ => rfl
  | combined op _ _ _ ihr => exact ihr

theorem Regroups.isSupported_eq (h : Regroups s s') : s.isSupported = s'.isSupported := by
  induction h with
  | refl s => rfl
  | symm _ ih => exact ih.symm
  | trans _ _ ih ih' => exact ih.trans ih'
  | assoc op₁ op₂ c hb => exact Bool.and_assoc _ _ _
  | guard op condition hb => exact Bool.and_assoc _ _ _
  | filtered condition _ ih => rw [isSupported, ih, isSupported]
  | combined op _ _ ihl ihr => rw [isSupported, ihl, ihr, isSupported]

/-! ### Matching -/

section Spans

variable {config : Config} {first last : Place} {op : Combinator} {l r : Selector}

/-- A chain matches by finding its right end and then its left part from there. -/
theorem spans_combined (hr : ¬r.isPseudo) :
    (combined op l r).Spans config first last ↔ ∃ inner, r.Spans config inner last ∧
      ∃ outer ∈ op.partners inner, l.Spans config first outer := by
  rw [Spans, if_neg hr]

theorem spans_combined_pseudo (hr : r.isPseudo) :
    (combined op l r).Spans config first last ↔ l.Spans config first last := by
  rw [Spans, if_pos hr]

/-- The left part of a chain is looked for from where the right part begins, and it does not
matter which of two combinators is resolved first. -/
theorem spans_assoc {a b c : Selector} {op₁ op₂ : Combinator} (hb : ¬b.isPseudo) :
    (combined op₂ (combined op₁ a b) c).Spans config first last ↔
      (combined op₁ a (combined op₂ b c)).Spans config first last := by
  have hchain : ¬(combined op₂ b c).isPseudo := Bool.false_ne_true
  rw [@spans_combined config first last op₁ a _ hchain]
  by_cases hc : c.isPseudo
  · -- A pseudo-element at the end is not looked for, in either tree.
    simp only [spans_combined_pseudo hc, spans_combined hb]
  · simp only [spans_combined hc, spans_combined hb]
    constructor
    · rintro ⟨inner, hinner, middle, hmiddle, inner', hinner', outer, houter, hfirst⟩
      exact ⟨inner', ⟨inner, hinner, middle, hmiddle, hinner'⟩, outer, houter, hfirst⟩
    · rintro ⟨inner', ⟨inner, hinner, middle, hmiddle, hinner'⟩, outer, houter, hfirst⟩
      exact ⟨inner, hinner, middle, hmiddle, inner', hinner', outer, houter, hfirst⟩

theorem spans_guard {a b : Selector} {condition : Condition} (hb : ¬b.isPseudo) :
    (filtered (combined op a b) condition).Spans config first last ↔
      (combined op a (filtered b condition)).Spans config first last := by
  rw [spans_combined (r := filtered b condition) Bool.false_ne_true]
  simp only [Spans, if_neg hb]
  constructor
  · rintro ⟨⟨inner, hinner, houter⟩, hholds⟩
    exact ⟨inner, ⟨hinner, hholds⟩, houter⟩
  · rintro ⟨inner, ⟨hinner, hholds⟩, houter⟩
    exact ⟨⟨inner, hinner, houter⟩, hholds⟩

end Spans

/-- **Trees of one chain match alike**, and their leftmost simple selectors stand at the same
places. -/
theorem Regroups.spans_iff {config : Config} {first last : Place} (h : Regroups s s') :
    s.Spans config first last ↔ s'.Spans config first last := by
  induction h generalizing first last with
  | refl s => exact Iff.rfl
  | symm _ ih => exact ih.symm
  | trans _ _ ih ih' => exact ih.trans ih'
  | assoc op₁ op₂ c hb => exact spans_assoc hb
  | guard op condition hb => exact spans_guard hb
  | filtered condition _ ih => simp only [Spans, ih]
  | combined op _ hr ihl ihr => simp only [Spans, ihl, ihr, hr.isPseudo_eq]

theorem Regroups.matches_iff {config : Config} {p : Place} (h : Regroups s s') :
    s.Matches config p ↔ s'.Matches config p := by
  unfold Matches
  simp only [h.spans_iff]

end Selector

/-! ### Rules -/

section Rules

variable {α : Type} {config : Config} {events : List StreamEvent} {pseudo : Option PseudoElement}

/-- What the rules contribute, asked of the nondeterministic automaton. -/
def contributionsNfa (rules : List (Rule × α)) (config : Config) (events : List StreamEvent)
    (pseudo : Option PseudoElement) : Except Error (List (Declaration × α)) :=
  ((Matcher.new (.compileNfa (rules.map (·.1))) config).run events).tagged (understoodTags rules)
    pseudo

/-- Both automata are asked for the same. -/
theorem contributionsNfa_eq (rules : List (Rule × α)) :
    contributionsNfa rules config events pseudo = contributions rules config events pseudo := by
  have hautomaton : ((Matcher.new (.compile (rules.map (·.1))) config).run events).automaton =
      (Automaton.compileNfa (rules.map (·.1))).determinize := Matcher.automaton_run _ _
  unfold contributionsNfa contributions
  rw [← Matcher.tagged_expand hautomaton, Matcher.run_expand]
  rfl

variable {s s' : Selector}

/-- **At an element** a rule matches whichever tree of its chain it has. -/
theorem matchingTagged_regroup (h : s.Regroups s') (before after : List (Rule × α))
    (d : Declaration) (tag : α) (p : Place) :
    matchingTagged config (before ++ (⟨s, d⟩, tag) :: after) p pseudo =
      matchingTagged config (before ++ (⟨s', d⟩, tag) :: after) p pseudo := by
  unfold matchingTagged
  simp only [List.filter_append, List.filter_cons, List.map_append, h.isSupported_eq,
    h.matches_iff]
  split <;> rfl

/-- **In a stream** the other rules contribute as before, and the rule itself does too. -/
theorem contributions_regroup (h : s.Regroups s') (before after : List Rule) (d : Declaration) :
    contributions (before ++ ⟨s, d⟩ :: after).zipIdx config events pseudo =
      contributions (before ++ ⟨s', d⟩ :: after).zipIdx config events pseudo := by
  simp only [contributions_run, List.zipIdx_append, List.zipIdx_cons, matchingTagged_regroup h]

theorem Rule.declaration_of_regroup (h : s.Regroups s') (d : Declaration) :
    (Rule.of s d).declaration = (Rule.of s' d).declaration := by
  rw [Rule.of, Rule.of, h.specificity_eq, h.pseudoElement?_eq]

/-- Two selectors that nobody can tell apart, neither on paper nor in use. -/
structure Interchangeable (s s' : Selector) : Prop where
  text : s.text = s'.text
  specificity : s.specificity = s'.specificity
  pseudoElement? : s.pseudoElement? = s'.pseudoElement?
  isSupported : s.isSupported = s'.isSupported
  /-- Rules that put a declaration under them have the same declaration. -/
  declaration : ∀ d, (Rule.of s d).declaration = (Rule.of s' d).declaration
  /-- Among any other rules, a rule with either contributes to the same answers. -/
  contributions : ∀ before after d config events pseudo,
    contributions (before ++ ⟨s, d⟩ :: after).zipIdx config events pseudo =
      contributions (before ++ ⟨s', d⟩ :: after).zipIdx config events pseudo
  /-- So it does on the nondeterministic automaton. -/
  contributionsNfa : ∀ before after d config events pseudo,
    contributionsNfa (before ++ ⟨s, d⟩ :: after).zipIdx config events pseudo =
      contributionsNfa (before ++ ⟨s', d⟩ :: after).zipIdx config events pseudo

theorem Selector.Regroups.interchangeable (h : s.Regroups s') : Interchangeable s s' where
  text := h.text_eq
  specificity := h.specificity_eq
  pseudoElement? := h.pseudoElement?_eq
  isSupported := h.isSupported_eq
  declaration := Rule.declaration_of_regroup h
  contributions before after d _ _ _ := contributions_regroup h before after d
  contributionsNfa before after d _ _ _ := by
    rw [contributionsNfa_eq, contributionsNfa_eq]
    exact contributions_regroup h before after d

/-- **Grouping does not matter.** A chain of three selectors may be bracketed on the left or on
the right, and a condition may stand on a chain of two or on its right end, if the selector
in the middle is more than a pseudo-element: the two selectors are written alike, weigh the
same, have the same pseudo-element, are understood alike, and a rule with either contributes its
declaration to the same answers at the same elements of every stream, whatever other rules
there are. -/
theorem regrouped_interchangeable (a b c : Selector) (op₁ op₂ : Combinator)
    (condition : Condition) (hb : ¬b.isPseudo) :
    Interchangeable (.combined op₂ (.combined op₁ a b) c) (.combined op₁ a (.combined op₂ b c)) ∧
      Interchangeable (.filtered (.combined op₁ a b) condition)
        (.combined op₁ a (.filtered b condition)) :=
  ⟨(Selector.Regroups.assoc op₁ op₂ c hb).interchangeable,
    (Selector.Regroups.guard op₁ condition hb).interchangeable⟩

/-- The pseudo-element of a note that follows a heading. -/
theorem regrouped_interchangeable_note :
    let note := (Selector.ofName "p").filtered (.className "note")
    ¬note.isPseudo ∧
      Interchangeable
        (.combined .child (.combined .adjacent (.ofName "h1") note) (.pseudo .before))
        (.combined .adjacent (.ofName "h1") (.combined .child note (.pseudo .before))) := by
  intro note
  have hnote : ¬note.isPseudo := by decide
  exact ⟨hnote, (regrouped_interchangeable (.ofName "h1") note (.pseudo .before) .adjacent .child
    (.positional 0) hnote).1⟩

/-- Over a bare pseudo-element brackets must not move: on the right of a combinator it is not
looked for, and on the left it is any element. So the one selector matches a child of a
paragraph, and the other a grandchild. -/
example :
    let p : Level := ⟨[], { localName := "p" }⟩
    let q : Place := ⟨⟨[], { localName := "q" }⟩, [p]⟩
    let owner : Selector := .combined .child (.ofName "p") (.pseudo .before)
    let inner : Selector := .combined .child (.pseudo .before) (.ofName "q")
    (owner.combined .child (.ofName "q")).Matches {} q ∧
      ¬(Selector.combined .child (.ofName "p") inner).Matches {} q := by
  decide

end Rules

end StyleStream
