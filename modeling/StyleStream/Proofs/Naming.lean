/-
  What name labels say.

  An automaton compares texts: the label of a demand on a name with the labels of an element. The
  namespace may hold bars and stars of its own, so a label has to be taken apart at its last bar. A
  local name has no bar and is not the star, and therefore a label determines its two components
  (`nameLabel_inj`), and the label of a demand is one of the labels of an element exactly if the
  element meets the demand (`nameLabel_mem_labels_iff`).

  A table knows some of the labels of an element. Their numbers are collected in the order of the
  labels, and each is listed once (`mem_elementSymbols`).
-/
import StyleStream.Element
import StyleStream.Selector

namespace StyleStream

/-- A text that can be the local name of an element: it holds no bar and is not the star. -/
def IsLocalName (name : String) : Prop :=
  '|' ∉ name.toList ∧ name ≠ "*"

instance (name : String) : Decidable (IsLocalName name) :=
  inferInstanceAs (Decidable (_ ∧ _))

/-- The element meets a demand on its name: a component that is demanded is its own, where an
element without a namespace has the empty one. -/
def ElementTest.Admits (test : ElementTest) (e : Element) : Prop :=
  (test.ns = none ∨ test.ns = some (e.ns.getD "")) ∧
    (test.localName = none ∨ test.localName = some e.localName)

/-! ### Texts with a bar -/

section Labels

variable {ns ns' localName localName' : Option String} {a b c d : String}

/-- **A text is split in one way at its last bar.** -/
theorem append_bar_inj (hb : '|' ∉ b.toList) (hd : '|' ∉ d.toList)
    (h : a ++ "|" ++ b = c ++ "|" ++ d) : a = c ∧ b = d := by
  have hchars : a.toList ++ '|' :: b.toList = c.toList ++ '|' :: d.toList := by
    simpa using congrArg String.toList h
  rw [← String.toList_inj, ← String.toList_inj]
  -- If one head is longer, the bar behind the other head stands in the rest behind the longer one.
  rcases List.append_eq_append_iff.1 hchars with ⟨more, hhead, hrest⟩ | ⟨more, hhead, hrest⟩
  · cases more with
    | nil =>
      rw [List.append_nil] at hhead
      exact ⟨hhead.symm, (List.cons.inj hrest).2⟩
    | cons first more =>
      refine absurd ?_ hb
      rw [(List.cons.inj hrest).2]
      exact List.mem_append_right _ List.mem_cons_self
  · cases more with
    | nil =>
      rw [List.append_nil] at hhead
      exact ⟨hhead, (List.cons.inj hrest).2.symm⟩
    | cons first more =>
      refine absurd ?_ hd
      rw [(List.cons.inj hrest).2]
      exact List.mem_append_right _ List.mem_cons_self

/-! ### Labels of demands -/

theorem bar_not_mem_getD (h : ∀ name ∈ localName, IsLocalName name) :
    '|' ∉ (localName.getD "*").toList := by
  cases localName with
  | none => decide
  | some name => exact (h name rfl).1

/-- **A label determines its components**, up to what a star stands for. -/
theorem nameLabel_inj (h : ∀ name ∈ localName, IsLocalName name)
    (h' : ∀ name ∈ localName', IsLocalName name) :
    nameLabel ns localName = nameLabel ns' localName' ↔
      ns.getD "*" = ns'.getD "*" ∧ localName.getD "*" = localName'.getD "*" := by
  unfold nameLabel
  constructor
  · exact append_bar_inj (bar_not_mem_getD h) (bar_not_mem_getD h')
  · rintro ⟨hns, hlocalName⟩
    rw [hns, hlocalName]

/-- A component other than the star reads as a star if nothing is demanded. -/
theorem getD_star_iff {component : Option String} (h : component ≠ some "*") (own : String) :
    component.getD "*" = own ∨ component.getD "*" = "*" ↔
      component = none ∨ component = some own := by
  cases component with
  | none => simp
  | some text =>
    have htext : text ≠ "*" := fun heq => h (congrArg some heq)
    simp [htext]

/-- **A demand has one of the labels of an element** exactly if the element meets it. -/
theorem nameLabel_mem_labels_iff {test : ElementTest} {e : Element}
    (htest : ∀ name ∈ test.localName, IsLocalName name) (he : IsLocalName e.localName)
    (hns : test.ns ≠ some "*") :
    nameLabel test.ns test.localName ∈ e.labels ↔ test.Admits e := by
  have hown : ∀ name ∈ some e.localName, IsLocalName name := by
    intro name hname
    obtain rfl := Option.some.inj hname
    exact he
  have hany : ∀ name ∈ (none : Option String), IsLocalName name := by
    intro name hname
    cases hname
  have hlocalName : test.localName ≠ some "*" := fun heq => (htest "*" heq).2 rfl
  unfold ElementTest.Admits Element.labels elementLabels anyLabel
  rw [← getD_star_iff hns, ← getD_star_iff hlocalName]
  simp only [List.mem_cons, List.not_mem_nil, or_false, nameLabel_inj htest hown,
    nameLabel_inj htest hany, Option.getD_some, Option.getD_none]
  -- The four labels are the four ways of taking one choice for each component.
  rw [and_or_left, or_and_right, or_and_right, or_assoc]

end Labels

/-! ### Tables of labels -/

section Symbols

variable {labels : Labels} {ns : Option String} {localName label : String} {symbol : Symbol}

/-- A label that the table holds has its index for a number. -/
theorem Labels.symbol?_eq_some_iff : labels.symbol? label = some symbol ↔
    label ∈ labels.names ∧ labels.names.idxOf label = symbol := by
  unfold symbol? List.idxOf?
  rw [List.findIdx?_eq_guard_findIdx_lt, Option.guard_eq_some_iff, ← List.idxOf_lt_length_iff]
  constructor
  · rintro ⟨rfl, hlt⟩
    exact ⟨of_decide_eq_true hlt, rfl⟩
  · rintro ⟨hlt, rfl⟩
    exact ⟨rfl, decide_eq_true hlt⟩

/-- The numbers are collected label by label, and one that is there already is not added again. -/
theorem Labels.elementSymbols_eq_foldl (labels : Labels) (ns : Option String) (localName : String) :
    labels.elementSymbols ns localName =
      ((elementLabels ns localName).filterMap labels.symbol?).foldl intern [] := by
  unfold elementSymbols
  rw [foldl_intern_eq_append_eraseDups, List.nil_append,
    List.filter_eq_self.2 fun _ _ => decide_eq_true List.not_mem_nil]

theorem Labels.nodup_elementSymbols (labels : Labels) (ns : Option String) (localName : String) :
    (labels.elementSymbols ns localName).Nodup := by
  rw [elementSymbols_eq_foldl]
  exact nodup_foldl_intern List.nodup_nil

/-- **The symbols of an element** are the numbers of those of its labels that the table holds. -/
theorem Labels.mem_elementSymbols : symbol ∈ labels.elementSymbols ns localName ↔
    ∃ label ∈ elementLabels ns localName,
      label ∈ labels.names ∧ labels.names.idxOf label = symbol := by
  rw [elementSymbols_eq_foldl, mem_foldl_intern, or_iff_right List.not_mem_nil, List.mem_filterMap]
  simp only [symbol?_eq_some_iff]

end Symbols

/-- **Name labels encode demands on names without ambiguity.** Let the local names be such as
elements have, and let no demand be for the namespace that is a star. Then the label of a demand is
among the labels of an element exactly if the element meets the demand, whatever bars and stars
their namespaces hold. And any table gives for an element the numbers of exactly those of its four
labels that the table holds, each once. -/
theorem name_labels_exact :
    (∀ (test : ElementTest) (e : Element), (∀ name ∈ test.localName, IsLocalName name) →
      IsLocalName e.localName → test.ns ≠ some "*" →
        (nameLabel test.ns test.localName ∈ e.labels ↔ test.Admits e)) ∧
      ∀ (labels : Labels) (ns : Option String) (localName : String),
        (labels.elementSymbols ns localName).Nodup ∧
          ∀ symbol, symbol ∈ labels.elementSymbols ns localName ↔
            ∃ label ∈ elementLabels ns localName,
              label ∈ labels.names ∧ labels.names.idxOf label = symbol :=
  ⟨fun _ _ htest he hns => nameLabel_mem_labels_iff htest he hns,
    fun labels ns localName =>
      ⟨labels.nodup_elementSymbols ns localName, fun _ => Labels.mem_elementSymbols⟩⟩

/-- An element in a namespace that ends in a bar and a star: the demand for that namespace alone has
one of its labels, and the demand for the part before the bar has none. -/
theorem name_labels_exact_bars :
    let e : Element := { ns := some "urn:x|*", localName := "p" }
    let whole : ElementTest := { ns := some "urn:x|*" }
    let part : ElementTest := { ns := some "urn:x", localName := some "p" }
    IsLocalName "p" ∧ nameLabel whole.ns whole.localName ∈ e.labels ∧
      nameLabel part.ns part.localName ∉ e.labels := by
  intro e whole part
  have hp : IsLocalName "p" := by decide
  have hwhole := name_labels_exact.1 whole e (fun _ h => by cases h) hp (by decide)
  have hpart := name_labels_exact.1 part e (fun _ h => Option.some.inj h ▸ hp) hp (by decide)
  refine ⟨hp, hwhole.2 ⟨Or.inr rfl, Or.inl rfl⟩, fun h => ?_⟩
  obtain ⟨hns, -⟩ := hpart.1 h
  revert hns
  decide

end StyleStream
