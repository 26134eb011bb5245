/-
  Words between blanks.

  A condition on a class, or on one of the words of an attribute, splits the value at blanks and
  looks for the word among the parts. `Text.StandsIn` says the same without splitting: the word
  occurs at some place of the value, and on both sides there is a blank or nothing. A blank
  separates what is before it from what is behind it (`words_append_blank`), and all else follows
  from this.
-/
import StyleStream.Proofs.Chronology

namespace StyleStream

namespace Text

/-- The characters that separate words: space, tab, line feed, form feed and carriage return. -/
def blanks : List Char :=
  [' ', '\t', '\n', '\x0c', '\r']

/-- `word` is no empty word, holds no blank, and occurs in `text` at a place with blanks or nothing
around it. -/
def StandsIn (word text : String) : Prop :=
  word ≠ "" ∧ (∀ c ∈ word.toList, c ∉ blanks) ∧
    ∃ before behind, text = before ++ word ++ behind ∧
      (∀ c ∈ before.toList.getLast?, c ∈ blanks) ∧ ∀ c ∈ behind.toList.head?, c ∈ blanks

theorem isBlank_iff {c : Char} : isBlank c ↔ c ∈ blanks := by
  simp [isBlank, blanks, or_assoc]

section Words

variable {text before behind word : List Char} {c : Char}

/-- **A blank separates** the words before it from those behind it. -/
theorem words_append_blank (hc : isBlank c) (before behind : List Char) :
    words (before ++ c :: behind) = words before ++ words behind := by
  unfold words
  rw [List.splitOnP_append_cons before behind hc, List.filter_append]

theorem words_append_of_getLast? (h : ∀ c ∈ before.getLast?, isBlank c) (text : List Char) :
    words (before ++ text) = words before ++ words text := by
  rcases List.eq_nil_or_concat before with rfl | ⟨more, c, rfl⟩
  · rfl
  · have hc : isBlank c := h c (by simp)
    rw [List.concat_eq_append, List.append_assoc, List.singleton_append, words_append_blank hc,
      words_append_blank hc]
    simp [words]

theorem words_append_of_head? (h : ∀ c ∈ behind.head?, isBlank c) (text : List Char) :
    words (text ++ behind) = words text ++ words behind := by
  cases behind with
  | nil => simp [words]
  | cons c behind =>
    have hc : isBlank c := h c rfl
    rw [words_append_blank hc, ← List.nil_append (c :: behind), words_append_blank hc]
    simp [words]

/-- A text without blanks is one word, unless it is empty. -/
theorem words_of_forall_not_isBlank (h : ∀ c ∈ text, ¬isBlank c) :
    words text = if text = [] then [] else [text] := by
  unfold words
  rw [List.splitOnP_eq_singleton fun c hc => by simpa using h c hc]
  cases text <;> rfl

/-- **A word is found where it stands**, between blanks or the ends of the text. -/
theorem exists_of_mem_words (text : List Char) (h : word ∈ words text) :
    word ≠ [] ∧ (∀ c ∈ word, ¬isBlank c) ∧ ∃ before behind, text = before ++ word ++ behind ∧
      (∀ c ∈ before.getLast?, isBlank c) ∧ ∀ c ∈ behind.head?, isBlank c := by
  by_cases hblank : ∃ c ∈ text, isBlank c
  · -- The word stands on one side of the blank. There the other end of the text is a blank now.
    obtain ⟨c, hmem, hc⟩ := hblank
    obtain ⟨left, right, htext⟩ := List.append_of_mem hmem
    have hlength : text.length = left.length + (right.length + 1) := by
      rw [htext, List.length_append, List.length_cons]
    rw [htext, words_append_blank hc, List.mem_append] at h
    rcases h with h | h
    · obtain ⟨hne, hword, before, behind, hleft, hbefore, hbehind⟩ := exists_of_mem_words left h
      refine ⟨hne, hword, before, behind ++ c :: right, ?_, hbefore, ?_⟩
      · rw [htext, hleft]
        simp
      · cases behind with
        | nil => simpa using hc
        | cons d behind => exact hbehind
    · obtain ⟨hne, hword, before, behind, hright, hbefore, hbehind⟩ := exists_of_mem_words right h
      refine ⟨hne, hword, left ++ c :: before, behind, ?_, ?_, hbehind⟩
      · rw [htext, hright]
        simp
      · cases before with
        | nil => simpa using hc
        | cons d before =>
          rwa [List.getLast?_append_of_ne_nil _ (by simp), List.getLast?_cons_cons]
  · have hall : ∀ c ∈ text, ¬isBlank c := fun c hmem hc => hblank ⟨c, hmem, hc⟩
    rw [words_of_forall_not_isBlank hall] at h
    split at h
    · cases h
    · next hne =>
      obtain rfl := List.mem_singleton.1 h
      exact ⟨hne, hall, [], [], by simp, by simp, by simp⟩
termination_by text.length
decreasing_by all_goals omega

theorem mem_words_of_split (hne : word ≠ []) (hword : ∀ c ∈ word, ¬isBlank c)
    (hbefore : ∀ c ∈ before.getLast?, isBlank c) (hbehind : ∀ c ∈ behind.head?, isBlank c) :
    word ∈ words (before ++ word ++ behind) := by
  rw [words_append_of_head? hbehind, words_append_of_getLast? hbefore,
    words_of_forall_not_isBlank hword, if_neg hne]
  exact List.mem_append_left _ (List.mem_append_right _ (List.mem_singleton_self _))

end Words

/-- **A word of a text** is a word that stands in it. -/
theorem hasWord_iff {text word : String} : hasWord text word ↔ StandsIn word text := by
  unfold hasWord StandsIn
  rw [List.contains_iff_mem]
  simp only [← isBlank_iff]
  constructor
  · intro h
    obtain ⟨hne, hword, before, behind, htext, hbefore, hbehind⟩ := exists_of_mem_words _ h
    refine ⟨by simpa using hne, hword, String.ofList before, String.ofList behind, ?_, ?_, ?_⟩
    · simp [← String.toList_inj, htext]
    · rwa [String.toList_ofList]
    · rwa [String.toList_ofList]
  · rintro ⟨hne, hword, before, behind, rfl, hbefore, hbehind⟩
    rw [String.toList_append, String.toList_append]
    exact mem_words_of_split (by simpa using hne) hword hbefore hbehind

end Text

/-- **Words are matched as a whole.** A condition on a class holds exactly if the word stands in the
value of the first attribute that is called `class` and has no namespace; a condition on one of the
words of an attribute holds exactly if the word stands in the value of the first attribute of
that name. -/
theorem word_conditions_exact (c : Context) (name : AttributeName) (word : String) :
    (c.holds (.className word) ↔
        ∃ text, c.element.FirstValue none "class" text ∧ Text.StandsIn word text) ∧
      (c.holds (.oneOf name word) ↔
        ∃ text, c.element.FirstValue name.ns name.localName text ∧ Text.StandsIn word text) := by
  have hvalue : ∀ ns localName, (c.element.value? ns localName).any (Text.hasWord · word) ↔
      ∃ text, c.element.FirstValue ns localName text ∧ Text.StandsIn word text := by
    intro ns localName
    rw [Option.any_eq_true]
    simp only [Element.value?_eq_some_iff, Text.hasWord_iff]
  exact ⟨hvalue none "class", hvalue name.ns name.localName⟩

end StyleStream
