/-
  Heads that end at a hyphen.

  Two conditions ask whether a value is a head, or continues it at a hyphen. `Text.Continues` says
  so by characters: the value starts with a text that is the same as the head, and behind it comes
  nothing, or a hyphen and anything. For attributes the same means equal, and for languages it means
  equal up to the case of ASCII letters.

  Texts are stored in bytes, and a value is cut at the byte length of a head with which it may have
  nothing in common. `continues?` and `continuesFolded?` work on bytes, and give up where a
  character would be cut in two. They never do (`continues?_eq`, `continuesFolded?_eq`): the bytes
  of one text begin with those of another only if its characters do (`bytes_prefix_iff`), and a
  letter has as many bytes as the one of the other case (`bytes_fold`), so bytes that are the same
  as those of the head end where a character ends.
-/
import Mathlib.Data.List.Forall2
import StyleStream.Proofs.Chronology

namespace StyleStream

namespace Text

/-! ### Characters -/

/-- One character, or two ASCII letters that differ in case only: the small letter stands 32
places behind the capital one. -/
def SameLetter (c d : Char) : Prop :=
  c = d ∨ c.isAlpha ∧ d.isAlpha ∧ (c.toNat + 32 = d.toNat ∨ d.toNat + 32 = c.toNat)

/-- Equality of texts up to the case of ASCII letters. -/
def SameUpToCase (s t : String) : Prop :=
  List.Forall₂ SameLetter s.toList t.toList

/-- `value` starts with a text that is the same as `head`, and nothing or a hyphen follows. -/
def Continues (same : String → String → Prop) (value head : String) : Prop :=
  ∃ start rest, value = start ++ rest ∧ same start head ∧ (rest = "" ∨ ∃ more, rest = "-" ++ more)

section Characters

variable {c d : Char} {s t text a b : List Char}

theorem toNat_toLower (c : Char) :
    c.toLower.toNat = if 65 ≤ c.toNat ∧ c.toNat ≤ 90 then c.toNat + 32 else c.toNat := by
  have hle : ∀ d e : Char, d.val ≤ e.val ↔ d.toNat ≤ e.toNat := fun _ _ => UInt32.le_iff_toNat_le
  unfold Char.toLower
  simp only [ge_iff_le, hle]
  split
  · next h =>
    have hcapital : 65 ≤ c.toNat ∧ c.toNat ≤ 90 := h
    have hsum : (c.val + ('a'.val - 'A'.val)).toNat = (c.toNat + 32) % 2 ^ 32 :=
      UInt32.toNat_add _ _
    rw [if_pos hcapital]
    show (c.val + ('a'.val - 'A'.val)).toNat = _
    omega
  · next h =>
    have hother : ¬(65 ≤ c.toNat ∧ c.toNat ≤ 90) := h
    rw [if_neg hother]

theorem isAlpha_iff :
    c.isAlpha ↔ 65 ≤ c.toNat ∧ c.toNat ≤ 90 ∨ 97 ≤ c.toNat ∧ c.toNat ≤ 122 := by
  have hle : ∀ d e : Char, d.val ≤ e.val ↔ d.toNat ≤ e.toNat := fun _ _ => UInt32.le_iff_toNat_le
  show (decide ('A'.val ≤ c.val ∧ c.val ≤ 'Z'.val) ||
    (decide ('a'.val ≤ c.val) && decide (c.val ≤ 'z'.val))) = true ↔ _
  simp only [Bool.or_eq_true, Bool.and_eq_true, decide_eq_true_eq, hle]
  rfl

/-- **Folding** makes two characters equal if they are the same up to case, and only then. -/
theorem sameLetter_iff : SameLetter c d ↔ c.toLower = d.toLower := by
  unfold SameLetter
  rw [← Char.toNat_inj, ← Char.toNat_inj, toNat_toLower, toNat_toLower, isAlpha_iff, isAlpha_iff]
  split <;> split <;> omega

theorem fold_eq_fold_iff : fold s = fold t ↔ List.Forall₂ SameLetter s t := by
  unfold fold
  induction s generalizing t with
  | nil => cases t <;> simp
  | cons c s ih =>
    cases t with
    | nil => simp
    | cons d t => rw [List.map_cons, List.map_cons, List.cons.injEq, ih, List.forall₂_cons,
        sameLetter_iff]

theorem breaksBefore_iff :
    breaksBefore text ↔ String.ofList text = "" ∨ ∃ more, String.ofList text = "-" ++ more := by
  cases text with
  | nil => simp [breaksBefore]
  | cons c rest =>
    have hhyphen : (∃ more, String.ofList (c :: rest) = "-" ++ more) ↔ c = '-' := by
      constructor
      · rintro ⟨more, hmore⟩
        have hchars : c :: rest = '-' :: more.toList := by
          simpa using congrArg String.toList hmore
        exact (List.cons.inj hchars).1
      · rintro rfl
        exact ⟨String.ofList rest, by simp⟩
    rw [hhyphen]
    simp [breaksBefore]

/-- **A head at the start** of a value, and what follows. -/
theorem continues_iff {value head : String} : continues value head ↔ Continues Eq value head := by
  unfold continues Continues
  constructor
  · intro h
    split at h
    · next rest hrest =>
      have hsplit := List.isPrefixOf?_eq_some_iff_append_eq.1 hrest
      refine ⟨head, String.ofList rest, ?_, rfl, breaksBefore_iff.1 h⟩
      rw [← String.toList_inj, String.toList_append, String.toList_ofList, hsplit]
    · cases h
  · rintro ⟨start, rest, rfl, rfl, hrest⟩
    have hsplit : start.toList.isPrefixOf? (start ++ rest).toList = some rest.toList :=
      List.isPrefixOf?_eq_some_iff_append_eq.2 String.toList_append.symm
    rw [hsplit]
    exact breaksBefore_iff.2 (by rwa [String.ofList_toList])

/-! ### Cutting at a byte -/

theorem splitAtByte?_append (a b : List Char) :
    splitAtByte? (byteLength a) (a ++ b) = some (a, b) := by
  induction a with
  | nil =>
    show splitAtByte? 0 b = some ([], b)
    unfold splitAtByte?
    rfl
  | cons c a ih =>
    have hlength : byteLength (c :: a) = c.utf8Size + byteLength a := rfl
    have hpos := c.utf8Size_pos
    obtain ⟨n, hn⟩ : ∃ n, c.utf8Size + byteLength a = n + 1 :=
      ⟨_, (Nat.sub_add_cancel (by omega)).symm⟩
    have hle : c.utf8Size ≤ n + 1 := by omega
    have hrest : n + 1 - c.utf8Size = byteLength a := by omega
    rw [hlength, hn, List.cons_append, splitAtByte?, if_pos hle, hrest, ih]
    rfl

theorem eq_append_of_splitAtByte? {n : Nat} (h : splitAtByte? n text = some (a, b)) :
    text = a ++ b ∧ byteLength a = n := by
  fun_induction splitAtByte? n text generalizing a b with
  | case1 rest =>
    obtain ⟨rfl, rfl⟩ := Prod.mk.inj (Option.some.inj h)
    exact ⟨rfl, rfl⟩
  | case2 n => cases h
  | case3 n c rest hle ih =>
    obtain ⟨⟨start, tail⟩, hsplit, heq⟩ := Option.map_eq_some_iff.1 h
    obtain ⟨rfl, rfl⟩ := Prod.mk.inj heq
    obtain ⟨rfl, hlength⟩ := ih hsplit
    refine ⟨rfl, ?_⟩
    show c.utf8Size + byteLength start = n + 1
    omega
  | case4 n c rest hle => cases h

end Characters

/-! ### Bytes -/

/-- The bytes of a text in UTF-8. -/
def bytes (text : List Char) : List UInt8 :=
  text.flatMap String.utf8EncodeChar

/-- Whether a byte can be the first one of a character. -/
def leads (b : UInt8) : Bool :=
  b.toNat < 0x80 || 0xC0 ≤ b.toNat

/-- Whether a place among the bytes of a text is a boundary: a character starts there, or the text
ends. -/
def isBoundary (text : List UInt8) (n : Nat) : Bool :=
  n == 0 || n == text.length || text[n]?.any leads

/-- A byte with the letter that it stands for made small. -/
def lower (b : UInt8) : UInt8 :=
  if 65 ≤ b.toNat ∧ b.toNat ≤ 90 then b + 32 else b

/-- The bytes before a place, if it is a boundary. -/
def before? (text : List UInt8) (n : Nat) : Option (List UInt8) :=
  if isBoundary text n then some (text.take n) else none

/-- The bytes behind a place, if it is a boundary. -/
def behind? (text : List UInt8) (n : Nat) : Option (List UInt8) :=
  if isBoundary text n then some (text.drop n) else none

/-- `breaksBefore` on bytes. -/
def breaks (rest : List UInt8) : Bool :=
  rest.isEmpty || (bytes ['-']).isPrefixOf rest

/-- `continues` on bytes. What follows the head is cut off, and this can fail. -/
def continues? (value head : List UInt8) : Option Bool :=
  if head.isPrefixOf value then (behind? value head.length).map breaks else some false

/-- `continuesFolded` on bytes. If the value cannot be cut at the length of the head, this is an
answer as long as its start is looked for, and a failure when the rest is cut off. -/
def continuesFolded? (value head : List UInt8) : Option Bool :=
  match before? value head.length with
  | some start =>
    if start.map lower = head.map lower then (behind? value head.length).map breaks else some false
  | none => some false

section Bytes

variable {c : Char} {s t text a b : List Char}

theorem bytes_cons (c : Char) (text : List Char) :
    bytes (c :: text) = String.utf8EncodeChar c ++ bytes text :=
  List.flatMap_cons

theorem bytes_append (a b : List Char) : bytes (a ++ b) = bytes a ++ bytes b :=
  List.flatMap_append

theorem length_bytes (text : List Char) : (bytes text).length = byteLength text := by
  induction text with
  | nil => rfl
  | cons c text ih =>
    rw [bytes_cons, List.length_append, ih, String.length_utf8EncodeChar]
    rfl

/-- **The first byte of a character** can be told from the others. -/
theorem exists_utf8EncodeChar_eq_cons (c : Char) : ∃ first more,
    String.utf8EncodeChar c = first :: more ∧ leads first ∧ ∀ b ∈ more, ¬leads b := by
  unfold String.utf8EncodeChar
  simp only
  generalize c.val.toNat = v
  -- One, two, three and four bytes.
  split
  · exact ⟨_, _, rfl, by simp [leads]; omega, by simp⟩
  · split
    · exact ⟨_, _, rfl, by simp [leads]; omega, by simp [leads]; omega⟩
    · split
      · exact ⟨_, _, rfl, by simp [leads]; omega, by simp [leads]; omega⟩
      · exact ⟨_, _, rfl, by simp [leads]; omega, by simp [leads]; omega⟩

/-- Behind a character the boundaries are those of the rest. -/
theorem isBoundary_behind {n : Nat} (hle : c.utf8Size ≤ n) :
    isBoundary (bytes (c :: text)) n = isBoundary (bytes text) (n - c.utf8Size) := by
  have hsize := String.length_utf8EncodeChar c
  have hpos := c.utf8Size_pos
  have hat : (bytes (c :: text))[n]? = (bytes text)[n - c.utf8Size]? := by
    rw [bytes_cons, ← hsize, List.getElem?_append_right (by omega)]
  have hstart : (n == 0) = false := beq_false_of_ne (by omega)
  have hend : (n == (bytes (c :: text)).length) = (n - c.utf8Size == (bytes text).length) := by
    rw [Bool.eq_iff_iff, beq_iff_eq, beq_iff_eq, bytes_cons, List.length_append]
    omega
  unfold isBoundary
  rw [hat, hstart, hend, Bool.false_or]
  cases n - c.utf8Size with
  | succ k => rfl
  | zero =>
    -- Here the rest starts, with the first byte of its first character if there is one.
    cases text with
    | nil => rfl
    | cons d text =>
      obtain ⟨first, more, hencode, hfirst, -⟩ := exists_utf8EncodeChar_eq_cons d
      simp [bytes_cons, hencode, hfirst]

/-- There are no boundaries inside a character. -/
theorem isBoundary_inside {n : Nat} (hpos : 0 < n) (hlt : n < c.utf8Size) :
    isBoundary (bytes (c :: text)) n = false := by
  obtain ⟨first, more, hencode, -, hmore⟩ := exists_utf8EncodeChar_eq_cons c
  have hsize := String.length_utf8EncodeChar c
  rw [hencode, List.length_cons] at hsize
  obtain ⟨k, rfl⟩ : ∃ k, n = k + 1 := ⟨n - 1, by omega⟩
  have hk : k < more.length := by omega
  have hat : (bytes (c :: text))[k + 1]? = some more[k] := by
    rw [bytes_cons, hencode, List.cons_append, List.getElem?_cons_succ,
      List.getElem?_append_left hk, List.getElem?_eq_getElem hk]
  have hlead : leads more[k] = false := by simpa using hmore _ (List.getElem_mem hk)
  have hend : (k + 1 == (bytes (c :: text)).length) = false := by
    refine beq_false_of_ne ?_
    rw [bytes_cons, List.length_append, hencode, List.length_cons]
    omega
  unfold isBoundary
  rw [hat, hend, Option.any_some, hlead]
  rfl

/-- **A place is a boundary** exactly if the characters can be split there. -/
theorem isBoundary_bytes (n : Nat) (text : List Char) :
    isBoundary (bytes text) n = (splitAtByte? n text).isSome := by
  fun_induction splitAtByte? n text with
  | case1 rest => rfl
  | case2 n => rfl
  | case3 n c rest hle ih => rw [Option.isSome_map, ← ih, isBoundary_behind hle]
  | case4 n c rest hle =>
    exact isBoundary_inside n.succ_pos (Nat.lt_of_not_le hle)

/-- A letter of two bytes, which cannot be cut. -/
example : isBoundary (bytes ['é']) 1 = false := by decide

/-! ### Case -/

theorem le_of_mem_utf8EncodeChar (hc : 127 < c.toNat) :
    ∀ b ∈ String.utf8EncodeChar c, 128 ≤ b.toNat := by
  have hascii : ¬c.val.toNat ≤ 127 := Nat.not_le_of_lt hc
  unfold String.utf8EncodeChar
  simp only
  rw [if_neg hascii]
  generalize c.val.toNat = v
  split
  · simp; omega
  · split
    · simp; omega
    · simp; omega

/-- Folding a character folds its bytes. -/
theorem utf8EncodeChar_toLower (c : Char) :
    String.utf8EncodeChar c.toLower = (String.utf8EncodeChar c).map lower := by
  by_cases hc : c.toNat ≤ 127
  · have hencode : ∀ d : Char, d.toNat ≤ 127 →
        String.utf8EncodeChar d = [UInt8.ofNat d.toNat] := fun _ hd => if_pos hd
    have hlower : c.toLower.toNat ≤ 127 := by
      rw [toNat_toLower]
      split <;> omega
    have hbyte : (UInt8.ofNat c.toNat).toNat = c.toNat := by
      rw [UInt8.toNat_ofNat', Nat.mod_eq_of_lt (by omega)]
    rw [hencode c hc, hencode c.toLower hlower, toNat_toLower, List.map_singleton, lower, hbyte]
    split
    · rw [UInt8.ofNat_add]
      rfl
    · rfl
  · -- Characters beyond ASCII have no case, and their bytes are beyond ASCII as well.
    have hsame : c.toLower = c := by
      rw [← Char.toNat_inj, toNat_toLower, if_neg (by omega)]
    have hbytes : ∀ b ∈ String.utf8EncodeChar c, lower b = b := by
      intro b hb
      have hle := le_of_mem_utf8EncodeChar (Nat.lt_of_not_le hc) b hb
      exact if_neg (by omega)
    rw [hsame, List.map_congr_left hbytes, List.map_id']

/-- **Folding a text** folds its bytes, one by one. -/
theorem bytes_fold (text : List Char) : bytes (fold text) = (bytes text).map lower := by
  unfold bytes fold
  rw [List.flatMap_map, List.map_flatMap]
  simp only [utf8EncodeChar_toLower]

/-- Texts that are the same up to case are equally long. -/
theorem length_bytes_of_fold_eq (h : fold s = fold t) : (bytes s).length = (bytes t).length := by
  rw [← List.length_map (f := lower), ← bytes_fold, h, bytes_fold, List.length_map]

/-! ### Starts -/

/-- **No character's bytes begin with those of another**, so the bytes of a text begin with those
of another text only if its characters do. -/
theorem bytes_prefix_iff : bytes s <+: bytes t ↔ s <+: t := by
  -- The first character can be read off the bytes, whatever follows.
  have hdecode : ∀ (c : Char) (rest : List UInt8),
      (String.utf8EncodeChar c ++ rest).toByteArray.utf8DecodeChar? 0 = some c := by
    intro c rest
    rw [List.toByteArray_append]
    exact ByteArray.utf8DecodeChar?_utf8EncodeChar_append
  induction s generalizing t with
  | nil => simp [bytes]
  | cons c s ih =>
    cases t with
    | nil => simp [bytes]
    | cons d t =>
      rw [bytes_cons, bytes_cons]
      constructor
      · rintro ⟨more, hmore⟩
        rw [List.append_assoc] at hmore
        have hfirst := hdecode c (bytes s ++ more)
        rw [hmore, hdecode d, Option.some.injEq] at hfirst
        subst hfirst
        exact (List.prefix_cons_inj _).2 (ih.1 ⟨more, List.append_cancel_left hmore⟩)
      · intro h
        obtain ⟨rfl, hrest⟩ := List.cons_prefix_cons.1 h
        exact (List.prefix_append_right_inj _).2 (ih.2 hrest)

theorem bytes_inj (h : bytes s = bytes t) : s = t := by
  have hst : s <+: t := bytes_prefix_iff.1 (h ▸ List.prefix_rfl)
  have hts : t <+: s := bytes_prefix_iff.1 (h ▸ List.prefix_rfl)
  exact hst.eq_of_length_le hts.length_le

theorem breaks_bytes (text : List Char) : breaks (bytes text) = breaksBefore text := by
  have hhyphen : (bytes ['-']).isPrefixOf (bytes text) = ['-'].isPrefixOf text := by
    rw [Bool.eq_iff_iff, List.isPrefixOf_iff_prefix, List.isPrefixOf_iff_prefix, bytes_prefix_iff]
  unfold breaks breaksBefore
  rw [hhyphen]
  cases text with
  | nil => rfl
  | cons c rest =>
    obtain ⟨first, more, hencode, -, -⟩ := exists_utf8EncodeChar_eq_cons c
    rw [bytes_cons, hencode]
    show ('-' == c && true) = (some c == some '-')
    rw [Bool.and_true, Option.some_beq_some]
    exact BEq.comm

theorem isBoundary_append (a b : List Char) : isBoundary (bytes (a ++ b)) (bytes a).length := by
  rw [isBoundary_bytes, length_bytes, splitAtByte?_append]
  rfl

/-- **A cut behind a part of the text** succeeds. -/
theorem behind?_append (a b : List Char) :
    behind? (bytes (a ++ b)) (bytes a).length = some (bytes b) := by
  rw [behind?, if_pos (isBoundary_append a b), bytes_append, List.drop_left]

theorem before?_append (a b : List Char) :
    before? (bytes (a ++ b)) (bytes a).length = some (bytes a) := by
  rw [before?, if_pos (isBoundary_append a b), bytes_append, List.take_left]

/-- **Bytes that are the same up to case** as those of a head end where a character ends. -/
theorem isBoundary_of_map_lower_eq
    (h : ((bytes t).take (bytes s).length).map lower = (bytes s).map lower) :
    isBoundary (bytes t) (bytes s).length := by
  have hprefix : bytes (fold s) <+: bytes (fold t) := by
    rw [bytes_fold, bytes_fold, ← h]
    exact (List.take_prefix _ _).map lower
  obtain ⟨more, hmore⟩ := bytes_prefix_iff.1 hprefix
  -- The text can be split where the part ends that folds to the same as the head.
  obtain ⟨a, b, rfl, ha, -⟩ := List.map_eq_append_iff.1 hmore.symm
  rw [← length_bytes_of_fold_eq ha]
  exact isBoundary_append a b

/-! ### The tests on bytes -/

/-- **Equal heads**: the rest can always be cut off. -/
theorem continues?_eq (value head : String) :
    continues? (bytes value.toList) (bytes head.toList) = some (continues value head) := by
  unfold continues? continues
  cases hsplit : head.toList.isPrefixOf? value.toList with
  | some rest =>
    rw [← List.isPrefixOf?_eq_some_iff_append_eq.1 hsplit]
    have hprefix : (bytes head.toList).isPrefixOf (bytes (head.toList ++ rest)) :=
      List.isPrefixOf_iff_prefix.2 (bytes_prefix_iff.2 (List.prefix_append _ _))
    rw [if_pos hprefix, behind?_append, Option.map_some, breaks_bytes]
  | none =>
    have hprefix : ¬(bytes head.toList).isPrefixOf (bytes value.toList) := by
      rw [List.isPrefixOf_iff_prefix, bytes_prefix_iff]
      rintro ⟨rest, hrest⟩
      rw [List.isPrefixOf?_eq_some_iff_append_eq.2 hrest] at hsplit
      cases hsplit
    rw [if_neg hprefix]

/-- **Heads that are equal up to case**: the rest can always be cut off. -/
theorem continuesFolded?_eq (value head : String) :
    continuesFolded? (bytes value.toList) (bytes head.toList) =
      some (continuesFolded value head) := by
  unfold continuesFolded? continuesFolded
  cases hsplit : splitAtByte? (byteLength head.toList) value.toList with
  | some parts =>
    obtain ⟨start, rest⟩ := parts
    obtain ⟨hvalue, hlength⟩ := eq_append_of_splitAtByte? hsplit
    rw [← length_bytes, ← length_bytes] at hlength
    have hsame : (bytes start).map lower = (bytes head.toList).map lower ↔
        fold start = fold head.toList := by
      rw [← bytes_fold, ← bytes_fold]
      exact ⟨bytes_inj, congrArg bytes⟩
    simp only [hvalue, ← hlength, before?_append, behind?_append, Option.map_some, breaks_bytes,
      hsame]
    by_cases hfold : fold start = fold head.toList
    · rw [if_pos hfold, beq_iff_eq.2 hfold, Bool.true_and]
    · rw [if_neg hfold, beq_false_of_ne hfold, Bool.false_and]
  | none =>
    have hnone : before? (bytes value.toList) (bytes head.toList).length = none := by
      rw [before?, isBoundary_bytes, length_bytes, hsplit]
      rfl
    rw [hnone]

/-- **Cutting at bytes hides no match.** -/
theorem continuesFolded_iff {value head : String} :
    continuesFolded value head ↔ Continues SameUpToCase value head := by
  unfold continuesFolded Continues SameUpToCase
  simp only [← fold_eq_fold_iff]
  constructor
  · intro h
    split at h
    · next start rest hsplit =>
      obtain ⟨hvalue, -⟩ := eq_append_of_splitAtByte? hsplit
      obtain ⟨hfold, hbreaks⟩ := Bool.and_eq_true_iff.1 h
      refine ⟨String.ofList start, String.ofList rest, ?_, ?_, breaksBefore_iff.1 hbreaks⟩
      · rw [← String.toList_inj, hvalue, String.toList_append, String.toList_ofList,
          String.toList_ofList]
      · rw [String.toList_ofList]
        exact eq_of_beq hfold
    · cases h
  · rintro ⟨start, rest, rfl, hfold, hrest⟩
    have hbreaks : breaksBefore rest.toList := by
      rw [breaksBefore_iff, String.ofList_toList]
      exact hrest
    rw [← length_bytes, ← length_bytes_of_fold_eq hfold, length_bytes, String.toList_append,
      splitAtByte?_append]
    exact Bool.and_eq_true_iff.2 ⟨beq_iff_eq.2 hfold, hbreaks⟩

end Bytes

end Text

/-- **Heads that end at a hyphen.** The condition for a tag holds exactly if the language starts
with the tag, up to the case of ASCII letters, and nothing or a hyphen follows. The condition for a
head holds exactly if the first attribute of the name starts with this very head, and nothing or a
hyphen follows. The tests on bytes always have an answer, and it is the same: what follows the head
can be cut off, because bytes that are those of another text up to case end where a character
ends. -/
theorem hyphen_conditions_exact (c : Context) (name : AttributeName) (head tag : String) :
    (c.holds (.lang tag) ↔ Text.Continues Text.SameUpToCase c.language tag) ∧
      (c.holds (.beginsHyphen name head) ↔
        ∃ value, c.element.FirstValue name.ns name.localName value ∧
          Text.Continues Eq value head) ∧
      Text.continuesFolded? (Text.bytes c.language.toList) (Text.bytes tag.toList) =
        some (c.holds (.lang tag)) ∧
      (∀ value, c.element.FirstValue name.ns name.localName value →
        Text.continues? (Text.bytes value.toList) (Text.bytes head.toList) =
          some (c.holds (.beginsHyphen name head))) ∧
      ∀ s t : List Char,
        ((Text.bytes t).take (Text.bytes s).length).map Text.lower = (Text.bytes s).map Text.lower →
          Text.isBoundary (Text.bytes t) (Text.bytes s).length := by
  refine ⟨Text.continuesFolded_iff, ?_, Text.continuesFolded?_eq _ _, fun value hvalue => ?_,
    fun _ _ => Text.isBoundary_of_map_lower_eq⟩
  · show (c.value? name).any (Text.continues · head) ↔ _
    rw [Option.any_eq_true]
    simp only [Context.value?, Element.value?_eq_some_iff, Text.continues_iff]
  · have hholds : c.holds (.beginsHyphen name head) = Text.continues value head := by
      show (c.value? name).any (Text.continues · head) = _
      rw [Context.value?, Element.value?_eq_some_iff.2 hvalue, Option.any_some]
    rw [hholds, Text.continues?_eq]

/-- A tag in capitals, a head with a region behind it, and a letter of two bytes. -/
theorem hyphen_conditions_exact_region :
    let element : Element :=
      { localName := "a", attributes := [{ localName := "hreflang", value := "en-US" }] }
    let c : Context := ⟨element, 0, "EN-gb"⟩
    let name : AttributeName := { localName := "hreflang" }
    c.holds (.lang "en") ∧ c.element.FirstValue none "hreflang" "en-US" ∧
      c.holds (.beginsHyphen name "en") ∧
      Text.continues? (Text.bytes "en-US".toList) (Text.bytes "en".toList) = some true ∧
      ((Text.bytes "eé-".toList).take (Text.bytes "Eé".toList).length).map Text.lower =
        (Text.bytes "Eé".toList).map Text.lower ∧
      Text.isBoundary (Text.bytes "eé-".toList) (Text.bytes "Eé".toList).length := by
  intro element c name
  have hvalue : c.element.FirstValue none "hreflang" "en-US" := Element.value?_eq_some_iff.1 rfl
  have hbytes : ((Text.bytes "eé-".toList).take (Text.bytes "Eé".toList).length).map Text.lower =
      (Text.bytes "Eé".toList).map Text.lower := by decide
  obtain ⟨hlang, hhyphen, -, htest, hboundary⟩ := hyphen_conditions_exact c name "en" "en"
  have hfold : Text.SameUpToCase "EN" "en" := Text.fold_eq_fold_iff.1 (by decide)
  have hholds : c.holds (.beginsHyphen name "en") :=
    hhyphen.2 ⟨"en-US", hvalue, "en", "-US", rfl, rfl, Or.inr ⟨"US", rfl⟩⟩
  refine ⟨hlang.2 ⟨"EN", "-gb", rfl, hfold, Or.inr ⟨"gb", rfl⟩⟩, hvalue, hholds, ?_, hbytes,
    hboundary _ _ hbytes⟩
  rw [htest _ hvalue, hholds]

end StyleStream
