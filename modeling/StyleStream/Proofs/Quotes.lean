/-
  Labels in quotes and what a reader makes of them.

  A description puts the label of an edge in quotes, with a backslash in front of each backslash and
  each quote in it. `readString?` reads such a string: a backslash makes the next character stand
  for itself, and the first quote that does not stand for itself ends the string. What one character
  of a label becomes is read back as this character (`readRest?_escape_singleton`), and so is the
  whole label, whatever stands behind the closing quote (`readString?_quoted`).

  `strings` reads a description from its first character to the last, over comments and everything
  else that is not in quotes. It is never inside a string where a line begins: each line leaves it
  outside again, with the label of the edge if the line has one (`Reads`). So it finds the labels of
  the edges, in order, and nothing else.
-/
import StyleStream.Proofs.Comments

namespace StyleStream

/-! ### Two passes -/

namespace Text

/-- The text with `new` in place of each `old`. -/
def replaceEach (old : Char) (new text : List Char) : List Char :=
  text.flatMap fun c => if c = old then new else [c]

end Text

namespace Dot

open Text

/-- **One pass for two**: first the backslashes get a backslash, then the quotes. The second pass
leaves the backslashes alone that the first one has put there. -/
theorem escape_eq_replaceEach (label : List Char) :
    escape label = replaceEach '"' ['\\', '"'] (replaceEach '\\' ['\\', '\\'] label) := by
  unfold escape replaceEach
  rw [List.flatMap_assoc]
  -- Character by character: what the first pass writes for a backslash holds no quote.
  refine List.flatMap_congr fun c _ => ?_
  by_cases hbackslash : c = '\\'
  · subst hbackslash
    rfl
  · by_cases hquote : c = '"'
    · subst hquote
      rfl
    · simp [hbackslash, hquote]

/-! ### Reading a string -/

/-- Reads the rest of a string: what it spells up to the closing quote, and what stands behind. A
backslash makes the next character stand for itself. Without a closing quote there is no
answer. -/
def readRest? : List Char → Option (List Char × List Char)
  | [] => none
  | '"' :: behind => some ([], behind)
  | ['\\'] => none
  | '\\' :: c :: text => (readRest? text).map fun (string, behind) => (c :: string, behind)
  | c :: text => (readRest? text).map fun (string, behind) => (c :: string, behind)

/-- Reads a string from its opening quote. -/
def readString? : List Char → Option (List Char × List Char)
  | '"' :: text => readRest? text
  | _ => none

variable {text start : List Char}

/-- **One character** of a label is read back as itself. -/
theorem readRest?_escape_singleton (c : Char) (text : List Char) :
    readRest? (escape [c] ++ text) =
      (readRest? text).map fun (string, behind) => (c :: string, behind) := by
  by_cases h : c = '\\' ∨ c = '"'
  · have hescape : escape [c] = ['\\', c] := by simp [escape, h]
    rw [hescape]
    rfl
  · have hescape : escape [c] = [c] := by simp [escape, h]
    obtain ⟨hbackslash, hquote⟩ := not_or.1 h
    rw [hescape, List.singleton_append, readRest?]
    -- The character is none of those that the reader treats differently.
    · exact hquote
    · exact fun hc _ => hbackslash hc
    · exact fun _ _ hc => absurd hc hbackslash

/-- **A label** is read back up to its closing quote, whatever stands behind. -/
theorem readRest?_escape (label behind : List Char) :
    readRest? (escape label ++ '"' :: behind) = some (label, behind) := by
  -- `behind` stays as it is: the reader is inside the string until the label has been read.
  induction label with
  | nil => rfl
  | cons c label ih =>
    have hcons : escape (c :: label) = escape [c] ++ escape label := by simp [escape]
    rw [hcons, List.append_assoc, readRest?_escape_singleton, ih]
    rfl

theorem injective_escape : Function.Injective escape := by
  intro label label' h
  have hread := readRest?_escape label []
  rw [h, readRest?_escape] at hread
  cases hread
  rfl

theorem toList_quoted_append (label : String) (behind : List Char) :
    (quoted label).toList ++ behind = '"' :: (escape label.toList ++ '"' :: behind) := by
  simp [quoted]

theorem readString?_quoted (label : String) (behind : List Char) :
    readString? ((quoted label).toList ++ behind) = some (label.toList, behind) := by
  rw [toList_quoted_append]
  exact readRest?_escape label.toList behind

theorem length_lt_of_readRest? {string behind : List Char}
    (h : readRest? text = some (string, behind)) : behind.length < text.length := by
  fun_induction readRest? text generalizing string with
  | case1 => cases h
  | case2 =>
    cases h
    exact Nat.lt_succ_self _
  | case3 => cases h
  | case4 c text ih | case5 c text _ _ _ ih =>
    obtain ⟨⟨string, rest⟩, hread, heq⟩ := Option.map_eq_some_iff.1 h
    cases heq
    have hlt := ih hread
    simp only [List.length_cons]
    omega

/-! ### Reading a description -/

/-- The strings of a description, in order. What stands behind two slashes is not read, up to
the end of the line. There is no answer if a string does not end. -/
def strings : List Char → Option (List (List Char))
  | [] => some []
  | '"' :: text =>
    match _ : readRest? text with
    | some (string, behind) => (strings behind).map (string :: ·)
    | none => none
  | '/' :: '/' :: text => strings (text.dropWhile (· ≠ '\n'))
  | _ :: text => strings text
termination_by text => text.length
decreasing_by
  · have := length_lt_of_readRest? ‹readRest? text = _›
    simp only [List.length_cons]
    omega
  · have := (List.dropWhile_sublist (· ≠ '\n') (l := text)).length_le
    simp only [List.length_cons]
    omega
  · simp

theorem strings_cons {c : Char} (hquote : c ≠ '"') (hslash : c ≠ '/') (text : List Char) :
    strings (c :: text) = strings text := by
  rw [strings]
  · exact hquote
  · exact fun _ h _ => hslash h

theorem strings_string {string behind : List Char} (h : readRest? text = some (string, behind)) :
    strings ('"' :: text) = (strings behind).map (string :: ·) := by
  rw [strings]
  split
  · next hread =>
    cases h.symm.trans hread
    rfl
  · next hread =>
    cases h.symm.trans hread

theorem strings_quoted_append (label : String) (behind : List Char) :
    strings ((quoted label).toList ++ behind) = (strings behind).map (label.toList :: ·) := by
  rw [toList_quoted_append]
  exact strings_string (readRest?_escape label.toList behind)

theorem strings_comment (text : List Char) :
    strings ('/' :: '/' :: text) = strings (text.dropWhile (· ≠ '\n')) := by
  rw [strings]

/-- Neither a quote nor a slash is in the text, so that a reader gets over it. -/
def Plain (text : List Char) : Prop :=
  ∀ c ∈ text, c ≠ '"' ∧ c ≠ '/'

-- By name, since the instances for quantifiers over all characters would run through all of them.
instance (text : List Char) : Decidable (Plain text) :=
  List.decidableBAll _ text

theorem Plain.append (h : Plain start) (h' : Plain text) : Plain (start ++ text) := by
  intro c hc
  rcases List.mem_append.1 hc with hc | hc
  · exact h c hc
  · exact h' c hc

theorem plain_toString (id : StateId) : Plain (toString id).toList := by
  intro c hc
  have hdigit := isDigit_of_mem_toString hc
  constructor
  · rintro rfl
    exact absurd hdigit (by decide)
  · rintro rfl
    exact absurd hdigit (by decide)

theorem Plain.strings_append (h : Plain start) (text : List Char) :
    strings (start ++ text) = strings text := by
  induction start with
  | nil => rfl
  | cons c start ih =>
    obtain ⟨hc, hstart⟩ := List.forall_mem_cons.1 h
    rw [List.cons_append, strings_cons hc.1 hc.2]
    exact ih hstart

/-- A comment line is not read, and the reader goes on at its end. -/
theorem strings_append_of_isComment (hcomment : isComment text) (hline : '\n' ∉ text)
    (behind : List Char) : strings (text ++ '\n' :: behind) = strings behind := by
  obtain ⟨rest, rfl⟩ := List.isPrefixOf_iff_prefix.1 hcomment
  have hrest : ∀ c ∈ rest, decide (c ≠ '\n') := by
    intro c hc
    rw [decide_eq_true_eq]
    rintro rfl
    exact hline (List.mem_append_right _ hc)
  show strings ('\t' :: '/' :: '/' :: (rest ++ '\n' :: behind)) = _
  rw [strings_cons (by decide) (by decide), strings_comment,
    List.dropWhile_append_of_pos hrest, List.dropWhile_cons_of_neg (by decide),
    strings_cons (by decide) (by decide)]

/-- Several comment lines are not read, either. -/
theorem strings_append_of_forall_isComment (text : List Char)
    (h : ∀ line ∈ lines text, isComment line) (behind : List Char) :
    strings (text ++ '\n' :: behind) = strings behind := by
  by_cases hmem : '\n' ∈ text
  · -- There are shorter texts on both sides of the line feed, with lines of this text.
    obtain ⟨first, rest, htext⟩ := List.append_of_mem hmem
    have hlength : text.length = first.length + (rest.length + 1) := by
      rw [htext, List.length_append, List.length_cons]
    rw [htext, lines_append_newline] at h
    have hfirst := strings_append_of_forall_isComment first
      fun line hline => h line (List.mem_append_left _ hline)
    have hrest := strings_append_of_forall_isComment rest
      fun line hline => h line (List.mem_append_right _ hline)
    rw [htext, List.append_assoc, List.cons_append, hfirst, hrest]
  · rw [lines_of_not_mem hmem] at h
    exact strings_append_of_isComment (h text (List.mem_singleton_self _)) hmem behind
termination_by text.length
decreasing_by all_goals omega

/-! ### Line by line -/

/-- The text of some lines, each with its end. -/
def textOf (lines : List String) : List Char :=
  lines.flatMap fun line => line.toList ++ ['\n']

theorem textOf_singleton_append (line : String) (behind : List Char) :
    textOf [line] ++ behind = line.toList ++ '\n' :: behind := by
  simp [textOf]

theorem toList_graph (name : String) (body : List String) :
    (graph name body).toList =
      textOf (["digraph " ++ name ++ " \x7b", "\trankdir=LR;"] ++ body ++ ["\x7d"]) := by
  rw [graph, String.toList_join, List.flatMap_map, textOf]
  exact List.flatMap_congr fun line _ => String.toList_append

/-- A reader outside of strings finds the given strings in the lines and is outside again behind
them. -/
def Reads (lines : List String) (found : List (List Char)) : Prop :=
  ∀ behind, strings (textOf lines ++ behind) = (strings behind).map (found ++ ·)

theorem reads_nil : Reads [] [] := by
  intro behind
  simp [textOf]

variable {ls ls' : List String} {found found' : List (List Char)}

theorem Reads.append (h : Reads ls found) (h' : Reads ls' found') :
    Reads (ls ++ ls') (found ++ found') := by
  intro behind
  have htext : textOf (ls ++ ls') ++ behind = textOf ls ++ (textOf ls' ++ behind) := by
    simp [textOf]
  rw [htext, h, h', Option.map_map]
  congr 1
  funext more
  exact (List.append_assoc found found' more).symm

theorem reads_flatMap {α : Type} {l : List α} {f : α → List String} {g : α → List (List Char)}
    (h : ∀ x ∈ l, Reads (f x) (g x)) : Reads (l.flatMap f) (l.flatMap g) := by
  induction l with
  | nil => exact reads_nil
  | cons x l ih =>
    obtain ⟨hx, hl⟩ := List.forall_mem_cons.1 h
    exact hx.append (ih hl)

theorem reads_map {α : Type} {l : List α} {f : α → String} {g : α → List (List Char)}
    (h : ∀ x ∈ l, Reads [f x] (g x)) : Reads (l.map f) (l.flatMap g) := by
  rw [List.map_eq_flatMap]
  exact reads_flatMap h

theorem reads_plain {line : String} (h : Plain line.toList) : Reads [line] [] := by
  intro behind
  rw [textOf_singleton_append, h.strings_append, strings_cons (by decide) (by decide)]
  exact Option.map_id'.symm

theorem reads_shaped {shape : String} (id : StateId) (h : Plain shape.toList) :
    Reads [shaped id shape] [] := by
  refine reads_plain ?_
  simp only [shaped, String.toList_append]
  exact ((Plain.append (by decide) (plain_toString id)).append (by decide)).append h
    |>.append (by decide)

/-- **A comment** that nothing escapes from holds no string. -/
theorem reads_comment {d : Declaration} (id : StateId) (h : d.Contained) :
    Reads [comment id d] [] := by
  intro behind
  have hlines : ∀ line ∈ lines (comment id d).toList, isComment line := by
    have hgraph : graphLines (comment id d) = [] := by
      rw [graphLines_comment, Declaration.spill_eq_nil_iff.2 h]
    simpa [graphLines, List.filter_eq_nil_iff] using hgraph
  rw [textOf_singleton_append, strings_append_of_forall_isComment _ hlines]
  exact Option.map_id'.symm

/-! ### Arrows -/

/-- An edge as a description shows it: an arrow with a label, dashed or not. -/
structure Arrow where
  source : StateId
  label : String
  target : StateId
  dashed : Bool

namespace Arrow

/-- What stands in front of the label. -/
def front (arrow : Arrow) : String :=
  "\t" ++ toString arrow.source ++ " -> " ++ toString arrow.target ++ " [label="

/-- What else there is to say of the arrow, behind the label. -/
def more (arrow : Arrow) : String :=
  if arrow.dashed then ", style=dashed" else ""

/-- The line of an arrow. -/
def line (arrow : Arrow) : String :=
  edge arrow.source arrow.label arrow.target arrow.more

/-- Somewhere in the description the arrow begins, a string that spells its label follows, and
behind the closing quote of this string the line goes on to its end. -/
def StandsIn (arrow : Arrow) (description : String) : Prop :=
  ∃ before text behind, description.toList = before ++ arrow.front.toList ++ text ∧
    readString? text =
      some (arrow.label.toList, arrow.more.toList ++ "];".toList ++ '\n' :: behind)

theorem toList_line_append (arrow : Arrow) (behind : List Char) :
    arrow.line.toList ++ behind = arrow.front.toList ++
      ((quoted arrow.label).toList ++ (arrow.more.toList ++ "];".toList ++ behind)) := by
  simp only [line, front, edge, String.toList_append, List.append_assoc]

theorem plain_front (arrow : Arrow) : Plain arrow.front.toList := by
  simp only [front, String.toList_append]
  exact ((Plain.append (by decide) (plain_toString arrow.source)).append (by decide)).append
    (plain_toString arrow.target) |>.append (by decide)

theorem plain_more (arrow : Arrow) : Plain arrow.more.toList := by
  unfold more
  split <;> decide

/-- **A line with a label** holds one string, the label. -/
theorem reads_line (arrow : Arrow) : Reads [arrow.line] [arrow.label.toList] := by
  intro behind
  have hback : Plain (arrow.more.toList ++ "];".toList) := arrow.plain_more.append (by decide)
  rw [textOf_singleton_append, toList_line_append, arrow.plain_front.strings_append,
    strings_quoted_append, hback.strings_append, strings_cons (by decide) (by decide)]
  rfl

end Arrow

theorem reads_lines (arrows : List Arrow) :
    Reads (arrows.map Arrow.line) (arrows.map (·.label.toList)) := by
  rw [List.map_eq_flatMap (f := fun arrow : Arrow => arrow.label.toList)]
  exact reads_map fun arrow _ => arrow.reads_line

/-- An arrow whose line is one of the body stands in the graph. -/
theorem standsIn_graph {arrow : Arrow} {body : List String} (name : String)
    (h : arrow.line ∈ body) : arrow.StandsIn (graph name body) := by
  obtain ⟨before, behind, rfl⟩ := List.append_of_mem h
  have htext : (graph name (before ++ arrow.line :: behind)).toList =
      textOf (["digraph " ++ name ++ " \x7b", "\trankdir=LR;"] ++ before) ++
        (arrow.line.toList ++ '\n' :: textOf (behind ++ ["\x7d"])) := by
    rw [toList_graph]
    simp [textOf]
  rw [Arrow.toList_line_append, ← List.append_assoc] at htext
  exact ⟨_, _, _, htext, readString?_quoted _ _⟩

/-- A graph is read from the first character to the last, if its name and its body are. -/
theorem strings_graph {name : String} {body : List String} (hname : Plain name.toList)
    (hbody : Reads body found) : strings (graph name body).toList = some found := by
  have hopen : Plain ("digraph " ++ name ++ " \x7b").toList := by
    simp only [String.toList_append]
    exact (Plain.append (by decide) hname).append (by decide)
  have hlayout : Reads ["\trankdir=LR;"] [] := reads_plain (by decide)
  have hclose : Reads ["\x7d"] [] := reads_plain (by decide)
  have hgraph := (((reads_plain hopen).append hlayout).append hbody).append hclose
  have hend : strings [] = some [] := by rw [strings]
  rw [toList_graph, ← List.append_nil (textOf _)]
  simpa [hend] using hgraph []

end Dot

/-! ### Automata -/

namespace Automaton

open Dot

variable {M : Type} [Machine M]

/-- The arrows out of a state of a nondeterministic automaton. -/
def nfaArrows (a : Automaton Nfa) (id : StateId) : List Arrow :=
  (a.machine.state id).edges.map fun edge => ⟨id, a.eventText edge.event, edge.target, false⟩

/-- The arrows out of a state of a deterministic automaton. The dashed ones are the guarded
edges. -/
def dfaArrows (a : Automaton Dfa) (id : StateId) : List Arrow :=
  ((a.machine.state id).transitions.map fun (label, target) =>
    ⟨id, a.labels.text label, target, false⟩) ++
  (a.machine.state id).conditions.map fun (condition, target) =>
    ⟨id, a.labels.conditionText condition, target, true⟩

/-- The arrows stand in the description, and a reader of the whole description finds their labels
and no other string, if nothing escapes from a comment. -/
structure Legible (a : Automaton M) (description : String) (arrows : List Arrow) : Prop where
  standsIn : ∀ arrow ∈ arrows, arrow.StandsIn description
  strings_eq : (∀ d ∈ a.declarations, d.Contained) →
    strings description.toList = some (arrows.map (·.label.toList))

theorem reads_dotComments {a : Automaton M} (ha : ∀ d ∈ a.declarations, d.Contained)
    (id : StateId) : Reads (a.dotComments id) [] := by
  have hnone : (a.written id).flatMap (fun _ => ([] : List (List Char))) = [] :=
    List.flatMap_eq_nil_iff.2 fun _ _ => rfl
  rw [dotComments_eq, ← hnone]
  exact reads_map fun d hd => reads_comment id (ha d (mem_declarations_of_mem_written hd))

theorem legible_graph (a : Automaton M) {name : String} {front : List String} {n : Nat}
    {arrows : StateId → List Arrow} (hname : Plain name.toList) (hfront : Reads front []) :
    a.Legible (graph name (front ++ (List.range n).flatMap fun id =>
        a.dotComments id ++ (arrows id).map Arrow.line))
      ((List.range n).flatMap arrows) := by
  constructor
  · intro arrow harrow
    obtain ⟨id, hid, hmem⟩ := List.mem_flatMap.1 harrow
    -- Its line is one of those of its state, whatever the comments are.
    refine standsIn_graph name (List.mem_append_right _ ?_)
    refine List.mem_flatMap.2 ⟨id, hid, List.mem_append_right _ ?_⟩
    exact List.mem_map_of_mem hmem
  · intro ha
    refine strings_graph hname ?_
    rw [List.map_flatMap]
    exact hfront.append (reads_flatMap fun id _ =>
      (reads_dotComments ha id).append (reads_lines (arrows id)))

theorem legible_nfaDot (a : Automaton Nfa) :
    a.Legible a.nfaDot ((List.range a.machine.size).flatMap a.nfaArrows) := by
  have hlines : a.nfaDot = graph "nfa"
      ([shaped Nfa.start "shape=box", shaped Nfa.accept "peripheries=2"] ++
        (List.range a.machine.size).flatMap fun id =>
          a.dotComments id ++ (a.nfaArrows id).map Arrow.line) := by
    simp only [nfaDot, nfaArrows, List.map_map]
    rfl
  rw [hlines]
  exact legible_graph a (by decide)
    ((reads_shaped Nfa.start (by decide)).append (reads_shaped Nfa.accept (by decide)))

theorem legible_dfaDot (a : Automaton Dfa) :
    a.Legible a.dfaDot ((List.range a.machine.size).flatMap a.dfaArrows) := by
  have hlines : a.dfaDot = graph "dfa" ([shaped Dfa.start "shape=box"] ++
      (List.range a.machine.size).flatMap fun id =>
        a.dotComments id ++ (a.dfaArrows id).map Arrow.line) := by
    simp only [dfaDot, dfaArrows, List.map_append, List.map_map, List.append_assoc]
    rfl
  rw [hlines]
  exact legible_graph a (by decide) (reads_shaped Dfa.start (by decide))

end Automaton

open Automaton Dot Text

/-- **Labels in quotes are read back.** A reader that starts at an opening quote stops at the
closing quote that has been written for a label, and not before, whatever the label is and whatever
stands behind, and has read the label then. So different labels are written differently. The
written form is that of two passes, one for the backslashes and then one for the quotes.

In the descriptions of the automata, of both kinds, every edge stands with its label in such a
string. A reader of a whole description finds the labels of all edges, in order, and no other
string, if no declaration escapes from its comment. -/
theorem labels_read_back :
    (∀ label behind : List Char,
      readString? ('"' :: (escape label ++ '"' :: behind)) = some (label, behind)) ∧
    (∀ label, escape label =
      replaceEach '"' ['\\', '"'] (replaceEach '\\' ['\\', '\\'] label)) ∧
    Function.Injective escape ∧
    (∀ a : Automaton Nfa,
      a.Legible a.nfaDot ((List.range a.machine.size).flatMap a.nfaArrows)) ∧
    (∀ a : Automaton Dfa,
      a.Legible a.dfaDot ((List.range a.machine.size).flatMap a.dfaArrows)) :=
  ⟨readRest?_escape, escape_eq_replaceEach, injective_escape, legible_nfaDot, legible_dfaDot⟩

/-- A condition on a value of a backslash and a quote. -/
theorem labels_read_back_title :
    let rule : Rule := .of
      (.filtered (.ofName "p") (.hasAttribute { localName := "title" } (some "\\\"")))
      { property := "color", value := "red" }
    (∀ d ∈ (compile [rule]).declarations, d.Contained) ∧
      strings (compileNfa [rule]).nfaDot.toList =
        some ["ε".toList, "*|p".toList, "[title=\"\\\"\"]".toList, "ε".toList] ∧
      strings (compile [rule]).dfaDot.toList =
        some ["*|p".toList, "[title=\"\\\"\"]".toList] := by
  intro rule
  have hcontained : ∀ d ∈ (compile [rule]).declarations, d.Contained := by decide
  obtain ⟨-, -, -, hnfa, hdfa⟩ := labels_read_back
  refine ⟨hcontained, ?_, ?_⟩
  · rw [(hnfa (compileNfa [rule])).strings_eq hcontained]
    decide +kernel
  · rw [(hdfa (compile [rule])).strings_eq hcontained]
    decide +kernel

/-- With the passes the other way round a quote ends its own string. -/
example : readString?
    ('"' :: (replaceEach '\\' ['\\', '\\'] (replaceEach '"' ['\\', '"'] ['"']) ++ ['"'])) =
      some (['\\'], ['"']) := by
  decide

end StyleStream
