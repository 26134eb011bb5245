/-
  Declarations and the lines of a graph description.

  A description of an automaton puts the text of a declaration behind `//`, where a reader of the
  graph does not look, but only to the end of the line. The text is written as it is. So a line
  feed in a property or a value ends the comment, and what follows is a line of the graph unless it
  begins like a comment itself. Here `Declaration.Contained` says that a declaration has no such
  line, and `spill` are the lines that escape.

  The rest of a description comes from the selectors and the pseudo-elements of the rules alone
  (`compileNfa_of_alike`). Its lines are those of the shapes and the edges, with the spill of each
  declaration in between (`graphLines_graph`, `graphLines_comment`), and every declaration is
  written somewhere (`forall_written_iff`). So two descriptions say the same of the graph exactly if
  nothing escapes.
-/
import Mathlib.Data.List.Flatten
import Mathlib.Data.List.Forall2
import StyleStream.Automaton.Dot
import StyleStream.Proofs.Exits

namespace StyleStream

/-! ### Lines -/

/-- Lists that only add to others are equal to them exactly if they add nothing. -/
theorem flatMap_eq_flatMap_append_iff {α β : Type} {l : List α} {f g : α → List β} :
    l.flatMap g = l.flatMap (fun x => f x ++ g x) ↔ ∀ x ∈ l, f x = [] := by
  induction l with
  | nil => simp
  | cons x l ih =>
    have hle : (l.flatMap g).length ≤ (l.flatMap fun x => f x ++ g x).length :=
      (List.Sublist.flatMap_right l fun x _ => List.sublist_append_right (f x) (g x)).length_le
    rw [List.flatMap_cons, List.flatMap_cons, List.forall_mem_cons, ← ih]
    constructor
    · intro h
      have hlength := congrArg List.length h
      simp only [List.length_append] at hlength
      have hx : f x = [] := List.eq_nil_of_length_eq_zero (by omega)
      rw [hx, List.nil_append, List.append_cancel_left_eq] at h
      exact ⟨hx, h⟩
    · rintro ⟨hx, h⟩
      rw [hx, List.nil_append, h]

namespace Text

/-- The lines of a text, divided at its line feeds. -/
def lines (text : List Char) : List (List Char) :=
  text.splitOnP (· = '\n')

variable {text start : List Char}

/-- **A line feed ends a line.** -/
theorem lines_append_newline (text rest : List Char) :
    lines (text ++ '\n' :: rest) = lines text ++ lines rest :=
  List.splitOnP_append_cons text rest (by simp)

/-- A text of one line. -/
theorem lines_of_not_mem (h : '\n' ∉ text) : lines text = [text] :=
  List.splitOnP_eq_singleton fun c hc => by
    rw [decide_eq_false_iff_not]
    rintro rfl
    exact h hc

/-- What is put in front of a text changes its first line only. -/
theorem lines_append_of_not_mem (h : '\n' ∉ start) (text : List Char) :
    lines (start ++ text) = (lines text).modifyHead (start ++ ·) := by
  induction start with
  | nil => exact (congrFun List.modifyHead_id _).symm
  | cons c start ih =>
    obtain ⟨hc, hstart⟩ := not_or.1 (mt List.mem_cons.2 h)
    have hsplit := List.splitOnP_cons_eq_if_modifyHead (p := (· = '\n')) c (start ++ text)
    rw [if_neg (by simpa using Ne.symm hc)] at hsplit
    show lines (c :: (start ++ text)) = _
    rw [lines, hsplit, ← lines, ih hstart, List.modifyHead_modifyHead]
    rfl

theorem lines_ne_nil (text : List Char) : lines text ≠ [] :=
  List.splitOnP_ne_nil _ _

end Text

namespace Dot

open Text

/-- Whether a line is a comment line: it begins with a tab and two slashes. -/
def isComment (line : List Char) : Bool :=
  ['\t', '/', '/'].isPrefixOf line

/-- The lines of a description that are not comment lines. -/
def graphLines (description : String) : List (List Char) :=
  (lines description.toList).filter (!isComment ·)

/-- **The lines of a graph** are those of its parts. -/
theorem graphLines_join (parts : List String) :
    graphLines (String.join (parts.map (· ++ "\n"))) = parts.flatMap graphLines ++ [[]] := by
  unfold graphLines
  rw [String.toList_join]
  induction parts with
  | nil => rfl
  | cons part parts ih =>
    have hpart : ((part :: parts).map (· ++ "\n")).flatMap String.toList =
        part.toList ++ '\n' :: (parts.map (· ++ "\n")).flatMap String.toList := by
      simp
    rw [hpart, lines_append_newline, List.filter_append, ih, List.flatMap_cons, List.append_assoc]

theorem graphLines_graph (name : String) (body : List String) :
    graphLines (graph name body) =
      ["digraph " ++ name ++ " \x7b", "\trankdir=LR;"].flatMap graphLines ++
        body.flatMap graphLines ++ ["\x7d"].flatMap graphLines ++ [[]] := by
  rw [graph, graphLines_join, List.flatMap_append, List.flatMap_append]

end Dot

/-! ### What escapes from a comment -/

namespace Declaration

open Text Dot

/-- Every line of the text but the first begins like a comment itself. -/
def Contained (d : Declaration) : Prop :=
  ∀ line ∈ (lines d.text.toList).tail, isComment line

instance (d : Declaration) : Decidable d.Contained :=
  inferInstanceAs (Decidable (∀ line ∈ (lines d.text.toList).tail, isComment line))

/-- The lines of the text that escape from a comment that it is written into. -/
def spill (d : Declaration) : List (List Char) :=
  (lines d.text.toList).tail.filter (!isComment ·)

theorem spill_eq_nil_iff {d : Declaration} : d.spill = [] ↔ d.Contained := by
  simp [spill, Contained, List.filter_eq_nil_iff]

/-- **Without line feeds** in the property and the value nothing escapes. -/
theorem contained_of_not_mem {d : Declaration} (hproperty : '\n' ∉ d.property.toList)
    (hvalue : '\n' ∉ d.value.toList) : d.Contained := by
  have htext : '\n' ∉ d.text.toList := by
    unfold text
    split <;> simp [hproperty, hvalue]
  rw [Contained, lines_of_not_mem htext]
  exact fun _ h => absurd h List.not_mem_nil

end Declaration

namespace Dot

open Text

theorem isDigit_of_mem_toString {id : StateId} {c : Char} (h : c ∈ (toString id).toList) :
    c.isDigit :=
  Nat.isDigit_of_mem_toDigits (by decide) (Nat.le_refl 10) (Nat.toList_repr ▸ h)

theorem newline_not_mem_toString (id : StateId) : '\n' ∉ (toString id).toList :=
  fun h => absurd (isDigit_of_mem_toString h) (by decide)

/-- What stands in front of the text of a declaration is on one line. -/
theorem exists_declarationText_eq (d : Declaration) :
    ∃ start : String, '\n' ∉ start.toList ∧ declarationText d = start ++ d.text := by
  unfold declarationText
  split
  · next pseudo _ =>
    refine ⟨"::" ++ pseudo.name ++ " ", ?_, rfl⟩
    cases pseudo <;> decide
  · exact ⟨"", by decide, by simp⟩

/-- **A comment leaves the spill of its declaration** among the lines of the graph, whatever the
state, and nothing else. -/
theorem graphLines_comment (id : StateId) (d : Declaration) :
    graphLines (comment id d) = d.spill := by
  obtain ⟨start, hstart, htext⟩ := exists_declarationText_eq d
  have hcomment : (comment id d).toList =
      ['\t', '/', '/'] ++ (" [".toList ++ (toString id).toList ++ "] ".toList ++ start.toList) ++
        d.text.toList := by
    rw [comment, htext]
    simp
  have hline : '\n' ∉ ['\t', '/', '/'] ++
      (" [".toList ++ (toString id).toList ++ "] ".toList ++ start.toList) := by
    simp only [List.mem_append, not_or]
    exact ⟨by decide, ⟨⟨by decide, newline_not_mem_toString id⟩, by decide⟩, hstart⟩
  obtain ⟨first, rest, hlines⟩ := List.exists_cons_of_ne_nil (lines_ne_nil d.text.toList)
  rw [graphLines, Declaration.spill, hcomment, lines_append_of_not_mem hline, hlines]
  exact List.filter_cons_of_neg (by simp [isComment])

end Dot

/-! ### Descriptions of automata -/

namespace Automaton

open Dot

variable {M : Type} [Machine M] {name : String} {front : List String} {n : Nat}
  {edges : StateId → List String}

/-- The declarations that a description writes at a state. -/
def written (a : Automaton M) (id : StateId) : List Declaration :=
  (Machine.declarations a.machine id ++ Machine.pseudoDeclarations a.machine id).filterMap
    (a.declarations[·]?)

theorem mem_declarations_of_mem_written {a : Automaton M} {id : StateId} {d : Declaration}
    (h : d ∈ a.written id) : d ∈ a.declarations := by
  obtain ⟨i, -, hget⟩ := List.mem_filterMap.1 h
  exact List.mem_of_getElem? hget

theorem dotComments_eq (a : Automaton M) (id : StateId) :
    a.dotComments id = (a.written id).map (comment id) :=
  List.map_filterMap.symm

theorem flatMap_graphLines_dotComments (a : Automaton M) (id : StateId) :
    (a.dotComments id).flatMap graphLines = (a.written id).flatMap (·.spill) := by
  rw [dotComments_eq, List.flatMap_map]
  exact List.flatMap_congr fun d _ => graphLines_comment id d

/-- **Two descriptions with the same edges** have the same lines exactly if nothing escapes from
the comments of the second, given that nothing does from those of the first. -/
theorem graphLines_eq_iff {a a' : Automaton M} (ha : ∀ d ∈ a.declarations, d.Contained) :
    graphLines (graph name (front ++ (List.range n).flatMap fun id =>
        a.dotComments id ++ edges id)) =
      graphLines (graph name (front ++ (List.range n).flatMap fun id =>
        a'.dotComments id ++ edges id)) ↔
      ∀ id < n, ∀ d ∈ a'.written id, d.Contained := by
  have hlines : ∀ a : Automaton M, ((List.range n).flatMap fun id =>
      a.dotComments id ++ edges id).flatMap graphLines = (List.range n).flatMap fun id =>
        (a.written id).flatMap (·.spill) ++ (edges id).flatMap graphLines := by
    intro a
    rw [List.flatMap_assoc]
    refine List.flatMap_congr fun id _ => ?_
    rw [List.flatMap_append, flatMap_graphLines_dotComments]
  have hnone : ∀ id, (a.written id).flatMap (·.spill) = [] := by
    intro id
    refine List.flatMap_eq_nil_iff.2 fun d hd => ?_
    exact Declaration.spill_eq_nil_iff.2 (ha d (mem_declarations_of_mem_written hd))
  simp only [graphLines_graph, List.flatMap_append, hlines, hnone, List.nil_append,
    List.append_cancel_left_eq, List.append_cancel_right_eq]
  rw [flatMap_eq_flatMap_append_iff]
  simp only [List.mem_range, List.flatMap_eq_nil_iff, Declaration.spill_eq_nil_iff]

theorem graphLines_nfaDot_eq_iff {a : Automaton Nfa} {declarations : List Declaration}
    (ha : ∀ d ∈ a.declarations, d.Contained) :
    graphLines a.nfaDot = graphLines { a with declarations }.nfaDot ↔
      ∀ id < a.machine.size, ∀ d ∈ { a with declarations }.written id, d.Contained :=
  graphLines_eq_iff ha

theorem graphLines_dfaDot_eq_iff {a : Automaton Dfa} {declarations : List Declaration}
    (ha : ∀ d ∈ a.declarations, d.Contained) :
    graphLines a.dfaDot = graphLines { a with declarations }.dfaDot ↔
      ∀ id < a.machine.size, ∀ d ∈ { a with declarations }.written id, d.Contained := by
  simp only [dfaDot, List.append_assoc]
  exact graphLines_eq_iff ha

end Automaton

/-! ### Rules that differ in their declarations -/

/-- The rules have the same selector and the same pseudo-element, and may declare anything. -/
structure Rule.Alike (r r' : Rule) : Prop where
  selector : r.selector = r'.selector
  pseudoElement : r.declaration.pseudoElement = r'.declaration.pseudoElement

theorem Rule.Alike.isPseudo_eq {r r' : Rule} (h : r.Alike r') : r.isPseudo = r'.isPseudo := by
  unfold Rule.isPseudo
  rw [h.pseudoElement]

/-- What has been made differs at most in the declarations, and there are as many of them. -/
structure Compilation.Alike (c c' : Compilation) : Prop where
  builder : c.builder = c'.builder
  skipped : c.skipped = c'.skipped
  length : c.declarations.length = c'.declarations.length

/-- **One more rule** keeps what has been made alike. -/
theorem Compilation.Alike.add {c c' : Compilation} {r r' : Rule} (hc : c.Alike c')
    (hr : r.Alike r') : (c.add r).Alike (c'.add r') := by
  have hadd : c.builder.addRule r.selector c.declarations.length r.isPseudo =
      c'.builder.addRule r'.selector c'.declarations.length r'.isPseudo := by
    rw [hc.builder, hr.selector, hc.length, hr.isPseudo_eq]
  unfold Compilation.add
  rw [hadd]
  split
  · exact ⟨rfl, hc.skipped, by simp [hc.length]⟩
  · exact ⟨hc.builder, by simp [hc.skipped, hr.selector], hc.length⟩

variable {rules rules' : List Rule}

theorem Compilation.Alike.foldl_add (h : List.Forall₂ Rule.Alike rules rules') :
    ∀ {c c' : Compilation}, c.Alike c' →
      (rules.foldl Compilation.add c).Alike (rules'.foldl Compilation.add c') := by
  induction h with
  | nil => exact id
  | cons halike _ ih => exact fun hc => ih (hc.add halike)

/-- **The declarations have no part in the rest** of an automaton. -/
theorem compileNfa_of_alike (h : List.Forall₂ Rule.Alike rules rules') :
    Automaton.compileNfa rules' = { Automaton.compileNfa rules with
      declarations := (understood rules').map (·.declaration) } := by
  have hempty : Compilation.Alike {} {} := ⟨rfl, rfl, rfl⟩
  have halike := Compilation.Alike.foldl_add h hempty
  have hdeclarations := (accepts_foldl_add rules').2
  simp only [Automaton.compileNfa, halike.builder, halike.skipped, hdeclarations]

/-! ### Two descriptions -/

/-- What is written in a description are the declarations of the automaton, if each is accepted by
some state. -/
theorem Automaton.forall_written_iff {M : Type} [Machine M] {a : Automaton M} {n : Nat}
    {P : Declaration → Prop} (hall : ∀ i < a.declarations.length, ∃ id < n,
      i ∈ Machine.declarations a.machine id ++ Machine.pseudoDeclarations a.machine id) :
    (∀ id < n, ∀ d ∈ a.written id, P d) ↔ ∀ d ∈ a.declarations, P d := by
  constructor
  · intro h d hd
    obtain ⟨i, hi, hget⟩ := List.getElem_of_mem hd
    obtain ⟨id, hid, hmem⟩ := hall i hi
    exact h id hid d (List.mem_filterMap.2 ⟨i, hmem, List.getElem?_eq_some_iff.2 ⟨hi, hget⟩⟩)
  · intro h id _ d hd
    exact h d (mem_declarations_of_mem_written hd)

open Automaton Dot

theorem graphLines_nfaDot_compileNfa_eq_iff (h : List.Forall₂ Rule.Alike rules rules')
    (hcontained : ∀ rule ∈ understood rules, rule.declaration.Contained) :
    graphLines (compileNfa rules).nfaDot = graphLines (compileNfa rules').nfaDot ↔
      ∀ rule ∈ understood rules', rule.declaration.Contained := by
  have hdeclarations : (compileNfa rules).declarations = (understood rules).map (·.declaration) :=
    (accepts_foldl_add rules).2
  have hall := fun i hi => (@exists_mem_declarations rules' i hi).1
  simp only [compileNfa_of_alike h] at hall ⊢
  rw [graphLines_nfaDot_eq_iff (by rwa [hdeclarations, List.forall_mem_map]),
    forall_written_iff (by rwa [List.length_map]), List.forall_mem_map]

theorem graphLines_dfaDot_compile_eq_iff (h : List.Forall₂ Rule.Alike rules rules')
    (hcontained : ∀ rule ∈ understood rules, rule.declaration.Contained) :
    graphLines (compile rules).dfaDot = graphLines (compile rules').dfaDot ↔
      ∀ rule ∈ understood rules', rule.declaration.Contained := by
  have hdeclarations : (compile rules).declarations = (understood rules).map (·.declaration) :=
    (accepts_foldl_add rules).2
  have hcompile : compile rules' = { compile rules with
      declarations := (understood rules').map (·.declaration) } := by
    rw [compile, compileNfa_of_alike h]
    rfl
  have hall := fun i hi => (@exists_mem_declarations rules' i hi).2
  simp only [hcompile] at hall ⊢
  rw [graphLines_dfaDot_eq_iff (by rwa [hdeclarations, List.forall_mem_map]),
    forall_written_iff (by rwa [List.length_map]), List.forall_mem_map]

/-- **Two descriptions say the same of the graph exactly if nothing escapes.** Take two lists of
rules with the same selectors and pseudo-elements, and let the declarations of the first stay in
their comments. Then the descriptions of the two automata are the same but for comment lines exactly
if the declarations of the second stay in theirs, too. Rules that are not understood do
not count. This holds of the nondeterministic automata and of the deterministic ones. In particular
the descriptions are the same if no property and no value has a line feed. -/
theorem same_graph_iff_contained (h : List.Forall₂ Rule.Alike rules rules') :
    ((∀ rule ∈ understood rules, rule.declaration.Contained) →
      (graphLines (compileNfa rules).nfaDot = graphLines (compileNfa rules').nfaDot ↔
        ∀ rule ∈ understood rules', rule.declaration.Contained) ∧
      (graphLines (compile rules).dfaDot = graphLines (compile rules').dfaDot ↔
        ∀ rule ∈ understood rules', rule.declaration.Contained)) ∧
    ((∀ rule ∈ rules ++ rules', '\n' ∉ rule.declaration.property.toList ∧
        '\n' ∉ rule.declaration.value.toList) →
      graphLines (compileNfa rules).nfaDot = graphLines (compileNfa rules').nfaDot ∧
      graphLines (compile rules).dfaDot = graphLines (compile rules').dfaDot) := by
  refine ⟨fun hcontained => ⟨graphLines_nfaDot_compileNfa_eq_iff h hcontained,
    graphLines_dfaDot_compile_eq_iff h hcontained⟩, fun hline => ?_⟩
  have hone : ∀ rule ∈ rules ++ rules', rule.declaration.Contained := fun rule hrule =>
    Declaration.contained_of_not_mem (hline rule hrule).1 (hline rule hrule).2
  have hcontained : ∀ rule ∈ understood rules, rule.declaration.Contained := fun rule hrule =>
    hone rule (List.mem_append_left _ (List.mem_of_mem_filter hrule))
  have hcontained' : ∀ rule ∈ understood rules', rule.declaration.Contained := fun rule hrule =>
    hone rule (List.mem_append_right _ (List.mem_of_mem_filter hrule))
  exact ⟨(graphLines_nfaDot_compileNfa_eq_iff h hcontained).2 hcontained',
    (graphLines_dfaDot_compile_eq_iff h hcontained).2 hcontained'⟩

/-- A value of two lines of which the second looks like a comment. -/
theorem same_graph_iff_contained_comment :
    let rules := [Rule.ofName "p" { property := "color", value := "red" }]
    let rules' := [Rule.ofName "p" { property := "color", value := "red\n\t// or blue" }]
    graphLines (compileNfa rules).nfaDot = graphLines (compileNfa rules').nfaDot ∧
      graphLines (compile rules).dfaDot = graphLines (compile rules').dfaDot := by
  intro rules rules'
  have halike : List.Forall₂ Rule.Alike rules rules' := .cons ⟨rfl, rfl⟩ .nil
  have hgraph := (same_graph_iff_contained halike).1 (by decide)
  exact ⟨hgraph.1.2 (by decide), hgraph.2.2 (by decide)⟩

/-- **A value can add an edge**: one that is in neither automaton is a line of both descriptions. -/
theorem graphLines_ne_of_line_feed :
    let rules := [Rule.ofName "p" { property := "color", value := "red" }]
    let rules' := [Rule.ofName "p" { property := "color", value := "red\n\t0 -> 1 [label=\"q\"];" }]
    let line := (edge 0 "q" 1 "").toList
    List.Forall₂ Rule.Alike rules rules' ∧
      graphLines (compileNfa rules).nfaDot ≠ graphLines (compileNfa rules').nfaDot ∧
      graphLines (compile rules).dfaDot ≠ graphLines (compile rules').dfaDot ∧
      line ∈ graphLines (compileNfa rules').nfaDot ∧ line ∈ graphLines (compile rules').dfaDot := by
  intro rules rules' line
  have halike : List.Forall₂ Rule.Alike rules rules' := .cons ⟨rfl, rfl⟩ .nil
  have hcontained : ∀ rule ∈ understood rules, rule.declaration.Contained := by decide
  have hescapes : ¬∀ rule ∈ understood rules', rule.declaration.Contained := by decide
  have hnfa : line ∈ graphLines (compileNfa rules').nfaDot := by decide +kernel
  have hdfa : line ∈ graphLines (compile rules').dfaDot := by decide +kernel
  exact ⟨halike, mt (graphLines_nfaDot_compileNfa_eq_iff halike hcontained).1 hescapes,
    mt (graphLines_dfaDot_compile_eq_iff halike hcontained).1 hescapes, hnfa, hdfa⟩

end StyleStream
