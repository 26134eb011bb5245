/-
  A rule that is refused leaves no trace.

  `Builder.fragment` gives nothing back when a part of the selector is not understood. A
  builder that works in place has by then interned labels and made states, so it matters
  that rules are refused before their selectors are looked at in detail. `fragmentInPlace`
  and `addInPlace` work in place. To add a rule in place comes to the same as
  `Builder.addRule` (`addInPlace_eq_addRule`): a selector that is understood
  has a fragment, whatever its shape, and every other is refused before anything is made.
  So a list of rules is compiled as if those that are not understood had never been in it
  (`foldl_add`).
-/
import StyleStream.Proofs.Compilation

namespace StyleStream

namespace Nfa

/-! ### Building in place -/

namespace Builder

/-- The fragment of a selector, made in place: what has been made by the time a part turns out
not to be understood stays in the builder. -/
def fragmentInPlace (b : Builder) : Selector → Option Fragment × Builder
  | .element test =>
    let (part, b) := b.name (nameLabel test.ns test.localName)
    (some part, b)
  | .filtered inner condition =>
    match b.fragmentInPlace inner with
    | (none, b) => (none, b)
    | (some part, b) =>
      let (part, b) := b.filter part condition
      (some part, b)
  | .combined combinator left right =>
    if right.isPseudo then b.fragmentInPlace left
    else
      match b.fragmentInPlace left with
      | (none, b) => (none, b)
      | (some head, b) =>
        let (place, b) := b.bridge head.exit combinator
        match b.fragmentInPlace right with
        | (none, b) => (none, b)
        | (some tail, b) => (some ⟨head.entry, tail.exit⟩, b.link place .epsilon tail.entry)
  | .pseudo _ =>
    let (part, b) := b.name anyLabel
    (some part, b)
  | .unsupported _ => (none, b)

/-- A rule that is to be added. -/
structure Request where
  selector : Selector
  declaration : DeclarationId
  pseudo : Bool

/-- Adds a rule in place, and says whether it was added. -/
def addInPlace (b : Builder) (r : Request) : Bool × Builder :=
  match b.exits.lookup r.selector with
  | some exit => (true, b.accept exit r.declaration r.pseudo)
  | none =>
    if r.selector.isSupported then
      match b.fragmentInPlace r.selector with
      | (some part, made) =>
        (true, (attach made r.selector part).accept part.exit r.declaration r.pseudo)
      | (none, made) => (false, made)
    else (false, b)

/-- The builder after a list of requests, some of them possibly refused. -/
def serve (b : Builder) (requests : List Request) : Builder :=
  requests.foldl (fun b r => (b.addInPlace r).2) b

end Builder

open Builder

variable {b b' : Builder} {s : Selector} {part : Fragment} {r : Request}

/-- Where a fragment is found, working in place makes the same. -/
theorem fragmentInPlace_of_fragment (h : b.fragment s = some (part, b')) :
    b.fragmentInPlace s = (some part, b') := by
  induction s generalizing b part b' with
  | element test => exact congrArg (fun made => (some made.1, made.2)) (Option.some.inj h)
  | filtered inner condition ih =>
    obtain ⟨part₁, b₁, hinner, hfilter⟩ := fragment_filtered.1 h
    simp only [fragmentInPlace, ih hinner, hfilter]
  | combined combinator left right ihl ihr =>
    by_cases hpseudo : right.isPseudo
    · rw [fragment_combined_pseudo hpseudo] at h
      rw [fragmentInPlace, if_pos hpseudo, ihl h]
    · obtain ⟨head, b₁, tail, b₃, hleft, hright, rfl, rfl⟩ := (fragment_combined hpseudo).1 h
      simp only [fragmentInPlace, if_neg hpseudo, ihl hleft, ihr hright]
  | pseudo p => exact congrArg (fun made => (some made.1, made.2)) (Option.some.inj h)
  | unsupported text => cases h

/-! ### Adding a rule in place -/

theorem settled_addRule {declaration : DeclarationId} {pseudo : Bool} (hb : Settled b)
    (h : b.addRule s declaration pseudo = some b') : Settled b' := by
  obtain ⟨⟨exit, b₁⟩, hselector, h⟩ := Option.bind_eq_some_iff.1 h
  obtain rfl := Option.some.inj h
  exact (settled_selector hb hselector).1.accept

/-- **A rule is added as a whole or not at all**, also in place. -/
theorem addInPlace_eq_addRule (b : Builder) (r : Request) :
    b.addInPlace r = match b.addRule r.selector r.declaration r.pseudo with
      | some b' => (true, b')
      | none => (false, b) := by
  rw [addInPlace, addRule, Builder.selector]
  cases hlookup : b.exits.lookup r.selector with
  | some exit => rfl
  | none =>
    by_cases hsupported : r.selector.isSupported
    · -- A selector that is understood has a fragment, so nothing can be left behind.
      obtain ⟨⟨part, made⟩, hmade⟩ := Option.isSome_iff_exists.1 (isSome_fragment hsupported b)
      simp only [if_pos hsupported, fragmentInPlace_of_fragment hmade, hmade]
      rfl
    · simp only [if_neg hsupported]
      rfl

theorem settled_addInPlace (hb : Settled b) (r : Request) : Settled (b.addInPlace r).2 := by
  rw [addInPlace_eq_addRule]
  cases hadd : b.addRule r.selector r.declaration r.pseudo with
  | some b' => exact settled_addRule hb hadd
  | none => exact hb

theorem settled_serve (hb : Settled b) (requests : List Request) : Settled (b.serve requests) := by
  induction requests generalizing b with
  | nil => exact hb
  | cons r requests ih => exact ih (settled_addInPlace hb r)

/-- **A request is refused exactly if its selector is not understood.** -/
theorem addInPlace_eq_false_iff (hb : Settled b) :
    (b.addInPlace r).1 = false ↔ r.selector.isSupported = false := by
  have hadd : (b.addRule r.selector r.declaration r.pseudo).isSome ↔ r.selector.isSupported :=
    isSome_addRule hb
  rw [addInPlace_eq_addRule, ← Bool.not_eq_true r.selector.isSupported, ← hadd]
  cases b.addRule r.selector r.declaration r.pseudo <;> simp

/-- **A refusal changes nothing.** -/
theorem addInPlace_of_refused (h : (b.addInPlace r).1 = false) : (b.addInPlace r).2 = b := by
  rw [addInPlace_eq_addRule] at h ⊢
  cases hadd : b.addRule r.selector r.declaration r.pseudo with
  | some b' =>
    rw [hadd] at h
    cases h
  | none => rfl

end Nfa

/-! ### Lists of rules -/

/-- The rules whose selectors are not understood. -/
def refused (rules : List Rule) : List Rule :=
  rules.filter (!·.selector.isSupported)

namespace Compilation

variable {c : Compilation} {rule : Rule}

/-- Compiles one more rule in place. -/
def addInPlace (c : Compilation) (rule : Rule) : Compilation :=
  match c.builder.addInPlace ⟨rule.selector, c.declarations.length, rule.isPseudo⟩ with
  | (true, builder) => { c with builder, declarations := c.declarations ++ [rule.declaration] }
  | (false, builder) => { c with builder, skipped := c.skipped ++ [rule.selector] }

theorem addInPlace_eq_add (c : Compilation) (rule : Rule) : c.addInPlace rule = c.add rule := by
  rw [addInPlace, add, Nfa.addInPlace_eq_addRule]
  cases c.builder.addRule rule.selector c.declarations.length rule.isPseudo <;> rfl

theorem settled_add (hc : Nfa.Settled c.builder) : Nfa.Settled (c.add rule).builder := by
  rw [add]
  split
  · next b hb => exact Nfa.settled_addRule hc hb
  · exact hc

/-- **Compiling in place** comes to the same as compiling. -/
theorem foldl_addInPlace (rules : List Rule) (c : Compilation) :
    rules.foldl addInPlace c = rules.foldl add c := by
  induction rules generalizing c with
  | nil => rfl
  | cons rule rules ih => rw [List.foldl_cons, List.foldl_cons, addInPlace_eq_add, ih]

/-- **Compiling a list of rules** is compiling those that are understood, and listing the
selectors of the others. -/
theorem foldl_add (hc : Nfa.Settled c.builder) (rules : List Rule) (skipped : List Selector) :
    rules.foldl add { c with skipped } =
      { (understood rules).foldl add c with
        skipped := skipped ++ (refused rules).map (·.selector) } := by
  induction rules generalizing c skipped with
  | nil => simp [understood, refused]
  | cons rule rules ih =>
    have hadd : (c.builder.addRule rule.selector c.declarations.length rule.isPseudo).isSome ↔
        rule.selector.isSupported := Nfa.isSome_addRule hc
    rw [List.foldl_cons]
    by_cases hsupported : rule.selector.isSupported
    · have hunderstood : understood (rule :: rules) = rule :: understood rules :=
        List.filter_cons_of_pos hsupported
      have hrefused : refused (rule :: rules) = refused rules :=
        List.filter_cons_of_neg (by simp [hsupported])
      have hstep : ({ c with skipped } : Compilation).add rule = { c.add rule with skipped } := by
        obtain ⟨b, hb⟩ := Option.isSome_iff_exists.1 (hadd.2 hsupported)
        simp only [add, hb]
      rw [hstep, ih (settled_add hc), hunderstood, hrefused, List.foldl_cons]
    · have hunderstood : understood (rule :: rules) = understood rules :=
        List.filter_cons_of_neg hsupported
      have hrefused : refused (rule :: rules) = rule :: refused rules :=
        List.filter_cons_of_pos (by simp [hsupported])
      have hstep : ({ c with skipped } : Compilation).add rule =
          { c with skipped := skipped ++ [rule.selector] } := by
        have hnone := Option.not_isSome_iff_eq_none.1 fun h => hsupported (hadd.1 h)
        simp only [add, hnone]
      rw [hstep, ih hc, hunderstood, hrefused, List.map_cons, List.append_assoc,
        List.singleton_append]

end Compilation

/-- **A refused rule leaves no trace.** Whatever label tables a builder starts with and whatever
rules it has been asked to add, it refuses the next one exactly if its selector is not understood,
and is then the builder that it was before: no label, no condition, no state and no exit is left of
the attempt. So every list of rules compiles to the automata of the rules that are understood, with
the same states, labels and numbers; the others are listed as left out, and each rule is counted on
one side. -/
theorem compile_eq_compile_understood (labels : Labels) (requests : List Nfa.Builder.Request)
    (r : Nfa.Builder.Request) (rules : List Rule) :
    let b := Nfa.Builder.serve { labels } requests
    let skipped := (refused rules).map (·.selector)
    ((b.addInPlace r).1 = false ↔ r.selector.isSupported = false) ∧
      ((b.addInPlace r).1 = false → (b.addInPlace r).2 = b) ∧
      rules.foldl Compilation.addInPlace {} = rules.foldl Compilation.add {} ∧
      Automaton.compileNfa rules = { Automaton.compileNfa (understood rules) with skipped } ∧
      Automaton.compile rules = { Automaton.compile (understood rules) with skipped } ∧
      (Automaton.compileNfa rules).skippedCount = (refused rules).length ∧
      (Automaton.compile rules).skippedCount = (refused rules).length ∧
      (Automaton.compileNfa rules).ruleCount = (understood rules).length ∧
      (Automaton.compile rules).ruleCount = (understood rules).length := by
  intro b skipped
  have hb : Nfa.Settled b := Nfa.settled_serve (Nfa.settled_empty labels) requests
  have hfoldl : rules.foldl Compilation.add {} =
      { (understood rules).foldl Compilation.add {} with skipped := [] ++ skipped } :=
    Compilation.foldl_add (c := {}) (Nfa.settled_empty {}) rules []
  have hnfa : Automaton.compileNfa rules =
      { Automaton.compileNfa (understood rules) with skipped } := by
    rw [Automaton.compileNfa, hfoldl]
    rfl
  have hdfa : Automaton.compile rules =
      { Automaton.compile (understood rules) with skipped } := by
    rw [Automaton.compile, hnfa]
    rfl
  have hskipped : (Automaton.compileNfa rules).skippedCount = (refused rules).length := by
    rw [Automaton.skippedCount, hnfa, List.length_map]
  have hcount : (Automaton.compileNfa rules).ruleCount = (understood rules).length := by
    rw [Automaton.ruleCount, Automaton.compileNfa, (accepts_foldl_add rules).2, List.length_map]
  exact ⟨Nfa.addInPlace_eq_false_iff hb, Nfa.addInPlace_of_refused,
    Compilation.foldl_addInPlace rules {}, hnfa, hdfa, hskipped, hskipped, hcount, hcount⟩

/-- A selector of which only the last part is not understood, after a rule that is. One label is
in the table from the start. -/
theorem compile_eq_compile_understood_deep :
    let note : Selector := .filtered (.ofName "p") (.className "note")
    let labels : Labels := { names := [anyLabel] }
    let b := Nfa.Builder.serve { labels } [⟨note, 0, false⟩]
    let r : Nfa.Builder.Request :=
      ⟨.combined .descendant note (.filtered (.ofName "q") (.unsupported ":hover")), 1, false⟩
    (b.addInPlace r).1 = false ∧ (b.addInPlace r).2 = b ∧ b.size = 5 := by
  intro note labels b r
  have h : (b.addInPlace r).1 = false := by decide
  exact ⟨h, (compile_eq_compile_understood labels [⟨note, 0, false⟩] r []).2.1 h, by decide⟩

end StyleStream
