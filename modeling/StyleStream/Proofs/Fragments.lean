/-
  What the fragment of a selector reads.

  A fragment spells its selector if its exit is live at exactly those elements that
  the selector matches, starting from the elements that its entry is ahead of
  (`Spells`). Each step of the construction keeps this: reading a name, adding a
  condition, and joining two fragments by a bridge. The automaton that is looked at
  is always the finished one. What the steps need to know of it is that nobody else
  leads into their states, which is what `Keeps` says; of the builder that made the
  fragment it asks nothing but that its labels still have their numbers.
-/
import StyleStream.Proofs.Flow
import StyleStream.Proofs.Matching

namespace StyleStream

namespace Nfa

open Builder

/-! ### Fragments in a larger automaton -/

/-- `f` keeps what was made on the way from `b` to `b'`: in particular an edge into
one of the states made there, the given entries apart, was made there as well. -/
structure Keeps (f b b' : Builder) (entries : List StateId) : Prop where
  size_le : b'.size ≤ f.size
  links_subset : b'.links ⊆ f.links
  names : b'.labels.names <+: f.labels.names
  conditions : b'.labels.conditions <+: f.labels.conditions
  /-- No other edge leads into the new states. -/
  only : ∀ l ∈ f.links, b.size ≤ l.edge.target → l.edge.target < b'.size →
    l.edge.target ∉ entries → l ∈ b'.links

namespace Keeps

variable {f b b₁ b₂ b' : Builder} {entries entries' : List StateId} {l : Link}

/-- A part of what is kept is kept, if the states of the part that it leaves open are
open in the part. -/
theorem part (h : Keeps f b b' entries) (hle : b.size ≤ b₁.size) (hextends : b₂.Extends b')
    (hentries : ∀ entry ∈ entries, b₁.size ≤ entry → entry < b₂.size → entry ∈ entries') :
    Keeps f b₁ b₂ entries' where
  size_le := Nat.le_trans hextends.size_le h.size_le
  links_subset := List.Subset.trans hextends.links_subset h.links_subset
  names := hextends.names.trans h.names
  conditions := hextends.conditions.trans h.conditions
  only l hl hge hlt hentry := by
    have hl' : l ∈ b'.links :=
      h.only l hl (Nat.le_trans hle hge) (Nat.lt_of_lt_of_le hlt hextends.size_le)
        fun hmem => hentry (hentries _ hmem hge hlt)
    -- What was made later leads to later states.
    rcases hextends.new_link l hl' with hl' | ⟨-, hge', -⟩
    · exact hl'
    · exact absurd hlt (Nat.not_lt_of_le hge')

/-- What is kept is kept without its last edge, if the state that it leads to is open. -/
theorem unlink {source target : StateId} {event : Event}
    (h : Keeps f b (b'.link source event target) entries)
    (hentries : entries ⊆ entries') (htarget : target ∈ entries') : Keeps f b b' entries' where
  size_le := h.size_le
  links_subset := List.Subset.trans (List.subset_append_left _ _) h.links_subset
  names := h.names
  conditions := h.conditions
  only l hl hge hlt hentry := by
    rcases List.mem_append.1 (h.only l hl hge hlt fun hmem => hentry (hentries hmem)) with hl | hl
    · exact hl
    · rw [List.mem_singleton.1 hl] at hentry
      exact absurd htarget hentry

/-- An edge into a new state is one of the edges that were added. -/
theorem mem_new {new : List Link} (h : Keeps f b b' entries) (hb : b.WellFormed)
    (hlinks : b'.links = b.links ++ new) (hl : l ∈ f.links) (hge : b.size ≤ l.edge.target)
    (hlt : l.edge.target < b'.size) (hentry : l.edge.target ∉ entries) : l ∈ new := by
  have hmem := h.only l hl hge hlt hentry
  rw [hlinks, List.mem_append] at hmem
  rcases hmem with hmem | hmem
  · exact absurd (hb.target_lt l hmem) (Nat.not_lt_of_le hge)
  · exact hmem

/-- An edge that alone leads to a new state still does so in the end. -/
theorem sole {new : List Link} (h : Keeps f b b' entries) (hb : b.WellFormed)
    (hlinks : b'.links = b.links ++ new) (hl : l ∈ new) (hge : b.size ≤ l.edge.target)
    (hlt : l.edge.target < b'.size) (hentry : l.edge.target ∉ entries)
    (honly : ∀ l' ∈ new, l'.edge.target = l.edge.target → l' = l) : Sole f.links l where
  mem := h.links_subset (hlinks ▸ List.mem_append_right _ hl)
  only l' hl' htarget := by
    refine honly l' (h.mem_new hb hlinks hl' ?_ ?_ ?_) htarget
    · rw [htarget]
      exact hge
    · rw [htarget]
      exact hlt
    · rw [htarget]
      exact hentry

end Keeps

/-! ### Spelling -/

/-- The fragment reads the selector: behind an element that its entry is ahead of, its
exit is live where the selector matches from there. -/
structure Spells (config : Config) (ahead live : Place → StateId → Prop) (part : Fragment)
    (s : Selector) : Prop where
  live_exit : ∀ p, live p part.exit ↔ ∃ first, ahead first part.entry ∧ s.Spans config first p
  /-- The exit is ahead of the children of an element at which it is live, and of no others. -/
  ahead_exit : ∀ p, ahead p part.exit ↔
    ∃ parent, p.parent? = some parent ∧ live parent part.exit

section Steps

variable {config : Config} {ahead live : Place → StateId → Prop} {f b b' : Builder} {p : Place}
  {part : Fragment} {label : String} {condition : Condition} {inner s : Selector}

/-- **A name** is read from the entry to the exit of its fragment. -/
theorem spells_name (flow : Flow config f.labels f.links ahead live) (hb : b.WellFormed)
    (h : Keeps f b (b.name label).2 [(b.name label).1.entry])
    (hspans : ∀ first last, s.Spans config first last ↔
      first = last ∧ label ∈ last.element.labels) :
    Spells config ahead live (b.name label).1 s := by
  have hsole : Sole f.links ⟨b.size, (b.internName label).reads label, b.size + 1⟩ := by
    refine h.sole hb rfl (List.mem_singleton_self _) (Nat.le_succ _) (Nat.lt_succ_self _)
      (fun hmem => ?_) fun l hl _ => List.mem_singleton.1 hl
    exact Nat.succ_ne_self _ (List.mem_singleton.1 hmem)
  have hlabel : label ∈ (b.internName label).labels.names := mem_intern.2 (Or.inr rfl)
  have hstart : b.size + 1 ≠ start := Nat.succ_ne_zero _
  constructor
  · intro p
    have hlive : live p (b.size + 1) ↔ ahead p b.size ∧ label ∈ p.element.labels := by
      rw [← Labels.fires_idxOf h.names hlabel]
      exact flow.live_name hsole
    constructor
    · intro hexit
      obtain ⟨hentry, hmem⟩ := hlive.1 hexit
      exact ⟨p, hentry, (hspans p p).2 ⟨rfl, hmem⟩⟩
    · rintro ⟨first, hentry, hfirst⟩
      obtain ⟨rfl, hmem⟩ := (hspans first p).1 hfirst
      exact hlive.2 ⟨hentry, hmem⟩
  · intro p
    exact flow.ahead_of_sole hsole hstart (by simp [reads]) (by simp [reads])

/-- **A condition** is asked between the exit of a fragment and the exit of the
filtered one. -/
theorem spells_filter (flow : Flow config f.labels f.links ahead live) (hb : b.WellFormed)
    (hpart : Part b b' part)
    (h : Keeps f b (b'.filter part condition).2 [(b'.filter part condition).1.entry])
    (hinner : Spells config ahead live part inner) :
    Spells config ahead live (b'.filter part condition).1 (.filtered inner condition) := by
  have hb' := hpart.extends_.wellFormed hb
  have hentry : ∀ entry ∈ [part.entry], b'.size ≤ entry → entry < b'.size + 1 →
      entry ∈ ([] : List StateId) := by
    intro entry hmem hge
    rw [List.mem_singleton.1 hmem] at hge
    exact absurd hpart.entry_lt (Nat.not_lt_of_le hge)
  have hsole : Sole f.links
      ⟨part.exit, .guard ((b'.internCondition condition).labels.conditions.idxOf condition),
        b'.size⟩ :=
    (h.part hpart.extends_.size_le (.refl _) hentry).sole hb' rfl (List.mem_singleton_self _)
      (Nat.le_refl _) (Nat.lt_succ_self _) List.not_mem_nil fun l hl _ => List.mem_singleton.1 hl
  have hcondition : condition ∈ (b'.internCondition condition).labels.conditions :=
    mem_intern.2 (Or.inr rfl)
  have hstart : b'.size ≠ start := Nat.ne_of_gt hb'.start_lt
  constructor
  · intro p
    have hlive : live p b'.size ↔
        (∃ first, ahead first part.entry ∧ inner.Spans config first p) ∧
          (p.context config).holds condition := by
      rw [← hinner.live_exit, ← Labels.passes_idxOf h.conditions hcondition]
      exact flow.live_guard hsole
    constructor
    · intro hexit
      obtain ⟨⟨first, hfirst, hspans⟩, hholds⟩ := hlive.1 hexit
      exact ⟨first, hfirst, hspans, hholds⟩
    · rintro ⟨first, hfirst, hspans, hholds⟩
      exact hlive.2 ⟨⟨first, hfirst, hspans⟩, hholds⟩
  · intro p
    exact flow.ahead_of_sole hsole hstart (by simp) (by simp)

end Steps

/-! ### Bridges -/

section Bridges

variable {config : Config} {ahead live : Place → StateId → Prop} {f b : Builder} {p : Place}
  {exit : StateId}

/-- **A sibling bridge** leads to the sibling just after. -/
theorem ahead_bridge_adjacent (flow : Flow config f.labels f.links ahead live)
    (hb : b.WellFormed) (h : Keeps f b (b.bridge exit .adjacent).2 []) :
    ahead p (b.bridge exit .adjacent).1 ↔
      ∃ outer, p.previous? = some outer ∧ live outer exit := by
  have hlinks : (b.bridge exit .adjacent).2.links = b.links ++
      [⟨exit, .epsilon, b.size⟩, ⟨b.size, .consume .sibling, b.size + 1⟩] := by
    simp [bridge, link, grow]
  have hsize : (b.bridge exit .adjacent).2.size = b.size + 2 := rfl
  have hsilent : Sole f.links ⟨exit, .epsilon, b.size⟩ := by
    refine h.sole hb hlinks (by simp) (Nat.le_refl _) ?_ List.not_mem_nil ?_
    · rw [hsize]
      exact Nat.lt_add_of_pos_right (by decide)
    · simp
  have hsibling : Sole f.links ⟨b.size, .consume .sibling, b.size + 1⟩ := by
    refine h.sole hb hlinks (by simp) (Nat.le_succ _) ?_ List.not_mem_nil ?_
    · rw [hsize]
      exact Nat.lt_succ_self _
    · simp
  have hstart : b.size + 1 ≠ start := Nat.succ_ne_zero _
  show ahead p (b.size + 1) ↔ _
  rw [flow.ahead_sibling hsibling hstart]
  simp only [flow.live_epsilon hsilent]

/-- The edges between an ancestor and its descendant make a loop. -/
theorem loop_bridge_descendant (hb : b.WellFormed)
    (h : Keeps f b (b.bridge exit .descendant).2 []) :
    Loop f.labels f.links exit b.size (b.size + 1) (b.size + 2)
      ((b.internName anyLabel).labels.names.idxOf anyLabel) ∧
    Sole f.links ⟨b.size, .epsilon, b.size + 3⟩ := by
  have hlinks : (b.bridge exit .descendant).2.links = b.links ++
      [⟨exit, .epsilon, b.size⟩, ⟨b.size, .epsilon, b.size + 1⟩, ⟨b.size, .epsilon, b.size + 3⟩,
        ⟨b.size + 1, (b.internName anyLabel).reads anyLabel, b.size + 2⟩,
        ⟨b.size + 2, .epsilon, b.size⟩] := by
    simp [bridge, link, grow, internName, reads]
  have hnew : ∀ i < 4, b.size + i < (b.bridge exit .descendant).2.size :=
    fun i hi => Nat.add_lt_add_left hi _
  have hge : ∀ i, b.size ≤ b.size + i := fun i => Nat.le_add_right _ _
  refine ⟨⟨fun l => ?_, ?_, ?_, fun p => ?_, ?_⟩, ?_⟩
  · -- Of the five new edges two lead to the entry.
    constructor
    · rintro ⟨hl, htarget⟩
      have hmem := h.mem_new hb hlinks hl (Nat.le_of_eq htarget.symm)
        (htarget ▸ hnew 0 (by decide)) List.not_mem_nil
      simp only [List.mem_cons, List.not_mem_nil, or_false] at hmem
      rcases hmem with rfl | rfl | rfl | rfl | rfl
      · exact Or.inl rfl
      · exact absurd htarget (Nat.succ_ne_self _)
      · exact absurd htarget (Nat.ne_of_gt (Nat.lt_add_of_pos_right (by decide)))
      · exact absurd htarget (Nat.ne_of_gt (Nat.lt_add_of_pos_right (by decide)))
      · exact Or.inr rfl
    · rintro (rfl | rfl)
      · exact ⟨h.links_subset (by simp [hlinks]), rfl⟩
      · exact ⟨h.links_subset (by simp [hlinks]), rfl⟩
  · exact h.sole hb hlinks (by simp) (hge 1) (hnew 1 (by decide)) List.not_mem_nil (by simp)
  · exact h.sole hb hlinks (by simp [reads]) (hge 2) (hnew 2 (by decide)) List.not_mem_nil
      (by simp [reads])
  · refine (Labels.fires_idxOf h.names (mem_intern.2 (Or.inr rfl))).2 ?_
    simp [Element.labels, elementLabels]
  · have hpos : 0 < b.size := hb.start_lt
    simp [start, Nat.ne_of_lt hpos]
  · exact h.sole hb hlinks (by simp) (hge 3) (hnew 3 (by decide)) List.not_mem_nil (by simp)

/-- **A bridge** leads to the elements that stand to those at its beginning as the
combinator says. -/
theorem ahead_bridge (flow : Flow config f.labels f.links ahead live) (hb : b.WellFormed)
    {combinator : Combinator} (h : Keeps f b (b.bridge exit combinator).2 [])
    (hexit : ∀ p, ahead p exit ↔ ∃ parent, p.parent? = some parent ∧ live parent exit) :
    ahead p (b.bridge exit combinator).1 ↔
      ∃ outer ∈ combinator.partners p, live outer exit := by
  cases combinator with
  | child =>
    show ahead p exit ↔ _
    rw [hexit]
    simp [Combinator.partners]
  | descendant =>
    obtain ⟨hloop, hlast⟩ := loop_bridge_descendant hb h
    have hstart : b.size + 3 ≠ start := Nat.succ_ne_zero _
    show ahead p (b.size + 3) ↔ _
    rw [flow.ahead_epsilon hlast hstart]
    exact flow.ahead_entry_iff_exists_ancestor hloop hexit
  | adjacent =>
    rw [ahead_bridge_adjacent flow hb h]
    simp [Combinator.partners]

end Bridges

/-! ### Combinators -/

section Combined

variable {f b b₁ b₂ b₃ : Builder} {head tail : Fragment} {place : StateId}
  (hhead : Part b b₁ head) (hbridge : b₁.Extends b₂) (htail : Part b₂ b₃ tail)
  (h : Keeps f b (b₃.link place .epsilon tail.entry) [head.entry])
include h

/-- Before the two sides are joined, the entries of both are open. -/
theorem keeps_unjoined : Keeps f b b₃ [head.entry, tail.entry] :=
  h.unlink (fun _ hmem => List.mem_singleton.1 hmem ▸ List.mem_cons_self)
    (List.mem_cons_of_mem _ (List.mem_singleton_self _))

include hbridge htail in
theorem keeps_head : Keeps f b b₁ [head.entry] := by
  refine (keeps_unjoined h).part (Nat.le_refl _)
    (hbridge.trans htail.extends_) fun entry hmem _ hlt => ?_
  simp only [List.mem_cons, List.not_mem_nil, or_false] at hmem
  rcases hmem with rfl | rfl
  · exact List.mem_singleton_self _
  · have hge := Nat.le_trans hbridge.size_le htail.entry_ge
    exact absurd hlt (Nat.not_lt_of_le hge)

include hhead htail in
theorem keeps_bridge : Keeps f b₁ b₂ [] := by
  refine (keeps_unjoined h).part hhead.extends_.size_le htail.extends_
    fun entry hmem hge hlt => ?_
  simp only [List.mem_cons, List.not_mem_nil, or_false] at hmem
  rcases hmem with rfl | rfl
  · exact absurd hhead.entry_lt (Nat.not_lt_of_le hge)
  · exact absurd hlt (Nat.not_lt_of_le htail.entry_ge)

include hhead hbridge in
theorem keeps_tail : Keeps f b₂ b₃ [tail.entry] := by
  refine (keeps_unjoined h).part
    (Nat.le_trans hhead.extends_.size_le hbridge.size_le) (.refl _) fun entry hmem hge _ => ?_
  simp only [List.mem_cons, List.not_mem_nil, or_false] at hmem
  rcases hmem with rfl | rfl
  · have hlt := Nat.lt_of_lt_of_le hhead.entry_lt hbridge.size_le
    exact absurd hlt (Nat.not_lt_of_le hge)
  · exact List.mem_singleton_self _

include hhead hbridge htail in
/-- The right side is entered from the end of the bridge alone. -/
theorem sole_joint : Sole f.links ⟨place, .epsilon, tail.entry⟩ where
  mem := h.links_subset (List.mem_append_right _ (List.mem_singleton_self _))
  only l hl htarget := by
    have hbase := Nat.le_trans hhead.extends_.size_le hbridge.size_le
    have hne : tail.entry ≠ head.entry :=
      Nat.ne_of_gt (Nat.lt_of_lt_of_le (Nat.lt_of_lt_of_le hhead.entry_lt hbridge.size_le)
        htail.entry_ge)
    have hmem := h.only l hl (htarget ▸ Nat.le_trans hbase htail.entry_ge)
      (htarget ▸ htail.entry_lt) (htarget ▸ fun hmem => hne (List.mem_singleton.1 hmem))
    rcases List.mem_append.1 hmem with hmem | hmem
    · exact absurd htarget (htail.entry_fresh l hmem)
    · exact List.mem_singleton.1 hmem

end Combined

/-- **The fragment of a selector reads the selector**, in every automaton that keeps it. -/
theorem spells_fragment {config : Config} {ahead live : Place → StateId → Prop} {f b b' : Builder}
    {s : Selector} {part : Fragment} (flow : Flow config f.labels f.links ahead live)
    (hb : b.WellFormed) (hs : b.fragment s = some (part, b')) (h : Keeps f b b' [part.entry]) :
    Spells config ahead live part s := by
  induction s generalizing b part b' with
  | element test =>
    obtain ⟨rfl, rfl⟩ := Prod.mk.inj (Option.some.inj hs)
    exact spells_name flow hb h fun first last => Iff.rfl
  | filtered inner condition ih =>
    obtain ⟨part₁, b₁, hinner, hfilter⟩ := fragment_filtered.1 hs
    obtain ⟨rfl, rfl⟩ := Prod.mk.inj hfilter
    have hpart := part_fragment hb hinner
    have hkeeps : Keeps f b b₁ [part₁.entry] :=
      h.part (Nat.le_refl _) (extends_filter hpart.exit_lt condition) fun _ hmem _ _ => hmem
    exact spells_filter flow hb hpart h (ih hb hinner hkeeps)
  | combined combinator left right ihl ihr =>
    by_cases hpseudo : right.isPseudo
    · -- A pseudo-element is never read, so the fragment is that of the left side.
      rw [fragment_combined_pseudo hpseudo] at hs
      have hleft := ihl hb hs h
      refine ⟨fun p => ?_, hleft.ahead_exit⟩
      rw [hleft.live_exit]
      simp only [Selector.Spans, if_pos hpseudo]
    · obtain ⟨head, b₁, tail, b₃, hleft, hright, rfl, rfl⟩ := (fragment_combined hpseudo).1 hs
      have hhead := part_fragment hb hleft
      have hb₁ := hhead.extends_.wellFormed hb
      obtain ⟨hbridge, -⟩ := extends_bridge hhead.exit_lt combinator
      have hb₂ := hbridge.wellFormed hb₁
      have htail := part_fragment hb₂ hright
      -- Each side reads its selector by itself; the bridge moves on from one element to another.
      have hspells := ihl hb hleft (keeps_head hbridge htail h)
      have hspells' := ihr hb₂ hright (keeps_tail hhead hbridge h)
      have hjoint := sole_joint hhead hbridge htail h
      have hstart : tail.entry ≠ start :=
        Nat.ne_of_gt (Nat.lt_of_lt_of_le hb₂.start_lt htail.entry_ge)
      refine ⟨fun p => ?_, hspells'.ahead_exit⟩
      have hplace := fun q => (flow.ahead_epsilon (p := q) hjoint hstart).trans
        (ahead_bridge flow hb₁ (keeps_bridge hhead htail h) hspells.ahead_exit)
      rw [hspells'.live_exit]
      simp only [hplace, hspells.live_exit, Selector.Spans, if_neg hpseudo]
      grind
  | pseudo p =>
    obtain ⟨rfl, rfl⟩ := Prod.mk.inj (Option.some.inj hs)
    refine spells_name flow hb h fun first last => ?_
    have hany : anyLabel ∈ last.element.labels := by simp [Element.labels, elementLabels]
    exact (and_iff_left hany).symm
  | unsupported text => cases hs

end Nfa

end StyleStream
