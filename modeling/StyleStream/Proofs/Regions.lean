/-
  How the fragments lie in an automaton.

  A builder numbers states in the order in which they are made, and makes one fragment at a
  time, so the states of a fragment have consecutive numbers: they are a `Region`. A `Layout`
  says that the regions divide up all states but the start and the accepting state, and that an
  edge stays inside a region, or leads from the start to the entry of one, or from the exit of one
  to the accepting state. That is kept when a fragment is added (`layout_attach`), because the
  edges of a fragment leave its own states (`source_ge_of_mem_links`): nothing is added to the
  fragments before it. So no path leads from one fragment into another (`Shape`).

  A request that is granted has its number accepted at the exit of its own selector, whether others
  have the same number or not (`Placement`).
-/
import Mathlib.Logic.Relation
import Mathlib.Data.List.Forall2
import StyleStream.Proofs.Determinization

namespace StyleStream

namespace Nfa

open Builder

/-! ### Edges of a fragment -/

section Sources

variable {b b' : Builder} {s : Selector} {part : Fragment} {exit : StateId}

/-- A bridge is made of edges that leave the state it starts from, or states of its own. -/
theorem source_bridge (b : Builder) (exit : StateId) (op : Combinator) :
    ((b.bridge exit op).1 = exit ∨ b.size ≤ (b.bridge exit op).1) ∧
      ∀ l ∈ (b.bridge exit op).2.links, l ∈ b.links ∨ l.source = exit ∨ b.size ≤ l.source := by
  cases op with
  | child => exact ⟨Or.inl rfl, fun l hl => Or.inl hl⟩
  | descendant =>
    refine ⟨Or.inr (Nat.le_add_right _ 3), fun l hl => ?_⟩
    simp only [bridge, link, grow, Builder.internName, List.mem_append, List.mem_singleton] at hl
    rcases hl with ((((hl | rfl) | rfl) | rfl) | rfl) | rfl
    · exact Or.inl hl
    · exact Or.inr (Or.inl rfl)
    all_goals exact Or.inr (Or.inr (by simp))
  | adjacent =>
    refine ⟨Or.inr (Nat.le_add_right _ 1), fun l hl => ?_⟩
    simp only [bridge, link, grow, List.mem_append, List.mem_singleton] at hl
    rcases hl with (hl | rfl) | rfl
    · exact Or.inl hl
    · exact Or.inr (Or.inl rfl)
    · exact Or.inr (Or.inr (Nat.le_refl _))

/-- **A fragment adds no edge to what was there before.** -/
theorem source_ge_of_mem_links (hb : b.WellFormed) (hs : b.fragment s = some (part, b'))
    {l : Link} (hl : l ∈ b'.links) : l ∈ b.links ∨ b.size ≤ l.source := by
  induction s generalizing b part b' with
  | element test =>
    obtain ⟨rfl, rfl⟩ := Prod.mk.inj (Option.some.inj hs)
    rcases List.mem_append.1 hl with hl | hl
    · exact Or.inl hl
    · exact Or.inr (List.mem_singleton.1 hl ▸ Nat.le_refl _)
  | filtered inner condition ih =>
    obtain ⟨part₁, b₁, hinner, hfilter⟩ := fragment_filtered.1 hs
    obtain ⟨rfl, rfl⟩ := Prod.mk.inj hfilter
    rcases List.mem_append.1 hl with hl | hl
    · exact ih hb hinner hl
    · exact Or.inr (List.mem_singleton.1 hl ▸ (part_fragment hb hinner).exit_ge)
  | combined op left right ihl ihr =>
    by_cases hpseudo : right.isPseudo
    · exact ihl hb (fragment_combined_pseudo hpseudo ▸ hs) hl
    · obtain ⟨head, b₁, tail, b₃, hleft, hright, rfl, rfl⟩ := (fragment_combined hpseudo).1 hs
      have hhead := part_fragment hb hleft
      have hb₁ := hhead.extends_.wellFormed hb
      have hsize := hhead.extends_.size_le
      have hexit := hhead.exit_ge
      obtain ⟨hbridge, -⟩ := extends_bridge hhead.exit_lt op
      have hsize₂ := hbridge.size_le
      obtain ⟨hplace, hlinks⟩ := source_bridge b₁ head.exit op
      rcases List.mem_append.1 hl with hl | hl
      · rcases ihr (hbridge.wellFormed hb₁) hright hl with hl | hge
        · rcases hlinks l hl with hl | hl | hl
          · exact ihl hb hleft hl
          · exact Or.inr (hl ▸ hexit)
          · exact Or.inr (Nat.le_trans hsize hl)
        · exact Or.inr (Nat.le_trans (Nat.le_trans hsize hsize₂) hge)
      · -- The edge into the right side leaves the place that the bridge leads to.
        rw [List.mem_singleton.1 hl]
        rcases hplace with hplace | hplace
        · exact Or.inr (Nat.le_trans hexit (Nat.le_of_eq hplace.symm))
        · exact Or.inr (Nat.le_trans hsize hplace)
  | pseudo p =>
    obtain ⟨rfl, rfl⟩ := Prod.mk.inj (Option.some.inj hs)
    rcases List.mem_append.1 hl with hl | hl
    · exact Or.inl hl
    · exact Or.inr (List.mem_singleton.1 hl ▸ Nat.le_refl _)
  | unsupported text => cases hs

end Sources

/-! ### Regions -/

/-- The place of a fragment in an automaton. -/
structure Region where
  selector : Selector
  part : Fragment
  /-- The number of the first state of the fragment. -/
  first : StateId
  /-- The number after that of the last state. -/
  last : StateId

/-- The state belongs to the fragment. -/
def Region.Contains (r : Region) (q : StateId) : Prop :=
  r.first ≤ q ∧ q < r.last

/-- Both ends of the edge belong to the fragment. -/
def Region.Surrounds (r : Region) (l : Link) : Prop :=
  r.Contains l.source ∧ r.Contains l.edge.target

/-- The regions divide up an automaton of a certain size with certain edges. -/
structure Layout (size : Nat) (edge : Link → Prop) (regions : List Region) : Prop where
  two_le : 2 ≤ size
  /-- No selector has two regions. -/
  nodup : (regions.map (·.selector)).Nodup
  /-- A region is what the construction makes for its selector, with the same edges. -/
  made : ∀ r ∈ regions, ∃ before after : Builder,
    before.fragment r.selector = some (r.part, after) ∧ before.size = r.first ∧
      after.size = r.last ∧ ∀ l, edge l ∧ r.Surrounds l ↔ l ∈ after.links ∧ l ∉ before.links
  two_le_first : ∀ r ∈ regions, 2 ≤ r.first
  last_le : ∀ r ∈ regions, r.last ≤ size
  contains_entry : ∀ r ∈ regions, r.Contains r.part.entry
  contains_exit : ∀ r ∈ regions, r.Contains r.part.exit
  /-- Every state but the start and the accepting state is in a region. -/
  cover : ∀ q < size, q = start ∨ q = accept ∨ ∃ r ∈ regions, r.Contains q
  /-- No state is in two. -/
  disjoint : ∀ r ∈ regions, ∀ r' ∈ regions, ∀ q, r.Contains q → r'.Contains q → r = r'
  entered : ∀ r ∈ regions, edge ⟨start, .epsilon, r.part.entry⟩
  left : ∀ r ∈ regions, edge ⟨r.part.exit, .epsilon, accept⟩
  /-- There are no other edges than these and those inside the regions. -/
  edge_cases : ∀ l, edge l → ∃ r ∈ regions, r.Surrounds l ∨
    l = ⟨start, .epsilon, r.part.entry⟩ ∨ l = ⟨r.part.exit, .epsilon, accept⟩

namespace Layout

variable {size : Nat} {edge : Link → Prop} {regions : List Region} {r r' : Region} {l : Link}
  {q q' : StateId}

theorem two_le_of_contains (h : Layout size edge regions) (hr : r ∈ regions)
    (hq : r.Contains q) : 2 ≤ q :=
  Nat.le_trans (h.two_le_first r hr) hq.1

theorem ne_start (h : Layout size edge regions) (hr : r ∈ regions) (hq : r.Contains q) :
    q ≠ start :=
  Nat.ne_of_gt (Nat.lt_of_lt_of_le Nat.two_pos (h.two_le_of_contains hr hq))

theorem ne_accept (h : Layout size edge regions) (hr : r ∈ regions) (hq : r.Contains q) :
    q ≠ accept :=
  Nat.ne_of_gt (Nat.lt_of_lt_of_le Nat.one_lt_two (h.two_le_of_contains hr hq))

theorem lt_size (h : Layout size edge regions) (hr : r ∈ regions) (hq : r.Contains q) :
    q < size :=
  Nat.lt_of_lt_of_le hq.2 (h.last_le r hr)

/-- **Edges join states that exist.** -/
theorem lt_of_edge (h : Layout size edge regions) (hl : edge l) :
    l.source < size ∧ l.edge.target < size := by
  obtain ⟨r, hr, hsurrounds | rfl | rfl⟩ := h.edge_cases l hl
  · exact ⟨h.lt_size hr hsurrounds.1, h.lt_size hr hsurrounds.2⟩
  · have hstart : start < size := Nat.lt_of_lt_of_le Nat.two_pos h.two_le
    exact ⟨hstart, h.lt_size hr (h.contains_entry r hr)⟩
  · have haccept : accept < size := Nat.lt_of_lt_of_le Nat.one_lt_two h.two_le
    exact ⟨h.lt_size hr (h.contains_exit r hr), haccept⟩

/-- **Nothing leads to the start**, and the edges that leave it are silent. -/
theorem start_of_edge (h : Layout size edge regions) (hl : edge l) :
    l.edge.target ≠ start ∧ (l.source = start → l.edge.event = .epsilon) := by
  obtain ⟨r, hr, hsurrounds | rfl | rfl⟩ := h.edge_cases l hl
  · exact ⟨h.ne_start hr hsurrounds.2, fun hsource => absurd hsource (h.ne_start hr hsurrounds.1)⟩
  · exact ⟨h.ne_start hr (h.contains_entry r hr), fun _ => rfl⟩
  · exact ⟨Nat.one_ne_zero, fun _ => rfl⟩

/-- **Nothing leaves the accepting state.** -/
theorem source_ne_accept (h : Layout size edge regions) (hl : edge l) : l.source ≠ accept := by
  obtain ⟨r, hr, hsurrounds | rfl | rfl⟩ := h.edge_cases l hl
  · exact h.ne_accept hr hsurrounds.1
  · exact Nat.zero_ne_one
  · exact h.ne_accept hr (h.contains_exit r hr)

/-- An edge out of a region stays in it, or leads to the accepting state. -/
theorem contains_or_accept_of_edge (h : Layout size edge regions) (hr : r ∈ regions) (hl : edge l)
    (hsource : r.Contains l.source) : r.Contains l.edge.target ∨ l.edge.target = accept := by
  obtain ⟨r', hr', hsurrounds | rfl | rfl⟩ := h.edge_cases l hl
  · rw [h.disjoint r hr r' hr' _ hsource hsurrounds.1]
    exact Or.inl hsurrounds.2
  · exact absurd rfl (h.ne_start hr hsource)
  · exact Or.inr rfl

/-- **No path leads from one fragment into another.** -/
theorem eq_of_path (h : Layout size edge regions) (hr : r ∈ regions) (hr' : r' ∈ regions)
    (hq : r.Contains q) (hq' : r'.Contains q')
    (hpath : Relation.ReflTransGen (fun q q' => ∃ event, edge ⟨q, event, q'⟩) q q') : r = r' := by
  have hinside : r.Contains q' ∨ q' = accept := by
    clear hq'
    induction hpath with
    | refl => exact Or.inl hq
    | tail _ hstep ih =>
      obtain ⟨event, hl⟩ := hstep
      rcases ih with hsource | hsource
      · exact h.contains_or_accept_of_edge hr hl hsource
      · exact absurd hsource (h.source_ne_accept hl)
  rcases hinside with hinside | haccept
  · exact h.disjoint r hr r' hr' q' hinside hq'
  · exact absurd haccept (h.ne_accept hr' hq')

/-- **Regions with one exit** are one region. -/
theorem eq_of_exit_eq (h : Layout size edge regions) (hr : r ∈ regions) (hr' : r' ∈ regions)
    (hexit : r.part.exit = r'.part.exit) : r = r' :=
  h.disjoint r hr r' hr' _ (h.contains_exit r hr) (hexit ▸ h.contains_exit r' hr')

end Layout

/-! ### Adding a fragment -/

section Attach

variable {b made : Builder} {s : Selector} {part : Fragment} {regions : List Region}

theorem layout_empty (labels : Labels) :
    Layout ({ labels } : Builder).size (· ∈ ({ labels } : Builder).links) [] where
  two_le := Nat.le_refl 2
  nodup := List.nodup_nil
  made _ h := absurd h List.not_mem_nil
  two_le_first _ h := absurd h List.not_mem_nil
  last_le _ h := absurd h List.not_mem_nil
  contains_entry _ h := absurd h List.not_mem_nil
  contains_exit _ h := absurd h List.not_mem_nil
  cover q hq := by
    have hq : q < 2 := hq
    show q = 0 ∨ q = 1 ∨ _
    omega
  disjoint _ h := absurd h List.not_mem_nil
  entered _ h := absurd h List.not_mem_nil
  left _ h := absurd h List.not_mem_nil
  edge_cases _ h := absurd h List.not_mem_nil

/-- The region of a fragment that has just been made. -/
def newRegion (b made : Builder) (s : Selector) (part : Fragment) : Region :=
  ⟨s, part, b.size, made.size⟩

/-- The edges made for a fragment are those inside its region. -/
theorem surrounds_newRegion_iff (hb : b.WellFormed) (hs : b.fragment s = some (part, made))
    (l : Link) : l ∈ (attach made s part).links ∧ (newRegion b made s part).Surrounds l ↔
      l ∈ made.links ∧ l ∉ b.links := by
  have hpart := part_fragment hb hs
  constructor
  · rintro ⟨hl, ⟨hsource, -⟩, htarget, -⟩
    have hold : l ∉ b.links := fun hold => absurd (hb.source_lt l hold) (Nat.not_lt_of_le hsource)
    rcases mem_links_attach.1 hl with hl | rfl | rfl
    · exact ⟨hl, hold⟩
    · exact absurd hb.start_lt (Nat.not_lt_of_le hsource)
    · exact absurd hb.accept_lt (Nat.not_lt_of_le htarget)
  · rintro ⟨hl, hold⟩
    refine ⟨mem_links_attach.2 (Or.inl hl), ?_⟩
    rcases source_ge_of_mem_links hb hs hl with h | hsource
    · exact absurd h hold
    · rcases hpart.extends_.new_link l hl with h | ⟨hlt, hge, hlt'⟩
      · exact absurd h hold
      · exact ⟨⟨hsource, hlt⟩, hge, hlt'⟩

/-- The edges inside an older region stay the same. -/
theorem surrounds_attach_iff (hb : b.WellFormed) (hs : b.fragment s = some (part, made))
    {r : Region} (hfirst : 2 ≤ r.first) (hlast : r.last ≤ b.size) (l : Link) :
    l ∈ (attach made s part).links ∧ r.Surrounds l ↔ l ∈ b.links ∧ r.Surrounds l := by
  have hpart := part_fragment hb hs
  refine and_congr_left fun hsurrounds => ?_
  obtain ⟨⟨hsource, hlt⟩, htarget, -⟩ := hsurrounds
  constructor
  · intro hl
    rcases mem_links_attach.1 hl with hl | rfl | rfl
    · rcases source_ge_of_mem_links hb hs hl with hl | hnew
      · exact hl
      · exact absurd (Nat.lt_of_lt_of_le hlt hlast) (Nat.not_lt_of_le hnew)
    · have hstart : 2 ≤ start := Nat.le_trans hfirst hsource
      exact absurd hstart (by decide)
    · have haccept : 2 ≤ accept := Nat.le_trans hfirst htarget
      exact absurd haccept (by decide)
  · intro hl
    exact mem_links_attach.2 (Or.inl (hpart.extends_.links_subset hl))

/-- **A new fragment** has a region of its own, and the other regions stay as they are. -/
theorem layout_attach (hb : b.WellFormed) (h : Layout b.size (· ∈ b.links) regions)
    (hs : b.fragment s = some (part, made)) (hnew : s ∉ regions.map (·.selector)) :
    Layout (attach made s part).size (· ∈ (attach made s part).links)
      (newRegion b made s part :: regions) := by
  have hpart := part_fragment hb hs
  have hsize := hpart.extends_.size_le
  have hold : ∀ {l}, l ∈ b.links → l ∈ (attach made s part).links := fun hl =>
    mem_links_attach.2 (Or.inl (hpart.extends_.links_subset hl))
  constructor
  case two_le => exact Nat.le_trans h.two_le hsize
  case nodup => exact List.nodup_cons.2 ⟨hnew, h.nodup⟩
  case made =>
    refine List.forall_mem_cons.2 ⟨?_, fun r hr => ?_⟩
    · exact ⟨b, made, hs, rfl, rfl, surrounds_newRegion_iff hb hs⟩
    · obtain ⟨before, after, hfragment, hfirst, hlast, hedges⟩ := h.made r hr
      refine ⟨before, after, hfragment, hfirst, hlast, fun l => ?_⟩
      exact (surrounds_attach_iff hb hs (h.two_le_first r hr) (h.last_le r hr) l).trans (hedges l)
  case two_le_first => exact List.forall_mem_cons.2 ⟨hb.two_le, h.two_le_first⟩
  case last_le =>
    exact List.forall_mem_cons.2 ⟨Nat.le_refl _, fun r hr => Nat.le_trans (h.last_le r hr) hsize⟩
  case contains_entry =>
    exact List.forall_mem_cons.2 ⟨⟨hpart.entry_ge, hpart.entry_lt⟩, h.contains_entry⟩
  case contains_exit =>
    exact List.forall_mem_cons.2 ⟨⟨hpart.exit_ge, hpart.exit_lt⟩, h.contains_exit⟩
  case cover =>
    intro q hq
    rcases Nat.lt_or_ge q b.size with hlt | hge
    · rcases h.cover q hlt with rfl | rfl | ⟨r, hr, hcontains⟩
      · exact Or.inl rfl
      · exact Or.inr (Or.inl rfl)
      · exact Or.inr (Or.inr ⟨r, List.mem_cons_of_mem _ hr, hcontains⟩)
    · exact Or.inr (Or.inr ⟨_, List.mem_cons_self, hge, hq⟩)
  case disjoint =>
    -- The states of the new region are newer than those of the others.
    have hapart : ∀ r ∈ regions, ∀ q, r.Contains q → ¬(newRegion b made s part).Contains q := by
      intro r hr q hq hq'
      exact absurd (Nat.lt_of_lt_of_le hq.2 (h.last_le r hr)) (Nat.not_lt_of_le hq'.1)
    intro r hr r' hr' q hq hq'
    rcases List.mem_cons.1 hr with rfl | hr
    · rcases List.mem_cons.1 hr' with rfl | hr'
      · rfl
      · exact absurd hq (hapart r' hr' q hq')
    · rcases List.mem_cons.1 hr' with rfl | hr'
      · exact absurd hq' (hapart r hr q hq)
      · exact h.disjoint r hr r' hr' q hq hq'
  case entered =>
    exact List.forall_mem_cons.2
      ⟨mem_links_attach.2 (Or.inr (Or.inl rfl)), fun r hr => hold (h.entered r hr)⟩
  case left =>
    exact List.forall_mem_cons.2
      ⟨mem_links_attach.2 (Or.inr (Or.inr rfl)), fun r hr => hold (h.left r hr)⟩
  case edge_cases =>
    intro l hl
    rcases mem_links_attach.1 hl with hmade | rfl | rfl
    · by_cases hmem : l ∈ b.links
      · obtain ⟨r, hr, hcases⟩ := h.edge_cases l hmem
        exact ⟨r, List.mem_cons_of_mem _ hr, hcases⟩
      · exact ⟨_, List.mem_cons_self,
          Or.inl ((surrounds_newRegion_iff hb hs l).2 ⟨hmade, hmem⟩).2⟩
    · exact ⟨_, List.mem_cons_self, Or.inr (Or.inl rfl)⟩
    · exact ⟨_, List.mem_cons_self, Or.inr (Or.inr rfl)⟩

end Attach

/-! ### Exits -/

/-- The exit of the region of a selector, if the selector has a region. -/
def exitOf? (regions : List Region) (s : Selector) : Option StateId :=
  (regions.map fun r => (r.selector, r.part.exit)).lookup s

section Exits

variable {size : Nat} {edge : Link → Prop} {regions : List Region} {s : Selector} {q : StateId}

theorem exists_of_exitOf?_eq_some (h : exitOf? regions s = some q) :
    ∃ r ∈ regions, r.selector = s ∧ r.part.exit = q := by
  obtain ⟨before, behind, hsplit, -⟩ := List.lookup_eq_some_iff.1 h
  have hmem : (s, q) ∈ regions.map fun r => (r.selector, r.part.exit) := by
    rw [hsplit]
    exact List.mem_append_right _ List.mem_cons_self
  obtain ⟨r, hr, heq⟩ := List.mem_map.1 hmem
  obtain ⟨rfl, rfl⟩ := Prod.mk.inj heq
  exact ⟨r, hr, rfl, rfl⟩

theorem exists_exitOf?_eq_some (h : s ∈ regions.map (·.selector)) :
    ∃ q, exitOf? regions s = some q := by
  obtain ⟨r, hr, rfl⟩ := List.mem_map.1 h
  cases hexit : exitOf? regions r.selector with
  | some q => exact ⟨q, rfl⟩
  | none =>
    have hne := List.lookup_eq_none_iff.1 hexit _ (List.mem_map_of_mem hr)
    simp at hne

theorem exitOf?_cons_of_ne {r : Region} (h : s ≠ r.selector) :
    exitOf? (r :: regions) s = exitOf? regions s := by
  unfold exitOf?
  rw [List.map_cons, List.lookup_cons, beq_eq_false_iff_ne.2 h]

theorem Layout.exitOf?_lt (h : Layout size edge regions) (hexit : exitOf? regions s = some q) :
    q < size := by
  obtain ⟨r, hr, -, rfl⟩ := exists_of_exitOf?_eq_some hexit
  exact h.lt_size hr (h.contains_exit r hr)

/-- **Selectors with one exit** are one selector. -/
theorem Layout.eq_of_exitOf?_eq (h : Layout size edge regions) {s' : Selector}
    (hs : exitOf? regions s = some q) (hs' : exitOf? regions s' = some q) : s = s' := by
  obtain ⟨r, hr, rfl, hexit⟩ := exists_of_exitOf?_eq_some hs
  obtain ⟨r', hr', rfl, hexit'⟩ := exists_of_exitOf?_eq_some hs'
  rw [h.eq_of_exit_eq hr hr' (hexit.trans hexit'.symm)]

end Exits

/-! ### Requests -/

/-- The requests of a list that a builder does not refuse when they are made one after the
other. -/
def Builder.granted (b : Builder) : List Request → List Request
  | [] => []
  | r :: requests =>
    match b.addInPlace r with
    | (true, b') => r :: b'.granted requests
    | (false, b') => b'.granted requests

theorem granted_eq_filter {b : Builder} (hb : Settled b) (requests : List Request) :
    b.granted requests = requests.filter (·.selector.isSupported) := by
  induction requests generalizing b with
  | nil => rfl
  | cons r requests ih =>
    have hrefused := addInPlace_eq_false_iff (r := r) hb
    have hsettled := settled_addInPlace hb r
    unfold granted
    cases hadd : b.addInPlace r with
    | mk ok b' =>
      rw [hadd] at hrefused hsettled
      cases ok with
      | true =>
        have hfilter : (r :: requests).filter (·.selector.isSupported) =
            r :: requests.filter (·.selector.isSupported) :=
          List.filter_cons_of_pos (by simpa using hrefused)
        rw [hfilter, ← ih hsettled]
      | false =>
        have hfilter : (r :: requests).filter (·.selector.isSupported) =
            requests.filter (·.selector.isSupported) :=
          List.filter_cons_of_neg (by simpa using hrefused)
        rw [hfilter, ← ih hsettled]

/-- How the declaration of a request is accepted: at the exit of its selector. -/
def acceptance? (regions : List Region) (r : Request) : Option Acceptance :=
  (exitOf? regions r.selector).map fun q => ⟨q, r.declaration, r.pseudo⟩

/-- What has been made in a builder for the requests that it did not refuse. -/
structure Arranged (b : Builder) (regions : List Region) (granted : List Request) : Prop where
  settled : Settled b
  layout : Layout b.size (· ∈ b.links) regions
  exits : b.exits = regions.map fun r => (r.selector, r.part.exit)
  mem_selectors : ∀ s, s ∈ regions.map (·.selector) ↔ s ∈ granted.map (·.selector)
  acceptances : b.acceptances = granted.filterMap (acceptance? regions)

section Arranged

variable {b : Builder} {regions : List Region} {granted : List Request} {r : Request}

theorem arranged_empty (labels : Labels) : Arranged { labels } [] [] where
  settled := settled_empty labels
  layout := layout_empty labels
  exits := rfl
  mem_selectors _ := Iff.rfl
  acceptances := rfl

/-- Once the selector of a request has its region, only the declaration is still to be
accepted. -/
theorem Arranged.accept {b₁ : Builder} {regions₁ : List Region} {q : StateId}
    (h : Arranged b regions granted) (hsettled : Settled b₁)
    (hlayout : Layout b₁.size (· ∈ b₁.links) regions₁)
    (hexits : b₁.exits = regions₁.map fun r => (r.selector, r.part.exit))
    (hselectors : ∀ s, s ∈ regions₁.map (·.selector) ↔
      s ∈ regions.map (·.selector) ∨ s = r.selector)
    (hkept : ∀ s ∈ regions.map (·.selector), exitOf? regions₁ s = exitOf? regions s)
    (hacceptances : b₁.acceptances = b.acceptances)
    (hexit : exitOf? regions₁ r.selector = some q) :
    Arranged (b₁.accept q r.declaration r.pseudo) regions₁ (granted ++ [r]) where
  settled := hsettled.accept
  layout := hlayout
  exits := hexits
  mem_selectors s := by
    rw [hselectors, h.mem_selectors, List.map_append, List.mem_append, List.map_singleton,
      List.mem_singleton]
  acceptances := by
    have hold : ∀ r ∈ granted, acceptance? regions r = acceptance? regions₁ r := by
      intro r hr
      unfold acceptance?
      rw [hkept _ ((h.mem_selectors _).2 (List.mem_map_of_mem hr))]
    have hnew : acceptance? regions₁ r = some ⟨q, r.declaration, r.pseudo⟩ := by
      rw [acceptance?, hexit]
      rfl
    show b₁.acceptances ++ [⟨q, r.declaration, r.pseudo⟩] = _
    rw [hacceptances, h.acceptances, List.filterMap_append, List.filterMap_congr hold,
      List.filterMap_cons_some hnew, List.filterMap_nil]

/-- **A request that is granted** adds its declaration, and a region if its selector is new. -/
theorem arranged_addInPlace (h : Arranged b regions granted) (hsupported : r.selector.isSupported) :
    ∃ regions', Arranged (b.addInPlace r).2 regions' (granted ++ [r]) := by
  rw [addInPlace_eq_addRule]
  cases hlookup : b.exits.lookup r.selector with
  | some exit =>
    have hselector : b.selector r.selector = some (exit, b) := by
      rw [Builder.selector, hlookup]
    have hexit : exitOf? regions r.selector = some exit := by
      rw [exitOf?, ← h.exits, hlookup]
    have hold : r.selector ∈ regions.map (·.selector) := by
      obtain ⟨region, hregion, hs, -⟩ := exists_of_exitOf?_eq_some hexit
      exact hs ▸ List.mem_map_of_mem hregion
    refine ⟨regions, ?_⟩
    rw [addRule, hselector]
    exact h.accept h.settled h.layout h.exits
      (fun s => ⟨Or.inl, fun hs => hs.elim id (· ▸ hold)⟩) (fun _ _ => rfl) rfl hexit
  | none =>
    obtain ⟨⟨part, made⟩, hmade⟩ := Option.isSome_iff_exists.1 (isSome_fragment hsupported b)
    have hselector : b.selector r.selector = some (part.exit, attach made r.selector part) := by
      rw [Builder.selector, hlookup]
      simp only [if_pos hsupported, hmade]
      rfl
    have hnew : r.selector ∉ regions.map (·.selector) := by
      intro hold
      obtain ⟨q, hq⟩ := exists_exitOf?_eq_some hold
      rw [exitOf?, ← h.exits, hlookup] at hq
      cases hq
    have hpart := part_fragment h.settled.wellFormed hmade
    have hexits : (attach made r.selector part).exits =
        (newRegion b made r.selector part :: regions).map fun r => (r.selector, r.part.exit) := by
      show (r.selector, part.exit) :: made.exits = _
      rw [hpart.extends_.exits, h.exits]
      rfl
    refine ⟨newRegion b made r.selector part :: regions, ?_⟩
    rw [addRule, hselector]
    refine h.accept (settled_selector h.settled hselector).1
      (layout_attach h.settled.wellFormed h.layout hmade hnew) hexits (fun s => ?_)
      (fun s hs => exitOf?_cons_of_ne fun heq => ?_) hpart.extends_.acceptances
      List.lookup_cons_self
    · rw [List.map_cons, List.mem_cons]
      exact or_comm
    · have hselector : s = r.selector := heq
      exact hnew (hselector ▸ hs)

theorem arranged_serve (h : Arranged b regions granted) (requests : List Request) :
    ∃ regions', Arranged (b.serve requests) regions' (granted ++ b.granted requests) := by
  induction requests generalizing b regions granted with
  | nil =>
    refine ⟨regions, ?_⟩
    rw [Builder.granted, List.append_nil]
    exact h
  | cons r requests ih =>
    have hgrant := arranged_addInPlace (r := r) h
    have hrefused := addInPlace_eq_false_iff (r := r) h.settled
    have hkept := addInPlace_of_refused (b := b) (r := r)
    unfold Builder.granted
    show ∃ regions', Arranged ((b.addInPlace r).2.serve requests) regions' _
    cases hadd : b.addInPlace r with
    | mk ok b' =>
      rw [hadd] at hgrant hrefused hkept
      cases ok with
      | true =>
        obtain ⟨regions', h'⟩ := hgrant (by simpa using hrefused)
        rw [List.append_cons]
        exact ih h'
      | false =>
        obtain rfl : b' = b := hkept rfl
        exact ih h

end Arranged

/-! ### The finished automaton -/

/-- The automaton has the edge. -/
def HasLink (nfa : Nfa) (l : Link) : Prop :=
  l.edge ∈ (nfa.state l.source).edges

/-- The numbers of the declarations that a state accepts, for elements or for pseudo-elements. -/
def idsAt (nfa : Nfa) (q : StateId) (pseudo : Bool) : List DeclarationId :=
  if pseudo then (nfa.state q).pseudoDeclarations else (nfa.state q).declarations

/-- The granted requests whose exit the state is, for elements or for pseudo-elements. -/
def requestsAt (regions : List Region) (granted : List Request) (q : StateId) (pseudo : Bool) :
    List Request :=
  granted.filter fun r => exitOf? regions r.selector = some q ∧ r.pseudo = pseudo

section Finished

variable {b : Builder} {regions : List Region} {granted : List Request} {r r' : Request}
  {q : StateId} {pseudo : Bool}

theorem hasLink_build (hb : b.WellFormed) {l : Link} : b.build.HasLink l ↔ l ∈ b.links := by
  rw [← mem_targets_build hb, State.mem_targets]
  rfl

theorem Arranged.layout_build (h : Arranged b regions granted) :
    Layout b.build.size b.build.HasLink regions := by
  have hedge : b.build.HasLink = (· ∈ b.links) := by
    ext l
    exact hasLink_build h.settled.wellFormed
  rw [b.size_build, hedge]
  exact h.layout

theorem idsAt_build (hq : q < b.size) : b.build.idsAt q pseudo =
    (b.acceptances.filter fun a => a.state = q ∧ a.pseudo = pseudo).map (·.declaration) := by
  unfold idsAt
  rw [state_build hq]
  cases pseudo <;> simp [Builder.state]

/-- **Each granted request has its number accepted** at the exit of its selector, in the list that
its flag selects. -/
theorem Arranged.idsAt_eq (h : Arranged b regions granted) (q : StateId) (pseudo : Bool) :
    b.build.idsAt q pseudo = (requestsAt regions granted q pseudo).map (·.declaration) := by
  unfold requestsAt
  by_cases hq : q < b.size
  · rw [idsAt_build hq, h.acceptances, List.filter_filterMap, List.map_filterMap,
      ← List.filterMap_eq_map, List.filterMap_filter]
    apply List.filterMap_congr
    intro r _
    unfold acceptance?
    cases exitOf? regions r.selector with
    | none => simp
    | some q' =>
      by_cases hstate : q' = q
      · by_cases hpseudo : r.pseudo = pseudo
        · simp [hstate, hpseudo]
        · simp [hpseudo]
      · simp [hstate]
  · have hnone : ∀ r ∈ granted, ¬(exitOf? regions r.selector = some q ∧ r.pseudo = pseudo) :=
      fun r _ hexit => hq (h.layout.exitOf?_lt hexit.1)
    rw [List.filter_eq_nil_iff.2 fun r hr => by simpa using hnone r hr, idsAt,
      state_build_of_not_lt hq]
    exact ite_self _

theorem Arranged.mem_idsAt (h : Arranged b regions granted) {declaration : DeclarationId} :
    declaration ∈ b.build.idsAt q pseudo ↔ ∃ r ∈ granted,
      exitOf? regions r.selector = some q ∧ r.pseudo = pseudo ∧ r.declaration = declaration := by
  rw [h.idsAt_eq]
  simp only [requestsAt, List.mem_map, List.mem_filter, decide_eq_true_eq, and_assoc]

theorem Arranged.exists_exit (h : Arranged b regions granted) (hr : r ∈ granted) :
    ∃ q < b.build.size, exitOf? regions r.selector = some q := by
  obtain ⟨q, hexit⟩ := exists_exitOf?_eq_some ((h.mem_selectors _).2 (List.mem_map_of_mem hr))
  exact ⟨q, h.layout_build.exitOf?_lt hexit, hexit⟩

/-- **Requests have one exit** exactly if they have one selector. -/
theorem Arranged.exit_eq_iff (h : Arranged b regions granted) (hr : r ∈ granted) :
    exitOf? regions r.selector = exitOf? regions r'.selector ↔ r.selector = r'.selector := by
  obtain ⟨q, -, hexit⟩ := h.exists_exit hr
  constructor
  · intro heq
    exact h.layout.eq_of_exitOf?_eq hexit (heq ▸ hexit)
  · intro hselector
    rw [hselector]

/-- The elements of a list whose values are below a bound, one value after the other. -/
theorem perm_flatMap_filter {α : Type} (f : α → Option Nat) (l : List α) (n : Nat) :
    ((List.range n).flatMap fun q => l.filter fun a => f a = some q).Perm
      (l.filter fun a => (f a).any (· < n)) := by
  induction n with
  | zero => simp
  | succ n ih =>
    -- A value below `n + 1` is one below `n`, or it is `n`.
    have hbelow : ∀ x : Option Nat, (x.any (· < n) && x.any (· < n + 1)) = x.any (· < n) := by
      intro x
      cases x with
      | none => rfl
      | some m =>
        rw [Bool.eq_iff_iff]
        simp
        omega
    have hlast : ∀ x : Option Nat,
        (!x.any (· < n) && x.any (· < n + 1)) = decide (x = some n) := by
      intro x
      cases x with
      | none => rfl
      | some m =>
        rw [Bool.eq_iff_iff]
        simp
        omega
    have hsplit := List.filter_append_perm (fun a => (f a).any (· < n))
      (l.filter fun a => (f a).any (· < n + 1))
    simp only [List.filter_filter, hbelow, hlast] at hsplit
    rw [List.range_succ, List.flatMap_append, List.flatMap_singleton]
    exact (ih.append_right _).trans hsplit

/-- The requests at a state are those whose exit it is, whatever their flags are. -/
theorem perm_requestsAt (regions : List Region) (granted : List Request) (q : StateId) :
    (requestsAt regions granted q false ++ requestsAt regions granted q true).Perm
      (granted.filter fun r => exitOf? regions r.selector = some q) := by
  have hsplit := List.filter_append_perm (fun r : Request => !r.pseudo)
    (granted.filter fun r => exitOf? regions r.selector = some q)
  rw [List.filter_filter, List.filter_filter] at hsplit
  have hflag : ∀ pseudo, requestsAt regions granted q pseudo = granted.filter fun r =>
      (r.pseudo == pseudo) && decide (exitOf? regions r.selector = some q) := by
    intro pseudo
    refine List.filter_congr fun r _ => ?_
    rw [Bool.eq_iff_iff]
    simp [and_comm]
  rw [hflag, hflag]
  simpa using hsplit

/-- **Each granted request stands in one list**, however many have the same number. -/
theorem Arranged.perm_requests (h : Arranged b regions granted) :
    ((List.range b.build.size).flatMap fun q =>
      requestsAt regions granted q false ++ requestsAt regions granted q true).Perm granted := by
  have hall : granted.filter (fun r => (exitOf? regions r.selector).any (· < b.build.size)) =
      granted := by
    refine List.filter_eq_self.2 fun r hr => ?_
    obtain ⟨q, hq, hexit⟩ := h.exists_exit hr
    rw [hexit]
    exact decide_eq_true hq
  have hexits := perm_flatMap_filter (fun r : Request => exitOf? regions r.selector) granted
    b.build.size
  rw [hall] at hexits
  exact (List.Perm.flatMap_left _ fun q _ => perm_requestsAt regions granted q).trans hexits

/-- **Over all lists** there are the numbers of the granted requests, and no others. -/
theorem Arranged.perm_ids (h : Arranged b regions granted) :
    ((List.range b.build.size).flatMap fun q =>
      b.build.idsAt q false ++ b.build.idsAt q true).Perm (granted.map (·.declaration)) := by
  have hids := h.perm_requests.map (·.declaration)
  rw [List.map_flatMap] at hids
  simpa only [h.idsAt_eq, List.map_append] using hids

/-- Where no two requests have one number, a number tells where and how it is accepted. -/
theorem Arranged.declaration_mem_idsAt (h : Arranged b regions granted)
    (hnodup : (granted.map (·.declaration)).Nodup) (hr : r ∈ granted) :
    r.declaration ∈ b.build.idsAt q pseudo ↔
      exitOf? regions r.selector = some q ∧ r.pseudo = pseudo := by
  rw [h.mem_idsAt]
  constructor
  · rintro ⟨r', hr', hexit, hpseudo, hdeclaration⟩
    obtain rfl := List.inj_on_of_nodup_map hnodup hr' hr hdeclaration
    exact ⟨hexit, hpseudo⟩
  · rintro ⟨hexit, hpseudo⟩
    exact ⟨r, hr, hexit, hpseudo, rfl⟩

theorem Arranged.count_idsAt (h : Arranged b regions granted)
    (hnodup : (granted.map (·.declaration)).Nodup) (hr : r ∈ granted)
    (hexit : exitOf? regions r.selector = some q) (q' : StateId) (pseudo : Bool) :
    (b.build.idsAt q' pseudo).count r.declaration =
      if q' = q ∧ pseudo = r.pseudo then 1 else 0 := by
  have hids : (b.build.idsAt q' pseudo).Nodup := by
    rw [h.idsAt_eq]
    exact hnodup.sublist (List.filter_sublist.map _)
  have hmem : r.declaration ∈ b.build.idsAt q' pseudo ↔ q' = q ∧ pseudo = r.pseudo := by
    rw [h.declaration_mem_idsAt hnodup hr, hexit, Option.some.injEq, eq_comm, @eq_comm _ pseudo]
  rw [hids.count]
  exact if_congr hmem rfl rfl

/-- **Numbers sit together** exactly if the selectors of their requests are equal. -/
theorem Arranged.exists_mem_idsAt_iff (h : Arranged b regions granted)
    (hnodup : (granted.map (·.declaration)).Nodup) (hr : r ∈ granted) (hr' : r' ∈ granted) :
    (∃ q pseudo pseudo', r.declaration ∈ b.build.idsAt q pseudo ∧
        r'.declaration ∈ b.build.idsAt q pseudo') ↔ r.selector = r'.selector := by
  simp only [h.declaration_mem_idsAt hnodup hr, h.declaration_mem_idsAt hnodup hr']
  constructor
  · rintro ⟨q, -, -, ⟨hexit, -⟩, hexit', -⟩
    exact h.layout.eq_of_exitOf?_eq hexit hexit'
  · intro hselector
    obtain ⟨q, -, hexit⟩ := h.exists_exit hr
    exact ⟨q, r.pseudo, r'.pseudo, ⟨hexit, rfl⟩, hselector ▸ hexit, rfl⟩

end Finished

/-- The states of the automaton are the start, the accepting state and one region after the other,
and its edges respect that. -/
structure Shape (nfa : Nfa) (regions : List Region) : Prop where
  /-- An edge stays in a region, leads from the start to the entry of one, or from the exit of one
  to the accepting state. -/
  layout : Layout nfa.size nfa.HasLink regions
  /-- Edges join states that exist. -/
  lt_size : ∀ l, nfa.HasLink l → l.source < nfa.size ∧ l.edge.target < nfa.size
  /-- No edge leads to the start. -/
  target_ne_start : ∀ l, nfa.HasLink l → l.edge.target ≠ start
  /-- The edges that leave the start are silent. -/
  start_silent : ∀ l, nfa.HasLink l → l.source = start → l.edge.event = .epsilon
  /-- No edge leaves the accepting state. -/
  source_ne_accept : ∀ l, nfa.HasLink l → l.source ≠ accept
  /-- No path leads from region to region. -/
  eq_of_path : ∀ r ∈ regions, ∀ r' ∈ regions, ∀ q q', r.Contains q → r'.Contains q' →
    Relation.ReflTransGen (fun q q' => ∃ event, nfa.HasLink ⟨q, event, q'⟩) q q' → r = r'

/-- Where the automaton accepts the numbers of the requests that were granted. -/
structure Placement (nfa : Nfa) (regions : List Region) (granted : List Request) : Prop where
  /-- There is a region for each selector that was granted, and for no other. -/
  mem_selectors : ∀ s, s ∈ regions.map (·.selector) ↔ s ∈ granted.map (·.selector)
  /-- Each request has a state of its own selector to be accepted at. -/
  exists_exit : ∀ r ∈ granted, ∃ q < nfa.size, exitOf? regions r.selector = some q
  /-- Two requests are accepted at one state exactly if their selectors are equal. -/
  exit_eq_iff : ∀ r ∈ granted, ∀ r' ∈ granted,
    exitOf? regions r.selector = exitOf? regions r'.selector ↔ r.selector = r'.selector
  /-- Each list holds the numbers of the requests that belong there, in the order in which they
  were made. -/
  idsAt_eq : ∀ q pseudo,
    nfa.idsAt q pseudo = (requestsAt regions granted q pseudo).map (·.declaration)
  /-- Over all lists, each request comes once. -/
  perm_requests : ((List.range nfa.size).flatMap fun q =>
    requestsAt regions granted q false ++ requestsAt regions granted q true).Perm granted
  /-- So a number occurs as often as it was granted. -/
  perm_ids : ((List.range nfa.size).flatMap fun q =>
    nfa.idsAt q false ++ nfa.idsAt q true).Perm (granted.map (·.declaration))
  /-- If no number was granted twice, each occurs once, in the list that the flag selects. -/
  count_eq : (granted.map (·.declaration)).Nodup → ∀ r ∈ granted, ∃ q < nfa.size, ∀ q' pseudo,
    (nfa.idsAt q' pseudo).count r.declaration = if q' = q ∧ pseudo = r.pseudo then 1 else 0
  /-- If no number was granted twice, two of them sit on one state exactly if the selectors are
  equal. -/
  together_iff : (granted.map (·.declaration)).Nodup → ∀ r ∈ granted, ∀ r' ∈ granted,
    (∃ q pseudo pseudo', r.declaration ∈ nfa.idsAt q pseudo ∧
      r'.declaration ∈ nfa.idsAt q pseudo') ↔ r.selector = r'.selector

section Structure

variable {b : Builder} {regions : List Region} {granted : List Request}

theorem Layout.shape {nfa : Nfa} (h : Layout nfa.size nfa.HasLink regions) :
    Shape nfa regions where
  layout := h
  lt_size _ hl := h.lt_of_edge hl
  target_ne_start _ hl := (h.start_of_edge hl).1
  start_silent _ hl := (h.start_of_edge hl).2
  source_ne_accept _ hl := h.source_ne_accept hl
  eq_of_path _ hr _ hr' _ _ hq hq' hpath := h.eq_of_path hr hr' hq hq' hpath

theorem Arranged.placement (h : Arranged b regions granted) :
    Placement b.build regions granted where
  mem_selectors := h.mem_selectors
  exists_exit _ hr := h.exists_exit hr
  exit_eq_iff _ hr _ _ := h.exit_eq_iff hr
  idsAt_eq := h.idsAt_eq
  perm_requests := h.perm_requests
  perm_ids := h.perm_ids
  count_eq hnodup r hr := by
    obtain ⟨q, hq, hexit⟩ := h.exists_exit hr
    exact ⟨q, hq, h.count_idsAt hnodup hr hexit⟩
  together_iff hnodup _ hr _ hr' := h.exists_mem_idsAt_iff hnodup hr hr'

end Structure

/-- **The shape of an automaton.** Whatever label tables a builder starts with and whatever rules
it has been asked to add, those are granted whose selectors are understood. The states of its
automaton are the start, the accepting state and one region for each selector that was granted.
Each granted request has its number in one list, at the exit of its selector, and requests share
that state exactly if their selectors are equal. -/
theorem layout_build_serve (labels : Labels) (requests : List Request) :
    let nfa := (Builder.serve { labels } requests).build
    let granted := Builder.granted { labels } requests
    granted = requests.filter (·.selector.isSupported) ∧
      ∃ regions : List Region, Shape nfa regions ∧ Placement nfa regions granted := by
  intro nfa granted
  obtain ⟨regions, h⟩ := arranged_serve (arranged_empty labels) requests
  exact ⟨granted_eq_filter (settled_empty labels) requests, regions, h.layout_build.shape,
    h.placement⟩

/-- Two rules with one selector, one of them for a pseudo-element, and a rule with another. Then two
rules with two selectors and one number, which occurs twice. -/
theorem layout_build_serve_shared :
    let shared : List Request :=
      [⟨.ofName "p", 0, false⟩, ⟨.ofName "p", 1, true⟩, ⟨.ofName "q", 2, false⟩]
    let repeated : List Request := [⟨.ofName "p", 0, false⟩, ⟨.ofName "q", 0, false⟩]
    let nfa := (Builder.serve {} shared).build
    let nfa' := (Builder.serve {} repeated).build
    (∃ q pseudo pseudo', 0 ∈ nfa.idsAt q pseudo ∧ 1 ∈ nfa.idsAt q pseudo') ∧
      (¬∃ q pseudo pseudo', 0 ∈ nfa.idsAt q pseudo ∧ 2 ∈ nfa.idsAt q pseudo') ∧
      ((List.range nfa'.size).flatMap fun q => nfa'.idsAt q false ++ nfa'.idsAt q true).Perm
        [0, 0] := by
  intro shared repeated nfa nfa'
  obtain ⟨hgranted, _, -, hplacement⟩ := layout_build_serve {} shared
  obtain ⟨hgranted', _, -, hplacement'⟩ := layout_build_serve {} repeated
  have hall : shared.filter (·.selector.isSupported) = shared := rfl
  have hall' : repeated.filter (·.selector.isSupported) = repeated := rfl
  rw [hgranted, hall] at hplacement
  rw [hgranted', hall'] at hplacement'
  have hfirst := hplacement.together_iff (by decide) ⟨.ofName "p", 0, false⟩ (by simp [shared])
  refine ⟨(hfirst ⟨.ofName "p", 1, true⟩ (by simp [shared])).2 rfl, fun h => ?_,
    hplacement'.perm_ids⟩
  exact absurd ((hfirst ⟨.ofName "q", 2, false⟩ (by simp [shared])).1 h) (by decide)

end Nfa

end StyleStream
