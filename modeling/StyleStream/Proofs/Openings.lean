/-
  Which elements a stream of events leaves open, and who their children are, read off the events
  alone.

  An element is open if the events since its start leave it open: none of them is a reset, and at
  no time have more elements ended than started among them (`LeavesOpen`). The parent of an element
  is the innermost one that was open when it started, and the children of an element are those
  that have it for a parent (`childStarts`). There is no stack and no frame here: elements are
  told apart by the number of the event that started them.

  A reading tells the same document (`tells_reading`). The argument turns on one count: behind the
  start of an open element there are as many more starts than ends as there are open elements inside
  it (`startCount_behind`), so an end closes the innermost one and no other.
-/
import Mathlib.Data.List.Induction
import Mathlib.Data.List.Infix
import StyleStream.Ascending
import StyleStream.Proofs.Document

namespace StyleStream

/-! ### Events -/

/-- The element that an event starts. -/
def StreamEvent.element? : StreamEvent → Option Element
  | starts element => some element
  | ends | reset => none

/-- The element that starts with the event of a number, counted from zero. -/
def startedAt? (events : List StreamEvent) (i : Nat) : Option Element :=
  events[i]?.bind StreamEvent.element?

/-- How many of the events start an element. -/
def startCount (events : List StreamEvent) : Nat :=
  events.countP (·.element?.isSome)

/-- Events that leave the element around them open: none of them is a reset, and at no time have
more elements ended than started among them. -/
def LeavesOpen (events : List StreamEvent) : Prop :=
  .reset ∉ events ∧ ∀ front ∈ events.inits, front.count .ends ≤ startCount front

instance (events : List StreamEvent) : Decidable (LeavesOpen events) :=
  inferInstanceAs (Decidable (_ ∧ _))

/-- The numbers of the events with which the open elements started, the latest first. -/
def openStarts (events : List StreamEvent) : List Nat :=
  ((List.range events.length).filter fun i =>
    (startedAt? events i).isSome ∧ LeavesOpen (events.drop (i + 1))).reverse

/-- The open elements, the innermost first. -/
def openElements (events : List StreamEvent) : List Element :=
  (openStarts events).filterMap (startedAt? events)

/-- The numbers of the events with which the children of the current element have started so far.
Outside all elements they are the outermost ones since the last reset. -/
def childStarts (events : List StreamEvent) : List Nat :=
  (List.range events.length).filter fun i =>
    (startedAt? events i).isSome ∧ .reset ∉ events.drop i ∧
      (openStarts (events.take i)).head? = (openStarts events).head?

section Events

variable {events later front inside : List StreamEvent} {event : StreamEvent} {element : Element}
  {i j k : Nat}

theorem startCount_append (events later : List StreamEvent) :
    startCount (events ++ later) = startCount events + startCount later :=
  List.countP_append

theorem startedAt?_append (h : i < events.length) :
    startedAt? (events ++ later) i = startedAt? events i := by
  unfold startedAt?
  rw [List.getElem?_append_left h]

theorem startedAt?_concat_self : startedAt? (events ++ [event]) events.length = event.element? := by
  unfold startedAt?
  rw [List.getElem?_concat_length]
  rfl

/-- An event that starts nothing has no element. -/
theorem startedAt?_concat_of_eq_none (h : event.element? = none) :
    startedAt? (events ++ [event]) i = startedAt? events i := by
  unfold startedAt?
  rcases Nat.lt_trichotomy i events.length with hi | rfl | hi
  · rw [List.getElem?_append_left hi]
  · rw [List.getElem?_concat_length, List.getElem?_eq_none_iff.2 (Nat.le_refl _)]
    exact h
  · rw [List.getElem?_eq_none_iff.2, List.getElem?_eq_none_iff.2 hi.le]
    rw [List.length_append, List.length_singleton]
    omega

theorem lt_length_of_isSome_startedAt? (h : (startedAt? events i).isSome) : i < events.length := by
  apply Nat.lt_of_not_le
  intro hle
  unfold startedAt? at h
  rw [List.getElem?_eq_none_iff.2 hle] at h
  cases h

/-! ### Open elements -/

theorem LeavesOpen.count_le (h : LeavesOpen events) : events.count .ends ≤ startCount events :=
  h.2 events ((List.mem_inits _ _).2 List.prefix_rfl)

theorem leavesOpen_nil : LeavesOpen [] := by decide

/-- What leaves an element open has done so all along. -/
theorem LeavesOpen.of_append (h : LeavesOpen (events ++ later)) : LeavesOpen events := by
  refine ⟨fun hreset => h.1 (List.mem_append_left _ hreset), fun front hfront => ?_⟩
  apply h.2
  rw [List.mem_inits] at hfront ⊢
  exact hfront.trans (List.prefix_append _ _)

theorem leavesOpen_concat_iff (hevent : event ≠ .reset) : LeavesOpen (events ++ [event]) ↔
    LeavesOpen events ∧ (events ++ [event]).count .ends ≤ startCount (events ++ [event]) := by
  constructor
  · intro h
    exact ⟨h.of_append, h.count_le⟩
  · rintro ⟨⟨hreset, hfronts⟩, hcount⟩
    refine ⟨fun h => ?_, fun front hfront => ?_⟩
    · rcases List.mem_append.1 h with h | h
      · exact hreset h
      · exact hevent (List.mem_singleton.1 h).symm
    · rw [List.mem_inits, List.prefix_concat_iff] at hfront
      rcases hfront with rfl | hfront
      · exact hcount
      · exact hfronts front ((List.mem_inits _ _).2 hfront)

theorem leavesOpen_concat_starts :
    LeavesOpen (events ++ [.starts element]) ↔ LeavesOpen events := by
  rw [leavesOpen_concat_iff (by simp), startCount_append, List.count_append]
  refine and_iff_left_of_imp fun h => ?_
  have hcount := h.count_le
  have hstart : startCount [.starts element] = 1 := rfl
  have hend : [StreamEvent.starts element].count .ends = 0 := rfl
  omega

theorem leavesOpen_concat_ends : LeavesOpen (events ++ [.ends]) ↔
    LeavesOpen events ∧ events.count .ends < startCount events := by
  rw [leavesOpen_concat_iff (by simp), startCount_append, List.count_append]
  have hstart : startCount [.ends] = 0 := rfl
  have hend : [StreamEvent.ends].count .ends = 1 := rfl
  refine and_congr_right fun _ => ?_
  omega

theorem mem_openStarts : i ∈ openStarts events ↔
    (startedAt? events i).isSome ∧ LeavesOpen (events.drop (i + 1)) := by
  unfold openStarts
  rw [List.mem_reverse, List.mem_filter, List.mem_range, decide_eq_true_eq]
  exact and_iff_right_of_imp fun h => lt_length_of_isSome_startedAt? h.1

theorem lt_length_of_mem_openStarts (h : i ∈ openStarts events) : i < events.length :=
  lt_length_of_isSome_startedAt? (mem_openStarts.1 h).1

/-- The starts of the open elements are listed from the latest to the earliest. -/
theorem pairwise_openStarts (events : List StreamEvent) : (openStarts events).Pairwise (· > ·) := by
  unfold openStarts
  rw [List.pairwise_reverse]
  exact List.pairwise_lt_range.filter _

/-- The latest start of an open element stands first. -/
theorem le_of_head?_openStarts (hmem : i ∈ openStarts events)
    (hhead : (openStarts events).head? = some j) : i ≤ j := by
  have hsorted := pairwise_openStarts events
  cases hopen : openStarts events with
  | nil =>
    rw [hopen] at hmem
    cases hmem
  | cons start outer =>
    rw [hopen] at hmem hhead hsorted
    obtain rfl : start = j := Option.some.inj hhead
    rcases List.mem_cons.1 hmem with rfl | hmem
    · exact Nat.le_refl _
    · exact (List.rel_of_pairwise_cons hsorted hmem).le

/-- The element of a start is open if what follows leaves it open. -/
theorem length_mem_openStarts (h : LeavesOpen inside) :
    front.length ∈ openStarts (front ++ .starts element :: inside) := by
  have hdrop : (front ++ .starts element :: inside).drop (front.length + 1) = inside := by
    rw [List.drop_append, List.drop_eq_nil_of_le (Nat.le_succ _)]
    simp
  refine mem_openStarts.2 ⟨?_, ?_⟩
  · unfold startedAt?
    rw [List.getElem?_append_right (Nat.le_refl _), Nat.sub_self]
    rfl
  · rw [hdrop]
    exact h

/-- One more event may open an element, and closes those that it does not leave open. -/
theorem openStarts_concat (events : List StreamEvent) (event : StreamEvent) :
    openStarts (events ++ [event]) = (if event.element?.isSome then [events.length] else []) ++
      (openStarts events).filter fun i => LeavesOpen (events.drop (i + 1) ++ [event]) := by
  unfold openStarts
  rw [List.length_append, List.length_singleton, List.range_succ, List.filter_append,
    List.reverse_append, ← List.filter_reverse, ← List.filter_reverse, ← List.filter_reverse,
    List.filter_filter]
  congr 1
  · have hdrop : (events ++ [event]).drop (events.length + 1) = [] :=
      List.drop_eq_nil_of_le (by simp)
    rw [List.reverse_singleton, List.filter_singleton, startedAt?_concat_self, hdrop]
    simp only [leavesOpen_nil, and_true, Bool.decide_eq_true]
    exact Bool.cond_eq_ite ..
  · refine List.filter_congr fun i hi => ?_
    rw [List.mem_reverse, List.mem_range] at hi
    rw [startedAt?_append hi, List.drop_append_of_le_length hi, Bool.eq_iff_iff]
    simp only [Bool.and_eq_true, decide_eq_true_eq]
    constructor
    · rintro ⟨hstart, hopen⟩
      exact ⟨hopen, hstart, hopen.of_append⟩
    · rintro ⟨hopen, hstart, -⟩
      exact ⟨hstart, hopen⟩

theorem openStarts_concat_starts :
    openStarts (events ++ [.starts element]) = events.length :: openStarts events := by
  rw [openStarts_concat, List.filter_eq_self.2]
  · rfl
  · intro i hi
    rw [decide_eq_true_eq, leavesOpen_concat_starts]
    exact (mem_openStarts.1 hi).2

theorem openStarts_concat_reset : openStarts (events ++ [.reset]) = [] := by
  rw [openStarts_concat, List.filter_eq_nil_iff.2]
  · rfl
  · intro i hi
    rw [decide_eq_true_eq]
    intro hopen
    exact hopen.1 (List.mem_append_right _ (List.mem_singleton_self _))

/-- An end closes the innermost open element, given how many starts are left over behind each. -/
theorem openStarts_concat_ends_of
    (h : ∀ k i, (openStarts events)[k]? = some i →
      startCount (events.drop (i + 1)) = (events.drop (i + 1)).count .ends + k) :
    openStarts (events ++ [.ends]) = (openStarts events).tail := by
  have hclosed : ∀ k i, (openStarts events)[k]? = some i →
      (LeavesOpen (events.drop (i + 1) ++ [.ends]) ↔ 0 < k) := by
    intro k i hi
    have hcount := h k i hi
    rw [leavesOpen_concat_ends,
      and_iff_right (mem_openStarts.1 (List.mem_of_getElem? hi)).2]
    omega
  rw [openStarts_concat]
  show (openStarts events).filter _ = _
  cases hopen : openStarts events with
  | nil => rfl
  | cons start outer =>
    rw [hopen] at hclosed
    have hstart : ¬ LeavesOpen (events.drop (start + 1) ++ [.ends]) := by
      rw [hclosed 0 start rfl]
      exact Nat.lt_irrefl 0
    rw [List.filter_cons_of_neg (by simpa using hstart), List.filter_eq_self.2]
    · rfl
    · intro i hi
      obtain ⟨k, hk⟩ := List.mem_iff_getElem?.1 hi
      rw [decide_eq_true_eq, hclosed (k + 1) i hk]
      exact Nat.succ_pos k

/-- **The starts left over** behind an open element are those of the open elements inside it. -/
theorem startCount_behind (events : List StreamEvent) (k i : Nat)
    (h : (openStarts events)[k]? = some i) :
    startCount (events.drop (i + 1)) = (events.drop (i + 1)).count .ends + k := by
  induction events using List.reverseRecOn generalizing k i with
  | nil => cases h
  | append_singleton events event ih =>
    have hdrop : ∀ i ∈ openStarts events,
        (events ++ [event]).drop (i + 1) = events.drop (i + 1) ++ [event] :=
      fun i hi => List.drop_append_of_le_length (lt_length_of_mem_openStarts hi)
    cases event with
    | starts element =>
      rw [openStarts_concat_starts] at h
      cases k with
      | zero =>
        obtain rfl : events.length = i := Option.some.inj h
        rw [List.drop_eq_nil_of_le (by simp)]
        rfl
      | succ k =>
        have hcount := ih k i h
        rw [hdrop i (List.mem_of_getElem? h), startCount_append, List.count_append]
        show _ + 1 = _ + 0 + _
        omega
    | ends =>
      rw [openStarts_concat_ends_of ih, List.getElem?_tail] at h
      have hcount := ih (k + 1) i h
      rw [hdrop i (List.mem_of_getElem? h), startCount_append, List.count_append]
      show _ + 0 = _ + 1 + _
      omega
    | reset =>
      rw [openStarts_concat_reset] at h
      cases h

theorem openStarts_concat_ends : openStarts (events ++ [.ends]) = (openStarts events).tail :=
  openStarts_concat_ends_of (startCount_behind events)

/-! ### Children -/

theorem mem_childStarts : i ∈ childStarts events ↔
    (startedAt? events i).isSome ∧ .reset ∉ events.drop i ∧
      (openStarts (events.take i)).head? = (openStarts events).head? := by
  unfold childStarts
  rw [List.mem_filter, List.mem_range, decide_eq_true_eq]
  exact and_iff_right_of_imp fun h => lt_length_of_isSome_startedAt? h.1

theorem pairwise_childStarts (events : List StreamEvent) : (childStarts events).Pairwise (· < ·) :=
  List.pairwise_lt_range.filter _

theorem lt_length_of_mem_childStarts (h : i ∈ childStarts events) : i < events.length :=
  lt_length_of_isSome_startedAt? (mem_childStarts.1 h).1

theorem lt_of_head?_openStarts_take (h : (openStarts (events.take i)).head? = some j) : j < i := by
  have hlt := lt_length_of_mem_openStarts (List.mem_of_mem_head? h)
  rw [List.length_take] at hlt
  omega

/-- Nothing has started inside an element that has just started. -/
theorem childStarts_concat_starts : childStarts (events ++ [.starts element]) = [] := by
  apply List.eq_nil_iff_forall_not_mem.2
  intro i hi
  have hlt := lt_length_of_mem_childStarts hi
  obtain ⟨-, -, hparent⟩ := mem_childStarts.1 hi
  rw [openStarts_concat_starts, List.head?_cons] at hparent
  have hbefore := lt_of_head?_openStarts_take hparent
  rw [List.length_append, List.length_singleton] at hlt
  omega

theorem childStarts_concat_reset : childStarts (events ++ [.reset]) = [] := by
  apply List.eq_nil_iff_forall_not_mem.2
  intro i hi
  have hlt := lt_length_of_mem_childStarts hi
  rw [List.length_append, List.length_singleton] at hlt
  obtain ⟨-, hreset, -⟩ := mem_childStarts.1 hi
  apply hreset
  rw [List.drop_append_of_le_length (by omega)]
  exact List.mem_append_right _ (List.mem_singleton_self _)

/-- What an end leaves of the children: those whose parent is now the current element. -/
theorem mem_childStarts_concat_ends : i ∈ childStarts (events ++ [.ends]) ↔
    (startedAt? events i).isSome ∧ .reset ∉ events.drop i ∧
      (openStarts (events.take i)).head? = (openStarts events).tail.head? := by
  rw [mem_childStarts, openStarts_concat_ends, startedAt?_concat_of_eq_none rfl]
  refine and_congr_right fun hstart => ?_
  have hi := (lt_length_of_isSome_startedAt? hstart).le
  rw [List.drop_append_of_le_length hi, List.take_append_of_le_length hi]
  simp

/-- An end outside all elements starts nothing and closes nothing. -/
theorem childStarts_concat_ends_of_nil (h : openStarts events = []) :
    childStarts (events ++ [.ends]) = childStarts events := by
  refine eq_of_pairwise_of_mem_iff (pairwise_childStarts _) (pairwise_childStarts _) fun i => ?_
  rw [mem_childStarts_concat_ends, mem_childStarts, h]
  rfl

/-- An open element stands in the list with what came before it and what it has left open. -/
theorem exists_split_of_mem_openStarts (h : i ∈ openStarts events) :
    ∃ front element inside, events = front ++ .starts element :: inside ∧ front.length = i ∧
      LeavesOpen inside := by
  obtain ⟨hstart, hopen⟩ := mem_openStarts.1 h
  have hlt := lt_length_of_mem_openStarts h
  refine ⟨events.take i, ?_⟩
  unfold startedAt? at hstart
  rw [List.getElem?_eq_getElem hlt, Option.bind_some] at hstart
  cases hevent : events[i] with
  | starts element =>
    refine ⟨element, events.drop (i + 1), ?_, List.length_take_of_le hlt.le, hopen⟩
    rw [← hevent, List.getElem_cons_drop, List.take_append_drop]
  | ends =>
    rw [hevent] at hstart
    cases hstart
  | reset =>
    rw [hevent] at hstart
    cases hstart

/-- Inside an element that is still open, no element has a parent from outside. -/
theorem head?_openStarts_take_ne (hinside : LeavesOpen inside) (hi : front.length < i) :
    (openStarts ((front ++ .starts element :: inside).take i)).head? ≠
      (openStarts front).head? := by
  intro hparent
  obtain ⟨n, rfl⟩ : ∃ n, i = front.length + (n + 1) := ⟨i - (front.length + 1), by omega⟩
  rw [List.take_length_add_append, List.take_succ_cons] at hparent
  have hmem : front.length ∈ openStarts (front ++ .starts element :: inside.take n) := by
    apply length_mem_openStarts
    rw [← List.take_append_drop n inside] at hinside
    exact hinside.of_append
  cases hhead : (openStarts front).head? with
  | none =>
    rw [hhead, List.head?_eq_none_iff] at hparent
    rw [hparent] at hmem
    cases hmem
  | some parent =>
    have hle := le_of_head?_openStarts hmem (hparent.trans hhead)
    have hlt := lt_length_of_mem_openStarts (List.mem_of_mem_head? hhead)
    omega

/-- **The end of an element** adds the element to the children around it. -/
theorem childStarts_concat_ends {start : Nat} {outer : List Nat}
    (hopen : openStarts events = start :: outer)
    (houter : openStarts (events.take start) = outer) :
    childStarts (events ++ [.ends]) = childStarts (events.take start) ++ [start] := by
  obtain ⟨front, element, inside, rfl, rfl, hinside⟩ :=
    exists_split_of_mem_openStarts (hopen ▸ List.mem_cons_self)
  rw [List.take_left] at houter ⊢
  refine eq_of_pairwise_of_mem_iff (pairwise_childStarts _) ?_ fun i => ?_
  · rw [List.pairwise_append]
    refine ⟨pairwise_childStarts _, List.pairwise_singleton _ _, fun i hi j hj => ?_⟩
    obtain rfl := List.mem_singleton.1 hj
    exact lt_length_of_mem_childStarts hi
  rw [List.mem_append, List.mem_singleton, mem_childStarts_concat_ends, mem_childStarts, hopen,
    List.tail_cons, ← houter]
  have hreset : StreamEvent.reset ∉ StreamEvent.starts element :: inside := by
    simpa using hinside.1
  rcases Nat.lt_trichotomy i front.length with hi | rfl | hi
  · -- An earlier element is a child of the same parent now if it was one before.
    rw [startedAt?_append hi, List.drop_append_of_le_length hi.le,
      List.take_append_of_le_length hi.le, List.mem_append, or_iff_left hreset,
      or_iff_left hi.ne]
  · -- The element that ends is one of them.
    rw [List.drop_left, List.take_left]
    refine iff_of_true ⟨?_, hreset, rfl⟩ (Or.inr rfl)
    exact (mem_openStarts.1 (length_mem_openStarts hinside)).1
  · -- What started later started while the element was open, so its parent is another one.
    have hlater : ¬ (startedAt? front i).isSome := fun h =>
      absurd (lt_length_of_isSome_startedAt? h) (by omega)
    rw [or_iff_left hi.ne']
    refine iff_of_false ?_ fun h => hlater h.1
    rintro ⟨-, -, hparent⟩
    exact head?_openStarts_take_ne hinside hi hparent

end Events

/-! ### The document that is read -/

/-- What the events tell of a path of open elements: with which events they started, and how many
siblings started before each. -/
inductive Tells (events : List StreamEvent) : List Nat → List Level → Prop
  | nil : Tells events [] []
  | cons {start : Nat} {outer : List Nat} {level : Level} {above : List Level} :
      startedAt? events start = some level.element →
      openStarts (events.take start) = outer →
      (childStarts (events.take start)).length = level.earlier.length →
      Tells events outer above → Tells events (start :: outer) (level :: above)

section Tells

variable {events later : List StreamEvent} {starts : List Nat} {path : List Level}

/-- What has been told stays true. -/
theorem Tells.append (h : Tells events starts path) : Tells (events ++ later) starts path := by
  induction h with
  | nil => exact .nil
  | @cons start outer level above hstart houter hearlier _ ih =>
    have hlt : start < events.length :=
      lt_length_of_isSome_startedAt? (Option.isSome_of_eq_some hstart)
    have htake : (events ++ later).take start = events.take start :=
      List.take_append_of_le_length hlt.le
    refine .cons ?_ ?_ ?_ ih
    · rw [startedAt?_append hlt]
      exact hstart
    · rw [htake]
      exact houter
    · rw [htake]
      exact hearlier

theorem Tells.filterMap_startedAt? (h : Tells events starts path) :
    starts.filterMap (startedAt? events) = path.map (·.element) := by
  induction h with
  | nil => rfl
  | cons hstart _ _ _ ih => rw [List.filterMap_cons_some hstart, ih, List.map_cons]

/-- **The events tell the document**: the open elements, the earlier siblings of each, and the
children of the innermost one that have ended. -/
theorem tells_reading (events : List StreamEvent) :
    Tells events (openStarts events) (Reading.of events).path ∧
      (childStarts events).length = (Reading.of events).closed.length := by
  induction events using List.reverseRecOn with
  | nil => exact ⟨.nil, rfl⟩
  | append_singleton events event ih =>
    obtain ⟨hpath, hclosed⟩ := ih
    have hof : Reading.of (events ++ [event]) = (Reading.of events).advance event := by
      unfold Reading.of
      rw [List.foldl_append]
      rfl
    rw [hof]
    cases event with
    | starts element =>
      rw [openStarts_concat_starts, childStarts_concat_starts]
      refine ⟨.cons ?_ ?_ ?_ hpath.append, rfl⟩
      · rw [startedAt?_concat_self]
        rfl
      · rw [List.take_left]
      · rw [List.take_left]
        exact hclosed
    | ends =>
      rw [openStarts_concat_ends]
      generalize hreading : Reading.of events = reading at hpath hclosed ⊢
      obtain ⟨path, closed⟩ := reading
      generalize hopen : openStarts events = starts at hpath ⊢
      cases hpath with
      | nil =>
        rw [childStarts_concat_ends_of_nil hopen]
        exact ⟨.nil, hclosed⟩
      | cons hstart houter hearlier habove =>
        rw [childStarts_concat_ends hopen houter, List.length_append, hearlier]
        exact ⟨habove.append, rfl⟩
    | reset =>
      rw [openStarts_concat_reset, childStarts_concat_reset]
      exact ⟨.nil, rfl⟩

theorem openElements_eq (events : List StreamEvent) :
    openElements events = (Reading.of events).path.map (·.element) :=
  (tells_reading events).1.filterMap_startedAt?

end Tells

end StyleStream
