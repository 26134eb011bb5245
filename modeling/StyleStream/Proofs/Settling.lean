/-
  How live states are settled.

  The condition closure of a list of live states is the smallest set that holds them and that is
  closed under guarded edges whose conditions hold (`LeastClosed`). It is computed in rounds: a
  state that waits is taken, its guards are tried, and the states behind those that open are
  added to the live ones and wait in turn, unless they are live already. A condition is decided
  when it is first asked about, and its answer is remembered.

  A round may take any of the states that wait, so a run is given by the places of those that it
  takes (`Settling.run?`). `Settling.Sound` is what a round preserves. From it follows that a run
  never gets stuck, that it takes no state twice, and that all runs end with the same states
  (`Settles`). One of the runs always takes the state that came last (`Settling.finish?`).

  A `Reader` says how the rounds look up conditions and guards: as they are, or by numbers that are
  kept in words, with lookups that can fail.
-/
import StyleStream.Proofs.Machines
import Mathlib.Data.List.Perm.Subperm

namespace StyleStream

/-! ### Closed sets of states -/

/-- A guarded edge whose condition holds leads to a state from which silent edges lead on. -/
def Nfa.Follows (nfa : Nfa) (labels : Labels) (context : Context) (q p : StateId) : Prop :=
  ∃ condition test target, ⟨.guard condition, target⟩ ∈ (nfa.state q).edges ∧
    labels.conditions[condition]? = some test ∧ context.holds test ∧ p ∈ nfa.closure [target]

/-- A guarded edge whose condition holds leads from one state to the other. -/
def Dfa.Follows (dfa : Dfa) (labels : Labels) (context : Context) (q p : StateId) : Prop :=
  ∃ condition test, (condition, p) ∈ (dfa.state q).conditions ∧
    labels.conditions[condition]? = some test ∧ context.holds test

/-- The members of the smallest set that holds the live states and that no edge leaves, in
strictly ascending order. -/
structure LeastClosed (follows : StateId → StateId → Prop) (live result : List StateId) :
    Prop where
  ascending : result.Pairwise (· < ·)
  superset : ∀ q ∈ live, q ∈ result
  closed : ∀ q ∈ result, ∀ p, follows q p → p ∈ result
  least : ∀ set : StateId → Prop, (∀ q ∈ live, set q) → (∀ q p, set q → follows q p → set p) →
    ∀ q ∈ result, set q

/-- Whether the condition with a number holds. A number that no condition has counts as
refused. -/
def Labels.verdict (labels : Labels) (context : Context) (condition : ConditionId) : Bool :=
  (labels.conditions.map context.holds).toArray.getD condition false

section Follows

variable {labels : Labels} {context : Context} {q p : StateId}

theorem Nfa.follows_iff_mem_fire {nfa : Nfa} : nfa.Follows labels context q p ↔
    p ∈ Machine.fire nfa (labels.verdict context) q := by
  simp only [Machine.mem_fire_nfa, State.mem_targets, Labels.verdict, Labels.getD_verdicts]
  constructor
  · rintro ⟨condition, test, target, hedge, htest, hholds, hp⟩
    exact ⟨condition, target, hedge, ⟨test, htest, hholds⟩, hp⟩
  · rintro ⟨condition, target, hedge, ⟨test, htest, hholds⟩, hp⟩
    exact ⟨condition, test, target, hedge, htest, hholds, hp⟩

theorem Dfa.follows_iff_mem_fire {dfa : Dfa} : dfa.Follows labels context q p ↔
    p ∈ Machine.fire dfa (labels.verdict context) q := by
  simp only [Machine.mem_fire_dfa, Labels.verdict, Labels.getD_verdicts]
  constructor
  · rintro ⟨condition, test, hedge, htest, hholds⟩
    exact ⟨condition, hedge, test, htest, hholds⟩
  · rintro ⟨condition, hedge, test, htest, hholds⟩
    exact ⟨condition, test, hedge, htest, hholds⟩

end Follows

theorem LeastClosed.congr {follows follows' : StateId → StateId → Prop} {live result : List StateId}
    (h : LeastClosed follows live result) (hiff : ∀ q p, follows q p ↔ follows' q p) :
    LeastClosed follows' live result := by
  obtain rfl : follows = follows' := funext fun q => funext fun p => propext (hiff q p)
  exact h

/-! ### Answers -/

/-- The answer to a condition: the one that is remembered, or else the one found now, which is
remembered from now on. The tables are looked up at what is read back of the number. -/
def ask? (index : ConditionId → Nat) (labels : Labels) (context : Context)
    (answers : List (Option Bool)) (condition : ConditionId) :
    Option (Bool × List (Option Bool)) := do
  match ← answers[index condition]? with
  | some answer => return (answer, answers)
  | none =>
    let answer := context.holds (← labels.conditions[index condition]?)
    return (answer, answers.set (index condition) (some answer))

/-- Tries guards in order, and returns the states behind those that open. -/
def open? (index : ConditionId → Nat) (labels : Labels) (context : Context) :
    List (ConditionId × List StateId) → List (Option Bool) →
      Option (List StateId × List (Option Bool))
  | [], answers => some ([], answers)
  | (condition, behind) :: rest, answers => do
    let (answer, answers) ← ask? index labels context answers condition
    let (states, answers) ← open? index labels context rest answers
    return ((if answer then behind else []) ++ states, answers)

/-- There is room for one answer to each condition, and those that are remembered are right. -/
structure Remembers (labels : Labels) (context : Context) (answers : List (Option Bool)) :
    Prop where
  length_eq : answers.length = labels.conditions.length
  holds_eq : ∀ (condition : ConditionId) answer, answers[condition]? = some (some answer) →
    labels.conditions[condition]?.map context.holds = some answer

section Answers

variable {index : ConditionId → Nat} {labels : Labels} {context : Context}
  {answers : List (Option Bool)} {condition : ConditionId}

theorem remembers_replicate :
    Remembers labels context (List.replicate labels.conditions.length none) where
  length_eq := List.length_replicate
  holds_eq condition answer h := by
    rw [List.getElem?_replicate] at h
    split at h <;> simp at h

theorem Labels.verdict_eq {test : Condition} (h : labels.conditions[condition]? = some test) :
    labels.verdict context condition = context.holds test := by
  rw [verdict, Bool.eq_iff_iff, getD_verdicts, h]
  simp

variable (hindex : ∀ condition < labels.conditions.length, index condition = condition)
include hindex

/-- **An answer is the same**, whether it is remembered or not. Afterwards it is remembered. -/
theorem Remembers.ask?_eq (h : Remembers labels context answers)
    (hlt : condition < labels.conditions.length) :
    ∃ answers', ask? index labels context answers condition =
        some (labels.verdict context condition, answers') ∧
      answers'[condition]? = some (some (labels.verdict context condition)) ∧
      Remembers labels context answers' := by
  have htest := List.getElem?_eq_getElem hlt
  rw [Labels.verdict_eq htest]
  obtain ⟨entry, hentry⟩ : ∃ entry, answers[condition]? = some entry :=
    ⟨_, List.getElem?_eq_getElem (h.length_eq ▸ hlt)⟩
  unfold ask?
  rw [hindex condition hlt, hentry]
  cases entry with
  | some answer =>
    have hright := h.holds_eq condition answer hentry
    rw [htest, Option.map_some, Option.some.injEq] at hright
    rw [hright]
    exact ⟨answers, rfl, hentry, h⟩
  | none =>
    have hset := List.getElem?_set_self (a := some (context.holds labels.conditions[condition]))
      (h.length_eq ▸ hlt)
    rw [htest]
    refine ⟨_, rfl, hset, by rw [List.length_set]; exact h.length_eq, ?_⟩
    intro other answer hother
    by_cases heq : condition = other
    · subst heq
      rw [hset, Option.some.injEq, Option.some.injEq] at hother
      rw [htest, ← hother, Option.map_some]
    · rw [List.getElem?_set_ne heq] at hother
      exact h.holds_eq other answer hother

/-- **The guards that open** are those whose conditions hold. -/
theorem Remembers.open?_eq {guards : List (ConditionId × List StateId)}
    (h : Remembers labels context answers)
    (hguards : ∀ guarded ∈ guards, guarded.1 < labels.conditions.length) :
    ∃ answers', open? index labels context guards answers =
      some ((guards.filter fun guarded => labels.verdict context guarded.1).flatMap (·.2),
        answers') ∧ Remembers labels context answers' := by
  induction guards generalizing answers with
  | nil => exact ⟨answers, rfl, h⟩
  | cons guarded rest ih =>
    obtain ⟨hlt, hrest⟩ := List.forall_mem_cons.1 hguards
    obtain ⟨answers₁, hask, -, h₁⟩ := h.ask?_eq hindex hlt
    obtain ⟨answers₂, hopen, h₂⟩ := ih h₁ hrest
    refine ⟨answers₂, ?_, h₂⟩
    unfold open?
    simp only [hask, hopen, Option.bind_eq_bind, Option.bind_some]
    rw [List.filter_cons]
    split
    · rfl
    · rfl

end Answers

/-! ### Rounds -/

/-- The guards of an automaton ask about conditions of its table, and lead to its states. -/
def Automaton.Guarded {M : Type} [Machine M] (a : Automaton M) : Prop :=
  ∀ q < Machine.size a.machine, ∀ guarded ∈ Machine.guards a.machine q,
    guarded.1 < a.labels.conditions.length ∧ ∀ p ∈ guarded.2, p < Machine.size a.machine

theorem Automaton.Guarded.fire_lt {M : Type} [Machine M] {a : Automaton M} (h : a.Guarded)
    {holds : ConditionId → Bool} {q p : StateId} (hq : q < Machine.size a.machine)
    (hp : p ∈ Machine.fire a.machine holds q) : p < Machine.size a.machine := by
  obtain ⟨guarded, hguard, -, hp⟩ := Machine.mem_fire.1 hp
  exact (h q hq guarded hguard).2 p hp

/-- How the rounds look up conditions and guards. -/
structure Reader (M : Type) where
  /-- What is read back of the number of a condition. -/
  index : ConditionId → Nat
  guards? : M → StateId → Option (List (ConditionId × List StateId))

namespace Reader

variable {M : Type} [Machine M]

/-- Numbers are read as they are, and every state has its guards. -/
def direct : Reader M where
  index := id
  guards? m q := some (Machine.guards m q)

/-- Numbers are read from words of 32 bits, and it can fail to look up a state. -/
def words [Machine.Lookups M] : Reader M where
  index := stored
  guards? := Machine.Lookups.guards?

/-- What is read about an automaton is what is there. -/
structure Faithful (reader : Reader M) (a : Automaton M) : Prop where
  index_eq : ∀ condition < a.labels.conditions.length, reader.index condition = condition
  guards?_eq : ∀ q < Machine.size a.machine,
    reader.guards? a.machine q = some (Machine.guards a.machine q)

theorem faithful_direct (a : Automaton M) : (direct : Reader M).Faithful a :=
  ⟨fun _ _ => rfl, fun _ _ => rfl⟩

end Reader

/-- Live states that are not settled yet. -/
structure Settling where
  live : List StateId
  /-- The live states whose guards have not been tried. -/
  pending : List StateId
  /-- The answers to the conditions that have been asked about. -/
  answers : List (Option Bool)
deriving DecidableEq

namespace Settling

variable {M : Type}

/-- Before the first round every live state waits, and nothing has been asked. -/
def begin (a : Automaton M) (live : List StateId) : Settling where
  live := live
  pending := live
  answers := List.replicate a.labels.conditions.length none

/-- A state that is not live yet becomes so, and waits. -/
def activate (s : Settling) (q : StateId) : Settling :=
  if q ∈ s.live then s else { s with live := s.live ++ [q], pending := s.pending ++ [q] }

/-- **One round**: the state that waits at place `i` is taken, and the states behind its guards
become live. -/
def round? (reader : Reader M) (a : Automaton M) (context : Context) (s : Settling) (i : Nat) :
    Option Settling := do
  let q ← s.pending[i]?
  let guards ← reader.guards? a.machine q
  let (states, answers) ← open? reader.index a.labels context guards s.answers
  return states.foldl activate { s with pending := s.pending.eraseIdx i, answers }

/-- Some rounds, by the places of the states that they take. -/
def run? (reader : Reader M) (a : Automaton M) (context : Context) (live : List StateId)
    (places : List Nat) : Option Settling :=
  places.foldlM (round? reader a context) (begin a live)

/-- **Rounds until nothing waits**, each with the state that came last. The live states are the
result. There is none if a round fails, nor if something still waits after so many rounds. -/
def finish? (reader : Reader M) (a : Automaton M) (context : Context) :
    Nat → Settling → Option (List StateId)
  | 0, s => if s.pending = [] then some s.live else none
  | rounds + 1, s =>
    if s.pending = [] then some s.live
    else do
      let next ← round? reader a context s (s.pending.length - 1)
      finish? reader a context rounds next

theorem finish?_of_pending_eq_nil (reader : Reader M) (a : Automaton M) (context : Context)
    {s : Settling} (h : s.pending = []) (rounds : Nat) :
    finish? reader a context rounds s = some s.live := by
  cases rounds <;> rw [finish?, if_pos h]

/-- **The states that become live** wait. Nothing else changes. -/
theorem foldl_activate (states live pending : List StateId) (answers : List (Option Bool)) :
    ∃ fresh, states.foldl intern live = live ++ fresh ∧
      states.foldl activate ⟨live, pending, answers⟩ =
        ⟨live ++ fresh, pending ++ fresh, answers⟩ := by
  induction states generalizing live pending with
  | nil => exact ⟨[], by simp⟩
  | cons q rest ih =>
    rw [List.foldl_cons, List.foldl_cons]
    by_cases hq : q ∈ live
    · rw [intern, if_pos hq, activate, if_pos hq]
      exact ih live pending
    · rw [intern, if_neg hq, activate, if_neg hq]
      obtain ⟨fresh, hlive, hactivate⟩ := ih (live ++ [q]) (pending ++ [q])
      rw [List.append_assoc] at hlive
      rw [List.append_assoc, List.append_assoc] at hactivate
      exact ⟨q :: fresh, hlive, hactivate⟩

/-! ### What a run preserves -/

variable [Machine M]

/-- What is true after a number of rounds. -/
structure Sound (a : Automaton M) (context : Context) (live : List StateId) (rounds : Nat)
    (s : Settling) : Prop where
  nodup : s.live.Nodup
  pending_subset : ∀ q ∈ s.pending, q ∈ s.live
  start_subset : ∀ q ∈ live, q ∈ s.live
  reachable : ∀ q ∈ s.live, Reachable (Machine.size a.machine)
    (Machine.fire a.machine (a.labels.verdict context)) live q
  /-- A live state waits until its guards have been tried. -/
  tried : ∀ q ∈ s.live, q ∈ s.pending ∨
    ∀ p ∈ Machine.fire a.machine (a.labels.verdict context) q, p ∈ s.live
  /-- A round takes one of the live states for good. -/
  count : rounds + s.pending.length = s.live.length
  remembers : Remembers a.labels context s.answers

variable {reader : Reader M} {a : Automaton M} {context : Context} {live : List StateId}
  {places : List Nat} {rounds i : Nat} {s : Settling}

theorem sound_begin (hlive : live.Pairwise (· < ·))
    (hlt : ∀ q ∈ live, q < Machine.size a.machine) :
    (begin a live).Sound a context live 0 where
  nodup := hlive.imp Nat.ne_of_lt
  pending_subset _ hq := hq
  start_subset _ hq := hq
  reachable q hq := .seed hq (hlt q hq)
  tried _ hq := Or.inl hq
  count := Nat.zero_add _
  remembers := remembers_replicate

theorem Sound.pending_lt (h : s.Sound a context live rounds) {q : StateId}
    (hq : q ∈ s.pending) : q < Machine.size a.machine :=
  (h.reachable q (h.pending_subset q hq)).lt

section Rounds

variable (hreader : reader.Faithful a) (hguarded : a.Guarded)
include hreader hguarded

/-- **What a round does**: it can be made with any state that waits. -/
theorem Sound.round?_eq (h : s.Sound a context live rounds) (hi : i < s.pending.length) :
    ∃ fresh answers,
      (Machine.fire a.machine (a.labels.verdict context) s.pending[i]).foldl intern s.live =
        s.live ++ fresh ∧
      Remembers a.labels context answers ∧
      round? reader a context s i =
        some ⟨s.live ++ fresh, s.pending.eraseIdx i ++ fresh, answers⟩ := by
  have hlt : s.pending[i] < Machine.size a.machine := h.pending_lt (List.getElem_mem hi)
  obtain ⟨answers, hopen, hremembers⟩ := h.remembers.open?_eq hreader.index_eq
    fun guarded hmem => (hguarded s.pending[i] hlt guarded hmem).1
  obtain ⟨fresh, hintern, hactivate⟩ :=
    foldl_activate (Machine.fire a.machine (a.labels.verdict context) s.pending[i]) s.live
      (s.pending.eraseIdx i) answers
  refine ⟨fresh, answers, hintern, hremembers, ?_⟩
  unfold round?
  rw [List.getElem?_eq_getElem hi]
  simp only [Option.bind_eq_bind, Option.bind_some, hreader.guards?_eq _ hlt, hopen]
  exact congrArg some hactivate

/-- **A round preserves** what is true. -/
theorem Sound.round (h : s.Sound a context live rounds) (hi : i < s.pending.length) :
    ∃ s', round? reader a context s i = some s' ∧ s'.Sound a context live (rounds + 1) := by
  obtain ⟨fresh, answers, hintern, hremembers, hround⟩ := h.round?_eq hreader hguarded hi
  refine ⟨_, hround, ?_⟩
  -- The state that is taken, and the rest of those that wait.
  have htaken : (s.pending[i] :: s.pending.eraseIdx i).Perm s.pending :=
    List.getElem_cons_eraseIdx_perm hi
  generalize s.pending[i] = q at hintern htaken
  have hmem : ∀ p, p ∈ s.live ++ fresh ↔
      p ∈ s.live ∨ p ∈ Machine.fire a.machine (a.labels.verdict context) q := by
    intro p
    rw [← hintern]
    exact mem_foldl_intern
  constructor
  case nodup =>
    show (s.live ++ fresh).Nodup
    rw [← hintern]
    exact nodup_foldl_intern h.nodup
  case pending_subset =>
    intro p hp
    rcases List.mem_append.1 hp with hp | hp
    · exact List.mem_append_left _ (h.pending_subset p (List.mem_of_mem_eraseIdx hp))
    · exact List.mem_append_right _ hp
  case start_subset =>
    intro p hp
    exact List.mem_append_left _ (h.start_subset p hp)
  case reachable =>
    intro p hp
    rcases (hmem p).1 hp with hp | hp
    · exact h.reachable p hp
    · have hq := h.reachable q (h.pending_subset q (htaken.mem_iff.1 List.mem_cons_self))
      exact .step hq hp (hguarded.fire_lt hq.lt hp)
  case tried =>
    intro p hp
    rcases List.mem_append.1 hp with hp | hp
    · rcases h.tried p hp with hwaits | htried
      · -- What has waited is the state that was taken, or it goes on waiting.
        rcases List.mem_cons.1 (htaken.mem_iff.2 hwaits) with rfl | hwaits
        · exact Or.inr fun r hr => (hmem r).2 (Or.inr hr)
        · exact Or.inl (List.mem_append_left _ hwaits)
      · exact Or.inr fun r hr => (hmem r).2 (Or.inl (htried r hr))
    · exact Or.inl (List.mem_append_right _ hp)
  case count =>
    show rounds + 1 + (s.pending.eraseIdx i ++ fresh).length = (s.live ++ fresh).length
    have hlength := htaken.length_eq
    have hcount := h.count
    rw [List.length_cons] at hlength
    rw [List.length_append, List.length_append]
    omega
  case remembers => exact hremembers

/-- **Whatever is taken**, a run preserves it. -/
theorem Sound.foldlM (h : s.Sound a context live rounds) {s' : Settling}
    (hrun : places.foldlM (round? reader a context) s = some s') :
    s'.Sound a context live (rounds + places.length) := by
  induction places generalizing s rounds with
  | nil =>
    obtain rfl : s = s' := Option.some.inj hrun
    exact h
  | cons i rest ih =>
    rw [List.foldlM_cons] at hrun
    obtain ⟨next, hround, hrest⟩ := Option.bind_eq_some_iff.1 hrun
    have hi : i < s.pending.length := by
      unfold round? at hround
      obtain ⟨_, hplace, -⟩ := Option.bind_eq_some_iff.1 hround
      exact (List.getElem?_eq_some_iff.1 hplace).1
    obtain ⟨_, hround', hnext⟩ := h.round hreader hguarded hi
    obtain rfl := Option.some.inj (hround.symm.trans hround')
    have hsound := ih hnext hrest
    rw [Nat.add_assoc, Nat.add_comm 1] at hsound
    exact hsound

theorem sound_run (hlive : live.Pairwise (· < ·))
    (hlt : ∀ q ∈ live, q < Machine.size a.machine)
    (hrun : run? reader a context live places = some s) :
    s.Sound a context live places.length := by
  have h := (sound_begin hlive hlt).foldlM hreader hguarded hrun
  rw [Nat.zero_add] at h
  exact h

end Rounds

/-! ### Where a run ends -/

theorem Sound.mem_settle (h : s.Sound a context live rounds) {q : StateId} (hq : q ∈ s.live) :
    q ∈ Matcher.settle a context live :=
  mem_reach.2 (h.reachable q hq)

/-- **No state is taken twice**, so the rounds and the states that wait are no more than the
states that can be reached. -/
theorem Sound.rounds_add_length_le (h : s.Sound a context live rounds) :
    rounds + s.pending.length ≤ (Matcher.settle a context live).length := by
  rw [h.count]
  exact (h.nodup.subperm fun q hq => h.mem_settle hq).length_le

/-- **Every run can be finished.** Taking the state that came last does it, in no more rounds than
there are states that can be reached. -/
theorem Sound.exists_finished (hreader : reader.Faithful a) (hguarded : a.Guarded)
    (h : s.Sound a context live rounds) :
    ∃ (more : List Nat) (s' : Settling), more.foldlM (round? reader a context) s = some s' ∧
      s'.pending = [] ∧
      ∀ bound, (Matcher.settle a context live).length ≤ rounds + bound →
        finish? reader a context bound s = some s'.live := by
  -- By induction on the number of rounds that may still come.
  induction hleft : (Matcher.settle a context live).length - rounds using
    Nat.strong_induction_on generalizing rounds s with
  | _ left ih =>
    by_cases hdone : s.pending = []
    · exact ⟨[], s, rfl, hdone, fun bound _ => finish?_of_pending_eq_nil _ _ _ hdone bound⟩
    · have hpos : 0 < s.pending.length := List.length_pos_iff.2 hdone
      have hle := h.rounds_add_length_le
      obtain ⟨next, hround, hnext⟩ := h.round hreader hguarded (Nat.sub_lt hpos Nat.one_pos)
      obtain ⟨more, s', hmore, hdone', hfinish⟩ := ih _ (by omega) hnext rfl
      refine ⟨(s.pending.length - 1) :: more, s', ?_, hdone', fun bound hbound => ?_⟩
      · rw [List.foldlM_cons, hround]
        exact hmore
      · obtain ⟨bound, rfl⟩ : ∃ n, bound = n + 1 := ⟨bound - 1, by omega⟩
        rw [finish?, if_neg hdone, hround]
        exact hfinish bound (by omega)

/-- **When nothing waits** all states that can be reached are live. -/
theorem Sound.mergeSort_live (h : s.Sound a context live rounds) (hdone : s.pending = []) :
    s.live.mergeSort = Matcher.settle a context live := by
  have hmem : ∀ q, q ∈ s.live ↔ q ∈ Matcher.settle a context live := by
    intro q
    refine ⟨h.mem_settle, fun hq => ?_⟩
    induction mem_reach.1 hq with
    | seed hstart _ => exact h.start_subset _ hstart
    | step hr hfire _ ih =>
      rcases h.tried _ (ih (mem_reach.2 hr)) with hwaits | htried
      · rw [hdone] at hwaits
        exact absurd hwaits List.not_mem_nil
      · exact htried _ hfire
  exact mergeSort_eq_of_mem_iff h.nodup pairwise_reach hmem

theorem length_settle_le (a : Automaton M) (context : Context) (live : List StateId) :
    (Matcher.settle a context live).length ≤ Machine.size a.machine := by
  unfold Matcher.settle reach
  exact (List.length_filter_le _ _).trans_eq List.length_range

/-- **As many rounds as there are states** find all states that can be reached. -/
theorem exists_finish?_eq (hreader : reader.Faithful a) (hguarded : a.Guarded)
    (hlive : live.Pairwise (· < ·)) (hlt : ∀ q ∈ live, q < Machine.size a.machine) :
    ∃ states, finish? reader a context (Machine.size a.machine) (begin a live) = some states ∧
      states.mergeSort = Matcher.settle a context live := by
  have hbegin : (begin a live).Sound a context live 0 := sound_begin hlive hlt
  obtain ⟨more, s, hmore, hdone, hfinish⟩ := hbegin.exists_finished hreader hguarded
  have hbound : (Matcher.settle a context live).length ≤ 0 + Machine.size a.machine := by
    rw [Nat.zero_add]
    exact length_settle_le a context live
  exact ⟨s.live, hfinish _ hbound, (hbegin.foldlM hreader hguarded hmore).mergeSort_live hdone⟩

end Settling

/-! ### The condition closure -/

section Settle

variable {M : Type} [Machine M]

/-- How `result` comes from the live states, in whatever order those that wait are taken. -/
structure Settles (reader : Reader M) (a : Automaton M) (context : Context)
    (live result : List StateId) : Prop where
  /-- Without conditions there is nothing to do. -/
  unguarded : a.labels.conditions = [] → result = live
  /-- Any state that waits can be taken. -/
  proceeds : ∀ places s, Settling.run? reader a context live places = some s →
    ∀ i < s.pending.length, (Settling.round? reader a context s i).isSome
  /-- However the states are taken, the rounds come to an end. -/
  bounded : ∀ places s, Settling.run? reader a context live places = some s →
    places.length ≤ result.length
  /-- Every run can be finished. -/
  finishes : ∀ places s, Settling.run? reader a context live places = some s →
    ∃ more s', Settling.run? reader a context live (places ++ more) = some s' ∧ s'.pending = []
  /-- The end is the same for all runs. -/
  ends : ∀ places s, Settling.run? reader a context live places = some s → s.pending = [] →
    s.live.mergeSort = result
  /-- What is remembered of a condition is whether it holds. -/
  remembered : ∀ places s, Settling.run? reader a context live places = some s →
    ∀ (condition : ConditionId) answer, s.answers[condition]? = some (some answer) →
      a.labels.conditions[condition]?.map context.holds = some answer
  /-- This is also the answer when a condition is asked about, and from then on it is
  remembered. -/
  answered : ∀ places s, Settling.run? reader a context live places = some s →
    ∀ (condition : ConditionId) test, a.labels.conditions[condition]? = some test →
      ∃ answers, ask? reader.index a.labels context s.answers condition =
          some (context.holds test, answers) ∧
        answers[condition]? = some (some (context.holds test))

variable {reader : Reader M} {a : Automaton M} {context : Context} {live : List StateId}

/-- Where nothing is guarded, nothing is added. -/
theorem settle_of_conditions_eq_nil (hguarded : a.Guarded)
    (hlive : live.Pairwise (· < ·)) (hlt : ∀ q ∈ live, q < Machine.size a.machine)
    (hconditions : a.labels.conditions = []) : Matcher.settle a context live = live := by
  refine eq_of_pairwise_of_mem_iff pairwise_reach hlive fun q => ?_
  refine mem_reach.trans ⟨fun h => ?_, fun h => .seed h (hlt q h)⟩
  cases h with
  | seed h _ => exact h
  | step hr hfire _ =>
    obtain ⟨guarded, hguard, -, -⟩ := Machine.mem_fire.1 hfire
    have hcondition := (hguarded _ hr.lt guarded hguard).1
    rw [hconditions] at hcondition
    exact absurd hcondition (Nat.not_lt_zero _)

/-- **The condition closure is the least fixpoint**, edge by edge. -/
theorem leastClosed_settle (hguarded : a.Guarded)
    (hlt : ∀ q ∈ live, q < Machine.size a.machine) :
    LeastClosed (fun q p => p ∈ Machine.fire a.machine (a.labels.verdict context) q) live
      (Matcher.settle a context live) where
  ascending := pairwise_reach
  superset q hq := mem_reach.2 (.seed hq (hlt q hq))
  closed q hq p hp :=
    mem_reach.2 (.step (mem_reach.1 hq) hp (hguarded.fire_lt (mem_reach.1 hq).lt hp))
  least set hstart hclosed q hq := by
    induction mem_reach.1 hq with
    | seed hmem _ => exact hstart _ hmem
    | step hr hfire _ ih => exact hclosed _ _ (ih (mem_reach.2 hr)) hfire

/-- **The rounds compute the condition closure.** -/
theorem settles_settle (hreader : reader.Faithful a) (hguarded : a.Guarded)
    (hlive : live.Pairwise (· < ·)) (hlt : ∀ q ∈ live, q < Machine.size a.machine) :
    Settles reader a context live (Matcher.settle a context live) := by
  have hsound : ∀ {places s}, Settling.run? reader a context live places = some s →
      s.Sound a context live places.length := Settling.sound_run hreader hguarded hlive hlt
  constructor
  case unguarded => exact settle_of_conditions_eq_nil hguarded hlive hlt
  case proceeds =>
    intro places s hrun i hi
    obtain ⟨_, hround, -⟩ := (hsound hrun).round hreader hguarded hi
    rw [hround]
    rfl
  case bounded =>
    intro places s hrun
    have hle := (hsound hrun).rounds_add_length_le
    omega
  case finishes =>
    intro places s hrun
    obtain ⟨more, s', hmore, hdone, -⟩ := (hsound hrun).exists_finished hreader hguarded
    refine ⟨more, s', ?_, hdone⟩
    unfold Settling.run? at hrun ⊢
    rw [List.foldlM_append, hrun]
    exact hmore
  case ends =>
    intro places s hrun hdone
    exact (hsound hrun).mergeSort_live hdone
  case remembered =>
    intro places s hrun
    exact (hsound hrun).remembers.holds_eq
  case answered =>
    intro places s hrun condition test htest
    obtain ⟨answers, hask, hremembered, -⟩ :=
      (hsound hrun).remembers.ask?_eq hreader.index_eq (List.getElem?_eq_some_iff.1 htest).1
    rw [Labels.verdict_eq htest] at hask hremembered
    exact ⟨answers, hask, hremembered⟩

end Settle

/-! ### Compiled rules -/

namespace Automaton

/-- **The condition closure** of live states of compiled rules is the smallest set that holds them
and that is closed under guarded edges whose conditions hold. The rounds come to an end with it,
in whatever order the states that wait are taken. -/
theorem settle_exact (rules : List Rule) (context : Context) (live : List StateId)
    (hlive : live.Pairwise (· < ·)) :
    ((∀ q ∈ live, q < (compileNfa rules).machine.size) →
      LeastClosed ((compileNfa rules).machine.Follows (compileNfa rules).labels context) live
        (Matcher.settle (compileNfa rules) context live) ∧
      Settles .direct (compileNfa rules) context live
        (Matcher.settle (compileNfa rules) context live)) ∧
    ((∀ q ∈ live, q < (compile rules).machine.size) →
      LeastClosed ((compile rules).machine.Follows (compile rules).labels context) live
        (Matcher.settle (compile rules) context live) ∧
      Settles .direct (compile rules) context live (Matcher.settle (compile rules) context live)) := by
  have hnfa : (compileNfa rules).Guarded := fun q _ => (inRange_compileNfa rules).guard_lt q
  have hdfa : (compile rules).Guarded := fun q _ =>
    (inRange_ofNfa (inRange_compileNfa rules)).guard_lt q
  refine ⟨fun hlt => ⟨?_, settles_settle (Reader.faithful_direct _) hnfa hlive hlt⟩,
    fun hlt => ⟨?_, settles_settle (Reader.faithful_direct _) hdfa hlive hlt⟩⟩
  · exact (leastClosed_settle hnfa hlt).congr fun _ _ => Nfa.follows_iff_mem_fire.symm
  · exact (leastClosed_settle hdfa hlt).congr fun _ _ => Dfa.follows_iff_mem_fire.symm

/-- Two conditions on one element: the second is asked about where the first has led. -/
theorem settle_exact_compound :
    let compound : Rule := .of
      (((Selector.ofName "p").filtered (.className "a")).filtered (.className "b"))
      { property := "color", value := "red" }
    let context : Context := ⟨{ localName := "p", attributes := [⟨none, "class", "b a", .cdata⟩] },
      0, ""⟩
    let nfa := compileNfa [compound]
    let dfa := compile [compound]
    LeastClosed (nfa.machine.Follows nfa.labels context) [3] [1, 3, 4, 5] ∧
      Settles .direct nfa context [3] [1, 3, 4, 5] ∧
      LeastClosed (dfa.machine.Follows dfa.labels context) [1] [1, 2, 3] ∧
      Settles .direct dfa context [1] [1, 2, 3] := by
  intro compound context nfa dfa
  obtain ⟨hleast, hsettles⟩ :=
    (settle_exact [compound] context [3] (by decide)).1 (by decide +kernel)
  obtain ⟨hleast', hsettles'⟩ :=
    (settle_exact [compound] context [1] (by decide)).2 (by decide +kernel)
  have hnfa : Matcher.settle nfa context [3] = [1, 3, 4, 5] := by decide +kernel
  have hdfa : Matcher.settle dfa context [1] = [1, 2, 3] := by decide +kernel
  rw [hnfa] at hleast hsettles
  rw [hdfa] at hleast' hsettles'
  exact ⟨hleast, hsettles, hleast', hsettles'⟩

end Automaton

end StyleStream
