/-
  The history of an engine: what has been done with it, operation by operation.

  What a full cache gives up is a choice, and a history may choose anew each time,
  so a compilation in a history comes with an `Eviction`. The sheets that survive a
  history are told without an engine; the engine's own list has the same sheets,
  origin by origin (`sheets_run`).
-/
import StyleStream.Engine
import StyleStream.Proofs.Sorting

namespace StyleStream

/-- A choice of what stays in a full cache: half of the entries, rounded down. -/
structure Eviction where
  keep : List (CacheKey × Compiled) → List (CacheKey × Compiled)
  sublist : ∀ entries, (keep entries).Sublist entries
  length_eq : ∀ entries, (keep entries).length = entries.length / 2

/-- The newer half stays. -/
def Eviction.newerHalf : Eviction where
  keep := Cache.newerHalf
  sublist _ := List.drop_sublist _ _
  length_eq entries := by
    rw [Cache.newerHalf, List.length_drop]
    omega

/-- Something that is done with an engine. -/
inductive Operation where
  | addSheet (sheet : Sheet)
  | removeSource (source : String)
  | clearSheets
  | compile (eviction : Eviction)
  | matcher (eviction : Eviction)
  | invalidateAll

namespace Engine

def apply (e : Engine) : Operation → Engine
  | .addSheet sheet => e.addSheet sheet
  | .removeSource source => e.removeSource source
  | .clearSheets => e.clearSheets
  | .compile eviction => (e.compileKeeping eviction.keep).2
  | .matcher eviction => (e.matcherKeeping eviction.keep).2.2
  | .invalidateAll => e.invalidateAll

def run (e : Engine) (history : List Operation) : Engine :=
  history.foldl apply e

end Engine

/-! ### The sheets that survive -/

/-- The sheets after an operation, in the order in which they were registered. -/
def Operation.sheetsAfter (sheets : List Sheet) : Operation → List Sheet
  | addSheet sheet => sheets ++ [sheet]
  | removeSource source => sheets.filter fun sheet => sheet.source ≠ some source
  | clearSheets => []
  | compile _ | matcher _ | invalidateAll => sheets

/-- The sheets that a history leaves registered, in the order in which they were registered. -/
def survivors (history : List Operation) : List Sheet :=
  history.foldl Operation.sheetsAfter []

/-- The sheets of one origin. -/
def sheetsOf (sheets : List Sheet) (origin : Origin) : List Sheet :=
  sheets.filter (·.origin = origin)

/-- The sheets origin by origin. -/
def byOrigin (sheets : List Sheet) : List Sheet :=
  sheetsOf sheets .userAgent ++ sheetsOf sheets .user ++ sheetsOf sheets .author

section ByOrigin

variable {sheets sheets' : List Sheet}

theorem rank_trans (a b c : Sheet) (hab : decide (a.origin.rank ≤ b.origin.rank))
    (hbc : decide (b.origin.rank ≤ c.origin.rank)) : decide (a.origin.rank ≤ c.origin.rank) :=
  decide_eq_true (Nat.le_trans (of_decide_eq_true hab) (of_decide_eq_true hbc))

theorem rank_total (a b : Sheet) :
    decide (a.origin.rank ≤ b.origin.rank) || decide (b.origin.rank ≤ a.origin.rank) := by
  rw [Bool.or_eq_true, decide_eq_true_eq, decide_eq_true_eq]
  exact Nat.le_total _ _

theorem mem_sheetsOf {sheet : Sheet} {origin : Origin} :
    sheet ∈ sheetsOf sheets origin ↔ sheet ∈ sheets ∧ sheet.origin = origin := by
  rw [sheetsOf, List.mem_filter, decide_eq_true_eq]

theorem sheetsOf_append (sheets sheets' : List Sheet) (origin : Origin) :
    sheetsOf (sheets ++ sheets') origin = sheetsOf sheets origin ++ sheetsOf sheets' origin :=
  List.filter_append ..

theorem sheetsOf_self {origin : Origin} (h : ∀ sheet ∈ sheets, sheet.origin = origin) :
    sheetsOf sheets origin = sheets :=
  List.filter_eq_self.2 fun sheet hsheet => decide_eq_true (h sheet hsheet)

theorem sheetsOf_of_ne {origin : Origin} (h : ∀ sheet ∈ sheets, sheet.origin ≠ origin) :
    sheetsOf sheets origin = [] :=
  List.filter_eq_nil_iff.2 fun sheet hsheet => by simpa using h sheet hsheet

theorem sheetsOf_sheetsOf_of_ne {origin origin' : Origin} (h : origin ≠ origin') :
    sheetsOf (sheetsOf sheets origin) origin' = [] :=
  sheetsOf_of_ne fun _ hsheet heq => h ((mem_sheetsOf.1 hsheet).2.symm.trans heq)

theorem sheetsOf_byOrigin (sheets : List Sheet) (origin : Origin) :
    sheetsOf (byOrigin sheets) origin = sheetsOf sheets origin := by
  have hself : sheetsOf (sheetsOf sheets origin) origin = sheetsOf sheets origin :=
    sheetsOf_self fun _ hsheet => (mem_sheetsOf.1 hsheet).2
  rw [byOrigin, sheetsOf_append, sheetsOf_append]
  cases origin with
  | userAgent =>
    rw [hself, sheetsOf_sheetsOf_of_ne (by decide), sheetsOf_sheetsOf_of_ne (by decide)]
    simp
  | user =>
    rw [hself, sheetsOf_sheetsOf_of_ne (by decide), sheetsOf_sheetsOf_of_ne (by decide)]
    simp
  | author =>
    rw [hself, sheetsOf_sheetsOf_of_ne (by decide), sheetsOf_sheetsOf_of_ne (by decide)]
    simp

theorem byOrigin_congr (h : ∀ origin, sheetsOf sheets origin = sheetsOf sheets' origin) :
    byOrigin sheets = byOrigin sheets' := by
  unfold byOrigin
  rw [h, h, h]

/-- Sheets in ascending order of their origins stand origin by origin. -/
theorem eq_byOrigin_of_pairwise
    (h : sheets.Pairwise fun a b => a.origin.rank ≤ b.origin.rank) : sheets = byOrigin sheets := by
  induction sheets with
  | nil => rfl
  | cons sheet rest ih =>
    rw [List.pairwise_cons] at h
    -- No sheet of a lower origin follows.
    have hlow : ∀ origin, origin.rank < sheet.origin.rank → sheetsOf rest origin = [] := by
      intro origin hlt
      refine sheetsOf_of_ne fun other hother heq => ?_
      have hle := h.1 other hother
      rw [heq] at hle
      omega
    have hcons : ∀ origin, sheetsOf (sheet :: rest) origin =
        if sheet.origin = origin then sheet :: sheetsOf rest origin else sheetsOf rest origin := by
      intro origin
      simp [sheetsOf, List.filter_cons]
    have hhead : byOrigin (sheet :: rest) = sheet :: byOrigin rest := by
      cases horigin : sheet.origin with
      | userAgent => simp [byOrigin, hcons, horigin]
      | user =>
        have hfirst := hlow .userAgent (by rw [horigin]; decide)
        simp [byOrigin, hcons, horigin, hfirst]
      | author =>
        have hfirst := hlow .userAgent (by rw [horigin]; decide)
        have hsecond := hlow .user (by rw [horigin]; decide)
        simp [byOrigin, hcons, horigin, hfirst, hsecond]
    rw [hhead, ← ih h.2]

/-- Sorting by origin is stable. -/
theorem sheetsOf_mergeSort (sheets : List Sheet) (origin : Origin) :
    sheetsOf (sheets.mergeSort fun a b => a.origin.rank ≤ b.origin.rank) origin =
      sheetsOf sheets origin := by
  refine filter_mergeSort rank_trans rank_total fun a b ha hb => ?_
  rw [of_decide_eq_true ha, of_decide_eq_true hb]
  exact decide_eq_true (Nat.le_refl _)

end ByOrigin

namespace Engine

theorem sheets_apply {e : Engine} {sheets : List Sheet} (h : e.sheets = byOrigin sheets)
    (operation : Operation) :
    (e.apply operation).sheets = byOrigin (operation.sheetsAfter sheets) := by
  cases operation with
  | addSheet sheet =>
    have hsorted := List.pairwise_mergeSort rank_trans rank_total (e.sheets ++ [sheet])
    show (e.sheets ++ [sheet]).mergeSort (fun a b => a.origin.rank ≤ b.origin.rank) = _
    rw [eq_byOrigin_of_pairwise (hsorted.imp of_decide_eq_true)]
    refine byOrigin_congr fun origin => ?_
    rw [sheetsOf_mergeSort, h, sheetsOf_append, sheetsOf_byOrigin, ← sheetsOf_append]
    rfl
  | removeSource source =>
    have hcomm : ∀ origin,
        (sheetsOf sheets origin).filter (fun sheet => sheet.source ≠ some source) =
          sheetsOf (sheets.filter fun sheet => sheet.source ≠ some source) origin := by
      intro origin
      simp only [sheetsOf, List.filter_filter, Bool.and_comm]
    show e.sheets.filter (fun sheet => sheet.source ≠ some source) = _
    rw [h, byOrigin, List.filter_append, List.filter_append, hcomm, hcomm, hcomm]
    rfl
  | clearSheets => rfl
  | compile eviction => exact h
  | matcher eviction => exact h
  | invalidateAll => exact h

/-- **An engine lists the surviving sheets origin by origin**, and those of one origin in the
order in which they were registered. -/
theorem sheets_run (config : Config) (history : List Operation) :
    ((new config).run history).sheets = byOrigin (survivors history) := by
  have key : ∀ (history : List Operation) (e : Engine) (sheets : List Sheet),
      e.sheets = byOrigin sheets →
        (e.run history).sheets = byOrigin (history.foldl Operation.sheetsAfter sheets) := by
    intro history
    induction history with
    | nil => intro e sheets h; exact h
    | cons operation history ih =>
      intro e sheets h
      exact ih (e.apply operation) _ (sheets_apply h operation)
  exact key history (new config) [] rfl

end Engine

end StyleStream
