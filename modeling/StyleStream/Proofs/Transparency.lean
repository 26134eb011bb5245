/-
  The cache of an engine cannot be told from compiling anew.

  An entry is honest if it holds the automaton of every list of sheets that has its
  key. Each operation of an engine keeps all entries honest (`coherent_apply`): an
  entry comes into the cache with the automaton of the sheets registered then, and a
  key leaves no choice of the rules that are compiled for it (`mergeRules_eq_of_key`).
-/
import StyleStream.Proofs.Histories

namespace StyleStream

/-! ### Keys -/

/-- The rules of a list of sheets are determined by its key, wherever the positions start. -/
theorem mergeRules_eq_of_key {sheets sheets' : List Sheet} (taken : Origin → Nat)
    (h : CacheKey.of sheets = CacheKey.of sheets') :
    Engine.mergeRules taken sheets = Engine.mergeRules taken sheets' := by
  have hcontents : sheets.map (fun sheet => (sheet.origin, sheet.rules)) =
      sheets'.map fun sheet => (sheet.origin, sheet.rules) := congrArg CacheKey.contents h
  clear h
  induction sheets generalizing sheets' taken with
  | nil =>
    rw [List.map_nil, eq_comm, List.map_eq_nil_iff] at hcontents
    rw [hcontents]
  | cons sheet rest ih =>
    cases sheets' with
    | nil => cases hcontents
    | cons sheet' rest' =>
      obtain ⟨hhead, htail⟩ := List.cons.inj hcontents
      obtain ⟨horigin, hrules⟩ := Prod.mk.inj hhead
      rw [Engine.mergeRules, Engine.mergeRules, horigin, hrules, ih _ htail]

/-! ### Honest entries -/

/-- The entry holds the automaton of every list of sheets that has its key. -/
def Honest (entry : CacheKey × Compiled) : Prop :=
  ∀ sheets, CacheKey.of sheets = entry.1 →
    entry.2.automaton = .compile (Engine.mergeRules (fun _ => 0) sheets)

namespace Cache

variable {α : Type} {key : CacheKey} {a : α} {entry : CacheKey × α}
  {entries : List (CacheKey × α)}

theorem mem_put (h : entry ∈ put key a entries) : entry = (key, a) ∨ entry ∈ entries := by
  induction entries with
  | nil => exact Or.inl (List.mem_singleton.1 h)
  | cons head rest ih =>
    obtain ⟨k, old⟩ := head
    rw [put] at h
    split at h
    · next hk =>
      rcases List.mem_cons.1 h with rfl | h
      · exact Or.inl (by rw [hk])
      · exact Or.inr (List.mem_cons_of_mem _ h)
    · rcases List.mem_cons.1 h with rfl | h
      · exact Or.inr List.mem_cons_self
      · rcases ih h with h | h
        · exact Or.inl h
        · exact Or.inr (List.mem_cons_of_mem _ h)

/-- After an insertion there is the new entry, and no other that was not there before. -/
theorem mem_insertKeeping {keep : List (CacheKey × α) → List (CacheKey × α)} {c : Cache α}
    (hkeep : ∀ entries, (keep entries).Sublist entries)
    (h : entry ∈ (c.insertKeeping keep key a).entries) :
    entry = (key, a) ∨ entry ∈ c.entries := by
  rw [insertKeeping] at h
  split at h
  · exact Or.inr h
  · split at h
    · rcases mem_put h with h | h
      · exact Or.inl h
      · exact Or.inr ((hkeep _).mem h)
    · exact mem_put h

end Cache

namespace Engine

variable {e : Engine} {eviction : Eviction}

/-- All that the engine has cached is honest. -/
def Coherent (e : Engine) : Prop :=
  ∀ entry ∈ e.cache.entries, Honest entry

/-- **A compilation** gives the automaton of the registered sheets, and leaves the cache honest. -/
theorem compileKeeping_of_coherent (h : e.Coherent) (eviction : Eviction) :
    (e.compileKeeping eviction.keep).1.automaton = .compile e.rules ∧
      (e.compileKeeping eviction.keep).2.Coherent := by
  -- A new entry is honest: sheets with the same key merge into the same rules.
  have hfresh : Honest (CacheKey.of e.sheets, ⟨e.compilations, .compile e.rules⟩) :=
    fun sheets hkey => congrArg Automaton.compile (mergeRules_eq_of_key _ hkey.symm)
  rw [compileKeeping, Cache.fetchKeeping]
  cases hget : e.cache.get? (CacheKey.of e.sheets) with
  | none =>
    refine ⟨rfl, fun entry hentry => ?_⟩
    rcases Cache.mem_insertKeeping eviction.sublist hentry with rfl | hentry
    · exact hfresh
    · exact h entry hentry
  | some compiled =>
    obtain ⟨before, behind, hsplit, -⟩ := List.lookup_eq_some_iff.1 hget
    have hmem : (CacheKey.of e.sheets, compiled) ∈ e.cache.entries := by
      rw [hsplit]
      exact List.mem_append_right _ List.mem_cons_self
    exact ⟨h _ hmem e.sheets rfl, h⟩

/-- **No operation makes an entry dishonest.** -/
theorem coherent_apply (h : e.Coherent) (operation : Operation) : (e.apply operation).Coherent := by
  cases operation with
  | addSheet sheet => exact h
  | removeSource source => exact fun entry hentry => h entry (List.mem_filter.1 hentry).1
  | clearSheets => exact h
  | compile eviction => exact (compileKeeping_of_coherent h eviction).2
  | matcher eviction => exact (compileKeeping_of_coherent h eviction).2
  | invalidateAll => exact fun entry hentry => absurd hentry List.not_mem_nil

theorem coherent_run (h : e.Coherent) (history : List Operation) : (e.run history).Coherent := by
  induction history generalizing e with
  | nil => exact h
  | cons operation history ih => exact ih (coherent_apply h operation)

theorem coherent_new (config : Config) : (new config).Coherent :=
  fun _ hentry => absurd hentry List.not_mem_nil

/-- A matcher runs on the automaton of the registered sheets. -/
theorem matcherKeeping_of_coherent (h : e.Coherent) (eviction : Eviction) :
    (e.matcherKeeping eviction.keep).2.1 = .new (.compile e.rules) e.config := by
  show Matcher.new (e.compileKeeping eviction.keep).1.automaton e.config = _
  rw [(compileKeeping_of_coherent h eviction).1]

/-- **The cache is transparent.** Whatever has been done with an engine, and whatever a
full cache gave up on the way, compiling gives the automaton of the sheets that are
registered now, and a matcher runs on that automaton. -/
theorem compile_run_eq_compile_rules (config : Config) (history : List Operation)
    (eviction : Eviction) :
    let e := (new config).run history
    (e.compileKeeping eviction.keep).1.automaton = .compile e.rules ∧
      (e.matcherKeeping eviction.keep).2.1 = .new (.compile e.rules) e.config := by
  intro e
  have h : e.Coherent := coherent_run (coherent_new config) history
  exact ⟨(compileKeeping_of_coherent h eviction).1, matcherKeeping_of_coherent h eviction⟩

end Engine

end StyleStream
