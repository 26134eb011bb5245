/-
  What a cache keeps, and what it gives up.

  A full cache that meets a new key goes through its keys in some order, takes half of them, rounded
  up, and removes these one by one (`evictHalf`). The order is left open, and every operation of a
  history may come with another one. Whatever the orders are, the entries stay within the capacity
  (`fits_run`), and an entry stays until its key is evicted or invalidated (`get?_run`). So what has
  been fetched once is not made again before that: `fetchM`, whose maker may have effects, shows
  that the maker is not so much as run.

  The operations that run meet the oldest keys first (`insert_eq`, `fetch_eq`), so a history of them
  is one of these histories (`runByAge_eq`).
-/
import Mathlib.Data.List.Nodup
import StyleStream.Cache
import StyleStream.Intern

namespace StyleStream

/-- An order in which a table goes through its keys. -/
structure KeyOrder where
  list : List CacheKey → List CacheKey
  perm : ∀ keys, (list keys).Perm keys

/-- The keys in the order of their insertion. -/
def KeyOrder.oldestFirst : KeyOrder where
  list := id
  perm _ := .refl _

namespace Cache

variable {α : Type}

/-! ### Tables -/

/-- The keys of a table, entry by entry. -/
def keysOf (entries : List (CacheKey × α)) : List CacheKey :=
  entries.map (·.1)

/-- Removes the entry of a key. -/
def remove (key : CacheKey) (entries : List (CacheKey × α)) : List (CacheKey × α) :=
  entries.filter fun entry => entry.1 ≠ key

section Tables

variable {entries : List (CacheKey × α)} {key other : CacheKey} {a : α}

theorem lookup_entry (k key : CacheKey) (a : α) (rest : List (CacheKey × α)) :
    ((k, a) :: rest).lookup key = if key = k then some a else rest.lookup key := by
  rw [List.lookup_cons]
  by_cases h : key = k
  · rw [if_pos h, beq_iff_eq.2 h]
  · rw [if_neg h, beq_eq_false_iff_ne.2 h]

theorem isSome_lookup : (entries.lookup key).isSome ↔ key ∈ keysOf entries := by
  unfold keysOf
  induction entries with
  | nil => simp
  | cons entry rest ih =>
    obtain ⟨k, a⟩ := entry
    rw [lookup_entry, List.map_cons, List.mem_cons, ← ih]
    by_cases h : key = k <;> simp [h]

/-- A table that is filtered by its keys has the entries of the keys that pass. -/
theorem lookup_filter (p : CacheKey → Bool) (entries : List (CacheKey × α)) (key : CacheKey) :
    (entries.filter fun entry => p entry.1).lookup key =
      if p key then entries.lookup key else none := by
  induction entries with
  | nil => simp
  | cons entry rest ih =>
    obtain ⟨k, a⟩ := entry
    rw [List.filter_cons, lookup_entry]
    by_cases h : key = k
    · subst h
      cases hp : p key with
      | true => simp
      | false => simp [ih, hp]
    · rw [if_neg h]
      split
      · rw [lookup_entry, if_neg h, ih]
      · exact ih

theorem lookup_put : (put key a entries).lookup other =
    if other = key then some a else entries.lookup other := by
  induction entries with
  | nil => exact lookup_entry key other a []
  | cons entry rest ih =>
    obtain ⟨k, old⟩ := entry
    unfold put
    by_cases hk : k = key
    · subst hk
      rw [if_pos rfl, lookup_entry, lookup_entry]
      by_cases h : other = k <;> simp [h]
    · rw [if_neg hk, lookup_entry, lookup_entry, ih]
      by_cases h : other = k
      · subst h
        simp [hk]
      · simp [h]

/-- A key that is new comes last. -/
theorem keysOf_put (key : CacheKey) (a : α) (entries : List (CacheKey × α)) :
    keysOf (put key a entries) = intern (keysOf entries) key := by
  unfold keysOf
  induction entries with
  | nil => rfl
  | cons entry rest ih =>
    obtain ⟨k, old⟩ := entry
    unfold put
    by_cases h : k = key
    · simp [intern, h]
    · have hne : key ≠ k := fun heq => h heq.symm
      rw [if_neg h, List.map_cons, ih]
      unfold intern
      by_cases hmem : key ∈ rest.map (·.1)
      · simp [hmem]
      · simp [hmem, hne]

theorem length_put (key : CacheKey) (a : α) (entries : List (CacheKey × α)) :
    (put key a entries).length =
      if key ∈ keysOf entries then entries.length else entries.length + 1 := by
  have hlength := congrArg List.length (keysOf_put key a entries)
  unfold intern at hlength
  by_cases h : key ∈ keysOf entries
  · rw [if_pos h] at hlength ⊢
    simpa [keysOf] using hlength
  · rw [if_neg h] at hlength ⊢
    simpa [keysOf] using hlength

theorem keysOf_filter (p : CacheKey → Bool) (entries : List (CacheKey × α)) :
    keysOf (entries.filter fun entry => p entry.1) = (keysOf entries).filter p := by
  unfold keysOf
  rw [List.filter_map]
  rfl

/-! ### Eviction -/

/-- The keys that go when half of the entries go, rounded up: those that are met first. -/
def victims (order : KeyOrder) (entries : List (CacheKey × α)) : List CacheKey :=
  (order.list (keysOf entries)).take ((entries.length + 1) / 2)

/-- What stays of a table when its victims are removed one by one. -/
def evictHalf (order : KeyOrder) (entries : List (CacheKey × α)) : List (CacheKey × α) :=
  (victims order entries).foldl (fun entries key => remove key entries) entries

variable {order : KeyOrder}

theorem foldl_remove (keys : List CacheKey) (entries : List (CacheKey × α)) :
    keys.foldl (fun entries key => remove key entries) entries =
      entries.filter fun entry => entry.1 ∉ keys := by
  induction keys generalizing entries with
  | nil => simp
  | cons key keys ih =>
    rw [List.foldl_cons, ih]
    unfold remove
    rw [List.filter_filter]
    refine List.filter_congr fun entry _ => ?_
    rw [Bool.eq_iff_iff]
    simp [and_comm]

theorem evictHalf_eq_filter (order : KeyOrder) (entries : List (CacheKey × α)) :
    evictHalf order entries = entries.filter fun entry => entry.1 ∉ victims order entries :=
  foldl_remove _ _

theorem length_victims (order : KeyOrder) (entries : List (CacheKey × α)) :
    (victims order entries).length = (entries.length + 1) / 2 := by
  unfold victims
  rw [List.length_take, (order.perm _).length_eq]
  unfold keysOf
  rw [List.length_map]
  omega

theorem mem_keysOf_of_mem_victims (h : key ∈ victims order entries) : key ∈ keysOf entries :=
  (order.perm _).mem_iff.1 (List.mem_of_mem_take h)

theorem nodup_victims (h : (keysOf entries).Nodup) : (victims order entries).Nodup :=
  ((order.perm _).nodup_iff.2 h).sublist (List.take_sublist _ _)

/-- Where nothing comes twice, leaving out what comes first leaves what comes last. -/
theorem filter_not_mem_take {β γ : Type} [DecidableEq γ] (f : β → γ) {l : List β}
    (h : (l.map f).Nodup) (n : Nat) :
    l.filter (fun x => f x ∉ (l.map f).take n) = l.drop n := by
  induction l generalizing n with
  | nil => simp
  | cons x l ih =>
    cases n with
    | zero => simp
    | succ n =>
      rw [List.map_cons, List.nodup_cons] at h
      obtain ⟨hx, hl⟩ := h
      rw [List.map_cons, List.take_succ_cons, List.drop_succ_cons, ← ih hl n,
        List.filter_cons_of_neg (by simp)]
      refine List.filter_congr fun y hy => ?_
      have hne : f y ≠ f x := fun heq => hx (heq ▸ List.mem_map_of_mem hy)
      simp [hne]

/-- **The keys that stay** are those that are met last. -/
theorem perm_keysOf_evictHalf (h : (keysOf entries).Nodup) :
    (keysOf (evictHalf order entries)).Perm
      ((order.list (keysOf entries)).drop ((entries.length + 1) / 2)) := by
  have hperm := order.perm (keysOf entries)
  have hnodup : ((order.list (keysOf entries)).map id).Nodup := by
    rw [List.map_id]
    exact hperm.nodup_iff.2 h
  have hlast := filter_not_mem_take id hnodup ((entries.length + 1) / 2)
  rw [List.map_id] at hlast
  rw [evictHalf_eq_filter, keysOf_filter fun key => key ∉ victims order entries, ← hlast]
  exact hperm.symm.filter _

/-- **If the oldest keys are met first**, it is the newer half that stays. -/
theorem evictHalf_oldestFirst (h : (keysOf entries).Nodup) :
    evictHalf .oldestFirst entries = newerHalf entries := by
  rw [evictHalf_eq_filter]
  exact filter_not_mem_take Prod.fst h _

/-- Half of the entries stay, rounded down. -/
theorem length_evictHalf (h : (keysOf entries).Nodup) :
    (evictHalf order entries).length = entries.length / 2 := by
  have hperm : (keysOf (evictHalf order entries)).Perm _ := perm_keysOf_evictHalf h
  have hlength := hperm.length_eq
  unfold keysOf at hlength
  rw [List.length_map, List.length_drop, (order.perm _).length_eq, List.length_map] at hlength
  omega

end Tables

/-! ### Caches -/

/-- The keys that have entries. -/
def keys (c : Cache α) : List CacheKey :=
  keysOf c.entries

/-- Each key has one entry, and there are no more entries than the capacity. -/
def Fits (c : Cache α) : Prop :=
  c.keys.Nodup ∧ c.size ≤ c.capacity

/-- The keys that are evicted for a key: none, unless the cache is full and the key is new. -/
def evicted (order : KeyOrder) (c : Cache α) (key : CacheKey) : List CacheKey :=
  if c.size = c.capacity ∧ key ∉ c.keys then victims order c.entries else []

/-- `fetchKeeping` with a maker that may have effects. They happen only if the key has no entry. -/
def fetchM {m : Type → Type} [Monad m] (keep : List (CacheKey × α) → List (CacheKey × α))
    (c : Cache α) (key : CacheKey) (make : m α) : m (α × Cache α) :=
  match c.get? key with
  | some a => pure (a, c)
  | none => do
    let a ← make
    return (a, c.insertKeeping keep key a)

section Caches

variable {c : Cache α} {order : KeyOrder} {key other : CacheKey} {a : α}

theorem isSome_get? : (c.get? key).isSome ↔ key ∈ c.keys :=
  isSome_lookup

theorem isNone_get? : (c.get? key).isNone ↔ key ∉ c.keys := by
  rw [← isSome_get?, Bool.not_eq_true, Option.isSome_eq_false_iff]

/-- A maker without effects makes what `fetchKeeping` makes. -/
theorem fetchKeeping_eq_fetchM (keep : List (CacheKey × α) → List (CacheKey × α)) (c : Cache α)
    (key : CacheKey) (make : Unit → α) :
    c.fetchKeeping keep key make = Id.run (c.fetchM keep key (pure (make ()))) := by
  unfold fetchKeeping fetchM
  cases c.get? key <;> rfl

/-- **What is evicted** are keys of the cache, as many as half of it rounded up, or none. -/
theorem evicted_spec (h : c.Fits) (order : KeyOrder) (key : CacheKey) :
    (c.evicted order key).Nodup ∧ c.evicted order key ⊆ c.keys ∧
      (c.evicted order key).length =
        if c.size = c.capacity ∧ key ∉ c.keys then (c.size + 1) / 2 else 0 := by
  unfold evicted
  split
  · exact ⟨nodup_victims h.1, fun _ => mem_keysOf_of_mem_victims, length_victims _ _⟩
  · exact ⟨List.nodup_nil, List.nil_subset _, rfl⟩

/-- **An insertion** puts the new entry into what the eviction leaves. -/
theorem entries_insertKeeping (h : c.Fits) (hcapacity : 0 < c.capacity) :
    (c.insertKeeping (evictHalf order) key a).entries =
      put key a (c.entries.filter fun entry => entry.1 ∉ c.evicted order key) := by
  have hfull : c.capacity ≤ c.size ∧ (c.get? key).isNone ↔ c.size = c.capacity ∧ key ∉ c.keys := by
    rw [isNone_get?]
    refine and_congr_left fun _ => ?_
    have hsize := h.2
    omega
  unfold insertKeeping evicted
  rw [if_neg (by omega)]
  by_cases hevicts : c.size = c.capacity ∧ key ∉ c.keys
  · rw [if_pos (hfull.2 hevicts), if_pos hevicts, evictHalf_eq_filter]
  · rw [if_neg fun hcode => hevicts (hfull.1 hcode), if_neg hevicts]
    simp

theorem get?_insertKeeping (h : c.Fits) (hcapacity : 0 < c.capacity) :
    (c.insertKeeping (evictHalf order) key a).get? other =
      if other = key then some a
      else if other ∈ c.evicted order key then none else c.get? other := by
  unfold get?
  rw [entries_insertKeeping h hcapacity, lookup_put,
    lookup_filter fun key' => key' ∉ c.evicted order key]
  by_cases hother : other ∈ c.evicted order key <;> simp [hother]

theorem capacity_insertKeeping (keep : List (CacheKey × α) → List (CacheKey × α)) (c : Cache α)
    (key : CacheKey) (a : α) : (c.insertKeeping keep key a).capacity = c.capacity := by
  unfold insertKeeping
  split
  · rfl
  · split <;> rfl

/-- **An insertion never exceeds the capacity.** -/
theorem Fits.insertKeeping (h : c.Fits) (order : KeyOrder) (key : CacheKey) (a : α) :
    (c.insertKeeping (evictHalf order) key a).Fits := by
  have hkeys : ∀ entries : List (CacheKey × α), (keysOf entries).Nodup →
      (keysOf (put key a entries)).Nodup := by
    intro entries hentries
    rw [keysOf_put]
    exact nodup_intern hentries
  obtain ⟨hnodup, hsize⟩ := h
  unfold Cache.insertKeeping
  split
  · exact ⟨hnodup, hsize⟩
  · split
    · -- Half of the entries make room for at least one.
      refine ⟨hkeys _ ?_, ?_⟩
      · rw [evictHalf_eq_filter, keysOf_filter fun key => key ∉ victims order c.entries]
        exact hnodup.filter _
      · show (put key a (evictHalf order c.entries)).length ≤ c.capacity
        have hhalf : (evictHalf order c.entries).length = _ := length_evictHalf hnodup
        have hlength := length_put key a (evictHalf order c.entries)
        unfold size at hsize
        split at hlength <;> omega
    · next hroom =>
      refine ⟨hkeys _ hnodup, ?_⟩
      show (put key a c.entries).length ≤ c.capacity
      rw [isNone_get?] at hroom
      rw [length_put]
      unfold size at hsize hroom
      split
      · exact hsize
      · next hnew =>
        have hlt : ¬ c.capacity ≤ c.entries.length := fun hfull => hroom ⟨hfull, hnew⟩
        omega

/-- **The insertion that runs** meets the oldest keys first. -/
theorem insert_eq (h : c.keys.Nodup) (key : CacheKey) (a : α) :
    c.insert key a = c.insertKeeping (evictHalf .oldestFirst) key a := by
  unfold insert insertKeeping
  rw [evictHalf_oldestFirst h]

/-- **The fetching that runs** does so as well. -/
theorem fetch_eq (h : c.keys.Nodup) (key : CacheKey) (make : Unit → α) :
    c.fetch key make = c.fetchKeeping (evictHalf .oldestFirst) key make := by
  unfold fetch fetchKeeping
  cases c.get? key with
  | some a => rfl
  | none => exact congrArg (Prod.mk (make ())) (insert_eq h key (make ()))

/-- **The entries that an invalidation drops** are those to which the source contributed. -/
theorem get?_invalidate (c : Cache α) (source : String) (key : CacheKey) :
    (c.invalidate source).get? key = if some source ∈ key.sources then none else c.get? key := by
  have hinvolves : key.involves source ↔ some source ∈ key.sources := by
    unfold CacheKey.involves
    rw [List.contains_iff_mem]
  unfold get? invalidate
  rw [lookup_filter fun key => !key.involves source]
  by_cases h : some source ∈ key.sources
  · rw [if_pos h, hinvolves.2 h]
    rfl
  · rw [if_neg h, Bool.eq_false_iff.2 fun hcontra => h (hinvolves.1 hcontra)]
    rfl

end Caches

/-! ### Histories -/

/-- Something that is done with a cache. What may evict comes with an order of the keys. -/
inductive Operation (α : Type) where
  | insert (order : KeyOrder) (key : CacheKey) (a : α)
  | fetch (order : KeyOrder) (key : CacheKey) (make : Unit → α)
  | get (key : CacheKey)
  | invalidate (source : String)
  | clear

def apply (c : Cache α) : Operation α → Cache α
  | .insert order key a => c.insertKeeping (evictHalf order) key a
  | .fetch order key make => (c.fetchKeeping (evictHalf order) key make).2
  | .get _ => c
  | .invalidate source => c.invalidate source
  | .clear => c.clear

def run (c : Cache α) (history : List (Operation α)) : Cache α :=
  history.foldl apply c

/-- The same operation, if the keys are met in the order of their insertion. -/
def Operation.byAge : Operation α → Operation α
  | insert _ key a => insert .oldestFirst key a
  | fetch _ key make => fetch .oldestFirst key make
  | operation => operation

/-- An operation as it runs, whatever order it comes with. -/
def applyByAge (c : Cache α) : Operation α → Cache α
  | .insert _ key a => c.insert key a
  | .fetch _ key make => (c.fetch key make).2
  | .get _ => c
  | .invalidate source => c.invalidate source
  | .clear => c.clear

def runByAge (c : Cache α) (history : List (Operation α)) : Cache α :=
  history.foldl applyByAge c

/-- The keys that an operation evicts or invalidates. -/
def removed (c : Cache α) : Operation α → List CacheKey
  | .insert order key _ | .fetch order key _ => c.evicted order key
  | .get _ => []
  | .invalidate source => c.keys.filter fun key => some source ∈ key.sources
  | .clear => c.keys

/-- No operation of a history evicts or invalidates the key. -/
def Spares (c : Cache α) (key : CacheKey) : List (Operation α) → Prop
  | [] => True
  | operation :: later => key ∉ c.removed operation ∧ (c.apply operation).Spares key later

/-- What the entry of a key holds after an operation that spares it. -/
def Operation.renew (key : CacheKey) (held : α) : Operation α → α
  | insert _ k a => if k = key then a else held
  | _ => held

/-- What the entry of a key holds after operations that spare it: what was inserted last for the
key, or what the entry held before. -/
def renewed (key : CacheKey) (held : α) (later : List (Operation α)) : α :=
  later.foldl (Operation.renew key) held

section Histories

variable {c : Cache α} {key : CacheKey} {a : α}

theorem Fits.apply (h : c.Fits) (operation : Operation α) : (c.apply operation).Fits := by
  cases operation with
  | insert order key a => exact h.insertKeeping order key a
  | fetch order key make =>
    show (c.fetchKeeping (evictHalf order) key make).2.Fits
    unfold fetchKeeping
    cases c.get? key with
    | some a => exact h
    | none => exact h.insertKeeping order key (make ())
  | get key => exact h
  | invalidate source =>
    refine ⟨?_, ?_⟩
    · show (keysOf (c.entries.filter fun entry => !entry.1.involves source)).Nodup
      rw [keysOf_filter fun key => !key.involves source]
      exact h.1.filter _
    · exact Nat.le_trans (List.length_filter_le _ _) h.2
  | clear => exact ⟨List.nodup_nil, Nat.zero_le _⟩

theorem capacity_apply (c : Cache α) (operation : Operation α) :
    (c.apply operation).capacity = c.capacity := by
  cases operation with
  | insert order key a => exact capacity_insertKeeping _ _ _ _
  | fetch order key make =>
    show (c.fetchKeeping (evictHalf order) key make).2.capacity = c.capacity
    unfold fetchKeeping
    cases c.get? key with
    | some a => rfl
    | none => exact capacity_insertKeeping _ _ _ _
  | get key => rfl
  | invalidate source => rfl
  | clear => rfl

/-- **An operation that spares an entry** leaves it, with what it held or with what is inserted. -/
theorem get?_apply (h : c.Fits) (hcapacity : 0 < c.capacity) (hget : c.get? key = some a)
    {operation : Operation α} (hspared : key ∉ c.removed operation) :
    (c.apply operation).get? key = some (operation.renew key a) := by
  cases operation with
  | insert order k b =>
    have hkept : key ∉ c.evicted order k := hspared
    show (c.insertKeeping (evictHalf order) k b).get? key = _
    rw [get?_insertKeeping h hcapacity, if_neg hkept, hget]
    show (if key = k then some b else some a) = some (if k = key then b else a)
    by_cases hk : k = key
    · rw [if_pos hk, if_pos hk.symm]
    · rw [if_neg hk, if_neg fun heq => hk heq.symm]
  | fetch order k make =>
    have hkept : key ∉ c.evicted order k := hspared
    show (c.fetchKeeping (evictHalf order) k make).2.get? key = some a
    unfold fetchKeeping
    cases hk : c.get? k with
    | some b => exact hget
    | none =>
      show (c.insertKeeping (evictHalf order) k (make ())).get? key = some a
      rw [get?_insertKeeping h hcapacity, if_neg hkept, if_neg, hget]
      rintro rfl
      rw [hk] at hget
      cases hget
  | get k => exact hget
  | invalidate source =>
    show (c.invalidate source).get? key = some a
    rw [get?_invalidate, if_neg, hget]
    intro hsource
    refine hspared (List.mem_filter.2 ⟨?_, decide_eq_true hsource⟩)
    rw [← isSome_get?, hget]
    rfl
  | clear =>
    refine absurd ?_ hspared
    show key ∈ c.keys
    rw [← isSome_get?, hget]
    rfl

theorem fits_run (h : c.Fits) (history : List (Operation α)) : (c.run history).Fits := by
  induction history generalizing c with
  | nil => exact h
  | cons operation history ih => exact ih (h.apply operation)

theorem capacity_run (c : Cache α) (history : List (Operation α)) :
    (c.run history).capacity = c.capacity := by
  induction history generalizing c with
  | nil => rfl
  | cons operation history ih => exact (ih (c.apply operation)).trans (capacity_apply c operation)

theorem applyByAge_eq (h : c.Fits) (operation : Operation α) :
    c.applyByAge operation = c.apply operation.byAge := by
  cases operation with
  | insert order key a => exact insert_eq h.1 key a
  | fetch order key make => exact congrArg Prod.snd (fetch_eq h.1 key make)
  | get key => rfl
  | invalidate source => rfl
  | clear => rfl

/-- **A history that runs** is a history in which all keys are met by their age. -/
theorem runByAge_eq (h : c.Fits) (history : List (Operation α)) :
    c.runByAge history = c.run (history.map .byAge) := by
  induction history generalizing c with
  | nil => rfl
  | cons operation history ih =>
    show (c.applyByAge operation).runByAge history =
      (c.apply operation.byAge).run (history.map .byAge)
    rw [applyByAge_eq h]
    exact ih (h.apply operation.byAge)

/-- **An entry stays** until its key is evicted or invalidated. -/
theorem get?_run (h : c.Fits) (hcapacity : 0 < c.capacity) (hget : c.get? key = some a)
    {later : List (Operation α)} (hspared : c.Spares key later) :
    (c.run later).get? key = some (renewed key a later) := by
  induction later generalizing c a with
  | nil => exact hget
  | cons operation later ih =>
    obtain ⟨hfirst, hrest⟩ := hspared
    refine ih (h.apply operation) ?_ (get?_apply h hcapacity hget hfirst) hrest
    rw [capacity_apply]
    exact hcapacity

/-- **What has been fetched is in the cache.** -/
theorem get?_fetchKeeping (h : c.Fits) (hcapacity : 0 < c.capacity) (order : KeyOrder)
    (key : CacheKey) (make : Unit → α) :
    (c.fetchKeeping (evictHalf order) key make).2.get? key =
      some (c.fetchKeeping (evictHalf order) key make).1 := by
  unfold fetchKeeping
  cases hget : c.get? key with
  | some a => exact hget
  | none =>
    show (c.insertKeeping (evictHalf order) key (make ())).get? key = _
    rw [get?_insertKeeping h hcapacity, if_pos rfl]

/-- Where there is an entry, the maker is not run. -/
theorem fetchM_of_get? {m : Type → Type} [Monad m]
    {keep : List (CacheKey × α) → List (CacheKey × α)} {make : m α} (hget : c.get? key = some a) :
    c.fetchM keep key make = pure (a, c) := by
  unfold fetchM
  rw [hget]

end Histories

/-! ### Bound and retention -/

/-- What an insertion under a key does to the other keys. -/
structure Evicts (c : Cache α) (order : KeyOrder) (key : CacheKey) : Prop where
  /-- What is evicted are keys of the cache. -/
  subset : c.evicted order key ⊆ c.keys
  /-- No key is evicted twice. -/
  nodup : (c.evicted order key).Nodup
  /-- If the cache is full and the key is new, half of the keys are evicted, rounded up. Otherwise
  none are. -/
  length_eq : (c.evicted order key).length =
    if c.size = c.capacity ∧ key ∉ c.keys then (c.size + 1) / 2 else 0
  /-- Every other key keeps its entry. -/
  get?_eq : ∀ a other, (c.insertKeeping (evictHalf order) key a).get? other =
    if other = key then some a
    else if other ∈ c.evicted order key then none else c.get? other

/-- What becomes of an entry that has been fetched. -/
structure Retains (c : Cache α) (order : KeyOrder) (key : CacheKey) (make : Unit → α)
    (fetched : α × Cache α) : Prop where
  /-- It is what `fetchM` comes to with a maker that has no effects. -/
  eq_fetchM : fetched = Id.run (c.fetchM (evictHalf order) key (pure (make ())))
  /-- It can be got right afterwards. -/
  get?_eq : fetched.2.get? key = some fetched.1
  /-- However operations follow that neither evict nor invalidate the key, fetching it again gives
  what its entry holds and does not run the maker: nothing is changed and no effect happens. -/
  fetchM_eq : ∀ later, fetched.2.Spares key later →
    ∀ (m : Type → Type) [Monad m] (order' : KeyOrder) (make' : m α),
      (fetched.2.run later).fetchM (evictHalf order') key make' =
        pure (renewed key fetched.1 later, fetched.2.run later)

/-- A cache that stays within a capacity and retains what it was given. -/
structure Retentive (capacity : Nat) (c : Cache α) : Prop where
  capacity_eq : c.capacity = capacity
  /-- Each key has one entry. -/
  nodup_keys : c.keys.Nodup
  /-- There are no more entries than the capacity, so a cache without capacity is empty. -/
  size_le : c.size ≤ capacity
  evicts : 0 < capacity → ∀ order key, c.Evicts order key
  retains : 0 < capacity → ∀ order key make,
    c.Retains order key make (c.fetchKeeping (evictHalf order) key make)
  /-- An invalidation drops exactly the entries whose key names the source. -/
  get?_invalidate : ∀ source key, (c.invalidate source).get? key =
    if some source ∈ key.sources then none else c.get? key
  /-- The operations that run are those that meet the oldest keys first. -/
  insert_eq : ∀ key a, c.insert key a = c.insertKeeping (evictHalf .oldestFirst) key a
  fetch_eq : ∀ key make, c.fetch key make = c.fetchKeeping (evictHalf .oldestFirst) key make

section Retention

variable {c : Cache α}

theorem Fits.evicts (h : c.Fits) (hcapacity : 0 < c.capacity) (order : KeyOrder)
    (key : CacheKey) : c.Evicts order key := by
  obtain ⟨hnodup, hsubset, hlength⟩ := evicted_spec h order key
  exact ⟨hsubset, hnodup, hlength, fun _ _ => get?_insertKeeping h hcapacity⟩

theorem Fits.retains (h : c.Fits) (hcapacity : 0 < c.capacity) (order : KeyOrder)
    (key : CacheKey) (make : Unit → α) :
    c.Retains order key make (c.fetchKeeping (evictHalf order) key make) where
  eq_fetchM := fetchKeeping_eq_fetchM _ _ _ _
  get?_eq := get?_fetchKeeping h hcapacity order key make
  fetchM_eq later hspared m _ order' make' := by
    apply fetchM_of_get?
    refine get?_run ?_ ?_ (get?_fetchKeeping h hcapacity order key make) hspared
    · exact h.apply (.fetch order key make)
    · show 0 < (c.apply (.fetch order key make)).capacity
      rw [capacity_apply]
      exact hcapacity

theorem Fits.retentive (h : c.Fits) : c.Retentive c.capacity where
  capacity_eq := rfl
  nodup_keys := h.1
  size_le := h.2
  evicts := h.evicts
  retains := h.retains
  get?_invalidate := Cache.get?_invalidate c
  insert_eq := Cache.insert_eq h.1
  fetch_eq := Cache.fetch_eq h.1

end Retention

/-- **A cache stays within its capacity and retains what it was given**, after any history and with
any orders of the keys. The histories that run, where the older half is evicted, are among them. -/
theorem run_bounded_and_retentive (capacity : Nat) (history : List (Operation α)) :
    let new : Cache α := { capacity }
    (new.run history).Retentive capacity ∧
      new.runByAge history = new.run (history.map .byAge) := by
  intro new
  have hnew : new.Fits := ⟨List.nodup_nil, Nat.zero_le _⟩
  have hretentive := (fits_run hnew history).retentive
  rw [capacity_run] at hretentive
  exact ⟨hretentive, runByAge_eq hnew history⟩

/-- A cache for one entry: a second key takes the place of the first, and stays when the source of
the first is invalidated. -/
theorem run_bounded_and_retentive_single :
    let first : CacheKey := .of [{ source := some "a.css" }]
    let second : CacheKey := .of [{ source := some "b.css" }]
    let c := ({ capacity := 1 } : Cache Nat).runByAge [.insert .oldestFirst first 7]
    let fetched := c.fetch second fun _ => 8
    let later : List (Operation Nat) := [.get first, .invalidate "a.css"]
    0 < 1 ∧ fetched.2.Spares second later ∧ (c.evicted .oldestFirst second).length = 1 ∧
      fetched.2.get? second = some 8 ∧
      ∀ make : StateM Nat Nat, (fetched.2.run later).fetchM (evictHalf .oldestFirst) second make =
        pure (8, fetched.2.run later) := by
  intro first second c fetched later
  obtain ⟨hretentive, hrun⟩ := run_bounded_and_retentive 1 [.insert .oldestFirst first 7]
  have hc : c = ({ capacity := 1 } : Cache Nat).run [.insert .oldestFirst first 7] := hrun
  rw [← hc] at hretentive
  have hfetched : fetched = c.fetchKeeping (evictHalf .oldestFirst) second fun _ => 8 :=
    hretentive.fetch_eq second _
  have hretains := hretentive.retains Nat.one_pos .oldestFirst second fun _ => 8
  rw [← hfetched] at hretains
  have hfull : c.size = 1 ∧ second ∉ c.keys := by decide
  have hspared : fetched.2.Spares second later := by
    refine ⟨?_, ?_, trivial⟩
    · decide
    · decide
  refine ⟨Nat.one_pos, hspared, ?_, hretains.get?_eq,
    fun make => hretains.fetchM_eq later hspared _ _ make⟩
  rw [(hretentive.evicts Nat.one_pos .oldestFirst second).length_eq, hretentive.capacity_eq,
    if_pos hfull, hfull.1]

end Cache

end StyleStream
