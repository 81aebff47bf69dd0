/-
Whole runs of the cache.

`Consistent` spells out what the five linked structures of the cache owe each other: the LRU list and the heap of deadlines
contain the entries they should, the counters are sums over the entries, the hot entry is an entry under the hot key, and the
limits are respected. `cache_invariant`: it holds after every sequence of calls from an empty cache, for any limits, any
clock and any outcome of the allocations.

References to entries and the objects behind them are used as their contract allows: only while the entry is in the cache,
and a mutation in place keeps the type of the object. Other uses are not calls of the model.
-/
import StoreSystem.Cache.Operations

namespace StoreSystem.Cache

/-- the entries of a type -/
def ofType (c : Cache) (type : KvType) : List ℕ := c.ids.filter fun id => kvObjectType (c.entry id).object = type

/-- the sum of the recorded items of the entries of a type -/
def itemsOf (c : Cache) (type : KvType) : ℕ := ((c.ofType type).map fun id => (c.entry id).objectItems).sum

/-- the representation invariant as its users know it -/
structure Consistent (c : Cache) : Prop where
  /-- no entry is indexed twice -/
  indexed : c.ids.Nodup ∧ KvHash.kvHashCount c.index = c.ids.length
  /-- the LRU list holds each entry exactly once -/
  lru : c.lruEnabled = true → ∃ xs, LinkedList.Rep c.lru xs ∧ xs.Nodup ∧ ∀ id, id ∈ xs ↔ id ∈ c.ids
  /-- the heap holds exactly the entries with a deadline -/
  heapMembers : ∀ id, c.heap.Mem id ↔ id ∈ c.ids ∧ c.expireAt id ≠ 0
  /-- each at its recorded index -/
  heapIndices : ∀ id i, c.heap.position id = some i ↔ i < c.heap.count ∧ c.heap.slot i = id
  /-- in the order of a min-heap -/
  heapOrder : ∀ i, 0 < i → i < c.heap.count → c.expireAt (c.heap.slot ((i - 1) / 2)) ≤ c.expireAt (c.heap.slot i)
  usedMemory : c.usedMemory = (c.ids.map fun id => (c.entry id).memoryCharge).sum
  keys : c.counters.stringKeys = (c.ofType .string).length ∧ c.counters.hashKeys = (c.ofType .hash).length ∧
    c.counters.zsetKeys = (c.ofType .zset).length
  items : c.counters.hashFields = c.itemsOf .hash ∧ c.counters.zsetMembers = c.itemsOf .zset
  hot : ∀ id, c.hashHotEntry = some id → id ∈ c.ids ∧ c.entryKey id = c.hashHotKey
  maxKeys : c.maxKeys ≠ 0 → KvHash.kvHashCount c.index ≤ c.maxKeys
  maxMemory : c.maxMemory ≠ 0 → c.usedMemory ≤ c.maxMemory

variable {hash : Hasher} {c : Cache}

theorem filter_profile (c : Cache) (type : KvType) :
    (c.ids.map c.profile).filter (fun p => p.1 = type) = (c.ofType type).map c.profile := by
  rw [List.filter_map]
  rfl

theorem Core.consistent (h : Core hash c) (hw : c.Within) : c.Consistent := by
  have hitems : ∀ type, (((c.ids.map c.profile).filter fun p => p.1 = type).map Prod.snd).sum = c.itemsOf type := by
    intro type
    rw [filter_profile, List.map_map]
    rfl
  have hlen : ∀ type, ((c.ids.map c.profile).filter fun p => p.1 = type).length = (c.ofType type).length := by
    intro type
    rw [filter_profile, List.length_map]
  refine ⟨⟨h.nodup, h.count⟩, fun he => ?_, h.heap, h.placed, h.ordered, h.used, ?_, ?_, fun id hid => ?_, hw.keys, hw.memory⟩
  · obtain ⟨xs, h1, h2⟩ := h.lru he
    exact ⟨xs, h1, h1.nodup, h2⟩
  · rw [h.counted, tally_stringKeys, (tally_hash _).1, (tally_zset _).1, hlen, hlen, hlen]
    exact ⟨rfl, rfl, rfl⟩
  · rw [h.counted, (tally_hash _).2, (tally_zset _).2, hitems, hitems]
    exact ⟨rfl, rfl⟩
  · obtain ⟨h1, h2⟩ := h.hot id hid
    exact ⟨h1, h2.symm⟩

/-! ## Runs -/

inductive Call
  | storeObject (alloc : Alloc) (key : Bytes) (object : KvObject) (expireAtMs : ℕ) (preserveExistingTtl : Bool)
  | setExpireAt (ok : Bool) (alloc : Alloc) (key value : Bytes) (expireAtMs : ℕ)
  | set (ok : Bool) (alloc : Alloc) (key value : Bytes) (ttlMs : ℕ)
  | get (key : Bytes)
  | getObject (key : Bytes) (record : Bool)
  | getObjectRef (key : Bytes) (record : Bool)
  | getHashObjectRef (key : Bytes) (record : Bool)
  /-- the caller changes the object of an entry through a pointer it holds -/
  | mutate (entry : ℕ) (object : KvObject)
  | rechargeObject (key : Bytes)
  | rechargeRef (entry : ℕ)
  | delete (key : Bytes)
  | expireAt (heapOk : Bool) (key : Bytes) (expireAtMs : ℕ)
  | expire (heapOk : Bool) (key : Bytes) (ttlMs : ℕ)
  | persist (key : Bytes)
  | ttlMs (key : Bytes)
  | maintain (expireBudget rehashBudget : ℕ)

def step (hash : Hasher) (c : Cache) : Call → Cache
  | .storeObject alloc key object d preserve => (c.cacheStoreObject hash alloc key object d preserve).1
  | .setExpireAt ok alloc key value d => (c.cacheSetExpireAt hash ok alloc key value d).1
  | .set ok alloc key value ttl => (c.cacheSet hash ok alloc key value ttl).1
  | .get key => (c.cacheGet hash key).1
  | .getObject key record => (c.cacheGetObject hash key record).1
  | .getObjectRef key record => (c.cacheGetObjectRef hash key record).1
  | .getHashObjectRef key record => (c.cacheGetHashObjectRef hash key record).1
  | .mutate entry object =>
    if entry ∈ c.ids ∧ kvObjectType object = kvObjectType (c.entry entry).object then c.mutate entry object else c
  | .rechargeObject key => (c.cacheRechargeObject hash key).1
  | .rechargeRef entry => if entry ∈ c.ids then (c.cacheRechargeRef (some entry)).1 else c
  | .delete key => (c.cacheDelete hash key).1
  | .expireAt heapOk key d => (c.cacheExpireAt hash heapOk key d).1
  | .expire heapOk key ttl => (c.cacheExpire hash heapOk key ttl).1
  | .persist key => (c.cachePersist hash key).1
  | .ttlMs key => (c.cacheTtlMs hash key).1
  | .maintain expireBudget rehashBudget => (c.cacheMaintain expireBudget rehashBudget).1

def run (hash : Hasher) (c : Cache) (calls : List Call) : Cache := calls.foldl (step hash) c

theorem cacheSetExpireAt_advances (h : Core hash c) (hw : c.Within) (ok : Bool) (alloc : Alloc) (key value : Bytes)
    (d : ℕ) : Advances hash c (c.cacheSetExpireAt hash ok alloc key value d).1 := by
  unfold cacheSetExpireAt
  cases kvObjectCreateString ok value with
  | none => exact .refl h hw
  | some object =>
    obtain ⟨_, _, _, he⟩ := cacheStoreObject_effect h hw alloc key object d false
    exact he.advances

theorem cacheExpireAt_advances (h : Core hash c) (hw : c.Within) (heapOk : Bool) (key : Bytes) (d : ℕ) :
    Advances hash c (c.cacheExpireAt hash heapOk key d).1 := by
  by_cases hd : d = 0
  · unfold cacheExpireAt
    rw [if_pos hd]
    exact (cacheDelete_effect h hw key).1.advances
  · obtain ⟨_, _, ⟨_, he⟩ | ⟨_, he⟩⟩ := cacheExpireAt_effect h hw heapOk key hd
    · exact he.advances
    · exact he.advances

/-- **One call** keeps the invariant. -/
theorem step_advances (h : Core hash c) (hw : c.Within) (call : Call) : Advances hash c (step hash c call) := by
  cases call with
  | storeObject alloc key object d preserve =>
    obtain ⟨_, _, _, he⟩ := cacheStoreObject_effect h hw alloc key object d preserve
    exact he.advances
  | setExpireAt ok alloc key value d => exact cacheSetExpireAt_advances h hw ok alloc key value d
  | set ok alloc key value ttl =>
    have hstart : Advances hash c (if ttl = 0 then (0, c) else c.cacheNow).2 := by
      split_ifs
      · exact .refl h hw
      · exact (cacheNow_effect h hw).advances
    simp only [step, cacheSet]
    generalize (if ttl = 0 then (0, c) else c.cacheNow) = start at hstart
    by_cases hrange : ttl ≠ 0 ∧ ttl > uint64Max - start.1
    · rw [if_pos hrange]
      exact hstart
    · rw [if_neg hrange]
      exact hstart.trans (cacheSetExpireAt_advances hstart.core hstart.within ok alloc key value _)
  | get key => exact (cacheGetObjectRef_effect h hw key true).1.advances
  | getObject key record | getObjectRef key record => exact (cacheGetObjectRef_effect h hw key record).1.advances
  | getHashObjectRef key record => exact (cacheGetHashObjectRef_effect h hw key record).1.advances
  | mutate entry object =>
    rw [step]
    split_ifs with hm
    · obtain ⟨hu, hused⟩ := mutate_updates h hm.1 hm.2
      exact hu.advances hused hw
    · exact .refl h hw
  | rechargeObject key =>
    have he := findLive_effect h hw key uint64Max
    have hf := (findLive_spec h key uint64Max).2.2.1
    rw [step, cacheRechargeObject]
    generalize c.findLive hash key uint64Max = found at he hf
    cases hr : found.2 with
    | none => exact he.advances
    | some id =>
      rw [hr] at hf
      obtain ⟨_, hg⟩ := cacheRechargeRef_effect he.advances.core he.advances.within (he.advances.core.of_lookup hf.symm).1
      exact he.advances.trans hg.advances
  | rechargeRef entry =>
    rw [step]
    split_ifs with hm
    · obtain ⟨_, hg⟩ := cacheRechargeRef_effect h hw hm
      exact hg.advances
    · exact .refl h hw
  | delete key => exact (cacheDelete_effect h hw key).1.advances
  | expireAt heapOk key d => exact cacheExpireAt_advances h hw heapOk key d
  | expire heapOk key ttl =>
    have h0 := (cacheNow_effect h hw).advances
    simp only [step, cacheExpire]
    split_ifs
    · exact (cacheDelete_effect h hw key).1.advances
    · exact h0
    · exact h0.trans (cacheExpireAt_advances h0.core h0.within heapOk key _)
  | persist key => exact (cachePersist_effect h hw key).1.advances
  | ttlMs key =>
    obtain ⟨_, _, he, _⟩ := cacheTtlMs_effect h hw key
    exact he.advances
  | maintain expireBudget rehashBudget =>
    obtain ⟨_, he, _⟩ := cacheMaintain_effect h hw expireBudget rehashBudget
    exact he.advances

theorem run_advances (calls : List Call) (h : Core hash c) (hw : c.Within) :
    Advances hash c (run hash c calls) := by
  induction calls generalizing c with
  | nil => exact .refl h hw
  | cons call calls ih =>
    have h1 := step_advances h hw call
    exact h1.trans (ih h1.core h1.within)

/-- **The cache invariant.** After every sequence of calls from an empty cache, with any limits, any readings of the clock
and any outcome of the allocations, the structures of the cache are consistent and its limits are respected. -/
theorem cache_invariant (hash : Hasher) (maxKeys maxMemory : ℕ) (nowMs : ℕ → ℕ) (calls : List Call) :
    (run hash (cacheCreate maxKeys maxMemory nowMs) calls).Consistent := by
  have h := run_advances calls (core_create hash maxKeys maxMemory nowMs) (within_create maxKeys maxMemory nowMs)
  exact h.core.consistent h.within

end StoreSystem.Cache
