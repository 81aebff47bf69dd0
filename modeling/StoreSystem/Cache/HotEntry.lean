/-
The shortcut of Hash reads: `cache_get_hash_object_ref` remembers the entry of its last read and answers a read of the same
key from it, without a look-up in the index.

Two caches are `Alike` when they differ at most in the layout of the index and in what they remember of the last Hash read.
A read through the shortcut and a read without it return the same entry and leave caches that are alike
(`cacheGetHashObjectRef_alike`): the look-up the shortcut spares would only have moved nodes between the tables of the index.
`getHashObjectRef_agrees` says it for every reachable cache, in the terms of a user of the cache, with what the remembered
entry is when it is used: an entry of the cache, under the key it is remembered for, whose deadline has not passed.
-/
import StoreSystem.Cache.Consistency

namespace StoreSystem.Cache

variable {hash : Hasher} {c c' : Cache}

/-! ## Caches that differ in the shortcut -/

/-- the parts other than the index and the remembered entry are the same -/
def SameRest (c c' : Cache) : Prop := ∃ index entry key, c' = { c with index := index, hashHotEntry := entry, hashHotKey := key }

theorem SameRest.clearHot (hs : SameRest c c') (id : ℕ) : SameRest (c.clearHot id) (c'.clearHot id) := by
  obtain ⟨index, entry, key, rfl⟩ := hs
  unfold Cache.clearHot
  split_ifs
  all_goals exact ⟨_, _, _, rfl⟩

theorem SameRest.heapForget (hs : SameRest c c') (id : ℕ) : SameRest (c.heapForget id) (c'.heapForget id) := by
  obtain ⟨index, entry, key, rfl⟩ := hs
  unfold Cache.heapForget
  dsimp only
  cases c.heap.position id with
  | none | some i => exact ⟨_, _, _, rfl⟩

theorem SameRest.lruUnlink (hs : SameRest c c') (id : ℕ) : SameRest (c.lruUnlink id) (c'.lruUnlink id) := by
  obtain ⟨index, entry, key, rfl⟩ := hs
  unfold Cache.lruUnlink
  dsimp only
  split_ifs
  all_goals exact ⟨_, _, _, rfl⟩

theorem SameRest.detachEntry (hs : SameRest c c') (id : ℕ) : SameRest (c.detachEntry id) (c'.detachEntry id) := by
  obtain ⟨index, entry, key, he⟩ := (hs.heapForget id).lruUnlink id
  unfold Cache.detachEntry
  dsimp only
  rw [he]
  exact ⟨_, _, _, rfl⟩

theorem entryRemove_expired (c : Cache) (id : ℕ) : c.entryRemove id .expired =
    { (c.clearHot id).detachEntry id with expiredKeys := ((c.clearHot id).detachEntry id).expiredKeys + 1 } := by
  simp [entryRemove]

theorem SameRest.entryRemove (hs : SameRest c c') (id : ℕ) :
    SameRest (c.entryRemove id .expired) (c'.entryRemove id .expired) := by
  obtain ⟨index, entry, key, he⟩ := (hs.clearHot id).detachEntry id
  rw [entryRemove_expired, entryRemove_expired, he]
  exact ⟨_, _, _, rfl⟩

/-- `c'` differs from `c` at most in the layout of the index and in the remembered entry -/
structure Alike (c c' : Cache) : Prop where
  ids : c'.ids.Perm c.ids
  keyspace : c'.keyspace = c.keyspace
  rest : SameRest c c'

theorem Alike.rehashed (h : Core hash c) (budget : ℕ) :
    Alike { c with index := (KvHash.kvHashRehashStep c.index budget).1 } c := by
  obtain ⟨_, hks, hids⟩ := h.rehash budget
  exact ⟨hids.symm, hks.symm, c.index, c.hashHotEntry, c.hashHotKey, rfl⟩

theorem Alike.entry (ha : Alike c c') : c'.entry = c.entry := by
  obtain ⟨_, _, index, entry, key, rfl⟩ := ha
  rfl

theorem Alike.cacheNow (ha : Alike c c') : Alike c.cacheNow.2 c'.cacheNow.2 := by
  obtain ⟨hids, hks, index, entry, key, rfl⟩ := ha
  exact ⟨hids, hks, index, entry, key, rfl⟩

theorem Alike.recordRead (ha : Alike c c') (found record : Bool) :
    Alike (c.recordRead found record) (c'.recordRead found record) := by
  obtain ⟨hids, hks, index, entry, key, rfl⟩ := ha
  unfold Cache.recordRead
  split_ifs
  all_goals exact ⟨hids, hks, index, entry, key, rfl⟩

theorem Alike.lruTouch (ha : Alike c c') (id : ℕ) : Alike (c.lruTouch id) (c'.lruTouch id) := by
  obtain ⟨hids, hks, index, entry, key, rfl⟩ := ha
  unfold Cache.lruTouch
  dsimp only
  split_ifs
  all_goals exact ⟨hids, hks, index, entry, key, rfl⟩

variable {id : ℕ}

theorem Alike.remove (h : Core hash c) (h' : Core hash c') (ha : Alike c c') (hid : id ∈ c.ids) :
    Alike (c.entryRemove id .expired) (c'.entryRemove id .expired) := by
  obtain ⟨d, _⟩ := entryRemove_dropped h hid .expired
  obtain ⟨d', _⟩ := entryRemove_dropped h' (ha.ids.mem_iff.2 hid) .expired
  refine ⟨?_, ?_, ?_⟩
  · exact List.Perm.cons_inv (d'.ids.trans (ha.ids.trans d.ids.symm))
  · rw [d'.keyspace, d.keyspace, ha.keyspace]
    unfold entryKey
    rw [ha.entry]
  · exact ha.rest.entryRemove id

/-! ## The read through the shortcut -/

/-- the remembered entry of a key is the entry a look-up of the key finds -/
theorem hot_lookup (h : Core hash c) (hhot : c.hashHotEntry = some id) :
    id ∈ c.ids ∧ KvHash.lookup c.index c.hashHotKey = some id := by
  obtain ⟨hid, hkey⟩ := h.hot id hhot
  refine ⟨hid, ?_⟩
  rw [hkey]
  exact h.lookup_entryKey hid

/-- **The shortcut** finds what a look-up finds, and leaves what a look-up leaves. -/
theorem findLiveHash_alike (h : Core hash c) (key : Bytes) : (c.findLiveHash hash key).2 = (c.findLive hash key uint64Max).2 ∧
      Alike (c.findLive hash key uint64Max).1 (c.findLiveHash hash key).1 := by
  unfold findLiveHash
  cases hhot : (if c.hashHotKey = key then c.hashHotEntry else none) with
  | none =>
    exact ⟨rfl, List.Perm.refl _, rfl, _, _, _, rfl⟩
  | some id =>
    have hkey : c.hashHotKey = key := by
      by_contra hne
      rw [if_neg hne] at hhot
      exact absurd hhot (by simp)
    rw [if_pos hkey] at hhot
    obtain ⟨hid, hl⟩ := hot_lookup h hhot
    -- the look-up that is spared moves nodes of the index and finds the entry
    obtain ⟨h1, _, hids⟩ := h.rehash 1
    have ha := Alike.rehashed h 1
    have hfind : (KvHash.kvHashFind hash (KvHash.kvHashRehashStep c.index 1).1 key).map KvHash.Node.payload = some id := by
      rw [← KvHash.lookup_eq_find h1.dict key, KvHash.lookup_perm h.dict.keys (KvHash.kvHashRehashStep_spec h.dict 1).nodes,
        ← hkey, hl]
    obtain ⟨n, hn, rfl⟩ := Option.map_eq_some_iff.1 hfind
    have hexpire : ({ c with index := (KvHash.kvHashRehashStep c.index 1).1 } : Cache).expireAt n.payload =
        c.expireAt n.payload := rfl
    unfold findLive
    simp only [hn, hexpire]
    generalize hc1 : ({ c with index := (KvHash.kvHashRehashStep c.index 1).1 } : Cache) = c1 at *
    have hclock : c1.cacheNow.1 = c.cacheNow.1 := by rw [← hc1]; rfl
    by_cases hd : c.expireAt n.payload = 0
    · have hread : c1.readNow n.payload uint64Max = (uint64Max, c1) := by
        rw [readNow, hexpire, if_neg fun hc => hc.1 hd]
      rw [hread, if_pos hd, if_neg fun hc => hc.1 hd]
      exact ⟨rfl, ha⟩
    · have hread : c1.readNow n.payload uint64Max = c1.cacheNow := by
        rw [readNow, hexpire, if_pos ⟨hd, rfl⟩]
      rw [hread, if_neg hd, hclock]
      by_cases ht : c.cacheNow.1 < c.expireAt n.payload
      · rw [if_pos ht, if_neg fun hc => absurd hc.2 (not_le.2 ht)]
        exact ⟨rfl, ha.cacheNow⟩
      · rw [if_neg ht, if_pos ⟨hd, not_lt.1 ht⟩]
        exact ⟨rfl, Alike.remove h1.cacheNow h.cacheNow ha.cacheNow (hids.mem_iff.2 hid)⟩

/-- the counted read through the shortcut against the counted read without it -/
theorem cacheGetHashObjectRef_alike (h : Core hash c) (key : Bytes) (record : Bool) :
    (c.cacheGetHashObjectRef hash key record).2 = (c.cacheGetObjectRef hash key record).2 ∧
      Alike (c.cacheGetObjectRef hash key record).1 (c.cacheGetHashObjectRef hash key record).1 := by
  obtain ⟨hfound, ha⟩ := findLiveHash_alike h key
  unfold cacheGetHashObjectRef cacheGetObjectRef
  dsimp only
  rw [hfound]
  cases (c.findLive hash key uint64Max).2 with
  | none => exact ⟨rfl, ha.recordRead false record⟩
  | some id => exact ⟨rfl, (ha.recordRead true record).lruTouch id⟩

theorem cacheGetObjectRef_snd (c : Cache) (key : Bytes) (record : Bool) :
    (c.cacheGetObjectRef hash key record).2 = (c.findLive hash key uint64Max).2 := by
  unfold cacheGetObjectRef
  dsimp only
  cases (c.findLive hash key uint64Max).2 with
  | none => rfl
  | some id => rfl

/-- a look-up returns an entry of the cache under its key whose deadline has not passed at the time it reads -/
theorem findLive_live (h : Core hash c) {key : Bytes} (hr : (c.findLive hash key uint64Max).2 = some id) :
    id ∈ c.ids ∧ c.entryKey id = key ∧ ¬ (c.expireAt id ≠ 0 ∧ c.expireAt id ≤ c.nowMs 0) := by
  obtain ⟨hs, hks, hl, _⟩ := findLive_spec h key uint64Max
  rw [hr] at hl
  obtain ⟨hid, hkey⟩ := hs.core.of_lookup hl.symm
  have hstored := keyspace_entryKey hs.core hid
  rw [hkey, hks, decisionTime_max] at hstored
  obtain ⟨_, hlive⟩ := reap_some hstored
  unfold expireAt entryKey at *
  rw [hs.entry] at hkey hlive
  exact ⟨hs.ids id hid, hkey, hlive⟩

/-- **Reads through the shortcut.** In every cache that a sequence of calls can reach and for every key, a read through the
shortcut returns the entry and the object that a read without it returns, and leaves the same entries with the same deadlines,
the same counts of hits, misses and expired keys and the same recency order. The remembered entry is an entry of the cache
under the key it is remembered for, and an entry that is returned has not passed its deadline. -/
theorem getHashObjectRef_agrees (hash : Hasher) (maxKeys maxMemory : ℕ) (nowMs : ℕ → ℕ) (calls : List Call)
    (key : Bytes) (record : Bool) :
    let c := run hash (cacheCreate maxKeys maxMemory nowMs) calls
    let hot := c.cacheGetHashObjectRef hash key record
    let plain := c.cacheGetObjectRef hash key record
    hot.2 = plain.2 ∧ hot.1.entry = plain.1.entry ∧ hot.1.ids.Perm plain.1.ids ∧ hot.1.keyspace = plain.1.keyspace ∧
      hot.1.hits = plain.1.hits ∧ hot.1.misses = plain.1.misses ∧ hot.1.expiredKeys = plain.1.expiredKeys ∧
      hot.1.lru = plain.1.lru ∧ (∀ xs, hot.1.LruOrder xs ↔ plain.1.LruOrder xs) ∧
      (∀ id, c.hashHotEntry = some id → id ∈ c.ids ∧ c.entryKey id = c.hashHotKey) ∧
      (∀ id, hot.2 = some id → id ∈ c.ids ∧ c.entryKey id = key ∧ ¬ (c.expireAt id ≠ 0 ∧ c.expireAt id ≤ c.nowMs 0)) := by
  intro c hot plain
  have ha := run_advances calls (core_create hash maxKeys maxMemory nowMs) (within_create maxKeys maxMemory nowMs)
  obtain ⟨hfound, hids, hks, index, entry, hotKey, he⟩ := cacheGetHashObjectRef_alike ha.core key record
  change hot.2 = plain.2 at hfound
  change hot.1 = _ at he
  refine ⟨hfound, ?_, hids, hks, ?_, ?_, ?_, ?_, fun xs => ?_, fun id hid => ?_, fun id hid => ?_⟩
  iterate 5
    rw [he]
  · have hlru : hot.1.lruEnabled = plain.1.lruEnabled ∧ hot.1.lru = plain.1.lru := by
      rw [he]
      exact ⟨rfl, rfl⟩
    exact ⟨fun hx => hx.congr hlru.1.symm hlru.2.symm fun b => hids.mem_iff.symm,
      fun hx => hx.congr hlru.1 hlru.2 fun b => hids.mem_iff⟩
  · obtain ⟨h1, h2⟩ := ha.core.hot id hid
    exact ⟨h1, h2.symm⟩
  · apply findLive_live ha.core
    rw [← cacheGetObjectRef_snd]
    exact hfound ▸ hid

end StoreSystem.Cache
