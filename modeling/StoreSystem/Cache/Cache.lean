/-
The cache (`src/cache/cache.c`): typed objects by key, with deadlines, LRU order, limits and statistics.

An entry is linked into up to four structures at once: the rehashing index (its payload is the entry), the LRU list, the
binary heap of deadlines with back indices, and the hot-entry shortcut of Hash reads. Entries are named by number; the
fields of `struct cache_entry` are functions of the name, with `heap_index` in `heap.position` and the two LRU links in
`lru`. A name is never used again after its entry is freed.

Inputs of a call are what its allocations do (`Alloc`) and the readings of the clock, a stream from which `cacheNow` takes
the next one. Keys reported to the eviction callback are kept in `evicted`. Sizes are natural numbers: charges count
allocated bytes, so their sums stay within `size_t`.
-/
import StoreSystem.Engine.Object
import StoreSystem.Lib.IndexedHeap
import StoreSystem.Lib.LinkedList

namespace StoreSystem

open KvHash (HashTable Node)

/-! ## State -/

def uint64Max : ℕ := 2 ^ 64 - 1

def int64Max : ℕ := 2 ^ 63 - 1

/-- `struct cache_entry` without the heap index and the LRU links -/
structure CacheEntry where
  object : KvObject
  memoryCharge : ℕ
  objectItems : ℕ
  expireAtMs : ℕ
  indexNode : Option (Node ℕ)

def sizeofCacheEntry : ℕ := 64

/-- the five counters of keys and items by type -/
structure Counters where
  stringKeys : ℕ
  hashKeys : ℕ
  zsetKeys : ℕ
  hashFields : ℕ
  zsetMembers : ℕ
deriving DecidableEq, Repr

/-- `struct cache` -/
structure Cache where
  index : HashTable ℕ
  entry : ℕ → CacheEntry
  nextEntry : ℕ
  lru : LinkedList.Links ℕ
  lruEnabled : Bool
  heap : IndexedHeap.Heap ℕ
  heapCapacity : ℕ
  usedMemory : ℕ
  maxKeys : ℕ
  maxMemory : ℕ
  /-- the readings of the clock to come -/
  nowMs : ℕ → ℕ
  hits : ℕ
  misses : ℕ
  expiredKeys : ℕ
  evictedKeys : ℕ
  counters : Counters
  hashHotEntry : Option ℕ
  hashHotKey : Bytes
  /-- the keys reported to `on_evict`, oldest first -/
  evicted : List Bytes

inductive RemovalReason
  | normal
  | expired
  | evicted
deriving DecidableEq, Repr

inductive CacheSetResult
  | error
  | ok
  | capacity
  | range
deriving DecidableEq, Repr

namespace Cache

/-- what the allocations of a store do -/
structure Alloc where
  heap : Bool
  entry : Bool
  index : KvHash.Alloc
deriving DecidableEq, Repr

def noObject : KvObject := ⟨.string [] 0, 0⟩

/-- a zeroed entry -/
def noEntry : CacheEntry := ⟨noObject, 0, 0, 0, none⟩

/-- `cache_create` when its allocations succeed -/
def cacheCreate (maxKeys maxMemory : ℕ) (nowMs : ℕ → ℕ) : Cache where
  index := KvHash.kvHashCreate
  entry := fun _ => noEntry
  nextEntry := 0
  lru := ⟨fun _ => none, fun _ => none, none, none⟩
  lruEnabled := maxKeys ≠ 0 ∨ maxMemory ≠ 0
  heap := ⟨fun _ => 0, 0, fun _ => none⟩
  heapCapacity := 0
  usedMemory := 0
  maxKeys := maxKeys
  maxMemory := maxMemory
  nowMs := nowMs
  hits := 0
  misses := 0
  expiredKeys := 0
  evictedKeys := 0
  counters := ⟨0, 0, 0, 0, 0⟩
  hashHotEntry := none
  hashHotKey := []
  evicted := []

def setEntry (c : Cache) (id : ℕ) (e : CacheEntry) : Cache := { c with entry := Function.update c.entry id e }

/-- a reading of the clock, and the cache with the later readings -/
def cacheNow (c : Cache) : ℕ × Cache := (c.nowMs 0, { c with nowMs := fun i => c.nowMs (i + 1) })

def objectItemCount (o : KvObject) : ℕ :=
  match kvObjectType o with
  | .hash => kvObjectHashLength o
  | .zset => kvObjectZsetLength o
  | .string => 0

def entryMemoryCharge (keyLength : ℕ) (o : KvObject) : ℕ :=
  let nodeCharge := KvHash.kvHashNodeMemoryForKey keyLength
  let objectCharge := kvObjectMemoryUsage o
  if nodeCharge = sizeMax then sizeMax
  else if sizeofCacheEntry > sizeMax - nodeCharge ∨ objectCharge > sizeMax - sizeofCacheEntry - nodeCharge then sizeMax
  else sizeofCacheEntry + nodeCharge + objectCharge

end Cache

variable (s : Counters) (type : KvType)

/-- `stats_add_object` -/
def Counters.addObject (items : ℕ) : Counters :=
  match type with
  | .string => { s with stringKeys := s.stringKeys + 1 }
  | .hash => { s with hashKeys := s.hashKeys + 1, hashFields := s.hashFields + items }
  | .zset => { s with zsetKeys := s.zsetKeys + 1, zsetMembers := s.zsetMembers + items }

/-- `stats_remove_object` -/
def Counters.removeObject (items : ℕ) : Counters :=
  match type with
  | .string => { s with stringKeys := s.stringKeys - 1 }
  | .hash => { s with hashKeys := s.hashKeys - 1, hashFields := s.hashFields - items }
  | .zset => { s with zsetKeys := s.zsetKeys - 1, zsetMembers := s.zsetMembers - items }

/-- the change of the item counters in `cache_recharge_ref` -/
def Counters.replaceItems (old new : ℕ) : Counters :=
  match type with
  | .string => s
  | .hash => { s with hashFields := s.hashFields - old + new }
  | .zset => { s with zsetMembers := s.zsetMembers - old + new }

namespace Cache

/-! ## Heap of deadlines -/

variable (hash : Hasher) (c : Cache) (id : ℕ) (key : Bytes)

def cacheHeapInitialCapacity : ℕ := 16

def sizeofPointer : ℕ := 8

def expireAt : ℕ := (c.entry id).expireAtMs

/-- the doubling loop of `heap_reserve`; `none` on overflow -/
def growCapacity : ℕ → ℕ → ℕ → Option ℕ
  | 0, _, _ => none
  | fuel + 1, capacity, required =>
    if capacity < required then
      if capacity > sizeMax / 2 then none else growCapacity fuel (capacity * 2) required
    else some capacity

variable (ok : Bool) (alloc : Alloc) (record : Bool) (object : KvObject)

/-- `heap_reserve`; sixty-five rounds double any capacity past `SIZE_MAX` -/
def heapReserve (c : Cache) (required : ℕ) : Option Cache :=
  if required ≤ c.heapCapacity then some c
  else
    match growCapacity 65 (if c.heapCapacity = 0 then cacheHeapInitialCapacity else c.heapCapacity) required with
    | none => none
    | some capacity =>
      if capacity > sizeMax / sizeofPointer then none
      else if ok then some { c with heapCapacity := capacity } else none

def heapInsertReserved : Cache := { c with heap := c.heap.insert c.expireAt id }

def heapRemoveAt (index : ℕ) : Cache := { c with heap := c.heap.removeAt c.expireAt index }

/-- `entry->heap_index`, where `CACHE_HEAP_NONE` is `SIZE_MAX` -/
def heapIndex : ℕ := (c.heap.position id).getD sizeMax

def heapExpirationChanged : Cache := { c with heap := c.heap.restore c.expireAt (c.heapIndex id) }

/-! ## LRU list -/

def lruUnlink : Cache := if c.lruEnabled then { c with lru := c.lru.unlink id } else c

def lruLinkHead : Cache := if c.lruEnabled then { c with lru := c.lru.linkHead id } else c

def lruTouch : Cache := if c.lruEnabled then { c with lru := c.lru.touch id } else c

/-! ## Entries -/

def entryKey : Bytes :=
  match (c.entry id).indexNode with
  | some n => n.key
  | none => []

def clearHot : Cache :=
  if c.hashHotEntry = some id then { c with hashHotEntry := none, hashHotKey := [] } else c

/-- the heap part of a removal -/
def heapForget : Cache :=
  match c.heap.position id with
  | some index => c.heapRemoveAt index
  | none => c

/-- the removal of an entry from every structure, without the counters of reasons -/
def detachEntry : Cache :=
  let c := (c.heapForget id).lruUnlink id
  let e := c.entry id
  { c with
    index := (KvHash.kvHashRemoveNode c.index e.indexNode).1
    usedMemory := c.usedMemory - e.memoryCharge
    counters := c.counters.removeObject (kvObjectType e.object) e.objectItems }

def entryRemove (reason : RemovalReason) : Cache :=
  let c := c.clearHot id
  let c := if reason = .evicted then { c with evicted := c.evicted ++ [c.entryKey id] } else c
  let c := c.detachEntry id
  match reason with
  | .expired => { c with expiredKeys := c.expiredKeys + 1 }
  | .evicted => { c with evictedKeys := c.evictedKeys + 1 }
  | .normal => c

/-- read the clock when it has not been read yet and the entry has a deadline -/
def readNow (id now : ℕ) : ℕ × Cache :=
  if c.expireAt id ≠ 0 ∧ now = uint64Max then c.cacheNow else (now, c)

def findLive (now : ℕ) : Cache × Option ℕ :=
  let c := { c with index := (KvHash.kvHashRehashStep c.index 1).1 }
  match KvHash.kvHashFind hash c.index key with
  | none => (c, none)
  | some n =>
    let r := c.readNow n.payload now
    if c.expireAt n.payload ≠ 0 ∧ r.1 ≥ c.expireAt n.payload then (r.2.entryRemove n.payload .expired, none)
    else (r.2, some n.payload)

/-! ## Limits -/

def limitsExceeded (projectedKeys projectedMemory : ℕ) : Bool :=
  (c.maxKeys ≠ 0 ∧ projectedKeys > c.maxKeys) ∨ (c.maxMemory ≠ 0 ∧ projectedMemory > c.maxMemory)

def evictionCandidate (protectedEntry : ℕ) : Option ℕ :=
  if c.lru.tail = some protectedEntry then c.lru.previous protectedEntry else c.lru.tail

/-- the three eviction loops: remove candidates until the limits are met. `projected` is the local `projected_memory`,
`none` where the loop tests `used_memory` itself; `reread` says whether the loop may read the clock for a candidate with a
deadline. The last component is false when no candidate is left. -/
def evictLoop (reread : Bool) (protectedEntry : ℕ) : ℕ → Cache → Option ℕ → ℕ → Cache × Option ℕ × Bool
  | 0, c, projected, _ => (c, projected, false)
  | fuel + 1, c, projected, now =>
    if c.limitsExceeded (KvHash.kvHashCount c.index) (projected.getD c.usedMemory) then
      match c.evictionCandidate protectedEntry with
      | none => (c, projected, false)
      | some id =>
        let r := if reread then c.readNow id now else (now, c)
        let reason := if c.expireAt id ≠ 0 ∧ r.1 ≥ c.expireAt id then RemovalReason.expired else .evicted
        evictLoop reread protectedEntry fuel (r.2.entryRemove id reason)
          (projected.map (· - (c.entry id).memoryCharge)) r.1
    else (c, projected, true)

/-! ## Stores -/

def writeExpire (id expireAtMs : ℕ) : Cache := c.setEntry id { c.entry id with expireAtMs := expireAtMs }

/-- the change of deadline in `cache_store_object`, with room in the heap reserved -/
def changeDeadline (id expireAtMs : ℕ) : Cache :=
  let c' :=
    if c.expireAt id ≠ 0 ∧ expireAtMs = 0 then c.heapRemoveAt (c.heapIndex id)
    else if c.expireAt id = 0 ∧ expireAtMs ≠ 0 then (c.writeExpire id expireAtMs).heapInsertReserved id
    else if c.expireAt id ≠ 0 ∧ expireAtMs ≠ 0 then (c.writeExpire id expireAtMs).heapExpirationChanged id
    else c
  c'.writeExpire id expireAtMs

/-- the new object takes the place of the old one, with its charge and its items -/
def replaceObject (charge items : ℕ) : Cache :=
  let e := c.entry id
  let c := { c with
    usedMemory := c.usedMemory - e.memoryCharge + charge
    counters := (c.counters.removeObject (kvObjectType e.object) e.objectItems).addObject (kvObjectType object) items }
  c.setEntry id { e with object := object, objectItems := items, memoryCharge := charge }

/-- the part of `cache_store_object` that makes room for the new object and puts it in the place of the old one -/
def storeReplace (charge items expireAtMs now : ℕ) : Cache × CacheSetResult :=
  let projected := c.usedMemory - (c.entry id).memoryCharge + charge
  let r := evictLoop true id (KvHash.kvHashCount c.index) c (some projected) now
  if r.2.2 then (((r.1.replaceObject id object charge items).changeDeadline id expireAtMs).lruTouch id, .ok)
  else (r.1, .capacity)

/-- `cache_store_object` over a live entry, after the reservation; a String that fits is written in place -/
def storeOver (charge items expireAtMs now : ℕ) : Cache × CacheSetResult :=
  match kvObjectType (c.entry id).object, kvObjectStringValue object with
  | .string, some value =>
    match kvObjectStringUpdate (c.entry id).object value with
    | (_, none) => (c, .error)
    | (updated, some true) =>
      (((c.setEntry id { c.entry id with object := updated }).changeDeadline id expireAtMs).lruTouch id, .ok)
    | (_, some false) => c.storeReplace id object charge items expireAtMs now
  | _, _ => c.storeReplace id object charge items expireAtMs now

/-- a new entry enters the index, the counters, the LRU list and, with a deadline, the heap -/
def linkEntry (index : HashTable ℕ) (n : Node ℕ) (object : KvObject) (charge items expireAtMs : ℕ) : Cache :=
  let id := c.nextEntry
  let c := { c with
    index := index
    entry := Function.update c.entry id ⟨object, charge, items, expireAtMs, some n⟩
    nextEntry := id + 1
    counters := c.counters.addObject (kvObjectType object) items }
  let c := c.lruLinkHead id
  let c := { c with usedMemory := c.usedMemory + charge }
  if expireAtMs ≠ 0 then c.heapInsertReserved id else c

/-- `cache_store_object` of a key that is not there, after the reservation -/
def storeNew (c : Cache) (key : Bytes) (object : KvObject) (charge items expireAtMs now : ℕ) : Cache × CacheSetResult :=
  if alloc.entry then
    match KvHash.kvHashInsert hash alloc.index c.index key c.nextEntry with
    | (index, none) => ({ c with index := index }, .error)
    | (index, some n) =>
      let id := c.nextEntry
      let c := c.linkEntry index n object charge items expireAtMs
      let r := evictLoop true id (KvHash.kvHashCount c.index) c none now
      if r.2.2 then (r.1, .ok) else (r.1.detachEntry id, .capacity)
  else (c, .error)

def cacheStoreObject (c : Cache) (key : Bytes) (object : KvObject)
    (expireAtMs : ℕ) (preserveExistingTtl : Bool) : Cache × CacheSetResult :=
  let r := if expireAtMs ≠ 0 then c.cacheNow else (uint64Max, c)
  let now := r.1
  let c := r.2
  let charge := entryMemoryCharge key.length object
  let items := objectItemCount object
  if charge = sizeMax ∨ (c.maxMemory ≠ 0 ∧ charge > c.maxMemory) then (c, .capacity)
  else
    let r := c.findLive hash key now
    let c := r.1
    match r.2 with
    | some id =>
      let expireAtMs := if preserveExistingTtl then c.expireAt id else expireAtMs
      let reserved := if expireAtMs ≠ 0 ∧ c.expireAt id = 0 then heapReserve alloc.heap c (c.heap.count + 1) else some c
      match reserved with
      | none => (c, .error)
      | some c => c.storeOver id object charge items expireAtMs now
    | none =>
      let reserved := if expireAtMs ≠ 0 then heapReserve alloc.heap c (c.heap.count + 1) else some c
      match reserved with
      | none => (c, .error)
      | some c => c.storeNew hash alloc key object charge items expireAtMs now

def cacheSetExpireAt (c : Cache) (key value : Bytes) (expireAtMs : ℕ) : Cache × CacheSetResult :=
  match kvObjectCreateString ok value with
  | none => (c, .error)
  | some object => c.cacheStoreObject hash alloc key object expireAtMs false

def cacheSet (c : Cache) (key value : Bytes) (ttlMs : ℕ) :
    Cache × CacheSetResult :=
  let r := if ttlMs = 0 then (0, c) else c.cacheNow
  if ttlMs ≠ 0 ∧ ttlMs > uint64Max - r.1 then (r.2, .range)
  else r.2.cacheSetExpireAt hash ok alloc key value (if ttlMs = 0 then 0 else r.1 + ttlMs)

/-! ## Reads -/

def recordRead (found record : Bool) : Cache :=
  if record then if found then { c with hits := c.hits + 1 } else { c with misses := c.misses + 1 } else c

/-- `cache_get_object_ref`: the entry behind the returned object -/
def cacheGetObjectRef : Cache × Option ℕ :=
  let r := c.findLive hash key uint64Max
  match r.2 with
  | none => (r.1.recordRead false record, none)
  | some id => ((r.1.recordRead true record).lruTouch id, some id)

def cacheGetObject : Cache × Option KvObject :=
  let r := c.cacheGetObjectRef hash key record
  (r.1, r.2.map fun id => (r.1.entry id).object)

def cacheGet : Cache × Option Bytes :=
  let r := c.cacheGetObject hash key true
  (r.1, r.2.bind kvObjectStringValue)

def findLiveHash : Cache × Option ℕ :=
  match if c.hashHotKey = key then c.hashHotEntry else none with
  | some id =>
    if c.expireAt id = 0 then (c, some id)
    else
      let r := c.cacheNow
      if r.1 < c.expireAt id then (r.2, some id) else (r.2.entryRemove id .expired, none)
  | none =>
    let r := c.findLive hash key uint64Max
    let hotKey := match r.2 with
      | none => []
      | some id => r.1.entryKey id
    ({ r.1 with hashHotEntry := r.2, hashHotKey := hotKey }, r.2)

def cacheGetHashObjectRef : Cache × Option ℕ :=
  let r := c.findLiveHash hash key
  match r.2 with
  | none => (r.1.recordRead false record, none)
  | some id => ((r.1.recordRead true record).lruTouch id, some id)

/-! ## Charges, deadlines, upkeep -/

/-- the end of `cache_recharge_ref`: the entry takes the new charge and the new number of items -/
def applyCharge (id charge projected : ℕ) : Cache :=
  let e := c.entry id
  let items := objectItemCount e.object
  let c := { c with
    counters := c.counters.replaceItems (kvObjectType e.object) e.objectItems items
    usedMemory := projected }
  (c.setEntry id { e with objectItems := items, memoryCharge := charge }).lruTouch id

def cacheRechargeRef (entryRef : Option ℕ) : Cache × CacheSetResult :=
  match entryRef with
  | none => (c, .error)
  | some id =>
    match (c.entry id).indexNode with
    | none => (c, .error)
    | some n =>
      let r := if c.expireAt id ≠ 0 then c.cacheNow else (0, c)
      let c := r.2
      if c.expireAt id ≠ 0 ∧ r.1 ≥ c.expireAt id then (c, .error)
      else
        let charge := entryMemoryCharge n.key.length (c.entry id).object
        if charge = sizeMax ∨ (c.maxMemory ≠ 0 ∧ charge > c.maxMemory) then (c, .capacity)
        else
          let projected := c.usedMemory - (c.entry id).memoryCharge + charge
          let r := evictLoop false id (KvHash.kvHashCount c.index) c (some projected) r.1
          if r.2.2 then (r.1.applyCharge id charge (r.2.1.getD 0), .ok) else (r.1, .capacity)

def cacheRechargeObject : Cache × CacheSetResult :=
  let r := c.findLive hash key uint64Max
  r.1.cacheRechargeRef r.2

def cacheDelete : Cache × ℤ :=
  let r := c.findLive hash key uint64Max
  match r.2 with
  | none => (r.1, 0)
  | some id => (r.1.entryRemove id .normal, 1)

def cacheExpireAt (heapOk : Bool) (c : Cache) (key : Bytes) (expireAtMs : ℕ) : Cache × ℤ :=
  if expireAtMs = 0 then c.cacheDelete hash key
  else
    let now := c.cacheNow
    let r := now.2.findLive hash key now.1
    let c := r.1
    match r.2 with
    | none => (c, 0)
    | some id =>
      if c.expireAt id = 0 then
        match heapReserve heapOk c (c.heap.count + 1) with
        | none => (c, -1)
        | some c => ((c.writeExpire id expireAtMs).heapInsertReserved id, 1)
      else ((c.writeExpire id expireAtMs).heapExpirationChanged id, 1)

def cacheExpire (heapOk : Bool) (c : Cache) (key : Bytes) (ttlMs : ℕ) : Cache × ℤ :=
  if ttlMs = 0 then c.cacheDelete hash key
  else
    let now := c.cacheNow
    if ttlMs > uint64Max - now.1 then (now.2, -2) else now.2.cacheExpireAt hash heapOk key (now.1 + ttlMs)

def cachePersist : Cache × ℤ :=
  let r := c.findLive hash key uint64Max
  match r.2 with
  | none => (r.1, 0)
  | some id =>
    if r.1.expireAt id = 0 then (r.1, 0) else ((r.1.heapRemoveAt (r.1.heapIndex id)).writeExpire id 0, 1)

def cacheTtlMs : Cache × ℤ :=
  let now := c.cacheNow
  let r := now.2.findLive hash key now.1
  match r.2 with
  | none => (r.1, -2)
  | some id =>
    if r.1.expireAt id = 0 then (r.1, -1)
    else
      let remaining := r.1.expireAt id - now.1
      (r.1, if remaining > int64Max then int64Max else remaining)

/-- the loop of `cache_maintain` -/
def expireLoop : ℕ → Cache → ℕ → Cache × ℕ
  | 0, c, _ => (c, 0)
  | budget + 1, c, now =>
    if c.heap.count > 0 then
      if c.expireAt (c.heap.slot 0) > now then (c, 0)
      else
        let r := expireLoop budget (c.entryRemove (c.heap.slot 0) .expired) now
        (r.1, r.2 + 1)
    else (c, 0)

def cacheMaintain (expireBudget rehashBudget : ℕ) : Cache × ℕ :=
  let now := c.cacheNow
  let r := expireLoop expireBudget now.2 now.1
  ({ r.1 with index := (KvHash.kvHashRehashStep r.1.index rehashBudget).1 }, r.2)

/-- `cache_visit`: the visitor sees key, object and deadline of every entry -/
def cacheVisit {C : Type} (callback : C → Bytes × KvObject × ℕ → C × Bool) (context : C) : C × Bool :=
  visit callback context
    ((KvHash.traverse c.index (c.index.count + 1) KvHash.kvHashIteratorBegin).map fun n =>
      (n.key, (c.entry n.payload).object, (c.entry n.payload).expireAtMs))

end Cache

end StoreSystem
