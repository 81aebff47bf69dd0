/-
The representation invariant of the cache.

`Core` says how the structures of the cache hang together: index, LRU list, heap of deadlines, charges, counters and hot
entry all speak of the same entries. It does not include the limits, which an insertion exceeds for a moment before it
evicts. `keyspace` is what the cache holds, by key: the abstract object and its deadline.

Each part of an operation has one specification: a removal (`Dropped`), a change of deadline, a replacement (`Updates`). They
give the invariant and the effect on the keyspace together, so that the operations and the layers above never look at the
structures again.
-/
import StoreSystem.Cache.Cache

namespace StoreSystem

open List Function Option
open KvHash (HashTable Node nodes kvHashCount kvHashRehashStep)

/-! ## Counters -/

/-- the counters of a list of entries, each given by type and number of items -/
def tally : List (KvType × ℕ) → Counters
  | [] => ⟨0, 0, 0, 0, 0⟩
  | p :: l => (tally l).addObject p.1 p.2

variable (s : Counters) (l : List (KvType × ℕ))

theorem Counters.addObject_comm (t t' : KvType) (i i' : ℕ) :
    (s.addObject t i).addObject t' i' = (s.addObject t' i').addObject t i := by
  cases t <;> cases t' <;> simp [Counters.addObject, Nat.add_right_comm]

theorem Counters.remove_add (t : KvType) (i : ℕ) : (s.addObject t i).removeObject t i = s := by
  cases t <;> simp [Counters.addObject, Counters.removeObject]

theorem Counters.replace_add (t : KvType) (i j : ℕ) : (s.addObject t i).replaceItems t i j = s.addObject t j := by
  cases t <;> simp [Counters.addObject, Counters.replaceItems]

theorem tally_perm {l l' : List (KvType × ℕ)} (h : l.Perm l') : tally l = tally l' := by
  induction h with
  | nil => rfl
  | cons p _ ih => rw [tally, tally, ih]
  | swap p q l => exact Counters.addObject_comm _ _ _ _ _
  | trans _ _ ih1 ih2 => exact ih1.trans ih2

theorem tally_stringKeys : (tally l).stringKeys = (l.filter fun p => p.1 = .string).length := by
  induction l with
  | nil => rfl
  | cons p l ih =>
    obtain ⟨t, i⟩ := p
    cases t <;> simp [tally, Counters.addObject, ih]

theorem tally_hash : (tally l).hashKeys = (l.filter fun p => p.1 = .hash).length ∧
      (tally l).hashFields = ((l.filter fun p => p.1 = .hash).map Prod.snd).sum := by
  induction l with
  | nil => exact ⟨rfl, rfl⟩
  | cons p l ih =>
    obtain ⟨t, i⟩ := p
    cases t <;> simp [tally, Counters.addObject, ih, Nat.add_comm]

theorem tally_zset : (tally l).zsetKeys = (l.filter fun p => p.1 = .zset).length ∧
      (tally l).zsetMembers = ((l.filter fun p => p.1 = .zset).map Prod.snd).sum := by
  induction l with
  | nil => exact ⟨rfl, rfl⟩
  | cons p l ih =>
    obtain ⟨t, i⟩ := p
    cases t <;> simp [tally, Counters.addObject, ih, Nat.add_comm]

namespace Cache

/-! ## Invariant -/

variable {c' : Cache} {id : ℕ}

variable (c : Cache)

/-- the entries in the index -/
def ids : List ℕ := (nodes c.index).map Node.payload

/-- type and recorded number of items of an entry -/
def profile (id : ℕ) : KvType × ℕ := (kvObjectType (c.entry id).object, (c.entry id).objectItems)

def charge (id : ℕ) : ℕ := (c.entry id).memoryCharge

structure Core (hash : Hasher) (c : Cache) : Prop where
  dict : KvHash.Inv hash c.index
  node : ∀ n ∈ nodes c.index, (c.entry n.payload).indexNode = some n
  fresh : ∀ id ∈ c.ids, id < c.nextEntry
  lru : c.lruEnabled = true → ∃ xs, LinkedList.Rep c.lru xs ∧ ∀ id, id ∈ xs ↔ id ∈ c.ids
  placed : c.heap.Placed
  ordered : c.heap.Ordered c.expireAt
  heap : ∀ id, c.heap.Mem id ↔ id ∈ c.ids ∧ c.expireAt id ≠ 0
  room : c.heap.count ≤ c.heapCapacity
  used : c.usedMemory = (c.ids.map c.charge).sum
  counted : c.counters = tally (c.ids.map c.profile)
  hot : ∀ id, c.hashHotEntry = some id → id ∈ c.ids ∧ c.hashHotKey = c.entryKey id
  enabled : c.lruEnabled = decide (c.maxKeys ≠ 0 ∨ c.maxMemory ≠ 0)

/-- what is stored under a key, with the deadline (0 for none); an entry whose deadline has passed is still there -/
def keyspace (key : Bytes) : Option (Obj × ℕ) :=
  (KvHash.lookup c.index key).map fun id => ((c.entry id).object.view, c.expireAt id)

theorem keyspace_eq (key : Bytes) :
    c.keyspace key = (KvHash.lookup c.index key).map fun id => ((c.entry id).object.view, (c.entry id).expireAtMs) := rfl

/-- every stored object is well formed -/
def Sound (hash : Hasher) (c : Cache) : Prop := ∀ id ∈ c.ids, (c.entry id).object.Inv hash

/-- an entry with a node is charged for its key and its object -/
def Covers (e : CacheEntry) : Prop := ∀ n, e.indexNode = some n → entryMemoryCharge n.key.length e.object ≤ e.memoryCharge

/-- under a limit on memory every entry is charged for what it holds -/
def Charged : Prop := c.maxMemory ≠ 0 → ∀ id, Covers (c.entry id)

/-- the clock of `c'` is that of `c` after some readings -/
def Later (c c' : Cache) : Prop := ∃ k, ∀ i, c'.nowMs i = c.nowMs (i + k)

theorem Later.refl : Later c c := ⟨0, fun _ => rfl⟩

theorem Later.trans {c c'' : Cache} (h : Later c c') (h' : Later c' c'') : Later c c'' := by
  obtain ⟨k, hk⟩ := h
  obtain ⟨k', hk'⟩ := h'
  refine ⟨k' + k, fun i => ?_⟩
  rw [hk', hk, Nat.add_assoc]

variable {hash : Hasher} {c : Cache}

section

variable (h : Core hash c)
include h

theorem Core.mem_ids (hid : id ∈ c.ids) :
    ∃ n ∈ nodes c.index, n.payload = id ∧ (c.entry id).indexNode = some n ∧ c.entryKey id = n.key := by
  obtain ⟨n, hn, rfl⟩ := List.mem_map.1 hid
  refine ⟨n, hn, rfl, h.node n hn, ?_⟩
  rw [entryKey, h.node n hn]

theorem Core.nodup : c.ids.Nodup := by
  refine List.Nodup.map_on (fun m hm n hn he => ?_) (List.Nodup.of_map _ h.dict.keys)
  have := h.node m hm
  rw [he, h.node n hn, Option.some.injEq] at this
  exact this.symm

/-- an entry is found under its own key -/
theorem Core.lookup_entryKey (hid : id ∈ c.ids) :
    KvHash.lookup c.index (c.entryKey id) = some id := by
  obtain ⟨n, hn, hp, _, hk⟩ := h.mem_ids hid
  rw [hk]
  exact (KvHash.lookup_some_iff h.dict n.key id).2 ⟨n, hn, rfl, hp⟩

variable {key : Bytes}

theorem Core.of_lookup (hl : KvHash.lookup c.index key = some id) :
    id ∈ c.ids ∧ c.entryKey id = key := by
  obtain ⟨n, hn, hk, rfl⟩ := (KvHash.lookup_some_iff h.dict key id).1 hl
  refine ⟨List.mem_map_of_mem hn, ?_⟩
  rw [entryKey, h.node n hn]
  exact hk

theorem Core.lookup_iff (key : Bytes) (id : ℕ) :
    KvHash.lookup c.index key = some id ↔ id ∈ c.ids ∧ c.entryKey id = key :=
  ⟨h.of_lookup, fun hid => hid.2 ▸ h.lookup_entryKey hid.1⟩

theorem Core.entryKey_inj {a b : ℕ} (ha : a ∈ c.ids) (hb : b ∈ c.ids) (hk : c.entryKey a = c.entryKey b) :
    a = b := by
  have h1 := h.lookup_entryKey ha
  rw [hk, h.lookup_entryKey hb, Option.some.injEq] at h1
  exact h1.symm

theorem Core.count : kvHashCount c.index = c.ids.length := by
  rw [kvHashCount, h.dict.counted, ids, length_map]

/-- one entry and the others -/
theorem Core.split (hid : id ∈ c.ids) :
    ∃ rest, c.ids.Perm (id :: rest) ∧ id ∉ rest := by
  refine ⟨c.ids.erase id, perm_cons_erase hid, ?_⟩
  exact fun hc => (h.nodup.mem_erase_iff.1 hc).1 rfl

/-- the totals of the cache, one entry and the others apart -/
theorem Core.totals {rest : List ℕ} (hp : c.ids.Perm (id :: rest)) :
    c.usedMemory = c.charge id + (rest.map c.charge).sum ∧
      c.counters = (tally (rest.map c.profile)).addObject (c.profile id).1 (c.profile id).2 := by
  rw [h.used, h.counted, (hp.map c.charge).sum_eq, tally_perm (hp.map c.profile)]
  exact ⟨rfl, rfl⟩

theorem Core.charge_le (hid : id ∈ c.ids) : c.charge id ≤ c.usedMemory := by
  rw [h.used]
  exact single_le_sum (fun _ _ => Nat.zero_le _) _ (List.mem_map_of_mem hid)

theorem keyspace_entryKey (hid : id ∈ c.ids) :
    c.keyspace (c.entryKey id) = some ((c.entry id).object.view, c.expireAt id) := by
  rw [keyspace, h.lookup_entryKey hid]
  rfl

theorem Core.keyspace_none (hk : ∀ b ∈ c.ids, c.entryKey b ≠ key) : c.keyspace key = none := by
  rw [keyspace, map_eq_none_iff, eq_none_iff_forall_ne_some]
  intro b hb
  exact hk b (h.of_lookup hb).1 (h.of_lookup hb).2

/-- a key is bound alike in caches in which the same entries have it -/
theorem Core.keyspace_congr (h' : Core hash c') (hids : ∀ b, b ∈ c'.ids ∧ c'.entryKey b = key ↔ b ∈ c.ids ∧ c.entryKey b = key)
    (hentry : ∀ b ∈ c.ids, c.entryKey b = key → c'.entry b = c.entry b) : c'.keyspace key = c.keyspace key := by
  have hlook : KvHash.lookup c'.index key = KvHash.lookup c.index key := by
    apply ext
    intro b
    rw [h'.lookup_iff, hids, h.lookup_iff]
  rw [keyspace_eq, keyspace_eq, hlook]
  cases hl : KvHash.lookup c.index key with
  | none => rfl
  | some b =>
    obtain ⟨hb, hkey⟩ := h.of_lookup hl
    rw [map_some, map_some, hentry b hb hkey]

end

theorem ids_create (maxKeys maxMemory : ℕ) (nowMs : ℕ → ℕ) : (cacheCreate maxKeys maxMemory nowMs).ids = [] := by
  simp [ids, cacheCreate, nodes, KvHash.kvHashCreate, KvHash.Table.none, KvHash.Table.nodes]

theorem core_create (hash : Hasher) (maxKeys maxMemory : ℕ) (nowMs : ℕ → ℕ) :
    Core hash (cacheCreate maxKeys maxMemory nowMs) := by
  have hids := ids_create maxKeys maxMemory nowMs
  refine ⟨KvHash.inv_create hash, ?_, ?_, ?_, ?_, ?_, ?_, le_rfl, ?_, ?_, ?_, rfl⟩
  · intro n hn
    have hid : n.payload ∈ (cacheCreate maxKeys maxMemory nowMs).ids := List.mem_map_of_mem hn
    rw [hids] at hid
    exact absurd hid not_mem_nil
  · simp [hids]
  · intro _
    exact ⟨[], LinkedList.rep_empty _ _, by simp [hids]⟩
  · exact IndexedHeap.Heap.placed_empty _
  · intro i _ hi
    exact absurd hi (Nat.not_lt_zero i)
  · intro id
    rw [hids]
    refine iff_of_false ?_ (fun hc => not_mem_nil hc.1)
    rintro ⟨i, hi, _⟩
    exact absurd hi (Nat.not_lt_zero i)
  · rw [hids]
    rfl
  · rw [hids]
    rfl
  · intro id hid
    simp [cacheCreate] at hid

variable {index : HashTable ℕ}

/-- moving nodes between the tables of the index -/
theorem Core.reindex (h : Core hash c) (hi : KvHash.Inv hash index) (hp : (nodes index).Perm (nodes c.index)) :
    Core hash { c with index := index } ∧ ({ c with index := index } : Cache).keyspace = c.keyspace ∧
      ({ c with index := index } : Cache).ids.Perm c.ids := by
  have hids : ({ c with index := index } : Cache).ids.Perm c.ids := hp.map _
  refine ⟨⟨hi, fun n hn => h.node n (hp.mem_iff.1 hn), fun id hid => h.fresh id (hids.mem_iff.1 hid), fun he => ?_,
    h.placed, h.ordered, fun id => (h.heap id).trans (and_congr_left' hids.mem_iff.symm), h.room, ?_, ?_, fun id hid => ?_,
    h.enabled⟩, ?_, hids⟩
  · obtain ⟨xs, h1, h2⟩ := h.lru he
    exact ⟨xs, h1, fun id => (h2 id).trans hids.mem_iff.symm⟩
  · exact h.used.trans (hids.map _).sum_eq.symm
  · exact h.counted.trans (tally_perm (hids.map _)).symm
  · obtain ⟨h1, h2⟩ := h.hot id hid
    exact ⟨hids.mem_iff.2 h1, h2⟩
  · funext key
    rw [keyspace, keyspace, KvHash.lookup_perm h.dict.keys hp]
    rfl

theorem Core.rehash (h : Core hash c) (budget : ℕ) :
    Core hash { c with index := (kvHashRehashStep c.index budget).1 } ∧
      ({ c with index := (kvHashRehashStep c.index budget).1 } : Cache).keyspace = c.keyspace ∧
      ({ c with index := (kvHashRehashStep c.index budget).1 } : Cache).ids.Perm c.ids :=
  let hr := KvHash.kvHashRehashStep_spec h.dict budget
  h.reindex hr.inv hr.nodes

/-! ## Removal -/

variable {xs : List ℕ}

theorem heapForget_spec (h : Core hash c) (id : ℕ) :
    ∃ heap, c.heapForget id = { c with heap := heap } ∧ heap.Placed ∧ heap.Ordered c.expireAt ∧
      heap.count ≤ c.heap.count ∧ ∀ b, heap.Mem b ↔ b ≠ id ∧ c.heap.Mem b := by
  unfold heapForget
  cases hp : c.heap.position id with
  | none =>
    refine ⟨c.heap, rfl, h.placed, h.ordered, le_rfl, fun b => ?_⟩
    refine ⟨fun hb => ⟨?_, hb⟩, And.right⟩
    rintro rfl
    exact (h.placed.mem_iff b).1 hb hp
  | some i =>
    obtain ⟨hi, hs⟩ := (h.placed id i).1 hp
    obtain ⟨r1, r2, r3, r4⟩ := IndexedHeap.Heap.removeAt_spec h.placed h.ordered hi
    refine ⟨_, rfl, r2, r3, by omega, fun b => ?_⟩
    rw [r4, hs]

/-- the entries from the most to the least recently used one; in any order when the list is not kept -/
structure LruOrder (c : Cache) (xs : List ℕ) : Prop where
  nodup : xs.Nodup
  mem : ∀ id, id ∈ xs ↔ id ∈ c.ids
  links : c.lruEnabled = true → LinkedList.Rep c.lru xs

theorem Core.lruOrder (h : Core hash c) : ∃ xs, c.LruOrder xs := by
  by_cases he : c.lruEnabled = true
  · obtain ⟨xs, h1, h2⟩ := h.lru he
    exact ⟨xs, h1.nodup, h2, fun _ => h1⟩
  · exact ⟨c.ids, h.nodup, fun _ => Iff.rfl, fun hc => absurd hc he⟩

/-- `c'` is `c` without the entry `id` -/
structure Dropped (hash : Hasher) (c c' : Cache) (id : ℕ) : Prop where
  core : Core hash c'
  ids : (id :: c'.ids).Perm c.ids
  entry : c'.entry = c.entry
  used : c'.usedMemory = c.usedMemory - c.charge id
  keyspace : c'.keyspace = update c.keyspace (c.entryKey id) none
  limits : c'.maxKeys = c.maxKeys ∧ c'.maxMemory = c.maxMemory
  clock : c'.nowMs = c.nowMs
  room : c'.heapCapacity = c.heapCapacity ∧ c'.heap.count ≤ c.heap.count
  hot : c'.hashHotEntry = none ∨ c'.hashHotEntry = c.hashHotEntry
  lru : c.lruEnabled = true → c'.lru = c.lru.unlink id

theorem Dropped.mem_iff (hd : Dropped hash c c' id) (h : Core hash c) (b : ℕ) :
    b ∈ c'.ids ↔ b ≠ id ∧ b ∈ c.ids := by
  have hnd : (id :: c'.ids).Nodup := hd.ids.nodup_iff.2 h.nodup
  rw [← hd.ids.mem_iff, mem_cons]
  constructor
  · intro hb
    exact ⟨fun hc => (nodup_cons.1 hnd).1 (hc ▸ hb), Or.inr hb⟩
  · rintro ⟨h1, h2⟩
    exact h2.resolve_left h1

/-- the parts of a removal put together -/
theorem dropped_of_parts (h : Core hash c) {n : Node ℕ} (hn : n ∈ nodes c.index)
    (hhot : c.hashHotEntry ≠ some n.payload) (hrem : KvHash.Removed hash c.index index n)
    {heap : IndexedHeap.Heap ℕ} (p1 : heap.Placed) (p2 : heap.Ordered c.expireAt) (p3 : heap.count ≤ c.heap.count)
    (p4 : ∀ b, heap.Mem b ↔ b ≠ n.payload ∧ c.heap.Mem b) :
    Dropped hash c { c with
      heap := heap
      lru := if c.lruEnabled then c.lru.unlink n.payload else c.lru
      index := index
      usedMemory := c.usedMemory - c.charge n.payload
      counters := c.counters.removeObject (c.profile n.payload).1 (c.profile n.payload).2 } n.payload := by
  have hid : n.payload ∈ c.ids := List.mem_map_of_mem hn
  have hkey : c.entryKey n.payload = n.key := by rw [entryKey, h.node n hn]
  set left := (nodes index).map Node.payload with hleft
  have hperm : (n.payload :: left).Perm c.ids := hrem.nodes.map Node.payload
  have hnot : n.payload ∉ left := (nodup_cons.1 (hperm.nodup_iff.2 h.nodup)).1
  have hmem : ∀ b, b ∈ left ↔ b ≠ n.payload ∧ b ∈ c.ids := by
    intro b
    rw [← hperm.mem_iff, mem_cons]
    constructor
    · intro hb
      exact ⟨fun hc => hnot (hc ▸ hb), Or.inr hb⟩
    · rintro ⟨h1, h2⟩
      exact h2.resolve_left h1
  obtain ⟨hused, htally⟩ := h.totals hperm.symm
  constructor
  case core =>
    refine ⟨hrem.inv, fun m hm => ?_, fun b hb => h.fresh b ((hmem b).1 hb).2, fun he => ?_, p1, p2, fun b => ?_,
      p3.trans h.room, ?_, ?_, fun b hb => ?_, h.enabled⟩
    · exact h.node m (hrem.nodes.mem_iff.1 (mem_cons_of_mem n hm))
    · obtain ⟨xs, h1, h2⟩ := h.lru he
      refine ⟨xs.filter (· ≠ n.payload), ?_, fun b => ?_⟩
      · simp only [show c.lruEnabled = true from he, if_true]
        exact LinkedList.unlink_filter h1 ((h2 n.payload).2 hid)
      · rw [mem_filter, h2, decide_eq_true_eq, and_comm]
        exact (hmem b).symm
    · refine (p4 b).trans ?_
      rw [h.heap b, ← and_assoc]
      exact and_congr_left' (hmem b).symm
    · exact (Nat.sub_eq_of_eq_add' hused)
    · rw [htally]
      exact Counters.remove_add _ _ _
    · obtain ⟨h1, h2⟩ := h.hot b hb
      exact ⟨(hmem b).2 ⟨fun hc => hhot (hc ▸ hb), h1⟩, h2⟩
  case ids => exact hperm
  case entry => rfl
  case used => rfl
  case keyspace =>
    funext key
    rw [update_apply, hkey, keyspace_eq, keyspace_eq, hrem.lookup h.dict key]
    by_cases hk : key = n.key
    · rw [if_pos hk, if_pos hk]
      rfl
    · rw [if_neg hk, if_neg hk]
  case limits => exact ⟨rfl, rfl⟩
  case clock => rfl
  case room => exact ⟨rfl, p3⟩
  case hot => exact Or.inr rfl
  case lru => exact fun he => if_pos he

/-- **Removal** takes an entry out of every structure at once. -/
theorem detachEntry_dropped (h : Core hash c) (hid : id ∈ c.ids) (hhot : c.hashHotEntry ≠ some id) :
    Dropped hash c (c.detachEntry id) id := by
  obtain ⟨n, hn, rfl, hnode, _⟩ := h.mem_ids hid
  obtain ⟨heap, hforget, p1, p2, p3, p4⟩ := heapForget_spec h n.payload
  obtain ⟨_, hrem⟩ := KvHash.removeTarget_spec h.dict hn
  have hd := dropped_of_parts h hn hhot hrem p1 p2 p3 p4
  have hstate : c.detachEntry n.payload = { c with
      heap := heap
      lru := if c.lruEnabled then c.lru.unlink n.payload else c.lru
      index := (KvHash.removeTarget c.index (some n)).1
      usedMemory := c.usedMemory - c.charge n.payload
      counters := c.counters.removeObject (c.profile n.payload).1 (c.profile n.payload).2 } := by
    unfold detachEntry
    rw [hforget]
    unfold lruUnlink KvHash.kvHashRemoveNode
    cases c.lruEnabled <;> simp [hnode, charge, profile]
  rw [hstate]
  exact hd

/-- `c'` and `c` agree on everything a removal is about -/
structure Agrees (c c' : Cache) : Prop where
  index : c'.index = c.index
  entry : c'.entry = c.entry
  used : c'.usedMemory = c.usedMemory
  limits : c'.maxKeys = c.maxKeys ∧ c'.maxMemory = c.maxMemory
  clock : c'.nowMs = c.nowMs
  room : c'.heapCapacity = c.heapCapacity
  heap : c'.heap = c.heap

theorem Dropped.of_agrees {c1 c2 : Cache} (ha : Agrees c c1)
    (hh : c1.hashHotEntry = none ∨ c1.hashHotEntry = c.hashHotEntry) (hl : c1.lruEnabled = c.lruEnabled ∧ c1.lru = c.lru)
    (hd : Dropped hash c1 c2 id) : Dropped hash c c2 id := by
  refine ⟨hd.core, ?_, hd.entry.trans ha.entry, ?_, ?_, ⟨hd.limits.1.trans ha.limits.1, hd.limits.2.trans ha.limits.2⟩,
    hd.clock.trans ha.clock, ⟨hd.room.1.trans ha.room, ha.heap ▸ hd.room.2⟩, ?_, ?_⟩
  · have := hd.ids
    rwa [show c1.ids = c.ids by unfold Cache.ids; rw [ha.index]] at this
  · rw [hd.used, ha.used, show c1.charge = c.charge by unfold charge; rw [ha.entry]]
  · rw [hd.keyspace, show c1.keyspace = c.keyspace by funext k; rw [keyspace_eq, keyspace_eq, ha.index, ha.entry],
      show c1.entryKey = c.entryKey by unfold entryKey; rw [ha.entry]]
  · rcases hd.hot with h1 | h1
    · exact Or.inl h1
    · exact hh.imp (fun hn => h1.trans hn) (fun hs => h1.trans hs)
  · rw [← hl.1, ← hl.2]
    exact hd.lru

theorem clearHot_core (h : Core hash c) (id : ℕ) :
    Core hash (c.clearHot id) ∧ (c.clearHot id).hashHotEntry ≠ some id ∧
      ((c.clearHot id).hashHotEntry = none ∨ (c.clearHot id).hashHotEntry = c.hashHotEntry) ∧ Agrees c (c.clearHot id) ∧
      (c.clearHot id).lruEnabled = c.lruEnabled ∧ (c.clearHot id).lru = c.lru := by
  unfold clearHot
  split_ifs with hh
  · refine ⟨{ h with hot := by simp }, by simp, Or.inl rfl, ?_, rfl, rfl⟩
    exact ⟨rfl, rfl, rfl, ⟨rfl, rfl⟩, rfl, rfl, rfl⟩
  · exact ⟨h, hh, Or.inr rfl, ⟨rfl, rfl, rfl, ⟨rfl, rfl⟩, rfl, rfl, rfl⟩, rfl, rfl⟩

theorem detachEntry_evicted (c : Cache) (id : ℕ) : (c.detachEntry id).evicted = c.evicted := by
  unfold detachEntry heapForget lruUnlink heapRemoveAt
  cases c.heap.position id <;> cases c.lruEnabled <;> rfl

/-- what a removal for a reason reports to the eviction callback -/
def reported (c : Cache) (id : ℕ) (reason : RemovalReason) : List Bytes := if reason = .evicted then [c.entryKey id] else []

theorem entryRemove_dropped (h : Core hash c) (hid : id ∈ c.ids) (reason : RemovalReason) :
    Dropped hash c (c.entryRemove id reason) id ∧
      (c.entryRemove id reason).evicted = c.evicted ++ c.reported id reason := by
  obtain ⟨k1, k2, k3, k4, k5⟩ := clearHot_core h id
  -- the cache with the hot entry cleared and the callback run
  set c2 : Cache := { c.clearHot id with evicted := c.evicted ++ c.reported id reason } with hc2
  have hids : id ∈ c2.ids := by
    rw [show c2.ids = c.ids from congrArg (fun i => (nodes i).map Node.payload) k4.index]
    exact hid
  have hd := detachEntry_dropped (c := c2) { k1 with } hids k2
  have hstate : c.entryRemove id reason = { c2.detachEntry id with
      expiredKeys := (c2.detachEntry id).expiredKeys + (if reason = .expired then 1 else 0)
      evictedKeys := (c2.detachEntry id).evictedKeys + (if reason = .evicted then 1 else 0) } := by
    have hlog : (if reason = .evicted then { c.clearHot id with evicted := (c.clearHot id).evicted ++ [(c.clearHot id).entryKey id] }
        else c.clearHot id) = c2 := by
      rw [hc2]
      unfold clearHot reported
      split_ifs <;> simp [entryKey]
    unfold entryRemove
    simp only
    rw [hlog]
    cases reason <;> simp
  refine ⟨?_, ?_⟩
  · rw [hstate]
    refine Dropped.of_agrees (show Agrees c c2 from { k4 with }) k3 k5 ?_
    exact { hd with core := { hd.core with } }
  · rw [hstate]
    exact detachEntry_evicted c2 id

/-! ## Look-up -/

/-- the limits are respected -/
structure Within (c : Cache) : Prop where
  keys : c.maxKeys ≠ 0 → kvHashCount c.index ≤ c.maxKeys
  memory : c.maxMemory ≠ 0 → c.usedMemory ≤ c.maxMemory

theorem within_create (maxKeys maxMemory : ℕ) (nowMs : ℕ → ℕ) : (cacheCreate maxKeys maxMemory nowMs).Within :=
  ⟨fun _ => Nat.zero_le _, fun _ => Nat.zero_le _⟩

/-- `c'` has some of the entries of `c`, unchanged -/
structure Shrinks (hash : Hasher) (c c' : Cache) : Prop where
  core : Core hash c'
  ids : ∀ id ∈ c'.ids, id ∈ c.ids
  entry : c'.entry = c.entry
  count : kvHashCount c'.index ≤ kvHashCount c.index
  used : c'.usedMemory ≤ c.usedMemory
  limits : c'.maxKeys = c.maxKeys ∧ c'.maxMemory = c.maxMemory
  later : Later c c'
  room : c.heapCapacity ≤ c'.heapCapacity ∧ c'.heap.count ≤ c.heap.count
  hot : c'.hashHotEntry = none ∨ c'.hashHotEntry = c.hashHotEntry
  order : ∀ xs, c.LruOrder xs → c'.LruOrder (xs.filter (· ∈ c'.ids))

/-- the same links, and the same entries in another order of the index -/
theorem LruOrder.congr (hx : c.LruOrder xs) (he : c'.lruEnabled = c.lruEnabled) (hlru : c'.lru = c.lru)
    (hids : ∀ b, b ∈ c'.ids ↔ b ∈ c.ids) : c'.LruOrder xs :=
  ⟨hx.nodup, fun b => (hx.mem b).trans (hids b).symm, fun hen => hlru.symm ▸ hx.links (he ▸ hen)⟩

theorem LruOrder.filter_ids (hx : c.LruOrder xs) : c.LruOrder (xs.filter (· ∈ c.ids)) := by
  rwa [filter_eq_self.2 fun b hb => by rw [decide_eq_true_eq, ← hx.mem]; exact hb]

theorem Shrinks.refl (h : Core hash c) : Shrinks hash c c :=
  ⟨h, fun _ hid => hid, rfl, le_rfl, le_rfl, ⟨rfl, rfl⟩, .refl c, ⟨le_rfl, le_rfl⟩, Or.inr rfl,
    fun _ hx => hx.filter_ids⟩

theorem Shrinks.trans {c'' : Cache} (h : Shrinks hash c c') (h' : Shrinks hash c' c'') :
    Shrinks hash c c'' := by
  refine ⟨h'.core, fun id hid => h.ids id (h'.ids id hid), h'.entry.trans h.entry, h'.count.trans h.count, h'.used.trans h.used,
    ⟨h'.limits.1.trans h.limits.1, h'.limits.2.trans h.limits.2⟩, h.later.trans h'.later,
    ⟨h.room.1.trans h'.room.1, h'.room.2.trans h.room.2⟩,
    h'.hot.elim Or.inl fun he => h.hot.imp (fun hn => he.trans hn) (fun hs => he.trans hs), ?_⟩
  intro xs hx
  have hlast := h'.order _ (h.order xs hx)
  rw [List.filter_filter] at hlast
  have hsame : xs.filter (fun b => decide (b ∈ c''.ids) && decide (b ∈ c'.ids)) = xs.filter (· ∈ c''.ids) := by
    refine filter_congr fun b _ => ?_
    by_cases hb : b ∈ c''.ids
    · simp [hb, h'.ids b hb]
    · simp [hb]
  rwa [hsame] at hlast

theorem Shrinks.within (h : Shrinks hash c c') (hw : c.Within) : c'.Within := by
  refine ⟨fun hk => ?_, fun hm => ?_⟩
  · rw [h.limits.1] at hk ⊢
    exact h.count.trans (hw.keys hk)
  · rw [h.limits.2] at hm ⊢
    exact h.used.trans (hw.memory hm)

theorem Shrinks.sound (h : Shrinks hash c c') (hs : c.Sound hash) : c'.Sound hash := by
  intro id hid
  rw [h.entry]
  exact hs id (h.ids id hid)

theorem Charged.congr (h : c.Charged) (he : c'.entry = c.entry) (hm : c'.maxMemory = c.maxMemory) : c'.Charged := by
  intro hlimit id
  rw [he]
  exact h (hm ▸ hlimit) id

theorem Shrinks.charged (h : Shrinks hash c c') (hc : c.Charged) : c'.Charged := hc.congr h.entry h.limits.2

/-- a removal takes the entry out of the LRU order -/
theorem Dropped.order (hd : Dropped hash c c' id) (h : Core hash c) (hx : c.LruOrder xs) : c'.LruOrder (xs.filter (· ≠ id)) := by
  refine ⟨hx.nodup.filter _, fun b => ?_, fun he => ?_⟩
  · rw [mem_filter, decide_eq_true_eq, hx.mem, hd.mem_iff h, and_comm]
  · have he' : c.lruEnabled = true := by rw [← he, hd.core.enabled, h.enabled, hd.limits.1, hd.limits.2]
    rw [hd.lru he']
    refine LinkedList.unlink_filter (hx.links he') ((hx.mem id).2 ?_)
    exact hd.ids.mem_iff.1 mem_cons_self

theorem Dropped.shrinks (hd : Dropped hash c c' id) (h : Core hash c) :
    Shrinks hash c c' := by
  refine ⟨hd.core, fun b hb => ((hd.mem_iff h b).1 hb).2, hd.entry, ?_, ?_, hd.limits, ⟨0, fun i => by rw [hd.clock]; rfl⟩,
    ⟨hd.room.1.ge, hd.room.2⟩, hd.hot, fun xs hx => ?_⟩
  · rw [hd.core.count, h.count, ← hd.ids.length_eq]
    exact Nat.le_succ _
  · rw [hd.used]
    exact Nat.sub_le _ _
  · have hsame : xs.filter (· ∈ c'.ids) = xs.filter (· ≠ id) := by
      refine filter_congr fun b hb => ?_
      simp [hd.mem_iff h, (hx.mem b).1 hb]
    rw [hsame]
    exact hd.order h hx

/-- moving nodes between the tables of the index changes no entry -/
theorem reindex_shrinks (h : Core hash c) (hi : KvHash.Inv hash index)
    (hp : (nodes index).Perm (nodes c.index)) : Shrinks hash c { c with index := index } := by
  obtain ⟨r1, _, r3⟩ := h.reindex hi hp
  refine ⟨r1, fun b hb => r3.mem_iff.1 hb, rfl, ?_, le_rfl, ⟨rfl, rfl⟩, .refl c, ⟨le_rfl, le_rfl⟩, Or.inr rfl, fun xs hx => ?_⟩
  · rw [r1.count, h.count, r3.length_eq]
  · have hsame : ({ c with index := index } : Cache).LruOrder xs := hx.congr rfl rfl fun _ => r3.mem_iff
    exact hsame.filter_ids

theorem Core.cacheNow (h : Core hash c) : Core hash c.cacheNow.2 := { h with }

theorem later_cacheNow (c : Cache) : Later c c.cacheNow.2 := ⟨1, fun _ => rfl⟩

theorem shrinks_cacheNow (h : Core hash c) : Shrinks hash c c.cacheNow.2 :=
  ⟨h.cacheNow, fun _ hid => hid, rfl, le_rfl, le_rfl, ⟨rfl, rfl⟩, later_cacheNow c, ⟨le_rfl, le_rfl⟩, Or.inr rfl,
    fun xs hx => (show c.cacheNow.2.LruOrder xs from hx.congr rfl rfl fun _ => Iff.rfl).filter_ids⟩

/-- a reservation only raises the capacity of the heap -/
theorem reserve_shrinks (h : Core hash c) {k : ℕ} (hk : c.heapCapacity ≤ k) :
    Shrinks hash c { c with heapCapacity := k } := by
  refine ⟨{ h with room := h.room.trans hk }, fun _ hid => hid, rfl, le_rfl, le_rfl, ⟨rfl, rfl⟩, .refl c, ⟨hk, le_rfl⟩,
    Or.inr rfl, fun xs hx => ?_⟩
  have hsame : ({ c with heapCapacity := k } : Cache).LruOrder xs := hx.congr rfl rfl fun _ => Iff.rfl
  exact hsame.filter_ids

theorem readNow_shrinks (h : Core hash c) (id now : ℕ) :
    Shrinks hash c (c.readNow id now).2 ∧ (c.readNow id now).2.index = c.index ∧
      (c.readNow id now).2.evicted = c.evicted ∧ (c.readNow id now).2.lru = c.lru ∧
      (c.expireAt id ≠ 0 → (c.readNow id now).1 = if now = uint64Max then c.nowMs 0 else now) := by
  unfold readNow
  split_ifs with h1 h2 h2
  · exact ⟨shrinks_cacheNow h, rfl, rfl, rfl, fun _ => rfl⟩
  · exact absurd h1.2 h2
  · exact ⟨.refl h, rfl, rfl, rfl, fun hd => absurd ⟨hd, h2⟩ h1⟩
  · exact ⟨.refl h, rfl, rfl, rfl, fun _ => rfl⟩

/-- a stored object whose deadline has passed -/
def Expired (t : ℕ) (stored : Option (Obj × ℕ)) : Prop := ∃ o d, stored = some (o, d) ∧ d ≠ 0 ∧ d ≤ t

instance (t : ℕ) (stored : Option (Obj × ℕ)) : Decidable (Expired t stored) :=
  match stored with
  | none => isFalse fun ⟨_, _, h, _⟩ => absurd h (by simp)
  | some (o, d) => decidable_of_iff (d ≠ 0 ∧ d ≤ t) ⟨fun h => ⟨o, d, rfl, h⟩, fun ⟨_, _, he, h⟩ => by cases he; exact h⟩

/-- the keyspace after a look-up of a key at time `t`: an expired object is gone -/
def reap (t : ℕ) (ks : Bytes → Option (Obj × ℕ)) (key : Bytes) : Bytes → Option (Obj × ℕ) :=
  if Expired t (ks key) then update ks key none else ks

/-- the time at which a look-up called with `now` decides -/
def decisionTime (c : Cache) (now : ℕ) : ℕ := if now = uint64Max then c.nowMs 0 else now

/-! ## Changes of one entry -/

variable {d : ℕ} {object : KvObject}

/-- `c'` is `c` with another object or another deadline in one entry -/
structure Updates (hash : Hasher) (c c' : Cache) (id : ℕ) (object : KvObject) (d : ℕ) : Prop where
  core : Core hash c'
  index : c'.index = c.index
  others : ∀ b, b ≠ id → c'.entry b = c.entry b
  object : (c'.entry id).object = object
  deadline : c'.expireAt id = d
  limits : c'.maxKeys = c.maxKeys ∧ c'.maxMemory = c.maxMemory
  clock : c'.nowMs = c.nowMs
  log : c'.evicted = c.evicted

theorem Updates.ids (hu : Updates hash c c' id object d) : c'.ids = c.ids := by
  unfold Cache.ids
  rw [hu.index]

theorem setEntry_entry (c : Cache) (id : ℕ) (e : CacheEntry) (b : ℕ) :
    (c.setEntry id e).entry b = if b = id then e else c.entry b := by
  exact update_apply ..

/-- what a change of one entry that keeps its node does to the keyspace -/
theorem keyspace_update (h : Core hash c) (c' : Cache) (hid : id ∈ c.ids) (hindex : c'.index = c.index)
    (hother : ∀ b, b ≠ id → c'.entry b = c.entry b) :
    c'.keyspace = update c.keyspace (c.entryKey id) (some ((c'.entry id).object.view, c'.expireAt id)) := by
  funext key
  rw [update_apply]
  by_cases hk : key = c.entryKey id
  · rw [if_pos hk, keyspace_eq, hindex, hk, h.lookup_entryKey hid]
    rfl
  · rw [if_neg hk, keyspace_eq, keyspace_eq, hindex]
    cases hl : KvHash.lookup c.index key with
    | none => rfl
    | some b =>
      have hb : b ≠ id := by
        rintro rfl
        exact hk (h.of_lookup hl).2.symm
      rw [map_some, map_some, hother b hb]

theorem Updates.keyspace (hu : Updates hash c c' id object d) (h : Core hash c) (hid : id ∈ c.ids) :
    c'.keyspace = update c.keyspace (c.entryKey id) (some (object.view, d)) := by
  rw [keyspace_update h c' hid hu.index hu.others, hu.object, hu.deadline]

theorem Updates.sound (hu : Updates hash c c' id object d) (hs : c.Sound hash) (ho : object.Inv hash) : c'.Sound hash := by
  intro b hb
  rw [hu.ids] at hb
  by_cases hbi : b = id
  · rw [hbi, hu.object]
    exact ho
  · rw [hu.others b hbi]
    exact hs b hb

/-- a change of one entry, which is charged for what it holds afterwards -/
theorem Charged.update (h : c.Charged) (id : ℕ) (hm : c'.maxMemory = c.maxMemory)
    (hothers : ∀ b, b ≠ id → c'.entry b = c.entry b) (hid : Covers (c.entry id) → Covers (c'.entry id)) : c'.Charged := by
  intro hlimit b
  have hall := h (hm ▸ hlimit)
  by_cases hb : b = id
  · rw [hb]
    exact hid (hall id)
  · rw [hothers b hb]
    exact hall b

/-- an object that takes no more memory is covered by the same charge -/
theorem entryMemoryCharge_mono (keyLength : ℕ) {o o' : KvObject} (h : kvObjectMemoryUsage o' ≤ kvObjectMemoryUsage o) :
    entryMemoryCharge keyLength o' ≤ entryMemoryCharge keyLength o := by
  have hnode : KvHash.kvHashNodeMemoryForKey keyLength ≤ sizeMax := by
    unfold KvHash.kvHashNodeMemoryForKey KvHash.sizeofNode
    split_ifs <;> omega
  unfold entryMemoryCharge
  simp only
  split_ifs <;> omega

theorem writeExpire_charged (h : c.Charged) (id d : ℕ) : (c.writeExpire id d).Charged := by
  refine h.update id rfl (fun b hb => ?_) fun hid => ?_
  · rw [writeExpire, setEntry_entry, if_neg hb]
  · rw [writeExpire, setEntry_entry, if_pos rfl]
    exact hid

theorem lruTouch_charged (h : c.Charged) (id : ℕ) : (c.lruTouch id).Charged := by
  unfold lruTouch
  split_ifs <;> exact h.congr rfl rfl

theorem sum_update {f g : ℕ → ℕ} {rest : List ℕ} (hn : id ∉ rest) (hfg : ∀ b, b ≠ id → g b = f b) :
    (rest.map g).sum = (rest.map f).sum := by
  congr 1
  exact map_congr_left fun b hb => hfg b fun hc => hn (hc ▸ hb)

/-- **Replacement** of the object of an entry, with its charge and its items. -/
theorem replaceObject_updates (h : Core hash c) (hid : id ∈ c.ids) (object : KvObject) (charge items : ℕ) :
    Updates hash c (c.replaceObject id object charge items) id object (c.expireAt id) := by
  obtain ⟨rest, hp, hn⟩ := h.split hid
  have hother : ∀ b, b ≠ id → (c.replaceObject id object charge items).entry b = c.entry b := by
    intro b hb
    rw [replaceObject, setEntry_entry, if_neg hb]
  have hself : (c.replaceObject id object charge items).entry id =
      { c.entry id with object := object, objectItems := items, memoryCharge := charge } := by
    rw [replaceObject, setEntry_entry, if_pos rfl]
  have hnode : ∀ b, ((c.replaceObject id object charge items).entry b).indexNode = (c.entry b).indexNode ∧
      (c.replaceObject id object charge items).expireAt b = c.expireAt b := by
    intro b
    unfold expireAt
    by_cases hb : b = id
    · rw [hb, hself]
      exact ⟨rfl, rfl⟩
    · rw [hother b hb]
      exact ⟨rfl, rfl⟩
  have hexp : (c.replaceObject id object charge items).expireAt = c.expireAt := funext fun b => (hnode b).2
  obtain ⟨hused, htally⟩ := h.totals hp
  refine ⟨⟨h.dict, fun n hn => ?_, h.fresh, h.lru, h.placed, ?_, fun b => ?_, h.room, ?_, ?_, fun b hb => ?_, h.enabled⟩, rfl,
    hother, congrArg CacheEntry.object hself, (hnode id).2, ⟨rfl, rfl⟩, rfl, rfl⟩
  · rw [(hnode n.payload).1]
    exact h.node n hn
  · rw [hexp]
    exact h.ordered
  · rw [hexp]
    exact h.heap b
  · have hsum : (((c.replaceObject id object charge items).ids).map (c.replaceObject id object charge items).charge).sum =
        charge + (rest.map c.charge).sum := by
      rw [show (c.replaceObject id object charge items).ids = c.ids from rfl, (hp.map _).sum_eq, map_cons, sum_cons,
        sum_update hn (f := c.charge) fun b hb => by unfold Cache.charge; rw [hother b hb]]
      unfold Cache.charge
      rw [hself]
    rw [hsum]
    change c.usedMemory - c.charge id + charge = _
    omega
  · have hlist : tally (((c.replaceObject id object charge items).ids).map (c.replaceObject id object charge items).profile) =
        (tally (rest.map c.profile)).addObject (kvObjectType object) items := by
      rw [show (c.replaceObject id object charge items).ids = c.ids from rfl, tally_perm (hp.map _), map_cons, tally]
      congr 2
      · refine map_congr_left fun b hb => ?_
        unfold profile
        rw [hother b fun hc => hn (hc ▸ hb)]
      · unfold profile
        rw [hself]
      · unfold profile
        rw [hself]
    rw [hlist]
    change (c.counters.removeObject (c.profile id).1 (c.profile id).2).addObject (kvObjectType object) items = _
    rw [htally, Counters.remove_add]
  · obtain ⟨h1, h2⟩ := h.hot b hb
    refine ⟨h1, ?_⟩
    unfold entryKey
    rw [(hnode b).1]
    exact h2

/-- a mutation in place that keeps the type is a replacement with the recorded charge and items -/
theorem mutate_eq_replace (h : Core hash c) (hid : id ∈ c.ids) (ht : kvObjectType object = kvObjectType (c.entry id).object) :
    c.setEntry id { c.entry id with object := object } =
      c.replaceObject id object (c.entry id).memoryCharge (c.entry id).objectItems := by
  obtain ⟨rest, hp, _⟩ := h.split hid
  have h1 : c.usedMemory - (c.entry id).memoryCharge + (c.entry id).memoryCharge = c.usedMemory :=
    Nat.sub_add_cancel (h.charge_le hid)
  have h2 : (c.counters.removeObject (kvObjectType (c.entry id).object) (c.entry id).objectItems).addObject
      (kvObjectType object) (c.entry id).objectItems = c.counters := by
    rw [ht]
    change (c.counters.removeObject (c.profile id).1 (c.profile id).2).addObject (c.profile id).1 (c.profile id).2 = _
    rw [(h.totals hp).2, Counters.remove_add]
  unfold replaceObject
  simp only [h1, h2]

theorem lruTouch_core (h : Core hash c) (hid : id ∈ c.ids) :
    Core hash (c.lruTouch id) ∧ Agrees c (c.lruTouch id) ∧ (c.lruTouch id).evicted = c.evicted := by
  unfold lruTouch
  split_ifs with he
  · refine ⟨{ h with lru := fun _ => ?_ }, ⟨rfl, rfl, rfl, ⟨rfl, rfl⟩, rfl, rfl, rfl⟩, rfl⟩
    obtain ⟨xs, h1, h2⟩ := h.lru he
    refine ⟨_, LinkedList.touch_filter h1 ((h2 id).2 hid), fun b => ?_⟩
    change b ∈ id :: xs.filter (· ≠ id) ↔ b ∈ c.ids
    by_cases hb : b = id
    · simpa [hb] using hid
    · simpa [hb] using h2 b
  · exact ⟨h, ⟨rfl, rfl, rfl, ⟨rfl, rfl⟩, rfl, rfl, rfl⟩, rfl⟩

theorem Agrees.keyspace (ha : Agrees c c') : c'.keyspace = c.keyspace := by
  funext k
  rw [keyspace_eq, keyspace_eq, ha.index, ha.entry]

/-! ## Deadlines -/

/-- the parts of a change of deadline put together -/
theorem deadline_of_parts (h : Core hash c) (hid : id ∈ c.ids) (d : ℕ) (heap : IndexedHeap.Heap ℕ)
    (p1 : heap.Placed) (p2 : heap.Ordered (c.writeExpire id d).expireAt) (p3 : heap.count ≤ c.heapCapacity)
    (p4 : ∀ b, heap.Mem b ↔ if b = id then d ≠ 0 else c.heap.Mem b) :
    Updates hash c { c.writeExpire id d with heap := heap } id (c.entry id).object d := by
  have hother : ∀ b, b ≠ id → (c.writeExpire id d).entry b = c.entry b := by
    intro b hb
    rw [writeExpire, setEntry_entry, if_neg hb]
  have hself : (c.writeExpire id d).entry id = { c.entry id with expireAtMs := d } := by
    rw [writeExpire, setEntry_entry, if_pos rfl]
  have hnode : ∀ b, ((c.writeExpire id d).entry b).indexNode = (c.entry b).indexNode ∧
      (c.writeExpire id d).charge b = c.charge b ∧ (c.writeExpire id d).profile b = c.profile b := by
    intro b
    unfold charge profile
    by_cases hb : b = id
    · rw [hb, hself]
      exact ⟨rfl, rfl, rfl⟩
    · rw [hother b hb]
      exact ⟨rfl, rfl, rfl⟩
  refine ⟨⟨h.dict, fun n hn => ?_, h.fresh, h.lru, p1, p2, fun b => ?_, p3, ?_, ?_, fun b hb => ?_, h.enabled⟩, rfl, hother,
    ?_, ?_, ⟨rfl, rfl⟩, rfl, rfl⟩
  · exact (hnode n.payload).1.trans (h.node n hn)
  · refine (p4 b).trans ?_
    change _ ↔ b ∈ c.ids ∧ ((c.writeExpire id d).entry b).expireAtMs ≠ 0
    by_cases hb : b = id
    · rw [if_pos hb, hb, hself]
      exact ⟨fun hd => ⟨hid, hd⟩, And.right⟩
    · rw [if_neg hb, hother b hb]
      exact h.heap b
  · rw [show ({ c.writeExpire id d with heap := heap } : Cache).charge = c.charge from funext fun b => (hnode b).2.1]
    exact h.used
  · rw [show ({ c.writeExpire id d with heap := heap } : Cache).profile = c.profile from funext fun b => (hnode b).2.2]
    exact h.counted
  · obtain ⟨h1, h2⟩ := h.hot b hb
    refine ⟨h1, ?_⟩
    unfold entryKey
    rw [show ({ c.writeExpire id d with heap := heap } : Cache).entry = (c.writeExpire id d).entry from rfl, (hnode b).1]
    exact h2
  · exact (congrArg CacheEntry.object hself :)
  · exact (congrArg CacheEntry.expireAtMs hself :)

theorem writeExpire_expireAt (c : Cache) (id d b : ℕ) : (c.writeExpire id d).expireAt b = if b = id then d else c.expireAt b := by
  unfold expireAt
  rw [writeExpire, setEntry_entry]
  split_ifs <;> rfl

theorem writeExpire_twice (c : Cache) (id d : ℕ) (heap : IndexedHeap.Heap ℕ) :
    ({ c.writeExpire id d with heap := heap } : Cache).writeExpire id d = { c.writeExpire id d with heap := heap } := by
  unfold writeExpire setEntry
  simp [update_idem]

theorem writeExpire_self (c : Cache) (id : ℕ) (heap : IndexedHeap.Heap ℕ) :
    ({ c with heap := heap } : Cache).writeExpire id (c.expireAt id) = { c with heap := heap } := by
  unfold writeExpire setEntry expireAt
  simp

section

variable (h : Core hash c) (hid : id ∈ c.ids)
include h hid

/-- an entry with a deadline has a place in the heap -/
theorem Core.heapIndex (hd : c.expireAt id ≠ 0) :
    c.heapIndex id < c.heap.count ∧ c.heap.slot (c.heapIndex id) = id := by
  obtain ⟨i, hi⟩ := ne_none_iff_exists'.1 ((h.placed.mem_iff id).1 ((h.heap id).2 ⟨hid, hd⟩))
  rw [Cache.heapIndex, hi]
  exact (h.placed id i).1 hi

/-- a deadline is cleared -/
theorem clearDeadline_updates (hold : c.expireAt id ≠ 0) :
    Updates hash c ((c.heapRemoveAt (c.heapIndex id)).writeExpire id 0) id (c.entry id).object 0 := by
  obtain ⟨hi, hs⟩ := h.heapIndex hid hold
  obtain ⟨r1, r2, r3, r4⟩ := IndexedHeap.Heap.removeAt_spec h.placed h.ordered hi
  rw [hs] at r4
  refine deadline_of_parts h hid 0 (c.heap.removeAt c.expireAt (c.heapIndex id)) r2 ?_ ?_ fun b => ?_
  · refine r3.congr fun b hb => ?_
    rw [writeExpire_expireAt, if_neg ((r4 b).1 hb).1]
  · have := h.room
    omega
  · rw [r4 b]
    by_cases hb : b = id
    · simp [hb]
    · simp [hb]

/-- a deadline is given to an entry without one -/
theorem addDeadline_updates (hold : c.expireAt id = 0) (hd : d ≠ 0) (hroom : c.heap.count < c.heapCapacity) :
    Updates hash c ((c.writeExpire id d).heapInsertReserved id) id (c.entry id).object d := by
  have hnot : ¬ c.heap.Mem id := fun hm => ((h.heap id).1 hm).2 hold
  have hord : c.heap.Ordered (c.writeExpire id d).expireAt := by
    refine h.ordered.congr fun b hb => ?_
    rw [writeExpire_expireAt, if_neg]
    rintro rfl
    exact hnot hb
  obtain ⟨r1, r2, r3, r4⟩ := IndexedHeap.Heap.insert_spec h.placed hord hnot
  refine deadline_of_parts h hid d (c.heap.insert (c.writeExpire id d).expireAt id) r2 r3 (by omega) fun b => ?_
  rw [r4 b]
  by_cases hb : b = id
  · simp [hb, hd]
  · simp [hb]

/-- a deadline is changed -/
theorem moveDeadline_updates (hold : c.expireAt id ≠ 0) (hd : d ≠ 0) :
    Updates hash c ((c.writeExpire id d).heapExpirationChanged id) id (c.entry id).object d := by
  obtain ⟨hi, hs⟩ := h.heapIndex hid hold
  have hexc := h.ordered.rekey (c.writeExpire id d).expireAt h.placed hi fun b hb => by
    rw [writeExpire_expireAt, if_neg (hs ▸ hb)]
  obtain ⟨r1, r2⟩ := IndexedHeap.Heap.restore_spec h.placed hi hexc
  refine deadline_of_parts h hid d (c.heap.restore (c.writeExpire id d).expireAt (c.heapIndex id)) r1.placed r2
    (r1.count ▸ h.room) fun b => ?_
  rw [r1.mem b]
  by_cases hb : b = id
  · rw [hb, if_pos rfl]
    exact iff_of_true ((h.heap id).2 ⟨hid, hold⟩) hd
  · rw [if_neg hb]

/-- **The change of deadline of a store**, from any deadline to any other. -/
theorem changeDeadline_updates (d : ℕ) (hroom : c.expireAt id = 0 → d ≠ 0 → c.heap.count < c.heapCapacity) :
    Updates hash c (c.changeDeadline id d) id (c.entry id).object d := by
  unfold changeDeadline
  by_cases hold : c.expireAt id = 0
  · by_cases hd : d = 0
    · -- nothing changes
      subst hd
      have hself : c.writeExpire id 0 = c := hold ▸ writeExpire_self c id c.heap
      rw [if_neg (by simp [hold]), if_neg (by simp), if_neg (by simp [hold]), hself]
      exact ⟨h, rfl, fun _ _ => rfl, rfl, hold, ⟨rfl, rfl⟩, rfl, rfl⟩
    · rw [if_neg (by simp [hold]), if_pos ⟨hold, hd⟩]
      exact (writeExpire_twice c id d _).symm ▸ addDeadline_updates h hid hold hd (hroom hold hd)
  · by_cases hd : d = 0
    · subst hd
      rw [if_pos ⟨hold, rfl⟩]
      exact clearDeadline_updates h hid hold
    · rw [if_neg (by simp [hd]), if_neg (by simp [hold]), if_pos ⟨hold, hd⟩]
      exact (writeExpire_twice c id d _).symm ▸ moveDeadline_updates h hid hold hd

end

end Cache

end StoreSystem
