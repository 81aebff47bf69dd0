/-
What every call of the cache removes and in which order it leaves the entries.

`Moves c c' front removals`: between `c` and `c'` the entries of `removals` were taken out, each for its reason, the entry
`front` was put in front of the LRU order, and the other entries kept their places. The counters of expired and evicted keys
and the reports to the eviction callback follow from the reasons. Moves compose, so a call is read off its parts:
`entryRemove_moves`, `findLive_moves`, `expireLoop_moves`, `lruTouch_moves`. `Moves.keyspace` is what a move does to the
keyspace.
-/
import StoreSystem.Cache.Invariant

namespace StoreSystem.Cache

open List
open KvHash (HashTable Node)

variable {hash : Hasher} {c c' c'' : Cache} {xs : List ℕ}

/-- the clock stands still -/
def Fixed (c : Cache) (t : ℕ) : Prop := ∀ i, c.nowMs i = t

theorem Fixed.later {t : ℕ} (h : c.Fixed t) (hl : Later c c') : c'.Fixed t := by
  obtain ⟨k, hk⟩ := hl
  intro i
  rw [hk]
  exact h _

theorem Fixed.decisionTime {t now : ℕ} (h : c.Fixed t) (hn : now = uint64Max ∨ now = t) : c.decisionTime now = t := by
  unfold Cache.decisionTime
  split_ifs with h1
  · exact h 0
  · exact hn.resolve_left h1

/-! ## Moves -/

variable {removals l l' : List (ℕ × RemovalReason)} {id : ℕ}

/-- the entries named in a list of removals -/
def named (removals : List (ℕ × RemovalReason)) : List ℕ := removals.map Prod.fst

structure Moves (c c' : Cache) (front : Option ℕ) (removals : List (ℕ × RemovalReason)) : Prop where
  order : ∀ xs, c.LruOrder xs → c'.LruOrder (front.toList ++ xs.filter fun b => some b ≠ front ∧ b ∉ named removals)
  nodup : (named removals).Nodup
  removed : ∀ id ∈ named removals, id ∈ c.ids ∧ front ≠ some id
  next : c'.nextEntry = max c.nextEntry (front.elim 0 Nat.succ)
  /-- the key of an entry is fixed once and for all -/
  keys : ∀ id < c.nextEntry, c'.entryKey id = c.entryKey id
  expired : c'.expiredKeys = c.expiredKeys + removals.countP (·.2 = .expired)
  evictedKeys : c'.evictedKeys = c.evictedKeys + removals.countP (·.2 = .evicted)
  log : c'.evicted = c.evicted ++ (removals.filter (·.2 = .evicted)).map fun p => c.entryKey p.1

variable {front : Option ℕ}

/-- the entries after a move: the one in front, and those that were not removed -/
theorem Moves.mem (m : Moves c c' front removals) (h : Core hash c)
    (b : ℕ) : b ∈ c'.ids ↔ front = some b ∨ b ∈ c.ids ∧ b ∉ named removals := by
  obtain ⟨xs, hx⟩ := h.lruOrder
  rw [← (m.order xs hx).mem, mem_append, mem_filter, Option.mem_toList, hx.mem]
  by_cases hb : front = some b
  · simp [hb]
  · simp [hb, Ne.symm hb]

theorem Moves.next_le (m : Moves c c' front removals) : c.nextEntry ≤ c'.nextEntry :=
  m.next ▸ le_max_left _ _

/-- an entry that is there afterwards, or is not there yet, is not among the removed ones -/
theorem Moves.not_removed (m : Moves c c' front removals) (h : Core hash c)
    (hid : id ∈ c'.ids ∨ c'.nextEntry ≤ id) : id ∉ named removals := by
  intro hc
  rcases hid with hid | hid
  · rcases (m.mem h id).1 hid with hn | hn
    · exact (m.removed id hc).2 hn
    · exact hn.2 hc
  · exact absurd (h.fresh id (m.removed id hc).1) (not_lt.2 (m.next_le.trans hid))

/-- a key that the entry in front does not have is bound as before, unless its entry was removed -/
theorem Moves.keyspace (m : Moves c c' front removals) (h : Core hash c) (h' : Core hash c')
    {key : Bytes} (hfront : ∀ id, front = some id → c'.entryKey id ≠ key)
    (hothers : ∀ b, front ≠ some b → c'.entry b = c.entry b) :
    c'.keyspace key = if key ∈ (named removals).map c.entryKey then none else c.keyspace key := by
  have hkeys : ∀ b ∈ c.ids, c'.entryKey b = c.entryKey b := fun b hb => m.keys b (h.fresh b hb)
  split_ifs with hk
  · obtain ⟨a, ha, rfl⟩ := mem_map.1 hk
    apply h'.keyspace_none
    intro b hb hkey
    rcases (m.mem h b).1 hb with hf | ⟨hbc, hbl⟩
    · exact hfront b hf hkey
    · rw [hkeys b hbc] at hkey
      exact hbl (h.entryKey_inj hbc (m.removed a ha).1 hkey ▸ ha)
  · apply h.keyspace_congr h'
    · intro b
      constructor
      · rintro ⟨hb, hkey⟩
        rcases (m.mem h b).1 hb with hf | ⟨hbc, _⟩
        · exact absurd hkey (hfront b hf)
        · exact ⟨hbc, hkeys b hbc ▸ hkey⟩
      · rintro ⟨hb, rfl⟩
        exact ⟨(m.mem h b).2 (Or.inr ⟨hb, fun hc => hk (mem_map_of_mem hc)⟩), hkeys b hb⟩
    · intro b hb hkey
      exact hothers b fun hf => hfront b hf ((hkeys b hb).trans hkey)

theorem named_append (l l' : List (ℕ × RemovalReason)) : named (l ++ l') = named l ++ named l' := map_append ..

/-- the reports of two lists of removals, the second one read in the later cache -/
theorem reports_append (hkeys : ∀ p ∈ l', c'.entryKey p.1 = c.entryKey p.1) :
    ((l ++ l').filter (·.2 = .evicted)).map (fun p => c.entryKey p.1) =
      (l.filter (·.2 = .evicted)).map (fun p => c.entryKey p.1) ++ (l'.filter (·.2 = .evicted)).map fun p => c'.entryKey p.1 := by
  rw [filter_append, map_append]
  congr 1
  refine map_congr_left fun p hp => ?_
  rw [hkeys p (mem_of_mem_filter hp)]

/-- two moves, of which one at most puts an entry in front -/
theorem Moves.compose {f f' : Option ℕ} (m : Moves c c' f l) (m' : Moves c' c'' f' l') (h : Core hash c)
    (hone : f = none ∨ f' = none) (hf : ∀ id, f = some id → id ∉ named l')
    (hf' : ∀ id, f' = some id → id ∈ c'.ids ∨ c'.nextEntry ≤ id) : Moves c c'' (f'.or f) (l ++ l') := by
  have hold : ∀ id ∈ named l', id ∈ c.ids ∧ id ∉ named l := by
    intro id hid
    rcases (m.mem h id).1 (m'.removed id hid).1 with hn | hn
    · exact absurd hid (hf id hn)
    · exact hn
  have hkeys : ∀ p ∈ l', c'.entryKey p.1 = c.entryKey p.1 := fun p hp =>
    m.keys _ (h.fresh _ (hold p.1 (mem_map_of_mem hp)).1)
  refine ⟨fun xs hx => ?_, ?_, fun id hid => ?_, ?_, fun id hid => ?_, ?_, ?_, ?_⟩
  · have hlast := m'.order _ (m.order xs hx)
    have hhead : f.toList.filter (fun b => decide (some b ≠ f' ∧ b ∉ named l')) = f.toList := by
      refine filter_eq_self.2 fun b hb => ?_
      have hb' := Option.mem_toList.1 hb
      have hnone := hone.resolve_left (by rw [hb']; simp)
      simp [hnone, hf b hb']
    have hsame : ∀ b ∈ xs, (decide (some b ≠ f'.or f ∧ b ∉ named (l ++ l'))) =
        (decide (some b ≠ f' ∧ b ∉ named l') && decide (some b ≠ f ∧ b ∉ named l)) := by
      intro b _
      rw [named_append]
      rcases hone with rfl | rfl
      · rw [Option.or_none]
        grind
      · rw [Option.none_or]
        grind
    have hfront : f'.toList ++ f.toList = (f'.or f).toList := by
      rcases hone with rfl | rfl <;> simp
    rw [filter_append, hhead, filter_filter, ← append_assoc, hfront] at hlast
    rwa [filter_congr hsame]
  · rw [named_append]
    exact List.Nodup.append m.nodup m'.nodup fun id h1 h2 => (hold id h2).2 h1
  · rw [named_append, mem_append] at hid
    rw [ne_eq, Option.or_eq_some_iff, not_or, not_and]
    rcases hid with hid | hid
    · exact ⟨(m.removed id hid).1, fun hc => m.not_removed h (hf' id hc) hid, fun _ => (m.removed id hid).2⟩
    · exact ⟨(hold id hid).1, (m'.removed id hid).2, fun _ hc => hf id hc hid⟩
  · rw [m'.next, m.next]
    rcases hone with rfl | rfl <;> simp
  · rw [m'.keys id (hid.trans_le m.next_le), m.keys id hid]
  · rw [m'.expired, m.expired, countP_append, Nat.add_assoc]
  · rw [m'.evictedKeys, m.evictedKeys, countP_append, Nat.add_assoc]
  · rw [m'.log, m.log, reports_append hkeys, append_assoc]

/-- removals, and then a move -/
theorem Moves.before (m : Moves c c' none l) (m' : Moves c' c'' front l')
    (h : Core hash c) (hfront : ∀ id, front = some id → id ∈ c'.ids ∨ c'.nextEntry ≤ id) : Moves c c'' front (l ++ l') := by
  have hm := m.compose m' h (Or.inl rfl) (fun id hid => by cases hid) hfront
  rwa [Option.or_none] at hm

/-- a move, and then removals of other entries -/
theorem Moves.after (m : Moves c c' front l) (m' : Moves c' c'' none l')
    (h : Core hash c) (hfront : ∀ id, front = some id → id ∉ named l') : Moves c c'' front (l ++ l') :=
  m.compose m' h (Or.inr rfl) hfront fun id hid => by cases hid

/-- `c'` has the entries of `c` in the same order, and the same counters of removals -/
structure Still (c c' : Cache) : Prop where
  enabled : c'.lruEnabled = c.lruEnabled
  lru : c'.lru = c.lru
  ids : ∀ b, b ∈ c'.ids ↔ b ∈ c.ids
  keys : ∀ b, c'.entryKey b = c.entryKey b
  next : c'.nextEntry = c.nextEntry
  counts : c'.expiredKeys = c.expiredKeys ∧ c'.evictedKeys = c.evictedKeys
  log : c'.evicted = c.evicted

theorem Still.trans (s : Still c c') (s' : Still c' c'') : Still c c'' :=
  ⟨s'.enabled.trans s.enabled, s'.lru.trans s.lru, fun b => (s'.ids b).trans (s.ids b), fun b => (s'.keys b).trans (s.keys b),
    s'.next.trans s.next, ⟨s'.counts.1.trans s.counts.1, s'.counts.2.trans s.counts.2⟩, s'.log.trans s.log⟩

theorem Still.refl (c : Cache) : Still c c := ⟨rfl, rfl, fun _ => Iff.rfl, fun _ => rfl, rfl, ⟨rfl, rfl⟩, rfl⟩

theorem Still.moves (s : Still c c') : Moves c c' none [] := by
  refine ⟨fun xs hx => ?_, nodup_nil, by simp [named], by simp [s.next],
    fun id _ => s.keys id, s.counts.1, s.counts.2, by simpa using s.log⟩
  simpa [named] using hx.congr s.enabled s.lru s.ids

theorem Still.keyspace (s : Still c c') (h : Core hash c) (hs : Shrinks hash c c') : c'.keyspace = c.keyspace := by
  funext key
  apply h.keyspace_congr hs.core
  · intro b
    rw [s.ids, s.keys]
  · intro b _ _
    rw [hs.entry]

/-- a move after a step that leaves everything in its place -/
theorem Still.then_moves (s : Still c c') (m : Moves c' c'' front l) :
    Moves c c'' front l := by
  refine ⟨fun xs hx => m.order xs (hx.congr s.enabled s.lru s.ids), m.nodup, fun id hid => ?_, s.next ▸ m.next, fun id hid => ?_,
    ?_, ?_, ?_⟩
  · rw [← s.ids]
    exact m.removed id hid
  · rw [m.keys id (s.next ▸ hid), s.keys]
  · rw [m.expired, s.counts.1]
  · rw [m.evictedKeys, s.counts.2]
  · rw [m.log, s.log, funext s.keys]

/-- such a step after a move -/
theorem Moves.then_still (m : Moves c c' front l) (s : Still c' c'') :
    Moves c c'' front l := by
  refine ⟨fun xs hx => (m.order xs hx).congr s.enabled s.lru s.ids, m.nodup, m.removed, s.next ▸ m.next, fun id hid => ?_, ?_, ?_, ?_⟩
  · rw [s.keys, m.keys id hid]
  · rw [s.counts.1, m.expired]
  · rw [s.counts.2, m.evictedKeys]
  · rw [s.log, m.log]

theorem cacheNow_still (c : Cache) : Still c c.cacheNow.2 := ⟨rfl, rfl, fun _ => Iff.rfl, fun _ => rfl, rfl, ⟨rfl, rfl⟩, rfl⟩

theorem readNow_still (c : Cache) (id now : ℕ) : Still c (c.readNow id now).2 := by
  unfold readNow
  split_ifs
  · exact cacheNow_still c
  · exact .refl c

theorem recordRead_still (c : Cache) (found record : Bool) : Still c (c.recordRead found record) := by
  unfold recordRead
  split_ifs <;> exact ⟨rfl, rfl, fun _ => Iff.rfl, fun _ => rfl, rfl, ⟨rfl, rfl⟩, rfl⟩

theorem reserve_still (c : Cache) (k : ℕ) : Still c { c with heapCapacity := k } :=
  ⟨rfl, rfl, fun _ => Iff.rfl, fun _ => rfl, rfl, ⟨rfl, rfl⟩, rfl⟩

theorem heap_still (c : Cache) (heap : IndexedHeap.Heap ℕ) : Still c { c with heap := heap } :=
  ⟨rfl, rfl, fun _ => Iff.rfl, fun _ => rfl, rfl, ⟨rfl, rfl⟩, rfl⟩

theorem reindex_still {index : HashTable ℕ} (hp : (KvHash.nodes index).Perm (KvHash.nodes c.index)) :
    Still c { c with index := index } :=
  ⟨rfl, rfl, fun _ => (hp.map _).mem_iff, fun _ => rfl, rfl, ⟨rfl, rfl⟩, rfl⟩

theorem rehash_still (h : Core hash c) (budget : ℕ) :
    Still c { c with index := (KvHash.kvHashRehashStep c.index budget).1 } :=
  reindex_still (KvHash.kvHashRehashStep_spec h.dict budget).nodes

/-- a write to the fields of an entry other than its node -/
theorem setEntry_still (c : Cache) (id : ℕ) (e : CacheEntry) (he : e.indexNode = (c.entry id).indexNode) :
    Still c (c.setEntry id e) := by
  refine ⟨rfl, rfl, fun _ => Iff.rfl, fun b => ?_, rfl, ⟨rfl, rfl⟩, rfl⟩
  unfold entryKey
  rw [setEntry_entry]
  split_ifs with hb
  · rw [hb, he]
  · rfl

theorem writeExpire_still (c : Cache) (id d : ℕ) : Still c (c.writeExpire id d) := setEntry_still c id _ rfl

theorem changeDeadline_still (c : Cache) (id d : ℕ) : Still c (c.changeDeadline id d) := by
  unfold changeDeadline
  refine Still.trans ?_ (writeExpire_still _ id d)
  split_ifs
  · exact heap_still c _
  · exact (writeExpire_still c id d).trans (heap_still _ _)
  · exact (writeExpire_still c id d).trans (heap_still _ _)
  · exact .refl c

theorem replaceObject_still (c : Cache) (id : ℕ) (object : KvObject) (charge items : ℕ) :
    Still c (c.replaceObject id object charge items) := by
  refine Still.trans ?_ (setEntry_still _ id _ rfl)
  exact ⟨rfl, rfl, fun _ => Iff.rfl, fun _ => rfl, rfl, ⟨rfl, rfl⟩, rfl⟩

theorem lruTouch_moves (c : Cache) (hid : id ∈ c.ids) (hold : id < c.nextEntry) : Moves c (c.lruTouch id) (some id) [] := by
  have hnext : c.nextEntry = max c.nextEntry (id + 1) := (max_eq_left hold).symm
  have hids : (c.lruTouch id).ids = c.ids := by unfold lruTouch; split_ifs <;> rfl
  refine ⟨fun xs hx => ?_, nodup_nil, by simp [named], ?_, fun b _ => ?_, ?_, ?_, ?_⟩
  · have hfilter : (xs.filter fun b => decide (some b ≠ some id ∧ b ∉ named [])) = xs.filter (· ≠ id) := by
      refine filter_congr fun b _ => ?_
      simp [named]
    rw [hfilter]
    refine ⟨nodup_cons.2 ⟨by simp, hx.nodup.filter _⟩, fun b => ?_, fun he => ?_⟩
    · rw [hids, ← hx.mem]
      by_cases hb : b = id
      · simp [hb, (hx.mem id).2 hid]
      · simp [hb]
    · have he' : c.lruEnabled = true := by
        unfold lruTouch at he
        split_ifs at he with h1
        · exact h1
        · exact he
      unfold lruTouch
      rw [if_pos he']
      exact LinkedList.touch_filter (hx.links he') ((hx.mem id).2 hid)
  · unfold lruTouch
    split_ifs <;> exact hnext
  all_goals
    unfold lruTouch
    split_ifs <;> simp [entryKey]

/-! ## Removals -/

theorem entryRemove_counts (c : Cache) (id : ℕ) (reason : RemovalReason) :
    (c.entryRemove id reason).expiredKeys = c.expiredKeys + (if reason = .expired then 1 else 0) ∧
      (c.entryRemove id reason).evictedKeys = c.evictedKeys + (if reason = .evicted then 1 else 0) ∧
      (c.entryRemove id reason).nextEntry = c.nextEntry := by
  have hdetach : ∀ c : Cache, (c.detachEntry id).expiredKeys = c.expiredKeys ∧ (c.detachEntry id).evictedKeys = c.evictedKeys ∧
      (c.detachEntry id).nextEntry = c.nextEntry := by
    intro c
    unfold detachEntry heapForget lruUnlink heapRemoveAt
    cases c.heap.position id <;> cases c.lruEnabled <;> exact ⟨rfl, rfl, rfl⟩
  have hhot : (c.clearHot id).expiredKeys = c.expiredKeys ∧ (c.clearHot id).evictedKeys = c.evictedKeys ∧
      (c.clearHot id).nextEntry = c.nextEntry := by
    unfold clearHot
    split_ifs <;> exact ⟨rfl, rfl, rfl⟩
  unfold entryRemove
  cases reason <;> simp [hdetach, hhot]

/-- **Removal** of an entry for a reason. -/
theorem entryRemove_moves (h : Core hash c) (hid : id ∈ c.ids) (reason : RemovalReason) :
    Moves c (c.entryRemove id reason) none [(id, reason)] := by
  obtain ⟨hd, hlog⟩ := entryRemove_dropped h hid reason
  obtain ⟨e1, e2, e3⟩ := entryRemove_counts c id reason
  refine ⟨fun xs hx => ?_, nodup_singleton id, fun b hb => ?_, by simp [e3], fun b _ => ?_, ?_, ?_, ?_⟩
  · have hsame : (xs.filter fun b => decide (some b ≠ none ∧ b ∉ named [(id, reason)])) = xs.filter (· ≠ id) := by
      refine filter_congr fun b _ => ?_
      simp [named]
    rw [hsame]
    exact hd.order h hx
  · rw [mem_singleton.1 hb]
    exact ⟨hid, by simp⟩
  · unfold entryKey
    rw [hd.entry]
  · rw [e1]
    cases reason <;> rfl
  · rw [e2]
    cases reason <;> rfl
  · rw [hlog]
    cases reason <;> rfl

/-- the deadline of an entry has passed at time `t` -/
def Dead (c : Cache) (t id : ℕ) : Prop := c.expireAt id ≠ 0 ∧ c.expireAt id ≤ t

instance (c : Cache) (t id : ℕ) : Decidable (c.Dead t id) := inferInstanceAs (Decidable (_ ∧ _))

theorem dead_congr (he : c'.entry = c.entry) (τ id : ℕ) : c'.Dead τ id ↔ c.Dead τ id := by
  unfold Dead expireAt
  rw [he]

/-- **Look-up** removes the entry of the key when its deadline has passed, returns it otherwise, and does nothing else. -/
theorem findLive_moves (h : Core hash c) (key : Bytes) (now : ℕ) :
    Shrinks hash c (c.findLive hash key now).1 ∧
      (c.findLive hash key now).2 = KvHash.lookup (c.findLive hash key now).1.index key ∧
      ∃ l, Moves c (c.findLive hash key now).1 none l ∧
        ∀ p, p ∈ l ↔ p.2 = .expired ∧ p.1 ∈ c.ids ∧ c.entryKey p.1 = key ∧ c.Dead (c.decisionTime now) p.1 := by
  have hrehash := KvHash.kvHashRehashStep_spec h.dict 1
  have hs1 := reindex_shrinks h hrehash.inv hrehash.nodes
  have hstill := rehash_still h 1
  set c1 : Cache := { c with index := (KvHash.kvHashRehashStep c.index 1).1 } with hc1
  have r1 := hs1.core
  have hfind := KvHash.lookup_eq_find r1.dict key
  -- the entries of the key
  have hown : ∀ b, b ∈ c.ids ∧ c.entryKey b = key ↔ KvHash.lookup c1.index key = some b := by
    intro b
    rw [r1.lookup_iff, hstill.ids, hstill.keys]
  unfold findLive
  simp only [← hc1]
  cases hf : KvHash.kvHashFind hash c1.index key with
  | none =>
    rw [hf, Option.map_none] at hfind
    refine ⟨hs1, hfind.symm, [], hstill.moves, fun p => iff_of_false not_mem_nil ?_⟩
    rintro ⟨_, hid, hkey, _⟩
    have := (hown p.1).1 ⟨hid, hkey⟩
    rw [hfind] at this
    cases this
  | some n =>
    rw [hf, Option.map_some] at hfind
    obtain ⟨hid, hkey⟩ := r1.of_lookup hfind
    have hread := readNow_still c1 n.payload now
    obtain ⟨s1, s2, _, _, s5⟩ := readNow_shrinks r1 n.payload now
    have hdead : (c1.expireAt n.payload ≠ 0 ∧ (c1.readNow n.payload now).1 ≥ c1.expireAt n.payload) ↔
        c.Dead (c.decisionTime now) n.payload := by
      refine and_congr_right fun hd => ?_
      rw [s5 hd]
      rfl
    have honly : ∀ b, b ∈ c.ids ∧ c.entryKey b = key ↔ b = n.payload := by
      intro b
      rw [hown, hfind, Option.some.injEq, eq_comm]
    simp only
    split_ifs with hexp
    · have hid2 := (hread.ids _).2 hid
      obtain ⟨hd, _⟩ := entryRemove_dropped s1.core hid2 .expired
      have hkey2 : (c1.readNow n.payload now).2.entryKey n.payload = key := (hread.keys _).trans hkey
      refine ⟨hs1.trans (s1.trans (hd.shrinks s1.core)), ?_, [(n.payload, .expired)], ?_, fun p => ?_⟩
      · have := congrFun hd.keyspace key
        rw [hkey2, Function.update_self, keyspace_eq, Option.map_eq_none_iff] at this
        exact this.symm
      · exact (hstill.trans hread).then_moves (entryRemove_moves s1.core hid2 .expired)
      · rw [mem_singleton, ← and_assoc (a := p.1 ∈ c.ids), honly]
        constructor
        · rintro rfl
          exact ⟨rfl, rfl, hdead.1 hexp⟩
        · rintro ⟨h1, h2, _⟩
          exact Prod.ext h2 h1
    · refine ⟨hs1.trans s1, by rw [s2, hfind], [], (hstill.trans hread).moves, fun p => iff_of_false not_mem_nil ?_⟩
      rintro ⟨_, hb, hk, hd⟩
      rw [(honly p.1).1 ⟨hb, hk⟩] at hd
      exact hexp (hdead.2 hd)

theorem findLive_spec (h : Core hash c) (key : Bytes) (now : ℕ) :
    Shrinks hash c (c.findLive hash key now).1 ∧
      (c.findLive hash key now).1.keyspace = reap (c.decisionTime now) c.keyspace key ∧
      (c.findLive hash key now).2 = KvHash.lookup (c.findLive hash key now).1.index key ∧
      (c.findLive hash key now).1.evicted = c.evicted := by
  obtain ⟨hs, hf, l, m, hl⟩ := findLive_moves h key now
  refine ⟨hs, ?_, hf, ?_⟩
  · -- the key is gone exactly when it was bound to an object whose deadline has passed
    have hgone : ∀ k, k ∈ (named l).map c.entryKey ↔ k = key ∧ Expired (c.decisionTime now) (c.keyspace key) := by
      intro k
      constructor
      · intro hk
        obtain ⟨b, hb, rfl⟩ := mem_map.1 hk
        obtain ⟨p, hp, rfl⟩ := mem_map.1 hb
        obtain ⟨_, hin, rfl, hdead⟩ := (hl p).1 hp
        exact ⟨rfl, _, _, keyspace_entryKey h hin, hdead⟩
      · rintro ⟨rfl, o, d, hstored, hd⟩
        obtain ⟨b, hb, he⟩ := Option.map_eq_some_iff.1 hstored
        obtain ⟨hin, hkey⟩ := h.of_lookup hb
        cases he
        exact mem_map.2 ⟨b, mem_map_of_mem (f := Prod.fst) ((hl (b, .expired)).2 ⟨rfl, hin, hkey, hd⟩), hkey⟩
    funext k
    rw [m.keyspace h hs.core (fun id hid => by cases hid) fun b _ => by rw [hs.entry]]
    by_cases hexp : Expired (c.decisionTime now) (c.keyspace key)
    · rw [reap, if_pos hexp, Function.update_apply]
      exact if_congr ((hgone k).trans (and_iff_left hexp)) rfl rfl
    · rw [reap, if_neg hexp, if_neg fun hk => hexp ((hgone k).1 hk).2]
  · rw [m.log, filter_eq_nil_iff.2, map_nil, append_nil]
    intro p hp
    simp [((hl p).1 hp).1]

/-! ## Upkeep -/

/-- the entries whose deadline has passed at time `t` -/
def overdue (c : Cache) (t : ℕ) : List ℕ := c.ids.filter fun id => c.Dead t id

/-- nothing is overdue when the first deadline of the heap has not passed, or when there is none -/
theorem overdue_nil {t : ℕ} (h : Core hash c) (hroot : 0 < c.heap.count → t < c.expireAt (c.heap.slot 0)) :
    c.overdue t = [] := by
  refine filter_eq_nil_iff.2 fun id hid => ?_
  rw [decide_eq_true_eq]
  rintro ⟨hne, hle⟩
  have hmem := (h.heap id).2 ⟨hid, hne⟩
  have hpos : 0 < c.heap.count := by
    obtain ⟨i, hi, _⟩ := hmem
    exact (Nat.zero_le i).trans_lt hi
  exact absurd ((IndexedHeap.Heap.root_le h.ordered hmem).trans hle) (not_le.2 (hroot hpos))

/-- **The loop of the upkeep** removes overdue entries, earliest deadline first, as many as its budget allows. -/
theorem expireLoop_moves (budget : ℕ) (h : Core hash c) (now : ℕ) :
    ∃ l, Moves c (expireLoop budget c now).1 none l ∧ Shrinks hash c (expireLoop budget c now).1 ∧
      (expireLoop budget c now).2 = l.length ∧ l.length = min budget (c.overdue now).length ∧
      ∀ p ∈ l, p.2 = .expired ∧ c.Dead now p.1 ∧
        ∀ b ∈ (expireLoop budget c now).1.ids, c.expireAt b ≠ 0 → c.expireAt p.1 ≤ c.expireAt b := by
  induction budget generalizing c with
  | zero =>
    exact ⟨[], (Still.refl c).moves, .refl h, rfl, (Nat.zero_min _).symm, by simp⟩
  | succ budget ih =>
    -- the loop stops as soon as nothing is overdue
    have hstop : c.overdue now = [] → ∃ l, Moves c c none l ∧ Shrinks hash c c ∧ 0 = l.length ∧
        l.length = min (budget + 1) (c.overdue now).length ∧ ∀ p ∈ l, p.2 = .expired ∧ c.Dead now p.1 ∧
          ∀ b ∈ c.ids, c.expireAt b ≠ 0 → c.expireAt p.1 ≤ c.expireAt b := by
      intro hn
      refine ⟨[], (Still.refl c).moves, .refl h, rfl, ?_, by simp⟩
      rw [hn]
      exact (Nat.min_zero _).symm
    rw [expireLoop]
    split_ifs with hc hd
    · exact hstop (overdue_nil h fun _ => hd)
    · obtain ⟨hid, hne⟩ := (h.heap _).1 ⟨0, hc, rfl⟩
      have hdead : c.Dead now (c.heap.slot 0) := ⟨hne, not_lt.1 hd⟩
      obtain ⟨hdrop, _⟩ := entryRemove_dropped h hid .expired
      have hmove := entryRemove_moves h hid .expired
      generalize c.entryRemove (c.heap.slot 0) .expired = c1 at *
      obtain ⟨l, m, hs, hcount, hlen, hl⟩ := ih hdrop.core
      have hover : (c.overdue now).length = (c1.overdue now).length + 1 := by
        have hperm := hdrop.ids.filter fun id => decide (c.Dead now id)
        rw [filter_cons, if_pos (decide_eq_true hdead)] at hperm
        have hsame : (c1.ids.filter fun id => decide (c.Dead now id)) = c1.overdue now :=
          filter_congr fun b _ => decide_eq_decide.2 (dead_congr hdrop.entry now b).symm
        rw [hsame] at hperm
        exact hperm.length_eq.symm
      refine ⟨_, hmove.before m h (fun b hb => by cases hb), (hdrop.shrinks h).trans hs, ?_, ?_, fun p hp => ?_⟩
      · simp [hcount]
      · rw [length_append, length_singleton, hlen, hover]
        omega
      · rcases mem_append.1 hp with hp | hp
        · rw [mem_singleton.1 hp]
          refine ⟨rfl, hdead, fun b hb hb0 => ?_⟩
          have hbc := (hdrop.shrinks h).ids b (hs.ids b hb)
          exact IndexedHeap.Heap.root_le h.ordered ((h.heap b).2 ⟨hbc, hb0⟩)
        · have hp' := hl p hp
          unfold Dead expireAt at hp' ⊢
          rw [hdrop.entry] at hp'
          exact hp'
    · exact hstop (overdue_nil h fun hpos => absurd hpos hc)

/-- **`cache_maintain`** removes overdue entries, earliest deadline first, as many as its budget allows. -/
theorem cacheMaintain_moves (h : Core hash c) (expireBudget rehashBudget : ℕ) :
    ∃ l, Moves c (c.cacheMaintain expireBudget rehashBudget).1 none l ∧
      Shrinks hash c (c.cacheMaintain expireBudget rehashBudget).1 ∧
      (c.cacheMaintain expireBudget rehashBudget).2 = l.length ∧
      l.length = min expireBudget (c.overdue (c.nowMs 0)).length ∧
      ∀ p ∈ l, p.2 = .expired ∧ c.Dead (c.nowMs 0) p.1 ∧
        ∀ b ∈ (c.cacheMaintain expireBudget rehashBudget).1.ids, c.expireAt b ≠ 0 → c.expireAt p.1 ≤ c.expireAt b := by
  obtain ⟨l, m, hs, hcount, hlen, hl⟩ := expireLoop_moves expireBudget h.cacheNow c.cacheNow.1
  have hrehash := KvHash.kvHashRehashStep_spec hs.core.dict rehashBudget
  have hstill := rehash_still hs.core rehashBudget
  refine ⟨l, ((cacheNow_still c).then_moves m).then_still hstill, ?_, hcount, hlen, fun p hp => ?_⟩
  · exact (shrinks_cacheNow h).trans (hs.trans (reindex_shrinks hs.core hrehash.inv hrehash.nodes))
  · obtain ⟨h1, h2, h3⟩ := hl p hp
    exact ⟨h1, h2, fun b hb => h3 b ((hstill.ids b).1 hb)⟩

end StoreSystem.Cache
