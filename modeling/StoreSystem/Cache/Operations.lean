/-
The operations of the cache, over the parts specified in `Invariant`, `Moves` and `Room`.

Every operation keeps the representation invariant, limits included, and its effect on the keyspace is that of its name:
`store` binds the key, `delete` removes it, and so on, with two side effects that any operation may have: an expired entry of
the key it looks up is gone, and a store may evict other keys. `cache_invariant` collects the first half over whole runs.
-/
import StoreSystem.Cache.Room

namespace StoreSystem.Cache

open List Function

variable {hash : Hasher} {c : Cache}

/-! ## Stores -/

variable {c' c'' : Cache} {id d required k t : ℕ} {object : KvObject} {r : Cache × CacheSetResult} {key : Bytes}
  {gone : List Bytes} {ok : Bool} {ks : Bytes → Option (Obj × ℕ)}

/-- `c'` is a later state of the cache, again with its invariant -/
structure Advances (hash : Hasher) (c c' : Cache) : Prop where
  core : Core hash c'
  within : c'.Within
  limits : c'.maxKeys = c.maxKeys ∧ c'.maxMemory = c.maxMemory
  later : Later c c'

theorem Advances.trans (h : Advances hash c c') (h' : Advances hash c' c'') :
    Advances hash c c'' :=
  ⟨h'.core, h'.within, ⟨h'.limits.1.trans h.limits.1, h'.limits.2.trans h.limits.2⟩, h.later.trans h'.later⟩

theorem Advances.refl (h : Core hash c) (hw : c.Within) : Advances hash c c := ⟨h, hw, ⟨rfl, rfl⟩, Later.refl c⟩

theorem Shrinks.advances (hs : Shrinks hash c c') (hw : c.Within) : Advances hash c c' :=
  ⟨hs.core, hs.within hw, hs.limits, hs.later⟩

theorem Within.congr (hw : c.Within) (hi : c'.index = c.index) (hu : c'.usedMemory = c.usedMemory)
    (hl : c'.maxKeys = c.maxKeys ∧ c'.maxMemory = c.maxMemory) : c'.Within := by
  refine ⟨fun hk => ?_, fun hm => ?_⟩
  · rw [hl.1] at hk ⊢
    rw [hi]
    exact hw.keys hk
  · rw [hl.2] at hm ⊢
    rw [hu]
    exact hw.memory hm

/-- a change of an entry that leaves the memory in use alone -/
theorem Updates.advances (hu : Updates hash c c' id object d)
    (hused : c'.usedMemory = c.usedMemory) (hw : c.Within) : Advances hash c c' :=
  ⟨hu.core, hw.congr hu.index hused hu.limits, hu.limits, 0, fun i => by rw [hu.clock]; rfl⟩

theorem lruTouch_advances (h : Core hash c) (hw : c.Within) (hid : id ∈ c.ids) :
    Advances hash c (c.lruTouch id) := by
  obtain ⟨h1, h2, _⟩ := lruTouch_core h hid
  exact ⟨h1, hw.congr h2.index h2.used h2.limits, h2.limits, 0, fun i => by rw [h2.clock]; rfl⟩

/-- a keyspace without some keys -/
def without (gone : List Bytes) (ks : Bytes → Option (Obj × ℕ)) (k : Bytes) : Option (Obj × ℕ) := if k ∈ gone then none else ks k

/-- the keys `gone` were evicted between `c` and `c'`; all were reported when no entry has a deadline -/
def Logged (c c' : Cache) (gone : List Bytes) : Prop :=
  ∃ ks, c'.evicted = c.evicted ++ ks ∧ ks.Sublist gone ∧ ((∀ id ∈ c.ids, c.expireAt id = 0) → ks = gone)

theorem Logged.refl (h : c'.evicted = c.evicted) : Logged c c' [] := ⟨[], by simp [h], List.Sublist.refl _, fun _ => rfl⟩

/-- the charge of an entry overflows or is above the limit by itself -/
def TooBig (c : Cache) (keyLength : ℕ) (object : KvObject) : Prop :=
  entryMemoryCharge keyLength object = sizeMax ∨ (c.maxMemory ≠ 0 ∧ entryMemoryCharge keyLength object > c.maxMemory)

instance (c : Cache) (keyLength : ℕ) (object : KvObject) : Decidable (c.TooBig keyLength object) :=
  inferInstanceAs (Decidable (_ ∨ _))

theorem without_nil (ks : Bytes → Option (Obj × ℕ)) : without [] ks = ks := by
  funext k
  exact if_neg not_mem_nil

/-- what a store does to the cache -/
structure StoreEffect (hash : Hasher) (c : Cache) (r : Cache × CacheSetResult) (key : Bytes) (object : KvObject)
    (d : ℕ) (gone : List Bytes) : Prop where
  advances : Advances hash c r.1
  logged : Logged c r.1 gone
  keep : key ∉ gone
  stored : r.2 = .ok → r.1.keyspace = update (without gone c.keyspace) key (some (object.view, d))
  failed : r.2 ≠ .ok → ∀ k, r.1.keyspace k = none ∨ r.1.keyspace k = c.keyspace k
  /-- nothing is evicted for a key that is there or for which there is room -/
  roomy : c.maxMemory = 0 → c.maxKeys = 0 ∨ (∃ o, c.keyspace key = some (o, 0)) ∨ KvHash.kvHashCount c.index < c.maxKeys →
    gone = []
  /-- only an entry that is too big by itself is refused, and nothing is evicted for it -/
  refused : r.2 = .capacity → TooBig c key.length object ∧ gone = [] ∧ r.1.keyspace = c.keyspace
  inRange : r.2 ≠ .range
  /-- nothing is evicted for a store that fails -/
  spared : r.2 ≠ .ok → gone = []
  bound : ∀ k ∈ gone, c.keyspace k ≠ none
  sound : c.Sound hash → object.Inv hash → r.1.Sound hash
  charged : c.Charged → r.1.Charged

/-- without a limit on memory only an entry whose charge overflows is refused -/
theorem StoreEffect.overflow (he : StoreEffect hash c r key object d gone) (hr : r.2 = .capacity) (hm : c.maxMemory = 0) :
    entryMemoryCharge key.length object = sizeMax :=
  (he.refused hr).1.resolve_right fun h => h.1 hm

/-- a limit on the number of keys alone is met while it is respected -/
theorem Within.room (hw : c.Within) : c.maxKeys = 0 ∨ KvHash.kvHashCount c.index ≤ c.maxKeys := by
  by_cases hz : c.maxKeys = 0
  · exact Or.inl hz
  · exact Or.inr (hw.keys hz)

/-! ## Room for an entry -/

variable {reread : Bool} {now : ℕ} {xs kept : List ℕ} {removals : List (ℕ × RemovalReason)}

section

variable (mk : Makes hash c c' reread id now object d xs kept removals)
include mk

/-- the order after room was made -/
theorem Makes.order (hx : c.LruOrder xs) : c'.LruOrder (id :: kept) := by
  have hmoved := mk.moves.order xs hx
  have hnd : (kept ++ (named removals).reverse).Nodup := mk.split ▸ hx.nodup.filter _
  have hkept : (xs.filter fun b => decide (some b ≠ some id ∧ b ∉ named removals)) = kept := by
    have hboth : (xs.filter fun b => decide (some b ≠ some id ∧ b ∉ named removals)) =
        (xs.filter (· ≠ id)).filter (· ∉ named removals) := by
      rw [filter_filter]
      refine filter_congr fun b _ => ?_
      rw [Bool.eq_iff_iff]
      simp [and_comm]
    rw [hboth, mk.split, filter_append]
    have h1 : kept.filter (· ∉ named removals) = kept := by
      refine filter_eq_self.2 fun b hb => ?_
      rw [decide_eq_true_eq]
      exact fun hc => (nodup_append'.1 hnd).2.2 hb (mem_reverse.2 hc)
    have h2 : (named removals).reverse.filter (· ∉ named removals) = [] := by
      refine filter_eq_nil_iff.2 fun b hb => ?_
      simpa using mem_reverse.1 hb
    rw [h1, h2, append_nil]
  rwa [hkept] at hmoved

theorem Makes.within (hx : c.LruOrder xs) : c'.Within := by
  have hx' := mk.order hx
  have hfilter : (id :: kept).filter (· ≠ id) = kept := by
    rw [filter_cons_of_neg (by simp)]
    exact filter_eq_self.2 fun b hb => by simpa using fun hc : b = id => (nodup_cons.1 hx'.nodup).1 (hc ▸ hb)
  have hsum : kept.map c'.charge = kept.map c.charge := by
    refine map_congr_left fun b hb => ?_
    unfold Cache.charge
    rw [mk.others b fun hc => (nodup_cons.1 hx'.nodup).1 (hc ▸ hb)]
  refine limitsExceeded_within ?_
  rw [hx'.count mk.core mem_cons_self, hx'.used mk.core ((hx'.mem id).1 mem_cons_self), hfilter, hsum]
  have hfits := mk.least.1
  unfold Fits limitsExceeded at hfits
  unfold limitsExceeded
  rwa [mk.limits.1, mk.limits.2]

/-- nothing is removed when the other entries fit by number and there is no limit on memory -/
theorem Makes.spares (hm : c.maxMemory = 0) (hk : c.maxKeys = 0 ∨ (xs.filter (· ≠ id)).length < c.maxKeys) : removals = [] := by
  by_contra hne
  have hall := mk.least.2 (kept ++ (named removals).reverse) [] (append_nil _).symm (by
    rw [length_nil, length_reverse, named, length_map]
    exact length_pos_of_ne_nil hne)
  apply hall
  rw [← mk.split]
  unfold Fits limitsExceeded
  rw [hm, decide_eq_false_iff_not]
  omega

end

/-- a reservation before room is made -/
theorem Makes.reserved (mk : Makes hash { c with heapCapacity := k } c' reread id now object d xs kept removals) :
    Makes hash c c' reread id now object d xs kept removals :=
  ⟨mk.core, mk.limits, mk.later, mk.others, mk.object, mk.deadline, mk.covers, (reserve_still c k).then_moves mk.moves, mk.split,
    mk.least, mk.undated, mk.judged⟩

/-- the entries other than one are fewer than the limit allows -/
theorem Within.others (hw : c.Within) (h : Core hash c) (hx : c.LruOrder xs) (hid : id ∈ c.ids) :
    c.maxKeys = 0 ∨ (xs.filter (· ≠ id)).length < c.maxKeys := by
  have hcount := hx.count h ((hx.mem id).2 hid)
  have hroom := hw.room
  omega

/-- the entry room is made for: a live one, or a new one under a key that is not there -/
def Target (c : Cache) (id : ℕ) (key : Bytes) : Prop :=
  id ∈ c.ids ∧ c.entryKey id = key ∨ id = c.nextEntry ∧ ∀ b ∈ c.ids, c.entryKey b ≠ key

theorem Target.others (ht : c.Target id key) (h : Core hash c) {b : ℕ} (hb : b ∈ c.ids) (hne : b ≠ id) : c.entryKey b ≠ key := by
  rcases ht with ⟨hid, rfl⟩ | ⟨_, hall⟩
  · exact fun hk => hne (h.entryKey_inj hb hid hk)
  · exact hall b hb

theorem Makes.advances (mk : Makes hash c c' reread id now object d xs kept removals) (hx : c.LruOrder xs) :
    Advances hash c c' :=
  ⟨mk.core, mk.within hx, mk.limits, mk.later⟩

/-- **Room was made** for an entry, and it is stored. -/
theorem Makes.effect {o : KvObject} (mk : Makes hash c c' reread id now o d xs kept removals) (h : Core hash c)
    (hw : c.Within) (hx : c.LruOrder xs) (ht : c.Target id key) (hkey : c'.entryKey id = key) (hview : o.view = object.view)
    (hinv : object.Inv hash → o.Inv hash) :
    StoreEffect hash c (c', .ok) key object d ((named removals).map c.entryKey) := by
  have hremoved : ∀ b ∈ named removals, b ∈ c.ids ∧ b ≠ id := fun b hb =>
    ⟨(mk.moves.removed b hb).1, fun hc => (mk.moves.removed b hb).2 (hc ▸ rfl)⟩
  have hkeep : key ∉ (named removals).map c.entryKey := by
    intro hc
    obtain ⟨b, hb, hbk⟩ := mem_map.1 hc
    exact ht.others h (hremoved b hb).1 (hremoved b hb).2 hbk
  have hid : id ∈ c'.ids := (mk.moves.mem h id).2 (Or.inl rfl)
  refine ⟨mk.advances hx, ⟨_, mk.moves.log, ?_, fun hz => ?_⟩, hkeep, fun _ => ?_, fun hc => absurd rfl hc, fun hm hroom => ?_,
    by simp, by simp, fun hc => absurd rfl hc, fun k hk => ?_, fun hsound ho b hb => ?_,
    fun hc => hc.update id mk.limits.2 mk.others mk.covers⟩
  · rw [named, map_map]
    exact filter_sublist.map _
  · rw [named, map_map, filter_eq_self.2]
    · rfl
    · intro p hp
      simpa using mk.undated p hp (hz p.1 (hremoved p.1 (mem_map_of_mem hp)).1)
  · funext k
    rw [update_apply]
    by_cases hk : k = key
    · rw [if_pos hk, hk, ← hkey, keyspace_entryKey mk.core hid, mk.object, mk.deadline, hview]
    · rw [if_neg hk, without]
      refine mk.moves.keyspace h mk.core (fun b hb => ?_) fun b hb => mk.others b fun hc => hb (hc ▸ rfl)
      cases hb
      exact fun hc => hk (hc.symm.trans hkey)
  · rw [mk.spares hm, named, map_nil, map_nil]
    rcases ht with ⟨hin, _⟩ | ⟨rfl, habsent⟩
    · exact hw.others h hx hin
    · have hcount : (xs.filter (· ≠ c.nextEntry)).length ≤ KvHash.kvHashCount c.index := by
        rw [h.count, ← ((perm_ext_iff_of_nodup hx.nodup h.nodup).2 hx.mem).length_eq]
        exact length_filter_le ..
      rw [h.keyspace_none habsent] at hroom
      rcases hroom with hz | ⟨_, hc⟩ | hlt
      · exact Or.inl hz
      · cases hc
      · exact Or.inr (hcount.trans_lt hlt)
  · obtain ⟨b, hb, rfl⟩ := mem_map.1 hk
    rw [keyspace_entryKey h (hremoved b hb).1]
    simp
  · by_cases hbi : b = id
    · rw [hbi, mk.object]
      exact hinv ho
    · rw [mk.others b hbi]
      exact hsound b (((mk.moves.mem h b).1 hb).resolve_left fun hc => hbi (Option.some.inj hc).symm).1

/-! ## Reservations -/

theorem growCapacity_le {fuel capacity : ℕ} (h : growCapacity fuel capacity required = some k) :
    required ≤ k ∧ capacity ≤ k := by
  induction fuel generalizing capacity with
  | zero => simp [growCapacity] at h
  | succ fuel ih =>
    rw [growCapacity] at h
    split_ifs at h with h1 h2
    · obtain ⟨i1, i2⟩ := ih h
      exact ⟨i1, by omega⟩
    · simp only [Option.some.injEq] at h
      omega

/-- a reservation only raises the capacity of the heap -/
theorem heapReserve_spec (h : heapReserve ok c required = some c') :
    ∃ k, c' = { c with heapCapacity := k } ∧ required ≤ k ∧ c.heapCapacity ≤ k := by
  unfold heapReserve at h
  by_cases h1 : required ≤ c.heapCapacity
  · rw [if_pos h1, Option.some.injEq] at h
    exact ⟨c.heapCapacity, h.symm, h1, le_rfl⟩
  · rw [if_neg h1] at h
    generalize (if c.heapCapacity = 0 then cacheHeapInitialCapacity else c.heapCapacity) = start at h
    cases hg : growCapacity 65 start required with
    | none => simp [hg] at h
    | some k =>
      simp only [hg] at h
      split_ifs at h
      rw [Option.some.injEq] at h
      have := (growCapacity_le hg).1
      exact ⟨k, h.symm, this, by omega⟩

/-- a reservation that is made only when it is needed -/
theorem reserved_some {need : Prop} [Decidable need] (h : (if need then heapReserve ok c required else some c) = some c') :
    ∃ k, c' = { c with heapCapacity := k } ∧ c.heapCapacity ≤ k ∧ (need → required ≤ k) := by
  split_ifs at h with hn
  · obtain ⟨k, hk, h1, h2⟩ := heapReserve_spec h
    exact ⟨k, hk, h2, fun _ => h1⟩
  · exact ⟨c.heapCapacity, (Option.some.inj h).symm, le_rfl, fun hc => absurd hc hn⟩

theorem reserved_none {need : Prop} [Decidable need]
    (h : (if need then heapReserve ok c required else some c) = none) : heapReserve ok c required = none := by
  split_ifs at h
  exact h

theorem Core.reserve (h : Core hash c) (hk : c.heapCapacity ≤ k) : Core hash { c with heapCapacity := k } :=
  { h with room := h.room.trans hk }

/-! ## Look-up before a store -/

theorem reap_of_ne {k : Bytes} (h : k ≠ key) : reap t ks key k = ks k := by
  unfold reap
  split_ifs
  · exact update_of_ne h _ _
  · rfl

theorem reap_self (t : ℕ) (ks : Bytes → Option (Obj × ℕ)) (key : Bytes) :
    reap t ks key key = none ∨ reap t ks key = ks := by
  unfold reap
  split_ifs
  · exact Or.inl (update_self ..)
  · exact Or.inr rfl

theorem reap_some {v : Obj × ℕ} (h : reap t ks key key = some v) :
    ks key = some v ∧ ¬ (v.2 ≠ 0 ∧ v.2 ≤ t) := by
  unfold reap at h
  split_ifs at h with hexp
  · rw [update_self] at h
    exact absurd h (by simp)
  · exact ⟨h, fun hc => hexp ⟨v.1, v.2, h, hc.1, hc.2⟩⟩

theorem reap_none (h : reap t ks key key = none) :
    ks key = none ∨ Expired t (ks key) := by
  unfold reap at h
  split_ifs at h with hexp
  · exact Or.inr hexp
  · exact Or.inl h

/-- a store after a look-up of its key -/
theorem StoreEffect.after {c1 : Cache} (he : StoreEffect hash c1 r key object d gone) (hs : Shrinks hash c c1)
    (hlog : c1.evicted = c.evicted) (hks : c1.keyspace = reap t c.keyspace key) (hbig : ¬ TooBig c1 key.length object) :
    StoreEffect hash c r key object d gone := by
  refine ⟨⟨he.advances.core, he.advances.within, ?_, hs.later.trans he.advances.later⟩, ?_, he.keep, fun hok => ?_,
    fun hno k => ?_, fun hm hroom => he.roomy (hs.limits.2.trans hm) ?_,
    fun hc => absurd (he.refused hc).1 hbig, he.inRange, he.spared, fun k hk hnone => he.bound k hk ?_,
    fun hsound ho => he.sound (hs.sound hsound) ho, fun hc => he.charged (hs.charged hc)⟩
  · exact ⟨he.advances.limits.1.trans hs.limits.1, he.advances.limits.2.trans hs.limits.2⟩
  · obtain ⟨ks, l1, l2, l3⟩ := he.logged
    refine ⟨ks, by rw [l1, hlog], l2, fun hz => l3 fun b hb => ?_⟩
    unfold expireAt
    rw [hs.entry]
    exact hz b (hs.ids b hb)
  · rw [he.stored hok]
    funext k
    rw [update_apply, update_apply]
    by_cases hk : k = key
    · rw [if_pos hk, if_pos hk]
    · rw [if_neg hk, if_neg hk, without, without, hks, reap_of_ne hk]
  · rcases he.failed hno k with h1 | h1
    · exact Or.inl h1
    · by_cases hk : k = key
      · rw [h1, hks, hk]
        rcases reap_self t c.keyspace key with h2 | h2
        · exact Or.inl h2
        · exact Or.inr (by rw [h2])
      · exact Or.inr (by rw [h1, hks, reap_of_ne hk])
  · rw [hs.limits.1]
    refine hroom.imp_right fun hroom => hroom.imp ?_ fun hlt => lt_of_le_of_lt hs.count hlt
    intro ⟨o, ho⟩
    refine ⟨o, ?_⟩
    -- without a deadline the look-up has left it there
    have hstays : ¬ Expired t (c.keyspace key) := by
      intro ⟨o', d', hk, hd, _⟩
      rw [ho, Option.some.injEq, Prod.mk.injEq] at hk
      exact hd hk.2.symm
    rw [hks, reap, if_neg hstays, ho]
  · rw [hks, reap_of_ne fun heq : k = key => he.keep (heq ▸ hk), hnone]

/-- the deadline a store keeps: that of the live object under the key, else the one it was called with -/
def keptDeadline (t : ℕ) (stored : Option (Obj × ℕ)) (expireAtMs : ℕ) : ℕ :=
  match stored with
  | some (_, d) => if d ≠ 0 ∧ d ≤ t then expireAtMs else d
  | none => expireAtMs

theorem keptDeadline_live {o : Obj} (h : ¬ (d ≠ 0 ∧ d ≤ t)) (e : ℕ) : keptDeadline t (some (o, d)) e = d := if_neg h

theorem keptDeadline_gone {stored : Option (Obj × ℕ)} (h : stored = none ∨ Expired t stored) (e : ℕ) :
    keptDeadline t stored e = e := by
  rcases h with rfl | ⟨o, d, rfl, hd⟩
  · rfl
  · exact if_pos hd

/-- a call that returns early: the cache has advanced and nothing was bound -/
theorem StoreEffect.fail {result : CacheSetResult}
    (hs : Shrinks hash c c') (hw : c.Within) (hlog : c'.evicted = c.evicted) (hr : result ≠ .ok) (hr' : result ≠ .range)
    (hcap : result = .capacity → TooBig c key.length object ∧ c'.keyspace = c.keyspace)
    (hks : ∀ k, c'.keyspace k = none ∨ c'.keyspace k = c.keyspace k) :
    StoreEffect hash c (c', result) key object d [] :=
  ⟨hs.advances hw, .refl hlog, by simp, fun hc => absurd hc hr, fun _ => hks, fun _ _ => rfl,
    fun hc => ⟨(hcap hc).1, rfl, (hcap hc).2⟩, hr', fun _ => rfl, by simp, fun hsound _ => hs.sound hsound, hs.charged⟩

/-- the time `cache_store_object` looks its key up with, and the cache after the reading -/
def storeNow (c : Cache) (expireAtMs : ℕ) : ℕ × Cache := if expireAtMs ≠ 0 then c.cacheNow else (uint64Max, c)

theorem storeNow_spec (h : Core hash c) (expireAtMs : ℕ) :
    Shrinks hash c (c.storeNow expireAtMs).2 ∧ (c.storeNow expireAtMs).2.evicted = c.evicted ∧
      (c.storeNow expireAtMs).2.keyspace = c.keyspace ∧
      ∀ τ, c.Fixed τ → (c.storeNow expireAtMs).1 = uint64Max ∨ (c.storeNow expireAtMs).1 = τ := by
  unfold storeNow
  split_ifs with hd
  · exact ⟨shrinks_cacheNow h, rfl, rfl, fun τ hτ => Or.inr (hτ 0)⟩
  · exact ⟨.refl h, rfl, rfl, fun τ _ => Or.inl rfl⟩

/-- the cache after the look-up of `cache_store_object`, and the live entry under the key -/
def storeFound (hash : Hasher) (c : Cache) (key : Bytes) (expireAtMs : ℕ) : Cache × Option ℕ :=
  (c.storeNow expireAtMs).2.findLive hash key (c.storeNow expireAtMs).1

/-- the allocations of a store succeed: the heap of deadlines, the entry, the tables of the index and its node -/
def StoreAllocates (hash : Hasher) (alloc : Alloc) (c : Cache) (key : Bytes) (expireAtMs : ℕ) : Prop :=
  (heapReserve alloc.heap (c.storeFound hash key expireAtMs).1
    ((c.storeFound hash key expireAtMs).1.heap.count + 1)).isSome ∧ alloc.entry = true ∧
  (KvHash.maybeExpand alloc.index.table (c.storeFound hash key expireAtMs).1.index).isSome ∧ alloc.index.node = true

instance (alloc : Alloc) (c : Cache) (key : Bytes) (expireAtMs : ℕ) :
    Decidable (StoreAllocates hash alloc c key expireAtMs) := inferInstanceAs (Decidable (_ ∧ _))

/-- the node of a key whose entry has a charge can be allocated -/
theorem notTooBig_node {keyLength : ℕ} (hbig : ¬ TooBig c keyLength object) :
    keyLength ≠ sizeMax ∧ KvHash.sizeofNode ≤ sizeMax - keyLength - 1 := by
  by_contra hover
  have hnode : KvHash.kvHashNodeMemoryForKey keyLength = sizeMax := by
    unfold KvHash.kvHashNodeMemoryForKey
    rw [if_pos (by omega)]
  apply hbig
  left
  unfold entryMemoryCharge
  simp only
  rw [if_pos hnode]

/-- what a call that looked the key up with the result `f` stored: over a live entry, or in a new one -/
structure Stores (hash : Hasher) (f : Cache × Option ℕ) (c' : Cache) (key : Bytes) (object : KvObject)
    (expireAtMs : ℕ) (preserve : Bool) (now id : ℕ) (o : KvObject) (d : ℕ) : Prop where
  place : (f.2 = some id ∧ written (f.1.entry id).object object = some o ∧ d = if preserve then f.1.expireAt id else expireAtMs) ∨
    (f.2 = none ∧ id = f.1.nextEntry ∧ o = object ∧ d = expireAtMs)
  key : c'.entryKey id = key
  view : o.view = object.view
  inv : object.Inv hash → o.Inv hash
  makes : ∀ xs, f.1.LruOrder xs → ∃ kept removals, Makes hash f.1 c' true id now o d xs kept removals

theorem Stores.target {f : Cache × Option ℕ} {expireAtMs : ℕ} {preserve : Bool} {o : KvObject} (h : Core hash f.1)
    (hf : f.2 = KvHash.lookup f.1.index key) (st : Stores hash f c' key object expireAtMs preserve now id o d) :
    f.1.Target id key := by
  rcases st.place with ⟨hr, _⟩ | ⟨hr, hid, _⟩
  · exact Or.inl (h.of_lookup (hf.symm.trans hr))
  · refine Or.inr ⟨hid, fun b hb hk => ?_⟩
    rw [hr, ← hk, h.lookup_entryKey hb] at hf
    cases hf

/-- **The ways of `cache_store_object`**: the entry is too big by itself; an allocation fails, and nothing but the look-up has
happened; or room is made and the object stored. -/
theorem cacheStoreObject_makes (h : Core hash c) (hw : c.Within) (alloc : Alloc) (key : Bytes) (object : KvObject)
    (expireAtMs : ℕ) (preserve : Bool) {r : Cache × CacheSetResult}
    (hr : c.cacheStoreObject hash alloc key object expireAtMs preserve = r) :
    (TooBig c key.length object ∧ r = ((c.storeNow expireAtMs).2, .capacity)) ∨
    (¬ TooBig c key.length object ∧ r.2 = .error ∧ Still (c.storeFound hash key expireAtMs).1 r.1 ∧
      Shrinks hash (c.storeFound hash key expireAtMs).1 r.1 ∧ ¬ StoreAllocates hash alloc c key expireAtMs) ∨
    (¬ TooBig c key.length object ∧ r.2 = .ok ∧ ∃ id o d, Stores hash (c.storeFound hash key expireAtMs) r.1 key object
      expireAtMs preserve (c.storeNow expireAtMs).1 id o d) := by
  obtain ⟨s1, _⟩ := storeNow_spec h expireAtMs
  obtain ⟨f1, f2, _⟩ := findLive_moves s1.core key (c.storeNow expireAtMs).1
  have hs : Shrinks hash c (c.storeFound hash key expireAtMs).1 := s1.trans f1
  have hlookup : (c.storeFound hash key expireAtMs).2 = KvHash.lookup (c.storeFound hash key expireAtMs).1.index key := f2
  have hbigs : (entryMemoryCharge key.length object = sizeMax ∨ ((c.storeNow expireAtMs).2.maxMemory ≠ 0 ∧
      entryMemoryCharge key.length object > (c.storeNow expireAtMs).2.maxMemory)) ↔ TooBig c key.length object := by
    rw [s1.limits.2]
    rfl
  have hnow : (if expireAtMs ≠ 0 then c.cacheNow else (uint64Max, c)) = c.storeNow expireAtMs := rfl
  have hlook : (c.storeNow expireAtMs).2.findLive hash key (c.storeNow expireAtMs).1 =
    c.storeFound hash key expireAtMs := rfl
  unfold cacheStoreObject at hr
  simp only at hr
  rw [hnow, hlook] at hr
  by_cases hbig : TooBig c key.length object
  · rw [if_pos (hbigs.2 hbig)] at hr
    exact Or.inl ⟨hbig, hr.symm⟩
  rw [if_neg fun hc => hbig (hbigs.1 hc)] at hr
  right
  have hfits : (c.storeFound hash key expireAtMs).1.maxMemory = 0 ∨
      entryMemoryCharge key.length object ≤ (c.storeFound hash key expireAtMs).1.maxMemory := by
    rw [hs.limits.2]
    unfold TooBig at hbig
    omega
  -- without room in the heap of deadlines the call has done nothing but its look-up
  have hunreserved : heapReserve alloc.heap (c.storeFound hash key expireAtMs).1
      ((c.storeFound hash key expireAtMs).1.heap.count + 1) = none →
      ¬ StoreAllocates hash alloc c key expireAtMs := by
    rintro hnone ⟨ha, _⟩
    rw [hnone] at ha
    cases ha
  have hw1 := hs.within hw
  unfold StoreAllocates at *
  generalize c.storeFound hash key expireAtMs = f at *
  obtain ⟨found, live⟩ := f
  cases live with
  | some id =>
    simp only at hr
    generalize hd : (if preserve = true then found.expireAt id else expireAtMs) = d at hr
    cases hres : if d ≠ 0 ∧ found.expireAt id = 0 then heapReserve alloc.heap found (found.heap.count + 1) else some found with
    | none =>
      rw [hres] at hr
      subst hr
      exact Or.inl ⟨hbig, rfl, .refl _, .refl hs.core, hunreserved (reserved_none hres)⟩
    | some c2 =>
      rw [hres] at hr
      obtain ⟨capacity, rfl, h1, h2⟩ := reserved_some hres
      obtain ⟨hid, hkey⟩ := hs.core.of_lookup hlookup.symm
      have hover := fun xs (hx : LruOrder _ xs) => storeOver_makes (hs.core.reserve h1) { hw1 with } hid hx object
        (entryMemoryCharge key.length object) (objectItemCount object) d (c.storeNow expireAtMs).1 (by rw [← hkey]; rfl) hfits
        fun hz hne => h2 ⟨hne, hz⟩
      simp only at hr
      rw [hr] at hover
      obtain ⟨xs, hx⟩ := (hs.core.reserve h1).lruOrder
      obtain ⟨hok, o, kept, removals, hwritten, hview, hinv, mk⟩ := hover xs hx
      refine Or.inr ⟨hbig, hok, id, o, d, Or.inl ⟨rfl, hwritten, hd.symm⟩, ?_, hview, hinv, fun ys hy => ?_⟩
      · exact (mk.moves.keys id (hs.core.fresh id hid)).trans hkey
      · have hy' : ({ found with heapCapacity := capacity } : Cache).LruOrder ys := hy.congr rfl rfl fun _ => Iff.rfl
        obtain ⟨_, o', kept', removals', hwritten', _, _, mk'⟩ := hover ys hy'
        cases hwritten.symm.trans hwritten'
        exact ⟨kept', removals', mk'.reserved⟩
  | none =>
    simp only at hr
    cases hres : if expireAtMs ≠ 0 then heapReserve alloc.heap found (found.heap.count + 1) else some found with
    | none =>
      rw [hres] at hr
      subst hr
      exact Or.inl ⟨hbig, rfl, .refl _, .refl hs.core, hunreserved (reserved_none hres)⟩
    | some c2 =>
      rw [hres] at hr
      obtain ⟨capacity, rfl, h1, h2⟩ := reserved_some hres
      have hnew := fun xs (hx : LruOrder _ xs) => storeNew_makes (hs.core.reserve h1) hx alloc key object
        (entryMemoryCharge key.length object) (objectItemCount object) expireAtMs (c.storeNow expireAtMs).1 le_rfl hfits h2
      simp only at hr
      rw [hr] at hnew
      obtain ⟨xs, hx⟩ := (hs.core.reserve h1).lruOrder
      rcases hnew xs hx with ⟨hno, hstill, hshrinks, hinsert⟩ | ⟨hok, hkey, _⟩
      · refine Or.inl ⟨hbig, hno, (reserve_still found capacity).trans hstill, (reserve_shrinks hs.core h1).trans hshrinks, ?_⟩
        rintro ⟨_, a2, a3, a4⟩
        obtain ⟨n1, n2⟩ := notTooBig_node hbig
        have hnode : KvHash.InsertAllocates alloc.index found.index key := ⟨a3, n1, n2, a4⟩
        obtain ⟨index, n, hins, _⟩ := KvHash.kvHashInsert_absent hs.core.dict found.nextEntry
          ((KvHash.lookup_none_iff hs.core.dict key).1 hlookup.symm) hnode
        refine hinsert ⟨a2, ?_⟩
        change (KvHash.kvHashInsert hash alloc.index found.index key found.nextEntry).2.isSome = true
        rw [hins]
        rfl
      · refine Or.inr ⟨hbig, hok, found.nextEntry, object, expireAtMs, Or.inr ⟨rfl, rfl, rfl, rfl⟩, hkey, rfl, fun ho => ho,
          fun ys hy => ?_⟩
        have hy' : ({ found with heapCapacity := capacity } : Cache).LruOrder ys := hy.congr rfl rfl fun _ => Iff.rfl
        rcases hnew ys hy' with ⟨hno, _⟩ | ⟨_, _, _, kept, removals, mk⟩
        · rw [hok] at hno
          cases hno
        · exact ⟨kept, removals, mk.reserved⟩

/-- **`cache_store_object`.** -/
theorem cacheStoreObject_effect (h : Core hash c) (hw : c.Within) (alloc : Alloc) (key : Bytes) (object : KvObject)
    (expireAtMs : ℕ) (preserve : Bool) :
    ∃ t gone, (∀ τ, c.Fixed τ → t = τ) ∧
      StoreEffect hash c (c.cacheStoreObject hash alloc key object expireAtMs preserve) key object
        (if preserve then keptDeadline t (c.keyspace key) expireAtMs else expireAtMs) gone := by
  obtain ⟨s1, s2, s3, s4⟩ := storeNow_spec h expireAtMs
  obtain ⟨f1, f2, f3, f4⟩ := findLive_spec s1.core key (c.storeNow expireAtMs).1
  set t := (c.storeNow expireAtMs).2.decisionTime (c.storeNow expireAtMs).1 with ht
  refine ⟨t, ?_⟩
  rw [exists_and_left]
  refine ⟨fun τ hτ => (hτ.later s1.later).decisionTime (s4 τ hτ), ?_⟩
  rw [s3] at f2
  have hs := s1.trans f1
  have hlog := f4.trans s2
  have hmakes := cacheStoreObject_makes h hw alloc key object expireAtMs preserve rfl
  generalize c.cacheStoreObject hash alloc key object expireAtMs preserve = r at hmakes
  unfold storeFound at hmakes
  generalize (c.storeNow expireAtMs).2.findLive hash key (c.storeNow expireAtMs).1 = f at *
  obtain ⟨c', result⟩ := r
  rcases hmakes with ⟨hbig, hr⟩ | ⟨hbig, hno, hstill, hshrinks, _⟩ | ⟨hbig, hok, id, o, d, st⟩
  · cases hr
    exact ⟨[], StoreEffect.fail s1 hw s2 (by simp) (by simp) (fun _ => ⟨hbig, s3⟩) fun k => Or.inr (by rw [s3])⟩
  · dsimp only at hno hstill hshrinks
    subst hno
    refine ⟨[], StoreEffect.fail (hs.trans hshrinks) hw (hstill.log.trans hlog) (by simp) (by simp) (by simp)
      fun k => ?_⟩
    rw [hstill.keyspace hs.core hshrinks, f2]
    by_cases hk : k = key
    · rw [hk]
      rcases reap_self t c.keyspace key with h2 | h2
      · exact Or.inl h2
      · exact Or.inr (by rw [h2])
    · exact Or.inr (reap_of_ne hk)
  · dsimp only at hok st
    subst hok
    have hdead : d = if preserve = true then keptDeadline t (c.keyspace key) expireAtMs else expireAtMs := by
      rcases st.place with ⟨hr, _, hd⟩ | ⟨hr, _, _, hd⟩
      · obtain ⟨hid, hkey⟩ := hs.core.of_lookup (f3.symm.trans hr)
        have hstored := keyspace_entryKey hs.core hid
        rw [hkey, f2] at hstored
        obtain ⟨hlive, hnot⟩ := reap_some hstored
        rw [hd, hlive, keptDeadline_live hnot]
      · have hgone : reap t c.keyspace key key = none := by
          rw [← f2, keyspace_eq, ← f3, hr]
          rfl
        rw [hd, keptDeadline_gone (reap_none hgone), ite_self]
    have hbig2 : ¬ TooBig f.1 key.length object := by
      unfold TooBig at hbig ⊢
      rwa [hs.limits.2]
    obtain ⟨xs, hx⟩ := hs.core.lruOrder
    obtain ⟨kept, removals, mk⟩ := st.makes xs hx
    rw [← hdead]
    exact ⟨_, (mk.effect hs.core (hs.within hw) hx (st.target hs.core f3) st.key st.view st.inv).after hs hlog f2 hbig2⟩

/-! ## Reads -/

/-- what an operation that stores nothing does to the cache -/
structure Effect (hash : Hasher) (c c' : Cache) (ks : Bytes → Option (Obj × ℕ)) : Prop where
  advances : Advances hash c c'
  keyspace : c'.keyspace = ks
  log : c'.evicted = c.evicted
  sound : c.Sound hash → c'.Sound hash
  charged : c.Charged → c'.Charged

theorem Effect.trans {ks' : Bytes → Option (Obj × ℕ)} (h : Effect hash c c' ks)
    (h' : Effect hash c' c'' ks') : Effect hash c c'' ks' :=
  ⟨h.advances.trans h'.advances, h'.keyspace, h'.log.trans h.log, fun hs => h'.sound (h.sound hs),
    fun hc => h'.charged (h.charged hc)⟩

theorem Effect.of_shrinks (hs : Shrinks hash c c') (hw : c.Within) (hlog : c'.evicted = c.evicted) (hks : c'.keyspace = ks) :
    Effect hash c c' ks :=
  ⟨hs.advances hw, hks, hlog, hs.sound, hs.charged⟩

/-- what a look-up has found -/
theorem Effect.found {found : Cache × Option ℕ} (he : Effect hash c found.1 ks) (hf : found.2 = KvHash.lookup found.1.index key) :
    (found.2 = none ∧ ks key = none) ∨ ∃ id, found.2 = some id ∧ id ∈ found.1.ids ∧ found.1.entryKey id = key ∧
      ks key = some ((found.1.entry id).object.view, found.1.expireAt id) := by
  rw [← he.keyspace, hf]
  cases hl : KvHash.lookup found.1.index key with
  | none =>
    rw [keyspace_eq, hl]
    exact Or.inl ⟨rfl, rfl⟩
  | some id =>
    obtain ⟨hid, hkey⟩ := he.advances.core.of_lookup hl
    exact Or.inr ⟨id, rfl, hid, hkey, hkey ▸ keyspace_entryKey he.advances.core hid⟩

section

variable (h : Core hash c) (hw : c.Within)
include h hw

theorem Effect.refl : Effect hash c c c.keyspace :=
  ⟨.refl h hw, rfl, rfl, fun hs => hs, fun hc => hc⟩

theorem cacheNow_effect : Effect hash c c.cacheNow.2 c.keyspace :=
  Effect.of_shrinks (shrinks_cacheNow h) hw rfl rfl

theorem lruTouch_effect (hid : id ∈ c.ids) :
    Effect hash c (c.lruTouch id) c.keyspace := by
  obtain ⟨_, h2, h3⟩ := lruTouch_core h hid
  refine ⟨lruTouch_advances h hw hid, h2.keyspace, h3, fun hs b hb => ?_, fun hc => lruTouch_charged hc id⟩
  rw [h2.entry]
  refine hs b ?_
  unfold ids at hb ⊢
  rwa [h2.index] at hb

theorem findLive_effect (key : Bytes) (now : ℕ) :
    Effect hash c (c.findLive hash key now).1 (reap (c.decisionTime now) c.keyspace key) := by
  obtain ⟨f1, f2, _, f4⟩ := findLive_spec h key now
  exact Effect.of_shrinks f1 hw f4 f2

/-- the counting of a read touches neither entries nor limits -/
theorem recordRead_effect (found record : Bool) :
    Effect hash c (c.recordRead found record) c.keyspace ∧ (c.recordRead found record).index = c.index ∧
      (c.recordRead found record).entry = c.entry := by
  unfold recordRead
  split_ifs
  · exact ⟨⟨⟨{ h with }, { hw with }, ⟨rfl, rfl⟩, .refl c⟩, rfl, rfl, fun hs => hs, fun hc => hc⟩, rfl, rfl⟩
  · exact ⟨⟨⟨{ h with }, { hw with }, ⟨rfl, rfl⟩, .refl c⟩, rfl, rfl, fun hs => hs, fun hc => hc⟩, rfl, rfl⟩
  · exact ⟨.refl h hw, rfl, rfl⟩

end

/-- a look-up that is counted and, when it finds an entry, moves it to the front -/
theorem countRead_effect {found : Cache × Option ℕ}
    (he : Effect hash c found.1 ks) (hf : found.2 = KvHash.lookup found.1.index key) (record : Bool)
    {r : Cache × Option ℕ}
    (hr : r = match found.2 with
      | none => (found.1.recordRead false record, none)
      | some id => ((found.1.recordRead true record).lruTouch id, some id)) :
    Effect hash c r.1 ks ∧ r.2 = KvHash.lookup r.1.index key ∧ r.1.entry = found.1.entry := by
  cases hid : found.2 with
  | none =>
    rw [hid] at hf hr
    obtain ⟨r1, r2, r3⟩ := recordRead_effect he.advances.core he.advances.within false record
    rw [hr]
    refine ⟨he.trans (he.keyspace ▸ r1), ?_, r3⟩
    rw [r2]
    exact hf
  | some id =>
    rw [hid] at hf hr
    obtain ⟨r1, r2, r3⟩ := recordRead_effect he.advances.core he.advances.within true record
    have hmem : id ∈ (found.1.recordRead true record).ids := by
      unfold ids
      rw [r2]
      exact (he.advances.core.of_lookup hf.symm).1
    have ht := lruTouch_effect r1.advances.core r1.advances.within hmem
    obtain ⟨_, ha, _⟩ := lruTouch_core r1.advances.core hmem
    rw [hr]
    refine ⟨he.trans (r1.trans ?_), ?_, ?_⟩
    · rw [← he.keyspace, ← r1.keyspace]
      exact ht
    · rw [ha.index, r2]
      exact hf
    · rw [ha.entry, r3]

theorem cacheGetObjectRef_effect (h : Core hash c) (hw : c.Within) (key : Bytes) (record : Bool) :
    Effect hash c (c.cacheGetObjectRef hash key record).1 (reap (c.decisionTime uint64Max) c.keyspace key) ∧
      (c.cacheGetObjectRef hash key record).2 =
        KvHash.lookup (c.cacheGetObjectRef hash key record).1.index key := by
  obtain ⟨h1, h2, _⟩ := countRead_effect (findLive_effect h hw key uint64Max) (findLive_spec h key uint64Max).2.2.1 record
    (r := c.cacheGetObjectRef hash key record) rfl
  exact ⟨h1, h2⟩

theorem decisionTime_max (c : Cache) : c.decisionTime uint64Max = c.nowMs 0 := if_pos rfl

/-- a live entry is not reaped -/
theorem reap_eq_self {v : Obj × ℕ} (hk : ks key = some v) (hl : ¬ (v.2 ≠ 0 ∧ v.2 ≤ t)) : reap t ks key = ks := by
  unfold reap
  refine if_neg ?_
  rintro ⟨o, d, he, h1, h2⟩
  rw [hk, Option.some.injEq] at he
  exact hl (he ▸ ⟨h1, h2⟩)

theorem findLiveHash_effect (h : Core hash c) (hw : c.Within) (key : Bytes) :
    Effect hash c (c.findLiveHash hash key).1 (reap (c.nowMs 0) c.keyspace key) ∧
      (c.findLiveHash hash key).2 = KvHash.lookup (c.findLiveHash hash key).1.index key := by
  unfold findLiveHash
  cases hhot : (if c.hashHotKey = key then c.hashHotEntry else none) with
  | some id =>
    -- the hot entry is the entry of the key
    have hkey : c.hashHotKey = key := by
      by_contra hne
      rw [if_neg hne] at hhot
      exact absurd hhot (by simp)
    rw [if_pos hkey] at hhot
    obtain ⟨hid, hk⟩ := h.hot id hhot
    rw [hkey] at hk
    have hl := h.lookup_entryKey hid
    have hks := keyspace_entryKey h hid
    rw [← hk] at hl hks
    simp only
    by_cases hd : c.expireAt id = 0
    · rw [if_pos hd]
      refine ⟨?_, hl.symm⟩
      rw [reap_eq_self hks (fun hc => hc.1 hd)]
      exact .refl h hw
    · rw [if_neg hd]
      by_cases ht : c.cacheNow.1 < c.expireAt id
      · rw [if_pos ht]
        refine ⟨?_, hl.symm⟩
        have hnow : ¬ c.expireAt id ≤ c.nowMs 0 := not_le.2 ht
        rw [reap_eq_self hks (fun hc => hnow hc.2)]
        exact cacheNow_effect h hw
      · rw [if_neg ht]
        obtain ⟨hdrop, hlog⟩ := entryRemove_dropped h.cacheNow hid .expired
        have hkey2 : c.cacheNow.2.entryKey id = key := hk.symm
        refine ⟨?_, ?_⟩
        · refine (cacheNow_effect h hw).trans (Effect.of_shrinks (hdrop.shrinks h.cacheNow) { hw with } ?_ ?_)
          · rw [hlog]
            simp [reported]
          · rw [hdrop.keyspace, hkey2, reap, if_pos ⟨_, _, hks, hd, not_lt.1 ht⟩]
            rfl
        · have := congrFun hdrop.keyspace key
          rw [hkey2, update_self, keyspace_eq, Option.map_eq_none_iff] at this
          exact this.symm
  | none =>
    simp only
    have he := findLive_effect h hw key uint64Max
    rw [decisionTime_max] at he
    have hf := (findLive_spec h key uint64Max).2.2.1
    generalize c.findLive hash key uint64Max = found at he hf
    refine ⟨⟨⟨{ he.advances.core with hot := fun id hid => ?_ }, { he.advances.within with }, he.advances.limits,
      he.advances.later⟩, he.keyspace, he.log, he.sound, he.charged⟩, hf⟩
    have hid' : found.2 = some id := hid
    rw [hid'] at hf
    exact ⟨(he.advances.core.of_lookup hf.symm).1, by rw [hid']; rfl⟩

theorem cacheGetHashObjectRef_effect (h : Core hash c) (hw : c.Within) (key : Bytes) (record : Bool) :
    Effect hash c (c.cacheGetHashObjectRef hash key record).1 (reap (c.nowMs 0) c.keyspace key) ∧
      (c.cacheGetHashObjectRef hash key record).2 =
        KvHash.lookup (c.cacheGetHashObjectRef hash key record).1.index key := by
  obtain ⟨f1, f2⟩ := findLiveHash_effect h hw key
  obtain ⟨h1, h2, _⟩ := countRead_effect f1 f2 record (r := c.cacheGetHashObjectRef hash key record) rfl
  exact ⟨h1, h2⟩

/-! ## Mutation in place and charges -/

/-- the caller changes the object of an entry through the pointer it was given -/
def mutate (c : Cache) (id : ℕ) (object : KvObject) : Cache := c.setEntry id { c.entry id with object := object }

theorem mutate_updates (h : Core hash c) (hid : id ∈ c.ids) (ht : kvObjectType object = kvObjectType (c.entry id).object) :
    Updates hash c (c.mutate id object) id object (c.expireAt id) ∧ (c.mutate id object).usedMemory = c.usedMemory := by
  unfold mutate
  rw [mutate_eq_replace h hid ht]
  exact ⟨replaceObject_updates h hid object _ _, Nat.sub_add_cancel (h.charge_le hid)⟩

/-- an object that takes no more memory than before is covered by the recorded charge -/
theorem mutate_charged (h : c.Charged)
    (hsmall : c.maxMemory ≠ 0 → kvObjectMemoryUsage object ≤ kvObjectMemoryUsage (c.entry id).object) :
    (c.mutate id object).Charged := by
  intro hlimit
  refine Charged.update h id (show (c.mutate id object).maxMemory = c.maxMemory from rfl) (fun b hb => ?_) (fun hid => ?_) hlimit
  · rw [mutate, setEntry_entry, if_neg hb]
  · rw [mutate, setEntry_entry, if_pos rfl]
    exact fun n hn => (entryMemoryCharge_mono _ (hsmall hlimit)).trans (hid n hn)

/-- what a recharge does: it may evict other keys, and binds nothing -/
structure RechargeEffect (hash : Hasher) (c : Cache) (r : Cache × CacheSetResult) (id : ℕ)
    (gone : List Bytes) : Prop where
  advances : Advances hash c r.1
  logged : Logged c r.1 gone
  keep : c.entryKey id ∉ gone
  keyspace : r.1.keyspace = without gone c.keyspace
  /-- the number of keys stays -/
  roomy : c.maxMemory = 0 → gone = []
  /-- only an entry that is too big by itself is refused, and nothing is evicted for it -/
  refused : r.2 = .capacity → TooBig c (c.entryKey id).length (c.entry id).object ∧ gone = []
  expired : r.2 = .error → c.expireAt id ≠ 0 ∧ c.expireAt id ≤ c.nowMs 0
  inRange : r.2 ≠ .range
  spared : r.2 ≠ .ok → gone = []
  bound : ∀ k ∈ gone, c.keyspace k ≠ none
  sound : c.Sound hash → r.1.Sound hash
  charged : c.Charged → r.1.Charged

/-- an entry that is charged for what it holds is refused only when its charge overflows -/
theorem RechargeEffect.covered (h : Core hash c) (hw : c.Within)
    (hid : id ∈ c.ids) (hc : c.Charged) (he : RechargeEffect hash c r id gone) (hr : r.2 = .capacity) :
    entryMemoryCharge (c.entryKey id).length (c.entry id).object = sizeMax := by
  refine (he.refused hr).1.resolve_right fun hbig => ?_
  obtain ⟨n, _, _, hnode, hkey⟩ := h.mem_ids hid
  have hcovers := hc hbig.1 id n hnode
  have hcharge : (c.entry id).memoryCharge ≤ c.maxMemory := (h.charge_le hid).trans (hw.memory hbig.1)
  rw [hkey] at hbig
  exact absurd (hcovers.trans hcharge) (not_le.2 hbig.2)

/-- **`cache_recharge_ref`** of an entry in the cache. -/
theorem cacheRechargeRef_effect (h : Core hash c) (hw : c.Within) (hid : id ∈ c.ids) :
    ∃ gone, RechargeEffect hash c (c.cacheRechargeRef (some id)) id gone := by
  obtain ⟨xs, hx⟩ := h.lruOrder
  have hmakes := cacheRechargeRef_makes h hid hx
  generalize c.cacheRechargeRef (some id) = r at hmakes
  obtain ⟨c', result⟩ := r
  dsimp only at hmakes
  rcases hmakes with ⟨hno, hstill, hs⟩ | ⟨⟨rfl, _, _⟩, kept, removals, mk⟩
  · have hks := hstill.keyspace h hs
    refine ⟨[], hs.advances hw, .refl hstill.log, by simp, (without_nil c.keyspace).symm ▸ hks, fun _ => rfl, fun hc => ?_,
      fun hc => ?_, ?_, fun _ => rfl, by simp, hs.sound, hs.charged⟩
    · rcases hno with ⟨rfl, _⟩ | ⟨_, hbig⟩
      · cases hc
      · exact ⟨hbig, rfl⟩
    · rcases hno with ⟨_, hdead⟩ | ⟨rfl, _⟩
      · exact hdead
      · cases hc
    · rcases hno with ⟨rfl, _⟩ | ⟨rfl, _⟩ <;> simp
  · have hkey := mk.moves.keys id (h.fresh id hid)
    have he := mk.effect h hw hx (Or.inl ⟨hid, rfl⟩) hkey rfl fun ho => ho
    refine ⟨_, he.advances, he.logged, he.keep, ?_, fun hm => ?_, by simp, by simp,
      by simp, fun hc => absurd rfl hc, he.bound, fun hsound => he.sound hsound (hsound id hid), he.charged⟩
    · rw [he.stored rfl, update_eq_self_iff, without, if_neg he.keep, keyspace_entryKey h hid]
    · rw [mk.spares hm (hw.others h hx hid), named, map_nil, map_nil]

/-! ## Deletion, deadlines, upkeep -/

theorem entryRemove_effect (h : Core hash c) (hw : c.Within) (hid : id ∈ c.ids) (reason : RemovalReason)
    (hr : reason ≠ .evicted) :
    Effect hash c (c.entryRemove id reason) (update c.keyspace (c.entryKey id) none) := by
  obtain ⟨hd, hlog⟩ := entryRemove_dropped h hid reason
  refine Effect.of_shrinks (hd.shrinks h) hw ?_ hd.keyspace
  rw [hlog, reported, if_neg hr, append_nil]

/-- an update of a binding after a look-up of its key -/
theorem update_reap (t : ℕ) (ks : Bytes → Option (Obj × ℕ)) (key : Bytes) (v : Option (Obj × ℕ)) :
    update (reap t ks key) key v = update ks key v := by
  funext k
  rw [update_apply, update_apply]
  split_ifs with hk
  · rfl
  · exact reap_of_ne hk

theorem cacheDelete_effect (h : Core hash c) (hw : c.Within) (key : Bytes) :
    Effect hash c (c.cacheDelete hash key).1 (update c.keyspace key none) ∧
      (c.cacheDelete hash key).2 = if (reap (c.nowMs 0) c.keyspace key key).isSome then 1 else 0 := by
  have he := findLive_effect h hw key uint64Max
  have hf := (findLive_spec h key uint64Max).2.2.1
  rw [decisionTime_max] at he
  unfold cacheDelete
  simp only
  generalize c.findLive hash key uint64Max = found at he hf
  rcases he.found hf with ⟨hr, hnone⟩ | ⟨id, hr, hid, hkey, hsome⟩
  · rw [hr, hnone]
    refine ⟨?_, rfl⟩
    rw [← update_reap (c.nowMs 0), ← hnone, update_eq_self]
    exact he
  · rw [hr, hsome]
    refine ⟨?_, rfl⟩
    rw [← update_reap (c.nowMs 0), ← he.keyspace, ← hkey]
    exact he.trans (entryRemove_effect he.advances.core he.advances.within hid .normal (by simp))

theorem Updates.effect (hu : Updates hash c c' id object d)
    (h : Core hash c) (hw : c.Within) (hid : id ∈ c.ids) (hused : c'.usedMemory = c.usedMemory)
    (hobj : c.Sound hash → object.Inv hash) (hcharged : c.Charged → c'.Charged) :
    Effect hash c c' (update c.keyspace (c.entryKey id) (some (object.view, d))) :=
  ⟨hu.advances hused hw, hu.keyspace h hid, hu.log, fun hs => hu.sound hs (hobj hs), hcharged⟩

/-- what a live object under a key becomes when its deadline is set; no binding when nothing is live there -/
def setDeadline (ks : Bytes → Option (Obj × ℕ)) (key : Bytes) (d : ℕ) : Bytes → Option (Obj × ℕ) :=
  match ks key with
  | none => ks
  | some (o, _) => update ks key (some (o, d))

theorem cacheExpireAt_effect (h : Core hash c) (hw : c.Within) (heapOk : Bool) (key : Bytes) (hd : d ≠ 0) :
    ∃ t, (∀ τ, c.Fixed τ → t = τ) ∧
      (((c.cacheExpireAt hash heapOk key d).2 = -1 ∧
          Effect hash c (c.cacheExpireAt hash heapOk key d).1 (reap t c.keyspace key)) ∨
        ((c.cacheExpireAt hash heapOk key d).2 = (if (reap t c.keyspace key key).isSome then 1 else 0) ∧
          Effect hash c (c.cacheExpireAt hash heapOk key d).1 (setDeadline (reap t c.keyspace key) key d))) := by
  have h0 := cacheNow_effect h hw
  have he := findLive_effect h0.advances.core h0.advances.within key c.cacheNow.1
  have hf := (findLive_spec h0.advances.core key c.cacheNow.1).2.2.1
  set t := c.cacheNow.2.decisionTime c.cacheNow.1 with ht
  refine ⟨t, fun τ hτ => (hτ.later h0.advances.later).decisionTime (Or.inr (hτ 0)), ?_⟩
  unfold cacheExpireAt
  rw [if_neg hd]
  simp only
  generalize c.cacheNow.2.findLive hash key c.cacheNow.1 = found at he hf
  have hall : Effect hash c found.1 (reap t c.keyspace key) := h0.trans he
  have hks : found.1.keyspace = reap t c.keyspace key := he.keyspace
  rcases hall.found hf with ⟨hr, hnone⟩ | ⟨id, hr, hid, hkey, hsome⟩
  · rw [hr]
    refine Or.inr ⟨by rw [hnone]; rfl, ?_⟩
    rw [setDeadline, hnone]
    exact hall
  · rw [hr]
    have hcore := he.advances.core
    have hset : setDeadline (reap t c.keyspace key) key d =
        update found.1.keyspace (found.1.entryKey id) (some ((found.1.entry id).object.view, d)) := by
      rw [setDeadline, hsome, hkey, hks]
    simp only
    by_cases hold : found.1.expireAt id = 0
    · rw [if_pos hold]
      cases hres : heapReserve heapOk found.1 (found.1.heap.count + 1) with
      | none => exact Or.inl ⟨rfl, hall⟩
      | some c2 =>
        obtain ⟨k, rfl, hk1, hk2⟩ := heapReserve_spec hres
        have hu := addDeadline_updates (hcore.reserve hk2) hid hold hd hk1
        have heff := hu.effect (hcore.reserve hk2) { he.advances.within with } hid rfl (fun hs => hs id hid)
          fun hc => (writeExpire_charged hc id d).congr rfl rfl
        refine Or.inr ⟨by rw [hsome]; rfl, ?_⟩
        rw [hset]
        exact hall.trans ⟨⟨heff.advances.core, heff.advances.within, heff.advances.limits, heff.advances.later⟩,
          heff.keyspace, heff.log, heff.sound, fun hc => heff.charged (hc.congr rfl rfl)⟩
    · rw [if_neg hold]
      have hu := moveDeadline_updates hcore hid hold hd
      refine Or.inr ⟨by rw [hsome]; rfl, ?_⟩
      rw [hset]
      exact hall.trans (hu.effect hcore he.advances.within hid rfl (fun hs => hs id hid)
        fun hc => (writeExpire_charged hc id d).congr rfl rfl)

/-- whether there is a deadline to clear -/
def hasDeadline (stored : Option (Obj × ℕ)) : Bool :=
  match stored with
  | none => false
  | some (_, d) => d ≠ 0

theorem cachePersist_effect (h : Core hash c) (hw : c.Within) (key : Bytes) :
    Effect hash c (c.cachePersist hash key).1 (setDeadline (reap (c.nowMs 0) c.keyspace key) key 0) ∧
      (c.cachePersist hash key).2 = if hasDeadline (reap (c.nowMs 0) c.keyspace key key) then 1 else 0 := by
  have he := findLive_effect h hw key uint64Max
  have hf := (findLive_spec h key uint64Max).2.2.1
  rw [decisionTime_max] at he
  unfold cachePersist
  simp only
  generalize c.findLive hash key uint64Max = found at he hf
  have hks := he.keyspace
  rcases he.found hf with ⟨hr, hnone⟩ | ⟨id, hr, hid, hkey, hsome⟩
  · rw [hr]
    refine ⟨?_, by rw [hnone]; rfl⟩
    rw [setDeadline, hnone]
    exact he
  · rw [hr]
    have hcore := he.advances.core
    have hset : setDeadline (reap (c.nowMs 0) c.keyspace key) key 0 =
        update found.1.keyspace (found.1.entryKey id) (some ((found.1.entry id).object.view, 0)) := by
      rw [setDeadline, hsome, hkey, hks]
    simp only
    by_cases hold : found.1.expireAt id = 0
    · rw [if_pos hold]
      refine ⟨?_, by rw [hsome]; simp [hasDeadline, hold]⟩
      rw [hset, ← hold, ← keyspace_entryKey hcore hid, update_eq_self, hks]
      exact he
    · rw [if_neg hold]
      have hu := clearDeadline_updates hcore hid hold
      refine ⟨?_, by rw [hsome]; simp [hasDeadline, hold]⟩
      rw [hset]
      exact he.trans (hu.effect hcore he.advances.within hid rfl (fun hs => hs id hid)
        fun hc => writeExpire_charged (hc.congr rfl rfl) id 0)

/-- what `cache_ttl_ms` reports of a stored object at time `t` -/
def ttlOf (t : ℕ) (stored : Option (Obj × ℕ)) : ℤ :=
  match stored with
  | none => -2
  | some (_, d) => if d = 0 then -1 else if d - t > int64Max then int64Max else (d - t : ℕ)

theorem cacheTtlMs_effect (h : Core hash c) (hw : c.Within) (key : Bytes) :
    ∃ t, (∀ τ, c.Fixed τ → t = τ) ∧ Effect hash c (c.cacheTtlMs hash key).1 (reap t c.keyspace key) ∧
      (c.cacheTtlMs hash key).2 = ttlOf (c.nowMs 0) (reap t c.keyspace key key) := by
  have h0 := cacheNow_effect h hw
  have he := findLive_effect h0.advances.core h0.advances.within key c.cacheNow.1
  have hf := (findLive_spec h0.advances.core key c.cacheNow.1).2.2.1
  set t := c.cacheNow.2.decisionTime c.cacheNow.1 with ht
  refine ⟨t, fun τ hτ => (hτ.later h0.advances.later).decisionTime (Or.inr (hτ 0)), ?_⟩
  unfold cacheTtlMs
  simp only
  generalize c.cacheNow.2.findLive hash key c.cacheNow.1 = found at he hf
  have hall : Effect hash c found.1 (reap t c.keyspace key) := h0.trans he
  rcases hall.found hf with ⟨hr, hnone⟩ | ⟨id, hr, hid, hkey, hsome⟩
  · rw [hr, hnone]
    exact ⟨hall, rfl⟩
  · rw [hr, hsome]
    simp only [ttlOf]
    by_cases hd : found.1.expireAt id = 0
    · rw [if_pos hd, if_pos hd]
      exact ⟨hall, rfl⟩
    · rw [if_neg hd, if_neg hd]
      refine ⟨hall, ?_⟩
      change (if found.1.expireAt id - c.nowMs 0 > int64Max then (int64Max : ℤ) else ((found.1.expireAt id - c.nowMs 0 : ℕ) : ℤ)) = _
      rfl

/-- **`cache_maintain`** removes entries whose deadline has passed, and nothing else. -/
theorem cacheMaintain_effect (h : Core hash c) (hw : c.Within) (expireBudget rehashBudget : ℕ) :
    ∃ ks, Effect hash c (c.cacheMaintain expireBudget rehashBudget).1 ks ∧
      ∀ k, ks k = c.keyspace k ∨ ks k = none ∧ Expired (c.nowMs 0) (c.keyspace k) := by
  obtain ⟨l, m, hs, _, _, hl⟩ := cacheMaintain_moves h expireBudget rehashBudget
  refine ⟨_, Effect.of_shrinks hs hw ?_ rfl, fun k => ?_⟩
  · rw [m.log, filter_eq_nil_iff.2, map_nil, append_nil]
    intro p hp
    simp [(hl p hp).1]
  · rw [m.keyspace h hs.core (fun id hid => by cases hid) fun b _ => by rw [hs.entry]]
    split_ifs with hk
    · obtain ⟨b, hb, rfl⟩ := mem_map.1 hk
      obtain ⟨p, hp, rfl⟩ := mem_map.1 hb
      exact Or.inr ⟨rfl, _, _, keyspace_entryKey h (m.removed p.1 hb).1, (hl p hp).2.1⟩
    · exact Or.inl rfl

end StoreSystem.Cache
