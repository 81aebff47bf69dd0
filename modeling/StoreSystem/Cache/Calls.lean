/-
What each call of the cache does.

A call makes room for a key (a store or a recharge), reads one, or does neither. For each kind there is one statement about
what it removes, for which reason, and which entry it moves to the front: `storeCall_moves`, `readCall_acts`,
`otherCall_acts`.

`store_capacity`: with its allocations succeeding a store is refused exactly when the entry is too big by itself, and then
the cache is as it was; otherwise the object is stored.
-/
import StoreSystem.Cache.Consistency

namespace StoreSystem.Cache

open List

variable {hash : Hasher} {c c' c'' : Cache} {xs : List ℕ}

/-! ## Look-up, then room -/

variable {reread : Bool} {removals l : List (ℕ × RemovalReason)} {f : Cache} {object : KvObject} {id d now : ℕ} {kept : List ℕ}

/-- a call made room for a key: the entry of the key is in front, and of the entries of other keys the shortest suffix of the
order is gone that brings the cache within its limits -/
structure Room (c c' : Cache) (key : Bytes) (xs : List ℕ) (id : ℕ) (kept gone : List ℕ) : Prop where
  front : c'.entryKey id = key
  split : xs.filter (fun b => c.entryKey b ≠ key) = kept ++ gone
  order : c'.LruOrder (id :: kept)
  least : Shortest (c.Fits (c'.charge id)) kept gone

variable {key : Bytes} {r : Cache × CacheSetResult} {call : Call}

/-- room made after removals of entries of the key itself -/
theorem Makes.room
    (h : Core hash c) (hx : c.LruOrder xs) (m : Moves c f none l) (hs : Shrinks hash c f) (hid : id ∈ f.ids ∨ f.nextEntry ≤ id)
    (hown : ∀ b ∈ c.ids, (b ∈ f.ids ∧ b ≠ id) ↔ c.entryKey b ≠ key) (hkey : c'.entryKey id = key)
    (mk : Makes hash f c' reread id now object d (xs.filter (· ∈ f.ids)) kept removals) :
    Moves c c' (some id) (l ++ removals) ∧ Room c c' key xs id kept (named removals).reverse := by
  constructor
  · apply m.before mk.moves h
    intro b hb
    cases hb
    exact hid
  · refine ⟨hkey, ?_, mk.order (hs.order xs hx), ?_⟩
    · rw [← mk.split, filter_filter]
      refine filter_congr fun b hb => ?_
      have := hown b ((hx.mem b).1 hb)
      rw [Bool.eq_iff_iff]
      simp only [decide_eq_true_eq, Bool.and_eq_true]
      rw [← this, and_comm]
    · exact hs.fits _ ▸ mk.least

/-- a look-up of the key left the cache `f` -/
structure Looked (hash : Hasher) (c f : Cache) (key : Bytes) (l : List (ℕ × RemovalReason)) : Prop where
  shrinks : Shrinks hash c f
  moves : Moves c f none l
  own : ∀ id ∈ named l, c.entryKey id = key
  dead : ∀ τ, c.Fixed τ → ∀ p ∈ l, p.2 = .expired ∧ c.Dead τ p.1

theorem Looked.reasons (hl : Looked hash c f key l) (τ : ℕ) (hτ : c.Fixed τ) : ∀ p ∈ l, p.2 = c.reasonAt τ p.1 := by
  intro p hp
  obtain ⟨h1, h2⟩ := hl.dead τ hτ p hp
  rw [h1, reasonAt, if_pos h2]

theorem Looked.refl (h : Core hash c) (key : Bytes) : Looked hash c c key [] :=
  ⟨.refl h, (Still.refl c).moves, fun _ hid => absurd hid not_mem_nil, fun _ _ _ hp => absurd hp not_mem_nil⟩

theorem storeNow_still (c : Cache) (expireAtMs : ℕ) : Still c (c.storeNow expireAtMs).2 := by
  unfold storeNow
  split_ifs
  · exact cacheNow_still c
  · exact .refl c

/-- a look-up, possibly after a reading of the clock -/
theorem findLive_looked {c1 : Cache} (hs : Shrinks hash c c1) (s : Still c c1) (key : Bytes) {now : ℕ}
    (hnow : ∀ τ, c.Fixed τ → now = uint64Max ∨ now = τ) : ∃ l, Looked hash c (c1.findLive hash key now).1 key l := by
  obtain ⟨hf, _, l, m, hl⟩ := findLive_moves hs.core key now
  refine ⟨l, hs.trans hf, s.then_moves m, fun id hid => ?_, fun τ hτ p hp => ?_⟩
  · obtain ⟨p, hp, rfl⟩ := mem_map.1 hid
    rw [← s.keys]
    exact ((hl p).1 hp).2.2.1
  · obtain ⟨h1, _, _, h3⟩ := (hl p).1 hp
    rw [(hτ.later hs.later).decisionTime (hnow τ hτ), dead_congr hs.entry] at h3
    exact ⟨h1, h3⟩

theorem findLive_looked_max (h : Core hash c) (key : Bytes) :
    ∃ l, Looked hash c (c.findLive hash key uint64Max).1 key l :=
  findLive_looked (Shrinks.refl h) (Still.refl c) key fun _ _ => Or.inl rfl

/-- the look-up of a store -/
theorem storeFound_looked (h : Core hash c) (key : Bytes) (expireAtMs : ℕ) :
    (c.storeFound hash key expireAtMs).2 = KvHash.lookup (c.storeFound hash key expireAtMs).1.index key ∧
      ∃ l, Looked hash c (c.storeFound hash key expireAtMs).1 key l := by
  obtain ⟨s1, _, _, s4⟩ := storeNow_spec h expireAtMs
  exact ⟨(findLive_moves s1.core key _).2.1, findLive_looked s1 (storeNow_still c expireAtMs) key s4⟩

/-- what a store or a recharge removes, and what it puts in front -/
structure StoreMoves (c : Cache) (r : Cache × CacheSetResult) (key : Bytes) (xs : List ℕ) (removals : List (ℕ × RemovalReason)) :
    Prop where
  stored : r.2 = .ok → ∃ id kept gone, Moves c r.1 (some id) removals ∧ Room c r.1 key xs id kept gone
  failed : r.2 ≠ .ok → Moves c r.1 none removals

/-- room made for an entry after the look-up of its key -/
theorem Looked.makes (hl : Looked hash c f key l) (h : Core hash c)
    (hx : c.LruOrder xs) (ht : f.Target id key) (hkey : r.1.entryKey id = key) (hok : r.2 = .ok)
    (mk : Makes hash f r.1 reread id now object d (xs.filter (· ∈ f.ids)) kept removals) :
    StoreMoves c r key xs (l ++ removals) ∧
      ∀ τ, c.Fixed τ → f.Decides reread now τ → ∀ p ∈ l ++ removals, p.2 = c.reasonAt τ p.1 := by
  have hcore := hl.shrinks.core
  -- what is left apart from the entry of the key is what has another key
  have hown : ∀ b ∈ c.ids, (b ∈ f.ids ∧ b ≠ id) ↔ c.entryKey b ≠ key := by
    intro b hb
    rw [← hl.moves.keys b (h.fresh b hb)]
    refine ⟨fun hbf => ht.others hcore hbf.1 hbf.2, fun hk => ?_⟩
    have hbf : b ∈ f.ids := (hl.moves.mem h b).2 (Or.inr ⟨hb, fun hc => hk ((hl.moves.keys b (h.fresh b hb)).trans (hl.own b hc))⟩)
    refine ⟨hbf, ?_⟩
    rintro rfl
    rcases ht with ⟨_, hsame⟩ | ⟨hnext, _⟩
    · exact hk hsame
    · exact absurd (hcore.fresh b hbf) (by omega)
  have hin : id ∈ f.ids ∨ f.nextEntry ≤ id := ht.imp And.left fun hnew => hnew.1.ge
  obtain ⟨h1, h2⟩ := mk.room h hx hl.moves hl.shrinks hin hown hkey
  refine ⟨⟨fun _ => ⟨id, kept, _, h1, h2⟩, fun hc => absurd hok hc⟩, fun τ hτ hd p hp => ?_⟩
  rcases mem_append.1 hp with hp | hp
  · exact hl.reasons τ hτ p hp
  · exact (mk.judged τ hd p hp).trans (reasonAt_congr hl.shrinks.entry τ p.1)

/-- **What `cache_store_object` removes.** -/
theorem cacheStoreObject_moves (h : Core hash c) (hw : c.Within) (hx : c.LruOrder xs) (alloc : Alloc) (key : Bytes)
    (object : KvObject) (expireAtMs : ℕ) (preserve : Bool) :
    ∃ removals, StoreMoves c (c.cacheStoreObject hash alloc key object expireAtMs preserve) key xs removals ∧
      ∀ τ, c.Fixed τ → ∀ p ∈ removals, p.2 = c.reasonAt τ p.1 := by
  obtain ⟨hlook, l, hl⟩ := storeFound_looked h key expireAtMs
  obtain ⟨_, _, _, s4⟩ := storeNow_spec h expireAtMs
  have hmakes := cacheStoreObject_makes h hw alloc key object expireAtMs preserve rfl
  generalize c.cacheStoreObject hash alloc key object expireAtMs preserve = r at hmakes
  rcases hmakes with ⟨_, rfl⟩ | ⟨_, hno, hstill, _⟩ | ⟨_, hok, id, o, d, st⟩
  · exact ⟨[], ⟨by simp, fun _ => (storeNow_still c expireAtMs).moves⟩,
      by simp⟩
  · exact ⟨l, ⟨fun hc => absurd (hno.symm.trans hc) (by simp), fun _ => hl.moves.then_still hstill⟩, hl.reasons⟩
  · obtain ⟨kept, removals, mk⟩ := st.makes _ (hl.shrinks.order xs hx)
    obtain ⟨h1, h2⟩ := hl.makes h hx (st.target hl.shrinks.core hlook) st.key hok mk
    -- the rest of the call decides at the time at which the clock stands
    exact ⟨_, h1, fun τ hτ => h2 τ hτ ⟨fun i => hτ.later hl.shrinks.later i, s4 τ hτ⟩⟩

/-- **What `cache_recharge_ref` removes.** -/
theorem cacheRechargeRef_moves (h : Core hash c) (hx : c.LruOrder xs) (hid : id ∈ c.ids) :
    ∃ removals, StoreMoves c (c.cacheRechargeRef (some id)) (c.entryKey id) xs removals ∧
      ∀ p ∈ removals, p.2 = c.reasonAt (c.rechargeNow id) p.1 := by
  rcases cacheRechargeRef_makes h hid hx with ⟨hno, hstill, _⟩ | ⟨⟨hok, _⟩, kept, removals, mk⟩
  · exact ⟨[], ⟨fun hc => absurd hno (by simp [hc]), fun _ => hstill.moves⟩, by simp⟩
  · have hall : xs.filter (· ∈ c.ids) = xs := filter_eq_self.2 fun b hb => by simpa using (hx.mem b).1 hb
    rw [← hall] at mk
    have hfront := mk.moves.keys id (h.fresh id hid)
    obtain ⟨h1, _⟩ := (Looked.refl h (c.entryKey id)).makes h hx (Or.inl ⟨hid, rfl⟩) hfront hok mk
    exact ⟨removals, h1, mk.judged _ rfl⟩

/-! ## Capacity -/

/-- the cache after some sequence of calls from an empty one -/
def Reachable (hash : Hasher) (c : Cache) : Prop :=
  ∃ maxKeys maxMemory nowMs calls, c = run hash (cacheCreate maxKeys maxMemory nowMs) calls

theorem Reachable.advances (hc : Reachable hash c) : Core hash c ∧ c.Within := by
  obtain ⟨maxKeys, maxMemory, nowMs, calls, rfl⟩ := hc
  have h := run_advances calls (core_create hash maxKeys maxMemory nowMs) (within_create maxKeys maxMemory nowMs)
  exact ⟨h.core, h.within⟩

/-- **Capacity.** In every reachable cache, with its allocations succeeding, `cache_store_object` answers
`CACHE_SET_CAPACITY` exactly when the entry is too big by itself, and then nothing but the clock has moved; otherwise the
object is stored, so no eviction loop of a store ever runs out of candidates. -/
theorem store_capacity (hc : Reachable hash c) (alloc : Alloc) (key : Bytes) (object : KvObject) (expireAtMs : ℕ)
    (preserve : Bool) (halloc : StoreAllocates hash alloc c key expireAtMs) :
    ((c.cacheStoreObject hash alloc key object expireAtMs preserve).2 = .capacity ↔ TooBig c key.length object) ∧
      (TooBig c key.length object →
        { (c.cacheStoreObject hash alloc key object expireAtMs preserve).1 with nowMs := c.nowMs } = c) ∧
      (¬ TooBig c key.length object →
        (c.cacheStoreObject hash alloc key object expireAtMs preserve).2 = .ok ∧
          ∃ t, (∀ τ, c.Fixed τ → t = τ) ∧
            (c.cacheStoreObject hash alloc key object expireAtMs preserve).1.keyspace key =
              some (object.view, if preserve then keptDeadline t (c.keyspace key) expireAtMs else expireAtMs)) := by
  obtain ⟨h, hw⟩ := hc.advances
  have hmakes := cacheStoreObject_makes h hw alloc key object expireAtMs preserve rfl
  obtain ⟨t, gone, ht, he⟩ := cacheStoreObject_effect h hw alloc key object expireAtMs preserve
  generalize c.cacheStoreObject hash alloc key object expireAtMs preserve = r at hmakes he
  rcases hmakes with ⟨hbig, rfl⟩ | ⟨_, _, _, _, hno⟩ | ⟨hbig, hok, _⟩
  · refine ⟨iff_of_true rfl hbig, fun _ => ?_, fun hc => absurd hbig hc⟩
    unfold storeNow
    split_ifs <;> rfl
  · exact absurd halloc hno
  · refine ⟨⟨fun hc => absurd (hok.symm.trans hc) (by simp), fun hc => absurd hc hbig⟩, fun hc => absurd hc hbig, fun _ => ⟨hok, t, ht, ?_⟩⟩
    rw [he.stored hok, Function.update_self]

/-- one entry of 140 bytes under a limit of 200 -/
def fullCache : Cache :=
  run (fun _ => 0) (cacheCreate 0 200 fun _ => 0) [.storeObject ⟨true, true, ⟨true, true⟩⟩ [1] ⟨.string [7] 1, 42⟩ 5 false]

/-- another entry of that size evicts it, and a value of two hundred bytes is refused -/
theorem store_capacity_evicting :
    (fullCache.cacheStoreObject (fun _ => 0) ⟨true, true, ⟨true, true⟩⟩ [2] ⟨.string [8] 1, 42⟩ 5 false).2 = .ok ∧
      (fullCache.cacheStoreObject (fun _ => 0) ⟨true, true, ⟨true, true⟩⟩ [2] ⟨.string [8] 1, 42⟩ 5 false).1.evicted = [[1]] ∧
      (fullCache.cacheStoreObject (fun _ => 0) ⟨true, true, ⟨true, true⟩⟩ [2] ⟨.string (List.replicate 200 7) 200, 241⟩ 5 false).2 =
        .capacity :=
  ⟨((store_capacity ⟨0, 200, _, _, rfl⟩ _ _ _ _ _ (by decide +kernel)).2.2 (by decide +kernel)).1, by decide +kernel,
    (store_capacity ⟨0, 200, _, _, rfl⟩ _ _ _ _ _ (by decide +kernel)).1.2 (by decide +kernel)⟩

/-! ## Calls that make room, and calls that read -/

/-- the key a call makes room for, with what it returns -/
def storeCall (hash : Hasher) (c : Cache) : Call → Option (Bytes × (Cache × CacheSetResult))
  | .storeObject alloc key object d preserve => some (key, c.cacheStoreObject hash alloc key object d preserve)
  | .setExpireAt ok alloc key value d => some (key, c.cacheSetExpireAt hash ok alloc key value d)
  | .set ok alloc key value ttl => some (key, c.cacheSet hash ok alloc key value ttl)
  | .rechargeObject key => some (key, c.cacheRechargeObject hash key)
  | .rechargeRef entry => if entry ∈ c.ids then some (c.entryKey entry, c.cacheRechargeRef (some entry)) else none
  | _ => none

/-- the key a call reads, and whether it is a hit -/
def readCall (hash : Hasher) (c : Cache) : Call → Option (Bytes × Bool)
  | .get key => some (key, (c.cacheGetObject hash key true).2.isSome)
  | .getObject key record => some (key, (c.cacheGetObject hash key record).2.isSome)
  | .getObjectRef key record => some (key, (c.cacheGetObjectRef hash key record).2.isSome)
  | .getHashObjectRef key record => some (key, (c.cacheGetHashObjectRef hash key record).2.isSome)
  | _ => none

/-- the key of a successful store or recharge -/
def stored (hash : Hasher) (c : Cache) (call : Call) : Option Bytes :=
  (storeCall hash c call).bind fun s => if s.2.2 = .ok then some s.1 else none

/-- the key of a successful read -/
def hit (hash : Hasher) (c : Cache) (call : Call) : Option Bytes :=
  (readCall hash c call).bind fun r => if r.2 then some r.1 else none

def used (hash : Hasher) (c : Cache) (call : Call) : Option Bytes := (stored hash c call).or (hit hash c call)

/-! ## What a call does -/

/-- what a call did: the key in front, and the reasons of the removals when the clock stands still -/
def Acts (c c' : Cache) (front : Option Bytes) (reason : ℕ → ℕ → RemovalReason) : Prop :=
  ∃ id removals, Moves c c' id removals ∧ id.map c'.entryKey = front ∧ ∀ τ, c.Fixed τ → ∀ p ∈ removals, p.2 = reason τ p.1

/-- a call that makes no room removes entries whose deadline has passed, and the one it is asked to remove -/
def quietReason (c : Cache) (τ id : ℕ) : RemovalReason := if c.Dead τ id then .expired else .normal

theorem Still.acts (s : Still c c') (reason : ℕ → ℕ → RemovalReason) : Acts c c' none reason :=
  ⟨none, [], s.moves, rfl, by simp⟩

theorem Looked.quiet {f : Cache} {l : List (ℕ × RemovalReason)} (hl : Looked hash c f key l) (τ : ℕ)
    (hτ : c.Fixed τ) : ∀ p ∈ l, p.2 = c.quietReason τ p.1 := by
  intro p hp
  obtain ⟨h1, h2⟩ := hl.dead τ hτ p hp
  rw [h1, quietReason, if_pos h2]

/-- a look-up after which everything stays in its place -/
theorem Looked.acts {f : Cache} {l : List (ℕ × RemovalReason)} (hl : Looked hash c f key l)
    (s : Still f c') : Acts c c' none (quietReason c) :=
  ⟨none, l, hl.moves.then_still s, rfl, hl.quiet⟩

theorem Acts.after_still {front : Option Bytes} (ha : Acts c' c'' front (quietReason c')) (s : Still c c')
    (hs : Shrinks hash c c') : Acts c c'' front (quietReason c) := by
  obtain ⟨id, l, m, hfront, hl⟩ := ha
  refine ⟨id, l, s.then_moves m, hfront, fun τ hτ p hp => ?_⟩
  rw [hl τ (hτ.later hs.later) p hp]
  exact if_congr (dead_congr hs.entry τ p.1) rfl rfl

/-! ## Reads -/

section

variable (h : Core hash c)
include h

/-- a look-up that is counted and moves what it finds to the front -/
theorem countRead_moves {found : Cache × Option ℕ} {l : List (ℕ × RemovalReason)}
    (hcore : Core hash found.1) (m : Moves c found.1 none l) (hf : found.2 = KvHash.lookup found.1.index key) (record : Bool)
    {r : Cache × Option ℕ}
    (hr : r = match found.2 with
      | none => (found.1.recordRead false record, none)
      | some id => ((found.1.recordRead true record).lruTouch id, some id)) :
    Moves c r.1 r.2 l ∧ r.2.map r.1.entryKey = if r.2.isSome then some key else none := by
  cases hid : found.2 with
  | none =>
    rw [hid] at hr
    rw [hr]
    exact ⟨m.then_still (recordRead_still _ _ _), rfl⟩
  | some id =>
    rw [hid] at hr hf
    obtain ⟨hmem, hkey⟩ := hcore.of_lookup hf.symm
    have hstill := recordRead_still found.1 true record
    have htouch := hstill.then_moves (lruTouch_moves _ ((hstill.ids id).2 hmem) (hstill.next.symm ▸ hcore.fresh id hmem))
    have hall := m.before htouch h (fun b hb => by cases hb; exact Or.inl hmem)
    rw [append_nil] at hall
    rw [hr]
    refine ⟨hall, ?_⟩
    rw [Option.map_some, htouch.keys id (hcore.fresh id hmem), hkey]
    rfl

theorem cacheGetObjectRef_moves (key : Bytes) (record : Bool) :
    Acts c (c.cacheGetObjectRef hash key record).1
      (if (c.cacheGetObjectRef hash key record).2.isSome then some key else none) (quietReason c) := by
  obtain ⟨l, hl⟩ := findLive_looked_max h key
  obtain ⟨m, hfront⟩ := countRead_moves h hl.shrinks.core hl.moves (findLive_spec h key uint64Max).2.2.1 record
    (r := c.cacheGetObjectRef hash key record) rfl
  exact ⟨_, l, m, hfront, hl.quiet⟩

/-- the look-up of Hash reads -/
theorem findLiveHash_looked (hw : c.Within) (key : Bytes) :
    Core hash (c.findLiveHash hash key).1 ∧ ∃ l, Moves c (c.findLiveHash hash key).1 none l ∧
      ∀ τ, c.Fixed τ → ∀ p ∈ l, p.2 = c.quietReason τ p.1 := by
  refine ⟨(findLiveHash_effect h hw key).1.advances.core, ?_⟩
  unfold findLiveHash
  cases hhot : (if c.hashHotKey = key then c.hashHotEntry else none) with
  | some id =>
    have hentry : c.hashHotEntry = some id := by
      split_ifs at hhot
      exact hhot
    obtain ⟨hid, _⟩ := h.hot id hentry
    simp only
    split_ifs with h1 h2
    · exact ⟨[], (Still.refl c).moves, by simp⟩
    · exact ⟨[], (cacheNow_still c).moves, by simp⟩
    · refine ⟨[(id, .expired)], (cacheNow_still c).then_moves (entryRemove_moves h.cacheNow hid .expired), fun τ hτ p hp => ?_⟩
      rw [mem_singleton.1 hp, quietReason, if_pos]
      refine ⟨h1, ?_⟩
      rw [← hτ 0]
      exact not_lt.1 h2
  | none =>
    obtain ⟨l, hl⟩ := findLive_looked_max h key
    refine ⟨l, hl.moves.then_still ?_, hl.quiet⟩
    exact ⟨rfl, rfl, fun _ => Iff.rfl, fun _ => rfl, rfl, ⟨rfl, rfl⟩, rfl⟩

theorem cacheGetHashObjectRef_moves (hw : c.Within) (key : Bytes) (record : Bool) :
    Acts c (c.cacheGetHashObjectRef hash key record).1
      (if (c.cacheGetHashObjectRef hash key record).2.isSome then some key else none) (quietReason c) := by
  obtain ⟨hcore, l, m, hl⟩ := findLiveHash_looked h hw key
  obtain ⟨m', hfront⟩ := countRead_moves h hcore m (findLiveHash_effect h hw key).2 record
    (r := c.cacheGetHashObjectRef hash key record) rfl
  exact ⟨_, l, m', hfront, hl⟩

/-- a read -/
theorem readCall_acts (hw : c.Within) {found : Bool} (hr : readCall hash c call = some (key, found)) :
    Acts c (step hash c call) (if found then some key else none) (quietReason c) := by
  have hobject : ∀ record, (c.cacheGetObject hash key record).2.isSome = (c.cacheGetObjectRef hash key record).2.isSome := by
    intro record
    rw [cacheGetObject, Option.isSome_map]
  cases call <;> simp only [readCall, Option.some.injEq, Prod.mk.injEq, reduceCtorEq] at hr
  case get k =>
    obtain ⟨rfl, rfl⟩ := hr
    rw [hobject]
    exact cacheGetObjectRef_moves h k true
  case getObject k record =>
    obtain ⟨rfl, rfl⟩ := hr
    rw [hobject]
    exact cacheGetObjectRef_moves h k record
  case getObjectRef k record =>
    obtain ⟨rfl, rfl⟩ := hr
    exact cacheGetObjectRef_moves h k record
  case getHashObjectRef k record =>
    obtain ⟨rfl, rfl⟩ := hr
    exact cacheGetHashObjectRef_moves h hw k record

/-! ## Calls that neither store nor read -/

theorem cacheDelete_acts (key : Bytes) :
    Acts c (c.cacheDelete hash key).1 none (quietReason c) := by
  obtain ⟨l, hl⟩ := findLive_looked_max h key
  obtain ⟨hs, hks, hf, _⟩ := findLive_spec h key uint64Max
  unfold cacheDelete
  simp only
  generalize c.findLive hash key uint64Max = found at *
  cases hr : found.2 with
  | none => exact hl.acts (Still.refl _)
  | some id =>
    rw [hr] at hf
    obtain ⟨hid, hkey⟩ := hs.core.of_lookup hf.symm
    have hm := hl.moves.before (entryRemove_moves hs.core hid .normal) h fun b hb => by cases hb
    refine ⟨none, _, hm, rfl, fun τ hτ p hp => ?_⟩
    rcases mem_append.1 hp with hp | hp
    · exact hl.quiet τ hτ p hp
    · -- a live entry is removed because it was asked for
      rw [mem_singleton.1 hp, quietReason, if_neg]
      have hstored := keyspace_entryKey hs.core hid
      rw [hkey, hks, hτ.decisionTime (Or.inl rfl)] at hstored
      rw [← dead_congr hs.entry]
      exact (reap_some hstored).2

theorem cacheExpireAt_acts (heapOk : Bool) (key : Bytes) (d : ℕ) :
    Acts c (c.cacheExpireAt hash heapOk key d).1 none (quietReason c) := by
  unfold cacheExpireAt
  by_cases hd : d = 0
  · rw [if_pos hd]
    exact cacheDelete_acts h key
  rw [if_neg hd]
  obtain ⟨l, hl⟩ := findLive_looked (shrinks_cacheNow h) (cacheNow_still c) key (fun τ hτ => Or.inr (hτ 0))
  simp only
  generalize hfound : c.cacheNow.2.findLive hash key c.cacheNow.1 = found
  rw [show (c.nowMs 0) = c.cacheNow.1 from rfl, hfound] at hl
  cases hr : found.2 with
  | none => exact hl.acts (Still.refl _)
  | some id =>
    simp only
    split_ifs
    · cases hres : heapReserve heapOk found.1 (found.1.heap.count + 1) with
      | none => exact hl.acts (Still.refl _)
      | some c2 =>
        obtain ⟨k, rfl, _, _⟩ := heapReserve_spec hres
        exact hl.acts ((reserve_still _ k).trans ((writeExpire_still _ id d).trans (heap_still _ _)))
    · exact hl.acts ((writeExpire_still _ id d).trans (heap_still _ _))

theorem cachePersist_acts (key : Bytes) :
    Acts c (c.cachePersist hash key).1 none (quietReason c) := by
  obtain ⟨l, hl⟩ := findLive_looked_max h key
  unfold cachePersist
  simp only
  generalize c.findLive hash key uint64Max = found at *
  cases found.2 with
  | none => exact hl.acts (Still.refl _)
  | some id =>
    simp only
    split_ifs
    · exact hl.acts (Still.refl _)
    · exact hl.acts ((heap_still _ _).trans (writeExpire_still _ id 0))

theorem cacheTtlMs_acts (key : Bytes) : Acts c (c.cacheTtlMs hash key).1 none (quietReason c) := by
  obtain ⟨l, hl⟩ := findLive_looked (shrinks_cacheNow h) (cacheNow_still c) key (fun τ hτ => Or.inr (hτ 0))
  have hsame : (c.cacheTtlMs hash key).1 = (c.cacheNow.2.findLive hash key c.cacheNow.1).1 := by
    unfold cacheTtlMs
    simp only
    cases (c.cacheNow.2.findLive hash key c.cacheNow.1).2 with
    | none => rfl
    | some id =>
      simp only
      split_ifs <;> rfl
  rw [hsame]
  exact hl.acts (Still.refl _)

theorem cacheMaintain_acts (expireBudget rehashBudget : ℕ) :
    Acts c (c.cacheMaintain expireBudget rehashBudget).1 none (quietReason c) := by
  obtain ⟨l, m, _, _, _, hl⟩ := cacheMaintain_moves h expireBudget rehashBudget
  refine ⟨none, l, m, rfl, fun τ hτ p hp => ?_⟩
  obtain ⟨h1, h2, _⟩ := hl p hp
  rw [hτ 0] at h2
  rw [h1, quietReason]
  exact (if_pos h2).symm

/-- a call that neither stores nor reads -/
theorem otherCall_acts (hs : storeCall hash c call = none)
    (hr : readCall hash c call = none) : Acts c (step hash c call) none (quietReason c) := by
  cases call <;> simp only [storeCall, readCall, reduceCtorEq] at hs hr
  case mutate entry object =>
    rw [step]
    split_ifs
    · exact (setEntry_still c entry { c.entry entry with object := object } rfl).acts _
    · exact (Still.refl c).acts _
  case rechargeRef entry =>
    rw [step]
    split_ifs at hs ⊢
    exact (Still.refl c).acts _
  case delete key => exact cacheDelete_acts h key
  case expireAt heapOk key d => exact cacheExpireAt_acts h heapOk key d
  case expire heapOk key ttl =>
    simp only [step, cacheExpire]
    split_ifs
    · exact cacheDelete_acts h key
    · exact (cacheNow_still c).acts _
    · exact (cacheExpireAt_acts h.cacheNow heapOk key _).after_still (cacheNow_still c) (shrinks_cacheNow h)
  case persist key => exact cachePersist_acts h key
  case ttlMs key => exact cacheTtlMs_acts h key
  case maintain expireBudget rehashBudget => exact cacheMaintain_acts h expireBudget rehashBudget

end

/-! ## Stores and recharges -/

/-- the entry a call recharges -/
def recharged (c : Cache) : Call → Option ℕ
  | .rechargeObject key => KvHash.lookup c.index key
  | .rechargeRef entry => if entry ∈ c.ids then some entry else none
  | _ => none

/-- a recharge of an entry without a deadline reads no clock and judges its candidates at time 0 -/
def Blind (c : Cache) (call : Call) : Prop := ∃ id ∈ c.recharged call, c.expireAt id = 0

instance (c : Cache) (call : Call) : Decidable (c.Blind call) := inferInstanceAs (Decidable (∃ id ∈ c.recharged call, c.expireAt id = 0))

/-- the time at which a call made at time `τ` judges the entries it removes to make room -/
def judgedAt (c : Cache) (call : Call) (τ : ℕ) : ℕ := if c.Blind call then 0 else τ

theorem judgedAt_clocked (c : Cache) (hc : c.recharged call = none) (τ : ℕ) : c.judgedAt call τ = τ := by
  rw [judgedAt, if_neg]
  rintro ⟨id, hid, _⟩
  rw [hc] at hid
  cases hid

theorem StoreMoves.still (s : Still c r.1) (hno : r.2 ≠ .ok) (key : Bytes) (xs : List ℕ) :
    StoreMoves c r key xs [] :=
  ⟨fun hok => absurd hok hno, fun _ => s.moves⟩

/-- a store after a reading of the clock -/
theorem StoreMoves.after_still {removals : List (ℕ × RemovalReason)}
    (hm : StoreMoves c' r key xs removals) (s : Still c c') (hs : Shrinks hash c c') : StoreMoves c r key xs removals := by
  refine ⟨fun hok => ?_, fun hno => s.then_moves (hm.failed hno)⟩
  obtain ⟨id, kept, gone, m, hroom⟩ := hm.stored hok
  refine ⟨id, kept, gone, s.then_moves m, hroom.front, ?_, hroom.order, ?_⟩
  · rw [← hroom.split]
    refine filter_congr fun b _ => ?_
    rw [s.keys]
  · exact hs.fits _ ▸ hroom.least

theorem cacheSetExpireAt_moves (h : Core hash c) (hw : c.Within) (hx : c.LruOrder xs) (ok : Bool) (alloc : Alloc)
    (key value : Bytes) (d : ℕ) :
    ∃ removals, StoreMoves c (c.cacheSetExpireAt hash ok alloc key value d) key xs removals ∧
      ∀ τ, c.Fixed τ → ∀ p ∈ removals, p.2 = c.reasonAt τ p.1 := by
  unfold cacheSetExpireAt
  cases kvObjectCreateString ok value with
  | none => exact ⟨[], StoreMoves.still (Still.refl c) (by simp) key xs, by simp⟩
  | some object => exact cacheStoreObject_moves h hw hx alloc key object d false

theorem cacheSet_moves (h : Core hash c) (hw : c.Within) (hx : c.LruOrder xs) (ok : Bool) (alloc : Alloc)
    (key value : Bytes) (ttl : ℕ) :
    ∃ removals, StoreMoves c (c.cacheSet hash ok alloc key value ttl) key xs removals ∧
      ∀ τ, c.Fixed τ → ∀ p ∈ removals, p.2 = c.reasonAt τ p.1 := by
  have hstart : Still c (if ttl = 0 then (0, c) else c.cacheNow).2 ∧
      Shrinks hash c (if ttl = 0 then (0, c) else c.cacheNow).2 := by
    split_ifs
    · exact ⟨.refl c, .refl h⟩
    · exact ⟨cacheNow_still c, shrinks_cacheNow h⟩
  unfold cacheSet
  simp only
  generalize (if ttl = 0 then (0, c) else c.cacheNow) = start at hstart
  obtain ⟨s, hs⟩ := hstart
  split_ifs
  · exact ⟨[], StoreMoves.still s (by simp) key xs, by simp⟩
  all_goals
    obtain ⟨removals, hm, hj⟩ := cacheSetExpireAt_moves hs.core (hs.within hw) (hx.congr s.enabled s.lru s.ids) ok alloc key value _
    refine ⟨removals, hm.after_still s hs, fun τ hτ p hp => ?_⟩
    rw [hj τ (hτ.later hs.later) p hp, reasonAt_congr hs.entry]

/-- the time at which a recharge judges, when the clock stands still -/
theorem Fixed.rechargeNow {τ : ℕ} (hτ : c.Fixed τ) (id : ℕ) : c.rechargeNow id = if c.expireAt id = 0 then 0 else τ := by
  unfold Cache.rechargeNow
  rw [hτ 0]
  split_ifs <;> simp_all

/-- what the look-up of a key removes is the entry of the key -/
theorem Looked.lookup {f : Cache} {l : List (ℕ × RemovalReason)} (hl : Looked hash c f key l)
    (h : Core hash c) {p : ℕ × RemovalReason} (hp : p ∈ l) : KvHash.lookup c.index key = some p.1 := by
  rw [← hl.own p.1 (mem_map_of_mem hp)]
  exact h.lookup_entryKey (hl.moves.removed p.1 (mem_map_of_mem hp)).1

theorem cacheRechargeObject_moves (h : Core hash c) (hx : c.LruOrder xs) (key : Bytes) :
    ∃ removals, StoreMoves c (c.cacheRechargeObject hash key) key xs removals ∧
      ∀ τ, c.Fixed τ → ∀ p ∈ removals, p.2 = c.reasonAt (c.judgedAt (.rechargeObject key) τ) p.1 := by
  obtain ⟨l, hl⟩ := findLive_looked_max h key
  obtain ⟨hs, hks, hf, _⟩ := findLive_spec h key uint64Max
  unfold cacheRechargeObject
  simp only
  generalize c.findLive hash key uint64Max = found at *
  cases hr : found.2 with
  | none =>
    refine ⟨l, ⟨fun hok => absurd hok (by simp [cacheRechargeRef]), fun _ => hl.moves⟩, fun τ hτ p hp => ?_⟩
    obtain ⟨h1, h2⟩ := hl.dead τ hτ p hp
    -- the entry of the key had a deadline, so the recharge is not blind
    have hnot : ¬ c.Blind (.rechargeObject key) := by
      rintro ⟨id, hid, hz⟩
      have hsame : id = p.1 := Option.some.inj (hid.symm.trans (hl.lookup h hp))
      exact h2.1 (hsame ▸ hz)
    rw [judgedAt, if_neg hnot, h1, reasonAt, if_pos h2]
  | some id =>
    rw [hr] at hf
    obtain ⟨hid, hkey⟩ := hs.core.of_lookup hf.symm
    have hidc := hs.ids id hid
    have hkeyc : c.entryKey id = key := (hl.moves.keys id (h.fresh id hidc)).symm.trans hkey
    have hlook : KvHash.lookup c.index key = some id := hkeyc ▸ h.lookup_entryKey hidc
    -- the look-up removed nothing
    have hnil : l = [] := by
      refine eq_nil_iff_forall_not_mem.2 fun p hp => ?_
      have hsame : id = p.1 := Option.some.inj (hlook.symm.trans (hl.lookup h hp))
      exact hl.moves.not_removed h (Or.inl hid) (hsame ▸ mem_map_of_mem hp)
    have hexpire : found.1.expireAt id = c.expireAt id := by unfold expireAt; rw [hs.entry]
    have htime : ∀ τ, c.Fixed τ → found.1.rechargeNow id = c.judgedAt (.rechargeObject key) τ := by
      intro τ hτ
      have hblind : c.Blind (.rechargeObject key) ↔ c.expireAt id = 0 := by
        constructor
        · rintro ⟨b, hb, hz⟩
          change KvHash.lookup c.index key = some b at hb
          rw [hlook] at hb
          cases hb
          exact hz
        · exact fun hz => ⟨id, hlook, hz⟩
      rw [(hτ.later hs.later).rechargeNow, hexpire, judgedAt]
      exact (if_congr hblind rfl rfl).symm
    rcases cacheRechargeRef_makes hs.core hid (hs.order xs hx) with ⟨hno, hstill, _⟩ | ⟨⟨hok, _⟩, kept, removals, mk⟩
    · exact ⟨l, ⟨fun hc => absurd hno (by simp [hc]), fun _ => hl.moves.then_still hstill⟩, fun _ _ p hp => by rw [hnil] at hp; cases hp⟩
    · have hfront := (mk.moves.keys id (hs.core.fresh id hid)).trans hkey
      obtain ⟨hm, _⟩ := hl.makes h hx (Or.inl ⟨hid, hkey⟩) hfront hok mk
      refine ⟨_, hm, fun τ hτ p hp => ?_⟩
      rw [hnil, nil_append] at hp
      rw [mk.judged _ rfl p hp, reasonAt_congr hs.entry, htime τ hτ]

/-- **A store or a recharge** makes room for its key. -/
theorem storeCall_moves (h : Core hash c) (hw : c.Within) (hx : c.LruOrder xs) (hs : storeCall hash c call = some (key, r)) :
    step hash c call = r.1 ∧ ∃ removals, StoreMoves c r key xs removals ∧
      ∀ τ, c.Fixed τ → ∀ p ∈ removals, p.2 = c.reasonAt (c.judgedAt call τ) p.1 := by
  have hclocked : c.recharged call = none →
      (∃ removals, StoreMoves c r key xs removals ∧ ∀ τ, c.Fixed τ → ∀ p ∈ removals, p.2 = c.reasonAt τ p.1) →
      ∃ removals, StoreMoves c r key xs removals ∧ ∀ τ, c.Fixed τ → ∀ p ∈ removals, p.2 = c.reasonAt (c.judgedAt call τ) p.1 := by
    intro hc hm
    simpa only [judgedAt_clocked c hc] using hm
  cases call <;> simp only [storeCall, Option.some.injEq, Prod.mk.injEq, reduceCtorEq] at hs
  case storeObject alloc k object d preserve =>
    obtain ⟨rfl, rfl⟩ := hs
    exact ⟨rfl, hclocked rfl (cacheStoreObject_moves h hw hx alloc k object d preserve)⟩
  case setExpireAt ok alloc k value d =>
    obtain ⟨rfl, rfl⟩ := hs
    exact ⟨rfl, hclocked rfl (cacheSetExpireAt_moves h hw hx ok alloc k value d)⟩
  case set ok alloc k value ttl =>
    obtain ⟨rfl, rfl⟩ := hs
    exact ⟨rfl, hclocked rfl (cacheSet_moves h hw hx ok alloc k value ttl)⟩
  case rechargeObject k =>
    obtain ⟨rfl, rfl⟩ := hs
    exact ⟨rfl, cacheRechargeObject_moves h hx k⟩
  case rechargeRef entry =>
    split_ifs at hs with hid
    simp only [Option.some.injEq, Prod.mk.injEq] at hs
    obtain ⟨rfl, rfl⟩ := hs
    obtain ⟨removals, hm, hj⟩ := cacheRechargeRef_moves h hx hid
    refine ⟨by rw [step, if_pos hid], removals, hm, fun τ hτ p hp => ?_⟩
    rw [hj p hp, hτ.rechargeNow, judgedAt]
    congr 1
    exact if_congr (by simp [Blind, recharged, hid]) rfl rfl

end StoreSystem.Cache
