/-
The upkeep of a cache without limits: `cache_maintain` removes entries whose deadline has passed, and nobody notices.

A cache is seen as its slots: each entry with its key, its object and its deadline. What a call means is a plan over the slots
(`plan`), and every call that has the memory it needs carries its plan out (`step_carried`). A plan sees no slot that is dead
at its time (`Plan.Carried.agree`), so a call answers alike on caches that agree on what is alive (`advance_agree`), whatever
dead entries each of them still holds; upkeep removes dead entries only. So upkeep can be inserted anywhere in a history
(`maintain_exact_unnoticed`).
-/
import StoreSystem.Cache.HotEntry

namespace StoreSystem.Cache

open List Function

variable {hash : Hasher} {c c' d d' : Cache} {t : ℕ}

/-! ## Slots -/

/-- an entry as the calls see it -/
structure Slot where
  key : Bytes
  object : KvObject
  deadline : ℕ

/-- the deadline of a slot has passed at time `t` -/
def Slot.Dead (t : ℕ) (s : Slot) : Prop := s.deadline ≠ 0 ∧ s.deadline ≤ t

instance (t : ℕ) (s : Slot) : Decidable (s.Dead t) := inferInstanceAs (Decidable (_ ∧ _))

theorem Slot.Dead.mono {s : Slot} {t' : ℕ} (hd : s.Dead t) (h : t ≤ t') : s.Dead t' := ⟨hd.1, hd.2.trans h⟩

def slot (c : Cache) (id : ℕ) : Slot := ⟨c.entryKey id, (c.entry id).object, c.expireAt id⟩

/-- the entries of a cache by number, and the number of the next one -/
structure View where
  next : ℕ
  slots : ℕ → Option Slot

def slots (c : Cache) (id : ℕ) : Option Slot := if id ∈ c.ids then some (c.slot id) else none

def view (c : Cache) : View := ⟨c.nextEntry, c.slots⟩

variable {id dl : ℕ} {object : KvObject} {clock : ℕ → ℕ}

theorem slots_mem (hid : id ∈ c.ids) : c.slots id = some (c.slot id) := if_pos hid

theorem slots_some {s : Slot} (h : c.slots id = some s) : id ∈ c.ids ∧ s = c.slot id := by
  unfold slots at h
  split_ifs at h with hid
  exact ⟨hid, (Option.some.inj h).symm⟩

theorem slots_congr (hids : ∀ b, b ∈ c'.ids ↔ b ∈ c.ids) (he : c'.entry = c.entry) : c'.slots = c.slots := by
  funext b
  unfold slots slot entryKey expireAt
  rw [he]
  exact if_congr (hids b) rfl rfl

theorem slots_updates (h : Core hash c) (hu : Updates hash c c' id object dl)
    (hid : id ∈ c.ids) : c'.slots = update c.slots id (some ⟨c.entryKey id, object, dl⟩) := by
  have hkey : ∀ b ∈ c.ids, c'.entryKey b = c.entryKey b := by
    intro b hb
    have hl := h.lookup_entryKey hb
    rw [← hu.index] at hl
    exact (hu.core.of_lookup hl).2
  funext b
  rw [update_apply]
  by_cases hb : b = id
  · subst hb
    rw [if_pos rfl, slots_mem (hu.ids ▸ hid), slot, hkey b hid, hu.object, hu.deadline]
  · rw [if_neg hb]
    unfold slots
    rw [hu.ids]
    split_ifs with hm
    · unfold slot expireAt entryKey
      rw [hu.others b hb]
    · rfl

/-- removals leave the other slots -/
theorem Moves.slots {l : List (ℕ × RemovalReason)} (m : Moves c c' none l) (h : Core hash c) (he : c'.entry = c.entry) (b : ℕ) :
    c'.slots b = if b ∈ named l then none else c.slots b := by
  unfold Cache.slots slot expireAt entryKey
  rw [he]
  by_cases hb : b ∈ named l
  · rw [if_pos hb, if_neg fun hc => ?_]
    rcases (m.mem h b).1 hc with hc | ⟨_, hc⟩
    · cases hc
    · exact hc hb
  · rw [if_neg hb]
    refine if_congr ?_ rfl rfl
    rw [m.mem h b]
    simp [hb]

/-- an entry is found under a key exactly when its slot has the key -/
theorem lookup_slots (h : Core hash c) (key : Bytes) (id : ℕ) :
    KvHash.lookup c.index key = some id ↔ ∃ s, c.slots id = some s ∧ s.key = key := by
  constructor
  · intro hl
    obtain ⟨hid, hkey⟩ := h.of_lookup hl
    exact ⟨_, slots_mem hid, hkey⟩
  · rintro ⟨s, hs, rfl⟩
    obtain ⟨hid, rfl⟩ := slots_some hs
    exact h.lookup_entryKey hid

/-! ## Look-up -/

theorem findLive_slots (h : Core hash c) (key : Bytes) (now : ℕ) (id : ℕ) : (c.findLive hash key now).1.slots id =
      (c.slots id).filter fun s => ¬ (s.key = key ∧ s.Dead (c.decisionTime now)) := by
  obtain ⟨hs, _, l, m, hl⟩ := findLive_moves h key now
  have hmem : id ∈ named l ↔ id ∈ c.ids ∧ c.entryKey id = key ∧ c.Dead (c.decisionTime now) id := by
    constructor
    · intro hid
      obtain ⟨p, hp, rfl⟩ := mem_map.1 hid
      exact ((hl p).1 hp).2
    · exact fun hid => mem_map.2 ⟨(id, .expired), (hl _).2 ⟨rfl, hid⟩, rfl⟩
  rw [m.slots h hs.entry]
  by_cases hid : id ∈ c.ids
  · rw [slots_mem hid]
    by_cases hgone : c.entryKey id = key ∧ c.Dead (c.decisionTime now) id
    · rw [if_pos (hmem.2 ⟨hid, hgone⟩), Option.filter_some_neg]
      exact decide_eq_false (not_not_intro hgone)
    · rw [if_neg fun hc => hgone (hmem.1 hc).2, Option.filter_some_pos]
      exact decide_eq_true hgone
  · rw [if_neg fun hc => hid (hmem.1 hc).1, slots, if_neg hid]
    rfl

/-! ## What the calls mean -/

namespace View

/-- what is left of the slots at time `t` -/
def alive (t : ℕ) (v : View) : View := ⟨v.next, fun id => (v.slots id).filter fun s => ¬ s.Dead t⟩

/-- the slots after a look-up of a key at time `τ` -/
def reap (key : Bytes) (τ : ℕ) (v : View) : View := ⟨v.next, fun id => (v.slots id).filter fun s => ¬ (s.key = key ∧ s.Dead τ)⟩

/-- what a look-up of a key returns -/
def Finds (v : View) (key : Bytes) (found : Option (ℕ × Slot)) : Prop :=
  ∀ id s, found = some (id, s) ↔ v.slots id = some s ∧ s.key = key

/-- the slots after a write to the object of an entry, which keeps its type -/
def write (v : View) (id : ℕ) (object : KvObject) : View :=
  match v.slots id with
  | some s => if kvObjectType object = kvObjectType s.object then
      ⟨v.next, update v.slots id (some { s with object := object })⟩ else v
  | none => v

end View

/-- what a call does to the slots after its look-up -/
inductive Act
  | keep
  | put (id : ℕ) (s : Slot)
  | drop (id : ℕ)
  | add (s : Slot)

def Act.apply (v : View) : Act → View
  | .keep => v
  | .put id s => ⟨v.next, update v.slots id (some s)⟩
  | .drop id => ⟨v.next, update v.slots id none⟩
  | .add s => ⟨v.next + 1, update v.slots v.next (some s)⟩

/-- what the calls of the cache return -/
inductive Answer
  | stored (result : CacheSetResult)
  | value (value : Option Bytes)
  | object (object : Option KvObject)
  | entry (entry : Option (ℕ × KvObject))
  | deleted (result : ℤ)
  | expired (result : ℤ)
  | persisted (result : ℤ)
  | ttl (result : ℤ)

/-- the two return values for a failed allocation -/
def Answer.outOfMemory : Answer → Bool
  | .stored .error => true
  | .expired (-1) => true
  | _ => false

/-- the return value of a call, where the call reports on the content of the cache -/
def answer (hash : Hasher) (c : Cache) : Call → Option Answer
  | .storeObject alloc key object d preserve => some (.stored (c.cacheStoreObject hash alloc key object d preserve).2)
  | .setExpireAt ok alloc key value d => some (.stored (c.cacheSetExpireAt hash ok alloc key value d).2)
  | .set ok alloc key value ttl => some (.stored (c.cacheSet hash ok alloc key value ttl).2)
  | .get key => some (.value (c.cacheGet hash key).2)
  | .getObject key record => some (.object (c.cacheGetObject hash key record).2)
  | .getObjectRef key record =>
    let r := c.cacheGetObjectRef hash key record
    some (.entry (r.2.map fun id => (id, (r.1.entry id).object)))
  | .getHashObjectRef key record =>
    let r := c.cacheGetHashObjectRef hash key record
    some (.entry (r.2.map fun id => (id, (r.1.entry id).object)))
  | .delete key => some (.deleted (c.cacheDelete hash key).2)
  | .expireAt heapOk key d => some (.expired (c.cacheExpireAt hash heapOk key d).2)
  | .expire heapOk key ttl => some (.expired (c.cacheExpire hash heapOk key ttl).2)
  | .persist key => some (.persisted (c.cachePersist hash key).2)
  | .ttlMs key => some (.ttl (c.cacheTtlMs hash key).2)
  | .mutate _ _ => none
  | .rechargeObject _ => none
  | .rechargeRef _ => none
  | .maintain _ _ => none

/-- what a call means: it answers at once, or looks a key up at a time and acts on what it finds, or writes to an object
through a pointer to its entry -/
inductive Plan
  | done (answer : Option Answer)
  | write (id : ℕ) (object : KvObject)
  | look (key : Bytes) (time : ℕ) (acts : Option (ℕ × Slot) → Act × Option Answer)

/-- the time a look-up decides at when it is called with `now` and the clock reads `clock` -/
def lookTime (clock : ℕ → ℕ) (now : ℕ) : ℕ := if now = uint64Max then clock 0 else now

def later (clock : ℕ → ℕ) (i : ℕ) : ℕ := clock (i + 1)

def planStore (clock : ℕ → ℕ) (key : Bytes) (object : KvObject) (d : ℕ) (preserve : Bool) : Plan :=
  if entryMemoryCharge key.length object = sizeMax then .done (some (.stored .capacity))
  else
    .look key (if d ≠ 0 then lookTime (later clock) (clock 0) else clock 0) fun
      | none => (.add ⟨key, object, d⟩, some (.stored .ok))
      | some (id, s) =>
        match written s.object object with
        | none => (.keep, some (.stored .error))
        | some o => (.put id ⟨s.key, o, if preserve then s.deadline else d⟩, some (.stored .ok))

def planSetExpireAt (clock : ℕ → ℕ) (ok : Bool) (key value : Bytes) (d : ℕ) : Plan :=
  match kvObjectCreateString ok value with
  | none => .done (some (.stored .error))
  | some object => planStore clock key object d false

def planDelete (clock : ℕ → ℕ) (key : Bytes) (result : ℤ → Answer) : Plan :=
  .look key (clock 0) fun
    | none => (.keep, some (result 0))
    | some (id, _) => (.drop id, some (result 1))

def planExpireAt (clock : ℕ → ℕ) (key : Bytes) (d : ℕ) : Plan :=
  if d = 0 then planDelete clock key .expired
  else
    .look key (lookTime (later clock) (clock 0)) fun
      | none => (.keep, some (.expired 0))
      | some (id, s) => (.put id { s with deadline := d }, some (.expired 1))

/-- a read: it changes no slot -/
def planRead (clock : ℕ → ℕ) (key : Bytes) (reply : Option (ℕ × Slot) → Option Answer) : Plan :=
  .look key (clock 0) fun found => (.keep, reply found)

/-- **The meaning of the calls** of a cache without limits, as long as there is memory. It speaks of the slots only, and of
the slots that are dead at the time of the call not at all. -/
def plan (clock : ℕ → ℕ) : Call → Plan
  | .storeObject _ key object d preserve => planStore clock key object d preserve
  | .setExpireAt ok _ key value d => planSetExpireAt clock ok key value d
  | .set ok _ key value ttl =>
    if ttl = 0 then planSetExpireAt clock ok key value 0
    else if ttl > uint64Max - clock 0 then .done (some (.stored .range))
    else planSetExpireAt (later clock) ok key value (clock 0 + ttl)
  | .get key => planRead clock key fun found => some (.value (found.bind fun p => kvObjectStringValue p.2.object))
  | .getObject key _ => planRead clock key fun found => some (.object (found.map fun p => p.2.object))
  | .getObjectRef key _ => planRead clock key fun found => some (.entry (found.map fun p => (p.1, p.2.object)))
  | .getHashObjectRef key _ => planRead clock key fun found => some (.entry (found.map fun p => (p.1, p.2.object)))
  | .rechargeObject key => planRead clock key fun _ => none
  | .delete key => planDelete clock key .deleted
  | .expireAt _ key d => planExpireAt clock key d
  | .expire _ key ttl =>
    if ttl = 0 then planDelete clock key .expired
    else if ttl > uint64Max - clock 0 then .done (some (.expired (-2)))
    else planExpireAt (later clock) key (clock 0 + ttl)
  | .persist key =>
    .look key (clock 0) fun
      | none => (.keep, some (.persisted 0))
      | some (id, s) =>
        if s.deadline = 0 then (.keep, some (.persisted 0)) else (.put id { s with deadline := 0 }, some (.persisted 1))
  | .ttlMs key =>
    .look key (lookTime (later clock) (clock 0)) fun
      | none => (.keep, some (.ttl (-2)))
      | some (_, s) =>
        (.keep, some (.ttl (if s.deadline = 0 then -1
          else if s.deadline - clock 0 > int64Max then int64Max else (s.deadline - clock 0 : ℕ))))
  | .mutate entry object => .write entry object
  | .rechargeRef _ => .done none
  | .maintain _ _ => .done none

/-- the slots `v` become `v'` and the answer is given as the plan says for what the look-up finds -/
def Plan.Carried (v v' : View) (a : Option Answer) : Plan → Prop
  | .done a' => v' = v ∧ a = a'
  | .write id object => v' = v.write id object ∧ a = none
  | .look key time acts => ∃ found, (v.reap key time).Finds key found ∧ v' = (acts found).1.apply (v.reap key time) ∧
      a = (acts found).2

theorem findLive_view (h : Core hash c) (key : Bytes) (now : ℕ) :
    (c.findLive hash key now).1.view = c.view.reap key (c.decisionTime now) ∧
      (c.view.reap key (c.decisionTime now)).Finds key
        ((c.findLive hash key now).2.map fun id => (id, (c.findLive hash key now).1.slot id)) := by
  obtain ⟨hs, hf, _, m, _⟩ := findLive_moves h key now
  have hview : (c.findLive hash key now).1.view = c.view.reap key (c.decisionTime now) := by
    unfold view View.reap
    rw [m.next, funext (findLive_slots h key now)]
    simp
  refine ⟨hview, fun id s => ?_⟩
  rw [← hview, Option.map_eq_some_iff, hf]
  constructor
  · rintro ⟨b, hl, he⟩
    obtain ⟨rfl, rfl⟩ := Prod.mk.inj he
    obtain ⟨hb, hkey⟩ := hs.core.of_lookup hl
    exact ⟨slots_mem hb, hkey⟩
  · rintro ⟨hslot, hkey⟩
    obtain ⟨_, he⟩ := slots_some hslot
    exact ⟨id, (lookup_slots hs.core key id).2 ⟨s, hslot, hkey⟩, by rw [he]⟩

/-! ## The code means what is planned -/

/-- no limit is set -/
structure Unlimited (c : Cache) : Prop where
  keys : c.maxKeys = 0
  memory : c.maxMemory = 0

theorem Unlimited.congr (hu : c.Unlimited) (hl : c'.maxKeys = c.maxKeys ∧ c'.maxMemory = c.maxMemory) : c'.Unlimited :=
  ⟨hl.1.trans hu.keys, hl.2.trans hu.memory⟩

/-- what every reachable cache without limits is -/
structure Kept (hash : Hasher) (c : Cache) : Prop where
  core : Core hash c
  within : c.Within
  unlimited : c.Unlimited

theorem Kept.cacheNow (hk : Kept hash c) : Kept hash c.cacheNow.2 :=
  ⟨hk.core.cacheNow, { hk.within with }, { hk.unlimited with }⟩

variable {now : ℕ} {key : Bytes}

/-- **Room made** without limits changes one slot. -/
theorem Makes.view {reread : Bool} {xs kept : List ℕ} {removals : List (ℕ × RemovalReason)}
    (mk : Makes hash c c' reread id now object dl xs kept removals) (h : Core hash c) (hu : c.Unlimited) :
    c'.view = ⟨max c.nextEntry (id + 1), update c.slots id (some ⟨c'.entryKey id, object, dl⟩)⟩ := by
  obtain rfl := mk.spares hu.memory (Or.inl hu.keys)
  unfold Cache.view
  rw [View.mk.injEq]
  refine ⟨mk.moves.next, ?_⟩
  funext b
  rw [update_apply]
  by_cases hb : b = id
  · rw [if_pos hb, hb, slots_mem ((mk.moves.mem h id).2 (Or.inl rfl)), slot, mk.object, mk.deadline]
  · rw [if_neg hb]
    unfold slots slot expireAt entryKey
    rw [mk.others b hb]
    refine if_congr ?_ rfl rfl
    rw [mk.moves.mem h b]
    simp [named, Ne.symm hb]

/-- the slot of a live entry changes -/
theorem Makes.put {reread : Bool} {xs kept : List ℕ} {removals : List (ℕ × RemovalReason)}
    (mk : Makes hash c c' reread id now object dl xs kept removals) (h : Core hash c) (hu : c.Unlimited) (hid : id ∈ c.ids) :
    c'.view = (Act.put id ⟨c.entryKey id, object, dl⟩).apply c.view := by
  rw [mk.view h hu, mk.moves.keys id (h.fresh id hid), max_eq_left (h.fresh id hid)]
  rfl

theorem lruTouch_view (c : Cache) (id : ℕ) : (c.lruTouch id).view = c.view := by
  unfold lruTouch
  split_ifs <;> rfl

theorem lruTouch_slot (c : Cache) (id : ℕ) : (c.lruTouch id).slot = c.slot := by
  unfold lruTouch
  split_ifs <;> rfl

theorem recordRead_slot (c : Cache) (found record : Bool) : (c.recordRead found record).slot = c.slot := by
  unfold recordRead
  split_ifs <;> rfl

theorem recordRead_view (c : Cache) (found record : Bool) : (c.recordRead found record).view = c.view := by
  unfold recordRead
  split_ifs <;> rfl

theorem updates_view (h : Core hash c) (hu : Updates hash c c' id object dl)
    (hid : id ∈ c.ids) (hnext : c'.nextEntry = c.nextEntry) :
    c'.view = (Act.put id ⟨c.entryKey id, object, dl⟩).apply c.view := by
  unfold view
  rw [slots_updates h hu hid, hnext]
  rfl

theorem entryRemove_view (h : Core hash c) (hid : id ∈ c.ids) (reason : RemovalReason) :
    (c.entryRemove id reason).view = (Act.drop id).apply c.view := by
  unfold view
  have m := entryRemove_moves h hid reason
  have hslots : (c.entryRemove id reason).slots = update c.slots id none := by
    funext b
    rw [m.slots h (entryRemove_dropped h hid reason).1.entry, update_apply]
    simp [named]
  rw [hslots, m.next]
  simp [Act.apply]

/-- a look-up as the first part of a call -/
structure Found (hash : Hasher) (v : View) (key : Bytes) (time : ℕ) (f : Cache × Option ℕ) : Prop
    extends Kept hash f.1 where
  view : f.1.view = v.reap key time
  finds : (v.reap key time).Finds key (f.2.map fun id => (id, f.1.slot id))
  mem : ∀ id, f.2 = some id → id ∈ f.1.ids

theorem findLive_found (hk : Kept hash c) (key : Bytes) (now : ℕ) :
    Found hash c.view key (lookTime c.nowMs now) (c.findLive hash key now) := by
  obtain ⟨hs, _, hf, _⟩ := findLive_spec hk.core key now
  obtain ⟨hv, hfinds⟩ := findLive_view hk.core key now
  refine ⟨⟨hs.core, hs.within hk.within, hk.unlimited.congr hs.limits⟩, hv, hfinds, fun id hid => ?_⟩
  rw [hid] at hf
  exact (hs.core.of_lookup hf.symm).1

section Found

variable {v v' : View} {key : Bytes} {time : ℕ} {f : Cache × Option ℕ} {acts : Option (ℕ × Slot) → Act × Option Answer}
  {a : Option Answer}

/-- a call is carried out when the rest of it acts as planned on what was found -/
theorem Found.carried (hf : Found hash v key time f) (hv : v' = (acts (f.2.map fun id => (id, f.1.slot id))).1.apply f.1.view)
    (ha : a = (acts (f.2.map fun id => (id, f.1.slot id))).2) : (Plan.look key time acts).Carried v v' a :=
  ⟨_, hf.finds, hf.view ▸ hv, ha⟩

theorem Found.missed (hf : Found hash v key time f) (hr : f.2 = none) (hkeep : acts none = (.keep, a)) :
    (Plan.look key time acts).Carried v f.1.view a := by
  apply hf.carried
  · rw [hr, Option.map_none, hkeep]
    rfl
  · rw [hr, Option.map_none, hkeep]

theorem Found.hit (hf : Found hash v key time f) (hr : f.2 = some id)
    (hv : v' = (acts (some (id, f.1.slot id))).1.apply f.1.view) (ha : a = (acts (some (id, f.1.slot id))).2) :
    (Plan.look key time acts).Carried v v' a := by
  apply hf.carried
  · rwa [hr]
  · rwa [hr]

end Found

theorem lookTime_max (clock : ℕ → ℕ) : lookTime clock uint64Max = clock 0 := if_pos rfl

theorem findLive_found_max (hk : Kept hash c) (key : Bytes) :
    Found hash c.view key (c.nowMs 0) (c.findLive hash key uint64Max) :=
  lookTime_max c.nowMs ▸ findLive_found hk key uint64Max

theorem Alike.view (ha : Alike c c') : c'.view = c.view ∧ c'.slot = c.slot := by
  have hslots := slots_congr (fun b => ha.ids.mem_iff) ha.entry
  obtain ⟨index, entry, key, he⟩ := ha.rest
  refine ⟨?_, ?_⟩
  · unfold Cache.view
    rw [hslots, he]
  · rw [he]
    rfl

theorem findLiveHash_found (hk : Kept hash c) (key : Bytes) :
    Found hash c.view key (c.nowMs 0) (c.findLiveHash hash key) := by
  have hf := findLive_found_max hk key
  obtain ⟨he, ha⟩ := findLiveHash_alike hk.core key
  obtain ⟨hv, hslot⟩ := ha.view
  have hadv := (findLiveHash_effect hk.core hk.within key).1.advances
  refine ⟨⟨hadv.core, hadv.within, hk.unlimited.congr hadv.limits⟩, hv.trans hf.view, ?_, fun id hid => ?_⟩
  · rw [he, hslot]
    exact hf.finds
  · exact ha.ids.mem_iff.2 (hf.mem id (he ▸ hid))

theorem cacheDelete_carried (hk : Kept hash c) (key : Bytes) (result : ℤ → Answer) :
    (planDelete c.nowMs key result).Carried c.view (c.cacheDelete hash key).1.view
      (some (result (c.cacheDelete hash key).2)) := by
  have hf := findLive_found_max hk key
  unfold planDelete cacheDelete
  dsimp only
  generalize c.findLive hash key uint64Max = f at hf
  cases hr : f.2 with
  | none => exact hf.missed hr rfl
  | some id => exact hf.hit hr (entryRemove_view hf.core (hf.mem id hr) .normal) rfl

theorem cacheStoreObject_carried (hk : Kept hash c) (alloc : Alloc) (key : Bytes) (object : KvObject) (d : ℕ) (preserve : Bool)
    (hok : (c.cacheStoreObject hash alloc key object d preserve).2 ≠ .error) :
    (planStore c.nowMs key object d preserve).Carried c.view
      (c.cacheStoreObject hash alloc key object d preserve).1.view
      (some (.stored (c.cacheStoreObject hash alloc key object d preserve).2)) := by
  obtain ⟨s1, _, _, _⟩ := storeNow_spec hk.core d
  have hview : (c.storeNow d).2.view = c.view := by
    unfold storeNow
    split_ifs <;> rfl
  have hf : Found hash c.view key (if d ≠ 0 then lookTime (later c.nowMs) (c.nowMs 0) else c.nowMs 0)
      (c.storeFound hash key d) := by
    have htime : lookTime (c.storeNow d).2.nowMs (c.storeNow d).1 =
        if d ≠ 0 then lookTime (later c.nowMs) (c.nowMs 0) else c.nowMs 0 := by
      unfold storeNow
      split_ifs
      · rfl
      · exact lookTime_max c.nowMs
    have hlook := findLive_found ⟨s1.core, s1.within hk.within, hk.unlimited.congr s1.limits⟩ key (c.storeNow d).1
    rw [hview, htime] at hlook
    exact hlook
  have hbig : TooBig c key.length object ↔ entryMemoryCharge key.length object = sizeMax := by
    unfold TooBig
    simp [hk.unlimited.memory]
  have hmakes := cacheStoreObject_makes hk.core hk.within alloc key object d preserve rfl
  generalize c.cacheStoreObject hash alloc key object d preserve = r at hmakes hok
  unfold planStore
  rcases hmakes with ⟨hb, rfl⟩ | ⟨_, hno, _⟩ | ⟨hb, hr, id, o, dl, st⟩
  · rw [if_pos (hbig.1 hb)]
    exact ⟨hview, rfl⟩
  · exact absurd hno hok
  rw [if_neg fun hc => hb (hbig.2 hc), hr]
  obtain ⟨xs, hx⟩ := hf.core.lruOrder
  obtain ⟨kept, removals, mk⟩ := st.makes xs hx
  have hkey := st.key
  generalize c.storeFound hash key d = f at *
  rcases st.place with ⟨hl, hwritten, hd⟩ | ⟨hl, hid, ho, hd⟩
  · have hslot : written (f.1.slot id).object object = some o := hwritten
    refine hf.hit hl ?_ ?_
    · rw [mk.put hf.core hf.unlimited (hf.mem id hl), hd]
      simp only [hslot]
      rfl
    · simp only [hslot]
  · subst hid ho hd
    refine hf.carried ?_ ?_
    · rw [hl, mk.view hf.core hf.unlimited, hkey, max_eq_right (Nat.le_succ _)]
      rfl
    · rw [hl]
      rfl

theorem cacheSetExpireAt_carried (hk : Kept hash c) (ok : Bool) (alloc : Alloc)
    (key value : Bytes) (d : ℕ) (hok : (c.cacheSetExpireAt hash ok alloc key value d).2 ≠ .error) :
    (planSetExpireAt c.nowMs ok key value d).Carried c.view (c.cacheSetExpireAt hash ok alloc key value d).1.view
      (some (.stored (c.cacheSetExpireAt hash ok alloc key value d).2)) := by
  unfold cacheSetExpireAt at hok ⊢
  unfold planSetExpireAt
  cases hc : kvObjectCreateString ok value with
  | none =>
    rw [hc] at hok
    exact absurd rfl hok
  | some object =>
    rw [hc] at hok
    exact cacheStoreObject_carried hk alloc key object d false hok

theorem cacheExpireAt_carried (hk : Kept hash c) (heapOk : Bool) (key : Bytes) (d : ℕ)
    (hok : (c.cacheExpireAt hash heapOk key d).2 ≠ -1) :
    (planExpireAt c.nowMs key d).Carried c.view (c.cacheExpireAt hash heapOk key d).1.view
      (some (.expired (c.cacheExpireAt hash heapOk key d).2)) := by
  unfold cacheExpireAt at hok ⊢
  unfold planExpireAt
  by_cases hd : d = 0
  · rw [if_pos hd, if_pos hd]
    exact cacheDelete_carried hk key .expired
  rw [if_neg hd] at hok
  rw [if_neg hd, if_neg hd]
  dsimp only at hok ⊢
  have hf : Found hash c.view key (lookTime (later c.nowMs) (c.nowMs 0))
      (c.cacheNow.2.findLive hash key c.cacheNow.1) :=
    findLive_found hk.cacheNow key c.cacheNow.1
  generalize c.cacheNow.2.findLive hash key c.cacheNow.1 = f at hf hok
  cases hr : f.2 with
  | none => exact hf.missed hr rfl
  | some id =>
    simp only [hr] at hok ⊢
    have hid := hf.mem id hr
    by_cases hold : f.1.expireAt id = 0
    · rw [if_pos hold] at hok ⊢
      cases hres : heapReserve heapOk f.1 (f.1.heap.count + 1) with
      | none =>
        rw [hres] at hok
        exact absurd rfl hok
      | some c2 =>
        obtain ⟨k, rfl, hk1, hk2⟩ := heapReserve_spec hres
        have hup := addDeadline_updates (hf.core.reserve hk2) hid hold hd hk1
        have hv := updates_view (hf.core.reserve hk2) hup hid rfl
        exact hf.hit hr hv rfl
    · rw [if_neg hold]
      have hup := moveDeadline_updates hf.core hid hold hd
      exact hf.hit hr (updates_view hf.core hup hid rfl) rfl

/-- a read: the look-up, and what it found at the front -/
theorem read_carried {f : Cache × Option ℕ} {v : View} (hf : Found hash v key (clock 0) f) (record : Bool) {r : Cache × Option ℕ}
    (hr : r = match f.2 with
      | none => (f.1.recordRead false record, none)
      | some id => ((f.1.recordRead true record).lruTouch id, some id))
    {reply : Option (ℕ × Slot) → Option Answer} {a : Option Answer}
    (ha : a = reply (r.2.map fun id => (id, r.1.slot id))) : (planRead clock key reply).Carried v r.1.view a := by
  have hview : r.1.view = f.1.view ∧ r.2 = f.2 ∧ r.1.slot = f.1.slot := by
    rw [hr]
    cases f.2 with
    | none => exact ⟨recordRead_view _ _ _, rfl, recordRead_slot _ _ _⟩
    | some id =>
      exact ⟨(lruTouch_view _ _).trans (recordRead_view _ _ _), rfl, (lruTouch_slot _ _).trans (recordRead_slot _ _ _)⟩
  obtain ⟨h1, h2, h3⟩ := hview
  rw [h2, h3] at ha
  exact hf.carried h1 ha

/-- the calls that only serve the cache itself -/
def Call.upkeep : Call → Bool
  | .maintain _ _ => true
  | _ => false

theorem cacheRechargeRef_view (h : Core hash c) (hu : c.Unlimited) (hid : id ∈ c.ids) :
    (c.cacheRechargeRef (some id)).1.view = c.view := by
  obtain ⟨xs, hx⟩ := h.lruOrder
  rcases cacheRechargeRef_makes h hid hx with ⟨_, hstill, hs⟩ | ⟨_, kept, removals, mk⟩
  · unfold view
    rw [slots_congr hstill.ids hs.entry, hstill.next]
  · rw [mk.put h hu hid]
    change (⟨c.nextEntry, update c.slots id (some (c.slot id))⟩ : View) = c.view
    rw [← slots_mem hid, update_eq_self]
    rfl

theorem cacheRechargeObject_carried (hk : Kept hash c) (key : Bytes) :
    (planRead c.nowMs key fun _ => none).Carried c.view (c.cacheRechargeObject hash key).1.view none := by
  have hf := findLive_found_max hk key
  unfold cacheRechargeObject
  dsimp only
  generalize c.findLive hash key uint64Max = f at hf
  refine hf.carried ?_ rfl
  cases hr : f.2 with
  | none => rfl
  | some id => exact cacheRechargeRef_view hf.core hf.unlimited (hf.mem id hr)

theorem mutate_view (h : Core hash c) (id : ℕ) (object : KvObject) :
    (step hash c (.mutate id object)).view = c.view.write id object := by
  rw [step]
  by_cases hid : id ∈ c.ids
  · have hslot : c.view.slots id = some (c.slot id) := slots_mem hid
    unfold View.write
    simp only [hslot]
    by_cases ht : kvObjectType object = kvObjectType (c.slot id).object
    · rw [if_pos ⟨hid, ht⟩, if_pos ht]
      exact updates_view h (mutate_updates h hid ht).1 hid rfl
    · rw [if_neg fun hc => ht hc.2, if_neg ht]
  · have hslot : c.view.slots id = none := if_neg hid
    unfold View.write
    simp only [hslot]
    rw [if_neg fun hc => hid hc.1]

theorem cachePersist_carried (hk : Kept hash c) (key : Bytes) :
    (plan c.nowMs (.persist key)).Carried c.view (c.cachePersist hash key).1.view
      (some (.persisted (c.cachePersist hash key).2)) := by
  have hf := findLive_found_max hk key
  unfold cachePersist plan
  dsimp only
  generalize c.findLive hash key uint64Max = f at hf
  cases hr : f.2 with
  | none => exact hf.missed hr rfl
  | some id =>
    have hid := hf.mem id hr
    dsimp only
    by_cases hold : f.1.expireAt id = 0
    · rw [if_pos hold]
      exact hf.hit hr (by simp [slot, hold, Act.apply]) (by simp [slot, hold])
    · rw [if_neg hold]
      have hv := updates_view hf.core (clearDeadline_updates hf.core hid hold) hid rfl
      exact hf.hit hr (by rw [hv]; simp [slot, hold]) (by simp [slot, hold])

theorem cacheTtlMs_carried (hk : Kept hash c) (key : Bytes) :
    (plan c.nowMs (.ttlMs key)).Carried c.view (c.cacheTtlMs hash key).1.view
      (some (.ttl (c.cacheTtlMs hash key).2)) := by
  have hf : Found hash c.view key (lookTime (later c.nowMs) (c.nowMs 0))
      (c.cacheNow.2.findLive hash key c.cacheNow.1) :=
    findLive_found hk.cacheNow key c.cacheNow.1
  unfold cacheTtlMs plan
  dsimp only
  generalize c.cacheNow.2.findLive hash key c.cacheNow.1 = f at hf
  cases hr : f.2 with
  | none => exact hf.missed hr rfl
  | some id =>
    dsimp only
    refine hf.hit hr ?_ ?_
    · split_ifs <;> rfl
    · by_cases hold : f.1.expireAt id = 0
      · simp [slot, hold]
      · simp only [hold, slot, if_false]
        rfl

/-- **Every call** that has the memory it needs does what is planned. -/
theorem step_carried (hk : Kept hash c) {call : Call} (hcall : call.upkeep = false)
    (hok : ∀ a, answer hash c call = some a → a.outOfMemory = false) :
    (plan c.nowMs call).Carried c.view (step hash c call).view (answer hash c call) := by
  have hstored : ∀ r : CacheSetResult, answer hash c call = some (.stored r) → r ≠ .error := by
    intro r hr hc
    have := hok _ hr
    rw [hc] at this
    exact absurd this (by simp [Answer.outOfMemory])
  have hexpired : ∀ r : ℤ, answer hash c call = some (.expired r) → r ≠ -1 := by
    intro r hr hc
    have := hok _ hr
    rw [hc] at this
    exact absurd this (by simp [Answer.outOfMemory])
  cases call with
  | storeObject alloc key object d preserve => exact cacheStoreObject_carried hk alloc key object d preserve (hstored _ rfl)
  | setExpireAt ok alloc key value d => exact cacheSetExpireAt_carried hk ok alloc key value d (hstored _ rfl)
  | set ok alloc key value ttl =>
    have hne := hstored _ rfl
    unfold cacheSet at hne
    unfold plan step answer cacheSet
    dsimp only at hne ⊢
    by_cases hz : ttl = 0
    · simp only [hz, if_true, ne_eq, not_true_eq_false, false_and, if_false] at hne ⊢
      exact cacheSetExpireAt_carried hk ok alloc key value 0 hne
    · simp only [hz, if_false, ne_eq, not_false_eq_true, true_and] at hne ⊢
      change (if ttl > uint64Max - c.nowMs 0 then _ else _ : Cache × CacheSetResult).2 ≠ _ at hne
      change Plan.Carried _ (if ttl > uint64Max - c.nowMs 0 then _ else _ : Cache × CacheSetResult).1.view
        (some (.stored (if ttl > uint64Max - c.nowMs 0 then _ else _ : Cache × CacheSetResult).2)) _
      split_ifs at hne ⊢ with hrange
      · exact ⟨rfl, rfl⟩
      · exact cacheSetExpireAt_carried hk.cacheNow ok alloc key value _ hne
  | get key =>
    refine read_carried (findLive_found_max hk key) true (r := c.cacheGetObjectRef hash key true) rfl ?_
    simp only [answer, cacheGet, cacheGetObject, Option.bind_map, slot]
    rfl
  | getObject key record =>
    refine read_carried (findLive_found_max hk key) record (r := c.cacheGetObjectRef hash key record) rfl ?_
    simp only [answer, cacheGetObject, Option.map_map, slot]
    rfl
  | getObjectRef key record =>
    refine read_carried (findLive_found_max hk key) record (r := c.cacheGetObjectRef hash key record) rfl ?_
    simp only [answer, Option.map_map, slot]
    rfl
  | getHashObjectRef key record =>
    refine read_carried (findLiveHash_found hk key) record (r := c.cacheGetHashObjectRef hash key record) rfl ?_
    simp only [answer, Option.map_map, slot]
    rfl
  | mutate entry object => exact ⟨mutate_view hk.core entry object, rfl⟩
  | rechargeObject key => exact cacheRechargeObject_carried hk key
  | rechargeRef entry =>
    rw [step]
    split_ifs with hm
    · exact ⟨cacheRechargeRef_view hk.core hk.unlimited hm, rfl⟩
    · exact ⟨rfl, rfl⟩
  | delete key => exact cacheDelete_carried hk key .deleted
  | expireAt heapOk key d => exact cacheExpireAt_carried hk heapOk key d (hexpired _ rfl)
  | expire heapOk key ttl =>
    have hne := hexpired _ rfl
    unfold cacheExpire at hne
    unfold plan step answer cacheExpire
    dsimp only at hne ⊢
    by_cases hz : ttl = 0
    · rw [if_pos hz, if_pos hz]
      exact cacheDelete_carried hk key .expired
    · rw [if_neg hz] at hne
      rw [if_neg hz, if_neg hz]
      change (if ttl > uint64Max - c.nowMs 0 then _ else _ : Cache × ℤ).2 ≠ _ at hne
      change Plan.Carried _ (if ttl > uint64Max - c.nowMs 0 then _ else _ : Cache × ℤ).1.view
        (some (.expired (if ttl > uint64Max - c.nowMs 0 then _ else _ : Cache × ℤ).2)) _
      split_ifs at hne ⊢ with hrange
      · exact ⟨rfl, rfl⟩
      · exact cacheExpireAt_carried hk.cacheNow heapOk key _ hne
  | persist key => exact cachePersist_carried hk key
  | ttlMs key => exact cacheTtlMs_carried hk key
  | maintain b r => exact absurd hcall (by simp [Call.upkeep])

/-! ## Dead slots do not matter -/

theorem filter_filter_comm {α : Type} (o : Option α) (p q : α → Bool) : (o.filter p).filter q = (o.filter q).filter p := by
  cases o with
  | none => rfl
  | some a => cases hp : p a <;> cases hq : q a <;> simp [Option.filter, hp, hq]

namespace View

variable {v v' w w' : View}

/-- the later, the fewer -/
theorem alive_alive {t' : ℕ} (h : t ≤ t') (v : View) : (v.alive t).alive t' = v.alive t' := by
  unfold alive
  congr 1
  funext b
  dsimp only
  cases v.slots b with
  | none => rfl
  | some s =>
    by_cases hd : s.Dead t
    · simp [Option.filter, hd, hd.mono h]
    · simp [Option.filter, hd]

theorem alive_reap (v : View) (key : Bytes) (τ : ℕ) : (v.reap key τ).alive t = (v.alive t).reap key τ := by
  unfold alive reap
  simp only [filter_filter_comm]

theorem alive_update (v : View) (next id : ℕ) (o : Option Slot) :
    alive t ⟨next, update v.slots id o⟩ =
      ⟨next, update (v.alive t).slots id (o.filter fun s => ¬ s.Dead t)⟩ := by
  unfold alive
  congr 1
  funext b
  dsimp only
  rw [update_apply, update_apply]
  split_ifs <;> rfl

theorem alive_apply (a : Act) (h : v'.alive t = v.alive t) : (a.apply v').alive t = (a.apply v).alive t := by
  have hnext : v'.next = v.next := (View.mk.inj h).1
  cases a with
  | keep => exact h
  | put id s | drop id | add s => simp only [Act.apply, alive_update, h, hnext]

/-- the slots that are dead at `t` are not found after `t` -/
theorem Finds.alive {τ : ℕ} {found : Option (ℕ × Slot)} (ht : t ≤ τ) (hf : (v.reap key τ).Finds key found) :
    ((v.reap key τ).alive t).Finds key found := by
  intro id s
  rw [hf id s]
  constructor
  · rintro ⟨hs, hkey⟩
    refine ⟨?_, hkey⟩
    have hlive : ¬ s.Dead t := by
      intro hdead
      obtain ⟨_, hp⟩ := Option.filter_eq_some_iff.1 hs
      exact (of_decide_eq_true hp) ⟨hkey, hdead.mono ht⟩
    exact Option.filter_eq_some_iff.2 ⟨hs, decide_eq_true hlive⟩
  · rintro ⟨hs, hkey⟩
    exact ⟨(Option.filter_eq_some_iff.1 hs).1, hkey⟩

theorem Finds.unique {found found' : Option (ℕ × Slot)} (hf : v.Finds key found) (hf' : v.Finds key found') :
    found = found' := by
  apply Option.ext
  rintro ⟨id, s⟩
  exact (hf id s).trans (hf' id s).symm

/-- a write to a dead slot leaves it dead -/
theorem alive_write (v : View) (id : ℕ) (object : KvObject) :
    (v.write id object).alive t = ((v.alive t).write id object).alive t := by
  have hsame := alive_alive (le_refl t) v
  unfold write
  cases hs : v.slots id with
  | none =>
    have ha : (v.alive t).slots id = none := by simp [alive, hs]
    simp only [ha, hsame]
  | some s =>
    by_cases hd : s.Dead t
    · have ha : (v.alive t).slots id = none := by simp [alive, hs, Option.filter, hd]
      have hd' : ({ s with object := object } : Slot).Dead t := hd
      simp only [ha, hsame]
      split_ifs
      · rw [alive_update, Option.filter_some_neg (by simp [hd']), ← ha, update_eq_self]
        rfl
      · rfl
    · have ha : (v.alive t).slots id = some s := by simp [alive, hs, Option.filter, hd]
      simp only [ha]
      split_ifs
      · simp only [alive_update, hsame]
        rfl
      · exact hsame.symm

end View

/-- the look-up of a plan takes place after `t` -/
def Plan.After (t : ℕ) : Plan → Prop
  | .look _ time _ => t ≤ time
  | _ => True

/-- **A plan** sees the slots that are alive, and no others. -/
theorem Plan.Carried.agree {p : Plan} {v v' w w' : View} {a a' : Option Answer} (hp : p.Carried v w a) (hp' : p.Carried v' w' a')
    (ht : p.After t) (hv : v'.alive t = v.alive t) : a' = a ∧ w'.alive t = w.alive t := by
  cases p with
  | done answer =>
    obtain ⟨rfl, rfl⟩ := hp
    obtain ⟨rfl, rfl⟩ := hp'
    exact ⟨rfl, hv⟩
  | write id object =>
    obtain ⟨rfl, rfl⟩ := hp
    obtain ⟨rfl, rfl⟩ := hp'
    refine ⟨rfl, ?_⟩
    rw [View.alive_write v', hv, ← View.alive_write v]
  | look key time acts =>
    obtain ⟨found, hf, rfl, rfl⟩ := hp
    obtain ⟨found', hf', rfl, rfl⟩ := hp'
    have hreap : (v'.reap key time).alive t = (v.reap key time).alive t := by
      rw [View.alive_reap, View.alive_reap, hv]
    have hsame : found' = found := by
      have h1 := View.Finds.alive ht hf'
      rw [hreap] at h1
      exact h1.unique (View.Finds.alive ht hf)
    subst hsame
    exact ⟨rfl, View.alive_apply _ hreap⟩

theorem le_lookTime (hclock : ∀ i, t ≤ clock i) (hnow : t ≤ now) : t ≤ lookTime clock now := by
  unfold lookTime
  split_ifs
  · exact hclock 0
  · exact hnow

theorem plan_after (hclock : ∀ i, t ≤ clock i) (call : Call) : (plan clock call).After t := by
  have hlater : ∀ i, t ≤ later clock i := fun i => hclock (i + 1)
  have hstore : ∀ {clock : ℕ → ℕ}, (∀ i, t ≤ clock i) → ∀ key object d preserve, (planStore clock key object d preserve).After t := by
    intro clock hclock key object d preserve
    unfold planStore
    by_cases hbig : entryMemoryCharge key.length object = sizeMax
    · rw [if_pos hbig]
      trivial
    · rw [if_neg hbig]
      change t ≤ if d ≠ 0 then lookTime (later clock) (clock 0) else clock 0
      split_ifs
      · exact le_lookTime (fun i => hclock (i + 1)) (hclock 0)
      · exact hclock 0
  have hset : ∀ {clock : ℕ → ℕ}, (∀ i, t ≤ clock i) → ∀ ok key value d, (planSetExpireAt clock ok key value d).After t := by
    intro clock hclock ok key value d
    unfold planSetExpireAt
    cases kvObjectCreateString ok value with
    | none => trivial
    | some object => exact hstore hclock key object d false
  have hexpire : ∀ {clock : ℕ → ℕ}, (∀ i, t ≤ clock i) → ∀ key d, (planExpireAt clock key d).After t := by
    intro clock hclock key d
    unfold planExpireAt
    split_ifs
    · exact hclock 0
    · exact le_lookTime (fun i => hclock (i + 1)) (hclock 0)
  cases call with
  | storeObject alloc key object d preserve => exact hstore hclock key object d preserve
  | setExpireAt ok alloc key value d => exact hset hclock ok key value d
  | set ok alloc key value ttl =>
    simp only [plan]
    split_ifs
    · exact hset hclock ok key value 0
    · trivial
    · exact hset hlater ok key value _
  | expireAt heapOk key d => exact hexpire hclock key d
  | expire heapOk key ttl =>
    simp only [plan]
    split_ifs
    · exact hclock 0
    · trivial
    · exact hexpire hlater key _
  | ttlMs key => exact le_lookTime hlater (hclock 0)
  | mutate entry object => trivial
  | rechargeRef entry => trivial
  | maintain b r => trivial
  | _ => exact hclock 0

/-! ## Upkeep -/

/-- what is removed and what is left is what was there -/
theorem Moves.perm {l : List (ℕ × RemovalReason)} (m : Moves c c' none l) (h : Core hash c) (h' : Core hash c') :
    (named l ++ c'.ids).Perm c.ids := by
  have hdisjoint : (named l).Disjoint c'.ids := by
    intro b hb hc
    rcases (m.mem h b).1 hc with hc | ⟨_, hc⟩
    · cases hc
    · exact hc hb
  rw [perm_ext_iff_of_nodup (nodup_append'.2 ⟨m.nodup, h'.nodup, hdisjoint⟩) h.nodup]
  intro b
  rw [mem_append, m.mem h b]
  have := fun hb => (m.removed b hb).1
  simp only [reduceCtorEq, false_or]
  tauto

/-- what is alive stays -/
theorem cacheMaintain_alive (h : Core hash c) (expireBudget rehashBudget : ℕ) :
    (c.cacheMaintain expireBudget rehashBudget).1.view.alive (c.nowMs 0) = c.view.alive (c.nowMs 0) := by
  obtain ⟨l, m, hs, _, _, hdead⟩ := cacheMaintain_moves h expireBudget rehashBudget
  unfold View.alive view
  rw [View.mk.injEq]
  refine ⟨by simp [m.next], ?_⟩
  funext b
  dsimp only
  rw [m.slots h hs.entry]
  by_cases hb : b ∈ named l
  · obtain ⟨p, hp, rfl⟩ := mem_map.1 hb
    rw [if_pos hb, slots_mem (m.removed _ hb).1, Option.filter_some_neg]
    · rfl
    · exact decide_eq_false (not_not_intro (hdead p hp).2.1)
  · rw [if_neg hb]

/-! ## Histories -/

/-- a call and the readings of the clock while it runs -/
structure Moment where
  clock : ℕ → ℕ
  call : Call

def atClock (c : Cache) (clock : ℕ → ℕ) : Cache := { c with nowMs := clock }

def advance (hash : Hasher) (c : Cache) (m : Moment) : Cache := step hash (c.atClock m.clock) m.call

def history (hash : Hasher) (c : Cache) (moments : List Moment) : Cache := moments.foldl (advance hash) c

/-- what the calls of a history return -/
def answers (hash : Hasher) (c : Cache) : List Moment → List Answer
  | [] => []
  | m :: moments => (answer hash (c.atClock m.clock) m.call).toList ++ answers hash (advance hash c m) moments

/-- the clock does not go back from one call to a later one -/
def Forward (moments : List Moment) : Prop := moments.Pairwise fun m m' => ∀ i j, m.clock i ≤ m'.clock j

/-- the second history is the first with calls of `cache_maintain` inserted -/
inductive Inserts : List Moment → List Moment → Prop
  | nil : Inserts [] []
  | keep (m : Moment) {moments moments' : List Moment} : Inserts moments moments' → Inserts (m :: moments) (m :: moments')
  | add (clock : ℕ → ℕ) (expireBudget rehashBudget : ℕ) {moments moments' : List Moment} :
    Inserts moments moments' → Inserts moments (⟨clock, .maintain expireBudget rehashBudget⟩ :: moments')

theorem Kept.atClock (hk : Kept hash c) (clock : ℕ → ℕ) : Kept hash (c.atClock clock) :=
  ⟨{ hk.core with }, { hk.within with }, { hk.unlimited with }⟩

theorem Kept.advance (hk : Kept hash c) (m : Moment) : Kept hash (advance hash c m) := by
  have hclock := hk.atClock m.clock
  have hadv := step_advances hclock.core hclock.within m.call
  exact ⟨hadv.core, hadv.within, hclock.unlimited.congr hadv.limits⟩

theorem Kept.history (hk : Kept hash c) (moments : List Moment) : Kept hash (history hash c moments) := by
  induction moments generalizing c with
  | nil => exact hk
  | cons m moments ih => exact ih (hk.advance m)

theorem kept_create (hash : Hasher) (nowMs : ℕ → ℕ) : Kept hash (cacheCreate 0 0 nowMs) :=
  ⟨core_create hash 0 0 nowMs, within_create 0 0 nowMs, rfl, rfl⟩

/-- upkeep leaves what is alive when it runs -/
theorem maintain_alive (hk : Kept hash c) (clock : ℕ → ℕ) (expireBudget rehashBudget : ℕ) :
    (advance hash c ⟨clock, .maintain expireBudget rehashBudget⟩).view.alive (clock 0) = c.view.alive (clock 0) := by
  exact cacheMaintain_alive (hk.atClock clock).core expireBudget rehashBudget

/-- **A call at a time** answers alike on caches that agree on what is alive, and leaves such caches. -/
theorem advance_agree (hk : Kept hash c) (hk' : Kept hash c') {m : Moment} (hm : m.call.upkeep = false)
    (ht : ∀ i, t ≤ m.clock i) (hv : c'.view.alive t = c.view.alive t)
    (hok : ∀ a, answer hash (c.atClock m.clock) m.call = some a → a.outOfMemory = false)
    (hok' : ∀ a, answer hash (c'.atClock m.clock) m.call = some a → a.outOfMemory = false) :
    answer hash (c'.atClock m.clock) m.call = answer hash (c.atClock m.clock) m.call ∧
      (advance hash c' m).view.alive t = (advance hash c m).view.alive t := by
  exact (step_carried (hk.atClock m.clock) hm hok).agree (step_carried (hk'.atClock m.clock) hm hok') (plan_after ht m.call) hv

/-- two histories, one with upkeep inserted, from caches that agree on what is alive -/
theorem answers_agree {moments moments' : List Moment} (hi : Inserts moments moments') (hk : Kept hash c)
    (hk' : Kept hash c') (hf : Forward moments') (ht : ∀ m ∈ moments', ∀ i, t ≤ m.clock i)
    (hv : c'.view.alive t = c.view.alive t) (hok : ∀ a ∈ answers hash c moments, a.outOfMemory = false)
    (hok' : ∀ a ∈ answers hash c' moments', a.outOfMemory = false) :
    answers hash c' moments' = answers hash c moments := by
  induction hi generalizing c c' t with
  | nil => rfl
  | add clock expireBudget rehashBudget _ ih =>
    obtain ⟨hfirst, hrest⟩ := pairwise_cons.1 hf
    have htime := ht _ mem_cons_self 0
    refine ih hk (hk'.advance _) hrest (t := clock 0) (fun m hm i => hfirst m hm 0 i) ?_ hok hok'
    rw [maintain_alive hk', ← View.alive_alive htime, hv, View.alive_alive htime]
  | keep m _ ih =>
    obtain ⟨hfirst, hrest⟩ := pairwise_cons.1 hf
    have htime := ht _ mem_cons_self
    have hok1 := fun a ha => hok a (mem_append_right _ ha)
    have hok1' := fun a ha => hok' a (mem_append_right _ ha)
    cases hm : m.call.upkeep with
    | false =>
      obtain ⟨hanswer, hnext⟩ := advance_agree hk hk' hm htime hv
        (fun a ha => hok a (mem_append_left _ (by simp [ha])))
        (fun a ha => hok' a (mem_append_left _ (by simp [ha])))
      rw [answers, answers, hanswer,
        ih (hk.advance m) (hk'.advance m) hrest (fun m' hm' => ht m' (mem_cons_of_mem _ hm')) hnext hok1 hok1']
    | true =>
      obtain ⟨clock, call⟩ := m
      cases call <;> simp only [Call.upkeep, Bool.false_eq_true] at hm
      case maintain expireBudget rehashBudget =>
        refine ih (hk.advance _) (hk'.advance _) hrest (t := clock 0) (fun m' hm' i => hfirst m' hm' 0 i) ?_ hok1 hok1'
        rw [maintain_alive hk', maintain_alive hk, ← View.alive_alive (htime 0), hv, View.alive_alive (htime 0)]

/-- **Upkeep.** In every cache without limits that a history of calls can reach, `cache_maintain` with an expiry budget
removes exactly as many entries as the budget and the number of overdue entries allow; they are overdue, none that is left
has an earlier deadline, and what is left is unchanged. And upkeep with any budgets may be inserted anywhere in a history
whose clock does not go back: as long as no allocation fails, every call returns what it returned before. -/
theorem maintain_exact_unnoticed (hash : Hasher) (nowMs : ℕ → ℕ) :
    (∀ (moments : List Moment) (clock : ℕ → ℕ) (expireBudget rehashBudget : ℕ),
      let c := (history hash (cacheCreate 0 0 nowMs) moments).atClock clock
      let r := c.cacheMaintain expireBudget rehashBudget
      ∃ gone, (gone ++ r.1.ids).Perm c.ids ∧ r.1.entry = c.entry ∧ r.2 = gone.length ∧
        gone.length = min expireBudget (c.overdue (clock 0)).length ∧ (∀ id ∈ gone, id ∈ c.overdue (clock 0)) ∧
        ∀ id ∈ gone, ∀ b ∈ r.1.ids, c.expireAt b ≠ 0 → c.expireAt id ≤ c.expireAt b) ∧
    (∀ moments moments' : List Moment, Inserts moments moments' → Forward moments' →
      (∀ a ∈ answers hash (cacheCreate 0 0 nowMs) moments, a.outOfMemory = false) →
      (∀ a ∈ answers hash (cacheCreate 0 0 nowMs) moments', a.outOfMemory = false) →
      answers hash (cacheCreate 0 0 nowMs) moments' = answers hash (cacheCreate 0 0 nowMs) moments) := by
  have hk := kept_create hash nowMs
  refine ⟨fun moments clock expireBudget rehashBudget => ?_, fun moments moments' hi hf hok hok' => ?_⟩
  · have h := ((hk.history moments).atClock clock).core
    obtain ⟨l, m, hs, hcount, hlen, hl⟩ := cacheMaintain_moves h expireBudget rehashBudget
    have hlength : (named l).length = l.length := length_map _
    refine ⟨named l, m.perm h hs.core, hs.entry, hcount.trans hlength.symm, hlength.trans hlen, fun id hid => ?_, fun id hid => ?_⟩
    · obtain ⟨p, hp, rfl⟩ := mem_map.1 hid
      exact mem_filter.2 ⟨(m.removed _ hid).1, decide_eq_true (hl p hp).2.1⟩
    · obtain ⟨p, hp, rfl⟩ := mem_map.1 hid
      exact (hl p hp).2.2
  · exact answers_agree hi hk hk hf (t := 0) (fun m _ i => Nat.zero_le _) rfl hok hok'

/-- a String with a deadline, read before and after it, with upkeep between the deadline and the second read -/
theorem maintain_exact_unnoticed_string :
    let hash : Hasher := fun _ => 0
    let store : Moment := ⟨fun _ => 1, .setExpireAt true ⟨true, true, ⟨true, true⟩⟩ [107] [118] 5⟩
    let read : ℕ → Moment := fun t => ⟨fun _ => t, .get [107]⟩
    answers hash (cacheCreate 0 0 fun _ => 0) [store, read 4, ⟨fun _ => 6, .maintain 1 1⟩, read 6] =
      answers hash (cacheCreate 0 0 fun _ => 0) [store, read 4, read 6] := by
  intro hash store read
  apply (maintain_exact_unnoticed hash fun _ => 0).2
  · exact .keep _ (.keep _ (.add _ 1 1 (.keep _ .nil)))
  · unfold Forward
    simp [store, read]
  · have hall : (answers hash (cacheCreate 0 0 fun _ => 0) [store, read 4, read 6]).all (!·.outOfMemory) = true := by
      decide +kernel
    simpa using hall
  · have hall : (answers hash (cacheCreate 0 0 fun _ => 0)
        [store, read 4, ⟨fun _ => 6, .maintain 1 1⟩, read 6]).all (!·.outOfMemory) = true := by
      decide +kernel
    simpa using hall

end StoreSystem.Cache
