/-
What a request does to the log, whatever the allocations, the clock and the limits are (`execute_command` and
`kvstore_service_execute_with_barrier`).

- `OwnRecord`: the records a request can append for itself. `SET` and the deadlines are rewritten, a write to a collection is
  appended as it came.
- `Evolves`: what holds of the service after a part of a request: the cache keeps its invariant and reports some keys.
- `dispatch_appends`: a request either evicts nothing and appends nothing, or ends by appending its own record.
- `CapturesLast`: the outcomes of the appends and copies under which the mutation buffer holds the last record or nothing.
- `executeWithBarrier_commits`: then what a request commits is nothing, or the deletions of the evicted keys, its own record and,
  with MySQL, the marker; and only the own record is submitted.
-/
import StoreSystem.Service.Errors

namespace StoreSystem.Service

open List hiding set
open Cache (Advances Core Effect RechargeEffect StoreEffect reap setDeadline)

variable {hash : Hasher} {libc : Libc} {env : Env} {s s' : Service} {arguments : Record} {key : Bytes}

/-! ## Records -/

/-- the record a request appends for itself -/
inductive OwnRecord (arguments : Record) : Record → Prop
  | set (deadline : ℕ) (hc : findCommand (argument arguments 0) = .set) :
    OwnRecord arguments (setRecord (argument arguments 1) (argument arguments 2) deadline)
  | del (hc : isWriteCommand (findCommand (argument arguments 0)) = true) : OwnRecord arguments (delRecord (argument arguments 1))
  | pexpireat (deadline : ℕ) (hc : isWriteCommand (findCommand (argument arguments 0)) = true) :
    OwnRecord arguments (pexpireatRecord (argument arguments 1) deadline)
  | persist (hc : isWriteCommand (findCommand (argument arguments 0)) = true) :
    OwnRecord arguments (persistRecord (argument arguments 1))
  | original (h : findCommand (argument arguments 0) = .hset ∨ findCommand (argument arguments 0) = .hdel ∨
      findCommand (argument arguments 0) = .zadd ∨ findCommand (argument arguments 0) = .zrem) : OwnRecord arguments arguments

variable {W : Type} {record : Record} {gone : List Bytes} {id : ℕ} {object : KvObject} {r : Cache × CacheSetResult}
  {found : Cache × Option ℕ}

theorem OwnRecord.isWrite (h : OwnRecord arguments record) :
    isWriteCommand (findCommand (argument arguments 0)) = true := by
  cases h with
  | set deadline hc => rw [hc]; rfl
  | del hc | pexpireat deadline hc | persist hc => exact hc
  | original hc => rcases hc with hc | hc | hc | hc <;> rw [hc] <;> rfl

/-- a part of a request leads from `s` to `s'` and reports the keys `gone` -/
structure Evolves (hash : Hasher) (s s' : Service) (gone : List Bytes) : Prop where
  advances : Advances hash s.cache s'.cache
  frame : Frame s s'
  evicted : s'.cache.evicted = s.cache.evicted ++ gone

theorem Evolves.refl (h : Core hash s.cache) (hw : s.cache.Within) : Evolves hash s s [] :=
  ⟨.refl h hw, .refl s, (append_nil _).symm⟩

theorem Evolves.trans {s'' : Service} (h : Evolves hash s s' []) (h' : Evolves hash s' s'' gone) :
    Evolves hash s s'' gone := by
  exact ⟨h.advances.trans h'.advances, h.frame.trans h'.frame, by rw [h'.evicted, h.evicted, append_nil]⟩

/-- nothing is logged when no key is reported -/
theorem Evolves.evictionRecords (h : Evolves hash s s' []) (takes : ℕ → Bool) : s.evictionRecords takes s'.cache = [] := by
  rw [Service.evictionRecords, h.evicted, drop_left]
  exact ite_self _

theorem evictionRecords_deletions (takes : ℕ → Bool) (s : Service) (after : Cache) :
    ∃ keys, s.evictionRecords takes after = List.map delRecord keys := by
  unfold evictionRecords
  split_ifs
  · exact ⟨_, rfl⟩
  · exact ⟨[], rfl⟩

/-- a call that stores nothing -/
theorem Evolves.effect {c : Cache} {ks : Bytes → Option (Obj × ℕ)} (he : Effect hash s.cache c ks) :
    Evolves hash s (s.withCache c) [] :=
  ⟨he.advances, Frame.cache s c, he.log.trans (append_nil _).symm⟩

/-- an entry takes another object of its type -/
theorem Evolves.put (h : Evolves hash s s' []) (hid : id ∈ s'.cache.ids)
    (ht : kvObjectType object = kvObjectType (s'.cache.entry id).object) : Evolves hash s (s'.putObject id object) [] := by
  obtain ⟨hu, hused⟩ := Cache.mutate_updates h.advances.core hid ht
  exact h.trans ⟨hu.advances hused h.advances.within, Frame.cache _ _, hu.log.trans (append_nil _).symm⟩

/-- a store or a recharge: the keys it reports, none if it fails -/
theorem Evolves.reports (h : Evolves hash s s' [])
    (ha : Advances hash s'.cache r.1) (hlogged : Cache.Logged s'.cache r.1 gone) (hspared : r.2 ≠ .ok → gone = []) :
    ∃ reported, Evolves hash s (s'.withCache r.1) reported ∧ (r.2 ≠ .ok → reported = []) := by
  obtain ⟨reported, hlog, hsub, _⟩ := hlogged
  refine ⟨reported, h.trans ⟨ha, Frame.cache _ _, hlog⟩, fun hno => ?_⟩
  rw [hspared hno] at hsub
  exact sublist_nil.1 hsub

theorem Evolves.store (h : Evolves hash s s' []) {d : ℕ} (he : StoreEffect hash s'.cache r key object d gone) :
    ∃ reported, Evolves hash s (s'.withCache r.1) reported ∧ (r.2 ≠ .ok → reported = []) :=
  h.reports he.advances he.logged he.spared

theorem Evolves.recharge (h : Evolves hash s s' []) (hid : id ∈ s'.cache.ids) :
    ∃ reported, Evolves hash s (s'.withCache (s'.cache.cacheRechargeRef (some id)).1) reported ∧
      ((s'.cache.cacheRechargeRef (some id)).2 ≠ .ok → reported = []) := by
  obtain ⟨gone, he⟩ := Cache.cacheRechargeRef_effect h.advances.core h.advances.within hid
  exact h.reports he.advances he.logged he.spared

/-! ## Commands -/

/-- how a command ends: it has evicted nothing and appends nothing, or it appends its own record -/
inductive Appends (hash : Hasher) (env : Env) (s : Service) (arguments : Record) : Executed → Prop
  | quiet {s' : Service} {reply : Reply} {outOfMemory : Bool} (h : Evolves hash s s' []) :
    Appends hash env s arguments ⟨s', reply, [], outOfMemory⟩
  | logs {s' : Service} {record : Record} {reply : Reply} {gone : List Bytes}
    (h : Evolves hash s s' gone) (hown : OwnRecord arguments record) :
    Appends hash env s arguments (s'.appendRecord env record reply)

variable {write : ℕ → KvObject → W → KvObject × Option ZSet.SetResult}

/-- the loop of the writes keeps the type -/
theorem writeAll_type (hwrite : ∀ index object w, kvObjectType (write index object w).1 = kvObjectType object) (ws : List W) :
    ∀ index object, kvObjectType (writeAll write index object ws).1 = kvObjectType object := by
  induction ws with
  | nil => exact fun _ _ => rfl
  | cons w ws ih =>
    intro index object
    have hone := hwrite index object w
    have hrest := ih (index + 1) (write index object w).1
    rw [writeAll]
    split
    · rename_i object' heq
      rw [heq] at hone
      exact hone
    · rename_i object' result heq
      rw [heq] at hone hrest
      split
      · rename_i object'' heq'
        rw [heq'] at hrest
        exact hrest.trans hone
      · rename_i object'' added changed heq'
        rw [heq'] at hrest
        exact hrest.trans hone

/-- and so does that of the removals -/
theorem removeAll_type {remove : KvObject → Bytes → KvObject × Option Bool}
    (hremove : ∀ object item, kvObjectType (remove object item).1 = kvObjectType object) (items : List Bytes) :
    ∀ object, kvObjectType (removeAll remove object items).1 = kvObjectType object := by
  induction items with
  | nil => exact fun _ => rfl
  | cons item items ih =>
    intro object
    have hone := hremove object item
    have hrest := ih (remove object item).1
    rw [removeAll]
    split
    · rename_i object' heq
      rw [heq] at hone
      exact hone
    · rename_i object' removed heq
      rw [heq] at hone hrest
      split
      · rename_i object'' heq'
        rw [heq'] at hrest
        exact hrest.trans hone
      · rename_i object'' count heq'
        rw [heq'] at hrest
        exact hrest.trans hone

section
variable (h : Evolves hash s s' [])
include h

/-- a store decides what is answered -/
theorem Appends.store {d : ℕ} {reply : Reply}
    (he : StoreEffect hash s'.cache r (argument arguments 1) object d gone) (hown : OwnRecord arguments record)
    {failure : CacheSetResult → Executed}
    (hfailure : ∀ result, Evolves hash s (s'.withCache r.1) [] →
      Appends hash env s arguments (failure result)) :
    Appends hash env s arguments
      (match r.2 with
      | .ok => (s'.withCache r.1).appendRecord env record reply
      | result => failure result) := by
  obtain ⟨reported, hev, hnone⟩ := h.store he
  cases hr : r.2 with
  | ok => exact .logs hev hown
  | _ => exact hfailure _ (hnone (by simp [hr]) ▸ hev)

theorem objectError_appends (k : Bytes) (object : KvObject) (result : CacheSetResult) :
    Appends hash env s arguments (s'.objectError k object result) := by
  cases result <;> exact .quiet h

theorem updateCopy_appends (hown : OwnRecord arguments arguments)
    (write : ℕ → KvObject → W → KvObject × Option ZSet.SetResult) (ws : List W) (working : KvObject) :
    Appends hash env s arguments (s'.updateCopy hash env arguments write ws working) := by
  unfold updateCopy
  split
  · exact .quiet h
  · exact .quiet h
  · rename_i working' added _
    obtain ⟨_, _, _, he⟩ := Cache.cacheStoreObject_effect h.advances.core h.advances.within env.cache (argument arguments 1) working' 0 true
    exact Appends.store h he hown fun result hev => objectError_appends hev _ _ result

theorem updateInPlace_appends (hown : OwnRecord arguments arguments)
    (hwrite : ∀ index object w, kvObjectType (write index object w).1 = kvObjectType object) (ws : List W)
    (hid : id ∈ s'.cache.ids) :
    Appends hash env s arguments (s'.updateInPlace env arguments write ws id (s'.cache.entry id).object) := by
  have htype := writeAll_type hwrite ws 0 (s'.cache.entry id).object
  unfold updateInPlace
  split
  · rename_i object heq
    rw [heq] at htype
    exact .quiet (h.put hid htype)
  · rename_i object added heq
    rw [heq] at htype
    exact .quiet (h.put hid htype)
  · rename_i object added heq
    rw [heq] at htype
    have hput := h.put hid htype
    have hid' : id ∈ (s'.putObject id object).cache.ids := by
      have hids : (s'.putObject id object).cache.ids = s'.cache.ids := rfl
      rw [hids]
      exact hid
    obtain ⟨reported, hev, hnone⟩ := hput.recharge hid'
    simp only
    cases hr : ((s'.putObject id object).cache.cacheRechargeRef (some id)).2 with
    | ok => exact .logs hev hown
    | capacity => exact .quiet (hnone (by simp [hr]) ▸ hev)
    | _ => exact .quiet (hnone (by simp [hr]) ▸ hev)

theorem finishRemoval_appends (hown : OwnRecord arguments arguments) (hid : id ∈ s'.cache.ids) (object : KvObject)
    (length removed : ℕ) : Appends hash env s arguments (s'.finishRemoval hash env arguments id object length removed) := by
  unfold finishRemoval
  split_ifs
  · have he := (Cache.cacheDelete_effect h.advances.core h.advances.within (argument arguments 1)).1
    have hev := h.trans (Evolves.effect he)
    simp only
    split_ifs
    · exact .quiet hev
    · exact .logs hev hown
  · obtain ⟨reported, hev, hnone⟩ := h.recharge hid
    simp only
    cases hr : (s'.cache.cacheRechargeRef (some id)).2 with
    | ok => exact .logs hev hown
    | capacity => exact .quiet (hnone (by simp [hr]) ▸ hev)
    | _ => exact .quiet (hnone (by simp [hr]) ▸ hev)
  · exact .quiet h

end

/-- a look-up, and the entry it returns -/
structure Lookup (hash : Hasher) (s : Service) (found : Cache × Option ℕ) : Prop where
  evolves : Evolves hash s (s.withCache found.1) []
  entry : ∀ id, found.2 = some id → id ∈ found.1.ids

theorem lookup_of_effect {t : ℕ} (he : Effect hash s.cache found.1 (reap t s.cache.keyspace key))
    (hf : found.2 = KvHash.lookup found.1.index key) : Lookup hash s found :=
  ⟨Evolves.effect he, fun _ hid => (he.advances.core.of_lookup (hf ▸ hid)).1⟩

section
variable (hcore : Core hash s.cache) (hw : s.cache.Within)
include hcore hw

theorem getObjectRef_lookup (key : Bytes) (record : Bool) :
    Lookup hash s (s.cache.cacheGetObjectRef hash key record) :=
  lookup_of_effect (Cache.cacheGetObjectRef_effect hcore hw key record).1 (Cache.cacheGetObjectRef_effect hcore hw key record).2

theorem getHashObjectRef_lookup (key : Bytes) (record : Bool) :
    Lookup hash s (s.cache.cacheGetHashObjectRef hash key record) :=
  lookup_of_effect (Cache.cacheGetHashObjectRef_effect hcore hw key record).1
    (Cache.cacheGetHashObjectRef_effect hcore hw key record).2

end

/-- a read of an object, or of nothing -/
theorem readObject_appends (hl : Lookup hash s found) (type : KvType) (missing : Reply) {read : Service → ℕ → KvObject → Executed}
    (hread : ∀ id, id ∈ found.1.ids → Appends hash env s arguments (read (s.withCache found.1) id (found.1.entry id).object)) :
    Appends hash env s arguments (s.readObject found type missing read) := by
  unfold readObject
  cases hid : found.2 with
  | none => exact .quiet hl.evolves
  | some id =>
    simp only
    split_ifs
    · exact .quiet hl.evolves
    · exact hread id (hl.entry id hid)

theorem updateCollection_appends (hl : Lookup hash s found)
    (hown : OwnRecord arguments arguments) (type : KvType) (create : Option KvObject)
    (hwrite : ∀ index object w, kvObjectType (write index object w).1 = kvObjectType object) (ws : List W) :
    Appends hash env s arguments (s.updateCollection hash env arguments found type create write ws) := by
  unfold updateCollection
  cases hid : found.2 with
  | none =>
    cases create with
    | none => exact .quiet hl.evolves
    | some working => exact updateCopy_appends hl.evolves hown write ws working
  | some id =>
    simp only
    split_ifs
    · exact .quiet hl.evolves
    · cases kvObjectClone hash env.clone (found.1.entry id).object with
      | none => exact .quiet hl.evolves
      | some working => exact updateCopy_appends hl.evolves hown write ws working
    · exact updateInPlace_appends hl.evolves hown hwrite ws (hl.entry id hid)

theorem removeItems_appends (hl : Lookup hash s found)
    (hown : OwnRecord arguments arguments) (type : KvType) {remove : KvObject → Bytes → KvObject × Option Bool}
    (hremove : ∀ object item, kvObjectType (remove object item).1 = kvObjectType object) (length : KvObject → ℕ) :
    Appends hash env s arguments (s.removeItems hash env arguments found type remove length) := by
  refine readObject_appends hl type _ fun id hid => ?_
  have htype := removeAll_type hremove (arguments.drop 2) (found.1.entry id).object
  split
  · rename_i object heq
    rw [heq] at htype
    exact .quiet (hl.evolves.put hid htype)
  · rename_i object removed heq
    rw [heq] at htype
    exact finishRemoval_appends (hl.evolves.put hid htype) hown hid object (length object) removed

/-! ## The types of objects -/

theorem hashReplace_type (ok : Bool) (o : KvObject) (table : KvHash.HashTable HashValue) (n : KvHash.Node HashValue) (value : Bytes) :
    kvObjectType (hashReplace ok o table n value).1 = .hash := by
  unfold hashReplace
  simp only
  split_ifs
  · rfl
  · rfl
  · cases hashValueCreate ok value <;> rfl

theorem hashSet_type (alloc : HashAlloc) (o : KvObject) (field value : Bytes) :
    kvObjectType (kvObjectHashSet hash alloc o field value).1 = kvObjectType o := by
  unfold kvObjectHashSet
  cases hv : o.value with
  | string data capacity => rfl
  | zset set => rfl
  | hash table =>
    have ho : kvObjectType o = .hash := by rw [kvObjectType, hv]
    simp only [ho]
    cases KvHash.kvHashFind hash (KvHash.kvHashRehashStep table 1).1 field with
    | some n => exact hashReplace_type alloc.value o _ n value
    | none =>
      cases hashValueCreate alloc.value value with
      | none => rfl
      | some replacement =>
        simp only
        split <;> rfl

variable (o : KvObject) (member : Bytes)

theorem hashGet_type (field : Bytes) : kvObjectType (kvObjectHashGet hash o field).1 = kvObjectType o := by
  unfold kvObjectHashGet kvObjectType
  cases hv : o.value <;> simp [hv]

theorem hashDelete_type (field : Bytes) : kvObjectType (kvObjectHashDelete hash o field).1 = kvObjectType o := by
  unfold kvObjectHashDelete
  cases hv : o.value with
  | string data capacity => rfl
  | zset set => rfl
  | hash table =>
    have ho : kvObjectType o = .hash := by rw [kvObjectType, hv]
    simp only
    cases KvHash.kvHashFind hash table field with
    | none => rfl
    | some n => exact ho.symm

theorem zsetAdd_type (alloc : ZSet.Alloc) (o : KvObject) (score : Score) (member : Bytes) :
    kvObjectType (kvObjectZsetAdd hash alloc o score member).1 = kvObjectType o := by
  unfold kvObjectZsetAdd kvObjectType
  cases hv : o.value <;> simp [hv]

theorem zsetScore_type : kvObjectType (kvObjectZsetScore hash o member).1 = kvObjectType o := by
  unfold kvObjectZsetScore kvObjectType
  cases hv : o.value <;> simp [hv]

theorem zsetRemove_type : kvObjectType (kvObjectZsetRemove hash o member).1 = kvObjectType o := by
  unfold kvObjectZsetRemove kvObjectType
  cases hv : o.value <;> simp [hv]

/-! ## Requests -/

section
variable (hcore : Core hash s.cache) (hw : s.cache.Within)
include hcore hw

theorem executeSet_appends (hc : findCommand (argument arguments 0) = .set) :
    Appends hash env s arguments (s.executeSet hash env arguments) := by
  have hnow : Evolves hash s (s.withCache s.cache.cacheNow.2) [] :=
    Evolves.effect (Cache.cacheNow_effect hcore hw)
  unfold executeSet
  cases setDuration arguments with
  | error e => exact .quiet (Evolves.refl hcore hw)
  | ok ttlMs =>
    simp only
    generalize (if ttlMs ≠ 0 then s.cache.cacheNow.1 + ttlMs else 0) = deadline
    split_ifs
    · exact .quiet hnow
    · unfold Cache.cacheSetExpireAt
      cases kvObjectCreateString env.object (argument arguments 2) with
      | none => exact .quiet hnow
      | some object =>
        obtain ⟨_, _, _, he⟩ := Cache.cacheStoreObject_effect hnow.advances.core hnow.advances.within env.cache
          (argument arguments 1) object deadline false
        obtain ⟨reported, hev, hnone⟩ := hnow.store he
        simp only
        cases hr : ((s.withCache s.cache.cacheNow.2).cache.cacheStoreObject hash env.cache (argument arguments 1) object deadline
            false).2 with
        | ok => exact .logs hev (.set deadline hc)
        | _ => exact .quiet (hnone (by simp [hr]) ▸ hev)

omit hcore hw in
theorem finishExpire_appends (h : Evolves hash s s' []) (result : ℤ)
    (hown : OwnRecord arguments record) : Appends hash env s arguments (s'.finishExpire env result record) := by
  unfold finishExpire
  split_ifs
  · exact .quiet h
  · exact .quiet h
  · exact .logs h hown
  · exact .quiet h

theorem delete_evolves (key : Bytes) : Evolves hash s (s.withCache (s.cache.cacheDelete hash key).1) [] :=
  Evolves.effect (Cache.cacheDelete_effect hcore hw key).1

theorem expireAt_evolves (heapOk : Bool) (key : Bytes) (d : ℕ) :
    Evolves hash s (s.withCache (s.cache.cacheExpireAt hash heapOk key d).1) [] := by
  by_cases hd : d = 0
  · unfold Cache.cacheExpireAt
    rw [if_pos hd]
    exact delete_evolves hcore hw key
  · obtain ⟨_, _, ⟨_, he⟩ | ⟨_, he⟩⟩ := Cache.cacheExpireAt_effect hcore hw heapOk key hd
    · exact Evolves.effect he
    · exact Evolves.effect he

section

variable (hc : isWriteCommand (findCommand (argument arguments 0)) = true)
include hc

theorem executeExpire_appends (multiplier : ℕ) :
    Appends hash env s arguments (s.executeExpire hash env arguments multiplier) := by
  unfold executeExpire
  cases durationMs (argument arguments 2) multiplier false with
  | invalid | notPositive => exact .quiet (Evolves.refl hcore hw)
  | ok parsed ttlMs =>
    have hnow : Evolves hash s (s.withCache s.cache.cacheNow.2) [] :=
      Evolves.effect (Cache.cacheNow_effect hcore hw)
    simp only
    split_ifs
    · exact finishExpire_appends (delete_evolves hcore hw _) _ (.del hc)
    · exact .quiet hnow
    · have hev := hnow.trans (expireAt_evolves hnow.advances.core hnow.advances.within env.cache.heap (argument arguments 1)
        (s.cache.cacheNow.1 + ttlMs))
      exact finishExpire_appends hev _ (.pexpireat _ hc)

theorem executeDel_appends :
    Appends hash env s arguments (s.executeDel hash env arguments) := by
  have hev := delete_evolves hcore hw (argument arguments 1)
  unfold executeDel
  simp only
  split_ifs
  · exact .quiet hev
  · exact .logs hev (.del hc)
  · exact .quiet hev

theorem executePersist_appends :
    Appends hash env s arguments (s.executePersist hash env arguments) := by
  have hev : Evolves hash s (s.withCache (s.cache.cachePersist hash (argument arguments 1)).1) [] :=
    Evolves.effect (Cache.cachePersist_effect hcore hw _).1
  unfold executePersist
  simp only
  split_ifs
  · exact .quiet hev
  · exact .logs hev (.persist hc)
  · exact .quiet hev

end

theorem executeTtl_appends (seconds : Bool) : Appends hash env s arguments (s.executeTtl hash arguments seconds) := by
  obtain ⟨_, _, he, _⟩ := Cache.cacheTtlMs_effect hcore hw (argument arguments 1)
  exact .quiet (Evolves.effect he)

omit hcore hw in
section

variable (h : Evolves hash s s' [])
include h

/-- the buffers of a reply are not part of the cache -/
theorem Evolves.capacities (elements scores : ℕ) :
    Evolves hash s { s' with replyElementCapacity := elements, replyScoreCapacity := scores } [] :=
  ⟨h.advances, ⟨h.frame.aof, h.frame.engine, h.frame.admin, h.frame.mysql⟩, h.evicted⟩

omit hcore hw in
theorem reserveReplyElements_evolves (ok : Bool) (count : ℕ) :
    Evolves hash s (s'.reserveReplyElements ok count).1 [] := by
  unfold reserveReplyElements
  generalize growReply _ _ _ _ = capacity
  split_ifs
  · exact h
  · exact h
  · exact h.capacities _ s'.replyScoreCapacity
  · exact h

omit hcore hw in
theorem reserveScoreBuffer_evolves (ok : Bool) (bytes : ℕ) :
    Evolves hash s (s'.reserveScoreBuffer ok bytes).1 [] := by
  unfold reserveScoreBuffer
  generalize growReply _ _ _ _ = capacity
  simp only
  split_ifs
  · exact h
  · exact h
  · exact h.capacities s'.replyElementCapacity _
  · exact h

omit hcore hw in
theorem finishCollection_appends (r : Collection × Bool) :
    Appends hash env s arguments (s'.finishCollection r) := by
  unfold finishCollection
  split_ifs <;> exact .quiet h

omit hcore hw in
theorem reserveFailed_appends (result : ReserveResult) :
    Appends hash env s arguments (s'.reserveFailed result) := by
  cases result <;> exact .quiet h

end

theorem executeHgetall_appends : Appends hash env s arguments (s.executeHgetall hash env arguments) := by
  have hl := getHashObjectRef_lookup hcore hw (argument arguments 1) true
  refine readObject_appends hl _ _ fun id _ => ?_
  simp only
  split_ifs
  · exact .quiet hl.evolves
  · have hres := reserveReplyElements_evolves hl.evolves env.elements
      (kvObjectHashLength ((s.cache.cacheGetHashObjectRef hash (argument arguments 1) true).1.entry id).object * 2)
    split
    · rename_i s' heq
      rw [heq] at hres
      exact finishCollection_appends hres _
    · rename_i s' failure _ heq
      rw [heq] at hres
      exact reserveFailed_appends hres failure

omit hcore hw in
theorem collectRange_appends (h : Evolves hash s s' []) (object : KvObject) (start stop : ℤ) (withScores : Bool) (count : ℕ) :
    Appends hash env s arguments (s'.collectRange libc env object start stop withScores count) := by
  unfold collectRange
  simp only
  have hres := reserveReplyElements_evolves h env.elements (count * if withScores = true then 2 else 1)
  split
  · rename_i s1 heq
    rw [heq] at hres
    have hscores : Evolves hash s
        (if withScores = true then s1.reserveScoreBuffer env.scores (count * 32) else (s1, .ok)).1 [] := by
      split_ifs
      · exact reserveScoreBuffer_evolves hres env.scores _
      · exact hres
    split
    · rename_i s2 heq'
      rw [heq'] at hscores
      exact finishCollection_appends hscores _
    · rename_i s2 failure _ heq'
      rw [heq'] at hscores
      exact reserveFailed_appends hscores failure
  · rename_i s1 failure _ heq
    rw [heq] at hres
    exact reserveFailed_appends hres failure

theorem executeZrange_appends : Appends hash env s arguments (s.executeZrange hash libc env arguments) := by
  unfold executeZrange
  simp only
  split
  · split
    · exact .quiet (Evolves.refl hcore hw)
    · have hl := getObjectRef_lookup hcore hw (argument arguments 1) true
      refine readObject_appends hl _ _ fun id _ => ?_
      split
      · exact .quiet hl.evolves
      · generalize serviceMaxArrayElements / _ = limit
        split_ifs
        · exact .quiet hl.evolves
        · exact collectRange_appends hl.evolves _ _ _ _ _
  · exact .quiet (Evolves.refl hcore hw)

theorem executeZscore_appends : Appends hash env s arguments (s.executeZscore hash libc env arguments) := by
  have hl := getObjectRef_lookup hcore hw (argument arguments 1) true
  unfold executeZscore
  generalize s.cache.cacheGetObjectRef hash (argument arguments 1) true = found at hl
  refine readObject_appends hl _ _ fun id hid => ?_
  have hput : Evolves hash s
      ((s.withCache found.1).putObject id (kvObjectZsetScore hash (found.1.entry id).object (argument arguments 2)).1) [] :=
    hl.evolves.put hid (zsetScore_type _ _)
  simp only
  split
  · exact .quiet hput
  · exact .quiet hput
  · have hres := reserveScoreBuffer_evolves hput env.scores 32
    split
    · rename_i s' heq
      rw [heq] at hres
      split_ifs <;> exact .quiet hres
    · rename_i s' heq
      rw [heq] at hres
      exact .quiet hres
    · rename_i s' heq
      rw [heq] at hres
      exact .quiet hres

theorem executeZadd_appends (hown : OwnRecord arguments arguments) :
    Appends hash env s arguments (s.executeZadd hash libc env arguments) := by
  unfold executeZadd
  simp only
  split_ifs
  · exact .quiet (Evolves.refl hcore hw)
  · cases parseScores libc env 0 (pairsOf (arguments.drop 2)) with
    | error e => exact .quiet (Evolves.refl hcore hw)
    | ok scores =>
      exact updateCollection_appends (getObjectRef_lookup hcore hw _ _) hown _ _ (fun _ _ _ => zsetAdd_type _ _ _ _) scores

/-- **A command** evicts nothing and appends nothing, or appends its own record. -/
theorem dispatch_appends {command : ServiceCommand} (hc : findCommand (argument arguments 0) = command) :
    Appends hash env s arguments (s.dispatch hash libc env command arguments) := by
  have hsame : Evolves hash s s [] := .refl hcore hw
  have hget := getObjectRef_lookup hcore hw (argument arguments 1)
  have hgetHash := getHashObjectRef_lookup hcore hw (argument arguments 1)
  cases command with
  | set => exact executeSet_appends hcore hw hc
  | get =>
    unfold dispatch executeGet
    refine readObject_appends (hget true) _ _ fun _ _ => ?_
    exact .quiet (hget true).evolves
  | del => exact executeDel_appends hcore hw (by rw [hc]; rfl)
  | ping =>
    unfold dispatch executePing
    split_ifs <;> exact .quiet hsame
  | expire | pexpire => exact executeExpire_appends hcore hw (by rw [hc]; rfl) _
  | ttl => exact executeTtl_appends hcore hw true
  | pttl => exact executeTtl_appends hcore hw false
  | persist => exact executePersist_appends hcore hw (by rw [hc]; rfl)
  | info =>
    obtain ⟨reply, hr⟩ := executeInfo_answers s arguments
    rw [dispatch, hr]
    exact .quiet hsame
  | dbsize | lastsave | unknown => exact .quiet hsame
  | save =>
    obtain ⟨reply, hr⟩ := executeSaveCommand_answers s false
    rw [dispatch, hr]
    exact .quiet hsame
  | bgsave =>
    obtain ⟨reply, hr⟩ := executeSaveCommand_answers s true
    rw [dispatch, hr]
    exact .quiet hsame
  | hset =>
    exact updateCollection_appends (hgetHash false) (.original (Or.inl hc)) _ _ (fun _ _ _ => hashSet_type _ _ _ _) _
  | hget =>
    unfold dispatch executeHget
    refine readObject_appends (hgetHash true) _ _ fun _ hid => ?_
    exact .quiet ((hgetHash true).evolves.put hid (hashGet_type _ _))
  | hdel => exact removeItems_appends (hgetHash false) (.original (Or.inr (Or.inl hc))) _ (fun _ _ => hashDelete_type _ _) _
  | hlen =>
    unfold dispatch executeHlen
    refine readObject_appends (hgetHash true) _ _ fun _ _ => ?_
    exact .quiet (hgetHash true).evolves
  | hgetall => exact executeHgetall_appends hcore hw
  | zadd => exact executeZadd_appends hcore hw (.original (Or.inr (Or.inr (Or.inl hc))))
  | zrem => exact removeItems_appends (hget false) (.original (Or.inr (Or.inr (Or.inr hc)))) _ (fun _ _ => zsetRemove_type _ _) _
  | zscore => exact executeZscore_appends hcore hw
  | zcard =>
    unfold dispatch executeZcard
    refine readObject_appends (hget true) _ _ fun _ _ => ?_
    exact .quiet (hget true).evolves
  | zrange => exact executeZrange_appends hcore hw

/-- the records of a command: those of the evicted keys, and its own. Without an own record nothing was evicted, or its append has
failed. -/
structure Recorded (hash : Hasher) (env : Env) (s : Service) (arguments : Record) (e : Executed) (own : Option Record) :
    Prop where
  advances : Advances hash s.cache e.service.cache
  mysql : e.service.mysql = s.mysql
  owned : ∀ record ∈ own, OwnRecord arguments record ∧ LogicalWrite arguments
  records : e.records = s.evictionRecords env.evictionAppend e.service.cache ++ own.toList
  quiet : own = none → env.aofAppend = true → ∀ takes, s.evictionRecords takes e.service.cache = []

theorem executeCommand_recorded :
    ∃ own, Recorded hash env s arguments (s.executeCommand hash libc env (findCommand (argument arguments 0)) arguments)
      own := by
  have hquiet : ∀ {s' : Service} (reply : Reply) (outOfMemory : Bool), Evolves hash s s' [] →
      Recorded hash env s arguments ⟨s', reply, [], outOfMemory⟩ none := by
    intro s' reply outOfMemory h
    exact ⟨h.advances, h.frame.mysql, fun _ hr => (nomatch hr), by rw [h.evictionRecords]; rfl, fun _ _ => h.evictionRecords⟩
  have happends := @dispatch_appends hash libc env s arguments hcore hw _ rfl
  unfold executeCommand
  split
  · exact ⟨none, hquiet _ _ (Evolves.refl hcore hw)⟩
  rename_i hknown
  split
  · exact ⟨none, hquiet _ _ (Evolves.refl hcore hw)⟩
  rename_i harity
  split
  · exact ⟨none, hquiet _ _ (Evolves.refl hcore hw)⟩
  generalize s.dispatch hash libc env (findCommand (argument arguments 0)) arguments = e at happends
  cases happends with
  | quiet h =>
    refine ⟨none, ?_⟩
    simp only
    rw [h.evictionRecords]
    exact hquiet _ _ h
  | @logs s' record reply gone h hown =>
    unfold appendRecord
    split
    · split
      · exact ⟨some record, h.advances, h.frame.mysql,
          fun r hr => Option.some.inj hr ▸ ⟨hown, hknown, not_not.1 harity, hown.isWrite⟩, rfl, fun hc => nomatch hc⟩
      · rename_i happend
        exact ⟨none, h.advances, h.frame.mysql, fun _ hr => (nomatch hr), rfl, fun _ hc => absurd hc happend⟩
    · rename_i haof
      refine ⟨none, h.advances, h.frame.mysql, fun _ hr => (nomatch hr), rfl, fun _ _ takes => ?_⟩
      rw [Service.evictionRecords, if_neg (h.frame.aof ▸ haof)]

end

/-- the own record is appended and copied, or no record of an eviction is: then what is captured stands last -/
def CapturesLast (env : Env) : Prop :=
  env.aofAppend = true ∧ env.ownCopy = true ∨ ∀ n, (env.evictionAppend n && env.evictionCopy n) = false

/-- **What is captured** is the own record, or nothing. -/
theorem Recorded.captured {e : Executed} {own : Option Record} (h : Recorded hash env s arguments e own) (henv : CapturesLast env) :
    s.captured env e = none ∨ s.captured env e = own ∧ own.isSome = true := by
  have hcut : (s.evictionRecords env.evictionAppend e.service.cache).length < e.records.length ↔ own.isSome = true := by
    rw [h.records, length_append]
    cases own <;> simp
  unfold Service.captured
  split_ifs with hown
  · have hsome := hcut.1 hown.1
    refine Or.inr ⟨?_, hsome⟩
    obtain ⟨record, rfl⟩ := Option.isSome_iff_exists.1 hsome
    rw [h.records, Option.toList_some, List.getLast?_concat]
  · left
    rcases henv with ⟨happend, hcopy⟩ | hnone
    · have hno : own = none := Option.not_isSome_iff_eq_none.1 fun hc => hown ⟨hcut.2 hc, hcopy⟩
      rw [h.quiet hno happend]
      rfl
    · unfold Service.evictionRecords
      rw [filter_eq_nil_iff.2 fun p _ => by simp [hnone p.2]]
      split_ifs <;> rfl

/-- what a request commits: nothing, the deletions of the evicted keys with its own record, if there is one, or these with their
marker -/
inductive Commits (env : Env) (s : Service) (arguments : Record) (r : Response) : Prop
  | nothing (records : r.records = []) (submitted : r.submitted = none) (mysql : r.service.mysql = s.mysql)
  | plain (own : Option Record) (hown : ∀ record ∈ own, OwnRecord arguments record ∧ LogicalWrite arguments)
    (records : r.records = s.evictionRecords env.evictionAppend r.service.cache ++ own.toList) (submitted : r.submitted = none)
    (mysql : r.service.mysql = s.mysql)
  | marked (link : MysqlLink) (own : Record) (hown : OwnRecord arguments own) (write : LogicalWrite arguments)
    (on : s.mysql = some link) (positive : (link.nextSequence + 1) % 2 ^ 64 ≠ 0)
    (records : r.records = s.evictionRecords env.evictionAppend r.service.cache ++
      [own, markerRecord link.writerUuid ((link.nextSequence + 1) % 2 ^ 64)])
    (submitted : r.submitted = if env.mysqlSubmits then some ((link.nextSequence + 1) % 2 ^ 64, own) else none)
    (mysql : r.service.mysql = some { link with nextSequence := (link.nextSequence + 1) % 2 ^ 64 })

/-- the end of a transaction -/
theorem Recorded.commits {e : Executed} {own : Option Record} (h : Recorded hash env s arguments e own) (henv : CapturesLast env)
    {counted : Service} (hcache : counted.cache = e.service.cache) (hmysql : counted.mysql = s.mysql)
    (hpositive : ∀ link, s.mysql = some link → (link.nextSequence + 1) % 2 ^ 64 ≠ 0) {r : Response}
    (hr : counted.commit env e s.mysql (s.captured env e) = r) :
    r.service.cache = e.service.cache ∧ (env.aofCommit = true → r.unfinished = []) ∧ Commits env s arguments r := by
  have hrecords := h.records
  rw [← hcache] at hrecords
  have hplain : (if env.aofCommit then (⟨counted, e.reply, e.records, none, e.outOfMemory, []⟩ : Response)
        else ⟨counted, .error .aof, [], none, e.outOfMemory, e.records⟩) = r →
      r.service.cache = e.service.cache ∧ (env.aofCommit = true → r.unfinished = []) ∧ Commits env s arguments r := by
    intro hr
    split_ifs at hr with hok <;> subst hr
    · exact ⟨hcache, fun _ => rfl, .plain own h.owned hrecords rfl hmysql⟩
    · exact ⟨hcache, fun hc => absurd hc hok, .nothing rfl rfl hmysql⟩
  unfold commit at hr
  cases hlink : s.mysql with
  | none =>
    rw [hlink] at hr
    exact hplain hr
  | some link =>
    rw [hlink] at hr hmysql
    rcases h.captured henv with hnone | ⟨hsome, hown⟩
    · rw [hnone] at hr
      exact hplain hr
    obtain ⟨record, rfl⟩ := Option.isSome_iff_exists.1 hown
    obtain ⟨hrecord, hwrite⟩ := h.owned record rfl
    have hall : e.records ++ [markerRecord link.writerUuid ((link.nextSequence + 1) % 2 ^ 64)] =
        s.evictionRecords env.evictionAppend counted.cache ++
          [record, markerRecord link.writerUuid ((link.nextSequence + 1) % 2 ^ 64)] := by
      rw [hrecords, append_assoc]
      rfl
    rw [hsome] at hr
    simp only at hr
    have hmarked : ∀ {submitted}, (submitted = if env.mysqlSubmits then some ((link.nextSequence + 1) % 2 ^ 64, record) else none) →
        r.service = { counted with mysql := some { link with nextSequence := (link.nextSequence + 1) % 2 ^ 64 } } →
        r.records = e.records ++ [markerRecord link.writerUuid ((link.nextSequence + 1) % 2 ^ 64)] → r.submitted = submitted →
        Commits env s arguments r := by
      intro submitted hsubmitted hservice hr hs
      refine .marked link record hrecord hwrite hlink (hpositive link hlink) ?_ (hs.trans hsubmitted) (by rw [hservice])
      rw [hr, hservice, hall]
    split at hr
    · subst hr
      exact ⟨hcache, fun _ => rfl, .nothing rfl rfl (hmysql.trans hlink.symm)⟩
    split at hr
    · rename_i hcommit
      subst hr
      exact ⟨hcache, fun hc => absurd hc hcommit, .nothing rfl rfl (hmysql.trans hlink.symm)⟩
    split at hr
    · rename_i hsubmits
      subst hr
      exact ⟨hcache, fun _ => rfl, hmarked (if_pos hsubmits).symm rfl rfl rfl⟩
    · rename_i hsubmits
      subst hr
      exact ⟨hcache, fun _ => rfl, hmarked (if_neg hsubmits).symm rfl rfl rfl⟩

/-- **A request** commits nothing, the deletions of the keys it evicted with its own record, or these with the marker; a commit that
succeeds leaves nothing behind. -/
theorem executeWithBarrier_commits (libc : Libc) (henv : CapturesLast env) (hcore : Core hash s.cache) (hw : s.cache.Within)
    (arguments : Record) {r : Response} (hr : s.executeWithBarrier hash libc env arguments = r) :
    Advances hash s.cache r.service.cache ∧ (env.aofCommit = true → r.unfinished = []) ∧ Commits env s arguments r := by
  obtain ⟨own, hrec⟩ := @executeCommand_recorded hash libc env s arguments hcore hw
  have hrefuse : ∀ error, s.refuse error = r →
      Advances hash s.cache r.service.cache ∧ (env.aofCommit = true → r.unfinished = []) ∧ Commits env s arguments r := by
    rintro error rfl
    exact ⟨.refl hcore hw, fun _ => rfl, .nothing rfl rfl rfl⟩
  unfold executeWithBarrier at hr
  simp only at hr
  generalize hlink : (if LogicalWrite arguments then s.mysql else none) = link at hr
  split at hr
  · exact hrefuse _ hr
  split at hr
  · exact hrefuse _ hr
  split at hr
  · exact hrefuse _ hr
  rename_i hpositive
  split at hr
  · exact hrefuse _ hr
  generalize s.executeCommand hash libc env (findCommand (argument arguments 0)) arguments = e at hr hrec
  -- counting the change touches neither the cache nor the link
  have hcounted : ∀ (p : Prop) [Decidable p],
      (if p then { e.service with dirtyChanges := e.service.dirtyChanges + 1 } else e.service).cache = e.service.cache ∧
        (if p then { e.service with dirtyChanges := e.service.dirtyChanges + 1 } else e.service).mysql = e.service.mysql := by
    intro p _
    split_ifs <;> exact ⟨rfl, rfl⟩
  obtain ⟨hcache, hmysql⟩ := hcounted (LogicalWrite arguments ∧ ¬ e.reply.isError = true)
  generalize (if LogicalWrite arguments ∧ ¬ e.reply.isError = true then
    ({ e.service with dirtyChanges := e.service.dirtyChanges + 1 } : Service) else e.service) = counted at hr hcache hmysql
  rw [hrec.mysql] at hmysql
  split at hr
  · rename_i hwrite
    rw [if_pos hwrite.1] at hlink
    subst hlink
    have hnext : ∀ link, s.mysql = some link → (link.nextSequence + 1) % 2 ^ 64 ≠ 0 := by
      intro link hlink hzero
      rw [hlink, Option.any_some] at hpositive
      exact hpositive (decide_eq_true hzero)
    obtain ⟨h1, h2⟩ := hrec.commits henv hcache hmysql hnext hr
    exact ⟨h1 ▸ hrec.advances, h2⟩
  · subst hr
    exact ⟨hcache ▸ hrec.advances, fun _ => rfl, .plain own hrec.owned (hcache ▸ hrec.records) rfl hmysql⟩

end StoreSystem.Service
