/-
One executed request against the reference semantics (`Service.Keyspace`).

`Meets` says of an executed request that, unless memory ran out, the cache then shows the reference's keyspace (without the
keys that were evicted), the reply is one the reference allows and the records are those the reference logs. This module
proves it for the requests on Strings, deadlines and single fields or scores; `Service.Collections` has the others.
-/
import StoreSystem.Service.Shown

namespace StoreSystem

open List Function Option

/-- the AOF is in order: it has not failed and takes what it is given, and the own record can be copied for MySQL -/
structure Env.Healthy (env : Env) : Prop where
  notFailed : env.aofFailed = false
  begins : env.aofBegin = true
  appends : env.aofAppend = true
  evicts : ∀ n, env.evictionAppend n = true
  copies : env.ownCopy = true
  commits : env.aofCommit = true

/-- an environment in which every call succeeds -/
def Env.succeeding : Env where
  object := true
  clone := ⟨true, ⟨true, ⟨true, true⟩⟩, ⟨true, true, ⟨true, true⟩⟩⟩
  hash := fun _ => ⟨true, ⟨true, true⟩⟩
  zset := fun _ => ⟨true, true, ⟨true, true⟩⟩
  cache := ⟨true, true, ⟨true, true⟩⟩
  copy := fun _ => true
  elements := true
  scores := true
  aofFailed := false
  aofBegin := true
  aofAppend := true
  evictionAppend := fun _ => true
  markerAppend := true
  ownCopy := true
  evictionCopy := fun _ => true
  aofCommit := true
  aofCut := 0
  mysqlAccepts := true
  mysqlSubmits := true

theorem Env.succeeding_healthy : Env.succeeding.Healthy := ⟨rfl, rfl, rfl, fun _ => rfl, rfl, rfl⟩

namespace Service

open Cache (Becomes Good Finds Mutated withDeadline)

variable {hash : Hasher} {libc : Libc} {t : ℕ} {env : Env} {s s' : Service}

/-- what no request changes -/
structure Frame (s s' : Service) : Prop where
  aof : s'.aof = s.aof
  engine : s'.zsetEngine = s.zsetEngine
  admin : s'.admin = s.admin
  mysql : s'.mysql = s.mysql

theorem Frame.refl (s : Service) : Frame s s := ⟨rfl, rfl, rfl, rfl⟩

theorem Frame.cache (s : Service) (c : Cache) : Frame s (s.withCache c) := ⟨rfl, rfl, rfl, rfl⟩

theorem Frame.trans {s'' : Service} (h : Frame s s') (h' : Frame s' s'') : Frame s s'' :=
  ⟨h'.aof.trans h.aof, h'.engine.trans h.engine, h'.admin.trans h.admin, h'.mysql.trans h.mysql⟩

/-- the result of a request is the outcome `o`, but for the evicted keys `gone` -/
structure Refines (hash : Hasher) (t : ℕ) (s : Service) (e : Executed) (gone : List Bytes) (o : Outcome) : Prop where
  becomes : Becomes hash t s.cache e.service.cache gone o.keyspace
  frame : Frame s e.service
  reply : o.replies e.reply
  records : e.records = if s.aof then o.record.toList else []
  /-- the key that is recorded is not evicted -/
  keep : ∀ record, o.record = some record → argument record 1 ∉ gone
  /-- keys are evicted only for a request that is recorded -/
  quiet : o.record = none → gone = []

/-- unless memory ran out, the result of a request is the outcome `o` -/
def Meets (hash : Hasher) (t : ℕ) (s : Service) (e : Executed) (o : Outcome) : Prop :=
  e.outOfMemory = false → ∃ gone, Refines hash t s e gone o

theorem Meets.exhausted {o : Outcome} : Meets hash t s s'.exhausted o := fun h => absurd h (by simp [Service.exhausted])

variable {reply : Reply} {unit : ℕ}

theorem Meets.answer {o : Outcome} (hb : Becomes hash t s.cache s'.cache [] o.keyspace)
    (hf : Frame s s') (hr : o.replies reply) (hrec : o.record = none) : Meets hash t s (s'.answer reply) o := by
  refine fun _ => ⟨[], hb, hf, hr, ?_, by simp, fun _ => rfl⟩
  rw [hrec, Service.answer]
  simp

/-- a read -/
theorem Meets.reads {ks : Keyspace} {replies : Reply → Prop} (hb : Becomes hash t s.cache s'.cache [] ks)
    (hf : Frame s s') (hr : replies reply) : Meets hash t s (s'.answer reply) (.reads ks replies) :=
  Meets.answer (o := .reads ks replies) hb hf hr rfl

/-- an answer that does not look at the cache -/
theorem Meets.unread (hg : Good hash t s.cache) {replies : Reply → Prop} (hr : replies reply) :
    Meets hash t s (s.answer reply) (.reads (s.cache.shown t) replies) :=
  Meets.reads (Becomes.refl hg) (Frame.refl s) hr

theorem Meets.append {o : Outcome} {record : Record} {gone : List Bytes} (henv : env.Healthy)
    (hb : Becomes hash t s.cache s'.cache gone o.keyspace) (hf : Frame s s') (hr : o.replies reply)
    (hrec : o.record = some record) (hkeep : argument record 1 ∉ gone) :
    Meets hash t s (s'.appendRecord env record reply) o := by
  refine fun _ => ⟨gone, ?_⟩
  have hkept : ∀ r, o.record = some r → argument r 1 ∉ gone := by
    intro r hr
    rw [hrec, Option.some.injEq] at hr
    exact hr ▸ hkeep
  unfold Service.appendRecord
  have hcopied : ¬ (s'.mysql.isSome = true ∧ ¬ env.ownCopy = true) := fun hc => hc.2 henv.copies
  rw [henv.appends, if_pos rfl, hf.aof, if_neg hcopied]
  split_ifs with ha
  · exact ⟨hb, hf, hr, by rw [hrec, if_pos ha]; rfl, hkept, fun hno => absurd (hrec.symm.trans hno) (by simp)⟩
  · exact ⟨hb, hf, hr, by rw [if_neg ha], hkept, fun hno => absurd (hrec.symm.trans hno) (by simp)⟩

/-- unless memory ran out, the result of a request is the outcome `o`, or the limit on memory refuses the request -/
def Settles (hash : Hasher) (t : ℕ) (s : Service) (e : Executed) (o : Outcome) : Prop :=
  Meets hash t s e o ∨ s.cache.maxMemory ≠ 0 ∧ Meets hash t s e (.refused (s.cache.shown t))

/-- a store that is refused: its charge overflows, or the limit on memory does not admit it -/
theorem capacity_settles {o : Outcome} {r : Cache × CacheSetResult} {key : Bytes} {object : KvObject} {d : ℕ} {gone : List Bytes}
    (hb : Becomes hash t s.cache s'.cache [] (s.cache.shown t)) (hf : Frame s s')
    (he : Cache.StoreEffect hash s'.cache r key object d gone) (hr : r.2 = .capacity) (hobj : object.Inv hash) :
    Settles hash t s ⟨s'.withCache r.1, .error .capacity, [], chargeOverflows key object⟩ o := by
  by_cases hmem : s.cache.maxMemory = 0
  · refine Or.inl fun hoom => ?_
    have := he.overflow hr (hb.limits.2.trans hmem)
    simp [chargeOverflows, this] at hoom
  · have hrefusal := he.refusal hb.good hr hobj
    rw [hb.shown_eq] at hrefusal
    refine Or.inr ⟨hmem, fun _ => ⟨[], hb.trans hrefusal, ⟨hf.aof, hf.engine, hf.admin, hf.mysql⟩, rfl, ?_, by simp, fun _ => rfl⟩⟩
    simp [Outcome.refused, Outcome.reads]

/-! ## Durations -/

theorem durationMs_eq (text : Bytes) (hu : 0 < unit) (positive : Bool) :
    durationMs text unit positive = match intValue text with
      | none => .invalid
      | some n => if n ≤ 0 then if positive then .notPositive else .ok n 0
        else if n * unit > uint64Max then .invalid else .ok n (n.toNat * unit) := by
  rw [durationMs, parseInt64_eq]
  cases intValue text with
  | none => rfl
  | some n =>
    simp only
    split_ifs with h1 h2 h3 h4 h4
    · rfl
    · rfl
    · rfl
    · exfalso
      rw [gt_iff_lt, Nat.div_lt_iff_lt_mul hu] at h3
      refine h4 ?_
      rw [← Int.toNat_of_nonneg (le_of_not_ge h1)]
      exact_mod_cast h3
    · exfalso
      refine h3 ?_
      rw [gt_iff_lt, Nat.div_lt_iff_lt_mul hu]
      rw [← Int.toNat_of_nonneg (le_of_not_ge h1)] at h4
      exact_mod_cast h4
    · rfl

/-- the deadline of a positive duration, as the code tests it -/
theorem deadlineAfter_eq (ht : t ≤ uint64Max) {n : ℤ} (hn : ¬ n ≤ 0) (hprod : ¬ n * unit > uint64Max) :
    deadlineAfter t unit n = if n.toNat * unit > uint64Max - t then .error .integer else .ok (t + n.toNat * unit) := by
  unfold deadlineAfter
  have hcast : n * unit = ((n.toNat * unit : ℕ) : ℤ) := by
    rw [Nat.cast_mul, Int.toNat_of_nonneg (le_of_not_ge hn)]
  rw [hcast] at hprod ⊢
  generalize n.toNat * unit = ms at hprod
  by_cases hsum : ms > uint64Max - t
  · rw [if_pos hsum, if_pos (Or.inr (by omega))]
  · rw [if_neg hsum, if_neg (by omega)]

theorem deadlineAfter_big {n : ℤ} (hprod : n * unit > uint64Max) : deadlineAfter t unit n = .error .integer :=
  if_pos (Or.inl hprod)

/-! ## Strings and deadlines -/

theorem setRecord_key (key value : Bytes) (deadline : ℕ) : argument (setRecord key value deadline) 1 = key := by
  unfold setRecord
  split_ifs <;> rfl

theorem executeSet_stores (libc : Libc) (hg : Good hash t s.cache) (henv : env.Healthy)
    {arguments : Record} {ttlMs : ℕ} (hdur : setDuration arguments = .ok ttlMs) (hroom : ttlMs = 0 ∨ ttlMs ≤ uint64Max - t) :
    Settles hash t s (s.executeSet hash env arguments)
      (perform libc t (s.cache.shown t) arguments
        (.set (argument arguments 1) (argument arguments 2) (deadlineOf (if ttlMs ≠ 0 then t + ttlMs else 0)))) := by
  obtain ⟨hnow, hread⟩ := Cache.cacheNow_becomes hg
  unfold executeSet
  simp only [hdur, hread]
  rw [if_neg (by omega)]
  have hlive : ¬ ((if ttlMs ≠ 0 then t + ttlMs else 0) ≠ 0 ∧ (if ttlMs ≠ 0 then t + ttlMs else 0) ≤ t) := by
    split_ifs <;> omega
  generalize (if ttlMs ≠ 0 then t + ttlMs else 0) = d at hlive
  simp only [withCache, Cache.cacheSetExpireAt]
  cases hobj : kvObjectCreateString env.object (argument arguments 2) with
  | none => exact Or.inl Meets.exhausted
  | some object =>
    obtain ⟨hinv, hview⟩ := @createString_spec hash _ _ _ hobj
    obtain ⟨_, gone, _, he⟩ := Cache.cacheStoreObject_effect hnow.good.core hnow.good.within env.cache (argument arguments 1)
      object d false
    simp only [Bool.false_eq_true, if_false] at he
    simp only
    generalize s.cache.cacheNow.2.cacheStoreObject hash env.cache (argument arguments 1) object d false = r at he
    cases hr : r.2 with
    | ok =>
      obtain ⟨hb, hkeep⟩ := he.becomes hnow.good hr hinv hlive
      rw [hnow.shown_eq, hview] at hb
      left
      refine Meets.append henv (hnow.trans hb) ⟨rfl, rfl, rfl, rfl⟩ rfl ?_ (setRecord_key _ _ _ ▸ hkeep)
      simp only [perform, deadlineOf_getD]
    | capacity =>
      exact @capacity_settles hash t s (s.withCache s.cache.cacheNow.2) _ _ _ _ _ _ hnow (Frame.cache s _) he hr hinv
    | range => exact absurd hr he.inRange
    | error => exact Or.inl Meets.exhausted

variable {key : Bytes} {o : KvObject}

theorem setDuration_three {name value : Bytes} : setDuration [name, key, value] = .ok 0 := rfl

/-- SET with an option -/
theorem executeSet_option (libc : Libc) (hg : Good hash t s.cache) (henv : env.Healthy)
    (ht : t ≤ uint64Max) (name key value option text : Bytes) :
    Settles hash t s (s.executeSet hash env [name, key, value, option, text])
      (match readSetOption t option text with
        | .error e => .reads (s.cache.shown t) (· = .error e)
        | .ok d => perform libc t (s.cache.shown t) [name, key, value, option, text] (.set key value (some d))) := by
  have herror : ∀ e, setDuration [name, key, value, option, text] = .error e →
      Settles hash t s (s.executeSet hash env [name, key, value, option, text])
        (.reads (s.cache.shown t) (· = .error e)) := by
    intro e he
    unfold executeSet
    simp only [he]
    exact Or.inl (Meets.answer (Becomes.refl hg) (Frame.refl s) rfl rfl)
  have hunit : ∀ unit : ℕ, 0 < unit → setDuration [name, key, value, option, text] = setTtl text unit →
      Settles hash t s (s.executeSet hash env [name, key, value, option, text])
        (match readDuration t unit text with
          | .error e => .reads (s.cache.shown t) (· = .error e)
          | .ok d => perform libc t (s.cache.shown t) [name, key, value, option, text] (.set key value (some d))) := by
    intro unit hu hset
    rw [setTtl, durationMs_eq text hu] at hset
    unfold readDuration
    cases hn : intValue text with
    | none =>
      rw [hn] at hset
      exact herror _ hset
    | some n =>
      simp only [hn] at hset ⊢
      by_cases hpos : n ≤ 0
      · rw [if_pos hpos] at hset ⊢
        exact herror _ hset
      rw [if_neg hpos] at hset ⊢
      by_cases hprod : n * unit > uint64Max
      · rw [if_pos hprod] at hset
        rw [deadlineAfter_big hprod]
        exact herror _ hset
      rw [if_neg hprod] at hset
      simp only at hset
      rw [deadlineAfter_eq ht hpos hprod]
      have hms : n.toNat * unit ≠ 0 := by
        refine Nat.mul_ne_zero ?_ hu.ne'
        omega
      generalize n.toNat * unit = ms at hset hms
      by_cases hsum : ms > uint64Max - t
      · rw [if_pos hsum]
        unfold executeSet
        simp only [hset, (Cache.cacheNow_becomes hg).2]
        rw [if_pos ⟨hms, hsum⟩]
        exact Or.inl (Meets.answer (Cache.cacheNow_becomes hg).1 (Frame.cache s _) rfl rfl)
      · rw [if_neg hsum]
        have h := executeSet_stores libc hg henv hset (Or.inr (not_lt.1 hsum))
        rw [if_pos hms, deadlineOf_pos (by omega)] at h
        exact h
  have hset : setDuration [name, key, value, option, text] =
      if argumentEquals option "EX" then setTtl text 1000 else if argumentEquals option "PX" then setTtl text 1
      else .error .malformed := rfl
  unfold readSetOption
  by_cases hex : argumentEquals option "EX" = true
  · rw [if_pos hex] at hset ⊢
    exact hunit 1000 (by decide) hset
  · rw [if_neg hex] at hset ⊢
    by_cases hpx : argumentEquals option "PX" = true
    · rw [if_pos hpx] at hset ⊢
      exact hunit 1 (by decide) hset
    · rw [if_neg hpx] at hset ⊢
      exact herror _ hset

/-- EXPIRE and PEXPIRE -/
theorem executeExpire_meets (libc : Libc) (hg : Good hash t s.cache) (henv : env.Healthy) (ht : t ≤ uint64Max)
    (hu : 0 < unit) (name key text : Bytes) :
    Meets hash t s (s.executeExpire hash env [name, key, text] unit)
      (match readExpire t unit key text with
        | .error e => .reads (s.cache.shown t) (· = .error e)
        | .ok request => perform libc t (s.cache.shown t) [name, key, text] request) := by
  have herror : ∀ {s' : Service}, Becomes hash t s.cache s'.cache [] (s.cache.shown t) → Frame s s' → ∀ e,
      Meets hash t s (s'.answer (.error e)) (.reads (s.cache.shown t) (· = .error e)) := by
    intro s' hb hf e
    exact Meets.answer hb hf rfl rfl
  unfold executeExpire readExpire
  simp only [argument, getD_cons_succ, getD_cons_zero]
  rw [durationMs_eq text hu]
  cases hn : intValue text with
  | none => exact herror (Becomes.refl hg) (Frame.refl s) .integer
  | some n =>
    simp only [Bool.false_eq_true, if_false]
    by_cases hpos : n ≤ 0
    · simp only [if_pos hpos]
      obtain ⟨hb, hr⟩ := Cache.cacheDelete_becomes hg key
      rw [hr]
      cases hk : s.cache.shown t key with
      | none =>
        simp only [perform, hk]
        rw [isSome_none, if_neg (by simp)]
        refine Meets.reads ?_ (Frame.cache s _) rfl
        rwa [← hk, update_eq_self] at hb
      | some v =>
        simp only [perform, hk]
        rw [isSome_some, if_pos rfl]
        exact Meets.append (o := ⟨_, _, some _⟩) henv hb (Frame.cache s _) rfl rfl (by simp)
    simp only [if_neg hpos]
    by_cases hprod : n * unit > uint64Max
    · simp only [if_pos hprod, deadlineAfter_big hprod]
      exact herror (Becomes.refl hg) (Frame.refl s) .integer
    simp only [if_neg hprod, deadlineAfter_eq ht hpos hprod]
    have hms : n.toNat * unit ≠ 0 := by
      refine Nat.mul_ne_zero ?_ hu.ne'
      omega
    generalize n.toNat * unit = ms at hms
    rw [if_neg hpos]
    obtain ⟨hnow, hread⟩ := Cache.cacheNow_becomes hg
    rw [hread]
    by_cases hsum : ms > uint64Max - t
    · rw [if_pos hsum, if_pos hsum]
      exact herror hnow (Frame.cache s _) .integer
    rw [if_neg hsum, if_neg hsum]
    simp only [withCache, Except.map]
    obtain ⟨τ, _, heff⟩ := Cache.cacheExpireAt_effect hnow.good.core hnow.good.within env.cache.heap key
      (show t + ms ≠ 0 by omega)
    by_cases hneg : (s.cache.cacheNow.2.cacheExpireAt hash env.cache.heap key (t + ms)).2 < 0
    · -- only the reservation fails
      rcases heff with ⟨h1, _⟩ | ⟨h1, _⟩
      · rw [h1]
        exact Meets.exhausted
      · rw [h1] at hneg
        split_ifs at hneg <;> exact absurd hneg (by decide)
    · obtain ⟨hb, hr⟩ := Cache.cacheExpireAt_becomes hnow.good env.cache.heap key (show t < t + ms by omega) (not_lt.1 hneg)
      rw [hnow.shown_eq] at hb hr
      rw [hr]
      unfold withDeadline at hb
      cases hk : s.cache.shown t key with
      | none =>
        simp only [hk] at hb
        simp only [perform, hk]
        exact Meets.reads (hnow.trans hb) (Frame.cache s _) rfl
      | some v =>
        obtain ⟨o, d⟩ := v
        simp only [hk] at hb
        simp only [perform, hk]
        exact Meets.append (o := ⟨_, _, some _⟩) henv (hnow.trans hb) (Frame.cache s _) rfl rfl (by simp)

theorem executeDel_meets (hg : Good hash t s.cache) (henv : env.Healthy) (name key : Bytes) :
    Meets hash t s (s.executeDel hash env [name, key])
      (perform libc t (s.cache.shown t) [name, key] (.del key)) := by
  obtain ⟨hb, hr⟩ := Cache.cacheDelete_becomes hg key
  unfold executeDel
  simp only [argument, getD_cons_succ, getD_cons_zero, hr]
  cases hk : s.cache.shown t key with
  | none =>
    simp only [perform, hk, isSome_none]
    refine Meets.reads ?_ (Frame.cache s _) rfl
    rwa [← hk, update_eq_self] at hb
  | some v =>
    simp only [perform, hk, isSome_some]
    exact Meets.append (o := ⟨_, _, some _⟩) henv hb (Frame.cache s _) rfl rfl (by simp)

theorem executePersist_meets (hg : Good hash t s.cache) (henv : env.Healthy) (name key : Bytes) :
    Meets hash t s (s.executePersist hash env [name, key])
      (perform libc t (s.cache.shown t) [name, key] (.persist key)) := by
  obtain ⟨hb, hr⟩ := Cache.cachePersist_becomes hg key
  unfold executePersist
  simp only [argument, getD_cons_succ, getD_cons_zero, hr]
  unfold withDeadline at hb
  have hsame : ∀ {o}, s.cache.shown t key = some (o, none) → update (s.cache.shown t) key (some (o, none)) = s.cache.shown t :=
    fun hk => by rw [← hk, update_eq_self]
  cases hk : s.cache.shown t key with
  | none =>
    simp only [hk] at hb
    simp only [perform, hk, bind_none, isSome_none]
    exact Meets.reads hb (Frame.cache s _) rfl
  | some v =>
    obtain ⟨o, d⟩ := v
    simp only [hk] at hb
    cases d with
    | none =>
      rw [hsame hk] at hb
      simp only [perform, hk, bind_some, isSome_none]
      exact Meets.reads hb (Frame.cache s _) rfl
    | some d =>
      simp only [perform, hk, bind_some, isSome_some]
      exact Meets.append (o := ⟨_, _, some _⟩) henv hb (Frame.cache s _) rfl rfl (by simp)

theorem remaining_nonneg {d : ℕ} : 0 ≤ remaining t (some d) := by
  simp only [remaining, le_min_iff]
  exact ⟨Int.natCast_nonneg _, by decide⟩

theorem executeTtl_meets (hg : Good hash t s.cache) (name key : Bytes) :
    Meets hash t s (s.executeTtl hash [name, key] true) (perform libc t (s.cache.shown t) [name, key] (.ttl key)) ∧
      Meets hash t s (s.executeTtl hash [name, key] false)
        (perform libc t (s.cache.shown t) [name, key] (.pttl key)) := by
  obtain ⟨hb, hr⟩ := Cache.cacheTtlMs_becomes hg key
  unfold executeTtl
  simp only [argument, getD_cons_succ, getD_cons_zero, hr, perform]
  cases hk : s.cache.shown t key with
  | none =>
    exact ⟨Meets.reads hb (Frame.cache s _) rfl, Meets.reads hb (Frame.cache s _) rfl⟩
  | some v =>
    obtain ⟨o, d⟩ := v
    refine ⟨Meets.reads hb (Frame.cache s _) ?_, Meets.reads hb (Frame.cache s _) ?_⟩
    · cases d with
      | none => rfl
      | some d => simp [remaining_nonneg]
    · simp

/-! ## Reads of typed objects -/

/-- one of the three types: its objects are those `wrap` builds, and `read` takes them apart -/
structure Kind {M : Type} (read : Obj → Option M) (wrap : M → Obj) (type : KvType) : Prop where
  read_wrap : ∀ m, read (wrap m) = some m
  type_wrap : ∀ m, (wrap m).type = type
  of_type : ∀ o : Obj, o.type = type → ∃ m, o = wrap m
  other : ∀ o : Obj, o.type ≠ type → read o = none

theorem string_kind : Kind Obj.string? .string .string := by
  refine ⟨fun _ => rfl, fun _ => rfl, fun o ho => ?_, fun o ho => ?_⟩ <;> cases o <;> simp_all [Obj.type, Obj.string?]

theorem hash_kind : Kind Obj.hash? .hash .hash := by
  refine ⟨fun _ => rfl, fun _ => rfl, fun o ho => ?_, fun o ho => ?_⟩ <;> cases o <;> simp_all [Obj.type, Obj.hash?]

theorem zset_kind : Kind Obj.zset? .zset .zset := by
  refine ⟨fun _ => rfl, fun _ => rfl, fun o ho => ?_, fun o ho => ?_⟩ <;> cases o <;> simp_all [Obj.type, Obj.zset?]

/-- a request that reads an object of one type, whose body meets the answer to the object that is there -/
theorem readObject_meets {M : Type} {read : Obj → Option M} {wrap : M → Obj} {type : KvType} (hkind : Kind read wrap type)
    {found : Cache × Option ℕ} (hf : Finds hash t s.cache key found) {missing : Reply}
    {answer : M → Option ℕ → Outcome} {body : Service → ℕ → KvObject → Executed}
    (hbody : ∀ id m d, found.2 = some id → (found.1.entry id).object.view = wrap m →
      (found.1.entry id).object.Inv hash → s.cache.shown t key = some (wrap m, d) →
      Meets hash t s (body (s.withCache found.1) id (found.1.entry id).object) (answer m d)) :
    Meets hash t s (s.readObject found type missing body) (answerWith (s.cache.shown t) key read missing answer) := by
  unfold readObject answerWith
  cases hid : found.2 with
  | none =>
    simp only [hf.missing hid]
    exact Meets.reads hf.becomes (Frame.cache s _) rfl
  | some id =>
    obtain ⟨h1, _, h3, _⟩ := hf.entry id hid
    have hinv := hf.becomes.good.sound id h1
    simp only [h3]
    by_cases htype : kvObjectType (found.1.entry id).object = type
    · rw [if_neg (not_not_intro htype)]
      obtain ⟨m, hm⟩ := hkind.of_type _ ((KvObject.type_view _).trans htype)
      rw [hm] at h3 ⊢
      simp only [hkind.read_wrap]
      exact hbody id m _ hid hm hinv h3
    · rw [if_pos htype]
      have hother := hkind.other (found.1.entry id).object.view (by rwa [KvObject.type_view])
      simp only [hother]
      exact Meets.reads hf.becomes (Frame.cache s _) rfl

theorem stringValue_of_view {value : Bytes} (h : o.view = .string value) : kvObjectStringValue o = some value := by
  unfold KvObject.view at h
  unfold kvObjectStringValue
  cases hv : o.value <;> simp_all

theorem executeGet_meets (hg : Good hash t s.cache) (name key : Bytes) :
    Meets hash t s (s.executeGet hash [name, key]) (perform libc t (s.cache.shown t) [name, key] (.get key)) := by
  have hf := Cache.cacheGetObjectRef_finds hg key true
  refine readObject_meets string_kind hf fun id value d hid hview _ _ => ?_
  simp only [stringValue_of_view hview, getD_some]
  exact Meets.reads hf.becomes (Frame.cache s _) rfl

/-- an object that a read has rearranged without changing what it holds is put back -/
theorem putObject_becomes (hg : Good hash t s.cache) {found : Cache × Option ℕ}
    (hf : Finds hash t s.cache key found) {id : ℕ} (hid : found.2 = some id) {object : KvObject}
    (hinv : object.Inv hash) (hview : object.view = (found.1.entry id).object.view)
    (hsmall : s.cache.maxMemory ≠ 0 → kvObjectMemoryUsage object ≤ kvObjectMemoryUsage (found.1.entry id).object) :
    Becomes hash t s.cache ((s.withCache found.1).putObject id object).cache [] (s.cache.shown t) := by
  have ht : kvObjectType object = kvObjectType (found.1.entry id).object := by
    rw [← KvObject.type_view, ← KvObject.type_view, hview]
  obtain ⟨d, hd, hb⟩ := (hf.mutate hid ht hinv hsmall).becomes hg
  obtain ⟨_, _, h3, _⟩ := hf.entry id hid
  rw [h3, map_some, Option.some.injEq] at hd
  rwa [hview, ← hd, ← h3, update_eq_self] at hb

theorem executeHget_meets (hg : Good hash t s.cache) (name key field : Bytes) :
    Meets hash t s (s.executeHget hash [name, key, field])
      (perform libc t (s.cache.shown t) [name, key, field] (.hget key field)) := by
  have hf := Cache.cacheGetHashObjectRef_finds hg key true
  refine readObject_meets hash_kind hf fun id m d hid hview hinv _ => ?_
  obtain ⟨g1, g2, g3⟩ := hashGet_spec hinv hview field
  refine Meets.reads (putObject_becomes hg hf hid g1 (g2.trans hview.symm) fun _ => (hashGet_usage _ _).le)
    ⟨rfl, rfl, rfl, rfl⟩ ?_
  simp only [argument, getD_cons_succ, getD_cons_zero, g3]

theorem hashLength_of_view {m : Bytes → Option Bytes} (hi : o.Inv hash) (hv : o.view = .hash m) :
    kvObjectHashLength o = {f | (m f).isSome}.ncard := by
  obtain ⟨table, hval, hit, rfl⟩ := hi.hash hv
  rw [kvObjectHashLength, hval]
  simp only [KvHash.count_eq_ncard hit, fields, isSome_map]

theorem executeHlen_meets (hg : Good hash t s.cache) (name key : Bytes) :
    Meets hash t s (s.executeHlen hash [name, key]) (perform libc t (s.cache.shown t) [name, key] (.hlen key)) := by
  have hf := Cache.cacheGetHashObjectRef_finds hg key true
  refine readObject_meets hash_kind hf fun id m d hid hview hinv _ => ?_
  rw [hashLength_of_view hinv hview]
  exact Meets.reads hf.becomes (Frame.cache s _) rfl

theorem zsetLength_of_view {m : Bytes → Option Score} (hi : o.Inv hash) (hv : o.view = .zset m) :
    kvObjectZsetLength o = {k | (m k).isSome}.ncard := by
  rw [length_answer hi hv]
  simp only [nums, isSome_map]

theorem executeZcard_meets (hg : Good hash t s.cache) (name key : Bytes) :
    Meets hash t s (s.executeZcard hash [name, key]) (perform libc t (s.cache.shown t) [name, key] (.zcard key)) := by
  have hf := Cache.cacheGetObjectRef_finds hg key true
  refine readObject_meets zset_kind hf fun id m d hid hview hinv _ => ?_
  rw [zsetLength_of_view hinv hview]
  exact Meets.reads hf.becomes (Frame.cache s _) rfl

end Service

end StoreSystem
