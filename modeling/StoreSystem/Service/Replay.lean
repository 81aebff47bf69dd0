/-
Replay of the AOF: the records a run has appended, fed in order to `kvstore_service_replay_aof` on an empty service whose
clock reads the restart time `T`.

A record that names a deadline up to `T` deletes its key during replay (`atReplay`), while the run that wrote it still had
the object. Whatever the run did to the object before the deadline is then replayed without it. `Revives` names the requests
after which this shows: a deadline up to `T` is taken away or moved past `T`, or a collection with one takes a write.

- `replayAof_restores`: one record acts on the keyspace as its request at time `T`.
- `replay_restores_keyspace`: the log of a run without such requests rebuilds the keyspace the run shows at `T`.
- `replay_accepts_log`: every record of such a log is accepted (moved deadlines do no harm here).
- `persist_lost_in_replay`, `reused_key_stops_replay`: logs of two runs with such requests.

Premises: those of `Service.Execution`; the replay does not run out of memory.
-/
import StoreSystem.Service.Execution

namespace StoreSystem

open List Function
open Service (argument delRecord integer_not_error persistRecord pexpireatRecord setRecord)

/-! ## Records and requests -/

/-- what the record of a request stands for when it is replayed at time `T` -/
def atReplay (T : ℕ) : Request → Request
  | .set key value (some d) => if d ≤ T then .del key else .set key value (some d)
  | .expireAt key d => if d ≤ T then .del key else .expireAt key d
  | request => request

variable {r : Replayed} {request : Request}

namespace Service

open Cache (Becomes Good)

variable {hash : Hasher} {libc : Libc} {T t : ℕ} {env : Env} {s : Service} {arguments record : Record}
  {request : Request}

/-! ## One record -/

variable {name : Bytes} {d : ℕ}

/-- a name that equals one literal compares with the others as that literal does -/
theorem argumentEquals_congr {literal : String} (h : argumentEquals name literal = true)
    (hupper : (ascii literal).map asciiUpper = ascii literal) (other : String) :
    argumentEquals name other = argumentEquals (ascii literal) other := by
  unfold argumentEquals at h ⊢
  rw [decide_eq_true_eq] at h
  rw [h, hupper]

theorem argumentEquals_of_findCommand {literal : String} {command : ServiceCommand}
    (h : findCommand name = command) (hknown : command ≠ .unknown)
    (hunique : ∀ n ∈ commandNames, n.2 = command → n.1 = literal) : argumentEquals name literal = true := by
  unfold findCommand at h
  split at h
  · rename_i n hn
    have hfound := List.find?_some hn
    rwa [hunique n (List.mem_of_find?_eq_some hn) h] at hfound
  · exact absurd h.symm hknown

/-- the result of a record is the outcome `o`, but for the evicted keys `gone`; it is accepted unless the reply is an error -/
structure Restores (hash : Hasher) (T : ℕ) (s : Service) (r : Replayed) (gone : List Bytes) (o : Outcome) : Prop where
  becomes : Becomes hash T s.cache r.service.cache gone o.keyspace
  frame : Frame s r.service
  reply : ∃ reply, o.replies reply ∧ r.ok = !reply.isError

/-- a reading of the clock comes first -/
theorem Restores.after {s' : Service} {gone : List Bytes} {o : Outcome}
    (hb : Becomes hash T s.cache s'.cache [] (s.cache.shown T)) (hf : Frame s s')
    (h : Restores hash T s' r gone o) : Restores hash T s r gone o :=
  ⟨hb.trans h.becomes, hf.trans h.frame, h.reply⟩

theorem replayDelete_restores (libc : Libc) (arguments : Record) (hg : Good hash T s.cache) (key : Bytes) :
    Restores hash T s (s.replayDelete hash key) [] (perform libc T (s.cache.shown T) arguments (.del key)) := by
  obtain ⟨hb, hr⟩ := Cache.cacheDelete_becomes hg key
  unfold replayDelete
  simp only [perform, hr]
  cases hk : s.cache.shown T key with
  | none =>
    rw [← hk, update_eq_self] at hb
    exact ⟨hb, Frame.cache s _, .integer 0, rfl, by simp [Reply.isError]⟩
  | some v => exact ⟨hb, Frame.cache s _, .integer 1, rfl, by simp [Reply.isError]⟩

theorem replaySet_restores (libc : Libc) (arguments : Record) (hg : Good hash T s.cache) (hmem : s.cache.maxMemory = 0)
    (key value : Bytes) (d : ℕ) (hoom : (s.replaySet hash env T key value d).outOfMemory = false) :
    ∃ gone, Restores hash T s (s.replaySet hash env T key value d) gone
      (perform libc T (s.cache.shown T) arguments (atReplay T (.set key value (deadlineOf d)))) := by
  unfold replaySet at hoom ⊢
  by_cases hpast : d ≠ 0 ∧ d ≤ T
  · rw [if_pos hpast, deadlineOf_pos hpast.1, atReplay, if_pos hpast.2]
    exact ⟨[], replayDelete_restores libc arguments hg key⟩
  rw [if_neg hpast] at hoom ⊢
  have hstays : atReplay T (.set key value (deadlineOf d)) = .set key value (deadlineOf d) := by
    unfold deadlineOf atReplay
    split_ifs with hd
    · rfl
    · simp only
      rw [if_neg (by omega)]
  rw [hstays]
  have hstore : s.cache.cacheSetExpireAt hash env.object env.cache key value d = (s.cache, .error) ∨
      ∃ object gone, kvObjectCreateString env.object value = some object ∧
        Cache.StoreEffect hash s.cache (s.cache.cacheSetExpireAt hash env.object env.cache key value d) key object d gone := by
    unfold Cache.cacheSetExpireAt
    cases hobj : kvObjectCreateString env.object value with
    | none => exact Or.inl rfl
    | some object =>
      obtain ⟨_, gone, _, he⟩ := Cache.cacheStoreObject_effect hg.core hg.within env.cache key object d false
      simp only [Bool.false_eq_true, if_false] at he
      exact Or.inr ⟨object, gone, rfl, he⟩
  simp only at hoom ⊢
  generalize s.cache.cacheSetExpireAt hash env.object env.cache key value d = r at hstore hoom ⊢
  rcases hstore with rfl | ⟨object, gone, hobj, he⟩
  · exact absurd hoom (by simp)
  obtain ⟨hinv, hview⟩ := @createString_spec hash _ _ _ hobj
  rw [hobj, Option.any_some] at hoom
  cases hr : r.2 with
  | ok =>
    obtain ⟨hb, _⟩ := he.becomes hg hr hinv hpast
    rw [hview] at hb
    exact ⟨gone, hb, Frame.cache s _, .simple "OK", rfl, by simp [Reply.isError]⟩
  | capacity =>
    have := he.overflow hr hmem
    simp [hr, chargeOverflows, this] at hoom
  | range => exact absurd hr he.inRange
  | error => simp [hr] at hoom

theorem replayExpireAt_restores (libc : Libc) (arguments : Record) (hg : Good hash T s.cache) (key : Bytes) (d : ℕ)
    (hoom : (s.replayExpireAt hash env T key d).outOfMemory = false) :
    Restores hash T s (s.replayExpireAt hash env T key d) []
      (perform libc T (s.cache.shown T) arguments (atReplay T (.expireAt key d))) := by
  unfold replayExpireAt at hoom ⊢
  simp only [atReplay]
  by_cases hpast : d ≤ T
  · rw [if_pos hpast, if_pos hpast]
    exact replayDelete_restores libc arguments hg key
  rw [if_neg hpast] at hoom
  rw [if_neg hpast, if_neg hpast]
  simp only [decide_eq_false_iff_not, not_lt] at hoom
  obtain ⟨hb, hr⟩ := Cache.cacheExpireAt_becomes hg env.cache.heap key (not_le.1 hpast) hoom
  simp only [perform, not_lt.2 hoom, not_false_eq_true, decide_true]
  unfold Cache.withDeadline at hb
  cases hk : s.cache.shown T key with
  | none =>
    simp only [hk] at hb
    exact ⟨hb, Frame.cache s _, .integer 0, rfl, rfl⟩
  | some v =>
    simp only [hk] at hb
    exact ⟨hb, Frame.cache s _, .integer 1, rfl, rfl⟩

theorem replayPersist_restores (libc : Libc) (arguments : Record) (hg : Good hash T s.cache) (key : Bytes) :
    Restores hash T s ⟨s.withCache (s.cache.cachePersist hash key).1, ¬ (s.cache.cachePersist hash key).2 < 0, false⟩
      [] (perform libc T (s.cache.shown T) arguments (.persist key)) := by
  obtain ⟨hb, hr⟩ := Cache.cachePersist_becomes hg key
  have hok : ¬ (s.cache.cachePersist hash key).2 < 0 := by
    rw [hr]
    split_ifs <;> decide
  simp only [perform, hok, not_false_eq_true, decide_true]
  unfold Cache.withDeadline at hb
  cases hk : s.cache.shown T key with
  | none =>
    simp only [hk] at hb
    exact ⟨hb, Frame.cache s _, .integer 0, rfl, rfl⟩
  | some v =>
    obtain ⟨o, d⟩ := v
    simp only [hk] at hb
    cases d with
    | none =>
      rw [← hk, update_eq_self] at hb
      exact ⟨hb, Frame.cache s _, .integer 0, rfl, rfl⟩
    | some d => exact ⟨hb, Frame.cache s _, .integer 1, rfl, rfl⟩

/-- the names of the other records are not those of a collection's command -/
theorem collection_names (h : findCommand name ∈ [ServiceCommand.hset, .hdel, .zadd, .zrem]) :
    replayedByExecution name = true ∧ argumentEquals name "PING" = false ∧ argumentEquals name "SET" = false ∧
      argumentEquals name "DEL" = false ∧ argumentEquals name "PERSIST" = false ∧ argumentEquals name "PEXPIREAT" = false := by
  have hname : ∀ literal : String, argumentEquals name literal = true → literal ∈ ["HSET", "HDEL", "ZADD", "ZREM"] →
      replayedByExecution name = true ∧ argumentEquals name "PING" = false ∧ argumentEquals name "SET" = false ∧
        argumentEquals name "DEL" = false ∧ argumentEquals name "PERSIST" = false ∧ argumentEquals name "PEXPIREAT" = false := by
    intro literal he hmem
    have hcongr := argumentEquals_congr he (by
      simp only [mem_cons, not_mem_nil, or_false] at hmem
      rcases hmem with rfl | rfl | rfl | rfl <;> decide)
    unfold replayedByExecution
    simp only [hcongr]
    simp only [mem_cons, not_mem_nil, or_false] at hmem
    rcases hmem with rfl | rfl | rfl | rfl <;> decide
  simp only [mem_cons, not_mem_nil, or_false] at h
  rcases h with h | h | h | h
  · exact hname "HSET" (argumentEquals_of_findCommand h (by decide) (by decide)) (by decide)
  · exact hname "HDEL" (argumentEquals_of_findCommand h (by decide) (by decide)) (by decide)
  · exact hname "ZADD" (argumentEquals_of_findCommand h (by decide) (by decide)) (by decide)
  · exact hname "ZREM" (argumentEquals_of_findCommand h (by decide) (by decide)) (by decide)

theorem replayDeadline_decimalText (hpos : d ≠ 0) (hmax : d ≤ uint64Max) : replayDeadline (decimalText d) = some d := by
  unfold replayDeadline
  simp only [parseUint64Bytes_decimalText hmax]
  rw [if_neg hpos]

theorem replayAof_setRecord (key value : Bytes) (hd : d ≤ uint64Max) :
    s.replayAof hash libc env (setRecord key value d) =
      (s.withCache s.cache.cacheNow.2).replaySet hash env s.cache.cacheNow.1 key value d := by
  by_cases hzero : d = 0
  · subst hzero
    rfl
  have hping : argumentEquals (ascii "SET") "PING" = false := by decide
  have hset : argumentEquals (ascii "SET") "SET" = true := by decide
  have hpxat : argumentEquals (ascii "PXAT") "PXAT" = true := by decide
  unfold setRecord replayAof
  simp [argument, hzero, hping, hset, hpxat, replayDeadline_decimalText hzero hd]

theorem replayAof_pexpireatRecord (key : Bytes) (hpos : d ≠ 0) (hd : d ≤ uint64Max) :
    s.replayAof hash libc env (pexpireatRecord key d) =
      (s.withCache s.cache.cacheNow.2).replayExpireAt hash env s.cache.cacheNow.1 key d := by
  have hping : argumentEquals (ascii "PEXPIREAT") "PING" = false := by decide
  have hset : argumentEquals (ascii "PEXPIREAT") "SET" = false := by decide
  have hname : argumentEquals (ascii "PEXPIREAT") "PEXPIREAT" = true := by decide
  unfold pexpireatRecord replayAof
  simp [argument, hping, hset, hname, replayDeadline_decimalText hpos hd]

theorem replayAof_collection (hframed : Framed record)
    (hcommand : findCommand (argument record 0) ∈ [ServiceCommand.hset, .hdel, .zadd, .zrem]) :
    s.replayAof hash libc env record =
      (let r := (s.withCache s.cache.cacheNow.2).executeWithBarrier hash libc env record
       ⟨r.service, ¬ r.reply.isError, r.outOfMemory⟩) := by
  obtain ⟨h1, h2, h3, h4, h5, h6⟩ := collection_names hcommand
  have hfew : ¬ record.length > respMaxArguments := not_lt.2 hframed.few
  unfold replayAof
  simp [h1, h2, h3, h4, h5, h6, hfew, hframed.nonempty]

/-- **One record** acts on the keyspace as its request does at the time of the replay. -/
theorem replayAof_restores (hg : Good hash T s.cache) (hmem : s.cache.maxMemory = 0) (henv : env.Healthy)
    (hT : T ≤ uint64Max) (hshort : (s.cache.shown T).Short) (hmysql : s.mysql = none) (hframed : Framed arguments)
    (hread : readRequest libc t arguments = .ok request) (hlogs : Logs arguments request record)
    (hr : s.replayAof hash libc env record = r) (hoom : r.outOfMemory = false) :
    ∃ gone, Restores hash T s r gone (perform libc T (s.cache.shown T) arguments (atReplay T request)) := by
  obtain ⟨hnow, hclock⟩ := Cache.cacheNow_becomes hg
  -- every record but PING has the clock read first
  obtain ⟨s', hs'⟩ : ∃ s', s' = s.withCache s.cache.cacheNow.2 := ⟨_, rfl⟩
  have hcache : s'.cache = s.cache.cacheNow.2 := by rw [hs']; rfl
  have hframe : Frame s s' := by rw [hs']; exact Frame.cache s _
  rw [← hcache] at hnow
  have hmem' : s'.cache.maxMemory = 0 := hnow.limits.2.trans hmem
  subst hr
  have hreads := readRequest_reads hread
  cases hlogs with
  | set key value d =>
    have hd : deadlineOf (d.getD 0) = d ∧ d.getD 0 ≤ uint64Max := by
      cases hreads with
      | plain hplain =>
        cases d with
        | none => exact ⟨rfl, Nat.zero_le _⟩
        | some d => exact absurd hplain id
      | set _ _ d hd => exact ⟨deadlineOf_pos (Nat.ne_of_gt (Nat.zero_lt_of_lt hd.1)), hd.2⟩
      | collection hc => exact absurd hc id
    rw [replayAof_setRecord key value hd.2, hclock, ← hs'] at hoom ⊢
    obtain ⟨gone, h⟩ := replaySet_restores libc arguments hnow.good hmem' key value (d.getD 0) hoom
    rw [hnow.shown_eq, hd.1] at h
    exact ⟨gone, h.after hnow hframe⟩
  | del key =>
    rw [show s.replayAof hash libc env (delRecord key) = s'.replayDelete hash key by rw [hs']; rfl]
    have h := replayDelete_restores libc arguments hnow.good key
    rw [hnow.shown_eq] at h
    exact ⟨[], h.after hnow hframe⟩
  | expireAt key d =>
    have hd : d ≠ 0 ∧ d ≤ uint64Max := by
      cases hreads with
      | plain hplain => exact absurd hplain id
      | expireAt _ _ hd => exact ⟨Nat.ne_of_gt (Nat.zero_lt_of_lt hd.1), hd.2⟩
      | collection hc => exact absurd hc id
    rw [replayAof_pexpireatRecord key hd.1 hd.2, hclock, ← hs'] at hoom ⊢
    have h := replayExpireAt_restores libc arguments hnow.good key d hoom
    rw [hnow.shown_eq] at h
    exact ⟨[], h.after hnow hframe⟩
  | persist key =>
    have h := replayPersist_restores libc arguments hnow.good key
    rw [hnow.shown_eq] at h
    have hrecord : s.replayAof hash libc env (persistRecord key) =
        ⟨s'.withCache (s'.cache.cachePersist hash key).1, ¬ (s'.cache.cachePersist hash key).2 < 0, false⟩ := by
      rw [hs']
      rfl
    rw [hrecord]
    exact ⟨[], h.after hnow hframe⟩
  | original hc =>
    have hsame : atReplay T request = request := by cases request <;> first | rfl | exact absurd hc id
    obtain ⟨_, hany, hcommand, _⟩ := hreads.of_collection hc
    rw [replayAof_collection hframed hcommand, ← hs'] at hoom ⊢
    simp only at hoom ⊢
    obtain ⟨gone, reported, ha⟩ := executeWithBarrier_answers hnow.good hmem' henv hT (by rw [hnow.shown_eq]; exact hshort) hframed
      (hframe.mysql.trans hmysql) rfl hoom
    rw [hnow.shown_eq, reference_ok _ (hany T)] at ha
    rw [hsame]
    refine ⟨gone, Restores.after hnow hframe ⟨ha.becomes, ha.frame, _, ha.reply, ?_⟩⟩
    simp

end Service

/-! ## Deadlines between a request and the replay -/

section Keyspaces

variable {libc : Libc} {t T : ℕ} {ks : Keyspace} {arguments : Record} {key : Bytes}

theorem after_key (ks : Keyspace) (T : ℕ) (key : Bytes) : ks.after T key = (ks key).filter fun v => alive T v.2 := rfl

variable {o : Obj} {d : Option ℕ} {type : KvType}

theorem after_alive (hk : ks key = some (o, d)) (hd : alive T d = true) :
    ks.after T key = some (o, d) := by
  rw [after_key, hk, Option.filter_some, if_pos hd]

theorem after_dead (hk : ks key = some (o, d)) (hd : alive T d = false) : ks.after T key = none := by
  rw [after_key, hk, Option.filter_some, if_neg (by rw [hd]; decide)]

/-- the object under the key has a deadline up to `T` -/
def DiesBy (T : ℕ) (ks : Keyspace) (key : Bytes) : Prop := ∃ o d, ks key = some (o, some d) ∧ d ≤ T

/-- a write that changes a collection with a deadline up to `T` -/
def Rewrites (T : ℕ) (ks : Keyspace) : Request → Prop
  | .hset key pairs => ∃ m d, ks key = some (.hash m, some d) ∧ d ≤ T ∧ (setFields m pairs).changed = true
  | .zadd key pairs => ∃ m d, ks key = some (.zset m, some d) ∧ d ≤ T ∧ (addMembers m pairs).changed = true
  | _ => False

/-- the requests that go on with an object a replay at `T` has deleted: its deadline up to `T` is taken away or moved past
`T`, or it takes a write -/
def Revives (T : ℕ) (ks : Keyspace) : Request → Prop
  | .persist key => DiesBy T ks key
  | .expireAt key d => T < d ∧ DiesBy T ks key
  | request => Rewrites T ks request

theorem revives_of_rewrites (h : Rewrites T ks request) : Revives T ks request := by
  cases request <;> first | exact h | exact absurd h id

theorem perform_del_keyspace (libc : Libc) (t : ℕ) (arguments : Record) (ks : Keyspace) (key : Bytes) :
    (perform libc t ks arguments (.del key)).keyspace = Function.update ks key none ∧
      ∀ reply, (perform libc t ks arguments (.del key)).replies reply → reply.isError = false := by
  simp only [perform]
  split
  · rename_i hk
    refine ⟨by rw [← hk, update_eq_self]; rfl, fun reply hr => ?_⟩
    rw [show reply = .integer 0 from hr]
    rfl
  · refine ⟨rfl, fun reply hr => ?_⟩
    rw [show reply = .integer 1 from hr]
    rfl

/-! ## A replayed keyspace and the live one -/

/-- some of an object: all of it, or its type and of a collection at least one item, none of them new -/
def Obj.PartOf : Obj → Obj → Prop
  | .string _, .string _ => True
  | .hash m, .hash m' => m = m' ∨ (∃ f, (m f).isSome) ∧ ∀ f, (m f).isSome → (m' f).isSome
  | .zset m, .zset m' => m = m' ∨ (∃ k, (m k).isSome) ∧ ∀ k, (m k).isSome → (m' k).isSome
  | _, _ => False

theorem Obj.PartOf.type_eq {o' : Obj} (h : o.PartOf o') : o.type = o'.type := by
  cases o <;> cases o' <;> first | rfl | exact absurd h id

theorem Obj.partOf_refl : ∀ o : Obj, o.PartOf o
  | .string _ => trivial
  | .hash _ => Or.inl rfl
  | .zset _ => Or.inl rfl

/-- nothing that outlives `T` -/
def Ended (T : ℕ) (v : Option (Obj × Option ℕ)) : Prop := ∀ o d, v = some (o, d) → alive T d = false

theorem ended_none : Ended T none := fun _ _ h => by cases h

theorem ended_some (h : alive T d = false) : Ended T (some (o, d)) := by
  rintro _ _ ⟨⟩
  exact h

/-- a replayed object is part of a live one that does not end before `T`; a `whole` one is all of it, and nothing is missing -/
def CoveredBy (T : ℕ) (whole : Prop) : Option (Obj × Option ℕ) → Option (Obj × Option ℕ) → Prop
  | none, v' => whole → Ended T v'
  | some v, some v' => v.1.PartOf v'.1 ∧ alive T v'.2 = true ∧ (whole → v = v')
  | some _, none => False

/-- **The replayed keyspace** holds parts of the live one, where that does not end before `T`; when `whole`, all of it. -/
def Covers (T : ℕ) (whole : Prop) (rs ks : Keyspace) : Prop := ∀ key, CoveredBy T whole (rs key) (ks key)

variable {rs : Keyspace} {whole : Prop}

theorem coveredBy_refl (h : alive T d = true) : CoveredBy T whole (some (o, d)) (some (o, d)) :=
  ⟨o.partOf_refl, h, fun _ => rfl⟩

theorem coveredBy_none : CoveredBy T whole none none := fun _ => ended_none

theorem covers_after : Covers T whole (ks.after T) ks := by
  intro key
  cases hk : ks key with
  | none =>
    rw [after_key, hk]
    exact coveredBy_none
  | some v =>
    cases hd : alive T v.2 with
    | true =>
      rw [after_alive (o := v.1) (d := v.2) hk hd]
      exact coveredBy_refl hd
    | false =>
      rw [after_dead (o := v.1) (d := v.2) hk hd]
      exact fun _ => ended_some hd

theorem Covers.eq_after (h : Covers T True rs ks) : rs = ks.after T := by
  funext key
  have hk := h key
  cases hl : ks key with
  | none =>
    rw [after_key, hl]
    cases hr : rs key with
    | none => rfl
    | some w =>
      rw [hl, hr] at hk
      exact absurd hk id
  | some v =>
    obtain ⟨o, d⟩ := v
    rw [hl] at hk
    cases hr : rs key with
    | none =>
      rw [hr] at hk
      exact (after_dead hl (hk trivial o d rfl)).symm
    | some w =>
      rw [hr] at hk
      rw [after_alive hl hk.2.1, hk.2.2 trivial]

theorem Covers.update (h : Covers T whole rs ks) (key : Bytes) {v v' : Option (Obj × Option ℕ)} (hv : CoveredBy T whole v v') :
    Covers T whole (Function.update rs key v) (Function.update ks key v') := by
  intro k
  rw [update_apply, update_apply]
  split_ifs
  · exact hv
  · exact h k

/-- only the live side changes -/
theorem Covers.update_live (h : Covers T whole rs ks) (key : Bytes) {v' : Option (Obj × Option ℕ)}
    (hv : CoveredBy T whole (rs key) v') : Covers T whole rs (Function.update ks key v') := by
  have := h.update key hv
  rwa [update_eq_self] at this

/-- what is gone at `t` is gone at `T` -/
theorem Covers.after (h : Covers T whole rs ks) (hle : t ≤ T) : Covers T whole rs (ks.after t) := by
  intro key
  have hk := h key
  cases hr : rs key with
  | none =>
    rw [hr] at hk
    intro hw o d hlate
    rw [after_key, Option.filter_eq_some_iff] at hlate
    exact hk hw o d hlate.1
  | some v =>
    rw [hr] at hk
    cases hl : ks key with
    | none =>
      rw [hl] at hk
      exact absurd hk id
    | some v' =>
      rw [hl] at hk
      have halive : alive t v'.2 = true := by
        have := hk.2.1
        cases hd : v'.2 with
        | none => rfl
        | some d =>
          rw [hd] at this
          simp only [alive, decide_eq_true_eq] at this ⊢
          omega
      rw [after_alive (o := v'.1) (d := v'.2) hl halive]
      exact hk

/-- a request on the live keyspace and its record on the replayed one, related by `Rel` -/
structure RecordFollows (Rel : Keyspace → Keyspace → Prop) (libc : Libc) (T : ℕ) (rs : Keyspace) (arguments : Record) (request : Request)
    (o : Outcome) : Prop where
  silent : o.record = none → Rel rs o.keyspace
  logged : o.record ≠ none →
    Rel (perform libc T rs arguments (atReplay T request)).keyspace o.keyspace ∧
      ∀ reply, (perform libc T rs arguments (atReplay T request)).replies reply → reply.isError = false

theorem Covers.follows_reads (h : Covers T whole rs ks) {replies : Reply → Prop} :
    RecordFollows (Covers T whole) libc T rs arguments request (.reads ks replies) :=
  ⟨fun _ => h, fun hr => absurd rfl hr⟩

theorem Covers.set_follows (h : Covers T whole rs ks) (value : Bytes) (d : Option ℕ) :
    RecordFollows (Covers T whole) libc T rs arguments (.set key value d) (perform libc t ks arguments (.set key value d)) := by
  refine ⟨fun hr => absurd hr (by simp [perform]), fun _ => ?_⟩
  have hgo : ∀ d : Option ℕ, alive T d = true →
      Covers T whole (perform libc T rs arguments (.set key value d)).keyspace (perform libc t ks arguments (.set key value d)).keyspace ∧
      ∀ reply, (perform libc T rs arguments (.set key value d)).replies reply → reply.isError = false := by
    intro d hd
    refine ⟨h.update key (coveredBy_refl hd), fun reply hr => ?_⟩
    rw [show reply = .simple "OK" from hr]
    rfl
  cases d with
  | none => exact hgo none rfl
  | some d =>
    simp only [atReplay]
    split_ifs with hpast
    · obtain ⟨h1, h2⟩ := perform_del_keyspace libc T arguments rs key
      exact ⟨by rw [h1]; exact h.update key fun _ => ended_some (by simp [alive, hpast]), h2⟩
    · exact hgo (some d) (by simpa [alive] using hpast)

theorem Covers.del_follows (h : Covers T whole rs ks) :
    RecordFollows (Covers T whole) libc T rs arguments (.del key) (perform libc t ks arguments (.del key)) := by
  obtain ⟨h1, h2⟩ := perform_del_keyspace libc T arguments rs key
  simp only [perform]
  split
  · exact h.follows_reads
  · refine ⟨by simp, fun _ => ⟨?_, h2⟩⟩
    rw [show atReplay T (.del key) = .del key from rfl, h1]
    exact h.update key coveredBy_none

theorem dead_of_le {d : ℕ} (h : d ≤ T) : alive T (some d) = false := by simp [alive, h]

/-- a `whole` replay that misses an object with a deadline -/
theorem diesBy_of_ended (h : Ended T (some (o, d))) (hk : ks key = some (o, d)) : DiesBy T ks key := by
  have hdead := h o d rfl
  cases d with
  | none => exact absurd hdead (by simp [alive])
  | some d => exact ⟨o, d, hk, by simpa [alive] using hdead⟩

theorem Covers.expireAt_follows (h : Covers T whole rs ks) {d : ℕ} (hrev : whole → ¬ Revives T ks (.expireAt key d)) :
    RecordFollows (Covers T whole) libc T rs arguments (.expireAt key d) (perform libc t ks arguments (.expireAt key d)) := by
  have hk := h key
  cases hl : ks key with
  | none =>
    simp only [perform, hl]
    exact h.follows_reads
  | some v =>
    refine ⟨fun hr => absurd hr (by simp [perform, hl]), fun _ => ?_⟩
    simp only [atReplay]
    split_ifs with hpast
    · obtain ⟨h1, h2⟩ := perform_del_keyspace libc T arguments rs key
      refine ⟨?_, h2⟩
      rw [h1]
      simp only [perform, hl]
      exact h.update key fun _ => ended_some (dead_of_le hpast)
    · have hd : alive T (some d) = true := by simpa [alive] using hpast
      rw [hl] at hk
      cases hr : rs key with
      | none =>
        rw [hr] at hk
        simp only [perform, hl, hr]
        refine ⟨h.update_live key ?_, fun _ => integer_not_error⟩
        rw [hr]
        exact fun hw => absurd ⟨not_le.1 hpast, diesBy_of_ended (hk hw) hl⟩ (hrev hw)
      | some w =>
        rw [hr] at hk
        simp only [perform, hl, hr]
        exact ⟨h.update key ⟨hk.1, hd, fun hw => by rw [hk.2.2 hw]⟩, fun _ => integer_not_error⟩

theorem Covers.persist_follows (h : Covers T whole rs ks) (hrev : whole → ¬ Revives T ks (.persist key)) :
    RecordFollows (Covers T whole) libc T rs arguments (.persist key) (perform libc t ks arguments (.persist key)) := by
  have hk := h key
  cases hl : ks key with
  | none =>
    simp only [perform, hl]
    exact h.follows_reads
  | some v =>
    obtain ⟨o, d⟩ := v
    cases d with
    | none =>
      simp only [perform, hl]
      exact h.follows_reads
    | some d =>
      refine ⟨fun hr => absurd hr (by simp [perform, hl]), fun _ => ?_⟩
      rw [hl] at hk
      cases hr : rs key with
      | none =>
        rw [hr] at hk
        simp only [atReplay, perform, hl, hr]
        refine ⟨h.update_live key ?_, fun _ => integer_not_error⟩
        rw [hr]
        exact fun hw => absurd (diesBy_of_ended (hk hw) hl) (hrev hw)
      | some w =>
        obtain ⟨o', d'⟩ := w
        rw [hr] at hk
        obtain ⟨hpart, _, hwhole⟩ := hk
        have hwhole' : whole → (o', (none : Option ℕ)) = (o, none) := by
          intro hw
          rw [(Prod.mk.inj (hwhole hw)).1]
        cases d' with
        | none =>
          simp only [atReplay, perform, hl, hr]
          exact ⟨h.update_live key (by rw [hr]; exact ⟨hpart, rfl, hwhole'⟩), fun _ => integer_not_error⟩
        | some d' =>
          simp only [atReplay, perform, hl, hr]
          exact ⟨h.update key ⟨hpart, rfl, hwhole'⟩, fun _ => integer_not_error⟩

variable {V : Type} {wrap : (Bytes → Option V) → Obj}

/-- the parts of a collection are told by their items -/
def PartsByItems {V : Type} (wrap : (Bytes → Option V) → Obj) : Prop :=
  ∀ m m' : Bytes → Option V,
    (wrap m).PartOf (wrap m') ↔ m = m' ∨ (∃ f, (m f).isSome) ∧ ∀ f, (m f).isSome → (m' f).isSome

theorem Service.Kind.wrap_inj {M : Type} {read : Obj → Option M} {wrap : M → Obj} (h : Service.Kind read wrap type)
    {m m' : M} (heq : wrap m = wrap m') : m = m' := by
  have := congrArg read heq
  rwa [h.read_wrap, h.read_wrap, Option.some.injEq] at this

theorem Covers.updateWith_follows {read : Obj → Option (Bytes → Option V)} (hkind : Service.Kind read wrap type)
    (hitems : PartsByItems wrap) {write : (Bytes → Option V) → Written (Bytes → Option V)} (items : List Bytes) (hne : items ≠ [])
    (hperform : ∀ t ks, perform libc t ks arguments request = updateWith ks key read wrap (fun _ => none) write arguments)
    (hsame : atReplay T request = request) (hidle : ∀ m, (write m).changed = false → (write m).map = m)
    (hwrite : ∀ m f, ((write m).map f).isSome ↔ (m f).isSome ∨ f ∈ items)
    (hrev : ∀ m d, ks key = some (wrap m, some d) → d ≤ T → (write m).changed = false) (h : Covers T whole rs ks) :
    RecordFollows (Covers T whole) libc T rs arguments request (updateWith ks key read wrap (fun _ => none) write arguments) := by
  obtain ⟨item, hitem⟩ := exists_mem_of_ne_nil items hne
  have hpart : ∀ m m' : Bytes → Option V, (∀ f, (m f).isSome → (m' f).isSome) → (wrap (write m).map).PartOf (wrap (write m').map) := by
    intro m m' hsub
    rw [hitems]
    refine Or.inr ⟨⟨item, (hwrite m item).2 (Or.inr hitem)⟩, fun f hf => (hwrite m' f).2 ?_⟩
    exact ((hwrite m f).1 hf).imp_left (hsub f)
  have hfresh : (write fun _ => none).changed = true := by
    by_contra hc
    have := hwrite (fun _ => none) item
    rw [hidle _ (by simpa using hc)] at this
    exact absurd (this.2 (Or.inr hitem)) (by simp)
  have hk := h key
  cases hl : ks key with
  | none =>
    rw [hl] at hk
    have hr : rs key = none := by
      cases hr : rs key with
      | none => rfl
      | some w =>
        rw [hr] at hk
        exact absurd hk id
    refine ⟨fun hn => absurd hn (by simp [updateWith, hl, hfresh]), fun _ => ?_⟩
    rw [hsame, hperform]
    simp only [updateWith, hl, hr]
    exact ⟨h.update key (coveredBy_refl rfl), fun _ => integer_not_error⟩
  | some v =>
    obtain ⟨o, d⟩ := v
    rw [hl] at hk
    by_cases htype : o.type = type
    · obtain ⟨m, rfl⟩ := hkind.of_type o htype
      cases hc : (write m).changed with
      | false =>
        refine ⟨fun _ => ?_, fun hn => absurd (by simp [updateWith, hl, hkind.read_wrap, hc]) hn⟩
        simp only [updateWith, hl, hkind.read_wrap, hidle m hc]
        rwa [← hl, update_eq_self]
      | true =>
        have hd : alive T d = true := by
          cases d with
          | none => rfl
          | some d =>
            by_contra hdead
            have := hrev m d hl (by simpa [alive] using hdead)
            rw [hc] at this
            exact absurd this (by decide)
        refine ⟨fun hn => absurd hn (by simp [updateWith, hl, hkind.read_wrap, hc]), fun _ => ?_⟩
        rw [hsame, hperform]
        cases hr : rs key with
        | none =>
          rw [hr] at hk
          simp only [updateWith, hl, hr, hkind.read_wrap]
          refine ⟨h.update key ⟨hpart _ _ (by simp), hd, fun hw => ?_⟩, fun _ => integer_not_error⟩
          exact absurd (hk hw _ d rfl) (by simp [hd])
        | some w =>
          obtain ⟨o', d'⟩ := w
          rw [hr] at hk
          obtain ⟨m', rfl⟩ := hkind.of_type o' (hk.1.type_eq.trans (hkind.type_wrap m))
          have hsub : ∀ f, (m' f).isSome → (m f).isSome := by
            rcases (hitems m' m).1 hk.1 with rfl | hsub
            · exact fun f hf => hf
            · exact hsub.2
          simp only [updateWith, hl, hr, hkind.read_wrap]
          refine ⟨h.update key ⟨hpart _ _ hsub, hd, fun hw => ?_⟩, fun _ => integer_not_error⟩
          obtain ⟨hwrap, hdeadline⟩ := Prod.mk.inj (hk.2.2 hw)
          rw [hkind.wrap_inj hwrap, hdeadline]
    · have hwrong : updateWith ks key read wrap (fun _ => none) write arguments = .reads ks (· = .error .wrongtype) := by
        simp only [updateWith, hl, hkind.other o htype]
      rw [hwrong]
      exact h.follows_reads

theorem removeItems_isSome (items : List Bytes) :
    ∀ (m : Bytes → Option V) (f : Bytes), ((removeItems m items).1 f).isSome ↔ (m f).isSome ∧ f ∉ items := by
  induction items with
  | nil =>
    intro m f
    simp [removeItems]
  | cons item items ih =>
    intro m f
    simp only [removeItems]
    rw [ih, mem_cons, not_or, update_apply]
    by_cases hf : f = item
    · simp [hf]
    · simp [hf]

theorem removeItems_zero {m : Bytes → Option V} {items : List Bytes} (h : (removeItems m items).2 = 0) :
    ∀ f, (m f).isSome → f ∉ items := by
  intro f hf
  have := removeItems_isSome items m f
  rw [Service.removeItems_none m items h] at this
  exact (this.1 hf).2

theorem Covers.removeWith_follows {read : Obj → Option (Bytes → Option V)} (hkind : Service.Kind read wrap type)
    (hitems : PartsByItems wrap) {items : List Bytes}
    (hperform : ∀ t ks, perform libc t ks arguments request = removeWith ks key read wrap items arguments)
    (hsame : atReplay T request = request) (h : Covers T whole rs ks) :
    RecordFollows (Covers T whole) libc T rs arguments request (removeWith ks key read wrap items arguments) := by
  have hk := h key
  have hreads : ∀ {ks : Keyspace}, ks key = none → removeWith ks key read wrap items arguments = .reads ks (· = .integer 0) := by
    intro ks hl
    simp only [removeWith, answerWith, hl]
  cases hl : ks key with
  | none =>
    rw [hreads hl]
    exact h.follows_reads
  | some v =>
    obtain ⟨o, d⟩ := v
    rw [hl] at hk
    by_cases htype : o.type = type
    · obtain ⟨m, rfl⟩ := hkind.of_type o htype
      by_cases hnone : (removeItems m items).2 = 0
      · have hsilent : (removeWith ks key read wrap items arguments).record = none ∧
            (removeWith ks key read wrap items arguments).keyspace = ks := by
          simp [removeWith, answerWith, hl, hkind.read_wrap, hnone]
        exact ⟨fun _ => by rw [hsilent.2]; exact h, fun hn => absurd hsilent.1 hn⟩
      -- what is left of the live object, if anything
      have hlive : (removeWith ks key read wrap items arguments).keyspace = Function.update ks key
          (open Classical in if ∀ item, (removeItems m items).1 item = none then none else some (wrap (removeItems m items).1, d)) := by
        simp only [removeWith, answerWith, hl, hkind.read_wrap, if_neg hnone]
        split_ifs <;> rfl
      refine ⟨fun hn => absurd hn (by simp [removeWith, answerWith, hl, hkind.read_wrap, hnone]), fun _ => ?_⟩
      rw [hsame, hperform, hlive]
      cases hr : rs key with
      | none =>
        rw [hr] at hk
        rw [hreads hr]
        refine ⟨h.update_live key ?_, fun _ => integer_not_error⟩
        rw [hr]
        intro hw
        split_ifs
        · exact ended_none
        · exact ended_some (hk hw _ d rfl)
      | some w =>
        obtain ⟨o', d'⟩ := w
        rw [hr] at hk
        obtain ⟨m', rfl⟩ := hkind.of_type o' (hk.1.type_eq.trans (hkind.type_wrap m))
        by_cases hm : m' = m
        · subst hm
          simp only [removeWith, answerWith, hr, hkind.read_wrap, if_neg hnone]
          refine ⟨?_, fun _ => integer_not_error⟩
          split_ifs
          · exact h.update key coveredBy_none
          · refine h.update key ⟨Obj.partOf_refl _, hk.2.1, fun hw => ?_⟩
            rw [(Prod.mk.inj (hk.2.2 hw)).2]
        have hpart : ¬ whole := fun hw => hm (hkind.wrap_inj (Prod.mk.inj (hk.2.2 hw)).1)
        obtain ⟨⟨item, hitem⟩, hsub⟩ := ((hitems m' m).1 hk.1).resolve_left hm
        -- an item that stays in the replayed object stays in the live one
        have hstays : ∀ left : Bytes → Option V, (∃ f, (left f).isSome) →
            (∀ f, (left f).isSome → (m' f).isSome ∧ f ∉ items) →
            CoveredBy T whole (some (wrap left, d'))
              (open Classical in if ∀ item, (removeItems m items).1 item = none then none else some (wrap (removeItems m items).1, d)) := by
          intro left hsome hleft
          obtain ⟨f, hf⟩ := hsome
          have hin : ∀ f, (left f).isSome → ((removeItems m items).1 f).isSome := by
            intro f hf
            exact (removeItems_isSome items m f).2 ⟨hsub f (hleft f hf).1, (hleft f hf).2⟩
          rw [if_neg (fun hall => by
            have := hin f hf
            rw [hall f] at this
            exact absurd this (by simp))]
          exact ⟨(hitems _ _).2 (Or.inr ⟨⟨f, hf⟩, hin⟩), hk.2.1, fun hw => absurd hw hpart⟩
        generalize (open Classical in if ∀ item, (removeItems m items).1 item = none then none
          else some (wrap (removeItems m items).1, d)) = v' at hstays ⊢
        simp only [removeWith, answerWith, hr, hkind.read_wrap]
        refine ⟨?_, fun _ => integer_not_error⟩
        split_ifs with hzero hall
        · refine h.update_live key ?_
          rw [hr]
          exact hstays m' ⟨item, hitem⟩ fun f hf => ⟨hf, removeItems_zero hzero f hf⟩
        · exact h.update key fun hw => absurd hw hpart
        · refine h.update key (hstays _ ?_ fun f hf => (removeItems_isSome items m' f).1 hf)
          by_contra hno
          exact hall fun f => by
            cases hf : (removeItems m' items).1 f with
            | none => rfl
            | some v => exact absurd ⟨f, by rw [hf]; rfl⟩ hno
    · have hwrong : removeWith ks key read wrap items arguments = .reads ks (· = .error .wrongtype) := by
        simp only [removeWith, answerWith, hl, hkind.other o htype]
      rw [hwrong]
      exact h.follows_reads

/-- the items of a collection after some writes -/
theorem writePairs_isSome {W : Type} {next : (Bytes → Option V) → W → Bytes → Option V}
    {result : (Bytes → Option V) → W → ZSet.SetResult} (item : W → Bytes)
    (hnext : ∀ m w f, (next m w f).isSome ↔ (m f).isSome ∨ f = item w) (ws : List W) :
    ∀ m f, ((writePairs next result m ws).map f).isSome ↔ (m f).isSome ∨ f ∈ ws.map item := by
  induction ws with
  | nil =>
    intro m f
    simp [writePairs]
  | cons w ws ih =>
    intro m f
    simp only [writePairs]
    rw [ih, hnext, map_cons, mem_cons, or_assoc]

theorem addTo_isSome (m : Bytes → Option Score) (pair : Score × Bytes) (f : Bytes) :
    (ZSet.addTo m pair.1 pair.2 f).isSome ↔ (m f).isSome ∨ f = pair.2 := by
  have hupdate : (Function.update m pair.2 (some pair.1) f).isSome ↔ (m f).isSome ∨ f = pair.2 := by
    rw [update_apply]
    by_cases hf : f = pair.2
    · simp [hf]
    · simp [hf]
  unfold ZSet.addTo
  cases hm : m pair.2 with
  | none => exact hupdate
  | some old =>
    simp only
    split_ifs
    · refine ⟨Or.inl, fun h => ?_⟩
      rcases h with h | h
      · exact h
      · rw [h, hm]
        rfl
    · exact hupdate

/-- **A request and its record**: unless the request writes to a collection that ends by `T`, the replayed keyspace stays
covered and the record is accepted; unless it revives an object, a whole replay stays whole. -/
theorem Covers.perform_follows (h : Covers T whole rs ks) (hparts : request.PartsIn arguments)
    (hrev : ¬ Rewrites T ks request) (hwhole : whole → ¬ Revives T ks request) :
    RecordFollows (Covers T whole) libc T rs arguments request (perform libc t ks arguments request) := by
  rcases Service.perform_does libc t ks arguments request with ⟨hsame, hnone⟩ | ⟨_, _, record, hputs⟩
  · exact ⟨fun _ => by rwa [hsame], fun hr => absurd hnone hr⟩
  have hlogs := hputs.logs
  cases request with
  | set key value d => exact h.set_follows value d
  | del key => exact h.del_follows
  | expireAt key d => exact h.expireAt_follows hwhole
  | persist key => exact h.persist_follows hwhole
  | hset key pairs =>
    refine h.updateWith_follows Service.hash_kind (fun _ _ => Iff.rfl) (pairs.map Prod.fst) ?_ (fun _ _ => rfl) rfl
      (fun m hm => Service.writePairs_idle Service.fieldResult_idle pairs m hm) ?_ fun m d hk hd => ?_
    · simpa using hparts.1
    · refine writePairs_isSome Prod.fst (fun m pair f => ?_) pairs
      rw [update_apply]
      by_cases hf : f = pair.1
      · simp [hf]
      · simp [hf]
    · by_contra hc
      exact hrev ⟨m, d, hk, hd, eq_true_of_ne_false hc⟩
  | zadd key pairs =>
    refine h.updateWith_follows Service.zset_kind (fun _ _ => Iff.rfl) (pairs.map Prod.snd) ?_ (fun _ _ => rfl) rfl
      (fun m hm => Service.writePairs_idle Service.addResult_idle pairs m hm) ?_ fun m d hk hd => ?_
    · simpa using hparts.1
    · exact writePairs_isSome Prod.snd addTo_isSome pairs
    · by_contra hc
      exact hrev ⟨m, d, hk, hd, eq_true_of_ne_false hc⟩
  | hdel key fields => exact h.removeWith_follows Service.hash_kind (fun _ _ => Iff.rfl) (fun _ _ => rfl) rfl
  | zrem key members => exact h.removeWith_follows Service.zset_kind (fun _ _ => Iff.rfl) (fun _ _ => rfl) rfl
  | _ =>
    cases hlogs with
    | original hc => exact absurd hc id

/-- the same, from a replay that has all there is at `T` -/
theorem perform_follows_after (hparts : request.PartsIn arguments) (hrev : ¬ Revives T ks request) :
    RecordFollows (Covers T True) libc T (ks.after T) arguments request (perform libc t ks arguments request) :=
  covers_after.perform_follows hparts (fun h => hrev (revives_of_rewrites h)) fun _ => hrev

end Keyspaces

namespace Service

open Cache (Becomes Good)

variable {hash : Hasher} {libc : Libc} {t T : ℕ} {s : Service} {arguments : Record}

/-! ## Logs of runs -/

variable {env : ℕ → Env}

/-- the records a run appends -/
def logOf (hash : Hasher) (libc : Libc) (s : Service) (events : List Event) : List Record :=
  (responses hash libc s events).flatMap Response.records

/-- `aof_replay_from` over a list of records: the first record that is not accepted ends it -/
def replayLog (hash : Hasher) (libc : Libc) (env : ℕ → Env) : ℕ → Service → List Record → Replayed
  | _, s, [] => ⟨s, true, false⟩
  | index, s, record :: log =>
    let r := s.replayAof hash libc (env index) record
    if r.ok then
      let rest := replayLog hash libc env (index + 1) r.service log
      ⟨rest.service, rest.ok, r.outOfMemory || rest.outOfMemory⟩
    else r

/-- an accepted record, and then the rest of the log -/
theorem replayLog_cons {index : ℕ} {record : Record} {log : List Record}
    (hr : s.replayAof hash libc (env index) record = r) (hok : r.ok = true) (hoom : r.outOfMemory = false) :
    replayLog hash libc env index s (record :: log) = replayLog hash libc env (index + 1) r.service log := by
  simp only [replayLog, hr, if_pos hok, hoom, Bool.false_or]

/-- a replay that has memory for the log has memory for its first record -/
theorem replayLog_memory {index : ℕ} {record : Record} {log : List Record}
    (h : (Service.replayLog hash libc env index s (record :: log)).outOfMemory = false) :
    (s.replayAof hash libc (env index) record).outOfMemory = false := by
  simp only [Service.replayLog] at h
  split_ifs at h with hok
  · exact (Bool.or_eq_false_iff.1 h).1
  · exact h

/-- every request of a run meets `P` in the state it finds -/
def Throughout (hash : Hasher) (libc : Libc) (P : Keyspace → Request → Prop) : Service → List Event → Prop
  | _, [] => True
  | s, .request now env arguments :: events =>
    (∀ request, readRequest libc now.toNat arguments = .ok request → P (s.cache.shown now.toNat) request) ∧
      Throughout hash libc P (s.step hash libc (.request now env arguments)).1 events
  | s, .maintain now :: events => Throughout hash libc P (s.step hash libc (.maintain now)).1 events

/-- the state of a replay at time `T` -/
structure Restored (hash : Hasher) (T : ℕ) (s : Service) (rs : Keyspace) : Prop where
  good : Good hash T s.cache
  unlimited : s.cache.maxKeys = 0 ∧ s.cache.maxMemory = 0
  mysql : s.mysql = none
  shown : s.cache.shown T = rs
  short : rs.Short

theorem restored_init (hash : Hasher) (engine : ZsetEngine) (admin : Admin) (T : ℕ) :
    Restored hash T (init 0 0 engine admin fun _ => T) Keyspace.empty := by
  have h := serves_init hash engine admin 0 false fun _ => T
  refine ⟨⟨h.core, h.within, h.sound, fun _ => rfl⟩, ⟨rfl, rfl⟩, rfl, ?_, h.short⟩
  have hshown : (init 0 0 engine admin fun _ => T).cache.shown 0 = Keyspace.empty := h.shown
  rw [Cache.shown_later _ (Nat.zero_le T), hshown, Keyspace.after_empty]

theorem short_atReplay (T : ℕ) (h : Request.Short request) : Request.Short (atReplay T request) := by
  unfold atReplay
  split
  · split_ifs <;> trivial
  · split_ifs <;> trivial
  · exact h

/-- one record of a log -/
theorem Restored.record {rs : Keyspace} {record : Record} {env : Env}
    (h : Restored hash T s rs) (henv : env.Healthy) (hT : T ≤ uint64Max) (hframed : Framed arguments)
    (hread : readRequest libc t arguments = .ok request) (hlogs : Logs arguments request record)
    (hr : s.replayAof hash libc env record = r) (hoom : r.outOfMemory = false) :
    Restored hash T r.service (perform libc T rs arguments (atReplay T request)).keyspace ∧
      ∃ reply, (perform libc T rs arguments (atReplay T request)).replies reply ∧ r.ok = !reply.isError := by
  obtain ⟨gone, hres⟩ := replayAof_restores h.good h.unlimited.2 henv hT (by rw [h.shown]; exact h.short) h.mysql hframed hread
    hlogs hr hoom
  rw [h.shown] at hres
  have hgone : gone = [] := hres.becomes.unlimited h.unlimited.1 h.unlimited.2
  subst hgone
  have hshort := short_atReplay T (readRequest_short hframed hread)
  exact ⟨⟨hres.becomes.good, ⟨hres.becomes.limits.1.trans h.unlimited.1, hres.becomes.limits.2.trans h.unlimited.2⟩,
    hres.frame.mysql.trans h.mysql, hres.becomes.shown_eq, perform_short h.short hshort⟩, hres.reply⟩

/-- a relation between the replayed and the live keyspace that lasts as time passes and, where `P` holds, over requests -/
structure Lasting (libc : Libc) (T : ℕ) (P : Keyspace → Request → Prop) (Rel : Keyspace → Keyspace → Prop) : Prop where
  pass : ∀ {rs ks t}, t ≤ T → Rel rs ks → Rel rs (ks.after t)
  request : ∀ {rs ks t arguments request}, Request.PartsIn arguments request → P ks request → Rel rs ks →
    RecordFollows Rel libc T rs arguments request (perform libc t ks arguments request)

theorem partsIn_of_read (h : readRequest libc t arguments = .ok request) : request.PartsIn arguments := by
  cases readRequest_reads h with
  | plain hplain => cases request <;> first | exact absurd hplain id | trivial
  | set => trivial
  | expireAt => trivial
  | collection _ hparts => exact hparts

/-- **The replay of a run**: along a run whose requests meet `P`, every record is accepted and the relation lasts. -/
theorem Lasting.replayLog {P : Keyspace → Request → Prop} {Rel : Keyspace → Keyspace → Prop} (hlast : Lasting libc T P Rel)
    (hT : T ≤ uint64Max) (henv : ∀ i, (env i).Healthy) (events : List Event) :
    ∀ {t index : ℕ} {live s : Service} {ks rs : Keyspace}, Serves hash t 0 true live ks → Restored hash T s rs →
      Rel rs ks → (∀ e ∈ events, t ≤ e.now) → events.Pairwise (fun a b => a.now ≤ b.now) → (∀ e ∈ events, e.now ≤ T) →
      (∀ e ∈ events, e.FromClient) → (∀ r ∈ responses hash libc live events, r.outOfMemory = false) →
      Throughout hash libc P live events →
      (Service.replayLog hash libc env index s (logOf hash libc live events)).outOfMemory = false →
      (Service.replayLog hash libc env index s (logOf hash libc live events)).ok = true ∧
        ∃ rs', Restored hash T (Service.replayLog hash libc env index s (logOf hash libc live events)).service rs' ∧
          Rel rs' (keyspaceAfter libc ks events) := by
  induction events with
  | nil =>
    intro t index live s ks rs _ hres hrel _ _ _ _ _ _ _
    exact ⟨rfl, rs, hres, hrel⟩
  | cons e events ih =>
    intro t index live s ks rs hserves hres hrel hfirst hclock hbound hclient hoom hthrough hreplay
    obtain ⟨he, hclient'⟩ := forall_mem_cons.1 hclient
    obtain ⟨hle, _⟩ := forall_mem_cons.1 hfirst
    obtain ⟨heT, hbound'⟩ := forall_mem_cons.1 hbound
    obtain ⟨hlater, hclock'⟩ := pairwise_cons.1 hclock
    rw [responses, forall_mem_append] at hoom
    have hserves' := hserves.step hle he hoom.1
    cases e with
    | maintain now => exact ih hserves' hres hrel hlater hclock' hbound' hclient' hoom.2 hthrough hreplay
    | request now renv arguments =>
      obtain ⟨hP, hthrough⟩ := hthrough
      have hshown : live.cache.shown now.toNat = ks.after now.toNat := hserves.shown_at hle
      rw [hshown] at hP
      obtain ⟨_, _, hrecords⟩ := hserves.request hle he rfl (hoom.1 _ (mem_singleton_self _))
      have hlog : logOf hash libc live (.request now renv arguments :: events) =
          (reference libc now.toNat (ks.after now.toNat) arguments).record.toList ++
            logOf hash libc (live.step hash libc (.request now renv arguments)).1 events := by
        unfold logOf
        rw [responses, flatMap_append]
        exact congrArg (· ++ _) ((flatMap_singleton _ _).trans hrecords)
      rw [hlog] at hreplay ⊢
      have hrel' := hlast.pass heT hrel
      have hstep : ∀ request, readRequest libc now.toNat arguments = .ok request →
          RecordFollows Rel libc T rs arguments request (reference libc now.toNat (ks.after now.toNat) arguments) := by
        intro request hread
        rw [reference_ok request hread]
        exact hlast.request (partsIn_of_read hread) (hP request hread) hrel'
      cases hrecord : (reference libc now.toNat (ks.after now.toNat) arguments).record with
      | none =>
        rw [hrecord] at hreplay
        have hrel'' : Rel rs (reference libc now.toNat (ks.after now.toNat) arguments).keyspace := by
          cases hread : readRequest libc now.toNat arguments with
          | error err =>
            rw [reference_error hread]
            exact hrel'
          | ok request => exact (hstep request hread).silent hrecord
        exact ih hserves' hres hrel'' hlater hclock' hbound' hclient' hoom.2 hthrough hreplay
      | some record =>
        rw [hrecord] at hreplay
        cases hread : readRequest libc now.toNat arguments with
        | error err =>
          rw [reference_error hread] at hrecord
          cases hrecord
        | ok request =>
          obtain ⟨hrel'', hreply⟩ := (hstep request hread).logged (by rw [hrecord]; simp)
          have hlogs : Logs arguments request record := by
            rw [reference_ok request hread] at hrecord
            exact logs_of_record hrecord
          simp only [Option.toList_some, singleton_append] at hreplay ⊢
          -- the record is accepted, else the replay would end here
          have hone := replayLog_memory hreplay
          obtain ⟨hres', reply, hr, hok⟩ := hres.record (henv index) hT he.1 hread hlogs rfl hone
          rw [hreply reply hr] at hok
          have hok : (s.replayAof hash libc (env index) record).ok = true := hok
          rw [replayLog_cons rfl hok hone] at hreplay ⊢
          exact ih hserves' hres' hrel'' hlater hclock' hbound' hclient' hoom.2 hthrough hreplay

theorem lasting_restores (libc : Libc) (T : ℕ) :
    Lasting libc T (fun ks request => ¬ Revives T ks request) (Covers T True) :=
  ⟨fun hle hrel => hrel.after hle,
    fun hparts hrev hrel => hrel.perform_follows hparts (fun h => hrev (revives_of_rewrites h)) fun _ => hrev⟩

theorem lasting_covers (libc : Libc) (T : ℕ) :
    Lasting libc T (fun ks request => ¬ Rewrites T ks request) (Covers T False) :=
  ⟨fun hle hrel => hrel.after hle, fun hparts hrev hrel => hrel.perform_follows hparts hrev fun h => absurd h id⟩

/-- the service a run starts from: no limits, and an AOF -/
def logging (engine : ZsetEngine) (admin : Admin) (nowMs : ℕ → ℕ) : Service := (init 0 0 engine admin nowMs).attachAof

theorem serves_logging (hash : Hasher) (engine : ZsetEngine) (admin : Admin) (nowMs : ℕ → ℕ) :
    Serves hash 0 0 true (logging engine admin nowMs) Keyspace.empty :=
  serves_init hash engine admin 0 true nowMs

/-- an event of a client whose calls all succeed -/
def client (now : UInt64) (words : List String) : Event := .request now Env.succeeding (words.map ascii)

theorem client_fromClient (now : UInt64) {words : List String} (h : Framed (words.map ascii)) : (client now words).FromClient :=
  ⟨h, Env.succeeding_healthy⟩

-- a run from an empty service, and a replay of its log at the restart time `T`, with the memory they ask for
variable (hash : Hasher) (libc : Libc) (engine engine' : ZsetEngine) (admin admin' : Admin)
    (nowMs : ℕ → ℕ) (events : List Event) (T : UInt64) (env : ℕ → Env)
    (hclock : events.Pairwise fun a b => a.now ≤ b.now) (hrestart : ∀ e ∈ events, e.now ≤ T.toNat)
    (hclient : ∀ e ∈ events, e.FromClient)
    (hmemory : ∀ r ∈ responses hash libc (logging engine admin nowMs) events, r.outOfMemory = false)
    (henv : ∀ i, (env i).Healthy)
    (hreplay : (replayLog hash libc env 0 (init 0 0 engine' admin' fun _ => T.toNat)
      (logOf hash libc (logging engine admin nowMs) events)).outOfMemory = false)
include hclock hrestart hclient hmemory henv hreplay

/-- **The log rebuilds the keyspace.** At any restart time, the log of a run none of whose requests revives an object that the
replay has deleted rebuilds the keyspace the run shows at that time. -/
theorem replay_restores_keyspace
    (hrevives : Throughout hash libc (fun ks request => ¬ Revives T.toNat ks request) (logging engine admin nowMs) events) :
    (replayLog hash libc env 0 (init 0 0 engine' admin' fun _ => T.toNat)
        (logOf hash libc (logging engine admin nowMs) events)).ok = true ∧
      (replayLog hash libc env 0 (init 0 0 engine' admin' fun _ => T.toNat)
        (logOf hash libc (logging engine admin nowMs) events)).service.cache.shown T.toNat =
        (run hash libc (logging engine admin nowMs) events).cache.shown T.toNat := by
  have hserves := serves_logging hash engine admin nowMs
  obtain ⟨hok, rs, hres, hrel⟩ := (lasting_restores libc T.toNat).replayLog (toNat_le_uint64Max T) henv events hserves
    (restored_init hash engine' admin' T.toNat) (fun _ => coveredBy_none) (fun e _ => Nat.zero_le _) hclock hrestart hclient hmemory
    hrevives hreplay
  obtain ⟨t, hle, hlive⟩ := hserves.run events (fun e _ => Nat.zero_le _) hclock hclient hmemory
  refine ⟨hok, ?_⟩
  have ht : t ≤ T.toNat := hle _ (Nat.zero_le _) hrestart
  calc (replayLog hash libc env 0 (init 0 0 engine' admin' fun _ => T.toNat)
        (logOf hash libc (logging engine admin nowMs) events)).service.cache.shown T.toNat
      = rs := hres.shown
    _ = (keyspaceAfter libc Keyspace.empty events).after T.toNat := hrel.eq_after
    _ = ((run hash libc (logging engine admin nowMs) events).setClock fun _ => T.toNat).cache.shown T.toNat :=
        (hlive.shown_at ht).symm
    _ = (run hash libc (logging engine admin nowMs) events).cache.shown T.toNat := rfl

/-- **The log is accepted.** At any restart time, every record is accepted of the log of a run none of whose requests changes
a collection that ends by then. -/
theorem replay_accepts_log
    (hrewrites : Throughout hash libc (fun ks request => ¬ Rewrites T.toNat ks request) (logging engine admin nowMs) events) :
    (replayLog hash libc env 0 (init 0 0 engine' admin' fun _ => T.toNat)
      (logOf hash libc (logging engine admin nowMs) events)).ok = true :=
  ((lasting_covers libc T.toNat).replayLog (toNat_le_uint64Max T) henv events (serves_logging hash engine admin nowMs)
    (restored_init hash engine' admin' T.toNat) (fun _ => coveredBy_none) (fun _ _ => Nat.zero_le _) hclock hrestart hclient hmemory
    hrewrites hreplay).1

omit hclock hrestart hclient hmemory henv hreplay

/-- a run from 0, replayed at 20 -/
def replayedAt20 (libc : Libc) (events : List Event) : Replayed :=
  replayLog (fun _ => 0) libc (fun _ => Env.succeeding) 0 (init 0 0 .rbtree Admin.none fun _ => 20)
    (logOf (fun _ => 0) libc (logging .rbtree Admin.none fun _ => 0) events)

/-- SET k v PX 100 at 1, PERSIST k at 2 -/
def persistedInTime : List Event := [client 1 ["SET", "k", "v", "PX", "100"], client 2 ["PERSIST", "k"]]

/-- replayed at 20, before the deadline the run took away -/
theorem replay_restores_keyspace_persisted : (replayedAt20 Libc.silent persistedInTime).ok = true ∧
      (replayedAt20 Libc.silent persistedInTime).service.cache.shown 20 =
        (run (fun _ => 0) Libc.silent (logging .rbtree Admin.none fun _ => 0) persistedInTime).cache.shown 20 := by
  refine replay_restores_keyspace (fun _ => 0) Libc.silent .rbtree .rbtree Admin.none Admin.none (fun _ => 0) persistedInTime 20
    (fun _ => Env.succeeding) (by simp [persistedInTime, client, Event.now]) (by simp [persistedInTime, client, Event.now]) ?_
    (by decide +kernel) (fun _ => Env.succeeding_healthy) (by decide +kernel) ⟨?_, ?_, trivial⟩
  · intro e he
    fin_cases he <;> exact client_fromClient _ ⟨by decide, by decide, by decide⟩
  · intro request hread
    have hset : readRequest Libc.silent 1 (["SET", "k", "v", "PX", "100"].map ascii) = .ok (.set (ascii "k") (ascii "v") (some 101)) := by
      decide +kernel
    cases hset.symm.trans hread
    exact id
  · intro request hread
    have hpersist : readRequest Libc.silent 2 (["PERSIST", "k"].map ascii) = .ok (.persist (ascii "k")) := by decide +kernel
    cases hpersist.symm.trans hread
    rintro ⟨o, d, hk, hd⟩
    have hdeadline : ((((logging .rbtree Admin.none fun _ => 0).step (fun _ => 0) Libc.silent
        (client 1 ["SET", "k", "v", "PX", "100"])).1.cache.shown 2 (ascii "k")).bind Prod.snd) = some 101 := by decide +kernel
    rw [show (2 : UInt64).toNat = 2 from rfl] at hk
    rw [show (20 : UInt64).toNat = 20 from rfl] at hd
    rw [show (client 1 ["SET", "k", "v", "PX", "100"]) = .request 1 Env.succeeding (["SET", "k", "v", "PX", "100"].map ascii) from rfl,
      hk] at hdeadline
    simp only [Option.bind_some, Option.some.injEq] at hdeadline
    omega

/-- SET k v PX 10 at 1, PERSIST k at 2 -/
def persisted : List Event := [client 1 ["SET", "k", "v", "PX", "10"], client 2 ["PERSIST", "k"]]

/-- **Lost.** The run keeps k for good; its log, replayed at 20, takes the SET for expired and has nothing to persist. -/
theorem persist_lost_in_replay :
    (∀ r ∈ responses (fun _ => 0) Libc.silent (logging .rbtree Admin.none fun _ => 0) persisted, r.outOfMemory = false) ∧
      ((run (fun _ => 0) Libc.silent (logging .rbtree Admin.none fun _ => 0) persisted).cache.shown 20 (ascii "k")).isSome = true ∧
      (replayedAt20 Libc.silent persisted).ok = true ∧
      ((replayedAt20 Libc.silent persisted).service.cache.shown 20
          (ascii "k")).isSome = false := by
  decide +kernel

/-- HSET k f v at 1, PEXPIRE k 10 at 2, DEL k at 3 -/
def deleted : List Event := [client 1 ["HSET", "k", "f", "v"], client 2 ["PEXPIRE", "k", "10"], client 3 ["DEL", "k"]]

theorem replay_accepts_log_deleted : (replayedAt20 Libc.silent deleted).ok = true := by
  refine replay_accepts_log (fun _ => 0) Libc.silent .rbtree .rbtree Admin.none Admin.none (fun _ => 0) deleted 20
    (fun _ => Env.succeeding) (by simp [deleted, client, Event.now]) (by simp [deleted, client, Event.now]) ?_
    (by decide +kernel) (fun _ => Env.succeeding_healthy) (by decide +kernel) ⟨?_, ?_, ?_, trivial⟩
  · intro e he
    fin_cases he <;> exact client_fromClient _ ⟨by decide, by decide, by decide⟩
  · intro request hread
    have hhset : readRequest Libc.silent 1 (["HSET", "k", "f", "v"].map ascii) =
        .ok (.hset (ascii "k") [(ascii "f", ascii "v")]) := by decide +kernel
    cases hhset.symm.trans hread
    rintro ⟨m, d, hk, _⟩
    have hnone : ((logging .rbtree Admin.none fun _ => 0).cache.shown 1 (ascii "k")).isSome = false := by decide +kernel
    rw [show (logging .rbtree Admin.none fun _ => 0).cache.shown 1 (ascii "k") = _ from hk] at hnone
    exact absurd hnone (by simp)
  · intro request hread
    have hexpire : readRequest Libc.silent 2 (["PEXPIRE", "k", "10"].map ascii) = .ok (.expireAt (ascii "k") 12) := by decide +kernel
    cases hexpire.symm.trans hread
    exact id
  · intro request hread
    have hdel : readRequest Libc.silent 3 (["DEL", "k"].map ascii) = .ok (.del (ascii "k")) := by decide +kernel
    cases hdel.symm.trans hread
    exact id

/-- HSET k f v at 1, PEXPIRE k 10 at 1, HSET k g w at 5, and after its end ZADD k 0 m at 15 -/
def reused : List Event :=
  [client 1 ["HSET", "k", "f", "v"], client 1 ["PEXPIRE", "k", "10"], client 5 ["HSET", "k", "g", "w"], client 15 ["ZADD", "k", "0", "m"]]

/-- **Refused.** Replayed at 20, the second HSET brings k back as a Hash without a deadline, and the ZADD is refused. -/
theorem reused_key_stops_replay : (∀ r ∈ responses (fun _ => 0) Libc.zeros (logging .rbtree Admin.none fun _ => 0) reused,
        r.outOfMemory = false ∧ r.reply.isError = false) ∧
      (replayedAt20 Libc.zeros reused).outOfMemory = false ∧
      (replayedAt20 Libc.zeros reused).ok = false := by
  decide +kernel

end Service

end StoreSystem
