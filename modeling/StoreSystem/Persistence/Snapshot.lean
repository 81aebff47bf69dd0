/-
Snapshots and the AOF together (`persistence_save` and the startup in `src/app/main.c`), for a server without limits and
without MySQL: the service, the AOF with its threads, the child of a BGSAVE and the snapshot files that were completed.

A request runs on the reactor thread, from `aof_transaction_begin` to the loop of the commit; the writer thread goes on
meanwhile and may fail. SAVE and BGSAVE are the event `save`, which is also the automatic one: the checkpoint, and then
`rdb_save` here or in a child that has a copy of the cache. The reactor thread takes no other event while it is in the AOF.

- `Holds.step`: the service shows what the log leads to, as long as the AOF has not failed, and every snapshot what the log up to
  its checkpoint leads to.
- `snapshot_and_tail`: a completed snapshot is accepted, and with the AOF behind its checkpoint it restores what the whole AOF
  does: the keyspace the server had after the last record in the file.

Premises: requests come in frames and name no deadlines, no memory runs out, and the AOF is shorter than 2^64 bytes.
-/
import StoreSystem.Persistence.Checkpoint
import StoreSystem.Persistence.RdbRoundTrip
import StoreSystem.Service.Log

namespace StoreSystem

open List
open Aof (Action encodeLog recordsWithin Fits feed aofReplayFrom aofValidateCheckpoint)
open Resp (encodeRequest encodeArgument)
open Rdb (Checkpoint rdbSave rdbLoad LoadAlloc rdbCheckpointTokenSize)
open Service (argument Keeps)

/-! ## The server -/

/-- the child of a BGSAVE -/
structure Child where
  cache : Cache
  checkpoint : Checkpoint

/-- `outOfMemory` is history: a request ran out of memory -/
structure Server where
  service : Service
  aof : Aof.State
  child : Option Child
  snapshots : List Bytes
  outOfMemory : Bool

/-- what happens next on the reactor thread, in the child or in the threads of the AOF; `during` is what the threads of the AOF do
while the reactor thread is in the call -/
inductive ServerEvent
  | request (now : UInt64) (env : Env) (during : List Action) (arguments : Record)
  | maintain (now : UInt64)
  | flush
  | save (background : Bool) (now : UInt64) (token : Bytes) (during : List Action) (ok : Bool)
  | childSaves (now : UInt64)
  | childExits
  | aof (action : Action)

/-- a request as the AOF finds it: whether a transaction begins, and whether the writer has failed -/
def Env.onAof (env : Env) (begins failed : Bool) : Env :=
  { env with
    aofFailed := failed && env.aofFailed
    aofBegin := begins
    aofAppend := !failed
    evictionAppend := fun _ => !failed
    ownCopy := true
    aofCommit := true }

/-- a request that changes the keyspace, if it is well formed -/
def logicalWrite (arguments : Record) : Bool :=
  let command := findCommand (argument arguments 0)
  command ≠ .unknown && commandArityValid command arguments.length && isWriteCommand command

def isSaveCommand (arguments : Record) : Bool :=
  let command := findCommand (argument arguments 0)
  command = .save || command = .bgsave

namespace Server

/-- `kvstore_service_init_with_config` without limits, and `aof_open` of a file that is not there yet -/
def start (fsyncPolicy : Aof.FsyncPolicy) (engine : ZsetEngine) (admin : Admin) (nowMs : ℕ → ℕ) : Server where
  service := (Service.init 0 0 engine admin nowMs).attachAof
  aof := Aof.aofOpen fsyncPolicy []
  child := none
  snapshots := []
  outOfMemory := false

/-- a client's request; one that is not a write does not look at the AOF -/
def request (hash : Hasher) (libc : Libc) (s : Server) (now : ℕ) (env : Env) (during : List Action)
    (arguments : Record) : Server :=
  let live := s.service.setClock fun _ => now
  if logicalWrite arguments then
    let begun := s.aof.aofTransactionBegin
    let a := begun.1.run during
    let r := live.executeWithBarrier hash libc (env.onAof begun.2 a.asyncError) arguments
    { s with
      service := r.service
      aof := if begun.2 then (a.appendAll r.records).startCommit none else s.aof
      outOfMemory := s.outOfMemory || r.outOfMemory }
  else
    let r := live.executeWithBarrier hash libc (env.onAof true false) arguments
    { s with service := r.service, outOfMemory := s.outOfMemory || r.outOfMemory }

/-- the end of `persistence_save`: a child with a copy of the cache, or `rdb_save` -/
def saveCache (s : Server) (background : Bool) (now : ℕ) (checkpoint : Checkpoint) : Server :=
  let cache := (s.service.setClock fun _ => now).cache
  if background then { s with child := some ⟨cache, checkpoint⟩ }
  else { s with snapshots := s.snapshots ++ ((rdbSave cache (some checkpoint) now).map Prod.fst).toList }

/-- `persistence_save`; `ok` is the outcome of the fork, or of writing the file -/
def persistenceSave (s : Server) (background : Bool) (now : ℕ) (token : Bytes) (during : List Action) (ok : Bool) : Server :=
  if s.child.isSome then s
  else
    let begun := s.aof.aofCreateCheckpoint true token
    if begun.reactor = .idle then { s with aof := begun }
    else
      let a := begun.run during
      match a.reactor, a.checkpoints.drop s.aof.checkpoints.length with
      | .idle, [checkpoint] => if ok then { s with aof := a }.saveCache background now checkpoint else { s with aof := a }
      | _, _ => { s with aof := a }

def step (hash : Hasher) (libc : Libc) (s : Server) : ServerEvent → Server
  | .request now env during arguments =>
    if s.aof.reactor ≠ .idle ∨ isSaveCommand arguments then s else s.request hash libc now.toNat env during arguments
  | .maintain now =>
    if s.aof.reactor ≠ .idle then s else { s with service := (s.service.setClock fun _ => now.toNat).maintain }
  | .flush => if s.aof.reactor ≠ .idle then s else { s with aof := s.aof.aofFlush }
  | .save background now token during ok =>
    if s.aof.reactor ≠ .idle then s else s.persistenceSave background now.toNat token during ok
  | .childSaves now =>
    match s.child with
    | none => s
    | some child =>
      { s with snapshots := s.snapshots ++ ((rdbSave child.cache (some child.checkpoint) now.toNat).map Prod.fst).toList }
  | .childExits => { s with child := none }
  | .aof action => { s with aof := s.aof.step action }

def run (hash : Hasher) (libc : Libc) (s : Server) (events : List ServerEvent) : Server :=
  events.foldl (step hash libc) s

end Server

/-- a request comes in a frame, a token has its size, and the threads of the AOF have the memory they need -/
def ServerEvent.FromOutside : ServerEvent → Prop
  | .request _ _ during arguments =>
    Framed arguments ∧ (encodeRequest arguments).length ≤ respMaxFrameSize ∧ ∀ action ∈ during, action.OfWriter = true
  | .save _ _ token during _ => token.length = rdbCheckpointTokenSize ∧ ∀ action ∈ during, action.Internal = true
  | .aof action => action.Internal = true
  | _ => True

variable (hash : Hasher) (libc : Libc) (env : ℕ → Env)

/-- no request of the event names a deadline -/
def ServerEvent.TtlFree : ServerEvent → Prop
  | .request now _ _ arguments => ∀ request, readRequest libc now.toNat arguments = .ok request → request.TtlFree
  | _ => True

/-! ## The startup -/

/-- the service as the startup leaves it -/
structure Started where
  service : Service
  ok : Bool
  outOfMemory : Bool

/-- `kvstore_service_replay_aof` as the callback of `aof_replay_from`, with the number of the record -/
def replayCallback (context : ℕ × Service × Bool) (record : Record) : (ℕ × Service × Bool) × Bool :=
  let r := context.2.1.replayAof hash libc (env context.1) record
  ((context.1 + 1, r.service, context.2.2 || r.outOfMemory), r.ok)

def replayInto (s : Service) (file : Bytes) (offset : ℕ) : Started :=
  let r := aofReplayFrom file offset (replayCallback hash libc env) (0, s, false)
  ⟨r.context.2.1, r.ok, r.context.2.2⟩

/-- the part of `main` behind `rdb_load`: the checkpoint is compared with the AOF, and what lies behind it is replayed -/
def resume (s : Service) (file : Bytes) :
    Cache × Except Rdb.RdbError (Checkpoint × Rdb.RdbStats) → Started
  | (cache, .error e) => ⟨s.withCache cache, false, e = .noMemory⟩
  | (cache, .ok (checkpoint, _)) =>
    if checkpoint.valid = false ∨ aofValidateCheckpoint file checkpoint = false then ⟨s.withCache cache, false, false⟩
    else replayInto hash libc env (s.withCache cache) file checkpoint.aofOffset

/-- the part of `main` from `rdb_load` to `aof_replay_from`, without limits -/
def startup (alloc : ℕ → LoadAlloc) (env : ℕ → Env) (engine : ZsetEngine) (admin : Admin)
    (now : ℕ) (snapshot : Option Bytes) (file : Bytes) : Started :=
  let s := Service.init 0 0 engine admin fun _ => now
  match snapshot with
  | none => replayInto hash libc env s file 0
  | some data => resume hash libc env s file (rdbLoad hash alloc engine s.cache data)

variable {hash : Hasher} {libc : Libc} {t : ℕ} {arguments record : Record}

/-! ## Records and files -/

/-- the requests that are logged -/
def Request.Writes : Request → Prop
  | .set _ _ _ | .del _ | .expireAt _ _ | .persist _ | .hset _ _ | .hdel _ _ | .zadd _ _ | .zrem _ _ => True
  | _ => False

theorem Logs.writes {request : Request} (h : Logs arguments request record) : request.Writes := by
  cases h with
  | original hc => cases request <;> trivial
  | _ => trivial

/-- a request that is logged is a write of the reactor -/
theorem readRequest_writes {request : Request} (h : readRequest libc t arguments = .ok request) (hwrites : request.Writes) :
    logicalWrite arguments = true := by
  unfold readRequest at h
  split at h
  case h_13 hc =>
    split_ifs at h with hrest
    simp only [logicalWrite, hc, commandArityValid, isWriteCommand, length_cons]
    simp
    omega
  case h_18 hc =>
    split_ifs at h with hrest
    simp only [logicalWrite, hc, commandArityValid, isWriteCommand, length_cons]
    simp
    omega
  case h_22 =>
    unfold readRange at h
    split at h <;> cases h
    exact absurd hwrites id
  case h_23 =>
    split at h
    · cases h
    · rename_i hr
      unfold readRange at hr
      split at hr <;> cases hr
      split_ifs at h
      cases h
      exact absurd hwrites id
  all_goals
    rename_i hc
    first
    | (simp [logicalWrite, hc, commandArityValid, isWriteCommand]; done)
    | (cases h; exact absurd hwrites id)
    | cases h

/-- the record of a request that came in a frame -/
theorem fits_record {request : Request} (hframed : Framed arguments)
    (hwhole : (encodeRequest arguments).length ≤ respMaxFrameSize) (hread : readRequest libc t arguments = .ok request)
    (hfree : request.TtlFree) (hlogs : Logs arguments request record) : Fits record := by
  have hmax : Aof.aofMaxRecordSize = respMaxFrameSize + 1024 := rfl
  rcases hlogs.parts hfree hread with rfl | ⟨name, word, parts, more, rfl, rfl, hfew, hword⟩
  · exact Aof.fits_of_length hframed.nonempty hframed.few (by omega)
  · have hmany : (word :: parts).length ≤ 3 := by
      rw [length_cons]
      omega
    refine Aof.fits_of_length (cons_ne_nil _ _) (hmany.trans (by decide)) ?_
    have hdigits : ∀ n ≤ 7, (decimalText n).length = 1 := by decide
    rw [encodeRequest, flatMap_cons, flatMap_append, length_append, length_append, length_append] at hwhole
    rw [encodeRequest, flatMap_cons, length_append, length_append, Resp.length_encodeUnsigned,
      Resp.length_encodeArgument, hdigits _ hword, hdigits _ (by omega)]
    omega

variable {T : ℕ} {checkpoint : Checkpoint} {ks : Keyspace} {env : ℕ → Env} {log records : List Record} {a : Aof.State}
  {service : Service}

/-- **A snapshot of a cache without deadlines** is loaded as it was saved, at any time. -/
theorem rdbLoad_saved {now : ℕ} {holder : Service} (h : Keeps hash 0 t holder ks)
    (hvalid : checkpoint.valid = true) (hsized : checkpoint.Sized) (hnow : now ≤ uint64Max) {file : Bytes} {stats : Rdb.RdbStats}
    (hsave : rdbSave holder.cache (some checkpoint) now = some (file, stats)) (alloc : ℕ → LoadAlloc) (engine : ZsetEngine)
    {loaded : Cache} {r : Except Rdb.RdbError (Checkpoint × Rdb.RdbStats)}
    (hload : rdbLoad hash alloc engine (Cache.cacheCreate 0 0 fun _ => T) file = (loaded, r)) (hmemory : r ≠ .error .noMemory) :
    Rdb.Filling hash T loaded ∧ loaded.keyspace = holder.cache.keyspace ∧ ∃ stats', r = .ok (checkpoint, stats') := by
  have hfit := Rdb.rdbSave_fits h.good.core h.good.sound hsave
  obtain ⟨stats1, hfile⟩ := Rdb.rdbSave_eq h.good.core h.good.sound (some checkpoint) now hfit
  rw [hsave, Option.some.injEq, Prod.mk.injEq] at hfile
  have hwritten : Rdb.writtenCheckpoint (some checkpoint) = checkpoint := by
    simp [Rdb.writtenCheckpoint, Option.filter, hvalid]
  rw [hwritten] at hfile hfit
  obtain ⟨hnd, hdesc, hbinds⟩ := Rdb.entriesOf_spec h.good.core h.good.sound now
  have htimeless : ∀ e ∈ Rdb.entriesOf holder.cache now, e.expireAt = 0 := by
    intro e he
    obtain ⟨o, ho⟩ := hdesc e he
    exact h.timeless e.key (o, e.expireAt) ((hbinds e.key (o, e.expireAt)).2 ⟨e, he, rfl, rfl, ho⟩).1
  obtain ⟨hcreate, hempty⟩ := Rdb.filling_create hash T
  rw [hfile.1] at hload
  rcases Rdb.rdbLoad_spec alloc engine hcreate hempty hnow hsized hnd hdesc (fun e he => by rw [htimeless e he]; exact Nat.zero_le _)
    hfit loaded r hload with hno | ⟨hfilling, hok, hks⟩
  · exact absurd hno hmemory
  refine ⟨hfilling, funext fun k => Option.ext fun v => ?_, hok⟩
  rw [hks k v]
  constructor
  · rintro ⟨e, he, _, hb⟩
    exact ((hbinds k v).2 ⟨e, he, hb⟩).1
  · intro hv
    have hlive : ∀ time, Rdb.live time v.2 = true := fun time => by simp [Rdb.live, h.timeless k v hv]
    obtain ⟨e, he, hb⟩ := (hbinds k v).1 ⟨hv, hlive now⟩
    refine ⟨e, he, ?_, hb⟩
    rw [hb.2.1]
    exact hlive T

/-- the service of the startup behind such a load -/
theorem Service.Keeps.restored {holder : Service} (h : Keeps hash 0 t holder ks) {loaded : Cache}
    (hloaded : Rdb.Filling hash T loaded) (hsame : loaded.keyspace = holder.cache.keyspace) (engine : ZsetEngine) (admin : Admin) :
    Keeps hash 0 T ((Service.init 0 0 engine admin fun _ => T).withCache loaded) ks := by
  have htimeless : loaded.Timeless := by
    intro k v hv
    rw [hsame] at hv
    exact h.timeless k v hv
  refine ⟨hloaded.toGood, hloaded.keys, hloaded.memory, rfl, htimeless, ?_, h.short⟩
  show loaded.shown T = ks
  rw [htimeless.shown, hsame, ← h.timeless.shown t, h.shown]

/-! ## Replays -/

/-- the callback over the records of a log -/
theorem feed_replayCallback (hash : Hasher) (libc : Libc) (env : ℕ → Env) (log : List Record) :
    ∀ (index : ℕ) (s : Service) (outOfMemory : Bool), ∃ n, feed (replayCallback hash libc env) (index, s, outOfMemory) log =
      ((n, (Service.replayLog hash libc env index s log).service,
        outOfMemory || (Service.replayLog hash libc env index s log).outOfMemory),
        (Service.replayLog hash libc env index s log).ok) := by
  induction log with
  | nil => exact fun index s outOfMemory => ⟨index, by simp [feed, Service.replayLog]⟩
  | cons record log ih =>
    intro index s outOfMemory
    simp only [feed, replayCallback, Service.replayLog]
    by_cases hok : (s.replayAof hash libc (env index) record).ok = true
    · simp only [hok, if_true]
      obtain ⟨n, hn⟩ := ih (index + 1) (s.replayAof hash libc (env index) record).service
        (outOfMemory || (s.replayAof hash libc (env index) record).outOfMemory)
      refine ⟨n, hn.trans ?_⟩
      rw [Bool.or_assoc]
    · exact ⟨index + 1, by simp [hok]⟩

variable {r : Started}

/-- **A replay of a cut log** into a service that shows `ks` -/
theorem replayInto_cut (hT : T ≤ uint64Max) (henv : ∀ i, (env i).Healthy) (before : Bytes)
    (hfits : ∀ record ∈ log, Fits record) {n : ℕ} (hn : n ≤ (encodeLog log).length) {s : Service}
    (h : Keeps hash 0 T s ks) (hlog : IsLog libc ks log)
    (hr : replayInto hash libc env s ((before ++ encodeLog log).take (before.length + n)) before.length = r)
    (hmemory : r.outOfMemory = false) :
    r.ok = true ∧ Keeps hash 0 T r.service (applyLog libc ks (recordsWithin n log)) := by
  obtain ⟨hcontext, hok⟩ := @Aof.aofReplayFrom_fed _ (replayCallback hash libc env) before log n (0, s, false) hfits hn _ rfl
  obtain ⟨last, hfeed⟩ := feed_replayCallback hash libc env (recordsWithin n log) 0 s false
  rw [hfeed] at hcontext hok
  subst hr
  unfold replayInto at hmemory ⊢
  simp only [hcontext, hok, Bool.false_or] at hmemory ⊢
  obtain ⟨rest, hrest⟩ := Aof.recordsWithin_initial log n
  have hwithin : IsLog libc ks (recordsWithin n log) := by
    rw [← hrest, isLog_append] at hlog
    exact hlog.1
  exact Keeps.replays hT henv _ h hwithin hmemory

/-! ## The invariant -/

/-- a cache and a checkpoint that were taken together: the cache shows what the log up to the checkpoint leads to -/
def Taken (hash : Hasher) (libc : Libc) (a : Aof.State) (cache : Cache) (checkpoint : Checkpoint) : Prop :=
  ∃ before holder t, Aof.State.Marked a.logged a.appended.length checkpoint before ∧ holder.cache = cache ∧
    Keeps hash 0 t holder (applyLog libc Keyspace.empty (before ++ [Aof.State.checkpointRecord checkpoint.token]))

/-- a snapshot file of such a cache -/
def Stored (hash : Hasher) (libc : Libc) (a : Aof.State) (file : Bytes) : Prop :=
  ∃ cache checkpoint now stats, Taken hash libc a cache checkpoint ∧ now ≤ uint64Max ∧
    rdbSave cache (some checkpoint) now = some (file, stats)

/-- the service is attached to the AOF and shows what its log leads to -/
structure Live (hash : Hasher) (libc : Libc) (service : Service) (log : List Record) : Prop where
  aof : service.aof = true
  keeps : ∀ now, Keeps hash 0 now (service.setClock fun _ => now) (applyLog libc Keyspace.empty log)

structure Server.Holds (hash : Hasher) (libc : Libc) (s : Server) : Prop where
  tidy : s.aof.Tidy
  log : IsLog libc Keyspace.empty s.aof.logged
  live : s.aof.asyncError = false → Live hash libc s.service s.aof.logged
  child : ∀ child, s.child = some child → Taken hash libc s.aof child.cache child.checkpoint
  snapshots : ∀ file ∈ s.snapshots, Stored hash libc s.aof file

theorem Taken.later {b : Aof.State} {cache : Cache}
    (h : Taken hash libc a cache checkpoint) (hx : a.Extends b records) : Taken hash libc b cache checkpoint := by
  obtain ⟨before, holder, t, hmark, hcache, hkeeps⟩ := h
  refine ⟨before, holder, t, hmark.later ?_ hx.appended, hcache, hkeeps⟩
  rw [hx.logged]
  exact prefix_append _ _

theorem Stored.later {b : Aof.State} {file : Bytes} (h : Stored hash libc a file)
    (hx : a.Extends b records) : Stored hash libc b file := by
  obtain ⟨cache, checkpoint, now, stats, htaken, hrest⟩ := h
  exact ⟨cache, checkpoint, now, stats, htaken.later hx, hrest⟩

theorem Live.shown (h : Live hash libc service log) (t : ℕ) :
    service.cache.shown t = applyLog libc Keyspace.empty log := (h.keeps t).shown

theorem Live.logs {service : Service} {log : List Record} (h : Live hash libc service log) {now : UInt64} {env : Env}
    (henv : env.Healthy) (hframed : Framed arguments)
    (hfree : ∀ request, readRequest libc now.toNat arguments = .ok request → request.TtlFree) {r : Service.Response}
    (hr : (service.setClock fun _ => now.toNat).executeWithBarrier hash libc env arguments = r)
    (hmemory : r.outOfMemory = false) :
    Live hash libc r.service (log ++ r.records) ∧ IsLog libc (applyLog libc Keyspace.empty log) r.records ∧
      r.records.length ≤ 1 ∧
      ∀ record ∈ r.records, ∃ request, readRequest libc now.toNat arguments = .ok request ∧ Logs arguments request record := by
  obtain ⟨hnext, haof, hlog, hone, hlogs⟩ := (h.keeps now.toNat).logs h.aof (Service.toNat_le_uint64Max now) henv hframed hfree hr hmemory
  refine ⟨⟨haof, fun now' => ?_⟩, hlog, hone, hlogs⟩
  rw [applyLog_append]
  exact hnext.setClock now'

theorem healthy_onAof (env : Env) : (env.onAof true false).Healthy := ⟨rfl, rfl, rfl, fun _ => rfl, rfl, rfl⟩

/-- a write that the AOF does not take -/
theorem Live.refused (h : Live hash libc service log) (now : ℕ) (env : Env)
    (failed : Bool) (hwrite : logicalWrite arguments = true) :
    ((service.setClock fun _ => now).executeWithBarrier hash libc (env.onAof false failed) arguments).service =
      service.setClock fun _ => now := by
  have hmysql : (service.setClock fun _ => now).mysql = none := (h.keeps now).mysql
  have haof : (service.setClock fun _ => now).aof = true := h.aof
  simp only [logicalWrite, Bool.and_eq_true, decide_eq_true_eq] at hwrite
  obtain ⟨⟨hknown, harity⟩, hwrites⟩ := hwrite
  unfold Service.executeWithBarrier
  simp only [hmysql, ite_self, Option.isSome_none, Bool.false_eq_true, false_and, if_false, Option.any_none]
  rw [if_pos ⟨⟨⟨hknown, harity, hwrites⟩, haof⟩, Bool.false_ne_true⟩]
  rfl

/-- what a step does to the log: nothing, or one record, and the service then shows what the log leads to -/
def Server.Adds (libc : Libc) (s s' : Server) : Prop :=
  s'.aof.logged = s.aof.logged ∨ ∃ record, s'.aof.logged = s.aof.logged ++ [record] ∧
    ∀ t, s'.service.cache.shown t = applyLog libc Keyspace.empty s'.aof.logged

namespace Server

variable {s : Server}

variable {s' : Server}

theorem Adds.of_records (hlogged : s'.aof.logged = s.aof.logged ++ records)
    (hone : records.length ≤ 1) (hshown : ∀ t, s'.service.cache.shown t = applyLog libc Keyspace.empty s'.aof.logged) :
    Adds libc s s' := by
  match records, hone with
  | [], _ => exact Or.inl (hlogged.trans (append_nil _))
  | [record], _ => exact Or.inr ⟨record, hlogged, hshown⟩

/-- **A step of the AOF** that logs some records, and the service it leaves -/
theorem Holds.extend (h : Holds hash libc s) (hx : s.aof.Extends a records)
    (hlog : IsLog libc (applyLog libc Keyspace.empty s.aof.logged) records) (outOfMemory : Bool)
    (hlive : a.asyncError = false → Live hash libc service (s.aof.logged ++ records)) :
    Holds hash libc { s with service := service, aof := a, outOfMemory := outOfMemory } where
  tidy := hx.tidy
  log := by
    rw [hx.logged, isLog_append]
    exact ⟨h.log, hlog⟩
  live := by
    rw [hx.logged]
    exact hlive
  child := fun child hchild => (h.child child hchild).later hx
  snapshots := fun file hfile => (h.snapshots file hfile).later hx

/-- an action inside the AOF -/
theorem Holds.goes (h : Holds hash libc s) (hgoes : s.aof.Goes a) (herror : s.aof.asyncError = true → a.asyncError = true) :
    Holds hash libc { s with aof := a } ∧ Adds libc s { s with aof := a } := by
  refine ⟨h.extend hgoes.extends trivial s.outOfMemory fun hok => ?_, Or.inl hgoes.moves.logged⟩
  rw [append_nil]
  refine h.live (Bool.eq_false_iff.2 fun hbad => ?_)
  rw [herror hbad] at hok
  cases hok

/-- **A request.** -/
theorem Holds.request (h : Holds hash libc s) (hidle : s.aof.reactor = .idle) {now : UInt64} {env : Env} {during : List Action}
    (houtside : (ServerEvent.request now env during arguments).FromOutside)
    (hfree : (ServerEvent.request now env during arguments).TtlFree libc)
    (hs' : s.request hash libc now.toNat env during arguments = s') (hmemory : s'.outOfMemory = false) :
    Holds hash libc s' ∧ Adds libc s s' := by
  obtain ⟨hframed, hwhole, hduring⟩ := houtside
  unfold Server.request at hs'
  simp only at hs'
  cases hwrite : logicalWrite arguments with
  | false =>
    rw [hwrite, if_neg Bool.false_ne_true] at hs'
    subst hs'
    refine ⟨h.extend h.tidy.stays.extends trivial _ fun hok => ?_, Or.inl rfl⟩
    obtain ⟨hnext, _, _, hlogs⟩ := (h.live hok).logs (healthy_onAof env) hframed hfree rfl (Bool.or_eq_false_iff.1 hmemory).2
    generalize Service.executeWithBarrier hash libc (env.onAof true false) (s.service.setClock fun _ => now.toNat) arguments = r
      at hnext hlogs ⊢
    have hnone : r.records = [] := by
      refine eq_nil_iff_forall_not_mem.2 fun record hmem => ?_
      obtain ⟨request, hread, hlog⟩ := hlogs record hmem
      rw [readRequest_writes hread hlog.writes] at hwrite
      cases hwrite
    rw [hnone] at hnext
    exact hnext
  | true =>
    rw [hwrite, if_pos rfl] at hs'
    cases hbegin : s.aof.aofTransactionBegin.2 with
    | false =>
      rw [hbegin, if_neg Bool.false_ne_true] at hs'
      subst hs'
      refine ⟨h.extend h.tidy.stays.extends trivial _ fun hok => ?_, Or.inl rfl⟩
      rw [(h.live hok).refused now.toNat env _ hwrite, append_nil]
      exact ⟨(h.live hok).aof, fun now' => ((h.live hok).keeps now.toNat).setClock now'⟩
    | true =>
      rw [hbegin, if_pos rfl] at hs'
      subst hs'
      have hlive := h.live (Aof.State.begin_eq hbegin).2
      have hmemory := (Bool.or_eq_false_iff.1 hmemory).2
      have hcommit := fun records => @Aof.State.Tidy.commit s.aof h.tidy hidle hbegin during hduring records
      generalize s.aof.aofTransactionBegin.1.run during = a at hmemory hcommit ⊢
      cases herror : a.asyncError with
      | true =>
        have hx := hcommit (Service.executeWithBarrier hash libc (env.onAof true true) (s.service.setClock fun _ => now.toNat)
          arguments).records fun hok => absurd (herror.symm.trans hok) (by decide)
        rw [herror, if_pos rfl] at hx
        refine ⟨h.extend hx trivial _ fun hok => ?_, Or.inl (hx.logged.trans (append_nil _))⟩
        rw [(Aof.State.sameChunks_startCommit _ _).asyncError, Aof.State.error_appendAll, herror] at hok
        cases hok
      | false =>
        rw [herror] at hmemory
        obtain ⟨hnext, hlog, hone, hlogs⟩ := hlive.logs (healthy_onAof env) hframed hfree rfl hmemory
        generalize Service.executeWithBarrier hash libc (env.onAof true false) (s.service.setClock fun _ => now.toNat) arguments
          = r at hnext hlog hone hlogs ⊢
        have hx := hcommit r.records fun _ record hmem => by
          obtain ⟨request, hread, hl⟩ := hlogs record hmem
          exact fits_record hframed hwhole hread (hfree request hread) hl
        rw [herror, if_neg Bool.false_ne_true] at hx
        refine ⟨h.extend hx hlog _ fun _ => hnext, Adds.of_records hx.logged hone fun t => ?_⟩
        rw [hx.logged]
        exact hnext.shown t

/-- the files of `rdb_save` -/
theorem Holds.stores (h : Holds hash libc s) {cache : Cache} (htaken : Taken hash libc s.aof cache checkpoint) (now : UInt64) :
    Holds hash libc
      { s with snapshots := s.snapshots ++ ((rdbSave cache (some checkpoint) now.toNat).map Prod.fst).toList } := by
  refine { h with snapshots := fun file hfile => ?_ }
  rcases mem_append.1 hfile with hold | hnew
  · exact h.snapshots file hold
  · rw [Option.mem_toList, Option.map_eq_some_iff] at hnew
    obtain ⟨r, hsave, rfl⟩ := hnew
    exact ⟨cache, checkpoint, now.toNat, r.2, htaken, Service.toNat_le_uint64Max now, hsave⟩

/-- a cache and a checkpoint at the end of the log -/
theorem taken_now {token : Bytes} (hlive : Live hash libc service log)
    (hlogged : a.logged = log ++ [Aof.State.checkpointRecord token]) (htidy : a.Tidy)
    (hmem : checkpoint ∈ a.checkpoints) (hend : checkpoint.aofOffset = (encodeLog a.logged).length) (now : ℕ) :
    Taken hash libc a (service.setClock fun _ => now).cache checkpoint := by
  obtain ⟨before, hmark⟩ := htidy.marked checkpoint hmem
  refine ⟨before, service.setClock fun _ => now, now, hmark, rfl, ?_⟩
  have hping : applyLog libc Keyspace.empty a.logged = applyLog libc Keyspace.empty log := by
    rw [hlogged, applyLog_append]
    exact applyRecord_ping libc _ _
  rw [hmark.whole hend, hping]
  exact hlive.keeps now

/-- **SAVE and BGSAVE.** -/
theorem Holds.save (h : Holds hash libc s) (hidle : s.aof.reactor = .idle) {background : Bool} {now : UInt64} {token : Bytes}
    {during : List Action} {ok : Bool} (houtside : (ServerEvent.save background now token during ok).FromOutside)
    (hs' : s.persistenceSave background now.toNat token during ok = s') : Holds hash libc s' ∧ Adds libc s s' := by
  obtain ⟨hsized, hduring⟩ := houtside
  obtain ⟨hcheckpoints, hbegun⟩ := h.tidy.checkpoint hidle hsized (Aof.State.fits_checkpoint hsized)
  have herror := (Aof.State.sameChunks_checkpoint s.aof true token).asyncError
  unfold persistenceSave at hs'
  by_cases hchild : s.child.isSome = true
  · rw [if_pos hchild] at hs'
    subst hs'
    exact ⟨h, Or.inl rfl⟩
  rw [if_neg hchild] at hs'
  simp only at hs'
  generalize s.aof.aofCreateCheckpoint true token = begun at hcheckpoints hbegun herror hs'
  rcases hbegun with ⟨hfailed, hx⟩ | ⟨hbusy, hgood, hx⟩
  · rw [if_pos hfailed] at hs'
    subst hs'
    refine ⟨h.extend hx trivial _ fun hok => ?_, Or.inl (hx.logged.trans (append_nil _))⟩
    rw [append_nil]
    exact h.live (herror.symm.trans hok)
  rw [if_neg hbusy] at hs'
  have hgoes := hx.tidy.run during hduring
  generalize begun.run during = a at hgoes hs'
  have hlive := h.live hgood
  have hx' := hx.goes hgoes
  have hping : ∀ ks, applyLog libc ks [Aof.State.checkpointRecord token] = ks := fun ks => applyRecord_ping libc ks _
  have hholds : Holds hash libc { s with aof := a } := by
    refine h.extend hx' ⟨.ping _, trivial⟩ s.outOfMemory fun _ => ⟨hlive.aof, fun now => ?_⟩
    rw [applyLog_append, hping]
    exact hlive.keeps now
  have hshown : ∀ t, s.service.cache.shown t = applyLog libc Keyspace.empty a.logged := by
    intro t
    rw [hx'.logged, applyLog_append, hping]
    exact hlive.shown t
  split at hs'
  · rename_i checkpoint _ hfresh
    cases ok with
    | false =>
      rw [if_neg Bool.false_ne_true] at hs'
      subst hs'
      exact ⟨hholds, Or.inr ⟨_, hx'.logged, hshown⟩⟩
    | true =>
      rw [if_pos rfl] at hs'
      obtain ⟨fresh, hlist, hend⟩ := hgoes.checkpoints
      rw [hlist, hcheckpoints, drop_left] at hfresh
      have hmem : checkpoint ∈ a.checkpoints := by
        rw [hlist, hfresh]
        exact mem_append_right _ (mem_singleton_self _)
      have htaken := taken_now hlive hx'.logged hx'.tidy hmem (hend checkpoint (by rw [hfresh]; exact mem_singleton_self _)) now.toNat
      unfold saveCache at hs'
      simp only at hs'
      cases background with
      | true =>
        rw [if_pos rfl] at hs'
        subst hs'
        exact ⟨{ hholds with child := fun child hc => by cases hc; exact htaken }, Or.inr ⟨_, hx'.logged, hshown⟩⟩
      | false =>
        rw [if_neg Bool.false_ne_true] at hs'
        subst hs'
        exact ⟨hholds.stores htaken now, Or.inr ⟨_, hx'.logged, hshown⟩⟩
  · subst hs'
    exact ⟨hholds, Or.inr ⟨_, hx'.logged, hshown⟩⟩

/-- a step of another kind that leaves the AOF and the keyspace -/
theorem Holds.maintain (h : Holds hash libc s) (now : ℕ) :
    Holds hash libc { s with service := (s.service.setClock fun _ => now).maintain } := by
  refine h.extend h.tidy.stays.extends trivial s.outOfMemory fun hok => ?_
  rw [append_nil]
  exact ⟨(h.live hok).aof, fun now' => ((h.live hok).keeps now).maintain.setClock now'⟩

/-- **One event.** -/
theorem Holds.step (h : Holds hash libc s) {e : ServerEvent} (houtside : e.FromOutside) (hfree : e.TtlFree libc)
    (hmemory : (s.step hash libc e).outOfMemory = false) :
    Holds hash libc (s.step hash libc e) ∧ Adds libc s (s.step hash libc e) := by
  have hsame : Holds hash libc s ∧ Adds libc s s := ⟨h, Or.inl rfl⟩
  cases e with
  | request now env during arguments =>
    simp only [Server.step] at hmemory ⊢
    split_ifs at hmemory ⊢ with hskip
    · exact hsame
    · push Not at hskip
      exact h.request hskip.1 houtside hfree rfl hmemory
  | maintain now =>
    simp only [Server.step]
    split_ifs with hskip
    · exact hsame
    · exact ⟨h.maintain now.toNat, Or.inl rfl⟩
  | flush =>
    simp only [Server.step]
    split_ifs with hskip
    · exact hsame
    · exact h.goes h.tidy.flush fun hbad => (Aof.State.sameFile_flush s.aof).asyncError.trans hbad
  | save background now token during ok =>
    simp only [Server.step]
    split_ifs with hskip
    · exact hsame
    · exact h.save (not_not.1 hskip) houtside rfl
  | childSaves now =>
    simp only [Server.step]
    split
    · exact hsame
    · rename_i child hchild
      exact ⟨h.stores (h.child child hchild) now, Or.inl rfl⟩
  | childExits => exact ⟨{ h with child := fun child hc => nomatch hc }, Or.inl rfl⟩
  | aof action => exact h.goes (h.tidy.step houtside) (Aof.State.step_monotone s.aof action).2

/-! ## Runs -/

theorem holds_start (hash : Hasher) (libc : Libc) (fsyncPolicy : Aof.FsyncPolicy) (engine : ZsetEngine) (admin : Admin)
    (nowMs : ℕ → ℕ) : Holds hash libc (start fsyncPolicy engine admin nowMs) where
  tidy := Aof.State.tidy_open fsyncPolicy
  log := trivial
  live := fun _ => ⟨rfl, fun now => Service.keeps_init hash 0 engine admin true nowMs now⟩
  child := fun _ h => nomatch h
  snapshots := fun _ h => absurd h not_mem_nil

theorem step_memory (e : ServerEvent) (h : s.outOfMemory = true) : (s.step hash libc e).outOfMemory = true := by
  cases e with
  | request now env during arguments =>
    simp only [Server.step, Server.request]
    split_ifs <;> simp [h]
  | maintain now | flush =>
    simp only [Server.step]
    split_ifs <;> exact h
  | save background now token during ok =>
    simp only [Server.step, persistenceSave, saveCache]
    split_ifs
    · exact h
    · exact h
    · exact h
    all_goals split <;> exact h
  | childSaves now =>
    simp only [Server.step]
    split <;> exact h
  | childExits => exact h
  | aof action => exact h

/-- **The run**: the invariant, and for every first part of the log an earlier time at which that was the log. -/
theorem Holds.run {start : Server} (hstart : Holds hash libc start) (hnone : start.aof.logged = [])
    (hlive : Live hash libc start.service []) (events : List ServerEvent) (houtside : ∀ e ∈ events, e.FromOutside)
    (hfree : ∀ e ∈ events, e.TtlFree libc) (hmemory : (start.run hash libc events).outOfMemory = false) :
    Holds hash libc (start.run hash libc events) ∧
      ∀ log, log <+: (start.run hash libc events).aof.logged → ∃ earlier, earlier <+: events ∧
        (start.run hash libc earlier).aof.logged = log ∧
        ∀ t, (start.run hash libc earlier).service.cache.shown t = applyLog libc Keyspace.empty log := by
  induction events using List.reverseRecOn with
  | nil =>
    refine ⟨hstart, fun log hlog => ⟨[], prefix_rfl, ?_⟩⟩
    have hempty : log = [] := by
      rw [show (start.run hash libc []).aof.logged = [] from hnone] at hlog
      exact prefix_nil.1 hlog
    subst hempty
    exact ⟨hnone, hlive.shown⟩
  | append_singleton events e ih =>
    have hlast : start.run hash libc (events ++ [e]) = (start.run hash libc events).step hash libc e := foldl_append
    rw [hlast] at hmemory ⊢
    obtain ⟨houtside, he⟩ := forall_mem_append.1 houtside
    obtain ⟨hfree, hefree⟩ := forall_mem_append.1 hfree
    have hbefore : (start.run hash libc events).outOfMemory = false := by
      refine Bool.eq_false_iff.2 fun hbad => ?_
      rw [step_memory e hbad] at hmemory
      cases hmemory
    obtain ⟨hholds, hearlier⟩ := ih houtside hfree hbefore
    obtain ⟨hnext, hadds⟩ := hholds.step (he e (mem_singleton_self e)) (hefree e (mem_singleton_self e)) hmemory
    refine ⟨hnext, fun log hlog => ?_⟩
    have hold : log <+: (start.run hash libc events).aof.logged → ∃ earlier, earlier <+: events ++ [e] ∧
        (start.run hash libc earlier).aof.logged = log ∧
        ∀ t, (start.run hash libc earlier).service.cache.shown t = applyLog libc Keyspace.empty log := by
      intro hpart
      obtain ⟨earlier, hinitial, hrest⟩ := hearlier log hpart
      exact ⟨earlier, hinitial.trans (prefix_append _ _), hrest⟩
    rcases hadds with hsame | ⟨record, hlogged, hshown⟩
    · rw [hsame] at hlog
      exact hold hlog
    · rw [hlogged, prefix_concat_iff] at hlog
      rcases hlog with rfl | hpart
      · refine ⟨events ++ [e], prefix_rfl, ?_, ?_⟩
        · rw [hlast, hlogged]
        · rw [hlast, ← hlogged]
          exact hshown
      · exact hold hpart

end Server

/-! ## Recovery -/

/-- the startup without a snapshot -/
theorem startup_whole {s : Server} (h : s.Holds hash libc) (hT : T ≤ uint64Max)
    (henv : ∀ i, (env i).Healthy) {alloc : ℕ → LoadAlloc} {engine : ZsetEngine} {admin : Admin}
    (hr : startup hash libc alloc env engine admin T none s.aof.file = r) (hmemory : r.outOfMemory = false) :
    r.ok = true ∧
      Keeps hash 0 T r.service (applyLog libc Keyspace.empty (recordsWithin s.aof.file.length s.aof.logged)) := by
  obtain ⟨hfile, hinitial⟩ := h.tidy.file
  rw [← hfile] at hinitial
  have hcut : s.aof.file = ([] ++ encodeLog s.aof.logged).take (([] : Bytes).length + s.aof.file.length) := by
    rw [nil_append, length_nil, Nat.zero_add]
    exact prefix_iff_eq_take.1 hinitial
  have hempty := Service.keeps_init hash 0 engine admin false (fun _ => T) T
  refine replayInto_cut hT henv [] h.tidy.fits hinitial.length_le hempty h.log ?_ hmemory
  rw [← hcut]
  exact hr

theorem startup_some (alloc : ℕ → LoadAlloc) (env : ℕ → Env) (engine : ZsetEngine) (admin : Admin) (now : ℕ) (data file : Bytes) :
    startup hash libc alloc env engine admin now (some data) file =
      resume hash libc env (Service.init 0 0 engine admin fun _ => now) file
        (rdbLoad hash alloc engine (Cache.cacheCreate 0 0 fun _ => now) data) := rfl

/-- the startup with a snapshot -/
theorem startup_snapshot {s : Server} (h : s.Holds hash libc) (hsize : s.aof.file.length ≤ uint64Max) {snapshot : Bytes}
    (hsnapshot : snapshot ∈ s.snapshots) (hT : T ≤ uint64Max) (henv : ∀ i, (env i).Healthy)
    {alloc : ℕ → LoadAlloc} {engine : ZsetEngine} {admin : Admin}
    (hr : startup hash libc alloc env engine admin T (some snapshot) s.aof.file = r) (hmemory : r.outOfMemory = false) :
    (∃ loaded checkpoint stats, rdbLoad hash alloc engine (Cache.cacheCreate 0 0 fun _ => T) snapshot =
        (loaded, .ok (checkpoint, stats)) ∧ aofValidateCheckpoint s.aof.file checkpoint = true) ∧
      r.ok = true ∧
      Keeps hash 0 T r.service (applyLog libc Keyspace.empty (recordsWithin s.aof.file.length s.aof.logged)) := by
  obtain ⟨hfile, hinitial⟩ := h.tidy.file
  rw [← hfile] at hinitial
  obtain ⟨cache, checkpoint, now, stats, ⟨before, holder, t, hmark, rfl, hkeeps⟩, hnow, hsave⟩ := h.snapshots snapshot hsnapshot
  rw [← hfile] at hmark
  have hvalidates := Aof.State.validate_marked hmark hinitial le_rfl
  have hsized : checkpoint.Sized := ⟨hmark.written.trans hsize, hmark.sized⟩
  rw [startup_some] at hr
  obtain ⟨loaded, result, hload⟩ : ∃ loaded result,
    rdbLoad hash alloc engine (Cache.cacheCreate 0 0 fun _ => T) snapshot = (loaded, result) := ⟨_, _, rfl⟩
  rw [hload] at hr
  have hloads : result ≠ .error .noMemory := by
    rintro rfl
    subst hr
    cases hmemory
  obtain ⟨hfilling, hsame, stats', rfl⟩ := rdbLoad_saved hkeeps hmark.valid hsized hnow hsave alloc engine hload hloads
  refine ⟨⟨loaded, checkpoint, stats', hload, hvalidates⟩, ?_⟩
  rw [resume, if_neg (by simp [hmark.valid, hvalidates])] at hr
  -- the log is cut at the checkpoint, and the file behind it
  obtain ⟨rest, hrest⟩ := hmark.log
  have hoffset := hmark.offset
  generalize before ++ [Aof.State.checkpointRecord checkpoint.token] = start at hrest hkeeps hoffset
  have hlog := h.log
  rw [← hrest, isLog_append] at hlog
  have hfits := h.tidy.fits
  rw [← hrest] at hfits hinitial ⊢
  have hlength := hinitial.length_le
  rw [Aof.encodeLog_append] at hinitial
  rw [Aof.encodeLog_append, length_append] at hlength
  have hwritten := hmark.written
  have hcut : s.aof.file = (encodeLog start ++ encodeLog rest).take
      ((encodeLog start).length + (s.aof.file.length - (encodeLog start).length)) := by
    rw [Nat.add_sub_cancel' (by omega)]
    exact prefix_iff_eq_take.1 hinitial
  have hleft : s.aof.file.length - (encodeLog start).length ≤ (encodeLog rest).length := by omega
  rw [hoffset, hcut] at hr
  obtain ⟨hok, hend⟩ := replayInto_cut hT henv (encodeLog start) (fun record hmem => hfits record (mem_append_right _ hmem))
    hleft (hkeeps.restored hfilling hsame engine admin) hlog.2 hr hmemory
  refine ⟨hok, ?_⟩
  rw [Aof.recordsWithin_append start rest (by omega), applyLog_append]
  exact hend

/-- **A snapshot and the AOF behind its checkpoint.** After any run, take any snapshot file that was completed and the AOF as far
as it is written. The snapshot is loaded and its checkpoint accepted. The startup with it and the startup without it both replay
every record, and show the same: the keyspace that the server had when the last record in the file was logged. If all records are
in the file and the AOF has not failed, that is the keyspace it has now. -/
theorem snapshot_and_tail (hash : Hasher) (libc : Libc) (fsyncPolicy : Aof.FsyncPolicy) (engine engine' : ZsetEngine)
    (admin admin' : Admin) (nowMs : ℕ → ℕ) (events : List ServerEvent) (houtside : ∀ e ∈ events, e.FromOutside)
    (hfree : ∀ e ∈ events, e.TtlFree libc) {s : Server}
    (hs : (Server.start fsyncPolicy engine admin nowMs).run hash libc events = s) (hmemory : s.outOfMemory = false)
    (hsize : s.aof.file.length ≤ uint64Max) {snapshot : Bytes} (hsnapshot : snapshot ∈ s.snapshots) (T : UInt64)
    (alloc : ℕ → LoadAlloc) (env env' : ℕ → Env) (henv : ∀ i, (env i).Healthy) (henv' : ∀ i, (env' i).Healthy) {whole both : Started}
    (hwhole : startup hash libc alloc env engine' admin' T.toNat none s.aof.file = whole) (hmemory' : whole.outOfMemory = false)
    (hboth : startup hash libc alloc env' engine' admin' T.toNat (some snapshot) s.aof.file = both)
    (hmemory'' : both.outOfMemory = false) :
    (∃ loaded checkpoint stats, rdbLoad hash alloc engine' (Cache.cacheCreate 0 0 fun _ => T.toNat) snapshot =
        (loaded, .ok (checkpoint, stats)) ∧ aofValidateCheckpoint s.aof.file checkpoint = true) ∧
      whole.ok = true ∧ both.ok = true ∧ (∀ t, both.service.cache.shown t = whole.service.cache.shown t) ∧
      ∃ earlier, earlier <+: events ∧
        ((Server.start fsyncPolicy engine admin nowMs).run hash libc earlier).aof.logged =
          recordsWithin s.aof.file.length s.aof.logged ∧
        (∀ t, whole.service.cache.shown t =
          ((Server.start fsyncPolicy engine admin nowMs).run hash libc earlier).service.cache.shown t) ∧
        (s.aof.asyncError = false → s.aof.file.length = (encodeLog s.aof.logged).length →
          ∀ t, whole.service.cache.shown t = s.service.cache.shown t) := by
  subst hs
  have hT := Service.toNat_le_uint64Max T
  have hstart := Server.holds_start hash libc fsyncPolicy engine admin nowMs
  obtain ⟨hholds, hearlier⟩ := hstart.run rfl (hstart.live rfl) events houtside hfree hmemory
  obtain ⟨hok, hkeeps⟩ := startup_whole hholds hT henv hwhole hmemory'
  obtain ⟨haccepted, hok', hkeeps'⟩ := startup_snapshot hholds hsize hsnapshot hT henv' hboth hmemory''
  obtain ⟨earlier, hinitial, hlogged, hshown⟩ := hearlier _ (Aof.recordsWithin_initial _ _)
  refine ⟨haccepted, hok, hok', fun t => (hkeeps'.shown_at t).trans (hkeeps.shown_at t).symm, earlier, hinitial, hlogged, fun t => ?_,
    fun hgood hwritten t => ?_⟩
  · rw [hkeeps.shown_at t, hshown t]
  · rw [hkeeps.shown_at t, Aof.recordsWithin_all _ hwritten.ge, (hholds.live hgood).shown t]

/-! ### A run -/

/-- SET k v, a SAVE that is written out, and SET k w -/
def savedThenChanged : List ServerEvent :=
  [.request 1 Env.succeeding [] [ascii "SET", ascii "k", ascii "v"], .aof (.copy true), .aof .finish,
    .save false 5 (List.replicate 16 7) [.copy true, .finish, .handOver, .gather, .writev 80, .consume, .awake, .reactorSync true,
      .reactorSync true, .reactorSync true, .stat] true,
    .request 6 Env.succeeding [] [ascii "SET", ascii "k", ascii "w"], .aof (.copy true), .aof .finish, .flush, .aof .gather,
    .aof (.writev 27), .aof .consume]

def savedServer : Server := (Server.start .no .rbtree Admin.none fun _ => 0).run (fun _ => 0) Libc.silent savedThenChanged

theorem savedThenChanged_spec : (∀ e ∈ savedThenChanged, e.FromOutside) ∧ ∀ e ∈ savedThenChanged, e.TtlFree Libc.silent := by
  have hv : Framed [ascii "SET", ascii "k", ascii "v"] := ⟨by decide, by decide, by decide⟩
  have hw : Framed [ascii "SET", ascii "k", ascii "w"] := ⟨by decide, by decide, by decide⟩
  have hfree : ∀ (now : UInt64) value env during,
      (ServerEvent.request now env during [ascii "SET", ascii "k", value]).TtlFree Libc.silent := by
    intro now value env during request hread
    have hcommand : findCommand (argument [ascii "SET", ascii "k", value] 0) = .set := by
      show findCommand (ascii "SET") = .set
      decide
    simp only [readRequest, hcommand] at hread
    cases hread
    trivial
  refine ⟨fun e he => ?_, fun e he => ?_⟩
  · fin_cases he
    · exact ⟨hv, by decide, by simp⟩
    · rfl
    · rfl
    · exact ⟨rfl, by decide⟩
    · exact ⟨hw, by decide, by simp⟩
    all_goals first | rfl | trivial
  · fin_cases he
    all_goals first | exact hfree _ _ _ _ | trivial

/-- the snapshot holds k -/
theorem savedServer_snapshots :
    savedServer.snapshots = [Rdb.encodeFile 5 ⟨80, List.replicate 16 7, true⟩ [⟨ascii "k", 0, .string (ascii "v")⟩]] := by
  have hstart := Server.holds_start (fun _ => 0) Libc.silent .no .rbtree Admin.none fun _ => 0
  obtain ⟨houtside, hfree⟩ := savedThenChanged_spec
  obtain ⟨hholds, _⟩ := hstart.run rfl (hstart.live rfl) (savedThenChanged.take 3) (fun e he => houtside e (mem_of_mem_take he))
    (fun e he => hfree e (mem_of_mem_take he)) (by decide +kernel)
  have hgood := ((hholds.live (by decide +kernel)).keeps 5).good
  obtain ⟨cache, hcache⟩ : ∃ cache, cache = (((Server.start .no .rbtree Admin.none fun _ => 0).run (fun _ => 0) Libc.silent
    (savedThenChanged.take 3)).service.setClock fun _ => 5).cache := ⟨_, rfl⟩
  rw [← hcache] at hgood
  have hentries : Rdb.entriesOf cache 5 = [⟨ascii "k", 0, .string (ascii "v")⟩] := by
    rw [hcache]
    rfl
  have hsnapshots : savedServer.snapshots = ((rdbSave cache (some ⟨80, List.replicate 16 7, true⟩) 5).map Prod.fst).toList := by
    rw [hcache]
    rfl
  obtain ⟨stats, hsave⟩ := Rdb.rdbSave_eq hgood.core hgood.sound (some ⟨80, List.replicate 16 7, true⟩) 5
    (by rw [hentries]; decide +kernel)
  rw [hsnapshots, hsave, hentries]
  rfl

/-- the server restarted from a snapshot, at time 9 -/
def restarted (snapshot : Bytes) : Started :=
  startup (fun _ => 0) Libc.silent (fun _ => .succeeding) (fun _ => Env.succeeding) .skiplist Admin.none (9 : UInt64).toNat
    (some snapshot) savedServer.aof.file

theorem snapshot_and_tail_changed :
    ∃ snapshot ∈ savedServer.snapshots,
      (restarted snapshot).ok = true ∧ ∀ t, (restarted snapshot).service.cache.shown t = savedServer.service.cache.shown t := by
  obtain ⟨snapshot, hsnapshot⟩ : ∃ snapshot, snapshot = Rdb.encodeFile 5 ⟨80, List.replicate 16 7, true⟩
    [⟨ascii "k", 0, .string (ascii "v")⟩] := ⟨_, rfl⟩
  have hmem : snapshot ∈ savedServer.snapshots := by
    rw [savedServer_snapshots, hsnapshot]
    exact mem_singleton_self _
  have hboth : (restarted snapshot).outOfMemory = false := by
    rw [restarted, startup_some, hsnapshot, Rdb.rdbLoad_file _ .skiplist _ (by decide) ⟨by decide, rfl⟩ (by decide +kernel)]
    decide +kernel
  have hgood : savedServer.aof.asyncError = false := by decide +kernel
  have hall : savedServer.aof.file.length = (encodeLog savedServer.aof.logged).length := by decide +kernel
  obtain ⟨_, _, hok, hsame, _, _, _, _, hlive⟩ := snapshot_and_tail (fun _ => 0) Libc.silent .no .rbtree .skiplist Admin.none Admin.none
    (fun _ => 0) savedThenChanged savedThenChanged_spec.1 savedThenChanged_spec.2 (show _ = savedServer from rfl) (by decide +kernel)
    (by decide +kernel) hmem 9 (fun _ => .succeeding) (fun _ => Env.succeeding) (fun _ => Env.succeeding)
    (fun _ => Env.succeeding_healthy) (fun _ => Env.succeeding_healthy) rfl (by decide +kernel) (show _ = restarted snapshot from rfl)
    hboth
  exact ⟨snapshot, hmem, hok, fun t => (hsame t).trans (hlive hgood hall t)⟩

end StoreSystem
