/-
The AOF as an outbox for MySQL: the markers that `kvstore_service_execute_with_barrier` logs, the queue and the writer thread of
`src/storage/mysql_store.c`, and `scan_mysql_aof` of `src/app/main.c`, which finds the mutations again at the next start.

A request that changes something is one transaction of the AOF: the deletions of the keys it evicted, its own record and a marker
with the next sequence. Each of these records is copied into one buffer as it is appended; what the buffer holds at the end is
submitted to the writer thread, which applies it and moves the watermark of MySQL to its sequence in the same transaction. At the
next start the mutations above the watermark are applied again.

- `scanMysqlAof`, `Outbox.step`: the scan of one record, and the system. A record of an eviction outside a request waits in the
  AOF's buffer until it is flushed. Each record of the log carries whether it stands for an eviction.
- `Logs`: what every run keeps. The scan of the log succeeds, and the sequences it finds are those given out.
- `Event.Whole`: the buffer ends up with the last record of the request or with nothing, and a commit that fails leaves nothing
  in the file. Appends, copies and commits that fail are otherwise arbitrary.
- `scan_finds_submitted`: if then every submission succeeds, the scan finds exactly what was submitted.
- `watermark_covers`: in a run in which no submission succeeds after one has failed, all that is logged up to the watermark is
  applied, and the rest is what the recovery applies.
- `watermark_skips`: a mutation whose submission fails is logged; the next one moves the watermark past it for good.
- `copy_skips`, `cut_unreadable`: the same for an own record that cannot be copied behind the deletion of an evicted key, and
  what a part of a transaction does to the file.

Premises: the clock, the limits and all other allocations are arbitrary. The recovery's own statements succeed. The writer thread
is not stopped; what is queued when it stops is left to the recovery.
-/
import StoreSystem.Service.Records
import StoreSystem.Persistence.AofQueue

namespace StoreSystem.App

open List
open Service (LogicalWrite OwnRecord argument delRecord markerRecord)

/-! ## The scan -/

def appArgumentEquals (data : Bytes) (literal : String) : Bool := argumentEquals data literal

def mysqlAofMutation (arguments : Record) : Bool :=
  2 ≤ arguments.length ∧
    ["SET", "DEL", "HSET", "HDEL", "ZADD", "ZREM", "PEXPIREAT", "PERSIST"].any (appArgumentEquals (argument arguments 0))

def decodeHexDigit (value : UInt8) : Option ℕ :=
  if 48 ≤ value ∧ value ≤ 57 then some (value.toNat - 48)
  else if 97 ≤ value ∧ value ≤ 102 then some (value.toNat - 97 + 10)
  else if 65 ≤ value ∧ value ≤ 70 then some (value.toNat - 65 + 10)
  else none

/-- the pairs of hexadecimal digits of a UUID -/
def decodeUuid : Bytes → Option Bytes
  | high :: low :: rest =>
    match decodeHexDigit high, decodeHexDigit low, decodeUuid rest with
    | some h, some l, some uuid => some ((h * 16 + l).toUInt8 :: uuid)
    | _, _, _ => none
  | _ => some []

/-- the result of `parse_mysql_marker`: 0, -1, or 1 with what was read -/
inductive Marker
  | none
  | invalid
  | found (uuid : Bytes) (sequence : ℕ)
deriving DecidableEq, Repr

def parseMysqlMarker (arguments : Record) : Marker :=
  if arguments.length ≠ 2 ∨ appArgumentEquals (argument arguments 0) "PING" = false then .none
  else
    let text := argument arguments 1
    if text.length < 43 ∨ text.take 9 ≠ ascii "KVMYSQL1:" ∨ (text.drop 41).head? ≠ some 58 then .none
    else
      match decodeUuid ((text.drop 9).take 32), parseDigits uint64Max (text.drop 42) 0 with
      | some uuid, some value => if value = 0 then .invalid else .found uuid value
      | _, _ => .invalid

/-- `mysql_aof_scan_t`; the last two fields are history: the mutations found with their sequences, and those given to
`mysql_store_recover_mutation` -/
structure Scan where
  previous : Option Record
  writerUuid : Option Bytes
  maximumSequence : ℕ
  databaseSequence : ℕ
  recover : Bool
  pairs : List (ℕ × Record)
  recovered : List (ℕ × Record)

/-- a scan before the first record -/
def Scan.start : Scan := ⟨none, none, 0, 0, false, [], []⟩

/-- a scan that recovers, with the watermark of MySQL -/
def Scan.recovery (databaseSequence : ℕ) : Scan := { Scan.start with recover := true, databaseSequence := databaseSequence }

/-- `scan_mysql_aof` on one record -/
def scanMysqlAof (scan : Scan) (arguments : Record) : Option Scan :=
  match parseMysqlMarker arguments with
  | .invalid => none
  | .found uuid sequence =>
    match scan.previous with
    | none => none
    | some mutation =>
      if scan.writerUuid.any (· ≠ uuid) ∨ sequence ≤ scan.maximumSequence then none
      else
        let recovers := scan.recover && decide (scan.databaseSequence < sequence)
        some { scan with
          previous := none
          writerUuid := some uuid
          maximumSequence := sequence
          databaseSequence := if recovers then sequence else scan.databaseSequence
          pairs := scan.pairs ++ [(sequence, mutation)]
          recovered := if recovers then scan.recovered ++ [(sequence, mutation)] else scan.recovered }
  | .none =>
    if mysqlAofMutation arguments then
      if arguments.length > respMaxArguments then none else some { scan with previous := some arguments }
    else some { scan with previous := none }

/-- the scan of a log -/
def scanAof (scan : Scan) (log : List Record) : Option Scan := log.foldlM scanMysqlAof scan

theorem scanAof_append (scan : Scan) (log log' : List Record) :
    scanAof scan (log ++ log') = (scanAof scan log).bind fun scan' => scanAof scan' log' := foldlM_append

/-- the sequences that were found ascend -/
structure Ascending (scan : Scan) : Prop where
  sorted : (scan.pairs.map Prod.fst).Pairwise (· < ·)
  bound : ∀ p ∈ scan.pairs, p.1 ≤ scan.maximumSequence

theorem Ascending.step {scan scan' : Scan} (h : Ascending scan) {record : Record} (hstep : scanMysqlAof scan record = some scan') :
    Ascending scan' := by
  unfold scanMysqlAof at hstep
  split at hstep
  · cases hstep
  · split at hstep
    · cases hstep
    · split_ifs at hstep with hrefused
      cases hstep
      rw [not_or, not_le] at hrefused
      refine ⟨?_, ?_⟩
      · rw [map_append, pairwise_append]
        refine ⟨h.sorted, pairwise_singleton _ _, ?_⟩
        intro a ha b hb
        obtain ⟨p, hp, rfl⟩ := mem_map.1 ha
        rw [map_singleton, mem_singleton] at hb
        exact hb ▸ (h.bound p hp).trans_lt hrefused.2
      · intro p hp
        rcases mem_append.1 hp with hold | hnew
        · exact (h.bound p hold).trans hrefused.2.le
        · rw [mem_singleton.1 hnew]
  · split_ifs at hstep <;> cases hstep <;> exact ⟨h.sorted, h.bound⟩

theorem Ascending.scan (log : List Record) : ∀ {scan scan' : Scan}, Ascending scan → scanAof scan log = some scan' → Ascending scan' := by
  induction log with
  | nil =>
    intro scan scan' h hscan
    cases hscan
    exact h
  | cons record log ih =>
    intro scan scan' h hscan
    obtain ⟨next, hnext, hrest⟩ := Option.bind_eq_some_iff.1 hscan
    exact ih (h.step hnext) hrest

/-- the same scan with the recovery switched on, from a watermark `w` -/
def Scan.recovering (w : ℕ) (scan : Scan) : Scan :=
  { scan with
    recover := true
    databaseSequence := max w scan.maximumSequence
    recovered := scan.pairs.filter (w < ·.1) }

variable {record arguments : Record}

theorem recovering_step (w : ℕ) {scan scan' : Scan} (hoff : scan.recover = false)
    (hstep : scanMysqlAof scan record = some scan') :
    scan'.recover = false ∧ scanMysqlAof (scan.recovering w) record = some (scan'.recovering w) := by
  unfold scanMysqlAof at hstep ⊢
  split at hstep
  · cases hstep
  · rename_i uuid sequence hmarker
    dsimp only
    split at hstep
    · cases hstep
    · rename_i mutation hprevious
      have hkept : (scan.recovering w).previous = some mutation := hprevious
      simp only [hkept]
      split_ifs at hstep with hrefused
      have hrefused' : ¬ ((scan.recovering w).writerUuid.any (· ≠ uuid) = true ∨ sequence ≤ (scan.recovering w).maximumSequence) :=
        hrefused
      rw [if_neg hrefused']
      cases hstep
      rw [not_or, not_le] at hrefused
      refine ⟨hoff, congrArg some ?_⟩
      -- the sequence is above the watermark exactly when it is above what was recovered so far
      have habove : max w scan.maximumSequence < sequence ↔ w < sequence := by omega
      by_cases hw : w < sequence
      · simp [Scan.recovering, habove, hw, filter_append, Nat.max_eq_right hw.le]
      · simp [Scan.recovering, habove, hw, filter_append]
        omega
  · split_ifs at hstep with hmutation hlong
    · rw [if_pos hmutation, if_neg hlong]
      cases hstep
      exact ⟨hoff, rfl⟩
    · rw [if_neg hmutation]
      cases hstep
      exact ⟨hoff, rfl⟩

/-- **The recovery** is the scan, and applies the mutations above the watermark. -/
theorem scan_recovering (w : ℕ) (log : List Record) : ∀ {scan scan' : Scan}, scan.recover = false → scanAof scan log = some scan' →
    scanAof (scan.recovering w) log = some (scan'.recovering w) := by
  induction log with
  | nil =>
    intro scan scan' _ hscan
    cases hscan
    rfl
  | cons record log ih =>
    intro scan scan' hoff hscan
    obtain ⟨next, hnext, hrest⟩ := Option.bind_eq_some_iff.1 hscan
    obtain ⟨hoff', hnext'⟩ := recovering_step w hoff hnext
    exact Option.bind_eq_some_iff.2 ⟨_, hnext', ih hoff' hrest⟩

/-! ## Records and markers -/

theorem argumentEquals_of_find {a : Bytes} {command : ServiceCommand} (h : findCommand a = command) (hknown : command ≠ .unknown) :
    ∃ name, (name, command) ∈ commandNames ∧ argumentEquals a name = true := by
  unfold findCommand at h
  split at h
  · rename_i n hn
    have hequals := List.find?_some hn
    have hmem := List.mem_of_find?_eq_some hn
    exact ⟨n.1, h ▸ hmem, hequals⟩
  · exact absurd h.symm hknown

/-- a mutation is not a marker -/
theorem marker_of_mutation (h : mysqlAofMutation record = true) : parseMysqlMarker record = .none := by
  unfold mysqlAofMutation at h
  rw [decide_eq_true_eq] at h
  obtain ⟨name, hname, hequals⟩ := any_eq_true.1 h.2
  have hping : appArgumentEquals (argument record 0) "PING" = false := by
    unfold appArgumentEquals argumentEquals at hequals ⊢
    rw [decide_eq_true_eq] at hequals
    rw [hequals]
    fin_cases hname <;> decide
  rw [parseMysqlMarker, if_pos (Or.inr hping)]

theorem mutation_of_name {name : Bytes} {rest : List Bytes} (hrest : rest ≠ [])
    (h : ["SET", "DEL", "HSET", "HDEL", "ZADD", "ZREM", "PEXPIREAT", "PERSIST"].any (appArgumentEquals name) = true) :
    mysqlAofMutation (name :: rest) = true := by
  have hlength := length_pos_iff.2 hrest
  unfold mysqlAofMutation
  rw [decide_eq_true_eq]
  exact ⟨by rw [length_cons]; omega, h⟩

/-- the record of a request is a mutation, and the scan can hold it -/
theorem own_mutation {own : Record} (h : OwnRecord arguments own) (hwrite : LogicalWrite arguments)
    (hfew : arguments.length ≤ respMaxArguments) : mysqlAofMutation own = true ∧ own.length ≤ respMaxArguments := by
  cases h with
  | set deadline _ =>
    unfold Service.setRecord
    split_ifs
    · exact ⟨mutation_of_name (by simp) (by decide), by simp [respMaxArguments]⟩
    · exact ⟨mutation_of_name (by simp) (by decide), by simp [respMaxArguments]⟩
  | del _ => exact ⟨mutation_of_name (by simp) (by decide), by simp [delRecord, respMaxArguments]⟩
  | pexpireat deadline _ => exact ⟨mutation_of_name (by simp) (by decide), by simp [Service.pexpireatRecord, respMaxArguments]⟩
  | persist _ => exact ⟨mutation_of_name (by simp) (by decide), by simp [Service.persistRecord, respMaxArguments]⟩
  | original hc =>
    refine ⟨?_, hfew⟩
    have hname : ["SET", "DEL", "HSET", "HDEL", "ZADD", "ZREM", "PEXPIREAT", "PERSIST"].any (appArgumentEquals (argument arguments 0)) =
        true := by
      obtain ⟨name, hmem, hequals⟩ := argumentEquals_of_find rfl hwrite.1
      refine any_eq_true.2 ⟨name, ?_, hequals⟩
      rcases hc with hc | hc | hc | hc <;> rw [hc] at hmem <;> simp [commandNames] at hmem <;> simp [hmem]
    have hcount : 2 ≤ arguments.length := by
      have harity := hwrite.2.1
      rcases hc with hc | hc | hc | hc <;> rw [hc] at harity <;> simp [commandArityValid] at harity <;> omega
    unfold mysqlAofMutation
    rw [decide_eq_true_eq]
    exact ⟨hcount, hname⟩

theorem length_hexText {α : Type} (f g : α → UInt8) (l : List α) : (l.flatMap fun b => [f b, g b]).length = 2 * l.length := by
  induction l with
  | nil => rfl
  | cons b l ih =>
    rw [flatMap_cons, length_append, ih]
    simp only [length_cons, length_nil]
    omega

theorem decodeHexDigit_hexDigit {n : ℕ} (h : n < 16) : decodeHexDigit (Service.hexDigit n) = some n := by
  interval_cases n <;> decide

theorem decodeUuid_hexText (uuid : Bytes) :
    decodeUuid (uuid.flatMap fun b => [Service.hexDigit (b.toNat / 16), Service.hexDigit (b.toNat % 16)]) = some uuid := by
  induction uuid with
  | nil => rfl
  | cons b uuid ih =>
    have hb := b.toNat_lt
    rw [flatMap_cons]
    simp only [cons_append, nil_append, decodeUuid]
    rw [decodeHexDigit_hexDigit (by omega), decodeHexDigit_hexDigit (Nat.mod_lt _ (by decide)), ih]
    simp only [Nat.div_add_mod', Option.some.injEq, List.cons.injEq, and_true]
    exact UInt8.ofNat_toNat

theorem parseDigits_decimalText {n : ℕ} (hn : n ≤ uint64Max) : parseDigits uint64Max (decimalText n) 0 = some n := by
  have hparse := parseUint64Bytes_decimalText hn
  unfold parseUint64Bytes at hparse
  split_ifs at hparse
  exact hparse

/-- **A marker** is read back. -/
theorem parse_markerRecord {uuid : Bytes} (huuid : uuid.length = 16) {sequence : ℕ} (hpos : sequence ≠ 0) (hmax : sequence ≤ uint64Max) :
    parseMysqlMarker (markerRecord uuid sequence) = .found uuid sequence := by
  have hhex := length_hexText (fun b : UInt8 => Service.hexDigit (b.toNat / 16)) (fun b => Service.hexDigit (b.toNat % 16)) uuid
  have hback := decodeUuid_hexText uuid
  have hdigits := parseDigits_decimalText hmax
  have hne : decimalText sequence ≠ [] := digitsLoop_ne_nil 19 sequence []
  unfold parseMysqlMarker markerRecord
  rw [huuid] at hhex
  generalize uuid.flatMap (fun b => [Service.hexDigit (b.toNat / 16), Service.hexDigit (b.toNat % 16)]) = hex at hhex hback ⊢
  generalize decimalText sequence = digits at hdigits hne ⊢
  have hname : (ascii "KVMYSQL1:").length = 9 := by decide
  have hcolon : (ascii ":").length = 1 := by decide
  have hpos' := length_pos_iff.2 hne
  have h41 : (ascii "KVMYSQL1:" ++ hex ++ ascii ":" ++ digits).drop 41 = ascii ":" ++ digits := by
    rw [append_assoc (_ ++ hex), drop_left' (by rw [length_append, hname, hhex])]
  have h42 : (ascii "KVMYSQL1:" ++ hex ++ ascii ":" ++ digits).drop 42 = digits := by
    rw [drop_left' (by rw [length_append, length_append, hname, hhex, hcolon])]
  have h9 : ((ascii "KVMYSQL1:" ++ hex ++ ascii ":" ++ digits).drop 9).take 32 = hex := by
    rw [append_assoc, append_assoc, drop_left' hname, take_left' hhex]
  have hstart : (ascii "KVMYSQL1:" ++ hex ++ ascii ":" ++ digits).take 9 = ascii "KVMYSQL1:" := by
    rw [append_assoc, append_assoc, take_left' hname]
  rw [if_neg (by
    rw [not_or]
    exact ⟨by simp, by show ¬ appArgumentEquals (ascii "PING") "PING" = false; decide⟩)]
  simp only [show ∀ a b : Bytes, argument [a, b] 1 = b from fun _ _ => rfl]
  rw [if_neg ?_, h9, hback, h42, hdigits]
  · simp [hpos]
  · rw [not_or, not_or, hstart, h41]
    refine ⟨?_, by simp, by simp [ascii]⟩
    simp only [length_append, hname, hhex, hcolon]
    omega

/-- the PING of a checkpoint is too short for a marker -/
theorem parse_checkpointRecord {token : Bytes} (h : token.length = Rdb.rdbCheckpointTokenSize) :
    parseMysqlMarker (Aof.State.checkpointRecord token) = .none ∧ mysqlAofMutation (Aof.State.checkpointRecord token) = false := by
  have hlength : (Aof.State.checkpointTokenText token).length = 32 := by
    rw [Aof.State.checkpointTokenText, length_hexText, h]
    rfl
  constructor
  · unfold parseMysqlMarker
    split_ifs with hping
    · rfl
    · have htext : argument (Aof.State.checkpointRecord token) 1 = Aof.State.checkpointTokenText token := rfl
      simp only [htext]
      rw [if_pos (Or.inl (by omega))]
  · unfold mysqlAofMutation
    rw [decide_eq_false_iff_not]
    rintro ⟨_, hname⟩
    revert hname
    show ¬ ["SET", "DEL", "HSET", "HDEL", "ZADD", "ZREM", "PEXPIREAT", "PERSIST"].any (appArgumentEquals (ascii "PING")) = true
    decide

/-! ## The system -/

/-- a record of the log, and whether it stands for an eviction -/
abbrev Entry := Record × Bool

/-- the service, its AOF and the store. `log` are the records that were committed or flushed and `file` their bytes, with what
failed commits have left; `pending` are the records waiting to be flushed. `submitted` and `applied` are history, and `lost` says
that a mutation was logged whose submission failed. -/
structure Outbox where
  service : Service
  log : List Entry
  file : Bytes
  pending : List Record
  queue : List (ℕ × Record)
  submitted : List (ℕ × Record)
  applied : List (ℕ × Record)
  /-- `applied_sequence` of `kv_writer_state` -/
  watermark : ℕ
  lost : Bool

/-- how `apply_mutation` ends; a COMMIT that was carried out can be reported as failed -/
inductive Applying
  | failed
  | unreported
  | done

inductive Event
  | request (clock : ℕ → ℕ) (env : Env) (arguments : Record)
  /-- `drain_mysql_completions` stores a loaded object -/
  | refill (clock : ℕ → ℕ) (env : Env) (key : Bytes) (object : KvObject) (expireAtMs : ℕ)
  | maintain (clock : ℕ → ℕ)
  | flush
  | checkpoint (token : Bytes)
  /-- a turn of the writer thread: whether `mutation_is_applied` got an answer, and how `apply_mutation` ends -/
  | write (known : Bool) (outcome : Applying)

/-- what is asked of an event: requests come in frames, tokens have their size -/
def Event.Framed : Event → Prop
  | .request _ _ arguments => StoreSystem.Framed arguments
  | .checkpoint token => token.length = Rdb.rdbCheckpointTokenSize
  | _ => True

/-- what is captured of a request stands last, and a commit that fails leaves nothing behind -/
def Event.Whole : Event → Prop
  | .request _ env _ => Service.CapturesLast env ∧ (env.aofCommit = true ∨ env.aofCut = 0)
  | _ => True

/-- whether a request can submit its mutation -/
def Event.submits : Event → Option Bool
  | .request _ env _ => some env.mysqlSubmits
  | _ => none

/-- the records of a transaction; the first ones stand for the evictions -/
def tagged (evictions : ℕ) (records : List Record) : List Entry :=
  (records.take evictions).map (·, true) ++ (records.drop evictions).map (·, false)

namespace Outbox

variable {hash : Hasher} {libc : Libc} {o : Outbox} {scan scan' scan'' : Scan} {uuid : Bytes}

/-- the AOF when all is flushed -/
def complete (o : Outbox) : List Entry := o.log ++ o.pending.map (·, true)

/-- the file when all is flushed -/
def completeFile (o : Outbox) : Bytes := o.file ++ Aof.encodeLog o.pending

/-- the writer thread takes the first job; a job that fails stays with it -/
def writerTurn (o : Outbox) (known : Bool) (outcome : Applying) : Outbox :=
  match o.queue with
  | [] => o
  | job :: queue =>
    if known ∧ job.1 ≤ o.watermark then { o with queue := queue }
    else
      match outcome with
      | .failed => o
      | .unreported => { o with applied := o.applied ++ [job], watermark := max o.watermark job.1 }
      | .done => { o with queue := queue, applied := o.applied ++ [job], watermark := max o.watermark job.1 }

/-- what the execution `r` of a request by `s` leaves -/
def executed (o : Outbox) (env : Env) (s : Service) (r : Service.Response) : Outbox :=
  { o with
    service := r.service
    log := o.log ++ tagged (s.evictionRecords env.evictionAppend r.service.cache).length r.records
    file := o.file ++ Aof.encodeLog r.records ++ (Aof.encodeLog r.unfinished).take env.aofCut
    queue := o.queue ++ r.submitted.toList
    submitted := o.submitted ++ r.submitted.toList
    lost := o.lost || (r.submitted.isNone && decide (r.service.mysql ≠ s.mysql)) }

def step (hash : Hasher) (libc : Libc) (o : Outbox) : Event → Outbox
  | .request clock env arguments =>
    let s := o.service.setClock clock
    o.executed env s (s.executeWithBarrier hash libc env arguments)
  | .refill clock env key object expireAtMs =>
    let s := o.service.setClock clock
    let r := s.cache.cacheStoreObject hash env.cache key object expireAtMs false
    { o with service := s.withCache r.1, pending := o.pending ++ s.evictionRecords env.evictionAppend r.1 }
  | .maintain clock => { o with service := (o.service.setClock clock).maintain }
  | .flush => { o with log := o.complete, file := o.completeFile, pending := [] }
  | .checkpoint token =>
    { o with
      log := o.log ++ [(Aof.State.checkpointRecord token, false)]
      file := o.file ++ Aof.encodeLog [Aof.State.checkpointRecord token] }
  | .write known outcome => o.writerTurn known outcome

def run (hash : Hasher) (libc : Libc) (o : Outbox) (events : List Event) : Outbox := events.foldl (step hash libc) o

/-! ## What is logged -/

/-- no record of an eviction stands before a marker -/
def Apart (e e' : Entry) : Prop := e.2 = true → parseMysqlMarker e'.1 = .none

/-- what a run keeps: the scan of the log gives `scan`, and the sequences go on behind it -/
structure Logs (hash : Hasher) (uuid : Bytes) (o : Outbox) (scan : Scan) : Prop where
  core : Cache.Core hash o.service.cache
  within : o.service.cache.Within
  scanned : scanAof Scan.start (o.log.map Prod.fst) = some scan
  stored : o.file = Aof.encodeLog (o.log.map Prod.fst)
  apart : o.log.IsChain Apart
  waiting : ∀ record ∈ o.pending, ∃ key, record = delRecord key
  sized : uuid.length = 16
  link : ∃ next, o.service.mysql = some ⟨uuid, next⟩ ∧ next < 2 ^ 64 ∧ scan.maximumSequence ≤ next ∧ o.watermark ≤ next ∧
    ∀ job ∈ o.queue, job.1 ≤ next
  same : ∀ u, scan.writerUuid = some u → u = uuid
  off : scan.recover = false

/-- more of the log: it can be scanned, and its first record is no marker -/
structure Block (scan : Scan) (entries : List Entry) (scan' : Scan) : Prop where
  scanned : scanAof scan (entries.map Prod.fst) = some scan'
  apart : entries.IsChain Apart
  first : ∀ e ∈ entries.head?, parseMysqlMarker e.1 = .none

theorem Logs.extend (h : Logs hash uuid o scan) {entries : List Entry} (hb : Block scan entries scan') :
    scanAof Scan.start ((o.log ++ entries).map Prod.fst) = some scan' ∧ (o.log ++ entries).IsChain Apart ∧
      o.file ++ Aof.encodeLog (entries.map Prod.fst) = Aof.encodeLog ((o.log ++ entries).map Prod.fst) := by
  refine ⟨?_, ?_, ?_⟩
  · rw [map_append, scanAof_append, h.scanned]
    exact hb.scanned
  · refine isChain_append.2 ⟨h.apart, hb.apart, ?_⟩
    intro e _ e' he' _
    exact hb.first e' he'
  · rw [h.stored, map_append, Aof.encodeLog_append]

theorem Block.append {entries entries' : List Entry} (h : Block scan entries scan') (h' : Block scan' entries' scan'') :
    Block scan (entries ++ entries') scan'' := by
  refine ⟨?_, ?_, ?_⟩
  · rw [map_append, scanAof_append, h.scanned]
    exact h'.scanned
  · exact isChain_append.2 ⟨h.apart, h'.apart, fun e _ e' he' _ => h'.first e' he'⟩
  · cases entries with
    | nil => exact h'.first
    | cons e entries => exact h.first

theorem scan_mutation (h : mysqlAofMutation record = true) (hfew : record.length ≤ respMaxArguments) (scan : Scan) :
    scanMysqlAof scan record = some { scan with previous := some record } := by
  unfold scanMysqlAof
  rw [marker_of_mutation h]
  simp only [h, if_true]
  rw [if_neg (by omega)]

theorem del_mutation (key : Bytes) : mysqlAofMutation (delRecord key) = true := mutation_of_name (by simp) (by decide)

/-- deletions for evictions -/
theorem block_evictions (keys : List Bytes) (scan : Scan) :
    ∃ previous, Block scan (keys.map fun key => (delRecord key, true)) { scan with previous := previous } := by
  have hmarker : ∀ e ∈ keys.map fun key => (delRecord key, true), parseMysqlMarker e.1 = .none := by
    intro e he
    obtain ⟨key, _, rfl⟩ := mem_map.1 he
    exact marker_of_mutation (del_mutation key)
  have hscan : ∃ previous, scanAof scan (keys.map delRecord) = some { scan with previous := previous } := by
    induction keys generalizing scan with
    | nil => exact ⟨scan.previous, rfl⟩
    | cons key keys ih =>
      obtain ⟨previous, hrest⟩ := ih { scan with previous := some (delRecord key) } fun e he => hmarker e (mem_cons_of_mem _ he)
      refine ⟨previous, ?_⟩
      rw [map_cons, scanAof, foldlM_cons, scan_mutation (del_mutation key) (by simp [delRecord, respMaxArguments])]
      exact hrest
  obtain ⟨previous, hscan⟩ := hscan
  refine ⟨previous, ?_, ?_, fun e he => hmarker e (List.mem_of_mem_head? he)⟩
  · rwa [map_map]
  · apply List.Pairwise.isChain
    apply pairwise_of_forall_mem_list
    intro e _ e' he' _
    exact hmarker e' he'

/-- the scan behind a marker -/
def found (scan : Scan) (uuid : Bytes) (p : ℕ × Record) : Scan :=
  { scan with previous := none, writerUuid := some uuid, maximumSequence := p.1, pairs := scan.pairs ++ [p] }

theorem tagged_deletions (gone : List Bytes) (rest : List Record) :
    tagged (gone.map delRecord).length (gone.map delRecord ++ rest) =
      gone.map (fun key => (delRecord key, true)) ++ rest.map (·, false) := by
  rw [tagged, take_left, drop_left, map_map]
  rfl

/-- a transaction without a marker -/
theorem block_plain (gone : List Bytes) {own : Option Record}
    (hown : ∀ record ∈ own, mysqlAofMutation record = true ∧ record.length ≤ respMaxArguments) (scan : Scan) :
    ∃ previous, Block scan (tagged (gone.map delRecord).length (gone.map delRecord ++ own.toList)) { scan with previous := previous } := by
  obtain ⟨previous, hblock⟩ := block_evictions gone scan
  rw [tagged_deletions]
  cases own with
  | none =>
    refine ⟨previous, ?_⟩
    rw [Option.toList_none, map_nil, append_nil]
    exact hblock
  | some record =>
    obtain ⟨hmutation, hfew⟩ := hown record rfl
    refine ⟨some record, hblock.append ⟨?_, isChain_singleton _, ?_⟩⟩
    · rw [Option.toList_some, map_singleton, map_singleton, scanAof, foldlM_cons, scan_mutation hmutation hfew]
      rfl
    · intro e he
      cases he
      exact marker_of_mutation hmutation

/-- **A transaction** of a request: the record before the marker is found with its sequence. -/
theorem block_transaction (gone : List Bytes) {own : Record} (hown : mysqlAofMutation own = true) (hfew : own.length ≤ respMaxArguments)
    (hoff : scan.recover = false) (huuid : uuid.length = 16) (hsame : ∀ u, scan.writerUuid = some u → u = uuid) {sequence : ℕ}
    (hnext : scan.maximumSequence < sequence) (hmax : sequence < 2 ^ 64) :
    Block scan (tagged (gone.map delRecord).length (gone.map delRecord ++ [own, markerRecord uuid sequence]))
      (found scan uuid (sequence, own)) := by
  obtain ⟨previous, hblock⟩ := block_evictions gone scan
  rw [tagged_deletions]
  refine hblock.append ⟨?_, ?_, ?_⟩
  · have hread : parseMysqlMarker (markerRecord uuid sequence) = .found uuid sequence :=
      parse_markerRecord huuid (by omega) (by unfold uint64Max; omega)
    have hother : scan.writerUuid.any (· ≠ uuid) = false := by
      cases hw : scan.writerUuid with
      | none => rfl
      | some u => simp [hsame u hw]
    simp only [map_cons, map_nil, scanAof, foldlM_cons, foldlM_nil]
    rw [scan_mutation hown hfew]
    simp only [Option.bind_eq_bind, Option.bind_some, scanMysqlAof, hread, hother, hoff, Bool.false_eq_true, false_or,
      if_neg (not_le.2 hnext), Bool.false_and, if_false, found]
    rfl
  · exact isChain_pair.2 fun h => absurd h (by simp)
  · intro e he
    cases he
    exact marker_of_mutation hown

/-- what an event does: nothing that the scan finds, a mutation that is logged, or a turn of the writer -/
inductive Moves (event : Event) (o o' : Outbox) (scan scan' : Scan) : Prop
  | still (pairs : scan'.pairs = scan.pairs) (queue : o'.queue = o.queue) (submitted : o'.submitted = o.submitted)
    (lost : o'.lost = o.lost) (applied : o'.applied = o.applied) (watermark : o'.watermark = o.watermark)
  | logged (submits : Bool) (hs : event.submits = some submits) (p : ℕ × Record) (pairs : scan'.pairs = scan.pairs ++ [p])
    (later : o.watermark < p.1) (queue : o'.queue = o.queue ++ if submits then [p] else [])
    (submitted : o'.submitted = o.submitted ++ if submits then [p] else []) (lost : o'.lost = (o.lost || !submits))
    (applied : o'.applied = o.applied) (watermark : o'.watermark = o.watermark)
  | wrote (known : Bool) (outcome : Applying) (pairs : scan'.pairs = scan.pairs) (turn : o' = o.writerTurn known outcome)

theorem setClock_core (hcore : Cache.Core hash o.service.cache) (hwithin : o.service.cache.Within) (clock : ℕ → ℕ) :
    Cache.Core hash (o.service.setClock clock).cache ∧ (o.service.setClock clock).cache.Within :=
  ⟨{ hcore with }, ⟨hwithin.keys, hwithin.memory⟩⟩

theorem map_tagged (n : ℕ) (records : List Record) : (tagged n records).map Prod.fst = records := by
  rw [tagged, map_append, map_map, map_map]
  exact (congrArg₂ _ (map_id _) (map_id _)).trans (take_append_drop _ _)

/-- a response whose records are a block of the log -/
theorem Logs.executed (h : Logs hash uuid o scan) {env : Env} {s : Service} {r : Service.Response}
    (ha : Cache.Advances hash s.cache r.service.cache) (hleft : (Aof.encodeLog r.unfinished).take env.aofCut = [])
    (hblock : Block scan (tagged (s.evictionRecords env.evictionAppend r.service.cache).length r.records) scan') {next : ℕ}
    (hlink : r.service.mysql = some ⟨uuid, next⟩) (hnext : next < 2 ^ 64) (hscan : scan'.maximumSequence ≤ next)
    (hwater : o.watermark ≤ next) (hjobs : ∀ job ∈ o.queue ++ r.submitted.toList, job.1 ≤ next)
    (hsame : ∀ u, scan'.writerUuid = some u → u = uuid) (hoff : scan'.recover = false) :
    Logs hash uuid (o.executed env s r) scan' := by
  obtain ⟨hscanned, hapart, hstored⟩ := h.extend hblock
  rw [map_tagged] at hstored
  refine ⟨ha.core, ha.within, hscanned, ?_, hapart, h.waiting, h.sized, ⟨next, hlink, hnext, hscan, hwater, hjobs⟩, hsame, hoff⟩
  rw [Outbox.executed, hleft, append_nil]
  exact hstored

/-- a response without a marker -/
theorem Logs.unmarked (h : Logs hash uuid o scan) {event : Event} {env : Env} {s : Service} {r : Service.Response}
    (hs : s.mysql = o.service.mysql) (ha : Cache.Advances hash s.cache r.service.cache)
    (hleft : (Aof.encodeLog r.unfinished).take env.aofCut = []) (hsubmitted : r.submitted = none) (hlink : r.service.mysql = s.mysql)
    (hblock : ∃ previous, Block scan (tagged (s.evictionRecords env.evictionAppend r.service.cache).length r.records)
      { scan with previous := previous }) :
    ∃ scan', Logs hash uuid (o.executed env s r) scan' ∧ Moves event o (o.executed env s r) scan scan' := by
  obtain ⟨next, hmysql, hnext, hbound, hwater, hjobs⟩ := h.link
  obtain ⟨previous, hblock⟩ := hblock
  refine ⟨_, h.executed ha hleft hblock ((hlink.trans hs).trans hmysql) hnext hbound hwater ?_ h.same h.off, .still rfl ?_ ?_ ?_ rfl rfl⟩
  · simpa [hsubmitted] using hjobs
  · simp [Outbox.executed, hsubmitted]
  · simp [Outbox.executed, hsubmitted]
  · simp [Outbox.executed, hlink]

/-- **A request.** -/
theorem Logs.request (h : Logs hash uuid o scan) (clock : ℕ → ℕ) (env : Env) (hframed : Framed arguments)
    (hwhole : (Event.request clock env arguments).Whole) :
    ∃ scan', Logs hash uuid (o.step hash libc (.request clock env arguments)) scan' ∧
      Moves (.request clock env arguments) o (o.step hash libc (.request clock env arguments)) scan scan' := by
  obtain ⟨hcore, hwithin⟩ := setClock_core h.core h.within clock
  obtain ⟨next, hmysql, hnext, hbound, hwater, hjobs⟩ := h.link
  have hs : (o.service.setClock clock).mysql = o.service.mysql := rfl
  obtain ⟨ha, hrest, hcommits⟩ := Service.executeWithBarrier_commits libc hwhole.1 hcore hwithin arguments rfl
  simp only [step]
  generalize (o.service.setClock clock).executeWithBarrier hash libc env arguments = r at ha hrest hcommits ⊢
  generalize o.service.setClock clock = s at ha hcommits hs ⊢
  have hleft : (Aof.encodeLog r.unfinished).take env.aofCut = [] := by
    rcases hwhole.2 with hok | hcut
    · rw [hrest hok]
      exact take_nil
    · rw [hcut, take_zero]
  obtain ⟨gone, hgone⟩ := Service.evictionRecords_deletions env.evictionAppend s r.service.cache
  have hrecord : ∀ {record}, OwnRecord arguments record ∧ LogicalWrite arguments →
      mysqlAofMutation record = true ∧ record.length ≤ respMaxArguments := fun hown => own_mutation hown.1 hown.2 hframed.few
  cases hcommits with
  | nothing hrecords hsubmitted hlink =>
    refine h.unmarked hs ha hleft hsubmitted hlink ⟨scan.previous, ?_⟩
    rw [hrecords, tagged, take_nil, drop_nil]
    exact ⟨rfl, List.IsChain.nil, fun _ he => nomatch he⟩
  | plain own hown hrecords hsubmitted hlink =>
    refine h.unmarked hs ha hleft hsubmitted hlink ?_
    rw [hrecords, hgone]
    exact block_plain gone (fun record hr => hrecord (hown record hr)) scan
  | marked link own hown write on positive hrecords hsubmitted hlink =>
    cases (hs.trans hmysql).symm.trans on
    have hsequence : (next + 1) % 2 ^ 64 = next + 1 := by
      have : next + 1 ≠ 2 ^ 64 := fun hc => positive (by rw [hc, Nat.mod_self])
      exact Nat.mod_eq_of_lt (by omega)
    simp only [hsequence] at hrecords hsubmitted hlink positive
    have hmax : next + 1 < 2 ^ 64 := by
      have := Nat.mod_lt (next + 1) (show 0 < 2 ^ 64 by decide)
      omega
    obtain ⟨hmutation, hfew⟩ := hrecord ⟨hown, write⟩
    have hblock := @block_transaction scan uuid gone own hmutation hfew h.off h.sized h.same (next + 1) (by omega) hmax
    rw [← hgone, ← hrecords] at hblock
    have hqueued : r.submitted.toList = if env.mysqlSubmits then [(next + 1, own)] else [] := by
      rw [hsubmitted]
      split_ifs <;> rfl
    refine ⟨_, h.executed ha hleft hblock hlink hmax le_rfl (by omega) ?_ (fun u hu => (Option.some.inj hu).symm) h.off,
      .logged env.mysqlSubmits rfl (next + 1, own) rfl (by simp only; omega) (by rw [← hqueued]; rfl) (by rw [← hqueued]; rfl) ?_
        rfl rfl⟩
    · intro job hjob
      rcases mem_append.1 hjob with hold | hnew
      · exact (hjobs job hold).trans (Nat.le_succ _)
      · rw [hqueued] at hnew
        split_ifs at hnew
        · rw [mem_singleton.1 hnew]
        · exact absurd hnew not_mem_nil
    · cases hsub : env.mysqlSubmits <;> simp [Outbox.executed, hsubmitted, hsub, hlink, hs, hmysql]

/-- **A turn of the writer** leaves the log alone. -/
theorem Logs.writerTurn (h : Logs hash uuid o scan) (known : Bool) (outcome : Applying) :
    Logs hash uuid (o.writerTurn known outcome) scan ∧ (o.writerTurn known outcome).submitted = o.submitted := by
  obtain ⟨next, hmysql, hnext, hbound, hwater, hjobs⟩ := h.link
  unfold Outbox.writerTurn
  split
  · exact ⟨h, rfl⟩
  · rename_i job queue hqueue
    have hparts := hjobs
    rw [hqueue, forall_mem_cons] at hparts
    split
    · exact ⟨{ h with link := ⟨next, hmysql, hnext, hbound, hwater, hparts.2⟩ }, rfl⟩
    · cases outcome with
      | failed => exact ⟨h, rfl⟩
      | unreported => exact ⟨{ h with link := ⟨next, hmysql, hnext, hbound, max_le hwater hparts.1, hjobs⟩ }, rfl⟩
      | done => exact ⟨{ h with link := ⟨next, hmysql, hnext, hbound, max_le hwater hparts.1, hparts.2⟩ }, rfl⟩

theorem map_pending (records : List Record) : (records.map fun record => ((record, true) : Entry)).map Prod.fst = records := by
  rw [map_map]
  exact map_id _

/-- the pending deletions can be flushed -/
theorem Logs.flushed (h : Logs hash uuid o scan) : ∃ previous, Block scan (o.pending.map (·, true)) { scan with previous := previous } := by
  have hpending : o.pending ∈ Set.range (List.map delRecord) := by
    rw [Set.range_list_map]
    intro record hrecord
    obtain ⟨key, hkey⟩ := h.waiting record hrecord
    exact ⟨key, hkey.symm⟩
  obtain ⟨keys, hkeys⟩ := hpending
  rw [← hkeys, map_map]
  exact block_evictions keys scan

/-- **An event** keeps the log scannable. -/
theorem Logs.step (h : Logs hash uuid o scan) {event : Event} (hframed : event.Framed) (hwhole : event.Whole) :
    ∃ scan', Logs hash uuid (o.step hash libc event) scan' ∧ Moves event o (o.step hash libc event) scan scan' := by
  cases event with
  | request clock env arguments => exact h.request clock env hframed hwhole
  | refill clock env key object expireAtMs =>
    obtain ⟨hcore, hwithin⟩ := setClock_core h.core h.within clock
    obtain ⟨_, gone, _, heffect⟩ := Cache.cacheStoreObject_effect hcore hwithin env.cache key object expireAtMs false
    refine ⟨scan, { h with core := heffect.advances.core, within := heffect.advances.within, waiting := ?_ },
      .still rfl rfl rfl rfl rfl rfl⟩
    intro record hrecord
    rcases mem_append.1 hrecord with hold | hnew
    · exact h.waiting record hold
    · obtain ⟨keys, hkeys⟩ := Service.evictionRecords_deletions env.evictionAppend (o.service.setClock clock) _
      rw [hkeys] at hnew
      obtain ⟨k, _, hk⟩ := mem_map.1 hnew
      exact ⟨k, hk.symm⟩
  | maintain clock =>
    obtain ⟨hcore, hwithin⟩ := setClock_core h.core h.within clock
    obtain ⟨_, heffect, _⟩ := Cache.cacheMaintain_effect hcore hwithin 64 16
    exact ⟨scan, { h with core := heffect.advances.core, within := heffect.advances.within }, .still rfl rfl rfl rfl rfl rfl⟩
  | flush =>
    obtain ⟨previous, hblock⟩ := h.flushed
    obtain ⟨hscanned, hapart, hstored⟩ := h.extend hblock
    rw [map_pending] at hstored
    exact ⟨{ scan with previous := previous },
      { h with scanned := hscanned, stored := hstored, apart := hapart, waiting := fun _ hr => absurd hr not_mem_nil },
      .still rfl rfl rfl rfl rfl rfl⟩
  | checkpoint token =>
    obtain ⟨hmarker, hmutation⟩ := parse_checkpointRecord hframed
    have hblock : Block scan [(Aof.State.checkpointRecord token, false)] { scan with previous := none } := by
      refine ⟨?_, isChain_singleton _, ?_⟩
      · simp only [map_cons, map_nil, scanAof, foldlM_cons, foldlM_nil, scanMysqlAof, hmarker, hmutation]
        rfl
      · intro e he
        cases he
        exact hmarker
    obtain ⟨hscanned, hapart, hstored⟩ := h.extend hblock
    exact ⟨{ scan with previous := none }, { h with scanned := hscanned, stored := hstored, apart := hapart },
      .still rfl rfl rfl rfl rfl rfl⟩
  | write known outcome => exact ⟨scan, (h.writerTurn known outcome).1, .wrote known outcome rfl rfl⟩

/-! ## What the scan finds -/

/-- the state that a start leaves: nothing is queued, and all that the log holds is applied -/
structure Attached (hash : Hasher) (uuid : Bytes) (o : Outbox) (scan : Scan) : Prop extends Logs hash uuid o scan where
  queue : o.queue = []
  submitted : o.submitted = []
  lost : o.lost = false
  applied : o.applied = scan.pairs

theorem Logs.ascending (h : Logs hash uuid o scan) : Ascending scan :=
  Ascending.scan _ ⟨List.Pairwise.nil, fun _ hp => absurd hp not_mem_nil⟩ h.scanned

/-- the log with what is pending -/
theorem Logs.complete (h : Logs hash uuid o scan) :
    ∃ previous, scanAof Scan.start (o.complete.map Prod.fst) = some { scan with previous := previous } ∧ o.complete.IsChain Apart ∧
      o.completeFile = Aof.encodeLog (o.complete.map Prod.fst) := by
  obtain ⟨previous, hblock⟩ := h.flushed
  have hextend := h.extend hblock
  rw [map_pending] at hextend
  exact ⟨previous, hextend⟩

/-- `scan_mysql_aof` as the callback of `aof_replay` -/
def scanCallback (scan : Scan) (arguments : Record) : Scan × Bool :=
  ((scanMysqlAof scan arguments).getD scan, (scanMysqlAof scan arguments).isSome)

theorem feed_scanCallback (log : List Record) : ∀ {scan scan' : Scan}, scanAof scan log = some scan' →
    Aof.feed scanCallback scan log = (scan', true) := by
  induction log with
  | nil =>
    intro scan scan' h
    cases h
    rfl
  | cons record log ih =>
    intro scan scan' h
    obtain ⟨next, hnext, hrest⟩ := Option.bind_eq_some_iff.1 h
    rw [Aof.feed, scanCallback, hnext]
    exact ih hrest

/-- `aof_replay` of the complete file with `scan_mysql_aof` succeeds, and leaves `scan'` -/
def Reads (o : Outbox) (scan scan' : Scan) : Prop :=
  (Aof.aofReplayFrom o.completeFile 0 scanCallback scan).ok = true ∧
    (Aof.aofReplayFrom o.completeFile 0 scanCallback scan).context = scan'

/-- **The file is read as the log is**, when its records have sizes that `aof_append` takes. -/
theorem reads_of_scan (hfile : o.completeFile = Aof.encodeLog (o.complete.map Prod.fst)) (hfits : ∀ e ∈ o.complete, Aof.Fits e.1)
    (hscan : scanAof scan (o.complete.map Prod.fst) = some scan') : o.Reads scan scan' := by
  have hvalid : ∀ record ∈ o.complete.map Prod.fst, Aof.Fits record := by
    intro record hrecord
    obtain ⟨e, he, rfl⟩ := mem_map.1 hrecord
    exact hfits e he
  obtain ⟨hcontext, hok⟩ := @Aof.aofReplayFrom_fed _ scanCallback [] _ _ scan hvalid le_rfl _ rfl
  rw [nil_append, length_nil, Nat.zero_add, take_length, Aof.recordsWithin_all _ le_rfl, feed_scanCallback _ hscan,
    ← hfile] at hcontext hok
  exact ⟨hok, hcontext⟩

variable (events : List Event)

/-- submissions that all succeed -/
theorem Logs.submits {before : List (ℕ × Record)} : ∀ {o : Outbox} {scan : Scan}, Logs hash uuid o scan →
    scan.pairs = before ++ o.submitted → (∀ e ∈ events, e.Framed ∧ e.Whole ∧ e.submits ≠ some false) →
    ∃ scan', Logs hash uuid (o.run hash libc events) scan' ∧
      scan'.pairs = before ++ (o.run hash libc events).submitted := by
  induction events with
  | nil => exact fun h hpairs _ => ⟨_, h, hpairs⟩
  | cons event events ih =>
    intro o scan h hpairs hall
    obtain ⟨hframed, hwhole, hsubmits⟩ := hall event mem_cons_self
    obtain ⟨scan', hlogs, hmoves⟩ := @Logs.step hash libc o scan uuid h event hframed hwhole
    refine ih hlogs ?_ fun e he => hall e (mem_cons_of_mem _ he)
    cases hmoves with
    | still pairs _ submitted _ _ _ => rw [pairs, submitted, hpairs]
    | logged submits hs p pairs _ _ submitted _ _ _ =>
      cases submits with
      | false => exact absurd hs hsubmits
      | true => rw [pairs, submitted, hpairs, append_assoc]; rfl
    | wrote known outcome pairs turn => rw [pairs, turn, (h.writerTurn known outcome).2, hpairs]

/-- **The scan finds what was submitted.** From a start with MySQL on, whatever the clients, the refills, the limits and the clock
do, as long as what is captured is the last record, no commit leaves a part of its transaction and every submission succeeds: the
scan of the complete AOF succeeds and finds the mutations that were submitted, in their order, behind those that were there; their
sequences ascend, the UUID is the service's, and no record that was logged for an eviction stands before a marker. -/
theorem scan_finds_submitted (hash : Hasher) (libc : Libc) {o : Outbox} {scan : Scan} {uuid : Bytes}
    (h : Attached hash uuid o scan) (events : List Event)
    (hall : ∀ e ∈ events, e.Framed ∧ e.Whole ∧ e.submits ≠ some false) :
    ∃ scan', scanAof Scan.start ((o.run hash libc events).complete.map Prod.fst) = some scan' ∧
      ((∀ e ∈ (o.run hash libc events).complete, Aof.Fits e.1) → (o.run hash libc events).Reads Scan.start scan') ∧
      scan'.pairs = scan.pairs ++ (o.run hash libc events).submitted ∧
      (scan'.pairs.map Prod.fst).Pairwise (· < ·) ∧
      (∀ u, scan'.writerUuid = some u → u = uuid) ∧ (o.run hash libc events).service.mysql.map (·.writerUuid) = some uuid ∧
      ∀ before e e' after, (o.run hash libc events).complete = before ++ e :: e' :: after → e.2 = true →
        parseMysqlMarker e'.1 = .none := by
  obtain ⟨scan', hlogs, hpairs⟩ : ∃ scan', Logs hash uuid (o.run hash libc events) scan' ∧
      scan'.pairs = scan.pairs ++ (o.run hash libc events).submitted :=
    h.toLogs.submits events (by rw [h.submitted, append_nil]) hall
  obtain ⟨previous, hscan, hapart, hfile⟩ := hlogs.complete
  obtain ⟨next, hmysql, _⟩ := hlogs.link
  refine ⟨_, hscan, fun hfits => reads_of_scan hfile hfits hscan, hpairs, hlogs.ascending.sorted, hlogs.same, by rw [hmysql]; rfl, ?_⟩
  intro before e e' after hsplit
  rw [hsplit] at hapart
  exact (isChain_append_cons_cons.1 hapart).2.1

/-! ## The watermark -/

/-- no submission succeeds after one has failed -/
def InOrder (o : Outbox) (event : Event) : Prop := o.lost = true → event.submits ≠ some true

def InOrderRun (hash : Hasher) (libc : Libc) : Outbox → List Event → Prop
  | _, [] => True
  | o, event :: events => o.InOrder event ∧ InOrderRun hash libc (o.step hash libc event) events

instance (o : Outbox) (event : Event) : Decidable (o.InOrder event) :=
  inferInstanceAs (Decidable (o.lost = true → event.submits ≠ some true))

instance decidableInOrderRun (hash : Hasher) (libc : Libc) :
    (o : Outbox) → (events : List Event) → Decidable (InOrderRun hash libc o events)
  | _, [] => isTrue trivial
  | o, event :: events =>
    have := decidableInOrderRun hash libc (o.step hash libc event) events
    inferInstanceAs (Decidable (o.InOrder event ∧ InOrderRun hash libc (o.step hash libc event) events))

/-- the jobs `done` have left the queue and the rest is in it, in the order of the log; what has left is applied, and so is all up
to the watermark -/
structure Covered (o : Outbox) (scan : Scan) (done : List (ℕ × Record)) : Prop where
  initial : done ++ o.queue <+: scan.pairs
  whole : o.lost = false → done ++ o.queue = scan.pairs
  left : ∀ p ∈ done, p ∈ o.applied
  covers : ∀ p ∈ scan.pairs, p.1 ≤ o.watermark → p ∈ o.applied

/-- **A turn of the writer** applies the next mutation of the log, or has applied it before. -/
theorem Covered.writerTurn {done : List (ℕ × Record)} (h : Covered o scan done) (hsorted : (scan.pairs.map Prod.fst).Pairwise (· < ·))
    (known : Bool) (outcome : Applying) : ∃ done, Covered (o.writerTurn known outcome) scan done := by
  unfold Outbox.writerTurn
  split
  · exact ⟨done, h⟩
  rename_i job queue hqueue
  have hinitial := h.initial
  have hwhole := h.whole
  rw [hqueue, append_cons] at hinitial hwhole
  have hjob : job ∈ scan.pairs := hinitial.subset (mem_append_left _ mem_concat_self)
  -- all up to the job is applied once the job is
  have hcovers : ∀ p ∈ scan.pairs, p.1 ≤ max o.watermark job.1 → p ∈ o.applied ++ [job] := by
    intro p hp hle
    rcases le_max_iff.1 hle with hw | hw
    · exact mem_append_left _ (h.covers p hp hw)
    · obtain ⟨rest, hrest⟩ := hinitial
      rw [← hrest, append_assoc] at hp hsorted
      rcases mem_append.1 hp with hold | hlater
      · exact mem_append.2 ((mem_append.1 hold).imp (h.left p) id)
      · rw [map_append, pairwise_append] at hsorted
        have := hsorted.2.2 job.1 (mem_map_of_mem mem_concat_self) p.1 (mem_map_of_mem hlater)
        omega
  split
  · rename_i hskip
    refine ⟨done ++ [job], hinitial, hwhole, fun p hp => ?_, h.covers⟩
    rcases mem_append.1 hp with hold | hnew
    · exact h.left p hold
    · rw [mem_singleton.1 hnew]
      exact h.covers job hjob hskip.2
  · cases outcome with
    | failed => exact ⟨done, h⟩
    | unreported => exact ⟨done, h.initial, h.whole, fun p hp => mem_append_left _ (h.left p hp), hcovers⟩
    | done =>
      refine ⟨done ++ [job], hinitial, hwhole, fun p hp => ?_, hcovers⟩
      exact mem_append.2 ((mem_append.1 hp).imp (h.left p) id)

theorem Covered.step {done : List (ℕ × Record)} (h : Covered o scan done) {event : Event} (horder : o.InOrder event) {o' : Outbox}
    (hm : Moves event o o' scan scan') (hsorted : (scan.pairs.map Prod.fst).Pairwise (· < ·)) : ∃ done, Covered o' scan' done := by
  cases hm with
  | still pairs queue submitted lost applied watermark =>
    refine ⟨done, ?_, ?_, ?_, ?_⟩
    · rw [pairs, queue]
      exact h.initial
    · rw [pairs, queue, lost]
      exact h.whole
    · rw [applied]
      exact h.left
    · rw [pairs, applied, watermark]
      exact h.covers
  | logged submits hs p pairs later queue submitted lost applied watermark =>
    refine ⟨done, ?_, ?_, ?_, ?_⟩
    · rw [pairs, queue, ← append_assoc]
      cases submits with
      | false =>
        rw [if_neg Bool.false_ne_true, append_nil]
        exact h.initial.trans (prefix_append _ _)
      | true =>
        -- nothing was lost so far, so the queue ends where the log ends
        have hkept : o.lost = false := by
          cases hlost : o.lost with
          | false => rfl
          | true => exact absurd hs (horder hlost)
        rw [h.whole hkept]
        exact prefix_rfl
    · intro hkept
      rw [lost, Bool.or_eq_false_iff] at hkept
      rw [pairs, queue, ← append_assoc, h.whole hkept.1]
      cases submits with
      | false => exact absurd hkept.2 (by simp)
      | true => rfl
    · rw [applied]
      exact h.left
    · intro q hq hle
      rw [pairs] at hq
      rw [watermark] at hle
      rw [applied]
      rcases mem_append.1 hq with hold | hnew
      · exact h.covers q hold hle
      · rw [mem_singleton.1 hnew] at hle
        omega
  | wrote known outcome pairs turn =>
    obtain ⟨done, hturn⟩ := h.writerTurn hsorted known outcome
    rw [turn]
    exact ⟨done, pairs ▸ hturn.initial, pairs ▸ hturn.whole, hturn.left, pairs ▸ hturn.covers⟩

theorem Covered.run : ∀ {o : Outbox} {scan : Scan} {done : List (ℕ × Record)}, Logs hash uuid o scan →
    Covered o scan done → (∀ e ∈ events, e.Framed ∧ e.Whole) → o.InOrderRun hash libc events →
    ∃ scan' done, Logs hash uuid (o.run hash libc events) scan' ∧ Covered (o.run hash libc events) scan' done := by
  induction events with
  | nil => exact fun h hc _ _ => ⟨_, _, h, hc⟩
  | cons event events ih =>
    intro o scan done h hc hall horder
    obtain ⟨hframed, hwhole⟩ := hall event mem_cons_self
    obtain ⟨scan', hlogs, hmoves⟩ := @Logs.step hash libc o scan uuid h event hframed hwhole
    obtain ⟨done', hnext⟩ := hc.step horder.1 hmoves h.ascending.sorted
    exact ih hlogs hnext (fun e he => hall e (mem_cons_of_mem _ he)) horder.2

/-- **The watermark covers what is applied.** From a start with MySQL on, in every run in which what is captured is the last record,
no commit leaves a part of its transaction, and no submission succeeds after one has failed: every mutation that the log holds with
a sequence up to the watermark is applied, and the recovery of the next start, which applies the sequences above the watermark,
leaves none out. -/
theorem watermark_covers (hash : Hasher) (libc : Libc) {o : Outbox} {scan : Scan} {uuid : Bytes}
    (h : Attached hash uuid o scan) (events : List Event)
    (hall : ∀ e ∈ events, e.Framed ∧ e.Whole) (horder : o.InOrderRun hash libc events) :
    ∃ scan', scanAof Scan.start ((o.run hash libc events).complete.map Prod.fst) = some scan' ∧
      (∀ p ∈ scan'.pairs, p.1 ≤ (o.run hash libc events).watermark → p ∈ (o.run hash libc events).applied) ∧
      ∃ recovery, scanAof (Scan.recovery (o.run hash libc events).watermark) ((o.run hash libc events).complete.map Prod.fst) =
          some recovery ∧
        ((∀ e ∈ (o.run hash libc events).complete, Aof.Fits e.1) →
          (o.run hash libc events).Reads (Scan.recovery (o.run hash libc events).watermark) recovery) ∧
        ∀ p ∈ scan'.pairs, p ∈ (o.run hash libc events).applied ∨ p ∈ recovery.recovered := by
  have hcovered : Covered o scan scan.pairs :=
    have hwhole : scan.pairs ++ o.queue = scan.pairs := by rw [h.queue, append_nil]
    ⟨by rw [hwhole], fun _ => hwhole, fun p hp => h.applied ▸ hp, fun p hp _ => h.applied ▸ hp⟩
  obtain ⟨scan', done, hlogs, hend⟩ : ∃ scan' done, Logs hash uuid (o.run hash libc events) scan' ∧
      Covered (o.run hash libc events) scan' done := hcovered.run events h.toLogs hall horder
  obtain ⟨previous, hscan, _, hfile⟩ := hlogs.complete
  have hrecovery := scan_recovering (o.run hash libc events).watermark _ rfl hscan
  have hfrom : Scan.start.recovering (o.run hash libc events).watermark = Scan.recovery (o.run hash libc events).watermark := by
    simp [Scan.recovering, Scan.recovery, Scan.start]
  rw [hfrom] at hrecovery
  refine ⟨_, hscan, hend.covers, _, hrecovery, fun hfits => reads_of_scan hfile hfits hrecovery, ?_⟩
  intro p hp
  rcases Nat.lt_or_ge (o.run hash libc events).watermark p.1 with hlt | hle
  · exact Or.inr (mem_filter.2 ⟨hp, decide_eq_true hlt⟩)
  · exact Or.inl (hend.covers p hp hle)

/-! ## Runs from an empty log -/

/-- a new service with room for one key, an AOF and MySQL -/
def fresh : Outbox where
  service := { Service.init 1 0 .rbtree Admin.none (fun _ => 0) with aof := true, mysql := some ⟨List.replicate 16 0, 0⟩ }
  log := []
  file := []
  pending := []
  queue := []
  submitted := []
  applied := []
  watermark := 0
  lost := false

theorem fresh_attached : Attached (fun _ => 0) (List.replicate 16 0) fresh Scan.start where
  core := Cache.core_create (fun _ => 0) 1 0 fun _ => 0
  within := Cache.within_create 1 0 fun _ => 0
  scanned := rfl
  stored := rfl
  apart := List.IsChain.nil
  waiting := fun _ hr => absurd hr not_mem_nil
  sized := rfl
  link := ⟨0, rfl, by decide, le_rfl, le_rfl, fun _ hj => absurd hj not_mem_nil⟩
  same := fun _ hu => nomatch hu
  off := rfl
  queue := rfl
  submitted := rfl
  lost := rfl
  applied := rfl

def setRequest (env : Env) (key value : Bytes) : Event := .request (fun _ => 0) env [ascii "SET", key, value]

def ran : Outbox := fresh.run (fun _ => 0) Libc.silent events

/-- two clients set keys and evict each other's, a refill evicts one more, a checkpoint comes between, and the writer learns late that
its first COMMIT went through -/
def busy : List Event :=
  [setRequest Env.succeeding [97] [49], .write true .unreported,
    .refill (fun _ => 0) Env.succeeding [99] ⟨.string [51] 1, 42⟩ 0, .flush, .checkpoint (List.replicate 16 7),
    setRequest Env.succeeding [98] [50],
    .request (fun _ => 0) Env.succeeding [ascii "hset", [104], [102], [118]], .write true .failed, .write true .failed, .write true .done]

theorem succeeding_whole (h : Framed arguments) :
    (Event.request (fun _ => 0) Env.succeeding arguments).Framed ∧ (Event.request (fun _ => 0) Env.succeeding arguments).Whole ∧
      (Event.request (fun _ => 0) Env.succeeding arguments).submits ≠ some false :=
  ⟨h, ⟨Or.inl ⟨rfl, rfl⟩, Or.inl rfl⟩, by simp [Event.submits, Env.succeeding]⟩

theorem busy_whole : ∀ e ∈ busy, e.Framed ∧ e.Whole ∧ e.submits ≠ some false := by
  intro e he
  fin_cases he <;> first
    | exact succeeding_whole ⟨by simp, by simp [respMaxArguments], by decide⟩
    | exact ⟨trivial, trivial, by simp [Event.submits]⟩
    | exact ⟨rfl, trivial, by simp [Event.submits]⟩

theorem scan_finds_submitted_busy :
    (ran busy).complete.map Prod.snd = [false, false, true, false, true, false, false, true, false, false] ∧
      (ran busy).submitted =
        [(1, [ascii "SET", [97], [49]]), (2, [ascii "SET", [98], [50]]), (3, [ascii "hset", [104], [102], [118]])] ∧
      ∃ scan, (ran busy).Reads Scan.start scan ∧
        scan.pairs = (ran busy).submitted := by
  refine ⟨by decide +kernel, by decide +kernel, ?_⟩
  obtain ⟨scan, _, hreads, hpairs, _⟩ := scan_finds_submitted (fun _ => 0) Libc.silent fresh_attached busy busy_whole
  exact ⟨scan, hreads (by decide +kernel), hpairs⟩

/-- the first two of three mutations are applied, the third is left to the recovery -/
theorem watermark_covers_busy : (ran busy).watermark = 2 ∧
      ∃ scan recovery, scanAof Scan.start ((ran busy).complete.map Prod.fst) = some scan ∧
        (ran busy).Reads (Scan.recovery 2) recovery ∧
        (∀ p ∈ scan.pairs, p.1 ≤ 2 → p ∈ (ran busy).applied) ∧
        ∀ p ∈ scan.pairs, p ∈ (ran busy).applied ∨ p ∈ recovery.recovered := by
  have hwater : (ran busy).watermark = 2 := by decide +kernel
  obtain ⟨scan, hscan, hcovers, recovery, _, hreads, hall⟩ := watermark_covers (fun _ => 0) Libc.silent fresh_attached busy
    (fun e he => ⟨(busy_whole e he).1, (busy_whole e he).2.1⟩) (by decide +kernel)
  rw [← ran, hwater] at hcovers hreads
  exact ⟨hwater, scan, recovery, hscan, hreads (by decide +kernel), hcovers, hall⟩

/-- the first of two SETs is logged and not submitted -/
def lostSubmission : List Event :=
  [setRequest { Env.succeeding with mysqlSubmits := false } [97] [49], setRequest Env.succeeding [98] [50], .write true .done]

/-- **A mutation below the watermark that is not applied**: the log holds it with sequence 1, the watermark is 2, and the recovery
has nothing to apply. -/
theorem watermark_skips : (ran lostSubmission).watermark = 2 ∧ (ran lostSubmission).applied = [(2, [ascii "SET", [98], [50]])] ∧
      (scanAof Scan.start ((ran lostSubmission).complete.map Prod.fst)).map (·.pairs) =
        some [(1, [ascii "SET", [97], [49]]), (2, [ascii "SET", [98], [50]])] ∧
      (scanAof (Scan.recovery 2) ((ran lostSubmission).complete.map Prod.fst)).map (·.recovered) =
        some [] := by
  decide +kernel

/-- the second of two SETs evicts the first key, and its own record cannot be copied -/
def lostCopy : List Event :=
  [setRequest Env.succeeding [97] [49], setRequest { Env.succeeding with ownCopy := false } [98] [50], .write true .done, .write true .done]

/-- **A copy that fails**: the deletion of the evicted key is submitted under the marker of the second SET, which is never applied. -/
theorem copy_skips : (ran lostCopy).watermark = 2 ∧ (ran lostCopy).lost = false ∧
      (ran lostCopy).applied = [(1, [ascii "SET", [97], [49]]), (2, delRecord [97])] ∧
      (scanAof Scan.start ((ran lostCopy).complete.map Prod.fst)).map (·.pairs) =
        some [(1, [ascii "SET", [97], [49]]), (2, [ascii "SET", [98], [50]])] := by
  decide +kernel

/-- a commit fails with ten bytes of its transaction queued, and the next one succeeds -/
def lostCommit : List Event :=
  [setRequest { Env.succeeding with aofCommit := false, aofCut := 10 } [97] [49], setRequest Env.succeeding [98] [50]]

/-- **A commit that is cut** makes the file unreadable behind it: the scan fails, and with it the start. -/
theorem cut_unreadable : (ran lostCommit).submitted = [(1, [ascii "SET", [98], [50]])] ∧
      (Aof.aofReplayFrom (ran lostCommit).completeFile 0 scanCallback Scan.start).ok = false := by
  decide +kernel

end Outbox

end StoreSystem.App
