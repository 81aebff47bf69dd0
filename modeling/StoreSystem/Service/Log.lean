/-
A log as a function on keyspaces. Without deadlines a logged record, read as a request, does to a keyspace what the request it
was logged for did, at any time. So the records of a log have a meaning of their own, `applyRecord`, and a log leads from one
keyspace to another.

- `perform_eq_applyRecord`: a logged request did what its record does.
- `Keeps.logs`: a live request in a service without limits logs at most one record, and shows what the log leads to.
- `Keeps.replays`: a replay of the log shows the same.

Premises: those of `Service.Eviction`, with no limit of keys.
-/
import StoreSystem.Service.Eviction

namespace StoreSystem

open List
open Service (argument delRecord)

section Records

variable {libc : Libc} {t : ℕ} {ks : Keyspace} {arguments record : Record} {request : Request}

/-! ## Records -/

/-- what a record does to a keyspace without deadlines -/
noncomputable def applyRecord (libc : Libc) (ks : Keyspace) (record : Record) : Keyspace := (reference libc 0 ks record).keyspace

/-- the keyspace a log leads to -/
noncomputable def applyLog (libc : Libc) (ks : Keyspace) (log : List Record) : Keyspace := log.foldl (applyRecord libc) ks

theorem applyLog_append (libc : Libc) (ks : Keyspace) (log log' : List Record) :
    applyLog libc ks (log ++ log') = applyLog libc (applyLog libc ks log) log' := foldl_append

/-- a record of a mark is a PING -/
theorem applyRecord_ping (libc : Libc) (ks : Keyspace) (text : Bytes) : applyRecord libc ks [ascii "PING", text] = ks := by
  have hcommand : findCommand (argument [ascii "PING", text] 0) = .ping := by
    show findCommand (ascii "PING") = .ping
    decide
  have hread : readRequest libc 0 [ascii "PING", text] = .ok (.ping (some text)) := by
    simp only [readRequest, hcommand]
  rw [applyRecord, Service.reference_ok _ hread]
  rfl

/-- **A logged request** did what its record does. -/
theorem perform_eq_applyRecord (hks : ks.Timeless) (hread : readRequest libc t arguments = .ok request) (hfree : request.TtlFree)
    (hrecord : (perform libc t ks arguments request).record = some record) :
    (perform libc t ks arguments request).keyspace = applyRecord libc ks record := by
  cases Service.logs_of_record hrecord with
  | set key value d =>
    cases d with
    | some d => exact absurd hfree id
    | none =>
      have hcommand : findCommand (argument (Service.setRecord key value 0) 0) = .set := by
        show findCommand (ascii "SET") = .set
        decide
      have hset : readRequest libc 0 (Service.setRecord key value 0) = .ok (.set key value none) := by
        simp only [readRequest, hcommand]
        rfl
      rw [applyRecord, Option.getD_none, Service.reference_ok _ hset]
      rfl
  | del key =>
    have hcommand : findCommand (argument (delRecord key) 0) = .del := by
      show findCommand (ascii "DEL") = .del
      decide
    have hdel : readRequest libc 0 (delRecord key) = .ok (.del key) := by
      simp only [readRequest, hcommand]
      rfl
    rw [applyRecord, Service.reference_ok _ hdel]
    rfl
  | expireAt key d => exact absurd hfree id
  | persist key =>
    exfalso
    simp only [perform] at hrecord
    cases hk : ks key with
    | none => simp [hk, Outcome.reads] at hrecord
    | some v =>
      obtain ⟨o, d⟩ := v
      obtain rfl := hks key o d hk
      simp [hk, Outcome.reads] at hrecord
  | original hc =>
    obtain ⟨_, hany, _⟩ := (readRequest_reads hread).of_collection hc
    rw [applyRecord, Service.reference_ok _ (hany 0)]
    cases request <;> first | rfl | exact absurd hc id

/-- a record that a service without deadlines can have logged when it showed `ks` -/
inductive Loggable (libc : Libc) (ks : Keyspace) : Record → Prop
  | request {t : ℕ} {arguments : Record} {request : Request} {record : Record} (hframed : Framed arguments)
      (hread : readRequest libc t arguments = .ok request) (hfree : request.TtlFree)
      (hrecord : (perform libc t ks arguments request).record = some record) : Loggable libc ks record
  | ping (text : Bytes) : Loggable libc ks [ascii "PING", text]

/-- a log that starts from `ks` -/
def IsLog (libc : Libc) : Keyspace → List Record → Prop
  | _, [] => True
  | ks, record :: log => Loggable libc ks record ∧ IsLog libc (applyRecord libc ks record) log

theorem isLog_append (log log' : List Record) : ∀ {ks : Keyspace},
    IsLog libc ks (log ++ log') ↔ IsLog libc ks log ∧ IsLog libc (applyLog libc ks log) log' := by
  induction log with
  | nil =>
    intro ks
    exact (and_iff_right trivial).symm
  | cons record log ih =>
    intro ks
    rw [cons_append, IsLog, IsLog, ih, and_assoc]
    rfl

/-! ## Their arguments -/

/-- the arguments of a request that is logged in a form of its own -/
def Request.parts : Request → List Bytes
  | .set key value none => [key, value]
  | .del key | .persist key => [key]
  | _ => []

theorem readExpire_parts {unit : ℕ} {name key text : Bytes} (h : readExpire t unit key text = .ok request)
    (hparts : request.parts ≠ []) : ∃ more, [name, key, text] = name :: (request.parts ++ more) := by
  unfold readExpire at h
  split at h
  · cases h
  · rename_i n _
    split_ifs at h
    · cases h
      exact ⟨[text], rfl⟩
    · cases hd : deadlineAfter t unit n with
      | error e =>
        rw [hd] at h
        cases h
      | ok d =>
        rw [hd] at h
        cases h
        exact absurd rfl hparts

theorem readRange_parts {key start stop : Bytes} {withScores : Bool} (h : readRange key start stop withScores = .ok request) :
    request.parts = [] := by
  unfold readRange at h
  split at h <;> cases h
  rfl

/-- they stand behind its name -/
theorem readRequest_parts (h : readRequest libc t arguments = .ok request) (hparts : request.parts ≠ []) :
    ∃ name more, arguments = name :: (request.parts ++ more) := by
  unfold readRequest at h
  split at h
  case h_3 =>
    rename_i option text _
    cases hr : readSetOption t option text with
    | error e =>
      rw [hr] at h
      cases h
    | ok d =>
      rw [hr] at h
      cases h
      exact absurd rfl hparts
  case h_8 => exact ⟨_, readExpire_parts h hparts⟩
  case h_9 => exact ⟨_, readExpire_parts h hparts⟩
  case h_13 =>
    split_ifs at h
    cases h
    exact absurd rfl hparts
  case h_18 =>
    split_ifs at h
    split at h
    · cases h
    · cases h
      exact absurd rfl hparts
  case h_22 => exact absurd (readRange_parts h) hparts
  case h_23 =>
    split at h
    · cases h
    · rename_i hr
      split_ifs at h
      cases h
      exact absurd (readRange_parts hr) hparts
  all_goals cases h <;> first | exact ⟨_, [], rfl⟩ | exact absurd rfl hparts

/-- **The record of a request** is the request itself, or a name and its first arguments. -/
theorem Logs.parts (h : Logs arguments request record) (hfree : request.TtlFree)
    (hread : readRequest libc t arguments = .ok request) :
    record = arguments ∨ ∃ name word parts more, arguments = name :: (parts ++ more) ∧ record = word :: parts ∧
      parts.length ≤ 2 ∧ word.length ≤ 7 := by
  cases h with
  | set key value d =>
    cases d with
    | some d => exact absurd hfree id
    | none =>
      obtain ⟨name, more, harguments⟩ := readRequest_parts hread (by simp [Request.parts])
      exact Or.inr ⟨name, ascii "SET", [key, value], more, harguments, rfl, le_rfl, by decide⟩
  | del key =>
    obtain ⟨name, more, harguments⟩ := readRequest_parts hread (by simp [Request.parts])
    exact Or.inr ⟨name, ascii "DEL", [key], more, harguments, rfl, Nat.le_succ _, by decide⟩
  | expireAt key d => exact absurd hfree id
  | persist key =>
    obtain ⟨name, more, harguments⟩ := readRequest_parts hread (by simp [Request.parts])
    exact Or.inr ⟨name, ascii "PERSIST", [key], more, harguments, rfl, Nat.le_succ _, by decide⟩
  | original hc => exact Or.inl rfl

end Records

namespace Service

open Cache (Becomes Good)

variable {hash : Hasher} {libc : Libc} {t T : ℕ} {env : Env} {s : Service} {arguments record : Record} {ks : Keyspace}

/-! ## The live service and the replay -/

/-- **A live request** without limits: at most one record, and what the service then shows is what the log leads to. -/
theorem Keeps.logs (h : Keeps hash 0 t s ks) (haof : s.aof = true) (ht : t ≤ uint64Max) (henv : env.Healthy)
    (hframed : Framed arguments) (hfree : ∀ request, readRequest libc t arguments = .ok request → request.TtlFree) {r : Response}
    (hr : s.executeWithBarrier hash libc env arguments = r) (hoom : r.outOfMemory = false) :
    Keeps hash 0 t r.service (applyLog libc ks r.records) ∧ r.service.aof = true ∧ IsLog libc ks r.records ∧
      r.records.length ≤ 1 ∧
      ∀ record ∈ r.records, ∃ request, readRequest libc t arguments = .ok request ∧ Logs arguments request record := by
  obtain ⟨gone, hnext, haof', hrecords, _, hnone⟩ := h.request haof ht henv hframed hfree hr hoom
  rw [hnone rfl, Keyspace.without_nil] at hnext
  rw [hnone rfl, map_nil, nil_append] at hrecords
  have hks := h.keyspace_timeless
  cases hread : readRequest libc t arguments with
  | error e =>
    rw [reference_error hread] at hnext hrecords
    rw [hrecords]
    exact ⟨hnext, haof', trivial, Nat.zero_le _, fun _ hmem => absurd hmem not_mem_nil⟩
  | ok request =>
    rw [reference_ok request hread] at hnext hrecords
    cases hrecord : (perform libc t ks arguments request).record with
    | none =>
      rw [hrecord] at hrecords
      rw [perform_silent hks (hfree request hread) hread hrecord] at hnext
      rw [hrecords]
      exact ⟨hnext, haof', trivial, Nat.zero_le _, fun _ hmem => absurd hmem not_mem_nil⟩
    | some record =>
      rw [hrecord] at hrecords
      rw [perform_eq_applyRecord hks hread (hfree request hread) hrecord] at hnext
      rw [hrecords]
      refine ⟨hnext, haof', ⟨.request hframed hread (hfree request hread) hrecord, trivial⟩, le_rfl, fun logged hmem => ?_⟩
      rw [Option.toList_some, mem_singleton] at hmem
      rw [hmem]
      exact ⟨request, rfl, logs_of_record hrecord⟩

/-- a record of the log, replayed -/
theorem Keeps.replay (h : Keeps hash 0 T s ks) (hT : T ≤ uint64Max) (henv : env.Healthy) (hlog : Loggable libc ks record)
    {r : Replayed} (hr : s.replayAof hash libc env record = r) (hoom : r.outOfMemory = false) :
    Keeps hash 0 T r.service (applyRecord libc ks record) ∧ r.ok = true := by
  cases hlog with
  | request hframed hread hfree hrecord =>
    have hks := h.keyspace_timeless
    have hwithout : Keeps hash 0 T s (Keyspace.without [] ks) := by rwa [Keyspace.without_nil]
    obtain ⟨hnext, hok, _⟩ := hwithout.record hT henv hframed hread hfree hks hrecord not_mem_nil (Or.inl rfl) hr hoom
    rw [Keyspace.without_nil, perform_eq_applyRecord hks hread hfree hrecord] at hnext
    exact ⟨hnext, hok⟩
  | ping text =>
    have hname : argumentEquals (argument [ascii "PING", text] 0) "PING" = true := by
      show argumentEquals (ascii "PING") "PING" = true
      decide
    have hping : s.replayAof hash libc env [ascii "PING", text] = ⟨s, true, false⟩ := by
      simp [replayAof, hname]
    rw [← hr, hping, applyRecord_ping]
    exact ⟨h, rfl⟩

/-- **A replay of the log** shows what the log leads to. -/
theorem Keeps.replays (hT : T ≤ uint64Max) {env : ℕ → Env} (henv : ∀ i, (env i).Healthy) (log : List Record) :
    ∀ {index : ℕ} {s : Service} {ks : Keyspace}, Keeps hash 0 T s ks → IsLog libc ks log →
      (Service.replayLog hash libc env index s log).outOfMemory = false →
      (Service.replayLog hash libc env index s log).ok = true ∧
        Keeps hash 0 T (Service.replayLog hash libc env index s log).service (applyLog libc ks log) := by
  induction log with
  | nil => exact fun h _ _ => ⟨rfl, h⟩
  | cons record log ih =>
    intro index s ks h hlog hoom
    obtain ⟨hfirst, hrest⟩ := hlog
    have hone : (s.replayAof hash libc (env index) record).outOfMemory = false := replayLog_memory hoom
    obtain ⟨hnext, hok⟩ := h.replay hT (henv index) hfirst rfl hone
    rw [replayLog_cons rfl hok hone] at hoom ⊢
    exact ih hnext hrest hoom

end Service

end StoreSystem
