/-
An error reply has no effect, under any limits.

- `reference_error_reads`: in the reference semantics a request with an error reply leaves the keyspace alone and is not
  recorded.
- `executeWithBarrier_cases`: a request that the AOF does not turn away is executed as with an AOF that takes everything.
- `Steady`: what a run under any limits keeps; above all, every entry is charged for what it holds, so that taking items out
  of a collection is never refused.
- `error_changes_nothing`: after every run, an error reply leaves the live keys with their contents and deadlines as they
  were and logs nothing, and a write to a collection without an error is the whole write.

Premises: requests come in client frames, MySQL is off, the AOF may turn requests away but loses no record it has taken, the
clock stands still during a request, and no request runs out of memory. The clock may move in any way between requests.
-/
import StoreSystem.Service.Execution

namespace StoreSystem

open List

/-! ## Errors of the reference -/

variable {arguments : Record} {ks : Keyspace}

variable {libc : Libc} {t : ℕ}

theorem perform_error {request : Request} {reply : Reply}
    (herror : reply.isError = true) (h : (perform libc t ks arguments request).replies reply) :
    (perform libc t ks arguments request).Reads ks := by
  rcases Service.perform_does libc t ks arguments request with hreads | ⟨key, v, record, hputs⟩
  · exact hreads
  · rw [hputs.reply reply h] at herror
    cases herror

/-- **An error of the reference** changes nothing and is not recorded. -/
theorem reference_error_reads {reply : Reply}
    (herror : reply.isError = true) (h : (reference libc t ks arguments).replies reply) :
    (reference libc t ks arguments).Reads ks := by
  unfold reference at h ⊢
  split
  · exact ⟨rfl, rfl⟩
  · rename_i request hread
    simp only [hread] at h
    exact perform_error herror h

/-- a write to a collection is recorded with its own arguments -/
theorem perform_collection_record {request : Request}
    (hc : request.OfCollection) {record : Record} (h : (perform libc t ks arguments request).record = some record) :
    record = arguments := by
  cases Service.logs_of_record h with
  | original => rfl
  | _ => exact absurd hc id

/-! ## An AOF that turns requests away -/

/-- the AOF keeps what it is given -/
structure Env.Keeps (env : Env) : Prop where
  appends : env.aofAppend = true
  evicts : ∀ n, env.evictionAppend n = true
  copies : env.ownCopy = true
  commits : env.aofCommit = true

/-- the same environment with an AOF that turns no request away -/
def Env.relieved (env : Env) : Env := { env with aofFailed := false, aofBegin := true }

theorem Env.Keeps.relieved {env : Env} (h : env.Keeps) : env.relieved.Healthy := ⟨rfl, rfl, h.appends, h.evicts, h.copies, h.commits⟩

namespace Service

open Cache (Becomes Good)

variable {hash : Hasher} {libc : Libc} {t : ℕ} {env : Env} {s s' : Service} {arguments : Record}

theorem parseScores_relieved (libc : Libc) (env : Env) (pairs : List (Bytes × Bytes)) (index : ℕ) :
    parseScores libc env.relieved index pairs = parseScores libc env index pairs := by
  induction pairs generalizing index with
  | nil => rfl
  | cons pair pairs ih =>
    rw [parseScores, parseScores, ih]
    rfl

/-- execution asks the AOF for nothing but to take records -/
theorem dispatch_relieved (env : Env) (s : Service) (command : ServiceCommand) (arguments : Record) :
    s.dispatch hash libc env.relieved command arguments = s.dispatch hash libc env command arguments := by
  cases command with
  | zadd =>
    simp only [dispatch, executeZadd, parseScores_relieved]
    rfl
  | _ => rfl

/-- a write command with a number of arguments it takes -/
abbrev LogicalWrite (arguments : Record) : Prop :=
  findCommand (argument arguments 0) ≠ .unknown ∧
    commandArityValid (findCommand (argument arguments 0)) arguments.length = true ∧
    isWriteCommand (findCommand (argument arguments 0)) = true

theorem executeCommand_relieved (hopen : ¬ (LogicalWrite arguments ∧ s.aof = true ∧ env.aofFailed = true)) :
    s.executeCommand hash libc env.relieved (findCommand (argument arguments 0)) arguments =
      s.executeCommand hash libc env (findCommand (argument arguments 0)) arguments := by
  unfold executeCommand
  by_cases hknown : findCommand (argument arguments 0) = .unknown
  · rw [if_pos hknown, if_pos hknown]
  rw [if_neg hknown, if_neg hknown]
  by_cases harity : commandArityValid (findCommand (argument arguments 0)) arguments.length = true
  · have hfailed : ¬ (isWriteCommand (findCommand (argument arguments 0)) = true ∧ s.aof = true ∧ env.aofFailed = true) :=
      fun hc => hopen ⟨⟨hknown, harity, hc.1⟩, hc.2⟩
    have hrelieved : ¬ (isWriteCommand (findCommand (argument arguments 0)) = true ∧ s.aof = true ∧
        env.relieved.aofFailed = true) := by simp [Env.relieved]
    rw [if_neg (not_not_intro harity), if_neg (not_not_intro harity), if_neg hfailed, if_neg hrelieved, dispatch_relieved]
    rfl
  · rw [if_pos harity, if_pos harity]

/-- **A request is turned away** before it is executed, or it is executed as with an AOF that turns nothing away. -/
theorem executeWithBarrier_cases (henv : env.Keeps) (hmysql : s.mysql = none) (arguments : Record) :
    (∃ e, s.executeWithBarrier hash libc env arguments = s.refuse e) ∨
      s.executeWithBarrier hash libc env arguments = s.executeWithBarrier hash libc env.relieved arguments := by
  unfold executeWithBarrier
  simp only [hmysql, ite_self, Option.isSome_none, Bool.false_eq_true, false_and, if_false, Option.any_none]
  by_cases hbegin : (LogicalWrite arguments ∧ s.aof = true) ∧ ¬ env.aofBegin = true
  · rw [if_pos hbegin]
    exact Or.inl ⟨_, rfl⟩
  have hrelieved : ¬ ((LogicalWrite arguments ∧ s.aof = true) ∧ ¬ env.relieved.aofBegin = true) := fun hc => hc.2 rfl
  rw [if_neg hbegin, if_neg hrelieved]
  by_cases hclosed : LogicalWrite arguments ∧ s.aof = true ∧ env.aofFailed = true
  · -- the command is refused, and the transaction is empty
    obtain ⟨hwrite, hfailed⟩ := hclosed
    have hcommand : s.executeCommand hash libc env (findCommand (argument arguments 0)) arguments = s.answer (.error .aof) := by
      unfold executeCommand
      rw [if_neg hwrite.1, if_neg (not_not_intro hwrite.2.1), if_pos ⟨hwrite.2.2, hfailed⟩]
    left
    refine ⟨.aof, ?_⟩
    rw [hcommand, if_pos (show LogicalWrite arguments ∧ s.aof = true from ⟨hwrite, hfailed.1⟩)]
    simp [answer, Reply.isError, commit, henv.commits, refuse]
  · right
    rw [executeCommand_relieved hclosed]
    rfl

/-! ## Runs under any limits -/

/-- what a run without MySQL keeps, under any limits -/
structure Steady (hash : Hasher) (s : Service) : Prop where
  core : Cache.Core hash s.cache
  within : s.cache.Within
  sound : s.cache.Sound hash
  charged : s.cache.Charged
  short : (lift s.cache.keyspace).Short
  mysql : s.mysql = none

theorem Steady.good (h : Steady hash s) (now : ℕ) : Good hash now (s.setClock fun _ => now).cache :=
  ⟨{ h.core with }, ⟨h.within.keys, h.within.memory⟩, h.sound, fun _ => rfl⟩

theorem Steady.next {now : ℕ} {gone : List Bytes} (h : Steady hash s)
    (hb : Becomes hash now (s.setClock fun _ => now).cache s'.cache gone ks) (hf : Frame (s.setClock fun _ => now) s')
    (hshort : ks.Short) : Steady hash s' := by
  refine ⟨hb.good.core, hb.good.within, hb.good.sound, hb.charged h.charged, ?_, hf.mysql.trans h.mysql⟩
  intro k o d hk
  obtain ⟨v, hv, he⟩ := Option.map_eq_some_iff.1 hk
  cases he
  rcases hb.stored k v hv with hold | hnew
  · exact h.short k v.1 (deadlineOf v.2) (Option.map_eq_some_iff.2 ⟨v, hold, rfl⟩)
  · exact hshort k v.1 _ hnew

theorem steady_init (hash : Hasher) (maxKeys maxMemory : ℕ) (engine : ZsetEngine) (admin : Admin) (aof : Bool)
    (nowMs : ℕ → ℕ) : Steady hash { init maxKeys maxMemory engine admin nowMs with aof := aof } := by
  refine ⟨Cache.core_create hash maxKeys maxMemory nowMs, Cache.within_create maxKeys maxMemory nowMs, ?_, ?_, ?_, rfl⟩
  · intro id hid
    have hid : id ∈ (Cache.cacheCreate maxKeys maxMemory nowMs).ids := hid
    rw [Cache.ids_create] at hid
    exact absurd hid not_mem_nil
  · intro _ id n hn
    cases hn
  · intro k o d hk
    have hnone : (Cache.cacheCreate maxKeys maxMemory nowMs).keyspace k = none := by
      rw [Cache.keyspace_eq, show KvHash.lookup (Cache.cacheCreate maxKeys maxMemory nowMs).index k = none from
        congrFun KvHash.lookup_create k]
      rfl
    have hk : ((Cache.cacheCreate maxKeys maxMemory nowMs).keyspace k).map (fun v => (v.1, deadlineOf v.2)) = some (o, d) := hk
    rw [hnone] at hk
    cases hk

/-- a request comes in a frame, and the AOF keeps what it is given -/
def Event.Kept : Event → Prop
  | .request _ env arguments => Framed arguments ∧ env.Keeps
  | .maintain _ => True

/-- what a request does: it is turned away, or it has one of the outcomes -/
def Outcomes (hash : Hasher) (libc : Libc) (t : ℕ) (s : Service) (arguments : Record) (r : Response) : Prop :=
  (∃ e, r = s.refuse e) ∨
    ∃ gone reported o, Allowed libc t s arguments o ∧ Answers hash t s r.service r.reply r.records gone reported o

variable {r : Response}

theorem Steady.request (h : Steady hash s) {now : UInt64} (hkept : (Event.request now env arguments).Kept)
    (hr : (s.setClock fun _ => now.toNat).executeWithBarrier hash libc env arguments = r) (hoom : r.outOfMemory = false) :
    Outcomes hash libc now.toNat (s.setClock fun _ => now.toNat) arguments r ∧ Steady hash r.service := by
  have hshort : ((s.setClock fun _ => now.toNat).cache.shown now.toNat).Short := Short.after h.short _
  rcases @executeWithBarrier_cases hash libc env (s.setClock fun _ => now.toNat) hkept.2 h.mysql arguments with ⟨e, he⟩ | he
  · rw [he] at hr
    subst hr
    exact ⟨Or.inl ⟨e, rfl⟩, { h with core := { h.core with }, within := ⟨h.within.keys, h.within.memory⟩ }⟩
  · rw [he] at hr
    obtain ⟨gone, reported, o, ho, ha⟩ := executeWithBarrier_settles (h.good now.toNat) h.charged hkept.2.relieved
      (toNat_le_uint64Max now) hshort hkept.1 h.mysql hr hoom
    refine ⟨Or.inr ⟨gone, reported, o, ho, ha⟩, h.next ha.becomes ha.frame ?_⟩
    rcases ho with rfl | ⟨_, rfl⟩
    · exact reference_short hshort hkept.1
    · exact hshort

theorem Steady.maintain (h : Steady hash s) (now : ℕ) : Steady hash ((s.setClock fun _ => now).maintain) :=
  h.next (Cache.cacheMaintain_becomes (h.good now) 64 16) ⟨rfl, rfl, rfl, rfl⟩ (Short.after h.short _)

/-- **The run** keeps the invariant. -/
theorem Steady.run (events : List Event) : ∀ {s : Service}, Steady hash s → (∀ e ∈ events, e.Kept) →
    (∀ r ∈ responses hash libc s events, r.outOfMemory = false) → Steady hash (Service.run hash libc s events) := by
  induction events with
  | nil =>
    intro s h _ _
    exact h
  | cons e events ih =>
    intro s h hkept hoom
    obtain ⟨he, hevents⟩ := forall_mem_cons.1 hkept
    rw [responses, forall_mem_append] at hoom
    refine ih ?_ hevents hoom.2
    cases e with
    | request now env arguments => exact (h.request he rfl (hoom.1 _ (mem_singleton_self _))).2
    | maintain now => exact h.maintain now.toNat

/-! ## Errors -/

/-- an error reply shows the same keyspace and logs nothing -/
theorem Outcomes.error (h : Outcomes hash libc t s arguments r) (herror : r.reply.isError = true) :
    r.service.cache.shown t = s.cache.shown t ∧ r.records = [] := by
  rcases h with ⟨e, rfl⟩ | ⟨gone, reported, o, ho, ha⟩
  · exact ⟨rfl, rfl⟩
  have hreads : o.Reads (s.cache.shown t) := by
    rcases ho with rfl | ⟨_, rfl⟩
    · exact reference_error_reads herror ha.reply
    · exact ⟨rfl, rfl⟩
  have hgone := ha.quiet hreads.2
  subst hgone
  constructor
  · rw [ha.becomes.shown_eq, hreads.1]
  · rw [ha.records, sublist_nil.1 ha.sub, hreads.2]
    simp

/-- a write to a collection without an error is the whole write -/
theorem Outcomes.whole (h : Outcomes hash libc t s arguments r) (hok : r.reply.isError = false)
    {request : Request} (hread : readRequest libc t arguments = .ok request) (hc : request.OfCollection) {key : Bytes}
    (hkey : request.key = some key) :
    r.service.cache.shown t key = (perform libc t (s.cache.shown t) arguments request).keyspace key := by
  rcases h with ⟨e, rfl⟩ | ⟨gone, reported, o, ho, ha⟩
  · exact absurd hok (by simp [refuse, Reply.isError])
  have hperform : o = perform libc t (s.cache.shown t) arguments request := by
    rcases ho with rfl | ⟨_, rfl⟩
    · exact reference_ok request hread
    · have hreply : r.reply = .error .capacity := ha.reply
      rw [hreply] at hok
      exact absurd hok (by simp [Reply.isError])
  have hkept : key ∉ gone := by
    cases hrecord : o.record with
    | none =>
      rw [ha.quiet hrecord]
      exact not_mem_nil
    | some record =>
      have harguments := perform_collection_record hc (hperform ▸ hrecord)
      have hfirst : some key = some (argument arguments 1) := by
        rw [← hkey]
        exact ((readRequest_reads hread).of_collection hc).2.2.2
      rw [Option.some.inj hfirst, ← harguments]
      exact ha.keep record hrecord
  rw [ha.becomes.shown, Keyspace.without, if_neg hkept, hperform]

/-- **Error replies have no effect.** After every run under any limits, a request with an error reply leaves the live keys,
their contents and their deadlines as they were and logs nothing; a write to a collection that is answered otherwise is done
as a whole. -/
theorem error_changes_nothing (hash : Hasher) (libc : Libc) (engine : ZsetEngine) (admin : Admin) (aof : Bool)
    (maxKeys maxMemory : ℕ) (nowMs : ℕ → ℕ) (events : List Event) (now : UInt64) (env : Env) (arguments : Record)
    (hkept : ∀ e ∈ events ++ [Event.request now env arguments], e.Kept)
    (hmemory : ∀ r ∈ responses hash libc { init maxKeys maxMemory engine admin nowMs with aof := aof }
      (events ++ [Event.request now env arguments]), r.outOfMemory = false)
    {s : Service} (hs : s = run hash libc { init maxKeys maxMemory engine admin nowMs with aof := aof } events)
    {r : Response} (hr : r = (s.setClock fun _ => now.toNat).executeWithBarrier hash libc env arguments) :
    (r.reply.isError = true → r.service.cache.shown now.toNat = s.cache.shown now.toNat ∧ r.records = []) ∧
    (r.reply.isError = false → ∀ request key, readRequest libc now.toNat arguments = .ok request → request.OfCollection →
      request.key = some key →
      r.service.cache.shown now.toNat key = (perform libc now.toNat (s.cache.shown now.toNat) arguments request).keyspace key) := by
  rw [responses_append, forall_mem_append, ← hs] at hmemory
  obtain ⟨hbefore, hlast⟩ := forall_mem_append.1 hkept
  have hsteady := (steady_init hash maxKeys maxMemory engine admin aof nowMs).run events hbefore hmemory.1
  rw [← hs] at hsteady
  have hr' : r ∈ responses hash libc s [Event.request now env arguments] := by
    rw [hr]
    exact mem_singleton_self _
  obtain ⟨houtcomes, _⟩ := hsteady.request (hlast _ (mem_singleton_self _)) hr.symm (hmemory.2 r hr')
  constructor
  · intro herror
    exact houtcomes.error herror
  · intro hok request key hread hc hkey
    exact houtcomes.whole hok hread hc hkey

/-- a run that sets k within 250 bytes -/
def small : Service :=
  run (fun _ => 0) Libc.silent { init 0 250 .rbtree Admin.none (fun _ => 0) with aof := true }
    [.request 1 Env.succeeding (["SET", "k", "v"].map ascii)]

/-- an HSET of two pairs is too big for it -/
theorem error_changes_nothing_capacity :
    let r := (small.setClock fun _ => 2).executeWithBarrier (fun _ => 0) Libc.silent Env.succeeding
      (["HSET", "h", "f", "1", "g", "2"].map ascii)
    r.reply = .error .capacity ∧ r.service.cache.shown 2 = small.cache.shown 2 := by
  intro r
  have hreply : r.reply = .error .capacity := by decide +kernel
  have hkept : ∀ e ∈ [.request 1 Env.succeeding (["SET", "k", "v"].map ascii)] ++
      [Event.request 2 Env.succeeding (["HSET", "h", "f", "1", "g", "2"].map ascii)], e.Kept := by
    intro e he
    fin_cases he <;> exact ⟨⟨by decide, by decide, by decide⟩, rfl, fun _ => rfl, rfl, rfl⟩
  have h := error_changes_nothing (fun _ => 0) Libc.silent .rbtree Admin.none true 0 250 (fun _ => 0) _ 2 Env.succeeding _ hkept
    (by decide +kernel) (s := small) rfl (r := r) rfl
  exact ⟨hreply, (h.1 (by rw [hreply]; rfl)).1⟩

end Service

end StoreSystem
