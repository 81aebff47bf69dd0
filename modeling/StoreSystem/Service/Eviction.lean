/-
Replay under a limit of keys. A run with `max_keys = M` and no limit of memory logs a DEL for every key it evicts, before the
record of the request that made room. Reads are not logged, so the replay orders its LRU list in another way; it must not
have to evict.

Without deadlines the replayed keyspace is the live one after every request. The DELs make the room the request needs, and a
live keyspace has at most `M` keys, so the replay stays within the limit.

- `perform_without`: a request acts on its key alone; the other keys can be deleted before it or after it.
- `replay_evicts_nothing`: no step of the replay evicts a key, and the replay ends with the live keyspace.

Premises: those of `Service.Execution`; no request names a deadline; the replay does not run out of memory.
-/
import StoreSystem.Service.Replay

namespace StoreSystem

open List Function
open Service (argument delRecord)

/-! ## Requests without deadlines -/

/-- a request that names no deadline -/
def Request.TtlFree : Request → Prop
  | .set _ _ (some _) | .expireAt _ _ => False
  | _ => True

/-- no object has a deadline -/
def Keyspace.Timeless (ks : Keyspace) : Prop := ∀ key o d, ks key = some (o, d) → d = none

section Keyspaces

variable {libc : Libc} {t T : ℕ} {ks : Keyspace} {arguments : Record} {key : Bytes} {request : Request} {gone : List Bytes}

theorem Keyspace.Timeless.after (h : ks.Timeless) (T : ℕ) : ks.after T = ks := by
  funext key
  rw [after_key]
  cases hk : ks key with
  | none => rfl
  | some v =>
    obtain ⟨o, d⟩ := v
    rw [h key o d hk]
    rfl

theorem Keyspace.Timeless.update (h : ks.Timeless) {v : Option (Obj × Option ℕ)} (hv : ∀ o d, v = some (o, d) → d = none) :
    Keyspace.Timeless (update ks key v) := by
  intro k o d hk
  rw [update_apply] at hk
  split_ifs at hk
  · exact hv o d hk
  · exact h k o d hk

theorem Keyspace.Timeless.without (h : ks.Timeless) (gone : List Bytes) : (Keyspace.without gone ks).Timeless := by
  intro k o d hk
  unfold Keyspace.without at hk
  split_ifs at hk
  exact h k o d hk

theorem Keyspace.Timeless.stays (h : ks.Timeless) (key : Bytes) : ¬ DiesBy T ks key := by
  rintro ⟨o, d, hk, _⟩
  cases h key o (some d) hk

/-- a request that names no deadline revives nothing -/
theorem Keyspace.Timeless.not_revives (h : ks.Timeless) (hfree : request.TtlFree) : ¬ Revives T ks request := by
  intro hrev
  cases request with
  | persist key => exact h.stays key hrev
  | expireAt key d => exact hfree
  | hset key pairs | zadd key pairs =>
    obtain ⟨m, d, hk, _⟩ := hrev
    cases h key _ _ hk
  | _ => exact hrev

/-- a request that names no deadline makes none -/
theorem perform_timeless (h : ks.Timeless) (hfree : request.TtlFree) : (perform libc t ks arguments request).keyspace.Timeless := by
  have hnone : request.deadline = none := by
    cases request with
    | set key value d =>
      cases d with
      | none => rfl
      | some d => exact absurd hfree id
    | expireAt key d => exact absurd hfree id
    | _ => rfl
  rcases Service.perform_does libc t ks arguments request with ⟨hsame, _⟩ | ⟨key, v, record, hputs⟩
  · rwa [hsame]
  rw [hputs.keyspace]
  refine h.update fun o d hv => ?_
  cases d with
  | none => rfl
  | some d =>
    rcases hputs.deadline o d hv with hd | ⟨old, hk⟩
    · exact hd.symm.trans hnone
    · exact h key old (some d) hk

/-! ## A request and the keys it is not about -/

/-- an outcome without some keys -/
def Outcome.without (gone : List Bytes) (o : Outcome) : Outcome := { o with keyspace := Keyspace.without gone o.keyspace }

theorem without_key (h : key ∉ gone) : Keyspace.without gone ks key = ks key := if_neg h

theorem without_update (h : key ∉ gone) (v : Option (Obj × Option ℕ)) :
    update (Keyspace.without gone ks) key v = Keyspace.without gone (update ks key v) := by
  funext k
  by_cases hk : k = key
  · rw [hk, update_self, without_key h, update_self]
  · simp only [Keyspace.without, update_of_ne hk]

theorem answerWith_without {M : Type} {read : Obj → Option M} {missing : Reply} {answer answer' : M → Option ℕ → Outcome}
    (h : key ∉ gone) (hanswer : ∀ m d, answer' m d = (answer m d).without gone) :
    answerWith (Keyspace.without gone ks) key read missing answer' = (answerWith ks key read missing answer).without gone := by
  unfold answerWith
  rw [without_key h]
  cases ks key with
  | none => rfl
  | some v =>
    simp only
    cases read v.1 with
    | none => rfl
    | some m => exact hanswer m v.2

theorem updateWith_without {M : Type} {read : Obj → Option M} {wrap : M → Obj} {empty : M} {write : M → Written M}
    (h : key ∉ gone) : updateWith (Keyspace.without gone ks) key read wrap empty write arguments =
      (updateWith ks key read wrap empty write arguments).without gone := by
  unfold updateWith
  rw [without_key h]
  cases ks key with
  | none => simp only [without_update h, Outcome.without]
  | some v =>
    simp only
    cases read v.1 with
    | none => rfl
    | some m => simp only [without_update h, Outcome.without]

theorem removeWith_without {V : Type} {read : Obj → Option (Bytes → Option V)} {wrap : (Bytes → Option V) → Obj}
    {items : List Bytes} (h : key ∉ gone) : removeWith (Keyspace.without gone ks) key read wrap items arguments =
      (removeWith ks key read wrap items arguments).without gone := by
  refine answerWith_without h fun m d => ?_
  simp only [Outcome.without, without_update h]
  congr 1
  split_ifs <;> rfl

/-- **A request acts on its key alone**: other keys can go before it as well as after it. -/
theorem perform_without (h : ∀ key, request.key = some key → key ∉ gone) :
    perform libc t (Keyspace.without gone ks) arguments request = (perform libc t ks arguments request).without gone := by
  cases request with
  | set key value d => simp only [perform, without_update (h key rfl), Outcome.without]
  | del key | expireAt key d =>
    simp only [perform, without_key (h key rfl)]
    cases ks key with
    | none => rfl
    | some v => simp only [without_update (h key rfl), Outcome.without]
  | persist key =>
    simp only [perform, without_key (h key rfl)]
    cases ks key with
    | none => rfl
    | some v =>
      obtain ⟨o, d⟩ := v
      cases d with
      | none => rfl
      | some d => simp only [without_update (h key rfl), Outcome.without]
  | ping message => cases message <;> rfl
  | ttl key | pttl key =>
    simp only [perform, without_key (h key rfl)]
    cases ks key <;> rfl
  | hset key pairs | zadd key pairs =>
    simp only [perform]
    exact updateWith_without (h key rfl)
  | hdel key fields | zrem key members => exact removeWith_without (h key rfl)
  | server => rfl
  | _ => exact answerWith_without (h _ rfl) fun _ _ => rfl

/-- the record of a request names its key -/
theorem Logs.key_eq {record : Record} (h : Logs arguments request record) (hreads : Reads libc t arguments request) :
    request.key = some (argument record 1) := by
  cases h with
  | set key value d => rw [Service.setRecord_key]; rfl
  | del key => rfl
  | expireAt key d => rfl
  | persist key => rfl
  | original hc => exact (hreads.of_collection hc).2.2.2

/-- a logged request, replayed at `T` after the DELs for other keys -/
theorem perform_after_deletes (h : ks.Timeless) (hfree : request.TtlFree) (hread : readRequest libc t arguments = .ok request)
    {record : Record} (hrecord : (perform libc t ks arguments request).record = some record) (hkeep : argument record 1 ∉ gone) :
    (perform libc T (Keyspace.without gone ks) arguments (atReplay T request)).keyspace =
        Keyspace.without gone (perform libc t ks arguments request).keyspace ∧
      ∀ reply, (perform libc T (Keyspace.without gone ks) arguments (atReplay T request)).replies reply → reply.isError = false := by
  have hother : ∀ key, request.key = some key → key ∉ gone := by
    intro key hkey
    rw [(Service.logs_of_record hrecord).key_eq (readRequest_reads hread), Option.some.injEq] at hkey
    exact hkey ▸ hkeep
  have hlive := h.without gone
  have hfollows : RecordFollows (Covers T True) libc T _ arguments request (perform libc t (Keyspace.without gone ks) arguments request) :=
    perform_follows_after (Service.partsIn_of_read hread) (hlive.not_revives hfree)
  have hlogged := hfollows.logged
  rw [perform_without hother, hlive.after] at hlogged
  obtain ⟨hkeyspace, hreply⟩ := hlogged (by rw [Outcome.without, hrecord]; simp)
  refine ⟨?_, hreply⟩
  rw [hkeyspace.eq_after]
  exact ((perform_timeless h hfree).without gone).after T

/-- a request that is not logged changes nothing -/
theorem perform_silent (h : ks.Timeless) (hfree : request.TtlFree) (hread : readRequest libc t arguments = .ok request)
    (hrecord : (perform libc t ks arguments request).record = none) : (perform libc t ks arguments request).keyspace = ks := by
  have hsilent := ((perform_follows_after (T := 0) (Service.partsIn_of_read hread) (h.not_revives hfree)).silent hrecord).eq_after
  rwa [(perform_timeless h hfree).after, h.after, eq_comm] at hsilent

end Keyspaces

namespace Service

open Cache (Becomes Good)

variable {hash : Hasher} {libc : Libc} {t T M : ℕ} {env : Env} {s s' : Service} {arguments : Record} {ks : Keyspace}

/-! ## Services under a limit of keys -/

/-- a service with at most `M` keys, none of them with a deadline, that shows `ks` -/
structure Keeps (hash : Hasher) (M t : ℕ) (s : Service) (ks : Keyspace) : Prop where
  good : Good hash t s.cache
  maxKeys : s.cache.maxKeys = M
  maxMemory : s.cache.maxMemory = 0
  mysql : s.mysql = none
  timeless : s.cache.Timeless
  shown : s.cache.shown t = ks
  short : ks.Short

section

variable (h : Keeps hash M t s ks)
include h

theorem Keeps.shown_at (t' : ℕ) : s.cache.shown t' = ks := by
  rw [← h.shown, h.timeless.shown, h.timeless.shown]

theorem Keeps.keyspace_timeless : ks.Timeless := by
  intro key o d hk
  rw [← h.shown, h.timeless.shown, lift, Option.map_eq_some_iff] at hk
  obtain ⟨v, hv, he⟩ := hk
  rw [h.timeless key v hv] at he
  cases he
  rfl

/-- the limit holds of the keyspace -/
theorem Keeps.count (hM : M ≠ 0) : {key | (ks key).isSome}.ncard ≤ M := by
  rw [← h.shown, ← h.timeless.count h.good.core t, ← h.maxKeys]
  exact h.good.within.keys (by rw [h.maxKeys]; exact hM)

theorem Keeps.setClock (now : ℕ) : Keeps hash M now (s.setClock fun _ => now) ks :=
  ⟨⟨{ h.good.core with }, ⟨h.good.within.keys, h.good.within.memory⟩, h.good.sound, fun _ => rfl⟩, h.maxKeys, h.maxMemory, h.mysql,
    h.timeless, h.shown_at now, h.short⟩

/-- a step of the cache that makes no deadlines -/
theorem Keeps.becomes {gone : List Bytes} {ks' : Keyspace}
    (hb : Becomes hash t s.cache s'.cache gone ks') (hf : Frame s s') (hks : ks'.Timeless) (hshort : ks'.Short) :
    Keeps hash M t s' (Keyspace.without gone ks') := by
  refine ⟨hb.good, hb.limits.1.trans h.maxKeys, hb.limits.2.trans h.maxMemory, hf.mysql.trans h.mysql, hb.timeless h.timeless hks,
    hb.shown, ?_⟩
  intro key o d hk
  unfold Keyspace.without at hk
  split_ifs at hk
  exact hshort key o d hk

/-- **A live request**: DELs for what it evicts, and then its own record, whose key stays. -/
theorem Keeps.request (haof : s.aof = true) (ht : t ≤ uint64Max) (henv : env.Healthy)
    (hframed : Framed arguments) (hfree : ∀ request, readRequest libc t arguments = .ok request → request.TtlFree) {r : Response}
    (hr : s.executeWithBarrier hash libc env arguments = r) (hoom : r.outOfMemory = false) :
    ∃ gone, Keeps hash M t r.service (Keyspace.without gone (reference libc t ks arguments).keyspace) ∧
      r.service.aof = true ∧
      r.records = gone.map delRecord ++ (reference libc t ks arguments).record.toList ∧
      (∀ record, (reference libc t ks arguments).record = some record → argument record 1 ∉ gone) ∧ (M = 0 → gone = []) := by
  obtain ⟨gone, reported, ha⟩ := executeWithBarrier_answers h.good h.maxMemory henv ht (by rw [h.shown]; exact h.short) hframed
    h.mysql hr hoom
  rw [h.shown] at ha
  have htimeless : (reference libc t ks arguments).keyspace.Timeless := by
    unfold reference
    split
    · exact h.keyspace_timeless
    · rename_i request hread
      exact perform_timeless h.keyspace_timeless (hfree request hread)
  refine ⟨gone, h.becomes ha.becomes ha.frame htimeless (reference_short h.short hframed), ha.frame.aof.trans haof, ?_, ha.keep,
    fun hM => ha.becomes.unlimited (h.maxKeys.trans hM) h.maxMemory⟩
  rw [ha.records, if_pos haof, ha.timeless h.timeless]

theorem Keeps.maintain : Keeps hash M t s.maintain ks := by
  have hb := Cache.cacheMaintain_becomes h.good 64 16
  rw [h.shown] at hb
  have hframe : Frame s s.maintain := ⟨rfl, rfl, rfl, rfl⟩
  have hnext := h.becomes hb hframe h.keyspace_timeless h.short
  rwa [Keyspace.without_nil] at hnext

end

/-! ## The replay -/

/-- no step of a replay evicts a key -/
def EvictsNothing (hash : Hasher) (libc : Libc) (env : ℕ → Env) : ℕ → Service → List Record → Prop
  | _, _, [] => True
  | index, s, record :: log =>
    (s.replayAof hash libc (env index) record).service.cache.evicted = s.cache.evicted ∧
      EvictsNothing hash libc env (index + 1) (s.replayAof hash libc (env index) record).service log

theorem becomes_evicted {c c' : Cache} (hb : Becomes hash t c c' [] ks) : c'.evicted = c.evicted := by
  obtain ⟨reported, h1, h2, _⟩ := hb.logged
  rw [h1, sublist_nil.1 h2, append_nil]

/-- the DEL for an evicted key -/
theorem Keeps.delete (libc : Libc) (env : Env) (key : Bytes) (h : Keeps hash M T s ks) {r : Replayed}
    (hr : s.replayAof hash libc env (delRecord key) = r) :
    Keeps hash M T r.service (update ks key none) ∧ r.ok = true ∧ r.outOfMemory = false ∧
      r.service.cache.evicted = s.cache.evicted := by
  obtain ⟨hnow, _⟩ := Cache.cacheNow_becomes h.good
  obtain ⟨s', hs'⟩ : ∃ s', s' = s.withCache s.cache.cacheNow.2 := ⟨_, rfl⟩
  rw [show s.replayAof hash libc env (delRecord key) = s'.replayDelete hash key by rw [hs']; rfl] at hr
  rw [show s.cache.cacheNow.2 = s'.cache by rw [hs']; rfl] at hnow
  subst hr
  have hdel := (replayDelete_restores libc [] hnow.good key).after hnow (by rw [hs']; exact Frame.cache s _)
  obtain ⟨hkeyspace, hreply⟩ := perform_del_keyspace libc T [] (s'.cache.shown T) key
  obtain ⟨reply, hreplies, hok⟩ := hdel.reply
  rw [hnow.shown_eq, h.shown] at hkeyspace
  have hb := hdel.becomes
  rw [hnow.shown_eq, h.shown, hkeyspace] at hb
  have hnext := h.becomes hb hdel.frame (h.keyspace_timeless.update fun o d hv => by cases hv)
    (Short.update h.short key fun o d hv => by cases hv)
  rw [Keyspace.without_nil] at hnext
  refine ⟨hnext, ?_, rfl, becomes_evicted hb⟩
  rw [hok, hreply reply hreplies]
  rfl

/-- **The DELs** for a list of evicted keys -/
theorem Keeps.deletes (libc : Libc) (env : ℕ → Env) (log : List Record) (gone : List Bytes) :
    ∀ (index : ℕ) {s : Service} {ks : Keyspace}, Keeps hash M T s ks →
      ∃ s', Keeps hash M T s' (Keyspace.without gone ks) ∧
        replayLog hash libc env index s (gone.map delRecord ++ log) =
          replayLog hash libc env (index + gone.length) s' log ∧
        (EvictsNothing hash libc env (index + gone.length) s' log →
          EvictsNothing hash libc env index s (gone.map delRecord ++ log)) := by
  induction gone with
  | nil =>
    intro index s ks h
    rw [Keyspace.without_nil]
    exact ⟨s, h, rfl, id⟩
  | cons key gone ih =>
    intro index s ks h
    obtain ⟨hdel, hok, hoom, hsame⟩ := h.delete libc (env index) key rfl
    obtain ⟨s', hkeeps, hlog, hquiet⟩ := ih (index + 1) hdel
    rw [Nat.add_right_comm index 1] at hlog hquiet
    refine ⟨s', ?_, ?_, fun h => ⟨hsame, hquiet h⟩⟩
    · have hboth : Keyspace.without gone (update ks key none) = Keyspace.without (key :: gone) ks := by
        funext k
        unfold Keyspace.without
        by_cases hk : k = key <;> simp [hk]
      rwa [hboth] at hkeeps
    · rw [map_cons, cons_append, replayLog_cons rfl hok hoom]
      exact hlog

/-- **The record of a request**: what it makes is the live keyspace after the request, and that fits. -/
theorem Keeps.record {gone : List Bytes} {request : Request} {record : Record} {r : Replayed}
    (h : Keeps hash M T s (Keyspace.without gone ks)) (hT : T ≤ uint64Max) (henv : env.Healthy) (hframed : Framed arguments)
    (hread : readRequest libc t arguments = .ok request) (hfree : request.TtlFree) (hks : ks.Timeless)
    (hrecord : (perform libc t ks arguments request).record = some record) (hkeep : argument record 1 ∉ gone)
    (hfits : M = 0 ∨ {key | (Keyspace.without gone (perform libc t ks arguments request).keyspace key).isSome}.ncard ≤ M)
    (hr : s.replayAof hash libc env record = r) (hoom : r.outOfMemory = false) :
    Keeps hash M T r.service (Keyspace.without gone (perform libc t ks arguments request).keyspace) ∧ r.ok = true ∧
      r.service.cache.evicted = s.cache.evicted := by
  obtain ⟨evicted, hres⟩ := replayAof_restores h.good h.maxMemory henv hT (by rw [h.shown]; exact h.short) h.mysql hframed hread
    (logs_of_record hrecord) hr hoom
  obtain ⟨hkeyspace, hreply⟩ := perform_after_deletes (T := T) hks hfree hread hrecord hkeep
  rw [h.shown] at hres
  have hb := hres.becomes
  rw [hkeyspace] at hb
  have hnone : evicted = [] := by
    refine hb.roomy h.maxMemory ?_
    rw [h.maxKeys]
    exact hfits.imp_right fun hle => ⟨h.timeless, hle⟩
  subst hnone
  have hshort : (Keyspace.without gone (perform libc t ks arguments request).keyspace).Short := by
    rw [← hkeyspace]
    exact perform_short h.short (short_atReplay T (readRequest_short hframed hread))
  have hnext := h.becomes hb hres.frame ((perform_timeless hks hfree).without gone) hshort
  rw [Keyspace.without_nil] at hnext
  obtain ⟨reply, hreplies, hok⟩ := hres.reply
  refine ⟨hnext, ?_, becomes_evicted hb⟩
  rw [hok, hreply reply hreplies]
  rfl

/-- no request of the event names a deadline -/
def Event.TtlFree (libc : Libc) : Event → Prop
  | .request now _ arguments => ∀ request, readRequest libc now.toNat arguments = .ok request → request.TtlFree
  | .maintain _ => True

/-- **The replay of a run**: the live and the replayed service keep the same keyspace, and no record makes the replay evict. -/
theorem Keeps.replayLog (hM : M ≠ 0) (hT : T ≤ uint64Max) {env : ℕ → Env} (henv : ∀ i, (env i).Healthy) (events : List Event) :
    ∀ {index : ℕ} {live s : Service} {ks : Keyspace}, (∀ now, Keeps hash M now (live.setClock fun _ => now) ks) →
      live.aof = true → Keeps hash M T s ks →
      (∀ e ∈ events, e.FromClient) → (∀ e ∈ events, e.TtlFree libc) →
      (∀ r ∈ responses hash libc live events, r.outOfMemory = false) →
      (Service.replayLog hash libc env index s (logOf hash libc live events)).outOfMemory = false →
      (Service.replayLog hash libc env index s (logOf hash libc live events)).ok = true ∧
        EvictsNothing hash libc env index s (logOf hash libc live events) ∧
        ∃ ks', (∀ now, Keeps hash M now ((Service.run hash libc live events).setClock fun _ => now) ks') ∧
          Keeps hash M T (Service.replayLog hash libc env index s (logOf hash libc live events)).service ks' := by
  induction events with
  | nil =>
    intro index live s ks hlive _ hs _ _ _ _
    exact ⟨rfl, trivial, ks, hlive, hs⟩
  | cons e events ih =>
    intro index live s ks hlive haof hs hclient hfree hoom hreplay
    obtain ⟨he, hclient'⟩ := forall_mem_cons.1 hclient
    obtain ⟨hefree, hfree'⟩ := forall_mem_cons.1 hfree
    rw [responses, forall_mem_append] at hoom
    cases e with
    | maintain now => exact ih (hlive now.toNat).maintain.setClock haof hs hclient' hfree' hoom.2 hreplay
    | request now renv arguments =>
      obtain ⟨gone, hlive', haof', hrecords, hkeep, _⟩ := (hlive now.toNat).request haof (toNat_le_uint64Max now) he.2 he.1
        hefree rfl (hoom.1 _ (mem_singleton_self _))
      have hfits := hlive'.count hM
      have hlog : logOf hash libc live (.request now renv arguments :: events) =
          gone.map delRecord ++ ((reference libc now.toNat ks arguments).record.toList ++
            logOf hash libc (live.step hash libc (.request now renv arguments)).1 events) := by
        unfold logOf
        rw [responses, flatMap_append, ← append_assoc]
        exact congrArg (· ++ _) ((flatMap_singleton _ _).trans hrecords)
      rw [hlog] at hreplay ⊢
      obtain ⟨s', hs', hdels, hquiet⟩ := hs.deletes libc env ((reference libc now.toNat ks arguments).record.toList ++
        logOf hash libc (live.step hash libc (.request now renv arguments)).1 events) gone index
      rw [hdels] at hreplay ⊢
      cases hread : readRequest libc now.toNat arguments with
      | error err =>
        rw [reference_error hread] at hlive' hreplay hquiet ⊢
        obtain ⟨h1, h2, h3⟩ := ih hlive'.setClock haof' hs' hclient' hfree' hoom.2 hreplay
        exact ⟨h1, hquiet h2, h3⟩
      | ok request =>
        rw [reference_ok request hread] at hlive' hreplay hquiet hkeep hfits ⊢
        have hks := hs.keyspace_timeless
        cases hrecord : (perform libc now.toNat ks arguments request).record with
        | none =>
          rw [perform_silent hks (hefree request hread) hread hrecord] at hlive'
          rw [hrecord] at hreplay hquiet
          obtain ⟨h1, h2, h3⟩ := ih hlive'.setClock haof' hs' hclient' hfree' hoom.2 hreplay
          exact ⟨h1, hquiet h2, h3⟩
        | some record =>
          rw [hrecord] at hreplay hquiet
          rw [Option.toList_some, singleton_append] at hreplay hquiet ⊢
          have hone : (s'.replayAof hash libc (env (index + gone.length)) record).outOfMemory = false :=
            replayLog_memory hreplay
          obtain ⟨hnext, hok, hsame⟩ := hs'.record hT (henv _) he.1 hread (hefree request hread) hks hrecord (hkeep record hrecord)
            (Or.inr hfits) rfl hone
          rw [replayLog_cons rfl hok hone] at hreplay ⊢
          obtain ⟨h1, h2, h3⟩ := ih hlive'.setClock haof' hnext hclient' hfree' hoom.2 hreplay
          exact ⟨h1, hquiet ⟨hsame, h2⟩, h3⟩

theorem keeps_init (hash : Hasher) (M : ℕ) (engine : ZsetEngine) (admin : Admin) (aof : Bool) (nowMs : ℕ → ℕ) (t : ℕ) :
    Keeps hash M t ({ init M 0 engine admin nowMs with aof := aof }.setClock fun _ => t) Keyspace.empty := by
  have h := serves_init hash engine admin M aof nowMs
  have htimeless : ({ init M 0 engine admin nowMs with aof := aof } : Service).cache.Timeless := by
    intro key v hv
    have hnone : KvHash.lookup (Cache.cacheCreate M 0 nowMs).index key = none := congrFun KvHash.lookup_create key
    have hv : (Cache.cacheCreate M 0 nowMs).keyspace key = some v := hv
    rw [Cache.keyspace, hnone] at hv
    cases hv
  refine ⟨h.good t, rfl, rfl, rfl, htimeless, ?_, h.short⟩
  rw [h.shown_at (Nat.zero_le t), Keyspace.after_empty]

/-- **A replay evicts nothing.** A run with at most `M` keys and no deadlines, any reads included, is logged with a DEL for
every key it evicts. Replayed into an empty service with the same limit, every record is accepted, no step evicts a key, and
the keyspace at the end is the live one. -/
theorem replay_evicts_nothing (hash : Hasher) (libc : Libc) (M : ℕ) (hM : M ≠ 0) (engine engine' : ZsetEngine)
    (admin admin' : Admin) (nowMs : ℕ → ℕ) (events : List Event) (T : UInt64) (env : ℕ → Env)
    (hclient : ∀ e ∈ events, e.FromClient) (hfree : ∀ e ∈ events, e.TtlFree libc)
    (hmemory : ∀ r ∈ responses hash libc (init M 0 engine admin nowMs).attachAof events, r.outOfMemory = false)
    (henv : ∀ i, (env i).Healthy)
    (hreplay : (replayLog hash libc env 0 (init M 0 engine' admin' fun _ => T.toNat)
      (logOf hash libc (init M 0 engine admin nowMs).attachAof events)).outOfMemory = false) :
    (replayLog hash libc env 0 (init M 0 engine' admin' fun _ => T.toNat)
        (logOf hash libc (init M 0 engine admin nowMs).attachAof events)).ok = true ∧
      EvictsNothing hash libc env 0 (init M 0 engine' admin' fun _ => T.toNat)
        (logOf hash libc (init M 0 engine admin nowMs).attachAof events) ∧
      ∀ t, (replayLog hash libc env 0 (init M 0 engine' admin' fun _ => T.toNat)
          (logOf hash libc (init M 0 engine admin nowMs).attachAof events)).service.cache.shown t =
        (run hash libc (init M 0 engine admin nowMs).attachAof events).cache.shown t := by
  have hlive : ∀ now, Keeps hash M now ((init M 0 engine admin nowMs).attachAof.setClock fun _ => now) Keyspace.empty :=
    keeps_init hash M engine admin true nowMs
  have hempty : Keeps hash M T.toNat (init M 0 engine' admin' fun _ => T.toNat) Keyspace.empty :=
    keeps_init hash M engine' admin' false (fun _ => T.toNat) T.toNat
  obtain ⟨hok, hquiet, ks, hrun, hend⟩ := Keeps.replayLog hM (toNat_le_uint64Max T) henv events hlive rfl hempty hclient hfree hmemory
    hreplay
  refine ⟨hok, hquiet, fun t => ?_⟩
  calc _ = ks := hend.shown_at t
    _ = (run hash libc (init M 0 engine admin nowMs).attachAof events).cache.shown t := ((hrun t).shown_at t).symm

theorem client_ttlFree {now : UInt64} {words : List String} (request : Request)
    (h : readRequest libc now.toNat (words.map ascii) = .ok request) (hfree : request.TtlFree) :
    (client now words).TtlFree libc := by
  intro request' h'
  rw [h] at h'
  cases h'
  exact hfree

/-- SET a 1, SET b 2, GET b, HSET h f v, with two keys at most: the third key evicts a -/
def crowded : List Event :=
  [client 1 ["SET", "a", "1"], client 2 ["SET", "b", "2"], client 3 ["GET", "b"], client 4 ["HSET", "h", "f", "v"]]

theorem replay_evicts_nothing_crowded :
    (run (fun _ => 0) Libc.silent (init 2 0 .rbtree Admin.none fun _ => 0).attachAof crowded).cache.evicted = [ascii "a"] ∧
      EvictsNothing (fun _ => 0) Libc.silent (fun _ => Env.succeeding) 0 (init 2 0 .rbtree Admin.none fun _ => 9)
        (logOf (fun _ => 0) Libc.silent (init 2 0 .rbtree Admin.none fun _ => 0).attachAof crowded) := by
  refine ⟨by decide +kernel, (replay_evicts_nothing (fun _ => 0) Libc.silent 2 (by decide) .rbtree .rbtree Admin.none Admin.none
    (fun _ => 0) crowded 9 (fun _ => Env.succeeding) ?_ ?_ (by decide +kernel) (fun _ => Env.succeeding_healthy)
    (by decide +kernel)).2.1⟩
  · intro e he
    simp only [crowded, mem_cons, not_mem_nil, or_false] at he
    rcases he with rfl | rfl | rfl | rfl <;> exact client_fromClient _ ⟨by decide, by decide, by decide⟩
  · intro e he
    simp only [crowded, mem_cons, not_mem_nil, or_false] at he
    rcases he with rfl | rfl | rfl | rfl
    · exact client_ttlFree (.set (ascii "a") (ascii "1") none) (by decide +kernel) trivial
    · exact client_ttlFree (.set (ascii "b") (ascii "2") none) (by decide +kernel) trivial
    · exact client_ttlFree (.get (ascii "b")) (by decide +kernel) trivial
    · exact client_ttlFree (.hset (ascii "h") [(ascii "f", ascii "v")]) (by decide +kernel) trivial

end Service

end StoreSystem
