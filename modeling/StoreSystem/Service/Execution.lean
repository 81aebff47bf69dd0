/-
The service computes the reference semantics (`Service.Keyspace`), over whole runs.

- `dispatch_settles`, `executeCommand_settles`: the switch assembles the commands; with the keys the cache evicted on the way
  come their DEL records. Under a limit on memory a request may also be refused, and then nothing changes.
- `executeWithBarrier_settles`, `executeWithBarrier_answers`: the same for a request as the reactor makes it, without MySQL.
- `service_refines_keyspace`: without limits, every reply of a run is a reply of the reference semantics to the same
  requests at the same times.

Premises: requests come in client frames (`Framed`), the AOF takes what it is given, the clock stands still during a
request and does not go back between requests, and no request runs out of memory.
-/
import StoreSystem.Service.Collections

namespace StoreSystem

open List Function

/-- a request as the RESP parser lets it through -/
structure Framed (arguments : Record) : Prop where
  nonempty : arguments ≠ []
  few : arguments.length ≤ respMaxArguments
  short : ∀ a ∈ arguments, a.length ≤ respMaxFrameSize

variable {r : Response} {libc : Libc}

namespace Service

open Cache (Becomes Good)

variable {hash : Hasher} {t : ℕ} {env : Env} {s s' : Service} {arguments : Record}

/-! ## The switch -/

theorem pairsOf_mem {l : List Bytes} {p : Bytes × Bytes} (h : p ∈ pairsOf l) : p.1 ∈ l ∧ p.2 ∈ l := by
  induction l using pairsOf.induct with
  | case1 first second rest ih =>
    rw [pairsOf, mem_cons] at h
    rcases h with rfl | h
    · simp
    · obtain ⟨h1, h2⟩ := ih h
      exact ⟨mem_cons_of_mem _ (mem_cons_of_mem _ h1), mem_cons_of_mem _ (mem_cons_of_mem _ h2)⟩
  | case2 l hl =>
    rw [pairsOf] at h
    · exact absurd h not_mem_nil
    · exact hl

theorem pairsOf_length (l : List Bytes) : (pairsOf l).length ≤ l.length / 2 := by
  induction l using pairsOf.induct with
  | case1 first second rest ih =>
    rw [pairsOf, length_cons, length_cons, length_cons]
    omega
  | case2 l hl =>
    rw [pairsOf]
    · exact Nat.zero_le _
    · exact hl

/-- a number of arguments that a command does not take is an error -/
theorem readRequest_arity (hknown : findCommand (argument arguments 0) ≠ .unknown)
    (harity : commandArityValid (findCommand (argument arguments 0)) arguments.length = false) :
    readRequest libc t arguments = .error .arity := by
  unfold readRequest
  split
  case h_1 hc => exact absurd hc hknown
  case h_13 hc =>
    -- the number of arguments after the key is even and positive
    refine if_neg fun h => ?_
    simp only [hc, commandArityValid, length_cons, decide_eq_false_iff_not] at harity
    omega
  case h_18 hc =>
    refine if_neg fun h => ?_
    simp only [hc, commandArityValid, length_cons, decide_eq_false_iff_not] at harity
    omega
  all_goals first
    | rfl
    | rename_i hc; simp [hc, commandArityValid] at harity

theorem reference_ok (request : Request) {ks : Keyspace} (h : readRequest libc t arguments = .ok request) :
    reference libc t ks arguments = perform libc t ks arguments request := by
  rw [reference, h]

theorem reference_error {e : ServiceError} {ks : Keyspace} (h : readRequest libc t arguments = .error e) :
    reference libc t ks arguments = .reads ks (· = .error e) := by
  rw [reference, h]

section

variable (hg : Good hash t s.cache)
include hg

/-- a request to the server is answered and changes nothing -/
theorem server_meets (h : readRequest libc t arguments = .ok .server) (reply : Reply) :
    Meets hash t s (s.answer reply) (reference libc t (s.cache.shown t) arguments) := by
  rw [reference_ok _ h]
  exact Meets.unread hg trivial

theorem set_settles (henv : env.Healthy) (ht : t ≤ uint64Max)
    (hc : findCommand (argument arguments 0) = .set) (harity : arguments.length = 3 ∨ arguments.length = 5) :
    Settles hash t s (s.executeSet hash env arguments) (reference libc t (s.cache.shown t) arguments) := by
  rcases harity with hlen | hlen
  · obtain ⟨name, key, value, rfl⟩ := length_eq_three.1 hlen
    rw [reference_ok (.set key value none) (by simp only [readRequest, hc])]
    exact executeSet_stores libc hg henv setDuration_three (Or.inl rfl)
  · match arguments, hlen with
    | [name, key, value, option, text], _ =>
      have hread : readRequest libc t [name, key, value, option, text] =
          (readSetOption t option text).map fun d => .set key value (some d) := by simp only [readRequest, hc]
      have h := executeSet_option libc hg henv ht name key value option text
      rw [reference, hread]
      cases hr : readSetOption t option text with
      | error e => rwa [hr] at h
      | ok d => rwa [hr] at h

theorem expire_meets (henv : env.Healthy) (ht : t ≤ uint64Max) {unit : ℕ} (hu : 0 < unit)
    {name key text : Bytes} (hread : readRequest libc t [name, key, text] = readExpire t unit key text) :
    Meets hash t s (s.executeExpire hash env [name, key, text] unit)
      (reference libc t (s.cache.shown t) [name, key, text]) := by
  have h := executeExpire_meets libc hg henv ht hu name key text
  rw [reference, hread]
  cases hr : readExpire t unit key text with
  | error e => rwa [hr] at h
  | ok request => rwa [hr] at h

theorem ping_meets (hc : findCommand (argument arguments 0) = .ping) (harity : arguments.length = 1 ∨ arguments.length = 2) :
    Meets hash t s (s.executePing arguments) (reference libc t (s.cache.shown t) arguments) := by
  rcases harity with hlen | hlen
  · obtain ⟨name, rfl⟩ := length_eq_one_iff.1 hlen
    rw [reference_ok (.ping none) (by simp only [readRequest, hc])]
    exact Meets.unread hg rfl
  · obtain ⟨name, message, rfl⟩ := length_eq_two.1 hlen
    rw [reference_ok (.ping (some message)) (by simp only [readRequest, hc])]
    exact Meets.unread hg rfl

theorem hset_settles (henv : env.Healthy)
    (hc : findCommand (argument arguments 0) = .hset) (harity : arguments.length ≥ 4 ∧ arguments.length % 2 = 0) :
    Settles hash t s (s.executeHset hash env arguments) (reference libc t (s.cache.shown t) arguments) := by
  match arguments, harity with
  | name :: key :: rest, harity =>
    have hrest : rest.length ≥ 2 ∧ rest.length % 2 = 0 := by
      simp only [length_cons] at harity
      omega
    rw [reference_ok (.hset key (pairsOf rest)) (by simp only [readRequest, hc, if_pos hrest])]
    exact executeHset_settles hg henv name key hrest.1

theorem zadd_settles (henv : env.Healthy) (hframed : Framed arguments)
    (hc : findCommand (argument arguments 0) = .zadd) (harity : arguments.length ≥ 4 ∧ arguments.length % 2 = 0) :
    Settles hash t s (s.executeZadd hash libc env arguments) (reference libc t (s.cache.shown t) arguments) := by
  match arguments, harity, hframed with
  | name :: key :: rest, harity, hframed =>
    have hrest : rest.length ≥ 2 ∧ rest.length % 2 = 0 := by
      simp only [length_cons] at harity
      omega
    have hmany : (pairsOf rest).length ≤ zaddScores := by
      have h1 := pairsOf_length rest
      have h2 := hframed.few
      simp only [length_cons, respMaxArguments] at h2
      unfold zaddScores
      omega
    have hlong : ∀ pair ∈ pairsOf rest, pair.1.length ≠ sizeMax := by
      intro pair hp
      have h := hframed.short pair.1 (mem_cons_of_mem _ (mem_cons_of_mem _ (pairsOf_mem hp).1))
      unfold respMaxFrameSize at h
      unfold sizeMax
      omega
    have h := executeZadd_settles libc hg henv name key hrest.1 hmany hlong
    unfold reference
    simp only [readRequest, hc, if_pos hrest]
    cases hr : readScores libc (pairsOf rest) with
    | none => rwa [hr] at h
    | some pairs => rwa [hr] at h

theorem zrange_command_meets (hshort : (s.cache.shown t).Short)
    (hc : findCommand (argument arguments 0) = .zrange) (harity : arguments.length = 4 ∨ arguments.length = 5) :
    Meets hash t s (s.executeZrange hash libc env arguments) (reference libc t (s.cache.shown t) arguments) := by
  have h := executeZrange_meets libc env hg hshort arguments
  unfold reference
  rcases harity with hlen | hlen
  · obtain ⟨name, key, start, stop, rfl⟩ := length_eq_four.1 hlen
    simp only [readRequest, hc]
    have hread : readRange (argument [name, key, start, stop] 1) (argument [name, key, start, stop] 2)
      (argument [name, key, start, stop] 3) ([name, key, start, stop].length = 5) = readRange key start stop false := rfl
    rw [hread] at h
    cases hr : readRange key start stop false with
    | error e => rwa [hr] at h
    | ok request => rwa [hr] at h
  · cases arguments with
    | nil => cases hlen
    | cons name rest =>
      obtain ⟨key, start, stop, option, rfl⟩ := length_eq_four.1 (Nat.succ.inj hlen)
      simp only [readRequest, hc]
      have hread : readRange (argument [name, key, start, stop, option] 1) (argument [name, key, start, stop, option] 2)
        (argument [name, key, start, stop, option] 3) ([name, key, start, stop, option].length = 5) =
          readRange key start stop true := rfl
      rw [hread] at h
      cases hr : readRange key start stop true with
      | error e => rwa [hr] at h
      | ok request =>
        rw [hr] at h
        dsimp only at h
        by_cases hoption : argumentEquals option "WITHSCORES" = true
        · simp only [if_pos hoption]
          rwa [if_neg (fun h => h.2 hoption)] at h
        · simp only [if_neg hoption]
          rwa [if_pos ⟨rfl, hoption⟩] at h

end

theorem executeInfo_answers (s : Service) (arguments : Record) : ∃ reply, s.executeInfo arguments = s.answer reply := by
  unfold executeInfo
  simp only
  split_ifs
  · split <;> exact ⟨_, rfl⟩
  · split <;> exact ⟨_, rfl⟩
  · split <;> exact ⟨_, rfl⟩
  · exact ⟨_, rfl⟩

theorem executeSaveCommand_answers (s : Service) (background : Bool) :
    ∃ reply, s.executeSaveCommand background = s.answer reply := by
  unfold executeSaveCommand
  cases s.admin.save with
  | none => exact ⟨_, rfl⟩
  | some save =>
    simp only
    generalize save background = result
    cases result <;> exact ⟨_, rfl⟩

/-- a command that meets the request its arguments are -/
theorem settles_of_read {e : Executed} {request : Request} (hread : readRequest libc t arguments = .ok request)
    (h : Meets hash t s e (perform libc t (s.cache.shown t) arguments request)) :
    Settles hash t s e (reference libc t (s.cache.shown t) arguments) := by
  rw [reference_ok request hread]
  exact Or.inl h

/-- **Every command** of the switch settles as the reference does. -/
theorem dispatch_settles (libc : Libc) (hg : Good hash t s.cache) (hcharged : s.cache.Charged) (henv : env.Healthy)
    (ht : t ≤ uint64Max) (hshort : (s.cache.shown t).Short) (hframed : Framed arguments) {command : ServiceCommand}
    (hc : findCommand (argument arguments 0) = command) (hknown : command ≠ .unknown)
    (harity : commandArityValid command arguments.length = true) :
    Settles hash t s (s.dispatch hash libc env command arguments) (reference libc t (s.cache.shown t) arguments) := by
  unfold dispatch
  cases command with
  | unknown => exact absurd rfl hknown
  | set => exact set_settles hg henv ht hc (of_decide_eq_true harity)
  | ping => exact Or.inl (ping_meets hg hc (of_decide_eq_true harity))
  | hset => exact hset_settles hg henv hc (of_decide_eq_true harity)
  | zadd => exact zadd_settles hg henv hframed hc (of_decide_eq_true harity)
  | zrange => exact Or.inl (zrange_command_meets hg hshort hc (of_decide_eq_true harity))
  | get =>
    obtain ⟨name, key, rfl⟩ := length_eq_two.1 (of_decide_eq_true harity)
    exact settles_of_read (by simp only [readRequest, hc]) (executeGet_meets hg name key)
  | del =>
    obtain ⟨name, key, rfl⟩ := length_eq_two.1 (of_decide_eq_true harity)
    exact settles_of_read (by simp only [readRequest, hc]) (executeDel_meets hg henv name key)
  | ttl =>
    obtain ⟨name, key, rfl⟩ := length_eq_two.1 (of_decide_eq_true harity)
    exact settles_of_read (by simp only [readRequest, hc]) (executeTtl_meets hg name key).1
  | pttl =>
    obtain ⟨name, key, rfl⟩ := length_eq_two.1 (of_decide_eq_true harity)
    exact settles_of_read (by simp only [readRequest, hc]) (executeTtl_meets hg name key).2
  | persist =>
    obtain ⟨name, key, rfl⟩ := length_eq_two.1 (of_decide_eq_true harity)
    exact settles_of_read (by simp only [readRequest, hc]) (executePersist_meets hg henv name key)
  | hlen =>
    obtain ⟨name, key, rfl⟩ := length_eq_two.1 (of_decide_eq_true harity)
    exact settles_of_read (by simp only [readRequest, hc]) (executeHlen_meets hg name key)
  | hgetall =>
    obtain ⟨name, key, rfl⟩ := length_eq_two.1 (of_decide_eq_true harity)
    exact settles_of_read (by simp only [readRequest, hc]) (executeHgetall_meets hg hshort name key)
  | zcard =>
    obtain ⟨name, key, rfl⟩ := length_eq_two.1 (of_decide_eq_true harity)
    exact settles_of_read (by simp only [readRequest, hc]) (executeZcard_meets hg name key)
  | expire | pexpire =>
    obtain ⟨name, key, text, rfl⟩ := length_eq_three.1 (of_decide_eq_true harity)
    exact Or.inl (expire_meets hg henv ht (by decide) (by simp only [readRequest, hc]))
  | hget =>
    obtain ⟨name, key, field, rfl⟩ := length_eq_three.1 (of_decide_eq_true harity)
    exact settles_of_read (by simp only [readRequest, hc]) (executeHget_meets hg name key field)
  | zscore =>
    obtain ⟨name, key, member, rfl⟩ := length_eq_three.1 (of_decide_eq_true harity)
    exact settles_of_read (by simp only [readRequest, hc]) (executeZscore_meets hg name key member)
  | hdel =>
    match arguments, harity with
    | name :: key :: field :: fields, _ =>
      exact settles_of_read (by simp only [readRequest, hc]) (executeHdel_meets hg hcharged henv name key (field :: fields))
  | zrem =>
    match arguments, harity with
    | name :: key :: member :: members, _ =>
      exact settles_of_read (by simp only [readRequest, hc]) (executeZrem_meets hg hcharged henv name key (member :: members))
  | info =>
    obtain ⟨name, part, rfl⟩ := length_eq_two.1 (of_decide_eq_true harity)
    have hserver : readRequest libc t [name, part] = .ok .server := by simp only [readRequest, hc]
    obtain ⟨reply, hr⟩ := executeInfo_answers s [name, part]
    rw [hr]
    exact Or.inl (server_meets hg hserver reply)
  | dbsize | lastsave =>
    obtain ⟨name, rfl⟩ := length_eq_one_iff.1 (of_decide_eq_true harity)
    exact Or.inl (server_meets hg (by simp only [readRequest, hc]) _)
  | save =>
    obtain ⟨name, rfl⟩ := length_eq_one_iff.1 (of_decide_eq_true harity)
    obtain ⟨reply, hr⟩ := executeSaveCommand_answers s false
    simp only [hr]
    exact Or.inl (server_meets hg (by simp only [readRequest, hc]) reply)
  | bgsave =>
    obtain ⟨name, rfl⟩ := length_eq_one_iff.1 (of_decide_eq_true harity)
    obtain ⟨reply, hr⟩ := executeSaveCommand_answers s true
    simp only [hr]
    exact Or.inl (server_meets hg (by simp only [readRequest, hc]) reply)

/-! ## Requests -/

/-- the result of a request is the outcome `o`, but for the evicted keys `gone`; those of them that the cache reported are
logged before the request's own record -/
structure Answers (hash : Hasher) (t : ℕ) (s s' : Service) (reply : Reply) (records : List Record)
    (gone reported : List Bytes) (o : Outcome) : Prop where
  becomes : Becomes hash t s.cache s'.cache gone o.keyspace
  frame : Frame s s'
  reply : o.replies reply
  evicted : s'.cache.evicted = s.cache.evicted ++ reported
  sub : reported.Sublist gone
  timeless : s.cache.Timeless → reported = gone
  records : records = if s.aof then reported.map delRecord ++ o.record.toList else []
  /-- the key that is recorded is not evicted -/
  keep : ∀ record, o.record = some record → argument record 1 ∉ gone
  /-- keys are evicted only for a request that is recorded -/
  quiet : o.record = none → gone = []

/-- a refused command is answered and changes nothing -/
theorem Answers.error (hg : Good hash t s.cache) {e : ServiceError} (h : readRequest libc t arguments = .error e) :
    Answers hash t s s (.error e) [] [] [] (reference libc t (s.cache.shown t) arguments) := by
  rw [reference_error h]
  refine ⟨.refl hg, .refl s, rfl, (append_nil _).symm, List.Sublist.refl _, fun _ => rfl, ?_, by simp, fun _ => rfl⟩
  simp [Outcome.reads]

/-- the outcomes of a request: that of the reference, and under a limit on memory the refusal -/
def Allowed (libc : Libc) (t : ℕ) (s : Service) (arguments : Record) (o : Outcome) : Prop :=
  o = reference libc t (s.cache.shown t) arguments ∨ s.cache.maxMemory ≠ 0 ∧ o = .refused (s.cache.shown t)

theorem executeCommand_settles (libc : Libc) (hg : Good hash t s.cache) (hcharged : s.cache.Charged) (henv : env.Healthy)
    (ht : t ≤ uint64Max) (hshort : (s.cache.shown t).Short) (hframed : Framed arguments) {e : Executed}
    (he : s.executeCommand hash libc env (findCommand (argument arguments 0)) arguments = e)
    (hoom : e.outOfMemory = false) :
    ∃ gone reported o, Allowed libc t s arguments o ∧ Answers hash t s e.service e.reply e.records gone reported o := by
  unfold executeCommand at he
  by_cases hknown : findCommand (argument arguments 0) = .unknown
  · rw [if_pos hknown] at he
    subst he
    exact ⟨[], [], _, Or.inl rfl, Answers.error hg (by unfold readRequest; rw [hknown])⟩
  rw [if_neg hknown] at he
  cases harity : commandArityValid (findCommand (argument arguments 0)) arguments.length with
  | false =>
    rw [harity, if_pos (by decide)] at he
    subst he
    exact ⟨[], [], _, Or.inl rfl, Answers.error hg (readRequest_arity hknown harity)⟩
  | true =>
    rw [harity, if_neg (by decide), henv.notFailed, if_neg (by simp)] at he
    have hsettles := dispatch_settles libc hg hcharged henv ht hshort hframed rfl hknown harity
    simp only at he
    generalize s.dispatch hash libc env (findCommand (argument arguments 0)) arguments = r at he hsettles
    subst he
    have hmeets : ∃ gone o, Allowed libc t s arguments o ∧ Refines hash t s r gone o := by
      rcases hsettles with hmeets | ⟨hlimit, hmeets⟩
      · obtain ⟨gone, hr⟩ := hmeets hoom
        exact ⟨gone, _, Or.inl rfl, hr⟩
      · obtain ⟨gone, hr⟩ := hmeets hoom
        exact ⟨gone, _, Or.inr ⟨hlimit, rfl⟩, hr⟩
    obtain ⟨gone, o, ho, hr⟩ := hmeets
    obtain ⟨reported, h1, h2, h3⟩ := hr.becomes.logged
    refine ⟨gone, reported, o, ho, hr.becomes, hr.frame, hr.reply, h1, h2, h3, ?_, hr.keep, hr.quiet⟩
    rw [evictionRecords_all henv.evicts, h1, hr.records, drop_left]
    split_ifs <;> rfl

theorem commit_healthy (henv : env.Healthy) (e : Executed) (mutation : Option Record) :
    s.commit env e none mutation = ⟨s, e.reply, e.records, none, e.outOfMemory, []⟩ := by
  unfold commit
  simp only [henv.commits, if_true]

/-- **A request of the reactor**, without MySQL, is one of the outcomes. -/
theorem executeWithBarrier_settles (hg : Good hash t s.cache) (hcharged : s.cache.Charged) (henv : env.Healthy)
    (ht : t ≤ uint64Max) (hshort : (s.cache.shown t).Short) (hframed : Framed arguments) (hmysql : s.mysql = none)
    (hr : s.executeWithBarrier hash libc env arguments = r) (hoom : r.outOfMemory = false) :
    ∃ gone reported o, Allowed libc t s arguments o ∧ Answers hash t s r.service r.reply r.records gone reported o := by
  unfold executeWithBarrier at hr
  simp only [hmysql, ite_self, Option.isSome_none, Bool.false_eq_true, false_and, if_false, Option.any_none, henv.begins,
    not_true_eq_false, and_false] at hr
  have hanswers := fun h => executeCommand_settles libc hg hcharged henv ht hshort hframed rfl h
  generalize s.executeCommand hash libc env (findCommand (argument arguments 0)) arguments = e at hr hanswers
  rw [commit_healthy henv, ite_self] at hr
  subst hr
  obtain ⟨gone, reported, o, ho, h⟩ := hanswers hoom
  refine ⟨gone, reported, o, ho, ?_⟩
  -- counting the change does not touch the cache
  split_ifs
  · exact ⟨h.becomes, ⟨h.frame.aof, h.frame.engine, h.frame.admin, h.frame.mysql⟩, h.reply, h.evicted, h.sub, h.timeless,
      h.records, h.keep, h.quiet⟩
  · exact h

/-- without a limit on memory the outcome is that of the reference -/
theorem executeWithBarrier_answers (hg : Good hash t s.cache) (hmem : s.cache.maxMemory = 0) (henv : env.Healthy)
    (ht : t ≤ uint64Max) (hshort : (s.cache.shown t).Short) (hframed : Framed arguments) (hmysql : s.mysql = none)
    (hr : s.executeWithBarrier hash libc env arguments = r) (hoom : r.outOfMemory = false) :
    ∃ gone reported, Answers hash t s r.service r.reply r.records gone reported
      (reference libc t (s.cache.shown t) arguments) := by
  obtain ⟨gone, reported, o, ho, h⟩ := executeWithBarrier_settles hg (fun hlimit => absurd hmem hlimit) henv ht hshort hframed
    hmysql hr hoom
  rw [ho.resolve_right fun hc => hc.1 hmem] at h
  exact ⟨gone, reported, h⟩

/-! ## What a request can be -/

theorem readScores_mem {pairs : List (Bytes × Bytes)} : ∀ {scores : List (Score × Bytes)}, readScores libc pairs = some scores →
    ∀ q ∈ scores, ∃ p ∈ pairs, q.2 = p.2 := by
  induction pairs with
  | nil =>
    intro scores h q hq
    cases h
    exact absurd hq not_mem_nil
  | cons pair pairs ih =>
    intro scores h q hq
    rw [readScores, Option.bind_eq_some_iff] at h
    obtain ⟨score, _, h⟩ := h
    obtain ⟨tail, ht, rfl⟩ := Option.map_eq_some_iff.1 h
    rcases mem_cons.1 hq with rfl | hq
    · exact ⟨pair, mem_cons_self, rfl⟩
    · obtain ⟨p, hp, he⟩ := ih ht q hq
      exact ⟨p, mem_cons_of_mem _ hp, he⟩

end Service

/-- the writes to collections -/
def Request.OfCollection : Request → Prop
  | .hset _ _ | .hdel _ _ | .zadd _ _ | .zrem _ _ => True
  | _ => False

/-- the parts of a write to a collection, at least one, are among the arguments -/
def Request.PartsIn (arguments : Record) : Request → Prop
  | .hset _ pairs => pairs ≠ [] ∧ ∀ p ∈ pairs, p.1 ∈ arguments ∧ p.2 ∈ arguments
  | .zadd _ pairs => pairs ≠ [] ∧ ∀ p ∈ pairs, p.2 ∈ arguments
  | _ => True

/-- the key a request is about -/
def Request.key : Request → Option Bytes
  | .set key _ _ | .get key | .del key | .expireAt key _ | .ttl key | .pttl key | .persist key | .hset key _ | .hget key _
  | .hdel key _ | .hlen key | .hgetall key | .zadd key _ | .zrem key _ | .zscore key _ | .zcard key | .zrange key _ _ _ => some key
  | .ping _ | .server => none

/-- a request that neither names a deadline nor writes to a collection -/
def Request.Plain : Request → Prop
  | .set _ _ (some _) | .expireAt _ _ | .hset _ _ | .hdel _ _ | .zadd _ _ | .zrem _ _ => False
  | _ => True

/-- what is known of a request that was read from `arguments` at time `t` -/
inductive Reads (libc : Libc) (t : ℕ) (arguments : Record) : Request → Prop
  | plain {request : Request} (h : request.Plain) : Reads libc t arguments request
  | set (key value : Bytes) (d : ℕ) (hd : t < d ∧ d ≤ uint64Max) : Reads libc t arguments (.set key value (some d))
  | expireAt (key : Bytes) (d : ℕ) (hd : t < d ∧ d ≤ uint64Max) : Reads libc t arguments (.expireAt key d)
  | collection {request : Request} (hc : request.OfCollection) (hparts : request.PartsIn arguments)
      (hany : ∀ T, readRequest libc T arguments = .ok request)
      (hcommand : findCommand (Service.argument arguments 0) ∈ [.hset, .hdel, .zadd, .zrem])
      (hkey : request.key = some (Service.argument arguments 1)) : Reads libc t arguments request

variable {arguments : Record}

/-- the parts of a request that writes to a collection -/
theorem Reads.of_collection {t : ℕ} {request : Request} (h : Reads libc t arguments request)
    (hc : request.OfCollection) : request.PartsIn arguments ∧ (∀ T, readRequest libc T arguments = .ok request) ∧
      findCommand (Service.argument arguments 0) ∈ [.hset, .hdel, .zadd, .zrem] ∧
      request.key = some (Service.argument arguments 1) := by
  cases h with
  | plain hplain => cases request <;> first | exact absurd hc id | exact absurd hplain id
  | set => exact absurd hc id
  | expireAt => exact absurd hc id
  | collection _ hparts hany hcommand hkey => exact ⟨hparts, hany, hcommand, hkey⟩

/-- a record and the request it logs -/
inductive Logs (arguments : Record) : Request → Record → Prop
  | set (key value : Bytes) (d : Option ℕ) : Logs arguments (.set key value d) (Service.setRecord key value (d.getD 0))
  | del (key : Bytes) : Logs arguments (.del key) (Service.delRecord key)
  | expireAt (key : Bytes) (d : ℕ) : Logs arguments (.expireAt key d) (Service.pexpireatRecord key d)
  | persist (key : Bytes) : Logs arguments (.persist key) (Service.persistRecord key)
  | original {request : Request} (h : request.OfCollection) : Logs arguments request arguments

/-- an outcome that says nothing but an error leaves everything alone -/
def Outcome.Reads (ks : Keyspace) (o : Outcome) : Prop := o.keyspace = ks ∧ o.record = none

/-- the deadline a request names -/
def Request.deadline : Request → Option ℕ
  | .set _ _ d => d
  | .expireAt _ d => some d
  | _ => none

variable {t unit d : ℕ}

theorem deadlineAfter_ok {n : ℤ} (hu : 0 < unit) (hn : ¬ n ≤ 0) (h : deadlineAfter t unit n = .ok d) :
    t < d ∧ d ≤ uint64Max := by
  unfold deadlineAfter at h
  split_ifs at h with hbig
  cases h
  have hcast : n * unit = ((n.toNat * unit : ℕ) : ℤ) := by
    rw [Nat.cast_mul, Int.toNat_of_nonneg (le_of_not_ge hn)]
  have hpos : 0 < n.toNat * unit := Nat.mul_pos (by omega) hu
  rw [hcast] at hbig
  generalize n.toNat * unit = ms at hbig hpos ⊢
  omega

variable {text : Bytes}

theorem readDuration_deadline (hu : 0 < unit) (h : readDuration t unit text = .ok d) :
    t < d ∧ d ≤ uint64Max := by
  unfold readDuration at h
  split at h
  · cases h
  · split_ifs at h with hn
    exact deadlineAfter_ok hu hn h

theorem readSetOption_deadline {name : Bytes} (h : readSetOption t name text = .ok d) :
    t < d ∧ d ≤ uint64Max := by
  unfold readSetOption at h
  split_ifs at h
  · exact readDuration_deadline (by decide) h
  · exact readDuration_deadline (by decide) h

theorem readExpire_reads (hu : 0 < unit) {key : Bytes} {request : Request}
    (h : readExpire t unit key text = .ok request) : Reads libc t arguments request := by
  unfold readExpire at h
  split at h
  · cases h
  · rename_i n _
    split_ifs at h with hn
    · cases h
      exact .plain trivial
    · cases hr : deadlineAfter t unit n with
      | error e =>
        rw [hr] at h
        cases h
      | ok d =>
        rw [hr] at h
        cases h
        exact .expireAt key d (deadlineAfter_ok hu hn hr)

theorem readRange_plain {key start stop : Bytes} {withScores : Bool} {request : Request}
    (h : readRange key start stop withScores = .ok request) : request.Plain := by
  unfold readRange at h
  split at h <;> cases h
  trivial

/-- **Every request** that is read is of one of these forms. -/
theorem readRequest_reads {request : Request}
    (h : readRequest libc t arguments = .ok request) : Reads libc t arguments request := by
  have hstart := h
  unfold readRequest at h
  split at h
  case h_3 =>
    rename_i option text _
    cases hr : readSetOption t option text with
    | error e =>
      rw [hr] at h
      cases h
    | ok d =>
      rw [hr] at h
      cases h
      exact .set _ _ d (readSetOption_deadline hr)
  case h_8 => exact readExpire_reads (by decide) h
  case h_9 => exact readExpire_reads (by decide) h
  case h_13 hc =>
    split_ifs at h with hrest
    cases h
    refine .collection trivial ⟨Service.pairsOf_ne_nil hrest.1, fun p hp => ?_⟩ (fun T => by rw [← hstart]; simp only [readRequest, hc])
      (by rw [hc]; decide) rfl
    obtain ⟨h1, h2⟩ := Service.pairsOf_mem hp
    exact ⟨mem_cons_of_mem _ (mem_cons_of_mem _ h1), mem_cons_of_mem _ (mem_cons_of_mem _ h2)⟩
  case h_15 hc =>
    cases h
    exact .collection trivial trivial (fun T => by rw [← hstart]; simp only [readRequest, hc])
      (by rw [hc]; decide) rfl
  case h_18 hc =>
    split_ifs at h with hrest
    split at h
    · cases h
    · rename_i hs
      cases h
      refine .collection trivial ⟨Service.readScores_ne_nil hs (Service.pairsOf_ne_nil hrest.1), fun q hq => ?_⟩
        (fun T => by rw [← hstart]; simp only [readRequest, hc])
        (by rw [hc]; decide) rfl
      obtain ⟨p, hp, he⟩ := Service.readScores_mem hs q hq
      rw [he]
      exact mem_cons_of_mem _ (mem_cons_of_mem _ (Service.pairsOf_mem hp).2)
  case h_19 hc =>
    cases h
    exact .collection trivial trivial (fun T => by rw [← hstart]; simp only [readRequest, hc])
      (by rw [hc]; decide) rfl
  case h_22 => exact .plain (readRange_plain h)
  case h_23 =>
    split at h
    · cases h
    · rename_i hr
      split_ifs at h
      cases h
      exact .plain (readRange_plain hr)
  all_goals cases h <;> exact .plain trivial

namespace Service

open Cache (Becomes Good)

variable {hash : Hasher} {libc : Libc} {t : ℕ} {env : Env} {s s' : Service} {arguments : Record}

/-! ## Frames bound what is stored -/

variable {M : Type} {ks : Keyspace}

theorem writePairs_keeps {W : Type} {next : M → W → M} {result : M → W → ZSet.SetResult} {P : M → Prop} (ws : List W)
    (hstep : ∀ m, ∀ w ∈ ws, P m → P (next m w)) : ∀ m, P m → P (writePairs next result m ws).map := by
  induction ws with
  | nil =>
    intro m hm
    exact hm
  | cons w ws ih =>
    intro m hm
    obtain ⟨hw, hws⟩ := forall_mem_cons.1 fun w hw m => hstep m w hw
    exact ih (fun m w hw' => hws w hw' m) _ (hw m hm)

theorem setFields_short {m : Bytes → Option Bytes} {pairs : List (Bytes × Bytes)} (hm : (Obj.hash m).Short)
    (hpairs : ∀ p ∈ pairs, p.1.length ≤ respMaxFrameSize ∧ p.2.length ≤ respMaxFrameSize) :
    (Obj.hash (setFields m pairs).map).Short := by
  refine writePairs_keeps (P := fun m => (Obj.hash m).Short) pairs (fun m p hp hm f v hv => ?_) m hm
  rw [update_apply] at hv
  split_ifs at hv with hf
  · cases hv
    rw [hf]
    exact hpairs p hp
  · exact hm f v hv

theorem addMembers_short {m : Bytes → Option Score} {pairs : List (Score × Bytes)} (hm : (Obj.zset m).Short)
    (hpairs : ∀ p ∈ pairs, p.2.length ≤ respMaxFrameSize) : (Obj.zset (addMembers m pairs).map).Short := by
  refine writePairs_keeps (P := fun m => (Obj.zset m).Short) pairs (fun m p hp hm => ?_) m hm
  have hupdate : (Obj.zset (update m p.2 (some p.1))).Short := by
    intro k score hk
    rw [update_apply] at hk
    split_ifs at hk with he
    · rw [he]
      exact hpairs p hp
    · exact hm k score hk
  show (Obj.zset (ZSet.addTo m p.1 p.2)).Short
  unfold ZSet.addTo
  split
  · split_ifs
    · exact hm
    · exact hupdate
  · exact hupdate

theorem removeItems_sub {V : Type} (items : List Bytes) :
    ∀ (m : Bytes → Option V) k v, (StoreSystem.removeItems m items).1 k = some v → m k = some v := by
  induction items with
  | nil =>
    intro m k v h
    exact h
  | cons item items ih =>
    intro m k v h
    have h := ih _ k v h
    rw [update_apply] at h
    split_ifs at h
    exact h

theorem Short.update (hks : ks.Short) (key : Bytes) {v : Option (Obj × Option ℕ)}
    (hv : ∀ o d, v = some (o, d) → o.Short) : Keyspace.Short (update ks key v) := by
  intro k o d hk
  rw [update_apply] at hk
  split_ifs at hk
  · exact hv o d hk
  · exact hks k o d hk

theorem Short.after (hks : ks.Short) (t : ℕ) : (ks.after t).Short := by
  intro k o d hk
  exact hks k o d (Option.mem_filter_iff.1 hk).1

/-- the parts of a request's collections are within a frame -/
def Request.Short : Request → Prop
  | .hset _ pairs => ∀ p ∈ pairs, p.1.length ≤ respMaxFrameSize ∧ p.2.length ≤ respMaxFrameSize
  | .zadd _ pairs => ∀ p ∈ pairs, p.2.length ≤ respMaxFrameSize
  | _ => True

theorem readRequest_short (hframed : Framed arguments) {request : Request} (h : readRequest libc t arguments = .ok request) :
    Request.Short request := by
  cases readRequest_reads h with
  | plain hplain => cases request <;> first | exact absurd hplain id | trivial
  | set key value d hd => trivial
  | expireAt key d hd => trivial
  | collection hc hparts =>
    cases request with
    | hset key pairs => exact fun p hp => ⟨hframed.short _ (hparts.2 p hp).1, hframed.short _ (hparts.2 p hp).2⟩
    | zadd key pairs => exact fun p hp => hframed.short _ (hparts.2 p hp)
    | hdel key fields => trivial
    | zrem key members => trivial
    | _ => exact absurd hc id

/-! ## What a request can do -/

/-- an outcome that puts `v` under the key of its request, and is recorded as `record` if it is -/
structure Puts (ks : Keyspace) (arguments : Record) (request : Request) (o : Outcome) (key : Bytes)
    (v : Option (Obj × Option ℕ)) (record : Record) : Prop where
  keyspace : o.keyspace = update ks key v
  recorded : o.record = none ∨ o.record = some record
  logs : Logs arguments request record
  reply : ∀ reply, o.replies reply → reply.isError = false
  deadline : ∀ obj d, v = some (obj, some d) → request.deadline = some d ∨ ∃ old, ks key = some (old, some d)
  short : ks.Short → Request.Short request → ∀ obj d, v = some (obj, d) → obj.Short

/-- a request reads or writes -/
def Does (ks : Keyspace) (arguments : Record) (request : Request) (o : Outcome) : Prop :=
  o.Reads ks ∨ ∃ key v record, Puts ks arguments request o key v record

theorem integer_not_error {n : ℤ} {reply : Reply} (h : reply = .integer n) : reply.isError = false := by
  rw [h]
  rfl

variable {read : Obj → Option M} {type : KvType}

theorem Kind.eq_wrap {wrap : M → Obj} (h : Kind read wrap type) {o : Obj} {m : M} (hm : read o = some m) : o = wrap m := by
  by_cases htype : o.type = type
  · obtain ⟨m', rfl⟩ := h.of_type o htype
    rw [h.read_wrap] at hm
    cases hm
    rfl
  · rw [h.other o htype] at hm
    cases hm

theorem answerWith_does {request : Request} {key : Bytes} {missing : Reply} {answer : M → Option ℕ → Outcome}
    (h : ∀ o m d, ks key = some (o, d) → read o = some m → Does ks arguments request (answer m d)) :
    Does ks arguments request (answerWith ks key read missing answer) := by
  unfold answerWith
  split
  · exact Or.inl ⟨rfl, rfl⟩
  · rename_i o d hk
    split
    · exact Or.inl ⟨rfl, rfl⟩
    · rename_i m hm
      exact h o m d hk hm

theorem updateWith_does {request : Request} (hc : request.OfCollection) {key : Bytes} {wrap : M → Obj} (hkind : Kind read wrap type)
    {empty : M} (hempty : (wrap empty).Short) {write : M → Written M}
    (hwrite : Request.Short request → ∀ m, (wrap m).Short → (wrap (write m).map).Short) :
    Does ks arguments request (updateWith ks key read wrap empty write arguments) := by
  have hstore : ∀ m d, (∀ d', d = some d' → ∃ old, ks key = some (old, some d')) → (ks.Short → (wrap m).Short) →
      Puts ks arguments request ⟨update ks key (some (wrap (write m).map, d)), (· = .integer (write m).added),
        if (write m).changed then some arguments else none⟩ key (some (wrap (write m).map, d)) arguments := by
    intro m d hd hm
    refine ⟨rfl, ?_, .original hc, fun _ => integer_not_error, fun obj d' hv => ?_, fun hks hr obj d' hv => ?_⟩
    · simp only
      split_ifs
      · exact Or.inr rfl
      · exact Or.inl rfl
    · cases hv
      exact Or.inr (hd d' rfl)
    · cases hv
      exact hwrite hr m (hm hks)
  unfold updateWith
  cases hk : ks key with
  | none => exact Or.inr ⟨_, _, _, hstore empty none (fun _ h => by cases h) fun _ => hempty⟩
  | some v =>
    obtain ⟨o, d⟩ := v
    simp only
    cases hm : read o with
    | none => exact Or.inl ⟨rfl, rfl⟩
    | some m =>
      refine Or.inr ⟨_, _, _, hstore m d (fun d' hd => ⟨o, hd ▸ hk⟩) fun hks => ?_⟩
      exact hkind.eq_wrap hm ▸ hks key o d hk

theorem removeWith_does {V : Type} {request : Request} (hc : request.OfCollection) {key : Bytes}
    {read : Obj → Option (Bytes → Option V)} {wrap : (Bytes → Option V) → Obj} (hkind : Kind read wrap type)
    {items : List Bytes} (hsub : ∀ m m' : Bytes → Option V, (∀ k v, m' k = some v → m k = some v) → (wrap m).Short → (wrap m').Short) :
    Does ks arguments request (removeWith ks key read wrap items arguments) := by
  refine answerWith_does fun o m d hk hm => ?_
  simp only
  split_ifs
  · exact Or.inl ⟨rfl, rfl⟩
  · exact Or.inr ⟨key, none, arguments, rfl, Or.inr rfl, .original hc, fun _ => integer_not_error, (fun _ _ h => by cases h),
      fun _ _ _ _ h => by cases h⟩
  · refine Or.inr ⟨key, _, arguments, rfl, Or.inr rfl, .original hc, fun _ => integer_not_error, fun obj d' hv => ?_,
      fun hks _ obj d' hv => ?_⟩
    · cases hv
      exact Or.inr ⟨o, hk⟩
    · cases hv
      exact hsub m _ (removeItems_sub items m) (hkind.eq_wrap hm ▸ hks key o d hk)

/-- **What a request can do**: it reads, or it writes one value under its key. -/
theorem perform_does (libc : Libc) (t : ℕ) (ks : Keyspace) (arguments : Record) (request : Request) :
    Does ks arguments request (perform libc t ks arguments request) := by
  have hreads : ∀ {replies : Reply → Prop}, Does ks arguments request (.reads ks replies) := Or.inl ⟨rfl, rfl⟩
  cases request with
  | set key value d =>
    refine Or.inr ⟨key, _, _, rfl, Or.inr rfl, .set key value d, fun reply h => ?_, fun obj d' hv => ?_, fun _ _ obj d' hv => ?_⟩
    · rw [show reply = .simple "OK" from h]
      rfl
    · cases hv
      exact Or.inl rfl
    · cases hv
      trivial
  | del key =>
    simp only [perform]
    split
    · exact hreads
    · exact Or.inr ⟨key, none, _, rfl, Or.inr rfl, .del key, fun _ => integer_not_error, (fun _ _ h => by cases h),
        fun _ _ _ _ h => by cases h⟩
  | expireAt key d =>
    simp only [perform]
    split
    · exact hreads
    · rename_i o d' hk
      refine Or.inr ⟨key, _, _, rfl, Or.inr rfl, .expireAt key d, fun _ => integer_not_error, fun obj d'' hv => ?_,
        fun hks _ obj d'' hv => ?_⟩
      · cases hv
        exact Or.inl rfl
      · cases hv
        exact hks key o d' hk
  | persist key =>
    simp only [perform]
    split
    · rename_i o d hk
      refine Or.inr ⟨key, _, _, rfl, Or.inr rfl, .persist key, fun _ => integer_not_error, (fun _ _ h => by cases h),
        fun hks _ obj d' hv => ?_⟩
      cases hv
      exact hks key o _ hk
    · exact hreads
  | hset key pairs =>
    exact updateWith_does (by trivial) hash_kind (fun _ _ h => absurd h (by simp)) fun hr m hm => setFields_short hm hr
  | zadd key pairs =>
    exact updateWith_does (by trivial) zset_kind (fun _ _ h => absurd h (by simp)) fun hr m hm => addMembers_short hm hr
  | hdel key fields => exact removeWith_does (by trivial) hash_kind fun m m' hsub hm f v h => hm f v (hsub f v h)
  | zrem key members => exact removeWith_does (by trivial) zset_kind fun m m' hsub hm k score h => hm k score (hsub k score h)
  | ping message => cases message <;> exact hreads
  | ttl key | pttl key =>
    simp only [perform]
    split <;> exact hreads
  | server => exact hreads
  | _ => exact answerWith_does fun _ _ _ _ _ => hreads

/-- **What is logged**: the record of an outcome is the record of its request. -/
theorem logs_of_record {record : Record} {request : Request} (h : (perform libc t ks arguments request).record = some record) :
    Logs arguments request record := by
  rcases perform_does libc t ks arguments request with ⟨_, hnone⟩ | ⟨key, v, record', hw⟩
  · rw [hnone] at h
    cases h
  · rcases hw.recorded with hr | hr <;> rw [hr] at h <;> cases h
    exact hw.logs

theorem perform_short (hks : ks.Short) {request : Request} (hr : Request.Short request) :
    (perform libc t ks arguments request).keyspace.Short := by
  rcases perform_does libc t ks arguments request with ⟨hsame, _⟩ | ⟨key, v, record, hw⟩
  · rwa [hsame]
  · rw [hw.keyspace]
    exact Short.update hks key (hw.short hks hr)

/-- a client's request leaves every stored part within a frame -/
theorem reference_short (hks : ks.Short) (hframed : Framed arguments) : (reference libc t ks arguments).keyspace.Short := by
  unfold reference
  split
  · exact hks
  · rename_i request hr
    exact perform_short hks (readRequest_short hframed hr)

/-! ## Runs -/

variable {maxKeys : ℕ} {aof : Bool}

/-- what happens to a service: a request or the upkeep of the reactor's timer, at a time of the clock -/
inductive Event
  | request (now : UInt64) (env : Env) (arguments : Record)
  | maintain (now : UInt64)

def Event.now : Event → ℕ
  | .request now _ _ => now.toNat
  | .maintain now => now.toNat

/-- a request comes in a frame and the AOF takes its record -/
def Event.FromClient : Event → Prop
  | .request _ env arguments => Framed arguments ∧ env.Healthy
  | .maintain _ => True

/-- one event; the clock stands still during it -/
def step (hash : Hasher) (libc : Libc) (s : Service) : Event → Service × Option Response
  | .request now env arguments =>
    let r := (s.setClock fun _ => now.toNat).executeWithBarrier hash libc env arguments
    (r.service, some r)
  | .maintain now => ((s.setClock fun _ => now.toNat).maintain, none)

/-- the service after some events -/
def run (hash : Hasher) (libc : Libc) (s : Service) (events : List Event) : Service :=
  events.foldl (fun s e => (s.step hash libc e).1) s

/-- the responses to the requests among some events -/
def responses (hash : Hasher) (libc : Libc) : Service → List Event → List Response
  | _, [] => []
  | s, e :: events => (s.step hash libc e).2.toList ++ responses hash libc (s.step hash libc e).1 events

/-- the reference keyspace after some events -/
noncomputable def keyspaceAfter (libc : Libc) (ks : Keyspace) (events : List Event) : Keyspace :=
  events.foldl (fun ks e => match e with
    | .request now _ arguments => (reference libc now.toNat (ks.after now.toNat) arguments).keyspace
    | .maintain _ => ks) ks

theorem responses_append (s : Service) (a b : List Event) :
    responses hash libc s (a ++ b) = responses hash libc s a ++ responses hash libc (run hash libc s a) b := by
  induction a generalizing s with
  | nil => rfl
  | cons e a ih => rw [cons_append, responses, responses, ih, append_assoc]; rfl

/-- the service at time `t` shows the reference keyspace; it has no MySQL and keeps the limits it was made with -/
structure Serves (hash : Hasher) (t maxKeys : ℕ) (aof : Bool) (s : Service) (ks : Keyspace) : Prop where
  core : Cache.Core hash s.cache
  within : s.cache.Within
  sound : s.cache.Sound hash
  maxKeys : s.cache.maxKeys = maxKeys
  maxMemory : s.cache.maxMemory = 0
  aof : s.aof = aof
  mysql : s.mysql = none
  shown : s.cache.shown t = ks.after t
  short : ks.Short

/-- time passes -/
theorem Serves.good (h : Serves hash t maxKeys aof s ks) (now : ℕ) :
    Good hash now (s.setClock fun _ => now).cache :=
  ⟨{ h.core with }, ⟨h.within.keys, h.within.memory⟩, h.sound, fun _ => rfl⟩

theorem Serves.shown_at (h : Serves hash t maxKeys aof s ks) {now : ℕ}
    (hle : t ≤ now) : (s.setClock fun _ => now).cache.shown now = ks.after now := by
  have hsame : (s.setClock fun _ => now).cache.shown now = s.cache.shown now := rfl
  rw [hsame, Cache.shown_later s.cache hle, h.shown, Keyspace.after_after ks hle]

/-- the invariant after a step of the cache that evicts nothing -/
theorem Serves.next {now : ℕ} {ks' : Keyspace} (h : Serves hash t maxKeys aof s ks)
    (hb : Becomes hash now (s.setClock fun _ => now).cache s'.cache [] ks') (hf : Frame (s.setClock fun _ => now) s')
    (hshort : ks'.Short) : Serves hash now maxKeys aof s' ks' := by
  refine ⟨hb.good.core, hb.good.within, hb.good.sound, hb.limits.1.trans h.maxKeys, hb.limits.2.trans h.maxMemory,
    hf.aof.trans h.aof, hf.mysql.trans h.mysql, ?_, hshort⟩
  rw [← hb.shown_eq, Cache.shown, Keyspace.after_after _ le_rfl]

theorem toNat_le_uint64Max (now : UInt64) : now.toNat ≤ uint64Max := by
  have := now.toNat_lt
  unfold uint64Max
  omega

/-- **A request** in a run without limits: the reply and the records of the reference, and the invariant goes on. -/
theorem Serves.request (h : Serves hash t 0 aof s ks) {now : UInt64} (hle : t ≤ now.toNat)
    (hclient : (Event.request now env arguments).FromClient)
    (hr : (s.setClock fun _ => now.toNat).executeWithBarrier hash libc env arguments = r) (hoom : r.outOfMemory = false) :
    Serves hash now.toNat 0 aof r.service (reference libc now.toNat (ks.after now.toNat) arguments).keyspace ∧
      (reference libc now.toNat (ks.after now.toNat) arguments).replies r.reply ∧
      r.records = if aof then (reference libc now.toNat (ks.after now.toNat) arguments).record.toList else [] := by
  have hshown := h.shown_at hle
  have hshort : (ks.after now.toNat).Short := Short.after h.short _
  obtain ⟨gone, reported, ha⟩ := executeWithBarrier_answers (h.good now.toNat) h.maxMemory hclient.2 (toNat_le_uint64Max now)
    (by rw [hshown]; exact hshort) hclient.1 h.mysql hr hoom
  rw [hshown] at ha
  have hgone : gone = [] := ha.becomes.unlimited h.maxKeys h.maxMemory
  subst hgone
  refine ⟨h.next ha.becomes ha.frame (reference_short hshort hclient.1), ha.reply, ?_⟩
  rw [ha.records, sublist_nil.1 ha.sub, map_nil, nil_append]
  exact if_congr (by rw [show (s.setClock fun _ => now.toNat).aof = s.aof from rfl, h.aof]) rfl rfl

theorem Serves.maintain (h : Serves hash t maxKeys aof s ks) {now : ℕ}
    (hle : t ≤ now) : Serves hash now maxKeys aof ((s.setClock fun _ => now).maintain) ks := by
  have hb := Cache.cacheMaintain_becomes (h.good now) 64 16
  rw [h.shown_at hle] at hb
  have hnext : Serves hash now maxKeys aof ((s.setClock fun _ => now).maintain) (ks.after now) :=
    h.next hb ⟨rfl, rfl, rfl, rfl⟩ (Short.after h.short _)
  exact { hnext with
    shown := by rw [hnext.shown, Keyspace.after_after _ le_rfl]
    short := h.short }

theorem serves_init (hash : Hasher) (engine : ZsetEngine) (admin : Admin) (maxKeys : ℕ) (aof : Bool) (nowMs : ℕ → ℕ) :
    Serves hash 0 maxKeys aof { init maxKeys 0 engine admin nowMs with aof := aof } Keyspace.empty := by
  have hempty : (Cache.cacheCreate maxKeys 0 nowMs).shown 0 = Keyspace.empty := by
    funext key
    rw [Cache.shown, Keyspace.after, lift, Cache.keyspace]
    rw [show KvHash.lookup (Cache.cacheCreate maxKeys 0 nowMs).index key = none from congrFun KvHash.lookup_create key]
    rfl
  refine ⟨Cache.core_create hash maxKeys 0 nowMs, Cache.within_create maxKeys 0 nowMs, ?_, rfl, rfl, rfl, rfl, hempty, ?_⟩
  · intro id hid
    have hid : id ∈ (Cache.cacheCreate maxKeys 0 nowMs).ids := hid
    rw [Cache.ids_create] at hid
    exact absurd hid not_mem_nil
  · intro k o d h
    exact absurd h (by simp [Keyspace.empty])

/-- one event of a run without limits -/
theorem Serves.step (h : Serves hash t 0 aof s ks) {e : Event} (hle : t ≤ e.now)
    (hclient : e.FromClient) (hoom : ∀ r ∈ (s.step hash libc e).2.toList, r.outOfMemory = false) :
    Serves hash e.now 0 aof (s.step hash libc e).1 (keyspaceAfter libc ks [e]) := by
  cases e with
  | request now env arguments => exact (h.request hle hclient rfl (hoom _ (mem_singleton_self _))).1
  | maintain now => exact h.maintain hle

/-- **The run**: the service shows the reference keyspace after every sequence of events. -/
theorem Serves.run (events : List Event) : ∀ {t : ℕ} {s : Service} {ks : Keyspace}, Serves hash t 0 aof s ks →
    (∀ e ∈ events, t ≤ e.now) → events.Pairwise (fun a b => a.now ≤ b.now) → (∀ e ∈ events, e.FromClient) →
    (∀ r ∈ responses hash libc s events, r.outOfMemory = false) →
    ∃ t', (∀ bound, t ≤ bound → (∀ e ∈ events, e.now ≤ bound) → t' ≤ bound) ∧
      Serves hash t' 0 aof (Service.run hash libc s events) (keyspaceAfter libc ks events) := by
  induction events with
  | nil =>
    intro t s ks h _ _ _ _
    exact ⟨t, fun bound hb _ => hb, h⟩
  | cons e events ih =>
    intro t s ks h hfirst hclock hclient hoom
    obtain ⟨he, hevents⟩ := forall_mem_cons.1 hclient
    obtain ⟨hlater, hclock⟩ := pairwise_cons.1 hclock
    rw [responses, forall_mem_append] at hoom
    have hstep := h.step (hfirst e mem_cons_self) he hoom.1
    obtain ⟨t', hle, hrun⟩ := ih hstep hlater hclock hevents hoom.2
    refine ⟨t', fun bound _ hb => ?_, hrun⟩
    obtain ⟨hb1, hb2⟩ := forall_mem_cons.1 hb
    exact hle bound hb1 hb2

end Service

end StoreSystem
