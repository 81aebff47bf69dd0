/-
The loads of the MySQL store (`src/storage/mysql_store.c`): `mysql_store_submit_load`, the reader threads (`reader_main`) and
`mysql_store_take_load_results`.

Requests for a key that is being loaded join the job of that load. A job is in the in-flight list from its submission until its
result is published, and in the queue until a reader takes it. An action is a locked region, or an unlocked access to what
another thread can change: a reader reads the job's list of waiters without the lock, and removes the job from the in-flight
list later, under the lock. An action of a thread that is elsewhere does nothing, so every list of actions is an interleaving.

- `Inv.step`: every accepted waiter is in one place, except those that joined a job after its reader had read the list.
- `loads_delivered`: at rest every accepted waiter was delivered exactly once, if and only if no request joined so late.
- `joined_too_late`: such a request, accepted and never answered.

Premises: results are allocated and the store is not closed. Statistics and reconnections are left out; `outcome` stands for
what `load_object` returned.
-/
import StoreSystem.Service.Command

namespace StoreSystem.Loader

open List Function

variable {W R : Type}

/-! ## Model -/

/-- `mysql_load_job_t` -/
structure Job (W : Type) where
  key : Bytes
  waiters : List W

/-- a job with one more waiter -/
def Job.join (job : Job W) (waiter : W) : Job W := { job with waiters := waiter :: job.waiters }

/-- `mysql_store_load_result_t` -/
structure LoadResult (W R : Type) where
  outcome : R
  waiters : List W

/-- where a reader thread is -/
inductive Reader (W R : Type) where
  | idle
  /-- before `load_object` -/
  | taken (job : ℕ)
  /-- before the list of waiters is read; without a result that was not allocated -/
  | loaded (job : ℕ) (outcome : Option R)
  /-- before the job is removed and its result published -/
  | read (job : ℕ) (result : LoadResult W R)

/-- `struct mysql_store`, the part of the loads. `jobs` is the memory of the jobs; the last two fields are history. -/
structure Store (W R : Type) where
  jobs : ℕ → Job W
  nextJob : ℕ
  inflight : List ℕ
  queue : List ℕ
  pendingReads : ℕ
  readQueueLimit : ℕ
  completed : List (LoadResult W R)
  readers : List (Reader W R)
  /-- the lists that `mysql_store_take_load_results` returned -/
  delivered : List (List (LoadResult W R))
  /-- the waiters that `mysql_store_submit_load` accepted -/
  accepted : List W

def mysqlStoreOpen (readWorkers readQueueLimit : ℕ) : Store W R where
  jobs := fun _ => ⟨[], []⟩
  nextJob := 0
  inflight := []
  queue := []
  pendingReads := 0
  readQueueLimit := readQueueLimit
  completed := []
  readers := List.replicate readWorkers .idle
  delivered := []
  accepted := []

inductive Action (W R : Type) where
  | submit (waiterAllocated jobAllocated : Bool) (key : Bytes) (waiter : W)
  | dequeue (reader : ℕ)
  | load (reader : ℕ) (outcome : Option R)
  | readWaiters (reader : ℕ)
  | publish (reader : ℕ)
  | take

namespace Store

variable (s : Store W R)

variable (key : Bytes) (reader : ℕ)

/-- the job in flight for a key -/
def findInflight : Option ℕ := s.inflight.find? fun job => (s.jobs job).key = key

def joinJob (job : ℕ) (waiter : W) : Store W R :=
  { s with
    jobs := update s.jobs job ((s.jobs job).join waiter)
    accepted := s.accepted ++ [waiter] }

def addJob (waiter : W) : Store W R :=
  { s with
    jobs := update s.jobs s.nextJob ⟨key, [waiter]⟩
    nextJob := s.nextJob + 1
    inflight := s.nextJob :: s.inflight
    queue := s.queue ++ [s.nextJob]
    pendingReads := s.pendingReads + 1
    accepted := s.accepted ++ [waiter] }

def mysqlStoreSubmitLoad (waiterAllocated jobAllocated : Bool) (key : Bytes) (waiter : W) : Store W R × ℤ :=
  if waiterAllocated = false then (s, -1)
  else
    match s.findInflight key with
    | some job => (s.joinJob job waiter, 0)
    | none =>
      if s.pendingReads ≥ s.readQueueLimit then (s, -1)
      else if jobAllocated = false then (s, -1)
      else (s.addJob key waiter, 1)

/-- the locked region at the start of a round of `reader_main` -/
def dequeue : Store W R :=
  match s.readers[reader]?, s.queue with
  | some .idle, job :: rest => { s with queue := rest, readers := s.readers.set reader (.taken job) }
  | _, _ => s

def loadObject (outcome : Option R) : Store W R :=
  match s.readers[reader]? with
  | some (.taken job) => { s with readers := s.readers.set reader (.loaded job outcome) }
  | _ => s

/-- `result->waiters = job->waiters`, without the lock -/
def readWaiters : Store W R :=
  match s.readers[reader]? with
  | some (.loaded job (some outcome)) => { s with readers := s.readers.set reader (.read job ⟨outcome, (s.jobs job).waiters⟩) }
  | _ => s

/-- the locked region at the end of a round; without a result the waiters are destroyed -/
def publish : Store W R :=
  match s.readers[reader]? with
  | some (.read job result) =>
    { s with
      inflight := s.inflight.erase job
      pendingReads := s.pendingReads - 1
      completed := s.completed ++ [result]
      readers := s.readers.set reader .idle }
  | some (.loaded job none) =>
    { s with inflight := s.inflight.erase job, pendingReads := s.pendingReads - 1, readers := s.readers.set reader .idle }
  | _ => s

def mysqlStoreTakeLoadResults : Store W R × List (LoadResult W R) :=
  ({ s with completed := [], delivered := s.delivered ++ [s.completed] }, s.completed)

def step : Action W R → Store W R
  | .submit waiterAllocated jobAllocated key waiter => (s.mysqlStoreSubmitLoad waiterAllocated jobAllocated key waiter).1
  | .dequeue reader => s.dequeue reader
  | .load reader outcome => s.loadObject reader outcome
  | .readWaiters reader => s.readWaiters reader
  | .publish reader => s.publish reader
  | .take => s.mysqlStoreTakeLoadResults.1

def run (actions : List (Action W R)) : Store W R := actions.foldl step s

/-- nothing is queued, loading or waiting to be taken -/
def AtRest : Prop := s.queue = [] ∧ (∀ reader ∈ s.readers, reader = .idle) ∧ s.completed = []

/-- the waiters that were delivered -/
def answered : List W := s.delivered.flatten.flatMap LoadResult.waiters

end Store

def Reader.HasRead (job : ℕ) : Reader W R → Bool
  | .read job' _ => job' = job
  | _ => false

/-- a request joins a job whose waiters have been read -/
def Store.JoinsLate (s : Store W R) : Action W R → Bool
  | .submit waiterAllocated _ key _ =>
    waiterAllocated && (s.findInflight key).any fun job => s.readers.any (Reader.HasRead job)
  | _ => false

/-- no step of a run does -/
def Store.NeverLate : Store W R → List (Action W R) → Bool
  | _, [] => true
  | s, action :: actions => !s.JoinsLate action && Store.NeverLate (s.step action) actions

/-- the result of a load is allocated -/
def Action.Allocated : Action W R → Bool
  | .load _ outcome => outcome.isSome
  | _ => true

/-- a step of the reader threads, or of the reactor that takes their results -/
def Action.Drains : Action W R → Bool
  | .submit _ _ _ _ => false
  | action => action.Allocated

/-! ## Where a waiter is -/

def Reader.job? : Reader W R → Option ℕ
  | .idle => none
  | .taken job => some job
  | .loaded job _ => some job
  | .read job _ => some job

/-- the waiters a reader is going to publish, if nobody joins its job -/
def Reader.owes (jobs : ℕ → Job W) : Reader W R → List W
  | .idle => []
  | .taken job => (jobs job).waiters
  | .loaded job _ => (jobs job).waiters
  | .read _ result => result.waiters

namespace Store

variable (s : Store W R)

def busy : List ℕ := s.readers.filterMap Reader.job?

def queued : List W := s.queue.flatMap fun job => (s.jobs job).waiters

def loading : List W := s.readers.flatMap (Reader.owes s.jobs)

def published : List W := s.completed.flatMap LoadResult.waiters

/-- every job in flight is in one place, and so is every accepted waiter, the `missed` ones apart -/
structure Inv (s : Store W R) (missed : List W) : Prop where
  nodup : s.inflight.Nodup
  held : s.inflight.Perm (s.queue ++ s.busy)
  fresh : ∀ job ∈ s.inflight, job < s.nextJob
  allocated : ∀ reader ∈ s.readers, ∀ job, reader ≠ .loaded job none
  waiters : s.accepted.Perm (s.answered ++ s.published ++ s.loading ++ s.queued ++ missed)

end Store

theorem set_split {α : Type} {l : List α} {i : ℕ} {x : α} (h : l[i]? = some x) :
    ∃ before after, l = before ++ x :: after ∧ ∀ y, l.set i y = before ++ y :: after := by
  obtain ⟨hlt, rfl⟩ := List.getElem?_eq_some_iff.mp h
  refine ⟨l.take i, l.drop (i + 1), ?_, fun y => ?_⟩
  · rw [← drop_eq_getElem_cons hlt, take_append_drop]
  · exact set_eq_take_append_cons_drop.trans (if_pos hlt)

variable {job : ℕ} {jobs : ℕ → Job W} {readers : List (Reader W R)}

variable {new : Job W}

/-- the waiters of a job change nothing for the jobs that are elsewhere -/
theorem flatMap_update_of_notMem {l : List ℕ} (h : job ∉ l) :
    (l.flatMap fun j => (update jobs job new j).waiters) = l.flatMap fun j => (jobs j).waiters := by
  apply flatMap_congr
  intro j hj
  have hne : j ≠ job := fun heq => h (heq ▸ hj)
  rw [update_of_ne hne]

theorem owes_update_of_ne {reader : Reader W R} (h : reader.job? ≠ some job) :
    reader.owes (update jobs job new) = reader.owes jobs := by
  cases reader with
  | idle => rfl
  | taken j | loaded j outcome => simp [Reader.owes, update_of_ne (fun heq : j = job => h (by simp [Reader.job?, heq]))]
  | read j result => rfl

theorem loading_update_of_notMem (h : job ∉ readers.filterMap Reader.job?) :
    readers.flatMap (Reader.owes (update jobs job new)) = readers.flatMap (Reader.owes jobs) := by
  apply flatMap_congr
  intro reader hreader
  exact owes_update_of_ne fun hjob => h (mem_filterMap.mpr ⟨reader, hreader, hjob⟩)

theorem flatMap_joined {l : List ℕ} (waiter : W) (hnodup : l.Nodup) (hmem : job ∈ l) :
    (l.flatMap fun j => (update jobs job ((jobs job).join waiter) j).waiters).Perm
      (waiter :: l.flatMap fun j => (jobs j).waiters) := by
  obtain ⟨before, after, rfl⟩ := append_of_mem hmem
  have hbefore : job ∉ before := fun h => (nodup_append.mp hnodup).2.2 job h job (mem_cons_self ..) rfl
  have hafter : job ∉ after := (nodup_cons.mp (nodup_append.mp hnodup).2.1).1
  simp only [flatMap_append, flatMap_cons, flatMap_update_of_notMem hbefore, flatMap_update_of_notMem hafter,
    update_self, Job.join]
  exact perm_middle

theorem any_hasRead_of_notMem (h : job ∉ readers.filterMap Reader.job?) :
    readers.any (Reader.HasRead job) = false := by
  rw [any_eq_false]
  intro reader hreader hread
  apply h
  refine mem_filterMap.mpr ⟨reader, hreader, ?_⟩
  cases reader <;> simp_all [Reader.HasRead, Reader.job?]

/-- a waiter that joins the job of a reader is owed by the reader, unless it has read the list -/
theorem loading_joined (waiter : W)
    (hnodup : (readers.filterMap Reader.job?).Nodup) (hmem : job ∈ readers.filterMap Reader.job?) :
    (readers.flatMap (Reader.owes (update jobs job ((jobs job).join waiter)))).Perm
      ((if readers.any (Reader.HasRead job) then [] else [waiter]) ++ readers.flatMap (Reader.owes jobs)) := by
  obtain ⟨reader, hreader, hjob⟩ := mem_filterMap.mp hmem
  obtain ⟨before, after, rfl⟩ := append_of_mem hreader
  simp only [filterMap_append, filterMap_cons, hjob] at hnodup
  have hbefore : job ∉ before.filterMap Reader.job? :=
    fun h => (nodup_append.mp hnodup).2.2 job h job (mem_cons_self ..) rfl
  have hafter : job ∉ after.filterMap Reader.job? := (nodup_cons.mp (nodup_append.mp hnodup).2.1).1
  -- the other readers work on other jobs
  have hothers : (before ++ reader :: after).any (Reader.HasRead job) = reader.HasRead job := by
    rw [any_append, any_cons, any_hasRead_of_notMem hbefore, any_hasRead_of_notMem hafter, Bool.false_or,
      Bool.or_false]
  rw [hothers]
  simp only [flatMap_append, flatMap_cons, loading_update_of_notMem hbefore, loading_update_of_notMem hafter]
  cases reader with
  | idle => simp [Reader.job?] at hjob
  | taken j | loaded j outcome =>
    obtain rfl : j = job := by simpa [Reader.job?] using hjob
    simp only [Reader.owes, Reader.HasRead, update_self, Job.join]
    exact perm_middle
  | read j result =>
    obtain rfl : j = job := by simpa [Reader.job?] using hjob
    simp [Reader.owes, Reader.HasRead]

namespace Store

variable {s : Store W R} {missed : List W}

theorem Inv.disjoint (h : s.Inv missed) : (s.queue ++ s.busy).Nodup := h.held.nodup_iff.mp h.nodup

/-! ## One step -/

theorem Inv.addJob (h : s.Inv missed) (key : Bytes) (waiter : W) : (s.addJob key waiter).Inv missed := by
  have hnew : s.nextJob ∉ s.inflight := fun hmem => Nat.lt_irrefl _ (h.fresh _ hmem)
  have helsewhere : s.nextJob ∉ s.queue ++ s.busy := fun hmem => hnew (h.held.mem_iff.mpr hmem)
  rw [mem_append, not_or] at helsewhere
  refine ⟨nodup_cons.mpr ⟨hnew, h.nodup⟩, ?_, ?_, h.allocated, ?_⟩
  · show (s.nextJob :: s.inflight).Perm ((s.queue ++ [s.nextJob]) ++ s.busy)
    rw [append_assoc]
    exact (h.held.cons _).trans perm_middle.symm
  · intro job hjob
    rcases mem_cons.mp hjob with rfl | hjob
    · exact Nat.lt_succ_self _
    · exact Nat.lt_succ_of_lt (h.fresh job hjob)
  · have hloading : (s.addJob key waiter).loading = s.loading := loading_update_of_notMem helsewhere.2
    have hqueued : (s.addJob key waiter).queued = s.queued ++ [waiter] := by
      show ((s.queue ++ [s.nextJob]).flatMap fun job => (update s.jobs s.nextJob ⟨key, [waiter]⟩ job).waiters) = _
      rw [flatMap_append, flatMap_update_of_notMem helsewhere.1]
      simp [queued]
    rw [hloading, hqueued]
    show (s.accepted ++ [waiter]).Perm (s.answered ++ s.published ++ s.loading ++ (s.queued ++ [waiter]) ++ missed)
    refine (h.waiters.append_right [waiter]).trans ?_
    simp only [append_assoc]
    refine List.Perm.append_left _ (List.Perm.append_left _ (List.Perm.append_left _ (List.Perm.append_left _ ?_)))
    exact perm_append_comm

/-- a waiter that joins a job is in its reader's or the queue's share, unless it is late -/
theorem Inv.joinJob (h : s.Inv missed) (hjob : job ∈ s.inflight) (waiter : W) :
    (s.joinJob job waiter).Inv (missed ++ if s.readers.any (Reader.HasRead job) then [waiter] else []) := by
  refine ⟨h.nodup, h.held, h.fresh, h.allocated, ?_⟩
  have hdisjoint := nodup_append.mp h.disjoint
  show (s.accepted ++ [waiter]).Perm (s.answered ++ s.published ++ (s.joinJob job waiter).loading ++
    (s.joinJob job waiter).queued ++ _)
  refine (h.waiters.append_right [waiter]).trans ?_
  rcases mem_append.mp (h.held.mem_iff.mp hjob) with hqueue | hbusy
  · have hnot : job ∉ s.busy := fun hbusy => hdisjoint.2.2 job hqueue job hbusy rfl
    have hunread : s.readers.any (Reader.HasRead job) = false := any_hasRead_of_notMem hnot
    have hloading : (s.joinJob job waiter).loading = s.loading := loading_update_of_notMem hnot
    have hqueued : (s.joinJob job waiter).queued.Perm (waiter :: s.queued) := flatMap_joined waiter hdisjoint.1 hqueue
    rw [hunread, hloading]
    simp only [append_assoc, Bool.false_eq_true, if_false, append_nil]
    refine List.Perm.append_left _ (List.Perm.append_left _ (List.Perm.append_left _ ?_))
    refine List.Perm.trans ?_ (hqueued.append_right missed).symm
    rw [← append_assoc]
    exact perm_append_singleton waiter (s.queued ++ missed)
  · have hnot : job ∉ s.queue := fun hqueue => hdisjoint.2.2 job hqueue job hbusy rfl
    have hqueued : (s.joinJob job waiter).queued = s.queued := flatMap_update_of_notMem hnot
    have hloading : (s.joinJob job waiter).loading.Perm
        ((if s.readers.any (Reader.HasRead job) then [] else [waiter]) ++ s.loading) :=
      loading_joined waiter hdisjoint.2.1 hbusy
    rw [hqueued]
    simp only [append_assoc]
    refine List.Perm.append_left _ (List.Perm.append_left _ ?_)
    refine List.Perm.trans ?_ (hloading.append_right _).symm
    cases s.readers.any (Reader.HasRead job) with
    | true => simp
    | false =>
      simp only [Bool.false_eq_true, if_false, append_nil, ← append_assoc]
      exact perm_append_singleton waiter _

theorem findInflight_mem {key : Bytes} (h : s.findInflight key = some job) : job ∈ s.inflight :=
  List.mem_of_find?_eq_some h

section

variable (h : s.Inv missed)
include h

theorem Inv.submit (waiterAllocated jobAllocated : Bool) (key : Bytes) (waiter : W) :
    (s.mysqlStoreSubmitLoad waiterAllocated jobAllocated key waiter).1.Inv
      (missed ++ if s.JoinsLate (.submit waiterAllocated jobAllocated key waiter) then [waiter] else []) := by
  unfold mysqlStoreSubmitLoad JoinsLate
  cases waiterAllocated with
  | false => simpa using h
  | true =>
    cases hfind : s.findInflight key with
    | some job => simpa [hfind] using h.joinJob (findInflight_mem hfind) waiter
    | none =>
      have hadd := h.addJob key waiter
      by_cases hfull : s.pendingReads ≥ s.readQueueLimit
      · simpa [hfind, hfull] using h
      · cases jobAllocated with
        | false => simpa [hfind, hfull] using h
        | true => simpa [hfind, hfull] using hadd

/-- a reader that goes on with the same job and the same waiters -/
theorem Inv.goesOn {reader : ℕ} {before after : Reader W R} (hreader : s.readers[reader]? = some before)
    (hjob : after.job? = before.job?) (howes : after.owes s.jobs = before.owes s.jobs)
    (hallocated : ∀ job, after ≠ .loaded job none) : ({ s with readers := s.readers.set reader after }).Inv missed := by
  obtain ⟨front, back, hreaders, hset⟩ := set_split hreader
  have hbusy : (s.readers.set reader after).filterMap Reader.job? = s.busy := by
    rw [busy, hset, hreaders]
    simp [filterMap_cons, hjob]
  have hloading : (s.readers.set reader after).flatMap (Reader.owes s.jobs) = s.loading := by
    rw [loading, hset, hreaders]
    simp [howes]
  refine ⟨h.nodup, ?_, h.fresh, ?_, ?_⟩
  · show s.inflight.Perm (s.queue ++ (s.readers.set reader after).filterMap Reader.job?)
    rw [hbusy]
    exact h.held
  · intro other hother
    rcases mem_or_eq_of_mem_set hother with hold | rfl
    · exact h.allocated other hold
    · exact hallocated
  · show s.accepted.Perm (s.answered ++ s.published ++ (s.readers.set reader after).flatMap (Reader.owes s.jobs) ++ s.queued ++
      missed)
    rw [hloading]
    exact h.waiters

variable (reader : ℕ)

theorem Inv.dequeue : (s.dequeue reader).Inv missed := by
  unfold Store.dequeue
  split
  case h_2 => exact h
  case h_1 job rest hreader hqueue =>
    obtain ⟨front, back, hreaders, hset⟩ := set_split hreader
    have hbusy : ((s.readers.set reader (.taken job)).filterMap Reader.job?).Perm (job :: s.busy) := by
      rw [busy, hset, hreaders]
      simp only [filterMap_append, filterMap_cons, Reader.job?]
      exact perm_middle
    have hloading : ((s.readers.set reader (.taken job)).flatMap (Reader.owes s.jobs)).Perm
        ((s.jobs job).waiters ++ s.loading) := by
      rw [loading, hset, hreaders]
      simp only [flatMap_append, flatMap_cons, Reader.owes, nil_append]
      exact perm_append_comm_assoc _ _ _
    have hheld := h.held
    have hwaiters := h.waiters
    simp only [queued, hqueue, flatMap_cons] at hheld hwaiters
    refine ⟨h.nodup, ?_, h.fresh, ?_, ?_⟩
    · refine hheld.trans (List.Perm.trans ?_ (hbusy.append_left rest).symm)
      exact perm_middle.symm
    · intro other hother
      rcases mem_or_eq_of_mem_set hother with hold | rfl
      · exact h.allocated other hold
      · intro _ heq
        cases heq
    · refine hwaiters.trans ?_
      simp only [append_assoc]
      refine List.Perm.append_left _ (List.Perm.append_left _ ?_)
      refine List.Perm.trans ?_ (hloading.append_right _).symm
      simp only [append_assoc]
      exact perm_append_comm_assoc _ _ _

theorem Inv.loadObject (outcome : R) : (s.loadObject reader (some outcome)).Inv missed := by
  unfold Store.loadObject
  split
  · rename_i job hreader
    refine h.goesOn hreader rfl rfl ?_
    intro _ heq
    cases heq
  · exact h

theorem Inv.readWaiters : (s.readWaiters reader).Inv missed := by
  unfold Store.readWaiters
  split
  · rename_i job outcome hreader
    refine h.goesOn hreader rfl rfl ?_
    intro _ heq
    cases heq
  · exact h

theorem Inv.publish : (s.publish reader).Inv missed := by
  unfold Store.publish
  split
  · rename_i job result hreader
    obtain ⟨front, back, hreaders, hset⟩ := set_split hreader
    have hbusy : s.busy.Perm (job :: (s.readers.set reader .idle).filterMap Reader.job?) := by
      rw [busy, hset, hreaders]
      simp only [filterMap_append, filterMap_cons, Reader.job?]
      exact perm_middle
    have hloading : s.loading.Perm (result.waiters ++ (s.readers.set reader .idle).flatMap (Reader.owes s.jobs)) := by
      rw [loading, hset, hreaders]
      simp only [flatMap_append, flatMap_cons, Reader.owes, nil_append]
      exact perm_append_comm_assoc _ _ _
    refine ⟨h.nodup.erase _, ?_, fun other hother => h.fresh other (mem_of_mem_erase hother), ?_, ?_⟩
    · have hheld := (h.held.trans ((hbusy.append_left s.queue).trans perm_middle)).erase job
      rwa [erase_cons_head] at hheld
    · intro other hother
      rcases mem_or_eq_of_mem_set hother with hold | rfl
      · exact h.allocated other hold
      · intro _ heq
        cases heq
    · show s.accepted.Perm (s.answered ++ (s.completed ++ [result]).flatMap LoadResult.waiters ++
        (s.readers.set reader .idle).flatMap (Reader.owes s.jobs) ++ s.queued ++ missed)
      refine h.waiters.trans ?_
      simp only [flatMap_append, flatMap_singleton, append_assoc]
      refine List.Perm.append_left _ (List.Perm.append_left _ ?_)
      simpa only [append_assoc] using hloading.append_right (s.queued ++ missed)
  · rename_i job hreader
    exact absurd rfl (h.allocated _ (mem_of_getElem? hreader) job)
  · exact h

theorem Inv.take : s.mysqlStoreTakeLoadResults.1.Inv missed := by
  refine ⟨h.nodup, h.held, h.fresh, h.allocated, ?_⟩
  have hanswered : s.mysqlStoreTakeLoadResults.1.answered = s.answered ++ s.published := by
    simp [mysqlStoreTakeLoadResults, answered, published]
  rw [hanswered]
  show s.accepted.Perm (s.answered ++ s.published ++ [] ++ s.loading ++ s.queued ++ missed)
  rw [append_nil]
  exact h.waiters

end

/-- the waiter of a step that joins late -/
def lateWaiter (s : Store W R) : Action W R → List W
  | .submit waiterAllocated jobAllocated key waiter =>
    if s.JoinsLate (.submit waiterAllocated jobAllocated key waiter) then [waiter] else []
  | _ => []

theorem lateWaiter_eq_nil {action : Action W R} : s.lateWaiter action = [] ↔ s.JoinsLate action = false := by
  cases action with
  | submit waiterAllocated jobAllocated key waiter =>
    simp only [lateWaiter]
    cases s.JoinsLate (.submit waiterAllocated jobAllocated key waiter) <;> simp
  | _ => simp [lateWaiter, JoinsLate]

theorem Inv.step (h : s.Inv missed) {action : Action W R} (hallocated : action.Allocated) :
    (s.step action).Inv (missed ++ s.lateWaiter action) := by
  cases action with
  | submit waiterAllocated jobAllocated key waiter => exact h.submit waiterAllocated jobAllocated key waiter
  | dequeue reader => simpa [lateWaiter, Store.step] using h.dequeue reader
  | load reader outcome =>
    obtain ⟨outcome, rfl⟩ := Option.isSome_iff_exists.mp hallocated
    simpa [lateWaiter, Store.step] using h.loadObject reader outcome
  | readWaiters reader => simpa [lateWaiter, Store.step] using h.readWaiters reader
  | publish reader => simpa [lateWaiter, Store.step] using h.publish reader
  | take => simpa [lateWaiter, Store.step] using h.take

/-! ## Whole runs -/

/-- in every run some list of waiters was missed, empty exactly when nobody joined late -/
theorem Inv.run (h : s.Inv missed) {actions : List (Action W R)} (hallocated : ∀ action ∈ actions, action.Allocated) :
    ∃ late, (s.run actions).Inv (missed ++ late) ∧ (late = [] ↔ s.NeverLate actions) := by
  induction actions generalizing s missed with
  | nil => exact ⟨[], by simpa [Store.run] using h, by simp [NeverLate]⟩
  | cons action rest ih =>
    have hstep := h.step (hallocated action (mem_cons_self ..))
    obtain ⟨late, hinv, hlate⟩ := ih hstep fun a ha => hallocated a (mem_cons_of_mem _ ha)
    refine ⟨s.lateWaiter action ++ late, ?_, ?_⟩
    · rw [← append_assoc]
      exact hinv
    · rw [append_eq_nil_iff, lateWaiter_eq_nil, hlate, NeverLate, Bool.and_eq_true, Bool.not_eq_true']

theorem inv_open (readWorkers readQueueLimit : ℕ) : (mysqlStoreOpen readWorkers readQueueLimit : Store W R).Inv [] := by
  have hidle : ∀ reader ∈ List.replicate readWorkers (Reader.idle : Reader W R), reader = .idle :=
    fun reader h => eq_of_mem_replicate h
  have hbusy : (mysqlStoreOpen readWorkers readQueueLimit : Store W R).busy = [] := by
    rw [busy, filterMap_eq_nil_iff]
    intro reader hreader
    rw [hidle reader hreader]
    rfl
  have hloading : (mysqlStoreOpen readWorkers readQueueLimit : Store W R).loading = [] := by
    rw [loading, flatMap_eq_nil_iff]
    intro reader hreader
    rw [hidle reader hreader]
    rfl
  refine ⟨nodup_nil, ?_, fun job hjob => absurd hjob (not_mem_nil), ?_, ?_⟩
  · rw [hbusy]
    exact List.Perm.refl _
  · intro reader hreader job heq
    rw [hidle reader hreader] at heq
    cases heq
  · rw [hloading]
    exact List.Perm.refl _

/-- at rest every waiter was delivered, except those that were missed -/
theorem Inv.atRest (h : s.Inv missed) (hrest : s.AtRest) : s.accepted.Perm (s.answered ++ missed) := by
  obtain ⟨hqueue, hidle, hcompleted⟩ := hrest
  have hloading : s.loading = [] := by
    rw [loading, flatMap_eq_nil_iff]
    intro reader hreader
    rw [hidle reader hreader]
    rfl
  simpa [published, queued, hqueue, hcompleted, hloading] using h.waiters

theorem run_append (s : Store W R) (actions more : List (Action W R)) : s.run (actions ++ more) = (s.run actions).run more :=
  foldl_append

/-- only requests join jobs -/
theorem neverLate_append {actions more : List (Action W R)} (hmore : ∀ action ∈ more, action.Drains) :
    s.NeverLate (actions ++ more) = s.NeverLate actions := by
  induction actions generalizing s with
  | nil =>
    induction more generalizing s with
    | nil => rfl
    | cons action rest ih =>
      have hnot : s.JoinsLate action = false := by
        have hdrains := hmore action (mem_cons_self ..)
        cases action <;> simp_all [Action.Drains, JoinsLate]
      have hrest : (s.step action).NeverLate rest = true := ih fun a ha => hmore a (mem_cons_of_mem _ ha)
      simp [NeverLate, hnot, hrest]
  | cons action rest ih => rw [cons_append, NeverLate, NeverLate, ih]

/-! ## A store comes to rest -/

end Store

/-- a bound of the steps until a reader is idle and its result taken -/
def Reader.work : Reader W R → ℕ
  | .idle => 0
  | .taken _ => 4
  | .loaded _ _ => 3
  | .read _ _ => 2

namespace Store

variable {s : Store W R}

/-- what remains to be done: a job in the queue is taken, loaded, read, published and delivered -/
def work (s : Store W R) : ℕ := 5 * s.queue.length + (s.readers.map Reader.work).sum + s.completed.length

theorem work_set {i : ℕ} {before : Reader W R} (after : Reader W R) (h : readers[i]? = some before) :
    ((readers.set i after).map Reader.work).sum + before.work = (readers.map Reader.work).sum + after.work := by
  obtain ⟨front, back, hreaders, hset⟩ := set_split h
  rw [hset, hreaders]
  simp only [map_append, map_cons, sum_append, sum_cons]
  omega

/-- a reader that is not idle has a step to make -/
theorem advances (outcome : R) {reader : ℕ} {place : Reader W R} (hreader : s.readers[reader]? = some place)
    (hbusy : place ≠ .idle) :
    ∃ action : Action W R, action.Drains ∧ (s.step action).work < s.work := by
  cases place with
  | idle => exact absurd rfl hbusy
  | taken job =>
    refine ⟨.load reader (some outcome), rfl, ?_⟩
    have hset := work_set (.loaded job (some outcome)) hreader
    simp only [Reader.work] at hset
    simp only [step, loadObject, hreader, work]
    omega
  | loaded job result =>
    cases result with
    | none =>
      refine ⟨.publish reader, rfl, ?_⟩
      have hset := work_set .idle hreader
      simp only [Reader.work] at hset
      simp only [step, publish, hreader, work]
      omega
    | some outcome =>
      refine ⟨.readWaiters reader, rfl, ?_⟩
      have hset := work_set (.read job ⟨outcome, (s.jobs job).waiters⟩) hreader
      simp only [Reader.work] at hset
      simp only [step, readWaiters, hreader, work]
      omega
  | read job result =>
    refine ⟨.publish reader, rfl, ?_⟩
    have hset := work_set .idle hreader
    simp only [Reader.work] at hset
    simp only [step, publish, hreader, work, length_append, length_singleton]
    omega

/-- a store that is not at rest has a step to make that is not a request -/
theorem progress [Nonempty R] (hreaders : s.readers ≠ []) (hrest : ¬s.AtRest) :
    ∃ action : Action W R, action.Drains ∧ (s.step action).work < s.work := by
  by_cases hidle : ∀ reader ∈ s.readers, reader = .idle
  · cases hqueue : s.queue with
    | cons job rest =>
      obtain ⟨first, others, hfirst⟩ := exists_cons_of_ne_nil hreaders
      have hreader : s.readers[0]? = some .idle := by
        rw [hfirst, hidle first (hfirst ▸ mem_cons_self ..)]
        rfl
      refine ⟨.dequeue 0, rfl, ?_⟩
      have hset := work_set (.taken job) hreader
      simp only [Reader.work] at hset
      simp only [step, dequeue, hreader, hqueue, work, length_cons]
      omega
    | nil =>
      have hcompleted : s.completed ≠ [] := fun hcompleted => hrest ⟨hqueue, hidle, hcompleted⟩
      refine ⟨.take, rfl, ?_⟩
      have hlength := length_pos_of_ne_nil hcompleted
      simp only [step, mysqlStoreTakeLoadResults, work, length_nil]
      omega
  · push Not at hidle
    obtain ⟨reader, hmem, hbusy⟩ := hidle
    obtain ⟨i, hi⟩ := mem_iff_getElem?.mp hmem
    obtain ⟨outcome⟩ := ‹Nonempty R›
    exact advances outcome hi hbusy

theorem step_readers_length (s : Store W R) (action : Action W R) : (s.step action).readers.length = s.readers.length := by
  cases action with
  | submit waiterAllocated jobAllocated key waiter =>
    show (s.mysqlStoreSubmitLoad waiterAllocated jobAllocated key waiter).1.readers.length = _
    unfold mysqlStoreSubmitLoad
    cases waiterAllocated with
    | false => rfl
    | true =>
      cases s.findInflight key with
      | some job => rfl
      | none =>
        simp only [Bool.true_eq_false, if_false]
        split_ifs <;> rfl
  | dequeue reader => simp only [step, dequeue]; split <;> simp
  | load reader outcome => simp only [step, loadObject]; split <;> simp
  | readWaiters reader => simp only [step, readWaiters]; split <;> simp
  | publish reader => simp only [step, publish]; split <;> simp
  | take => rfl

theorem run_readers_length (s : Store W R) (actions : List (Action W R)) : (s.run actions).readers.length = s.readers.length := by
  induction actions generalizing s with
  | nil => rfl
  | cons action rest ih => exact (ih (s.step action)).trans (step_readers_length s action)

/-- every state leads to rest without further requests -/
theorem comes_to_rest [Nonempty R] (hreaders : s.readers ≠ []) :
    ∃ more : List (Action W R), (∀ action ∈ more, action.Drains) ∧ (s.run more).AtRest := by
  induction hwork : s.work using Nat.strong_induction_on generalizing s with
  | _ n ih =>
    by_cases hrest : s.AtRest
    · exact ⟨[], by simp, hrest⟩
    · obtain ⟨action, hdrains, hless⟩ := progress hreaders hrest
      have hkept : (s.step action).readers ≠ [] := by
        rw [← length_pos_iff, step_readers_length]
        exact length_pos_of_ne_nil hreaders
      obtain ⟨more, hmore, hends⟩ := ih _ (hwork ▸ hless) hkept rfl
      exact ⟨action :: more, forall_mem_cons.mpr ⟨hdrains, hmore⟩, hends⟩

end Store

theorem Action.allocated_of_drains {action : Action W R} (h : action.Drains) : action.Allocated := by
  cases action <;> simp_all [Action.Drains, Action.Allocated]

/-! ## Results -/

/-- **Coalesced loads are answered, if nobody joins late.** In every interleaving in which results are allocated, the readers and
the reactor can bring the store to rest. Once it is there, each accepted waiter has been delivered exactly once, if and only if
no request joined a job after the job's reader had read its waiters. -/
theorem loads_delivered [Nonempty R] (readWorkers readQueueLimit : ℕ) (hworkers : 0 < readWorkers)
    (actions : List (Action W R)) (hallocated : ∀ action ∈ actions, action.Allocated) :
    let start : Store W R := mysqlStoreOpen readWorkers readQueueLimit
    (∃ more : List (Action W R), (∀ action ∈ more, action.Drains) ∧ (start.run (actions ++ more)).AtRest) ∧
    (start.NeverLate actions ↔ ∀ more : List (Action W R), (∀ action ∈ more, action.Drains) →
      (start.run (actions ++ more)).AtRest →
      (start.run (actions ++ more)).answered.Perm (start.run (actions ++ more)).accepted) := by
  intro start
  have hreach : ∃ more : List (Action W R), (∀ action ∈ more, action.Drains) ∧ (start.run (actions ++ more)).AtRest := by
    have hreaders : (start.run actions).readers ≠ [] := by
      rw [← length_pos_iff, Store.run_readers_length]
      simpa [start, mysqlStoreOpen] using hworkers
    obtain ⟨more, hmore, hrest⟩ := Store.comes_to_rest hreaders
    exact ⟨more, hmore, by rwa [Store.run_append]⟩
  -- at rest the waiters that are not delivered are those that joined late
  have hend : ∀ more : List (Action W R), (∀ action ∈ more, action.Drains) → (start.run (actions ++ more)).AtRest →
      ∃ late, (start.run (actions ++ more)).accepted.Perm ((start.run (actions ++ more)).answered ++ late) ∧
        (late = [] ↔ start.NeverLate actions) := by
    intro more hmore hrest
    have hall : ∀ action ∈ actions ++ more, action.Allocated := by
      intro action haction
      rcases mem_append.mp haction with h | h
      · exact hallocated action h
      · exact Action.allocated_of_drains (hmore action h)
    obtain ⟨late, hinv, hlate⟩ := (Store.inv_open readWorkers readQueueLimit).run hall
    rw [Store.neverLate_append hmore] at hlate
    exact ⟨late, hinv.atRest hrest, hlate⟩
  refine ⟨hreach, fun hnever more hmore hrest => ?_, fun hdelivered => ?_⟩
  · obtain ⟨late, hperm, hlate⟩ := hend more hmore hrest
    rw [hlate.mpr hnever, append_nil] at hperm
    exact hperm.symm
  · obtain ⟨more, hmore, hrest⟩ := hreach
    obtain ⟨late, hperm, hlate⟩ := hend more hmore hrest
    have hlength := ((hdelivered more hmore hrest).trans hperm).length_eq
    rw [length_append] at hlength
    exact hlate.mp (eq_nil_of_length_eq_zero (by omega))

/-- two requests for one key, the second while the first is loading, and one reader -/
def coalesced : List (Action ℕ Unit) :=
  [.submit true true [107] 1, .dequeue 0, .submit true true [107] 2, .load 0 (some ()), .readWaiters 0, .publish 0, .take]

theorem loads_delivered_coalesced : (mysqlStoreOpen 1 8 : Store ℕ Unit).NeverLate coalesced = true ∧
    ((mysqlStoreOpen 1 8 : Store ℕ Unit).run coalesced).AtRest ∧
    ((mysqlStoreOpen 1 8 : Store ℕ Unit).run coalesced).answered.Perm
      ((mysqlStoreOpen 1 8 : Store ℕ Unit).run coalesced).accepted := by
  have hnever : (mysqlStoreOpen 1 8 : Store ℕ Unit).NeverLate coalesced = true := by decide +kernel
  have hrest : ((mysqlStoreOpen 1 8 : Store ℕ Unit).run coalesced).AtRest :=
    ⟨rfl, fun reader h => mem_singleton.mp h, rfl⟩
  have hloads := loads_delivered 1 8 (by decide) coalesced (by simp [coalesced, Action.Allocated])
  exact ⟨hnever, hrest, hloads.2.mp hnever [] (by simp) hrest⟩

/-- the second request comes after the reader has read the list of waiters -/
def overtaken : List (Action ℕ Unit) :=
  [.submit true true [107] 1, .dequeue 0, .load 0 (some ()), .readWaiters 0, .submit true true [107] 2, .publish 0, .take]

/-- **A request that is never answered.** It joins a job whose waiters have been read: it is accepted, and no result holds it. -/
theorem joined_too_late :
    (((mysqlStoreOpen 1 8 : Store ℕ Unit).run (overtaken.take 4)).mysqlStoreSubmitLoad true true [107] 2).2 = 0 ∧
    ((mysqlStoreOpen 1 8 : Store ℕ Unit).run overtaken).AtRest ∧
    ((mysqlStoreOpen 1 8 : Store ℕ Unit).run overtaken).accepted = [1, 2] ∧
    ((mysqlStoreOpen 1 8 : Store ℕ Unit).run overtaken).answered = [1] ∧
    ((mysqlStoreOpen 1 8 : Store ℕ Unit).run overtaken).inflight = [] := by
  refine ⟨by decide +kernel, ⟨rfl, fun reader h => mem_singleton.mp h, rfl⟩, ?_, ?_, ?_⟩ <;> decide +kernel

end StoreSystem.Loader
