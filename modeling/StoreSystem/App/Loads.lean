/-
Loads from MySQL while their keys are written (`src/app/main.c`).

A request for a key that is not cached waits for its row, while mutations of the key reach the database later, through the writer
thread: the row may lack some. `dirty_keys` has the sequence of the last mutation of a key until it is applied, and no load starts
before. `load_states` counts the requests that wait for a key and has a generation that every write advances; a result is dropped
when one of its requests has another generation.

- `State.step`: the calls in any order, since the completion of a request may dispatch others.
- `load_states_counted`: a key has a load state exactly while requests wait for it.
- `stale_iff_unapplied`: if `mark_dirty_key` has not failed on its key, a request that waits is stale exactly when the key has a
  mutation that was not applied when it registered. So a row that is not dropped, which is read later, has them all.

A table is the map that it refines.
-/
import StoreSystem.Engine.Hash

namespace StoreSystem.App.Loads

open List Function

/-! ## Calls -/

/-- `hashtable_t` as a map -/
abbrev Table (V : Type) := Bytes → Option V

/-- `mysql_load_state_t` -/
structure LoadState where
  generation : UInt64
  waiters : ℕ

/-- `mysql_pending_request_t`: the key of the request, and what it is registered with -/
structure PendingRequest where
  key : Bytes
  loadGeneration : UInt64
  loadRegistered : Bool

variable (dirty : Table ℕ) (applied : ℕ) (loads : Table LoadState) (key : Bytes) (pending : PendingRequest)

def bumpInflightLoadGeneration : Table LoadState :=
  update loads key ((loads key).map fun state => { state with generation := state.generation + 1 })

/-- `register_pending_load`, `none` for -1; `ok` is the outcome of the allocations -/
def registerPendingLoad (ok : Bool) (loads : Table LoadState) (pending : PendingRequest) :
    Option (Table LoadState × PendingRequest) :=
  let state := (loads pending.key).getD ⟨0, 0⟩
  if ((loads pending.key).isNone ∧ ok = false) ∨ state.waiters = sizeMax then none
  else some (update loads pending.key (some { state with waiters := state.waiters + 1 }),
    { pending with loadGeneration := state.generation, loadRegistered := true })

def pendingLoadIsStale : Bool :=
  pending.loadRegistered && (loads pending.key).all (·.generation ≠ pending.loadGeneration)

def unregisterPendingLoad : Table LoadState :=
  if pending.loadRegistered then
    update loads pending.key ((loads pending.key).bind fun state =>
      if state.waiters - 1 = 0 then none else some { state with waiters := state.waiters - 1 })
  else loads

/-- a sequence that is applied is dropped when it is seen -/
def dropApplied (dirty : Table ℕ) (key : Bytes) : Table ℕ :=
  if (dirty key).any (· ≤ applied) then update dirty key none else dirty

def dirtyKeySequence : Table ℕ × ℕ :=
  (dropApplied applied dirty key, (dropApplied applied dirty key key).getD 0)

/-- the table behind `mark_dirty_key`, `none` for -1 -/
def markDirtyKey (ok : Bool) (dirty : Table ℕ) (key : Bytes) (sequence : ℕ) : Option (Table ℕ) :=
  if (dirty key).isNone ∧ ok = false then none
  else some (update dirty key (some (max sequence ((dirty key).getD 0))))

/-- `purge_applied_dirty_keys`; the iterator finds the keys `visited` within the budget -/
def purgeAppliedDirtyKeys (visited : List Bytes) (dirty : Table ℕ) : Table ℕ :=
  visited.foldl (dropApplied applied) dirty

/-! ## Runs -/

/-- a registered request and the sequence that was applied when it registered -/
structure Waiter where
  pending : PendingRequest
  applied : ℕ

/-- the tables, the sequences given out and applied, the sequence of the last mutation of each key, the keys with a mutation that
`mark_dirty_key` failed on, and the requests that wait -/
structure State where
  loads : Table LoadState
  dirty : Table ℕ
  nextSequence : ℕ
  applied : ℕ
  last : Bytes → ℕ
  missed : Bytes → Bool
  waiters : List Waiter

/-- after the recovery of the sequences so far -/
def init (sequence : UInt64) : State :=
  ⟨fun _ => none, fun _ => none, sequence.toNat, sequence.toNat, fun _ => 0, fun _ => false, []⟩

inductive Event
  | write (ok : Bool) (key : Bytes)
  | load (ok : Bool) (key : Bytes)
  | leave (waiter : ℕ)
  | apply (sequences : ℕ)
  | purge (visited : List Bytes)

namespace State

/-- one step. A write that `mark_dirty_key` fails on has been executed and has advanced the generation; a request whose load is
refused leaves at once. -/
def step (a : State) : Event → State
  | .write ok key =>
    if a.nextSequence + 1 = 2 ^ 64 then a
    else
      let marked := markDirtyKey ok a.dirty key (a.nextSequence + 1)
      { a with
        loads := bumpInflightLoadGeneration a.loads key, dirty := marked.getD a.dirty, nextSequence := a.nextSequence + 1
        last := update a.last key (a.nextSequence + 1)
        missed := update a.missed key (a.missed key || marked.isNone) }
  | .load ok key =>
    let found := dirtyKeySequence a.dirty a.applied key
    match if found.2 = 0 then registerPendingLoad ok a.loads ⟨key, 0, false⟩ else none with
    | none => { a with dirty := found.1 }
    | some (loads, pending) => { a with dirty := found.1, loads := loads, waiters := ⟨pending, a.applied⟩ :: a.waiters }
  | .leave i =>
    match a.waiters[i]? with
    | none => a
    | some w => { a with loads := unregisterPendingLoad a.loads w.pending, waiters := a.waiters.eraseIdx i }
  | .apply sequences => { a with applied := min (a.applied + sequences) a.nextSequence }
  | .purge visited => { a with dirty := purgeAppliedDirtyKeys a.applied visited a.dirty }

def run (a : State) (events : List Event) : State := events.foldl step a

/-! ## What a run keeps -/

/-- the generation has advanced by the writes since the request registered; if there was none, all mutations that are not missed
were applied then -/
structure Waits (a : State) (w : Waiter) : Prop where
  registered : w.pending.loadRegistered = true
  applied : w.applied ≤ a.nextSequence
  state : ∃ s n, a.loads w.pending.key = some s ∧ s.generation = w.pending.loadGeneration + .ofNat n ∧ n ≤ a.nextSequence ∧
    (a.missed w.pending.key = false → (n = 0 ↔ a.last w.pending.key ≤ w.applied))

/-- the number of requests that wait for the key -/
def waiting (waiters : List Waiter) (key : Bytes) : ℕ := waiters.countP fun w => w.pending.key = key

/-- what every run keeps -/
structure Inv (a : State) : Prop where
  bound : a.nextSequence < 2 ^ 64
  applied : a.applied ≤ a.nextSequence
  dirty : ∀ key, a.missed key = false → a.applied < a.last key → ∃ d, a.dirty key = some d ∧ a.last key ≤ d
  counted : ∀ key, (a.loads key).map LoadState.waiters = if waiting a.waiters key = 0 then none
    else some (waiting a.waiters key)
  waits : ∀ w ∈ a.waiters, Waits a w

variable {a : State}

/-- a mark that fails changes nothing -/
theorem markDirtyKey_getD (ok : Bool) (dirty : Table ℕ) (key : Bytes) (sequence : ℕ) (k : Bytes) :
    (markDirtyKey ok dirty key sequence).getD dirty k =
      if k = key ∧ (markDirtyKey ok dirty key sequence).isNone = false then some (max sequence ((dirty key).getD 0)) else dirty k := by
  unfold markDirtyKey
  split_ifs <;> simp_all

theorem Inv.write (h : Inv a) (ok : Bool) (key : Bytes) : Inv (a.step (.write ok key)) := by
  simp only [step]
  split_ifs with hlast
  · exact h
  have hmarked := markDirtyKey_getD ok a.dirty key (a.nextSequence + 1)
  generalize markDirtyKey ok a.dirty key (a.nextSequence + 1) = marked at hmarked
  obtain ⟨hbound, happlied, hdirty, hcounted, hwaits⟩ := h
  refine ⟨by simp only; omega, by simp only; omega, fun k => ?_, fun k => ?_, fun w hw => ?_⟩ <;>
    simp only [bumpInflightLoadGeneration, update_apply]
  · grind
  · rw [← hcounted k]
    cases hl : a.loads key <;> grind
  · obtain ⟨h1, h2, s, n, h3, h4, h5, h6⟩ := hwaits w hw
    by_cases hk : w.pending.key = key
    · subst hk
      -- the sequence of the write is above all that was applied when the request registered
      refine ⟨h1, by simp only; omega, { s with generation := s.generation + 1 }, n + 1, by simp [h3], ?_, ?_⟩
      · rw [h4, UInt64.ofNat_add, UInt64.add_assoc]
        rfl
      · simp only [update_self]
        omega
    · refine ⟨h1, by simp only; omega, s, n, ?_⟩
      simp only [update_of_ne hk]
      exact ⟨h3, h4, by omega, h6⟩

/-- what is not applied stays dirty -/
theorem dropApplied_keeps {applied d : ℕ} {dirty : Table ℕ} {k : Bytes} (hd : dirty k = some d) (hlt : applied < d) (key : Bytes) :
    dropApplied applied dirty key k = some d := by
  unfold dropApplied
  grind [update_apply]

theorem Inv.dropped (h : Inv a) (visited : List Bytes) : Inv { a with dirty := visited.foldl (dropApplied a.applied) a.dirty } := by
  induction visited generalizing a with
  | nil => exact h
  | cons k visited ih =>
    refine @ih { a with dirty := dropApplied a.applied a.dirty k } { h with dirty := ?_, waits := fun w hw => { h.waits w hw with } }
    intro key hkey hlt
    obtain ⟨d, hd, hle⟩ := h.dirty key hkey hlt
    exact ⟨d, dropApplied_keeps hd (lt_of_lt_of_le hlt hle) k, hle⟩

theorem Inv.load (h : Inv a) (ok : Bool) (key : Bytes) : Inv (a.step (.load ok key)) := by
  have hdrop := h.dropped [key]
  simp only [step, dirtyKeySequence, registerPendingLoad]
  split_ifs with hclean hrefused
  · exact hdrop
  · -- a key that is not dirty has no mutation that is not applied, except those missed
    have hall : a.missed key = false → a.last key ≤ a.applied := by
      intro hkey
      by_contra hlt
      obtain ⟨d, hd, hle⟩ := h.dirty key hkey (not_le.1 hlt)
      rw [dropApplied_keeps hd (by omega) key, Option.getD_some] at hclean
      omega
    refine { hdrop with counted := fun k => ?_, waits := fun w hw => ?_ }
    · have hcounted := h.counted k
      simp only [update_apply, waiting, countP_cons] at hcounted ⊢
      cases hl : a.loads key <;> grind
    · rcases mem_cons.1 hw with rfl | hw
      · exact ⟨rfl, h.applied, _, 0, update_self .., by simp, Nat.zero_le _, by simpa using hall⟩
      · obtain ⟨h1, h2, s, n, h3, h4⟩ := h.waits w hw
        by_cases hk : w.pending.key = key
        · exact ⟨h1, h2, _, n, by rw [hk]; exact update_self .., by rw [← hk, h3]; exact h4⟩
        · exact ⟨h1, h2, s, n, (update_of_ne hk ..).trans h3, h4⟩
  · exact hdrop

theorem Inv.leave (h : Inv a) (i : ℕ) : Inv (a.step (.leave i)) := by
  simp only [step]
  split
  · exact h
  rename_i w hw
  obtain ⟨hi, hwi⟩ := List.getElem?_eq_some_iff.1 hw
  have hperm := getElem_cons_eraseIdx_perm hi
  rw [hwi] at hperm
  generalize a.waiters.eraseIdx i = rest at hperm
  have hcount : ∀ k, waiting a.waiters k = waiting rest k + if w.pending.key = k then 1 else 0 := by
    intro k
    simp [waiting, ← hperm.countP_eq, countP_cons]
  obtain ⟨hregistered, -, s, -, hs, -⟩ := h.waits w (hperm.mem_iff.1 mem_cons_self)
  have hlast := h.counted w.pending.key
  simp only [unregisterPendingLoad, hregistered, if_true, hs]
  refine { h with counted := fun k => ?_, waits := fun v hv => ?_ }
  · have hk := h.counted k
    grind [update_apply]
  · obtain ⟨h1, h2, t, n, h3, h4⟩ := h.waits v (hperm.mem_iff.1 (mem_cons_of_mem w hv))
    -- another request for the key keeps the state
    have hmore : 0 < waiting rest v.pending.key := countP_pos_iff.2 ⟨v, hv, by simp⟩
    exact ⟨h1, h2, by grind [update_apply]⟩

theorem Inv.step (h : Inv a) (e : Event) : Inv (a.step e) := by
  cases e with
  | write ok key => exact h.write ok key
  | load ok key => exact h.load ok key
  | leave i => exact h.leave i
  | apply n =>
    exact { h with
      applied := min_le_right _ _
      dirty := fun k hk hlt => h.dirty k hk (lt_of_le_of_lt (le_min (Nat.le_add_right _ _) h.applied) hlt)
      waits := fun w hw => { h.waits w hw with } }
  | purge visited => exact h.dropped visited

theorem Inv.run (h : Inv a) (events : List Event) : Inv (a.run events) := by
  induction events generalizing a with
  | nil => exact h
  | cons e events ih => exact ih (h.step e)

theorem inv_init (sequence : UInt64) : Inv (init sequence) :=
  ⟨sequence.toNat_lt, le_rfl, fun _ _ h => absurd h (Nat.not_lt_zero _), fun _ => rfl, fun _ h => absurd h not_mem_nil⟩

/-- **A key has a load state exactly while requests wait for it**, with their number. -/
theorem load_states_counted (sequence : UInt64) (events : List Event) (key : Bytes) :
    (((init sequence).run events).loads key).map LoadState.waiters =
      if waiting ((init sequence).run events).waiters key = 0 then none
      else some (waiting ((init sequence).run events).waiters key) :=
  ((inv_init sequence).run events).counted key

/-- two requests share the state of their key, also when a write of the key is not marked -/
theorem load_states_counted_two :
    (((init 0).run [.load true [107], .write false [107], .load true [107]]).loads [107]).map LoadState.waiters = some 2 :=
  load_states_counted 0 [.load true [107], .write false [107], .load true [107]] [107]

/-- **A request is stale exactly when its key has a mutation that was not applied** when it registered, unless a mutation of the
key could not be marked. -/
theorem stale_iff_unapplied (sequence : UInt64) (events : List Event) {w : Waiter}
    (hw : w ∈ ((init sequence).run events).waiters) (hmarked : ((init sequence).run events).missed w.pending.key = false) :
    pendingLoadIsStale ((init sequence).run events).loads w.pending = true ↔
      w.applied < ((init sequence).run events).last w.pending.key := by
  have hinv := (inv_init sequence).run events
  generalize (init sequence).run events = a at hw hmarked hinv
  obtain ⟨hregistered, -, s, n, hs, hgeneration, hn, hall⟩ := hinv.waits w hw
  -- the generation cannot come round: there are fewer sequences than generations
  have hzero : UInt64.ofNat n = 0 ↔ n = 0 := by
    rw [UInt64.ofNat_eq_iff_mod_eq_toNat, Nat.mod_eq_of_lt (lt_of_le_of_lt hn hinv.bound)]
    rfl
  simp [pendingLoadIsStale, hregistered, hs, hgeneration, hzero, hall hmarked]

/-- the key is written while the request waits, and another key could not be marked -/
theorem stale_iff_unapplied_written :
    ∃ w ∈ ((init 0).run [.write false [106], .load true [107], .write true [107]]).waiters,
      (pendingLoadIsStale ((init 0).run [.write false [106], .load true [107], .write true [107]]).loads w.pending = true ↔
        w.applied < ((init 0).run [.write false [106], .load true [107], .write true [107]]).last w.pending.key) :=
  ⟨_, mem_cons_self, stale_iff_unapplied 0 [.write false [106], .load true [107], .write true [107]] mem_cons_self rfl⟩

end State

end StoreSystem.App.Loads
