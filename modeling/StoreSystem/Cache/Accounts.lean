/-
The books of removals: which counter a removed entry goes to, and whether the eviction callback hears of it.

A call is made at a time `t`, in any reachable cache. `Accounted`: every removed entry whose deadline has passed at `t` is
counted in `expired_keys` and not reported; every live entry removed to make room is counted in `evicted_keys` and reported
once.

`accounted_iff`: that is what happens, except in one case. `cache_recharge_ref` reads no clock for an entry without a
deadline, and judges its candidates at time 0: an expired entry among those that have to go is counted and reported as an
eviction. Which entries have to go is told from the cache before the call (`Overlooks`): the shortest suffix of the LRU
order, the recharged entry left out, without which the new charge fits. `recharge_miscounts` is the smallest instance.
-/
import StoreSystem.Cache.Calls

namespace StoreSystem.Cache

open List

variable {hash : Hasher} {c c' : Cache}

/-! ## What is to be accounted for -/

/-- the cache at time `t` -/
def atTime (c : Cache) (t : ℕ) : Cache := { c with nowMs := fun _ => t }

/-- the entries a call removes -/
def removedBy (hash : Hasher) (c : Cache) (call : Call) : List ℕ := c.ids.filter (· ∉ (step hash c call).ids)

/-- those it removes to make room: what a store or a recharge removes -/
def victims (hash : Hasher) (c : Cache) (call : Call) : List ℕ :=
  if (storeCall hash c call).isSome then removedBy hash c call else []

/-- every removal by a call at time `t` is in the books -/
structure Accounted (hash : Hasher) (c : Cache) (t : ℕ) (call : Call) : Prop where
  expired : (step hash c call).expiredKeys = c.expiredKeys + ((removedBy hash c call).filter (c.Dead t)).length
  evicted : (step hash c call).evictedKeys = c.evictedKeys + ((victims hash c call).filter (¬ c.Dead t ·)).length
  reported : ∃ reports, (step hash c call).evicted = c.evicted ++ reports ∧
    reports.Perm (((victims hash c call).filter (¬ c.Dead t ·)).map c.entryKey)

/-! ## The reasons of a call -/

/-- the reason for which a call at time `t` removes an entry -/
def reasonFor (hash : Hasher) (c : Cache) (call : Call) (t id : ℕ) : RemovalReason :=
  if (storeCall hash c call).isSome then c.reasonAt (c.judgedAt call t) id else c.quietReason t id

variable {t : ℕ} {call : Call}

theorem step_reasons (h : Core hash c) (hw : c.Within) (call : Call) (ht : c.Fixed t) :
    ∃ id removals, Moves c (step hash c call) id removals ∧
      ∀ p ∈ removals, p.2 = reasonFor hash c call t p.1 := by
  unfold reasonFor
  cases hs : storeCall hash c call with
  | some s =>
    obtain ⟨key, r⟩ := s
    obtain ⟨xs, hx⟩ := h.lruOrder
    obtain ⟨hstep, removals, hm, hj⟩ := storeCall_moves h hw hx hs
    rw [hstep]
    by_cases hok : r.2 = .ok
    · obtain ⟨id, _, _, m, _⟩ := hm.stored hok
      exact ⟨some id, removals, m, hj t ht⟩
    · exact ⟨none, removals, hm.failed hok, hj t ht⟩
  | none =>
    cases hr : readCall hash c call with
    | some rd =>
      obtain ⟨key, found⟩ := rd
      obtain ⟨id, removals, m, _, hj⟩ := readCall_acts h hw hr
      exact ⟨id, removals, m, hj t ht⟩
    | none =>
      obtain ⟨id, removals, m, _, hj⟩ := otherCall_acts h hs hr
      exact ⟨id, removals, m, hj t ht⟩

/-- the list of removals names the removed entries -/
theorem Moves.named_perm {id : Option ℕ} {removals : List (ℕ × RemovalReason)} (m : Moves c c' id removals)
    (h : Core hash c) : (named removals).Perm (c.ids.filter (· ∉ c'.ids)) := by
  rw [perm_ext_iff_of_nodup m.nodup (h.nodup.filter _)]
  intro b
  rw [mem_filter, decide_eq_true_eq, m.mem h]
  constructor
  · intro hb
    obtain ⟨h1, h2⟩ := m.removed b hb
    refine ⟨h1, ?_⟩
    rintro (hc | ⟨_, hc⟩)
    · exact h2 hc
    · exact hc hb
  · rintro ⟨h1, h2⟩
    by_contra hb
    exact h2 (Or.inr ⟨h1, hb⟩)

/-- **The books of a call**, by the reasons of its removals. -/
theorem step_books (h : Core hash c) (hw : c.Within) (call : Call) (ht : c.Fixed t) : (step hash c call).expiredKeys =
        c.expiredKeys + ((removedBy hash c call).filter (reasonFor hash c call t · = .expired)).length ∧
      (step hash c call).evictedKeys =
        c.evictedKeys + ((removedBy hash c call).filter (reasonFor hash c call t · = .evicted)).length ∧
      ∃ reports, (step hash c call).evicted = c.evicted ++ reports ∧
        reports.Perm (((removedBy hash c call).filter (reasonFor hash c call t · = .evicted)).map c.entryKey) := by
  obtain ⟨id, removals, m, hreason⟩ := step_reasons h hw call ht
  have hperm := m.named_perm h
  -- the removals for a reason are those entries that the call judges so
  have hfilter : ∀ reason, (removals.filter (·.2 = reason)).map Prod.fst =
      (named removals).filter (reasonFor hash c call t · = reason) := by
    intro reason
    rw [named, filter_map]
    congr 1
    refine filter_congr fun p hp => ?_
    rw [hreason p hp]
    rfl
  have hcount : ∀ reason, removals.countP (·.2 = reason) =
      ((removedBy hash c call).filter (reasonFor hash c call t · = reason)).length := by
    intro reason
    rw [countP_eq_length_filter, ← length_map Prod.fst, hfilter]
    exact (hperm.filter _).length_eq
  refine ⟨?_, ?_, _, m.log, ?_⟩
  · rw [m.expired, hcount]
  · rw [m.evictedKeys, hcount]
  · rw [show (fun p : ℕ × RemovalReason => c.entryKey p.1) = c.entryKey ∘ Prod.fst from rfl, ← map_map, hfilter]
    exact (hperm.filter _).map _

/-! ## The claim of the books -/

theorem reasonAt_expired (c : Cache) (t id : ℕ) : c.reasonAt t id = .expired ↔ c.Dead t id := by
  unfold reasonAt
  split_ifs with hd <;> simp [hd]

theorem reasonAt_evicted (c : Cache) (t id : ℕ) : c.reasonAt t id = .evicted ↔ ¬ c.Dead t id := by
  unfold reasonAt
  split_ifs with hd <;> simp [hd]

theorem not_dead_zero (c : Cache) (id : ℕ) : ¬ c.Dead 0 id := fun hd => hd.1 (Nat.le_zero.1 hd.2)

theorem Blind.stores (hb : c.Blind call) : (storeCall hash c call).isSome = true := by
  obtain ⟨id, hid, _⟩ := hb
  cases call <;> simp only [recharged, Option.mem_def, reduceCtorEq] at hid
  case rechargeObject key => rfl
  case rechargeRef entry =>
    split_ifs at hid with hin
    rw [storeCall, if_pos hin]
    rfl

variable {id : ℕ}

/-- a call that is not blind, or meets no expired entry, judges at the time at which it is made -/
theorem reasonFor_eq (hok : ¬ (c.Blind call ∧ ∃ id ∈ removedBy hash c call, c.Dead t id)) (hid : id ∈ removedBy hash c call) :
    (reasonFor hash c call t id = .expired ↔ c.Dead t id) ∧
      (reasonFor hash c call t id = .evicted ↔ (storeCall hash c call).isSome = true ∧ ¬ c.Dead t id) := by
  unfold reasonFor
  by_cases hs : (storeCall hash c call).isSome = true
  · rw [if_pos hs, reasonAt_expired, reasonAt_evicted]
    have hsame : c.Dead (c.judgedAt call t) id ↔ c.Dead t id := by
      unfold judgedAt
      split_ifs with hb
      · exact iff_of_false (not_dead_zero c id) fun hd => hok ⟨hb, id, hid, hd⟩
      · exact Iff.rfl
    rw [hsame]
    exact ⟨Iff.rfl, (and_iff_right hs).symm⟩
  · rw [if_neg hs]
    unfold quietReason
    split_ifs with hd <;> simp [hd, hs]

/-- the books are right when no recharge is blind to an expired entry -/
theorem accounted_of_clocked (h : Core hash c) (hw : c.Within) (ht : c.Fixed t)
    (hok : ¬ (c.Blind call ∧ ∃ id ∈ removedBy hash c call, c.Dead t id)) : Accounted hash c t call := by
  obtain ⟨b1, b2, b3⟩ := step_books h hw call ht
  have hexpired : (removedBy hash c call).filter (reasonFor hash c call t · = .expired) =
      (removedBy hash c call).filter (c.Dead t) := by
    refine filter_congr fun id hid => ?_
    rw [decide_eq_decide]
    exact (reasonFor_eq hok hid).1
  have hevicted : (removedBy hash c call).filter (reasonFor hash c call t · = .evicted) =
      (victims hash c call).filter (¬ c.Dead t ·) := by
    unfold victims
    split_ifs with hs
    · refine filter_congr fun id hid => ?_
      rw [decide_eq_decide, (reasonFor_eq hok hid).2]
      exact and_iff_right hs
    · refine filter_eq_nil_iff.2 fun id hid => ?_
      rw [decide_eq_true_eq, (reasonFor_eq hok hid).2]
      exact fun hc => hs hc.1
  rw [hexpired] at b1
  rw [hevicted] at b2 b3
  exact ⟨b1, b2, b3⟩

/-- a recharge that is blind to an expired entry counts nothing as expired -/
theorem not_accounted_of_blind (h : Core hash c) (hw : c.Within) (ht : c.Fixed t) (hb : c.Blind call)
    (hdead : ∃ id ∈ removedBy hash c call, c.Dead t id) : ¬ Accounted hash c t call := by
  intro ha
  have hbook := (step_books h hw call ht).1
  have hnone : (removedBy hash c call).filter (reasonFor hash c call t · = .expired) = [] := by
    refine filter_eq_nil_iff.2 fun id _ => ?_
    rw [decide_eq_true_eq, reasonFor, if_pos hb.stores, judgedAt, if_pos hb, reasonAt_expired]
    exact not_dead_zero c id
  rw [ha.expired, hnone, length_nil] at hbook
  obtain ⟨id, hid, hd⟩ := hdead
  have hpos : id ∈ (removedBy hash c call).filter (c.Dead t) := mem_filter.2 ⟨hid, by simpa using hd⟩
  have := length_pos_of_mem hpos
  omega

/-! ## What a blind recharge removes -/

/-- there is one shortest suffix -/
theorem Shortest.unique {α : Type} {fits : List α → Prop} {kept gone kept' gone' : List α} (hs : Shortest fits kept gone)
    (hs' : Shortest fits kept' gone') (heq : kept ++ gone = kept' ++ gone') : gone = gone' := by
  rcases lt_trichotomy gone.length gone'.length with hlt | hlen | hlt
  · exact absurd hs.1 (hs'.2 kept gone heq.symm hlt)
  · exact (append_inj' heq hlen).2
  · exact absurd hs'.1 (hs.2 kept' gone' heq hlt)

/-- the call recharges an entry without a deadline, and of the other entries in LRU order the shortest suffix that has to go
for the new charge holds one whose deadline has passed at time `t` -/
def Overlooks (c : Cache) (call : Call) (t : ℕ) : Prop :=
  ∃ id ∈ c.recharged call, c.expireAt id = 0 ∧ c.newCharge id ≠ sizeMax ∧
    ∃ xs kept gone, c.LruOrder xs ∧ xs.filter (· ≠ id) = kept ++ gone ∧ Shortest (c.Fits (c.newCharge id)) kept gone ∧
      ∃ b ∈ gone, c.Dead t b

/-- a recharge after a look-up that left the entries as they were -/
theorem recharge_moves {f : Cache} {xs : List ℕ} (hs : Shrinks hash c f) (m : Moves c f none []) (h : Core hash c)
    (hx : c.LruOrder xs) (hid : id ∈ c.ids) (hz : c.expireAt id = 0) :
    ((c.newCharge id = sizeMax ∨ (c.maxMemory ≠ 0 ∧ c.newCharge id > c.maxMemory)) ∧ Moves c (f.cacheRechargeRef (some id)).1 none []) ∨
      c.newCharge id ≠ sizeMax ∧ ∃ kept removals, Moves c (f.cacheRechargeRef (some id)).1 (some id) removals ∧
        xs.filter (· ≠ id) = kept ++ (named removals).reverse ∧
        Shortest (c.Fits (c.newCharge id)) kept (named removals).reverse := by
  have hids : ∀ b, b ∈ f.ids ↔ b ∈ c.ids := fun b => by rw [m.mem h b]; simp [named]
  have hxf := hs.order xs hx
  rw [filter_eq_self.2 fun b hb => by simpa using (hids b).2 ((hx.mem b).1 hb)] at hxf
  have hsame : f.newCharge id = c.newCharge id := by
    unfold newCharge
    rw [m.keys id (h.fresh id hid), hs.entry]
  have hmakes := cacheRechargeRef_makes hs.core ((hids id).2 hid) hxf
  rw [hsame, hs.limits.2] at hmakes
  rcases hmakes with ⟨hno, hstill, _⟩ | ⟨⟨_, hmax, hcharge⟩, kept, removals, mk⟩
  · refine Or.inl ⟨?_, m.then_still hstill⟩
    rcases hno with ⟨_, hdead⟩ | ⟨_, hbig⟩
    · exact absurd hz ((dead_congr hs.entry _ id).1 hdead).1
    · exact hbig
  · refine Or.inr ⟨hmax, kept, removals, ?_, mk.split, ?_⟩
    · rw [← nil_append removals]
      refine m.before mk.moves h fun b hb => ?_
      cases hb
      exact Or.inl ((hids id).2 hid)
    · rw [← hs.fits, ← hcharge]
      exact mk.least

/-- a blind recharge, after the look-up of its entry -/
theorem Blind.step_eq (h : Core hash c) (hid : id ∈ c.recharged call) (hz : c.expireAt id = 0) :
    id ∈ c.ids ∧ ∃ f, Shrinks hash c f ∧ Moves c f none [] ∧ step hash c call = (f.cacheRechargeRef (some id)).1 := by
  cases call <;> simp only [recharged, Option.mem_def, reduceCtorEq] at hid
  case rechargeObject key =>
    obtain ⟨hin, hkey⟩ := h.of_lookup hid
    obtain ⟨hs, hfound, l, m, hl⟩ := findLive_moves h key uint64Max
    -- the entry of the key has no deadline, so the look-up removes nothing
    have hnil : l = [] := by
      refine eq_nil_iff_forall_not_mem.2 fun p hp => ?_
      obtain ⟨_, hp1, hp2, hdead⟩ := (hl p).1 hp
      have hsame : id = p.1 := Option.some.inj (hid.symm.trans (hp2 ▸ h.lookup_entryKey hp1))
      exact hdead.1 (hsame ▸ hz)
    rw [hnil] at m
    refine ⟨hin, _, hs, m, ?_⟩
    have hinf : id ∈ (c.findLive hash key uint64Max).1.ids := (m.mem h id).2 (Or.inr ⟨hin, not_mem_nil⟩)
    have hlook := hs.core.lookup_entryKey hinf
    rw [m.keys id (h.fresh id hin), hkey, ← hfound] at hlook
    change ((c.findLive hash key uint64Max).1.cacheRechargeRef (c.findLive hash key uint64Max).2).1 = _
    rw [hlook]
  case rechargeRef entry =>
    split_ifs at hid with hin
    cases hid
    exact ⟨hin, c, .refl h, (Still.refl c).moves, by rw [step, if_pos hin]⟩

/-- a blind recharge removes an expired entry exactly when one is among those that have to go -/
theorem overlooks_iff (h : Core hash c) :
    c.Overlooks call t ↔ c.Blind call ∧ ∃ id ∈ removedBy hash c call, c.Dead t id := by
  constructor
  · rintro ⟨id, hid, hz, hmax, xs, kept, gone, hx, hsplit, hleast, b, hb, hdead⟩
    refine ⟨⟨id, hid, hz⟩, b, ?_, hdead⟩
    obtain ⟨hin, f, hs, m, hstep⟩ := Blind.step_eq h hid hz
    rcases recharge_moves hs m h hx hin hz with ⟨hbig, _⟩ | ⟨_, kept', removals, mv, hsplit', hleast'⟩
    · -- what is kept fits, so the entry alone does
      have hfits := hleast.1
      unfold Fits limitsExceeded at hfits
      rw [decide_eq_false_iff_not] at hfits
      omega
    · have hgone := hleast.unique hleast' (hsplit.symm.trans hsplit')
      rw [removedBy, hstep, ← (mv.named_perm h).mem_iff, ← mem_reverse, ← hgone]
      exact hb
  · rintro ⟨⟨id, hid, hz⟩, b, hb, hdead⟩
    obtain ⟨xs, hx⟩ := h.lruOrder
    obtain ⟨hin, f, hs, m, hstep⟩ := Blind.step_eq h hid hz
    rw [removedBy, hstep] at hb
    rcases recharge_moves hs m h hx hin hz with ⟨_, mv⟩ | ⟨hmax, kept, removals, mv, hsplit, hleast⟩
    · exact absurd ((mv.named_perm h).mem_iff.2 hb) not_mem_nil
    · exact ⟨id, hid, hz, hmax, xs, kept, _, hx, hsplit, hleast, b, mem_reverse.2 ((mv.named_perm h).mem_iff.2 hb), hdead⟩

/-- **Expired and evicted.** For every call at every time in every reachable cache: removed entries whose deadline has passed
are counted as expired and not reported, live entries removed to make room are counted as evicted and reported once, unless
the call recharges an entry without a deadline and an entry whose deadline has passed has to go for it. -/
theorem accounted_iff (hc : Reachable hash c) (t : ℕ) (call : Call) :
    Accounted hash (c.atTime t) t call ↔ ¬ (c.atTime t).Overlooks call t := by
  obtain ⟨h, hw⟩ := hc.advances
  have h' : Core hash (c.atTime t) := { h with }
  have hw' : (c.atTime t).Within := { hw with }
  have ht : (c.atTime t).Fixed t := fun _ => rfl
  rw [overlooks_iff h']
  constructor
  · rintro ha ⟨hb, hdead⟩
    exact not_accounted_of_blind h' hw' ht hb hdead ha
  · exact accounted_of_clocked h' hw' ht

/-- a store at time 10 over a full cache counts the entry that expired at 5 as expired -/
theorem accounted_iff_store :
    Accounted (fun _ => 0) ((run (fun _ => 0) (cacheCreate 1 0 fun _ => 0)
      [.storeObject ⟨true, true, ⟨true, true⟩⟩ [1] ⟨.string [7] 1, 42⟩ 5 false]).atTime 10) 10
      (.storeObject ⟨true, true, ⟨true, true⟩⟩ [2] ⟨.string [7] 1, 42⟩ 0 false) :=
  (accounted_iff ⟨1, 0, _, _, rfl⟩ 10 _).2 (by rintro ⟨id, hid, _⟩; cases hid)

/-- a String that expires at time 5 and a Hash without a deadline, to which its holder adds a field of 100 bytes -/
def grownHash : List Call :=
  [.storeObject ⟨true, true, ⟨true, true⟩⟩ [1] ⟨.string [7] 1, 42⟩ 5 false,
    .storeObject ⟨true, true, ⟨true, true⟩⟩ [2] ⟨.hash KvHash.kvHashCreate, 216⟩ 0 false,
    .mutate 1 (kvObjectHashSet (fun _ => 0) ⟨true, ⟨true, true⟩⟩ ⟨.hash KvHash.kvHashCreate, 216⟩ [1] (List.replicate 100 7)).1]

/-- the cache at time 10, with a limit of 500 bytes -/
def grownCache : Cache := (run (fun _ => 0) (cacheCreate 0 500 fun _ => 0) grownHash).atTime 10

/-- **A blind recharge.** With a limit of 500 bytes the Hash is recharged at time 10: the String, which expired at 5, has to
go, is counted as evicted, not as expired, and is reported. -/
theorem recharge_miscounts :
    grownCache.Dead 10 0 ∧
      0 ∈ victims (fun _ => 0) grownCache (.rechargeRef 1) ∧
      (step (fun _ => 0) grownCache (.rechargeRef 1)).expiredKeys = 0 ∧
      (step (fun _ => 0) grownCache (.rechargeRef 1)).evictedKeys = 1 ∧
      (step (fun _ => 0) grownCache (.rechargeRef 1)).evicted = [[1]] ∧
      ¬ Accounted (fun _ => 0) grownCache 10 (.rechargeRef 1) := by
  refine ⟨by decide +kernel, by decide +kernel, by decide +kernel, by decide +kernel, by decide +kernel, fun ha => ?_⟩
  exact absurd ha.expired (by decide +kernel)

end StoreSystem.Cache
