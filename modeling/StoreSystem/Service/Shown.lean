/-
The keyspace a cache shows at a time, and what the calls of the cache do to it while the clock stands still.

A cache keeps expired objects until they are looked up, so what it shows at `t` is what it stores without the objects whose
deadline is at most `t`. `Becomes` says how a call turns one shown keyspace into another, which keys were evicted on the way
and which of them were reported; the effects of the single calls are instances of it.
-/
import StoreSystem.Service.Keyspace

namespace StoreSystem

open Function

/-! ## What a cache shows -/

variable {t : ℕ} {stored : Bytes → Option (Obj × ℕ)}

/-- a deadline as the cache stores it: 0 for none -/
def deadlineOf (d : ℕ) : Option ℕ := if d = 0 then none else some d

/-- stored bindings as a keyspace -/
def lift (stored : Bytes → Option (Obj × ℕ)) : Keyspace := fun key => (stored key).map fun v => (v.1, deadlineOf v.2)

/-- a keyspace without some keys -/
def Keyspace.without (gone : List Bytes) (ks : Keyspace) : Keyspace := fun key => if key ∈ gone then none else ks key

theorem Keyspace.without_nil (ks : Keyspace) : Keyspace.without [] ks = ks := by
  funext key
  exact if_neg List.not_mem_nil

theorem alive_deadlineOf {d : ℕ} : alive t (deadlineOf d) = true ↔ ¬ (d ≠ 0 ∧ d ≤ t) := by
  unfold deadlineOf
  split_ifs with hd
  · simp [alive, hd]
  · simp only [alive, decide_eq_true_eq]
    omega

theorem deadlineOf_zero : deadlineOf 0 = none := rfl

theorem deadlineOf_pos {d : ℕ} (hd : d ≠ 0) : deadlineOf d = some d := if_neg hd

theorem deadlineOf_getD (d : ℕ) : (deadlineOf d).getD 0 = d := by
  unfold deadlineOf
  split_ifs with hd
  · exact hd.symm
  · rfl

theorem lift_update (stored : Bytes → Option (Obj × ℕ)) (key : Bytes) (v : Option (Obj × ℕ)) :
    lift (update stored key v) = update (lift stored) key (v.map fun v => (v.1, deadlineOf v.2)) := by
  funext k
  unfold lift
  rw [update_apply, update_apply]
  split_ifs <;> rfl

theorem after_without (gone : List Bytes) (stored : Bytes → Option (Obj × ℕ)) (t : ℕ) :
    (lift (Cache.without gone stored)).after t = Keyspace.without gone ((lift stored).after t) := by
  funext k
  unfold Keyspace.without Keyspace.after lift Cache.without
  split_ifs <;> rfl

/-- a binding that is expired is not shown -/
theorem after_expired {key : Bytes} (h : Cache.Expired t (stored key)) : (lift stored).after t key = none := by
  obtain ⟨o, d, hk, hd⟩ := h
  have halive : ¬ alive t (deadlineOf d) = true := fun hc => alive_deadlineOf.1 hc hd
  rw [Keyspace.after, lift, hk, Option.map_some, Option.filter_some, if_neg halive]

/-- a look-up takes nothing away that is still there -/
theorem after_reap (stored : Bytes → Option (Obj × ℕ)) (t : ℕ) (key : Bytes) :
    (lift (Cache.reap t stored key)).after t = (lift stored).after t := by
  unfold Cache.reap
  split_ifs with hexp
  · rw [lift_update, Keyspace.after_update, ← update_eq_self key ((lift stored).after t), after_expired hexp]
    simp
  · rfl

/-- a binding that is not expired is shown -/
theorem after_some {key : Bytes} {v : Obj × ℕ} (hk : stored key = some v)
    (hl : ¬ (v.2 ≠ 0 ∧ v.2 ≤ t)) : (lift stored).after t key = some (v.1, deadlineOf v.2) := by
  rw [Keyspace.after, lift, hk]
  simp [alive_deadlineOf.2 hl]

/-- what is shown under a key after a look-up is what is stored there -/
theorem after_reaped (t : ℕ) (key : Bytes) :
    (lift stored).after t key = (Cache.reap t stored key key).map fun v => (v.1, deadlineOf v.2) := by
  rw [← after_reap stored t key]
  cases hr : Cache.reap t stored key key with
  | none => rw [Keyspace.after, lift, hr]; rfl
  | some v => exact after_some hr (Cache.reap_some hr).2

namespace Cache

variable {hash : Hasher} {t : ℕ} {c c' c'' : Cache}

/-- the keyspace a cache shows at time `t` -/
def shown (c : Cache) (t : ℕ) : Keyspace := (lift c.keyspace).after t

theorem shown_later (c : Cache) {t t' : ℕ} (h : t ≤ t') : c.shown t' = (c.shown t).after t' :=
  (Keyspace.after_after _ h).symm

/-- the invariants of a cache whose clock reads `t` -/
structure Good (hash : Hasher) (t : ℕ) (c : Cache) : Prop where
  core : Core hash c
  within : c.Within
  sound : c.Sound hash
  fixed : c.Fixed t

/-- no object has a deadline -/
def Timeless (c : Cache) : Prop := ∀ k v, c.keyspace k = some v → v.2 = 0

variable {id : ℕ}

theorem Timeless.expireAt (h : c.Timeless) (hc : Core hash c) (hid : id ∈ c.ids) : c.expireAt id = 0 :=
  h _ _ (keyspace_entryKey hc hid)

/-- without deadlines what is stored is shown at all times -/
theorem Timeless.shown (h : c.Timeless) (t : ℕ) : c.shown t = lift c.keyspace := by
  funext k
  rw [Cache.shown, Keyspace.after, lift]
  cases hk : c.keyspace k with
  | none => rfl
  | some v => simp [h k v hk, deadlineOf, alive]

theorem Timeless.bound (h : c.Timeless) (t : ℕ) : {k | (c.shown t k).isSome} = {k | (KvHash.lookup c.index k).isSome} := by
  rw [h.shown]
  simp only [lift, keyspace_eq, Option.isSome_map]

/-- without deadlines the index counts what is shown -/
theorem Timeless.count (h : c.Timeless) (hc : Core hash c) (t : ℕ) :
    KvHash.kvHashCount c.index = {k | (c.shown t k).isSome}.ncard := by
  rw [KvHash.count_eq_ncard hc.dict, h.bound t]

theorem Timeless.finite (h : c.Timeless) (hc : Core hash c) (t : ℕ) : {k | (c.shown t k).isSome}.Finite := by
  rw [h.bound t]
  exact KvHash.bound_finite hc.dict

/-- **A step of the cache** from showing one keyspace to showing `ks` without the evicted keys `gone` -/
structure Becomes (hash : Hasher) (t : ℕ) (c c' : Cache) (gone : List Bytes) (ks : Keyspace) : Prop where
  good : Good hash t c'
  limits : c'.maxKeys = c.maxKeys ∧ c'.maxMemory = c.maxMemory
  shown : c'.shown t = Keyspace.without gone ks
  /-- what is stored was stored before or is shown -/
  stored : ∀ k v, c'.keyspace k = some v → c.keyspace k = some v ∨ ks k = some (v.1, deadlineOf v.2)
  charged : c.Charged → c'.Charged
  logged : ∃ reported, c'.evicted = c.evicted ++ reported ∧ reported.Sublist gone ∧ (c.Timeless → reported = gone)
  /-- nothing is evicted from a keyspace that fits -/
  roomy : c.maxMemory = 0 → c.maxKeys = 0 ∨ c.Timeless ∧ {k | (ks k).isSome}.ncard ≤ c.maxKeys → gone = []

variable {gone : List Bytes} {ks : Keyspace}

/-- a call that leaves the keyspace alone, and then another -/
theorem Becomes.trans (h : Becomes hash t c c' [] (c.shown t))
    (h' : Becomes hash t c' c'' gone ks) : Becomes hash t c c'' gone ks := by
  have hstored : ∀ k v, c'.keyspace k = some v → c.keyspace k = some v := by
    intro k v hv
    rcases h.stored k v hv with h1 | h1
    · exact h1
    · -- what `c` shows it stores
      rw [Cache.shown, after_reaped, Option.map_eq_some_iff] at h1
      obtain ⟨w, hw, he⟩ := h1
      rw [Prod.mk.injEq] at he
      have hd : w.2 = v.2 := by
        rw [← deadlineOf_getD w.2, he.2, deadlineOf_getD]
      rw [← show w = v from Prod.ext he.1 hd]
      exact (reap_some hw).1
  have hlog : c'.evicted = c.evicted := by
    obtain ⟨reported, h1, h2, _⟩ := h.logged
    rw [h1, List.sublist_nil.1 h2, List.append_nil]
  refine ⟨h'.good, ⟨h'.limits.1.trans h.limits.1, h'.limits.2.trans h.limits.2⟩, h'.shown, fun k v hv => ?_,
    fun hc => h'.charged (h.charged hc), ?_,
    fun hm hroom => h'.roomy (h.limits.2.trans hm) (hroom.imp h.limits.1.trans fun ⟨ht, hn⟩ =>
      ⟨fun k v hv => ht k v (hstored k v hv), h.limits.1.symm ▸ hn⟩)⟩
  · exact (h'.stored k v hv).imp_left (hstored k v)
  · obtain ⟨reported, h1, h2, h3⟩ := h'.logged
    exact ⟨reported, by rw [h1, hlog], h2, fun ht => h3 fun k v hv => ht k v (hstored k v hv)⟩

/-- without limits nothing is evicted -/
theorem Becomes.unlimited (h : Becomes hash t c c' gone ks) (hk : c.maxKeys = 0) (hm : c.maxMemory = 0) : gone = [] :=
  h.roomy hm (Or.inl hk)

theorem Becomes.shown_eq (h : Becomes hash t c c' [] ks) : c'.shown t = ks := by
  rw [h.shown, Keyspace.without_nil]

theorem Becomes.timeless (h : Becomes hash t c c' gone ks) (hc : c.Timeless)
    (hks : ∀ k o d, ks k = some (o, d) → d = none) : c'.Timeless := by
  intro k v hv
  rcases h.stored k v hv with h1 | h1
  · exact hc k v h1
  · have := hks k _ _ h1
    unfold deadlineOf at this
    split_ifs at this with hd
    exact hd

/-- an effect as a step -/
theorem Effect.becomes {raw : Bytes → Option (Obj × ℕ)} (hg : Good hash t c) (he : Effect hash c c' raw)
    (hraw : ∀ k v, raw k = some v → c.keyspace k = some v ∨ ¬ (v.2 ≠ 0 ∧ v.2 ≤ t)) :
    Becomes hash t c c' [] ((lift raw).after t) := by
  refine ⟨⟨he.advances.core, he.advances.within, he.sound hg.sound, hg.fixed.later he.advances.later⟩, he.advances.limits, ?_,
    fun k v hv => ?_, he.charged, ⟨[], by simp [he.log], List.Sublist.refl _, fun _ => rfl⟩, fun _ _ => rfl⟩
  · rw [Cache.shown, he.keyspace, Keyspace.without_nil]
  · rw [he.keyspace] at hv
    exact (hraw k v hv).imp_right fun hl => after_some hv hl

variable {key : Bytes}

/-- an effect that shows the same keyspace -/
theorem Effect.unchanged (hg : Good hash t c) (he : Effect hash c c' (reap t c.keyspace key)) :
    Becomes hash t c c' [] (c.shown t) := by
  have h := he.becomes hg fun k v hv => Or.inl ?_
  · rwa [after_reap] at h
  · by_cases hk : k = key
    · subst hk
      exact (reap_some hv).1
    · rwa [reap_of_ne hk] at hv

theorem Becomes.refl (hg : Good hash t c) : Becomes hash t c c [] (c.shown t) :=
  (Effect.refl hg.core hg.within).becomes hg fun _ _ hv => Or.inl hv

theorem cacheNow_becomes (hg : Good hash t c) :
    Becomes hash t c c.cacheNow.2 [] (c.shown t) ∧ c.cacheNow.1 = t :=
  ⟨(cacheNow_effect hg.core hg.within).becomes hg fun _ _ hv => Or.inl hv, hg.fixed 0⟩

/-- the deadline an update keeps: that of the object that is shown -/
theorem keptDeadline_shown (c : Cache) (key : Bytes) :
    deadlineOf (keptDeadline t (c.keyspace key) 0) = (c.shown t key).bind Prod.snd := by
  rw [Cache.shown, after_reaped]
  cases hr : reap t c.keyspace key key with
  | none =>
    rw [keptDeadline_gone (reap_none hr)]
    rfl
  | some v =>
    obtain ⟨h1, h2⟩ := reap_some hr
    obtain ⟨o, d⟩ := v
    rw [h1, keptDeadline_live h2]
    rfl

variable {r : Cache × CacheSetResult} {object : KvObject} {d : ℕ}

/-- a store as a step -/
theorem StoreEffect.becomes (hg : Good hash t c) (he : StoreEffect hash c r key object d gone) (hok : r.2 = .ok)
    (hobj : object.Inv hash) (hd : ¬ (d ≠ 0 ∧ d ≤ t)) :
    Becomes hash t c r.1 gone (update (c.shown t) key (some (object.view, deadlineOf d))) ∧ key ∉ gone := by
  have hks := he.stored hok
  refine ⟨⟨⟨he.advances.core, he.advances.within, he.sound hg.sound hobj, hg.fixed.later he.advances.later⟩,
    he.advances.limits, ?_, fun k v hv => ?_, he.charged, ?_,
    fun hm hroom => he.roomy hm (hroom.imp_right fun hroom => ?_)⟩, he.keep⟩
  · rw [Cache.shown, hks, lift_update, Keyspace.after_update, after_without]
    funext k
    unfold Keyspace.without
    rw [update_apply, update_apply]
    by_cases hk : k = key
    · simp [hk, he.keep, alive_deadlineOf.2 hd]
    · simp [hk, Cache.shown]
  · rw [hks, update_apply] at hv
    by_cases hk : k = key
    · rw [if_pos hk, Option.some.injEq] at hv
      rw [hk, update_self, ← hv]
      exact Or.inr rfl
    · rw [if_neg hk, Cache.without] at hv
      split_ifs at hv
      exact Or.inl hv
  · obtain ⟨reported, h1, h2, h3⟩ := he.logged
    exact ⟨reported, h1, h2, fun ht => h3 fun id hid => ht.expireAt hg.core hid⟩
  · obtain ⟨htl, hn⟩ := hroom
    cases hk : c.keyspace key with
    | some v => exact Or.inl ⟨v.1, by rw [← htl key v hk]⟩
    | none =>
      refine Or.inr (lt_of_lt_of_le ?_ hn)
      have hmiss : key ∉ {k | (c.shown t k).isSome} := by
        simp [htl.shown, lift, hk]
      have hins : {k | ((update (c.shown t) key (some (object.view, deadlineOf d))) k).isSome}
          = insert key {k | (c.shown t k).isSome} := by
        ext k
        by_cases hkk : k = key <;> simp [update_apply, hkk]
      rw [htl.count hg.core t, hins, Set.ncard_insert_of_notMem hmiss (htl.finite hg.core t)]
      exact Nat.lt_succ_self _

/-- a store that is refused as a step -/
theorem StoreEffect.refusal (hg : Good hash t c) (he : StoreEffect hash c r key object d gone) (hr : r.2 = .capacity)
    (hobj : object.Inv hash) : Becomes hash t c r.1 [] (c.shown t) := by
  obtain ⟨_, hgone, hks⟩ := he.refused hr
  subst hgone
  refine ⟨⟨he.advances.core, he.advances.within, he.sound hg.sound hobj, hg.fixed.later he.advances.later⟩,
    he.advances.limits, ?_, fun k v hv => Or.inl (hks ▸ hv), he.charged, ?_, fun _ _ => rfl⟩
  · rw [Cache.shown, hks, Keyspace.without_nil]
    rfl
  · obtain ⟨reported, h1, h2, h3⟩ := he.logged
    exact ⟨reported, h1, h2, fun ht => h3 fun id hid => ht.expireAt hg.core hid⟩

/-- a recharge as a step -/
theorem RechargeEffect.becomes (hg : Good hash t c)
    (he : RechargeEffect hash c r id gone) : Becomes hash t c r.1 gone (c.shown t) := by
  refine ⟨⟨he.advances.core, he.advances.within, he.sound hg.sound, hg.fixed.later he.advances.later⟩, he.advances.limits, ?_,
    fun k v hv => ?_, he.charged, ?_, fun hm _ => he.roomy hm⟩
  · rw [Cache.shown, he.keyspace, after_without]
    rfl
  · rw [he.keyspace, Cache.without] at hv
    split_ifs at hv
    exact Or.inl hv
  · obtain ⟨reported, h1, h2, h3⟩ := he.logged
    exact ⟨reported, h1, h2, fun ht => h3 fun id hid => ht.expireAt hg.core hid⟩

/-! ## Look-ups -/

/-- what a look-up of a key finds -/
structure Finds (hash : Hasher) (t : ℕ) (c : Cache) (key : Bytes) (found : Cache × Option ℕ) : Prop where
  effect : Effect hash c found.1 (reap t c.keyspace key)
  becomes : Becomes hash t c found.1 [] (c.shown t)
  missing : found.2 = none → c.shown t key = none
  entry : ∀ id, found.2 = some id → id ∈ found.1.ids ∧ found.1.entryKey id = key ∧
    c.shown t key = some ((found.1.entry id).object.view, deadlineOf (found.1.expireAt id)) ∧
    ¬ (found.1.expireAt id ≠ 0 ∧ found.1.expireAt id ≤ t)

theorem finds_of_effect {found : Cache × Option ℕ} (hg : Good hash t c)
    (he : Effect hash c found.1 (reap t c.keyspace key)) (hf : found.2 = KvHash.lookup found.1.index key) :
    Finds hash t c key found := by
  refine ⟨he, he.unchanged hg, fun hn => ?_, fun id hid => ?_⟩
  · rw [Cache.shown, after_reaped, ← he.keyspace, keyspace_eq, ← hf, hn]
    rfl
  · rw [hf] at hid
    obtain ⟨h1, h2⟩ := he.advances.core.of_lookup hid
    have hk := keyspace_entryKey he.advances.core h1
    rw [h2] at hk
    refine ⟨h1, h2, ?_, ?_⟩
    · rw [Cache.shown, after_reaped, ← he.keyspace, hk]
      rfl
    · rw [he.keyspace] at hk
      exact (reap_some hk).2

theorem cacheGetObjectRef_finds (hg : Good hash t c) (key : Bytes) (record : Bool) :
    Finds hash t c key (c.cacheGetObjectRef hash key record) := by
  obtain ⟨h1, h2⟩ := cacheGetObjectRef_effect hg.core hg.within key record
  rw [decisionTime_max, hg.fixed 0] at h1
  exact finds_of_effect hg h1 h2

theorem cacheGetHashObjectRef_finds (hg : Good hash t c) (key : Bytes) (record : Bool) :
    Finds hash t c key (c.cacheGetHashObjectRef hash key record) := by
  obtain ⟨h1, h2⟩ := cacheGetHashObjectRef_effect hg.core hg.within key record
  rw [hg.fixed 0] at h1
  exact finds_of_effect hg h1 h2

/-- the state after a write through the pointer to a found object -/
structure Mutated (hash : Hasher) (t : ℕ) (c c' : Cache) (key : Bytes) (id : ℕ) (object : KvObject) : Prop where
  effect : ∃ d, Effect hash c c' (update c.keyspace key (some (object.view, d))) ∧
    (c.shown t key).map Prod.snd = some (deadlineOf d) ∧ ¬ (d ≠ 0 ∧ d ≤ t) ∧ c'.expireAt id = d
  entry : id ∈ c'.ids ∧ c'.entryKey id = key ∧ (c'.entry id).object = object
  timeless : c.Timeless → c'.Timeless

theorem Finds.mutate {found : Cache × Option ℕ} (hf : Finds hash t c key found)
    (hid : found.2 = some id) (ht : kvObjectType object = kvObjectType (found.1.entry id).object)
    (hobj : object.Inv hash)
    (hsmall : c.maxMemory ≠ 0 → kvObjectMemoryUsage object ≤ kvObjectMemoryUsage (found.1.entry id).object) :
    Mutated hash t c (found.1.mutate id object) key id object := by
  obtain ⟨h1, h2, h3, h4⟩ := hf.entry id hid
  have hadv := hf.effect.advances
  obtain ⟨hu, hused⟩ := mutate_updates hadv.core h1 ht
  have he := hf.effect.trans (hu.effect hadv.core hadv.within h1 hused (fun _ => hobj)
    fun hc => mutate_charged hc (hadv.limits.2 ▸ hsmall))
  rw [h2, hf.effect.keyspace, update_reap] at he
  refine ⟨⟨found.1.expireAt id, he, by rw [h3]; rfl, h4, hu.deadline⟩, ⟨hu.ids.symm ▸ h1, ?_, hu.object⟩, fun htl k v hv => ?_⟩
  · rw [← h2]
    unfold entryKey Cache.mutate setEntry
    simp only [update_self]
  · rw [he.keyspace, update_apply] at hv
    split_ifs at hv with hk
    · rw [Option.some.injEq] at hv
      have hs := keyspace_entryKey hadv.core h1
      rw [h2, hf.effect.keyspace] at hs
      rw [← hv]
      have hzero := htl _ _ (reap_some hs).1
      exact hzero
    · exact htl k v hv

section

variable (hg : Good hash t c) (hm : Mutated hash t c c' key id object)
include hg hm

/-- the keyspace an object is shown in after a write through its pointer -/
theorem Mutated.becomes :
    ∃ d, (c.shown t key).map Prod.snd = some d ∧
      Becomes hash t c c' [] (update (c.shown t) key (some (object.view, d))) := by
  obtain ⟨d, he, h1, h2, _⟩ := hm.effect
  refine ⟨deadlineOf d, h1, ?_⟩
  have h := he.becomes hg fun k v hv => ?_
  · rwa [lift_update, Keyspace.after_update, Option.map_some, Option.filter_some, if_pos (alive_deadlineOf.2 h2)] at h
  · rw [update_apply] at hv
    split_ifs at hv with hk
    · rw [Option.some.injEq] at hv
      exact Or.inr (hv ▸ h2)
    · exact Or.inl hv

/-- a write through a pointer and the recharge of its entry -/
theorem Mutated.recharge :
    ∃ gone d, (c.shown t key).map Prod.snd = some d ∧ key ∉ gone ∧
      Becomes hash t c (c'.cacheRechargeRef (some id)).1 gone (update (c.shown t) key (some (object.view, d))) ∧
      ((c'.cacheRechargeRef (some id)).2 = .capacity → c.Charged → entryMemoryCharge key.length object = sizeMax) ∧
      (c'.cacheRechargeRef (some id)).2 ≠ .error ∧ (c'.cacheRechargeRef (some id)).2 ≠ .range := by
  obtain ⟨d, hd, hb⟩ := hm.becomes hg
  obtain ⟨e, _, _, hlive, hexp⟩ := hm.effect
  obtain ⟨gone, hr⟩ := cacheRechargeRef_effect hb.good.core hb.good.within hm.entry.1
  have hb' := hr.becomes hb.good
  have hnil : c'.evicted = c.evicted := by
    obtain ⟨reported, h1, h2, _⟩ := hb.logged
    rw [h1, List.sublist_nil.1 h2, List.append_nil]
  refine ⟨gone, d, hd, hm.entry.2.1 ▸ hr.keep, ⟨hb'.good, ⟨hb'.limits.1.trans hb.limits.1, hb'.limits.2.trans hb.limits.2⟩, ?_,
    fun k v hv => ?_, fun hc => hb'.charged (hb.charged hc), ?_, fun hm _ => hr.roomy (hb.limits.2.trans hm)⟩,
    fun hc hcharged => ?_, ?_,
    hr.inRange⟩
  · rw [hb'.shown, hb.shown_eq]
  · rw [hr.keyspace, Cache.without] at hv
    split_ifs at hv
    exact hb.stored k v hv
  · obtain ⟨reported, h1, h2, h3⟩ := hb'.logged
    exact ⟨reported, by rw [h1, hnil], h2, fun htl => h3 (hm.timeless htl)⟩
  · have := hr.covered hb.good.core hb.good.within hm.entry.1 (hb.charged hcharged) hc
    rwa [hm.entry.2.1, hm.entry.2.2] at this
  · intro hc
    have := hr.expired hc
    rw [hexp, hb.good.fixed 0] at this
    exact hlive this

/-- a write through a pointer and the deletion of its key -/
theorem Mutated.delete :
    Becomes hash t c (c'.cacheDelete hash key).1 [] (update (c.shown t) key none) ∧
      (c'.cacheDelete hash key).2 = 1 := by
  obtain ⟨d, he, hs, hlive, _⟩ := hm.effect
  obtain ⟨h1, h2⟩ := cacheDelete_effect he.advances.core he.advances.within key
  constructor
  · have h := (he.trans h1).becomes hg fun k v hv => Or.inl ?_
    · rwa [he.keyspace, update_idem, lift_update, Keyspace.after_update] at h
    · rw [he.keyspace, update_idem, update_apply] at hv
      split_ifs at hv
      exact hv
  · have hself : update c.keyspace key (some (object.view, d)) key = some (object.view, d) := update_self ..
    rw [h2, he.keyspace, (hg.fixed.later he.advances.later) 0, reap_eq_self hself hlive, hself]
    rfl

end

/-! ## Deletion and deadlines -/

theorem cacheDelete_becomes (hg : Good hash t c) (key : Bytes) :
    Becomes hash t c (c.cacheDelete hash key).1 [] (update (c.shown t) key none) ∧
      (c.cacheDelete hash key).2 = if (c.shown t key).isSome then 1 else 0 := by
  obtain ⟨he, hr⟩ := cacheDelete_effect hg.core hg.within key
  have h := he.becomes hg fun k v hv => Or.inl ?_
  · rw [lift_update, Keyspace.after_update] at h
    refine ⟨h, ?_⟩
    rw [hr, hg.fixed 0, Cache.shown, after_reaped, Option.isSome_map]
  · rw [update_apply] at hv
    split_ifs at hv
    exact hv

/-- a keyspace in which the object under a key, if any, has another deadline -/
def withDeadline (ks : Keyspace) (key : Bytes) (d : Option ℕ) : Keyspace :=
  match ks key with
  | none => ks
  | some (o, _) => update ks key (some (o, d))

theorem after_setDeadline (stored : Bytes → Option (Obj × ℕ)) (key : Bytes) (hd : ¬ (d ≠ 0 ∧ d ≤ t)) :
    (lift (setDeadline (reap t stored key) key d)).after t = withDeadline ((lift stored).after t) key (deadlineOf d) := by
  unfold setDeadline withDeadline
  rw [after_reaped t key]
  cases hr : reap t stored key key with
  | none => exact after_reap stored t key
  | some v =>
    simp only [Option.map_some]
    rw [lift_update, Keyspace.after_update, after_reap, Option.map_some, Option.filter_some, if_pos (alive_deadlineOf.2 hd)]

theorem setDeadline_stored (stored : Bytes → Option (Obj × ℕ)) (key : Bytes) (hd : ¬ (d ≠ 0 ∧ d ≤ t)) (k : Bytes)
    (v : Obj × ℕ) (hv : setDeadline (reap t stored key) key d k = some v) : stored k = some v ∨ ¬ (v.2 ≠ 0 ∧ v.2 ≤ t) := by
  have hreap : ∀ w, reap t stored key k = some w → stored k = some w := by
    intro w hw
    by_cases hk : k = key
    · subst hk
      exact (reap_some hw).1
    · rwa [reap_of_ne hk] at hw
  unfold setDeadline at hv
  cases hr : reap t stored key key with
  | none =>
    rw [hr] at hv
    exact Or.inl (hreap v hv)
  | some w =>
    simp only [hr, update_apply] at hv
    split_ifs at hv with hk
    · rw [Option.some.injEq] at hv
      exact Or.inr (hv ▸ hd)
    · exact Or.inl (hreap v hv)

theorem cacheExpireAt_becomes (hg : Good hash t c) (heapOk : Bool) (key : Bytes) (hd : t < d)
    (hok : 0 ≤ (c.cacheExpireAt hash heapOk key d).2) :
    Becomes hash t c (c.cacheExpireAt hash heapOk key d).1 [] (withDeadline (c.shown t) key (some d)) ∧
      (c.cacheExpireAt hash heapOk key d).2 = if (c.shown t key).isSome then 1 else 0 := by
  have hpos : d ≠ 0 := by omega
  have hlive : ¬ (d ≠ 0 ∧ d ≤ t) := by omega
  obtain ⟨τ, hτ, ⟨h1, _⟩ | ⟨h1, h2⟩⟩ := cacheExpireAt_effect hg.core hg.within heapOk key hpos
  · rw [h1] at hok
    exact absurd hok (by decide)
  · have hτ := hτ t hg.fixed
    subst hτ
    have h := h2.becomes hg (setDeadline_stored c.keyspace key hlive)
    rw [after_setDeadline c.keyspace key hlive, deadlineOf_pos hpos] at h
    refine ⟨h, ?_⟩
    rw [h1, Cache.shown, after_reaped, Option.isSome_map]

theorem cachePersist_becomes (hg : Good hash t c) (key : Bytes) :
    Becomes hash t c (c.cachePersist hash key).1 [] (withDeadline (c.shown t) key none) ∧
      (c.cachePersist hash key).2 = if ((c.shown t key).bind Prod.snd).isSome then 1 else 0 := by
  obtain ⟨he, hr⟩ := cachePersist_effect hg.core hg.within key
  rw [hg.fixed 0] at he hr
  have hlive : ¬ ((0 : ℕ) ≠ 0 ∧ 0 ≤ t) := fun h => h.1 rfl
  have h := he.becomes hg (setDeadline_stored c.keyspace key hlive)
  rw [after_setDeadline c.keyspace key hlive, deadlineOf_zero] at h
  refine ⟨h, ?_⟩
  rw [hr, Cache.shown, after_reaped]
  cases reap t c.keyspace key key with
  | none => rfl
  | some v =>
    simp only [hasDeadline, Option.map_some, Option.bind_some, deadlineOf]
    by_cases hz : v.2 = 0 <;> simp [hz]

/-- what `cache_ttl_ms` reports is what is left of the deadline that is shown -/
theorem cacheTtlMs_becomes (hg : Good hash t c) (key : Bytes) :
    Becomes hash t c (c.cacheTtlMs hash key).1 [] (c.shown t) ∧
      (c.cacheTtlMs hash key).2 = match c.shown t key with
        | none => -2
        | some (_, d) => remaining t d := by
  obtain ⟨τ, hτ, he, hr⟩ := cacheTtlMs_effect hg.core hg.within key
  have hτ := hτ t hg.fixed
  subst hτ
  refine ⟨he.unchanged hg, ?_⟩
  rw [hr, hg.fixed 0, Cache.shown, after_reaped]
  cases reap τ c.keyspace key key with
  | none => rfl
  | some v =>
    obtain ⟨o, d⟩ := v
    simp only [ttlOf, Option.map_some, deadlineOf]
    by_cases hz : d = 0
    · rw [if_pos hz, if_pos hz]
      rfl
    · rw [if_neg hz, if_neg hz]
      simp only [remaining]
      have hmax : (int64Max : ℤ) = 2 ^ 63 - 1 := by decide
      by_cases hbig : d - τ > int64Max
      · rw [if_pos hbig, hmax, min_eq_right (by omega)]
      · rw [if_neg hbig, min_eq_left (by omega)]

theorem cacheMaintain_becomes (hg : Good hash t c) (expireBudget rehashBudget : ℕ) :
    Becomes hash t c (c.cacheMaintain expireBudget rehashBudget).1 [] (c.shown t) := by
  obtain ⟨raw, he, hraw⟩ := cacheMaintain_effect hg.core hg.within expireBudget rehashBudget
  rw [hg.fixed 0] at hraw
  have h := he.becomes hg fun k v hv => Or.inl ?_
  · have hks : (lift raw).after t = c.shown t := by
      funext k
      rw [Cache.shown]
      rcases hraw k with h1 | ⟨h1, h2⟩
      · rw [Keyspace.after, lift, h1]
        rfl
      · rw [after_expired h2, Keyspace.after, lift, h1]
        rfl
    rwa [hks] at h
  · rcases hraw k with h1 | ⟨h1, _⟩
    · rwa [h1] at hv
    · rw [h1] at hv
      exact absurd hv (by simp)

end Cache

end StoreSystem
