/-
How the cache makes room.

An eviction loop takes the least recently used entries, the protected one excepted, and stops as soon as the limits are met:
what it takes is the shortest such suffix of the order (`evictLoop_clears`).

`Makes c c' id …`: the entry `id` went to the front with its new object and deadline, and of the other entries the shortest
suffix of the LRU order was removed that lets the rest and the entry itself within the limits. The parts of
`cache_store_object` and `cache_recharge_ref` all do that (`storeReplace_makes`, `storeOver_makes`, `storeNew_makes`,
`cacheRechargeRef_makes`); what the calls do to the keyspace, to the order and to the counters is read off it.
-/
import StoreSystem.Cache.Moves

namespace StoreSystem.Cache

open List Function
open KvHash (HashTable Node)

variable {hash : Hasher} {c c' : Cache} {xs : List ℕ} {removals : List (ℕ × RemovalReason)} {id : ℕ}

/-! ## The eviction loops -/

variable {keep : ℕ} {reread : Bool}

theorem limitsExceeded_enabled (h : Core hash c) {keys memory : ℕ} (hl : c.limitsExceeded keys memory = true) :
    c.lruEnabled = true := by
  rw [h.enabled, decide_eq_true_eq]
  unfold limitsExceeded at hl
  rw [decide_eq_true_eq] at hl
  exact hl.imp And.left And.left

theorem limitsExceeded_within (hl : c.limitsExceeded (KvHash.kvHashCount c.index) c.usedMemory = false) : c.Within := by
  unfold limitsExceeded at hl
  rw [decide_eq_false_iff_not] at hl
  push Not at hl
  exact ⟨hl.1, hl.2⟩

/-- `gone` is the shortest suffix of `kept ++ gone` whose removal leaves a list that fits -/
def Shortest {α : Type} (fits : List α → Prop) (kept gone : List α) : Prop :=
  fits kept ∧ ∀ a b, kept ++ gone = a ++ b → b.length < gone.length → ¬ fits a

/-- an entry with charge `own` and the entries of a list together are within the limits -/
def Fits (c : Cache) (own : ℕ) (ys : List ℕ) : Prop := c.limitsExceeded (ys.length + 1) (own + (ys.map c.charge).sum) = false

variable {own now : ℕ} {projected : Option ℕ} {r : Cache × Option ℕ × Bool}

/-- an entry that fits alone -/
theorem fits_nil (hfits : c.maxMemory = 0 ∨ own ≤ c.maxMemory) : c.Fits own [] := by
  unfold Fits limitsExceeded
  simp only [length_nil, map_nil, sum_nil, Nat.add_zero, decide_eq_false_iff_not]
  omega

/-- the next candidate is the least recently used entry apart from the protected one -/
theorem evictionCandidate_eq (hx : c.LruOrder xs) (he : c.lruEnabled = true) (hk : keep ∈ xs) :
    c.evictionCandidate keep = (xs.filter (· ≠ keep)).getLast? := by
  have hrep := hx.links he
  unfold evictionCandidate
  rw [hrep.tail]
  obtain ⟨p, last, rfl⟩ : ∃ p last, xs = p ++ [last] := by
    rcases eq_nil_or_concat xs with rfl | ⟨p, last, hxs⟩
    · exact absurd hk not_mem_nil
    · exact ⟨p, last, by simpa using hxs⟩
  rw [List.getLast?_append, List.getLast?_singleton, Option.some_or]
  split_ifs with hlast
  · rw [Option.some.injEq] at hlast
    subst hlast
    have hfilter := LinkedList.filter_ne_middle hx.nodup
    rw [append_nil] at hfilter
    rw [hrep.previous p last [] rfl, hfilter]
  · have hone : [last].filter (· ≠ keep) = [last] := filter_eq_self.2 (by simpa using hlast)
    rw [filter_append, hone, List.getLast?_append, List.getLast?_singleton, Option.some_or]

/-- the reason a loop that knows the time removes an entry for -/
def reasonAt (c : Cache) (τ id : ℕ) : RemovalReason := if c.Dead τ id then .expired else .evicted

theorem reasonAt_congr (he : c'.entry = c.entry) (τ id : ℕ) : c'.reasonAt τ id = c.reasonAt τ id :=
  if_congr (dead_congr he τ id) rfl rfl

/-- a loop called with `now` decides at time `τ` -/
def Decides (c : Cache) (reread : Bool) (now τ : ℕ) : Prop := if reread then c.Fixed τ ∧ (now = uint64Max ∨ now = τ) else now = τ

/-- the clock as a loop reads it for a candidate, and the cache after the reading -/
def clockFor (c : Cache) (reread : Bool) (id now : ℕ) : ℕ × Cache := if reread then c.readNow id now else (now, c)

/-- the reading for a candidate decides at the same time, and so does the rest of the loop -/
theorem Decides.read {τ : ℕ} (hd : c.Decides reread now τ) (id : ℕ) : (c.expireAt id ≠ 0 → (c.clockFor reread id now).1 = τ) ∧
      (c.clockFor reread id now).2.Decides reread (c.clockFor reread id now).1 τ := by
  unfold Decides clockFor at *
  cases reread with
  | false => exact ⟨fun _ => hd, hd⟩
  | true =>
    obtain ⟨h1, h2⟩ := hd
    simp only [if_true]
    unfold readNow
    split_ifs with hread
    · exact ⟨fun _ => h1 0, fun i => h1 (i + 1), Or.inr (h1 0)⟩
    · exact ⟨fun hz => h2.resolve_left fun hm => hread ⟨hz, hm⟩, h1, h2⟩

theorem clockFor_still (h : Core hash c) (reread : Bool) (id now : ℕ) :
    Still c (c.clockFor reread id now).2 ∧ Shrinks hash c (c.clockFor reread id now).2 := by
  unfold clockFor
  split_ifs
  · exact ⟨readNow_still c id now, (readNow_shrinks h id now).1⟩
  · exact ⟨.refl c, .refl h⟩

/-- one round of a loop takes the candidate `id` out of `c` -/
structure Round (hash : Hasher) (c c' : Cache) (reread : Bool) (id now now' : ℕ) (reason : RemovalReason) : Prop where
  shrinks : Shrinks hash c c'
  moves : Moves c c' none [(id, reason)]
  undated : c.expireAt id = 0 → reason = .evicted
  judged : ∀ τ, c.Decides reread now τ → reason = c.reasonAt τ id ∧ c'.Decides reread now' τ

theorem evictLoop_round (h : Core hash c) (hid : id ∈ c.ids) (reread : Bool) (now : ℕ) {reason : RemovalReason}
    (hreason : (if c.expireAt id ≠ 0 ∧ (c.clockFor reread id now).1 ≥ c.expireAt id then RemovalReason.expired else .evicted) =
      reason) :
    Round hash c ((c.clockFor reread id now).2.entryRemove id reason) reread id now (c.clockFor reread id now).1 reason := by
  obtain ⟨s1, s2⟩ := clockFor_still h reread id now
  have hdecides : ∀ τ, c.Decides reread now τ → _ := fun τ hτ => hτ.read id
  generalize c.clockFor reread id now = r at *
  have hid1 : id ∈ r.2.ids := (s1.ids id).2 hid
  obtain ⟨hd, _⟩ := entryRemove_dropped s2.core hid1 reason
  refine ⟨s2.trans (hd.shrinks s2.core), s1.then_moves (entryRemove_moves s2.core hid1 reason), fun hz => ?_, fun τ hτ => ?_⟩
  · rw [← hreason, if_neg fun hc => hc.1 hz]
  · obtain ⟨h1, h2⟩ := hdecides τ hτ
    constructor
    · rw [← hreason]
      unfold reasonAt Dead
      by_cases hz : c.expireAt id = 0
      · simp [hz]
      · rw [h1 hz]
        exact if_congr Iff.rfl rfl rfl
    · unfold Decides Fixed at h2 ⊢
      rw [hd.clock]
      exact h2

theorem Shrinks.charge (hs : Shrinks hash c c') : c'.charge = c.charge := by
  unfold Cache.charge
  rw [hs.entry]

theorem Shrinks.fits (hs : Shrinks hash c c') (own : ℕ) : c'.Fits own = c.Fits own := by
  funext ys
  unfold Fits limitsExceeded
  rw [hs.charge, hs.limits.1, hs.limits.2]

/-- what a loop did: the entries it took, in the order in which it took them -/
structure Clears (hash : Hasher) (c : Cache) (reread : Bool) (keep : ℕ) (xs : List ℕ) (own now : ℕ)
    (projected : Option ℕ) (r : Cache × Option ℕ × Bool) (kept : List ℕ) (removals : List (ℕ × RemovalReason)) : Prop where
  met : r.2.2 = true
  shrinks : Shrinks hash c r.1
  moves : Moves c r.1 none removals
  split : xs.filter (· ≠ keep) = kept ++ (named removals).reverse
  least : Shortest (c.Fits own) kept (named removals).reverse
  /-- the local projection follows the memory in use -/
  tracked : r.2.1 = projected.map fun _ => own + (r.1.usedMemory - r.1.charge keep)
  undated : ∀ p ∈ removals, c.expireAt p.1 = 0 → p.2 = .evicted
  judged : ∀ τ, c.Decides reread now τ → ∀ p ∈ removals, p.2 = c.reasonAt τ p.1

/-- a loop that stops at once -/
theorem Clears.stop (h : Core hash c) (hfits : c.Fits own (xs.filter (· ≠ keep)))
    (hproj : ∀ p, projected = some p → p = own + (c.usedMemory - c.charge keep)) :
    Clears hash c reread keep xs own now projected (c, projected, true) (xs.filter (· ≠ keep)) [] := by
  refine ⟨rfl, .refl h, (Still.refl c).moves, (append_nil _).symm, ⟨hfits, fun _ _ _ hb => ?_⟩, ?_,
    by simp, by simp⟩
  · exact absurd hb (Nat.not_lt_zero _)
  · cases hp : projected with
    | none => rfl
    | some p => rw [Option.map_some, hproj p hp]

/-- the entries other than two -/
theorem filter_ne_comm (xs : List ℕ) (a b : ℕ) : (xs.filter (· ≠ a)).filter (· ≠ b) = (xs.filter (· ≠ b)).filter (· ≠ a) := by
  rw [filter_filter, filter_filter]
  exact filter_congr fun _ _ => Bool.and_comm _ _

/-- one round, and then the rest of the loop -/
theorem Clears.round {now' : ℕ} {reason : RemovalReason} {front kept : List ℕ} (h : Core hash c)
    (hr : Round hash c c' reread id now now' reason) (hys : xs.filter (· ≠ keep) = front ++ [id])
    (hfront : (xs.filter (· ≠ id)).filter (· ≠ keep) = front) (hover : ¬ c.Fits own (front ++ [id]))
    (g : Clears hash c' reread keep (xs.filter (· ≠ id)) own now' (projected.map fun p => p - c.charge id) r kept removals) :
    Clears hash c reread keep xs own now projected r kept ((id, reason) :: removals) := by
  have hsplit := g.split
  rw [hfront] at hsplit
  have hall : kept ++ (named ((id, reason) :: removals)).reverse = front ++ [id] := by
    rw [hsplit]
    simp [named]
  have hfits := hr.shrinks.fits own
  refine ⟨g.met, hr.shrinks.trans g.shrinks, ?_, hys.trans hall.symm, ⟨hfits ▸ g.least.1, fun a b hab hb => ?_⟩, ?_,
    fun p hp => ?_, fun τ hτ p hp => ?_⟩
  · exact hr.moves.before g.moves h fun b hb => by cases hb
  · -- either everything is kept, which does not fit, or the last entry is left out
    rw [hall] at hab
    rcases eq_nil_or_concat b with rfl | ⟨b', last, rfl⟩
    · rw [append_nil] at hab
      rw [← hab]
      exact hover
    · rw [concat_eq_append, ← append_assoc] at hab
      obtain ⟨hab', _⟩ := append_inj' hab rfl
      rw [← hfits]
      refine g.least.2 a b' (hsplit.symm.trans hab') ?_
      simpa [named] using hb
  · rw [g.tracked, Option.map_map]
    rfl
  · rcases mem_cons.1 hp with rfl | hp
    · exact hr.undated
    · have hu := g.undated p hp
      unfold expireAt at hu ⊢
      rwa [hr.shrinks.entry] at hu
  · obtain ⟨hτ1, hτ2⟩ := hr.judged τ hτ
    rcases mem_cons.1 hp with rfl | hp
    · exact hτ1
    · rw [g.judged τ hτ2 p hp, reasonAt_congr hr.shrinks.entry]

/-- the entries apart from the protected one -/
theorem LruOrder.count (hx : c.LruOrder xs) (h : Core hash c) (hk : keep ∈ xs) :
    KvHash.kvHashCount c.index = (xs.filter (· ≠ keep)).length + 1 := by
  have hperm : xs.Perm c.ids := (perm_ext_iff_of_nodup hx.nodup h.nodup).2 hx.mem
  obtain ⟨p, q, rfl⟩ := append_of_mem hk
  rw [LinkedList.filter_ne_middle hx.nodup, h.count, ← hperm.length_eq, perm_middle.length_eq, length_cons]

/-- the entries other than one and its charge make up the memory in use -/
theorem LruOrder.used (hx : c.LruOrder xs) (h : Core hash c) (hid : id ∈ c.ids) :
    c.usedMemory = c.charge id + ((xs.filter (· ≠ id)).map c.charge).sum := by
  have hperm : xs.Perm c.ids := (perm_ext_iff_of_nodup hx.nodup h.nodup).2 hx.mem
  obtain ⟨p, q, rfl⟩ := append_of_mem ((hx.mem id).2 hid)
  rw [LinkedList.filter_ne_middle hx.nodup, h.used, ← (hperm.map c.charge).sum_eq, (perm_middle.map c.charge).sum_eq,
    map_cons, sum_cons]

/-- **The eviction loops** take the shortest suffix of the LRU order, the protected entry excepted, that brings the cache
within its limits; there is one when the protected entry alone is within them. -/
theorem evictLoop_clears (reread : Bool) (keep fuel : ℕ) (h : Core hash c) (hx : c.LruOrder xs) (hk : keep ∈ c.ids)
    (hf : (xs.filter (· ≠ keep)).length < fuel) (projected : Option ℕ) (now : ℕ) (hfits : c.Fits own [])
    (hown : projected = none → own = c.charge keep)
    (hproj : ∀ p, projected = some p → p = own + ((xs.filter (· ≠ keep)).map c.charge).sum) :
    ∃ kept removals, Clears hash c reread keep xs own now projected (evictLoop reread keep fuel c projected now)
      kept removals := by
  induction fuel generalizing c xs projected now with
  | zero => exact absurd hf (Nat.not_lt_zero _)
  | succ fuel ih =>
    have hkx : keep ∈ xs := (hx.mem keep).2 hk
    have hmem : projected.getD c.usedMemory = own + ((xs.filter (· ≠ keep)).map c.charge).sum := by
      cases hp : projected with
      | none => rw [Option.getD_none, hown hp, hx.used h hk]
      | some p => exact hproj p hp
    -- the test of the loop is whether all entries fit
    have htest : c.limitsExceeded (KvHash.kvHashCount c.index) (projected.getD c.usedMemory) = true ↔
        ¬ c.Fits own (xs.filter (· ≠ keep)) := by
      rw [hx.count h hkx, hmem, Fits, Bool.not_eq_false]
    rw [evictLoop]
    by_cases hl : c.limitsExceeded (KvHash.kvHashCount c.index) (projected.getD c.usedMemory) = true
    case neg =>
      rw [if_neg hl]
      refine ⟨_, [], Clears.stop h (not_not.1 fun hn => hl (htest.2 hn)) fun p hp => ?_⟩
      rw [hproj p hp, hx.used h hk, Nat.add_sub_cancel_left]
    rw [if_pos hl, evictionCandidate_eq hx (limitsExceeded_enabled h hl) hkx]
    rcases eq_nil_or_concat (xs.filter (· ≠ keep)) with hnil | ⟨front, id, hys⟩
    · exact absurd (hnil ▸ hfits) (htest.1 hl)
    rw [concat_eq_append] at hys
    rw [hys, List.getLast?_append, List.getLast?_singleton, Option.some_or]
    obtain ⟨hidx, hne⟩ := mem_filter.1 (show id ∈ xs.filter (· ≠ keep) by rw [hys]; simp)
    rw [decide_eq_true_eq] at hne
    have hid : id ∈ c.ids := (hx.mem id).1 hidx
    have hfront : (xs.filter (· ≠ id)).filter (· ≠ keep) = front := by
      have hnd : (front ++ [id]).Nodup := hys ▸ hx.nodup.filter _
      rw [filter_ne_comm, hys, LinkedList.filter_ne_middle hnd, append_nil]
    simp only
    change ∃ kept removals, Clears hash c reread keep xs own now projected (evictLoop reread keep fuel
      ((c.clockFor reread id now).2.entryRemove id
        (if c.expireAt id ≠ 0 ∧ (c.clockFor reread id now).1 ≥ c.expireAt id then .expired else .evicted))
      (projected.map fun p => p - c.charge id) (c.clockFor reread id now).1) kept removals
    generalize hreason : (if c.expireAt id ≠ 0 ∧ (c.clockFor reread id now).1 ≥ c.expireAt id then
      RemovalReason.expired else .evicted) = reason
    have hr := evictLoop_round h hid reread now hreason
    generalize (c.clockFor reread id now).1 = now' at hr
    generalize (c.clockFor reread id now).2.entryRemove id reason = c' at hr
    have horder : c'.LruOrder (xs.filter (· ≠ id)) := by
      have hmoved := hr.moves.order xs hx
      have hsame : (xs.filter fun b => decide (some b ≠ none ∧ b ∉ named [(id, reason)])) = xs.filter (· ≠ id) :=
        filter_congr fun b _ => by simp [named]
      rwa [Option.toList_none, nil_append, hsame] at hmoved
    have hkeep2 : keep ∈ c'.ids := (hr.moves.mem h keep).2 (Or.inr ⟨hk, by simpa [named] using Ne.symm hne⟩)
    have hlen : ((xs.filter (· ≠ id)).filter (· ≠ keep)).length < fuel := by
      rw [hys, length_append, length_singleton] at hf
      rw [hfront]
      omega
    have hproj2 : ∀ p, (projected.map fun p => p - c.charge id) = some p →
        p = own + (((xs.filter (· ≠ id)).filter (· ≠ keep)).map c'.charge).sum := by
      intro p hp
      obtain ⟨p', hp', rfl⟩ := Option.map_eq_some_iff.1 hp
      rw [hproj p' hp', hys, hfront, hr.shrinks.charge, map_append, sum_append, map_singleton,
        sum_singleton, ← Nat.add_assoc, Nat.add_sub_cancel]
    obtain ⟨kept, removals, g⟩ := ih hr.shrinks.core horder hkeep2 hlen _ now' (hr.shrinks.fits own ▸ hfits)
      (fun hn => hr.shrinks.charge ▸ hown (Option.map_eq_none_iff.1 hn)) hproj2
    exact ⟨kept, _, g.round h hr hys hfront (hys ▸ htest.1 hl)⟩

/-! ## Insertion of a new entry -/

/-- the cache with a new entry and `heap` as its heap of deadlines -/
def linked (c : Cache) (index : HashTable ℕ) (n : Node ℕ) (object : KvObject) (charge items d : ℕ) (heap : IndexedHeap.Heap ℕ) :
    Cache :=
  { c with
    index := index
    entry := update c.entry c.nextEntry ⟨object, charge, items, d, some n⟩
    nextEntry := c.nextEntry + 1
    counters := c.counters.addObject (kvObjectType object) items
    lru := if c.lruEnabled then c.lru.linkHead c.nextEntry else c.lru
    usedMemory := c.usedMemory + charge
    heap := heap }

/-- the parts of an insertion put together -/
theorem linked_core (h : Core hash c) {index : HashTable ℕ} {n : Node ℕ} (hins : KvHash.Inserted hash c.index index n)
    (hpay : n.payload = c.nextEntry) (object : KvObject) (charge items d : ℕ) {heap : IndexedHeap.Heap ℕ} (p1 : heap.Placed)
    (p2 : heap.Ordered (update c.expireAt c.nextEntry d)) (p3 : heap.count ≤ c.heapCapacity)
    (p4 : ∀ b, heap.Mem b ↔ b = c.nextEntry ∧ d ≠ 0 ∨ c.heap.Mem b) :
    Core hash (c.linked index n object charge items d heap) := by
  set c' : Cache := c.linked index n object charge items d heap with hc'
  have hfresh : c.nextEntry ∉ c.ids := fun hc => lt_irrefl _ (h.fresh _ hc)
  have hids : c'.ids.Perm (c.nextEntry :: c.ids) := by
    have := hins.nodes.map Node.payload
    rwa [map_cons, hpay] at this
  have hmem : ∀ b, b ∈ c'.ids ↔ b = c.nextEntry ∨ b ∈ c.ids := fun b => by rw [hids.mem_iff, mem_cons]
  have hself : c'.entry c.nextEntry = ⟨object, charge, items, d, some n⟩ := update_self ..
  have hother : ∀ b, b ≠ c.nextEntry → c'.entry b = c.entry b := fun b hb => update_of_ne hb _ _
  have hold : ∀ b ∈ c.ids, c'.entry b = c.entry b := fun b hb => hother b fun hc => hfresh (hc ▸ hb)
  have hexp : c'.expireAt = update c.expireAt c.nextEntry d := by
    funext b
    unfold expireAt
    rw [update_apply]
    by_cases hb : b = c.nextEntry
    · rw [if_pos hb, hb, hself]
    · rw [if_neg hb, hother b hb]
  refine ⟨hins.inv, fun m hm => ?_, fun b hb => ?_, fun he => ?_, p1, hexp ▸ p2, fun b => ?_, p3, ?_, ?_, fun b hb => ?_,
    h.enabled⟩
  · rcases mem_cons.1 (hins.nodes.mem_iff.1 hm) with rfl | hm
    · rw [hpay, hself]
    · rw [hold m.payload (mem_map_of_mem hm)]
      exact h.node m hm
  · rcases (hmem b).1 hb with rfl | hb
    · exact Nat.lt_succ_self _
    · exact Nat.lt_succ_of_lt (h.fresh b hb)
  · obtain ⟨xs, h1, h2⟩ := h.lru he
    refine ⟨c.nextEntry :: xs, ?_, fun b => ?_⟩
    · rw [hc', linked]
      simp only [show c.lruEnabled = true from he, if_true]
      exact LinkedList.linkHead_rep h1 fun hc => hfresh ((h2 _).1 hc)
    · rw [mem_cons, hmem, h2]
  · rw [hexp, update_apply, hmem]
    refine (p4 b).trans ?_
    by_cases hb : b = c.nextEntry
    · have hm : ¬ c.heap.Mem b := fun hm => hfresh (hb ▸ ((h.heap b).1 hm).1)
      simp [hb, hb ▸ hm]
    · simp only [hb, false_and, false_or, if_false]
      exact h.heap b
  · rw [(hids.map _).sum_eq, map_cons, sum_cons, map_congr_left fun b hb => by unfold Cache.charge; rw [hold b hb]]
    unfold Cache.charge
    rw [hself]
    change c.usedMemory + charge = charge + (c.ids.map c.charge).sum
    rw [h.used, Nat.add_comm]
  · rw [tally_perm (hids.map _), map_cons, tally, map_congr_left fun b hb => by unfold profile; rw [hold b hb]]
    unfold profile
    rw [hself]
    change c.counters.addObject (kvObjectType object) items = (tally (c.ids.map c.profile)).addObject (kvObjectType object) items
    rw [h.counted]
  · obtain ⟨h1, h2⟩ := h.hot b hb
    refine ⟨(hmem b).2 (Or.inr h1), ?_⟩
    unfold entryKey
    rw [hold b h1]
    exact h2

/-- `c'` is `c` with a new entry, which went to the front -/
structure Linked (hash : Hasher) (c c' : Cache) (e : CacheEntry) : Prop where
  core : Core hash c'
  ids : c'.ids.Perm (c.nextEntry :: c.ids)
  entry : c'.entry = update c.entry c.nextEntry e
  limits : c'.maxKeys = c.maxKeys ∧ c'.maxMemory = c.maxMemory
  clock : c'.nowMs = c.nowMs
  moves : Moves c c' (some c.nextEntry) []

theorem Core.new (h : Core hash c) : c.nextEntry ∉ c.ids := fun hc => lt_irrefl _ (h.fresh _ hc)

/-- a new entry is linked everywhere -/
theorem linkEntry_linked (h : Core hash c) {index : HashTable ℕ} {n : Node ℕ}
    (hins : KvHash.Inserted hash c.index index n) (hpay : n.payload = c.nextEntry) (object : KvObject)
    (charge items d : ℕ) (hroom : d ≠ 0 → c.heap.count < c.heapCapacity) :
    Linked hash c (c.linkEntry index n object charge items d) ⟨object, charge, items, d, some n⟩ := by
  have hnot : ¬ c.heap.Mem c.nextEntry := fun hm => h.new ((h.heap _).1 hm).1
  have hord : c.heap.Ordered (update c.expireAt c.nextEntry d) := by
    refine h.ordered.congr fun b hb => update_of_ne ?_ _ _
    rintro rfl
    exact hnot hb
  -- the heap after the insertion
  have hheap : ∃ heap : IndexedHeap.Heap ℕ,
      (heap.Placed ∧ heap.Ordered (update c.expireAt c.nextEntry d) ∧ heap.count ≤ c.heapCapacity ∧
        ∀ b, heap.Mem b ↔ b = c.nextEntry ∧ d ≠ 0 ∨ c.heap.Mem b) ∧
      c.linkEntry index n object charge items d = c.linked index n object charge items d heap := by
    by_cases hd : d = 0
    · refine ⟨c.heap, ⟨h.placed, hord, h.room, fun b => by simp [hd]⟩, ?_⟩
      unfold linkEntry lruLinkHead linked
      cases c.lruEnabled <;> simp [hd]
    · obtain ⟨r1, r2, r3, r4⟩ := IndexedHeap.Heap.insert_spec h.placed hord hnot
      refine ⟨c.heap.insert (update c.expireAt c.nextEntry d) c.nextEntry, ⟨r2, r3, ?_, fun b => ?_⟩, ?_⟩
      · have := hroom hd
        omega
      · rw [r4 b]
        simp [hd]
      · have hexp : (fun b => (update c.entry c.nextEntry ⟨object, charge, items, d, some n⟩ b).expireAtMs) =
            update c.expireAt c.nextEntry d := by
          funext b
          rw [update_apply, update_apply]
          by_cases hb : b = c.nextEntry
          · rw [if_pos hb, if_pos hb]
          · rw [if_neg hb, if_neg hb]
            rfl
        rw [← hexp]
        unfold linkEntry lruLinkHead heapInsertReserved linked
        cases c.lruEnabled <;> simp [hd] <;> rfl
  obtain ⟨heap, ⟨p1, p2, p3, p4⟩, hstate⟩ := hheap
  have hids : (c.linked index n object charge items d heap).ids.Perm (c.nextEntry :: c.ids) := by
    have := hins.nodes.map Node.payload
    rwa [map_cons, hpay] at this
  rw [hstate]
  refine ⟨linked_core h hins hpay object charge items d p1 p2 p3 p4, hids, rfl, ⟨rfl, rfl⟩, rfl, fun xs hx => ?_, nodup_nil,
    by simp [named], ?_, fun b hb => ?_, rfl, rfl, (append_nil _).symm⟩
  · have hnew : c.nextEntry ∉ xs := fun hc => h.new ((hx.mem _).1 hc)
    have hall : (xs.filter fun b => decide (some b ≠ some c.nextEntry ∧ b ∉ named [])) = xs := by
      refine filter_eq_self.2 fun b hb => ?_
      have hne : b ≠ c.nextEntry := fun hc => hnew (hc ▸ hb)
      simp [hne, named]
    rw [hall]
    refine ⟨nodup_cons.2 ⟨hnew, hx.nodup⟩, fun b => ?_, fun he => ?_⟩
    · rw [hids.mem_iff, mem_cons, ← hx.mem]
      exact mem_cons
    · rw [linked, if_pos (show c.lruEnabled = true from he)]
      exact LinkedList.linkHead_rep (hx.links he) hnew
  · exact (max_eq_right (Nat.le_succ _)).symm
  · have hsame : (c.linked index n object charge items d heap).entry b = c.entry b := update_of_ne hb.ne _ _
    unfold entryKey
    rw [hsame]

/-! ## Making room -/

variable {d own : ℕ} {object : KvObject} {kept : List ℕ}

/-- what making room for the entry `id` did, for an order `xs` of the entries -/
structure Makes (hash : Hasher) (c c' : Cache) (reread : Bool) (id now : ℕ) (object : KvObject) (d : ℕ)
    (xs kept : List ℕ) (removals : List (ℕ × RemovalReason)) : Prop where
  core : Core hash c'
  limits : c'.maxKeys = c.maxKeys ∧ c'.maxMemory = c.maxMemory
  later : Later c c'
  others : ∀ b, b ≠ id → c'.entry b = c.entry b
  object : (c'.entry id).object = object
  deadline : c'.expireAt id = d
  covers : Covers (c.entry id) → Covers (c'.entry id)
  moves : Moves c c' (some id) removals
  split : xs.filter (· ≠ id) = kept ++ (named removals).reverse
  least : Shortest (c.Fits (c'.charge id)) kept (named removals).reverse
  undated : ∀ p ∈ removals, c.expireAt p.1 = 0 → p.2 = .evicted
  judged : ∀ τ, c.Decides reread now τ → ∀ p ∈ removals, p.2 = c.reasonAt τ p.1

/-- an entry takes another object, charge or deadline and goes to the front -/
structure Rebinds (hash : Hasher) (c c' : Cache) (id : ℕ) (object : KvObject) (d charge : ℕ) : Prop where
  updates : Updates hash c c' id object d
  moves : Moves c c' (some id) []
  charge : c'.charge id = charge
  node : (c'.entry id).indexNode = (c.entry id).indexNode

/-- a loop has made the room, and then the entry is written -/
theorem Clears.makes (h : Core hash c) (k : Clears hash c reread id xs own now projected r kept removals) (hid : id ∈ r.1.ids)
    (hw : Rebinds hash r.1 c' id object d own)
    (hcovers : ∀ n, (c.entry id).indexNode = some n → Covers (c.entry id) → entryMemoryCharge n.key.length object ≤ own) :
    Makes hash c c' reread id now object d xs kept removals := by
  have hs := k.shrinks
  have hu := hw.updates
  refine ⟨hu.core, ⟨hu.limits.1.trans hs.limits.1, hu.limits.2.trans hs.limits.2⟩, ?_, fun b hb => ?_, hu.object, hu.deadline,
    fun hc n hn => ?_, ?_, k.split, hw.charge ▸ k.least, k.undated, k.judged⟩
  · obtain ⟨j, hj⟩ := hs.later
    exact ⟨j, fun i => by rw [hu.clock, hj]⟩
  · rw [hu.others b hb, hs.entry]
  · rw [hw.node, hs.entry] at hn
    rw [hu.object]
    exact (hcovers n hn hc).trans hw.charge.ge
  · rw [← append_nil removals]
    apply k.moves.before hw.moves h
    intro b hb
    cases hb
    exact Or.inl hid

/-- the protected entry is still there -/
theorem Clears.keeps (h : Core hash c)
    (k : Clears hash c reread id xs own now projected r kept removals) (hid : id ∈ c.ids) : id ∈ r.1.ids := by
  refine (k.moves.mem h id).2 (Or.inr ⟨hid, fun hc => ?_⟩)
  have hin : id ∈ xs.filter (· ≠ id) := by
    rw [k.split]
    exact mem_append_right _ (mem_reverse.2 hc)
  simp at hin

theorem writeExpire_charge (c : Cache) (id d b : ℕ) :
    (c.writeExpire id d).charge b = c.charge b ∧ ((c.writeExpire id d).entry b).indexNode = (c.entry b).indexNode := by
  unfold charge writeExpire
  rw [setEntry_entry]
  split_ifs with hb
  · rw [hb]
    exact ⟨rfl, rfl⟩
  · exact ⟨rfl, rfl⟩

theorem changeDeadline_charge (c : Cache) (id d b : ℕ) :
    (c.changeDeadline id d).charge b = c.charge b ∧ ((c.changeDeadline id d).entry b).indexNode = (c.entry b).indexNode := by
  unfold changeDeadline
  dsimp only
  rw [(writeExpire_charge _ id d b).1, (writeExpire_charge _ id d b).2]
  split_ifs
  · exact ⟨rfl, rfl⟩
  · exact writeExpire_charge c id d b
  · exact writeExpire_charge c id d b
  · exact ⟨rfl, rfl⟩

/-- an entry that was written and then touched -/
theorem Updates.touched {c'' : Cache} (hu : Updates hash c c' id object d) (s : Still c c')
    (hid : id ∈ c.ids) (hcharge : c'.charge id = own) (hnode : (c'.entry id).indexNode = (c.entry id).indexNode)
    (he : c'' = c'.lruTouch id) : Rebinds hash c c'' id object d own := by
  have hid' : id ∈ c'.ids := hu.ids.symm ▸ hid
  have hm := s.then_moves (lruTouch_moves c' hid' (hu.core.fresh id hid'))
  obtain ⟨t1, t2, t3⟩ := lruTouch_core hu.core hid'
  rw [← he] at hm t1 t2 t3
  refine ⟨⟨t1, t2.index.trans hu.index, fun b hb => ?_, ?_, ?_, ?_, t2.clock.trans hu.clock, t3.trans hu.log⟩, hm, ?_, ?_⟩
  · rw [t2.entry, hu.others b hb]
  · rw [t2.entry, hu.object]
  · unfold expireAt
    rw [t2.entry]
    exact hu.deadline
  · exact ⟨t2.limits.1.trans hu.limits.1, t2.limits.2.trans hu.limits.2⟩
  · unfold Cache.charge
    rw [t2.entry]
    exact hcharge
  · rw [t2.entry, hnode]

theorem rebind_rebinds (h : Core hash c) (hid : id ∈ c.ids) (object : KvObject) (charge items d : ℕ)
    (hroom : c.expireAt id = 0 → d ≠ 0 → c.heap.count < c.heapCapacity) :
    Rebinds hash c (((c.replaceObject id object charge items).changeDeadline id d).lruTouch id) id object d charge := by
  have hu1 := replaceObject_updates h hid object charge items
  have hself : (c.replaceObject id object charge items).entry id =
      { c.entry id with object := object, objectItems := items, memoryCharge := charge } := by
    rw [replaceObject, setEntry_entry, if_pos rfl]
  have hs1 := replaceObject_still c id object charge items
  have hroom1 : (c.replaceObject id object charge items).heap.count = c.heap.count ∧
      (c.replaceObject id object charge items).heapCapacity = c.heapCapacity := ⟨rfl, rfl⟩
  generalize c.replaceObject id object charge items = c1 at *
  have hu2 := changeDeadline_updates hu1.core (hu1.ids.symm ▸ hid) d (by
    rw [hu1.deadline, hroom1.1, hroom1.2]
    exact hroom)
  have hu : Updates hash c (c1.changeDeadline id d) id object d := by
    refine ⟨hu2.core, hu2.index.trans hu1.index, fun b hb => ?_, ?_, hu2.deadline, ?_, hu2.clock.trans hu1.clock,
      hu2.log.trans hu1.log⟩
    · rw [hu2.others b hb, hu1.others b hb]
    · rw [hu2.object, hu1.object]
    · exact ⟨hu2.limits.1.trans hu1.limits.1, hu2.limits.2.trans hu1.limits.2⟩
  obtain ⟨hcharge, hnode⟩ := changeDeadline_charge c1 id d id
  refine hu.touched (hs1.trans (changeDeadline_still c1 id d)) hid ?_ ?_ rfl
  · rw [hcharge, Cache.charge, hself]
  · rw [hnode, hself]

/-- room is made for an object in the place of another one -/
theorem storeReplace_makes (h : Core hash c) (hid : id ∈ c.ids) (hx : c.LruOrder xs) (object : KvObject)
    (charge items d now : ℕ) (hcharge : entryMemoryCharge (c.entryKey id).length object ≤ charge)
    (hfits : c.maxMemory = 0 ∨ charge ≤ c.maxMemory) (hroom : c.expireAt id = 0 → d ≠ 0 → c.heap.count < c.heapCapacity) :
    (c.storeReplace id object charge items d now).2 = .ok ∧
      ∃ kept removals, Makes hash c (c.storeReplace id object charge items d now).1 true id now object d xs kept removals := by
  have hused := hx.used h hid
  obtain ⟨kept, removals, k⟩ := evictLoop_clears true id (KvHash.kvHashCount c.index) h hx hid
    (by rw [hx.count h ((hx.mem id).2 hid)]; exact Nat.lt_succ_self _)
    (some (c.usedMemory - (c.entry id).memoryCharge + charge)) now (fits_nil hfits) (fun hn => by cases hn) (fun p hp => by
      cases hp
      change c.usedMemory - c.charge id + charge = _
      omega)
  unfold storeReplace
  simp only
  generalize evictLoop true id (KvHash.kvHashCount c.index) c (some (c.usedMemory - (c.entry id).memoryCharge + charge)) now = r at *
  rw [if_pos k.met]
  have hs := k.shrinks
  have hin := k.keeps h hid
  refine ⟨rfl, kept, removals, k.makes h hin (rebind_rebinds hs.core hin object charge items d ?_) fun n hn _ => ?_⟩
  · unfold expireAt
    rw [hs.entry]
    exact fun h1 h2 => hs.room.2.trans_lt ((hroom h1 h2).trans_le hs.room.1)
  · rwa [entryKey, hn] at hcharge

/-- entries that are within the limits fit with each one of them -/
theorem Within.fits (hw : c.Within) (h : Core hash c) (hx : c.LruOrder xs) (hid : id ∈ c.ids) :
    c.Fits (c.charge id) (xs.filter (· ≠ id)) := by
  unfold Fits limitsExceeded
  rw [← hx.count h ((hx.mem id).2 hid), ← hx.used h hid, decide_eq_false_iff_not]
  rintro (⟨h1, h2⟩ | ⟨h1, h2⟩)
  · exact absurd (hw.keys h1) (not_le.2 h2)
  · exact absurd (hw.memory h1) (not_le.2 h2)

/-- the object of an entry after a store: a String that fits is written in place; nothing when it cannot be written -/
def written (old new : KvObject) : Option KvObject :=
  match kvObjectType old, kvObjectStringValue new with
  | .string, some value =>
    match kvObjectStringUpdate old value with
    | (_, none) => none
    | (updated, some true) => some updated
    | (_, some false) => some new
  | _, _ => some new

/-- a store over a live entry -/
theorem storeOver_makes (h : Core hash c) (hw : c.Within) (hid : id ∈ c.ids) (hx : c.LruOrder xs)
    (object : KvObject) (charge items d now : ℕ) (hcharge : entryMemoryCharge (c.entryKey id).length object ≤ charge)
    (hfits : c.maxMemory = 0 ∨ charge ≤ c.maxMemory) (hroom : c.expireAt id = 0 → d ≠ 0 → c.heap.count < c.heapCapacity) :
    (c.storeOver id object charge items d now).2 = .ok ∧
      ∃ o kept removals, written (c.entry id).object object = some o ∧ o.view = object.view ∧
        (object.Inv hash → o.Inv hash) ∧
        Makes hash c (c.storeOver id object charge items d now).1 true id now o d xs kept removals := by
  have hreplace : (c.storeReplace id object charge items d now).2 = .ok ∧
      ∃ o kept removals, some object = some o ∧ o.view = object.view ∧ (object.Inv hash → o.Inv hash) ∧
        Makes hash c (c.storeReplace id object charge items d now).1 true id now o d xs kept removals := by
    obtain ⟨hok, kept, removals, mk⟩ := storeReplace_makes h hid hx object charge items d now hcharge hfits hroom
    exact ⟨hok, object, kept, removals, rfl, rfl, fun ho => ho, mk⟩
  unfold storeOver written
  cases htype : kvObjectType (c.entry id).object with
  | hash => exact hreplace
  | zset => exact hreplace
  | string =>
    cases hval : kvObjectStringValue object with
    | none => exact hreplace
    | some value =>
      simp only
      cases hup : kvObjectStringUpdate (c.entry id).object value with
      | mk updated fits =>
        cases fits with
        | none => exact absurd hup (stringUpdate_ne_none htype)
        | some fits =>
          cases fits with
          | false => exact hreplace
          | true =>
            -- written in place: the recorded charge stays, and with it the memory in use
            obtain ⟨hut, huv, huinv⟩ := @stringUpdate_spec hash _ _ _ hup
            simp only
            rw [mutate_eq_replace h hid hut]
            have hstop : Clears hash c true id xs (c.charge id) now none (c, none, true) _ [] :=
              Clears.stop h (hw.fits h hx hid) fun p hp => by cases hp
            have hview : updated.view = object.view := by
              rw [huv, stringValue_view hval]
            refine ⟨trivial, updated, xs.filter (· ≠ id), [], rfl, hview, fun _ => huinv, ?_⟩
            refine hstop.makes h hid (rebind_rebinds h hid updated _ _ d hroom) fun n hn hcovers => ?_
            refine (entryMemoryCharge_mono _ ?_).trans (hcovers n hn)
            rw [← stringUpdate_usage (c.entry id).object value, hup]

/-- a store of a key that is not there: refused by an allocation, or room is made for the new entry -/
theorem storeNew_makes (h : Core hash c) (hx : c.LruOrder xs) (alloc : Alloc) (key : Bytes) (object : KvObject)
    (charge items d now : ℕ) (hcharge : entryMemoryCharge key.length object ≤ charge)
    (hfits : c.maxMemory = 0 ∨ charge ≤ c.maxMemory) (hroom : d ≠ 0 → c.heap.count < c.heapCapacity) :
    ((c.storeNew hash alloc key object charge items d now).2 = .error ∧
        Still c (c.storeNew hash alloc key object charge items d now).1 ∧
        Shrinks hash c (c.storeNew hash alloc key object charge items d now).1 ∧
        ¬ (alloc.entry = true ∧ (KvHash.kvHashInsert hash alloc.index c.index key c.nextEntry).2.isSome)) ∨
      (c.storeNew hash alloc key object charge items d now).2 = .ok ∧
        (c.storeNew hash alloc key object charge items d now).1.entryKey c.nextEntry = key ∧
        (∀ b ∈ c.ids, c.entryKey b ≠ key) ∧
        ∃ kept removals,
          Makes hash c (c.storeNew hash alloc key object charge items d now).1 true c.nextEntry now object d xs
            kept removals := by
  unfold storeNew
  by_cases halloc : alloc.entry = true
  case neg =>
    rw [if_neg halloc]
    exact Or.inl ⟨rfl, .refl c, .refl h, fun hc => halloc hc.1⟩
  rw [if_pos halloc]
  cases hins : KvHash.kvHashInsert hash alloc.index c.index key c.nextEntry with
  | mk index r =>
    cases r with
    | none =>
      obtain ⟨f1, f2, _⟩ := KvHash.kvHashInsert_failed h.dict (congrArg Prod.snd hins)
      rw [hins] at f1 f2
      have hp : (KvHash.nodes index).Perm (KvHash.nodes c.index) := by rw [f2]
      exact Or.inl ⟨rfl, reindex_still hp, reindex_shrinks h f1 hp, by simp⟩
    | some n =>
      obtain ⟨habsent, hn, hinserted⟩ := KvHash.kvHashInsert_some h.dict hins
      have hl := linkEntry_linked h hinserted (by rw [hn]) object charge items d hroom
      simp only
      generalize c.linkEntry index n object charge items d = c1 at *
      have hfresh : c.nextEntry ∉ xs := fun hc => h.new ((hx.mem _).1 hc)
      have hall : xs.filter (· ≠ c.nextEntry) = xs :=
        filter_eq_self.2 fun b hb => by simpa using fun hc : b = c.nextEntry => hfresh (hc ▸ hb)
      have horder : c1.LruOrder (c.nextEntry :: xs) := by
        have hfilter : (xs.filter fun b => decide (some b ≠ some c.nextEntry ∧ b ∉ named [])) = xs.filter (· ≠ c.nextEntry) := by
          refine filter_congr fun b _ => ?_
          simp [named]
        have hmoved := hl.moves.order xs hx
        rwa [hfilter, hall] at hmoved
      have hother : (c.nextEntry :: xs).filter (· ≠ c.nextEntry) = xs := by
        rw [filter_cons_of_neg (by simp), hall]
      have hself : c1.entry c.nextEntry = ⟨object, charge, items, d, some n⟩ := by rw [hl.entry, update_self]
      have hrest : ∀ b, b ≠ c.nextEntry → c1.entry b = c.entry b := fun b hb => by rw [hl.entry, update_of_ne hb]
      have hentry : ∀ b ∈ xs, c1.entry b = c.entry b := fun b hb => hrest b fun hc => hfresh (hc ▸ hb)
      have hid : c.nextEntry ∈ c1.ids := hl.ids.mem_iff.2 mem_cons_self
      have hcharge1 : c1.charge c.nextEntry = charge := by rw [Cache.charge, hself]
      obtain ⟨kept, removals, k⟩ := evictLoop_clears true c.nextEntry (KvHash.kvHashCount c1.index) hl.core horder hid
        (by rw [horder.count hl.core ((horder.mem _).2 hid)]; exact Nat.lt_succ_self _) none now
        (fits_nil (hl.limits.2.symm ▸ hfits)) (fun _ => hcharge1.symm) (fun p hp => by cases hp)
      generalize evictLoop true c.nextEntry (KvHash.kvHashCount c1.index) c1 none now = r at *
      rw [if_pos k.met]
      have hs := k.shrinks
      have hsplit := k.split
      rw [hother] at hsplit
      have hmem : ∀ b ∈ kept ++ (named removals).reverse, b ∈ xs := fun b hb => hsplit ▸ hb
      have hin : ∀ p ∈ removals, p.1 ∈ xs := fun p hp =>
        hmem _ (mem_append_right _ (mem_reverse.2 (mem_map_of_mem hp)))
      -- the entries of the order have the charges and deadlines they had
      have hfitsc : ∀ ys, (∀ b ∈ ys, b ∈ xs) → (c1.Fits charge ys ↔ c.Fits charge ys) := by
        intro ys hys
        unfold Fits limitsExceeded
        have hsum : ys.map c1.charge = ys.map c.charge := by
          refine map_congr_left fun b hb => ?_
          unfold Cache.charge
          rw [hentry b (hys b hb)]
        rw [hsum, hl.limits.1, hl.limits.2]
      have hselfr : r.1.entry c.nextEntry = ⟨object, charge, items, d, some n⟩ := by rw [hs.entry, hself]
      refine Or.inr ⟨rfl, ?_, fun b hb hk => ?_, kept, removals, hs.core, ?_, ?_, fun b hb => ?_, ?_, ?_, fun _ => ?_, ?_, ?_, ?_,
        fun p hp => ?_, fun τ hτ p hp => ?_⟩
      · rw [entryKey, hselfr, hn]
      · obtain ⟨m, hm, _, _, hkey⟩ := h.mem_ids hb
        exact habsent m hm (hkey ▸ hk)
      · exact ⟨hs.limits.1.trans hl.limits.1, hs.limits.2.trans hl.limits.2⟩
      · obtain ⟨j, hj⟩ := hs.later
        exact ⟨j, fun i => by rw [hj, hl.clock]⟩
      · rw [hs.entry, hrest b hb]
      · rw [hselfr]
      · rw [expireAt, hselfr]
      · rw [hselfr]
        intro m hm
        cases hm
        rwa [hn]
      · apply hl.moves.after k.moves h
        intro b hb
        cases hb
        intro hc
        exact hfresh (hmem _ (mem_append_right _ (mem_reverse.2 hc)))
      · rw [hall, hsplit]
      · rw [Cache.charge, hselfr]
        refine ⟨(hfitsc kept fun b hb => hmem b (mem_append_left _ hb)).1 k.least.1, fun a b hab hb => ?_⟩
        rw [← hfitsc a fun x hxa => hmem x (hab ▸ mem_append_left _ hxa)]
        exact k.least.2 a b hab hb
      · have hu := k.undated p hp
        rwa [expireAt, hentry p.1 (hin p hp)] at hu
      · have hτ1 : c1.Decides true now τ := by
          unfold Decides Fixed at hτ ⊢
          rw [hl.clock]
          exact hτ
        rw [k.judged τ hτ1 p hp]
        unfold reasonAt
        refine if_congr ?_ rfl rfl
        unfold Dead expireAt
        rw [hentry p.1 (hin p hp)]

/-! ## Recharges -/

/-- the time at which `cache_recharge_ref` judges its candidates: no clock is read for an entry without a deadline -/
def rechargeNow (c : Cache) (id : ℕ) : ℕ := if c.expireAt id ≠ 0 then c.nowMs 0 else 0

/-- the charge that a recharge gives an entry -/
def newCharge (c : Cache) (id : ℕ) : ℕ := entryMemoryCharge (c.entryKey id).length (c.entry id).object

/-- the end of a recharge: the recorded charge and items become those of the object -/
theorem applyCharge_rebinds (h : Core hash c) (hid : id ∈ c.ids) (charge : ℕ) :
    Rebinds hash c (c.applyCharge id charge (c.usedMemory - c.charge id + charge)) id (c.entry id).object
      (c.expireAt id) charge := by
  obtain ⟨rest, hp, _⟩ := h.split hid
  have hcount : c.counters.replaceItems (kvObjectType (c.entry id).object) (c.entry id).objectItems
        (objectItemCount (c.entry id).object) =
      (c.counters.removeObject (kvObjectType (c.entry id).object) (c.entry id).objectItems).addObject
        (kvObjectType (c.entry id).object) (objectItemCount (c.entry id).object) := by
    rw [(h.totals hp).2]
    change Counters.replaceItems _ (c.profile id).1 (c.profile id).2 _ =
      (Counters.removeObject _ (c.profile id).1 (c.profile id).2).addObject (c.profile id).1 _
    rw [Counters.replace_add, Counters.remove_add]
  have heq : c.applyCharge id charge (c.usedMemory - c.charge id + charge) =
      (c.replaceObject id (c.entry id).object charge (objectItemCount (c.entry id).object)).lruTouch id := by
    unfold applyCharge replaceObject
    simp only [hcount]
    rfl
  have hself : (c.replaceObject id (c.entry id).object charge (objectItemCount (c.entry id).object)).entry id = _ :=
    update_self ..
  refine (replaceObject_updates h hid _ charge _).touched (replaceObject_still c id _ charge _) hid ?_ ?_ heq
  · rw [Cache.charge, hself]
  · rw [hself]

/-- a recharge is refused and changes nothing but the clock, or room is made for the new charge -/
theorem cacheRechargeRef_makes (h : Core hash c) (hid : id ∈ c.ids) (hx : c.LruOrder xs) :
    ((((c.cacheRechargeRef (some id)).2 = .error ∧ c.Dead (c.nowMs 0) id) ∨
          ((c.cacheRechargeRef (some id)).2 = .capacity ∧
            (c.newCharge id = sizeMax ∨ (c.maxMemory ≠ 0 ∧ c.newCharge id > c.maxMemory)))) ∧
        Still c (c.cacheRechargeRef (some id)).1 ∧ Shrinks hash c (c.cacheRechargeRef (some id)).1) ∨
      ((c.cacheRechargeRef (some id)).2 = .ok ∧ c.newCharge id ≠ sizeMax ∧ (c.cacheRechargeRef (some id)).1.charge id = c.newCharge id) ∧
        ∃ kept removals, Makes hash c (c.cacheRechargeRef (some id)).1 false id (c.rechargeNow id) (c.entry id).object
          (c.expireAt id) xs kept removals := by
  obtain ⟨n, _, _, hnode, hkey⟩ := h.mem_ids hid
  unfold cacheRechargeRef
  simp only [hnode]
  have hstart : Still c (if c.expireAt id ≠ 0 then c.cacheNow else (0, c)).2 ∧
      Shrinks hash c (if c.expireAt id ≠ 0 then c.cacheNow else (0, c)).2 ∧
      (if c.expireAt id ≠ 0 then c.cacheNow else (0, c)).1 = c.rechargeNow id := by
    unfold rechargeNow
    split_ifs
    · exact ⟨cacheNow_still c, shrinks_cacheNow h, rfl⟩
    · exact ⟨.refl c, .refl h, rfl⟩
  generalize (if c.expireAt id ≠ 0 then c.cacheNow else (0, c)) = start at hstart
  obtain ⟨s1, s2, s3⟩ := hstart
  have hexpire : start.2.expireAt id = c.expireAt id := by rw [expireAt, s2.entry]; rfl
  rw [hexpire, s2.entry, s2.limits.2, ← hkey]
  rw [show entryMemoryCharge (c.entryKey id).length (c.entry id).object = c.newCharge id from rfl]
  by_cases hexp : c.expireAt id ≠ 0 ∧ start.1 ≥ c.expireAt id
  · rw [if_pos hexp]
    refine Or.inl ⟨Or.inl ⟨rfl, hexp.1, ?_⟩, s1, s2⟩
    rw [s3, rechargeNow, if_pos hexp.1] at hexp
    exact hexp.2
  rw [if_neg hexp]
  by_cases hcap : c.newCharge id = sizeMax ∨ (c.maxMemory ≠ 0 ∧ c.newCharge id > c.maxMemory)
  · rw [if_pos hcap]
    exact Or.inl ⟨Or.inr ⟨rfl, hcap⟩, s1, s2⟩
  rw [if_neg hcap]
  have hfits : start.2.maxMemory = 0 ∨ c.newCharge id ≤ start.2.maxMemory := by
    rw [s2.limits.2]
    omega
  generalize hcharge : c.newCharge id = charge at hfits hcap ⊢
  have hid1 : id ∈ start.2.ids := (s1.ids id).2 hid
  have hx1 : start.2.LruOrder xs := hx.congr s1.enabled s1.lru s1.ids
  have hused := hx1.used s2.core hid1
  rw [Cache.charge, s2.entry] at hused
  obtain ⟨kept, removals, k⟩ := evictLoop_clears false id (KvHash.kvHashCount start.2.index) s2.core hx1 hid1
    (by rw [hx1.count s2.core ((hx1.mem id).2 hid1)]; exact Nat.lt_succ_self _)
    (some (start.2.usedMemory - (c.entry id).memoryCharge + charge)) start.1 (fits_nil hfits) (fun hn => by cases hn)
    (fun p hp => by cases hp; omega)
  generalize evictLoop false id (KvHash.kvHashCount start.2.index) start.2
    (some (start.2.usedMemory - (c.entry id).memoryCharge + charge)) start.1 = r at *
  rw [if_pos k.met]
  have hs := s2.trans k.shrinks
  have hin := k.keeps s2.core hid1
  have hproj : r.2.1.getD 0 = r.1.usedMemory - r.1.charge id + charge := by
    rw [k.tracked, Option.map_some, Option.getD_some, Nat.add_comm]
  have hw := applyCharge_rebinds k.shrinks.core hin charge
  rw [hproj]
  generalize r.1.applyCharge id charge (r.1.usedMemory - r.1.charge id + charge) = c' at hw
  rw [expireAt, hs.entry] at hw
  have mk := k.makes s2.core hin hw fun m hm _ => by
    rw [s2.entry, hnode] at hm
    cases hm
    rw [← hkey]
    exact hcharge.le
  refine Or.inr ⟨⟨rfl, fun hc => hcap (Or.inl hc), hw.charge⟩, kept, removals, mk.core, ?_, s2.later.trans mk.later, fun b hb => ?_,
    mk.object, mk.deadline, ?_, s1.then_moves mk.moves, mk.split, s2.fits _ ▸ mk.least, fun p hp => ?_, fun τ hτ p hp => ?_⟩
  · exact ⟨mk.limits.1.trans s2.limits.1, mk.limits.2.trans s2.limits.2⟩
  · rw [mk.others b hb, s2.entry]
  · have hcovers := mk.covers
    rwa [s2.entry] at hcovers
  · have hu := mk.undated p hp
    rwa [expireAt, s2.entry] at hu
  · rw [mk.judged τ (s3.trans hτ) p hp, reasonAt_congr s2.entry]

end StoreSystem.Cache
