/-
The order in which the cache evicts.

`recency` is the order the callers know: the keys in the cache by their latest successful store, read or recharge, computed
from the history of calls alone.

`run_use_order`: in every run the LRU list is in that order. `lru_exact`: a successful store or recharge of a key removes the
shortest suffix of it, the key itself skipped, that brings the number of keys and the memory within the limits; the other
keys keep their order and the key comes first.
-/
import StoreSystem.Cache.Calls

namespace StoreSystem.Cache

open List Option

variable {hash : Hasher} {c c' : Cache} {xs : List ℕ}

/-! ## Recency -/

/-- the keys used successfully in a run, in the order of their uses -/
def uses (hash : Hasher) : Cache → List Call → List Bytes
  | _, [] => []
  | c, call :: calls => (used hash c call).toList ++ uses hash (step hash c call) calls

def present (c : Cache) (key : Bytes) : Bool := (c.keyspace key).isSome

/-- keys by their latest use, the latest first -/
def latestFirst (ks : List Bytes) : List Bytes := ks.dedup.reverse

/-- the recency order after a run: the keys in the cache, by their latest successful store, read or recharge -/
def recency (hash : Hasher) (c : Cache) (calls : List Call) : List Bytes :=
  (latestFirst (uses hash c calls)).filter (run hash c calls).present

theorem dedup_concat (ks : List Bytes) (k : Bytes) : (ks ++ [k]).dedup = ks.dedup.filter (· ≠ k) ++ [k] := by
  induction ks with
  | nil => simp
  | cons a ks ih =>
    by_cases ha : a ∈ ks
    · rw [cons_append, dedup_cons_of_mem (mem_append_left _ ha), dedup_cons_of_mem ha, ih]
    · rw [dedup_cons_of_notMem ha, cons_append]
      by_cases hak : a = k
      · rw [dedup_cons_of_mem (by simp [hak]), ih, filter_cons_of_neg (by simp [hak])]
      · rw [dedup_cons_of_notMem (by simp [ha, hak]), ih, filter_cons_of_pos (by simp [hak]), cons_append]

/-- a use puts the key in front of the others -/
theorem latestFirst_use (ks : List Bytes) (front : Option Bytes) :
    latestFirst (ks ++ front.toList) = front.toList ++ (latestFirst ks).filter (fun k => some k ≠ front) := by
  cases front with
  | none => simp
  | some k =>
    rw [latestFirst, toList_some, dedup_concat, reverse_append, ← filter_reverse]
    simp [latestFirst]

theorem uses_append (c : Cache) (calls more : List Call) :
    uses hash c (calls ++ more) = uses hash c calls ++ uses hash (run hash c calls) more := by
  induction calls generalizing c with
  | nil => rfl
  | cons call calls ih =>
    rw [cons_append, uses, uses, ih, append_assoc]
    rfl

theorem present_iff (h : Core hash c) (key : Bytes) : c.present key = true ↔ ∃ id ∈ c.ids, c.entryKey id = key := by
  unfold present
  rw [keyspace, isSome_map]
  constructor
  · intro hp
    obtain ⟨id, hid⟩ := isSome_iff_exists.1 hp
    exact ⟨id, h.of_lookup hid⟩
  · rintro ⟨id, hid, rfl⟩
    rw [h.lookup_entryKey hid]
    rfl

/-- the entries are in the order of the latest uses -/
def UseOrder (c : Cache) (ks : List Bytes) : Prop := ∃ xs, c.LruOrder xs ∧ xs.map c.entryKey = (latestFirst ks).filter c.present

variable {removals : List (ℕ × RemovalReason)} {ks : List Bytes}

/-- an entry stays behind the front exactly when its key does -/
theorem Moves.stays_iff {id : Option ℕ} (m : Moves c c' id removals) (h : Core hash c)
    (h' : Core hash c') {b : ℕ} (hb : b ∈ c.ids) :
    (some b ≠ id ∧ b ∉ named removals) ↔ (some (c.entryKey b) ≠ id.map c'.entryKey ∧ c'.present (c.entryKey b) = true) := by
  have hkeys : ∀ a ∈ c.ids, c'.entryKey a = c.entryKey a := fun a ha => m.keys a (h.fresh a ha)
  rw [present_iff h']
  constructor
  · rintro ⟨h1, h2⟩
    have hin : b ∈ c'.ids := (m.mem h b).2 (Or.inr ⟨hb, h2⟩)
    refine ⟨fun hc => ?_, b, hin, hkeys b hb⟩
    obtain ⟨a, rfl, ha⟩ := map_eq_some_iff.1 hc.symm
    have hain : a ∈ c'.ids := (m.mem h a).2 (Or.inl rfl)
    rw [← hkeys b hb] at ha
    exact h1 (congrArg some (h'.entryKey_inj hin hain ha.symm))
  · rintro ⟨h1, a, ha, hk⟩
    rcases (m.mem h a).1 ha with rfl | ⟨hac, hgone⟩
    · exact absurd (congrArg some hk.symm) h1
    · rw [hkeys a hac] at hk
      have hab := h.entryKey_inj hac hb hk
      subst hab
      refine ⟨fun hc => h1 ?_, hgone⟩
      rw [← hc, map_some, hkeys a hac]

/-- **A move by key**: the key in front, and behind it the others that are still there, in their order. -/
theorem Moves.use_order {id : Option ℕ} (m : Moves c c' id removals) (h : Core hash c)
    (h' : Core hash c') (hx : c.LruOrder xs) (hmap : xs.map c.entryKey = (latestFirst ks).filter c.present) :
    (id.toList ++ xs.filter fun b => some b ≠ id ∧ b ∉ named removals).map c'.entryKey =
      (latestFirst (ks ++ (id.map c'.entryKey).toList)).filter c'.present := by
  -- the key in front is there
  have hfront : (id.map c'.entryKey).toList.filter c'.present = id.toList.map c'.entryKey := by
    cases id with
    | none => rfl
    | some a =>
      have hin : a ∈ c'.ids := (m.mem h a).2 (Or.inl rfl)
      have hp := (present_iff h' (c'.entryKey a)).2 ⟨a, hin, rfl⟩
      simp [hp]
  -- what is there and not in front was there before
  have hbefore : ∀ k, some k ≠ id.map c'.entryKey → c'.present k = true → c.present k = true := by
    intro k hk hp
    obtain ⟨a, ha, rfl⟩ := (present_iff h' k).1 hp
    rcases (m.mem h a).1 ha with rfl | ⟨hac, _⟩
    · exact absurd rfl hk
    · exact (present_iff h _).2 ⟨a, hac, (m.keys a (h.fresh a hac)).symm⟩
  rw [latestFirst_use, filter_append, hfront, map_append]
  congr 1
  calc (xs.filter fun b => decide (some b ≠ id ∧ b ∉ named removals)).map c'.entryKey
      = (xs.filter fun b => decide (some b ≠ id ∧ b ∉ named removals)).map c.entryKey := by
        refine map_congr_left fun b hb => m.keys b (h.fresh b ((hx.mem b).1 (mem_of_mem_filter hb)))
    _ = (xs.filter fun b => decide (some (c.entryKey b) ≠ id.map c'.entryKey ∧ c'.present (c.entryKey b) = true)).map c.entryKey := by
        congr 1
        refine filter_congr fun b hb => ?_
        rw [decide_eq_decide]
        exact m.stays_iff h h' ((hx.mem b).1 hb)
    _ = (xs.map c.entryKey).filter fun k => decide (some k ≠ id.map c'.entryKey ∧ c'.present k = true) := by
        rw [List.filter_map]
        rfl
    _ = ((latestFirst ks).filter fun k => decide (some k ≠ id.map c'.entryKey)).filter c'.present := by
        rw [hmap, List.filter_filter, List.filter_filter]
        refine filter_congr fun k _ => ?_
        have := hbefore k
        rw [Bool.eq_iff_iff]
        simp only [Bool.and_eq_true, decide_eq_true_eq]
        tauto

/-- **One call** puts the key it uses in front of the order. -/
theorem step_use_order (h : Core hash c) (hw : c.Within) (call : Call) (hks : UseOrder c ks) :
    UseOrder (step hash c call) (ks ++ (used hash c call).toList) := by
  have h' := (step_advances h hw call).core
  have hacts : ∃ id removals, Moves c (step hash c call) id removals ∧
      id.map (step hash c call).entryKey = used hash c call := by
    cases hs : storeCall hash c call with
    | some s =>
      obtain ⟨key, r⟩ := s
      obtain ⟨xs, hx⟩ := h.lruOrder
      obtain ⟨hstep, removals, hm, _⟩ := storeCall_moves h hw hx hs
      have hread : hit hash c call = none := by
        cases call <;> simp [storeCall] at hs <;> rfl
      have hused : used hash c call = if r.2 = .ok then some key else none := by
        rw [used, hread, or_none, stored, hs]
        rfl
      rw [hstep, hused]
      by_cases hok : r.2 = .ok
      · obtain ⟨id, kept, gone, m, hroom⟩ := hm.stored hok
        refine ⟨some id, removals, m, ?_⟩
        rw [if_pos hok, map_some, hroom.front]
      · refine ⟨none, removals, hm.failed hok, ?_⟩
        rw [if_neg hok]
        rfl
    | none =>
      have hstored : stored hash c call = none := by rw [stored, hs]; rfl
      rw [used, hstored, none_or]
      cases hr : readCall hash c call with
      | some rd =>
        obtain ⟨key, found⟩ := rd
        obtain ⟨id, removals, m, hfront, _⟩ := readCall_acts h hw hr
        refine ⟨id, removals, m, ?_⟩
        rw [hfront, hit, hr]
        rfl
      | none =>
        obtain ⟨id, removals, m, hfront, _⟩ := otherCall_acts h hs hr
        refine ⟨id, removals, m, ?_⟩
        rw [hfront, hit, hr]
        rfl
  obtain ⟨id, removals, m, hfront⟩ := hacts
  obtain ⟨xs, hx, hmap⟩ := hks
  rw [← hfront]
  exact ⟨_, m.order xs hx, m.use_order h h' hx hmap⟩

/-- **Whole runs** keep the entries in the order of the latest uses. -/
theorem run_use_order (calls : List Call) (h : Core hash c) (hw : c.Within) (hks : UseOrder c ks) :
    UseOrder (run hash c calls) (ks ++ uses hash c calls) := by
  induction calls generalizing c ks with
  | nil =>
    rw [uses, append_nil]
    exact hks
  | cons call calls ih =>
    have h1 := step_advances h hw call
    rw [uses, ← append_assoc]
    exact ih h1.core h1.within (step_use_order h hw call hks)

theorem use_order_create (maxKeys maxMemory : ℕ) (nowMs : ℕ → ℕ) : UseOrder (cacheCreate maxKeys maxMemory nowMs) [] := by
  obtain ⟨xs, hx⟩ := (core_create (fun _ => 0) maxKeys maxMemory nowMs).lruOrder
  have hnil : xs = [] := by
    refine eq_nil_iff_forall_not_mem.2 fun b hb => ?_
    have hin := (hx.mem b).1 hb
    rw [ids_create] at hin
    exact not_mem_nil hin
  exact ⟨xs, hx, by rw [hnil]; rfl⟩

/-! ## Exact eviction -/

/-- the recorded charge of a key -/
def chargeOf (c : Cache) (key : Bytes) : ℕ := (KvHash.lookup c.index key).elim 0 c.charge

/-- a key with charge `own` and the keys of a list together are within the limits -/
def KeysFit (c : Cache) (own : ℕ) (ks : List Bytes) : Prop :=
  c.limitsExceeded (ks.length + 1) (own + (ks.map c.chargeOf).sum) = false

theorem chargeOf_entryKey (h : Core hash c) {id : ℕ} (hid : id ∈ c.ids) : c.chargeOf (c.entryKey id) = c.charge id := by
  rw [chargeOf, h.lookup_entryKey hid]
  rfl

theorem fits_keys (h : Core hash c) (own : ℕ) {ys : List ℕ} (hys : ∀ b ∈ ys, b ∈ c.ids) :
    c.KeysFit own (ys.map c.entryKey) ↔ c.Fits own ys := by
  unfold KeysFit Fits
  have hsum : (ys.map c.entryKey).map c.chargeOf = ys.map c.charge := by
    rw [List.map_map]
    exact map_congr_left fun b hb => chargeOf_entryKey h (hys b hb)
  rw [length_map, hsum]

/-- the shortest suffix of entries, by key -/
theorem Shortest.keys (h : Core hash c) {own : ℕ} {kept gone : List ℕ} (hs : Shortest (c.Fits own) kept gone)
    (hin : ∀ b ∈ kept ++ gone, b ∈ c.ids) : Shortest (c.KeysFit own) (kept.map c.entryKey) (gone.map c.entryKey) := by
  refine ⟨(fits_keys h own fun b hb => hin b (mem_append_left _ hb)).2 hs.1, fun a b hab hlen => ?_⟩
  rw [← map_append] at hab
  obtain ⟨a', b', hsplit, rfl, rfl⟩ := map_eq_append_iff.1 hab
  rw [length_map, length_map] at hlen
  rw [fits_keys h own fun x hx => hin x (hsplit ▸ mem_append_left _ hx)]
  exact hs.2 a' b' hsplit hlen

/-- the entries that were kept are those that a call for `id` left in their places -/
theorem Room.kept_eq {key : Bytes} {id : ℕ} {kept gone : List ℕ}
    (hroom : Room c c' key xs id kept gone) (m : Moves c c' (some id) removals) (h : Core hash c) (hx : c.LruOrder xs) :
    (xs.filter fun b => some b ≠ some id ∧ b ∉ named removals) = kept := by
  have hnd : (kept ++ gone).Nodup := hroom.split ▸ hx.nodup.filter _
  have hkept : ∀ b, b ∈ kept → b ∈ xs ∧ c.entryKey b ≠ key := by
    intro b hb
    have hin : b ∈ kept ++ gone := mem_append_left _ hb
    rw [← hroom.split] at hin
    simpa using mem_filter.1 hin
  have hmem : ∀ b ∈ xs, (some b ≠ some id ∧ b ∉ named removals) ↔ b ∈ kept := by
    intro b hb
    have hids := m.mem h b
    rw [← hroom.order.mem b, mem_cons] at hids
    have hnot : id ∉ kept := (nodup_cons.1 hroom.order.nodup).1
    constructor
    · rintro ⟨h1, h2⟩
      refine (hids.2 (Or.inr ⟨(hx.mem b).1 hb, h2⟩)).resolve_left fun hc => h1 (congrArg some hc)
    · intro hk
      have hne : b ≠ id := fun hc => hnot (hc ▸ hk)
      rcases hids.1 (Or.inr hk) with hc | ⟨_, h2⟩
      · exact absurd (Option.some.inj hc).symm hne
      · exact ⟨fun hc => hne (Option.some.inj hc), h2⟩
  calc (xs.filter fun b => decide (some b ≠ some id ∧ b ∉ named removals))
      = xs.filter (· ∈ kept) := filter_congr fun b hb => by rw [decide_eq_decide]; exact hmem b hb
    _ = (xs.filter fun b => decide (c.entryKey b ≠ key)).filter (· ∈ kept) := by
        rw [List.filter_filter]
        refine filter_congr fun b _ => ?_
        by_cases hb : b ∈ kept
        · simp [hb, (hkept b hb).2]
        · simp [hb]
    _ = kept := by
        rw [hroom.split, filter_append, filter_eq_self.2 (by simp), filter_eq_nil_iff.2, append_nil]
        intro b hb
        rw [decide_eq_true_eq]
        exact fun hc => (nodup_append'.1 hnd).2.2 hc hb

theorem stored_eq_some {call : Call} {k : Bytes} (hk : stored hash c call = some k) :
    ∃ r, storeCall hash c call = some (k, r) ∧ r.2 = .ok := by
  unfold stored at hk
  obtain ⟨⟨key, r⟩, hs, hif⟩ := bind_eq_some_iff.1 hk
  simp only at hif
  split_ifs at hif with hok
  cases hif
  exact ⟨r, hs, hok⟩

/-- **Exact LRU eviction.** In every run, a successful store or recharge of the key `k` removes exactly the shortest suffix
of the recency order, `k` skipped, whose removal brings the number of keys and the memory within the limits; the survivors
keep their order, and `k` comes first. -/
theorem lru_exact (hash : Hasher) (maxKeys maxMemory : ℕ) (nowMs : ℕ → ℕ) (calls : List Call) (call : Call) (k : Bytes)
    (hk : stored hash (run hash (cacheCreate maxKeys maxMemory nowMs) calls) call = some k) :
    ∃ kept gone, (recency hash (cacheCreate maxKeys maxMemory nowMs) calls).filter (· ≠ k) = kept ++ gone ∧
      recency hash (cacheCreate maxKeys maxMemory nowMs) (calls ++ [call]) = k :: kept ∧
      (∀ key, (run hash (cacheCreate maxKeys maxMemory nowMs) (calls ++ [call])).present key = true ↔ key ∈ k :: kept) ∧
      Shortest ((run hash (cacheCreate maxKeys maxMemory nowMs) calls).KeysFit
        ((run hash (cacheCreate maxKeys maxMemory nowMs) (calls ++ [call])).chargeOf k)) kept gone := by
  have hcreate := core_create hash maxKeys maxMemory nowMs
  have hcw := within_create maxKeys maxMemory nowMs
  have hadv := run_advances calls hcreate hcw
  obtain ⟨xs, hx, hmap⟩ := run_use_order calls hcreate hcw (use_order_create maxKeys maxMemory nowMs)
  have hlast : run hash (cacheCreate maxKeys maxMemory nowMs) (calls ++ [call]) =
      step hash (run hash (cacheCreate maxKeys maxMemory nowMs) calls) call := foldl_concat ..
  have huses : uses hash (cacheCreate maxKeys maxMemory nowMs) (calls ++ [call]) =
      uses hash (cacheCreate maxKeys maxMemory nowMs) calls ++ (some k).toList := by
    rw [uses_append, uses, uses, append_nil, used, hk, some_or]
  unfold recency
  rw [nil_append] at hmap
  rw [hlast, huses, ← hmap]
  generalize run hash (cacheCreate maxKeys maxMemory nowMs) calls = c at *
  have h := hadv.core
  have h' := (step_advances h hadv.within call).core
  obtain ⟨r, hs, hok⟩ := stored_eq_some hk
  obtain ⟨hstep, removals, hm, _⟩ := storeCall_moves h hadv.within hx hs
  obtain ⟨id, kept, gone, m, hroom⟩ := hm.stored hok
  rw [hstep] at h' ⊢
  have hkeptin : ∀ b ∈ kept ++ gone, b ∈ c.ids := by
    intro b hb
    rw [← hroom.split] at hb
    exact (hx.mem b).1 (mem_of_mem_filter hb)
  have hkeys : kept.map r.1.entryKey = kept.map c.entryKey :=
    map_congr_left fun b hb => m.keys b (h.fresh b (hkeptin b (mem_append_left _ hb)))
  have horder := m.use_order h h' hx hmap
  rw [hroom.kept_eq m h hx, map_some, hroom.front, toList_some, singleton_append, map_cons, hroom.front,
    hkeys] at horder
  refine ⟨kept.map c.entryKey, gone.map c.entryKey, ?_, horder.symm, fun key => ?_, ?_⟩
  · rw [List.filter_map, ← map_append, ← hroom.split]
    rfl
  · rw [present_iff h', ← hkeys, ← hroom.front, ← map_cons, List.mem_map]
    exact exists_congr fun b => and_congr_left' (hroom.order.mem b).symm
  · rw [← hroom.front, chargeOf_entryKey h' ((hroom.order.mem id).1 mem_cons_self)]
    exact hroom.least.keys h hkeptin

/-- the store of a short String without a deadline, every allocation succeeding -/
def storeShort (key : Bytes) : Call := .storeObject ⟨true, true, ⟨true, true⟩⟩ key ⟨.string [7] 1, 42⟩ 0 false

/-- with room for two keys, storing a third one after key 1 was read removes key 2 -/
theorem lru_exact_third_key :
    ∃ kept gone, (recency (fun _ => 0) (cacheCreate 2 0 fun _ => 0) [storeShort [1], storeShort [2], .get [1]]).filter (· ≠ [3]) =
        kept ++ gone ∧ kept = [[1]] ∧ gone = [[2]] := by
  obtain ⟨kept, gone, hsplit, horder, _, _⟩ := lru_exact (fun _ => 0) 2 0 (fun _ => 0)
    [storeShort [1], storeShort [2], .get [1]] (storeShort [3]) [3] (by decide +kernel)
  have hlast : recency (fun _ => 0) (cacheCreate 2 0 fun _ => 0)
      ([storeShort [1], storeShort [2], .get [1]] ++ [storeShort [3]]) = [[3], [1]] := by
    decide +kernel
  have hfirst : (recency (fun _ => 0) (cacheCreate 2 0 fun _ => 0) [storeShort [1], storeShort [2], .get [1]]).filter (· ≠ [3]) =
      [[1], [2]] := by
    decide +kernel
  rw [hlast, List.cons.injEq] at horder
  refine ⟨kept, gone, hsplit, horder.2.symm, ?_⟩
  rw [hfirst, ← horder.2] at hsplit
  simpa using hsplit.symm

end StoreSystem.Cache
