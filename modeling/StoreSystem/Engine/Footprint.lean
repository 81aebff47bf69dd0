/-
What `memory_usage` of a Hash or a ZSet (`src/engine/object.c`) says about the memory the object has.

`footprint` recomputes the memory from the structure: the headers, the bucket arrays of the table, its nodes, and the value, or
the entry and the order node, of each element. The operations charge what they add and discharge what they remove, so that
`memory_usage` stays equal to it with two exceptions. The rehash step at the start of an operation frees the old bucket array
when it empties its last bucket, and nothing is discharged for it (`Call.released`). An insertion that starts an expansion and
then has no memory for its node keeps the new array, and nothing is charged for it (`Call.wasted`).

- `usage_exact_iff`: from an object that was just created, `memory_usage` is the footprint after every call of a run exactly
  when no call of the run does either.
- `usage_keeps_old_buckets`: thirteen fields and sixteen reads of a Hash, after which the freed bucket array is still charged.

Sizes do not wrap.
-/
import StoreSystem.Engine.Object

namespace StoreSystem

open List hiding set
open KvHash (HashTable Node)

/-! ## Bucket arrays -/

variable {key : Bytes}

namespace KvHash

variable {V : Type} {hash : Hasher} {h h' : HashTable V}

/-- the rehash step of an operation ends the rehash -/
def finishes (h : HashTable V) : Bool := kvHashIsRehashing h && !kvHashIsRehashing (kvHashRehashStep h 1).1

/-- the memory of the bucket array that the rehash step frees -/
def released (h : HashTable V) : ℕ := if finishes h then h.table0.slots * sizeofBucket else 0

/-- an insertion that fails after it has allocated the second bucket array -/
def expandsInVain (hash : Hasher) (alloc : Alloc) (h : HashTable V) (key : Bytes) (v : V) : Bool :=
  (kvHashInsert hash alloc h key v).2.isNone && !kvHashIsRehashing h &&
    kvHashIsRehashing (kvHashInsert hash alloc h key v).1

def wasted (hash : Hasher) (alloc : Alloc) (h : HashTable V) (key : Bytes) (v : V) : ℕ :=
  if expandsInVain hash alloc h key v then h.table0.slots * 2 * sizeofBucket else 0

/-- during a rehash the second array has twice the slots of the first -/
def Doubled (h : HashTable V) : Prop := kvHashIsRehashing h = true → h.table1.slots = h.table0.slots * 2

/-- the bucket arrays have the sizes they had -/
structure SameArrays (h h' : HashTable V) : Prop where
  slots0 : h'.table0.slots = h.table0.slots
  slots1 : h'.table1.slots = h.table1.slots
  rehash : h'.rehashIndex = h.rehashIndex

theorem SameArrays.refl (h : HashTable V) : SameArrays h h := ⟨rfl, rfl, rfl⟩

theorem SameArrays.indexMemory (hs : SameArrays h h') : kvHashIndexMemory h' = kvHashIndexMemory h := by
  unfold kvHashIndexMemory
  rw [hs.slots0, hs.slots1]

theorem SameArrays.doubled (hs : SameArrays h h') (hd : Doubled h) : Doubled h' := by
  intro hr
  rw [kvHashIsRehashing, hs.rehash] at hr
  rw [hs.slots0, hs.slots1]
  exact hd hr

variable {n : Node V} {v : V}

theorem removeFromTable_slots {t t' : Table V} (hr : removeFromTable t n = some (v, t')) : t'.slots = t.slots := by
  unfold removeFromTable at hr
  split_ifs at hr
  simp only [Option.map_eq_some_iff, Prod.mk.injEq] at hr
  obtain ⟨_, _, _, rfl⟩ := hr
  exact setBucket_slots _ _ _

theorem removeTarget_arrays (h : HashTable V) (target : Option (Node V)) : SameArrays h (removeTarget h target).1 := by
  cases target with
  | none => exact .refl h
  | some n =>
    cases h0 : removeFromTable h.table0 n with
    | some r =>
      simp only [removeTarget, h0]
      exact ⟨removeFromTable_slots h0, rfl, rfl⟩
    | none =>
      cases h1 : removeFromTable h.table1 n with
      | some r =>
        simp only [removeTarget, h0, h1]
        exact ⟨rfl, removeFromTable_slots h1, rfl⟩
      | none =>
        simp only [removeTarget, h0, h1]
        exact .refl h

theorem setPayload_arrays (h : HashTable V) (n : Node V) (v : V) : SameArrays h (kvHashNodeSetPayload h (some n) v) :=
  ⟨mapNodes_slots _ _, mapNodes_slots _ _, rfl⟩

theorem insertNode_arrays (h : HashTable V) (key : Bytes) (code : UInt64) (v : V) : SameArrays h (insertNode h key code v).1 := by
  unfold insertNode
  dsimp only
  split_ifs
  · exact ⟨rfl, pushFront_slots _ _, rfl⟩
  · exact ⟨pushFront_slots _ _, rfl, rfl⟩

theorem foldl_pushFront_slots (chain : List (Node V)) (t : Table V) : (chain.foldl Table.pushFront t).slots = t.slots := by
  induction chain generalizing t with
  | nil => rfl
  | cons n chain ih => rw [foldl_cons, ih, pushFront_slots]

theorem rehashLoop_slots (fuel : ℕ) (t0 t1 : Table V) (i budget emptyBudget moved : ℕ) :
    (rehashLoop fuel t0 t1 i budget emptyBudget moved).1.slots = t0.slots ∧
      (rehashLoop fuel t0 t1 i budget emptyBudget moved).2.1.slots = t1.slots := by
  induction fuel generalizing t0 t1 i budget emptyBudget moved with
  | zero => exact ⟨rfl, rfl⟩
  | succ fuel ih =>
    rw [rehashLoop]
    split_ifs
    · exact ih ..
    · obtain ⟨ih0, ih1⟩ := ih (t0.setBucket i []) ((t0.bucket i).foldl Table.pushFront t1) (i + 1) (budget - 1) emptyBudget (moved + 1)
      exact ⟨ih0.trans (setBucket_slots _ _ _), ih1.trans (foldl_pushFront_slots _ _)⟩
    · exact ⟨rfl, rfl⟩

/-- a rehash step keeps the sizes of the arrays, or frees the first and puts the second in its place -/
theorem kvHashRehashStep_arrays (h : HashTable V) (budget : ℕ) :
    ((kvHashRehashStep h budget).1.table0.slots = h.table0.slots ∧ (kvHashRehashStep h budget).1.table1.slots = h.table1.slots ∧
        kvHashIsRehashing (kvHashRehashStep h budget).1 = kvHashIsRehashing h) ∨
      (kvHashIsRehashing h = true ∧ kvHashIsRehashing (kvHashRehashStep h budget).1 = false ∧
        (kvHashRehashStep h budget).1.table0.slots = h.table1.slots ∧ (kvHashRehashStep h budget).1.table1.slots = 0) := by
  cases hr : h.rehashIndex with
  | none =>
    have heq : kvHashRehashStep h budget = (h, 0) := by simp [kvHashRehashStep, hr]
    rw [heq]
    exact Or.inl ⟨rfl, rfl, rfl⟩
  | some i =>
    have hrehashing : kvHashIsRehashing h = true := by rw [kvHashIsRehashing, hr]; rfl
    simp only [kvHashRehashStep, hr]
    generalize (if budget > sizeMax / 10 then sizeMax else budget * 10) = emptyBudget
    obtain ⟨hs0, hs1⟩ := rehashLoop_slots (h.table0.slots - i) h.table0 h.table1 i budget emptyBudget 0
    split_ifs
    · exact Or.inr ⟨hrehashing, rfl, hs1, rfl⟩
    · exact Or.inl ⟨hs0, hs1, hrehashing.symm⟩

theorem finishes_of_arrays {budget : ℕ} (hsame : kvHashIsRehashing (kvHashRehashStep h budget).1 = kvHashIsRehashing h) :
    (kvHashIsRehashing h && !kvHashIsRehashing (kvHashRehashStep h budget).1) = false := by
  rw [hsame, Bool.and_not_self]

/-- the memory of the index before and after the rehash step -/
theorem kvHashRehashStep_indexMemory (h : HashTable V) :
    kvHashIndexMemory (kvHashRehashStep h 1).1 + released h = kvHashIndexMemory h := by
  unfold kvHashIndexMemory released finishes
  rcases kvHashRehashStep_arrays h 1 with ⟨hs0, hs1, hsame⟩ | ⟨hbefore, hafter, hs0, hs1⟩
  · rw [finishes_of_arrays hsame, hs0, hs1]
    rfl
  · rw [hbefore, hafter, hs0, hs1]
    simp only [Bool.not_false, Bool.and_self, if_true]
    omega

theorem kvHashRehashStep_doubled (hd : Doubled h) (budget : ℕ) : Doubled (kvHashRehashStep h budget).1 := by
  intro hr
  rcases kvHashRehashStep_arrays h budget with ⟨hs0, hs1, hsame⟩ | ⟨_, hafter, _, _⟩
  · rw [hs0, hs1]
    exact hd (hsame ▸ hr)
  · rw [hafter] at hr
    cases hr

/-- an expansion is none, or a second array of twice the size where there was none -/
theorem maybeExpand_arrays (hi : Inv hash h) {ok : Bool} (he : maybeExpand ok h = some h') :
    h' = h ∨ kvHashIsRehashing h = false ∧ kvHashIsRehashing h' = true ∧ h'.table0.slots = h.table0.slots ∧
      h.table1.slots = 0 ∧ h'.table1.slots = h.table0.slots * 2 := by
  unfold maybeExpand startExpand at he
  split_ifs at he with hr
  · exact Or.inl (Option.some_inj.1 he).symm
  · exact Or.inl (Option.some_inj.1 he).symm
  · obtain ⟨t, ht, rfl⟩ := Option.map_eq_some_iff.1 he
    have hidle : h.rehashIndex = none := by simpa [kvHashIsRehashing] using hr
    unfold tableAllocate at ht
    split_ifs at ht
    cases ht
    refine Or.inr ⟨by simpa using hr, rfl, rfl, ?_, ?_⟩
    · rw [hi.idle hidle]
      rfl
    · simp only [Table.slots, length_replicate]

/-- an insertion leaves the table, expands it, or expands it and adds the node -/
theorem kvHashInsert_cases (hash : Hasher) (alloc : Alloc) (h : HashTable V) (key : Bytes) (v : V) :
    kvHashInsert hash alloc h key v = (h, none) ∨
      ∃ h', maybeExpand alloc.table h = some h' ∧
        (kvHashInsert hash alloc h key v = (h', none) ∨
          kvHashInsert hash alloc h key v = insertNode h' key (hash key) v) := by
  unfold kvHashInsert
  by_cases hkey : key.length = sizeMax
  · rw [if_pos hkey]
    exact Or.inl rfl
  rw [if_neg hkey]
  by_cases h0 : (findInTable h.table0 key (hash key)).isSome = true
  · rw [if_pos h0]
    exact Or.inl rfl
  rw [if_neg h0]
  by_cases h1 : kvHashIsRehashing h ∧ (findInTable h.table1 key (hash key)).isSome
  · rw [if_pos h1]
    exact Or.inl rfl
  rw [if_neg h1]
  cases he : maybeExpand alloc.table h with
  | none => exact Or.inl rfl
  | some h' =>
    refine Or.inr ⟨h', rfl, ?_⟩
    dsimp only
    split_ifs
    · exact Or.inl rfl
    · exact Or.inr rfl
    · exact Or.inl rfl

theorem kvHashInsert_doubled (hi : Inv hash h) (hd : Doubled h) {alloc : Alloc} {n : Option (Node V)}
    (hins : kvHashInsert hash alloc h key v = (h', n)) : Doubled h' := by
  rcases kvHashInsert_cases hash alloc h key v with heq | ⟨e, he, heq⟩
  · cases heq.symm.trans hins
    exact hd
  have hde : Doubled e := by
    rcases maybeExpand_arrays hi he with rfl | ⟨_, _, hs0, _, hs1⟩
    · exact hd
    · intro _
      rw [hs0, hs1]
  rcases heq with heq | heq
  · cases heq.symm.trans hins
    exact hde
  · cases heq.symm.trans hins
    exact (insertNode_arrays e key (hash key) v).doubled hde

/-- the memory of the index before and after an insertion that fails -/
theorem kvHashInsert_wasted (hi : Inv hash h) {alloc : Alloc} (hf : kvHashInsert hash alloc h key v = (h', none)) :
    kvHashIndexMemory h' = kvHashIndexMemory h + wasted hash alloc h key v := by
  unfold wasted expandsInVain
  simp only [hf, Option.isNone_none, Bool.true_and]
  rcases kvHashInsert_cases hash alloc h key v with heq | ⟨e, he, heq | heq⟩
  · cases heq.symm.trans hf
    simp only [Bool.not_and_self, Bool.false_eq_true, if_false, Nat.add_zero]
  · cases heq.symm.trans hf
    rcases maybeExpand_arrays hi he with rfl | ⟨hbefore, hafter, hs0, hidle, hs1⟩
    · simp only [Bool.not_and_self, Bool.false_eq_true, if_false, Nat.add_zero]
    · rw [hbefore, hafter]
      simp only [Bool.not_false, Bool.and_self, if_true]
      unfold kvHashIndexMemory
      rw [hs0, hidle, hs1]
      omega
  · cases heq.symm.trans hf

/-! ## Tables with their elements -/

variable (cost : Node V → ℕ)

/-- the memory of a table whose nodes cost what `cost` says -/
def tableMemory (h : HashTable V) : ℕ := kvHashIndexMemory h + ((nodes h).map cost).sum

theorem tableMemory_rehash (hi : Inv hash h) :
    tableMemory cost (kvHashRehashStep h 1).1 + released h = tableMemory cost h := by
  unfold tableMemory
  rw [((kvHashRehashStep_spec hi 1).nodes.map cost).sum_eq, ← kvHashRehashStep_indexMemory h]
  omega

theorem tableMemory_inserted (hr : Inserted hash h h' n) :
    tableMemory cost h' + kvHashIndexMemory h = tableMemory cost h + kvHashIndexMemory h' + cost n := by
  unfold tableMemory
  rw [(hr.nodes.map cost).sum_eq, map_cons, sum_cons]
  omega

theorem tableMemory_failed (hi : Inv hash h) {alloc : Alloc} (hf : kvHashInsert hash alloc h key v = (h', none)) :
    tableMemory cost h' = tableMemory cost h + wasted hash alloc h key v := by
  have hsame := (kvHashInsert_failed hi (by rw [hf] : (kvHashInsert hash alloc h key v).2 = none)).2.1
  rw [hf] at hsame
  unfold tableMemory
  rw [hsame, kvHashInsert_wasted hi hf]
  omega

theorem tableMemory_removed (hi : Inv hash h) (hn : n ∈ nodes h) :
    tableMemory cost (kvHashRemoveNode h (some n)).1 + cost n = tableMemory cost h := by
  have hr := (removeTarget_spec hi hn).2
  have harrays := removeTarget_arrays h (some n)
  unfold tableMemory kvHashRemoveNode
  rw [harrays.indexMemory, ← (hr.nodes.map cost).sum_eq, map_cons, sum_cons]
  omega

/-- the nodes before and after a write to the payload of one of them -/
theorem nodes_setPayload (hi : Inv hash h) (hn : n ∈ nodes h) (v : V) :
    ∃ p q, nodes h = p ++ n :: q ∧ nodes (kvHashNodeSetPayload h (some n) v) = p ++ { n with payload := v } :: q := by
  obtain ⟨p, q, hpq⟩ := append_of_mem hn
  have haddrs := hi.addrs
  rw [hpq, map_append, map_cons] at haddrs
  obtain ⟨_, hnq, hdisj⟩ := nodup_append.1 haddrs
  have hother : ∀ l : List (Node V), (∀ m ∈ l, m.addr ≠ n.addr) → l.map (writePayload n.addr v) = l := by
    intro l hl
    exact (map_congr_left fun m hm => if_neg (hl m hm)).trans (map_id' l)
  refine ⟨p, q, hpq, ?_⟩
  rw [kvHashNodeSetPayload_nodes, hpq, map_append, map_cons, hother p, hother q]
  · simp [writePayload]
  · exact fun m hm hc => (nodup_cons.1 hnq).1 (hc ▸ mem_map_of_mem hm)
  · exact fun m hm hc => hdisj _ (mem_map_of_mem hm) _ mem_cons_self hc

theorem tableMemory_setPayload (hi : Inv hash h) (hn : n ∈ nodes h) (v : V) :
    tableMemory cost (kvHashNodeSetPayload h (some n) v) + cost n = tableMemory cost h + cost { n with payload := v } := by
  obtain ⟨p, q, hpq, hwritten⟩ := nodes_setPayload hi hn v
  unfold tableMemory
  rw [(setPayload_arrays h n v).indexMemory, hpq, hwritten]
  simp only [map_append, map_cons, sum_append, sum_cons]
  omega

end KvHash

open KvHash (tableMemory kvHashRehashStep kvHashInsert nodes kvHashFind kvHashIndexMemory Doubled kvHashNodeMemoryForKey kvHashCreate)

/-! ## Objects -/

/-- a field of a Hash: its node and its value -/
def fieldMemory (n : Node HashValue) : ℕ := kvHashNodeMemoryForKey n.key.length + (sizeofHashValue + n.payload.capacity + 1)

/-- a member of a ZSet: its node, its entry and its order node -/
def memberMemory (o : Order) (n : Node ZMember) : ℕ :=
  kvHashNodeMemoryForKey n.key.length + (sizeofZmember + orderedNodeMemory o n.payload.orderNode)

namespace KvObject

/-- the memory of an object, recomputed from its structure -/
def footprint (o : KvObject) : ℕ :=
  match o.value with
  | .string _ capacity => sizeofObject + capacity + 1
  | .hash table => sizeofObject + tableMemory fieldMemory table
  | .zset set => sizeofObject + sizeofZset + orderedBaseMemory set.order + tableMemory (memberMemory set.order) set.members

/-- the recorded usage is the footprint -/
def Exact (o : KvObject) : Prop := kvObjectMemoryUsage o = footprint o

instance (o : KvObject) : Decidable (Exact o) := inferInstanceAs (Decidable (_ = _))

/-- the calls on a Hash or a ZSet -/
inductive Call
  | hashSet (alloc : HashAlloc) (field value : Bytes)
  | hashGet (field : Bytes)
  | hashDelete (field : Bytes)
  | zsetAdd (alloc : ZSet.Alloc) (score : Score) (member : Bytes)
  | zsetScore (member : Bytes)
  | zsetRemove (member : Bytes)

namespace Call

/-- the object after a call -/
def step (hash : Hasher) (o : KvObject) : Call → KvObject
  | hashSet alloc field value => (kvObjectHashSet hash alloc o field value).1
  | hashGet field => (kvObjectHashGet hash o field).1
  | hashDelete field => (kvObjectHashDelete hash o field).1
  | zsetAdd alloc score member => (kvObjectZsetAdd hash alloc o score member).1
  | zsetScore member => (kvObjectZsetScore hash o member).1
  | zsetRemove member => (kvObjectZsetRemove hash o member).1

variable (hash : Hasher) (o : KvObject)

def run (calls : List Call) : KvObject := calls.foldl (step hash) o

/-- the memory of the bucket array that a call frees without a discharge -/
def released : Call → ℕ
  | hashSet _ _ _ | hashGet _ =>
    match o.value with
    | .hash table => KvHash.released table
    | _ => 0
  | zsetAdd _ _ _ | zsetScore _ =>
    match o.value with
    | .zset set => KvHash.released set.members
    | _ => 0
  | hashDelete _ | zsetRemove _ => 0

/-- the memory of the bucket array that a call leaves behind without a charge, because its insertion fails -/
def wasted : Call → ℕ
  | hashSet alloc field value =>
    match o.value with
    | .hash table =>
      match hashValueCreate alloc.value value with
      | some replacement => KvHash.wasted hash alloc.dict (kvHashRehashStep table 1).1 field replacement
      | none => 0
    | _ => 0
  | zsetAdd alloc score member =>
    match o.value with
    | .zset set =>
      if alloc.entry && alloc.node then
        KvHash.wasted hash alloc.dict (kvHashRehashStep set.members 1).1 member ⟨set.nextNode, score⟩
      else 0
    | _ => 0
  | _ => 0

/-- a call that charges and discharges all it allocates and frees -/
def Balanced (call : Call) : Prop :=
  call.released o = 0 ∧ call.wasted hash o = 0

instance (hash : Hasher) (o : KvObject) (call : Call) : Decidable (call.Balanced hash o) :=
  inferInstanceAs (Decidable (_ ∧ _))

/-- every call of a run is balanced -/
def BalancedRun (hash : Hasher) : KvObject → List Call → Prop
  | _, [] => True
  | o, call :: calls => call.Balanced hash o ∧ BalancedRun hash (call.step hash o) calls

end Call

variable {hash : Hasher} {o : KvObject}

/-- the bucket arrays of an object double when they grow -/
def Doubling (o : KvObject) : Prop :=
  match o.value with
  | .string _ _ => True
  | .hash table => Doubled table
  | .zset set => Doubled set.members

/-- what a call leaves: a usage that is short of what the call wastes and over by what it releases -/
structure Booked (o : KvObject) (wasted released : ℕ) : Prop where
  usage : kvObjectMemoryUsage o + wasted = footprint o + released
  doubling : o.Doubling

/-- what every run keeps -/
structure Kept (hash : Hasher) (o : KvObject) : Prop where
  inv : o.Inv hash
  doubling : o.Doubling

/-! ## Calls on a Hash -/

theorem Kept.table {table : HashTable HashValue} (h : o.Kept hash) (hv : o.value = .hash table) :
    KvHash.Inv hash table ∧ Doubled table :=
  ⟨by simpa only [Inv, hv] using h.inv, by simpa only [Doubling, hv] using h.doubling⟩

theorem exact_hash {table : HashTable HashValue} (hv : o.value = .hash table) (he : o.Exact) :
    o.memoryUsage = sizeofObject + tableMemory fieldMemory table := by
  have h := he
  simpa only [Exact, kvObjectMemoryUsage, footprint, hv] using h

variable {V : Type} {extra usage : ℕ} {alloc : KvHash.Alloc} {set : ZSet}

/-- a field that is there: its value is kept, written over, or replaced by a larger one -/
theorem hashReplace_booked {table : HashTable HashValue} (hi : KvHash.Inv hash table) (hd : Doubled table)
    {n : Node HashValue} (hn : n ∈ nodes table) (ok : Bool) (value : Bytes)
    (husage : usage = sizeofObject + tableMemory fieldMemory table + extra) (v : KvValue) :
    Booked (hashReplace ok ⟨v, usage⟩ table n value).1 0 extra := by
  have hcost : fieldMemory n ≤ tableMemory fieldMemory table :=
    (single_le_sum (fun _ _ => Nat.zero_le _) _ (mem_map_of_mem hn)).trans (Nat.le_add_left ..)
  have hdoubled := fun v => (KvHash.setPayload_arrays table n v).doubled hd
  unfold hashReplace
  dsimp only
  split_ifs with hsame hfits
  · exact ⟨husage, hd⟩
  · have hwrite := KvHash.tableMemory_setPayload fieldMemory hi hn ⟨value, n.payload.capacity⟩
    refine ⟨?_, hdoubled _⟩
    simp only [kvObjectMemoryUsage, footprint, fieldMemory] at hwrite ⊢
    omega
  · cases hc : hashValueCreate ok value with
    | none => exact ⟨husage, hd⟩
    | some replacement =>
      have hwrite := KvHash.tableMemory_setPayload fieldMemory hi hn replacement
      refine ⟨?_, hdoubled _⟩
      simp only [kvObjectMemoryUsage, footprint, fieldMemory] at hwrite hcost ⊢
      omega

theorem wasted_present {table : HashTable V} (hi : KvHash.Inv hash table) {n : Node V} (hn : n ∈ nodes table)
    (alloc : KvHash.Alloc) (v : V) : KvHash.wasted hash alloc table n.key v = 0 := by
  unfold KvHash.wasted KvHash.expandsInVain
  rw [KvHash.kvHashInsert_present hi alloc v ⟨n, hn, rfl⟩]
  simp

theorem wasted_inserted {table table' : HashTable V} {v : V} {n : Node V}
    (hins : kvHashInsert hash alloc table key v = (table', some n)) : KvHash.wasted hash alloc table key v = 0 := by
  unfold KvHash.wasted KvHash.expandsInVain
  rw [hins]
  simp

/-- a field that is not there: the value has been created, and the insertion charges for what it adds -/
theorem hashInsert_usage {table : HashTable HashValue} (hi : KvHash.Inv hash table) {field : Bytes}
    {replacement : HashValue} {table' : HashTable HashValue} {n : Node HashValue}
    (hins : kvHashInsert hash alloc table field replacement = (table', some n))
    (husage : usage = sizeofObject + tableMemory fieldMemory table + extra) :
    usage + kvHashIndexMemory table' + kvHashNodeMemoryForKey field.length + sizeofHashValue + replacement.capacity + 1 -
        kvHashIndexMemory table = sizeofObject + tableMemory fieldMemory table' + extra := by
  obtain ⟨_, hnode, hnew⟩ := KvHash.kvHashInsert_some hi hins
  have hadd := KvHash.tableMemory_inserted fieldMemory hnew
  have hcost : fieldMemory n = kvHashNodeMemoryForKey field.length + (sizeofHashValue + replacement.capacity + 1) := by
    rw [hnode]
    rfl
  have hle : kvHashIndexMemory table ≤ tableMemory fieldMemory table := Nat.le_add_right ..
  omega

theorem hashSet_booked (h : o.Kept hash) (he : o.Exact) (alloc : HashAlloc) (field value : Bytes) :
    Booked (kvObjectHashSet hash alloc o field value).1 ((Call.hashSet alloc field value).wasted hash o)
      ((Call.hashSet alloc field value).released o) := by
  unfold kvObjectHashSet Call.wasted Call.released
  cases hv : o.value with
  | string data capacity | zset set => exact ⟨he, h.doubling⟩
  | hash table =>
    obtain ⟨hit, hdt⟩ := h.table hv
    have husage := exact_hash hv he
    have hre := (KvHash.kvHashRehashStep_spec hit 1).inv
    have hdre := KvHash.kvHashRehashStep_doubled hdt 1
    rw [← KvHash.tableMemory_rehash fieldMemory hit, ← Nat.add_assoc] at husage
    have hreplace := fun n hn => hashReplace_booked hre hdre (n := n) hn alloc.value value husage o.value
    cases hc : hashValueCreate alloc.value value with
    | none =>
      simp only [hc]
      cases hf : kvHashFind hash (kvHashRehashStep table 1).1 field with
      | none => exact ⟨husage, hdre⟩
      | some n => exact hreplace n (KvHash.kvHashFind_mem hf).1
    | some replacement =>
      simp only [hc]
      generalize (kvHashRehashStep table 1).1 = table' at *
      cases hf : kvHashFind hash table' field with
      | some n =>
        obtain ⟨hn, rfl⟩ := (KvHash.kvHashFind_some hre field n).1 hf
        dsimp only
        rw [wasted_present hre hn]
        exact hreplace n hn
      | none =>
        dsimp only
        rcases hins : kvHashInsert hash alloc.dict table' field replacement with ⟨table'', _ | n⟩
        · have hfail := KvHash.tableMemory_failed fieldMemory hre hins
          refine ⟨?_, KvHash.kvHashInsert_doubled hre hdre hins⟩
          simp only [kvObjectMemoryUsage, footprint] at hfail ⊢
          omega
        · rw [wasted_inserted hins]
          exact ⟨hashInsert_usage hre hins husage, KvHash.kvHashInsert_doubled hre hdre hins⟩

theorem hashGet_booked (h : o.Kept hash) (he : o.Exact) (field : Bytes) :
    Booked (kvObjectHashGet hash o field).1 0 ((Call.hashGet field).released o) := by
  unfold kvObjectHashGet Call.released
  cases hv : o.value with
  | string data capacity => exact ⟨he, h.doubling⟩
  | zset set => exact ⟨he, h.doubling⟩
  | hash table =>
    obtain ⟨hit, hdt⟩ := h.table hv
    have husage := exact_hash hv he
    rw [← KvHash.tableMemory_rehash fieldMemory hit, ← Nat.add_assoc] at husage
    exact ⟨husage, KvHash.kvHashRehashStep_doubled hdt 1⟩

theorem hashDelete_booked (h : o.Kept hash) (he : o.Exact) (field : Bytes) :
    Booked (kvObjectHashDelete hash o field).1 0 0 := by
  unfold kvObjectHashDelete
  cases hv : o.value with
  | string data capacity => exact ⟨he, h.doubling⟩
  | zset set => exact ⟨he, h.doubling⟩
  | hash table =>
    obtain ⟨hit, hdt⟩ := h.table hv
    have husage := exact_hash hv he
    dsimp only
    cases hf : kvHashFind hash table field with
    | none => exact ⟨he, h.doubling⟩
    | some n =>
      obtain ⟨hn, rfl⟩ := (KvHash.kvHashFind_some hit field n).1 hf
      have hremoved := KvHash.tableMemory_removed fieldMemory hit hn
      refine ⟨?_, (KvHash.removeTarget_arrays table (some n)).doubled hdt⟩
      simp only [kvObjectMemoryUsage, footprint, fieldMemory] at hremoved ⊢
      omega

/-! ## Calls on a ZSet -/

theorem skiplistInsertNode_levelCount (s : Skip.SkipList) (node : ℕ) : (Skip.skiplistInsertNode s node).levelCount = s.levelCount := by
  have hraise : (Skip.raiseLevel s (s.levelCount node)).levelCount = s.levelCount := by
    unfold Skip.raiseLevel
    split_ifs <;> rfl
  unfold Skip.skiplistInsertNode
  dsimp only
  split <;> exact hraise

theorem skiplistDetachNode_levelCount (s : Skip.SkipList) (node : ℕ) : (Skip.skiplistDetachNode s node).levelCount = s.levelCount := by
  unfold Skip.skiplistDetachNode
  dsimp only
  split <;> rfl

/-- the nodes keep their sizes, and the engine its header -/
structure SameNodes (a b : Order) (present : ℕ → Prop) : Prop where
  base : orderedBaseMemory b = orderedBaseMemory a
  node : ∀ x, present x → orderedNodeMemory b x = orderedNodeMemory a x

variable (a : Order) (node : ℕ)

theorem orderedInsertNode_memory : SameNodes a (orderedInsertNode a node) fun _ => True := by
  cases a with
  | skiplist s => exact ⟨rfl, fun x _ => by simp only [orderedInsertNode, orderedNodeMemory, skiplistInsertNode_levelCount]⟩
  | rbtree t => exact ⟨rfl, fun _ _ => rfl⟩

theorem orderedDetachNode_memory : SameNodes a (orderedDetachNode a node) fun _ => True := by
  cases a with
  | skiplist s => exact ⟨rfl, fun x _ => by simp only [orderedDetachNode, orderedNodeMemory, skiplistDetachNode_levelCount]⟩
  | rbtree t => exact ⟨rfl, fun _ _ => rfl⟩

theorem orderedSetScore_memory (score : Score) : SameNodes a (orderedSetScore a node score) fun _ => True := by
  cases a with
  | skiplist s | rbtree t => exact ⟨rfl, fun _ _ => rfl⟩

theorem orderedSetMember_memory (member : Bytes) : SameNodes a (orderedSetMember a node member) fun _ => True := by
  cases a with
  | skiplist s => exact ⟨rfl, fun _ _ => rfl⟩
  | rbtree t => exact ⟨rfl, fun _ _ => rfl⟩

theorem orderedPrepareNode_memory (score : Score) : SameNodes a (orderedPrepareNode a node score) (· ≠ node) := by
  cases a with
  | skiplist s =>
    refine ⟨rfl, fun x hx => ?_⟩
    simp only [orderedPrepareNode, orderedNodeMemory, Skip.skiplistPrepareNode, Skip.skipNodeCreate, Function.update_of_ne hx]
  | rbtree t => exact ⟨rfl, fun _ _ => rfl⟩

theorem SameNodes.trans {a b c : Order} {present : ℕ → Prop} (h : SameNodes a b present) (h' : SameNodes b c fun _ => True) :
    SameNodes a c present :=
  ⟨h'.base.trans h.base, fun x hx => (h'.node x trivial).trans (h.node x hx)⟩

/-- the members of a set cost the same when the engine has changed around them -/
theorem SameNodes.tableMemory {a b : Order} {present : ℕ → Prop} (h : SameNodes a b present) {members : HashTable ZMember}
    (hp : ∀ n ∈ nodes members, present n.payload.orderNode) :
    KvHash.tableMemory (memberMemory b) members = KvHash.tableMemory (memberMemory a) members := by
  have hcosts : (nodes members).map (memberMemory b) = (nodes members).map (memberMemory a) := by
    apply map_congr_left
    intro n hn
    rw [memberMemory, memberMemory, h.node _ (hp n hn)]
  rw [KvHash.tableMemory, KvHash.tableMemory, hcosts]

/-- a score changes: the node stays the same one -/
theorem rescore_memory {xs : List ℕ} (hi : set.Inv hash xs) {n : Node ZMember} (hn : n ∈ nodes set.members) (score : Score) :
    orderedBaseMemory (set.rescore n score).order + tableMemory (memberMemory (set.rescore n score).order) (set.rescore n score).members =
      orderedBaseMemory set.order + tableMemory (memberMemory set.order) set.members := by
  have hsame : SameNodes set.order (set.rescore n score).order fun _ => True :=
    ((orderedDetachNode_memory _ _).trans (orderedSetScore_memory _ _ _)).trans (orderedInsertNode_memory _ _)
  have hwrite := KvHash.tableMemory_setPayload (memberMemory set.order) hi.dict hn ⟨n.payload.orderNode, score⟩
  rw [hsame.base, hsame.tableMemory fun _ _ => trivial]
  simp only [memberMemory] at hwrite
  simp only [ZSet.rescore]
  omega

theorem Kept.zset (h : o.Kept hash) (hv : o.value = .zset set) : (∃ xs, set.Inv hash xs) ∧ Doubled set.members :=
  ⟨by simpa only [Inv, hv] using h.inv, by simpa only [Doubling, hv] using h.doubling⟩

theorem exact_zset (hv : o.value = .zset set) (he : o.Exact) :
    o.memoryUsage =
      sizeofObject + sizeofZset + orderedBaseMemory set.order + tableMemory (memberMemory set.order) set.members := by
  have h := he
  simpa only [Exact, kvObjectMemoryUsage, footprint, hv] using h

/-- a member that is not there: the insertion charges for what it adds -/
theorem zsetInsert_usage {xs : List ℕ} (hi : set.Inv hash xs) {member : Bytes} {score : Score}
    {members : HashTable ZMember} {n : Node ZMember}
    (hins : kvHashInsert hash alloc set.members member ⟨set.nextNode, score⟩ = (members, some n)) {order : Order}
    (hsame : SameNodes set.order order (· ≠ set.nextNode))
    (hfresh : ∀ n ∈ nodes set.members, n.payload.orderNode ≠ set.nextNode)
    (husage : usage = sizeofObject + sizeofZset + orderedBaseMemory set.order + tableMemory (memberMemory set.order) set.members +
      extra) :
    usage + kvHashIndexMemory members + kvHashNodeMemoryForKey member.length + sizeofZmember +
        orderedNodeMemory order set.nextNode - kvHashIndexMemory set.members =
      sizeofObject + sizeofZset + orderedBaseMemory order + tableMemory (memberMemory order) members + extra := by
  obtain ⟨_, hnode, hnew⟩ := KvHash.kvHashInsert_some hi.dict hins
  have hadd := KvHash.tableMemory_inserted (memberMemory order) hnew
  have hcost : memberMemory order n = kvHashNodeMemoryForKey member.length + (sizeofZmember + orderedNodeMemory order set.nextNode) := by
    rw [hnode]
    rfl
  have hle : kvHashIndexMemory set.members ≤ tableMemory (memberMemory set.order) set.members := Nat.le_add_right ..
  rw [hsame.tableMemory hfresh] at hadd
  rw [hsame.base]
  omega

theorem zsetAdd_booked (h : o.Kept hash) (he : o.Exact) (alloc : ZSet.Alloc) (score : Score) (member : Bytes) :
    Booked (kvObjectZsetAdd hash alloc o score member).1 ((Call.zsetAdd alloc score member).wasted hash o)
      ((Call.zsetAdd alloc score member).released o) := by
  unfold kvObjectZsetAdd Call.wasted Call.released
  cases hv : o.value with
  | string data capacity => exact ⟨he, h.doubling⟩
  | hash table => exact ⟨he, h.doubling⟩
  | zset set =>
    obtain ⟨⟨xs, hx⟩, hdt⟩ := h.zset hv
    have husage := exact_zset hv he
    have hdre := KvHash.kvHashRehashStep_doubled hdt 1
    obtain ⟨hre, _⟩ := hx.rehash 1
    rw [← KvHash.tableMemory_rehash _ hx.dict, ← Nat.add_assoc] at husage
    dsimp only
    unfold ZSet.add
    dsimp only
    generalize (kvHashRehashStep set.members 1).1 = members at *
    cases hf : kvHashFind hash members member with
    | some n =>
      obtain ⟨hn, rfl⟩ := (KvHash.kvHashFind_some hre.dict member n).1 hf
      rw [wasted_present hre.dict hn, ite_self]
      dsimp only
      split_ifs
      · exact ⟨husage, hdre⟩
      · have hkeep := rescore_memory hre hn score
        refine ⟨?_, (KvHash.setPayload_arrays _ n _).doubled hdre⟩
        simp only [kvObjectMemoryUsage, footprint] at hkeep ⊢
        omega
    | none =>
      have hfresh : ∀ n ∈ nodes members, n.payload.orderNode ≠ set.nextNode :=
        fun n hn hc => lt_irrefl _ (hc ▸ hre.fresh _ (hre.mem_order hn))
      have hprepared := orderedPrepareNode_memory set.order set.nextNode score
      by_cases halloc : (alloc.entry && alloc.node) = true
      · simp only [halloc, if_true]
        rcases hins : kvHashInsert hash alloc.dict members member ⟨set.nextNode, score⟩ with ⟨members', _ | n⟩
        · have hfail := KvHash.tableMemory_failed (memberMemory (orderedPrepareNode set.order set.nextNode score)) hre.dict hins
          rw [hprepared.tableMemory hfresh] at hfail
          refine ⟨?_, KvHash.kvHashInsert_doubled hre.dict hdre hins⟩
          simp only [kvObjectMemoryUsage, footprint, hprepared.base] at hfail ⊢
          omega
        · rw [wasted_inserted hins]
          have hattached := (hprepared.trans (orderedSetMember_memory _ set.nextNode n.key)).trans (orderedInsertNode_memory _ set.nextNode)
          exact ⟨zsetInsert_usage hre hins hattached hfresh husage, KvHash.kvHashInsert_doubled hre.dict hdre hins⟩
      · have hkeep := hprepared.tableMemory hfresh
        simp only [halloc, Bool.false_eq_true, if_false]
        refine ⟨?_, hdre⟩
        simp only [kvObjectMemoryUsage, footprint, hprepared.base, hkeep]
        exact husage

theorem zsetScore_booked (h : o.Kept hash) (he : o.Exact) (member : Bytes) :
    Booked (kvObjectZsetScore hash o member).1 0 ((Call.zsetScore member).released o) := by
  unfold kvObjectZsetScore Call.released
  cases hv : o.value with
  | string data capacity => exact ⟨he, h.doubling⟩
  | hash table => exact ⟨he, h.doubling⟩
  | zset set =>
    obtain ⟨⟨xs, hx⟩, hdt⟩ := h.zset hv
    have husage := exact_zset hv he
    rw [← KvHash.tableMemory_rehash _ hx.dict, ← Nat.add_assoc] at husage
    exact ⟨husage, KvHash.kvHashRehashStep_doubled hdt 1⟩

theorem zsetRemove_booked (h : o.Kept hash) (he : o.Exact) (member : Bytes) :
    Booked (kvObjectZsetRemove hash o member).1 0 0 := by
  unfold kvObjectZsetRemove
  cases hv : o.value with
  | string data capacity => exact ⟨he, h.doubling⟩
  | hash table => exact ⟨he, h.doubling⟩
  | zset set =>
    obtain ⟨⟨xs, hx⟩, hdt⟩ := h.zset hv
    have husage := exact_zset hv he
    dsimp only
    unfold ZSet.remove
    cases hf : kvHashFind hash set.members member with
    | none => exact ⟨husage, hdt⟩
    | some n =>
      obtain ⟨hn, rfl⟩ := (KvHash.kvHashFind_some hx.dict member n).1 hf
      have hsame := orderedDetachNode_memory set.order n.payload.orderNode
      have hremoved := KvHash.tableMemory_removed (memberMemory set.order) hx.dict hn
      refine ⟨?_, (KvHash.removeTarget_arrays set.members (some n)).doubled hdt⟩
      simp only [kvObjectMemoryUsage, footprint, hsame.base, hsame.tableMemory fun _ _ => trivial]
      simp only [memberMemory] at hremoved
      omega

/-! ## Runs -/

/-- a call on an object of another type does nothing -/
theorem inv_step (hi : o.Inv hash) (call : Call) : (call.step hash o).Inv hash := by
  cases call with
  | hashSet alloc field value =>
    cases hv : o.value with
    | hash table => exact (hashSet_spec hi (by rw [view, hv]) alloc field value).1
    | _ => simpa only [Call.step, kvObjectHashSet, hv] using hi
  | hashGet field =>
    cases hv : o.value with
    | hash table => exact (hashGet_spec hi (by rw [view, hv]) field).1
    | _ => simpa only [Call.step, kvObjectHashGet, hv] using hi
  | hashDelete field =>
    cases hv : o.value with
    | hash table => exact (hashDelete_spec hi (by rw [view, hv]) field).1
    | _ => simpa only [Call.step, kvObjectHashDelete, hv] using hi
  | zsetAdd alloc score member =>
    cases hv : o.value with
    | zset set => exact (zsetAdd_spec hi (by rw [view, hv]) alloc score member).1
    | _ => simpa only [Call.step, kvObjectZsetAdd, hv] using hi
  | zsetScore member =>
    cases hv : o.value with
    | zset set => exact (zsetScore_spec hi (by rw [view, hv]) member).1
    | _ => simpa only [Call.step, kvObjectZsetScore, hv] using hi
  | zsetRemove member =>
    cases hv : o.value with
    | zset set => exact (zsetRemove_spec hi (by rw [view, hv]) member).1
    | _ => simpa only [Call.step, kvObjectZsetRemove, hv] using hi

/-- **What one call does** to an exact usage. -/
theorem step_booked (h : o.Kept hash) (he : o.Exact) (call : Call) :
    Booked (call.step hash o) (call.wasted hash o) (call.released o) := by
  cases call with
  | hashSet alloc field value => exact hashSet_booked h he alloc field value
  | hashGet field => exact hashGet_booked h he field
  | hashDelete field => exact hashDelete_booked h he field
  | zsetAdd alloc score member => exact zsetAdd_booked h he alloc score member
  | zsetScore member => exact zsetScore_booked h he member
  | zsetRemove member => exact zsetRemove_booked h he member

theorem Kept.step (h : o.Kept hash) (he : o.Exact) (call : Call) : (call.step hash o).Kept hash :=
  ⟨inv_step h.inv call, (step_booked h he call).doubling⟩

/-- what the rehash step frees and what a failed insertion behind it leaves are never of the same size -/
theorem released_ne_wasted {table : HashTable V} (hi : KvHash.Inv hash table) (hd : Doubled table) {v : V}
    (h : KvHash.wasted hash alloc (kvHashRehashStep table 1).1 key v = KvHash.released table) :
    KvHash.released table = 0 := by
  unfold KvHash.released at h ⊢
  split_ifs at h ⊢ with hfin
  · -- the array that is left has twice the slots of the one that was freed, and an expansion doubles them again
    have hpos := hi.slots0
    unfold KvHash.finishes at hfin
    rw [Bool.and_eq_true, Bool.not_eq_true'] at hfin
    have hslots : (kvHashRehashStep table 1).1.table0.slots = table.table0.slots * 2 := by
      rcases KvHash.kvHashRehashStep_arrays table 1 with ⟨_, _, hsame⟩ | ⟨_, _, hs0, _⟩
      · rw [hsame, hfin.1] at hfin
        exact absurd hfin.2 (by decide)
      · rw [hs0, hd hfin.1]
    unfold KvHash.wasted KvHash.sizeofBucket at h
    rw [hslots] at h
    split_ifs at h <;> omega
  · rfl

theorem balanced_of_equal (h : o.Kept hash) (call : Call) (heq : call.wasted hash o = call.released o) :
    call.Balanced hash o := by
  have hzero : call.released o = 0 := by
    cases call with
    | hashDelete field => rfl
    | zsetRemove member => rfl
    | hashGet field => exact heq.symm
    | zsetScore member => exact heq.symm
    | hashSet alloc field value =>
      unfold Call.wasted at heq
      cases hv : o.value with
      | hash table =>
        obtain ⟨hit, hdt⟩ := h.table hv
        simp only [Call.released, hv] at heq ⊢
        cases hc : hashValueCreate alloc.value value with
        | none =>
          rw [hc] at heq
          exact heq.symm
        | some replacement =>
          rw [hc] at heq
          exact released_ne_wasted hit hdt heq
      | _ => simp only [Call.released, hv]
    | zsetAdd alloc score member =>
      unfold Call.wasted at heq
      cases hv : o.value with
      | zset set =>
        obtain ⟨⟨xs, hx⟩, hdt⟩ := h.zset hv
        simp only [Call.released, hv] at heq ⊢
        split_ifs at heq
        · exact released_ne_wasted hx.dict hdt heq
        · exact heq.symm
      | _ => simp only [Call.released, hv]
  exact ⟨hzero, heq.trans hzero⟩

theorem exact_step_iff (h : o.Kept hash) (he : o.Exact) (call : Call) : (call.step hash o).Exact ↔ call.Balanced hash o := by
  have husage := (step_booked h he call).usage
  constructor
  · intro hexact
    unfold Exact at hexact
    exact balanced_of_equal h call (by omega)
  · intro hbalanced
    obtain ⟨hreleased, hwasted⟩ := hbalanced
    unfold Exact
    omega

/-- exact after every call of a run -/
theorem exact_run_iff (calls : List Call) : ∀ {o : KvObject}, o.Kept hash → o.Exact →
    ((∀ n, (Call.run hash o (calls.take n)).Exact) ↔ Call.BalancedRun hash o calls) := by
  induction calls with
  | nil =>
    intro o _ he
    exact ⟨fun _ => trivial, fun _ n => by rw [take_nil]; exact he⟩
  | cons call calls ih =>
    intro o h he
    have hstep := exact_step_iff h he call
    constructor
    · intro hall
      have hfirst : (call.step hash o).Exact := hall 1
      exact ⟨hstep.1 hfirst, (ih (h.step he call) hfirst).1 fun n => hall (n + 1)⟩
    · intro hrun n
      cases n with
      | zero => exact he
      | succ n => exact (ih (h.step he call) (hstep.2 hrun.1)).2 hrun.2 n

/-- an object that was just created: an empty Hash, or an empty ZSet of either engine -/
def Created (o : KvObject) : Prop := kvObjectCreateHash true = some o ∨ ∃ engine, kvObjectCreateZset true engine = some o

theorem Created.kept (h : o.Created) : o.Kept hash ∧ o.Exact := by
  have hidle : ∀ V : Type, Doubled (kvHashCreate : HashTable V) := by
    intro V hr
    simp [KvHash.kvHashIsRehashing, kvHashCreate] at hr
  have hempty : ∀ V : Type, nodes (kvHashCreate : HashTable V) = [] := by
    intro V
    simp [nodes, kvHashCreate, KvHash.Table.nodes, KvHash.Table.none]
  rcases h with hc | ⟨engine, hc⟩
  · obtain ⟨hi, _⟩ := @createHash_spec hash _ _ hc
    cases hc
    refine ⟨⟨hi, hidle _⟩, ?_⟩
    simp only [Exact, kvObjectMemoryUsage, footprint, tableMemory, hempty, map_nil, sum_nil, Nat.add_zero]
  · obtain ⟨hi, _⟩ := @createZset_spec hash _ _ _ hc
    cases hc
    refine ⟨⟨hi, hidle _⟩, ?_⟩
    simp only [Exact, kvObjectMemoryUsage, footprint, tableMemory, ZSet.create, hempty, map_nil, sum_nil]
    omega

/-- **The usage of an object** is its footprint after every call of a run exactly when no call of the run frees a bucket array
and no failed insertion leaves one behind. -/
theorem usage_exact_iff (hash : Hasher) {o : KvObject} (h : o.Created) (calls : List Call) :
    (∀ n, kvObjectMemoryUsage (Call.run hash o (calls.take n)) = footprint (Call.run hash o (calls.take n))) ↔
      Call.BalancedRun hash o calls := by
  obtain ⟨hkept, hexact⟩ := @Created.kept hash o h
  exact exact_run_iff calls hkept hexact

def emptyHash : KvObject := ⟨.hash kvHashCreate, sizeofObject + kvHashIndexMemory (kvHashCreate : HashTable HashValue)⟩

/-- a field is set, set again to a longer value, read and deleted -/
theorem usage_exact_iff_field :
    let calls := [Call.hashSet ⟨true, true, true⟩ [102] [49], .hashSet ⟨true, true, true⟩ [102] [49, 50], .hashGet [102], .hashDelete [102]]
    emptyHash.Created ∧ Call.BalancedRun (fun _ => 0) emptyHash calls ∧
      ∀ n, kvObjectMemoryUsage (Call.run (fun _ => 0) emptyHash (calls.take n)) =
        footprint (Call.run (fun _ => 0) emptyHash (calls.take n)) := by
  intro calls
  have hcreated : emptyHash.Created := Or.inl rfl
  have hrun : Call.BalancedRun (fun _ => 0) emptyHash calls :=
    ⟨by decide +kernel, by decide +kernel, by decide +kernel, by decide +kernel, trivial⟩
  exact ⟨hcreated, hrun, (usage_exact_iff (fun _ => 0) hcreated calls).2 hrun⟩

/-- thirteen fields start a rehash, and sixteen reads end it -/
def fieldsThenReads : List Call :=
  (List.range 13).map (fun i => .hashSet ⟨true, true, true⟩ [i.toUInt8] [49]) ++ List.replicate 16 (.hashGet [0])

/-- the sixteen buckets that were freed are still charged -/
theorem usage_keeps_old_buckets :
    kvObjectMemoryUsage (Call.run (fun _ => 0) emptyHash fieldsThenReads) =
      footprint (Call.run (fun _ => 0) emptyHash fieldsThenReads) + 128 := by
  decide +kernel

end KvObject

end StoreSystem
