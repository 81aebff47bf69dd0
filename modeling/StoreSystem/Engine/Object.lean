/-
Typed objects (`src/engine/object.c`): a String, a Hash or a ZSet behind one handle that also carries the memory it is
charged for.

A String keeps its bytes in a block whose capacity never shrinks, a Hash maps fields to values in the rehashing table, a
ZSet is the pair of `ZSet`. Allocation can fail; each call carries what its allocations do, and a size that `SIZE_MAX`
cannot hold counts as a failed allocation.

Results: `view` reads the abstract object behind the handle (a byte string, a map of fields, a map of scores); every
operation keeps `Inv` and acts on the view as the operation of that name on the map. `zset_refines_map`: under either
engine, every sequence of calls on a ZSet answers as the finite map from members to scores does, ranges included.
-/
import StoreSystem.Engine.ZSet

namespace StoreSystem

open Function
open List hiding set
open KvHash (HashTable Node Alloc kvHashCreate kvHashIndexMemory kvHashNodeSetPayload kvHashRehashStep kvHashFind kvHashInsert nodes)

/-! ## Model -/

inductive KvType
  | string
  | hash
  | zset
deriving DecidableEq, Repr

/-- `struct hash_value`; its length is the length of `data` -/
structure HashValue where
  data : Bytes
  capacity : ℕ
deriving DecidableEq, Repr

inductive KvValue
  | string (data : Bytes) (capacity : ℕ)
  | hash (table : HashTable HashValue)
  | zset (set : ZSet)

/-- `struct kv_object` -/
structure KvObject where
  value : KvValue
  memoryUsage : ℕ

def sizeofObject : ℕ := 40

def sizeofHashValue : ℕ := 16

def sizeofZset : ℕ := 56

/-- what the allocations of a write to a Hash do: the value and those of the table -/
structure HashAlloc where
  value : Bool
  dict : Alloc
deriving DecidableEq, Repr

def hashValueCreate (ok : Bool) (data : Bytes) : Option HashValue :=
  if data.length = sizeMax ∨ sizeofHashValue > sizeMax - data.length - 1 then none
  else if ok then some ⟨data, data.length⟩ else none

def kvObjectCreateString (ok : Bool) (value : Bytes) : Option KvObject :=
  if value.length = sizeMax ∨ sizeofObject > sizeMax - value.length - 1 then none
  else if ok then some ⟨.string value value.length, sizeofObject + value.length + 1⟩ else none

def kvObjectCreateHash (ok : Bool) : Option KvObject :=
  if ok then some ⟨.hash kvHashCreate, sizeofObject + kvHashIndexMemory (kvHashCreate : HashTable HashValue)⟩
  else none

def kvObjectCreateZset (ok : Bool) (engine : ZsetEngine) : Option KvObject :=
  let set := ZSet.create engine
  if ok then
    some ⟨.zset set, sizeofObject + sizeofZset + kvHashIndexMemory set.members + orderedBaseMemory set.order⟩
  else none

section

variable (hash : Hasher) (o : KvObject)

def kvObjectType : KvType :=
  match o.value with
  | .string _ _ => .string
  | .hash _ => .hash
  | .zset _ => .zset

def kvObjectMemoryUsage : ℕ := o.memoryUsage

def kvObjectStringValue : Option Bytes :=
  match o.value with
  | .string data _ => some data
  | _ => none

/-- `kv_object_string_update`: `none` for -1, `some false` when the value does not fit -/
def kvObjectStringUpdate (value : Bytes) : KvObject × Option Bool :=
  match o.value with
  | .string _ capacity =>
    if value.length > capacity then (o, some false) else ({ o with value := .string value capacity }, some true)
  | _ => (o, none)

/-- the part of `kv_object_hash_set` after the look-up, for a field that is there -/
def hashReplace (ok : Bool) (o : KvObject) (table : HashTable HashValue) (n : Node HashValue) (value : Bytes) :
    KvObject × Option ZSet.SetResult :=
  let old := n.payload
  if old.data = value then ({ o with value := .hash table }, some ⟨false, false⟩)
  else if value.length ≤ old.capacity then
    ({ o with value := .hash (kvHashNodeSetPayload table (some n) ⟨value, old.capacity⟩) }, some ⟨false, true⟩)
  else
    match hashValueCreate ok value with
    | none => ({ o with value := .hash table }, none)
    | some replacement =>
      ({ value := .hash (kvHashNodeSetPayload table (some n) replacement)
         memoryUsage := o.memoryUsage - old.capacity - 1 + replacement.capacity + 1 }, some ⟨false, true⟩)

/-- `kv_object_hash_set`; `none` for the return value -1 -/
def kvObjectHashSet (alloc : HashAlloc) (o : KvObject) (field value : Bytes) :
    KvObject × Option ZSet.SetResult :=
  match o.value with
  | .hash table =>
    let table := (kvHashRehashStep table 1).1
    match kvHashFind hash table field with
    | some n => hashReplace alloc.value o table n value
    | none =>
      match hashValueCreate alloc.value value with
      | none => ({ o with value := .hash table }, none)
      | some replacement =>
        match kvHashInsert hash alloc.dict table field replacement with
        | (table', none) => ({ o with value := .hash table' }, none)
        | (table', some _) =>
          ({ value := .hash table'
             memoryUsage := o.memoryUsage + kvHashIndexMemory table' + KvHash.kvHashNodeMemoryForKey field.length
               + sizeofHashValue + replacement.capacity + 1 - kvHashIndexMemory table }, some ⟨true, true⟩)
  | _ => (o, none)

def kvObjectHashGet (field : Bytes) : KvObject × Option Bytes :=
  match o.value with
  | .hash table =>
    let table := (kvHashRehashStep table 1).1
    ({ o with value := .hash table }, (kvHashFind hash table field).map fun n => n.payload.data)
  | _ => (o, none)

/-- `kv_object_hash_delete`; `none` for the return value -1 -/
def kvObjectHashDelete (field : Bytes) : KvObject × Option Bool :=
  match o.value with
  | .hash table =>
    match kvHashFind hash table field with
    | none => (o, some false)
    | some n =>
      let charge := KvHash.kvHashNodeMemoryForKey field.length + sizeofHashValue + n.payload.capacity + 1
      ({ value := .hash (KvHash.kvHashRemoveNode table (some n)).1, memoryUsage := o.memoryUsage - charge }, some true)
  | _ => (o, none)

def kvObjectHashLength : ℕ :=
  match o.value with
  | .hash table => KvHash.kvHashCount table
  | _ => 0

/-- `kv_object_hash_visit`: the visitor's state and whether every visit succeeded -/
def kvObjectHashVisit {C : Type} (callback : C → Bytes × Bytes → C × Bool) (c : C) : C × Bool :=
  match o.value with
  | .hash table =>
    visit callback c
      ((KvHash.traverse table (table.count + 1) KvHash.kvHashIteratorBegin).map fun n => (n.key, n.payload.data))
  | _ => (c, false)

/-- `kv_object_zset_add`; `none` for the return value -1 -/
def kvObjectZsetAdd (alloc : ZSet.Alloc) (o : KvObject) (score : Score) (member : Bytes) :
    KvObject × Option ZSet.SetResult :=
  match o.value with
  | .zset set =>
    let r := set.add hash alloc o.memoryUsage score member
    (⟨.zset r.1, r.2.1⟩, r.2.2)
  | _ => (o, none)

/-- `kv_object_zset_score`: `none` for -1, `some none` for a member that is not there -/
def kvObjectZsetScore (member : Bytes) : KvObject × Option (Option Score) :=
  match o.value with
  | .zset set =>
    let r := set.score hash member
    ({ o with value := .zset r.1 }, some r.2)
  | _ => (o, none)

/-- `kv_object_zset_remove`; `none` for the return value -1 -/
def kvObjectZsetRemove (member : Bytes) : KvObject × Option Bool :=
  match o.value with
  | .zset set =>
    let r := set.remove hash o.memoryUsage member
    (⟨.zset r.1, r.2.1⟩, some r.2.2)
  | _ => (o, none)

def kvObjectZsetLength : ℕ :=
  match o.value with
  | .zset set => set.length
  | _ => 0

/-- `kv_object_zset_range`: the visitor's state and `*visited`, `none` for the return value -1 -/
def kvObjectZsetRange {C : Type} (start stop : ℤ) (callback : C → Item → C × Bool) (c : C) : C × Option ℕ :=
  match o.value with
  | .zset set => set.range start stop callback c
  | _ => (c, none)

/-- what every allocation of a copy does -/
structure CloneAlloc where
  object : Bool
  hash : HashAlloc
  zset : ZSet.Alloc
deriving DecidableEq, Repr

def cloneHashField (alloc : HashAlloc) (destination : KvObject) (field : Bytes × Bytes) :
    KvObject × Bool :=
  let r := kvObjectHashSet hash alloc destination field.1 field.2
  (r.1, r.2.isSome)

def cloneZsetMember (alloc : ZSet.Alloc) (destination : KvObject) (i : Item) : KvObject × Bool :=
  let r := kvObjectZsetAdd hash alloc destination i.score i.member
  (r.1, r.2.isSome)

def kvObjectClone (alloc : CloneAlloc) (o : KvObject) : Option KvObject :=
  match o.value with
  | .string data _ => kvObjectCreateString alloc.object data
  | .hash _ =>
    (kvObjectCreateHash alloc.object).bind fun copy =>
      match kvObjectHashVisit o (cloneHashField hash alloc.hash) copy with
      | (copy, true) => some copy
      | (_, false) => none
  | .zset set =>
    (kvObjectCreateZset alloc.object set.order.engine).bind fun copy =>
      match kvObjectZsetRange o 0 (-1) (cloneZsetMember hash alloc.zset) copy with
      | (copy, some _) => some copy
      | (_, none) => none

end

/-! ## The abstract object -/

/-- what an object is for: a byte string, a map of fields or a map of scores -/
inductive Obj
  | string (value : Bytes)
  | hash (fields : Bytes → Option Bytes)
  | zset (scores : Bytes → Option Score)

def Obj.type : Obj → KvType
  | string _ => .string
  | hash _ => .hash
  | zset _ => .zset

/-- the fields a table holds -/
def fields (table : HashTable HashValue) (field : Bytes) : Option Bytes := (KvHash.lookup table field).map HashValue.data

namespace KvObject

def view (o : KvObject) : Obj :=
  match o.value with
  | .string data _ => .string data
  | .hash table => .hash (fields table)
  | .zset set => .zset set.view

def Inv (hash : Hasher) (o : KvObject) : Prop :=
  match o.value with
  | .string data capacity => data.length ≤ capacity
  | .hash table => KvHash.Inv hash table
  | .zset set => ∃ xs, set.Inv hash xs

theorem type_view (o : KvObject) : o.view.type = kvObjectType o := by
  unfold view kvObjectType
  cases o.value <;> rfl

/-- the table behind an object whose view is a Hash -/
theorem Inv.hash {hash : Hasher} {o : KvObject} {m : Bytes → Option Bytes} (hi : o.Inv hash)
    (h : o.view = .hash m) : ∃ table, o.value = .hash table ∧ KvHash.Inv hash table ∧ m = fields table := by
  unfold view at h
  unfold Inv at hi
  cases hv : o.value with
  | string data capacity => simp [hv] at h
  | hash table =>
    simp only [hv, Obj.hash.injEq] at h hi
    exact ⟨table, rfl, hi, h.symm⟩
  | zset set => simp [hv] at h

theorem Inv.zset {hash : Hasher} {o : KvObject} {m : Bytes → Option Score} (hi : o.Inv hash)
    (h : o.view = .zset m) : ∃ set xs, o.value = .zset set ∧ set.Inv hash xs ∧ m = set.view := by
  unfold view at h
  unfold Inv at hi
  cases hv : o.value with
  | string data capacity => simp [hv] at h
  | hash table => simp [hv] at h
  | zset set =>
    simp only [hv, Obj.zset.injEq] at h hi
    obtain ⟨xs, hx⟩ := hi
    exact ⟨set, xs, rfl, hx, h.symm⟩

end KvObject

/-! ## Operations on the view -/

variable {o : KvObject} {table : HashTable HashValue} {m : Bytes → Option Score} {hash : Hasher}

theorem createString_spec {ok : Bool} {value : Bytes} {o : KvObject} (h : kvObjectCreateString ok value = some o) :
    o.Inv hash ∧ o.view = .string value := by
  unfold kvObjectCreateString at h
  split_ifs at h
  cases h
  exact ⟨le_rfl, rfl⟩

theorem createHash_spec {ok : Bool} {o : KvObject} (h : kvObjectCreateHash ok = some o) :
    o.Inv hash ∧ o.view = .hash fun _ => none := by
  unfold kvObjectCreateHash at h
  split_ifs at h
  cases h
  refine ⟨KvHash.inv_create hash, ?_⟩
  simp only [KvObject.view, Obj.hash.injEq]
  funext field
  rw [fields, KvHash.lookup_create]
  rfl

theorem createZset_spec {ok : Bool} {engine : ZsetEngine} {o : KvObject} (h : kvObjectCreateZset ok engine = some o) :
    o.Inv hash ∧ o.view = .zset fun _ => none := by
  unfold kvObjectCreateZset at h
  split_ifs at h
  cases h
  exact ⟨⟨[], ZSet.inv_create engine⟩, congrArg Obj.zset (ZSet.view_create engine)⟩

theorem stringValue_view {value : Bytes} (h : kvObjectStringValue o = some value) : o.view = .string value := by
  unfold kvObjectStringValue at h
  unfold KvObject.view
  cases hv : o.value <;> simp [hv] at h ⊢
  exact h

/-- a String can always be asked to take another value -/
theorem stringUpdate_ne_none {updated : KvObject} {value : Bytes} (ht : kvObjectType o = .string) :
    kvObjectStringUpdate o value ≠ (updated, none) := by
  unfold kvObjectStringUpdate
  unfold kvObjectType at ht
  cases hv : o.value with
  | string data capacity =>
    simp only
    split_ifs <;> simp
  | hash table => simp [hv] at ht
  | zset set => simp [hv] at ht

theorem stringUpdate_usage (o : KvObject) (value : Bytes) :
    kvObjectMemoryUsage (kvObjectStringUpdate o value).1 = kvObjectMemoryUsage o := by
  unfold kvObjectStringUpdate kvObjectMemoryUsage
  cases o.value with
  | string data capacity =>
    simp only
    split_ifs <;> rfl
  | hash table => rfl
  | zset set => rfl

/-- a value that fits is written in place -/
theorem stringUpdate_spec {o updated : KvObject} {value : Bytes} (h : kvObjectStringUpdate o value = (updated, some true)) :
    kvObjectType updated = kvObjectType o ∧ updated.view = .string value ∧ updated.Inv hash := by
  unfold kvObjectStringUpdate at h
  cases hv : o.value with
  | string data capacity =>
    simp only [hv] at h
    split_ifs at h with hfit
    · simp at h
    · simp only [Prod.mk.injEq, and_true] at h
      subst h
      refine ⟨?_, rfl, not_lt.1 hfit⟩
      unfold kvObjectType
      rw [hv]
  | hash table => simp [hv] at h
  | zset set => simp [hv] at h

theorem rehash_fields (hi : KvHash.Inv hash table) (budget : ℕ) :
    KvHash.Inv hash (kvHashRehashStep table budget).1 ∧
      fields (kvHashRehashStep table budget).1 = fields table := by
  have hr := KvHash.kvHashRehashStep_spec hi budget
  refine ⟨hr.inv, ?_⟩
  funext field
  rw [fields, fields, hr.lookup hi]

theorem fields_of_find (hi : KvHash.Inv hash table) (field : Bytes) :
    fields table field = (kvHashFind hash table field).map fun n => n.payload.data := by
  rw [fields, KvHash.lookup_eq_find hi, Option.map_map]
  rfl

theorem fields_setPayload (hi : KvHash.Inv hash table) {n : Node HashValue} (hn : n ∈ nodes table) (v : HashValue) :
    fields (kvHashNodeSetPayload table (some n) v) = update (fields table) n.key (some v.data) := by
  funext field
  rw [fields, KvHash.kvHashNodeSetPayload_lookup hi hn, update_apply]
  split_ifs <;> rfl

theorem hashValueCreate_data {ok : Bool} {data : Bytes} {v : HashValue} (h : hashValueCreate ok data = some v) : v.data = data := by
  unfold hashValueCreate at h
  split_ifs at h
  cases h
  rfl

/-- what a write to a field reports on a map -/
def fieldResult (m : Bytes → Option Bytes) (field value : Bytes) : ZSet.SetResult :=
  ⟨(m field).isNone, m field ≠ some value⟩

/-- **Writing a field** acts on the map, or fails for want of memory and leaves it alone. -/
theorem hashSet_spec {m : Bytes → Option Bytes} (hi : o.Inv hash) (hv : o.view = .hash m)
    (alloc : HashAlloc) (field value : Bytes) :
    (kvObjectHashSet hash alloc o field value).1.Inv hash ∧
      (((kvObjectHashSet hash alloc o field value).2 = none ∧
          (kvObjectHashSet hash alloc o field value).1.view = o.view) ∨
        ((kvObjectHashSet hash alloc o field value).2 = some (fieldResult m field value) ∧
          (kvObjectHashSet hash alloc o field value).1.view = .hash (update m field (some value)))) := by
  obtain ⟨table, hval, hit, rfl⟩ := hi.hash hv
  obtain ⟨hre, hfields⟩ := rehash_fields hit 1
  rw [hv, ← hfields]
  unfold kvObjectHashSet
  simp only [hval]
  generalize (kvHashRehashStep table 1).1 = t at hre ⊢
  cases hf : kvHashFind hash t field with
  | some n =>
    obtain ⟨hn, hk⟩ := (KvHash.kvHashFind_some hre field n).1 hf
    have hold : fields t field = some n.payload.data := by rw [fields_of_find hre, hf]; rfl
    have hset : ∀ v : HashValue, v.data = value →
        fields (kvHashNodeSetPayload t (some n) v) = update (fields t) field (some value) := by
      intro v hdata
      rw [fields_setPayload hre hn, hk, hdata]
    simp only [hashReplace]
    by_cases hsame : n.payload.data = value
    · simp only [if_pos hsame]
      refine ⟨hre, Or.inr ⟨by simp [fieldResult, hold, hsame], ?_⟩⟩
      simp [KvObject.view, ← hsame, ← hold]
    · simp only [if_neg hsame]
      have hres : fieldResult (fields t) field value = ⟨false, true⟩ := by simp [fieldResult, hold, hsame]
      by_cases hfit : value.length ≤ n.payload.capacity
      · simp only [if_pos hfit, hres]
        exact ⟨KvHash.kvHashNodeSetPayload_inv hre n _, Or.inr ⟨trivial, congrArg Obj.hash (hset _ rfl)⟩⟩
      · simp only [if_neg hfit]
        cases hc : hashValueCreate alloc.value value with
        | none => exact ⟨hre, Or.inl ⟨rfl, rfl⟩⟩
        | some v =>
          simp only [hres]
          exact ⟨KvHash.kvHashNodeSetPayload_inv hre n _, Or.inr ⟨trivial, congrArg Obj.hash (hset v (hashValueCreate_data hc))⟩⟩
  | none =>
    have hold : fields t field = none := by rw [fields_of_find hre, hf]; rfl
    cases hc : hashValueCreate alloc.value value with
    | none => exact ⟨hre, Or.inl ⟨rfl, rfl⟩⟩
    | some v =>
      cases hins : kvHashInsert hash alloc.dict t field v with
      | mk t' r =>
        cases r with
        | none =>
          have hfail := KvHash.kvHashInsert_failed hre (congrArg Prod.snd hins)
          rw [hins] at hfail
          simp only [hins]
          refine ⟨hfail.1, Or.inl ⟨trivial, congrArg Obj.hash ?_⟩⟩
          funext k
          simp only [fields, KvHash.lookup, hfail.2.1]
        | some n =>
          obtain ⟨_, hnode, hnew⟩ := KvHash.kvHashInsert_some hre hins
          simp only [hins]
          refine ⟨hnew.inv, Or.inr ⟨by simp [fieldResult, hold], congrArg Obj.hash ?_⟩⟩
          funext k
          rw [fields, hnew.lookup, hnode, update_apply]
          split_ifs
          · simp [hashValueCreate_data hc]
          · rfl

theorem hashGet_spec {m : Bytes → Option Bytes} (hi : o.Inv hash) (hv : o.view = .hash m) (field : Bytes) :
    (kvObjectHashGet hash o field).1.Inv hash ∧ (kvObjectHashGet hash o field).1.view = .hash m ∧
      (kvObjectHashGet hash o field).2 = m field := by
  obtain ⟨table, hval, hit, rfl⟩ := hi.hash hv
  obtain ⟨hre, hfields⟩ := rehash_fields hit 1
  unfold kvObjectHashGet
  simp only [hval]
  refine ⟨hre, congrArg Obj.hash hfields, ?_⟩
  rw [← hfields, fields_of_find hre]

/-- reads leave the memory in use alone, and removals only release some -/
theorem hashGet_usage (o : KvObject) (field : Bytes) :
    kvObjectMemoryUsage (kvObjectHashGet hash o field).1 = kvObjectMemoryUsage o := by
  unfold kvObjectHashGet
  cases o.value <;> rfl

theorem zsetScore_usage (o : KvObject) (member : Bytes) :
    kvObjectMemoryUsage (kvObjectZsetScore hash o member).1 = kvObjectMemoryUsage o := by
  unfold kvObjectZsetScore
  cases o.value <;> rfl

theorem hashDelete_usage (o : KvObject) (field : Bytes) :
    kvObjectMemoryUsage (kvObjectHashDelete hash o field).1 ≤ kvObjectMemoryUsage o := by
  unfold kvObjectHashDelete
  cases o.value with
  | string data capacity => exact le_rfl
  | hash table =>
    simp only
    cases kvHashFind hash table field with
    | none => exact le_rfl
    | some n => exact Nat.sub_le _ _
  | zset set => exact le_rfl

theorem zsetRemove_usage (o : KvObject) (member : Bytes) :
    kvObjectMemoryUsage (kvObjectZsetRemove hash o member).1 ≤ kvObjectMemoryUsage o := by
  unfold kvObjectZsetRemove
  cases o.value with
  | string data capacity => exact le_rfl
  | hash table => exact le_rfl
  | zset set =>
    simp only [ZSet.remove]
    cases kvHashFind hash set.members member with
    | none => exact le_rfl
    | some n => exact Nat.sub_le _ _

theorem hashDelete_spec {m : Bytes → Option Bytes} (hi : o.Inv hash) (hv : o.view = .hash m) (field : Bytes) :
    (kvObjectHashDelete hash o field).1.Inv hash ∧
      (kvObjectHashDelete hash o field).1.view = .hash (update m field none) ∧
      (kvObjectHashDelete hash o field).2 = some (m field).isSome := by
  obtain ⟨table, hval, hit, rfl⟩ := hi.hash hv
  have hold := fields_of_find hit field
  unfold kvObjectHashDelete
  simp only [hval]
  cases hf : kvHashFind hash table field with
  | none =>
    rw [hf] at hold
    refine ⟨hi, ?_, by simp [hold]⟩
    rw [hv, ← show fields table field = none from hold, update_eq_self]
  | some n =>
    rw [hf] at hold
    obtain ⟨hn, hk⟩ := (KvHash.kvHashFind_some hit field n).1 hf
    obtain ⟨_, hrem⟩ := KvHash.removeTarget_spec hit hn
    refine ⟨hrem.inv, congrArg Obj.hash ?_, by simp [hold]⟩
    funext k
    have := hrem.lookup hit k
    simp only [KvHash.kvHashRemoveNode, fields, this, update_apply, hk]
    split_ifs <;> rfl

/-- a list of the entries of a map, each once -/
structure Lists {V : Type} (m : Bytes → Option V) (l : List (Bytes × V)) : Prop where
  nodup : (l.map Prod.fst).Nodup
  mem : ∀ k v, (k, v) ∈ l ↔ m k = some v

/-- the order in which a Hash is visited is a list of its fields -/
theorem hashVisit_spec {m : Bytes → Option Bytes} (hi : o.Inv hash) (hv : o.view = .hash m) :
    ∃ l, Lists m l ∧ kvObjectHashLength o = l.length ∧
      ∀ {C : Type} (callback : C → Bytes × Bytes → C × Bool) (c : C), kvObjectHashVisit o callback c = visit callback c l := by
  obtain ⟨table, hval, hit, rfl⟩ := hi.hash hv
  refine ⟨(nodes table).map fun n => (n.key, n.payload.data), ⟨?_, fun k v => ?_⟩, ?_, fun callback c => ?_⟩
  · rw [map_map]
    exact hit.keys
  · rw [mem_map]
    constructor
    · rintro ⟨n, hn, he⟩
      rw [Prod.mk.injEq] at he
      rw [fields, (KvHash.lookup_some_iff hit k n.payload).2 ⟨n, hn, he.1, rfl⟩, Option.map_some, he.2]
    · intro h
      obtain ⟨w, hl, rfl⟩ := Option.map_eq_some_iff.1 h
      obtain ⟨n, hn, rfl, rfl⟩ := (KvHash.lookup_some_iff hit k w).1 hl
      exact ⟨n, hn, rfl⟩
  · rw [kvObjectHashLength, hval, length_map]
    exact hit.counted
  · rw [kvObjectHashVisit, hval]
    simp only
    rw [KvHash.traverse_eq_nodes hit (Nat.lt_succ_self _)]

section

variable (hi : o.Inv hash) (hv : o.view = .zset m)
include hi hv

theorem zsetAdd_spec (alloc : ZSet.Alloc) (sc : Score) (member : Bytes) : (kvObjectZsetAdd hash alloc o sc member).1.Inv hash ∧
      (((kvObjectZsetAdd hash alloc o sc member).2 = none ∧
          (kvObjectZsetAdd hash alloc o sc member).1.view = o.view) ∨
        ((kvObjectZsetAdd hash alloc o sc member).2 = some (ZSet.addResult m sc member) ∧
          (kvObjectZsetAdd hash alloc o sc member).1.view = .zset (ZSet.addTo m sc member))) := by
  obtain ⟨set, xs, hval, hx, rfl⟩ := hi.zset hv
  obtain ⟨h1, h2⟩ := ZSet.add_spec hx alloc o.memoryUsage sc member
  unfold kvObjectZsetAdd
  simp only [hval]
  refine ⟨h1, ?_⟩
  rcases h2 with ⟨h2, h3, _⟩ | ⟨h2, h3⟩
  · exact Or.inl ⟨h2, by rw [hv]; exact congrArg Obj.zset h3⟩
  · exact Or.inr ⟨h2, congrArg Obj.zset h3⟩

theorem zsetScore_spec (member : Bytes) :
    (kvObjectZsetScore hash o member).1.Inv hash ∧ (kvObjectZsetScore hash o member).1.view = .zset m ∧
      (kvObjectZsetScore hash o member).2 = some (m member) := by
  obtain ⟨set, xs, hval, hx, rfl⟩ := hi.zset hv
  obtain ⟨h1, h2, h3⟩ := ZSet.score_spec hx member
  unfold kvObjectZsetScore
  simp only [hval]
  exact ⟨⟨xs, h1⟩, congrArg Obj.zset h2, congrArg some h3⟩

theorem zsetRemove_spec (member : Bytes) : (kvObjectZsetRemove hash o member).1.Inv hash ∧
      (kvObjectZsetRemove hash o member).1.view = .zset (update m member none) ∧
      (kvObjectZsetRemove hash o member).2 = some (m member).isSome := by
  obtain ⟨set, xs, hval, hx, rfl⟩ := hi.zset hv
  obtain ⟨h1, h2, h3⟩ := ZSet.remove_spec hx o.memoryUsage member
  unfold kvObjectZsetRemove
  simp only [hval]
  exact ⟨h1, congrArg Obj.zset h2, congrArg some h3⟩

/-- a ZSet is visited along the sorted list of its entries -/
theorem zsetRange_spec :
    ∃ l, ZSet.Enumerates m l ∧ kvObjectZsetLength o = l.length ∧
      ∀ {C : Type} (start stop : ℤ) (callback : C → Item → C × Bool) (c : C),
        kvObjectZsetRange o start stop callback c =
          ((visit callback c (ZSet.slice l start stop)).1,
            if (visit callback c (ZSet.slice l start stop)).2 then some (ZSet.slice l start stop).length else none) := by
  obtain ⟨set, xs, hval, hx, rfl⟩ := hi.zset hv
  refine ⟨_, hx.enumerates, ?_, fun start stop callback c => ?_⟩
  · rw [kvObjectZsetLength, hval]
    exact hx.length_eq
  · rw [kvObjectZsetRange, hval]
    exact ZSet.range_spec hx start stop callback c

end

/-! ## Copies -/

variable {V α : Type} {l : List Item}

/-- a map with one new entry -/
theorem update_some_iff {m : Bytes → Option V} {e : Bytes × V} (hnew : m e.1 = none) (k : Bytes) (v : V) :
    update m e.1 (some e.2) k = some v ↔ m k = some v ∨ e = (k, v) := by
  rw [update_apply]
  by_cases hk : k = e.1
  · rw [if_pos hk, Option.some.injEq, hk, hnew]
    simp [Prod.ext_iff]
  · rw [if_neg hk]
    refine (or_iff_left fun hc => hk ?_).symm
    rw [hc]

/-- an entry with a new key leaves the other keys new -/
theorem update_new {entry : α → Bytes × V} {m : Bytes → Option V} {x : α} {l : List α}
    (hnd : ((x :: l).map fun x => (entry x).1).Nodup) (hnew : ∀ y ∈ x :: l, m (entry y).1 = none) :
    ∀ y ∈ l, update m (entry x).1 (some (entry x).2) (entry y).1 = none := by
  intro y hy
  rw [update_of_ne]
  · exact hnew y (mem_cons_of_mem _ hy)
  · exact fun hc : (entry y).1 = (entry x).1 => (nodup_cons.1 hnd).1 (mem_map.2 ⟨y, hy, hc⟩)

/-- the list of a map's entries, written into an empty object -/
theorem map_of_writes {m m' : Bytes → Option V} {l : List α} {entry : α → Bytes × V}
    (h : ∀ k v, m' k = some v ↔ none = some v ∨ ∃ x ∈ l, entry x = (k, v)) (hl : Lists m (l.map entry)) : m' = m := by
  funext k
  refine Option.ext fun v => ?_
  rw [h, ← hl.mem, mem_map]
  simp

section Visits

variable {callback : KvObject → α → KvObject × Bool} {wrap : (Bytes → Option V) → Obj} (entry : α → Bytes × V)
  (hstep : ∀ (o : KvObject) m x, o.Inv hash → o.view = wrap m → m (entry x).1 = none → (callback o x).2 = true →
    (callback o x).1.Inv hash ∧ (callback o x).1.view = wrap (update m (entry x).1 (some (entry x).2)))

include hstep

/-- a visit that writes entries with new keys into an object, each under its key -/
theorem visit_writes (l : List α) {m : Bytes → Option V} (hi : o.Inv hash) (hv : o.view = wrap m)
    (hnd : (l.map fun x => (entry x).1).Nodup) (hnew : ∀ x ∈ l, m (entry x).1 = none) (hok : (visit callback o l).2 = true) :
    (visit callback o l).1.Inv hash ∧ ∃ m', (visit callback o l).1.view = wrap m' ∧
      ∀ k v, m' k = some v ↔ m k = some v ∨ ∃ x ∈ l, entry x = (k, v) := by
  induction l generalizing o m with
  | nil => exact ⟨hi, m, hv, fun k v => by simp⟩
  | cons x l ih =>
    simp only [visit] at hok ⊢
    cases hx : (callback o x).2 with
    | false => simp [hx] at hok
    | true =>
      simp only [hx, if_true] at hok ⊢
      obtain ⟨h1, h2⟩ := hstep o m x hi hv (hnew x mem_cons_self) hx
      obtain ⟨h3, m', h4, h5⟩ := ih h1 h2 (nodup_cons.1 hnd).2 (update_new hnd hnew) hok
      refine ⟨h3, m', h4, fun k v => ?_⟩
      rw [h5, exists_mem_cons_iff, ← or_assoc]
      exact or_congr_left (update_some_iff (hnew x mem_cons_self) k v)

theorem visit_copies {l : List α} {m : Bytes → Option V} (hi : o.Inv hash) (hv : o.view = wrap fun _ => none)
    (hl : Lists m (l.map entry)) {copy : KvObject} (hr : visit callback o l = (copy, true)) :
    copy.Inv hash ∧ copy.view = wrap m := by
  have hnd := hl.nodup
  rw [map_map] at hnd
  obtain ⟨h1, m', h2, h3⟩ := visit_writes entry hstep l hi hv hnd (fun _ _ => rfl) (by rw [hr])
  rw [hr] at h1 h2
  exact ⟨h1, by rw [h2, map_of_writes h3 hl]⟩

end Visits

theorem slice_all (l : List α) : ZSet.slice l 0 (-1) = l := by
  rw [ZSet.slice_eq]
  unfold ZSet.rangeBounds
  by_cases hl : l.length = 0
  · rw [if_pos hl]
    exact (eq_nil_of_length_eq_zero hl).symm
  · have h1 : ¬ ((-1 : ℤ) + l.length < 0 ∨ (0 : ℤ) ≥ l.length ∨ (0 : ℤ) > -1 + l.length) := by omega
    simp only [if_neg hl, show ¬ (0 : ℤ) < 0 by decide, show (-1 : ℤ) < 0 by decide, if_true, if_false, h1]
    rw [if_neg (by omega)]
    simp only [Int.toNat_zero, drop_zero]
    rw [take_of_length_le (by omega)]

/-- the members of a ranking are different -/
theorem enumerates_nodup (h : ZSet.Enumerates m l) : (l.map Item.member).Nodup := by
  have hnd : l.Nodup := by
    refine List.Pairwise.imp (fun {a b} hlt => ?_) h.sorted
    rintro rfl
    exact lt_irrefl _ hlt
  refine hnd.map_on fun a ha b hb hab => ?_
  have h1 := (h.mem a.member a.score).1 ha
  have h2 := (h.mem b.member b.score).1 hb
  rw [hab, h2, Option.some.injEq] at h1
  cases a
  cases b
  simp_all

theorem lists_of_enumerates (h : ZSet.Enumerates m l) : Lists m (l.map fun i => (i.member, i.score)) := by
  refine ⟨?_, fun member score => ?_⟩
  · rw [map_map]
    exact enumerates_nodup h
  · rw [← h.mem member score, mem_map]
    constructor
    · intro ⟨i, hmem, he⟩
      rw [Prod.mk.injEq] at he
      obtain ⟨rfl, rfl⟩ := he
      exact hmem
    · intro hmem
      exact ⟨_, hmem, rfl⟩

/-- **A copy** holds what the object holds. -/
theorem clone_spec {copy : KvObject} (hi : o.Inv hash) (alloc : CloneAlloc)
    (h : kvObjectClone hash alloc o = some copy) : copy.Inv hash ∧ copy.view = o.view := by
  unfold kvObjectClone at h
  cases hv : o.value with
  | string data capacity =>
    simp only [hv] at h
    obtain ⟨h1, h2⟩ := @createString_spec hash _ _ _ h
    exact ⟨h1, by rw [h2, KvObject.view, hv]⟩
  | hash table =>
    have hview : o.view = .hash (fields table) := by rw [KvObject.view, hv]
    simp only [hv] at h
    obtain ⟨start, hstart, h⟩ := Option.bind_eq_some_iff.1 h
    obtain ⟨hi0, hv0⟩ := @createHash_spec hash _ _ hstart
    obtain ⟨l, hl, _, hvisit⟩ := hashVisit_spec hi hview
    rw [hvisit] at h
    have hstep : ∀ (o : KvObject) m (x : Bytes × Bytes), o.Inv hash → o.view = .hash m → m (id x).1 = none →
        (cloneHashField hash alloc.hash o x).2 = true →
        (cloneHashField hash alloc.hash o x).1.Inv hash ∧
          (cloneHashField hash alloc.hash o x).1.view = .hash (update m (id x).1 (some (id x).2)) := by
      intro o m x hi hv _ hok
      obtain ⟨h1, ⟨h2, _⟩ | ⟨_, h3⟩⟩ := hashSet_spec hi hv alloc.hash x.1 x.2
      · simp [cloneHashField, h2] at hok
      · exact ⟨h1, h3⟩
    cases hr : visit (cloneHashField hash alloc.hash) start l with | mk c' ok =>
    rw [hr] at h
    cases ok with
    | false => simp at h
    | true =>
      simp only [Option.some.injEq] at h
      subst h
      rw [hview]
      exact visit_copies id hstep hi0 hv0 (by rwa [map_id]) hr
  | zset set =>
    have hview : o.view = .zset set.view := by rw [KvObject.view, hv]
    simp only [hv] at h
    obtain ⟨start, hstart, h⟩ := Option.bind_eq_some_iff.1 h
    obtain ⟨hi0, hv0⟩ := @createZset_spec hash _ _ _ hstart
    obtain ⟨l, hl, _, hrange⟩ := zsetRange_spec hi hview
    rw [hrange, slice_all] at h
    have hstep : ∀ (o : KvObject) m (x : Item), o.Inv hash → o.view = .zset m → m (x.member, x.score).1 = none →
        (cloneZsetMember hash alloc.zset o x).2 = true →
        (cloneZsetMember hash alloc.zset o x).1.Inv hash ∧
          (cloneZsetMember hash alloc.zset o x).1.view =
            .zset (update m (x.member, x.score).1 (some (x.member, x.score).2)) := by
      intro o m x hi hv hnone hok
      obtain ⟨h1, ⟨h2, _⟩ | ⟨_, h3⟩⟩ := zsetAdd_spec hi hv alloc.zset x.score x.member
      · simp [cloneZsetMember, h2] at hok
      · refine ⟨h1, h3.trans ?_⟩
        simp only at hnone
        rw [ZSet.addTo, hnone]
    cases hr : visit (cloneZsetMember hash alloc.zset) start l with | mk c' ok =>
    rw [hr] at h
    cases ok with
    | false => simp at h
    | true =>
      simp only [if_true, Option.some.injEq] at h
      subst h
      rw [hview]
      exact visit_copies (fun x : Item => (x.member, x.score)) hstep hi0 hv0 (lists_of_enumerates hl) hr

/-! ## Call sequences on a sorted set -/

inductive ZsetCall
  | add (alloc : ZSet.Alloc) (score : Score) (member : Bytes)
  | remove (member : Bytes)
  | score (member : Bytes)
  | length
  | range (start stop : ℤ)
deriving DecidableEq

/-- what a call returns; a score is read as a point of the line, on which the two zeros are one -/
inductive ZsetReply
  | added (result : Option ZSet.SetResult)
  | removed (result : Option Bool)
  | score (result : Option (Option ℤ))
  | length (count : ℕ)
  | visited (items : List (Bytes × ℤ)) (count : Option ℕ)
deriving DecidableEq, Repr

/-- a visitor that keeps what it is shown -/
def collectItem (seen : List (Bytes × ℤ)) (i : Item) : List (Bytes × ℤ) × Bool := (seen ++ [(i.member, i.score.num)], true)

def zsetStep (hash : Hasher) (o : KvObject) : ZsetCall → KvObject × ZsetReply
  | .add alloc score member =>
    let r := kvObjectZsetAdd hash alloc o score member
    (r.1, .added r.2)
  | .remove member =>
    let r := kvObjectZsetRemove hash o member
    (r.1, .removed r.2)
  | .score member =>
    let r := kvObjectZsetScore hash o member
    (r.1, .score (r.2.map (·.map Score.num)))
  | .length => (o, .length (kvObjectZsetLength o))
  | .range start stop =>
    let r := kvObjectZsetRange o start stop collectItem []
    (o, .visited r.1 r.2)

/-- the replies to a sequence of calls -/
def zsetRun (hash : Hasher) : KvObject → List ZsetCall → List ZsetReply
  | _, [] => []
  | o, c :: calls => (zsetStep hash o c).2 :: zsetRun hash (zsetStep hash o c).1 calls

/-- the object `kv_object_create_zset` returns -/
def emptyZset (engine : ZsetEngine) : KvObject :=
  ⟨.zset (ZSet.create engine), sizeofObject + sizeofZset + kvHashIndexMemory (ZSet.create engine).members +
    orderedBaseMemory (ZSet.create engine).order⟩

theorem createZset_ok (engine : ZsetEngine) : kvObjectCreateZset true engine = some (emptyZset engine) := rfl

/-! ### The finite map of members and scores -/

/-- the entries of a map by score, then by the bytes of the member with the shorter prefix first -/
structure Ranking (m : Bytes → Option ℤ) (l : List (Bytes × ℤ)) : Prop where
  sorted : l.Pairwise fun a b => a.2 < b.2 ∨ a.2 = b.2 ∧ a.1.map UInt8.toNat < b.1.map UInt8.toNat
  mem : ∀ member n, (member, n) ∈ l ↔ m member = some n

/-- the map after a call that was answered so -/
def scoresAfter (m : Bytes → Option ℤ) : ZsetCall → ZsetReply → Bytes → Option ℤ
  | .add _ score member, .added (some _) => update m member (some score.num)
  | .remove member, _ => update m member none
  | _, _ => m

/-- the answers the map allows -/
def Answers (m : Bytes → Option ℤ) : ZsetCall → ZsetReply → Prop
  | .add _ score member, .added r =>
    r = none ∨ r = some ⟨(m member).isNone, m member ≠ some score.num⟩
  | .remove member, .removed r => r = some (m member).isSome
  | .score member, .score r => r = some (m member)
  | .length, .length n => n = {member | (m member).isSome}.ncard
  | .range start stop, .visited items count =>
    (∃ l, Ranking m l ∧ items = ZSet.slice l start stop) ∧ count = some items.length
  | _, _ => False

/-- the allocations a call asks for succeed -/
def ZsetAllocates (o : KvObject) : ZsetCall → Prop
  | .add alloc _ member =>
    match o.value with
    | .zset set => ZSet.AddAllocates alloc set member
    | _ => True
  | _ => True

/-- the calls are answered as on the map; an addition fails only when memory does, and then changes nothing -/
def Follows (hash : Hasher) : KvObject → (Bytes → Option ℤ) → List ZsetCall → Prop
  | _, _, [] => True
  | o, m, c :: calls =>
    Answers m c (zsetStep hash o c).2 ∧ (ZsetAllocates o c → (zsetStep hash o c).2 ≠ .added none) ∧
      Follows hash (zsetStep hash o c).1 (scoresAfter m c (zsetStep hash o c).2) calls

/-- scores read as points of the line -/
def nums (m : Bytes → Option Score) (member : Bytes) : Option ℤ := (m member).map Score.num

theorem nums_update (m : Bytes → Option Score) (member : Bytes) (r : Option Score) :
    nums (update m member r) = update (nums m) member (r.map Score.num) := by
  funext k
  rw [nums, update_apply, update_apply]
  split_ifs <;> rfl

theorem nums_addTo (m : Bytes → Option Score) (sc : Score) (member : Bytes) :
    nums (ZSet.addTo m sc member) = update (nums m) member (some sc.num) := by
  unfold ZSet.addTo
  cases hm : m member with
  | none => exact nums_update m member (some sc)
  | some old =>
    simp only
    split_ifs with he
    · have : nums m member = some sc.num := by rw [nums, hm, Option.map_some, he]
      rw [← this, update_eq_self]
    · exact nums_update m member (some sc)

theorem addResult_nums (m : Bytes → Option Score) (sc : Score) (member : Bytes) :
    ZSet.addResult m sc member = ⟨(nums m member).isNone, nums m member ≠ some sc.num⟩ := by
  unfold ZSet.addResult nums
  cases m member <;> simp

/-- the sorted list of items ranks the map of points -/
theorem ranking_of_enumerates (h : ZSet.Enumerates m l) :
    Ranking (nums m) (l.map fun i => (i.member, i.score.num)) := by
  refine ⟨pairwise_map.2 (h.sorted.imp fun hlt => ?_), fun member n => ?_⟩
  · rw [Item.key, Item.key, Prod.Lex.toLex_lt_toLex] at hlt
    exact hlt
  · rw [mem_map, nums, Option.map_eq_some_iff]
    constructor
    · rintro ⟨i, hi, he⟩
      rw [Prod.mk.injEq] at he
      exact ⟨i.score, (h.mem member i.score).1 (he.1 ▸ hi), he.2⟩
    · rintro ⟨sc, hsc, rfl⟩
      exact ⟨⟨sc, member⟩, (h.mem member sc).2 hsc, rfl⟩

theorem visit_collectItem (l : List Item) (seen : List (Bytes × ℤ)) :
    visit collectItem seen l = (seen ++ l.map fun i => (i.member, i.score.num), true) := by
  induction l generalizing seen with
  | nil => simp [visit]
  | cons i l ih => simp only [visit, collectItem, ih, if_true, append_assoc, map_cons, singleton_append]

theorem slice_map {β : Type} (f : α → β) (l : List α) (start stop : ℤ) :
    ZSet.slice (l.map f) start stop = (ZSet.slice l start stop).map f := by
  rw [ZSet.slice_eq, ZSet.slice_eq, length_map]
  cases ZSet.rangeBounds l.length start stop with
  | none => rfl
  | some b => rw [map_take, map_drop]

section

variable (hi : o.Inv hash) (hv : o.view = .zset m)
include hi hv

/-- the range of a ZSet object that holds `m`, read through its one ranking -/
theorem range_answer (hl : ZSet.Enumerates m l) (start stop : ℤ) :
    kvObjectZsetRange o start stop collectItem [] =
      ((ZSet.slice l start stop).map (fun i => (i.member, i.score.num)), some (ZSet.slice l start stop).length) := by
  obtain ⟨l', hl', _, hr⟩ := zsetRange_spec hi hv
  rw [hr, visit_collectItem, hl'.unique hl]
  rfl

theorem length_answer :
    kvObjectZsetLength o = {member | (nums m member).isSome}.ncard := by
  obtain ⟨set, xs, hval, hx, rfl⟩ := hi.zset hv
  rw [kvObjectZsetLength, hval]
  simp only [ZSet.length, KvHash.count_eq_ncard hx.dict, nums, ZSet.view, Option.isSome_map]

theorem zsetAdd_allocates {alloc : ZSet.Alloc} {sc : Score} {member : Bytes} (ha : ZsetAllocates o (.add alloc sc member)) :
    (kvObjectZsetAdd hash alloc o sc member).2 ≠ none := by
  obtain ⟨set, xs, hval, hx, rfl⟩ := hi.zset hv
  rw [ZsetAllocates, hval] at ha
  unfold kvObjectZsetAdd
  simp only [hval]
  rcases (ZSet.add_spec hx alloc o.memoryUsage sc member).2 with ⟨_, _, hn⟩ | ⟨h2, _⟩
  · exact absurd ha hn
  · rw [h2]
    exact Option.some_ne_none _

/-- one call is answered as on the map, and leaves an object that holds the map after the call -/
theorem zsetStep_follows (c : ZsetCall) :
    Answers (nums m) c (zsetStep hash o c).2 ∧ (ZsetAllocates o c → (zsetStep hash o c).2 ≠ .added none) ∧
      (zsetStep hash o c).1.Inv hash ∧
      ∃ m', (zsetStep hash o c).1.view = .zset m' ∧ nums m' = scoresAfter (nums m) c (zsetStep hash o c).2 := by
  cases c with
  | add alloc sc member =>
    obtain ⟨h1, h2⟩ := zsetAdd_spec hi hv alloc sc member
    have h3 : ZsetAllocates o (.add alloc sc member) → (zsetStep hash o (.add alloc sc member)).2 ≠ .added none :=
      fun ha hc => zsetAdd_allocates hi hv ha (ZsetReply.added.inj hc)
    refine ⟨?_, h3, h1, ?_⟩
    · rcases h2 with ⟨h2, _⟩ | ⟨h2, _⟩
      · exact Or.inl h2
      · exact Or.inr (by rw [h2, addResult_nums])
    · simp only [zsetStep]
      rcases h2 with ⟨h2, h4⟩ | ⟨h2, h4⟩
      · exact ⟨m, h4.trans hv, by rw [h2]; rfl⟩
      · exact ⟨_, h4, by rw [h2, nums_addTo]; rfl⟩
  | remove member =>
    obtain ⟨h1, h2, h3⟩ := zsetRemove_spec hi hv member
    refine ⟨?_, fun _ hc => ?_, h1, _, h2, nums_update m member none⟩
    · simp only [zsetStep, Answers, h3, nums, Option.isSome_map]
    · exact ZsetReply.noConfusion hc
  | score member =>
    obtain ⟨h1, h2, h3⟩ := zsetScore_spec hi hv member
    refine ⟨?_, fun _ hc => ZsetReply.noConfusion hc, h1, m, h2, rfl⟩
    simp only [zsetStep, Answers, h3, Option.map_some, nums]
  | length => exact ⟨length_answer hi hv, fun _ hc => ZsetReply.noConfusion hc, hi, m, hv, rfl⟩
  | range start stop =>
    obtain ⟨l, hl, _⟩ := zsetRange_spec hi hv
    refine ⟨?_, fun _ hc => ZsetReply.noConfusion hc, hi, m, hv, rfl⟩
    simp only [zsetStep, Answers, range_answer hi hv hl, length_map, and_true]
    exact ⟨_, ranking_of_enumerates hl, (slice_map _ l start stop).symm⟩

end

theorem follows_of_inv (calls : List ZsetCall) (hi : o.Inv hash) (hv : o.view = .zset m) : Follows hash o (nums m) calls := by
  induction calls generalizing o m with
  | nil => trivial
  | cons c calls ih =>
    obtain ⟨h1, h2, h3, m', h4, h5⟩ := zsetStep_follows hi hv c
    refine ⟨h1, h2, ?_⟩
    rw [← h5]
    exact ih h3 h4

/-! ### The two engines -/

variable {o' : KvObject}

/-- two ZSet objects with the same table of members, whatever orders them -/
structure SameMembers (hash : Hasher) (o o' : KvObject) : Prop where
  inv : o.Inv hash ∧ o'.Inv hash
  sets : ∃ s s' : ZSet, o.value = .zset s ∧ o'.value = .zset s' ∧ s.members = s'.members ∧ s.nextNode = s'.nextNode

theorem SameMembers.view (h : SameMembers hash o o') :
    ∃ m, o.view = .zset m ∧ o'.view = .zset m := by
  obtain ⟨s, s', hs, hs', hm, _⟩ := h.sets
  refine ⟨ZSet.view s, by rw [KvObject.view, hs], ?_⟩
  rw [KvObject.view, hs']
  exact congrArg Obj.zset (funext fun k => by rw [ZSet.view, ZSet.view, hm])

/-- the engine has no say in what an addition does to the table -/
theorem add_members (alloc : ZSet.Alloc) {s s' : ZSet} (hm : s.members = s'.members) (hn : s.nextNode = s'.nextNode)
    (usage usage' : ℕ) (sc : Score) (member : Bytes) :
    (s.add hash alloc usage sc member).1.members = (s'.add hash alloc usage' sc member).1.members ∧
      (s.add hash alloc usage sc member).1.nextNode = (s'.add hash alloc usage' sc member).1.nextNode ∧
      (s.add hash alloc usage sc member).2.2 = (s'.add hash alloc usage' sc member).2.2 := by
  unfold ZSet.add
  simp only [hm, hn]
  cases kvHashFind hash (kvHashRehashStep s'.members 1).1 member with
  | some n =>
    simp only
    split_ifs <;> exact ⟨rfl, rfl, rfl⟩
  | none =>
    cases kvHashInsert hash alloc.dict (kvHashRehashStep s'.members 1).1 member ⟨s'.nextNode, sc⟩ with
    | mk table r =>
      cases r <;> simp only <;> split_ifs <;> exact ⟨rfl, rfl, rfl⟩

theorem zsetStep_same (h : SameMembers hash o o') (c : ZsetCall) : (zsetStep hash o c).2 = (zsetStep hash o' c).2 ∧
      SameMembers hash (zsetStep hash o c).1 (zsetStep hash o' c).1 := by
  obtain ⟨m, hv, hv'⟩ := h.view
  have hinv : (zsetStep hash o c).1.Inv hash ∧ (zsetStep hash o' c).1.Inv hash :=
    ⟨(zsetStep_follows h.inv.1 hv c).2.2.1, (zsetStep_follows h.inv.2 hv' c).2.2.1⟩
  obtain ⟨s, s', hs, hs', hm, hn⟩ := h.sets
  cases c with
  | add alloc sc member =>
    obtain ⟨h1, h2, h3⟩ := @add_members hash alloc s s' hm hn o.memoryUsage o'.memoryUsage sc member
    refine ⟨?_, hinv, ?_⟩
    · simp only [zsetStep, kvObjectZsetAdd, hs, hs', h3]
    · simp only [zsetStep, kvObjectZsetAdd, hs, hs']
      exact ⟨_, _, rfl, rfl, h1, h2⟩
  | remove member =>
    refine ⟨?_, hinv, ?_⟩
    · simp only [zsetStep, (zsetRemove_spec h.inv.1 hv member).2.2, (zsetRemove_spec h.inv.2 hv' member).2.2]
    · simp only [zsetStep, kvObjectZsetRemove, hs, hs']
      refine ⟨_, _, rfl, rfl, ?_, ?_⟩
      · simp only [ZSet.remove, hm]
        cases kvHashFind hash s'.members member <;> simp [hm]
      · simp only [ZSet.remove, hm]
        cases kvHashFind hash s'.members member <;> simp [hn]
  | score member =>
    refine ⟨?_, hinv, ?_⟩
    · simp only [zsetStep, (zsetScore_spec h.inv.1 hv member).2.2, (zsetScore_spec h.inv.2 hv' member).2.2]
    · simp only [zsetStep, kvObjectZsetScore, hs, hs']
      exact ⟨_, _, rfl, rfl, by simp only [ZSet.score, hm], hn⟩
  | length =>
    refine ⟨?_, h⟩
    simp only [zsetStep, length_answer h.inv.1 hv, length_answer h.inv.2 hv']
  | range start stop =>
    obtain ⟨l, hl, _⟩ := zsetRange_spec h.inv.1 hv
    refine ⟨?_, h⟩
    simp only [zsetStep, range_answer h.inv.1 hv hl, range_answer h.inv.2 hv' hl]

theorem zsetRun_same (calls : List ZsetCall) (h : SameMembers hash o o') :
    zsetRun hash o calls = zsetRun hash o' calls := by
  induction calls generalizing o o' with
  | nil => rfl
  | cons c calls ih =>
    obtain ⟨h1, h2⟩ := zsetStep_same h c
    rw [zsetRun, zsetRun, h1, ih h2]

theorem emptyZset_spec (engine : ZsetEngine) : (emptyZset engine).Inv hash ∧ (emptyZset engine).view = .zset fun _ => none :=
  createZset_spec (createZset_ok engine)

/-- **A sorted set is a finite map with a ranking.** From the empty set of either engine, every sequence of additions,
removals and reads is answered as the map from members to scores answers it, ranges as slices of the map's one ranking,
and the two engines give the same replies. -/
theorem zset_refines_map (hash : Hasher) (calls : List ZsetCall) :
    (∀ engine, Follows hash (emptyZset engine) (fun _ => none) calls) ∧
      zsetRun hash (emptyZset .skiplist) calls = zsetRun hash (emptyZset .rbtree) calls := by
  constructor
  · intro engine
    obtain ⟨h1, h2⟩ := @emptyZset_spec hash engine
    exact follows_of_inv calls h1 h2
  · refine zsetRun_same calls ⟨⟨(emptyZset_spec _).1, (emptyZset_spec _).1⟩, ?_⟩
    exact ⟨ZSet.create .skiplist, ZSet.create .rbtree, rfl, rfl, rfl, rfl⟩

end StoreSystem
