/-
The incrementally rehashing hash table (`src/kvstore_hash.c`): the index of the cache, the field table of a Hash object
and the member dictionary of a ZSet.

Two bucket arrays. While no rehash is in progress every node is in `table0`; an insertion that passes three quarters of
the slots allocates `table1` with twice as many and from then on `kvHashRehashStep` empties `table0` bucket by bucket.
Find looks in both arrays, insertion goes to `table1` while rehashing, and the iterator walks both.

The hash function is a parameter `hash`: nothing below depends on `hash_bytes`. A node pointer is modelled by the node, whose
`addr` is the address `calloc` gave it, and pointer comparison by comparison of addresses. A chain is the list of its
nodes. Allocation can fail: each call carries what its allocations do.

Result: `kvHash_refines_map`. After every sequence of calls whose allocations succeed, every reply is the one of a finite map
from byte strings to payloads, the count is the size of that map, and a full traversal yields each entry exactly once.
-/
import Mathlib.Tactic
import Mathlib.Data.List.Perm.Basic

namespace StoreSystem

open List Function Option

/-- a byte string: keys, fields, members, values and command arguments -/
abbrev Bytes := List UInt8

/-- a hash function of byte strings -/
abbrev Hasher := Bytes → UInt64

instance : LawfulBEq Bytes := inferInstance

/-- `SIZE_MAX` on the 64-bit targets of the server -/
def sizeMax : ℕ := 2 ^ 64 - 1

namespace KvHash

variable {V : Type}

/-! ## Model -/

/-- `struct kv_hash_node`; the chain link is the position in the bucket's list -/
structure Node (V : Type) where
  addr : ℕ
  key : Bytes
  hashCode : UInt64
  payload : V
deriving DecidableEq, Repr

/-- `struct kv_hash_table`; `slots` is the length of the bucket array -/
structure Table (V : Type) where
  buckets : List (List (Node V))
deriving DecidableEq, Repr

def Table.slots (t : Table V) : ℕ := t.buckets.length

/-- the head of a bucket's chain -/
def Table.bucket (t : Table V) (i : ℕ) : List (Node V) := t.buckets[i]?.getD []

def Table.setBucket (t : Table V) (i : ℕ) (chain : List (Node V)) : Table V := ⟨t.buckets.set i chain⟩

/-- a zeroed `kv_hash_table_t` -/
def Table.none : Table V := ⟨[]⟩

/-- `struct hashtable_s`; `HASH_REHASH_NONE` is `none`, and `nextAddr` is the next address `calloc` gives out -/
structure HashTable (V : Type) where
  table0 : Table V
  table1 : Table V
  count : ℕ
  rehashIndex : Option ℕ
  nextAddr : ℕ
deriving DecidableEq, Repr

def hashInitialSlots : ℕ := 16

def sizeofNode : ℕ := 32

def sizeofBucket : ℕ := 8

def sizeofHashtable : ℕ := 48

/-- what the two allocations an insertion may ask for do: the second bucket array and the node -/
structure Alloc where
  table : Bool
  node : Bool
deriving DecidableEq, Repr

def tableAllocate (ok : Bool) (slots : ℕ) : Option (Table V) :=
  if slots = 0 ∨ slots > sizeMax / sizeofBucket then none
  else if ok then some ⟨List.replicate slots []⟩ else none

/-- `kv_hash_create` when its allocations succeed -/
def kvHashCreate : HashTable V := ⟨⟨List.replicate hashInitialSlots []⟩, Table.none, 0, none, 0⟩

section

variable (hash : Hasher) (t : Table V) (h : HashTable V)

def kvHashIsRehashing : Bool := h.rehashIndex.isSome

def startExpand (ok : Bool) (h : HashTable V) : Option (HashTable V) :=
  if kvHashIsRehashing h then some h
  else if h.table0.slots > sizeMax / 2 then none
  else (tableAllocate ok (h.table0.slots * 2)).map fun t => { h with table1 := t, rehashIndex := some 0 }

def maybeExpand (ok : Bool) (h : HashTable V) : Option (HashTable V) :=
  if kvHashIsRehashing h then some h
  else if h.count + 1 ≤ h.table0.slots - h.table0.slots / 4 then some h
  else startExpand ok h

variable (key : Bytes) (code : UInt64)

/-- `hash_code & (slots - 1)` -/
def bucketOf (slots : ℕ) : ℕ := code.toNat &&& (slots - 1)

def keyEquals (n : Node V) (key : Bytes) (code : UInt64) : Bool :=
  n.hashCode == code && n.key.length == key.length && n.key == key

def findInTable : Option (Node V) :=
  if t.slots = 0 then none else (t.bucket (bucketOf code t.slots)).find? fun n => keyEquals n key code

/-- the `link` walk of `remove_target`: the node at `addr` and the chain without it -/
def unlink (addr : ℕ) : List (Node V) → Option (Node V × List (Node V))
  | [] => none
  | n :: rest => if n.addr = addr then some (n, rest) else (unlink addr rest).map fun p => (p.1, n :: p.2)

/-- one round of the loop of `remove_target` over the two tables -/
def removeFromTable (target : Node V) : Option (V × Table V) :=
  if t.slots = 0 then none
  else
    let b := bucketOf target.hashCode t.slots
    (unlink target.addr (t.bucket b)).map fun p => (p.1.payload, t.setBucket b p.2)

def removeTarget : Option (Node V) → HashTable V × Option V
  | none => (h, none)
  | some target =>
    match removeFromTable h.table0 target with
    | some (v, t) => ({ h with table0 := t, count := h.count - 1 }, some v)
    | none =>
      match removeFromTable h.table1 target with
      | some (v, t) => ({ h with table1 := t, count := h.count - 1 }, some v)
      | none => (h, none)

def kvHashFind : Option (Node V) :=
  match findInTable h.table0 key (hash key) with
  | some n => some n
  | none => if kvHashIsRehashing h then findInTable h.table1 key (hash key) else none

/-- push a node at the head of the bucket its hash code selects -/
def Table.pushFront (n : Node V) : Table V :=
  t.setBucket (bucketOf n.hashCode t.slots) (n :: t.bucket (bucketOf n.hashCode t.slots))

/-- the part of `kv_hash_insert` after the checks -/
def insertNode (payload : V) : HashTable V × Option (Node V) :=
  let n : Node V := ⟨h.nextAddr, key, code, payload⟩
  let h := { h with count := h.count + 1, nextAddr := h.nextAddr + 1 }
  (if kvHashIsRehashing h then { h with table1 := h.table1.pushFront n } else { h with table0 := h.table0.pushFront n },
    some n)

/-- `kv_hash_insert`: the node on success, `none` for the return value -1 -/
def kvHashInsert (alloc : Alloc) (h : HashTable V) (key : Bytes) (payload : V) :
    HashTable V × Option (Node V) :=
  if key.length = sizeMax then (h, none)
  else if (findInTable h.table0 key (hash key)).isSome then (h, none)
  else if kvHashIsRehashing h ∧ (findInTable h.table1 key (hash key)).isSome then (h, none)
  else
    match maybeExpand alloc.table h with
    | none => (h, none)
    | some h' =>
      if sizeofNode > sizeMax - key.length - 1 then (h', none)
      else if alloc.node then insertNode h' key (hash key) payload else (h', none)

def kvHashRemove : HashTable V × Option V :=
  removeTarget h (kvHashFind hash h key)

def kvHashRemoveNode (target : Option (Node V)) : HashTable V × Option V := removeTarget h target

def Table.mapNodes (f : Node V → Node V) (t : Table V) : Table V := ⟨t.buckets.map (List.map f)⟩

/-- `kv_hash_node_set_payload`: a write through the node pointer -/
def kvHashNodeSetPayload (target : Option (Node V)) (payload : V) : HashTable V :=
  match target with
  | none => h
  | some target =>
    let write := fun n : Node V => if n.addr = target.addr then { n with payload := payload } else n
    { h with table0 := h.table0.mapNodes write, table1 := h.table1.mapNodes write }

def kvHashCount : ℕ := h.count

def kvHashIndexMemory : ℕ :=
  sizeofHashtable + h.table0.slots * sizeofBucket + h.table1.slots * sizeofBucket

def kvHashNodeMemoryForKey (keyLength : ℕ) : ℕ :=
  if keyLength = sizeMax ∨ sizeofNode > sizeMax - keyLength - 1 then sizeMax else sizeofNode + keyLength + 1

/-- the loop of `kv_hash_rehash_step`: the tables, the rehash index and the number of buckets moved; `fuel` counts the
slots left -/
def rehashLoop : ℕ → Table V → Table V → ℕ → ℕ → ℕ → ℕ → Table V × Table V × ℕ × ℕ
  | 0, t0, t1, i, _, _, moved => (t0, t1, i, moved)
  | fuel + 1, t0, t1, i, budget, emptyBudget, moved =>
    if budget > 0 ∧ i < t0.slots then
      if (t0.bucket i).isEmpty ∧ emptyBudget > 0 then rehashLoop fuel t0 t1 (i + 1) budget (emptyBudget - 1) moved
      else
        rehashLoop fuel (t0.setBucket i []) ((t0.bucket i).foldl Table.pushFront t1) (i + 1) (budget - 1) emptyBudget
          (moved + 1)
    else (t0, t1, i, moved)

def kvHashRehashStep (bucketBudget : ℕ) : HashTable V × ℕ :=
  match h.rehashIndex with
  | none => (h, 0)
  | some i =>
    let emptyBudget := if bucketBudget > sizeMax / 10 then sizeMax else bucketBudget * 10
    let r := rehashLoop (h.table0.slots - i) h.table0 h.table1 i bucketBudget emptyBudget 0
    if r.2.2.1 = r.1.slots then
      ({ h with table0 := r.2.1, table1 := Table.none, rehashIndex := none }, r.2.2.2)
    else ({ h with table0 := r.1, table1 := r.2.1, rehashIndex := some r.2.2.1 }, r.2.2.2)

/-- `kv_hash_iterator_t`; `next` is the rest of the chain the pointer points to -/
structure Iterator (V : Type) where
  tableIndex : ℕ
  bucketIndex : ℕ
  next : List (Node V)
deriving DecidableEq, Repr

def kvHashIteratorBegin : Iterator V := ⟨0, 0, []⟩

/-- the inner loop of `kv_hash_iterator_next`: the first non-empty bucket from `bucketIndex` on, with the index after it -/
def scanBuckets (bucketIndex : ℕ) : List (List (Node V)) → Option (Node V × List (Node V) × ℕ)
  | [] => none
  | [] :: rest => scanBuckets (bucketIndex + 1) rest
  | (n :: chain) :: _ => some (n, chain, bucketIndex + 1)

def kvHashIteratorNext (it : Iterator V) : Option (Node V × Iterator V) :=
  match it.next with
  | n :: rest => some (n, { it with next := rest })
  | [] =>
    let scan0 := if it.tableIndex = 0 then scanBuckets it.bucketIndex (h.table0.buckets.drop it.bucketIndex) else none
    match scan0 with
    | some (n, chain, i) => some (n, ⟨0, i, chain⟩)
    | none =>
      let start := if it.tableIndex = 0 then 0 else it.bucketIndex
      if it.tableIndex < 2 then
        (scanBuckets start (h.table1.buckets.drop start)).map fun p => (p.1, ⟨1, p.2.2, p.2.1⟩)
      else none

/-- repeat `kv_hash_iterator_next` until it returns NULL, at most `fuel` times -/
def traverse : ℕ → Iterator V → List (Node V)
  | 0, _ => []
  | fuel + 1, it =>
    match kvHashIteratorNext h it with
    | none => []
    | some (n, it') => n :: traverse fuel it'

/-! ## Nodes and the invariant -/

def Table.nodes : List (Node V) := t.buckets.flatten

/-- every node of the table, in the order of a traversal -/
def nodes : List (Node V) := h.table0.nodes ++ h.table1.nodes

/-- the payload stored under a key -/
def lookup : Option V := ((nodes h).find? fun n => n.key = key).map Node.payload

/-- every node is in the bucket its hash code selects, and the code is the hash of its key -/
structure Placed : Prop where
  bucket : ∀ i, ∀ n ∈ t.bucket i, bucketOf n.hashCode t.slots = i
  code : ∀ n ∈ t.nodes, n.hashCode = hash n.key

structure Inv : Prop where
  slots0 : 0 < h.table0.slots
  placed0 : Placed hash h.table0
  placed1 : Placed hash h.table1
  /-- the second table is only there during a rehash -/
  idle : h.rehashIndex = none → h.table1 = Table.none
  /-- during a rehash the buckets below the rehash index have been emptied -/
  moving : ∀ i, h.rehashIndex = some i → i ≤ h.table0.slots ∧ 0 < h.table1.slots ∧ ∀ j < i, h.table0.bucket j = []
  keys : ((nodes h).map Node.key).Nodup
  addrs : ((nodes h).map Node.addr).Nodup
  fresh : ∀ n ∈ nodes h, n.addr < h.nextAddr
  counted : h.count = (nodes h).length

/-- the parts of the invariant that only speak of the list of all nodes -/
structure Listed : Prop where
  keys : ((nodes h).map Node.key).Nodup
  addrs : ((nodes h).map Node.addr).Nodup
  fresh : ∀ n ∈ nodes h, n.addr < h.nextAddr
  counted : h.count = (nodes h).length

end

theorem Listed.inv {hash : Hasher} {h : HashTable V} (hl : Listed h) (slots0 : 0 < h.table0.slots)
    (placed0 : Placed hash h.table0) (placed1 : Placed hash h.table1)
    (idle : h.rehashIndex = none → h.table1 = Table.none)
    (moving : ∀ i, h.rehashIndex = some i → i ≤ h.table0.slots ∧ 0 < h.table1.slots ∧ ∀ j < i, h.table0.bucket j = []) :
    Inv hash h :=
  ⟨slots0, placed0, placed1, idle, moving, hl.keys, hl.addrs, hl.fresh, hl.counted⟩

/-! ## Buckets -/

variable {i : ℕ} {t : Table V} {n : Node V} {hash : Hasher}

theorem bucketOf_lt (code : UInt64) {slots : ℕ} (h : 0 < slots) : bucketOf code slots < slots := by
  have : bucketOf code slots ≤ slots - 1 := Nat.and_le_right
  omega

theorem flatten_set_perm {α : Type} (l : List (List α)) (i : ℕ) (x : List α) (hi : i < l.length) :
    List.Perm ((l.set i x).flatten ++ l[i]?.getD []) (x ++ l.flatten) := by
  induction l generalizing i with
  | nil => simp at hi
  | cons y l ih =>
    cases i with
    | zero =>
      simp only [set_cons_zero, flatten_cons, List.getElem?_cons_zero, getD_some, append_assoc]
      exact List.Perm.append_left x perm_append_comm
    | succ i =>
      simp only [set_cons_succ, flatten_cons, List.getElem?_cons_succ, append_assoc]
      refine (List.Perm.append_left y (ih i (by simpa using hi))).trans ?_
      rw [← append_assoc, ← append_assoc]
      exact List.Perm.append_right _ perm_append_comm

theorem bucket_of_ge (t : Table V) (hi : t.slots ≤ i) : t.bucket i = [] := by
  simp [Table.bucket, List.getElem?_eq_none (show t.buckets.length ≤ i from hi)]

@[simp] theorem setBucket_slots (t : Table V) (i : ℕ) (c : List (Node V)) : (t.setBucket i c).slots = t.slots := by
  simp [Table.setBucket, Table.slots]

theorem setBucket_bucket (t : Table V) (i j : ℕ) (c : List (Node V)) (hi : i < t.slots) :
    (t.setBucket i c).bucket j = if j = i then c else t.bucket j := by
  unfold Table.bucket Table.setBucket
  by_cases h : j = i
  · subst h
    simp [List.getElem?_set_self (show j < t.buckets.length from hi)]
  · simp [h, List.getElem?_set_ne (Ne.symm h)]

theorem setBucket_nodes_perm (t : Table V) (i : ℕ) (c : List (Node V)) (hi : i < t.slots) :
    List.Perm ((t.setBucket i c).nodes ++ t.bucket i) (c ++ t.nodes) :=
  flatten_set_perm t.buckets i c hi

theorem mem_nodes_iff (t : Table V) (n : Node V) : n ∈ t.nodes ↔ ∃ i < t.slots, n ∈ t.bucket i := by
  constructor
  · intro h
    obtain ⟨c, hc, hn⟩ := mem_flatten.1 h
    obtain ⟨i, hi, rfl⟩ := mem_iff_getElem.1 hc
    exact ⟨i, hi, by simpa [Table.bucket, List.getElem?_eq_getElem hi] using hn⟩
  · rintro ⟨i, hi, hn⟩
    have hi' : i < t.buckets.length := hi
    simp only [Table.bucket, List.getElem?_eq_getElem hi', getD_some] at hn
    exact mem_flatten.2 ⟨_, getElem_mem _, hn⟩

theorem mem_nodes_of_bucket (h : n ∈ t.bucket i) : n ∈ t.nodes := by
  by_cases hi : i < t.slots
  · exact (mem_nodes_iff t n).2 ⟨i, hi, h⟩
  · rw [bucket_of_ge t (by omega)] at h
    simp at h

theorem Placed.none (hash : Hasher) : Placed hash (Table.none : Table V) :=
  ⟨by simp [Table.none, Table.bucket], by simp [Table.none, Table.nodes]⟩

theorem Placed.replicate (hash : Hasher) (s : ℕ) : Placed hash (⟨List.replicate s []⟩ : Table V) := by
  refine ⟨fun i n hn => ?_, fun n hn => ?_⟩
  · exfalso
    simp only [Table.bucket, List.getElem?_replicate] at hn
    split_ifs at hn <;> simp at hn
  · simp [Table.nodes] at hn

/-- in a placed table a node is in the bucket of its key's hash -/
theorem Placed.mem_bucket (h : Placed hash t) (hn : n ∈ t.nodes) : n ∈ t.bucket (bucketOf (hash n.key) t.slots) := by
  obtain ⟨i, _, hb⟩ := (mem_nodes_iff t n).1 hn
  have hi := h.bucket i n hb
  rw [h.code n hn] at hi
  rw [hi]
  exact hb

theorem Placed.setBucket (h : Placed hash t) (hi : i < t.slots)
    {c : List (Node V)} (hc : ∀ n ∈ c, bucketOf n.hashCode t.slots = i ∧ n.hashCode = hash n.key) :
    Placed hash (t.setBucket i c) := by
  have hb : ∀ j, ∀ n ∈ (t.setBucket i c).bucket j, bucketOf n.hashCode t.slots = j ∧ n.hashCode = hash n.key := by
    intro j n hn
    rw [setBucket_bucket t i j c hi] at hn
    split_ifs at hn with hji
    · subst hji; exact hc n hn
    · exact ⟨h.bucket j n hn, h.code n (mem_nodes_of_bucket hn)⟩
  refine ⟨fun j n hn => by rw [setBucket_slots]; exact (hb j n hn).1, fun n hn => ?_⟩
  obtain ⟨j, _, hj⟩ := (mem_nodes_iff _ n).1 hn
  exact (hb j n hj).2

theorem pushFront_slots (t : Table V) (n : Node V) : (t.pushFront n).slots = t.slots := setBucket_slots _ _ _

theorem pushFront_nodes (t : Table V) (n : Node V) (h : 0 < t.slots) : List.Perm (t.pushFront n).nodes (n :: t.nodes) := by
  have hp := setBucket_nodes_perm t (bucketOf n.hashCode t.slots) (n :: t.bucket (bucketOf n.hashCode t.slots))
    (bucketOf_lt _ h)
  have hp' : List.Perm ((t.pushFront n).nodes ++ t.bucket (bucketOf n.hashCode t.slots))
      ((n :: t.nodes) ++ t.bucket (bucketOf n.hashCode t.slots)) :=
    hp.trans (List.Perm.cons n perm_append_comm)
  exact (perm_append_right_iff _).1 hp'

theorem Placed.pushFront (h : Placed hash t) (hs : 0 < t.slots) (hn : n.hashCode = hash n.key) : Placed hash (t.pushFront n) := by
  refine h.setBucket (bucketOf_lt _ hs) fun m hm => ?_
  rcases mem_cons.1 hm with rfl | hm
  · exact ⟨rfl, hn⟩
  · exact ⟨h.bucket _ m hm, h.code m (mem_nodes_of_bucket hm)⟩

/-! ## Find -/

variable {key : Bytes} {h h' : HashTable V}

/-- with distinct keys, finding by key is membership -/
theorem find_key_iff {l : List (Node V)} (hk : (l.map Node.key).Nodup) (key : Bytes) (n : Node V) :
    l.find? (fun n => n.key = key) = some n ↔ n ∈ l ∧ n.key = key := by
  constructor
  · intro h
    exact ⟨List.mem_of_find?_eq_some h, by simpa using List.find?_some h⟩
  · rintro ⟨hn, rfl⟩
    cases hf : l.find? (fun m => m.key = n.key) with
    | none => rw [List.find?_eq_none] at hf; exact absurd (by simp) (hf n hn)
    | some m =>
      have hm : m.key = n.key := by simpa using List.find?_some hf
      rw [inj_on_of_nodup_map hk (List.mem_of_find?_eq_some hf) hn hm]

/-- with distinct keys, finding by key does not see the order -/
theorem find_key_perm {l l' : List (Node V)} (hk : (l.map Node.key).Nodup) (hp : List.Perm l' l) (key : Bytes) :
    l'.find? (fun n => n.key = key) = l.find? (fun n => n.key = key) := by
  cases hf : l.find? (fun n => n.key = key) with
  | none =>
    rw [List.find?_eq_none] at hf ⊢
    exact fun n hn => hf n (hp.mem_iff.1 hn)
  | some n =>
    rw [find_key_iff hk] at hf
    exact (find_key_iff ((hp.map Node.key).nodup_iff.2 hk) key n).2 ⟨hp.mem_iff.2 hf.1, hf.2⟩

theorem findInTable_some {code : UInt64} (h : findInTable t key code = some n) :
    n ∈ t.nodes ∧ n.key = key := by
  unfold findInTable at h
  split_ifs at h
  refine ⟨mem_nodes_of_bucket (List.mem_of_find?_eq_some h), ?_⟩
  have := List.find?_some h
  simp only [keyEquals, Bool.and_eq_true, beq_iff_eq] at this
  exact this.2

theorem findInTable_none (ht : Placed hash t) (h : findInTable t key (hash key) = none) : ∀ n ∈ t.nodes, n.key ≠ key := by
  rintro n hn rfl
  unfold findInTable at h
  have hb := ht.mem_bucket hn
  split_ifs at h with hs
  · rw [bucket_of_ge t (by omega)] at hb
    simp at hb
  · rw [List.find?_eq_none] at h
    refine h n hb ?_
    simp [keyEquals, ht.code n hn]

theorem findInTable_absent {code : UInt64} (h : ∀ n ∈ t.nodes, n.key ≠ key) : findInTable t key code = none := by
  cases hf : findInTable t key code with
  | none => rfl
  | some n => exact absurd (findInTable_some hf).2 (h n (findInTable_some hf).1)

theorem table1_nodes_idle (hi : Inv hash h) (hr : kvHashIsRehashing h = false) : h.table1.nodes = [] := by
  have : h.rehashIndex = none := by simpa [kvHashIsRehashing] using hr
  rw [hi.idle this]
  rfl

theorem kvHashFind_mem (hf : kvHashFind hash h key = some n) : n ∈ nodes h ∧ n.key = key := by
  unfold kvHashFind at hf
  split at hf
  · rename_i m h0
    cases hf
    obtain ⟨hm, hk⟩ := findInTable_some h0
    exact ⟨mem_append_left _ hm, hk⟩
  · split_ifs at hf
    obtain ⟨hm, hk⟩ := findInTable_some hf
    exact ⟨mem_append_right _ hm, hk⟩

theorem kvHashFind_none (hi : Inv hash h) (key : Bytes) :
    kvHashFind hash h key = none ↔ ∀ n ∈ nodes h, n.key ≠ key := by
  constructor
  · intro hf n hn
    unfold kvHashFind at hf
    split at hf
    · simp at hf
    · rename_i h0
      rcases mem_append.1 hn with hn | hn
      · exact findInTable_none hi.placed0 h0 n hn
      · cases hr : kvHashIsRehashing h
        · rw [table1_nodes_idle hi hr] at hn; simp at hn
        · rw [hr] at hf
          exact findInTable_none hi.placed1 hf n hn
  · intro hn
    cases hf : kvHashFind hash h key with
    | none => rfl
    | some n => exact absurd (kvHashFind_mem hf).2 (hn n (kvHashFind_mem hf).1)

/-- find returns the node that holds the key, whether or not a rehash is in progress -/
theorem kvHashFind_some (hi : Inv hash h) (key : Bytes) (n : Node V) :
    kvHashFind hash h key = some n ↔ n ∈ nodes h ∧ n.key = key := by
  refine ⟨kvHashFind_mem, fun ⟨hn, hk⟩ => ?_⟩
  cases hf : kvHashFind hash h key with
  | none => exact absurd hk ((kvHashFind_none hi key).1 hf n hn)
  | some m =>
    obtain ⟨hm, hmk⟩ := kvHashFind_mem hf
    rw [inj_on_of_nodup_map hi.keys hm hn (hmk.trans hk.symm)]

theorem lookup_eq_find (hi : Inv hash h) (key : Bytes) :
    lookup h key = (kvHashFind hash h key).map Node.payload := by
  unfold lookup
  congr 1
  cases hf : kvHashFind hash h key with
  | none => rw [List.find?_eq_none]; simpa using (kvHashFind_none hi key).1 hf
  | some n => exact (find_key_iff hi.keys key n).2 ((kvHashFind_some hi key n).1 hf)

theorem lookup_some_iff (hi : Inv hash h) (key : Bytes) (v : V) :
    lookup h key = some v ↔ ∃ n ∈ nodes h, n.key = key ∧ n.payload = v := by
  rw [lookup_eq_find hi, map_eq_some_iff]
  constructor
  · rintro ⟨n, hn, hv⟩
    obtain ⟨h1, h2⟩ := (kvHashFind_some hi key n).1 hn
    exact ⟨n, h1, h2, hv⟩
  · rintro ⟨n, h1, h2, hv⟩
    exact ⟨n, (kvHashFind_some hi key n).2 ⟨h1, h2⟩, hv⟩

/-- a table whose nodes are rearranged holds the same map -/
theorem lookup_perm (hk : ((nodes h).map Node.key).Nodup) (hp : List.Perm (nodes h') (nodes h))
    (key : Bytes) : lookup h' key = lookup h key := by
  rw [lookup, find_key_perm hk hp, lookup]

/-- one node more: the map has one binding more -/
theorem lookup_cons (hk : ((nodes h').map Node.key).Nodup) (hp : List.Perm (nodes h') (n :: nodes h)) (key : Bytes) :
    lookup h' key = if key = n.key then some n.payload else lookup h key := by
  unfold lookup
  rw [find_key_perm ((hp.map Node.key).nodup_iff.1 hk) hp, List.find?_cons]
  by_cases h : key = n.key
  · simp [h]
  · simp [h, Ne.symm h]

/-- one node less: the map has one binding less -/
theorem lookup_uncons (hk : ((nodes h).map Node.key).Nodup) (hp : List.Perm (n :: nodes h') (nodes h)) (key : Bytes) :
    lookup h' key = if key = n.key then none else lookup h key := by
  by_cases hkey : key = n.key
  · have hk' : ((n :: nodes h').map Node.key).Nodup := (hp.map Node.key).nodup_iff.2 hk
    rw [map_cons, nodup_cons] at hk'
    simp only [hkey, if_true, lookup, map_eq_none_iff, List.find?_eq_none]
    intro m hm hc
    exact hk'.1 (List.mem_map.2 ⟨m, hm, by simpa using hc⟩)
  · rw [lookup_cons hk hp.symm key, if_neg hkey, if_neg hkey]

/-! ## Remove -/

variable {chain : List (Node V)} {target : Node V} {v : V}

theorem unlink_some {addr : ℕ} {rest : List (Node V)} {m : Node V} (h : unlink addr chain = some (m, rest)) :
    m.addr = addr ∧ List.Perm chain (m :: rest) := by
  induction chain generalizing rest with
  | nil => simp [unlink] at h
  | cons n chain ih =>
    simp only [unlink] at h
    split_ifs at h with ha
    · cases h
      exact ⟨ha, List.Perm.refl _⟩
    · cases hu : unlink addr chain with
      | none => rw [hu] at h; simp at h
      | some q =>
        rw [hu] at h
        simp only [map_some, Option.some.injEq, Prod.mk.injEq] at h
        obtain ⟨h1, h2⟩ := h
        obtain ⟨ih1, ih2⟩ := ih (show unlink addr chain = some (m, q.2) by rw [hu, ← h1])
        refine ⟨ih1, ?_⟩
        rw [← h2]
        exact (List.Perm.cons n ih2).trans (List.Perm.swap m n q.2)

theorem unlink_none {addr : ℕ} (h : unlink addr chain = none) : ∀ n ∈ chain, n.addr ≠ addr := by
  induction chain with
  | nil => simp
  | cons n chain ih =>
    simp only [unlink] at h
    split_ifs at h with ha
    simp only [map_eq_none_iff] at h
    intro m hm
    rcases mem_cons.1 hm with rfl | hm
    · exact ha
    · exact ih h m hm

theorem removeFromTable_some {t' : Table V} (ht : Placed hash t) (h : removeFromTable t target = some (v, t')) :
    Placed hash t' ∧ t'.slots = t.slots ∧ (∀ j, t.bucket j = [] → t'.bucket j = []) ∧
      ∃ m ∈ t.nodes, m.addr = target.addr ∧ m.payload = v ∧ List.Perm (m :: t'.nodes) t.nodes := by
  unfold removeFromTable at h
  split_ifs at h with hs
  simp only [map_eq_some_iff] at h
  obtain ⟨⟨m, rest⟩, hu, heq⟩ := h
  simp only [Prod.mk.injEq] at heq
  obtain ⟨rfl, rfl⟩ := heq
  obtain ⟨ha, hperm⟩ := unlink_some hu
  have hb : bucketOf target.hashCode t.slots < t.slots := bucketOf_lt _ (by omega)
  have hmem : m ∈ t.bucket (bucketOf target.hashCode t.slots) := hperm.mem_iff.2 mem_cons_self
  refine ⟨ht.setBucket hb fun n hn => ?_, setBucket_slots _ _ _, fun j hj => ?_, m, mem_nodes_of_bucket hmem, ha, rfl, ?_⟩
  · have hn' : n ∈ t.bucket (bucketOf target.hashCode t.slots) := hperm.mem_iff.2 (mem_cons_of_mem m hn)
    exact ⟨ht.bucket _ n hn', ht.code n (mem_nodes_of_bucket hn')⟩
  · rw [setBucket_bucket t _ j _ hb]
    split_ifs with hjb
    · rw [← hjb, hj] at hmem
      simp at hmem
    · exact hj
  · have hp := setBucket_nodes_perm t _ rest hb
    have h2 : List.Perm ((t.setBucket (bucketOf target.hashCode t.slots) rest).nodes ++ m :: rest)
        (rest ++ t.nodes) := (List.Perm.append_left _ hperm.symm).trans hp
    have h3 : List.Perm ((m :: (t.setBucket (bucketOf target.hashCode t.slots) rest).nodes) ++ rest)
        (t.nodes ++ rest) := (perm_middle.symm.trans h2).trans perm_append_comm
    exact (perm_append_right_iff _).1 h3

theorem removeFromTable_none (ht : Placed hash t)
    (hcode : target.hashCode = hash target.key) (h : removeFromTable t target = none) : target ∉ t.nodes := by
  intro hmem
  have hb := ht.mem_bucket hmem
  rw [← hcode] at hb
  unfold removeFromTable at h
  split_ifs at h with hs
  · rw [bucket_of_ge t (by omega)] at hb
    simp at hb
  · simp only [map_eq_none_iff] at h
    exact unlink_none h target hb rfl

/-- what a removal through a live node pointer does -/
structure Removed (hash : Hasher) (h h' : HashTable V) (n : Node V) : Prop where
  inv : Inv hash h'
  nodes : List.Perm (n :: nodes h') (nodes h)
  count : h'.count = h.count - 1
  next : h'.nextAddr = h.nextAddr

theorem Inv.listed_perm (hi : Inv hash h) (hp : List.Perm (nodes h') (nodes h)) (hn : h'.nextAddr = h.nextAddr)
    (hc : h'.count = h.count) : Listed h' :=
  ⟨(hp.map _).nodup_iff.2 hi.keys, (hp.map _).nodup_iff.2 hi.addrs,
    fun n hn' => by rw [hn]; exact hi.fresh n (hp.mem_iff.1 hn'), by rw [hc, hi.counted, hp.length_eq]⟩

theorem Inv.listed_uncons (hi : Inv hash h) (hp : List.Perm (n :: nodes h') (nodes h)) (hn : h'.nextAddr = h.nextAddr)
    (hc : h'.count = h.count - 1) : Listed h' := by
  have h1 : ((n :: nodes h').map Node.key).Nodup := (hp.map _).nodup_iff.2 hi.keys
  have h2 : ((n :: nodes h').map Node.addr).Nodup := (hp.map _).nodup_iff.2 hi.addrs
  rw [map_cons, nodup_cons] at h1 h2
  refine ⟨h1.2, h2.2, fun m hm => by rw [hn]; exact hi.fresh m (hp.mem_iff.1 (mem_cons_of_mem n hm)), ?_⟩
  have hlength := hp.length_eq
  rw [length_cons, ← hi.counted] at hlength
  omega

theorem removeTarget_spec (hi : Inv hash h) (hn : n ∈ nodes h) :
    (removeTarget h (some n)).2 = some n.payload ∧ Removed hash h (removeTarget h (some n)).1 n := by
  have hcode : n.hashCode = hash n.key := by
    rcases mem_append.1 hn with hn | hn
    · exact hi.placed0.code n hn
    · exact hi.placed1.code n hn
  have hsame : ∀ m ∈ nodes h, m.addr = n.addr → m = n := fun m hm ha => inj_on_of_nodup_map hi.addrs hm hn ha
  cases h0 : removeFromTable h.table0 n with
  | some q =>
    have heq : removeTarget h (some n) = ({ h with table0 := q.2, count := h.count - 1 }, some q.1) := by
      simp [removeTarget, h0]
    obtain ⟨hp, hs, he, m, hm, ha, hv, hperm⟩ := removeFromTable_some hi.placed0 h0
    have hmn := hsame m (mem_append_left _ hm) ha
    subst hmn
    have hall : List.Perm (m :: (q.2.nodes ++ h.table1.nodes)) (nodes h) := List.Perm.append_right _ hperm
    rw [heq]
    have hl : Listed { h with table0 := q.2, count := h.count - 1 } := hi.listed_uncons hall rfl rfl
    refine ⟨by rw [hv], ⟨hl.inv (by rw [hs]; exact hi.slots0) hp hi.placed1 hi.idle (fun i hr => ?_), hall, rfl, rfl⟩⟩
    obtain ⟨m1, m2, m3⟩ := hi.moving i hr
    exact ⟨by rw [hs]; exact m1, m2, fun j hj => he j (m3 j hj)⟩
  | none =>
    have hn1 : n ∈ h.table1.nodes := by
      rcases mem_append.1 hn with hn | hn
      · exact absurd hn (removeFromTable_none hi.placed0 hcode h0)
      · exact hn
    cases h1 : removeFromTable h.table1 n with
    | none => exact absurd hn1 (removeFromTable_none hi.placed1 hcode h1)
    | some q =>
      have heq : removeTarget h (some n) = ({ h with table1 := q.2, count := h.count - 1 }, some q.1) := by
        simp [removeTarget, h0, h1]
      obtain ⟨hp, hs, he, m, hm, ha, hv, hperm⟩ := removeFromTable_some hi.placed1 h1
      have hmn := hsame m (mem_append_right _ hm) ha
      subst hmn
      have hall : List.Perm (m :: (h.table0.nodes ++ q.2.nodes)) (nodes h) :=
        perm_middle.symm.trans (List.Perm.append_left _ hperm)
      rw [heq]
      have hl : Listed { h with table1 := q.2, count := h.count - 1 } := hi.listed_uncons hall rfl rfl
      refine ⟨by rw [hv], ⟨hl.inv hi.slots0 hi.placed0 hp (fun hr => ?_) (fun i hr => ?_), hall, rfl, rfl⟩⟩
      · have hidle := hi.idle hr
        rw [hidle] at hm
        simp [Table.none, Table.nodes] at hm
      · obtain ⟨m1, m2, m3⟩ := hi.moving i hr
        exact ⟨m1, by rw [hs]; exact m2, m3⟩

theorem kvHashRemove_absent (hf : kvHashFind hash h key = none) : kvHashRemove hash h key = (h, none) := by
  simp [kvHashRemove, hf, removeTarget]

theorem Removed.lookup (hi : Inv hash h) (hr : Removed hash h h' n) (key : Bytes) :
    KvHash.lookup h' key = if key = n.key then none else KvHash.lookup h key :=
  lookup_uncons hi.keys hr.nodes key

/-! ## Insert -/

variable {alloc : Alloc}

theorem inv_create (hash : Hasher) : Inv hash (kvHashCreate : HashTable V) := by
  have hnodes : nodes (kvHashCreate : HashTable V) = [] := by
    simp [nodes, kvHashCreate, Table.none, Table.nodes]
  exact ⟨by simp [kvHashCreate, Table.slots, hashInitialSlots], Placed.replicate _ _, Placed.none _, fun _ => rfl,
    fun i hi => by simp [kvHashCreate] at hi, by simp [hnodes], by simp [hnodes], by simp [hnodes],
    by rw [hnodes]; rfl⟩

/-- an expansion keeps every node where it is and, at most, starts a rehash -/
theorem startExpand_spec {ok : Bool} (hi : Inv hash h) (he : startExpand ok h = some h') :
    Inv hash h' ∧ nodes h' = nodes h ∧ h'.nextAddr = h.nextAddr ∧ h'.count = h.count := by
  unfold startExpand at he
  split_ifs at he with hr hs
  · cases he
    exact ⟨hi, rfl, rfl, rfl⟩
  · have hidle : h.table1 = Table.none := hi.idle (by simpa [kvHashIsRehashing] using hr)
    simp only [map_eq_some_iff] at he
    obtain ⟨t, ht, rfl⟩ := he
    unfold tableAllocate at ht
    split_ifs at ht with hz
    cases ht
    have hnodes : nodes { h with table1 := ⟨List.replicate (h.table0.slots * 2) []⟩, rehashIndex := some 0 } = nodes h := by
      simp [nodes, hidle, Table.none, Table.nodes]
    have hl := hi.listed_perm (.of_eq hnodes) rfl rfl
    refine ⟨hl.inv hi.slots0 hi.placed0 (Placed.replicate _ _) (by simp) (fun i hr' => ?_), hnodes, rfl, rfl⟩
    cases hr'
    have := hi.slots0
    exact ⟨Nat.zero_le _, by simp only [Table.slots, length_replicate] at *; omega, by simp⟩

theorem maybeExpand_spec {ok : Bool} (hi : Inv hash h) (he : maybeExpand ok h = some h') :
    Inv hash h' ∧ nodes h' = nodes h ∧ h'.nextAddr = h.nextAddr ∧ h'.count = h.count := by
  unfold maybeExpand at he
  split_ifs at he
  · cases he; exact ⟨hi, rfl, rfl, rfl⟩
  · cases he; exact ⟨hi, rfl, rfl, rfl⟩
  · exact startExpand_spec hi he

/-- what a successful insertion of an absent key does -/
structure Inserted (hash : Hasher) (h h' : HashTable V) (n : Node V) : Prop where
  inv : Inv hash h'
  nodes : List.Perm (nodes h') (n :: nodes h)
  addr : n.addr = h.nextAddr

theorem Inv.listed_cons (hi : Inv hash h) (hk : ∀ m ∈ nodes h, m.key ≠ n.key) (ha : n.addr = h.nextAddr)
    (hp : List.Perm (nodes h') (n :: nodes h)) (hn : h'.nextAddr = h.nextAddr + 1) (hc : h'.count = h.count + 1) :
    Listed h' := by
  refine ⟨(hp.map Node.key).nodup_iff.2 ?_, (hp.map Node.addr).nodup_iff.2 ?_, fun m hm => ?_, ?_⟩
  · rw [map_cons, nodup_cons]
    exact ⟨fun hc => by obtain ⟨m, hm, he⟩ := List.mem_map.1 hc; exact hk m hm he, hi.keys⟩
  · rw [map_cons, nodup_cons]
    refine ⟨fun hc => ?_, hi.addrs⟩
    obtain ⟨m, hm, he⟩ := List.mem_map.1 hc
    exact absurd (hi.fresh m hm) (by omega)
  · rw [hn]
    rcases mem_cons.1 (hp.mem_iff.1 hm) with rfl | hm
    · omega
    · exact Nat.lt_succ_of_lt (hi.fresh m hm)
  · rw [hp.length_eq, hc, hi.counted, length_cons]

theorem insertNode_spec (hi : Inv hash h) (key : Bytes) (hk : ∀ n ∈ nodes h, n.key ≠ key) (v : V) :
    Inserted hash h (insertNode h key (hash key) v).1 ⟨h.nextAddr, key, hash key, v⟩ := by
  set n : Node V := ⟨h.nextAddr, key, hash key, v⟩ with hn
  cases hr : h.rehashIndex with
  | none =>
    have heq : (insertNode h key (hash key) v).1 =
        { h with table0 := h.table0.pushFront n, count := h.count + 1, nextAddr := h.nextAddr + 1 } := by
      simp [insertNode, kvHashIsRehashing, hr, hn]
    have hp : List.Perm (nodes (insertNode h key (hash key) v).1) (n :: nodes h) := by
      rw [heq]
      exact List.Perm.append_right _ (pushFront_nodes _ n hi.slots0)
    have hl := hi.listed_cons hk rfl hp (by rw [heq]) (by rw [heq])
    rw [heq] at hp hl ⊢
    refine ⟨hl.inv ?_ (hi.placed0.pushFront hi.slots0 rfl) hi.placed1 (fun _ => hi.idle hr) (fun i hc => ?_), hp, rfl⟩
    · simp only [pushFront_slots]; exact hi.slots0
    · simp [hr] at hc
  | some i =>
    obtain ⟨m1, m2, m3⟩ := hi.moving i hr
    have heq : (insertNode h key (hash key) v).1 =
        { h with table1 := h.table1.pushFront n, count := h.count + 1, nextAddr := h.nextAddr + 1 } := by
      simp [insertNode, kvHashIsRehashing, hr, hn]
    have hp : List.Perm (nodes (insertNode h key (hash key) v).1) (n :: nodes h) := by
      rw [heq]
      exact (List.Perm.append_left _ (pushFront_nodes _ n m2)).trans perm_middle
    have hl := hi.listed_cons hk rfl hp (by rw [heq]) (by rw [heq])
    rw [heq] at hp hl ⊢
    refine ⟨hl.inv hi.slots0 hi.placed0 (hi.placed1.pushFront m2 rfl) (fun hc => ?_) (fun j hj => ?_), hp, rfl⟩
    · simp [hr] at hc
    · have hij : i = j := Option.some.inj (hr.symm.trans hj)
      subst hij
      exact ⟨m1, by simp only [pushFront_slots]; exact m2, m3⟩

/-- the allocations an insertion asks for succeed: the second bucket array, when this insertion starts an expansion,
and the node; a size that `SIZE_MAX` cannot hold counts as a failed allocation -/
def InsertAllocates (alloc : Alloc) (h : HashTable V) (key : Bytes) : Prop :=
  (maybeExpand alloc.table h).isSome ∧ key.length ≠ sizeMax ∧ sizeofNode ≤ sizeMax - key.length - 1 ∧ alloc.node = true

instance (alloc : Alloc) (h : HashTable V) (key : Bytes) : Decidable (InsertAllocates alloc h key) :=
  inferInstanceAs (Decidable (_ ∧ _))

/-- insertion of a present key fails and changes nothing -/
theorem kvHashInsert_present (hi : Inv hash h) (alloc : Alloc) (v : V) (hp : ∃ n ∈ nodes h, n.key = key) :
    kvHashInsert hash alloc h key v = (h, none) := by
  -- the key is in one of the two tables, so one of the two look-ups finds it
  have hfound : (findInTable h.table0 key (hash key)).isSome ∨
      (kvHashIsRehashing h ∧ (findInTable h.table1 key (hash key)).isSome) := by
    obtain ⟨n, hn, hk⟩ := hp
    have hf := (kvHashFind_some hi key n).2 ⟨hn, hk⟩
    unfold kvHashFind at hf
    split at hf
    · rename_i m h0; exact Or.inl (by simp [h0])
    · split_ifs at hf with hr
      exact Or.inr ⟨hr, by simp [hf]⟩
  unfold kvHashInsert
  by_cases h1 : key.length = sizeMax
  · rw [if_pos h1]
  · rw [if_neg h1]
    by_cases h2 : (findInTable h.table0 key (hash key)).isSome
    · rw [if_pos h2]
    · rw [if_neg h2, if_pos (hfound.resolve_left h2)]

/-- insertion of an absent key succeeds when its allocations do -/
theorem kvHashInsert_absent (hi : Inv hash h) (v : V) (hk : ∀ n ∈ nodes h, n.key ≠ key) (ha : InsertAllocates alloc h key) :
    ∃ h' n, kvHashInsert hash alloc h key v = (h', some n) ∧ n = ⟨h.nextAddr, key, hash key, v⟩ ∧
      Inserted hash h h' n := by
  obtain ⟨a1, a2, a3, a4⟩ := ha
  obtain ⟨h1, he⟩ := isSome_iff_exists.1 a1
  obtain ⟨hi1, hn1, hna, _⟩ := maybeExpand_spec hi he
  have hf0 : findInTable h.table0 key (hash key) = none :=
    findInTable_absent fun n hn => hk n (mem_append_left _ hn)
  have hf1 : findInTable h.table1 key (hash key) = none :=
    findInTable_absent fun n hn => hk n (mem_append_right _ hn)
  have hspec := insertNode_spec hi1 key (by rw [hn1]; exact hk) v
  refine ⟨(insertNode h1 key (hash key) v).1, ⟨h.nextAddr, key, hash key, v⟩, ?_, rfl, ?_⟩
  · unfold kvHashInsert
    rw [if_neg a2, hf0, hf1, he]
    simp [a4, Nat.not_lt.2 a3, insertNode, hna]
  · rw [hna] at hspec
    exact ⟨hspec.inv, by rw [← hn1]; exact hspec.nodes, rfl⟩

theorem Inserted.lookup (hr : Inserted hash h h' n)
    (key : Bytes) : KvHash.lookup h' key = if key = n.key then some n.payload else KvHash.lookup h key :=
  lookup_cons hr.inv.keys hr.nodes key

/-- a failed insertion keeps every node; at most it has started an expansion -/
theorem kvHashInsert_failed (hi : Inv hash h) (hf : (kvHashInsert hash alloc h key v).2 = none) :
    Inv hash (kvHashInsert hash alloc h key v).1 ∧
      nodes (kvHashInsert hash alloc h key v).1 = nodes h ∧
      (kvHashInsert hash alloc h key v).1.nextAddr = h.nextAddr := by
  unfold kvHashInsert at hf ⊢
  split_ifs at hf ⊢
  all_goals first
    | exact ⟨hi, rfl, rfl⟩
    | skip
  all_goals cases he : maybeExpand alloc.table h with
    | none => exact ⟨hi, rfl, rfl⟩
    | some h' =>
      obtain ⟨e1, e2, e3, _⟩ := maybeExpand_spec hi he
      first
        | exact ⟨e1, e2, e3⟩
        | (rw [he] at hf; simp [insertNode] at hf)

/-- a successful insertion was one of an absent key -/
theorem kvHashInsert_some (hi : Inv hash h) (hs : kvHashInsert hash alloc h key v = (h', some n)) :
    (∀ m ∈ nodes h, m.key ≠ key) ∧ n = ⟨h.nextAddr, key, hash key, v⟩ ∧ Inserted hash h h' n := by
  have habsent : ∀ m ∈ nodes h, m.key ≠ key := by
    intro m hm hk
    rw [kvHashInsert_present hi alloc v ⟨m, hm, hk⟩] at hs
    simp at hs
  have hsnd : (kvHashInsert hash alloc h key v).2 = some n := by rw [hs]
  have halloc : InsertAllocates alloc h key := by
    unfold kvHashInsert at hsnd
    cases he : maybeExpand alloc.table h with
    | none =>
      rw [he] at hsnd
      split_ifs at hsnd
    | some h1 =>
      rw [he] at hsnd
      split_ifs at hsnd with c1 c2 c3 c4 c5
      exact ⟨by simp [he], c1, by omega, c5⟩
  obtain ⟨h1, n1, he, hn, hins⟩ := kvHashInsert_absent hi v habsent halloc
  rw [he, Prod.mk.injEq, Option.some.injEq] at hs
  obtain ⟨rfl, rfl⟩ := hs
  exact ⟨habsent, hn, hins⟩

/-! ## Writing a payload -/

variable (addr : ℕ) (f : Node V → Node V)

/-- the write of `kv_hash_node_set_payload` to the node at `addr` -/
def writePayload (v : V) (n : Node V) : Node V := if n.addr = addr then { n with payload := v } else n

@[simp] theorem writePayload_key (v : V) (n : Node V) : (writePayload addr v n).key = n.key := by
  unfold writePayload; split_ifs <;> rfl

@[simp] theorem writePayload_addr (v : V) (n : Node V) : (writePayload addr v n).addr = n.addr := by
  unfold writePayload; split_ifs <;> rfl

@[simp] theorem writePayload_hashCode (v : V) (n : Node V) : (writePayload addr v n).hashCode = n.hashCode := by
  unfold writePayload; split_ifs <;> rfl

theorem mapNodes_nodes (t : Table V) : (t.mapNodes f).nodes = t.nodes.map f := by
  simp [Table.mapNodes, Table.nodes, map_flatten]

theorem mapNodes_bucket (t : Table V) (i : ℕ) : (t.mapNodes f).bucket i = (t.bucket i).map f := by
  simp only [Table.mapNodes, Table.bucket, List.getElem?_map]
  cases t.buckets[i]? <;> rfl

theorem mapNodes_slots (t : Table V) : (t.mapNodes f).slots = t.slots := by
  simp [Table.mapNodes, Table.slots]

theorem Placed.writePayload (ht : Placed hash t) (addr : ℕ) (v : V) :
    Placed hash (t.mapNodes (KvHash.writePayload addr v)) := by
  refine ⟨fun i n hn => ?_, fun n hn => ?_⟩
  · rw [mapNodes_bucket] at hn
    obtain ⟨m, hm, rfl⟩ := List.mem_map.1 hn
    rw [mapNodes_slots, writePayload_hashCode]
    exact ht.bucket i m hm
  · rw [mapNodes_nodes] at hn
    obtain ⟨m, hm, rfl⟩ := List.mem_map.1 hn
    rw [writePayload_hashCode, writePayload_key]
    exact ht.code m hm

theorem kvHashNodeSetPayload_nodes (h : HashTable V) (n : Node V) (v : V) :
    nodes (kvHashNodeSetPayload h (some n) v) = (nodes h).map (writePayload n.addr v) := by
  simp only [nodes, map_append, ← mapNodes_nodes]
  rfl

theorem kvHashNodeSetPayload_inv (hi : Inv hash h) (n : Node V) (v : V) : Inv hash (kvHashNodeSetPayload h (some n) v) := by
  have hn := kvHashNodeSetPayload_nodes h n v
  refine ⟨?_, hi.placed0.writePayload n.addr v, hi.placed1.writePayload n.addr v, fun hr => ?_, fun i hr => ?_, ?_, ?_, ?_, ?_⟩
  · exact (mapNodes_slots _ _).symm ▸ hi.slots0
  · have hidle := hi.idle hr
    show h.table1.mapNodes (writePayload n.addr v) = Table.none
    rw [hidle]
    rfl
  · obtain ⟨m1, m2, m3⟩ := hi.moving i hr
    refine ⟨(mapNodes_slots _ _).symm ▸ m1, (mapNodes_slots _ _).symm ▸ m2, fun j hj => ?_⟩
    show (h.table0.mapNodes (writePayload n.addr v)).bucket j = []
    rw [mapNodes_bucket, m3 j hj]
    rfl
  · rw [hn, List.map_map]
    exact (map_congr_left (fun m _ => writePayload_key n.addr v m)).symm ▸ hi.keys
  · rw [hn, List.map_map]
    exact (map_congr_left (fun m _ => writePayload_addr n.addr v m)).symm ▸ hi.addrs
  · intro m hm
    rw [hn] at hm
    obtain ⟨m', hm', rfl⟩ := List.mem_map.1 hm
    rw [writePayload_addr]
    exact hi.fresh m' hm'
  · rw [hn, length_map]
    exact hi.counted

theorem kvHashNodeSetPayload_lookup (hi : Inv hash h) (hn : n ∈ nodes h) (v : V) (key : Bytes) :
    lookup (kvHashNodeSetPayload h (some n) v) key = if key = n.key then some v else lookup h key := by
  have hnodes := kvHashNodeSetPayload_nodes h n v
  -- the node written is the only one with its key
  have hsame : ∀ m ∈ nodes h, m.key = n.key → m = n := fun m hm he => inj_on_of_nodup_map hi.keys hm hn he
  ext w
  rw [lookup_some_iff (kvHashNodeSetPayload_inv hi n v), hnodes]
  by_cases hk : key = n.key
  · rw [if_pos hk]
    constructor
    · rintro ⟨m, hm, hmk, rfl⟩
      obtain ⟨m', hm', rfl⟩ := List.mem_map.1 hm
      rw [writePayload_key] at hmk
      rw [hsame m' hm' (hmk.trans hk)]
      simp [writePayload]
    · intro hv
      cases hv
      exact ⟨writePayload n.addr v n, List.mem_map.2 ⟨n, hn, rfl⟩, by rw [writePayload_key, hk], by simp [writePayload]⟩
  · rw [if_neg hk, lookup_some_iff hi]
    have hother : ∀ m ∈ nodes h, m.key = key → writePayload n.addr v m = m := by
      intro m hm hmk
      have : m.addr ≠ n.addr := fun ha => hk (by rw [← hmk, inj_on_of_nodup_map hi.addrs hm hn ha])
      simp [writePayload, this]
    constructor
    · rintro ⟨m, hm, hmk, rfl⟩
      obtain ⟨m', hm', rfl⟩ := List.mem_map.1 hm
      rw [writePayload_key] at hmk
      exact ⟨m', hm', hmk, by rw [hother m' hm' hmk]⟩
    · rintro ⟨m, hm, hmk, rfl⟩
      exact ⟨m, List.mem_map.2 ⟨m, hm, hother m hm hmk⟩, hmk, rfl⟩

/-! ## Rehash -/

variable {t0 t1 : Table V}

theorem foldl_pushFront (chain : List (Node V)) (ht : Placed hash t)
    (hs : 0 < t.slots) (hc : ∀ n ∈ chain, n.hashCode = hash n.key) :
    Placed hash (chain.foldl Table.pushFront t) ∧ (chain.foldl Table.pushFront t).slots = t.slots ∧
      List.Perm (chain.foldl Table.pushFront t).nodes (chain ++ t.nodes) := by
  induction chain generalizing t with
  | nil => exact ⟨ht, rfl, List.Perm.refl _⟩
  | cons n chain ih =>
    obtain ⟨h1, h2, h3⟩ := ih (ht.pushFront hs (hc n mem_cons_self)) (by rw [pushFront_slots]; exact hs)
      (fun m hm => hc m (mem_cons_of_mem n hm))
    refine ⟨h1, h2.trans (pushFront_slots t n), ?_⟩
    exact h3.trans ((List.Perm.append_left chain (pushFront_nodes t n hs)).trans perm_middle)

/-- the two tables in the middle of a rehash, with the buckets below `i` already moved -/
structure Moving (hash : Hasher) (t0 t1 : Table V) (i : ℕ) : Prop where
  placed0 : Placed hash t0
  placed1 : Placed hash t1
  le : i ≤ t0.slots
  slots1 : 0 < t1.slots
  empty : ∀ j < i, t0.bucket j = []

theorem Moving.skip (h : Moving hash t0 t1 i) (hi : i < t0.slots) (he : t0.bucket i = []) : Moving hash t0 t1 (i + 1) :=
  { h with
    le := hi
    empty := fun j hj => by
      rcases Nat.lt_succ_iff_lt_or_eq.1 hj with hj | rfl
      · exact h.empty j hj
      · exact he }

theorem Moving.move (h : Moving hash t0 t1 i) (hi : i < t0.slots) :
    Moving hash (t0.setBucket i []) ((t0.bucket i).foldl Table.pushFront t1) (i + 1) ∧
      List.Perm ((t0.setBucket i []).nodes ++ ((t0.bucket i).foldl Table.pushFront t1).nodes)
        (t0.nodes ++ t1.nodes) := by
  obtain ⟨f1, f2, f3⟩ := foldl_pushFront (t0.bucket i) h.placed1 h.slots1
    (fun n hn => h.placed0.code n (mem_nodes_of_bucket hn))
  refine ⟨⟨h.placed0.setBucket hi (by simp), f1, by rw [setBucket_slots]; exact hi, by rw [f2]; exact h.slots1,
    fun j hj => ?_⟩, ?_⟩
  · rw [setBucket_bucket t0 i j [] hi]
    split_ifs with hji
    · rfl
    · exact h.empty j (by omega)
  · have hp := setBucket_nodes_perm t0 i [] hi
    rw [nil_append] at hp
    refine (List.Perm.append_left _ f3).trans ?_
    rw [← append_assoc]
    exact List.Perm.append_right _ hp

theorem rehashLoop_spec (fuel : ℕ) (budget emptyBudget moved : ℕ) (h : Moving hash t0 t1 i) :
    let r := rehashLoop fuel t0 t1 i budget emptyBudget moved
    Moving hash r.1 r.2.1 r.2.2.1 ∧ r.1.slots = t0.slots ∧
      List.Perm (r.1.nodes ++ r.2.1.nodes) (t0.nodes ++ t1.nodes) := by
  induction fuel generalizing t0 t1 i budget emptyBudget moved with
  | zero => exact ⟨h, rfl, List.Perm.refl _⟩
  | succ fuel ih =>
    simp only [rehashLoop]
    split_ifs with hgo hskip
    · exact ih budget (emptyBudget - 1) moved (h.skip hgo.2 (by simpa using hskip.1))
    · obtain ⟨hm, hp⟩ := h.move hgo.2
      obtain ⟨r1, r2, r3⟩ := ih (budget - 1) emptyBudget (moved + 1) hm
      exact ⟨r1, r2.trans (setBucket_slots _ _ _), r3.trans hp⟩
    · exact ⟨h, rfl, List.Perm.refl _⟩

/-- what a rehash step does: the same nodes, in other buckets -/
structure Rehashed (hash : Hasher) (h h' : HashTable V) : Prop where
  inv : Inv hash h'
  nodes : List.Perm (nodes h') (nodes h)
  count : h'.count = h.count
  next : h'.nextAddr = h.nextAddr

theorem nodes_nil_of_buckets (h : ∀ j < t.slots, t.bucket j = []) : t.nodes = [] := by
  rw [eq_nil_iff_forall_not_mem]
  intro n hn
  obtain ⟨j, hj, hb⟩ := (mem_nodes_iff t n).1 hn
  rw [h j hj] at hb
  simp at hb

theorem kvHashRehashStep_spec (hi : Inv hash h) (budget : ℕ) :
    Rehashed hash h (kvHashRehashStep h budget).1 := by
  cases hr : h.rehashIndex with
  | none =>
    have heq : kvHashRehashStep h budget = (h, 0) := by simp [kvHashRehashStep, hr]
    rw [heq]
    exact ⟨hi, List.Perm.refl _, rfl, rfl⟩
  | some i =>
    obtain ⟨m1, m2, m3⟩ := hi.moving i hr
    set eb := if budget > sizeMax / 10 then sizeMax else budget * 10
    obtain ⟨hm, hs, hp⟩ := rehashLoop_spec (h.table0.slots - i) budget eb 0
      (⟨hi.placed0, hi.placed1, m1, m2, m3⟩ : Moving hash h.table0 h.table1 i)
    set r := rehashLoop (h.table0.slots - i) h.table0 h.table1 i budget eb 0 with hrdef
    by_cases hdone : r.2.2.1 = r.1.slots
    · have heq : (kvHashRehashStep h budget).1 = { h with table0 := r.2.1, table1 := Table.none, rehashIndex := none } := by
        simp only [kvHashRehashStep, hr]
        rw [← hrdef, if_pos hdone]
      have h0 : r.1.nodes = [] := nodes_nil_of_buckets (fun j hj => hm.empty j (by omega))
      have hperm : List.Perm (nodes { h with table0 := r.2.1, table1 := Table.none, rehashIndex := none }) (nodes h) := by
        rw [h0, nil_append] at hp
        simpa [nodes, Table.none, Table.nodes] using hp
      have hl := hi.listed_perm hperm rfl rfl
      rw [heq]
      exact ⟨hl.inv hm.slots1 hm.placed1 (Placed.none _) (fun _ => rfl) (by simp), hperm, rfl, rfl⟩
    · have heq : (kvHashRehashStep h budget).1 =
          { h with table0 := r.1, table1 := r.2.1, rehashIndex := some r.2.2.1 } := by
        simp only [kvHashRehashStep, hr]
        rw [← hrdef, if_neg hdone]
      rw [heq]
      have hl : Listed { h with table0 := r.1, table1 := r.2.1, rehashIndex := some r.2.2.1 } := hi.listed_perm hp rfl rfl
      refine ⟨hl.inv (by rw [hs]; exact hi.slots0) hm.placed0 hm.placed1 (by simp) (fun j hj => ?_), hp, rfl, rfl⟩
      simp only [Option.some.injEq] at hj
      subst hj
      exact ⟨hm.le, hm.slots1, hm.empty⟩

theorem Rehashed.lookup (hi : Inv hash h) (hr : Rehashed hash h h') (key : Bytes) : KvHash.lookup h' key = KvHash.lookup h key :=
  lookup_perm hi.keys hr.nodes key

/-! ## Traversal -/

variable {b : ℕ} {l : List (List (Node V))}

theorem scanBuckets_none (h : scanBuckets b l = none) : l.flatten = [] := by
  induction l generalizing b with
  | nil => rfl
  | cons c l ih =>
    cases c with
    | nil => simpa using ih (by simpa [scanBuckets] using h)
    | cons n chain => simp [scanBuckets] at h

theorem scanBuckets_some
    (h : scanBuckets b l = some (n, chain, i)) : b < i ∧ l.flatten = n :: (chain ++ (l.drop (i - b)).flatten) := by
  induction l generalizing b with
  | nil => simp [scanBuckets] at h
  | cons c l ih =>
    cases c with
    | nil =>
      obtain ⟨hb, hl⟩ := ih (by simpa [scanBuckets] using h)
      refine ⟨by omega, ?_⟩
      rw [show i - b = (i - (b + 1)) + 1 by omega, drop_succ_cons, flatten_cons, nil_append]
      exact hl
    | cons m c =>
      simp only [scanBuckets, Option.some.injEq, Prod.mk.injEq] at h
      obtain ⟨rfl, rfl, rfl⟩ := h
      exact ⟨by omega, by simp⟩

theorem scanBuckets_drop (h : scanBuckets b (l.drop b) = some (n, chain, i)) :
    (l.drop b).flatten = n :: (chain ++ (l.drop i).flatten) := by
  obtain ⟨hb, hl⟩ := scanBuckets_some h
  rw [hl, drop_drop, show b + (i - b) = i by omega]

/-- the nodes an iterator has not returned yet -/
def remaining (h : HashTable V) (it : Iterator V) : List (Node V) :=
  it.next ++
    if it.tableIndex = 0 then (h.table0.buckets.drop it.bucketIndex).flatten ++ h.table1.nodes
    else if it.tableIndex = 1 then (h.table1.buckets.drop it.bucketIndex).flatten
    else []

/-- the iterator returns the first of the remaining nodes and keeps the others -/
theorem kvHashIteratorNext_remaining (h : HashTable V) (it : Iterator V) :
    match kvHashIteratorNext h it with
    | none => remaining h it = []
    | some (n, it') => remaining h it = n :: remaining h it' := by
  obtain ⟨t, b, next⟩ := it
  cases next with
  | cons n rest => simp [kvHashIteratorNext, remaining]
  | nil =>
    by_cases ht : t = 0
    · subst ht
      cases h0 : scanBuckets b (h.table0.buckets.drop b) with
      | some p => simp [kvHashIteratorNext, remaining, h0, scanBuckets_drop h0]
      | none =>
        cases h1 : scanBuckets 0 (h.table1.buckets.drop 0) with
        | none =>
          have he := scanBuckets_none h1
          rw [drop_zero] at h1 he
          simp [kvHashIteratorNext, remaining, h0, h1, scanBuckets_none h0, Table.nodes, he]
        | some p =>
          have he := scanBuckets_drop h1
          rw [drop_zero] at h1 he
          simp [kvHashIteratorNext, remaining, h0, h1, scanBuckets_none h0, Table.nodes, he]
    · by_cases ht1 : t = 1
      · subst ht1
        cases h1 : scanBuckets b (h.table1.buckets.drop b) with
        | none => simp [kvHashIteratorNext, remaining, h1, scanBuckets_none h1]
        | some p => simp [kvHashIteratorNext, remaining, h1, scanBuckets_drop h1]
      · simp [kvHashIteratorNext, remaining, ht, ht1, show ¬ t ≤ 1 by omega]

theorem traverse_remaining (h : HashTable V) (fuel : ℕ) (it : Iterator V) (hf : (remaining h it).length < fuel) :
    traverse h fuel it = remaining h it := by
  induction fuel generalizing it with
  | zero => omega
  | succ fuel ih =>
    have hr := kvHashIteratorNext_remaining h it
    unfold traverse
    cases hn : kvHashIteratorNext h it with
    | none =>
      rw [hn] at hr
      exact hr.symm
    | some p =>
      rw [hn] at hr
      simp only at hr
      rw [hr, length_cons] at hf
      simp only [hr, ih p.2 (by omega)]

/-- a full traversal returns the nodes of the two tables, each once, and then NULL -/
theorem traverse_eq_nodes (hi : Inv hash h) {fuel : ℕ} (hf : h.count < fuel) : traverse h fuel kvHashIteratorBegin = nodes h := by
  have hr : remaining h kvHashIteratorBegin = nodes h := by simp [remaining, kvHashIteratorBegin, nodes, Table.nodes]
  rw [traverse_remaining h fuel _ (by rw [hr, ← hi.counted]; exact hf), hr]

/-! ## Runs against a finite map -/

/-- a call on the table; `removeNode` and `setPayload` take a node pointer, or NULL -/
inductive Call (V : Type)
  | insert (alloc : Alloc) (key : Bytes) (payload : V)
  | find (key : Bytes)
  | remove (key : Bytes)
  | removeNode (target : Option (Node V))
  | setPayload (target : Option (Node V)) (payload : V)
  | rehashStep (budget : ℕ)
deriving Repr

/-- what a caller of the map sees -/
inductive Reply (V : Type)
  | inserted (ok : Bool)
  | entry (e : Option (Bytes × V))
  | removed (payload : Option V)
  | done
deriving DecidableEq, Repr

def step (hash : Hasher) (h : HashTable V) : Call V → HashTable V × Reply V
  | .insert alloc key v =>
    let r := kvHashInsert hash alloc h key v
    (r.1, .inserted r.2.isSome)
  | .find key => (h, .entry ((kvHashFind hash h key).map fun n => (n.key, n.payload)))
  | .remove key =>
    let r := kvHashRemove hash h key
    (r.1, .removed r.2)
  | .removeNode target =>
    let r := kvHashRemoveNode h target
    (r.1, .removed r.2)
  | .setPayload target v => (kvHashNodeSetPayload h target v, .done)
  | .rehashStep budget => ((kvHashRehashStep h budget).1, .done)

def run (hash : Hasher) (h : HashTable V) : List (Call V) → HashTable V × List (Reply V)
  | [] => (h, [])
  | c :: calls =>
    let r := step hash h c
    let rest := run hash r.1 calls
    (rest.1, r.2 :: rest.2)

/-- a finite map from byte strings to payloads, as its look-up function -/
abbrev Map (V : Type) := Bytes → Option V

/-- the same call on the map -/
def mapStep (m : Map V) : Call V → Map V × Reply V
  | .insert _ key v => if (m key).isSome then (m, .inserted false) else (update m key (some v), .inserted true)
  | .find key => (m, .entry ((m key).map fun v => (key, v)))
  | .remove key => (update m key none, .removed (m key))
  | .removeNode none => (m, .removed none)
  | .removeNode (some target) => (update m target.key none, .removed (m target.key))
  | .setPayload none _ => (m, .done)
  | .setPayload (some target) v => (update m target.key (some v), .done)
  | .rehashStep _ => (m, .done)

def mapRun (m : Map V) : List (Call V) → Map V × List (Reply V)
  | [] => (m, [])
  | c :: calls =>
    let r := mapStep m c
    let rest := mapRun r.1 calls
    (rest.1, r.2 :: rest.2)

/-- a node pointer the caller may use: the node is still in the table (its payload may have been written since) -/
def Live (h : HashTable V) (target : Node V) : Prop :=
  ∃ n ∈ nodes h, n.addr = target.addr ∧ n.key = target.key ∧ n.hashCode = target.hashCode

/-- the caller's side of one call: its allocations succeed and its node pointer is NULL or live -/
def Admissible (h : HashTable V) : Call V → Prop
  | .insert alloc key _ => InsertAllocates alloc h key
  | .removeNode (some target) => Live h target
  | .setPayload (some target) _ => Live h target
  | _ => True

def AdmissibleRun (hash : Hasher) (h : HashTable V) : List (Call V) → Prop
  | [] => True
  | c :: calls => Admissible h c ∧ AdmissibleRun hash (step hash h c).1 calls

instance (h : HashTable V) (target : Node V) : Decidable (Live h target) :=
  inferInstanceAs (Decidable (∃ n ∈ nodes h, n.addr = target.addr ∧ n.key = target.key ∧ n.hashCode = target.hashCode))

instance (h : HashTable V) : (call : Call V) → Decidable (Admissible h call)
  | .insert alloc key _ => inferInstanceAs (Decidable (InsertAllocates alloc h key))
  | .removeNode (some target) | .setPayload (some target) _ => inferInstanceAs (Decidable (Live h target))
  | .find _ | .remove _ | .rehashStep _ | .removeNode none | .setPayload none _ => inferInstanceAs (Decidable True)

instance AdmissibleRun.decidable (hash : Hasher) :
    (h : HashTable V) → (calls : List (Call V)) → Decidable (AdmissibleRun hash h calls)
  | _, [] => inferInstanceAs (Decidable True)
  | h, c :: calls =>
    have := AdmissibleRun.decidable hash (step hash h c).1 calls
    inferInstanceAs (Decidable (Admissible h c ∧ AdmissibleRun hash (step hash h c).1 calls))

theorem lookup_isSome_iff (hi : Inv hash h) (key : Bytes) : (lookup h key).isSome ↔ ∃ n ∈ nodes h, n.key = key := by
  rw [isSome_iff_exists]
  constructor
  · rintro ⟨v, hv⟩
    obtain ⟨n, hn, hk, _⟩ := (lookup_some_iff hi key v).1 hv
    exact ⟨n, hn, hk⟩
  · rintro ⟨n, hn, hk⟩
    exact ⟨n.payload, (lookup_some_iff hi key _).2 ⟨n, hn, hk, rfl⟩⟩

theorem lookup_none_iff (hi : Inv hash h) (key : Bytes) :
    lookup h key = none ↔ ∀ n ∈ nodes h, n.key ≠ key := by
  rw [← not_isSome_iff_eq_none, lookup_isSome_iff hi]
  simp

/-- only the address and the hash code of the pointer are read -/
theorem removeTarget_congr (h : HashTable V) (ha : n.addr = target.addr)
    (hc : n.hashCode = target.hashCode) : removeTarget h (some target) = removeTarget h (some n) := by
  simp only [removeTarget, removeFromTable, ha, hc]

theorem setPayload_congr (h : HashTable V) (ha : n.addr = target.addr) (v : V) :
    kvHashNodeSetPayload h (some target) v = kvHashNodeSetPayload h (some n) v := by
  simp only [kvHashNodeSetPayload, ha]

theorem removeNode_refines (hi : Inv hash h) (hn : n ∈ nodes h) :
    Inv hash (removeTarget h (some n)).1 ∧ (removeTarget h (some n)).2 = lookup h n.key ∧
      lookup (removeTarget h (some n)).1 = update (lookup h) n.key none := by
  obtain ⟨hv, hr⟩ := removeTarget_spec hi hn
  refine ⟨hr.inv, ?_, funext fun key => ?_⟩
  · rw [hv, eq_comm, lookup_some_iff hi]
    exact ⟨n, hn, rfl, rfl⟩
  · rw [hr.lookup hi key, update_apply]

theorem step_refines (hi : Inv hash h) (c : Call V) (ha : Admissible h c) :
    Inv hash (step hash h c).1 ∧ lookup (step hash h c).1 = (mapStep (lookup h) c).1 ∧
      (step hash h c).2 = (mapStep (lookup h) c).2 := by
  cases c with
  | insert alloc key v =>
    by_cases hp : ∃ n ∈ nodes h, n.key = key
    · simp [step, mapStep, kvHashInsert_present hi alloc v hp, (lookup_isSome_iff hi key).2 hp, hi]
    · obtain ⟨h', n, heq, rfl, hr⟩ := kvHashInsert_absent hi v (fun n hn hk => hp ⟨n, hn, hk⟩) ha
      simp only [step, mapStep, heq, (lookup_isSome_iff hi key).not.2 hp, if_false, isSome_some, and_true,
        Bool.false_eq_true]
      refine ⟨hr.inv, funext fun k => ?_⟩
      rw [hr.lookup k, update_apply]
  | find key =>
    refine ⟨hi, rfl, ?_⟩
    simp only [step, mapStep, lookup_eq_find hi, Option.map_map, Reply.entry.injEq]
    cases hf : kvHashFind hash h key with
    | none => rfl
    | some n => simp [(kvHashFind_mem hf).2]
  | remove key =>
    cases hf : kvHashFind hash h key with
    | none =>
      have hl := (lookup_none_iff hi key).2 ((kvHashFind_none hi key).1 hf)
      simp only [step, mapStep, kvHashRemove_absent hf, hl, and_true]
      exact ⟨hi, (update_eq_self_iff.2 hl.symm).symm⟩
    | some n =>
      obtain ⟨hn, rfl⟩ := kvHashFind_mem hf
      obtain ⟨r1, r2, r3⟩ := removeNode_refines hi hn
      simp only [step, mapStep, kvHashRemove, hf]
      exact ⟨r1, r3, by rw [r2]⟩
  | removeNode target =>
    cases target with
    | none => exact ⟨hi, rfl, rfl⟩
    | some target =>
      obtain ⟨n, hn, h1, h2, h3⟩ := ha
      obtain ⟨r1, r2, r3⟩ := removeNode_refines hi hn
      simp only [step, mapStep, kvHashRemoveNode, removeTarget_congr h h1 h3, ← h2]
      exact ⟨r1, r3, by rw [r2]⟩
  | setPayload target v =>
    cases target with
    | none => exact ⟨hi, rfl, rfl⟩
    | some target =>
      obtain ⟨n, hn, h1, h2, _⟩ := ha
      simp only [step, mapStep, setPayload_congr h h1, ← h2, and_true]
      refine ⟨kvHashNodeSetPayload_inv hi n v, funext fun key => ?_⟩
      rw [kvHashNodeSetPayload_lookup hi hn, update_apply]
  | rehashStep budget =>
    have hr := kvHashRehashStep_spec hi budget
    exact ⟨hr.inv, funext fun key => hr.lookup hi key, rfl⟩

theorem run_refines (calls : List (Call V)) (hi : Inv hash h) (ha : AdmissibleRun hash h calls) :
    Inv hash (run hash h calls).1 ∧ lookup (run hash h calls).1 = (mapRun (lookup h) calls).1 ∧
      (run hash h calls).2 = (mapRun (lookup h) calls).2 := by
  induction calls generalizing h with
  | nil => exact ⟨hi, rfl, rfl⟩
  | cons c calls ih =>
    obtain ⟨s1, s2, s3⟩ := step_refines hi c ha.1
    obtain ⟨r1, r2, r3⟩ := ih s1 ha.2
    rw [s2] at r2 r3
    exact ⟨r1, r2, by simp only [run, mapRun, s3, r3]⟩

theorem lookup_create : lookup (kvHashCreate : HashTable V) = fun _ => none := by
  funext key
  rw [lookup_none_iff (inv_create (fun _ => 0))]
  simp [nodes, kvHashCreate, Table.none, Table.nodes]

theorem bound_eq_nodes (hi : Inv hash h) : {key | (lookup h key).isSome} = (((nodes h).map Node.key).toFinset : Set Bytes) := by
  ext key
  simp [lookup_isSome_iff hi key]

theorem bound_finite (hi : Inv hash h) : {key | (lookup h key).isSome}.Finite := by
  rw [bound_eq_nodes hi]
  exact Finset.finite_toSet _

/-- the number of nodes is the number of keys the map binds -/
theorem count_eq_ncard (hi : Inv hash h) :
    kvHashCount h = {key | (lookup h key).isSome}.ncard := by
  rw [bound_eq_nodes hi, Set.ncard_coe_finset, toFinset_card_of_nodup hi.keys, length_map]
  exact hi.counted

/-- **The table is a finite map.** For any hash function and any run of calls from an empty table, with any rehash
budgets in between, every reply is the map's, the count is the number of bound keys, and a traversal started in the
state reached stops, returns no key twice and returns exactly the bindings of the map. -/
theorem kvHash_refines_map (hash : Hasher) (calls : List (Call V)) (ha : AdmissibleRun hash kvHashCreate calls) :
    let r := run hash kvHashCreate calls
    let m := mapRun (fun _ => none) calls
    r.2 = m.2 ∧ kvHashCount r.1 = {key | (m.1 key).isSome}.ncard ∧
      ∀ fuel > kvHashCount r.1,
        ((traverse r.1 fuel kvHashIteratorBegin).map Node.key).Nodup ∧
        ∀ key v, m.1 key = some v ↔ ∃ n ∈ traverse r.1 fuel kvHashIteratorBegin, n.key = key ∧ n.payload = v := by
  obtain ⟨r1, r2, r3⟩ := run_refines calls (inv_create hash) ha
  rw [lookup_create] at r2 r3
  refine ⟨r3, by rw [← r2]; exact count_eq_ncard r1, fun fuel hf => ?_⟩
  rw [traverse_eq_nodes r1 hf, ← r2]
  exact ⟨r1.keys, fun key v => lookup_some_iff r1 key v⟩

def firstByte (key : Bytes) : UInt64 := (key.headD 0).toUInt64

/-- seventeen keys, the last of which starts an expansion, and then calls on either side of the bucket that is moved next -/
def expandingCalls : List (Call ℕ) :=
  (List.range 17).map (fun i => .insert ⟨true, true⟩ [i.toUInt8] i) ++
    [.rehashStep 1, .find [0], .find [9], .find [16], .insert ⟨true, true⟩ [9] 7, .setPayload (some ⟨9, [9], 9, 9⟩) 12, .find [9],
      .remove [16], .remove [15]]

theorem kvHash_refines_map_expanding :
    kvHashIsRehashing (run firstByte kvHashCreate expandingCalls).1 = true ∧
      (run firstByte kvHashCreate expandingCalls).2 = (mapRun (fun _ => none) expandingCalls).2 :=
  ⟨by decide +kernel, (kvHash_refines_map firstByte expandingCalls (by decide +kernel)).1⟩

end KvHash

end StoreSystem
