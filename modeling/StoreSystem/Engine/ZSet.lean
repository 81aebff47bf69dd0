/-
Sorted sets (`src/engine/object.c`, the ZSet part): a dictionary from members to their entries and an ordered engine with
one node per member. The dictionary answers scores and the length, the engine answers ranges.

The functions work on the set and on the memory the object charges for it. Allocation can fail; a call carries what its
allocations do. NaN is no `Score`, so the `isnan` check has no counterpart.

Results: `Inv` ties the two halves together: the nodes of the engine are those the entries point to and carry the entry's
score and member. Each operation keeps it and acts on the map from members to scores as a map operation.
-/
import StoreSystem.Engine.Ordered

namespace StoreSystem

open List Function
open KvHash (HashTable Node kvHashCreate kvHashRehashStep kvHashFind kvHashInsert kvHashCount nodes writePayload)

/-! ## Model -/

/-- `struct zmember` -/
structure ZMember where
  orderNode : ℕ
  score : Score
deriving DecidableEq, Repr

def sizeofZmember : ℕ := 24

/-- `struct zset`; `nextNode` is the address the next order node gets -/
structure ZSet where
  members : HashTable ZMember
  order : Order
  nextNode : ℕ

namespace ZSet

/-- what the allocations of an insertion do: the entry, the order node, and those of the dictionary -/
structure Alloc where
  entry : Bool
  node : Bool
  dict : KvHash.Alloc
deriving DecidableEq, Repr

/-- the two results `*added` and `*changed` -/
structure SetResult where
  added : Bool
  changed : Bool
deriving DecidableEq, Repr

def create (engine : ZsetEngine) : ZSet := ⟨kvHashCreate, Order.create engine, 1⟩

variable (hash : Hasher) (s : ZSet) (member : Bytes)

/-- change the score of a present member: detach its node, write the score and insert it again -/
def rescore (n : Node ZMember) (score : Score) : ZSet :=
  let order := orderedDetachNode s.order n.payload.orderNode
  let members := KvHash.kvHashNodeSetPayload s.members (some n) ⟨n.payload.orderNode, score⟩
  let order := orderedSetScore order n.payload.orderNode score
  let order := orderedInsertNode order n.payload.orderNode
  { s with members := members, order := order }

/-- `kv_object_zset_add` on a sorted set; `none` for the return value -1 -/
def add (alloc : Alloc) (s : ZSet) (usage : ℕ) (score : Score) (member : Bytes) :
    ZSet × ℕ × Option SetResult :=
  let s := { s with members := (kvHashRehashStep s.members 1).1 }
  match kvHashFind hash s.members member with
  | some n =>
    if n.payload.score.num = score.num then (s, usage, some ⟨false, false⟩)
    else (s.rescore n score, usage, some ⟨false, true⟩)
  | none =>
    -- the random level is drawn even when the entry could not be allocated
    let prepared := s.nextNode
    let s := { s with order := orderedPrepareNode s.order prepared score, nextNode := s.nextNode + 1 }
    if alloc.entry && alloc.node then
      match kvHashInsert hash alloc.dict s.members member ⟨prepared, score⟩ with
      | (members, none) => ({ s with members := members }, usage, none)
      | (members, some n) =>
        let order := orderedInsertNode (orderedSetMember s.order prepared n.key) prepared
        ({ s with members := members, order := order },
          usage + KvHash.kvHashIndexMemory members + KvHash.kvHashNodeMemoryForKey member.length + sizeofZmember
            + orderedNodeMemory order prepared - KvHash.kvHashIndexMemory s.members,
          some ⟨true, true⟩)
    else (s, usage, none)

/-- `kv_object_zset_score` on a sorted set -/
def score : ZSet × Option Score :=
  let s := { s with members := (kvHashRehashStep s.members 1).1 }
  (s, (kvHashFind hash s.members member).map fun n => n.payload.score)

/-- `kv_object_zset_remove` on a sorted set -/
def remove (usage : ℕ) (member : Bytes) : ZSet × ℕ × Bool :=
  match kvHashFind hash s.members member with
  | none => (s, usage, false)
  | some n =>
    let charge := KvHash.kvHashNodeMemoryForKey member.length + sizeofZmember + orderedNodeMemory s.order n.payload.orderNode
    let order := orderedDetachNode s.order n.payload.orderNode
    ({ s with members := (KvHash.kvHashRemoveNode s.members (some n)).1, order := order }, usage - charge, true)

/-- `kv_object_zset_length` on a sorted set -/
def length : ℕ := kvHashCount s.members

/-- the first and the last index of a range, `none` when it is empty -/
def rangeBounds (length : ℕ) (start stop : ℤ) : Option (ℕ × ℕ) :=
  if length = 0 then none
  else
    let start := if start < 0 then start + length else start
    let stop := if stop < 0 then stop + length else stop
    let start := if start < 0 then 0 else start
    if stop < 0 ∨ start ≥ length ∨ start > stop then none
    else
      let stop := if stop ≥ length then (length : ℤ) - 1 else stop
      some (start.toNat, stop.toNat)

/-- `kv_object_zset_range` on a sorted set: the visitor's state and the number of visits, `none` when it failed -/
def range {C : Type} (start stop : ℤ) (callback : C → Item → C × Bool) (c : C) : C × Option ℕ :=
  match rangeBounds s.length start stop with
  | none => (c, some 0)
  | some (first, last) => rangeLoop s.order callback (last - first + 1) (orderedByRank s.order first) c 0

/-! ## Invariant and view -/

/-- the dictionary and the engine hold the same members with the same scores; `xs` are the order nodes -/
structure Inv (hash : Hasher) (s : ZSet) (xs : List ℕ) : Prop where
  dict : KvHash.Inv hash s.members
  order : s.order.Rep xs
  perm : xs.Perm ((nodes s.members).map fun n => n.payload.orderNode)
  items : ∀ n ∈ nodes s.members, s.order.item n.payload.orderNode = ⟨n.payload.score, n.key⟩
  fresh : ∀ x ∈ xs, x < s.nextNode
  next_pos : 0 < s.nextNode

/-- the map from members to scores -/
def view : Option Score := (KvHash.lookup s.members member).map ZMember.score

variable {hash : Hasher} {s : ZSet} {xs : List ℕ}

theorem inv_create (engine : ZsetEngine) : Inv hash (create engine) [] := by
  refine ⟨KvHash.inv_create hash, Order.rep_create engine, ?_, ?_, by simp, Nat.one_pos⟩
  · exact List.Perm.refl _
  · intro n hn
    exact absurd hn (by simp [create, nodes, kvHashCreate, KvHash.Table.nodes, KvHash.Table.none])

theorem view_create (engine : ZsetEngine) : view (create engine) = fun _ => none := by
  funext member
  have := congrFun (KvHash.lookup_create (V := ZMember)) member
  rw [view, create, this]
  rfl

/-- a rehash step moves nodes between the tables and nothing else -/
theorem Inv.rehash (h : Inv hash s xs) (budget : ℕ) :
    Inv hash { s with members := (kvHashRehashStep s.members budget).1 } xs ∧
      view { s with members := (kvHashRehashStep s.members budget).1 } = view s := by
  have hr := KvHash.kvHashRehashStep_spec h.dict budget
  refine ⟨⟨hr.inv, h.order, h.perm.trans (hr.nodes.map _).symm, fun n hn => h.items n (hr.nodes.mem_iff.1 hn), h.fresh, h.next_pos⟩, ?_⟩
  funext member
  rw [view, view, hr.lookup h.dict]

variable {n : Node ZMember}

theorem Inv.mem_order (h : Inv hash s xs) (hn : n ∈ nodes s.members) :
    n.payload.orderNode ∈ xs :=
  h.perm.mem_iff.2 (mem_map.2 ⟨n, hn, rfl⟩)

/-- two entries never share an order node -/
theorem Inv.inj (h : Inv hash s xs) {m : Node ZMember} (hm : m ∈ nodes s.members)
    (hn : n ∈ nodes s.members) (he : m.payload.orderNode = n.payload.orderNode) : m = n :=
  inj_on_of_nodup_map (h.perm.nodup_iff.1 h.order.nodup) hm hn he

/-- the item of a node is that of some entry -/
theorem Inv.item_of_mem (h : Inv hash s xs) {x : ℕ} (hx : x ∈ xs) :
    ∃ n ∈ nodes s.members, n.payload.orderNode = x ∧ s.order.item x = ⟨n.payload.score, n.key⟩ := by
  obtain ⟨n, hn, rfl⟩ := mem_map.1 (h.perm.mem_iff.1 hx)
  exact ⟨n, hn, rfl, h.items n hn⟩

theorem key_ne_of_member {a b : Item} (h : a.member ≠ b.member) : a.key ≠ b.key := fun hk => h (Item.member_of_key hk)

/-- changing a score keeps the invariant and changes one value of the map -/
theorem rescore_spec (h : Inv hash s xs) (hn : n ∈ nodes s.members) (sc : Score) :
    (∃ ys, Inv hash (s.rescore n sc) ys) ∧ view (s.rescore n sc) = update (view s) n.key (some sc) := by
  obtain ⟨p, q, hxs⟩ := append_of_mem (h.mem_order hn)
  have hrep := h.order
  rw [hxs] at hrep
  obtain ⟨d1, d2, d3⟩ := orderedDetachNode_spec hrep
  have hnd := h.order.nodup
  rw [hxs] at hnd
  have hnot : n.payload.orderNode ∉ p ++ q := (nodup_middle.1 hnd |> nodup_cons.1).1
  obtain ⟨s1, s2, s3⟩ := orderedSetScore_spec d1 d2 hnot sc
  have hitem : ∀ m ∈ nodes s.members, m ≠ n →
      (orderedSetScore (orderedDetachNode s.order n.payload.orderNode) n.payload.orderNode sc).item m.payload.orderNode
        = ⟨m.payload.score, m.key⟩ := by
    intro m hm hmn
    rw [s3, update_of_ne (fun hc => hmn (h.inj hm hn hc)), d3]
    exact h.items m hm
  have hself : (orderedSetScore (orderedDetachNode s.order n.payload.orderNode) n.payload.orderNode sc).item n.payload.orderNode
      = ⟨sc, n.key⟩ := by
    rw [s3, update_self, d3, h.items n hn]
  have hkeys : ∀ a ∈ p ++ q,
      ((orderedSetScore (orderedDetachNode s.order n.payload.orderNode) n.payload.orderNode sc).item a).key ≠
        ((orderedSetScore (orderedDetachNode s.order n.payload.orderNode) n.payload.orderNode sc).item n.payload.orderNode).key := by
    intro a ha
    have hax : a ∈ xs := by
      rw [hxs]
      exact perm_middle.mem_iff.2 (mem_cons_of_mem _ ha)
    obtain ⟨m, hm, rfl, _⟩ := h.item_of_mem hax
    have hmn : m ≠ n := by
      rintro rfl
      exact hnot ha
    rw [hitem m hm hmn, hself]
    exact key_ne_of_member fun hk => hmn (inj_on_of_nodup_map h.dict.keys hm hn hk)
  obtain ⟨⟨p', q', hpq, i1⟩, i2⟩ := orderedInsertNode_spec s1 s2 hnot hkeys
  have hnodes := KvHash.kvHashNodeSetPayload_nodes s.members n ⟨n.payload.orderNode, sc⟩
  have hperm : (p' ++ n.payload.orderNode :: q').Perm xs := by
    rw [hxs]
    exact perm_middle.trans ((hpq ▸ List.Perm.refl _ : List.Perm (_ :: (p' ++ q')) _).trans perm_middle.symm)
  have horder : ∀ m ∈ nodes s.members,
      (writePayload n.addr ⟨n.payload.orderNode, sc⟩ m).payload.orderNode = m.payload.orderNode := by
    intro m hm
    unfold writePayload
    split_ifs with ha
    · rw [inj_on_of_nodup_map h.dict.addrs hm hn ha]
    · rfl
  refine ⟨⟨p' ++ n.payload.orderNode :: q', ?_⟩, ?_⟩
  · refine ⟨KvHash.kvHashNodeSetPayload_inv h.dict n _, i1, ?_, ?_, fun x hx => h.fresh x (hperm.mem_iff.1 hx), h.next_pos⟩
    · refine hperm.trans (h.perm.trans ?_)
      simp only [rescore, hnodes, map_map]
      exact List.Perm.of_eq (map_congr_left fun m hm => (horder m hm).symm)
    · intro m hm
      simp only [rescore, hnodes] at hm
      obtain ⟨m, hm', rfl⟩ := mem_map.1 hm
      replace hm := hm'
      rw [horder m hm, KvHash.writePayload_key]
      simp only [rescore, i2]
      by_cases hmn : m = n
      · subst hmn
        rw [hself]
        simp [writePayload]
      · have hne : m.addr ≠ n.addr := fun ha => hmn (inj_on_of_nodup_map h.dict.addrs hm hn ha)
        rw [hitem m hm hmn, writePayload, if_neg hne]
  · funext member
    simp only [view, rescore, KvHash.kvHashNodeSetPayload_lookup h.dict hn]
    by_cases hk : member = n.key
    · subst hk
      simp
    · simp [hk, view]

theorem mem_of_find (h : Inv hash s xs) {member : Bytes} (hf : kvHashFind hash s.members member = some n) :
    n ∈ nodes s.members ∧ n.key = member ∧ view s member = some n.payload.score := by
  obtain ⟨hn, hk⟩ := (KvHash.kvHashFind_some h.dict member n).1 hf
  refine ⟨hn, hk, ?_⟩
  rw [view, (KvHash.lookup_some_iff h.dict member n.payload).2 ⟨n, hn, hk, rfl⟩]
  rfl

theorem view_of_find_none (h : Inv hash s xs) {member : Bytes}
    (hf : kvHashFind hash s.members member = none) : view s member = none := by
  rw [view, KvHash.lookup_eq_find h.dict, hf]
  rfl

/-- a node that was prepared for an insertion that then failed leaves no trace -/
theorem Inv.prepare (h : Inv hash s xs) (sc : Score) :
    Inv hash { s with order := orderedPrepareNode s.order s.nextNode sc, nextNode := s.nextNode + 1 } xs ∧
      s.nextNode ∉ xs ∧ (orderedPrepareNode s.order s.nextNode sc).Prepared s.nextNode ∧
      (orderedPrepareNode s.order s.nextNode sc).item s.nextNode = ⟨sc, []⟩ := by
  have hn : s.nextNode ∉ xs := fun hc => lt_irrefl _ (h.fresh _ hc)
  obtain ⟨p1, p2, p3⟩ := orderedPrepareNode_spec h.order (Nat.pos_iff_ne_zero.1 h.next_pos) hn sc
  refine ⟨⟨h.dict, p1, h.perm, fun n hm => ?_, fun x hx => Nat.lt_succ_of_lt (h.fresh x hx), Nat.succ_pos _⟩, hn, p2, ?_⟩
  · rw [p3, update_of_ne (fun hc : n.payload.orderNode = s.nextNode => hn (hc ▸ h.mem_order hm))]
    exact h.items n hm
  · rw [p3, update_self]

/-- the map after an addition: a member keeps its score when the new one is numerically the same -/
def addTo (m : Bytes → Option Score) (sc : Score) (member : Bytes) : Bytes → Option Score :=
  match m member with
  | some old => if old.num = sc.num then m else update m member (some sc)
  | none => update m member (some sc)

/-- what an addition reports on a map -/
def addResult (m : Bytes → Option Score) (sc : Score) (member : Bytes) : SetResult :=
  match m member with
  | some old => ⟨false, old.num ≠ sc.num⟩
  | none => ⟨true, true⟩

/-- the new member enters both halves -/
theorem attach_spec (h : Inv hash s xs) {members : HashTable ZMember} (sc : Score) (member : Bytes)
    (habsent : ∀ m ∈ nodes s.members, m.key ≠ member) (hkey : n.key = member)
    (hpay : n.payload = ⟨s.nextNode, sc⟩) (hnew : KvHash.Inserted hash s.members members n) :
    (∃ ys, Inv hash { s with
      members := members
      order := orderedInsertNode (orderedSetMember (orderedPrepareNode s.order s.nextNode sc) s.nextNode n.key) s.nextNode
      nextNode := s.nextNode + 1 } ys) ∧
    ∀ k, (KvHash.lookup members k).map ZMember.score = if k = member then some sc else view s k := by
  obtain ⟨p1, p2, p3, p4⟩ := h.prepare sc
  obtain ⟨m1, m2, m3⟩ := orderedSetMember_spec p1.order p3 p2 n.key
  set o := orderedSetMember (orderedPrepareNode s.order s.nextNode sc) s.nextNode n.key with ho
  have hitem : ∀ m ∈ nodes s.members, o.item m.payload.orderNode = ⟨m.payload.score, m.key⟩ := by
    intro m hm
    rw [m3, update_of_ne (fun hc : m.payload.orderNode = s.nextNode => p2 (hc ▸ h.mem_order hm))]
    exact p1.items m hm
  have hself : o.item s.nextNode = ⟨sc, n.key⟩ := by
    rw [m3, update_self, p4]
  have hkeys : ∀ a ∈ xs, (o.item a).key ≠ (o.item s.nextNode).key := by
    intro a ha
    obtain ⟨m, hm, rfl, _⟩ := h.item_of_mem ha
    rw [hitem m hm, hself]
    exact key_ne_of_member (by rw [hkey]; exact habsent m hm)
  obtain ⟨⟨p, q, hpq, i1⟩, i2⟩ := orderedInsertNode_spec m1 m2 p2 hkeys
  have hperm : (p ++ s.nextNode :: q).Perm (s.nextNode :: xs) := by
    rw [hpq]
    exact perm_middle
  refine ⟨⟨p ++ s.nextNode :: q, hnew.inv, i1, ?_, fun m hm => ?_, fun x hx => ?_, Nat.succ_pos _⟩, fun k => ?_⟩
  · refine hperm.trans (List.Perm.trans ?_ (hnew.nodes.map _).symm)
    rw [map_cons, hpay]
    exact h.perm.cons _
  · rw [i2]
    rcases mem_cons.1 (hnew.nodes.mem_iff.1 hm) with rfl | hm
    · rw [hpay]
      exact hself
    · exact hitem m hm
  · rcases mem_cons.1 (hperm.mem_iff.1 hx) with rfl | hx
    · exact Nat.lt_succ_self _
    · exact p1.fresh x hx
  · rw [hnew.lookup, hkey, hpay]
    by_cases hk : k = member
    · simp [hk]
    · simp [hk, view]

/-- the allocations an addition of an absent member asks for succeed -/
def AddAllocates (alloc : Alloc) (s : ZSet) (member : Bytes) : Prop :=
  alloc.entry = true ∧ alloc.node = true ∧
    KvHash.InsertAllocates alloc.dict (kvHashRehashStep s.members 1).1 member

instance (alloc : Alloc) (s : ZSet) (member : Bytes) : Decidable (AddAllocates alloc s member) :=
  inferInstanceAs (Decidable (_ ∧ _))

/-- **Addition** acts on the map as `addTo`, or fails for want of memory and leaves the map alone. -/
theorem add_spec (h : Inv hash s xs) (alloc : Alloc) (usage : ℕ) (sc : Score) (member : Bytes) :
    (∃ ys, Inv hash (s.add hash alloc usage sc member).1 ys) ∧
      (((s.add hash alloc usage sc member).2.2 = none ∧ view (s.add hash alloc usage sc member).1 = view s ∧
          ¬ AddAllocates alloc s member) ∨
        ((s.add hash alloc usage sc member).2.2 = some (addResult (view s) sc member) ∧
          view (s.add hash alloc usage sc member).1 = addTo (view s) sc member)) := by
  obtain ⟨hre, hview⟩ := h.rehash 1
  rw [← hview]
  unfold add AddAllocates
  set s1 : ZSet := { s with members := (kvHashRehashStep s.members 1).1 } with hs1
  simp only
  cases hf : kvHashFind hash s1.members member with
  | some n =>
    obtain ⟨hn, hk, hv⟩ := mem_of_find hre hf
    simp only [addTo, addResult, hv]
    by_cases hnum : n.payload.score.num = sc.num
    · simp only [hnum, if_true]
      exact ⟨⟨xs, hre⟩, Or.inr ⟨by simp, trivial⟩⟩
    · simp only [hnum, if_false]
      obtain ⟨r1, r2⟩ := rescore_spec hre hn sc
      exact ⟨r1, Or.inr ⟨by simp [hnum], by rw [r2, hk]⟩⟩
  | none =>
    have hv := view_of_find_none hre hf
    obtain ⟨p1, _⟩ := hre.prepare sc
    by_cases halloc : (alloc.entry && alloc.node) = true
    · simp only [halloc, if_true]
      cases hins : kvHashInsert hash alloc.dict s1.members member ⟨s1.nextNode, sc⟩ with
      | mk members r =>
        cases r with
        | none =>
          have hnone : (kvHashInsert hash alloc.dict s1.members member ⟨s1.nextNode, sc⟩).2 = none := by rw [hins]
          have hfail := KvHash.kvHashInsert_failed hre.dict hnone
          rw [hins] at hfail
          obtain ⟨f1, f2, _⟩ := hfail
          dsimp only at f1 f2 ⊢
          refine ⟨⟨xs, f1, p1.order, by rw [f2]; exact p1.perm, by rw [f2]; exact p1.items, p1.fresh, p1.next_pos⟩,
            Or.inl ⟨rfl, ?_, fun ha => ?_⟩⟩
          · funext k
            simp only [view, KvHash.lookup, f2]
          · have habsent := KvHash.kvHashFind_none hre.dict member |>.1 hf
            obtain ⟨_, _, he, _⟩ := KvHash.kvHashInsert_absent hre.dict (⟨s1.nextNode, sc⟩ : ZMember) habsent ha.2.2
            rw [he] at hnone
            simp at hnone
        | some n =>
          obtain ⟨habsent, hnode, hnew⟩ := KvHash.kvHashInsert_some hre.dict hins
          obtain ⟨a1, a2⟩ := attach_spec hre sc member habsent (by rw [hnode]) (by rw [hnode]) hnew
          dsimp only
          refine ⟨a1, Or.inr ⟨by simp [addResult, hv], ?_⟩⟩
          have hadd : addTo (view s1) sc member = update (view s1) member (some sc) := by simp [addTo, hv]
          rw [hadd]
          funext k
          rw [view, a2, update_apply]
    · simp only [halloc]
      refine ⟨⟨xs, p1⟩, Or.inl ⟨rfl, rfl, fun ha => halloc ?_⟩⟩
      rw [ha.1, ha.2.1]
      rfl

theorem score_spec (h : Inv hash s xs) (member : Bytes) :
    Inv hash (s.score hash member).1 xs ∧ view (s.score hash member).1 = view s ∧
      (s.score hash member).2 = view s member := by
  obtain ⟨hre, hview⟩ := h.rehash 1
  refine ⟨hre, hview, ?_⟩
  rw [← hview, view, KvHash.lookup_eq_find hre.dict, Option.map_map]
  rfl

theorem remove_spec (h : Inv hash s xs) (usage : ℕ) (member : Bytes) : (∃ ys, Inv hash (s.remove hash usage member).1 ys) ∧
      view (s.remove hash usage member).1 = update (view s) member none ∧
      (s.remove hash usage member).2.2 = (view s member).isSome := by
  unfold remove
  cases hf : kvHashFind hash s.members member with
  | none =>
    have hv := view_of_find_none h hf
    refine ⟨⟨xs, h⟩, ?_, by simp [hv]⟩
    rw [← hv, update_eq_self]
  | some n =>
    obtain ⟨hn, hk, hv⟩ := mem_of_find h hf
    obtain ⟨_, hrem⟩ := KvHash.removeTarget_spec h.dict hn
    obtain ⟨p, q, hxs⟩ := append_of_mem (h.mem_order hn)
    have hrep := h.order
    rw [hxs] at hrep
    obtain ⟨d1, _, d3⟩ := orderedDetachNode_spec hrep
    have hperm : List.Perm (n.payload.orderNode :: (p ++ q)) xs := by
      rw [hxs]
      exact perm_middle.symm
    refine ⟨⟨p ++ q, hrem.inv, d1, ?_, fun m hm => ?_, fun x hx => ?_, h.next_pos⟩, ?_, by simp [hv]⟩
    · have := hperm.trans (h.perm.trans (hrem.nodes.map _).symm)
      rw [map_cons] at this
      exact this.cons_inv
    · rw [d3]
      exact h.items m (hrem.nodes.mem_iff.1 (mem_cons_of_mem _ hm))
    · exact h.fresh x (hperm.mem_iff.1 (mem_cons_of_mem _ hx))
    · funext k
      have := hrem.lookup h.dict k
      simp only [KvHash.kvHashRemoveNode, view, this, update_apply, ← hk]
      split_ifs <;> rfl

/-! ## Ranges -/

variable {α : Type}

/-- the elements whose index lies between two bounds, both included; a negative bound counts from the end -/
def slice (xs : List α) (start stop : ℤ) : List α :=
  let first := if start < 0 then start + xs.length else start
  let last := if stop < 0 then stop + xs.length else stop
  (xs.zipIdx.filter fun p => first ≤ p.2 ∧ p.2 ≤ last).map Prod.fst

theorem filter_zipIdx (a b : ℤ) (xs : List α) (k : ℕ) : ((xs.zipIdx k).filter fun p => a ≤ p.2 ∧ p.2 ≤ b).map Prod.fst =
      (xs.drop (a - k).toNat).take (b + 1 - max a k).toNat := by
  induction xs generalizing k with
  | nil => simp
  | cons x xs ih =>
    rw [zipIdx_cons, filter_cons]
    by_cases h1 : a ≤ k
    · have hdrop : (a - (k : ℤ)).toNat = 0 := by omega
      have hdrop' : (a - ((k + 1 : ℕ) : ℤ)).toNat = 0 := by omega
      by_cases h2 : (k : ℤ) ≤ b
      · obtain ⟨j, hj⟩ : ∃ j, (b + 1 - max a k).toNat = j + 1 := ⟨(b - k).toNat, by omega⟩
        have hj' : (b + 1 - max a ((k + 1 : ℕ) : ℤ)).toNat = j := by omega
        rw [if_pos (by simp [h1, h2]), map_cons, ih, hdrop, hdrop', hj, hj', drop_zero, drop_zero,
          take_succ_cons]
      · have hz : (b + 1 - max a k).toNat = 0 := by omega
        have hz' : (b + 1 - max a ((k + 1 : ℕ) : ℤ)).toNat = 0 := by omega
        rw [if_neg (by simp [h2]), ih, hz, hz', take_zero, take_zero]
    · obtain ⟨j, hj⟩ : ∃ j, (a - (k : ℤ)).toNat = j + 1 := ⟨(a - k - 1).toNat, by omega⟩
      have hj' : (a - ((k + 1 : ℕ) : ℤ)).toNat = j := by omega
      have ht : (b + 1 - max a ((k + 1 : ℕ) : ℤ)).toNat = (b + 1 - max a k).toNat := by omega
      rw [if_neg (by simp [h1]), ih, hj, hj', ht, drop_succ_cons]

theorem slice_eq (xs : List α) (start stop : ℤ) :
    slice xs start stop =
      match rangeBounds xs.length start stop with
      | none => []
      | some (first, last) => (xs.drop first).take (last - first + 1) := by
  unfold slice rangeBounds
  simp only
  have key := filter_zipIdx (if start < 0 then start + xs.length else start) (if stop < 0 then stop + xs.length else stop) xs 0
  rw [key]
  by_cases h0 : xs.length = 0
  · rw [length_eq_zero_iff] at h0
    simp [h0]
  · rw [if_neg h0]
    generalize (if start < 0 then start + (xs.length : ℤ) else start) = a
    generalize (if stop < 0 then stop + (xs.length : ℤ) else stop) = b
    by_cases hempty : b < 0 ∨ (if a < 0 then 0 else a) ≥ xs.length ∨ (if a < 0 then 0 else a) > b
    · rw [if_pos hempty]
      dsimp only
      rcases hempty with h | h | h
      · rw [show (b + 1 - max a ((0 : ℕ) : ℤ)).toNat = 0 by omega, take_zero]
      · split_ifs at h with ha
        · omega
        · rw [drop_eq_nil_of_le (by omega), take_nil]
      · rw [show (b + 1 - max a ((0 : ℕ) : ℤ)).toNat = 0 by split_ifs at h <;> omega, take_zero]
    · rw [if_neg hempty]
      dsimp only
      push Not at hempty
      obtain ⟨h1, h2, h3⟩ := hempty
      have hdrop : (a - ((0 : ℕ) : ℤ)).toNat = (if a < 0 then 0 else a).toNat := by split_ifs <;> omega
      rw [hdrop]
      by_cases hb : b ≥ (xs.length : ℤ)
      · rw [if_pos hb, take_of_length_le, take_of_length_le]
        · rw [length_drop]
          omega
        · rw [length_drop]
          split_ifs at h2 h3 ⊢ <;> omega
      · rw [if_neg hb]
        congr 1
        split_ifs at h2 h3 ⊢ <;> omega

theorem Inv.length_eq (h : Inv hash s xs) : s.length = (xs.map s.order.item).length := by
  rw [length_map, h.perm.length_eq, length_map, length, kvHashCount, h.dict.counted]

/-- **A range** visits the slice of the sequence of items between its bounds. -/
theorem range_spec (h : Inv hash s xs) {C : Type} (start stop : ℤ) (callback : C → Item → C × Bool) (c : C) :
    s.range start stop callback c =
      ((visit callback c (slice (xs.map s.order.item) start stop)).1,
        if (visit callback c (slice (xs.map s.order.item) start stop)).2
        then some (slice (xs.map s.order.item) start stop).length else none) := by
  unfold range
  rw [h.length_eq, slice_eq]
  cases hb : rangeBounds (xs.map s.order.item).length start stop with
  | none => simp [visit]
  | some b =>
    obtain ⟨first, last⟩ := b
    have hrank : orderedByRank s.order first = (xs.drop first).head? := by
      rw [orderedByRank_spec h.order, List.head?_drop]
    have hrep := h.order
    rw [← take_append_drop first xs] at hrep
    simp only
    rw [hrank, rangeLoop_spec callback _ hrep, map_take, map_drop, Nat.zero_add]
    simp

/-- the sorted list of the entries of a map -/
structure Enumerates (m : Bytes → Option Score) (items : List Item) : Prop where
  sorted : items.Pairwise fun a b => a.key < b.key
  mem : ∀ member sc, (⟨sc, member⟩ : Item) ∈ items ↔ m member = some sc

theorem Inv.enumerates (h : Inv hash s xs) : Enumerates (view s) (xs.map s.order.item) := by
  refine ⟨pairwise_map.2 h.order.sorted, fun member sc => ?_⟩
  rw [mem_map]
  constructor
  · rintro ⟨x, hx, he⟩
    obtain ⟨n, hn, rfl, hi⟩ := h.item_of_mem hx
    rw [hi, Item.mk.injEq] at he
    rw [view, (KvHash.lookup_some_iff h.dict member n.payload).2 ⟨n, hn, he.2, rfl⟩, Option.map_some, he.1]
  · intro hv
    obtain ⟨v, hl, rfl⟩ := Option.map_eq_some_iff.1 hv
    obtain ⟨n, hn, rfl, rfl⟩ := (KvHash.lookup_some_iff h.dict member v).1 hl
    exact ⟨n.payload.orderNode, h.mem_order hn, h.items n hn⟩

/-- a map has one sorted list of entries -/
theorem Enumerates.unique {m : Bytes → Option Score} {l l' : List Item} (h : Enumerates m l) (h' : Enumerates m l') : l = l' := by
  have hirr : ∀ l : List Item, l.Pairwise (fun a b => a.key < b.key) → l.Nodup := by
    intro l hl
    refine hl.imp ?_
    rintro a b hlt rfl
    exact lt_irrefl _ hlt
  have hperm : l.Perm l' := by
    refine (perm_ext_iff_of_nodup (hirr l h.sorted) (hirr l' h'.sorted)).2 fun a => ?_
    rw [show a = ⟨a.score, a.member⟩ from rfl, h.mem, h'.mem]
  exact hperm.eq_of_pairwise (fun a b _ _ h1 h2 => absurd (h1.trans h2) (lt_irrefl _)) h.sorted h'.sorted

end ZSet

end StoreSystem
