/-
The ordered engines behind one interface (`src/engine/object.c`, `ordered_*`): a sorted set keeps its members in a skip
list or in a red-black tree and dispatches on the engine it was created with.

Results: `Rep` for whichever engine is in use, and one lemma per operation. A node is prepared, given its member and
inserted; to change a score it is detached, given the new score and inserted again. `rangeLoop_spec`: the loop of
`kv_object_zset_range` visits consecutive nodes of the sequence.
-/
import StoreSystem.Engine.RbTree
import StoreSystem.Engine.SkipList

namespace StoreSystem

open List
open Rb (RbTree)
open Skip (SkipList)

/-! ## Model -/

inductive ZsetEngine
  | skiplist
  | rbtree
deriving DecidableEq, Repr

/-- the `order` union of a sorted set, tagged by its engine -/
inductive Order
  | skiplist (list : SkipList)
  | rbtree (tree : RbTree)

namespace Order

def engine : Order → ZsetEngine
  | skiplist _ => .skiplist
  | rbtree _ => .rbtree

def create : ZsetEngine → Order
  | .skiplist => skiplist Skip.skiplistInit
  | .rbtree => rbtree Rb.rbtreeInit

def item : Order → ℕ → Item
  | skiplist s => s.item
  | rbtree t => t.item

end Order

def skipNodeMemory (level : ℕ) : ℕ := 40 + level * 16

def sizeofRbNode : ℕ := 64

def orderedBaseMemory : Order → ℕ
  | .skiplist _ => skipNodeMemory Skip.zskiplistMaxlevel
  | .rbtree _ => sizeofRbNode

variable (o : Order) (node : ℕ)

def orderedPrepareNode (score : Score) : Order :=
  match o with
  | .skiplist s => .skiplist (Skip.skiplistPrepareNode s node score)
  | .rbtree t => .rbtree (Rb.rbtreePrepareNode t node score)

def orderedNodeMemory : ℕ :=
  match o with
  | .skiplist s => skipNodeMemory (s.levelCount node)
  | .rbtree _ => sizeofRbNode

def orderedSetMember (member : Bytes) : Order :=
  match o with
  | .skiplist s => .skiplist (Skip.skiplistSetMember s node member)
  | .rbtree t => .rbtree (Rb.rbtreeSetMember t node member)

def orderedInsertNode : Order :=
  match o with
  | .skiplist s => .skiplist (Skip.skiplistInsertNode s node)
  | .rbtree t => .rbtree (Rb.rbtreeInsertNode t node)

def orderedSetScore (score : Score) : Order :=
  match o with
  | .skiplist s => .skiplist (Skip.skiplistSetScore s node score)
  | .rbtree t => .rbtree (Rb.rbtreeSetScore t node score)

def orderedDetachNode : Order :=
  match o with
  | .skiplist s => .skiplist (Skip.skiplistDetachNode s node)
  | .rbtree t => .rbtree (Rb.rbtreeDetachNode t node)

/-- `skiplist_by_rank` or `rbtree_by_rank` -/
def orderedByRank (rank : ℕ) : Option ℕ :=
  match o with
  | .skiplist s => Skip.skiplistByRank s rank
  | .rbtree t => Rb.rbtreeByRank t rank

/-- `levels[0].forward` or `rb_successor`, with `nil` read as the end -/
def orderedNext : Option ℕ :=
  match o with
  | .skiplist s => (s.lvl 0).forward node
  | .rbtree t => if Rb.rbSuccessor t node = 0 then none else some (Rb.rbSuccessor t node)

variable {C : Type} {p q : List ℕ}

/-- call a visitor on every element until one call fails -/
def visit {α : Type} (callback : C → α → C × Bool) : C → List α → C × Bool
  | c, [] => (c, true)
  | c, x :: xs =>
    let (c, ok) := callback c x
    if ok then visit callback c xs else (c, false)

/-- the loop of `kv_object_zset_range`: visit at most `left` nodes and count them; a failing visitor ends it -/
def rangeLoop (o : Order) (callback : C → Item → C × Bool) : ℕ → Option ℕ → C → ℕ → C × Option ℕ
  | 0, _, c, count => (c, some count)
  | _ + 1, none, c, count => (c, some count)
  | left + 1, some node, c, count =>
    let (c, ok) := callback c (o.item node)
    if ok then rangeLoop o callback left (orderedNext o node) c (count + 1) else (c, none)

/-! ## Representation -/

variable {xs : List ℕ} {o : Order} {node : ℕ}

namespace Order

/-- the engine holds the nodes `xs`, in order -/
def Rep : Order → List ℕ → Prop
  | skiplist s, xs => Skip.Rep s xs
  | rbtree t, xs => Rb.Rep t xs

/-- a node that can be inserted -/
def Prepared : Order → ℕ → Prop
  | skiplist s, node => Skip.Fresh s node
  | rbtree t, node => Rb.Fresh t.mem node

/-- a node that was detached and waits for its new score -/
def Reusable : Order → ℕ → Prop
  | skiplist s, node => Skip.Fresh s node
  | rbtree _, node => node ≠ 0

theorem rep_create (e : ZsetEngine) : Rep (create e) [] := by
  cases e with
  | skiplist => exact Skip.rep_init
  | rbtree => exact Rb.rep_init

theorem Rep.nodup (h : Rep o xs) : xs.Nodup := by
  cases o with
  | skiplist s => exact (nodup_cons.1 (Skip.Rep.nodup h)).2
  | rbtree t => exact Rb.Rep.nodup h

theorem Rep.sorted (h : Rep o xs) : Sorted o.item xs := by
  cases o with
  | skiplist s => exact Skip.Rep.sorted h
  | rbtree t => exact Rb.Rep.sorted h

end Order

open StoreSystem.Order

/-! ## Operations -/

/-- a node is prepared, whatever happens to the ones in the sequence -/
theorem orderedPrepareNode_spec (h : Rep o xs) (h0 : node ≠ 0) (hn : node ∉ xs) (score : Score) :
    Rep (orderedPrepareNode o node score) xs ∧ Prepared (orderedPrepareNode o node score) node ∧
      (orderedPrepareNode o node score).item = Function.update o.item node ⟨score, []⟩ := by
  cases o with
  | skiplist s =>
    exact ⟨Skip.skiplistPrepareNode_rep h h0 hn score, Skip.skiplistPrepareNode_fresh s h0 score, rfl⟩
  | rbtree t => exact ⟨Rb.rbtreePrepareNode_rep h h0 hn score, Rb.resetNode_fresh t.mem h0, rfl⟩

theorem orderedSetMember_spec (h : Rep o xs) (hp : Prepared o node) (hn : node ∉ xs) (member : Bytes) :
    Rep (orderedSetMember o node member) xs ∧ Prepared (orderedSetMember o node member) node ∧
      (orderedSetMember o node member).item = Function.update o.item node { o.item node with member := member } := by
  cases o with
  | skiplist s => exact ⟨Skip.Rep.setItem h hn _, ⟨hp.ne, hp.pos, hp.le⟩, rfl⟩
  | rbtree t => exact ⟨Rb.Rep.setItem h hn _, hp, rfl⟩

theorem orderedSetScore_spec (h : Rep o xs) (hr : Reusable o node) (hn : node ∉ xs) (score : Score) :
    Rep (orderedSetScore o node score) xs ∧ Prepared (orderedSetScore o node score) node ∧
      (orderedSetScore o node score).item = Function.update o.item node { o.item node with score := score } := by
  cases o with
  | skiplist s => exact ⟨Skip.Rep.setItem h hn _, ⟨hr.ne, hr.pos, hr.le⟩, rfl⟩
  | rbtree t =>
    exact ⟨Rb.Rep.reset (Rb.Rep.setItem h hn _) hr hn, Rb.resetNode_fresh t.mem hr, rfl⟩

theorem orderedInsertNode_spec (h : Rep o xs) (hp : Prepared o node) (hn : node ∉ xs)
    (hne : ∀ a ∈ xs, (o.item a).key ≠ (o.item node).key) :
    (∃ p q, xs = p ++ q ∧ Rep (orderedInsertNode o node) (p ++ node :: q)) ∧ (orderedInsertNode o node).item = o.item := by
  cases o with
  | skiplist s => exact ⟨Skip.skiplistInsertNode_rep h hp hn hne, Skip.skiplistInsertNode_item s node⟩
  | rbtree t => exact ⟨Rb.rbtreeInsertNode_rep h hp hn hne, rfl⟩

theorem orderedDetachNode_spec (h : Rep o (p ++ node :: q)) :
    Rep (orderedDetachNode o node) (p ++ q) ∧ Reusable (orderedDetachNode o node) node ∧
      (orderedDetachNode o node).item = o.item := by
  cases o with
  | skiplist s =>
    exact ⟨Skip.skiplistDetachNode_rep h, Skip.skiplistDetachNode_fresh h, Skip.skiplistDetachNode_item s node⟩
  | rbtree t =>
    have hnd := Rep.nodup h
    have hp : node ∉ p := fun hc => (nodup_append.1 hnd).2.2 node hc node mem_cons_self rfl
    have := Rb.rbtreeDetachNode_rep h (show node ∈ p ++ node :: q by simp)
    rw [erase_append_right _ hp, erase_cons_head] at this
    exact ⟨this, Rb.Rep.ne_zero h (by simp), rfl⟩

/-! ## Ranges -/

theorem orderedByRank_spec (h : Rep o xs) (rank : ℕ) : orderedByRank o rank = xs[rank]? := by
  cases o with
  | skiplist s => exact Skip.skiplistByRank_spec h rank
  | rbtree t => exact Rb.rbtreeByRank_spec h rank

theorem orderedNext_spec {a : ℕ} (h : Rep o (p ++ a :: q)) : orderedNext o a = q.head? := by
  cases o with
  | skiplist s => exact Skip.forward_spec h
  | rbtree t =>
    have hs := Rb.rbSuccessor_spec h
    rw [orderedNext, hs]
    cases q with
    | nil => rfl
    | cons b q =>
      have hb : b ≠ 0 := Rb.Rep.ne_zero h (by simp)
      simp [hb]

/-- the loop visits the next `left` nodes of the sequence, as far as there are that many -/
theorem rangeLoop_spec (callback : C → Item → C × Bool) (left : ℕ) (h : Rep o (p ++ q)) (c : C) (count : ℕ) :
    rangeLoop o callback left q.head? c count =
      ((visit callback c ((q.take left).map o.item)).1,
        if (visit callback c ((q.take left).map o.item)).2 then some (count + (q.take left).length) else none) := by
  induction left generalizing p q c count with
  | zero => simp [rangeLoop, visit]
  | succ left ih =>
    cases q with
    | nil => simp [rangeLoop, visit]
    | cons a q =>
      have hnext := orderedNext_spec h
      rw [show p ++ a :: q = (p ++ [a]) ++ q by simp] at h
      simp only [List.head?_cons, rangeLoop, take_succ_cons, map_cons, visit, length_cons]
      cases hok : (callback c (o.item a)).2 with
      | false => simp
      | true =>
        simp only [if_true]
        rw [hnext, ih h]
        simp only [Nat.add_assoc, Nat.add_comm 1]

end StoreSystem
