/-
The self-check of sorted sets (`src/engine/object.c`, `validate_rb_node`, `validate_skiplist`, `kv_object_zset_validate`).

The recursion and the loop of the source follow links; each takes the length of the set as its bound, and running out of it
counts as a failed check. Address 0 is `tree->nil` and the header of a skip list, so the check for a missing sentinel has no
counterpart.

Results: what `Rb.Rep` and `Skip.Rep` say of an engine is what the checks look at (`validateRbtree_rep`,
`validateSkiplist_rep`), and a span of a skip list counts links of the lowest level (`span_baseLinks`). So every sorted set that
calls of add and remove can build passes its check (`zset_validates`).
-/
import StoreSystem.Engine.Object

namespace StoreSystem

open List hiding set

/-- the order check of both engines: the node does not come after the one visited before it -/
def outOfOrder (item : ℕ → Item) (previous : Option ℕ) (node : ℕ) : Bool :=
  match previous with
  | some previous => compareOrder (item previous) (item node) ≠ .lt
  | none => false

variable {p q : List ℕ}

theorem Sorted.in_order {item : ℕ → Item} {node : ℕ} (h : Sorted item (p ++ node :: q)) :
    outOfOrder item p.getLast? node = false := by
  cases hp : p.getLast? with
  | none => rfl
  | some previous =>
    have hlt := (pairwise_append.1 h).2.2 previous (List.mem_of_getLast? hp) node mem_cons_self
    rw [← compareOrder_lt_iff] at hlt
    simp [outOfOrder, hlt]

/-! ## Red-black trees -/

variable {xs : List ℕ}

namespace Rb

open RedBlack

/-- `rb_validation_t` -/
structure RbValidation where
  previous : Option ℕ
  count : ℕ
  valid : Bool
deriving DecidableEq, Repr

/-- clear `valid` when a check fails -/
def RbValidation.check (v : RbValidation) (failed : Prop) [Decidable failed] : RbValidation :=
  if failed then { v with valid := false } else v

/-- `validate_rb_node`: the validation, the number of nodes and the black height -/
def validateRbNode (t : RbTree) : ℕ → ℕ → ℕ → RbValidation → RbValidation × ℕ × ℕ
  | 0, _, _, v => ({ v with valid := false }, 0, 0)
  | fuel + 1, node, parent, v =>
    if node = 0 then (v, 0, 1)
    else
      let v := v.check (t.mem.parent node ≠ parent)
      let left := validateRbNode t fuel (t.mem.child .left node) node v
      let v := left.1.check (outOfOrder t.item left.1.previous node = true)
      let v := { v with previous := some node, count := v.count + 1 }
      let right := validateRbNode t fuel (t.mem.child .right node) node v
      let v := right.1.check (t.mem.color node = .red ∧
        (t.mem.color (t.mem.child .left node) ≠ .black ∨ t.mem.color (t.mem.child .right node) ≠ .black))
      let v := v.check (left.2.2 ≠ right.2.2 ∨ t.mem.aug node ≠ left.2.1 + right.2.1 + 1)
      (v, left.2.1 + right.2.1 + 1, left.2.2 + (if t.mem.color node = .black then 1 else 0))

/-- the red-black branch of `kv_object_zset_validate`; `members` is the size of the dictionary -/
def validateRbtree (t : RbTree) (members : ℕ) : Bool :=
  if t.mem.color 0 ≠ .black ∨ (t.mem.root ≠ 0 ∧ (t.mem.color t.mem.root ≠ .black ∨ t.mem.parent t.mem.root ≠ 0)) then false
  else
    let r := validateRbNode t (t.length + 1) t.mem.root 0 ⟨none, 0, true⟩
    r.1.valid ∧ r.1.count = r.2.1 ∧ r.2.1 = t.length ∧ r.2.1 = members

theorem RbValidation.check_passed {failed : Prop} [Decidable failed] (h : ¬ failed) (v : RbValidation) : v.check failed = v :=
  if_neg h

/-- **The recursion of the check** over a subtree that is in order: every check passes, and it counts nodes and black nodes. -/
theorem validateRbNode_spec {t : RbTree} (hnil : t.mem.color 0 = .black) {s : Shape} {p n fuel : ℕ}
    (hf : s.size < fuel) (ht : IsTree t.mem s) (hup : Up t.mem p s) (hs : Sized subtreeSize t.mem.aug s)
    (hpaint : Painted t.mem.color s) (hrb : RB s n) (v : RbValidation) (hsorted : Sorted t.item (v.previous.toList ++ s.inorder)) :
    validateRbNode t fuel s.root p v =
      (⟨(v.previous.toList ++ s.inorder).getLast?, v.count + s.size, v.valid⟩, s.size, n + 1) := by
  induction s generalizing p n fuel v with
  | leaf =>
    obtain ⟨fuel, rfl⟩ := Nat.exists_eq_succ_of_ne_zero (Nat.ne_of_gt (Nat.zero_lt_of_lt hf))
    obtain rfl : n = 0 := hrb
    have hlast : v.previous.toList.getLast? = v.previous := by cases v.previous <;> rfl
    simp [validateRbNode, Shape.root, Shape.inorder, Shape.size, hlast]
  | node l a c r ihl ihr =>
    obtain ⟨fuel, rfl⟩ := Nat.exists_eq_succ_of_ne_zero (Nat.ne_of_gt (Nat.zero_lt_of_lt hf))
    obtain ⟨ha, ⟨cl, ul, tl⟩, cr, ur, tr⟩ := ht
    obtain ⟨hsize, sl, sr⟩ := hs
    have hparent : t.mem.parent a = p := hup ha
    simp only [Shape.size] at hf
    -- the parts of the sequence that the two recursive calls see
    have hwhole : Sorted t.item ((v.previous.toList ++ l.inorder) ++ a :: r.inorder) := by
      rw [append_assoc]
      exact hsorted
    have hleft : Sorted t.item (v.previous.toList ++ l.inorder) := (pairwise_append.1 hwhole).1
    have hright : Sorted t.item ((some a).toList ++ r.inorder) := (pairwise_append.1 hwhole).2.1
    -- the colours of the children and the black nodes below them
    obtain ⟨hca, hpl, hpr⟩ := hpaint
    have hroot : ∀ {s : Shape}, Painted t.mem.color s → t.mem.color s.root = s.color := by
      intro s hs
      cases s with
      | leaf => exact hnil
      | node l b c r => exact hs.1
    obtain ⟨m, hl, hr, hred, hheight⟩ : ∃ m, RB l m ∧ RB r m ∧
        ¬ (t.mem.color a = .red ∧ (t.mem.color l.root ≠ .black ∨ t.mem.color r.root ≠ .black)) ∧
        m + 1 + (if t.mem.color a = .black then 1 else 0) = n + 1 := by
      rw [hca, hroot hpl, hroot hpr]
      cases c with
      | red =>
        obtain ⟨⟨hcl, hcr⟩, hl, hr⟩ := hrb
        exact ⟨n, hl, hr, by simp [hcl, hcr], by simp⟩
      | black =>
        obtain ⟨m, rfl, hl, hr⟩ := hrb
        exact ⟨m, hl, hr, by simp, by simp⟩
    rw [show (Shape.node l a c r).root = a from rfl, validateRbNode, if_neg ha]
    dsimp only
    rw [RbValidation.check_passed (not_not_intro hparent), cl, ihl (by omega) tl ul sl hpl hl v hleft]
    dsimp only
    have hin : ¬ outOfOrder t.item (v.previous.toList ++ l.inorder).getLast? a = true := by
      rw [hwhole.in_order]
      exact Bool.false_ne_true
    rw [RbValidation.check_passed hin, cr, ihr (by omega) tr ur sr hpr hr ⟨some a, v.count + l.size + 1, v.valid⟩ hright]
    dsimp only
    have hcounted : ¬ (m + 1 ≠ m + 1 ∨ t.mem.aug a ≠ l.size + r.size + 1) := by
      rintro (hc | hc)
      · exact hc rfl
      · exact hc hsize
    rw [RbValidation.check_passed hred, RbValidation.check_passed hcounted, hheight]
    have hlast : ((some a).toList ++ r.inorder).getLast? = (v.previous.toList ++ (l.inorder ++ a :: r.inorder)).getLast? := by
      rw [← append_assoc, List.getLast?_append_of_ne_nil _ (cons_ne_nil _ _)]
      rfl
    have hcount : v.count + l.size + 1 + r.size = v.count + (l.size + r.size + 1) := by omega
    rw [hlast, hcount]
    rfl

/-- **The check of a red-black tree** passes on every tree that holds a sequence. -/
theorem validateRbtree_rep {t : RbTree} (h : Rep t xs) : validateRbtree t xs.length = true := by
  obtain ⟨s, hs, rfl, hblack, n, hrb⟩ := h.tree
  have hroot : t.mem.root = s.root := hs.focus.ctx
  have hlen : s.size = t.length := by rw [h.length, Shape.size_eq_length]
  have hchecked := validateRbNode_spec hs.nil (Nat.lt_succ_self s.size) hs.focus.tree hs.focus.up hs.sized hs.painted hrb
    ⟨none, 0, true⟩ h.sorted
  unfold validateRbtree
  rw [if_neg]
  · dsimp only
    rw [hroot, ← hlen]
    change decide (_ ∧ _) = true
    rw [show validateRbNode t (s.size + 1) s.root 0 ⟨none, 0, true⟩ = _ from hchecked]
    simp [Shape.size_eq_length]
  · rintro (hnil | ⟨hne, hcolor | hparent⟩)
    · exact hnil hs.nil
    · rw [hroot] at hcolor
      exact hcolor (hs.color_root.trans hblack)
    · rw [hroot] at hne hparent
      exact hparent (hs.focus.up hne)

end Rb

/-! ## Skip lists -/

namespace Skip

open SkipChain

/-- whether a node does not follow the one before it: the back link or the order is wrong -/
def misplaced (s : SkipList) (previous : Option ℕ) (node : ℕ) : Bool :=
  s.backward node ≠ previous ∨ outOfOrder s.item previous node = true

/-- the loop of `validate_skiplist` -/
def validateFrom (s : SkipList) : ℕ → Option ℕ → Option ℕ → ℕ → Bool
  | _, none, previous, count => count = s.length ∧ previous = s.tail
  | 0, some _, _, _ => false
  | fuel + 1, some node, previous, count =>
    if misplaced s previous node then false
    else if skiplistByRank s count ≠ some node then false
    else validateFrom s fuel ((s.lvl 0).forward node) (some node) (count + 1)

def validateSkiplist (s : SkipList) : Bool := validateFrom s (s.length + 1) ((s.lvl 0).forward 0) none 0

/-- the number of links of the lowest level from a node to `goal`, or to the end of the list -/
def baseLinks (s : SkipList) (goal : Option ℕ) : ℕ → ℕ → Option ℕ
  | 0, _ => none
  | fuel + 1, node =>
    if goal = some node then some 0
    else match (s.lvl 0).forward node with
      | none => if goal = none then some 0 else none
      | some next => (baseLinks s goal fuel next).map (· + 1)

variable {s : SkipList}

variable {x : ℕ}

/-- on the lowest level every node points to its successor, the header included -/
theorem Rep.forward_base {P R : List ℕ} (h : Rep s xs) (hsplit : 0 :: xs = P ++ x :: R) : (s.lvl 0).forward x = R.head? := by
  have hchain := h.chain 0 h.level_pos
  have htall := h.tall_zero
  rw [hsplit] at hchain htall
  exact chain_zero hchain htall

theorem Rep.not_misplaced {node : ℕ} (h : Rep s (p ++ node :: q)) :
    misplaced s p.getLast? node = false := by
  have hback := ((backs_append _ _ _ _).1 h.back).2.1
  rw [Option.or_none] at hback
  simp [misplaced, hback, h.sorted.in_order]

theorem validateFrom_rep (fuel : ℕ) (h : Rep s (p ++ q)) (hf : q.length ≤ fuel) :
    validateFrom s fuel q.head? p.getLast? p.length = true := by
  induction q generalizing p fuel with
  | nil =>
    rw [append_nil] at h
    simp [validateFrom, h.length, h.tail]
  | cons node q ih =>
    obtain ⟨fuel, rfl⟩ := Nat.exists_eq_succ_of_ne_zero (Nat.ne_of_gt ((Nat.succ_pos q.length).trans_le hf))
    have hrank : skiplistByRank s p.length = some node := by
      rw [skiplistByRank_spec h]
      simp
    have hrest := ih fuel (p := p ++ [node]) (by simpa using h) (Nat.le_of_succ_le_succ hf)
    rw [List.getLast?_concat, length_append] at hrest
    rw [List.head?_cons, validateFrom, if_neg (by rw [h.not_misplaced]; simp), if_neg (not_not_intro hrank), forward_spec h]
    exact hrest

theorem validateSkiplist_rep (h : Rep s xs) : validateSkiplist s = true := by
  unfold validateSkiplist
  rw [h.forward_base (P := []) rfl]
  exact validateFrom_rep (s.length + 1) (p := []) h (by rw [h.length]; exact Nat.le_succ _)

/-- the links of the lowest level from a node to the next tall one -/
theorem Rep.baseLinks_reach {P R : List ℕ} {fuel : ℕ} {tall : ℕ → Bool} (h : Rep s xs)
    (hsplit : 0 :: xs = P ++ x :: R) (hf : R.length < fuel) :
    baseLinks s (R.find? tall) fuel x = some (reach tall R) := by
  induction R generalizing P x fuel with
  | nil =>
    obtain ⟨fuel, rfl⟩ := Nat.exists_eq_succ_of_ne_zero (Nat.ne_of_gt (Nat.zero_lt_of_lt hf))
    have hend : (s.lvl 0).forward x = none := h.forward_base hsplit
    simp [baseLinks, hend, reach]
  | cons y R ih =>
    obtain ⟨fuel, rfl⟩ := Nat.exists_eq_succ_of_ne_zero (Nat.ne_of_gt (Nat.zero_lt_of_lt hf))
    have hnext : (s.lvl 0).forward x = some y := h.forward_base hsplit
    have hnd : (P ++ x :: y :: R).Nodup := hsplit ▸ h.nodup
    have hx : x ∉ y :: R := (nodup_cons.1 (nodup_append.1 hnd).2.1).1
    have hgoal : (y :: R).find? tall ≠ some x := fun hc => hx (List.mem_of_find?_eq_some hc)
    rw [baseLinks, if_neg hgoal, hnext]
    dsimp only
    obtain ⟨fuel, rfl⟩ := Nat.exists_eq_succ_of_ne_zero (Nat.ne_of_gt (Nat.zero_lt_of_lt (Nat.lt_of_succ_lt_succ hf)))
    by_cases ht : tall y = true
    · rw [List.find?_cons_of_pos ht, baseLinks, if_pos rfl, reach, if_pos ht]
      rfl
    · rw [List.find?_cons_of_neg ht, ih (P := P ++ [x]) (by simpa using hsplit) (Nat.lt_of_succ_lt_succ hf), reach, if_neg ht]
      rfl

/-- **Spans.** The span of a node on a level it takes part in is the number of links of the lowest level that its link skips,
counted to the end of the list when there is no next node on the level. -/
theorem Rep.span_baseLinks (h : Rep s xs) {i : ℕ} (hi : i < s.level) (hx : x ∈ 0 :: xs) (htall : i < s.levelCount x) :
    baseLinks s ((s.lvl i).forward x) (s.length + 1) x = some ((s.lvl i).span x) := by
  obtain ⟨P, R, hsplit⟩ := append_of_mem hx
  have hchain := h.chain i hi
  rw [hsplit, chain_split _ P R (decide_eq_true htall)] at hchain
  obtain ⟨hforward, hspan⟩ := hchain.2.1 (decide_eq_true htall)
  rw [hforward, hspan]
  refine h.baseLinks_reach hsplit ?_
  have hlen := congrArg List.length hsplit
  rw [length_cons, ← h.length, length_append, length_cons] at hlen
  omega

end Skip

/-! ## Sorted sets -/

def kvObjectZsetValidate (o : KvObject) : ℤ :=
  match o.value with
  | .zset set =>
    match set.order with
    | .skiplist list =>
      if Skip.validateSkiplist list = true ∧ list.length = KvHash.kvHashCount set.members then 1 else 0
    | .rbtree tree => if Rb.validateRbtree tree (KvHash.kvHashCount set.members) = true then 1 else 0
  | _ => -1

/-- the object after a sequence of calls -/
def zsetAfter (hash : Hasher) (o : KvObject) (calls : List ZsetCall) : KvObject :=
  calls.foldl (fun o call => (zsetStep hash o call).1) o

variable {hash : Hasher} {o : KvObject}

theorem zsetAfter_inv (calls : List ZsetCall) {m : Bytes → Option Score} (hi : o.Inv hash) (hv : o.view = .zset m) :
    (zsetAfter hash o calls).Inv hash ∧ ∃ m', (zsetAfter hash o calls).view = .zset m' := by
  induction calls generalizing o m with
  | nil => exact ⟨hi, m, hv⟩
  | cons call calls ih =>
    obtain ⟨_, _, hi', m', hv', _⟩ := zsetStep_follows hi hv call
    exact ih hi' hv'

/-- a sorted set in order passes its check -/
theorem kvObjectZsetValidate_inv {set : ZSet} (hval : o.value = .zset set) (h : set.Inv hash xs) :
    kvObjectZsetValidate o = 1 := by
  have hcount : KvHash.kvHashCount set.members = xs.length := by
    rw [KvHash.kvHashCount, h.dict.counted, h.perm.length_eq, length_map]
  have hrep := h.order
  unfold kvObjectZsetValidate
  simp only [hval, hcount]
  cases horder : set.order with
  | skiplist list =>
    rw [horder] at hrep
    exact if_pos ⟨Skip.validateSkiplist_rep hrep, hrep.length⟩
  | rbtree tree =>
    rw [horder] at hrep
    exact if_pos (Rb.validateRbtree_rep hrep)

/-- **Every sorted set passes its check.** After any calls on an empty set of either engine, `kv_object_zset_add` and
`kv_object_zset_remove` among them and with any outcome of the allocations: `kv_object_zset_validate` returns 1, the order node
of every member carries the member with the score of the dictionary, and on a skip list the span of the header and of every
node, on each level in use that it takes part in, is the number of links of the lowest level that are skipped. -/
theorem zset_validates (hash : Hasher) (engine : ZsetEngine) (calls : List ZsetCall) :
    ∃ set, (zsetAfter hash (emptyZset engine) calls).value = .zset set ∧
      kvObjectZsetValidate (zsetAfter hash (emptyZset engine) calls) = 1 ∧
      (∀ n ∈ KvHash.nodes set.members, set.order.item n.payload.orderNode = ⟨n.payload.score, n.key⟩) ∧
      ∀ list, set.order = .skiplist list → ∀ i < list.level, ∀ x,
        (x = 0 ∨ ∃ n ∈ KvHash.nodes set.members, n.payload.orderNode = x) → i < list.levelCount x →
          Skip.baseLinks list ((list.lvl i).forward x) (list.length + 1) x = some ((list.lvl i).span x) := by
  obtain ⟨hi, m, hv⟩ := zsetAfter_inv calls (show (emptyZset engine).Inv hash from ⟨[], ZSet.inv_create engine⟩) rfl
  obtain ⟨set, xs, hval, hinv, _⟩ := hi.zset hv
  refine ⟨set, hval, kvObjectZsetValidate_inv hval hinv, hinv.items, ?_⟩
  intro list hlist i hlevel x hx htall
  have hrep : Skip.Rep list xs := by
    have := hinv.order
    rwa [hlist] at this
  apply hrep.span_baseLinks hlevel _ htall
  rcases hx with rfl | ⟨n, hn, rfl⟩
  · exact mem_cons_self
  · exact mem_cons_of_mem _ (hinv.mem_order hn)

end StoreSystem
