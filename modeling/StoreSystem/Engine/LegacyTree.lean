/-
The red-black tree of the first engine (`src/kvstore_rbtree.c`): a store from byte strings to byte strings of its own, with the
calls `kvs_rbtree_upsert_bytes`, `kvs_rbtree_get_bytes` and `kvs_rbtree_delete_bytes`.

The pointer operations are those of `RedBlack` without an augmentation; address 0 is `T->nil`. Unlike the tree of a sorted
set, `rbtree_delete` leaves a node with two children where it is: the key and the value of its successor move into it, and
the successor is unlinked. A node gets the next address that was never used. The loops of the source follow links; each takes
the count of the tree as its bound. Any allocation may fail.

Results: `Rep` says that memory holds a red-black tree whose nodes, in order, carry a list of entries sorted by key.
`rbtreeInsert_rep` and `rbtreeDelete_rep` keep it, and `tree_is_map` states over every sequence of calls that the tree stays
one and answers as a finite map.
-/
import StoreSystem.Engine.Order
import StoreSystem.Lib.RedBlack

namespace StoreSystem.Legacy

open Function RedBlack
open List hiding after

/-! ## Model -/

/-- `struct _rbtree` with the nodes it can reach -/
structure Rbtree where
  mem : Mem Unit
  key : ℕ → Bytes
  value : ℕ → Bytes
  count : ℕ
  /-- the address `kvstore_malloc` returns for the next node -/
  nextNode : ℕ

def kvstoreRbtreeCreate : Rbtree where
  mem := ⟨fun _ _ => 0, fun _ => 0, fun _ => .black, 0, ()⟩
  key _ := []
  value _ := []
  count := 0
  nextNode := 1

/-- the loop of `rbtree_search_bytes` and of `rbtree_insert`: the last node passed, and the node with the key or `nil` -/
def descend (t : Rbtree) (key : Bytes) : ℕ → ℕ → ℕ → ℕ × ℕ
  | 0, y, x => (y, x)
  | fuel + 1, y, x =>
    if x = 0 then (y, x)
    else if compareBytes key (t.key x) = .lt then descend t key fuel x (t.mem.child .left x)
    else if compareBytes key (t.key x) = .gt then descend t key fuel x (t.mem.child .right x)
    else (x, x)

variable (t : Rbtree)

def rbtreeSearchBytes (key : Bytes) : ℕ := (descend t key (t.count + 1) 0 t.mem.root).2

/-- the links of `rbtree_insert` below `y` -/
def linkNode (y z : ℕ) : Mem Unit :=
  let m := t.mem.setParent z y
  let m :=
    if y = 0 then m.setRoot z
    else if compareBytes (t.key z) (t.key y) = .lt then m.setChild .left y z
    else m.setChild .right y z
  ((m.setChild .left z 0).setChild .right z 0).setColor z .red

def rbtreeInsert (z : ℕ) : Rbtree × ℤ :=
  let (y, x) := descend t (t.key z) (t.count + 1) 0 t.mem.root
  if x ≠ 0 then (t, 1)
  else ({ t with mem := insertFixup plain (t.count + 1) (linkNode t y z) z }, 0)

/-- the node `rbtree_delete` unlinks -/
def unlinked (z : ℕ) : ℕ :=
  if t.mem.child .left z = 0 ∨ t.mem.child .right z = 0 then z else successor t.mem t.count z

/-- the node that takes its place -/
def replacement (m : Mem Unit) (y : ℕ) : ℕ :=
  if m.child .left y ≠ 0 then m.child .left y else if m.child .right y ≠ 0 then m.child .right y else 0

def rbtreeDelete (z : ℕ) : Rbtree :=
  let y := unlinked t z
  let x := replacement t.mem y
  let m := t.mem.setParent x (t.mem.parent y)
  let m := replaceChild .left m y x
  let (key, value) :=
    if y ≠ z then
      (update (update t.key z (t.key y)) y (t.key z),
        update (update t.value z (t.value y)) y (t.value z))
    else (t.key, t.value)
  { t with
    mem := if m.color y = .black then deleteFixup plain t.count m x else m
    key := key
    value := value }

/-- which allocations of a call succeed -/
structure Alloc where
  node : Bool
  key : Bool
  value : Bool
deriving DecidableEq, Repr

def copyBytes (ok : Bool) (data : Bytes) : Option Bytes :=
  if data.length = sizeMax then none else if ok then some data else none

def kvsRbtreeUpsertBytes (alloc : Alloc) (t : Rbtree) (key value : Bytes) : Rbtree × ℤ :=
  let node := rbtreeSearchBytes t key
  if node ≠ 0 then
    match copyBytes alloc.value value with
    | none => (t, -1)
    | some copy => ({ t with value := update t.value node copy }, 0)
  else if alloc.node then
    match copyBytes alloc.key key, copyBytes alloc.value value with
    | some keyCopy, some copy =>
      let node := t.nextNode
      let fresh := { t with
        key := update t.key node keyCopy
        value := update t.value node copy
        nextNode := node + 1 }
      let (inserted, result) := rbtreeInsert fresh node
      if result ≠ 0 then (fresh, -1) else ({ inserted with count := t.count + 1 }, 0)
    | _, _ => (t, -1)
  else (t, -1)

def kvsRbtreeGetBytes (key : Bytes) : Option Bytes :=
  let node := rbtreeSearchBytes t key
  if node = 0 then none else some (t.value node)

def kvsRbtreeDeleteBytes (key : Bytes) : Rbtree × ℤ :=
  let node := rbtreeSearchBytes t key
  if node = 0 then (t, 0) else ({ rbtreeDelete t node with count := t.count - 1 }, 1)

inductive Call
  | upsert (alloc : Alloc) (key value : Bytes)
  | get (key : Bytes)
  | delete (key : Bytes)
deriving DecidableEq, Repr

inductive Reply
  | code (result : ℤ)
  | value (found : Option Bytes)
deriving DecidableEq, Repr

def step : Call → Rbtree × Reply
  | .upsert alloc key value => ((kvsRbtreeUpsertBytes alloc t key value).1, .code (kvsRbtreeUpsertBytes alloc t key value).2)
  | .get key => (t, .value (kvsRbtreeGetBytes t key))
  | .delete key => ((kvsRbtreeDeleteBytes t key).1, .code (kvsRbtreeDeleteBytes t key).2)

def run (t : Rbtree) : List Call → Rbtree × List Reply
  | [] => (t, [])
  | call :: calls => ((run (step t call).1 calls).1, (step t call).2 :: (run (step t call).1 calls).2)

/-! ## The finite map -/

/-- whether the copies of a new value, and for a new key those of the key and its node, are made -/
def Granted (alloc : Alloc) (known : Bool) (key value : Bytes) : Bool :=
  (copyBytes alloc.value value).isSome && (known || alloc.node && (copyBytes alloc.key key).isSome)

def mapStep (m : Bytes → Option Bytes) : Call → (Bytes → Option Bytes) × Reply
  | .upsert alloc key value =>
    if Granted alloc (m key).isSome key value then (update m key (some value), .code 0) else (m, .code (-1))
  | .get key => (m, .value (m key))
  | .delete key => (update m key none, .code (if (m key).isSome then 1 else 0))

def mapRun (m : Bytes → Option Bytes) : List Call → (Bytes → Option Bytes) × List Reply
  | [] => (m, [])
  | call :: calls => ((mapRun (mapStep m call).1 calls).1, (mapStep m call).2 :: (mapRun (mapStep m call).1 calls).2)

/-! ## Representation -/

/-- the order of the keys -/
def Before (a b : Bytes) : Prop := a.map UInt8.toNat < b.map UInt8.toNat

theorem Before.trans {a b c : Bytes} (h : Before a b) (h' : Before b c) : Before a c := lt_trans h h'

theorem Before.ne {a b : Bytes} (h : Before a b) : a ≠ b := fun hc => lt_irrefl _ (hc ▸ h : Before b b)

def entry (a : ℕ) : Bytes × Bytes := (t.key a, t.value a)

/-- the tree holds the nodes `xs` with the entries `es`, in order: a search tree with a black root, no red node below a red
one, and as many black nodes on every path -/
structure Rep (t : Rbtree) (xs : List ℕ) (es : List (Bytes × Bytes)) : Prop where
  tree : IsRB plain t.mem xs
  count : t.count = xs.length
  entries : xs.map (entry t) = es
  sorted : es.Pairwise fun a b => Before a.1 b.1
  fresh : ∀ a ∈ xs, a < t.nextNode
  next : t.nextNode ≠ 0

variable {t} {t' : Rbtree} {xs : List ℕ} {es A B : List (Bytes × Bytes)} {key value old : Bytes} {k : List Frame} {s : Shape} {a z : ℕ}
  {m : Mem Unit} {ok : Bool} {data copy : Bytes}

theorem rep_create : Rep kvstoreRbtreeCreate [] [] :=
  ⟨⟨.leaf, ⟨⟨rfl, fun h => absurd rfl h, trivial, nodup_nil⟩, rfl, trivial, by simp [CtxPainted], trivial, trivial, trivial⟩,
    rfl, rfl, 0, rfl⟩, rfl, rfl, List.Pairwise.nil, by simp, by simp [kvstoreRbtreeCreate]⟩

theorem Rep.mem (h : Rep t xs es) (ha : a ∈ xs) : (t.key a, t.value a) ∈ es := by
  rw [← h.entries]
  exact mem_map_of_mem ha

theorem Rep.nodup (h : Rep t xs es) : xs.Nodup := by
  obtain ⟨s, hs, rfl, _⟩ := h.tree
  exact hs.focus.nodup_tree

/-- the entries around a node -/
theorem Rep.split {P Q : List ℕ} (h : Rep t xs es) (hxs : xs = P ++ a :: Q) :
    es = P.map (entry t) ++ entry t a :: Q.map (entry t) ∧ a ∉ P ∧ a ∉ Q := by
  obtain ⟨_, hcons, hdis⟩ := nodup_append.1 (hxs ▸ h.nodup)
  refine ⟨?_, fun hc => hdis a hc a mem_cons_self rfl, (nodup_cons.1 hcons).1⟩
  rw [← h.entries, hxs, map_append, map_cons]

/-! ## Search -/

/-- the nodes of the tree are sorted by key -/
theorem Rep.keys (h : Rep t xs es) : xs.Pairwise fun a b => Before (t.key a) (t.key b) := by
  have := h.sorted
  rwa [← h.entries, pairwise_map] at this

/-- the search ends at the node with the key, or at the empty position between the smaller and the larger keys -/
theorem descend_spec (key : Bytes) (fuel : ℕ) (hf : Focus t.mem k s)
    (hs : (plug k s).inorder.Pairwise fun a b => Before (t.key a) (t.key b))
    (hb : Between (fun a => Before (t.key a) key) (fun a => Before key (t.key a)) k) (hfuel : s.size < fuel) :
    (∃ a ∈ s.inorder, t.key a = key ∧ (descend t key fuel (top k) s.root).2 = a) ∨
      ∃ k', plug k' .leaf = plug k s ∧ Between (fun a => Before (t.key a) key) (fun a => Before key (t.key a)) k' ∧
        descend t key fuel (top k) s.root = (top k', 0) := by
  induction fuel generalizing k s with
  | zero => omega
  | succ fuel ih =>
    have hmono := hs.imp fun {a b} (hab : Before (t.key a) (t.key b)) =>
      show (Before (t.key b) key → Before (t.key a) key) ∧ (Before key (t.key a) → Before key (t.key b)) from
        ⟨hab.trans, fun h => h.trans hab⟩
    cases s with
    | leaf =>
      rw [show Shape.leaf.root = 0 from rfl, descend, if_pos rfl]
      exact Or.inr ⟨k, rfl, hb, rfl⟩
    | node l a c r =>
      obtain ⟨ha, ⟨cl, _, _⟩, cr, _, _⟩ := hf.tree
      simp only [Shape.size] at hfuel
      rw [show (Shape.node l a c r).root = a from rfl, descend, if_neg ha, cl, cr]
      cases hcmp : compareBytes key (t.key a) with
      | lt =>
        rw [if_pos rfl]
        refine (ih (k := ⟨.left, a, c, r⟩ :: k) (s := l) ((focus_cons _ ⟨.left, a, c, r⟩ k l).2 hf) hs
          (hb.down hmono (Or.inl ⟨rfl, (compareBytes_lt_iff _ _).1 hcmp⟩)) (by omega)).imp_left ?_
        rintro ⟨b, hb, h⟩
        exact ⟨b, by simp [Shape.inorder, hb], h⟩
      | gt =>
        rw [if_neg (by simp), if_pos rfl]
        refine (ih (k := ⟨.right, a, c, l⟩ :: k) (s := r) ((focus_cons _ ⟨.right, a, c, l⟩ k r).2 hf) hs
          (hb.down hmono (Or.inr ⟨rfl, (compareBytes_gt_iff _ _).1 hcmp⟩)) (by omega)).imp_left ?_
        rintro ⟨b, hb, h⟩
        exact ⟨b, by simp [Shape.inorder, hb], h⟩
      | eq =>
        rw [if_neg (by simp), if_neg (by simp)]
        exact Or.inl ⟨a, by simp [Shape.inorder], ((compareBytes_eq_iff _ _).1 hcmp).symm, rfl⟩

/-- what the search finds: the node with the key, or where it belongs -/
theorem Rep.search (h : Rep t xs es) (key : Bytes) : (∃ a ∈ xs, a ≠ 0 ∧ t.key a = key ∧ rbtreeSearchBytes t key = a) ∨
      rbtreeSearchBytes t key = 0 ∧ ∃ k,
        (∃ s n, Holds plain t.mem k .leaf ∧ plug k .leaf = s ∧ s.inorder = xs ∧ s.color = .black ∧ RB s n) ∧
        Between (fun a => Before (t.key a) key) (fun a => Before key (t.key a)) k ∧
        descend t key (t.count + 1) 0 t.mem.root = (top k, 0) := by
  obtain ⟨s, hs, rfl, hblack, n, hrb⟩ := h.tree
  have hroot : t.mem.root = s.root := hs.focus.ctx
  have hfuel : s.size < t.count + 1 := by
    rw [h.count, Shape.size_eq_length]
    omega
  unfold rbtreeSearchBytes
  rw [hroot]
  rcases descend_spec (k := []) key (t.count + 1) hs.focus h.keys ⟨by simp [before], by simp [after]⟩ hfuel with
    ⟨a, ha, hkey, hfound⟩ | ⟨k, hk, hb, hend⟩
  · exact Or.inl ⟨a, ha, hs.focus.tree.root_ne ha, hkey, hfound⟩
  · have hend' : descend t key (t.count + 1) 0 s.root = (top k, 0) := hend
    refine Or.inr ⟨by rw [hend'], k, ⟨s, n, ?_, hk, rfl, hblack, hrb⟩, hb, hend'⟩
    rw [holds_root, hk]
    exact hs

/-- the entries before and after an empty position -/
theorem split_entries {t : Rbtree} (hxs : (plug k .leaf).inorder = xs) (h : Rep t xs es) :
    es = (before k).map (entry t) ++ (after k).map (entry t) := by
  rw [← h.entries, ← hxs, inorder_plug]
  simp [Shape.inorder]

/-- a key that the search does not find has no entry -/
theorem not_mem_of_between (hb : Between (fun a => Before (t.key a) key) (fun a => Before key (t.key a)) k)
    (hes : es = (before k).map (entry t) ++ (after k).map (entry t)) (value : Bytes) : (key, value) ∉ es := by
  intro hmem
  rw [hes] at hmem
  rcases mem_append.1 hmem with hmem | hmem
  · obtain ⟨a, ha, he⟩ := mem_map.1 hmem
    exact (hb.1 a ha).ne (congrArg Prod.fst he)
  · obtain ⟨a, ha, he⟩ := mem_map.1 hmem
    exact (hb.2 a ha).ne (congrArg Prod.fst he).symm

/-! ## Insertion -/

/-- the links of an insertion are those of a prepared node at the empty position the search ends at -/
theorem linkNode_eq (hzk : z ∉ addrs k) (hk : IsCtx t.mem k 0)
    (hb : Between (fun a => Before (t.key a) (t.key z)) (fun a => Before (t.key z) (t.key a)) k) :
    linkNode t (top k) z =
      (setHole (((t.mem.setChild .left z 0).setChild .right z 0).setColor z .red) k z).setParent z (top k) := by
  cases k with
  | nil => rfl
  | cons f k =>
    have hf0 : f.node ≠ 0 := hk.2.1
    have hne : f.node ≠ z := fun hc => hzk (by simp [addrs, hc])
    have hside : (if compareBytes (t.key z) (t.key f.node) = .lt then (t.mem.setParent z f.node).setChild .left f.node z
        else (t.mem.setParent z f.node).setChild .right f.node z) = (t.mem.setParent z f.node).setChild f.side f.node z := by
      cases hside : f.side with
      | left => rw [if_pos ((compareBytes_lt_iff _ _).2 (hb.2 f.node (by simp [after, hside])))]
      | right =>
        have hlt : Before (t.key f.node) (t.key z) := hb.1 f.node (by simp [before, hside])
        rw [if_neg fun hc => lt_asymm hlt ((compareBytes_lt_iff _ _).1 hc)]
    change linkNode t f.node z = _
    unfold linkNode
    simp only [if_neg hf0, hside, setHole]
    rw [Mem.setChild_comm _ _ _ _ _ hne, Mem.setChild_comm _ _ _ _ _ hne]
    rfl

/-- **Insertion** of a node with a new key puts its entry at its place. -/
theorem rbtreeInsert_rep (h : Rep t xs es) (hz0 : z ≠ 0) (hz : z ∉ xs) (hlt : z < t.nextNode) (hnew : ∀ v, (t.key z, v) ∉ es) :
    (rbtreeInsert t z).2 = 0 ∧ ∃ ys A B, es = A ++ B ∧
      Rep { (rbtreeInsert t z).1 with count := t.count + 1 } ys (A ++ (t.key z, t.value z) :: B) := by
  rcases h.search (t.key z) with ⟨a, ha, _, hkey, _⟩ | ⟨_, k, ⟨s, n, hk, hplug, hxs, hblack, hrb⟩, hb, hend⟩
  · exact absurd (hkey ▸ h.mem ha) (hnew _)
  subst hplug
  have hes := split_entries hxs h
  have hmem : ∀ a, a ∈ addrs k → a ∈ xs := fun a ha => by
    rw [← hxs]
    exact (inorder_plug_perm k .leaf).mem_iff.2 (mem_append_right _ ha)
  set m0 := ((t.mem.setChild .left z 0).setChild .right z 0).setColor z .red with hm0
  -- the new node is written outside the tree
  have hk0 : Holds plain m0 k .leaf := by
    have hne : ∀ a, a = 0 ∨ a ∈ (plug k .leaf).inorder → a ≠ z := by
      rintro a (rfl | ha) rfl
      · exact hz0 rfl
      · exact hz (hxs ▸ ha)
    refine (holds_root _ _ _ _).2 (((holds_root _ _ _ _).1 hk).frame (fun a ha d => ?_) (fun _ _ => rfl) (fun a ha => ?_)
      (fun _ _ _ h => h) rfl)
    · rw [hm0, Mem.setColor_child, Mem.setChild_child_of_ne _ _ _ _ (hne a (Or.inr ha)),
        Mem.setChild_child_of_ne _ _ _ _ (hne a (Or.inr ha))]
    · rw [hm0, Mem.setColor_color, if_neg (hne a ha)]
      rfl
  obtain ⟨j, hleaf, hctx⟩ := hrb.unplug hblack
  obtain rfl : j = 0 := hleaf
  have hlink := linkNode_eq (fun hc => hz (hmem z hc)) hk.focus.ctx hb
  have hins : Inserting plain (linkNode t (top k) z) k (.node .leaf z .red .leaf) 0 := by
    rw [hlink]
    refine inserting_leaf hk0.focus hk0.nil hk0.cpainted trivial (CtxSized.plain _ _ _) hctx hz0 (fun hc => hz (hmem z hc))
      (fun d => ?_) ?_ trivial
    · cases d <;> simp [Mem.setChild_child]
    · rw [Mem.setColor_color, if_pos rfl]
  have hlen : k.length ≤ t.count + 1 := by
    have := length_add_size_le k .leaf
    rw [Shape.size_eq_length (plug k .leaf), hxs, ← h.count] at this
    omega
  have hres := insertFixup_isRB (t.count + 1) hins hlen
  rw [inorder_plug, show (Shape.node .leaf z .red .leaf).inorder = [z] from rfl] at hres
  have hinsert : rbtreeInsert t z = ({ t with mem := insertFixup plain (t.count + 1) (linkNode t (top k) z) z }, 0) := by
    unfold rbtreeInsert
    rw [hend]
    exact if_neg (by simp)
  rw [hinsert]
  refine ⟨rfl, _, _, _, hes, hres, ?_, ?_, ?_, ?_, h.next⟩
  · have := congrArg List.length hxs
    simp only [inorder_plug, Shape.inorder, length_append, length_nil] at this
    simp only [h.count, ← this, length_append, length_cons, length_nil]
    omega
  · simp only [map_append, map_cons, cons_append, nil_append]
    rfl
  · refine pairwise_insert (hes ▸ h.sorted) (fun e he => ?_) fun e he => ?_
    · obtain ⟨a, ha, rfl⟩ := mem_map.1 he
      exact hb.1 a ha
    · obtain ⟨a, ha, rfl⟩ := mem_map.1 he
      exact hb.2 a ha
  · intro a ha
    by_cases haz : a = z
    · exact haz ▸ hlt
    · refine h.fresh a ?_
      rw [← hxs, inorder_plug]
      simpa [Shape.inorder, haz] using ha

/-! ## Removal -/

variable {y x fuel n : ℕ} {c : Color} {d : Side}

theorem replaceChild_transplant (m : Mem Unit) (y x : ℕ) :
    replaceChild .left (m.setParent x (m.parent y)) y x = transplant m y x := by
  have hp : (m.setParent x (m.parent y)).parent y = m.parent y := by
    rw [Mem.setParent_parent]
    split_ifs <;> rfl
  unfold transplant replaceChild
  rw [hp, Mem.setParent_child]
  split_ifs <;> rfl

/-- a node with at most one child leaves the tree -/
theorem unlink_isRB (h : Holds plain m k (.branch d .leaf y c s)) (hblack : (plug k (.branch d .leaf y c s)).color = .black)
    (hrb : RB (plug k (.branch d .leaf y c s)) n) (hf : (plug k (.branch d .leaf y c s)).inorder.length ≤ fuel) :
    IsRB plain (if (transplant m y s.root).color y = .black then deleteFixup plain fuel (transplant m y s.root) s.root
      else transplant m y s.root) ((plug k (.branch d .leaf y c s)).inorder.erase y) := by
  have hd := transplant_detached h hblack hrb
  have herase : (plug k (.branch d .leaf y c s)).inorder.erase y = (plug k s).inorder := by
    have hnd := ((holds_root _ _ _ _).1 h).focus.nodup_tree
    cases d
    · rw [Shape.branch, erase_plug hnd, inorder_plug]
      rfl
    · rw [Shape.branch, erase_plug hnd, inorder_plug]
      simp [Shape.inorder]
  have hlen : k.length ≤ fuel := by
    have := length_add_size_le k (.branch d .leaf y c s)
    rw [Shape.size_eq_length (plug _ _)] at this
    omega
  rw [herase, show (transplant m y s.root).color y = m.color y by unfold transplant replaceChild; split_ifs <;> rfl]
  rcases hd.colors with ⟨horig, j, h1, h2⟩ | ⟨horig, j, h1, h2⟩
  · rw [if_neg (by rw [horig]; simp)]
    exact (isRB_of_plug hd.toLoose.plain h1 h2).2
  · rw [if_pos horig]
    exact (deleteFixup_isRB fuel ⟨hd.toLoose.plain, hd.parent, h1, h2⟩ hlen).1

/-- the node that is unlinked: the node itself, or the one right after it -/
theorem unlinked_spec (hs : Holds plain t.mem [] s) (hz : z ∈ s.inorder) (hf : s.size ≤ t.count) :
    ∃ k d c r, s = plug k (.branch d .leaf (unlinked t z) c r) ∧ replacement t.mem (unlinked t z) = r.root ∧
      (unlinked t z = z ∨ ∃ P Q, s.inorder = P ++ z :: unlinked t z :: Q) := by
  obtain ⟨k, l, c, r, rfl⟩ := exists_position hz
  have hk : Holds plain t.mem k (.node l z c r) := (holds_root _ _ _ _).2 hs
  obtain ⟨_, ⟨cl, _, tl⟩, cr, _, tr⟩ := hk.focus.tree
  unfold unlinked
  by_cases hl : l.root = 0
  · obtain rfl := tl.eq_leaf hl
    have cl0 : t.mem.child .left z = 0 := cl
    rw [if_pos (Or.inl cl0)]
    refine ⟨k, .left, c, r, rfl, ?_, Or.inl rfl⟩
    rw [replacement, cl0, cr, if_neg (by simp)]
    split_ifs with h0
    · rfl
    · exact (not_not.1 h0).symm
  by_cases hr : r.root = 0
  · obtain rfl := tr.eq_leaf hr
    rw [if_pos (Or.inr (show t.mem.child .right z = 0 from cr))]
    exact ⟨k, .right, c, l, rfl, by rw [replacement, cl, if_pos hl], Or.inl rfl⟩
  rw [if_neg (by rw [cl, cr]; exact not_or.2 ⟨hl, hr⟩), successor, cr, if_pos hr]
  have hrsize : r.size ≤ t.count := by
    have := length_add_size_le k (.node l z c r)
    simp only [Shape.size] at this
    omega
  obtain ⟨km, y, cy, yr, rfl, hleft, hmin⟩ := minimum_spec t.count tr hr hrsize
  rw [hmin]
  have hpath : plug k (.node l z c (plug km (.node .leaf y cy yr))) =
      plug (km ++ ⟨.right, z, c, l⟩ :: k) (.branch .left .leaf y cy yr) := by
    rw [plug_append]
    rfl
  refine ⟨km ++ ⟨.right, z, c, l⟩ :: k, .left, cy, yr, hpath, ?_, Or.inr ⟨before k ++ l.inorder, yr.inorder ++ (after km ++ after k), ?_⟩⟩
  · have hy : Focus t.mem _ (.node .leaf y cy yr) := (focus_root _ _ _).2 (hpath ▸ hs.focus)
    obtain ⟨_, ⟨yl, _, _⟩, yr', _, _⟩ := hy.tree
    rw [replacement, yl, yr', if_neg (by simp [Shape.root])]
    split_ifs with h0
    · rfl
    · exact (not_not.1 h0).symm
  · rw [inorder_plug]
    simp [Shape.inorder, inorder_plug, before_left hleft]

/-- **Removal** of a node takes its entry out. -/
theorem rbtreeDelete_rep (h : Rep t xs es) (hz : z ∈ xs) :
    ∃ ys A B, es = A ++ (t.key z, t.value z) :: B ∧ Rep { rbtreeDelete t z with count := t.count - 1 } ys (A ++ B) := by
  obtain ⟨s, hs, hxs, hblack, n, hrb⟩ := h.tree
  subst hxs
  have hsize : s.size = t.count := by rw [h.count, Shape.size_eq_length]
  have hnd := h.nodup
  obtain ⟨k, d, c, r, heq, hrep, hy⟩ := unlinked_spec hs hz hsize.le
  set y := unlinked t z with hydef
  have hmem : y ∈ s.inorder := by
    rw [heq, (inorder_plug_perm _ _).mem_iff]
    exact mem_append_left _ (Shape.mem_branch.2 (Or.inl rfl))
  have htree : IsRB plain (rbtreeDelete t z).mem (s.inorder.erase y) := by
    have hlen : (plug k (.branch d .leaf y c r)).inorder.length ≤ t.count := by rw [← heq, h.count]
    have hres := unlink_isRB ((holds_root _ _ _ _).2 (heq ▸ hs)) (heq ▸ hblack) (heq ▸ hrb) hlen
    rw [← heq] at hres
    simp only [rbtreeDelete, ← hydef, hrep, replaceChild_transplant]
    exact hres
  have hcount : t.count - 1 = (s.inorder.erase y).length := by rw [length_erase_of_mem hmem, h.count]
  have hfresh : ∀ a ∈ s.inorder.erase y, a < t.nextNode := fun a ha => h.fresh a (mem_of_mem_erase ha)
  -- what remains is to read the entries off; they are sorted as a part of the old ones
  suffices hsplit : ∃ A B, es = A ++ (t.key z, t.value z) :: B ∧ (s.inorder.erase y).map (entry (rbtreeDelete t z)) = A ++ B by
    obtain ⟨A, B, hes, hentries⟩ := hsplit
    refine ⟨_, A, B, hes, htree, hcount, hentries, ?_, hfresh, h.next⟩
    have hsorted := h.sorted
    rw [hes] at hsorted
    exact hsorted.sublist (List.Sublist.append_left (sublist_cons_self _ _) _)
  by_cases hyz : y = z
  · obtain ⟨P, Q, hPQ⟩ := append_of_mem hz
    have hkeep : entry (rbtreeDelete t z) = entry t := by
      funext a
      simp only [entry, rbtreeDelete, ← hydef, hyz, ne_eq, not_true_eq_false, if_false]
    obtain ⟨hes, hnot, _⟩ := h.split hPQ
    refine ⟨P.map (entry t), Q.map (entry t), hes, ?_⟩
    rw [hkeep, hyz, hPQ, erase_append_right _ hnot, erase_cons_head, map_append]
  · -- the entry of the successor has moved into the node
    obtain ⟨P, Q, hPQ⟩ := hy.resolve_left hyz
    obtain ⟨hes, hPz, hzQ⟩ := h.split hPQ
    obtain ⟨_, hPy, hyQ⟩ := h.split (show s.inorder = (P ++ [z]) ++ y :: Q by simp [hPQ])
    have hmoved : ∀ a, a ≠ y → entry (rbtreeDelete t z) a = entry t (if a = z then y else a) := by
      intro a hay
      simp only [entry, rbtreeDelete, ← hydef, ne_eq, hyz, not_false_eq_true, if_true, update_of_ne hay, update_apply]
      split_ifs <;> rfl
    have hpart : ∀ L : List ℕ, y ∉ L → z ∉ L → L.map (entry (rbtreeDelete t z)) = L.map (entry t) := by
      intro L hy hz
      refine map_congr_left fun a ha => ?_
      rw [hmoved a fun hc => hy (hc ▸ ha), if_neg fun hc : a = z => hz (hc ▸ ha)]
    refine ⟨P.map (entry t), entry t y :: Q.map (entry t), hes, ?_⟩
    rw [hPQ, erase_append_right _ fun hc => hPy (by simp [hc]), erase_cons_tail (by simpa using Ne.symm hyz),
      erase_cons_head, map_append, map_cons, hpart P (fun hc => hPy (by simp [hc])) hPz,
      hpart Q hyQ fun hc => hzQ (by simp [hc]), hmoved z (Ne.symm hyz), if_pos rfl]

/-- a new value in the place of an old one -/
theorem Rep.replace (h : Rep t xs es) (ha : a ∈ xs) (value : Bytes) :
    ∃ A B, es = A ++ (t.key a, t.value a) :: B ∧
      Rep { t with value := update t.value a value } xs (A ++ (t.key a, value) :: B) := by
  obtain ⟨P, Q, hPQ⟩ := append_of_mem ha
  obtain ⟨hes, hP, hQ⟩ := h.split hPQ
  have hpart : ∀ L : List ℕ, a ∉ L → L.map (entry { t with value := update t.value a value }) = L.map (entry t) := fun L hL =>
    map_congr_left fun b hb => by simp [entry, update_of_ne (show b ≠ a from fun hc => hL (hc ▸ hb))]
  refine ⟨_, _, hes, h.tree, h.count, ?_, ?_, h.fresh, h.next⟩
  · rw [hPQ, map_append, map_cons, hpart P hP, hpart Q hQ]
    simp [entry]
  · -- the order of the entries is that of their keys
    have hkeys := h.sorted
    rw [hes] at hkeys
    rw [← pairwise_map (f := Prod.fst)] at hkeys ⊢
    simpa [entry] using hkeys

/-! ## Runs -/

/-- the map `m` has the entries `es` -/
def Models (m : Bytes → Option Bytes) (es : List (Bytes × Bytes)) : Prop := ∀ key value, m key = some value ↔ (key, value) ∈ es

variable {f : Bytes → Option Bytes}

theorem Models.insert (h : Models f (A ++ B)) (hnew : ∀ v, (key, v) ∉ A ++ B) (value : Bytes) :
    Models (update f key (some value)) (A ++ (key, value) :: B) := by
  intro key' value'
  rw [update_apply]
  by_cases hk : key' = key
  · subst hk
    have := hnew value'
    simp only [mem_append, not_or] at this
    simp [this, eq_comm]
  · rw [if_neg hk, h key' value']
    simp [hk]

/-- the other entries have other keys -/
theorem sorted_new (h : (A ++ (key, value) :: B).Pairwise fun a b => Before a.1 b.1) (v : Bytes) : (key, v) ∉ A ++ B := by
  obtain ⟨_, hB, hA⟩ := pairwise_append.1 h
  intro hmem
  rcases mem_append.1 hmem with hmem | hmem
  · exact (hA _ hmem _ mem_cons_self).ne rfl
  · exact ((pairwise_cons.1 hB).1 _ hmem).ne rfl

theorem Models.erase (h : Models f (A ++ (key, value) :: B)) (hs : (A ++ (key, value) :: B).Pairwise fun a b => Before a.1 b.1) :
    Models (update f key none) (A ++ B) := by
  intro key' value'
  rw [update_apply]
  by_cases hk : key' = key
  · subst hk
    simpa using sorted_new hs value'
  · rw [if_neg hk, h key' value']
    simp [hk]

/-- the tree is one, and holds the entries of the map -/
def Related (t : Rbtree) (f : Bytes → Option Bytes) : Prop := ∃ xs es, Rep t xs es ∧ Models f es

/-- what a search says about the map -/
theorem Rep.lookup (h : Rep t xs es) (hf : Models f es) (key : Bytes) :
    (∃ a ∈ xs, a ≠ 0 ∧ t.key a = key ∧ rbtreeSearchBytes t key = a ∧ f key = some (t.value a)) ∨
      rbtreeSearchBytes t key = 0 ∧ f key = none ∧ ∀ v, (key, v) ∉ es := by
  rcases h.search key with ⟨a, ha, h0, hkey, hfound⟩ | ⟨h0, k, ⟨s, _, _, hplug, hxs, _⟩, hb, _⟩
  · exact Or.inl ⟨a, ha, h0, hkey, hfound, (hf key _).2 (hkey ▸ h.mem ha)⟩
  · have hnew := not_mem_of_between hb (split_entries (hplug ▸ hxs) h)
    refine Or.inr ⟨h0, ?_, hnew⟩
    cases hv : f key with
    | none => rfl
    | some v => exact absurd ((hf key v).1 hv) (hnew v)

theorem copyBytes_eq (h : copyBytes ok data = some copy) : copy = data := by
  unfold copyBytes at h
  split_ifs at h
  exact (Option.some.inj h).symm

/-- an entry outside the tree does not matter -/
theorem Rep.allocate (h : Rep t xs es) (key value : Bytes) :
    Rep { t with
      key := update t.key t.nextNode key
      value := update t.value t.nextNode value
      nextNode := t.nextNode + 1 } xs es := by
  refine ⟨h.tree, h.count, ?_, h.sorted, fun a ha => Nat.lt_succ_of_lt (h.fresh a ha), Nat.succ_ne_zero _⟩
  rw [← h.entries]
  refine map_congr_left fun a ha => ?_
  have hne : a ≠ t.nextNode := (h.fresh a ha).ne
  simp [entry, update_of_ne hne]

/-- a call of `kvs_rbtree_upsert_bytes` -/
theorem upsert_related (h : Rep t xs es) (hf : Models f es) (alloc : Alloc) (key value : Bytes) :
    Reply.code (kvsRbtreeUpsertBytes alloc t key value).2 = (mapStep f (.upsert alloc key value)).2 ∧
      Related (kvsRbtreeUpsertBytes alloc t key value).1 (mapStep f (.upsert alloc key value)).1 := by
  unfold kvsRbtreeUpsertBytes
  simp only [mapStep, Granted]
  rcases h.lookup hf key with ⟨a, ha, ha0, hkey, hfound, hval⟩ | ⟨hfound, hval, hnew⟩
  · rw [hfound, hval]
    simp only [ne_eq, ha0, not_false_eq_true, if_true, Option.isSome_some, Bool.true_or, Bool.and_true]
    cases hcopy : copyBytes alloc.value value with
    | none => exact ⟨rfl, xs, es, h, hf⟩
    | some copy =>
      obtain rfl := copyBytes_eq hcopy
      obtain ⟨A, B, hes, hrep⟩ := h.replace ha copy
      rw [hes, hkey] at hf
      rw [hkey] at hrep
      have hs := h.sorted
      rw [hes, hkey] at hs
      have hm := (hf.erase hs).insert (sorted_new hs) copy
      rw [update_idem] at hm
      exact ⟨rfl, xs, _, hrep, hm⟩
  · rw [hfound, hval]
    simp only [ne_eq, not_true_eq_false, if_false, Option.isSome_none, Bool.false_or]
    have hsame : Related t f := ⟨xs, es, h, hf⟩
    cases hnode : alloc.node with
    | false => simpa using hsame
    | true =>
      cases hk : copyBytes alloc.key key with
      | none => simpa using hsame
      | some keyCopy =>
        cases hv : copyBytes alloc.value value with
        | none => simpa using hsame
        | some copy =>
          obtain rfl := copyBytes_eq hk
          obtain rfl := copyBytes_eq hv
          have hfresh := h.allocate keyCopy copy
          set fresh : Rbtree := { t with
            key := update t.key t.nextNode keyCopy
            value := update t.value t.nextNode copy
            nextNode := t.nextNode + 1 } with hdef
          have hkey : fresh.key t.nextNode = keyCopy := update_self ..
          have hvalue : fresh.value t.nextNode = copy := update_self ..
          obtain ⟨hcode, ys, A, B, hes, hrep⟩ := rbtreeInsert_rep hfresh h.next (fun hc => lt_irrefl _ (h.fresh _ hc)) (Nat.lt_succ_self _)
            (by rw [hkey]; exact hnew)
          rw [hkey, hvalue, hdef] at hrep
          rw [hdef] at hcode
          rw [hes] at hf hnew
          simp only [if_true, Option.isSome_some, Bool.and_true, hcode, not_true_eq_false, if_false]
          exact ⟨trivial, ys, _, hrep, hf.insert hnew copy⟩

theorem delete_related (h : Rep t xs es) (hf : Models f es) (key : Bytes) :
    Reply.code (kvsRbtreeDeleteBytes t key).2 = (mapStep f (.delete key)).2 ∧
      Related (kvsRbtreeDeleteBytes t key).1 (mapStep f (.delete key)).1 := by
  unfold kvsRbtreeDeleteBytes
  simp only [mapStep]
  rcases h.lookup hf key with ⟨a, ha, ha0, hkey, hfound, hval⟩ | ⟨hfound, hval, _⟩
  · rw [hfound, hval]
    simp only [ha0, if_false, Option.isSome_some, if_true]
    obtain ⟨ys, A, B, hes, hrep⟩ := rbtreeDelete_rep h ha
    have hs := h.sorted
    rw [hes, hkey] at hs hf
    exact ⟨trivial, ys, _, hrep, hf.erase hs⟩
  · rw [hfound, hval]
    simp only [if_true, Option.isSome_none, Bool.false_eq_true, if_false]
    refine ⟨trivial, xs, es, h, ?_⟩
    rwa [← hval, update_eq_self]

/-- one call keeps the tree a tree with the entries of the map, and answers as the map does -/
theorem step_related (h : Related t f) (call : Call) :
    (step t call).2 = (mapStep f call).2 ∧ Related (step t call).1 (mapStep f call).1 := by
  obtain ⟨xs, es, hrep, hf⟩ := h
  cases call with
  | upsert alloc key value => exact upsert_related hrep hf alloc key value
  | delete key => exact delete_related hrep hf key
  | get key =>
    refine ⟨?_, xs, es, hrep, hf⟩
    simp only [step, mapStep, kvsRbtreeGetBytes]
    rcases hrep.lookup hf key with ⟨a, _, ha0, _, hfound, hval⟩ | ⟨hfound, hval, _⟩
    · rw [hfound, hval, if_neg ha0]
    · rw [hfound, hval, if_pos rfl]

theorem run_related (h : Related t f) (calls : List Call) :
    (run t calls).2 = (mapRun f calls).2 ∧ Related (run t calls).1 (mapRun f calls).1 := by
  induction calls generalizing t f with
  | nil => exact ⟨rfl, h⟩
  | cons call calls ih =>
    obtain ⟨hreply, hnext⟩ := step_related h call
    obtain ⟨hreplies, hlast⟩ := ih hnext
    exact ⟨by rw [run, mapRun, hreply, hreplies], hlast⟩

/-- **The tree is a finite map.** After any calls it is a red-black search tree whose entries are those of the map the same
calls make of the empty one, and every call has answered as on the map. -/
theorem tree_is_map (calls : List Call) : (run kvstoreRbtreeCreate calls).2 = (mapRun (fun _ => none) calls).2 ∧
      ∃ xs es, Rep (run kvstoreRbtreeCreate calls).1 xs es ∧
        ∀ key value, (mapRun (fun _ => none) calls).1 key = some value ↔ (key, value) ∈ es :=
  run_related ⟨[], [], rep_create, by simp [Models]⟩ calls

end StoreSystem.Legacy
