/-
The red-black tree engine of a sorted set (`src/engine/object.c`, `rb_*` and `rbtree_*`): a parent-linked tree with a
sentinel whose nodes carry the size of their subtree, so that a rank is found by descending.

The pointer operations are those of `RedBlack` at the augmentation `subtreeSize`; address 0 is `tree->nil`. What is
particular to this file is the insertion descent that counts the new node in on the way down, the removal that moves the
successor of a node with two children into its place and recomputes the sizes above, and the search by rank. The loops
of the source follow links; each takes the length of the tree as its bound.

Results: `Rep` says that the tree holds a sequence of nodes, sorted, under a red-black tree with the right sizes.
`rbtreeInsertNode_rep` and `rbtreeDetachNode_rep` keep it, and `rbtreeByRank_spec` and `rbSuccessor_spec` read it.
-/
import StoreSystem.Engine.Order
import StoreSystem.Lib.RedBlack

namespace StoreSystem.Rb

open Function RedBlack
open List hiding after

/-! ## Model -/

/-- `subtree_size`, recomputed from the two children -/
def subtreeSize : Augment (ℕ → ℕ) where
  touch child a size := update size a (size (child .left a) + size (child .right a) + 1)
  holds size a n := size a = n
  touch_self := by
    intro child a size m n hl hr
    simp [hl, hr]
  touch_other := by
    intro child a size b n hb
    simp [update_of_ne hb]

/-- `struct rb_tree` with the nodes it can reach; `item` holds their `score` and `member` -/
structure RbTree where
  mem : Mem (ℕ → ℕ)
  item : ℕ → Item
  length : ℕ

def rbtreeInit : RbTree where
  mem := ⟨fun _ _ => 0, fun _ => 0, fun _ => .black, 0, fun _ => 0⟩
  item := fun _ => ⟨⟨false, 0, Score.zero_notNan⟩, []⟩
  length := 0

variable (m : Mem (ℕ → ℕ)) (t : RbTree) (node : ℕ)

/-- the links, the colour and the size of a node that is not in the tree -/
def resetNode : Mem (ℕ → ℕ) :=
  let m := (m.setChild .left node 0).setChild .right node 0
  let m := (m.setParent node 0).setColor node .red
  { m with aug := update m.aug node 1 }

/-- `rbtree_prepare_node`; `node` is the address `calloc` returned -/
def rbtreePrepareNode (score : Score) : RbTree :=
  { t with mem := resetNode t.mem node, item := update t.item node ⟨score, []⟩ }

/-- the red-black branch of `ordered_set_score` -/
def rbtreeSetScore (score : Score) : RbTree :=
  { t with mem := resetNode t.mem node, item := update t.item node { t.item node with score := score } }

/-- the red-black branch of `ordered_set_member` -/
def rbtreeSetMember (member : Bytes) : RbTree :=
  { t with item := update t.item node { t.item node with member := member } }

/-- the descent of `rbtree_insert_node`: count the node in at every node passed and return the last one -/
def insertDescend (item : ℕ → Item) (node : ℕ) : ℕ → Mem (ℕ → ℕ) → ℕ → ℕ → Mem (ℕ → ℕ) × ℕ
  | 0, m, parent, _ => (m, parent)
  | fuel + 1, m, parent, current =>
    if current = 0 then (m, parent)
    else
      let m := { m with aug := update m.aug current (m.aug current + 1) }
      insertDescend item node fuel m current
        (if compareOrder (item node) (item current) = .lt then m.child .left current else m.child .right current)

/-- the node becomes the child of the node the descent ended at -/
def linkNode (item : ℕ → Item) (m : Mem (ℕ → ℕ)) (parent node : ℕ) : Mem (ℕ → ℕ) :=
  let m := m.setParent node parent
  if parent = 0 then m.setRoot node
  else if compareOrder (item node) (item parent) = .lt then m.setChild .left parent node
  else m.setChild .right parent node

def rbtreeInsertNode : RbTree :=
  let (m, parent) := insertDescend t.item node (t.length + 1) t.mem 0 t.mem.root
  { t with mem := insertFixup subtreeSize (t.length + 1) (linkNode t.item m parent node) node, length := t.length + 1 }

/-- the last writes of `rbtree_detach_node` in the case of two children: `moved` takes the place of `target` -/
def moveInto (target moved : ℕ) : Mem (ℕ → ℕ) :=
  let m := transplant m target moved
  let m := m.setChild .left moved (m.child .left target)
  let m := m.setParent (m.child .left moved) moved
  let m := m.setColor moved (m.color target)
  recalculate subtreeSize m moved

/-- the links of `rbtree_detach_node`: the tree without `target`, the node the fix-up starts from, the node from which
sizes are recomputed and the colour that left its place -/
def detachLinks (fuel : ℕ) (m : Mem (ℕ → ℕ)) (target : ℕ) : Mem (ℕ → ℕ) × ℕ × ℕ × Color :=
  if m.child .left target = 0 then
    (transplant m target (m.child .right target), m.child .right target, m.parent target, m.color target)
  else if m.child .right target = 0 then
    (transplant m target (m.child .left target), m.child .left target, m.parent target, m.color target)
  else
    let moved := minimum m fuel (m.child .right target)
    let original := m.color moved
    let fixup := m.child .right moved
    if m.parent moved = target then
      (moveInto (m.setParent fixup moved) target moved, fixup, moved, original)
    else
      let oldParent := m.parent moved
      let m := transplant m moved (m.child .right moved)
      let m := m.setChild .right moved (m.child .right target)
      let m := m.setParent (m.child .right moved) moved
      (moveInto m target moved, fixup, oldParent, original)

def rbtreeDetachNode (target : ℕ) : RbTree :=
  let (m, fixup, recalculateFrom, original) := detachLinks t.length t.mem target
  let m := recalculateUp subtreeSize t.length m recalculateFrom
  let m := if original = .black then deleteFixup subtreeSize t.length m fixup else m
  let m := recalculateUp subtreeSize t.length m (m.parent fixup)
  { t with mem := m, length := t.length - 1 }

/-- `rbtree_by_rank` below a node -/
def byRankFrom (m : Mem (ℕ → ℕ)) : ℕ → ℕ → ℕ → Option ℕ
  | 0, _, _ => none
  | fuel + 1, node, rank =>
    if node = 0 then none
    else
      let leftSize := m.aug (m.child .left node)
      if rank < leftSize then byRankFrom m fuel (m.child .left node) rank
      else if rank = leftSize then some node
      else byRankFrom m fuel (m.child .right node) (rank - (leftSize + 1))

def rbtreeByRank (rank : ℕ) : Option ℕ := byRankFrom t.mem (t.length + 1) t.mem.root rank

def rbSuccessor : ℕ := successor t.mem t.length node

/-! ## Representation -/

variable {t : RbTree} {xs : List ℕ} {a : ℕ}

/-- the tree holds the nodes `xs`, in order -/
structure Rep (t : RbTree) (xs : List ℕ) : Prop where
  tree : IsRB subtreeSize t.mem xs
  length : t.length = xs.length
  sorted : Sorted t.item xs

theorem rep_init : Rep rbtreeInit [] := by
  refine ⟨⟨.leaf, ⟨⟨rfl, fun h => absurd rfl h, trivial, nodup_nil⟩, rfl, trivial, by simp [CtxPainted], rfl, trivial, trivial⟩,
    rfl, rfl, 0, rfl⟩, rfl, List.Pairwise.nil⟩

theorem Rep.nodup (h : Rep t xs) : xs.Nodup := by
  obtain ⟨s, hs, rfl, _⟩ := h.tree
  exact hs.focus.nodup_tree

theorem Rep.ne_zero (h : Rep t xs) (ha : a ∈ xs) : a ≠ 0 := by
  obtain ⟨s, hs, rfl, _⟩ := h.tree
  exact hs.focus.tree.root_ne ha

/-! ## Insertion -/

variable {item : ℕ → Item} {m m' : Mem (ℕ → ℕ)} {k : List Frame} {s : Shape} {node : ℕ} {c : Color}

/-- the side of `a` on which `node` belongs -/
def sideOf (item : ℕ → Item) (node a : ℕ) : Side := if compareOrder (item node) (item a) = .lt then .left else .right

theorem sideOf_left : sideOf item node a = .left ↔ (item node).key < (item a).key := by
  rw [← compareOrder_lt_iff]
  unfold sideOf
  split_ifs with h <;> simp [h]

theorem sideOf_cases (hne : (item a).key ≠ (item node).key) :
    sideOf item node a = .left ∧ (item node).key < (item a).key ∨ sideOf item node a = .right ∧ (item a).key < (item node).key := by
  cases h : sideOf item node a with
  | left => exact Or.inl ⟨rfl, sideOf_left.1 h⟩
  | right =>
    refine Or.inr ⟨rfl, lt_of_le_of_ne (not_lt.1 fun hlt => ?_) hne⟩
    rw [sideOf_left.2 hlt] at h
    cases h

/-- the end of the descent: an empty position between the smaller and the larger nodes, counted in above -/
structure Descended (item : ℕ → Item) (node : ℕ) (m m' : Mem (ℕ → ℕ)) (k : List Frame) (parent : ℕ) : Prop where
  sameChild : m'.child = m.child
  sameParent : m'.parent = m.parent
  sameColor : m'.color = m.color
  sameRoot : m'.root = m.root
  last : parent = top k
  csized : CtxSized subtreeSize m'.aug k 1
  other : ∀ a, a ∉ addrs k → m'.aug a = m.aug a
  between : Between (fun a => (item a).key < (item node).key) (fun a => (item node).key < (item a).key) k

theorem insertDescend_spec (node fuel : ℕ)
    (hf : Focus m k s) (hs : Sized subtreeSize m.aug s) (hk : CtxSized subtreeSize m.aug k (s.size + 1))
    (hsort : Sorted item (plug k s).inorder) (hne : ∀ a ∈ s.inorder, (item a).key ≠ (item node).key)
    (hb : Between (fun a => (item a).key < (item node).key) (fun a => (item node).key < (item a).key) k) (hfuel : s.size < fuel) :
    ∃ k', plug k' .leaf = plug k s ∧ (∀ a ∈ addrs k, a ∈ addrs k') ∧
      Descended item node m (insertDescend item node fuel m (top k) s.root).1 k'
        (insertDescend item node fuel m (top k) s.root).2 := by
  induction fuel generalizing m k s with
  | zero => omega
  | succ fuel ih =>
    by_cases hroot : s.root = 0
    · obtain rfl := hf.tree.eq_leaf hroot
      rw [show Shape.leaf.root = 0 from rfl, insertDescend, if_pos rfl]
      exact ⟨k, rfl, fun _ ha => ha, rfl, rfl, rfl, rfl, rfl, hk, fun _ _ => rfl, hb⟩
    · -- the subtree the descent enters is named first
      obtain ⟨l, a, c, r, heq⟩ := Shape.eq_branch hroot (sideOf item node s.root)
      have hsa : s.root = a := by rw [heq, Shape.branch_root]
      rw [hsa] at heq
      subst heq
      set d := sideOf item node a with hd
      obtain ⟨ha, ⟨cl, _, _⟩, _⟩ := (isTree_branch _ _ _ _ _ _).1 hf.tree
      obtain ⟨hsize, hsl, hsr⟩ := (sized_branch _ _ _ _ _ _ _).1 hs
      obtain ⟨nla, nra, _⟩ := nodup_branch hf.nodup_tree
      have nka : a ∉ addrs k := hf.disjoint (Shape.mem_branch.2 (Or.inl rfl))
      set m1 : Mem (ℕ → ℕ) := { m with aug := update m.aug a (m.aug a + 1) } with hm1
      have keep : ∀ b, b ≠ a → m1.aug b = m.aug b := fun b hb => update_of_ne hb _ _
      have keepSized : ∀ s, a ∉ s.inorder → Sized subtreeSize m.aug s → Sized subtreeSize m1.aug s :=
        fun s hn hs => hs.congr fun b hb n h => (keep b fun hc => hn (hc ▸ hb)).trans h
      have hself : m1.aug a = l.size + 1 + r.size + 1 := by
        have hup : m1.aug a = m.aug a + 1 := update_self _ _ _
        rw [hup, show m.aug a = l.size + r.size + 1 from hsize]
        omega
      have hk1 : CtxSized subtreeSize m1.aug k (l.size + 1 + r.size + 1) := by
        rw [Shape.branch_size, show l.size + r.size + 1 + 1 = l.size + 1 + r.size + 1 by omega] at hk
        exact hk.congr fun b hb n h => (keep b fun hc => nka (hc ▸ hb)).trans h
      rw [Shape.branch_size] at hfuel
      obtain ⟨k', h1, h2, h3⟩ := ih (k := ⟨d, a, c, r⟩ :: k) (s := l)
        ((focus_cons m1 ⟨d, a, c, r⟩ k l).2 (hf.of_links rfl rfl rfl)) (keepSized l nla hsl) ⟨hself, keepSized r nra hsr, hk1⟩ hsort
        (fun b hb => hne b (Shape.mem_branch.2 (Or.inr (Or.inl hb))))
        (hb.down (hsort.imp fun hab => ⟨hab.trans, fun h => h.trans hab⟩) (sideOf_cases (hne a (Shape.mem_branch.2 (Or.inl rfl)))))
          (by omega)
      have hstep : insertDescend item node (fuel + 1) m (top k) a = insertDescend item node fuel m1 a l.root := by
        rw [insertDescend, if_neg ha, ← cl, hd]
        unfold sideOf
        split_ifs <;> rfl
      rw [Shape.branch_root, hstep]
      refine ⟨k', h1, fun b hb => h2 b (by simp [addrs, hb]), h3.sameChild, h3.sameParent, h3.sameColor, h3.sameRoot, h3.last, h3.csized,
        fun b hb => ?_, h3.between⟩
      exact (h3.other b hb).trans (keep b fun hc => hb (hc ▸ h2 a (by simp [addrs])))

/-- a node that is linked nowhere and carries what `rbtree_prepare_node` writes -/
structure Fresh (m : Mem (ℕ → ℕ)) (node : ℕ) : Prop where
  ne : node ≠ 0
  child : ∀ d, m.child d node = 0
  color : m.color node = .red
  size : m.aug node = 1

theorem resetNode_fresh (m : Mem (ℕ → ℕ)) (h : node ≠ 0) : Fresh (resetNode m node) node := by
  refine ⟨h, fun d => ?_, ?_, ?_⟩
  · cases d <;> simp [resetNode, Mem.setChild_child]
  · simp [resetNode, Mem.setColor_color]
  · simp [resetNode]

theorem resetNode_isRB (h : IsRB subtreeSize m xs) (h0 : node ≠ 0) (hn : node ∉ xs) : IsRB subtreeSize (resetNode m node) xs := by
  have hne : ∀ a, a = 0 ∨ a ∈ xs → a ≠ node := by
    rintro a (rfl | ha) rfl
    · exact h0 rfl
    · exact hn ha
  obtain ⟨s, hs, rfl, hrb⟩ := h
  refine ⟨s, hs.frame (fun a ha d => ?_) (fun a ha => ?_) (fun a ha => ?_) (fun a n ha h => ?_) rfl, rfl, hrb⟩
  · simp [resetNode, Mem.setChild_child, hne a (Or.inr ha)]
  · simp [resetNode, Mem.setParent_parent, hne a (Or.inr ha)]
  · simp [resetNode, Mem.setColor_color, hne a ha]
  · exact (update_of_ne (hne a ha) _ _).trans h

theorem Rep.setItem (h : Rep t xs) (hn : node ∉ xs) (it : Item) :
    Rep { t with item := update t.item node it } xs := by
  have hne : ∀ x ∈ xs, x ≠ node := fun x hx hc => hn (hc ▸ hx)
  refine ⟨h.tree, h.length, h.sorted.imp_of_mem fun ha hb hlt => ?_⟩
  simpa [update_of_ne (hne _ ha), update_of_ne (hne _ hb)] using hlt

theorem Rep.reset (h : Rep t xs) (h0 : node ≠ 0) (hn : node ∉ xs) :
    Rep { t with mem := resetNode t.mem node } xs :=
  ⟨resetNode_isRB h.tree h0 hn, h.length, h.sorted⟩

theorem rbtreePrepareNode_rep (h : Rep t xs) (h0 : node ≠ 0) (hn : node ∉ xs)
    (score : Score) : Rep (rbtreePrepareNode t node score) xs :=
  Rep.reset (h.setItem hn _) h0 hn

/-- the link the descent leads to is the link to the empty position -/
theorem linkNode_eq {parent : ℕ} (hk : IsCtx m k 0) (hd : Descended item node m m' k parent) :
    linkNode item m' parent node = (setHole m' k node).setParent node (top k) := by
  rw [hd.last]
  unfold linkNode
  cases k with
  | nil => rfl
  | cons f k =>
    have hf0 : f.node ≠ 0 := hk.2.1
    have hside : sideOf item node f.node = f.side := by
      cases hside : f.side with
      | left => exact sideOf_left.2 (hd.between.2 _ (by simp [after, hside]))
      | right =>
        have hlt : (item f.node).key < (item node).key := hd.between.1 _ (by simp [before, hside])
        rcases sideOf_cases hlt.ne with ⟨_, hgt⟩ | ⟨h, _⟩
        · exact absurd hgt hlt.asymm
        · exact h
    rw [top, if_neg hf0, setHole, ← hside]
    unfold sideOf
    split_ifs <;> rfl

/-- the new node, red, at the empty position -/
theorem linkNode_inserting {parent : ℕ}
    (hf : Holds subtreeSize m k .leaf) (hrb : CtxRB k .black 0) (hnode : Fresh m node) (hnk : node ∉ addrs k)
    (hd : Descended item node m m' k parent) :
    Inserting subtreeSize (linkNode item m' parent node) k (.node .leaf node .red .leaf) 0 := by
  rw [linkNode_eq hf.focus.ctx hd]
  refine inserting_leaf (hf.focus.of_links hd.sameChild hd.sameParent hd.sameRoot) (by rw [hd.sameColor, hf.nil])
    (by rw [hd.sameColor]; exact hf.cpainted) ?_ hd.csized hrb hnode.ne hnk (fun d => by rw [hd.sameChild, hnode.child])
    (by rw [hd.sameColor, hnode.color]) ?_
  · exact (hd.other 0 fun hc => hf.focus.ctx.addrs_ne hc rfl).trans hf.base
  · exact (hd.other node hnk).trans hnode.size

/-- **Insertion** of a prepared node whose key is not in the tree puts it at its place in the sequence. -/
theorem rbtreeInsertNode_rep (h : Rep t xs) (hnode : Fresh t.mem node)
    (hn : node ∉ xs) (hne : ∀ a ∈ xs, (t.item a).key ≠ (t.item node).key) :
    ∃ p q, xs = p ++ q ∧ Rep (rbtreeInsertNode t node) (p ++ node :: q) := by
  obtain ⟨s, hs, rfl, hblack, n, hrb⟩ := h.tree
  have hsize : s.size = t.length := by rw [h.length, Shape.size_eq_length]
  obtain ⟨k, hplug, _, hd⟩ := insertDescend_spec node (t.length + 1) hs.focus hs.sized trivial h.sorted hne
    ⟨by simp [before], by simp [after]⟩ (by omega)
  rw [show (top [] : ℕ) = 0 from rfl, show s.root = t.mem.root from hs.focus.ctx.symm] at hd
  rw [show plug [] s = s from rfl] at hplug
  have hfk : Holds subtreeSize t.mem k .leaf := (holds_root _ _ _ _).2 (hplug ▸ hs)
  have hmem : ∀ a ∈ addrs k, a ∈ s.inorder := by
    intro a ha
    rw [← hplug]
    exact (inorder_plug_perm k .leaf).mem_iff.2 (mem_append_right _ ha)
  have hctx : CtxRB k .black 0 := by
    rw [← hplug] at hrb hblack
    obtain ⟨_, rfl, hk⟩ := hrb.unplug hblack
    exact hk
  have hins := linkNode_inserting hfk hctx hnode (fun hc => hn (hmem _ hc)) hd
  have hlen : k.length ≤ t.length + 1 := by
    have := length_add_size_le k .leaf
    rw [hplug] at this
    omega
  have hres := insertFixup_isRB (t.length + 1) hins hlen
  have hsplit : s.inorder = before k ++ after k := by
    rw [← hplug, inorder_plug]
    rfl
  have hsplit' : (plug k (.node .leaf node .red .leaf)).inorder = before k ++ node :: after k := by
    rw [inorder_plug]
    rfl
  refine ⟨before k, after k, hsplit, ⟨hsplit' ▸ hres, ?_, ?_⟩⟩
  · have := congrArg List.length hsplit
    simp only [rbtreeInsertNode, h.length, this, length_append, length_cons]
    omega
  · exact pairwise_insert (hsplit ▸ h.sorted) hd.between.1 hd.between.2

/-! ## Removal -/

variable {n y x : ℕ} {d : Side} {km : List Frame} {l yr : Shape} {cx cy : Color}

/-- another node in the place of a frame's node, with its colour -/
theorem ctxRB_rename (h : CtxRB (km ++ ⟨d, x, cx, l⟩ :: k) c n) : CtxRB (km ++ ⟨d, y, cx, l⟩ :: k) c n := by
  induction km generalizing c n with
  | nil => cases cx <;> exact h
  | cons f km ih =>
    obtain ⟨e, b, cb, v⟩ := f
    cases cb with
    | red => exact ⟨h.1, h.2.1, h.2.2.1, ih h.2.2.2⟩
    | black => exact ⟨h.1, ih h.2⟩

/-- the root of the subtree below a non-empty path is on the path -/
theorem plug_root_mem (f : Frame) (k : List Frame) (s : Shape) : (plug (f :: k) s).root ∈ addrs (f :: k) := by
  induction k generalizing f s with
  | nil => simp [plug, addrs]
  | cons e k ih =>
    rw [plug, addrs]
    exact mem_cons_of_mem _ (mem_append_right _ (ih e _))

/-- `m` is the memory `t`, from which `moved` has been taken out, up to the links of the right subtree of `target`: they are
those of `moved` already -/
structure Readied (m t : Mem (ℕ → ℕ)) (target moved : ℕ) : Prop where
  child : ∀ e a, a ≠ target → a ≠ moved → m.child e a = t.child e a
  left : m.child .left target = t.child .left target
  right : m.child .right moved = t.child .right target
  parent : ∀ a, a ≠ t.child .right target → m.parent a = t.parent a
  below : m.parent (t.child .right target) = moved
  color : m.color = t.color
  aug : m.aug = t.aug
  root : m.root = t.root

/-- the writes of `moveInto` in one step: `moved` below the parent of `target` and above its left subtree -/
theorem moveInto_mem {r : Shape} (hf : Focus m' k (.node l x c r)) (hr : Readied m m' x y) (hyk : y ∉ addrs k) (hy0 : y ≠ 0) :
    (∀ e a, (moveInto m x y).child e a = if isHole k e a then y else if e = .left ∧ a = y then l.root else m.child e a) ∧
      (∀ a, (moveInto m x y).parent a = if a = l.root then y else if a = y then top k else m.parent a) ∧
      (∀ a, (moveInto m x y).color a = if a = y then m.color x else m.color a) ∧
      (moveInto m x y).root = (if k = [] then y else m.root) ∧ ∀ a, a ≠ y → (moveInto m x y).aug a = m.aug a := by
  obtain ⟨hx0, ⟨cl, _, _⟩, cr, _, _⟩ := hf.tree
  obtain ⟨_, nxr, _⟩ := nodup_branch (d := .left) hf.nodup_tree
  have hxk : x ∉ addrs k := hf.disjoint (by simp [Shape.inorder])
  have hx : m.parent x = top k := by
    rw [hr.parent x (by rw [cr]; exact Shape.ne_root hx0 nxr)]
    exact hf.up hx0
  have hrep : replaceChild .left m x y = setHole m k y := by
    refine replaceChild_eq _ _ hx fun f k' hkf => ?_
    subst hkf
    have hfx : f.node ≠ x := fun hc => hxk (by simp [addrs, hc])
    have hfy : f.node ≠ y := fun hc => hyk (by simp [addrs, hc])
    rw [hr.child _ _ hfx hfy, hr.child _ _ hfx hfy]
    exact ⟨hf.ctx.2.1, hf.ctx.1, IsCtx.sib_ne hf hx0⟩
  have hleft : (transplant m x y).child .left x = l.root := by
    rw [transplant, hrep, Mem.setParent_child, setHole_child, if_neg (fun h => hxk h.mem), hr.left, cl]
  refine ⟨fun e a => ?_, fun a => ?_, fun a => ?_, ?_, fun a ha => ?_⟩
  · simp only [moveInto, recalculate_child, Mem.setColor_child, Mem.setParent_child, hleft, Mem.setChild_child]
    simp only [transplant, hrep, Mem.setParent_child, setHole_child]
    by_cases hh : isHole k e a
    · rw [if_neg (fun h : e = .left ∧ a = y => hyk (h.2 ▸ hh.mem)), if_pos hh, if_pos hh]
    · simp [hh]
  · simp only [moveInto, recalculate_parent, Mem.setColor_parent, hleft, Mem.setChild_child, and_self, if_true,
      Mem.setParent_parent, Mem.setChild_parent]
    simp only [transplant, hrep, Mem.setParent_parent, setHole_parent, hx]
  · simp only [moveInto, recalculate_color, Mem.setColor_color, Mem.setParent_color, Mem.setChild_color]
    simp only [transplant, hrep, Mem.setParent_color, setHole_color]
  · simp only [moveInto, recalculate_root, Mem.setColor_root, Mem.setParent_root, Mem.setChild_root, transplant, hrep,
      setHole_root]
  · simp only [moveInto, recalculate, if_neg hy0]
    rw [show ∀ child u, subtreeSize.touch child y u a = u a from fun child u => update_of_ne ha _ _]
    simp only [Mem.setColor_aug, Mem.setParent_aug, Mem.setChild_aug, transplant, hrep, setHole_aug]

/-- `y`, whose own place its right child has taken, replaces a node with two children -/
theorem moveInto_detached {original : Color} (km : List Frame)
    (hd : Detached subtreeSize m' (km ++ ⟨.right, x, cx, l⟩ :: k) yr original) (hr : Readied m m' x y) (hl0 : l.root ≠ 0)
    (hy0 : y ≠ 0) (hyr : y ∉ yr.inorder) (hy : y ∉ addrs (km ++ ⟨.right, x, cx, l⟩ :: k)) :
    Detached subtreeSize (moveInto m x y) (km ++ ⟨.right, y, cx, l⟩ :: k) yr original := by
  have hfoc : Focus m' k (.node l x cx (plug km yr)) :=
    (focus_cons _ ⟨.right, x, cx, l⟩ k _).1 ((focus_plug _ _ _ _).1 hd.focus)
  simp only [addrs_append, addrs, mem_append, mem_cons, not_or] at hy
  obtain ⟨nykm, _, nyl, nyk⟩ := hy
  have nyr : y ∉ (plug km yr).inorder := fun hc =>
    (mem_append.1 ((inorder_plug_perm km yr).mem_iff.1 hc)).elim hyr nykm
  obtain ⟨m1, m2, m3, m4, m5⟩ := moveInto_mem hfoc hr nyk hy0
  obtain ⟨_, ⟨cl, _, tl⟩, cr, _, _⟩ := hfoc.tree
  obtain ⟨_, _, _, _, nlr⟩ := nodup_branch (d := .left) hfoc.nodup_tree
  have hrl : ∀ a, a ∉ l.inorder → a ≠ l.root := fun a ha hc => ha (hc ▸ Shape.root_mem hl0)
  have nyhole : ∀ e, ¬ isHole k e y := fun e h => nyk h.mem
  have hnd : ((Shape.node l y cx (plug km yr)).inorder ++ addrs k).Nodup := by
    have hold := hfoc.nodup
    simp only [Shape.inorder, append_assoc, cons_append] at hold ⊢
    refine (perm_middle.nodup_iff).2 (nodup_cons.2 ⟨by simp [nyl, nyr, nyk], ?_⟩)
    exact (nodup_cons.1 (perm_middle.nodup_iff.1 hold)).2
  have hfocus : Focus (moveInto m x y) k (.node l y cx (plug km yr)) := by
    refine hfoc.rename hnd hy0 ?_ ?_ (fun _ => ?_) (fun hne => ?_) (fun e a hax hay hh => ?_) (fun a hay hal har => ?_) ?_ ?_
      fun hne => ?_
    · rw [m1, if_neg (nyhole _), if_pos ⟨rfl, rfl⟩]
    · rw [m1, if_neg (nyhole _), if_neg (by simp), hr.right, cr]
    · rw [m2, if_pos rfl]
    · have hmem := Shape.root_mem hne
      rw [m2, if_neg (hrl _ fun hc => nlr _ hc hmem), if_neg (fun hc : (plug km yr).root = y => nyr (hc ▸ hmem)), ← cr, hr.below]
    · rw [m1, if_neg hh, if_neg (fun hc => hay hc.2), hr.child e a hax hay]
    · rw [m2, if_neg hal, if_neg hay, hr.parent a (by rw [cr]; exact har)]
    · cases k with
      | nil => exact m4
      | cons f k => exact (m1 _ _).trans (if_pos ⟨rfl, rfl⟩)
    · rw [m2, if_neg (hrl y nyl), if_pos rfl]
    · rw [m4, if_neg hne, hr.root]
  have keepColor : ∀ a, a ≠ y → (moveInto m x y).color a = m'.color a := fun a ha => by rw [m3, if_neg ha, hr.color]
  have keepSize : ∀ a, a ≠ y → (moveInto m x y).aug a = m'.aug a := fun a ha => by rw [m5 a ha, hr.aug]
  have keepSized : ∀ s, y ∉ s.inorder → Sized subtreeSize m'.aug s → Sized subtreeSize (moveInto m x y).aug s :=
    fun s hs hsz => hsz.congr fun a ha j hj => (keepSize a fun hc => hs (hc ▸ ha)).trans hj
  obtain ⟨p1, ⟨p2, p3⟩, p4⟩ := (forall_mem_append.1 hd.cpainted).imp_right forall_mem_cons.1
  obtain ⟨s1, s2, s3⟩ := (forall_mem_append.1 hd.sibs).imp_right forall_mem_cons.1
  refine ⟨⟨?_, (keepColor 0 (Ne.symm hy0)).trans hd.nil, ?_, ?_, (keepSize 0 (Ne.symm hy0)).trans hd.base, keepSized _ hyr hd.sized, ?_⟩,
    ?_, ?_⟩
  · rw [focus_plug, focus_cons]
    exact hfocus
  · exact hd.painted.congr fun a ha => keepColor a fun hc => hyr (hc ▸ ha)
  · refine forall_mem_append.2 ⟨?_, forall_mem_cons.2 ⟨⟨?_, ?_⟩, ?_⟩⟩
    · exact CtxPainted.congr p1 fun a ha => keepColor a fun hc => nykm (hc ▸ ha)
    · rw [m3, if_pos rfl, hr.color, p2]
    · exact p3.congr fun a ha => keepColor a fun hc => nyl (hc ▸ ha)
    · exact CtxPainted.congr p4 fun a ha => keepColor a fun hc => nyk (hc ▸ ha)
  · refine forall_mem_append.2 ⟨fun f hf => ?_, forall_mem_cons.2 ⟨keepSized _ nyl s2, fun f hf => ?_⟩⟩
    · exact keepSized _ (fun hc => nykm (mem_addrs_sib hf hc)) (s1 f hf)
    · exact keepSized _ (fun hc => nyk (mem_addrs_sib hf hc)) (s3 f hf)
  · have hyy : yr.root ≠ y := fun hc => hyr (hc ▸ Shape.root_mem (hc ▸ hy0))
    have hyrl : yr.root ≠ l.root := hrl _ fun hc =>
      nlr _ hc ((inorder_plug_perm km yr).mem_iff.2 (mem_append_left _ (Shape.root_mem (tl.root_ne hc))))
    rw [m2, if_neg hyrl, if_neg hyy]
    cases km with
    | nil => exact (congrArg m.parent cr.symm).trans hr.below
    | cons f km =>
      have hroot := plug_root_mem f km yr
      have hne : yr.root ≠ (plug (f :: km) yr).root := by
        intro hc
        have h0 := hd.focus.ctx.addrs_ne (by rw [addrs_append]; exact mem_append_left _ hroot)
        refine hd.focus.disjoint (Shape.root_mem (hc ▸ h0)) ?_
        rw [hc, addrs_append]
        exact mem_append_left _ hroot
      rw [hr.parent _ (by rw [cr]; exact hne)]
      exact hd.parent
  · rcases hd.colors with ⟨h1, n, h2, h3⟩ | ⟨h1, n, h2, h3⟩
    · exact Or.inl ⟨h1, n, h2, ctxRB_rename h3⟩
    · exact Or.inr ⟨h1, n, h2, ctxRB_rename h3⟩

/-- the removal of any node of the tree -/
theorem detachLinks_spec {fuel : ℕ} (h : Holds subtreeSize m [] s)
    (hblack : s.color = .black) (hrb : RB s n) (hx : x ∈ s.inorder) (hf : s.size ≤ fuel) :
    ∃ k s', Detached subtreeSize (detachLinks fuel m x).1 k s' (detachLinks fuel m x).2.2.2 ∧ (detachLinks fuel m x).2.1 = s'.root ∧
      (detachLinks fuel m x).2.2.1 = top k ∧ (plug k s').inorder = s.inorder.erase x := by
  obtain ⟨k, l, cx, r, rfl⟩ := exists_position hx
  have hk : Holds subtreeSize m k (.node l x cx r) := (holds_root _ _ _ _).2 h
  obtain ⟨hx0, ⟨cl, ul, tl⟩, cr, ur, tr⟩ := hk.focus.tree
  have hup : m.parent x = top k := hk.focus.up hx0
  rw [erase_plug h.focus.nodup_tree]
  unfold detachLinks
  by_cases hl : l.root = 0
  · obtain rfl := tl.eq_leaf hl
    rw [if_pos (by rw [cl]; rfl), cr]
    refine ⟨k, r, transplant_detached (d := .left) hk hblack hrb, rfl, hup, ?_⟩
    rw [inorder_plug]
    rfl
  · rw [if_neg (by rw [cl]; exact hl)]
    by_cases hr : r.root = 0
    · obtain rfl := tr.eq_leaf hr
      rw [if_pos (by rw [cr]; rfl), cl]
      refine ⟨k, l, transplant_detached (d := .right) hk hblack hrb, rfl, hup, ?_⟩
      rw [inorder_plug]
      simp [Shape.inorder]
    · rw [if_neg (by rw [cr]; exact hr), cr]
      have hrsize : r.size ≤ fuel := by
        have := length_add_size_le k (.node l x cx r)
        simp only [Shape.size] at this
        omega
      obtain ⟨km, y, cy, yr, heq, hleft, hmin⟩ := minimum_spec fuel tr hr hrsize
      simp only [hmin]
      have hpath : plug k (.node l x cx r) = plug (km ++ ⟨.right, x, cx, l⟩ :: k) (.node .leaf y cy yr) := by
        rw [plug_append, ← heq]
        rfl
      have hbig : Holds subtreeSize m (km ++ ⟨.right, x, cx, l⟩ :: k) (.node .leaf y cy yr) := by
        rw [holds_root, ← hpath]
        exact h
      rw [hpath] at hrb hblack
      have hyr : m.child .right y = yr.root := hbig.focus.tree.2.2.1
      have hpy : m.parent y = top (km ++ ⟨.right, x, cx, l⟩ :: k) := hbig.focus.up hbig.focus.tree.1
      have hres : (plug (km ++ ⟨.right, y, cx, l⟩ :: k) yr).inorder = before k ++ ((l.inorder ++ r.inorder) ++ after k) := by
        rw [plug_append, plug, inorder_plug, heq, inorder_plug]
        simp [Shape.branch, Shape.inorder, inorder_plug, before_left hleft]
      -- the successor leaves its place first; then it takes that of `x`
      have hy := hbig.focus.disjoint (a := y) (by simp [Shape.inorder])
      have hnyr := (nodup_branch (d := .left) hbig.focus.nodup_tree).2.1
      obtain ⟨_, _, g3, g4, g5, g6, g7⟩ := transplant_focus hbig.focus hbig.focus.tree.1 hbig.focus.tree.2.2.2.2
        (hbig.focus.nodup.sublist (List.Sublist.append_right (by simp [Shape.inorder]) _))
      rw [show (Shape.node .leaf y cy yr).root = y from rfl] at g3 g4 g5 g6 g7
      have hmoved := fun m1 hready => moveInto_detached (m := m1) km (transplant_detached (d := .left) hbig hblack hrb) hready hl
        hbig.focus.tree.1 hnyr hy
      cases km with
      | nil =>
        rw [if_pos (by rw [hpy]; rfl), hyr]
        have hright : (transplant m y yr.root).child .right x = yr.root := (g4 _ _).trans (if_pos ⟨rfl, rfl⟩)
        refine ⟨⟨.right, y, cx, l⟩ :: k, yr, hmoved _ ⟨fun e a hax _ => ?_, ?_, ?_, fun a ha => ?_, ?_, g5.symm, g6.symm, ?_⟩, rfl, rfl,
          hres⟩
        · rw [Mem.setParent_child, g4, if_neg (fun hh => hax hh.2)]
        · rw [Mem.setParent_child, g4, if_neg (by simp [isHole])]
        · rw [hright, Mem.setParent_child, hyr]
        · rw [hright] at ha
          rw [Mem.setParent_parent, if_neg ha, g3 a ha]
        · rw [hright, Mem.setParent_parent, if_pos rfl]
        · rw [g7, if_neg (by simp)]
          rfl
      | cons f km =>
        have htop : m.parent y = f.node := hpy
        have hfx : f.node ≠ x := by
          have hnd := hbig.focus.nodup_ctx
          rw [addrs_append] at hnd
          exact (nodup_append.1 hnd).2.2 _ (by simp [addrs]) _ (by simp [addrs])
        rw [if_neg (by rw [htop]; exact hfx), hyr]
        have hyx : x ≠ y := fun hc => hy (by rw [addrs_append]; simp [addrs, hc])
        have hself : ∀ (q : Mem (ℕ → ℕ)) v, (q.setChild .right y v).child .right y = v := fun q v => by
          rw [Mem.setChild_child, if_pos ⟨rfl, rfl⟩]
        refine ⟨(f :: km) ++ ⟨.right, y, cx, l⟩ :: k, yr, hmoved _ ⟨fun e a _ hay => ?_, ?_, ?_, fun a ha => ?_, ?_, rfl, rfl, rfl⟩, rfl,
          htop, hres⟩
        · rw [Mem.setParent_child, Mem.setChild_child_of_ne _ _ _ _ hay]
        · rw [Mem.setParent_child, Mem.setChild_child_of_ne _ _ _ _ hyx]
        · rw [Mem.setParent_child, hself]
        · rw [hself, Mem.setParent_parent, if_neg ha, Mem.setChild_parent]
        · rw [hself, Mem.setParent_parent, if_pos rfl]

theorem top_eq_or_mem (h : Focus m k s) :
    top k = 0 ∨ top k ∈ (plug k s).inorder := by
  by_cases h0 : top k = 0
  · exact Or.inl h0
  · refine Or.inr ((inorder_plug_perm k s).mem_iff.2 (mem_append_right _ ?_))
    exact top_mem h.ctx h0

theorem parent_eq_or_mem (h : IsRB subtreeSize m xs) (ha : a ∈ xs) :
    m.parent a = 0 ∨ m.parent a ∈ xs := by
  obtain ⟨s, hs, rfl, _⟩ := h
  obtain ⟨k, l, c, r, rfl⟩ := exists_position ha
  have hf : Focus m k (.node l a c r) := (focus_root _ _ _).2 hs.focus
  rw [show m.parent a = top k from hf.up hf.tree.1]
  exact top_eq_or_mem hf

/-- recomputing sizes that are right changes nothing that matters -/
theorem recalculateUp_isRB {fuel : ℕ} (h : IsRB subtreeSize m xs) (ha : a = 0 ∨ a ∈ xs)
    (hf : xs.length ≤ fuel) : IsRB subtreeSize (recalculateUp subtreeSize fuel m a) xs := by
  rcases ha with rfl | ha
  · cases fuel <;> exact h
  · obtain ⟨s, hs, rfl, hrb⟩ := h
    obtain ⟨k, l, c, r, rfl⟩ := exists_position ha
    have hk : Holds subtreeSize m (⟨.left, a, c, r⟩ :: k) l := (holds_root _ _ _ _).2 hs
    have hlen : (⟨.left, a, c, r⟩ :: k : List Frame).length ≤ fuel := by
      have := length_add_size_le (⟨.left, a, c, r⟩ :: k) l
      rw [Shape.size_eq_length (plug _ _)] at this
      exact (Nat.le_of_add_right_le this).trans hf
    obtain ⟨i1, _, _⟩ := recalculateUp_holds fuel hk.loose hlen
    exact ⟨plug k (.node l a c r), (holds_root _ _ (⟨.left, a, c, r⟩ :: k) l).1 i1, rfl, hrb⟩

/-- **Removal** of a node of the tree takes it out of the sequence. -/
theorem rbtreeDetachNode_rep {target : ℕ} (h : Rep t xs) (ht : target ∈ xs) :
    Rep (rbtreeDetachNode t target) (xs.erase target) := by
  refine ⟨?_, ?_, ?_⟩
  · obtain ⟨s, hs, rfl, hblack, n, hrb⟩ := h.tree
    have hsize : s.size = t.length := by rw [h.length, Shape.size_eq_length]
    obtain ⟨k, s', hd, hfix, hfrom, hxs⟩ := detachLinks_spec hs hblack hrb ht hsize.le
    simp only [rbtreeDetachNode, hfix, hfrom]
    rw [← hxs]
    set q := detachLinks t.length t.mem target with hq
    have hxlen : (plug k s').inorder.length ≤ t.length := by
      rw [hxs, h.length]
      exact length_erase_le
    have hlen : k.length ≤ t.length := by
      have := length_add_size_le k s'
      rw [Shape.size_eq_length (plug k s')] at this
      omega
    obtain ⟨r1, _, r3⟩ := recalculateUp_holds t.length hd.toLoose hlen
    set m2 := recalculateUp subtreeSize t.length q.1 (top k) with hm2
    have hparent : m2.parent s'.root = top k := by rw [r3, hd.parent]
    -- the tree before sizes are recomputed once more, and where that starts
    obtain ⟨m3, hm3⟩ : ∃ m3, (if q.2.2.2 = .black then deleteFixup subtreeSize t.length m2 s'.root else m2) = m3 := ⟨_, rfl⟩
    have hfixed : IsRB subtreeSize m3 (plug k s').inorder ∧ m3.parent 0 = m2.parent 0 := by
      rw [← hm3]
      rcases hd.colors with ⟨horig, j, h1, h2⟩ | ⟨horig, j, h1, h2⟩
      · rw [if_neg (by rw [horig]; simp)]
        exact ⟨(isRB_of_plug r1 h1 h2).2, rfl⟩
      · rw [if_pos horig]
        exact deleteFixup_isRB t.length ⟨r1, hparent, h1, h2⟩ hlen
    obtain ⟨f1, f2⟩ := hfixed
    rw [hm3]
    refine recalculateUp_isRB f1 ?_ hxlen
    by_cases h0 : s'.root = 0
    · rw [h0] at hparent
      rw [h0, f2, hparent]
      exact top_eq_or_mem hd.focus
    · exact parent_eq_or_mem f1 ((inorder_plug_perm k s').mem_iff.2 (mem_append_left _ (Shape.root_mem h0)))
  · rw [length_erase_of_mem ht, ← h.length]
    rfl
  · exact h.sorted.sublist erase_sublist

/-! ## Ranks and successors -/

theorem byRankFrom_spec (hb : m.aug 0 = 0) (fuel : ℕ) (ht : IsTree m s)
    (hs : Sized subtreeSize m.aug s) (hf : s.size < fuel) (rank : ℕ) :
    byRankFrom m fuel s.root rank = s.inorder[rank]? := by
  induction fuel generalizing s rank with
  | zero => omega
  | succ fuel ih =>
    cases s with
    | leaf => simp [byRankFrom, Shape.root, Shape.inorder]
    | node l a c r =>
      obtain ⟨ha, ⟨cl, _, tl⟩, cr, _, tr⟩ := ht
      have hsize : m.aug (m.child .left a) = l.inorder.length := by
        rw [cl, ← Shape.size_eq_length]
        exact hs.2.1.root hb
      simp only [Shape.size] at hf
      rw [show (Shape.node l a c r).root = a from rfl, byRankFrom, if_neg ha]
      simp only [hsize, Shape.inorder]
      by_cases h1 : rank < l.inorder.length
      · rw [if_pos h1, cl, ih tl hs.2.1 (by omega), List.getElem?_append_left h1]
      · rw [if_neg h1, List.getElem?_append_right (by omega)]
        by_cases h2 : rank = l.inorder.length
        · rw [if_pos h2, h2, Nat.sub_self, List.getElem?_cons_zero]
        · obtain ⟨j, hj⟩ : ∃ j, rank - l.inorder.length = j + 1 := ⟨rank - l.inorder.length - 1, by omega⟩
          rw [if_neg h2, cr, ih tr hs.2.2 (by omega), hj, List.getElem?_cons_succ]
          congr 1
          omega

/-- the node at a rank is the one at that index of the sequence -/
theorem rbtreeByRank_spec (h : Rep t xs) (rank : ℕ) : rbtreeByRank t rank = xs[rank]? := by
  obtain ⟨s, hs, rfl, _⟩ := h.tree
  have hsize : s.size = t.length := by rw [h.length, Shape.size_eq_length]
  rw [rbtreeByRank, show t.mem.root = s.root from hs.focus.ctx]
  exact byRankFrom_spec hs.base _ hs.focus.tree hs.sized (by omega) rank

/-- the successor of a node is the next one of the sequence, `nil` at its end -/
theorem rbSuccessor_spec {p q : List ℕ} (h : Rep t (p ++ a :: q)) :
    rbSuccessor t a = q.head?.getD 0 := by
  obtain ⟨s, hs, hxs, _⟩ := h.tree
  have ha : a ∈ s.inorder := by rw [hxs]; simp
  have hsize : s.size = t.length := by rw [h.length, Shape.size_eq_length, hxs]
  obtain ⟨k, l, c, r, rfl⟩ := exists_position ha
  rw [rbSuccessor, successor_spec t.length ((focus_root _ _ _).2 hs.focus) hsize.le]
  have hnd : (p ++ a :: q).Nodup := h.nodup
  have hsplit : (before k ++ l.inorder) ++ a :: (r.inorder ++ after k) = p ++ a :: q := by
    rw [← hxs, inorder_plug]
    simp [Shape.inorder]
  rw [← hsplit] at hnd
  obtain ⟨_, hcons, hdis⟩ := nodup_append.1 hnd
  have hleft : a ∉ before k ++ l.inorder := fun hc => hdis a hc a mem_cons_self rfl
  rw [((append_cons_inj_of_notMem hleft (nodup_cons.1 hcons).1).1 hsplit).2.2]

end StoreSystem.Rb
