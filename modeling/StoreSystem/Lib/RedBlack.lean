/-
Pointer red-black trees with parent links and a sentinel, as textbooks and C programs write them.

The memory is one array per field, indexed by addresses; address 0 is the sentinel. The left and the right child are the
two sides of one array, so that mirrored code is one definition and its correctness one proof. A tree may carry an
augmentation (a subtree size, say) that rotations recompute; `Augment` says what is needed of it.

A tree in memory is described by its `Shape`, with the colours, a position in it by a subtree and the `Frame`s above it. `Focus`
says that memory links the tree `plug k s` with the subtree `s` in focus, `Holds` that it paints it too.

Results: rotations, recolouring, `insertFixup` and `deleteFixup` keep the in-order sequence and the links, terminate, and
re-establish the red-black invariant `RB` from the one violation an insertion or a deletion leaves behind.
-/
import Mathlib.Tactic

namespace RedBlack

open List Function

/-! ## Memory -/

inductive Color
  | red
  | black
deriving DecidableEq, Repr

inductive Side
  | left
  | right
deriving DecidableEq, Repr

def Side.flip : Side → Side
  | .left => .right
  | .right => .left

@[simp] theorem Side.flip_flip (d : Side) : d.flip.flip = d := by cases d <;> rfl

@[simp] theorem Side.flip_ne (d : Side) : d.flip ≠ d := by cases d <;> simp [Side.flip]

@[simp] theorem Side.ne_flip (d : Side) : d ≠ d.flip := by cases d <;> simp [Side.flip]

theorem Side.eq_or_flip (d e : Side) : e = d ∨ e = d.flip := by cases d <;> cases e <;> simp [Side.flip]

structure Mem (A : Type) where
  child : Side → ℕ → ℕ
  parent : ℕ → ℕ
  color : ℕ → Color
  root : ℕ
  aug : A

variable {A : Type}

namespace Mem

variable (t : Mem A) (d : Side) (a v : ℕ) (c : Color)

def setChild : Mem A :=
  { t with child := update t.child d (update (t.child d) a v) }

def setParent : Mem A := { t with parent := update t.parent a v }

def setColor : Mem A := { t with color := update t.color a c }

def setRoot : Mem A := { t with root := v }

theorem setChild_child (d e : Side) (a b v : ℕ) : (t.setChild d a v).child e b = if e = d ∧ b = a then v else t.child e b := by
  by_cases he : e = d
  · subst he
    by_cases hb : b = a
    · simp [setChild, hb]
    · simp [setChild, hb]
  · simp [setChild, he]

theorem setChild_child_of_ne (d e : Side) {a b : ℕ} (v : ℕ) (h : b ≠ a) : (t.setChild d a v).child e b = t.child e b := by
  rw [setChild_child, if_neg fun hc => h hc.2]

theorem setChild_comm (d e : Side) {a b : ℕ} (v w : ℕ) (h : a ≠ b) :
    (t.setChild d a v).setChild e b w = (t.setChild e b w).setChild d a v := by
  have hchild : ((t.setChild d a v).setChild e b w).child = ((t.setChild e b w).setChild d a v).child := by
    funext i j
    simp only [setChild_child]
    split_ifs with h1 h2 <;> grind
  simp only [setChild] at hchild ⊢
  rw [hchild]

@[simp] theorem setChild_parent : (t.setChild d a v).parent = t.parent := rfl
@[simp] theorem setChild_color : (t.setChild d a v).color = t.color := rfl
@[simp] theorem setChild_root : (t.setChild d a v).root = t.root := rfl
@[simp] theorem setChild_aug : (t.setChild d a v).aug = t.aug := rfl

theorem setParent_parent (a b v : ℕ) : (t.setParent a v).parent b = if b = a then v else t.parent b := by
  simp [setParent, update_apply]

@[simp] theorem setParent_child : (t.setParent a v).child = t.child := rfl
@[simp] theorem setParent_color : (t.setParent a v).color = t.color := rfl
@[simp] theorem setParent_root : (t.setParent a v).root = t.root := rfl
@[simp] theorem setParent_aug : (t.setParent a v).aug = t.aug := rfl

theorem setColor_color (a b : ℕ) (c : Color) : (t.setColor a c).color b = if b = a then c else t.color b := by
  simp [setColor, update_apply]

@[simp] theorem setColor_child : (t.setColor a c).child = t.child := rfl
@[simp] theorem setColor_parent : (t.setColor a c).parent = t.parent := rfl
@[simp] theorem setColor_root : (t.setColor a c).root = t.root := rfl
@[simp] theorem setColor_aug : (t.setColor a c).aug = t.aug := rfl

@[simp] theorem setRoot_child : (t.setRoot v).child = t.child := rfl
@[simp] theorem setRoot_parent : (t.setRoot v).parent = t.parent := rfl
@[simp] theorem setRoot_color : (t.setRoot v).color = t.color := rfl
@[simp] theorem setRoot_root : (t.setRoot v).root = v := rfl
@[simp] theorem setRoot_aug : (t.setRoot v).aug = t.aug := rfl

end Mem

/-- a value kept at every node and recomputed from its children: `touch` recomputes it at one node, `holds u a n` says
that it is right at `a` for a subtree of `n` nodes -/
structure Augment (A : Type) where
  touch : (Side → ℕ → ℕ) → ℕ → A → A
  holds : A → ℕ → ℕ → Prop
  touch_self : ∀ child a u m n, holds u (child .left a) m → holds u (child .right a) n →
    holds (touch child a u) a (m + n + 1)
  touch_other : ∀ child a u b n, b ≠ a → (holds (touch child a u) b n ↔ holds u b n)

/-- no augmentation -/
def plain : Augment Unit where
  touch _ _ u := u
  holds _ _ _ := True
  touch_self _ _ _ _ _ _ _ := trivial
  touch_other _ _ _ _ _ _ := Iff.rfl

section

variable (g : Augment A) (d : Side) (t : Mem A)

/-- recompute the augmentation of a node, unless it is the sentinel -/
def recalculate (a : ℕ) : Mem A :=
  if a = 0 then t else { t with aug := g.touch t.child a t.aug }

@[simp] theorem recalculate_child (a : ℕ) : (recalculate g t a).child = t.child := by
  unfold recalculate; split_ifs <;> rfl

@[simp] theorem recalculate_parent (a : ℕ) : (recalculate g t a).parent = t.parent := by
  unfold recalculate; split_ifs <;> rfl

@[simp] theorem recalculate_color (a : ℕ) : (recalculate g t a).color = t.color := by
  unfold recalculate; split_ifs <;> rfl

@[simp] theorem recalculate_root (a : ℕ) : (recalculate g t a).root = t.root := by
  unfold recalculate; split_ifs <;> rfl

/-! ## Operations -/

/-- let the parent of `x` point to `y` instead; which child link is tried first is `d` -/
def replaceChild (x y : ℕ) : Mem A :=
  if t.parent x = 0 then t.setRoot y
  else if x = t.child d (t.parent x) then t.setChild d (t.parent x) y
  else t.setChild d.flip (t.parent x) y

/-- rotate `x` down to the side `d`; `d = left` is the left rotation -/
def rotate (x : ℕ) : Mem A :=
  let y := t.child d.flip x
  let t := t.setChild d.flip x (t.child d y)
  let t := if t.child d y ≠ 0 then t.setParent (t.child d y) x else t
  let t := t.setParent y (t.parent x)
  let t := replaceChild d t x y
  let t := t.setChild d y x
  let t := t.setParent x y
  recalculate g (recalculate g t x) y

/-- put `replacement` in the place of `old` -/
def transplant (old replacement : ℕ) : Mem A :=
  (replaceChild .left t old replacement).setParent replacement (t.parent old)

/-- the loop body of the insertion fix-up when the parent of `node` is the child on side `d`; returns the next node -/
def insertFixupSide (node : ℕ) : Mem A × ℕ :=
  let uncle := t.child d.flip (t.parent (t.parent node))
  if t.color uncle = .red then
    let t := t.setColor (t.parent node) .black
    let t := t.setColor uncle .black
    let t := t.setColor (t.parent (t.parent node)) .red
    (t, t.parent (t.parent node))
  else
    let (t, node) : Mem A × ℕ :=
      if node = t.child d.flip (t.parent node) then (rotate g d t (t.parent node), t.parent node) else (t, node)
    let t := t.setColor (t.parent node) .black
    let t := t.setColor (t.parent (t.parent node)) .red
    (rotate g d.flip t (t.parent (t.parent node)), node)

/-- the insertion fix-up; `fuel` bounds the height of the tree -/
def insertFixup : ℕ → Mem A → ℕ → Mem A
  | 0, t, _ => t.setColor t.root .black
  | fuel + 1, t, node =>
    if t.color (t.parent node) = .red then
      let d : Side := if t.parent node = t.child .left (t.parent (t.parent node)) then .left else .right
      let r := insertFixupSide g d t node
      insertFixup fuel r.1 r.2
    else t.setColor t.root .black

/-- the last case of the deletion fix-up: the far nephew is red -/
def deleteFixupFinal (node sibling : ℕ) : Mem A × ℕ :=
  let t := t.setColor sibling (t.color (t.parent node))
  let t := t.setColor (t.parent node) .black
  let t := t.setColor (t.child d.flip sibling) .black
  let t := rotate g d t (t.parent node)
  (t, t.root)

/-- the cases of the deletion fix-up with a black sibling -/
def deleteFixupBlack (node sibling : ℕ) : Mem A × ℕ :=
  if t.color (t.child d sibling) = .black ∧ t.color (t.child d.flip sibling) = .black then
    (t.setColor sibling .red, t.parent node)
  else if t.color (t.child d.flip sibling) = .black then
    let t := t.setColor (t.child d sibling) .black
    let t := t.setColor sibling .red
    let t := rotate g d.flip t sibling
    deleteFixupFinal g d t node (t.child d.flip (t.parent node))
  else deleteFixupFinal g d t node sibling

/-- the loop body of the deletion fix-up when `node` is the child on side `d`; returns the next node -/
def deleteFixupSide (node : ℕ) : Mem A × ℕ :=
  let sibling := t.child d.flip (t.parent node)
  if t.color sibling = .red then
    let t := t.setColor sibling .black
    let t := t.setColor (t.parent node) .red
    let t := rotate g d t (t.parent node)
    deleteFixupBlack g d t node (t.child d.flip (t.parent node))
  else deleteFixupBlack g d t node sibling

/-- the deletion fix-up; `fuel` bounds the height of the tree -/
def deleteFixup : ℕ → Mem A → ℕ → Mem A
  | 0, t, node => t.setColor node .black
  | fuel + 1, t, node =>
    if node ≠ t.root ∧ t.color node = .black then
      let d : Side := if node = t.child .left (t.parent node) then .left else .right
      let r := deleteFixupSide g d t node
      deleteFixup fuel r.1 r.2
    else t.setColor node .black

end

/-! ## Shapes and positions -/

inductive Shape
  | leaf
  | node (l : Shape) (a : ℕ) (c : Color) (r : Shape)
deriving DecidableEq, Repr

namespace Shape

/-- the address of the root, the sentinel for a leaf -/
def root : Shape → ℕ
  | leaf => 0
  | node _ a _ _ => a

def color : Shape → Color
  | leaf => .black
  | node _ _ c _ => c

def inorder : Shape → List ℕ
  | leaf => []
  | node l a _ r => l.inorder ++ a :: r.inorder

def size : Shape → ℕ
  | leaf => 0
  | node l _ _ r => l.size + r.size + 1

variable (d : Side) (s : Shape) (a : ℕ) (c : Color) (s' : Shape)

/-- the node `a` with `s` on side `d` and `s'` on the other -/
def branch : Shape :=
  match d with
  | .left => node s a c s'
  | .right => node s' a c s

@[simp] theorem branch_root : (branch d s a c s').root = a := by
  cases d <;> rfl

@[simp] theorem branch_color : (branch d s a c s').color = c := by
  cases d <;> rfl

@[simp] theorem branch_size : (branch d s a c s').size = s.size + s'.size + 1 := by
  cases d
  · rfl
  · simp only [branch, size]; omega

theorem branch_flip : branch d.flip s a c s' = branch d s' a c s := by
  cases d <;> rfl

theorem inorder_perm_branch :
    List.Perm (branch d s a c s').inorder (a :: (s.inorder ++ s'.inorder)) := by
  cases d
  · exact perm_middle
  · refine perm_middle.trans (List.Perm.cons a perm_append_comm)

variable {d s a c s'}

theorem mem_branch {b : ℕ} : b ∈ (branch d s a c s').inorder ↔ b = a ∨ b ∈ s.inorder ∨ b ∈ s'.inorder := by
  cases d <;> simp [branch, inorder] <;> tauto

/-- a tree with a root other than the sentinel has two subtrees, on whichever sides they are named -/
theorem eq_branch (h : s.root ≠ 0) (d : Side) : ∃ l a c r, s = branch d l a c r := by
  cases s with
  | leaf => simp [root] at h
  | node l a c r =>
    cases d
    · exact ⟨l, a, c, r, rfl⟩
    · exact ⟨r, a, c, l, rfl⟩

theorem root_mem (h : s.root ≠ 0) : s.root ∈ s.inorder := by
  cases s with
  | leaf => simp [root] at h
  | node l a c r => simp [root, inorder]

theorem ne_root (ha : a ≠ 0) (h : a ∉ s.inorder) : a ≠ s.root := by
  rintro rfl
  exact h (root_mem ha)

theorem size_eq_length (s : Shape) : s.size = s.inorder.length := by
  induction s with
  | leaf => rfl
  | node l a c r ihl ihr => simp [size, inorder, ihl, ihr]; omega

end Shape

/-- one step up from a position: the position is the child of `node` on side `side`, `sib` is the other child -/
structure Frame where
  side : Side
  node : ℕ
  color : Color
  sib : Shape
deriving DecidableEq, Repr

/-- the tree with `s` at the position `k` -/
def plug : List Frame → Shape → Shape
  | [], s => s
  | f :: k, s => plug k (.branch f.side s f.node f.color f.sib)

/-- the addresses above and beside a position -/
def addrs : List Frame → List ℕ
  | [] => []
  | f :: k => f.node :: (f.sib.inorder ++ addrs k)

/-- the parent of a position, the sentinel at the root -/
def top : List Frame → ℕ
  | [] => 0
  | f :: _ => f.node

/-- what precedes and what follows a position in order -/
def before : List Frame → List ℕ
  | [] => []
  | f :: k =>
    match f.side with
    | .left => before k
    | .right => before k ++ (f.sib.inorder ++ [f.node])

def after : List Frame → List ℕ
  | [] => []
  | f :: k =>
    match f.side with
    | .left => f.node :: (f.sib.inorder ++ after k)
    | .right => after k

theorem inorder_plug (k : List Frame) (s : Shape) : (plug k s).inorder = before k ++ (s.inorder ++ after k) := by
  induction k generalizing s with
  | nil => simp [plug, before, after]
  | cons f k ih =>
    rw [plug, ih]
    cases hs : f.side <;> simp [before, after, hs, Shape.branch, Shape.inorder]

theorem inorder_plug_perm (k : List Frame) (s : Shape) : List.Perm (plug k s).inorder (s.inorder ++ addrs k) := by
  induction k generalizing s with
  | nil => simp [plug, addrs]
  | cons f k ih =>
    rw [plug, addrs]
    refine (ih _).trans ?_
    refine (List.Perm.append_right _ (Shape.inorder_perm_branch _ _ _ _ _)).trans ?_
    simp only [cons_append, append_assoc]
    exact perm_middle.symm

theorem plug_append (k k' : List Frame) (s : Shape) : plug (k ++ k') s = plug k' (plug k s) := by
  induction k generalizing s with
  | nil => rfl
  | cons f k ih => simp only [cons_append, plug, ih]

/-! ## Trees in memory -/

variable {t t' : Mem A} {s : Shape} {a p : ℕ} {c : Color} {f : Frame} {k : List Frame}

/-- the root of `s`, if it has one, has `p` as its parent -/
def Up (t : Mem A) (p : ℕ) (s : Shape) : Prop := s.root ≠ 0 → t.parent s.root = p

/-- memory holds the tree `s` below its root -/
def IsTree (t : Mem A) : Shape → Prop
  | .leaf => True
  | .node l a _ r => a ≠ 0 ∧ (t.child .left a = l.root ∧ Up t a l ∧ IsTree t l) ∧
      (t.child .right a = r.root ∧ Up t a r ∧ IsTree t r)

/-- memory holds the frames `k` above a position whose root is `p` -/
def IsCtx (t : Mem A) : List Frame → ℕ → Prop
  | [], p => t.root = p
  | f :: k, p => t.child f.side f.node = p ∧ f.node ≠ 0 ∧
      (t.child f.side.flip f.node = f.sib.root ∧ Up t f.node f.sib ∧ IsTree t f.sib) ∧ t.parent f.node = top k ∧
      IsCtx t k f.node

theorem isTree_branch (t : Mem A) (d : Side) (s : Shape) (a : ℕ) (c : Color) (s' : Shape) :
    IsTree t (.branch d s a c s') ↔ a ≠ 0 ∧ (t.child d a = s.root ∧ Up t a s ∧ IsTree t s) ∧
      (t.child d.flip a = s'.root ∧ Up t a s' ∧ IsTree t s') := by
  cases d
  · exact Iff.rfl
  · simp only [Shape.branch, IsTree, Side.flip]
    tauto

theorem IsTree.root_ne (h : IsTree t s) (ha : a ∈ s.inorder) : a ≠ 0 := by
  induction s with
  | leaf => simp [Shape.inorder] at ha
  | node l b c r ihl ihr =>
    obtain ⟨hb, ⟨_, _, hl⟩, _, _, hr⟩ := h
    simp only [Shape.inorder, mem_append, mem_cons] at ha
    rcases ha with ha | rfl | ha
    · exact ihl hl ha
    · exact hb
    · exact ihr hr ha

theorem IsTree.eq_leaf (h : IsTree t s) (h0 : s.root = 0) : s = .leaf := by
  cases s with
  | leaf => rfl
  | node l a c r => exact absurd h0 h.1

/-- a subtree only depends on its own child links and on the parent links below its root -/
theorem IsTree.congr (hn : s.inorder.Nodup) (h : IsTree t s) (hc : ∀ a ∈ s.inorder, ∀ d, t'.child d a = t.child d a)
    (hp : ∀ a ∈ s.inorder, a ≠ s.root → t'.parent a = t.parent a) : IsTree t' s := by
  induction s with
  | leaf => trivial
  | node l b c r ihl ihr =>
    obtain ⟨hb, ⟨cl, ul, hl⟩, cr, ur, hr⟩ := h
    simp only [Shape.inorder, nodup_append, nodup_cons, mem_cons] at hn
    obtain ⟨nl, ⟨nbr, nr⟩, ndis⟩ := hn
    have mem_l : ∀ a ∈ l.inorder, a ∈ (Shape.node l b c r).inorder := fun a ha => by simp [Shape.inorder, ha]
    have mem_r : ∀ a ∈ r.inorder, a ∈ (Shape.node l b c r).inorder := fun a ha => by simp [Shape.inorder, ha]
    have mem_b : b ∈ (Shape.node l b c r).inorder := by simp [Shape.inorder]
    have ne_l : ∀ a ∈ l.inorder, a ≠ b := fun a ha => ndis a ha b (Or.inl rfl)
    have ne_r : ∀ a ∈ r.inorder, a ≠ b := fun a ha hab => nbr (hab ▸ ha)
    refine ⟨hb, ⟨by rw [hc b mem_b, cl], fun hne => ?_, ?_⟩, by rw [hc b mem_b, cr], fun hne => ?_, ?_⟩
    · rw [hp _ (mem_l _ (Shape.root_mem hne)) (ne_l _ (Shape.root_mem hne)), ul hne]
    · exact ihl nl hl (fun a ha => hc a (mem_l a ha)) (fun a ha _ => hp a (mem_l a ha) (ne_l a ha))
    · rw [hp _ (mem_r _ (Shape.root_mem hne)) (ne_r _ (Shape.root_mem hne)), ur hne]
    · exact ihr nr hr (fun a ha => hc a (mem_r a ha)) (fun a ha _ => hp a (mem_r a ha) (ne_r a ha))

/-- a subtree that the writes leave alone altogether -/
theorem IsTree.frame (hn : s.inorder.Nodup) (h : IsTree t s) (hu : Up t p s)
    (hc : ∀ a ∈ s.inorder, ∀ d, t'.child d a = t.child d a) (hp : ∀ a ∈ s.inorder, t'.parent a = t.parent a) :
    Up t' p s ∧ IsTree t' s :=
  ⟨fun hne => by rw [hp _ (Shape.root_mem hne), hu hne], h.congr hn hc fun a ha _ => hp a ha⟩

theorem nodup_addrs_cons (h : (addrs (f :: k)).Nodup) :
    f.sib.inorder.Nodup ∧ (addrs k).Nodup ∧ f.node ∉ f.sib.inorder ∧ f.node ∉ addrs k ∧
      ∀ a ∈ f.sib.inorder, a ∉ addrs k := by
  simp only [addrs, nodup_cons, mem_append, nodup_append] at h
  obtain ⟨h1, h2, h3, h4⟩ := h
  exact ⟨h2, h3, fun h => h1 (Or.inl h), fun h => h1 (Or.inr h), fun a ha hk => h4 a ha a hk rfl⟩

theorem IsCtx.congr (hn : (addrs k).Nodup) (h : IsCtx t k p)
    (hc : ∀ a ∈ addrs k, ∀ e, t'.child e a = t.child e a) (hp : ∀ a ∈ addrs k, t'.parent a = t.parent a)
    (hr : t'.root = t.root) : IsCtx t' k p := by
  induction k generalizing p with
  | nil => exact hr.trans h
  | cons f k ih =>
    obtain ⟨h1, h2, ⟨h3, h4, h5⟩, h6, h7⟩ := h
    obtain ⟨ns, nk, _, _, _⟩ := nodup_addrs_cons hn
    have mem_f : f.node ∈ addrs (f :: k) := by simp [addrs]
    have mem_s : ∀ a ∈ f.sib.inorder, a ∈ addrs (f :: k) := fun a ha => by simp [addrs, ha]
    have mem_k : ∀ a ∈ addrs k, a ∈ addrs (f :: k) := fun a ha => by simp [addrs, ha]
    obtain ⟨u, s⟩ := h5.frame ns h4 (fun a ha => hc a (mem_s a ha)) (fun a ha => hp a (mem_s a ha))
    refine ⟨by rw [hc _ mem_f, h1], h2, ⟨by rw [hc _ mem_f, h3], u, s⟩, by rw [hp _ mem_f, h6], ?_⟩
    exact ih nk h7 (fun a ha => hc a (mem_k a ha)) (fun a ha => hp a (mem_k a ha))

/-- the link that points to a position -/
def hole (t : Mem A) : List Frame → ℕ
  | [] => t.root
  | f :: _ => t.child f.side f.node

/-- whether a child link is the one that points to the position -/
def isHole (k : List Frame) (e : Side) (a : ℕ) : Prop :=
  match k with
  | [] => False
  | f :: _ => e = f.side ∧ a = f.node

instance (k : List Frame) (e : Side) (a : ℕ) : Decidable (isHole k e a) :=
  match k with
  | [] => inferInstanceAs (Decidable False)
  | f :: _ => inferInstanceAs (Decidable (e = f.side ∧ a = f.node))

theorem isHole.mem {e : Side} (h : isHole k e a) : a ∈ addrs k := by
  cases k with
  | nil => exact h.elim
  | cons f k => rw [h.2]; simp [addrs]

section

variable (t k) (y : ℕ)

def setHole : Mem A :=
  match k with
  | [] => t.setRoot y
  | f :: _ => t.setChild f.side f.node y

theorem setHole_child (e : Side) (a : ℕ) : (setHole t k y).child e a = if isHole k e a then y else t.child e a := by
  cases k with
  | nil => simp [setHole, isHole]
  | cons f k => simp only [setHole, isHole, Mem.setChild_child]; congr

@[simp] theorem setHole_parent : (setHole t k y).parent = t.parent := by
  cases k <;> rfl

@[simp] theorem setHole_color : (setHole t k y).color = t.color := by
  cases k <;> rfl

@[simp] theorem setHole_aug : (setHole t k y).aug = t.aug := by
  cases k <;> rfl

theorem setHole_root : (setHole t k y).root = if k = [] then y else t.root := by
  cases k <;> rfl

end

/-- the frames after the link to the position has been redirected -/
theorem IsCtx.relink {p' : ℕ} (hn : (addrs k).Nodup) (h : IsCtx t k p)
    (hc : ∀ a ∈ addrs k, ∀ e, ¬ isHole k e a → t'.child e a = t.child e a)
    (hp : ∀ a ∈ addrs k, t'.parent a = t.parent a) (hr : k ≠ [] → t'.root = t.root) (hh : hole t' k = p') :
    IsCtx t' k p' := by
  cases k with
  | nil => exact hh
  | cons f k =>
    obtain ⟨_, h2, ⟨h3, h4, h5⟩, h6, h7⟩ := h
    obtain ⟨ns, nk, nfs, nfk, _⟩ := nodup_addrs_cons hn
    have mem_f : f.node ∈ addrs (f :: k) := by simp [addrs]
    have mem_s : ∀ a ∈ f.sib.inorder, a ∈ addrs (f :: k) := fun a ha => by simp [addrs, ha]
    have mem_k : ∀ a ∈ addrs k, a ∈ addrs (f :: k) := fun a ha => by simp [addrs, ha]
    have hcs : ∀ a ∈ f.sib.inorder, ∀ e, t'.child e a = t.child e a := fun a ha e =>
      hc a (mem_s a ha) e fun hh => nfs (hh.2 ▸ ha)
    have hck : ∀ a ∈ addrs k, ∀ e, t'.child e a = t.child e a := fun a ha e =>
      hc a (mem_k a ha) e fun hh => nfk (hh.2 ▸ ha)
    obtain ⟨u, s⟩ := h5.frame ns h4 hcs (fun a ha => hp a (mem_s a ha))
    refine ⟨hh, h2, ⟨?_, u, s⟩, by rw [hp _ mem_f, h6], ?_⟩
    · rw [hc _ mem_f _ (by simp [isHole]), h3]
    · exact h7.congr nk hck (fun a ha => hp a (mem_k a ha)) (hr (by simp))

/-- memory holds the tree `plug k s` -/
structure Focus (t : Mem A) (k : List Frame) (s : Shape) : Prop where
  ctx : IsCtx t k s.root
  up : Up t (top k) s
  tree : IsTree t s
  nodup : (s.inorder ++ addrs k).Nodup

theorem Focus.nodup_tree (h : Focus t k s) : s.inorder.Nodup :=
  (nodup_append.1 h.nodup).1

theorem Focus.nodup_ctx (h : Focus t k s) : (addrs k).Nodup :=
  (nodup_append.1 h.nodup).2.1

theorem Focus.disjoint (h : Focus t k s) (ha : a ∈ s.inorder) :
    a ∉ addrs k := fun hk => (nodup_append.1 h.nodup).2.2 a ha a hk rfl

theorem addrs_plug_perm (f : Frame) (k : List Frame) (s : Shape) :
    List.Perm (s.inorder ++ addrs (f :: k)) ((Shape.branch f.side s f.node f.color f.sib).inorder ++ addrs k) := by
  simp only [addrs]
  refine perm_middle.trans ?_
  rw [← append_assoc, ← cons_append]
  exact List.Perm.append_right _ (Shape.inorder_perm_branch _ _ _ _ _).symm

/-- moving the focus one step up or down changes nothing in memory -/
theorem focus_cons (t : Mem A) (f : Frame) (k : List Frame) (s : Shape) :
    Focus t (f :: k) s ↔ Focus t k (.branch f.side s f.node f.color f.sib) := by
  have hn := (addrs_plug_perm f k s).nodup_iff
  constructor
  · rintro ⟨⟨h1, h2, h3, h4, h5⟩, hu, ht, hnd⟩
    refine ⟨by rw [Shape.branch_root]; exact h5, fun _ => by rw [Shape.branch_root]; exact h4, ?_, hn.1 hnd⟩
    exact (isTree_branch t _ _ _ _ _).2 ⟨h2, ⟨h1, hu, ht⟩, h3⟩
  · rintro ⟨hc, hu, ht, hnd⟩
    obtain ⟨h2, ⟨h1, hu', ht'⟩, h3⟩ := (isTree_branch t _ _ _ _ _).1 ht
    rw [Shape.branch_root] at hc
    exact ⟨⟨h1, h2, h3, by simpa using hu (by simpa using h2), hc⟩, hu', ht', hn.2 hnd⟩

theorem focus_plug (t : Mem A) (k k' : List Frame) (s : Shape) : Focus t (k ++ k') s ↔ Focus t k' (plug k s) := by
  induction k generalizing s with
  | nil => exact Iff.rfl
  | cons f k ih =>
    rw [cons_append, focus_cons, ih, plug]

theorem focus_root (t : Mem A) (k : List Frame) (s : Shape) : Focus t k s ↔ Focus t [] (plug k s) := by
  have := focus_plug t k [] s
  rwa [append_nil] at this

/-! ## Rotations -/

variable {x y : ℕ} {d : Side} {l m r : Shape} {cx cy : Color}

theorem replaceChild_eq (y : ℕ) (d : Side) (h0 : t.parent x = top k)
    (hk : ∀ f k', k = f :: k' → f.node ≠ 0 ∧ t.child f.side f.node = x ∧ t.child f.side.flip f.node ≠ x) :
    replaceChild d t x y = setHole t k y := by
  cases k with
  | nil => simp [replaceChild, h0, top, setHole]
  | cons f k =>
    obtain ⟨h1, h2, h3⟩ := hk f k rfl
    simp only [replaceChild, h0, top, h1, if_false, setHole]
    rcases Side.eq_or_flip f.side d with rfl | rfl
    · rw [if_pos h2.symm]
    · rw [if_neg (Ne.symm h3), Side.flip_flip]

/-- the sibling of a position has another root -/
theorem IsCtx.sib_ne (h : Focus t (f :: k) s) (hs : s.root ≠ 0) :
    t.child f.side.flip f.node ≠ s.root := by
  rw [h.ctx.2.2.1.1]
  intro heq
  have hmem : f.sib.root ∈ f.sib.inorder := Shape.root_mem (heq ▸ hs)
  exact h.disjoint (Shape.root_mem hs) (by rw [← heq]; simp [addrs, hmem])

/-- the links of the two nodes of a rotation and of the trees below them -/
structure Rotatable (t : Mem A) (k : List Frame) (d : Side) (l : Shape) (x : ℕ) (m : Shape) (y : ℕ) (r : Shape) : Prop where
  x0 : x ≠ 0
  y0 : y ≠ 0
  xy : x ≠ y
  xl : t.child d x = l.root
  xr : t.child d.flip x = y
  yl : t.child d y = m.root
  yr : t.child d.flip y = r.root
  px : t.parent x = top k
  py : t.parent y = x
  xk : x ∉ addrs k
  yk : y ∉ addrs k
  x_in : x ∉ l.inorder ∧ x ∉ m.inorder ∧ x ∉ r.inorder
  y_in : y ∉ l.inorder ∧ y ∉ m.inorder ∧ y ∉ r.inorder
  nodup : l.inorder.Nodup ∧ m.inorder.Nodup ∧ r.inorder.Nodup
  apart : (∀ a ∈ l.inorder, a ∉ m.inorder) ∧ ∀ a ∈ r.inorder, a ∉ m.inorder
  above : (∀ a ∈ l.inorder, a ∉ addrs k) ∧ (∀ a ∈ m.inorder, a ∉ addrs k) ∧ ∀ a ∈ r.inorder, a ∉ addrs k
  top_ne : top k ≠ x ∧ top k ≠ y

theorem top_mem (h : IsCtx t k p) (hne : top k ≠ 0) : top k ∈ addrs k := by
  cases k with
  | nil => simp [top] at hne
  | cons f k => simp [top, addrs]

theorem Focus.rotatable (h : Focus t k (.branch d l x cx (.branch d m y cy r))) : Rotatable t k d l x m y r := by
  obtain ⟨x0, ⟨xl, _, _⟩, xr, uy, hy⟩ := (isTree_branch t _ _ _ _ _).1 h.tree
  obtain ⟨y0, ⟨yl, _, _⟩, yr, _, _⟩ := (isTree_branch t _ _ _ _ _).1 hy
  rw [Shape.branch_root] at xr
  have px : t.parent x = top k := by simpa using h.up (by simpa using x0)
  have py : t.parent y = x := by simpa using uy (by simpa using y0)
  have hnd : (x :: (l.inorder ++ y :: (m.inorder ++ r.inorder)) ++ addrs k).Nodup := by
    refine List.Perm.nodup_iff (List.Perm.append_right _ ?_) |>.1 h.nodup
    refine (Shape.inorder_perm_branch d l x cx _).trans (List.Perm.cons x ?_)
    exact List.Perm.append_left _ (Shape.inorder_perm_branch d m y cy r)
  simp only [cons_append, append_assoc, nodup_cons, nodup_append, mem_append, mem_cons,
    not_or] at hnd
  obtain ⟨⟨nxl, nxy, nxm, nxr, nxk⟩, nl, ⟨⟨nym, nyr, nyk⟩, nm, ⟨nr, nk, drk⟩, dm⟩, dl⟩ := hnd
  have htop : ∀ a, a ≠ 0 → a ∉ addrs k → top k ≠ a := fun a h0 hk heq =>
    hk (heq ▸ top_mem h.ctx (heq ▸ h0))
  exact ⟨x0, y0, nxy, xl, xr, yl, yr, px, py, nxk, nyk, ⟨nxl, nxm, nxr⟩, ⟨fun hy => dl y hy y (Or.inl rfl) rfl, nym, nyr⟩, ⟨nl, nm, nr⟩,
    ⟨fun a ha hm => dl a ha a (Or.inr (Or.inl hm)) rfl, fun a ha hm => dm a hm a (Or.inl ha) rfl⟩,
    ⟨fun a ha hk => dl a ha a (Or.inr (Or.inr (Or.inr hk))) rfl, fun a ha hk => dm a ha a (Or.inr hk) rfl,
      fun a ha hk => drk a ha a hk rfl⟩, htop x x0 nxk, htop y y0 nyk⟩

section

variable (g : Augment A) (h : Focus t k (.branch d l x cx (.branch d m y cy r)))
include g h

theorem rotate_mem : (∀ e a, (rotate g d t x).child e a = if e = d.flip ∧ a = x then m.root else if e = d ∧ a = y then x
      else if isHole k e a then y else t.child e a) ∧
    (∀ a, (rotate g d t x).parent a = if a = x then y else if a = y then top k
      else if a = m.root ∧ a ≠ 0 then x else t.parent a) ∧
    (rotate g d t x).root = (if k = [] then y else t.root) ∧ (rotate g d t x).color = t.color ∧
    (rotate g d t x).aug = g.touch (rotate g d t x).child y (g.touch (rotate g d t x).child x t.aug) := by
  have R := h.rotatable
  -- the memory just before the parent of `x` is redirected
  set t3 : Mem A := (if m.root ≠ 0 then (t.setChild d.flip x m.root).setParent m.root x else t.setChild d.flip x m.root).setParent y
    (top k) with ht3
  have c3 : ∀ e a, t3.child e a = if e = d.flip ∧ a = x then m.root else t.child e a := by
    intro e a
    rw [ht3, Mem.setParent_child]
    split_ifs <;> simp_all [Mem.setChild_child]
  have p3 : ∀ a, t3.parent a = if a = y then top k else if a = m.root ∧ a ≠ 0 then x else t.parent a := by
    intro a
    rw [ht3, Mem.setParent_parent]
    by_cases hm : m.root ≠ 0
    · rw [if_pos hm, Mem.setParent_parent]
      by_cases ham : a = m.root
      · simp [ham, hm]
      · simp [ham]
    · simp only [ne_eq, not_not] at hm
      simp only [hm, ne_eq, not_true_eq_false, if_false, Mem.setChild_parent]
      split_ifs with h1 h2
      · rfl
      · exact absurd h2.1 h2.2
      · rfl
  have q3 : t3.color = t.color ∧ t3.root = t.root ∧ t3.aug = t.aug := by
    rw [ht3]; split_ifs <;> exact ⟨rfl, rfl, rfl⟩
  have hrep : replaceChild d t3 x y = setHole t3 k y := by
    refine replaceChild_eq y d ?_ fun f k' hk => ?_
    · have : ¬ (x = m.root ∧ x ≠ 0) := fun hc => R.x_in.2.1 (by rw [hc.1]; exact Shape.root_mem (hc.1 ▸ hc.2))
      rw [p3, if_neg R.xy, if_neg this, R.px]
    · subst hk
      have hfx : f.node ≠ x := R.top_ne.1
      refine ⟨h.ctx.2.1, ?_, ?_⟩
      · rw [c3, if_neg (by simp [hfx])]
        simpa using h.ctx.1
      · rw [c3, if_neg (by simp [hfx])]
        simpa using IsCtx.sib_ne h (by simpa using R.x0)
  have heq : rotate g d t x =
      recalculate g (recalculate g (((setHole t3 k y).setChild d y x).setParent x y) x) y := by
    rw [← hrep]
    have h1 : ∀ v, (t.setChild d.flip x v).child d y = m.root := by
      intro v
      rw [Mem.setChild_child, if_neg (by simp), R.yl]
    simp only [rotate, R.xr, R.yl, h1]
    have h3 : (if m.root ≠ 0 then (t.setChild d.flip x m.root).setParent m.root x
        else t.setChild d.flip x m.root).parent x = top k := by
      have : x ≠ m.root ∨ m.root = 0 := by
        by_cases hm : m.root = 0
        · exact Or.inr hm
        · exact Or.inl fun hc => R.x_in.2.1 (by rw [hc]; exact Shape.root_mem hm)
      split_ifs with hm
      · rw [Mem.setParent_parent, if_neg (this.resolve_right hm), Mem.setChild_parent, R.px]
      · rw [Mem.setChild_parent, R.px]
    rw [h3]
  have hchild : ∀ e a, (rotate g d t x).child e a = if e = d.flip ∧ a = x then m.root else if e = d ∧ a = y then x
      else if isHole k e a then y else t.child e a := by
    intro e a
    rw [heq, recalculate_child, recalculate_child, Mem.setParent_child, Mem.setChild_child, setHole_child, c3]
    have hh : isHole k e a → ¬ (e = d.flip ∧ a = x) := by
      intro hh hc
      cases k with
      | nil => exact hh
      | cons f k => exact R.top_ne.1 (show f.node = x from hh.2.symm.trans hc.2)
    have hd : e = d ∧ a = y → ¬ (e = d.flip ∧ a = x) := by
      rintro ⟨rfl, _⟩ ⟨hc, _⟩
      exact Side.ne_flip _ hc
    by_cases h1 : e = d.flip ∧ a = x
    · rw [if_neg (fun h => hd h h1), if_neg (fun h => hh h h1), if_pos h1, if_pos h1]
    · rw [if_neg h1, if_neg h1]
  refine ⟨hchild, fun a => ?_, ?_, ?_, ?_⟩
  · rw [heq, recalculate_parent, recalculate_parent, Mem.setParent_parent, Mem.setChild_parent, setHole_parent, p3]
  · rw [heq, recalculate_root, recalculate_root, Mem.setParent_root, Mem.setChild_root, setHole_root, q3.2.1]
  · rw [heq, recalculate_color, recalculate_color, Mem.setParent_color, Mem.setChild_color, setHole_color, q3.1]
  · rw [heq]
    simp [recalculate, R.x0, R.y0, q3.2.2]

theorem rotate_focus :
    Focus (rotate g d t x) k (.branch d (.branch d l x cx m) y cy r) := by
  have R := h.rotatable
  obtain ⟨hc, hp, hr, _, _⟩ := rotate_mem g h
  obtain ⟨_, ⟨_, ul, tl⟩, _, _, ty⟩ := (isTree_branch t _ _ _ _ _).1 h.tree
  obtain ⟨_, ⟨_, um, tm⟩, _, ur, tr⟩ := (isTree_branch t _ _ _ _ _).1 ty
  -- the addresses before and after, as one list without repetition
  have hperm : List.Perm ((Shape.branch d (.branch d l x cx m) y cy r).inorder ++ addrs k)
      ((Shape.branch d l x cx (.branch d m y cy r)).inorder ++ addrs k) := by
    refine List.Perm.append_right _ ?_
    cases d <;> simp [Shape.branch, Shape.inorder]
  obtain ⟨nxl, nxm, nxr⟩ := R.x_in
  obtain ⟨nyl, nym, nyr⟩ := R.y_in
  obtain ⟨nl, nm, nr⟩ := R.nodup
  obtain ⟨lm, rm⟩ := R.apart
  obtain ⟨lk, mk, rk⟩ := R.above
  -- a subtree away from `x`, `y` and the frames is not touched, its root's parent apart
  have keep : ∀ s : Shape, s.inorder.Nodup → x ∉ s.inorder → y ∉ s.inorder → (∀ a ∈ s.inorder, a ∉ addrs k) →
      IsTree t s → (∀ a ∈ s.inorder, a ≠ s.root → a ≠ m.root) → IsTree (rotate g d t x) s := by
    intro s hs hx hy hk ht hm
    refine ht.congr hs (fun a ha e => ?_) (fun a ha hne => ?_)
    · have h1 : a ≠ x := fun hax => hx (hax ▸ ha)
      have h2 : a ≠ y := fun hay => hy (hay ▸ ha)
      rw [hc, if_neg (fun h => h1 h.2), if_neg (fun h => h2 h.2), if_neg (fun h => hk a ha h.mem)]
    · have h1 : a ≠ x := fun hax => hx (hax ▸ ha)
      have h2 : a ≠ y := fun hay => hy (hay ▸ ha)
      rw [hp, if_neg h1, if_neg h2, if_neg (fun h => hm a ha hne h.1)]
  have notm : ∀ a, a ∉ m.inorder → ¬ (a = m.root ∧ a ≠ 0) := fun a ha hc =>
    ha (by rw [hc.1]; exact Shape.root_mem (hc.1 ▸ hc.2))
  have tl' : IsTree (rotate g d t x) l := by
    refine keep l nl nxl nyl lk tl ?_
    exact fun a ha _ hm => notm a (lm a ha) ⟨hm, tl.root_ne ha⟩
  have tm' : IsTree (rotate g d t x) m := by
    refine keep m nm nxm nym mk tm ?_
    exact fun a _ hne hm => hne hm
  have tr' : IsTree (rotate g d t x) r := by
    refine keep r nr nxr nyr rk tr ?_
    exact fun a ha _ hm => notm a (rm a ha) ⟨hm, tr.root_ne ha⟩
  refine ⟨?_, ?_, ?_, hperm.nodup_iff.2 h.nodup⟩
  · rw [Shape.branch_root]
    refine h.ctx.relink h.nodup_ctx (fun a ha e hh => ?_) (fun a ha => ?_) (fun hne => ?_) ?_
    · have h1 : a ≠ x := fun hax => R.xk (hax ▸ ha)
      have h2 : a ≠ y := fun hay => R.yk (hay ▸ ha)
      rw [hc, if_neg (fun h => h1 h.2), if_neg (fun h => h2 h.2), if_neg hh]
    · have h1 : a ≠ x := fun hax => R.xk (hax ▸ ha)
      have h2 : a ≠ y := fun hay => R.yk (hay ▸ ha)
      rw [hp, if_neg h1, if_neg h2, if_neg (notm a fun hm => mk a hm ha)]
    · rw [hr, if_neg hne]
    · cases k with
      | nil => simp [hole, hr]
      | cons f k =>
        have h1 : f.node ≠ x := R.top_ne.1
        have h2 : f.node ≠ y := R.top_ne.2
        simp [hole, hc, h1, h2, isHole]
  · intro _
    rw [Shape.branch_root, hp, if_neg (Ne.symm R.xy), if_pos rfl]
  · rw [isTree_branch, isTree_branch]
    refine ⟨R.y0, ⟨?_, ?_, R.x0, ⟨?_, ?_, tl'⟩, ?_, ?_, tm'⟩, ?_, ?_, tr'⟩
    · rw [hc, if_neg (fun h => R.xy h.2.symm), if_pos ⟨rfl, rfl⟩, Shape.branch_root]
    · intro _
      rw [Shape.branch_root, hp, if_pos rfl]
    · rw [hc, if_neg (fun h => Side.ne_flip d h.1), if_neg (fun h => R.xy h.2), if_neg (fun h => R.xk h.mem), R.xl]
    · intro hne
      have hmem := Shape.root_mem hne
      rw [hp, if_neg (fun h : l.root = x => nxl (h ▸ hmem)), if_neg (fun h : l.root = y => nyl (h ▸ hmem)), if_neg (notm _ (lm _ hmem)),
        ul hne]
    · rw [hc, if_pos ⟨rfl, rfl⟩]
    · intro hne
      have hmem := Shape.root_mem hne
      rw [hp, if_neg (fun h : m.root = x => nxm (h ▸ hmem)), if_neg (fun h : m.root = y => nym (h ▸ hmem)), if_pos ⟨rfl, hne⟩]
    · rw [hc, if_neg (fun h => R.xy h.2.symm), if_neg (fun h => Side.flip_ne d h.1), if_neg (fun h => R.yk h.mem),
        R.yr]
    · intro hne
      have hmem := Shape.root_mem hne
      rw [hp, if_neg (fun h : r.root = x => nxr (h ▸ hmem)), if_neg (fun h : r.root = y => nyr (h ▸ hmem)), if_neg (notm _ (rm _ hmem)),
        ur hne]

/-- a rotation does not look at the sentinel's parent -/
theorem rotate_parent_nil : (rotate g d t x).parent 0 = t.parent 0 := by
  have R := h.rotatable
  obtain ⟨_, hp, _⟩ := rotate_mem g h
  rw [hp, if_neg (Ne.symm R.x0), if_neg (Ne.symm R.y0), if_neg (by simp)]

end

/-! ## Augmentation -/

variable {g : Augment A} {u : A} {n : ℕ} {color color' : ℕ → Color}

/-- the augmentation is right at every node of `s` -/
def Sized (g : Augment A) (u : A) : Shape → Prop
  | .leaf => True
  | .node l a _ r => g.holds u a (l.size + r.size + 1) ∧ Sized g u l ∧ Sized g u r

/-- the augmentation is right at every frame, for a position that holds `n` nodes -/
def CtxSized (g : Augment A) (u : A) : List Frame → ℕ → Prop
  | [], _ => True
  | f :: k, n => g.holds u f.node (n + f.sib.size + 1) ∧ Sized g u f.sib ∧ CtxSized g u k (n + f.sib.size + 1)

theorem sized_branch (g : Augment A) (u : A) (d : Side) (s : Shape) (a : ℕ) (c : Color) (s' : Shape) :
    Sized g u (.branch d s a c s') ↔ g.holds u a (s.size + s'.size + 1) ∧ Sized g u s ∧ Sized g u s' := by
  cases d
  · exact Iff.rfl
  · simp only [Shape.branch, Sized, Nat.add_comm s'.size s.size]
    tauto

theorem Sized.root (h0 : g.holds u 0 0) (h : Sized g u s) : g.holds u s.root s.size := by
  cases s with
  | leaf => exact h0
  | node l a c r => exact h.1

theorem Sized.congr {u' : A} (h : Sized g u s) (hu : ∀ a ∈ s.inorder, ∀ n, g.holds u a n → g.holds u' a n) : Sized g u' s := by
  induction s with
  | leaf => trivial
  | node l a c r ihl ihr =>
    obtain ⟨h1, h2, h3⟩ := h
    exact ⟨hu a (by simp [Shape.inorder]) _ h1, ihl h2 fun b hb => hu b (by simp [Shape.inorder, hb]),
      ihr h3 fun b hb => hu b (by simp [Shape.inorder, hb])⟩

theorem CtxSized.congr {u' : A} (h : CtxSized g u k n)
    (hu : ∀ a ∈ addrs k, ∀ n, g.holds u a n → g.holds u' a n) : CtxSized g u' k n := by
  induction k generalizing n with
  | nil => trivial
  | cons f k ih =>
    obtain ⟨h1, h2, h3⟩ := h
    exact ⟨hu _ (by simp [addrs]) _ h1, h2.congr fun b hb => hu b (by simp [addrs, hb]),
      ih h3 fun b hb => hu b (by simp [addrs, hb])⟩

theorem Augment.touch_side (g : Augment A) {child : Side → ℕ → ℕ} {m : ℕ} (d : Side)
    (h1 : g.holds u (child d a) m) (h2 : g.holds u (child d.flip a) n) : g.holds (g.touch child a u) a (m + n + 1) := by
  cases d
  · exact g.touch_self child a u m n h1 h2
  · rw [Nat.add_comm m n]
    exact g.touch_self child a u n m h2 h1

/-! ## Colours in memory -/

/-- memory has the colours of `s` -/
def Painted (color : ℕ → Color) : Shape → Prop
  | .leaf => True
  | .node l a c r => color a = c ∧ Painted color l ∧ Painted color r

def CtxPainted (color : ℕ → Color) (k : List Frame) : Prop := ∀ f ∈ k, color f.node = f.color ∧ Painted color f.sib

theorem painted_branch (color : ℕ → Color) (d : Side) (s : Shape) (a : ℕ) (c : Color) (s' : Shape) :
    Painted color (.branch d s a c s') ↔ color a = c ∧ Painted color s ∧ Painted color s' := by
  cases d
  · exact Iff.rfl
  · simp only [Shape.branch, Painted]
    tauto

theorem Painted.congr (h : Painted color s) (hc : ∀ a ∈ s.inorder, color' a = color a) : Painted color' s := by
  induction s with
  | leaf => trivial
  | node l a c r ihl ihr =>
    exact ⟨(hc a (by simp [Shape.inorder])).trans h.1, ihl h.2.1 fun b hb => hc b (by simp [Shape.inorder, hb]),
      ihr h.2.2 fun b hb => hc b (by simp [Shape.inorder, hb])⟩

theorem mem_addrs_node (hf : f ∈ k) : f.node ∈ addrs k := by
  induction k with
  | nil => simp at hf
  | cons e k ih =>
    rcases mem_cons.1 hf with rfl | hf
    · simp [addrs]
    · simp [addrs, ih hf]

theorem mem_addrs_sib (hf : f ∈ k) (ha : a ∈ f.sib.inorder) : a ∈ addrs k := by
  induction k with
  | nil => simp at hf
  | cons e k ih =>
    rcases mem_cons.1 hf with rfl | hf
    · simp [addrs, ha]
    · simp [addrs, ih hf]

theorem CtxPainted.congr (h : CtxPainted color k) (hc : ∀ a ∈ addrs k, color' a = color a) : CtxPainted color' k :=
  fun f hf => ⟨(hc _ (mem_addrs_node hf)).trans (h f hf).1, (h f hf).2.congr fun a ha => hc a (mem_addrs_sib hf ha)⟩

/-- memory holds the tree `plug k s` in its colours, the sentinel is black and the augmentation is right -/
structure Holds (g : Augment A) (t : Mem A) (k : List Frame) (s : Shape) : Prop where
  focus : Focus t k s
  nil : t.color 0 = .black
  painted : Painted t.color s
  cpainted : CtxPainted t.color k
  base : g.holds t.aug 0 0
  sized : Sized g t.aug s
  csized : CtxSized g t.aug k s.size

theorem Holds.color_root (h : Holds g t k s) : t.color s.root = s.color := by
  cases s with
  | leaf => exact h.nil
  | node l a c r => exact h.painted.1

theorem Holds.root_ne (h : Holds g t k s) (hc : s.color = .red) : s.root ≠ 0 := by
  cases s with
  | leaf => cases hc
  | node l a c r => exact h.focus.tree.1

theorem holds_cons (g : Augment A) (t : Mem A) (f : Frame) (k : List Frame) (s : Shape) :
    Holds g t (f :: k) s ↔ Holds g t k (.branch f.side s f.node f.color f.sib) := by
  constructor
  · rintro ⟨h1, h2, h3, h4, h5, h6, h7, h8, h9⟩
    obtain ⟨⟨hf, hsib⟩, hk⟩ := forall_mem_cons.1 h4
    refine ⟨(focus_cons t f k s).1 h1, h2, (painted_branch _ _ _ _ _ _).2 ⟨hf, h3, hsib⟩, hk, h5,
      (sized_branch g _ _ _ _ _ _).2 ⟨h7, h6, h8⟩, ?_⟩
    rw [Shape.branch_size]
    exact h9
  · rintro ⟨h1, h2, h3, h4, h5, h6, h7⟩
    obtain ⟨hf, hs, hsib⟩ := (painted_branch _ _ _ _ _ _).1 h3
    obtain ⟨h8, h9, h10⟩ := (sized_branch g _ _ _ _ _ _).1 h6
    rw [Shape.branch_size] at h7
    exact ⟨(focus_cons t f k s).2 h1, h2, hs, forall_mem_cons.2 ⟨⟨hf, hsib⟩, h4⟩, h5, h9, h8, h10, h7⟩

theorem holds_plug (g : Augment A) (t : Mem A) (k k' : List Frame) (s : Shape) :
    Holds g t (k ++ k') s ↔ Holds g t k' (plug k s) := by
  induction k generalizing s with
  | nil => exact Iff.rfl
  | cons f k ih => rw [cons_append, holds_cons, ih, plug]

theorem holds_root (g : Augment A) (t : Mem A) (k : List Frame) (s : Shape) :
    Holds g t k s ↔ Holds g t [] (plug k s) := by
  have := holds_plug g t k [] s
  rwa [append_nil] at this

variable {c' : Color} {w : Shape}

theorem Holds.up (h : Holds g t (⟨d, a, c, w⟩ :: k) s) : Holds g t k (.branch d s a c w) := (holds_cons g t _ k s).1 h

theorem Holds.down (h : Holds g t k (.branch d s a c w)) : Holds g t (⟨d, a, c, w⟩ :: k) s := (holds_cons g t ⟨d, a, c, w⟩ k s).2 h

/-- the focus moves to the sibling -/
theorem Holds.across (h : Holds g t (⟨d, a, c, w⟩ :: k) s) : Holds g t (⟨d.flip, a, c, s⟩ :: k) w := by
  have := h.up
  rw [← Shape.branch_flip] at this
  exact this.down

/-- the addresses in a subtree with named parts are all different -/
theorem nodup_branch (h : (Shape.branch d l x c r).inorder.Nodup) :
    x ∉ l.inorder ∧ x ∉ r.inorder ∧ l.inorder.Nodup ∧ r.inorder.Nodup ∧ ∀ y ∈ l.inorder, y ∉ r.inorder := by
  have := (Shape.inorder_perm_branch d l x c r).nodup_iff.1 h
  rw [nodup_cons, mem_append, not_or, nodup_append] at this
  obtain ⟨⟨h1, h2⟩, h3, h4, h5⟩ := this
  exact ⟨h1, h2, h3, h4, fun y hy hr => h5 y hy y hr rfl⟩

theorem Focus.of_links (h : Focus t k s) (hc : t'.child = t.child)
    (hp : t'.parent = t.parent) (hr : t'.root = t.root) : Focus t' k s := by
  refine ⟨h.ctx.congr h.nodup_ctx (fun a _ e => by rw [hc]) (fun a _ => by rw [hp]) hr, fun h0 => by rw [hp]; exact h.up h0,
    h.tree.congr h.nodup_tree (fun a _ e => by rw [hc]) (fun a _ _ => by rw [hp]), h.nodup⟩

/-- **Painting** the root of the subtree in focus -/
theorem Holds.paint (h : Holds g t k (.branch d l a c r)) (c' : Color) : Holds g (t.setColor a c') k (.branch d l a c' r) := by
  have ha : a ∈ (Shape.branch d l a c r).inorder := Shape.mem_branch.2 (Or.inl rfl)
  have ha0 := h.focus.tree.root_ne ha
  obtain ⟨nl, nr, _⟩ := nodup_branch h.focus.nodup_tree
  obtain ⟨_, hl, hr⟩ := (painted_branch _ _ _ _ _ _).1 h.painted
  have keep : ∀ x, x ≠ a → (t.setColor a c').color x = t.color x := fun x hx => by rw [Mem.setColor_color, if_neg hx]
  have hfocus : Focus t k (.branch d l a c' r) := by
    have := h.focus
    cases d <;> exact ⟨this.ctx, this.up, this.tree, this.nodup⟩
  refine ⟨hfocus.of_links rfl rfl rfl, (keep 0 (Ne.symm ha0)).trans h.nil, (painted_branch _ _ _ _ _ _).2 ⟨?_, ?_, ?_⟩, ?_, h.base, ?_, ?_⟩
  · rw [Mem.setColor_color, if_pos rfl]
  · exact hl.congr fun x hx => keep x fun hc => nl (hc ▸ hx)
  · exact hr.congr fun x hx => keep x fun hc => nr (hc ▸ hx)
  · exact h.cpainted.congr fun x hx => keep x fun hc => h.focus.disjoint ha (hc ▸ hx)
  · exact (sized_branch g _ _ _ _ _ _).2 ((sized_branch g _ _ _ _ _ _).1 h.sized)
  · have hsize := h.csized
    rwa [Shape.branch_size] at hsize ⊢

theorem rotate_holds
    (h : Holds g t k (.branch d l x cx (.branch d m y cy r))) : Holds g (rotate g d t x) k (.branch d (.branch d l x cx m) y cy r) := by
  have R := h.focus.rotatable
  have hf := rotate_focus g h.focus
  obtain ⟨_, _, _, hcol, haug⟩ := rotate_mem g h.focus
  obtain ⟨hy0, ⟨cyx, _, tx⟩, cyr, _, _⟩ := (isTree_branch _ _ _ _ _ _).1 hf.tree
  obtain ⟨_, ⟨cxl, _, _⟩, cxm, _, _⟩ := (isTree_branch _ _ _ _ _ _).1 tx
  obtain ⟨_, sl, sy⟩ := (sized_branch g _ _ _ _ _ _).1 h.sized
  obtain ⟨_, sm, sr⟩ := (sized_branch g _ _ _ _ _ _).1 sy
  rw [Shape.branch_root] at cyx
  set child' := (rotate g d t x).child with hchild
  set u1 := g.touch child' x t.aug with hu1
  -- both touches leave the other nodes alone
  have keep1 : ∀ a n, a ≠ x → g.holds t.aug a n → g.holds u1 a n := fun a n ha hh => (g.touch_other _ _ _ _ _ ha).2 hh
  have keep2 : ∀ a n, a ≠ x → a ≠ y → g.holds t.aug a n → g.holds (rotate g d t x).aug a n := by
    intro a n hx hy hh
    rw [haug]
    exact (g.touch_other _ _ _ _ _ hy).2 (keep1 a n hx hh)
  have hx1 : g.holds u1 x (l.size + m.size + 1) := by
    refine g.touch_side d ?_ ?_
    · rw [cxl]; exact sl.root h.base
    · rw [cxm]; exact sm.root h.base
  have hy1 : g.holds (rotate g d t x).aug y ((Shape.branch d l x cx m).size + r.size + 1) := by
    rw [haug]
    refine g.touch_side d ?_ ?_
    · rw [cyx, Shape.branch_size]; exact hx1
    · rw [cyr]
      refine Sized.root (keep1 0 0 (Ne.symm R.x0) h.base) (sr.congr fun a ha n hh => keep1 a n ?_ hh)
      exact fun hax => R.x_in.2.2 (hax ▸ ha)
  refine ⟨hf, by rw [hcol]; exact h.nil, ?_, by rw [hcol]; exact h.cpainted, keep2 0 0 (Ne.symm R.x0) (Ne.symm R.y0) h.base, ?_, ?_⟩
  · have hpainted := h.painted
    rw [painted_branch, painted_branch] at hpainted ⊢
    rw [hcol]
    tauto
  · rw [sized_branch, sized_branch]
    refine ⟨hy1, ⟨?_, ?_, ?_⟩, ?_⟩
    · rw [haug]
      exact (g.touch_other _ _ _ _ _ R.xy).2 hx1
    · exact sl.congr fun a ha n hh => keep2 a n (fun hax => R.x_in.1 (hax ▸ ha)) (fun hay => R.y_in.1 (hay ▸ ha)) hh
    · exact sm.congr fun a ha n hh => keep2 a n (fun hax => R.x_in.2.1 (hax ▸ ha)) (fun hay => R.y_in.2.1 (hay ▸ ha)) hh
    · exact sr.congr fun a ha n hh => keep2 a n (fun hax => R.x_in.2.2 (hax ▸ ha)) (fun hay => R.y_in.2.2 (hay ▸ ha)) hh
  · have hsize : (Shape.branch d (.branch d l x cx m) y cy r).size = (Shape.branch d l x cx (.branch d m y cy r)).size := by
      simp only [Shape.branch_size]; omega
    rw [hsize]
    exact h.csized.congr fun a ha n hh => keep2 a n (fun hax => R.xk (hax ▸ ha)) (fun hay => R.yk (hay ▸ ha)) hh

/-! ## The red-black invariant -/

/-- no red node below a red one, and `n` black nodes on every path -/
def RB : Shape → ℕ → Prop
  | .leaf, n => n = 0
  | .node l _ .red r, n => (l.color = .black ∧ r.color = .black) ∧ RB l n ∧ RB r n
  | .node l _ .black r, n => ∃ m, n = m + 1 ∧ RB l m ∧ RB r m

/-- the frames fit a subtree with a root of colour `c` and `n` black nodes on every path -/
def CtxRB : List Frame → Color → ℕ → Prop
  | [], c, _ => c = .black
  | ⟨_, _, .red, sib⟩ :: k, c, n => c = .black ∧ sib.color = .black ∧ RB sib n ∧ CtxRB k .red n
  | ⟨_, _, .black, sib⟩ :: k, _, n => RB sib n ∧ CtxRB k .black (n + 1)

theorem rb_red (d : Side) (s : Shape) (a : ℕ) (s' : Shape) (n : ℕ) :
    RB (.branch d s a .red s') n ↔ (s.color = .black ∧ s'.color = .black) ∧ RB s n ∧ RB s' n := by
  cases d
  · exact Iff.rfl
  · simp only [Shape.branch, RB]
    tauto

theorem rb_black (d : Side) (s : Shape) (a : ℕ) (s' : Shape) (n : ℕ) :
    RB (.branch d s a .black s') n ↔ ∃ m, n = m + 1 ∧ RB s m ∧ RB s' m := by
  cases d
  · exact Iff.rfl
  · simp only [Shape.branch, RB, and_comm (a := RB s' _)]

theorem rb_black_succ (d : Side) (s : Shape) (a : ℕ) (s' : Shape) (n : ℕ) :
    RB (.branch d s a .black s') (n + 1) ↔ RB s n ∧ RB s' n := by
  simp [rb_black]

/-- where a red root fits, a black one does -/
theorem CtxRB.of_red (h : CtxRB k .red n) : CtxRB k .black n := by
  cases k with
  | nil => cases h
  | cons f k =>
    obtain ⟨d, a, c, w⟩ := f
    cases c with
    | red => cases h.1
    | black => exact h

theorem CtxRB.plug (hk : CtxRB k s.color n) (hs : RB s n) : (plug k s).color = .black ∧ ∃ m, RB (plug k s) m := by
  induction k generalizing s n with
  | nil => exact ⟨hk, n, hs⟩
  | cons f k ih =>
    obtain ⟨d, a, c, w⟩ := f
    cases c with
    | red =>
      obtain ⟨h1, h2, h3, h4⟩ := hk
      exact ih (by rw [Shape.branch_color]; exact h4) ((rb_red _ _ _ _ _).2 ⟨⟨h1, h2⟩, hs, h3⟩)
    | black =>
      obtain ⟨h1, h2⟩ := hk
      exact ih (by rw [Shape.branch_color]; exact h2) ((rb_black_succ _ _ _ _ _).2 ⟨hs, h1⟩)

/-- memory holds a red-black tree whose nodes, in order, are `xs` -/
def IsRB (g : Augment A) (t : Mem A) (xs : List ℕ) : Prop :=
  ∃ s, Holds g t [] s ∧ s.inorder = xs ∧ s.color = .black ∧ ∃ n, RB s n

theorem setColor_same (h : t.color a = c) : t.setColor a c = t := by
  subst h
  simp [Mem.setColor]

/-- a tree without a violation stays as it is when its root is painted black -/
theorem isRB_of_plug (h : Holds g t k s) (hs : RB s n) (hk : CtxRB k s.color n) :
    t.setColor t.root .black = t ∧ IsRB g t (plug k s).inorder := by
  obtain ⟨hc, m, hm⟩ := hk.plug hs
  have hroot := (holds_root g t k s).1 h
  have hr : t.root = (plug k s).root := hroot.focus.ctx
  exact ⟨setColor_same (by rw [hr, hroot.color_root, hc]), plug k s, hroot, rfl, hc, m, hm⟩

/-- what stands at a position only counts with its nodes in order -/
theorem plug_inorder (k : List Frame) {s s' : Shape} (h : s.inorder = s'.inorder) : (plug k s).inorder = (plug k s').inorder := by
  rw [inorder_plug, inorder_plug, h]

/-! ## The insertion fix-up -/

variable {d1 d2 : Side} {b : ℕ} {ca cb : Color} {s1 s2 : Shape}

/-- which child a position is, as the code finds it out -/
theorem side_test (h1 : t.child f.side f.node = p) (h2 : t.child f.side.flip f.node ≠ p) :
    (if p = t.child .left f.node then Side.left else Side.right) = f.side := by
  cases hs : f.side with
  | left =>
    rw [hs] at h1
    rw [if_pos h1.symm]
  | right =>
    rw [hs] at h2
    exact if_neg (Ne.symm h2)

/-- the state of the insertion fix-up: a red subtree where a black one is needed, and no other violation -/
structure Inserting (g : Augment A) (t : Mem A) (k : List Frame) (s : Shape) (n : ℕ) : Prop where
  holds : Holds g t k s
  red : s.color = .red
  rb : RB s n
  ctx : CtxRB k .black n

theorem inserting_root (h : Inserting g t [] s n) : IsRB g (t.setColor t.root .black) s.inorder := by
  have hroot : t.root = s.root := h.holds.focus.ctx
  obtain ⟨l, a, c, r, rfl⟩ := Shape.eq_branch (h.holds.root_ne h.red) .left
  obtain rfl : c = .red := h.red
  rw [hroot]
  exact ⟨.branch .left l a .black r, h.holds.paint .black, rfl, rfl, n + 1, n, rfl, h.rb.2⟩

/-- the links around a red subtree and its parent -/
theorem Inserting.links (h : Inserting g t (⟨d1, a, ca, s1⟩ :: ⟨d2, b, cb, s2⟩ :: k) s n) :
    t.parent s.root = a ∧ t.parent a = b ∧ t.child d1 a = s.root ∧ t.child d1.flip a ≠ s.root ∧ t.child d2.flip b = s2.root := by
  have hne := h.holds.root_ne h.red
  obtain ⟨h1, _, _, h2, _, _, h3, _⟩ := h.holds.focus.ctx
  exact ⟨h.holds.focus.up hne, h2, h1, IsCtx.sib_ne h.holds.focus hne, h3.1⟩

/-- a red uncle: the violation moves two levels up -/
theorem insertFixupSide_recolor (h : Inserting g t (⟨d1, a, .red, s1⟩ :: ⟨d2, b, .black, s2⟩ :: k) s n) (hu : s2.color = .red) :
    ∃ s', s'.root = (insertFixupSide g d2 t s.root).2 ∧
      (plug k s').inorder = (plug (⟨d1, a, .red, s1⟩ :: ⟨d2, b, .black, s2⟩ :: k) s).inorder ∧
      Inserting g (insertFixupSide g d2 t s.root).1 k s' (n + 1) := by
  obtain ⟨pa, pb, _, _, cu⟩ := h.links
  obtain ⟨_, _, hs1, hs2, hk⟩ := h.ctx
  have huncle := h.holds.up.across
  obtain ⟨ul, u, c, ur, rfl⟩ := Shape.eq_branch (huncle.root_ne hu) .left
  obtain rfl : c = .red := hu
  have hcu := huncle.color_root
  rw [Shape.branch_root] at cu hcu
  have heq : insertFixupSide g d2 t s.root = (((t.setColor a .black).setColor u .black).setColor b .red, b) := by
    simp [insertFixupSide, pa, pb, cu, hcu]
  have hh := ((h.holds.up.paint .black).across.paint .black).across.up.paint .red
  rw [Side.flip_flip] at hh
  rw [heq]
  refine ⟨_, Shape.branch_root _ _ _ _ _, plug_inorder k ?_, hh, Shape.branch_color _ _ _ _ _, (rb_red _ _ _ _ _).2 ⟨?_, ?_, ?_⟩, hk⟩
  · cases d1 <;> cases d2 <;> rfl
  · exact ⟨Shape.branch_color _ _ _ _ _, rfl⟩
  · exact (rb_black_succ _ _ _ _ _).2 ⟨h.rb, hs1⟩
  · exact (rb_black_succ _ _ _ _ _).2 ((rb_red _ _ _ _ _).1 hs2).2

/-- a black uncle and an outer grandchild: a rotation at the grandparent ends the fix-up -/
theorem insertFixup_outer (h : Inserting g t (⟨d, a, .red, s1⟩ :: ⟨d, b, .black, s2⟩ :: k) s n) (hu : s2.color = .black) :
    let q := rotate g d.flip ((t.setColor a .black).setColor b .red) b
    q.color (q.parent s.root) = .black ∧ q.setColor q.root .black = q ∧
      IsRB g q (plug (⟨d, a, .red, s1⟩ :: ⟨d, b, .black, s2⟩ :: k) s).inorder := by
  obtain ⟨_, hc1, hs1, hs2, hk⟩ := h.ctx
  have hh : Holds g ((t.setColor a .black).setColor b .red) k (.branch d.flip s2 b .red (.branch d.flip s1 a .black s)) := by
    rw [Shape.branch_flip, Shape.branch_flip]
    exact (h.holds.up.paint .black).up.paint .red
  have hr := rotate_holds hh
  have hrb : RB (.branch d.flip (.branch d.flip s2 b .red s1) a .black s) (n + 1) :=
    (rb_black_succ _ _ _ _ _).2 ⟨(rb_red _ _ _ _ _).2 ⟨⟨hu, hc1⟩, hs2, hs1⟩, h.rb⟩
  obtain ⟨hsame, hfin⟩ := isRB_of_plug hr hrb (by rw [Shape.branch_color]; exact hk)
  have horder : (plug k (.branch d.flip (.branch d.flip s2 b .red s1) a .black s)).inorder =
      (plug (⟨d, a, .red, s1⟩ :: ⟨d, b, .black, s2⟩ :: k) s).inorder := by
    refine plug_inorder k ?_
    cases d <;> simp [Shape.branch, Shape.inorder, Side.flip]
  refine ⟨?_, hsame, horder ▸ hfin⟩
  have hup := ((isTree_branch _ _ _ _ _ _).1 hr.focus.tree).2.2.2.1 (h.holds.root_ne h.red)
  have hcol := hr.color_root
  rw [Shape.branch_root, Shape.branch_color] at hcol
  rw [hup, hcol]

/-- a black uncle: one or two rotations end the fix-up -/
theorem insertFixupSide_rotate (h : Inserting g t (⟨d1, a, .red, s1⟩ :: ⟨d2, b, .black, s2⟩ :: k) s n) (hu : s2.color = .black) :
    let r := insertFixupSide g d2 t s.root
    r.1.color (r.1.parent r.2) = .black ∧ r.1.setColor r.1.root .black = r.1 ∧
      IsRB g r.1 (plug (⟨d1, a, .red, s1⟩ :: ⟨d2, b, .black, s2⟩ :: k) s).inorder := by
  obtain ⟨pa, pb, cs, hsib, cu⟩ := h.links
  have hcu := h.holds.up.across.color_root
  rw [hu] at hcu
  rcases Side.eq_or_flip d2 d1 with rfl | rfl
  · have heq : insertFixupSide g d1 t s.root = (rotate g d1.flip ((t.setColor a .black).setColor b .red) b, s.root) := by
      simp [insertFixupSide, pa, pb, cu, hcu, Ne.symm hsib]
    rw [heq]
    exact insertFixup_outer h hu
  · -- the inner grandchild: a rotation at the parent makes it an outer one
    obtain ⟨xl, x, c, xr, rfl⟩ := Shape.eq_branch (h.holds.root_ne h.red) d2
    obtain rfl : c = .red := by simpa using h.red
    obtain ⟨_, hc1, hs1, hs2, hk⟩ := h.ctx
    obtain ⟨⟨hcl, hcr⟩, hxl, hxr⟩ := (rb_red _ _ _ _ _).1 h.rb
    have hrot := h.holds.up
    rw [Shape.branch_flip] at hrot
    have hins : Inserting g (rotate g d2 t a) (⟨d2, x, .red, xr⟩ :: ⟨d2, b, .black, s2⟩ :: k) (.branch d2 s1 a .red xl) n :=
      ⟨(rotate_holds hrot).down, Shape.branch_color _ _ _ _ _, (rb_red _ _ _ _ _).2 ⟨⟨hc1, hcl⟩, hs1, hxl⟩, rfl, hcr, hxr, hs2, hk⟩
    obtain ⟨px, pxb, _⟩ := hins.links
    rw [Shape.branch_root] at px pa cs ⊢
    have heq : insertFixupSide g d2 t x = (rotate g d2.flip (((rotate g d2 t a).setColor x .black).setColor b .red) b, a) := by
      simp [insertFixupSide, pa, pb, cu, hcu, cs, px, pxb]
    have horder : (plug (⟨d2, x, .red, xr⟩ :: ⟨d2, b, .black, s2⟩ :: k) (.branch d2 s1 a .red xl)).inorder =
        (plug (⟨d2.flip, a, .red, s1⟩ :: ⟨d2, b, .black, s2⟩ :: k) (.branch d2 xl x .red xr)).inorder := by
      refine plug_inorder k ?_
      cases d2 <;> simp [Shape.branch, Shape.inorder, Side.flip]
    have hfin := insertFixup_outer hins hu
    rw [Shape.branch_root, horder] at hfin
    rw [heq]
    exact hfin

/-- **The insertion fix-up** turns a red subtree where a black one is needed into a red-black tree with the same
in-order sequence, and stops within as many rounds as there are frames above the node. -/
theorem insertFixup_isRB (fuel : ℕ)
    (h : Inserting g t k s n) (hf : k.length ≤ fuel) : IsRB g (insertFixup g fuel t s.root) (plug k s).inorder := by
  induction fuel generalizing t k s n with
  | zero =>
    obtain rfl : k = [] := length_eq_zero_iff.1 (by omega)
    exact inserting_root h
  | succ fuel ih =>
    have hup : t.parent s.root = top k := h.holds.focus.up (h.holds.root_ne h.red)
    cases k with
    | nil =>
      rw [insertFixup, if_neg (by rw [hup]; simp [top, h.holds.nil])]
      exact inserting_root h
    | cons f k =>
      obtain ⟨d1, a, c1, s1⟩ := f
      have hcol : t.color a = c1 := (h.holds.cpainted _ mem_cons_self).1
      cases c1 with
      | black =>
        -- a black parent: nothing is violated
        rw [insertFixup, if_neg (by rw [hup]; simp [top, hcol])]
        obtain ⟨h1, h2⟩ := isRB_of_plug h.holds h.rb h.ctx
        rw [h1]
        exact h2
      | red =>
        cases k with
        | nil => exact absurd h.ctx.2.2.2 (by simp [CtxRB])
        | cons f2 k =>
          obtain ⟨d2, b, c2, s2⟩ := f2
          obtain rfl : c2 = .black := by
            cases c2 with
            | red => exact absurd h.ctx.2.2.2.1 (by simp)
            | black => rfl
          have hfocus := h.holds.up.focus
          have ha0 : a ≠ 0 := h.holds.focus.ctx.2.1
          have hside : (if a = t.child .left b then Side.left else Side.right) = d2 :=
            side_test (f := ⟨d2, b, .black, s2⟩) (by simpa using hfocus.ctx.1) (by simpa using IsCtx.sib_ne hfocus (by simpa using ha0))
          have pa : t.parent s.root = a := hup
          have pb : t.parent a = b := h.holds.focus.ctx.2.2.2.1
          rw [insertFixup, if_pos (by rw [pa]; exact hcol)]
          simp only [pa, pb, hside]
          cases hu : s2.color with
          | red =>
            obtain ⟨s', r1, r2, r3⟩ := insertFixupSide_recolor h hu
            rw [← r1, ← r2]
            exact ih r3 (by simp only [length_cons] at hf; omega)
          | black =>
            obtain ⟨r1, r2, r3⟩ := insertFixupSide_rotate h hu
            have hdone : ∀ m, insertFixup g m (insertFixupSide g d2 t s.root).1 (insertFixupSide g d2 t s.root).2 =
                (insertFixupSide g d2 t s.root).1 := by
              intro m
              cases m with
              | zero => exact r2
              | succ m => rw [insertFixup, if_neg (by rw [r1]; simp), r2]
            rw [hdone]
            exact r3

/-! ## The deletion fix-up -/

/-- a red root over any two subtrees with `n` black nodes on every path -/
def RedRoot (s : Shape) (n : ℕ) : Prop := ∃ d l a r, s = .branch d l a .red r ∧ RB l n ∧ RB r n

theorem RedRoot.is_red (h : RedRoot s n) : s.color = .red := by
  obtain ⟨d, l, a, r, rfl, _⟩ := h
  exact Shape.branch_color _ _ _ _ _

/-- the state of the deletion fix-up: a subtree one black node short, and no violation that painting it black would not
repair; the sentinel, if it is in focus, knows its parent -/
structure Deleting (g : Augment A) (t : Mem A) (k : List Frame) (s : Shape) (n : ℕ) : Prop where
  holds : Holds g t k s
  parent : t.parent s.root = top k
  short : s.color = .black ∧ RB s n ∨ RedRoot s n
  ctx : CtxRB k .black (n + 1)

theorem Deleting.red (h : Deleting g t k s n) (hs : RedRoot s n) : IsRB g (t.setColor s.root .black) (plug k s).inorder := by
  obtain ⟨d, l, a, r, rfl, hl, hr⟩ := hs
  have hfin := isRB_of_plug (h.holds.paint .black) ((rb_black_succ _ _ _ _ _).2 ⟨hl, hr⟩) (by rw [Shape.branch_color]; exact h.ctx)
  have horder : (plug k (.branch d l a .black r)).inorder = (plug k (.branch d l a .red r)).inorder :=
    plug_inorder k (by cases d <;> rfl)
  rw [Shape.branch_root, ← horder]
  exact hfin.2

theorem deleteFixup_red (g : Augment A) (fuel : ℕ) {node : ℕ} (h : t.color node = .red) :
    deleteFixup g fuel t node = t.setColor node .black := by
  cases fuel with
  | zero => rfl
  | succ fuel => rw [deleteFixup, if_neg (by simp [h])]

theorem deleteFixup_root (g : Augment A) (fuel : ℕ) (t : Mem A) : deleteFixup g fuel t t.root = t.setColor t.root .black := by
  cases fuel with
  | zero => rfl
  | succ fuel => rw [deleteFixup, if_neg (by simp)]

/-- the far nephew is red: a rotation at the parent repairs the tree -/
theorem deleteFixupFinal_isRB {w : ℕ} (h : Holds g t (⟨d, a, ca, .branch d m w .black r⟩ :: k) s) (hp : t.parent s.root = a)
    (hs : RB s n) (hm : RB m n) (hr : RB r n) (hrc : r.color = .red)
    (hk : CtxRB (⟨d, a, ca, .branch d m w .black r⟩ :: k) .black (n + 1)) :
    let q := deleteFixupFinal g d t s.root w
    q.2 = q.1.root ∧ q.1.setColor q.1.root .black = q.1 ∧
      IsRB g q.1 (plug (⟨d, a, ca, .branch d m w .black r⟩ :: k) s).inorder ∧ q.1.parent 0 = t.parent 0 := by
  have ha : t.color a = ca := (h.cpainted _ mem_cons_self).1
  obtain ⟨rl, z, c, rr, rfl⟩ := Shape.eq_branch (h.across.down.across.root_ne hrc) d
  obtain rfl : c = .red := by simpa using hrc
  have cr : t.child d.flip w = z := by simpa using ((isTree_branch _ _ _ _ _ _).1 h.across.focus.tree).2.2.1
  have heq : deleteFixupFinal g d t s.root w = (rotate g d (((t.setColor w ca).setColor a .black).setColor z .black) a,
      (rotate g d (((t.setColor w ca).setColor a .black).setColor z .black) a).root) := by
    simp [deleteFixupFinal, hp, cr, ha]
  -- the sibling, the parent and the far nephew are painted
  have hh := ((((h.across.paint ca).up.paint .black).down.down.across.paint .black).across.up.across.up)
  simp only [Side.flip_flip] at hh
  have hrot := rotate_holds hh
  have hleft : RB (.branch d s a .black m) (n + 1) := (rb_black_succ _ _ _ _ _).2 ⟨hs, hm⟩
  have hright : RB (.branch d rl z .black rr) (n + 1) := (rb_black_succ _ _ _ _ _).2 ((rb_red _ _ _ _ _).1 hr).2
  obtain ⟨j, hrb, hck⟩ : ∃ j, RB (.branch d (.branch d s a .black m) w ca (.branch d rl z .black rr)) j ∧ CtxRB k ca j := by
    cases ca with
    | red => exact ⟨n + 1, (rb_red _ _ _ _ _).2 ⟨⟨by simp, by simp⟩, hleft, hright⟩, hk.2.2.2⟩
    | black => exact ⟨n + 2, (rb_black_succ _ _ _ _ _).2 ⟨hleft, hright⟩, hk.2⟩
  have hfin := isRB_of_plug hrot hrb (by rw [Shape.branch_color]; exact hck)
  have horder : (plug k (.branch d (.branch d s a .black m) w ca (.branch d rl z .black rr))).inorder =
      (plug (⟨d, a, ca, .branch d m w .black (.branch d rl z .red rr)⟩ :: k) s).inorder := by
    refine plug_inorder k ?_
    cases d <;> simp [Shape.branch, Shape.inorder]
  rw [horder] at hfin
  rw [heq]
  exact ⟨rfl, hfin.1, hfin.2, rotate_parent_nil g hh.focus⟩

/-- the outcome of one round of the deletion fix-up: the shortage has moved up, to a node that is red and thus ends the
fix-up, or (only if `up` holds) to the position below the frames `k'`; or the tree is repaired and the next node is the
root -/
def Round (g : Augment A) (up : Prop) (k' : List Frame) (xs : List ℕ) (nilParent : ℕ) (q : Mem A × ℕ) : Prop :=
  q.1.parent 0 = nilParent ∧
  ((∃ k s n, q.2 = s.root ∧ (plug k s).inorder = xs ∧ Deleting g q.1 k s n ∧ (RedRoot s n ∨ up ∧ k = k')) ∨
    (q.2 = q.1.root ∧ q.1.setColor q.1.root .black = q.1 ∧ IsRB g q.1 xs))

/-- the node in focus keeps its parent, be it the sentinel -/
theorem parent_kept (h : Focus t' (f :: k) s) (hnil : t'.parent 0 = t.parent 0) (hp : t.parent s.root = f.node) :
    t'.parent s.root = f.node := by
  by_cases h0 : s.root = 0
  · rw [h0, hnil, ← h0]
    exact hp
  · exact h.up h0

theorem deleteFixupBlack_round {w : ℕ} (h : Holds g t (⟨d, a, ca, .branch d m w .black r⟩ :: k) s) (hp : t.parent s.root = a)
    (hs : RB s n) (hk : CtxRB (⟨d, a, ca, .branch d m w .black r⟩ :: k) .black (n + 1)) :
    Round g (ca = .black) k (plug (⟨d, a, ca, .branch d m w .black r⟩ :: k) s).inorder (t.parent 0)
      (deleteFixupBlack g d t s.root w) := by
  have pa : t.parent a = top k := h.focus.ctx.2.2.2.1
  -- the sibling is black, so its two subtrees have the height of `s`
  obtain ⟨hm, hr⟩ : RB m n ∧ RB r n := by
    refine (rb_black_succ d m w r n).1 ?_
    cases ca with
    | red => exact hk.2.2.1
    | black => exact hk.1
  have hw := h.across
  obtain ⟨_, ⟨cm, _, _⟩, cr, _, _⟩ := (isTree_branch _ _ _ _ _ _).1 hw.focus.tree
  unfold deleteFixupBlack
  rw [cm, cr, hw.down.color_root, hw.down.across.color_root]
  by_cases hboth : m.color = .black ∧ r.color = .black
  · -- both nephews black: paint the sibling red and go up
    rw [if_pos hboth, hp]
    have hh := (hw.paint .red).across.up
    rw [Side.flip_flip] at hh
    have hsib : RB (.branch d m w .red r) n := (rb_red _ _ _ _ _).2 ⟨hboth, hm, hr⟩
    have horder : (plug k (.branch d s a ca (.branch d m w .red r))).inorder =
        (plug (⟨d, a, ca, .branch d m w .black r⟩ :: k) s).inorder := plug_inorder k (by cases d <;> rfl)
    refine ⟨rfl, Or.inl ⟨k, .branch d s a ca (.branch d m w .red r), ?_⟩⟩
    have hparent : (t.setColor w .red).parent (Shape.branch d s a ca (.branch d m w .red r)).root = top k := by
      rw [Shape.branch_root]
      exact pa
    cases ca with
    | red =>
      have hred : RedRoot (.branch d s a .red (.branch d m w .red r)) n := ⟨d, _, _, _, rfl, hs, hsib⟩
      exact ⟨n, by simp, horder, ⟨hh, hparent, Or.inr hred, hk.2.2.2.of_red⟩, Or.inl hred⟩
    | black =>
      exact ⟨n + 1, by simp, horder, ⟨hh, hparent, Or.inl ⟨by simp, (rb_black_succ _ _ _ _ _).2 ⟨hs, hsib⟩⟩, hk.2⟩, Or.inr ⟨rfl, rfl⟩⟩
  rw [if_neg hboth]
  by_cases hfar : r.color = .black
  · -- the near nephew is red: rotate it up, then the far one is
    rw [if_pos hfar]
    have hnear : m.color = .red := by
      cases hc : m.color with
      | red => rfl
      | black => exact absurd ⟨hc, hfar⟩ hboth
    obtain ⟨ml, z, c, mr, rfl⟩ := Shape.eq_branch (hw.down.root_ne hnear) d
    obtain rfl : c = .red := by simpa using hnear
    obtain ⟨⟨_, hcr⟩, hml, hmr⟩ := (rb_red _ _ _ _ _).1 hm
    have hsib : Holds g ((t.setColor z .black).setColor w .red) (⟨d.flip, a, ca, s⟩ :: k)
        (.branch d.flip r w .red (.branch d.flip mr z .black ml)) := by
      rw [Shape.branch_flip, Shape.branch_flip]
      exact (hw.down.paint .black).up.paint .red
    have hback := (rotate_holds hsib).across
    rw [Side.flip_flip, Shape.branch_flip, Shape.branch_flip] at hback
    have hp2 := parent_kept hback.focus (rotate_parent_nil g hsib.focus) hp
    have hc2 : (rotate g d.flip ((t.setColor z .black).setColor w .red) w).child d.flip a = z := by
      simpa using hback.focus.ctx.2.2.1.1
    have hfar2 : RB (.branch d mr w .red r) n := (rb_red _ _ _ _ _).2 ⟨⟨hcr, hfar⟩, hmr, hr⟩
    have hctx2 : CtxRB (⟨d, a, ca, .branch d ml z .black (.branch d mr w .red r)⟩ :: k) .black (n + 1) := by
      have hnew := (rb_black_succ d ml z _ n).2 ⟨hml, hfar2⟩
      cases ca with
      | red => exact ⟨rfl, by simp, hnew, hk.2.2.2⟩
      | black => exact ⟨hnew, hk.2⟩
    obtain ⟨f1, f2, f3, f4⟩ := deleteFixupFinal_isRB hback hp2 hs hml hfar2 (by simp) hctx2
    have horder : (plug (⟨d, a, ca, .branch d ml z .black (.branch d mr w .red r)⟩ :: k) s).inorder =
        (plug (⟨d, a, ca, .branch d (.branch d ml z .red mr) w .black r⟩ :: k) s).inorder := by
      refine plug_inorder k ?_
      cases d <;> simp [Shape.branch, Shape.inorder]
    rw [horder] at f3
    dsimp only at hp2 ⊢
    rw [Shape.branch_root, hp2, hc2]
    exact ⟨f4.trans (rotate_parent_nil g hsib.focus), Or.inr ⟨f1, f2, f3⟩⟩
  · -- the far nephew is red
    rw [if_neg hfar]
    have hrc : r.color = .red := by
      cases hc : r.color with
      | red => rfl
      | black => exact absurd hc hfar
    obtain ⟨f1, f2, f3, f4⟩ := deleteFixupFinal_isRB h hp hs hm hr hrc hk
    exact ⟨f4, Or.inr ⟨f1, f2, f3⟩⟩

theorem RB.root_ne_of_height (h : RB s (n + 1)) (ht : IsTree t s) : s.root ≠ 0 := by
  cases s with
  | leaf => simp [RB] at h
  | node l a c r => exact ht.1

theorem deleteFixupSide_round {v : Shape} (h : Deleting g t (⟨d, a, ca, v⟩ :: k) s n) (hs : RB s n) :
    Round g True k (plug (⟨d, a, ca, v⟩ :: k) s).inorder (t.parent 0) (deleteFixupSide g d t s.root) := by
  have hp : t.parent s.root = a := h.parent
  have hv : RB v (n + 1) := by
    have hctx := h.ctx
    cases ca with
    | red => exact hctx.2.2.1
    | black => exact hctx.1
  obtain ⟨m, w, cw, r, rfl⟩ := Shape.eq_branch (hv.root_ne_of_height h.holds.across.focus.tree) d
  have hcw := h.holds.across.color_root
  have cv : t.child d.flip a = w := by simpa using h.holds.focus.ctx.2.2.1.1
  rw [Shape.branch_root, Shape.branch_color] at hcw
  unfold deleteFixupSide
  dsimp only
  rw [hp, cv, hcw]
  cases cw with
  | black =>
    rw [if_neg (by simp)]
    obtain ⟨r1, r2⟩ := deleteFixupBlack_round h.holds hp hs h.ctx
    refine ⟨r1, r2.imp ?_ id⟩
    rintro ⟨k', s', n', h1, h2, h3, h4⟩
    exact ⟨k', s', n', h1, h2, h3, h4.imp id fun hc => ⟨trivial, hc.2⟩⟩
  | red =>
    -- a red sibling: one rotation gives the node a black sibling and a red parent
    rw [if_pos rfl]
    obtain ⟨⟨hcm, _⟩, hm, hr⟩ := (rb_red _ _ _ _ _).1 hv
    obtain rfl : ca = .black := by
      cases ca with
      | red => exact absurd h.ctx.2.1 (by simp)
      | black => rfl
    have hh := (h.holds.across.paint .black).across.up.paint .red
    rw [Side.flip_flip] at hh
    have hback := (rotate_holds hh).down.down
    have hp2 := parent_kept hback.focus (rotate_parent_nil g hh.focus) hp
    obtain ⟨m1, z, c, m2, rfl⟩ := Shape.eq_branch (hm.root_ne_of_height hback.across.focus.tree) d
    obtain rfl : c = .black := by simpa using hcm
    have hc2 : (rotate g d ((t.setColor w .black).setColor a .red) a).child d.flip a = z := by simpa using hback.focus.ctx.2.2.1.1
    have horder : (plug (⟨d, a, .red, .branch d m1 z .black m2⟩ :: ⟨d, w, .black, r⟩ :: k) s).inorder =
        (plug (⟨d, a, .black, .branch d (.branch d m1 z .black m2) w .red r⟩ :: k) s).inorder := by
      refine plug_inorder k ?_
      cases d <;> simp [Shape.branch, Shape.inorder]
    obtain ⟨r1, r2⟩ := deleteFixupBlack_round hback hp2 hs ⟨rfl, by simp, hm, hr, h.ctx.2⟩
    rw [horder] at r2
    have hp1 : ((t.setColor w .black).setColor a .red).parent s.root = a := hp
    dsimp only at hp2
    simp only [Mem.setColor_parent, hp, hp2, hc2]
    refine ⟨r1.trans (rotate_parent_nil g hh.focus), r2.imp ?_ id⟩
    rintro ⟨k', s', n', h1, h2, h3, h4⟩
    exact ⟨k', s', n', h1, h2, h3, Or.inl (h4.resolve_right fun hc => absurd hc.1 (by simp))⟩

/-- the root is one of the frames above a position that is not the root -/
theorem IsCtx.root_mem (h : IsCtx t k p) (hk : k ≠ []) :
    t.root ∈ addrs k ∧ t.root ≠ 0 := by
  induction k generalizing p with
  | nil => exact absurd rfl hk
  | cons f k ih =>
    obtain ⟨_, h2, _, _, h5⟩ := h
    cases k with
    | nil => exact ⟨by simp [addrs, show t.root = f.node from h5], by rw [show t.root = f.node from h5]; exact h2⟩
    | cons f' k =>
      obtain ⟨i1, i2⟩ := ih h5 (by simp)
      exact ⟨by rw [addrs]; exact mem_cons_of_mem _ (mem_append_right _ i1), i2⟩

/-- **The deletion fix-up** repairs a tree in which one subtree is a black node short, keeps the in-order sequence and
the sentinel's parent, and stops within as many rounds as there are frames above the node. -/
theorem deleteFixup_isRB (fuel : ℕ) (h : Deleting g t k s n) (hf : k.length ≤ fuel) :
    IsRB g (deleteFixup g fuel t s.root) (plug k s).inorder ∧ (deleteFixup g fuel t s.root).parent 0 = t.parent 0 := by
  have hred : ∀ {fuel t k s n}, Deleting g t k s n → RedRoot s n →
      IsRB g (deleteFixup g fuel t s.root) (plug k s).inorder ∧ (deleteFixup g fuel t s.root).parent 0 = t.parent 0 := by
    intro fuel t k s n h hs
    rw [deleteFixup_red g _ (h.holds.color_root.trans hs.is_red)]
    exact ⟨h.red hs, rfl⟩
  induction fuel generalizing t k s n with
  | zero =>
    obtain rfl : k = [] := length_eq_zero_iff.1 (by omega)
    rcases h.short with ⟨hc, hs⟩ | hs
    · have hroot : t.root = s.root := h.holds.focus.ctx
      have hfin := isRB_of_plug h.holds hs hc
      rw [← hroot, deleteFixup_root, hfin.1]
      exact ⟨hfin.2, rfl⟩
    · exact hred h hs
  | succ fuel ih =>
    rcases h.short with ⟨hc, hs⟩ | hs
    swap
    · exact hred h hs
    cases k with
    | nil =>
      have hroot : t.root = s.root := h.holds.focus.ctx
      have hfin := isRB_of_plug h.holds hs hc
      rw [← hroot, deleteFixup_root, hfin.1]
      exact ⟨hfin.2, rfl⟩
    | cons f k =>
      obtain ⟨d, a, ca, v⟩ := f
      obtain ⟨hrm, hr0⟩ := h.holds.focus.ctx.root_mem (by simp)
      have hne : s.root ≠ t.root := by
        intro hc
        have hs0 : s.root ≠ 0 := by rw [hc]; exact hr0
        exact h.holds.focus.disjoint (Shape.root_mem hs0) (by rw [hc]; exact hrm)
      have hp : t.parent s.root = a := h.parent
      have cv : t.child d.flip a = v.root := h.holds.focus.ctx.2.2.1.1
      have cs : t.child d a = s.root := h.holds.focus.ctx.1
      have hv : RB v (n + 1) := by
        have hctx := h.ctx
        cases ca with
        | red => exact hctx.2.2.1
        | black => exact hctx.1
      have hv0 := hv.root_ne_of_height h.holds.across.focus.tree
      have hvs : v.root ≠ s.root := by
        intro hc
        exact h.holds.focus.disjoint (Shape.root_mem (hc ▸ hv0)) (by
          rw [← hc]
          simp [addrs, Shape.root_mem hv0])
      have hside : (if s.root = t.child .left a then Side.left else Side.right) = d :=
        side_test (f := ⟨d, a, ca, v⟩) cs (by rw [show t.child d.flip a = v.root from cv]; exact hvs)
      obtain ⟨r1, r2⟩ := deleteFixupSide_round h hs
      rw [deleteFixup, if_pos ⟨hne, h.holds.color_root.trans hc⟩]
      simp only [hp, hside]
      rcases r2 with ⟨k', s', n', h1, h2, h3, h4⟩ | ⟨h1, h2, h3⟩
      · rw [h1, ← h2]
        rcases h4 with h4 | ⟨_, rfl⟩
        · exact ⟨(hred h3 h4).1, (hred h3 h4).2.trans r1⟩
        · obtain ⟨i1, i2⟩ := ih h3 (by simp only [length_cons] at hf; omega)
          exact ⟨i1, i2.trans r1⟩
      · rw [h1, deleteFixup_root, h2]
        exact ⟨h3, r1⟩

/-! ## Taking trees apart -/

theorem RB.unplug {m : ℕ} (h : RB (plug k s) m) (hc : (plug k s).color = .black) : ∃ n, RB s n ∧ CtxRB k s.color n := by
  induction k generalizing s with
  | nil => exact ⟨m, h, hc⟩
  | cons f k ih =>
    obtain ⟨d, a, c, v⟩ := f
    obtain ⟨n, hs, hk⟩ := ih (s := .branch d s a c v) h hc
    rw [Shape.branch_color] at hk
    cases c with
    | red =>
      obtain ⟨⟨h1, h2⟩, h3, h4⟩ := (rb_red _ _ _ _ _).1 hs
      exact ⟨n, h3, h1, h2, h4, hk⟩
    | black =>
      obtain ⟨j, rfl, h1, h2⟩ := (rb_black _ _ _ _ _).1 hs
      exact ⟨j, h1, h2, hk⟩

/-- a tree has the nodes of a subtree, and one for every step down to it -/
theorem length_add_size_le (k : List Frame) (s : Shape) : k.length + s.size ≤ (plug k s).size := by
  induction k generalizing s with
  | nil => exact (Nat.zero_add _).le
  | cons f k ih =>
    have hup := ih (.branch f.side s f.node f.color f.sib)
    have hbranch : s.size < (Shape.branch f.side s f.node f.color f.sib).size := by
      cases f.side <;> simp only [Shape.branch, Shape.size] <;> omega
    rw [plug, length_cons]
    omega

theorem IsCtx.addrs_ne (h : IsCtx t k p) (ha : a ∈ addrs k) : a ≠ 0 := by
  induction k generalizing p with
  | nil => simp [addrs] at ha
  | cons f k ih =>
    obtain ⟨_, h2, ⟨_, _, h3⟩, _, h5⟩ := h
    simp only [addrs, mem_cons, mem_append] at ha
    rcases ha with rfl | ha | ha
    · exact h2
    · exact h3.root_ne ha
    · exact ih h5 ha

/-- redirecting the link to a position to the root of another tree in memory -/
theorem focus_setHole (hk : IsCtx t k p) (hs : IsTree t s)
    (hn : (s.inorder ++ addrs k).Nodup) (hc : ∀ e a, t'.child e a = if isHole k e a then s.root else t.child e a)
    (hp : ∀ a, a ≠ s.root → t'.parent a = t.parent a) (hup : t'.parent s.root = top k)
    (hr : t'.root = if k = [] then s.root else t.root) : Focus t' k s := by
  obtain ⟨ns, nk, dis⟩ := nodup_append.1 hn
  refine ⟨?_, fun _ => hup, ?_, hn⟩
  · refine hk.relink nk (fun a ha e hh => by rw [hc, if_neg hh]) (fun a ha => ?_) (fun hne => by rw [hr, if_neg hne]) ?_
    · exact hp a (Shape.ne_root (hk.addrs_ne ha) fun hs => dis a hs a ha rfl)
    · cases k with
      | nil => simp [hole, hr]
      | cons f k => simp [hole, hc, isHole]
  · refine hs.congr ns (fun a ha e => ?_) (fun a _ hne => hp a hne)
    rw [hc, if_neg (fun hh => dis a ha a hh.mem rfl)]

theorem transplant_focus {s' : Shape} (h : Focus t k s) (h0 : s.root ≠ 0) (hs' : IsTree t s')
    (hn : (s'.inorder ++ addrs k).Nodup) :
    Focus (transplant t s.root s'.root) k s' ∧ (transplant t s.root s'.root).parent s'.root = top k ∧
      (∀ a, a ≠ s'.root → (transplant t s.root s'.root).parent a = t.parent a) ∧
      (∀ e a, (transplant t s.root s'.root).child e a = if isHole k e a then s'.root else t.child e a) ∧
      (transplant t s.root s'.root).color = t.color ∧ (transplant t s.root s'.root).aug = t.aug ∧
      (transplant t s.root s'.root).root = if k = [] then s'.root else t.root := by
  have hrep : replaceChild .left t s.root s'.root = setHole t k s'.root := by
    refine replaceChild_eq _ _ (h.up h0) fun f k' hk => ?_
    subst hk
    exact ⟨h.ctx.2.1, h.ctx.1, IsCtx.sib_ne h h0⟩
  have heq : transplant t s.root s'.root = (setHole t k s'.root).setParent s'.root (top k) := by
    rw [transplant, hrep, h.up h0]
  have hp : ∀ a, a ≠ s'.root → (transplant t s.root s'.root).parent a = t.parent a := fun a ha => by
    rw [heq, Mem.setParent_parent, if_neg ha, setHole_parent]
  have hup : (transplant t s.root s'.root).parent s'.root = top k := by
    rw [heq, Mem.setParent_parent, if_pos rfl]
  have hc : ∀ e a, (transplant t s.root s'.root).child e a = if isHole k e a then s'.root else t.child e a := fun e a => by
    rw [heq, Mem.setParent_child, setHole_child]
  have hroot : (transplant t s.root s'.root).root = if k = [] then s'.root else t.root := by
    rw [heq, Mem.setParent_root, setHole_root]
  refine ⟨focus_setHole h.ctx hs' hn hc hp hup hroot, hup, hp, hc, ?_, ?_, hroot⟩
  · rw [heq, Mem.setParent_color, setHole_color]
  · rw [heq, Mem.setParent_aug, setHole_aug]

/-- every node of a tree is the root of a subtree at some position -/
theorem exists_position (h : a ∈ s.inorder) : ∃ k l c r, s = plug k (.node l a c r) := by
  induction s with
  | leaf => simp [Shape.inorder] at h
  | node l b c r ihl ihr =>
    simp only [Shape.inorder, mem_append, mem_cons] at h
    rcases h with h | rfl | h
    · obtain ⟨k, l', c', r', rfl⟩ := ihl h
      exact ⟨k ++ [⟨.left, b, c, r⟩], l', c', r', by rw [plug_append]; rfl⟩
    · exact ⟨[], l, c, r, rfl⟩
    · obtain ⟨k, l', c', r', rfl⟩ := ihr h
      exact ⟨k ++ [⟨.right, b, c, l⟩], l', c', r', by rw [plug_append]; rfl⟩

theorem CtxSized.sib (h : CtxSized g u k n) : ∀ f ∈ k, Sized g u f.sib := by
  induction k generalizing n with
  | nil => simp
  | cons f k ih =>
    intro f' hf'
    rcases mem_cons.1 hf' with rfl | hf'
    · exact h.2.1
    · exact ih h.2.2 f' hf'

theorem addrs_append (k k' : List Frame) : addrs (k ++ k') = addrs k ++ addrs k' := by
  induction k with
  | nil => rfl
  | cons f k ih => simp [addrs, ih]

/-- the frames above a removed node fit what is left of its subtree, or need one black node more -/
theorem removed_rb (h : RB (.branch d .leaf a c s) n) (hk : CtxRB k c n) : (c = .red ∧ ∃ n, RB s n ∧ CtxRB k s.color n) ∨
      (c = .black ∧ ∃ n, (s.color = .black ∧ RB s n ∨ RedRoot s n) ∧ CtxRB k .black (n + 1)) := by
  cases c with
  | red =>
    obtain ⟨⟨_, hc⟩, _, hs⟩ := (rb_red _ _ _ _ _).1 h
    exact Or.inl ⟨rfl, n, hs, hc ▸ hk.of_red⟩
  | black =>
    obtain ⟨m, rfl, _, hs⟩ := (rb_black _ _ _ _ _).1 h
    refine Or.inr ⟨rfl, m, ?_, hk⟩
    cases hc : s.color with
    | black => exact Or.inl ⟨rfl, hs⟩
    | red =>
      cases s with
      | leaf => cases hc
      | node l a c r =>
        obtain rfl : c = .red := hc
        exact Or.inr ⟨.left, l, a, r, rfl, hs.2⟩

/-- memory holds the tree `plug k s`, but the augmentation of the frames may be out of date -/
structure Loose (g : Augment A) (t : Mem A) (k : List Frame) (s : Shape) : Prop where
  focus : Focus t k s
  nil : t.color 0 = .black
  painted : Painted t.color s
  cpainted : CtxPainted t.color k
  base : g.holds t.aug 0 0
  sized : Sized g t.aug s
  sibs : ∀ f ∈ k, Sized g t.aug f.sib

theorem Holds.loose (h : Holds g t k s) : Loose g t k s :=
  ⟨h.focus, h.nil, h.painted, h.cpainted, h.base, h.sized, CtxSized.sib h.csized⟩

theorem Sized.plain (u : Unit) (s : Shape) : Sized plain u s := by
  induction s with
  | leaf => trivial
  | node l a c r ihl ihr => exact ⟨trivial, ihl, ihr⟩

theorem CtxSized.plain (u : Unit) (k : List Frame) (n : ℕ) : CtxSized plain u k n := by
  induction k generalizing n with
  | nil => trivial
  | cons f k ih => exact ⟨trivial, Sized.plain _ _, ih _⟩

theorem Loose.plain {t : Mem Unit} (h : Loose plain t k s) : Holds RedBlack.plain t k s :=
  ⟨h.focus, h.nil, h.painted, h.cpainted, h.base, h.sized, CtxSized.plain _ _ _⟩

theorem erase_plug (h : (plug k (.node l x c r)).inorder.Nodup) :
    (plug k (.node l x c r)).inorder.erase x = before k ++ ((l.inorder ++ r.inorder) ++ after k) := by
  rw [inorder_plug, Shape.inorder] at h ⊢
  have hsplit : before k ++ ((l.inorder ++ x :: r.inorder) ++ after k)
      = (before k ++ l.inorder) ++ x :: (r.inorder ++ after k) := by simp
  rw [hsplit] at h ⊢
  have hnot : x ∉ before k ++ l.inorder := fun hc => (nodup_append.1 h).2.2 x hc x mem_cons_self rfl
  rw [erase_append_right _ hnot, erase_cons_head]
  simp

/-- a tree is not disturbed by writes to other nodes -/
theorem Holds.frame (h : Holds g t [] s) (hc : ∀ a ∈ s.inorder, ∀ d, t'.child d a = t.child d a)
    (hp : ∀ a ∈ s.inorder, t'.parent a = t.parent a) (hcol : ∀ a, a = 0 ∨ a ∈ s.inorder → t'.color a = t.color a)
    (hs : ∀ a n, a = 0 ∨ a ∈ s.inorder → g.holds t.aug a n → g.holds t'.aug a n) (hr : t'.root = t.root) : Holds g t' [] s := by
  obtain ⟨⟨hctx, hup, htree, hnd⟩, h0, hpt, _, hb, hsz, _⟩ := h
  obtain ⟨hup', htree'⟩ := htree.frame (nodup_append.1 hnd).1 hup hc hp
  refine ⟨⟨hr.trans hctx, hup', htree', hnd⟩, ?_, hpt.congr fun a ha => hcol a (Or.inr ha), by simp [CtxPainted],
    hs 0 0 (Or.inl rfl) hb, hsz.congr fun a ha n => hs a n (Or.inr ha), trivial⟩
  rw [hcol 0 (Or.inl rfl), h0]

/-- the tree after the links of a removal: `s` is the subtree that took the place of the node that left its position -/
structure Detached (g : Augment A) (t : Mem A) (k : List Frame) (s : Shape) (original : Color) : Prop extends Loose g t k s where
  parent : t.parent s.root = top k
  colors : (original = .red ∧ ∃ n, RB s n ∧ CtxRB k s.color n) ∨
    (original = .black ∧ ∃ n, (s.color = .black ∧ RB s n ∨ RedRoot s n) ∧ CtxRB k .black (n + 1))

/-- a node with at most one child is replaced by that child -/
theorem transplant_detached (h : Holds g t k (.branch d .leaf x c s)) (hblack : (plug k (.branch d .leaf x c s)).color = .black)
    (hrb : RB (plug k (.branch d .leaf x c s)) n) : Detached g (transplant t x s.root) k s (t.color x) := by
  obtain ⟨j, hs, hk⟩ := hrb.unplug hblack
  rw [Shape.branch_color] at hk
  obtain ⟨hx0, _, _, _, hts⟩ := (isTree_branch _ _ _ _ _ _).1 h.focus.tree
  have hnd : (s.inorder ++ addrs k).Nodup := by
    refine h.focus.nodup.sublist (List.Sublist.append_right ?_ _)
    cases d <;> simp [Shape.branch, Shape.inorder]
  obtain ⟨f1, f2, _, _, f5, f6, _⟩ := transplant_focus h.focus (by simpa using hx0) hts hnd
  rw [Shape.branch_root] at f1 f2 f5 f6
  obtain ⟨_, _, hss⟩ := (sized_branch _ _ _ _ _ _ _).1 h.sized
  obtain ⟨hcx, _, hps⟩ := (painted_branch _ _ _ _ _ _).1 h.painted
  refine ⟨⟨f1, by rw [f5, h.nil], by rw [f5]; exact hps, by rw [f5]; exact h.cpainted, by rw [f6]; exact h.base,
    by rw [f6]; exact hss, by rw [f6]; exact CtxSized.sib h.csized⟩, f2, ?_⟩
  rw [hcx]
  exact removed_rb hs hk

/-- another node takes the place of `x`, with its subtrees -/
theorem Focus.rename (h : Focus t k (.node l x c r)) {c' : Color} (hn : ((Shape.node l y c' r).inorder ++ addrs k).Nodup) (hy0 : y ≠ 0)
    (hl : t'.child .left y = l.root) (hr : t'.child .right y = r.root) (hul : Up t' y l) (hur : Up t' y r)
    (hc : ∀ e a, a ≠ x → a ≠ y → ¬ isHole k e a → t'.child e a = t.child e a)
    (hp : ∀ a, a ≠ y → a ≠ l.root → a ≠ r.root → t'.parent a = t.parent a)
    (hh : hole t' k = y) (hpy : t'.parent y = top k) (hroot : k ≠ [] → t'.root = t.root) : Focus t' k (.node l y c' r) := by
  obtain ⟨_, ⟨_, _, tl⟩, _, _, tr⟩ := h.tree
  obtain ⟨nxl, nxr, _⟩ := nodup_branch (d := .left) h.nodup_tree
  obtain ⟨nt, nk, dis⟩ := nodup_append.1 hn
  obtain ⟨nyl, nyr, nl, nr, nlr⟩ := nodup_branch (d := .left) nt
  have hk : ∀ a ∈ addrs k, a ≠ x ∧ a ≠ y ∧ a ∉ l.inorder ∧ a ∉ r.inorder := by
    intro a ha
    refine ⟨fun hc => h.disjoint (by simp [Shape.inorder]) (hc ▸ ha), ?_, ?_, ?_⟩
    · exact fun hc => dis y (by simp [Shape.inorder]) a ha hc.symm
    · exact fun hc => dis a (by simp [Shape.inorder, hc]) a ha rfl
    · exact fun hc => dis a (by simp [Shape.inorder, hc]) a ha rfl
  -- a subtree of `x` keeps its links, its root's parent apart
  have keep : ∀ s, IsTree t s → s.inorder.Nodup → x ∉ s.inorder → y ∉ s.inorder → (∀ a ∈ s.inorder, a ∉ addrs k) →
      (∀ a ∈ s.inorder, a ≠ s.root → a ≠ l.root ∧ a ≠ r.root) → IsTree t' s := by
    intro s hs ns nx ny nsk nroot
    refine hs.congr ns (fun a ha e => hc e a (fun hx => nx (hx ▸ ha)) (fun hy => ny (hy ▸ ha)) fun hh => nsk a ha hh.mem) ?_
    exact fun a ha hne => hp a (fun hy => ny (hy ▸ ha)) (nroot a ha hne).1 (nroot a ha hne).2
  refine ⟨h.ctx.relink nk (fun a ha e hh => hc e a (hk a ha).1 (hk a ha).2.1 hh) (fun a ha => ?_) hroot hh, fun _ => hpy,
    ⟨hy0, ⟨hl, hul, ?_⟩, hr, hur, ?_⟩, hn⟩
  · have h0 := h.ctx.addrs_ne ha
    exact hp a (hk a ha).2.1 (Shape.ne_root h0 (hk a ha).2.2.1) (Shape.ne_root h0 (hk a ha).2.2.2)
  · exact keep l tl nl nxl nyl (fun a ha hc => (hk a hc).2.2.1 ha) fun a ha hne =>
      ⟨hne, Shape.ne_root (tl.root_ne ha) (nlr a ha)⟩
  · exact keep r tr nr nxr nyr (fun a ha hc => (hk a hc).2.2.2 ha) fun a ha hne =>
      ⟨Shape.ne_root (tr.root_ne ha) fun hl => nlr a hl ha, hne⟩

/-- the end of a search: what comes before the position satisfies `P`, what comes after it `Q` -/
def Between (P Q : ℕ → Prop) (k : List Frame) : Prop := (∀ a ∈ before k, P a) ∧ ∀ a ∈ after k, Q a

/-- one step down, to the side the root of the subtree is not on -/
theorem Between.down {P Q : ℕ → Prop} (h : Between P Q k)
    (hm : (plug k (.branch d s a c r)).inorder.Pairwise fun a b => (P b → P a) ∧ (Q a → Q b))
    (ha : d = .left ∧ Q a ∨ d = .right ∧ P a) : Between P Q (⟨d, a, c, r⟩ :: k) := by
  rw [inorder_plug, pairwise_append, pairwise_append] at hm
  have hs := hm.2.1.1
  rcases ha with ⟨rfl, ha⟩ | ⟨rfl, ha⟩ <;> rw [Shape.branch, Shape.inorder, pairwise_append] at hs
  · refine ⟨h.1, fun b hb => ?_⟩
    simp only [after, mem_cons, mem_append] at hb
    rcases hb with rfl | hb | hb
    · exact ha
    · exact ((pairwise_cons.1 hs.2.1).1 b hb).2 ha
    · exact h.2 b hb
  · refine ⟨fun b hb => ?_, h.2⟩
    simp only [before, mem_append, mem_singleton] at hb
    rcases hb with hb | hb | rfl
    · exact h.1 b hb
    · exact (hs.2.2 b hb a mem_cons_self).1 ha
    · exact ha

/-- a red node at an empty position: the only violation is a red parent -/
theorem inserting_leaf {node : ℕ} (hf : Focus t k .leaf) (h0 : t.color 0 = .black) (hc : CtxPainted t.color k) (hb : g.holds t.aug 0 0)
    (hk : CtxSized g t.aug k 1) (hrb : CtxRB k .black 0) (hne : node ≠ 0) (hnk : node ∉ addrs k) (hchild : ∀ d, t.child d node = 0)
    (hred : t.color node = .red) (hsize : g.holds t.aug node 1) :
    Inserting g ((setHole t k node).setParent node (top k)) k (.node .leaf node .red .leaf) 0 := by
  have htree : IsTree t (.node .leaf node .red .leaf) :=
    ⟨hne, ⟨hchild _, fun h => absurd rfl h, trivial⟩, hchild _, fun h => absurd rfl h, trivial⟩
  have hfocus : Focus ((setHole t k node).setParent node (top k)) k (.node .leaf node .red .leaf) := by
    refine focus_setHole hf.ctx htree ?_ (setHole_child t k node) (fun a ha => ?_) ?_ ?_
    · simp only [Shape.inorder, nil_append, cons_append, nodup_cons]
      exact ⟨hnk, hf.nodup_ctx⟩
    · rw [Mem.setParent_parent, if_neg (show a ≠ node from ha), setHole_parent]
    · rw [Shape.root, Mem.setParent_parent, if_pos rfl]
    · rw [Mem.setParent_root, setHole_root]
      rfl
  have hcolor : ((setHole t k node).setParent node (top k)).color = t.color := by rw [Mem.setParent_color, setHole_color]
  have haug : ((setHole t k node).setParent node (top k)).aug = t.aug := by rw [Mem.setParent_aug, setHole_aug]
  refine ⟨⟨hfocus, by rw [hcolor, h0], ⟨by rw [hcolor, hred], trivial, trivial⟩, by rw [hcolor]; exact hc, by rw [haug]; exact hb,
    ⟨by rw [haug]; exact hsize, trivial, trivial⟩, by rw [haug]; exact hk⟩, rfl, ⟨⟨rfl, rfl⟩, rfl, rfl⟩, hrb⟩

/-- recompute the augmentation from a node up to the root -/
def recalculateUp (g : Augment A) : ℕ → Mem A → ℕ → Mem A
  | 0, t, _ => t
  | fuel + 1, t, node => if node = 0 then t else recalculateUp g fuel (recalculate g t node) (t.parent node)

/-- recomputing upwards from a position corrects every frame above it -/
theorem recalculateUp_holds (fuel : ℕ) (h : Loose g t k s) (hf : k.length ≤ fuel) :
    Holds g (recalculateUp g fuel t (top k)) k s ∧ (recalculateUp g fuel t (top k)).color = t.color ∧
      (recalculateUp g fuel t (top k)).parent = t.parent := by
  induction k generalizing t s fuel with
  | nil =>
    have : recalculateUp g fuel t (top []) = t := by
      cases fuel <;> simp [recalculateUp, top]
    rw [this]
    exact ⟨⟨h.focus, h.nil, h.painted, h.cpainted, h.base, h.sized, trivial⟩, rfl, rfl⟩
  | cons f k ih =>
    cases fuel with
    | zero => simp at hf
    | succ fuel =>
      obtain ⟨h, h0, hp, hc, hb, hs, hk⟩ := h
      have hf0 : f.node ≠ 0 := h.ctx.2.1
      have hup : t.parent f.node = top k := h.ctx.2.2.2.1
      have hfocus := (focus_cons t f k s).1 h
      obtain ⟨_, _, nsib, nak, _⟩ := nodup_addrs_cons h.nodup_ctx
      have ns : ∀ a ∈ s.inorder, a ≠ f.node := fun a ha hc => h.disjoint ha (by simp [addrs, hc])
      have nw : ∀ a ∈ f.sib.inorder, a ≠ f.node := fun a ha hc => nsib (hc ▸ ha)
      set t1 := recalculate g t f.node with ht1
      have haug : t1.aug = g.touch t.child f.node t.aug := by simp [ht1, recalculate, hf0]
      have keep : ∀ a n, a ≠ f.node → g.holds t.aug a n → g.holds t1.aug a n := fun a n ha hh => by
        rw [haug]; exact (g.touch_other _ _ _ _ _ ha).2 hh
      have hfoc1 : Focus t1 k (.branch f.side s f.node f.color f.sib) :=
        hfocus.of_links (by simp [ht1]) (by simp [ht1]) (by simp [ht1])
      have hsib := hk f mem_cons_self
      have hsized : Sized g t1.aug (.branch f.side s f.node f.color f.sib) := by
        rw [sized_branch]
        refine ⟨?_, hs.congr fun a ha n => keep a n (ns a ha), hsib.congr fun a ha n => keep a n (nw a ha)⟩
        rw [haug]
        refine g.touch_side f.side ?_ ?_
        · rw [h.ctx.1]; exact hs.root hb
        · rw [h.ctx.2.2.1.1]; exact hsib.root hb
      have hsibs : ∀ f' ∈ k, Sized g t1.aug f'.sib := by
        intro f' hf'
        exact (hk f' (mem_cons_of_mem f hf')).congr fun a ha n => keep a n fun hc => nak (hc ▸ mem_addrs_sib hf' ha)
      obtain ⟨⟨hcf, hcs⟩, hck⟩ := forall_mem_cons.1 hc
      have hcol : t1.color = t.color := by simp [ht1]
      obtain ⟨i1, i2, i3⟩ := ih fuel ⟨hfoc1, hcol ▸ h0, hcol ▸ (painted_branch _ _ _ _ _ _).2 ⟨hcf, hp, hcs⟩, hcol ▸ hck,
        keep 0 0 (Ne.symm hf0) hb, hsized, hsibs⟩
        (by simp only [length_cons] at hf; omega)
      have heq : recalculateUp g (fuel + 1) t (top (f :: k)) = recalculateUp g fuel t1 (top k) := by
        rw [recalculateUp, top, if_neg hf0, hup]
      rw [heq]
      exact ⟨(holds_cons g _ f k s).2 i1, by rw [i2, ht1, recalculate_color], by rw [i3, ht1, recalculate_parent]⟩

/-! ## The order of the nodes -/

/-- the leftmost node below `node` -/
def minimum (t : Mem A) : ℕ → ℕ → ℕ
  | 0, node => node
  | fuel + 1, node => if t.child .left node ≠ 0 then minimum t fuel (t.child .left node) else node

/-- the leftmost path of a tree: the frames down to its first node -/
theorem minimum_spec (fuel : ℕ) (hs : IsTree t s) (h0 : s.root ≠ 0) (hf : s.size ≤ fuel) :
    ∃ k y c r, s = plug k (.node .leaf y c r) ∧ (∀ f ∈ k, f.side = .left) ∧ minimum t fuel s.root = y := by
  induction fuel generalizing s with
  | zero =>
    cases s with
    | leaf => simp [Shape.root] at h0
    | node l a c r => simp [Shape.size] at hf
  | succ fuel ih =>
    cases s with
    | leaf => simp [Shape.root] at h0
    | node l a c r =>
      obtain ⟨_, ⟨cl, _, tl⟩, _⟩ := hs
      rw [Shape.root, minimum]
      by_cases hl : l.root = 0
      · rw [if_neg (by rw [cl]; simp [hl])]
        obtain rfl := tl.eq_leaf hl
        exact ⟨[], a, c, r, rfl, by simp, rfl⟩
      · rw [if_pos (by rw [cl]; exact hl), cl]
        obtain ⟨k, y, c', r', hl', hk, hm⟩ := ih tl hl (by simp only [Shape.size] at hf; omega)
        refine ⟨k ++ [⟨.left, a, c, r⟩], y, c', r', ?_, ?_, hm⟩
        · rw [plug_append, ← hl']
          rfl
        · intro f hf'
          rcases mem_append.1 hf' with hf' | hf'
          · exact hk f hf'
          · rw [mem_singleton.1 hf']

theorem before_left (h : ∀ f ∈ k, f.side = .left) : before k = [] := by
  induction k with
  | nil => rfl
  | cons f k ih =>
    rw [before, h f mem_cons_self]
    exact ih fun f' hf' => h f' (mem_cons_of_mem f hf')

theorem minimum_head (fuel : ℕ) (hs : IsTree t s) (h0 : s.root ≠ 0) (hf : s.size ≤ fuel) :
    s.inorder.head? = some (minimum t fuel s.root) := by
  obtain ⟨k, y, c, r, heq, hk, hm⟩ := minimum_spec fuel hs h0 hf
  rw [hm, heq, inorder_plug, before_left hk]
  rfl

/-- climb while the node is a right child -/
def climb (t : Mem A) : ℕ → ℕ → ℕ → ℕ
  | 0, _, parent => parent
  | fuel + 1, node, parent =>
    if parent ≠ 0 ∧ node = t.child .right parent then climb t fuel parent (t.parent parent) else parent

def successor (t : Mem A) (fuel node : ℕ) : ℕ :=
  if t.child .right node ≠ 0 then minimum t fuel (t.child .right node) else climb t fuel node (t.parent node)

theorem climb_spec (fuel : ℕ) (h : Focus t k s) (h0 : s.root ≠ 0)
    (hf : k.length ≤ fuel) : climb t fuel s.root (top k) = (after k).head?.getD 0 := by
  induction k generalizing s fuel with
  | nil => cases fuel <;> simp [climb, top, after]
  | cons f k ih =>
    cases fuel with
    | zero => simp at hf
    | succ fuel =>
      have hf0 : f.node ≠ 0 := h.ctx.2.1
      rw [climb, top]
      cases hside : f.side with
      | left =>
        have hne : s.root ≠ t.child .right f.node := by
          have := IsCtx.sib_ne h h0
          rw [hside] at this
          exact Ne.symm this
        rw [if_neg (by tauto)]
        simp [after, hside]
      | right =>
        have heq : t.child .right f.node = s.root := by
          have := h.ctx.1
          rwa [hside] at this
        rw [if_pos ⟨hf0, heq.symm⟩, h.ctx.2.2.2.1]
        have := ih fuel ((focus_cons t f k s).1 h) (by simpa using hf0) (by simp only [length_cons] at hf; omega)
        rw [Shape.branch_root] at this
        rw [this]
        simp [after, hside]

/-- the successor is the next node in order, or the sentinel -/
theorem successor_spec (fuel : ℕ) (h : Focus t k (.node l a c r))
    (hf : (plug k (.node l a c r)).size ≤ fuel) : successor t fuel a = (r.inorder ++ after k).head?.getD 0 := by
  obtain ⟨ha, _, cr, _, tr⟩ := h.tree
  have hlen := length_add_size_le k (.node l a c r)
  simp only [Shape.size] at hlen
  unfold successor
  by_cases hr : r.root = 0
  · rw [if_neg (by rw [cr]; simp [hr])]
    have hup : t.parent a = top k := h.up ha
    have hleaf : r.inorder = [] := by
      cases r with
      | leaf => rfl
      | node l' b c' r' => exact absurd hr tr.1
    rw [hup, hleaf, nil_append]
    exact climb_spec fuel h ha (by omega)
  · rw [if_pos (by rw [cr]; exact hr), cr]
    have := minimum_head fuel tr hr (by omega)
    rw [List.head?_append, this]
    rfl

end RedBlack
