/-
A binary min-heap in an array whose elements know where they are.

`slot i` is the element at index `i`, of which the first `count` are in use; `position a` is the back index of `a`, `none`
when it is in no slot. Elements are compared by a key that may change while they are in the heap: `restore` repairs the
order around one index after such a change.

Results: `insert`, `removeAt` and `restore` keep the back indices exact (`Placed`) and the order (`Ordered`), and change the
set of elements as their names say; `root_le`: the first slot holds a least key.
-/
import Mathlib.Data.Nat.Basic
import Mathlib.Logic.Function.Basic
import Mathlib.Order.Basic
import Mathlib.Tactic

namespace IndexedHeap

open Function (update update_apply)

variable {α β : Type} [LinearOrder β]

structure Heap (α : Type) where
  slot : ℕ → α
  count : ℕ
  position : α → Option ℕ

def parent (i : ℕ) : ℕ := (i - 1) / 2

namespace Heap

/-- the index of the least key among `i` and its children -/
def smallest (key : α → β) (h : Heap α) (i : ℕ) : ℕ :=
  let left := if i * 2 + 1 < h.count ∧ key (h.slot (i * 2 + 1)) < key (h.slot i) then i * 2 + 1 else i
  if i * 2 + 2 < h.count ∧ key (h.slot (i * 2 + 2)) < key (h.slot left) then i * 2 + 2 else left

def Mem (h : Heap α) (a : α) : Prop := ∃ i < h.count, h.slot i = a

/-- the back indices are exact -/
def Placed (h : Heap α) : Prop := ∀ a i, h.position a = some i ↔ i < h.count ∧ h.slot i = a

def Ordered (key : α → β) (h : Heap α) : Prop :=
  ∀ i, 0 < i → i < h.count → key (h.slot (parent i)) ≤ key (h.slot i)

variable {h : Heap α} {i : ℕ}

theorem Placed.mem_iff (hp : h.Placed) (a : α) : h.Mem a ↔ h.position a ≠ none := by
  constructor
  · rintro ⟨i, hi, ha⟩ hc
    rw [(hp a i).2 ⟨hi, ha⟩] at hc
    exact Option.some_ne_none i hc
  · intro hn
    obtain ⟨i, hi⟩ := Option.ne_none_iff_exists'.1 hn
    exact ⟨i, (hp a i).1 hi⟩

/-- no element is in two slots -/
theorem Placed.inj (hp : h.Placed) {j : ℕ} (hi : i < h.count) (hj : j < h.count) (he : h.slot i = h.slot j) : i = j := by
  have h1 := (hp (h.slot i) i).2 ⟨hi, rfl⟩
  have h2 := (hp (h.slot i) j).2 ⟨hj, he.symm⟩
  exact Option.some.inj (h1.symm.trans h2)

/-- `h'` holds the elements of `h` with exact back indices -/
structure Permuted (h h' : Heap α) : Prop where
  count : h'.count = h.count
  placed : h'.Placed
  mem : ∀ a, h'.Mem a ↔ h.Mem a

theorem Permuted.refl (hp : h.Placed) : Permuted h h := ⟨rfl, hp, fun _ => Iff.rfl⟩

theorem Permuted.trans {h' h'' : Heap α} (h1 : Permuted h h') (h2 : Permuted h' h'') : Permuted h h'' :=
  ⟨h2.count.trans h1.count, h2.placed, fun a => (h2.mem a).trans (h1.mem a)⟩

variable {key : α → β}

/-- the order holds between pairs that do not touch `i`, and the children of `i` are not below its parent -/
structure Except (key : α → β) (h : Heap α) (i : ℕ) : Prop where
  others : ∀ j, 0 < j → j < h.count → j ≠ i → parent j ≠ i → key (h.slot (parent j)) ≤ key (h.slot j)
  across : ∀ j, 0 < j → j < h.count → parent j = i → 0 < i → key (h.slot (parent i)) ≤ key (h.slot j)

theorem Ordered.except (ho : h.Ordered key) (i : ℕ) : Except key h i := by
  refine ⟨fun j h1 h2 _ _ => ho j h1 h2, fun j h1 h2 h3 h4 => ?_⟩
  have hi : i < h.count := by unfold parent at h3; omega
  have hle := ho j h1 h2
  rw [h3] at hle
  exact (ho i h4 hi).trans hle

/-- nothing is left to repair at `i` -/
theorem Except.ordered (he : Except key h i) (hup : 0 < i → i < h.count → key (h.slot (parent i)) ≤ key (h.slot i))
    (hdown : ∀ j, 0 < j → j < h.count → parent j = i → key (h.slot i) ≤ key (h.slot j)) : h.Ordered key := by
  intro j h1 h2
  by_cases hj : j = i
  · exact hj ▸ hup (hj ▸ h1) (hj ▸ h2)
  · by_cases hp : parent j = i
    · rw [hp]
      exact hdown j h1 h2 hp
    · exact he.others j h1 h2 hj hp

/-- a change of keys that leaves the order alone outside one index -/
theorem Ordered.rekey (ho : h.Ordered key) (key' : α → β) (hp : h.Placed) (hi : i < h.count)
    (hk : ∀ a, a ≠ h.slot i → key' a = key a) : Except key' h i := by
  have hne : ∀ j, j < h.count → j ≠ i → key' (h.slot j) = key (h.slot j) :=
    fun j hj hji => hk _ fun hc => hji (hp.inj hj hi hc)
  have hlt : ∀ j, 0 < j → parent j < j := by intro j hj; unfold parent; omega
  refine ⟨fun j h1 h2 h3 h4 => ?_, fun j h1 h2 h3 h4 => ?_⟩
  · rw [hne j h2 h3, hne (parent j) ((hlt j h1).trans h2) h4]
    exact ho j h1 h2
  · have hji : j ≠ i := by have := hlt j h1; omega
    rw [hne j h2 hji, hne (parent i) ((hlt i h4).trans hi) (hlt i h4).ne]
    exact (ho.except i).across j h1 h2 h3 h4

/-- the keys of the elements decide the order -/
theorem Ordered.congr {key' : α → β} (ho : h.Ordered key) (hk : ∀ a, h.Mem a → key' a = key a) :
    h.Ordered key' := by
  intro i h1 h2
  have hlt : parent i < i := by unfold parent; omega
  rw [hk _ ⟨i, h2, rfl⟩, hk _ ⟨parent i, hlt.trans h2, rfl⟩]
  exact ho i h1 h2

/-- the root has a least key -/
theorem root_le (ho : h.Ordered key) {a : α} (ha : h.Mem a) : key (h.slot 0) ≤ key a := by
  obtain ⟨i, hi, rfl⟩ := ha
  induction i using Nat.strong_induction_on with
  | _ i ih =>
    rcases Nat.eq_zero_or_pos i with rfl | h0
    · exact le_rfl
    · have hlt : parent i < i := by unfold parent; omega
      exact (ih (parent i) hlt (hlt.trans hi)).trans (ho i h0 hi)

/-- a heap of no elements -/
theorem placed_empty (slot : ℕ → α) : (⟨slot, 0, fun _ => none⟩ : Heap α).Placed := by
  intro a i
  simp

/-- the choice of `smallest` -/
theorem smallest_spec (key : α → β) (h : Heap α) (i : ℕ) : (smallest key h i = i ∨
        0 < smallest key h i ∧ smallest key h i < h.count ∧ parent (smallest key h i) = i ∧
          key (h.slot (smallest key h i)) < key (h.slot i)) ∧
      ∀ j, 0 < j → j < h.count → parent j = i → key (h.slot (smallest key h i)) ≤ key (h.slot j) := by
  have hchild : ∀ j, 0 < j → parent j = i → j = i * 2 + 1 ∨ j = i * 2 + 2 := by
    intro j h1 h2
    unfold parent at h2
    omega
  have hl : parent (i * 2 + 1) = i := by unfold parent; omega
  have hr : parent (i * 2 + 2) = i := by unfold parent; omega
  unfold smallest
  simp only
  by_cases h1 : i * 2 + 1 < h.count ∧ key (h.slot (i * 2 + 1)) < key (h.slot i)
  · rw [if_pos h1]
    by_cases h2 : i * 2 + 2 < h.count ∧ key (h.slot (i * 2 + 2)) < key (h.slot (i * 2 + 1))
    · rw [if_pos h2]
      refine ⟨Or.inr ⟨by omega, h2.1, hr, h2.2.trans h1.2⟩, fun j j0 jc jp => ?_⟩
      rcases hchild j j0 jp with rfl | rfl
      · exact h2.2.le
      · exact le_rfl
    · rw [if_neg h2]
      refine ⟨Or.inr ⟨by omega, h1.1, hl, h1.2⟩, fun j j0 jc jp => ?_⟩
      rcases hchild j j0 jp with rfl | rfl
      · exact le_rfl
      · exact not_lt.1 fun hlt => h2 ⟨jc, hlt⟩
  · rw [if_neg h1]
    by_cases h2 : i * 2 + 2 < h.count ∧ key (h.slot (i * 2 + 2)) < key (h.slot i)
    · rw [if_pos h2]
      refine ⟨Or.inr ⟨by omega, h2.1, hr, h2.2⟩, fun j j0 jc jp => ?_⟩
      rcases hchild j j0 jp with rfl | rfl
      · exact h2.2.le.trans (not_lt.1 fun hlt => h1 ⟨jc, hlt⟩)
      · exact le_rfl
    · rw [if_neg h2]
      refine ⟨Or.inl rfl, fun j j0 jc jp => ?_⟩
      rcases hchild j j0 jp with rfl | rfl
      · exact not_lt.1 fun hlt => h1 ⟨jc, hlt⟩
      · exact not_lt.1 fun hlt => h2 ⟨jc, hlt⟩

/-! ## Operations -/

variable [DecidableEq α]

/-- write a slot and the back index of what is written -/
def place (h : Heap α) (i : ℕ) (a : α) : Heap α :=
  { h with slot := update h.slot i a, position := update h.position a (some i) }

def swap (h : Heap α) (i j : ℕ) : Heap α := (h.place i (h.slot j)).place j (h.slot i)

/-- move the element at `i` up while it is below its parent; `fuel` counts the levels -/
def siftUp (key : α → β) : ℕ → Heap α → ℕ → Heap α
  | 0, h, _ => h
  | fuel + 1, h, i =>
    if 0 < i ∧ key (h.slot i) < key (h.slot (parent i)) then siftUp key fuel (h.swap i (parent i)) (parent i) else h

/-- move the element at `i` down while a child is below it -/
def siftDown (key : α → β) : ℕ → Heap α → ℕ → Heap α
  | 0, h, _ => h
  | fuel + 1, h, i =>
    if smallest key h i = i then h else siftDown key fuel (h.swap i (smallest key h i)) (smallest key h i)

/-- repair the order around one index -/
def restore (key : α → β) (h : Heap α) (i : ℕ) : Heap α :=
  if 0 < i ∧ key (h.slot i) < key (h.slot (parent i)) then siftUp key i h i else siftDown key h.count h i

def insert (key : α → β) (h : Heap α) (a : α) : Heap α :=
  siftUp key h.count { h.place h.count a with count := h.count + 1 } h.count

def removeAt (key : α → β) (h : Heap α) (i : ℕ) : Heap α :=
  if i < h.count then
    let shrunk := { h with count := h.count - 1, position := update h.position (h.slot i) none }
    if i = h.count - 1 then shrunk else restore key (shrunk.place i (h.slot (h.count - 1))) i
  else h

/-! ## Swap -/

@[simp] theorem swap_count (h : Heap α) (i j : ℕ) : (h.swap i j).count = h.count := rfl

theorem swap_slot (h : Heap α) (i j k : ℕ) :
    (h.swap i j).slot k = if k = j then h.slot i else if k = i then h.slot j else h.slot k := by
  simp only [swap, place, update_apply]

theorem swap_position (h : Heap α) (i j : ℕ) (a : α) : (h.swap i j).position a =
      if a = h.slot i then some j else if a = h.slot j then some i else h.position a := by
  simp only [swap, place, update_apply]

theorem swap_permuted (hp : h.Placed) {j : ℕ} (hi : i < h.count) (hj : j < h.count) (hij : i ≠ j) :
    Permuted h (h.swap i j) := by
  have hne : h.slot i ≠ h.slot j := fun he => hij (hp.inj hi hj he)
  refine ⟨rfl, fun a k => ?_, fun a => ?_⟩
  · rw [swap_position, swap_slot, swap_count]
    by_cases hai : a = h.slot i
    · rw [if_pos hai, Option.some.injEq]
      constructor
      · rintro rfl
        exact ⟨hj, by rw [if_pos rfl, hai]⟩
      · rintro ⟨hk, he⟩
        split_ifs at he with h1 h2
        · exact h1.symm
        · exact absurd (he.trans hai) hne.symm
        · exact absurd (hp.inj hk hi (he.trans hai)) h2
    · rw [if_neg hai]
      by_cases haj : a = h.slot j
      · rw [if_pos haj, Option.some.injEq]
        constructor
        · rintro rfl
          exact ⟨hi, by rw [if_neg hij, if_pos rfl, haj]⟩
        · rintro ⟨hk, he⟩
          split_ifs at he with h1 h2
          · exact absurd he.symm hai
          · exact h2.symm
          · exact absurd (hp.inj hk hj (he.trans haj)) h1
      · rw [if_neg haj, hp a k]
        constructor
        · rintro ⟨hk, rfl⟩
          exact ⟨hk, by rw [if_neg fun hc => haj (congrArg h.slot hc), if_neg fun hc => hai (congrArg h.slot hc)]⟩
        · rintro ⟨hk, he⟩
          split_ifs at he with h1 h2
          · exact absurd he.symm hai
          · exact absurd he.symm haj
          · exact ⟨hk, he⟩
  · constructor
    · rintro ⟨k, hk, rfl⟩
      rw [swap_slot]
      split_ifs
      · exact ⟨i, hi, rfl⟩
      · exact ⟨j, hj, rfl⟩
      · exact ⟨k, hk, rfl⟩
    · rintro ⟨k, hk, rfl⟩
      by_cases h1 : k = i
      · exact ⟨j, hj, by rw [swap_slot, if_pos rfl, h1]⟩
      · by_cases h2 : k = j
        · exact ⟨i, hi, by rw [swap_slot, if_neg hij, if_pos rfl, h2]⟩
        · exact ⟨k, hk, by rw [swap_slot, if_neg h2, if_neg h1]⟩

/-! ## Sifting -/

/-- a swap of `i` with its parent, whose key is greater, moves the repair to the parent -/
theorem Except.swap_up (he : Except key h i) (hi : 0 < i) (hlt : key (h.slot i) < key (h.slot (parent i)))
    (hdown : ∀ j, 0 < j → j < h.count → parent j = i → key (h.slot i) ≤ key (h.slot j)) (hic : i < h.count) :
    Except key (h.swap i (parent i)) (parent i) ∧
      ∀ j, 0 < j → j < h.count → parent j = parent i →
        key ((h.swap i (parent i)).slot (parent i)) ≤ key ((h.swap i (parent i)).slot j) := by
  have hpi : parent i < i := by unfold parent; omega
  -- what stands at the parent's siblings is not below the parent
  have hsib : ∀ j, 0 < j → j < h.count → parent j = parent i → j ≠ i → key (h.slot (parent i)) ≤ key (h.slot j) := by
    intro j h1 h2 h3 h4
    have := he.others j h1 h2 h4 (h3 ▸ hpi.ne)
    rwa [h3] at this
  have hpos : ∀ j, 0 < j → parent j = parent i → j ≠ parent i := by
    intro j h1 h2 h3
    unfold parent at h2 h3
    omega
  refine ⟨⟨fun j h1 h2 h3 h4 => ?_, fun j h1 h2 h3 h4 => ?_⟩, fun j h1 h2 h3 => ?_⟩
  · rw [swap_count] at h2
    rw [swap_slot, swap_slot, if_neg h3, if_neg h4]
    have hji : j ≠ i := by rintro rfl; exact h4 rfl
    rw [if_neg hji]
    by_cases hp : parent j = i
    · rw [if_pos hp]
      exact he.across j h1 h2 hp hi
    · rw [if_neg hp]
      exact he.others j h1 h2 hji hp
  · rw [swap_count] at h2
    have hpp : parent (parent i) ≠ parent i := by unfold parent at h4 ⊢; omega
    have hpi' : parent (parent i) ≠ i := by unfold parent; omega
    have hup := he.others (parent i) h4 (hpi.trans hic) hpi.ne hpi'
    rw [swap_slot, swap_slot, if_neg hpp, if_neg hpi', if_neg (hpos j h1 h3)]
    by_cases hji : j = i
    · rw [if_pos hji]
      exact hup
    · rw [if_neg hji]
      exact hup.trans (hsib j h1 h2 h3 hji)
  · rw [swap_slot, swap_slot, if_pos rfl, if_neg (hpos j h1 h3)]
    by_cases hji : j = i
    · rw [if_pos hji]
      exact hlt.le
    · rw [if_neg hji]
      exact hlt.le.trans (hsib j h1 h2 h3 hji)

theorem siftUp_spec (fuel : ℕ) (hp : h.Placed) (hf : i ≤ fuel) (hi : i < h.count)
    (he : Except key h i) (hdown : ∀ j, 0 < j → j < h.count → parent j = i → key (h.slot i) ≤ key (h.slot j)) :
    Permuted h (siftUp key fuel h i) ∧ (siftUp key fuel h i).Ordered key := by
  induction fuel generalizing h i with
  | zero =>
    refine ⟨.refl hp, he.ordered (fun h0 => ?_) hdown⟩
    omega
  | succ fuel ih =>
    rw [siftUp]
    split_ifs with hc
    · have hpi : parent i < i := by unfold parent; omega
      obtain ⟨s1, s2⟩ := he.swap_up hc.1 hc.2 hdown hi
      have hperm := swap_permuted hp hi (hpi.trans hi) hpi.ne'
      obtain ⟨r1, r2⟩ := ih hperm.placed (by omega) (hpi.trans hi) s1 s2
      exact ⟨hperm.trans r1, r2⟩
    · refine ⟨.refl hp, he.ordered (fun h0 _ => ?_) hdown⟩
      exact not_lt.1 fun hlt => hc ⟨h0, hlt⟩

/-- a swap of `i` with its least child moves the repair to the child -/
theorem Except.swap_down {c : ℕ} (he : Except key h i) (hc0 : 0 < c) (hc : c < h.count)
    (hpc : parent c = i) (hlt : key (h.slot c) < key (h.slot i))
    (hmin : ∀ j, 0 < j → j < h.count → parent j = i → key (h.slot c) ≤ key (h.slot j)) :
    Except key (h.swap i c) c ∧ key ((h.swap i c).slot i) ≤ key ((h.swap i c).slot c) := by
  have hic : i < c := by unfold parent at hpc; omega
  refine ⟨⟨fun j h1 h2 h3 h4 => ?_, fun j h1 h2 h3 h4 => ?_⟩, ?_⟩
  · rw [swap_count] at h2
    rw [swap_slot, swap_slot, if_neg h3, if_neg h4]
    by_cases hji : j = i
    · have hpj : parent i ≠ i := by unfold parent; omega
      subst hji
      rw [if_neg hpj, if_pos rfl]
      exact he.across c hc0 hc hpc h1
    · rw [if_neg hji]
      by_cases hp : parent j = i
      · rw [if_pos hp]
        exact hmin j h1 h2 hp
      · rw [if_neg hp]
        exact he.others j h1 h2 hji hp
  · rw [swap_count] at h2
    have hjc : j ≠ c := by unfold parent at h3; omega
    have hji : j ≠ i := by unfold parent at h3; omega
    rw [swap_slot, swap_slot, if_neg hjc, if_neg hji, hpc, if_neg hic.ne, if_pos rfl]
    have := he.others j h1 h2 hji (by rw [h3]; exact hic.ne')
    rwa [h3] at this
  · rw [swap_slot, swap_slot, if_pos rfl, if_neg hic.ne, if_pos rfl]
    exact hlt.le

theorem siftDown_spec (fuel : ℕ) (hp : h.Placed) (hf : h.count ≤ fuel + i) (hi : i < h.count)
    (he : Except key h i) (hup : 0 < i → key (h.slot (parent i)) ≤ key (h.slot i)) :
    Permuted h (siftDown key fuel h i) ∧ (siftDown key fuel h i).Ordered key := by
  induction fuel generalizing h i with
  | zero => omega
  | succ fuel ih =>
    rw [siftDown]
    obtain ⟨h1, hmin⟩ := smallest_spec key h i
    split_ifs with hs
    · rw [hs] at hmin
      exact ⟨.refl hp, he.ordered (fun h0 _ => hup h0) hmin⟩
    · obtain ⟨c0, cc, cp, clt⟩ := h1.resolve_left hs
      have hic : i < smallest key h i := by
        generalize smallest key h i = c at c0 cp
        unfold parent at cp
        omega
      obtain ⟨s1, s2⟩ := he.swap_down c0 cc cp clt hmin
      have hperm := swap_permuted hp hi cc hic.ne
      obtain ⟨r1, r2⟩ := ih hperm.placed (by rw [swap_count]; omega) cc s1 (fun _ => cp.symm ▸ s2)
      exact ⟨hperm.trans r1, r2⟩

/-- **Repair.** When only the key at one index is out of order, `restore` puts the heap in order. -/
theorem restore_spec (hp : h.Placed) (hi : i < h.count) (he : Except key h i) :
    Permuted h (restore key h i) ∧ (restore key h i).Ordered key := by
  unfold restore
  split_ifs with hc
  · refine siftUp_spec i hp le_rfl hi he fun j j0 jc jp => ?_
    exact hc.2.le.trans (he.across j j0 jc jp hc.1)
  · exact siftDown_spec h.count hp (by omega) hi he fun h0 => not_lt.1 fun hlt => hc ⟨h0, hlt⟩

/-! ## Changes of the contents -/

theorem insert_spec (hp : h.Placed) (ho : h.Ordered key) {a : α} (ha : ¬ h.Mem a) :
    (h.insert key a).count = h.count + 1 ∧ (h.insert key a).Placed ∧ (h.insert key a).Ordered key ∧
      ∀ b, (h.insert key a).Mem b ↔ b = a ∨ h.Mem b := by
  have hslot : ∀ j, (update h.slot h.count a) j = if j = h.count then a else h.slot j := fun j => update_apply ..
  have hplaced : ({ h.place h.count a with count := h.count + 1 } : Heap α).Placed := by
    intro b j
    simp only [place, update_apply]
    by_cases hb : b = a
    · rw [if_pos hb, Option.some.injEq]
      constructor
      · rintro rfl
        exact ⟨Nat.lt_succ_self _, by rw [if_pos rfl, hb]⟩
      · rintro ⟨hj, he⟩
        split_ifs at he with hjc
        · exact hjc.symm
        · exact absurd ⟨j, by omega, he.trans hb⟩ ha
    · rw [if_neg hb, hp b j]
      constructor
      · rintro ⟨hj, rfl⟩
        exact ⟨by omega, by rw [if_neg (by omega)]⟩
      · rintro ⟨hj, he⟩
        split_ifs at he with hjc
        · exact absurd he.symm hb
        · exact ⟨by omega, he⟩
  have hnochild : ∀ j, 0 < j → j < h.count + 1 → parent j ≠ h.count := by
    intro j h1 h2
    unfold parent
    omega
  have hexc : Except key ({ h.place h.count a with count := h.count + 1 } : Heap α) h.count := by
    refine ⟨fun j h1 h2 h3 _ => ?_, fun j h1 h2 h3 _ => absurd h3 (hnochild j h1 h2)⟩
    simp only at h2
    have hlt : parent j < j := by unfold parent; omega
    simp only [place, hslot, if_neg h3]
    rw [if_neg (by omega)]
    exact ho j h1 (by omega)
  obtain ⟨r1, r2⟩ := siftUp_spec h.count hplaced le_rfl (Nat.lt_succ_self h.count) hexc
    fun j h1 h2 h3 => absurd h3 (hnochild j h1 h2)
  refine ⟨r1.count, r1.placed, r2, fun b => (r1.mem b).trans ?_⟩
  constructor
  · rintro ⟨j, hj, rfl⟩
    simp only [place, hslot]
    split_ifs with hjc
    · exact Or.inl rfl
    · exact Or.inr ⟨j, by simp only at hj; omega, rfl⟩
  · rintro (rfl | ⟨j, hj, rfl⟩)
    · exact ⟨h.count, Nat.lt_succ_self _, by simp only [place, hslot, if_true]⟩
    · exact ⟨j, Nat.lt_succ_of_lt hj, by simp only [place, hslot]; rw [if_neg hj.ne]⟩

/-- one element leaves; the order of the others need not involve its key, which may have changed already -/
theorem removeAt_spec (hp : h.Placed) (ho : h.Ordered key) (hi : i < h.count) :
    (h.removeAt key i).count = h.count - 1 ∧ (h.removeAt key i).Placed ∧ (h.removeAt key i).Ordered key ∧
      ∀ b, (h.removeAt key i).Mem b ↔ b ≠ h.slot i ∧ h.Mem b := by
  unfold removeAt
  rw [if_pos hi]
  simp only
  by_cases hlast : i = h.count - 1
  · rw [if_pos hlast]
    refine ⟨rfl, fun b j => ?_, fun j h1 h2 => ho j h1 (by simp only at h2; omega), fun b => ?_⟩
    · simp only [update_apply]
      by_cases hb : b = h.slot i
      · rw [if_pos hb]
        refine iff_of_false (by simp) fun hc => ?_
        exact absurd (hp.inj (by omega) hi (hc.2.trans hb)) (by omega)
      · rw [if_neg hb, hp b j]
        refine and_congr_left fun hs => ?_
        have : j ≠ i := fun hc => hb (hs.symm.trans (congrArg h.slot hc))
        omega
    · constructor
      · rintro ⟨j, hj, rfl⟩
        simp only at hj
        exact ⟨fun hc => absurd (hp.inj (by omega) hi hc) (by omega), j, by omega, rfl⟩
      · rintro ⟨hb, j, hj, rfl⟩
        have : j ≠ i := fun hc => hb (congrArg h.slot hc)
        exact ⟨j, by simp only; omega, rfl⟩
  · rw [if_neg hlast]
    set n := h.count - 1 with hn
    have hslot : ∀ j, (update h.slot i (h.slot n)) j = if j = i then h.slot n else h.slot j := fun j => update_apply ..
    have hne : h.slot n ≠ h.slot i := fun hc => hlast (hp.inj (by omega) hi hc).symm
    set g : Heap α := Heap.place { h with count := n, position := update h.position (h.slot i) none } i (h.slot n) with hg
    have hmem : ∀ b, g.Mem b ↔ b ≠ h.slot i ∧ h.Mem b := by
      intro b
      constructor
      · rintro ⟨j, hj, rfl⟩
        simp only [hg, place, hslot] at hj ⊢
        split_ifs with hji
        · exact ⟨hne, n, by omega, rfl⟩
        · exact ⟨fun hc => hji (hp.inj (by omega) hi hc), j, by omega, rfl⟩
      · rintro ⟨hb, j, hj, rfl⟩
        have hji : j ≠ i := fun hc => hb (congrArg h.slot hc)
        by_cases hjn : j = n
        · exact ⟨i, by simp only [hg, place]; omega, by simp only [hg, place, hslot, if_true, hjn]⟩
        · exact ⟨j, by simp only [hg, place]; omega, by simp only [hg, place, hslot]; rw [if_neg hji]⟩
    have hplaced : g.Placed := by
      intro b j
      simp only [hg, place, update_apply]
      by_cases hb : b = h.slot n
      · rw [if_pos hb, Option.some.injEq]
        constructor
        · rintro rfl
          exact ⟨by omega, by rw [if_pos rfl, hb]⟩
        · rintro ⟨hj, he⟩
          split_ifs at he with hji
          · exact hji.symm
          · exact absurd (hp.inj (by omega) (by omega) (he.trans hb)) (by omega)
      · rw [if_neg hb]
        by_cases hbi : b = h.slot i
        · rw [if_pos hbi]
          refine iff_of_false (by simp) ?_
          rintro ⟨hj, he⟩
          split_ifs at he with hji
          · exact hb he.symm
          · exact hji (hp.inj (by omega) hi (he.trans hbi))
        · rw [if_neg hbi, hp b j]
          constructor
          · rintro ⟨hj, rfl⟩
            have hji : j ≠ i := fun hc => hbi (congrArg h.slot hc)
            have hjn : j ≠ n := fun hc => hb (congrArg h.slot hc)
            exact ⟨by omega, by rw [if_neg hji]⟩
          · rintro ⟨hj, he⟩
            split_ifs at he with hji
            · exact absurd he.symm hb
            · exact ⟨by omega, he⟩
    have hexc : Except key g i := by
      have hlt : ∀ j, 0 < j → parent j < j := by intro j hj; unfold parent; omega
      refine ⟨fun j h1 h2 h3 h4 => ?_, fun j h1 h2 h3 h4 => ?_⟩
      · simp only [hg, place] at h2
        simp only [hg, place, hslot, if_neg h3, if_neg h4]
        exact ho j h1 (by omega)
      · simp only [hg, place] at h2
        have hji : j ≠ i := by have := hlt j h1; omega
        have hpi : parent i ≠ i := (hlt i h4).ne
        simp only [hg, place, hslot, if_neg hji, if_neg hpi]
        exact (ho.except i).across j h1 (by omega) h3 h4
    obtain ⟨r1, r2⟩ := restore_spec hplaced (by simp only [hg, place]; omega : i < g.count) hexc
    exact ⟨r1.count, r1.placed, r2, fun b => (r1.mem b).trans (hmem b)⟩

end Heap

end IndexedHeap
