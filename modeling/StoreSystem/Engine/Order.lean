/-
The order of the members of a sorted set (`src/engine/object.c`, `compare_bytes` and `compare_order`).

A score is a binary64 that is not a NaN (`kv_object_zset_add` refuses NaN). It is kept as its sign and the number its
exponent and fraction fields spell; on those the comparison of doubles is the comparison of signed magnitudes, with the
two zeros equal. Members with equal scores are compared as byte strings, a shorter prefix first.

Result: `compareOrder_lt_iff`. `compare_order` is negative exactly when the key of the left item precedes that of the right
one in the linear order `ℤ ×ₗ List ℕ`.
-/
import Mathlib.Tactic
import Mathlib.Data.Prod.Lex
import Mathlib.Data.List.Lex
import StoreSystem.Engine.Hash

namespace StoreSystem

open List

/-! ## Scores -/

/-- a `double` other than NaN: its sign bit, and its exponent and fraction fields read as one number -/
structure Score where
  neg : Bool
  mag : ℕ
  notNan : mag ≤ 0x7FF0000000000000
deriving DecidableEq, Repr

namespace Score

theorem zero_notNan : 0 ≤ 0x7FF0000000000000 := Nat.zero_le _

/-- the position of the score among the doubles; zeros of either sign share it -/
def num (s : Score) : ℤ := if s.neg then -(s.mag : ℤ) else s.mag

/-- `isfinite` -/
def finite (s : Score) : Bool := s.mag < 0x7FF0000000000000

end Score

/-! ## Comparisons -/

/-- the sign of `memcmp` on two ranges of one length -/
def memcmp : Bytes → Bytes → Ordering
  | x :: xs, y :: ys => if x < y then .lt else if y < x then .gt else memcmp xs ys
  | _, _ => .eq

variable (left right : Bytes)

def compareBytes : Ordering :=
  let common := if left.length < right.length then left.length else right.length
  let comparison := memcmp (left.take common) (right.take common)
  if comparison ≠ .eq then comparison
  else if left.length < right.length then .lt
  else if left.length > right.length then .gt
  else .eq

/-- score and member of a node of either ordered engine -/
structure Item where
  score : Score
  member : Bytes
deriving DecidableEq, Repr

def compareOrder (left right : Item) : Ordering :=
  if left.score.num < right.score.num then .lt
  else if left.score.num > right.score.num then .gt
  else compareBytes left.member right.member

/-- the place of an item in the order of the set: by score, then by the bytes of the member -/
def Item.key (i : Item) : ℤ ×ₗ List ℕ := toLex (i.score.num, i.member.map UInt8.toNat)

theorem compareBytes_cons (x y : UInt8) (xs ys : Bytes) :
    compareBytes (x :: xs) (y :: ys) = if x < y then .lt else if y < x then .gt else compareBytes xs ys := by
  have hmin : (if (x :: xs).length < (y :: ys).length then (x :: xs).length else (y :: ys).length)
      = (if xs.length < ys.length then xs.length else ys.length) + 1 := by
    simp only [length_cons]
    split_ifs <;> omega
  unfold compareBytes
  simp only [hmin]
  simp only [take_succ_cons, memcmp, length_cons, Nat.add_lt_add_iff_right, gt_iff_lt]
  by_cases hxy : x < y
  · simp [hxy]
  · by_cases hyx : y < x
    · simp [hxy, hyx]
    · simp only [if_neg hxy, if_neg hyx]

theorem compareBytes_lt_iff :
    compareBytes left right = .lt ↔ left.map UInt8.toNat < right.map UInt8.toNat := by
  induction left generalizing right with
  | nil =>
    cases right with
    | nil | cons y ys => simp [compareBytes, memcmp]
  | cons x xs ih =>
    cases right with
    | nil => simp [compareBytes, memcmp]
    | cons y ys =>
      rw [compareBytes_cons, map_cons, map_cons, cons_lt_cons_iff, ← UInt8.lt_iff_toNat_lt, UInt8.toNat_inj]
      by_cases hxy : x < y
      · simp [hxy]
      · by_cases hyx : y < x
        · have hne : x ≠ y := fun h => hxy (h ▸ hyx)
          simp [hxy, hyx, hne]
        · have heq : x = y := UInt8.le_antisymm (UInt8.not_lt.1 hyx) (UInt8.not_lt.1 hxy)
          simp [heq, ih]

theorem compareBytes_swap : (compareBytes left right).swap = compareBytes right left := by
  induction left generalizing right with
  | nil => cases right <;> simp [compareBytes, memcmp]
  | cons x xs ih =>
    cases right with
    | nil => simp [compareBytes, memcmp]
    | cons y ys =>
      rw [compareBytes_cons, compareBytes_cons]
      by_cases hxy : x < y
      · simp [hxy, UInt8.lt_asymm hxy]
      · by_cases hyx : y < x <;> simp [hxy, hyx, ih]

theorem compareBytes_gt_iff :
    compareBytes left right = .gt ↔ right.map UInt8.toNat < left.map UInt8.toNat := by
  rw [← compareBytes_lt_iff, ← compareBytes_swap left right]
  cases compareBytes left right <;> simp

theorem toNat_injective : Function.Injective (List.map UInt8.toNat) := map_injective_iff.2 fun _ _ => UInt8.toNat_inj.1

theorem compareBytes_eq_iff : compareBytes left right = .eq ↔ left = right := by
  rw [← toNat_injective.eq_iff]
  have h1 := compareBytes_lt_iff left right
  have h2 := compareBytes_gt_iff left right
  cases h : compareBytes left right with
  | lt => simpa using (h1.1 h).ne
  | gt => simpa using (h2.1 h).ne'
  | eq =>
    rw [h] at h1 h2
    simpa using le_antisymm (not_lt.1 (h2.not.1 (by simp))) (not_lt.1 (h1.not.1 (by simp)))

theorem compareOrder_lt_iff (left right : Item) : compareOrder left right = .lt ↔ left.key < right.key := by
  unfold compareOrder Item.key
  rw [Prod.Lex.toLex_lt_toLex]
  rcases lt_trichotomy left.score.num right.score.num with h | h | h
  · simp [h]
  · simp [h, compareBytes_lt_iff]
  · simp [h, h.not_gt, h.ne']

theorem Item.member_of_key {a b : Item} (h : a.key = b.key) : a.member = b.member := by
  have hb : a.member.map UInt8.toNat = b.member.map UInt8.toNat := congrArg (fun k => (ofLex k).2) h
  exact toNat_injective hb

/-- the keys of the nodes `xs` of an engine increase strictly -/
def Sorted (item : ℕ → Item) (xs : List ℕ) : Prop := xs.Pairwise fun a b => (item a).key < (item b).key

/-- a sorted sequence splits at a key -/
theorem split_sorted {item : ℕ → Item} {xs : List ℕ} (h : Sorted item xs) (key : ℤ ×ₗ List ℕ) :
    ∃ A B, xs = A ++ B ∧ (∀ a ∈ A, (item a).key < key) ∧ ∀ b ∈ B, ¬ (item b).key < key := by
  induction xs with
  | nil => exact ⟨[], [], rfl, by simp, by simp⟩
  | cons x xs ih =>
    obtain ⟨hx, hxs⟩ := pairwise_cons.1 h
    by_cases hlt : (item x).key < key
    · obtain ⟨A, B, rfl, hA, hB⟩ := ih hxs
      refine ⟨x :: A, B, rfl, fun a ha => ?_, hB⟩
      rcases mem_cons.1 ha with rfl | ha
      · exact hlt
      · exact hA a ha
    · refine ⟨[], x :: xs, rfl, by simp, fun b hb => ?_⟩
      rcases mem_cons.1 hb with rfl | hb
      · exact hlt
      · exact fun hc => hlt ((hx b hb).trans hc)

/-- an item enters a sorted sequence at its place -/
theorem pairwise_insert {α : Type} {R : α → α → Prop} {A B : List α} {x : α} (h : (A ++ B).Pairwise R)
    (hA : ∀ a ∈ A, R a x) (hB : ∀ b ∈ B, R x b) : (A ++ x :: B).Pairwise R := by
  obtain ⟨s1, s2, s3⟩ := pairwise_append.1 h
  refine pairwise_append.2 ⟨s1, pairwise_cons.2 ⟨hB, s2⟩, fun a ha b hb => ?_⟩
  rcases mem_cons.1 hb with rfl | hb
  · exact hA a ha
  · exact s3 a ha b hb

end StoreSystem
