/-
Cyclic redundancy checks that take the bytes most significant bit first, over words of any width.

A polynomial of degree `w` is given by its coefficients below `w`. If the constant one is set, a shift of the remainder loses
nothing (`shift_injective`), so equal bytes keep different remainders apart (`update_injective`). A block of at most `w` bits
enters the remainder as one word (`update_block`), hence two blocks of `w` bits that differ leave different remainders
(`update_block_injective`): the check finds every change that stays within `w` consecutive bits at byte bounds.
-/
import Mathlib.Data.List.Induction
import Mathlib.Logic.Function.Iterate
import Mathlib.Tactic.Ring

namespace StoreSystem.Crc

open List Function

variable {w : ℕ} (poly : BitVec w)

variable (crc : BitVec w) (data : List (BitVec 8))

/-- one bit: the remainder times `x` -/
def shift : BitVec w := if crc.msb then (crc <<< 1) ^^^ poly else crc <<< 1

/-- one byte -/
def byteStep (byte : BitVec 8) : BitVec w := (shift poly)^[8] (crc ^^^ (byte.setWidth w <<< (w - 8)))

/-- the remainder after some bytes -/
def update : BitVec w := data.foldl (byteStep poly) crc

/-- the number whose digits to the base 256 are the bytes -/
def word : ℕ := data.foldl (fun value byte => value * 256 + byte.toNat) 0

theorem update_append (a b : List (BitVec 8)) : update poly crc (a ++ b) = update poly (update poly crc a) b :=
  foldl_append

theorem word_append_singleton (byte : BitVec 8) : word (data ++ [byte]) = word data * 256 + byte.toNat := by
  simp [word]

theorem word_lt : word data < 2 ^ (8 * data.length) := by
  induction data using List.reverseRecOn with
  | nil => simp [word]
  | append_singleton data byte ih =>
    rw [word_append_singleton, length_append, length_singleton, Nat.mul_add, pow_add]
    have := byte.isLt
    omega

/-! ## Shifts -/

variable {poly}

theorem getLsbD_shift_zero (hpoly : poly.getLsbD 0 = true) (crc : BitVec w) : (shift poly crc).getLsbD 0 = crc.msb := by
  unfold shift
  cases hmsb : crc.msb <;> simp [hpoly]

/-- the highest bit is where the constant coefficient shows it -/
theorem shift_injective (hpoly : poly.getLsbD 0 = true) : Function.Injective (shift poly) := by
  intro a b hab
  have hmsb : a.msb = b.msb := by rw [← getLsbD_shift_zero hpoly a, hab, getLsbD_shift_zero hpoly b]
  have hshift : a <<< 1 = b <<< 1 := by
    unfold shift at hab
    rw [← hmsb] at hab
    split_ifs at hab
    · exact (BitVec.xor_left_inj _).1 hab
    · exact hab
  apply BitVec.eq_of_getLsbD_eq
  intro i hi
  by_cases htop : i + 1 = w
  · rw [BitVec.msb_eq_getLsbD_last, BitVec.msb_eq_getLsbD_last] at hmsb
    rwa [show i = w - 1 by omega]
  · have hbit := congrArg (fun x => x.getLsbD (i + 1)) hshift
    simpa only [BitVec.getLsbD_shiftLeft, show i + 1 < w by omega, decide_true, Bool.true_and, show ¬ i + 1 < 1 by omega, decide_false,
      Bool.not_false, Nat.add_sub_cancel] using hbit

theorem shift_xor {y : BitVec w} (hy : y.msb = false) (x : BitVec w) : shift poly (x ^^^ y) = shift poly x ^^^ (y <<< 1) := by
  unfold shift
  rw [BitVec.msb_xor, hy, Bool.xor_false, BitVec.shiftLeft_xor_distrib]
  split_ifs
  · rw [BitVec.xor_assoc, BitVec.xor_comm (y <<< 1), ← BitVec.xor_assoc]
  · rfl

/-- a word whose upper bits are clear only moves up -/
theorem iterate_shift_xor (n : ℕ) : ∀ {y : BitVec w} (_ : ∀ i, w ≤ i + n → y.getLsbD i = false) (x : BitVec w),
    (shift poly)^[n] (x ^^^ y) = (shift poly)^[n] x ^^^ (y <<< n) := by
  induction n with
  | zero => simp
  | succ n ih =>
    intro y hy x
    have hmsb : y.msb = false := by
      rw [BitVec.msb_eq_getLsbD_last]
      exact hy _ (by omega)
    rw [iterate_succ_apply, iterate_succ_apply, shift_xor hmsb, ih, ← BitVec.shiftLeft_add, Nat.add_comm 1 n]
    intro i hi
    by_cases hw : i < w
    · rw [BitVec.getLsbD_shiftLeft]
      by_cases hlow : i < 1
      · simp [hlow]
      · simp [hlow, hy (i - 1) (by omega)]
    · exact BitVec.getLsbD_of_ge _ _ (by omega)

/-! ## Blocks -/

/-- a block and one more byte, as words -/
theorem ofNat_word_append (data : List (BitVec 8)) (byte : BitVec 8) :
    BitVec.ofNat w (word (data ++ [byte])) = (BitVec.ofNat w (word data) <<< 8) ^^^ byte.setWidth w := by
  apply BitVec.eq_of_getLsbD_eq
  intro i hi
  have hbyte : byte.toNat < 2 ^ 8 := byte.isLt
  rw [word_append_singleton, show word data * 256 + byte.toNat = 2 ^ 8 * word data + byte.toNat by ring]
  simp only [BitVec.getLsbD_ofNat, BitVec.getLsbD_xor, BitVec.getLsbD_shiftLeft, BitVec.getLsbD_setWidth, hi, decide_true, Bool.true_and,
    Nat.testBit_two_pow_mul_add _ hbyte]
  by_cases hlow : i < 8
  · simp [hlow, BitVec.getLsbD]
  · simp [hlow, BitVec.getLsbD_of_ge byte i (by omega), show i - 8 < w by omega]

/-- **A block** of no more bits than the word has enters the remainder at its upper end, and is shifted out with it. -/
theorem update_block (data : List (BitVec 8)) (hfit : 8 * data.length ≤ w) (crc : BitVec w) :
    update poly crc data =
      (shift poly)^[8 * data.length] (crc ^^^ (BitVec.ofNat w (word data) <<< (w - 8 * data.length))) := by
  induction data using List.reverseRecOn with
  | nil => simp [update, word]
  | append_singleton data byte ih =>
    rw [length_append, length_singleton] at hfit ⊢
    have hclear : ∀ i, w ≤ i + 8 * data.length → (byte.setWidth w <<< (w - 8 * (data.length + 1))).getLsbD i = false := by
      intro i hi
      simp only [BitVec.getLsbD_shiftLeft, BitVec.getLsbD_setWidth, BitVec.getLsbD_of_ge byte (i - (w - 8 * (data.length + 1))) (by omega),
        Bool.and_false]
    calc update poly crc (data ++ [byte])
        = (shift poly)^[8] (update poly crc data ^^^ (byte.setWidth w <<< (w - 8))) := by rw [update_append]; rfl
      _ = (shift poly)^[8] ((shift poly)^[8 * data.length]
            ((crc ^^^ (BitVec.ofNat w (word data) <<< (w - 8 * data.length))) ^^^ (byte.setWidth w <<< (w - 8 * (data.length + 1))))) := by
          rw [ih (by omega), iterate_shift_xor _ hclear, ← BitVec.shiftLeft_add,
            show w - 8 * (data.length + 1) + 8 * data.length = w - 8 by omega]
      _ = (shift poly)^[8 * (data.length + 1)] (crc ^^^ (BitVec.ofNat w (word (data ++ [byte])) <<< (w - 8 * (data.length + 1)))) := by
          rw [← iterate_add_apply, show 8 + 8 * data.length = 8 * (data.length + 1) by ring, BitVec.xor_assoc,
            ofNat_word_append, BitVec.shiftLeft_xor_distrib, ← BitVec.shiftLeft_add,
            show 8 + (w - 8 * (data.length + 1)) = w - 8 * data.length by omega]

theorem byteStep_injective (hpoly : poly.getLsbD 0 = true) (byte : BitVec 8) : Function.Injective fun crc => byteStep poly crc byte := by
  intro a b hab
  exact (BitVec.xor_left_inj _).1 ((shift_injective hpoly).iterate 8 hab)

/-- equal bytes keep different remainders apart -/
theorem update_injective (hpoly : poly.getLsbD 0 = true) (data : List (BitVec 8)) : Function.Injective fun crc => update poly crc data := by
  induction data with
  | nil => exact injective_id
  | cons byte data ih =>
    intro a b hab
    exact byteStep_injective hpoly byte (ih hab)

theorem word_injective : ∀ {a b : List (BitVec 8)}, a.length = b.length → word a = word b → a = b := by
  intro a
  induction a using List.reverseRecOn with
  | nil =>
    intro b hlength _
    exact (eq_nil_of_length_eq_zero hlength.symm).symm
  | append_singleton a x ih =>
    intro b hlength hword
    rcases eq_nil_or_concat b with rfl | ⟨b, y, rfl⟩
    · simp at hlength
    rw [word_append_singleton, concat_eq_append, word_append_singleton] at hword
    have hx := x.isLt
    have hy := y.isLt
    have hlast : x = y := BitVec.eq_of_toNat_eq (by omega)
    rw [concat_eq_append, ih (by simpa using hlength) (by omega), hlast]

/-- **Two blocks of the width of the word** that leave the same remainder are the same. -/
theorem update_block_injective (hpoly : poly.getLsbD 0 = true) {a b : List (BitVec 8)} (ha : 8 * a.length = w) (hb : 8 * b.length = w)
    {crc : BitVec w} (h : update poly crc a = update poly crc b) : a = b := by
  rw [update_block a ha.le, update_block b hb.le, ha, hb, Nat.sub_self, BitVec.shiftLeft_zero, BitVec.shiftLeft_zero] at h
  have hwords := (BitVec.xor_right_inj _).1 ((shift_injective hpoly).iterate w h)
  have hlength : a.length = b.length := by omega
  refine word_injective hlength ?_
  have hnat := congrArg BitVec.toNat hwords
  have hlta := word_lt a
  have hltb := word_lt b
  rw [ha] at hlta
  rw [hb] at hltb
  rwa [BitVec.toNat_ofNat, BitVec.toNat_ofNat, Nat.mod_eq_of_lt hlta, Nat.mod_eq_of_lt hltb] at hnat

/-- **The check at the end**: behind some bytes, a block of the width of the word makes the remainder zero exactly when it is the
remainder of those bytes. -/
theorem update_check (hpoly : poly.getLsbD 0 = true) {stored : List (BitVec 8)} (hstored : 8 * stored.length = w) (data : List (BitVec 8)) :
    update poly 0#w (data ++ stored) = 0#w ↔ update poly 0#w data = BitVec.ofNat w (word stored) := by
  have hzero : (shift poly)^[w] 0#w = 0#w := by
    have hfixed : shift poly 0#w = 0#w := by simp [shift]
    exact iterate_fixed hfixed w
  rw [update_append, update_block stored hstored.le, hstored, Nat.sub_self, BitVec.shiftLeft_zero]
  constructor
  · intro h
    exact BitVec.xor_eq_zero_iff.1 ((shift_injective hpoly).iterate w (h.trans hzero.symm))
  · intro h
    rw [h, BitVec.xor_self, hzero]

end StoreSystem.Crc
