/-
What the checksum of a snapshot file (`Persistence.Rdb`) protects.

The CRC-64 is taken most significant bit first and stored most significant byte first behind the data, so that a file is
accepted only if the remainder of the whole file is zero (`rdbLoad_checksum`). Whatever the cache, a save keeps the checksum of
what it has written (`Tracks`), hence its file has remainder zero (`rdbSave_checksum`).

- `rdbLoad_damaged`: a file that differs from a saved one within eight consecutive bytes is rejected before the cache is
  touched. The eight bytes may lie in the data, in the stored checksum or in both.
-/
import StoreSystem.Lib.Crc
import StoreSystem.Persistence.RdbRoundTrip

namespace StoreSystem.Rdb

open List Option

/-! ## The checksum as a remainder -/

def poly64 : BitVec 64 := rdbCrc64Poly.toBitVec

theorem poly64_odd : poly64.getLsbD 0 = true := by decide

theorem highBit_iff (crc : UInt64) : crc &&& 0x8000000000000000 ≠ 0 ↔ crc.toBitVec.msb = true := by
  have hand : (crc &&& 0x8000000000000000).toBitVec = crc.toBitVec &&& BitVec.twoPow 64 63 := rfl
  rw [BitVec.msb_eq_getLsbD_last, ne_eq, ← UInt64.toBitVec_inj, hand, BitVec.and_twoPow]
  cases crc.toBitVec.getLsbD 63 <;> decide

theorem crcShift_toBitVec (crc : UInt64) : (crcShift crc).toBitVec = Crc.shift poly64 crc.toBitVec := by
  unfold crcShift Crc.shift
  by_cases h : crc &&& 0x8000000000000000 ≠ 0
  · rw [if_pos h, if_pos ((highBit_iff crc).1 h)]
    rfl
  · rw [if_neg h, if_neg fun hmsb => h ((highBit_iff crc).2 hmsb)]
    rfl

theorem iterate_crcShift_toBitVec (n : ℕ) (crc : UInt64) : (crcShift^[n] crc).toBitVec = (Crc.shift poly64)^[n] crc.toBitVec := by
  induction n generalizing crc with
  | zero => rfl
  | succ n ih => rw [Function.iterate_succ_apply, Function.iterate_succ_apply, ih, crcShift_toBitVec]

theorem crcByte_toBitVec (crc : UInt64) (byte : UInt8) :
    (crcByte crc byte).toBitVec = Crc.byteStep poly64 crc.toBitVec byte.toBitVec := by
  unfold crcByte Crc.byteStep
  rw [iterate_crcShift_toBitVec]
  rfl

theorem crc64Update_toBitVec (crc : UInt64) (data : Bytes) :
    (crc64Update crc data).toBitVec = Crc.update poly64 crc.toBitVec (data.map UInt8.toBitVec) := by
  induction data generalizing crc with
  | nil => rfl
  | cons byte data ih =>
    have hcons : crc64Update crc (byte :: data) = crc64Update (crcByte crc byte) data := rfl
    rw [hcons, ih, crcByte_toBitVec]
    rfl

theorem decodeU64_eq (data : Bytes) : decodeU64 data = Crc.word (data.map UInt8.toBitVec) := by
  unfold decodeU64 Crc.word
  rw [foldl_map]
  rfl

/-- the remainder of a file -/
def remainder (file : Bytes) : BitVec 64 := Crc.update poly64 0#64 (file.map UInt8.toBitVec)

/-- the stored checksum is that of the data exactly when the remainder of the whole file is zero -/
theorem remainder_eq_zero_iff {data stored : Bytes} (hstored : stored.length = 8) :
    remainder (data ++ stored) = 0#64 ↔ decodeU64 stored = (crc64Update 0 data).toNat := by
  have hbits : 8 * (stored.map UInt8.toBitVec).length = 64 := by rw [length_map, hstored]
  have hword : Crc.word (stored.map UInt8.toBitVec) < 2 ^ 64 := hbits ▸ Crc.word_lt _
  rw [remainder, map_append, Crc.update_check poly64_odd hbits, decodeU64_eq, ← UInt64.toNat_toBitVec, crc64Update_toBitVec]
  change Crc.update poly64 0#64 _ = _ ↔ _ = (Crc.update poly64 0#64 _).toNat
  constructor
  · intro h
    rw [h, BitVec.toNat_ofNat, Nat.mod_eq_of_lt hword]
  · intro h
    rw [h, BitVec.ofNat_toNat, BitVec.setWidth_eq]

variable {file : Bytes} {w w' : RdbWriter}

/-- a file whose remainder is not zero is rejected -/
theorem rdbLoad_checksum (h : remainder file ≠ 0#64) (hash : Hasher) (alloc : ℕ → LoadAlloc)
    (engine : ZsetEngine) (c : Cache) : rdbLoad hash alloc engine c file = (c, .error .invalid) := by
  unfold rdbLoad
  by_cases hshort : file.length < 58
  · rw [if_pos hshort]
  rw [if_neg hshort, if_pos]
  intro hstored
  refine h ?_
  have hlength : (file.drop (file.length - 8)).length = 8 := by
    rw [length_drop]
    omega
  rw [← take_append_drop (file.length - 8) file]
  exact (remainder_eq_zero_iff hlength).2 hstored

/-! ## Saved files -/

/-- the checksum of a writer is that of what it has written -/
def Tracks (w : RdbWriter) : Prop := w.crc = crc64Update 0 w.file

theorem Tracks.bytes (h : Tracks w) {data : Bytes} (hw : writerBytes w data = some w') : Tracks w' := by
  unfold writerBytes at hw
  split_ifs at hw
  cases hw
  rw [Tracks, crc64Update_append, ← h]

/-- a visitor that keeps a property of its context keeps it over a visit -/
theorem visit_keeps {C α : Type} {P : C → Prop} {f : C → α → Option C} (hf : ∀ {c c' : C} {x : α}, P c → f c x = some c' → P c')
    (l : List α) : ∀ {c : C}, P c → P (visit (visitor f) c l).1 := by
  induction l with
  | nil => exact fun h => h
  | cons x l ih =>
    intro c h
    rw [visit, visitor]
    cases hx : f c x with
    | none => exact h
    | some c' => exact ih (hf h hx)

theorem visited_some {C : Type} {r : C × Bool} {c : C} (h : visited r = some c) : r.1 = c := by
  unfold visited at h
  split_ifs at h
  exact some_inj.1 h

theorem rangeLoop_keeps {C : Type} {P : C → Prop} {f : C → Item → Option C}
    (hf : ∀ {c c' : C} {x : Item}, P c → f c x = some c' → P c') (o : Order) (left : ℕ) :
    ∀ {node : Option ℕ} {c : C} {count : ℕ}, P c → P (rangeLoop o (visitor f) left node c count).1 := by
  induction left with
  | zero => exact fun h => h
  | succ left ih =>
    intro node c count h
    cases node with
    | none => exact h
    | some id =>
      cases hx : f c (o.item id) with
      | none =>
        have hvisit : visitor f c (o.item id) = (c, false) := by rw [visitor, hx]
        simpa only [rangeLoop, hvisit, Bool.false_eq_true, if_false] using h
      | some c' =>
        have hvisit : visitor f c (o.item id) = (c', true) := by rw [visitor, hx]
        simpa only [rangeLoop, hvisit, if_true] using ih (hf h hx)

theorem Tracks.hashField {field : Bytes × Bytes} (h : Tracks w) (hw : writeHashField w field = some w') :
    Tracks w' := by
  rw [writeHashField_eq] at hw
  exact h.bytes hw

theorem Tracks.zsetMember {item : Item} (h : Tracks w) (hw : writeZsetMember w item = some w') : Tracks w' := by
  rw [writeZsetMember_eq] at hw
  exact h.bytes hw

theorem Tracks.content (h : Tracks w) {object : KvObject} (hw : writeContent w object = some w') : Tracks w' := by
  unfold writeContent at hw
  cases htype : kvObjectType object with
  | string =>
    simp only [htype, bind_eq_bind] at hw
    obtain ⟨w1, h1, hw⟩ := bind_eq_some_iff.1 hw
    obtain ⟨w2, h2, hw⟩ := bind_eq_some_iff.1 hw
    cases hw
    have hvalue : Tracks w2 := (h.bytes h1).bytes h2
    exact hvalue
  | hash =>
    simp only [htype, bind_eq_bind] at hw
    obtain ⟨w1, h1, hw⟩ := bind_eq_some_iff.1 hw
    obtain ⟨w2, h2, hw⟩ := bind_eq_some_iff.1 hw
    cases hw
    have hfields : Tracks (kvObjectHashVisit object (visitor writeHashField) w1).1 := by
      unfold kvObjectHashVisit
      split
      · exact visit_keeps Tracks.hashField _ (h.bytes h1)
      · exact h.bytes h1
    rw [visited_some h2] at hfields
    exact hfields
  | zset =>
    simp only [htype, bind_eq_bind] at hw
    obtain ⟨w1, h1, hw⟩ := bind_eq_some_iff.1 hw
    have hmembers : Tracks (kvObjectZsetRange object 0 (-1) (visitor writeZsetMember) w1).1 := by
      unfold kvObjectZsetRange ZSet.range
      split
      · split
        · exact h.bytes h1
        · exact rangeLoop_keeps Tracks.zsetMember _ _ (h.bytes h1)
      · exact h.bytes h1
    rcases hrange : kvObjectZsetRange object 0 (-1) (visitor writeZsetMember) w1 with ⟨w2, _ | seen⟩
    · rw [hrange] at hw
      cases hw
    · rw [hrange] at hw hmembers
      simp only at hw
      split_ifs at hw
      cases hw
      exact hmembers

theorem Tracks.entry {e : Bytes × KvObject × ℕ} (h : Tracks w) (hw : writeCacheEntry w e = some w') : Tracks w' := by
  unfold writeCacheEntry at hw
  simp only at hw
  split_ifs at hw
  · cases hw
    exact h
  · obtain ⟨w1, h1, hw⟩ := bind_eq_some_iff.1 hw
    obtain ⟨w2, h2, hw⟩ := bind_eq_some_iff.1 hw
    obtain ⟨w3, h3, hw⟩ := bind_eq_some_iff.1 hw
    obtain ⟨w4, h4, hw⟩ := bind_eq_some_iff.1 hw
    exact ((((h.bytes h1).bytes h2).bytes h3).bytes h4).content hw

/-- **A saved file** has remainder zero. -/
theorem rdbSave_checksum {c : Cache} {checkpoint : Option Checkpoint} {t : ℕ} {stats : RdbStats}
    (hsave : rdbSave c checkpoint t = some (file, stats)) : remainder file = 0#64 ∧ 8 ≤ file.length := by
  unfold rdbSave at hsave
  simp only [bind_eq_bind, writeHeader_eq] at hsave
  obtain ⟨keys, _, hsave⟩ := bind_eq_some_iff.1 hsave
  obtain ⟨w1, hheader, hsave⟩ := bind_eq_some_iff.1 hsave
  obtain ⟨w2, hrecords, hsave⟩ := bind_eq_some_iff.1 hsave
  obtain ⟨w3, hmark, hsave⟩ := bind_eq_some_iff.1 hsave
  split_ifs at hsave
  have hstart : Tracks ⟨[], 0, t, { noStats with snapshotTimeMs := t }⟩ := rfl
  have hvisit : Tracks (c.cacheVisit (visitor writeCacheEntry) w1).1 := visit_keeps Tracks.entry _ (hstart.bytes hheader)
  rw [visited_some hrecords] at hvisit
  have hend : Tracks w3 := hvisit.bytes hmark
  cases hsave
  refine ⟨(remainder_eq_zero_iff (length_encodeU64 _)).2 ?_, ?_⟩
  · rw [decode_encodeU64 (Nat.le_pred_of_lt (UInt64.toNat_lt w3.crc)), hend]
  · rw [length_append, length_encodeU64]
    exact Nat.le_add_left ..

/-! ## Damage -/

/-- two files that agree outside a window agree before it and behind it -/
theorem parts_of_window {file' : Bytes} {start width : ℕ} (hwindow : ∀ i, i < start ∨ start + width ≤ i → file'[i]? = file[i]?) :
    file'.take start = file.take start ∧ file'.drop (start + width) = file.drop (start + width) := by
  constructor
  · apply ext_getElem?
    intro i
    rw [List.getElem?_take, List.getElem?_take]
    split_ifs with hi
    · exact hwindow i (Or.inl hi)
    · rfl
  · apply ext_getElem?
    intro i
    rw [List.getElem?_drop, List.getElem?_drop]
    exact hwindow _ (Or.inr (Nat.le_add_right ..))

/-- two files of one length that differ within eight bytes and have the same remainder are the same -/
theorem remainder_window {file' : Bytes} (hlength : file'.length = file.length) (hlong : 8 ≤ file.length) {start : ℕ}
    (hwindow : ∀ i, i < start ∨ start + 8 ≤ i → file'[i]? = file[i]?) (hrem : remainder file' = remainder file) : file' = file := by
  -- a window that reaches beyond the end is the last one inside the file
  obtain ⟨first, hfirst, hinside⟩ : ∃ first, first + 8 ≤ file.length ∧ ∀ i, i < first ∨ first + 8 ≤ i → file'[i]? = file[i]? := by
    refine ⟨min start (file.length - 8), by omega, fun i hi => ?_⟩
    by_cases hend : file.length ≤ i
    · rw [List.getElem?_eq_none (by omega), List.getElem?_eq_none hend]
    · exact hwindow i (by omega)
  obtain ⟨hbefore, hbehind⟩ := parts_of_window hinside
  have hsplit : ∀ f : Bytes, f = f.take first ++ ((f.drop first).take 8 ++ f.drop (first + 8)) := by
    intro f
    rw [← drop_drop, take_append_drop, take_append_drop]
  have hparts : ∀ f : Bytes, remainder f = Crc.update poly64 (Crc.update poly64 (remainder (f.take first))
      (((f.drop first).take 8).map UInt8.toBitVec)) ((f.drop (first + 8)).map UInt8.toBitVec) := by
    intro f
    conv_lhs => rw [hsplit f]
    rw [remainder, map_append, map_append, Crc.update_append, Crc.update_append]
    rfl
  rw [hparts file', hparts file, hbefore, hbehind] at hrem
  have hblock := Crc.update_injective poly64_odd _ hrem
  have hwidth : ∀ f : Bytes, f.length = file.length → 8 * (((f.drop first).take 8).map UInt8.toBitVec).length = 64 := by
    intro f hf
    rw [length_map, length_take, length_drop]
    omega
  have hsame := Crc.update_block_injective poly64_odd (hwidth file' hlength) (hwidth file rfl) hblock
  have hbytes : (file'.drop first).take 8 = (file.drop first).take 8 :=
    map_injective_iff.2 (fun a b => UInt8.toBitVec_inj.1) hsame
  rw [hsplit file', hsplit file, hbefore, hbytes, hbehind]

/-- **A damaged snapshot is rejected.** A file of the same length that differs from a saved one, and only within eight
consecutive bytes, is refused, and the cache is as before. -/
theorem rdbLoad_damaged {saved : Cache} {checkpoint : Option Checkpoint} {t : ℕ} {file : Bytes} {stats : RdbStats}
    (hsave : rdbSave saved checkpoint t = some (file, stats)) {file' : Bytes} (hlength : file'.length = file.length) (start : ℕ)
    (hwindow : ∀ i, i < start ∨ start + 8 ≤ i → file'[i]? = file[i]?) (hne : file' ≠ file)
    (hash : Hasher) (alloc : ℕ → LoadAlloc) (engine : ZsetEngine) (c : Cache) :
    rdbLoad hash alloc engine c file' = (c, .error .invalid) := by
  obtain ⟨hzero, hlong⟩ := rdbSave_checksum hsave
  apply rdbLoad_checksum
  intro hrem
  exact hne (remainder_window hlength hlong hwindow (hrem.trans hzero.symm))

/-- the snapshot of a Hash and a ZSet with deadlines, behind a checkpoint -/
def sampleSnapshot : Option (Bytes × RdbStats) := rdbSave sampleStores.1 (some ⟨96, List.replicate 16 7, true⟩) 5

/-- a member and the sign of its score overwritten: the file is rejected, and a cache that has entries keeps them -/
theorem rdbLoad_damaged_zset :
    ∃ file stats, sampleSnapshot = some (file, stats) ∧
      rdbLoad (fun _ => 0) (fun _ => .succeeding) .skiplist sampleStore.1 ((file.set 82 1).set 84 0) =
        (sampleStore.1, .error .invalid) := by
  have hsome : sampleSnapshot.isSome = true := by decide +kernel
  obtain ⟨⟨file, stats⟩, hsave⟩ := isSome_iff_exists.1 hsome
  refine ⟨file, stats, hsave, rdbLoad_damaged hsave (by simp) 82 ?_ ?_ _ _ _ _⟩
  · intro i hi
    rw [List.getElem?_set_ne (by omega), List.getElem?_set_ne (by omega)]
  · have hdamaged : (sampleSnapshot.any fun r => (r.1.set 82 1).set 84 0 ≠ r.1) = true := by decide +kernel
    rw [hsave] at hdamaged
    simpa using hdamaged

end StoreSystem.Rdb
