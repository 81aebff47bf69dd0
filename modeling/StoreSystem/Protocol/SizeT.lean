/-
The RESP request parser (`src/protocol/resp.c`) in the arithmetic of `size_t`, where sums and products wrap at 2^64.

The functions are those of `Protocol.Resp`, with the slices of `resp_request_t` in place of the bytes they point to. An input
shares the address space with the request it is parsed into (`Input`), so it is shorter than 2^64 by the size of that
structure; this is what keeps `position + 2U` from wrapping at the end of a buffer.

- `parse_map`: the result is the one of the unbounded arithmetic, for every input and limit;
- `parse_accepts_frames`: a request is complete exactly when the input starts with a frame within the limit, and the slices
  are the places of that frame's payloads.
-/
import StoreSystem.Protocol.Stream

namespace StoreSystem.Resp

open List

variable {α β : Type}

def ParseResult.map (f : α → β) : ParseResult α → ParseResult β
  | .error => .error
  | .incomplete => .incomplete
  | .complete value => .complete (f value)

/-- `resp_slice_t`, its pointer as an offset into the input -/
structure Slice where
  offset : UInt64
  length : UInt64
deriving DecidableEq, Repr

def Slice.bounds (s : Slice) : ℕ × ℕ := (s.offset.toNat, s.length.toNat)

/-- the bytes of a slice -/
def Slice.read (data : Bytes) (s : Slice) : Bytes := (data.drop s.offset.toNat).take s.length.toNat

/-- the size of `resp_request_t`: a count and the slices -/
def sizeofRespRequest : ℕ := 8 + respMaxArguments * 16

/-- the bytes handed to the parser, an object beside the request in the same address space -/
structure Input where
  bytes : Bytes
  beside : bytes.length + sizeofRespRequest ≤ 2 ^ 64

namespace Word

/-! ## Model -/

def sizeMax : UInt64 := 18446744073709551615

def incompleteOrError (available : UInt64) (endOfStream : Bool) (maxFrameSize : UInt64) : ParseResult α :=
  if endOfStream ∨ available ≥ maxFrameSize then .error else .incomplete

/-- the loop of `parse_decimal_line`; the bytes left bound its rounds -/
def decimalLoop (data : Bytes) (length maxFrameSize : UInt64) :
    ℕ → UInt64 → UInt64 → UInt64 → Option (UInt64 × UInt64 × UInt64)
  | 0, cursor, parsed, digits => some (cursor, parsed, digits)
  | rounds + 1, cursor, parsed, digits =>
    let c := data.getD cursor.toNat 0
    if cursor < length ∧ c ≠ 13 then
      if c < 48 ∨ c > 57 then none
      else
        let digit := (c - 48).toUInt64
        if parsed > (sizeMax - digit) / 10 then none
        else if cursor + 1 > maxFrameSize then none
        else decimalLoop data length maxFrameSize rounds (cursor + 1) (parsed * 10 + digit) (digits + 1)
    else some (cursor, parsed, digits)

def parseDecimalLine (data : Bytes) (length position : UInt64) (endOfStream : Bool) (maxFrameSize : UInt64) :
    ParseResult (UInt64 × UInt64) :=
  match decimalLoop data length maxFrameSize data.length position 0 0 with
  | none => .error
  | some (cursor, parsed, digits) =>
    if cursor ≥ length then incompleteOrError length endOfStream maxFrameSize
    else if digits = 0 ∨ cursor + 1 ≥ length then
      if digits = 0 then .error else incompleteOrError length endOfStream maxFrameSize
    else if data.getD (cursor + 1).toNat 0 ≠ 10 then .error
    else .complete (parsed, cursor + 2)

def parseBulk (data : Bytes) (length : UInt64) (endOfStream : Bool) (maxFrameSize bulkLength position : UInt64) :
    ParseResult (Slice × UInt64) :=
  if bulkLength > maxFrameSize ∨ position > maxFrameSize - bulkLength then .error
  else if length - position < bulkLength then incompleteOrError length endOfStream maxFrameSize
  else
    let next := position + bulkLength
    if next + 2 > length then incompleteOrError length endOfStream maxFrameSize
    else if next + 2 > maxFrameSize ∨ data.getD next.toNat 0 ≠ 13 ∨ data.getD (next + 1).toNat 0 ≠ 10 then .error
    else .complete (⟨position, bulkLength⟩, next + 2)

def parseArguments (data : Bytes) (length : UInt64) (endOfStream : Bool) (maxFrameSize : UInt64) :
    ℕ → UInt64 → ParseResult (List Slice × UInt64)
  | 0, position => .complete ([], position)
  | count + 1, position =>
    if position ≥ length then incompleteOrError length endOfStream maxFrameSize
    else if data.getD position.toNat 0 ≠ 36 then .error
    else
      (parseDecimalLine data length (position + 1) endOfStream maxFrameSize).bind fun line =>
        (parseBulk data length endOfStream maxFrameSize line.1 line.2).bind fun bulk =>
          (parseArguments data length endOfStream maxFrameSize count bulk.2).bind fun rest =>
            .complete (bulk.1 :: rest.1, rest.2)

/-- `resp_parse_request_with_limit` -/
def parseRequestWithLimit (data : Bytes) (endOfStream : Bool) (maxFrameSize : UInt64) : ParseResult (List Slice × UInt64) :=
  let length := data.length.toUInt64
  if maxFrameSize = 0 then .error
  else if length = 0 then if endOfStream then .error else .incomplete
  else if data.getD 0 0 ≠ 42 then .error
  else
    (parseDecimalLine data length 1 endOfStream maxFrameSize).bind fun line =>
      if line.1 = 0 ∨ line.1 > respMaxArguments.toUInt64 then .error
      else parseArguments data length endOfStream maxFrameSize line.1.toNat line.2

end Word

/-! ## The same results as without a bound -/

section Map

variable {data : Bytes} {length limit position : UInt64} {eos : Bool}

theorem map_bind_of {γ δ : Type} {f : α → β} {g : γ → δ} {x : ParseResult α} {next : α → ParseResult γ} {y : ParseResult β}
    {next' : β → ParseResult δ} (hx : x.map f = y) (hnext : ∀ a, x = .complete a → (next a).map g = next' (f a)) :
    (x.bind next).map g = y.bind next' := by
  subst hx
  cases x with
  | error => rfl
  | incomplete => rfl
  | complete a => exact hnext a rfl

theorem incompleteOrError_map (f : α → β) (available : UInt64) :
    (Word.incompleteOrError available eos limit : ParseResult α).map f = incompleteOrError available.toNat eos limit.toNat := by
  simp only [Word.incompleteOrError, incompleteOrError, ge_iff_le, UInt64.le_iff_toNat_le]
  split_ifs <;> rfl

theorem toNat_add_small {a b : UInt64} (h : a.toNat + b.toNat < 2 ^ 64) : (a + b).toNat = a.toNat + b.toNat := by
  rw [UInt64.toNat_add, Nat.mod_eq_of_lt h]

theorem toNat_digit {c : UInt8} (h : 48 ≤ c) : (c - 48).toUInt64.toNat = c.toNat - 48 := by
  rw [UInt8.toNat_toUInt64, UInt8.toNat_sub_of_le _ _ h]
  rfl

theorem digit_overflows_iff {parsed digit : UInt64} (hdigit : digit.toNat ≤ 9) :
    parsed > (Word.sizeMax - digit) / 10 ↔ parsed.toNat > (sizeMax - digit.toNat) / 10 := by
  have hle : digit ≤ Word.sizeMax := by
    rw [UInt64.le_iff_toNat_le]
    exact le_trans hdigit (by decide)
  rw [gt_iff_lt, UInt64.lt_iff_toNat_lt, UInt64.toNat_div, UInt64.toNat_sub_of_le _ _ hle]
  rfl

theorem decimalLoop_map (hlength : length.toNat = data.length) (rounds : ℕ) : ∀ {cursor parsed digits : UInt64},
    data.length ≤ cursor.toNat + rounds → digits.toNat ≤ cursor.toNat →
    (Word.decimalLoop data length limit rounds cursor parsed digits).map (fun r => (r.1.toNat, r.2.1.toNat, r.2.2.toNat)) =
      decimalLoop limit.toNat (data.drop cursor.toNat) cursor.toNat parsed.toNat digits.toNat := by
  induction rounds with
  | zero =>
    intro cursor parsed digits hrounds _
    rw [drop_eq_nil_of_le (by omega)]
    rfl
  | succ rounds ih =>
    intro cursor parsed digits hrounds hdigits
    rw [Word.decimalLoop]
    simp only
    by_cases hlt : cursor < length
    · have hcursor : cursor.toNat < data.length := by rw [← hlength]; exact UInt64.lt_iff_toNat_lt.1 hlt
      have hbound := length.toNat_lt
      rw [drop_eq_getElem_cons hcursor, getElem_eq_getD 0, decimalLoop]
      generalize data.getD cursor.toNat 0 = c
      by_cases hcr : c = 13
      · rw [if_neg (by simp [hcr]), if_pos hcr]
        rfl
      rw [if_pos ⟨hlt, hcr⟩, if_neg hcr]
      by_cases hrange : c < 48 ∨ c > 57
      · rw [if_pos hrange, if_pos hrange]
        rfl
      rw [if_neg hrange, if_neg hrange]
      rw [not_or, UInt8.not_lt, UInt8.not_lt] at hrange
      have h57 : c.toNat ≤ 57 := UInt8.le_iff_toNat_le.1 hrange.2
      have hdigit := toNat_digit hrange.1
      by_cases hbig : parsed > (Word.sizeMax - (c - 48).toUInt64) / 10
      · have hbig' := (digit_overflows_iff (by omega)).1 hbig
        rw [hdigit] at hbig'
        rw [if_pos hbig, if_pos hbig']
        rfl
      · have hbig' := hbig
        rw [digit_overflows_iff (by omega), hdigit] at hbig'
        rw [if_neg hbig, if_neg hbig']
        have hnext : (cursor + 1).toNat = cursor.toNat + 1 := toNat_add_small (by
          change cursor.toNat + 1 < _
          omega)
        have hcount : (digits + 1).toNat = digits.toNat + 1 := toNat_add_small (by
          change digits.toNat + 1 < _
          omega)
        have hvalue : (parsed * 10 + (c - 48).toUInt64).toNat = parsed.toNat * 10 + (c.toNat - 48) := by
          have hten : (parsed * 10).toNat = parsed.toNat * 10 := by
            rw [UInt64.toNat_mul]
            unfold sizeMax at hbig'
            exact Nat.mod_eq_of_lt (by change parsed.toNat * 10 < _; omega)
          unfold sizeMax at hbig'
          rw [toNat_add_small (by rw [hten, hdigit]; omega), hten, hdigit]
        have hlimit : cursor + 1 > limit ↔ cursor.toNat + 1 > limit.toNat := by
          rw [gt_iff_lt, UInt64.lt_iff_toNat_lt, hnext]
        by_cases hend : cursor + 1 > limit
        · rw [if_pos hend, if_pos (hlimit.1 hend)]
          rfl
        · rw [if_neg hend, if_neg (hlimit.not.1 hend), ih (by omega) (by omega), hnext, hcount, hvalue]
    · rw [if_neg (by simp [hlt]), drop_eq_nil_of_le (by rw [← hlength]; exact UInt64.le_iff_toNat_le.1 (UInt64.not_lt.1 hlt))]
      rfl

section

variable (hlength : length.toNat = data.length) (hfits : data.length + 2 < 2 ^ 64)
include hlength hfits

theorem parseDecimalLine_map : (Word.parseDecimalLine data length position eos limit).map (fun r => (r.1.toNat, r.2.toNat)) =
      parseDecimalLine data position.toNat eos limit.toNat := by
  have hloop : (Word.decimalLoop data length limit data.length position 0 0).map _ =
      decimalLoop limit.toNat (data.drop position.toNat) position.toNat 0 0 :=
    decimalLoop_map hlength data.length (by omega) (Nat.zero_le _)
  unfold Word.parseDecimalLine parseDecimalLine
  rw [← hloop]
  cases Word.decimalLoop data length limit data.length position 0 0 with
  | none => rfl
  | some stop =>
    obtain ⟨cursor, parsed, digits⟩ := stop
    simp only [Option.map_some]
    have hend : cursor ≥ length ↔ cursor.toNat ≥ data.length := by
      rw [ge_iff_le, UInt64.le_iff_toNat_le, hlength]
    by_cases hcursor : cursor ≥ length
    · rw [if_pos hcursor, if_pos (hend.1 hcursor), incompleteOrError_map, hlength]
    have hbelow := hend.not.1 hcursor
    have hnext : (cursor + 1).toNat = cursor.toNat + 1 := toNat_add_small (by
      change cursor.toNat + 1 < _
      omega)
    have hbehind : (cursor + 2).toNat = cursor.toNat + 2 := toNat_add_small (by
      change cursor.toNat + 2 < _
      omega)
    have hzero : digits = 0 ↔ digits.toNat = 0 := by rw [← UInt64.toNat_inj, UInt64.toNat_zero]
    have hshort : cursor + 1 ≥ length ↔ cursor.toNat + 1 ≥ data.length := by
      rw [ge_iff_le, UInt64.le_iff_toNat_le, hlength, hnext]
    rw [if_neg hcursor, if_neg hbelow]
    simp only [hzero, hshort, hnext]
    split_ifs
    · rfl
    · rw [incompleteOrError_map, hlength]
    · rfl
    · simp only [ParseResult.map, hbehind]

theorem parseBulk_map {bulkLength : UInt64} (hpos : position.toNat ≤ data.length) :
    (Word.parseBulk data length eos limit bulkLength position).map (fun r => (r.1.read data, r.2.toNat)) =
      parseBulk data eos limit.toNat bulkLength.toNat position.toNat := by
  unfold Word.parseBulk parseBulk
  have hlimit : (bulkLength > limit ∨ position > limit - bulkLength) ↔
      (bulkLength.toNat > limit.toNat ∨ position.toNat > limit.toNat - bulkLength.toNat) := by
    by_cases hbig : bulkLength > limit
    · simp only [hbig, true_or, true_iff]
      exact Or.inl (UInt64.lt_iff_toNat_lt.1 hbig)
    · have hle := UInt64.not_lt.1 hbig
      rw [gt_iff_lt, UInt64.lt_iff_toNat_lt, gt_iff_lt, UInt64.lt_iff_toNat_lt, UInt64.toNat_sub_of_le _ _ hle]
  by_cases hroom : bulkLength > limit ∨ position > limit - bulkLength
  · rw [if_pos hroom, if_pos (hlimit.1 hroom)]
    rfl
  rw [if_neg hroom, if_neg (hlimit.not.1 hroom)]
  have hposition : position ≤ length := by rw [UInt64.le_iff_toNat_le, hlength]; exact hpos
  have hpayload : length - position < bulkLength ↔ data.length - position.toNat < bulkLength.toNat := by
    rw [UInt64.lt_iff_toNat_lt, UInt64.toNat_sub_of_le _ _ hposition, hlength]
  by_cases hshort : length - position < bulkLength
  · rw [if_pos hshort, if_pos (hpayload.1 hshort), incompleteOrError_map, hlength]
  have hfull := hpayload.not.1 hshort
  rw [if_neg hshort, if_neg hfull]
  -- the payload is there, so its end and the two bytes behind it have positions
  have hnext : (position + bulkLength).toNat = position.toNat + bulkLength.toNat := toNat_add_small (by omega)
  have hone : (position + bulkLength + 1).toNat = position.toNat + bulkLength.toNat + 1 := by
    rw [toNat_add_small (by rw [hnext]; change _ + 1 < _; omega), hnext]
    rfl
  have htwo : (position + bulkLength + 2).toNat = position.toNat + bulkLength.toNat + 2 := by
    rw [toNat_add_small (by rw [hnext]; change _ + 2 < _; omega), hnext]
    rfl
  simp only [gt_iff_lt, UInt64.lt_iff_toNat_lt, htwo, hlength, hone, hnext]
  split_ifs
  · rw [incompleteOrError_map, hlength]
  · rfl
  · simp only [ParseResult.map, Slice.read, htwo]

/-- a line read in `size_t` is a line of the input -/
theorem parseDecimalLine_complete {v q : UInt64} (h : Word.parseDecimalLine data length position eos limit = .complete (v, q)) :
    ∃ text rest, data.drop position.toNat = text ++ 13 :: 10 :: rest ∧ Numeral text v.toNat ∧
      q.toNat = position.toNat + text.length + 2 ∧ q.toNat ≤ data.length := by
  have hmap : parseDecimalLine data position.toNat eos limit.toNat = .complete (v.toNat, q.toNat) := by
    rw [← parseDecimalLine_map hlength hfits, h]
    rfl
  obtain ⟨text, rest, hdrop, hnum, -, -, hq⟩ := parseDecimalLine_eq_complete_iff.1 hmap
  have hlen := length_of_drop hdrop
  rw [length_cons] at hlen
  exact ⟨text, rest, hdrop, hnum, hq, by omega⟩

theorem parseArguments_map (count : ℕ) :
    ∀ {position : UInt64},
      (Word.parseArguments data length eos limit count position).map (fun r => (r.1.map (Slice.read data), r.2.toNat)) =
        parseArguments data eos limit.toNat count position.toNat := by
  induction count with
  | zero =>
    intro position
    rfl
  | succ count ih =>
    intro position
    rw [Word.parseArguments, parseArguments]
    have hend : position ≥ length ↔ position.toNat ≥ data.length := by
      rw [ge_iff_le, UInt64.le_iff_toNat_le, hlength]
    by_cases hposition : position ≥ length
    · rw [if_pos hposition, if_pos (hend.1 hposition), incompleteOrError_map, hlength]
    have hbelow := hend.not.1 hposition
    have hnext : (position + 1).toNat = position.toNat + 1 := toNat_add_small (by
      change position.toNat + 1 < _
      omega)
    rw [if_neg hposition, if_neg hbelow]
    by_cases hmark : data.getD position.toNat 0 ≠ 36
    · rw [if_pos hmark, if_pos hmark]
      rfl
    rw [if_neg hmark, if_neg hmark, ← hnext]
    refine map_bind_of (parseDecimalLine_map hlength hfits) fun line hline => ?_
    obtain ⟨-, -, -, -, -, hle⟩ := parseDecimalLine_complete hlength hfits hline
    refine map_bind_of (parseBulk_map hlength hfits hle) fun bulk _ => ?_
    exact map_bind_of ih fun rest _ => rfl

end

end Map

theorem Input.length_toNat (input : Input) : input.bytes.length.toUInt64.toNat = input.bytes.length := by
  have hbeside := input.beside
  unfold sizeofRespRequest at hbeside
  rw [Nat.toUInt64, UInt64.toNat_ofNat', Nat.mod_eq_of_lt (by omega)]

theorem Input.fits (input : Input) : input.bytes.length + 2 < 2 ^ 64 := by
  have hbeside := input.beside
  unfold sizeofRespRequest at hbeside
  omega

/-- **No computation wraps**: the result is the one of the unbounded arithmetic. -/
theorem parse_map (input : Input) (eos : Bool) (limit : UInt64) :
    (Word.parseRequestWithLimit input.bytes eos limit).map (fun r => (r.1.map (Slice.read input.bytes), r.2.toNat)) =
      parseRequestWithLimit input.bytes eos limit.toNat := by
  have hlength := input.length_toNat
  have hfits := input.fits
  have hlimit : limit = 0 ↔ limit.toNat = 0 := by rw [← UInt64.toNat_inj, UInt64.toNat_zero]
  have hempty : input.bytes.length.toUInt64 = 0 ↔ input.bytes.length = 0 := by
    rw [← UInt64.toNat_inj, UInt64.toNat_zero, hlength]
  unfold Word.parseRequestWithLimit parseRequestWithLimit
  simp only [hlimit, hempty]
  split_ifs
  · rfl
  · rfl
  · rfl
  · rfl
  refine map_bind_of (parseDecimalLine_map hlength hfits) fun line hline => ?_
  have hzero : line.1 = 0 ↔ line.1.toNat = 0 := by rw [← UInt64.toNat_inj, UInt64.toNat_zero]
  have hmany : line.1 > respMaxArguments.toUInt64 ↔ line.1.toNat > respMaxArguments := by
    rw [gt_iff_lt, UInt64.lt_iff_toNat_lt]
    rfl
  simp only [hzero, hmany]
  split_ifs
  · rfl
  · exact parseArguments_map hlength hfits _

/-! ## Frames and their slices -/

attribute [ext] Bulk Frame

/-- the places of the payloads of arguments that stand at a position -/
def bulkSlices : ℕ → List Bulk → List (ℕ × ℕ)
  | _, [] => []
  | position, b :: bulks => (position + 1 + b.text.length + 2, b.payload.length) :: bulkSlices (position + b.bytes.length) bulks

/-- the places of the payloads of a frame at the start of an input -/
def Frame.slices (f : Frame) : List (ℕ × ℕ) := bulkSlices (1 + f.text.length + 2) f.bulks

theorem bulk_unique {b b' : Bulk} {x y : Bytes} (h : b.bytes ++ x = b'.bytes ++ y) : b = b' ∧ x = y := by
  have hbytes : b.text ++ 13 :: (10 :: (b.payload ++ 13 :: 10 :: x)) = b'.text ++ 13 :: (10 :: (b'.payload ++ 13 :: 10 :: y)) := by
    simpa [Bulk.bytes] using h
  obtain ⟨htext, hrest⟩ := numeral_unique b.numeral b'.numeral hbytes
  have hlen : b.payload.length = b'.payload.length := by
    have hvalue := b.numeral.2
    rw [htext, b'.numeral.2] at hvalue
    exact (Option.some.inj hvalue).symm
  rw [List.cons.injEq] at hrest
  obtain ⟨hpayload, hend⟩ := append_inj hrest.2 hlen
  exact ⟨Bulk.ext htext hpayload, by simpa using hend⟩

theorem bulks_unique : ∀ {bulks bulks' : List Bulk} {x y : Bytes}, bulks.length = bulks'.length →
    bulks.flatMap Bulk.bytes ++ x = bulks'.flatMap Bulk.bytes ++ y → bulks = bulks'
  | [], [], _, _, _, _ => rfl
  | b :: bulks, b' :: bulks', x, y, hlen, h => by
    rw [flatMap_cons, flatMap_cons, append_assoc, append_assoc] at h
    obtain ⟨rfl, hrest⟩ := bulk_unique h
    rw [bulks_unique (Nat.succ.inj hlen) hrest]

/-- an input starts with at most one frame -/
theorem frame_unique {f f' : Frame} {data : Bytes} (h : f.bytes <+: data) (h' : f'.bytes <+: data) : f = f' := by
  obtain ⟨x, rfl⟩ := h
  obtain ⟨y, h'⟩ := h'
  have hbytes : f'.text ++ 13 :: (10 :: (f'.bulks.flatMap Bulk.bytes ++ y)) =
      f.text ++ 13 :: (10 :: (f.bulks.flatMap Bulk.bytes ++ x)) := by
    simpa [Frame.bytes] using h'
  obtain ⟨htext, hrest⟩ := numeral_unique f'.numeral f.numeral hbytes
  have hlen : f'.bulks.length = f.bulks.length := by
    have hvalue := f'.numeral.2
    rw [htext, f.numeral.2] at hvalue
    exact (Option.some.inj hvalue).symm
  rw [List.cons.injEq] at hrest
  exact (Frame.ext htext (bulks_unique hlen hrest.2)).symm

section Slices

variable {data : Bytes} {length limit p : UInt64} {eos : Bool}

/-- a payload read in `size_t` is one of the input, and the slice points to it -/
theorem parseBulk_complete {position bulkLength q : UInt64} {slice : Slice} (hlength : length.toNat = data.length)
    (hfits : data.length + 2 < 2 ^ 64) (hpos : position.toNat ≤ data.length)
    (h : Word.parseBulk data length eos limit bulkLength position = .complete (slice, q)) :
    slice.bounds = (position.toNat, bulkLength.toNat) ∧ ∃ payload rest, data.drop position.toNat = payload ++ 13 :: 10 :: rest ∧
      payload.length = bulkLength.toNat ∧ q.toNat = position.toNat + bulkLength.toNat + 2 := by
  have hmap : parseBulk data eos limit.toNat bulkLength.toNat position.toNat = .complete (slice.read data, q.toNat) := by
    rw [← parseBulk_map hlength hfits hpos, h]
    rfl
  obtain ⟨rest, hdrop, hlen, hq, -⟩ := parseBulk_eq_complete_iff.1 hmap
  refine ⟨?_, slice.read data, rest, hdrop, hlen, hq⟩
  unfold Word.parseBulk Word.incompleteOrError at h
  simp only at h
  split_ifs at h
  cases h
  rfl

/-- the slices a complete parse has stored -/
theorem exists_bulks_of_slices (hlength : length.toNat = data.length) (hfits : data.length + 2 < 2 ^ 64) (count : ℕ) :
    ∀ {position : UInt64} {slices : List Slice},
      Word.parseArguments data length eos limit count position = .complete (slices, p) →
      ∃ (bulks : List Bulk) (rest : Bytes), data.drop position.toNat = bulks.flatMap Bulk.bytes ++ rest ∧ bulks.length = count ∧
        slices.map Slice.bounds = bulkSlices position.toNat bulks := by
  induction count with
  | zero =>
    intro position slices h
    cases h
    exact ⟨[], _, rfl, rfl, rfl⟩
  | succ count ih =>
    intro position slices h
    rw [Word.parseArguments, Word.incompleteOrError] at h
    split_ifs at h with hend _ hmark
    have hlt : position.toNat < data.length := by
      rw [← hlength]
      exact UInt64.lt_iff_toNat_lt.1 (UInt64.not_le.1 hend)
    have hnext : (position + 1).toNat = position.toNat + 1 := toNat_add_small (by
      change position.toNat + 1 < _
      omega)
    obtain ⟨⟨v, q⟩, hline, h⟩ := bind_eq_complete_iff.1 h
    obtain ⟨⟨slice, q'⟩, hbulk, h⟩ := bind_eq_complete_iff.1 h
    obtain ⟨⟨rest, p'⟩, hrest, h⟩ := bind_eq_complete_iff.1 h
    cases h
    obtain ⟨text, behind, hdrop, hnum, hq, hle⟩ := parseDecimalLine_complete hlength hfits hline
    obtain ⟨hbounds, payload, behind', hdrop', hlen, hq'⟩ := parseBulk_complete hlength hfits hle hbulk
    obtain ⟨bulks, tail, htail, rfl, hslices⟩ := ih hrest
    rw [hnext] at hdrop hq
    let b : Bulk := ⟨text, payload, hlen ▸ hnum⟩
    have hbehind : behind = payload ++ 13 :: 10 :: behind' := by
      rw [← hdrop']
      exact (drop_add_of_drop (text ++ [13, 10]) (by rw [hdrop]; simp) (by simp; omega)).symm
    have hbehind' : behind' = bulks.flatMap Bulk.bytes ++ tail := by
      rw [← htail]
      exact (drop_add_of_drop (payload ++ [13, 10]) (by rw [hdrop']; simp) (by simp; omega)).symm
    have hq'' : q'.toNat = position.toNat + b.bytes.length := by
      rw [Bulk.length_bytes]
      simp only [b]
      omega
    refine ⟨b :: bulks, tail, ?_, rfl, ?_⟩
    · have hcons : data.drop position.toNat = 36 :: data.drop (position.toNat + 1) := by
        rw [drop_eq_getElem_cons hlt, getElem_eq_getD 0, not_ne_iff.1 hmark]
      rw [hcons, hdrop, hbehind, hbehind', flatMap_cons]
      simp [b, Bulk.bytes]
    · rw [map_cons, hslices, hq'', hbounds, bulkSlices, hq]
      simp only [b, hlen]

end Slices

/-- the frame a complete parse has read, with its slices -/
theorem exists_frame_of_slices {input : Input} {eos : Bool} {limit p : UInt64} {slices : List Slice}
    (h : Word.parseRequestWithLimit input.bytes eos limit = .complete (slices, p)) :
    ∃ f : Frame, f.bytes <+: input.bytes ∧ f.bytes.length ≤ limit.toNat ∧ p.toNat = f.bytes.length ∧
      slices.map Slice.bounds = f.slices := by
  have hlength := input.length_toNat
  have hfits := input.fits
  have hmap : parseRequestWithLimit input.bytes eos limit.toNat = .complete (slices.map (Slice.read input.bytes), p.toNat) := by
    rw [← parse_map, h]
    rfl
  obtain ⟨f, hpre, hroom, -, -, hp⟩ := parse_eq_complete_iff.1 hmap
  refine ⟨f, hpre, hroom, hp.symm, ?_⟩
  unfold Word.parseRequestWithLimit at h
  simp only at h
  split_ifs at h
  obtain ⟨⟨count, q⟩, hline, h⟩ := bind_eq_complete_iff.1 h
  simp only at h
  split_ifs at h
  -- the line and the arguments read here are those of the frame
  obtain ⟨text, behind, hdrop, hnum, hq, -⟩ := parseDecimalLine_complete hlength hfits hline
  obtain ⟨bulks, rest, htail, hcount, hslices⟩ := exists_bulks_of_slices hlength hfits _ h
  obtain ⟨x, hdata⟩ := hpre
  have hframe : input.bytes.drop 1 = f.text ++ 13 :: (10 :: (f.bulks.flatMap Bulk.bytes ++ x)) := by
    rw [← hdata]
    simp [Frame.bytes]
  have hone : (1 : UInt64).toNat = 1 := rfl
  rw [hone] at hdrop hq
  obtain ⟨rfl, hbehind⟩ := numeral_unique hnum f.numeral (hdrop.symm.trans hframe)
  have hbulks : input.bytes.drop q.toNat = f.bulks.flatMap Bulk.bytes ++ x :=
    drop_add_of_drop (f.text ++ [13, 10]) (by rw [hframe]; simp) (by rw [hq]; simp; omega)
  have hlen : bulks.length = f.bulks.length := by
    have hvalue := hnum.2
    rw [f.numeral.2] at hvalue
    exact hcount.trans (Option.some.inj hvalue).symm
  rw [hslices, bulks_unique hlen (htail.symm.trans hbulks), hq]
  rfl

/-- **What is accepted.** In the arithmetic of `size_t`, for every input and every limit, a request is complete exactly when
the input starts with a frame no longer than the limit; the frame's length is what is consumed, and the slices stored are the
places of its payloads. No computation wraps: the result is the one of the unbounded arithmetic. -/
theorem parse_accepts_frames (input : Input) (eos : Bool) (limit : UInt64) :
    (∀ slices consumed, Word.parseRequestWithLimit input.bytes eos limit = .complete (slices, consumed) ↔
      ∃ f : Frame, f.bytes <+: input.bytes ∧ f.bytes.length ≤ limit.toNat ∧ consumed.toNat = f.bytes.length ∧
        slices.map Slice.bounds = f.slices) ∧
    (Word.parseRequestWithLimit input.bytes eos limit).map (fun r => (r.1.map (Slice.read input.bytes), r.2.toNat)) =
      parseRequestWithLimit input.bytes eos limit.toNat := by
  refine ⟨fun slices consumed => ⟨exists_frame_of_slices, ?_⟩, parse_map input eos limit⟩
  rintro ⟨f, hpre, hroom, hconsumed, hslices⟩
  have hsize : ∀ b ∈ f.bulks, b.payload.length ≤ sizeMax := by
    intro b hb
    have hle : b.bytes.length ≤ (f.bulks.flatMap Bulk.bytes).length := by
      rw [length_flatMap]
      exact single_le_sum (by simp) _ (mem_map_of_mem hb)
    have hbulk := b.length_bytes
    have hframe := f.length_bytes
    have hlimit := limit.toNat_lt
    unfold sizeMax
    omega
  have hmap : (Word.parseRequestWithLimit input.bytes eos limit).map _ = .complete (f.arguments, f.bytes.length) :=
    (parse_map input eos limit).trans (parse_eq_complete_iff.2 ⟨f, hpre, hroom, hsize, rfl, rfl⟩)
  cases hparse : Word.parseRequestWithLimit input.bytes eos limit with
  | error | incomplete =>
    rw [hparse] at hmap
    cases hmap
  | complete r =>
    obtain ⟨slices', consumed'⟩ := r
    obtain ⟨f', hpre', -, hconsumed', hslices'⟩ := exists_frame_of_slices hparse
    obtain rfl := frame_unique hpre hpre'
    have hinj : Function.Injective Slice.bounds := by
      rintro ⟨o, l⟩ ⟨o', l'⟩ h
      simp only [Slice.bounds, Prod.mk.injEq, UInt64.toNat_inj] at h
      rw [h.1, h.2]
    have hcons : consumed' = consumed := UInt64.toNat_inj.1 (hconsumed'.trans hconsumed.symm)
    have hsl : slices' = slices := hinj.list_map (hslices'.trans hslices.symm)
    rw [hcons, hsl]

end StoreSystem.Resp
