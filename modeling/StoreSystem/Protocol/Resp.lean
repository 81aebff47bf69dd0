/-
Model of the RESP request parser (`src/protocol/resp.c`), as the reactor uses it on its input buffer and `aof_replay_from` on
the log file, and of the encoder of requests (`encode_record` of `src/persistence/aof.c`).

The parser reads a buffer by index. What it says of a buffer that ends early depends on the limit: a buffer as long as the
limit must hold a whole request. A request stands in a stream as a `Frame`: the number of its arguments, then each argument
with its length, the numbers in decimal digits. `parse_frame` gives the result on every cut of a stream that starts with a
frame, `parse_encoded` on a stream that starts with the frame the encoder writes.
-/
import StoreSystem.Service.Command

namespace StoreSystem.Resp

open List Option

/-! ## Model -/

/-- `enum resp_parse_result`, with what a complete parse yields -/
inductive ParseResult (α : Type) where
  | error
  | incomplete
  | complete (value : α)
deriving DecidableEq

variable {α β : Type}

def ParseResult.bind : ParseResult α → (α → ParseResult β) → ParseResult β
  | .error, _ => .error
  | .incomplete, _ => .incomplete
  | .complete value, next => next value

def incompleteOrError (available : ℕ) (endOfStream : Bool) (maxFrameSize : ℕ) : ParseResult α :=
  if endOfStream ∨ available ≥ maxFrameSize then .error else .incomplete

/-- the loop of `parse_decimal_line` over the bytes from the cursor on: the cursor, the number and the digits at its end -/
def decimalLoop (maxFrameSize : ℕ) : Bytes → ℕ → ℕ → ℕ → Option (ℕ × ℕ × ℕ)
  | [], cursor, parsed, digits => some (cursor, parsed, digits)
  | c :: rest, cursor, parsed, digits =>
    if c = 13 then some (cursor, parsed, digits)
    else if c < 48 ∨ c > 57 then none
    else
      let digit := c.toNat - 48
      if parsed > (sizeMax - digit) / 10 then none
      else if cursor + 1 > maxFrameSize then none
      else decimalLoop maxFrameSize rest (cursor + 1) (parsed * 10 + digit) (digits + 1)

variable (data : Bytes) (endOfStream : Bool)

/-- `parse_decimal_line`: the number and the position behind the line -/
def parseDecimalLine (position : ℕ) (endOfStream : Bool) (maxFrameSize : ℕ) : ParseResult (ℕ × ℕ) :=
  match decimalLoop maxFrameSize (data.drop position) position 0 0 with
  | none => .error
  | some (cursor, parsed, digits) =>
    if cursor ≥ data.length then incompleteOrError data.length endOfStream maxFrameSize
    else if digits = 0 ∨ cursor + 1 ≥ data.length then
      if digits = 0 then .error else incompleteOrError data.length endOfStream maxFrameSize
    else if data.getD (cursor + 1) 0 ≠ 10 then .error
    else .complete (parsed, cursor + 2)

/-- the payload of a bulk string and the line end behind it -/
def parseBulk (maxFrameSize bulkLength position : ℕ) : ParseResult (Bytes × ℕ) :=
  if bulkLength > maxFrameSize ∨ position > maxFrameSize - bulkLength then .error
  else if data.length - position < bulkLength then incompleteOrError data.length endOfStream maxFrameSize
  else if position + bulkLength + 2 > data.length then incompleteOrError data.length endOfStream maxFrameSize
  else if position + bulkLength + 2 > maxFrameSize ∨ data.getD (position + bulkLength) 0 ≠ 13 ∨
      data.getD (position + bulkLength + 1) 0 ≠ 10 then .error
  else .complete ((data.drop position).take bulkLength, position + bulkLength + 2)

/-- the loop over the arguments -/
def parseArguments (data : Bytes) (endOfStream : Bool) (maxFrameSize : ℕ) : ℕ → ℕ → ParseResult (List Bytes × ℕ)
  | 0, position => .complete ([], position)
  | count + 1, position =>
    if position ≥ data.length then incompleteOrError data.length endOfStream maxFrameSize
    else if data.getD position 0 ≠ 36 then .error
    else
      (parseDecimalLine data (position + 1) endOfStream maxFrameSize).bind fun line =>
        (parseBulk data endOfStream maxFrameSize line.1 line.2).bind fun bulk =>
          (parseArguments data endOfStream maxFrameSize count bulk.2).bind fun rest =>
            .complete (bulk.1 :: rest.1, rest.2)

/-- `resp_parse_request_with_limit`: the arguments and the bytes consumed -/
def parseRequestWithLimit (maxFrameSize : ℕ) : ParseResult (List Bytes × ℕ) :=
  if maxFrameSize = 0 then .error
  else if data.length = 0 then if endOfStream then .error else .incomplete
  else if data.getD 0 0 ≠ 42 then .error
  else
    (parseDecimalLine data 1 endOfStream maxFrameSize).bind fun line =>
      if line.1 = 0 ∨ line.1 > respMaxArguments then .error
      else parseArguments data endOfStream maxFrameSize line.1 line.2

/-- `encode_unsigned`: a type byte, a number and the end of the line -/
def encodeUnsigned (mark : UInt8) (value : ℕ) : Bytes := mark :: (decimalText value ++ [13, 10])

/-- one argument of `encode_record` -/
def encodeArgument (argument : Bytes) : Bytes := encodeUnsigned 36 argument.length ++ (argument ++ [13, 10])

/-- the bytes `encode_record` writes -/
def encodeRequest (arguments : List Bytes) : Bytes := encodeUnsigned 42 arguments.length ++ arguments.flatMap encodeArgument

/-! ## Lines -/

theorem incompleteOrError_bind (available : ℕ) (endOfStream : Bool) (maxFrameSize : ℕ) (next : α → ParseResult β) :
    (incompleteOrError available endOfStream maxFrameSize).bind next = incompleteOrError available endOfStream maxFrameSize := by
  unfold incompleteOrError
  split_ifs <;> rfl

section Cut

variable {full text rest : Bytes} {position n limit v : ℕ} {eos : Bool}

theorem decimalLoop_digits (text tail : Bytes) : ∀ {cursor m v d : ℕ}, digitsValue m text = some v → v ≤ sizeMax →
    cursor + text.length ≤ limit →
    decimalLoop limit (text ++ tail) cursor m d = decimalLoop limit tail (cursor + text.length) v (d + text.length) := by
  induction text with
  | nil =>
    intro cursor m v d hv _ _
    cases hv
    rfl
  | cons c text ih =>
    intro cursor m v d hv hmax hroom
    rw [digitsValue] at hv
    split_ifs at hv with hc
    rw [length_cons] at hroom
    have hge := digitsValue_ge hv
    have h57 : c.toNat ≤ 57 := UInt8.le_iff_toNat_le.1 hc.2
    have hsmall : ¬ m > (sizeMax - (c.toNat - 48)) / 10 := by
      unfold sizeMax at hmax ⊢
      omega
    have hnotcr : c ≠ 13 := by
      rintro rfl
      exact absurd hc.1 (by decide)
    rw [cons_append, decimalLoop, if_neg hnotcr,
      if_neg (by rintro (h | h); exacts [absurd hc.1 (UInt8.not_le.2 h), absurd hc.2 (UInt8.not_le.2 h)])]
    simp only [if_neg hsmall]
    rw [if_neg (by omega), ih hv hmax (by omega), length_cons]
    congr 1 <;> omega

/-- the start of a number is a number, and not above it -/
theorem digitsValue_take {m : ℕ} (h : digitsValue m text = some v) (k : ℕ) : ∃ v', digitsValue m (text.take k) = some v' ∧ v' ≤ v := by
  rw [← take_append_drop k text, digitsValue_append] at h
  cases hv : digitsValue m (text.take k) with
  | none =>
    rw [hv] at h
    cases h
  | some v' =>
    rw [hv, bind_some] at h
    exact ⟨v', rfl, digitsValue_ge h⟩

theorem getD_take_of_drop (text : Bytes) {x : UInt8} {k : ℕ} (hdrop : full.drop position = text ++ x :: rest)
    (hk : k = position + text.length) (hn : k < n) : (full.take n).getD k 0 = x := by
  have hget : full[k]? = some x := by
    rw [hk, ← List.getElem?_drop, hdrop, List.getElem?_append_right le_rfl, Nat.sub_self]
    rfl
  rw [getD_eq_getElem?_getD, List.getElem?_take_of_lt hn, hget]
  rfl

/-- **A line with a number** in a buffer cut at `n`. -/
theorem parseDecimalLine_take (hdrop : full.drop position = text ++ 13 :: 10 :: rest) (hpos : position ≤ n) (hn : n ≤ full.length)
    (hne : text ≠ []) (hv : digitsValue 0 text = some v) (hmax : v ≤ sizeMax) (hroom : position + text.length + 2 ≤ limit) :
    parseDecimalLine (full.take n) position eos limit =
      if position + text.length + 2 ≤ n then .complete (v, position + text.length + 2) else incompleteOrError n eos limit := by
  have hlen : (full.take n).length = n := length_take_of_le hn
  have hdata : (full.take n).drop position = (text ++ 13 :: 10 :: rest).take (n - position) := by
    rw [← hdrop, drop_take]
  unfold parseDecimalLine
  rw [hdata, hlen]
  by_cases hcut : n - position ≤ text.length
  · -- the buffer ends in the number
    obtain ⟨v', hv', hle⟩ := digitsValue_take hv (n - position)
    have htake : (text ++ 13 :: 10 :: rest).take (n - position) = text.take (n - position) ++ [] := by
      rw [take_append_of_le_length hcut, append_nil]
    rw [htake, decimalLoop_digits _ _ hv' (le_trans hle hmax) (by rw [length_take]; omega), length_take,
      Nat.min_eq_left hcut]
    simp only [decimalLoop]
    rw [if_pos (by omega), if_neg (by omega)]
  · have htake : (text ++ 13 :: 10 :: rest).take (n - position) = text ++ 13 :: (10 :: rest).take (n - position - text.length - 1) := by
      rw [take_append, take_of_length_le (by omega)]
      congr 1
      rw [← take_succ_cons]
      congr 1
      omega
    have hdigits : 0 < text.length := length_pos_of_ne_nil hne
    rw [htake, decimalLoop_digits _ _ hv hmax (by omega)]
    simp only [decimalLoop, if_true, Nat.zero_add]
    rw [if_neg (by omega)]
    by_cases hline : position + text.length + 2 ≤ n
    · have hdrop' : full.drop position = (text ++ [13]) ++ 10 :: rest := by rw [hdrop]; simp
      have hlf : (full.take n).getD (position + text.length + 1) 0 = 10 :=
        getD_take_of_drop (text ++ [13]) hdrop' (by simp only [length_append, length_singleton]; omega) (by omega)
      rw [if_neg (by omega), hlf, if_neg (by simp), if_pos hline]
    · rw [if_pos (by omega), if_neg (by omega), if_neg hline]

/-- **A bulk string** in a buffer cut at `n`. -/
theorem parseBulk_take (hdrop : full.drop position = text ++ 13 :: 10 :: rest) (hpos : position ≤ n) (hn : n ≤ full.length)
    (hroom : position + text.length + 2 ≤ limit) :
    parseBulk (full.take n) eos limit text.length position =
      if position + text.length + 2 ≤ n then .complete (text, position + text.length + 2) else incompleteOrError n eos limit := by
  have hlen : (full.take n).length = n := length_take_of_le hn
  unfold parseBulk
  rw [hlen, if_neg (by omega)]
  by_cases hpayload : n - position < text.length
  · rw [if_pos hpayload, if_neg (by omega)]
  rw [if_neg hpayload]
  by_cases hline : position + text.length + 2 ≤ n
  · have hcr : (full.take n).getD (position + text.length) 0 = 13 := getD_take_of_drop text hdrop rfl (by omega)
    have hdrop' : full.drop position = (text ++ [13]) ++ 10 :: rest := by rw [hdrop]; simp
    have hlf : (full.take n).getD (position + text.length + 1) 0 = 10 :=
      getD_take_of_drop (text ++ [13]) hdrop' (by simp only [length_append, length_singleton]; omega) (by omega)
    have hbytes : ((full.take n).drop position).take text.length = text := by
      rw [drop_take, hdrop, take_take, Nat.min_eq_left (by omega), take_left']
      rfl
    rw [if_neg (by omega), hcr, hlf, if_neg (by simp; omega), hbytes, if_pos hline]
  · rw [if_pos (by omega), if_neg hline]

/-! ## Frames -/

/-- a nonempty string of decimal digits and its value; zeros may lead it -/
def Numeral (text : Bytes) (value : ℕ) : Prop := text ≠ [] ∧ digitsValue 0 text = some value

/-- an argument in a stream: the digits of its length, and its bytes -/
structure Bulk where
  text : Bytes
  payload : Bytes
  numeral : Numeral text payload.length

def Bulk.bytes (b : Bulk) : Bytes := 36 :: (b.text ++ 13 :: 10 :: (b.payload ++ [13, 10]))

/-- a request in a stream: the digits of the number of its arguments, and its arguments -/
structure Frame where
  text : Bytes
  bulks : List Bulk
  numeral : Numeral text bulks.length
  nonempty : bulks ≠ []
  few : bulks.length ≤ respMaxArguments

def Frame.bytes (f : Frame) : Bytes := 42 :: (f.text ++ 13 :: 10 :: f.bulks.flatMap Bulk.bytes)

def Frame.arguments (f : Frame) : List Bytes := f.bulks.map Bulk.payload

theorem Bulk.length_bytes (b : Bulk) : b.bytes.length = 1 + b.text.length + 2 + b.payload.length + 2 := by
  simp [Bulk.bytes]
  omega

theorem Frame.length_bytes (f : Frame) : f.bytes.length = 1 + f.text.length + 2 + (f.bulks.flatMap Bulk.bytes).length := by
  simp [Frame.bytes]
  omega

theorem drop_add_of_drop {xs zs : Bytes} (ys : Bytes) {k : ℕ} (h : xs.drop position = ys ++ zs) (hk : k = position + ys.length) :
    xs.drop k = zs := by
  rw [hk, ← drop_drop, h, drop_left]

/-- **The arguments** in a buffer cut at `n`. -/
theorem parseArguments_take (hn : n ≤ full.length) (bulks : List Bulk) (hsize : ∀ b ∈ bulks, b.payload.length ≤ sizeMax) :
    ∀ {position : ℕ}, full.drop position = bulks.flatMap Bulk.bytes ++ rest → position ≤ n →
      position + (bulks.flatMap Bulk.bytes).length ≤ limit →
      parseArguments (full.take n) eos limit bulks.length position =
        if position + (bulks.flatMap Bulk.bytes).length ≤ n then
          .complete (bulks.map Bulk.payload, position + (bulks.flatMap Bulk.bytes).length)
        else incompleteOrError n eos limit := by
  have hlen : (full.take n).length = n := length_take_of_le hn
  induction bulks with
  | nil =>
    intro position _ hpos _
    exact (if_pos hpos).symm
  | cons b bulks ih =>
    intro position hdrop hpos hroom
    replace ih := @ih fun b hb => hsize b (mem_cons_of_mem _ hb)
    rw [flatMap_cons, length_append, Bulk.length_bytes] at hroom ⊢
    generalize htail : bulks.flatMap Bulk.bytes = tail at hroom ih hdrop ⊢
    rw [flatMap_cons, htail] at hdrop
    rw [length_cons, parseArguments, hlen]
    by_cases hstart : position ≥ n
    · rw [if_pos hstart, if_neg (by omega)]
    -- the type byte, the line with the length, the payload
    have hline : full.drop (position + 1) = b.text ++ 13 :: 10 :: (b.payload ++ 13 :: 10 :: (tail ++ rest)) := by
      refine drop_add_of_drop [36] ?_ rfl
      rw [hdrop]
      simp [Bulk.bytes]
    have hmark : (full.take n).getD position 0 = 36 :=
      getD_take_of_drop [] (by rw [hdrop]; rfl) (Nat.add_zero _).symm (by omega)
    have hbulk : full.drop (position + 1 + b.text.length + 2) = b.payload ++ 13 :: 10 :: (tail ++ rest) :=
      drop_add_of_drop (b.text ++ [13, 10]) (by rw [hline]; simp) (by simp; omega)
    have hnext : full.drop (position + 1 + b.text.length + 2 + b.payload.length + 2) = tail ++ rest :=
      drop_add_of_drop (b.payload ++ [13, 10]) (by rw [hbulk]; simp) (by simp; omega)
    rw [if_neg hstart, hmark, if_neg (by simp),
      parseDecimalLine_take hline (by omega) hn b.numeral.1 b.numeral.2 (hsize b mem_cons_self) (by omega)]
    by_cases h1 : position + 1 + b.text.length + 2 ≤ n
    · rw [if_pos h1, ParseResult.bind, parseBulk_take hbulk (by omega) hn (by omega)]
      by_cases h2 : position + 1 + b.text.length + 2 + b.payload.length + 2 ≤ n
      · rw [if_pos h2, ParseResult.bind, ih hnext (by omega) (by omega)]
        by_cases h3 : position + 1 + b.text.length + 2 + b.payload.length + 2 + tail.length ≤ n
        · rw [if_pos h3, ParseResult.bind, if_pos (by omega), map_cons]
          congr 2
          omega
        · rw [if_neg h3, if_neg (by omega), incompleteOrError_bind]
      · rw [if_neg h2, if_neg (by omega), incompleteOrError_bind]
    · rw [if_neg h1, if_neg (by omega), incompleteOrError_bind]

/-- **A stream that starts with a frame**, cut anywhere: the request when it is all there. -/
theorem parse_frame (f : Frame) (hsize : ∀ b ∈ f.bulks, b.payload.length ≤ sizeMax) (hroom : f.bytes.length ≤ limit)
    (hn : n ≤ (f.bytes ++ rest).length) :
    parseRequestWithLimit ((f.bytes ++ rest).take n) eos limit =
      if f.bytes.length ≤ n then .complete (f.arguments, f.bytes.length) else incompleteOrError n eos limit := by
  have hlen : ((f.bytes ++ rest).take n).length = n := length_take_of_le hn
  have hsum := f.length_bytes
  have hpos : 0 < f.bulks.length := length_pos_of_ne_nil f.nonempty
  have hfew : f.bulks.length ≤ 128 := f.few
  unfold parseRequestWithLimit
  rw [if_neg (by omega), hlen]
  by_cases hzero : n = 0
  · have hshort : ¬ f.bytes.length ≤ n := by omega
    have hbelow : ¬ n ≥ limit := by omega
    rw [if_pos hzero, if_neg hshort]
    simp only [incompleteOrError, hbelow, or_false]
  have hmark : ((f.bytes ++ rest).take n).getD 0 0 = 42 :=
    getD_take_of_drop [] (show (f.bytes ++ rest).drop 0 = [] ++ 42 :: _ from rfl) rfl (by omega)
  have hline : (f.bytes ++ rest).drop 1 = f.text ++ 13 :: 10 :: (f.bulks.flatMap Bulk.bytes ++ rest) := by
    simp [Frame.bytes]
  have hargs : (f.bytes ++ rest).drop (1 + f.text.length + 2) = f.bulks.flatMap Bulk.bytes ++ rest :=
    drop_add_of_drop (f.text ++ [13, 10]) (by rw [hline]; simp) (by simp; omega)
  rw [if_neg hzero, hmark, if_neg (by simp),
    parseDecimalLine_take hline (by omega) hn f.numeral.1 f.numeral.2 (by unfold sizeMax; omega) (by omega)]
  by_cases h1 : 1 + f.text.length + 2 ≤ n
  · rw [if_pos h1, ParseResult.bind]
    simp only
    rw [if_neg (by unfold respMaxArguments; omega), parseArguments_take hn f.bulks hsize hargs h1 (by omega), ← hsum]
    rfl
  · rw [if_neg h1, if_neg (by omega), incompleteOrError_bind]

end Cut

/-! ## Encoded requests -/

theorem decimalText_ne_nil (value : ℕ) : decimalText value ≠ [] := digitsLoop_ne_nil 19 value []

theorem decimalText_value {value : ℕ} (h : value ≤ sizeMax) : digitsValue 0 (decimalText value) = some value :=
  digitsLoop_value 19 (lt_of_le_of_lt h (by decide)) []

theorem decimalText_numeral {value : ℕ} (h : value ≤ sizeMax) : Numeral (decimalText value) value :=
  ⟨decimalText_ne_nil value, decimalText_value h⟩

theorem length_encodeUnsigned (mark : UInt8) (value : ℕ) : (encodeUnsigned mark value).length = (decimalText value).length + 3 := by
  simp [encodeUnsigned]

theorem length_encodeArgument (argument : Bytes) :
    (encodeArgument argument).length = (decimalText argument.length).length + 3 + argument.length + 2 := by
  simp [encodeArgument, length_encodeUnsigned]
  omega

theorem exists_bulks (arguments : List Bytes) (hsize : ∀ argument ∈ arguments, argument.length ≤ sizeMax) :
    ∃ bulks : List Bulk, bulks.map Bulk.payload = arguments ∧ bulks.flatMap Bulk.bytes = arguments.flatMap encodeArgument := by
  induction arguments with
  | nil => exact ⟨[], rfl, rfl⟩
  | cons argument arguments ih =>
    obtain ⟨bulks, hpayloads, hbytes⟩ := ih fun a ha => hsize a (mem_cons_of_mem _ ha)
    refine ⟨⟨decimalText argument.length, argument, decimalText_numeral (hsize _ mem_cons_self)⟩ :: bulks, ?_, ?_⟩
    · rw [map_cons, hpayloads]
    · rw [flatMap_cons, flatMap_cons, hbytes]
      simp [Bulk.bytes, encodeArgument, encodeUnsigned]

/-- the encoder writes a frame -/
theorem exists_encoded {arguments : List Bytes} (hsome : arguments ≠ []) (hfew : arguments.length ≤ respMaxArguments)
    (hsize : ∀ argument ∈ arguments, argument.length ≤ sizeMax) :
    ∃ f : Frame, f.bytes = encodeRequest arguments ∧ f.arguments = arguments := by
  obtain ⟨bulks, hpayloads, hbytes⟩ := exists_bulks arguments hsize
  have hlength : bulks.length = arguments.length := by rw [← hpayloads, length_map]
  have hnumber : arguments.length ≤ sizeMax := le_trans hfew (by decide)
  refine ⟨⟨decimalText arguments.length, bulks, ?_, ?_, hlength ▸ hfew⟩, ?_, hpayloads⟩
  · rw [hlength]
    exact decimalText_numeral hnumber
  · rintro rfl
    exact hsome hpayloads.symm
  · simp only [Frame.bytes, encodeRequest, encodeUnsigned, hbytes, cons_append, append_assoc, nil_append]

/-- **A stream that starts with an encoded request**, cut anywhere: the request when it is all there, else incomplete. -/
theorem parse_encoded {arguments : List Bytes} {rest : Bytes} {n limit : ℕ} (hsome : arguments ≠ [])
    (hfew : arguments.length ≤ respMaxArguments) (hlimit : limit ≤ sizeMax) (hroom : (encodeRequest arguments).length ≤ limit)
    (hn : n ≤ (encodeRequest arguments ++ rest).length) :
    parseRequestWithLimit ((encodeRequest arguments ++ rest).take n) false limit =
      if (encodeRequest arguments).length ≤ n then .complete (arguments, (encodeRequest arguments).length) else .incomplete := by
  have hsize : ∀ argument ∈ arguments, argument.length ≤ sizeMax := by
    intro argument hmem
    have hle : (encodeArgument argument).length ≤ (arguments.flatMap encodeArgument).length := by
      rw [length_flatMap]
      exact single_le_sum (by simp) _ (List.mem_map_of_mem hmem)
    have hlen := length_encodeArgument argument
    simp only [encodeRequest, length_append] at hroom
    omega
  obtain ⟨f, hbytes, hargs⟩ := exists_encoded hsome hfew hsize
  have hbulks : ∀ b ∈ f.bulks, b.payload.length ≤ sizeMax := by
    intro b hb
    exact hsize _ (hargs ▸ List.mem_map_of_mem hb)
  rw [← hbytes] at hroom hn ⊢
  rw [parse_frame f hbulks hroom hn, hargs]
  by_cases hall : f.bytes.length ≤ n
  · rw [if_pos hall, if_pos hall]
  · rw [if_neg hall, if_neg hall, incompleteOrError, if_neg (by simp; omega)]

/-! ## Integers -/

/-- `resp_encode_integer` -/
def respEncodeInteger (capacity : ℕ) (value : Int64) : Option Bytes :=
  if capacity = 0 ∨ (value < 0 ∧ capacity < 2) then none
  else
    let magnitude : UInt64 := if value < 0 then (-(value + 1)).toUInt64 + 1 else value.toUInt64
    let digits := digitsLoop 20 magnitude.toNat []
    let text := if value < 0 then 45 :: digits else digits
    if capacity < 1 + text.length + 2 then none else some (58 :: (text ++ [13, 10]))

theorem toNat_toUInt64 {value : Int64} (h : 0 ≤ value.toInt) : (value.toUInt64.toNat : ℤ) = value.toInt := by
  rw [Int64.toNat_toUInt64_of_le (Int64.le_iff_toInt_le.2 h)]
  exact Int.toNat_of_nonneg h

/-- the magnitude of a negative number is computed without overflow, that of the least one too -/
theorem magnitude_neg {value : Int64} (h : value.toInt < 0) : (((-(value + 1)).toUInt64 + 1).toNat : ℤ) = -value.toInt := by
  have hmin := Int64.le_toInt value
  have hnext : (value + 1).toInt = value.toInt + 1 := by
    rw [Int64.toInt_add, Int64.toInt_one, Int.bmod_eq_of_le (by omega) (by omega)]
  have hneg : (-(value + 1)).toInt = -value.toInt - 1 := by
    rw [Int64.toInt_neg, hnext, Int.bmod_eq_of_le (by omega) (by omega)]
    omega
  have hrest := toNat_toUInt64 (show 0 ≤ (-(value + 1)).toInt by omega)
  rw [UInt64.toNat_add, UInt64.toNat_one, Nat.mod_eq_of_lt (by omega)]
  omega

/-- what `parse_int64` accepts: the digits of a number, perhaps behind a minus sign -/
def SignedNumeral (text : Bytes) (v : ℤ) : Prop :=
  ∃ digits n, Numeral digits n ∧ (text = digits ∧ v = n ∨ text = 45 :: digits ∧ v = -n)

theorem parseInt64_eq_some_iff (text : Bytes) (v : ℤ) :
    parseInt64 text = some v ↔ SignedNumeral text v ∧ -2 ^ 63 ≤ v ∧ v ≤ 2 ^ 63 - 1 := by
  rw [parseInt64_eq]
  constructor
  · intro h
    cases text with
    | nil => cases h
    | cons c rest =>
      rw [intValue] at h
      split_ifs at h with hc hrest
      · obtain ⟨n, hn, hv⟩ := bind_eq_some_iff.1 h
        split_ifs at hv with hle
        cases hv
        exact ⟨⟨rest, n, ⟨hrest, hn⟩, Or.inr ⟨by rw [hc], rfl⟩⟩, by omega, by omega⟩
      · obtain ⟨n, hn, hv⟩ := bind_eq_some_iff.1 h
        split_ifs at hv with hle
        cases hv
        exact ⟨⟨c :: rest, n, ⟨cons_ne_nil _ _, hn⟩, Or.inl ⟨rfl, rfl⟩⟩, by omega, by omega⟩
  · rintro ⟨⟨digits, n, hn, ⟨rfl, rfl⟩ | ⟨rfl, rfl⟩⟩, hmin, hmax⟩
    · cases text with
      | nil => exact absurd rfl hn.1
      | cons c rest =>
        -- a digit is no minus sign
        have hc : c ≠ 45 := by
          rintro rfl
          exact absurd hn.2 (by simp [digitsValue])
        rw [intValue, if_neg hc, hn.2, bind_some, if_pos (by omega)]
    · rw [intValue, if_pos rfl, if_neg hn.1, hn.2, bind_some, if_pos (by omega)]

/-- **The decimal codecs are exact.** `parse_int64` takes the decimal texts of the numbers of 64 bits with their sign, and
`parse_uint64_bytes` those without; what `resp_encode_integer` writes between the colon and the line end is read back. -/
theorem decimal_codecs_exact : (∀ text v, parseInt64 text = some v ↔ SignedNumeral text v ∧ -2 ^ 63 ≤ v ∧ v ≤ 2 ^ 63 - 1) ∧
      (∀ data v, parseUint64Bytes data = some v ↔ Numeral data v ∧ v ≤ 2 ^ 64 - 1) ∧
      ∀ value : Int64, ∃ text, parseInt64 text = some value.toInt ∧
        ∀ capacity, respEncodeInteger capacity value =
          if capacity < text.length + 3 then none else some (58 :: (text ++ [13, 10])) := by
  refine ⟨parseInt64_eq_some_iff, ?_, ?_⟩
  · intro data v
    rw [parseUint64Bytes_eq, Numeral]
    by_cases hnil : data = []
    · simp [hnil]
    · rw [if_neg hnil, bind_eq_some_iff]
      constructor
      · rintro ⟨n, hn, hv⟩
        split_ifs at hv with hle
        cases hv
        exact ⟨⟨hnil, hn⟩, hle⟩
      · rintro ⟨⟨_, hv⟩, hle⟩
        exact ⟨v, hv, if_pos hle⟩
  · intro value
    have hmin := Int64.le_toInt value
    have hmax := Int64.toInt_lt value
    have hnumeral : ∀ n : ℕ, n ≤ 2 ^ 63 → Numeral (digitsLoop 20 n []) n := fun n hn => decimalText_numeral (hn.trans (by decide))
    unfold respEncodeInteger
    by_cases hneg : value < 0
    · have hsign : value.toInt < 0 := Int64.lt_iff_toInt_lt.1 hneg
      have hmagnitude := magnitude_neg hsign
      simp only [hneg, if_true, true_and]
      generalize ((-(value + 1)).toUInt64 + 1).toNat = n at hmagnitude
      refine ⟨45 :: digitsLoop 20 n [], (parseInt64_eq_some_iff _ _).2 ⟨⟨_, n, hnumeral n (by omega), Or.inr ⟨rfl, by omega⟩⟩,
        hmin, by omega⟩, ?_⟩
      intro capacity
      rw [length_cons]
      split_ifs <;> first | rfl | omega
    · have hsign : 0 ≤ value.toInt := by
        rw [Int64.lt_iff_toInt_lt] at hneg
        simpa using hneg
      have hmagnitude := toNat_toUInt64 hsign
      simp only [hneg, if_false, false_and, or_false]
      generalize value.toUInt64.toNat = n at hmagnitude
      refine ⟨digitsLoop 20 n [], (parseInt64_eq_some_iff _ _).2 ⟨⟨_, n, hnumeral n (by omega), Or.inl ⟨rfl, by omega⟩⟩,
        hmin, by omega⟩, ?_⟩
      intro capacity
      split_ifs <;> first | rfl | omega

end StoreSystem.Resp
