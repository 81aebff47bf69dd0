/-
What the RESP request parser accepts, and how it reads a stream that arrives in chunks.

Results:
- `parse_eq_complete_iff`: a request is complete exactly when the buffer starts with a frame no longer than the limit;
- `parse_append`: more bytes change neither a request nor an error, although an error of the limit can come from another
  check: a number that reaches the limit may end behind it, and is refused later;
- `chunking_irrelevant`: a stream gives the same requests and the same first error in every division into chunks.
-/
import StoreSystem.Protocol.Resp

namespace StoreSystem.Resp

open List

/-! ## Lines -/

variable {α : Type}

section Line

variable {data more : Bytes} {position limit v p : ℕ} {eos : Bool}

/-- where the loop over the digits stops -/
theorem decimalLoop_some (xs : Bytes) : ∀ {cursor m d cursor' v d' : ℕ}, m ≤ sizeMax →
    decimalLoop limit xs cursor m d = some (cursor', v, d') →
    ∃ text tail, xs = text ++ tail ∧ digitsValue m text = some v ∧ v ≤ sizeMax ∧ cursor' = cursor + text.length ∧
      d' = d + text.length ∧ (tail = [] ∨ ∃ rest, tail = 13 :: rest) ∧ (text ≠ [] → cursor + text.length ≤ limit) := by
  induction xs with
  | nil =>
    intro cursor m d cursor' v d' hm h
    cases h
    exact ⟨[], [], rfl, rfl, hm, rfl, rfl, Or.inl rfl, fun h => absurd rfl h⟩
  | cons c xs ih =>
    intro cursor m d cursor' v d' hm h
    rw [decimalLoop] at h
    by_cases hcr : c = 13
    · rw [if_pos hcr] at h
      cases h
      exact ⟨[], c :: xs, rfl, rfl, hm, rfl, rfl, Or.inr ⟨xs, by rw [hcr]⟩, fun h => absurd rfl h⟩
    rw [if_neg hcr] at h
    simp only at h
    split_ifs at h with hdigit hbig hend
    have hle : m * 10 + (c.toNat - 48) ≤ sizeMax := by
      unfold sizeMax at hbig ⊢
      have hc := c.toNat_lt
      omega
    obtain ⟨text, tail, rfl, hv, hmax, hcursor, hd, htail, hlimit⟩ := ih hle h
    refine ⟨c :: text, tail, rfl, ?_, hmax, ?_, ?_, htail, fun _ => ?_⟩
    · rw [not_or, UInt8.not_lt, UInt8.not_lt] at hdigit
      rw [digitsValue, if_pos hdigit, hv]
    · rw [hcursor, length_cons]
      omega
    · rw [hd, length_cons]
      omega
    · rw [length_cons]
      by_cases hnil : text = []
      · subst hnil
        simp only [length_nil] at *
        omega
      · have := hlimit hnil
        omega

/-- a byte that is no digit, a number too large or a line too long is refused with any bytes behind it -/
theorem decimalLoop_none_append (xs ys : Bytes) : ∀ {cursor m d : ℕ}, decimalLoop limit xs cursor m d = none →
    decimalLoop limit (xs ++ ys) cursor m d = none := by
  induction xs with
  | nil =>
    intro cursor m d h
    cases h
  | cons c xs ih =>
    intro cursor m d h
    rw [decimalLoop] at h
    rw [cons_append, decimalLoop]
    simp only at h ⊢
    split_ifs at h ⊢ <;> first | rfl | exact ih h

theorem no_cr_of_digitsValue {text : Bytes} {m : ℕ} (h : digitsValue m text = some v) : (13 : UInt8) ∉ text := by
  induction text generalizing m with
  | nil => exact not_mem_nil
  | cons c text ih =>
    rw [digitsValue] at h
    split_ifs at h with hc
    rw [mem_cons, not_or]
    refine ⟨?_, ih h⟩
    rintro rfl
    exact absurd hc.1 (by decide)

/-- two numbers in front of a line end are the same -/
theorem numeral_unique {text text' x y : Bytes} {m m' : ℕ} (h : Numeral text m) (h' : Numeral text' m')
    (heq : text ++ 13 :: x = text' ++ 13 :: y) : text = text' ∧ x = y := by
  have hno := no_cr_of_digitsValue h.2
  have hno' := no_cr_of_digitsValue h'.2
  have htake : ∀ {t z : Bytes}, (13 : UInt8) ∉ t → (t ++ 13 :: z).takeWhile (· ≠ 13) = t := by
    intro t z ht
    rw [takeWhile_append_of_pos]
    · simp
    · intro c hc
      simp only [ne_eq, decide_not, Bool.not_eq_eq_eq_not, Bool.not_true, decide_eq_false_iff_not]
      rintro rfl
      exact ht hc
  have htext : text = text' := by rw [← htake hno, heq, htake hno']
  subst htext
  exact ⟨rfl, by simpa using heq⟩

variable {c : UInt8} {xs : Bytes}

theorem length_of_drop {ys : Bytes} (h : xs.drop position = ys ++ c :: more) :
    xs.length = position + ys.length + 1 + more.length := by
  have hlen := congrArg List.length h
  simp only [length_drop, length_append, length_cons] at hlen
  omega

theorem getD_of_drop (text : Bytes) {k : ℕ} (h : xs.drop position = text ++ c :: more)
    (hk : k = position + text.length) : xs.getD k 0 = c := by
  have hlen := length_of_drop h
  rw [← xs.take_length]
  exact getD_take_of_drop text h hk (by omega)

section Shape

variable {text tail : Bytes} (hv : digitsValue 0 text = some v) (hmax : v ≤ sizeMax)
  (hlimit : text ≠ [] → position + text.length ≤ limit)

include hv hmax hlimit

theorem decimalLoop_text (tail : Bytes) :
    decimalLoop limit (text ++ tail) position 0 0 = decimalLoop limit tail (position + text.length) v text.length := by
  by_cases hnil : text = []
  · subst hnil
    cases hv
    rfl
  · rw [decimalLoop_digits text tail hv hmax (hlimit hnil), Nat.zero_add]

/-- digits up to the end of the buffer -/
theorem parseDecimalLine_digits (hdrop : data.drop position = text) :
    parseDecimalLine data position eos limit = incompleteOrError data.length eos limit := by
  have hlen := congrArg List.length hdrop
  rw [length_drop] at hlen
  unfold parseDecimalLine
  rw [hdrop, ← text.append_nil, decimalLoop_text hv hmax hlimit, decimalLoop]
  simp only
  rw [if_pos (by omega)]

/-- digits up to a carriage return -/
theorem parseDecimalLine_cr (hdrop : data.drop position = text ++ 13 :: tail) :
    parseDecimalLine data position eos limit =
      if text = [] then .error
      else
        match tail.head? with
        | none => incompleteOrError data.length eos limit
        | some x => if x = 10 then .complete (v, position + text.length + 2) else .error := by
  have hlen := length_of_drop hdrop
  unfold parseDecimalLine
  rw [hdrop, decimalLoop_text hv hmax hlimit, decimalLoop, if_pos rfl]
  simp only
  rw [if_neg (by omega)]
  by_cases hnil : text = []
  · rw [if_pos hnil, hnil, if_pos (by simp), if_pos (by simp)]
  have hpos : text.length ≠ 0 := (length_pos_of_ne_nil hnil).ne'
  rw [if_neg hnil]
  cases tail with
  | nil =>
    rw [length_nil] at hlen
    rw [if_pos (by omega), if_neg hpos, List.head?_nil]
  | cons x rest =>
    have hx : data.getD (position + text.length + 1) 0 = x := by
      have hdrop' : data.drop position = (text ++ [13]) ++ x :: rest := by
        rw [hdrop, append_assoc, singleton_append]
      refine getD_of_drop (text ++ [13]) hdrop' ?_
      simp only [length_append, length_singleton]
      omega
    rw [length_cons] at hlen
    rw [if_neg (by omega), hx, List.head?_cons]
    by_cases hlf : x = 10
    · simp only [hlf, ne_eq, not_true_eq_false, if_false, if_true]
    · simp only [hlf, ne_eq, not_false_eq_true, if_true, if_false]

end Shape

/-- what stands at the position when the loop over the digits does not fail -/
theorem exists_shape (h : decimalLoop limit (data.drop position) position 0 0 ≠ none) :
    ∃ text v, digitsValue 0 text = some v ∧ v ≤ sizeMax ∧ (text ≠ [] → position + text.length ≤ limit) ∧
      (data.drop position = text ∨ ∃ tail, data.drop position = text ++ 13 :: tail) := by
  cases hloop : decimalLoop limit (data.drop position) position 0 0 with
  | none => exact absurd hloop h
  | some stop =>
    obtain ⟨text, tail, hdrop, hv, hmax, -, -, htail, hlimit⟩ := decimalLoop_some _ (Nat.zero_le _) hloop
    refine ⟨text, stop.2.1, hv, hmax, hlimit, ?_⟩
    rcases htail with rfl | ⟨rest, rfl⟩
    · exact Or.inl (by rw [hdrop, append_nil])
    · exact Or.inr ⟨rest, hdrop⟩

theorem parseDecimalLine_of_loop (h : decimalLoop limit (data.drop position) position 0 0 = none) :
    parseDecimalLine data position eos limit = .error := by
  rw [parseDecimalLine, h]

/-- **A line is read** when digits and a line end stand at the position, the digits within the limit. -/
theorem parseDecimalLine_eq_complete_iff :
    parseDecimalLine data position eos limit = .complete (v, p) ↔
      ∃ text rest, data.drop position = text ++ 13 :: 10 :: rest ∧ Numeral text v ∧ v ≤ sizeMax ∧
        position + text.length ≤ limit ∧ p = position + text.length + 2 := by
  constructor
  · intro h
    have hloop : decimalLoop limit (data.drop position) position 0 0 ≠ none := by
      intro hnone
      rw [parseDecimalLine_of_loop hnone] at h
      cases h
    obtain ⟨text, v', hv, hmax, hlimit, hdrop | ⟨tail, hdrop⟩⟩ := exists_shape hloop
    · rw [parseDecimalLine_digits hv hmax hlimit hdrop, incompleteOrError] at h
      split_ifs at h
    · rw [parseDecimalLine_cr hv hmax hlimit hdrop] at h
      split_ifs at h with hnil
      cases tail with
      | nil =>
        simp only [List.head?_nil, incompleteOrError] at h
        split_ifs at h
      | cons x rest =>
        simp only [List.head?_cons] at h
        split_ifs at h with hlf
        cases h
        subst hlf
        exact ⟨text, rest, hdrop, ⟨hnil, hv⟩, hmax, hlimit hnil, rfl⟩
  · rintro ⟨text, rest, hdrop, ⟨hne, hv⟩, hmax, hlimit, rfl⟩
    rw [parseDecimalLine_cr hv hmax (fun _ => hlimit) hdrop, if_neg hne]
    rfl

theorem drop_append_of_drop {ys : Bytes} (h : data.drop position = xs ++ c :: ys) :
    (data ++ more).drop position = xs ++ c :: (ys ++ more) := by
  have hlen := length_of_drop h
  rw [drop_append_of_le_length (by omega), h, append_assoc, cons_append]

theorem parseDecimalLine_append (h : parseDecimalLine data position eos limit = .complete (v, p)) :
    parseDecimalLine (data ++ more) position eos limit = .complete (v, p) := by
  obtain ⟨text, rest, hdrop, hnum, hmax, hlimit, rfl⟩ := parseDecimalLine_eq_complete_iff.1 h
  exact parseDecimalLine_eq_complete_iff.2 ⟨text, rest ++ more, drop_append_of_drop hdrop, hnum, hmax, hlimit, rfl⟩

/-- a buffer as long as the limit is never called incomplete -/
theorem incompleteOrError_full {available : ℕ} (h : limit ≤ available) :
    (incompleteOrError available eos limit : ParseResult α) = .error := by
  rw [incompleteOrError, if_pos (Or.inr h)]

theorem incompleteOrError_eq_error {available : ℕ}
    (h : (incompleteOrError available false limit : ParseResult α) = .error) : limit ≤ available := by
  by_contra hshort
  rw [incompleteOrError, if_neg (by simp; omega)] at h
  cases h

theorem parseDecimalLine_full (h : limit ≤ data.length) : parseDecimalLine data position eos limit ≠ .incomplete := by
  unfold parseDecimalLine
  split
  · simp
  · simp only [incompleteOrError_full h]
    split_ifs <;> simp

/-- **An error in a line** stays one, unless the line turns out to end behind the limit. -/
theorem parseDecimalLine_error_append (h : parseDecimalLine data position false limit = .error) :
    parseDecimalLine (data ++ more) position false limit = .error ∨
      ∃ v p, parseDecimalLine (data ++ more) position false limit = .complete (v, p) ∧ limit < p := by
  by_cases hloop : decimalLoop limit (data.drop position) position 0 0 = none
  · left
    refine parseDecimalLine_of_loop ?_
    rw [drop_append]
    exact decimalLoop_none_append _ _ hloop
  -- in a full buffer the longer line is refused or ends where its digits allow
  have hpast : limit ≤ data.length →
      (∀ text v rest, (data ++ more).drop position = text ++ 13 :: 10 :: rest → Numeral text v →
        data.length < position + text.length + 2) →
      parseDecimalLine (data ++ more) position false limit = .error ∨
        ∃ v p, parseDecimalLine (data ++ more) position false limit = .complete (v, p) ∧ limit < p := by
    intro hfull hends
    cases hmore : parseDecimalLine (data ++ more) position false limit with
    | error => exact Or.inl rfl
    | incomplete =>
      refine absurd hmore (parseDecimalLine_full ?_)
      rw [length_append]
      omega
    | complete line =>
      obtain ⟨text, rest, hdrop, hnum, -, -, hp⟩ := parseDecimalLine_eq_complete_iff.1 hmore
      have := hends text _ rest hdrop hnum
      exact Or.inr ⟨line.1, line.2, rfl, by omega⟩
  obtain ⟨text, v, hv, hmax, hlimit, hdrop | ⟨tail, hdrop⟩⟩ := exists_shape hloop
  · rw [parseDecimalLine_digits hv hmax hlimit hdrop] at h
    refine hpast (incompleteOrError_eq_error h) fun text' v' rest hdrop' hnum => ?_
    have hlen := congrArg List.length hdrop
    rw [length_drop] at hlen
    by_contra hshort
    have hlt : text'.length < text.length := by omega
    rw [drop_append, hdrop] at hdrop'
    have hcr : text[text'.length]? = some 13 := by
      rw [← List.getElem?_append_left hlt, hdrop', List.getElem?_append_right le_rfl, Nat.sub_self]
      rfl
    exact no_cr_of_digitsValue hv (mem_of_getElem? hcr)
  · rw [parseDecimalLine_cr hv hmax hlimit hdrop] at h
    have hdrop' : (data ++ more).drop position = text ++ 13 :: (tail ++ more) := drop_append_of_drop hdrop
    by_cases hnil : text = []
    · left
      rw [parseDecimalLine_cr hv hmax hlimit hdrop', if_pos hnil]
    rw [if_neg hnil] at h
    cases tail with
    | nil =>
      have hlen := length_of_drop hdrop
      rw [length_nil] at hlen
      refine hpast (incompleteOrError_eq_error h) fun text' v' rest hdrop'' hnum => ?_
      obtain ⟨rfl, -⟩ := numeral_unique hnum ⟨hnil, hv⟩ (hdrop''.symm.trans hdrop')
      omega
    | cons x rest =>
      left
      simp only [List.head?_cons] at h
      split_ifs at h with hlf
      rw [parseDecimalLine_cr hv hmax hlimit hdrop', if_neg hnil, cons_append, List.head?_cons]
      simp only [if_neg hlf]

end Line

/-! ## Requests -/

section Request

variable {data more payload : Bytes} {arguments : List Bytes} {position limit length count p : ℕ} {eos : Bool}

theorem parseBulk_eq_complete_iff :
    parseBulk data eos limit length position = .complete (payload, p) ↔
      ∃ rest, data.drop position = payload ++ 13 :: 10 :: rest ∧ payload.length = length ∧ p = position + length + 2 ∧ p ≤ limit := by
  constructor
  · intro h
    unfold parseBulk incompleteOrError at h
    split_ifs at h with hlimit hpayload _ hend _ hline
    cases h
    simp only [not_or, ne_eq, Decidable.not_not] at hline
    obtain ⟨hroom, hcr, hlf⟩ := hline
    have htake : ((data.drop position).take length).length = length := by
      rw [length_take, length_drop]
      omega
    refine ⟨data.drop (position + length + 2), ?_, htake, rfl, by omega⟩
    have hbehind : (data.drop position).drop length = 13 :: 10 :: data.drop (position + length + 2) := by
      rw [drop_drop, drop_eq_getElem_cons (by omega), drop_eq_getElem_cons (by omega), getElem_eq_getD 0,
        getElem_eq_getD 0, hcr, hlf]
    rw [← hbehind, take_append_drop]
  · rintro ⟨rest, hdrop, rfl, rfl, hlimit⟩
    have hlen := length_of_drop hdrop
    have hle : position ≤ data.length := by omega
    simp only [length_cons] at hlen
    rw [← data.take_length, parseBulk_take hdrop hle le_rfl hlimit, if_pos (by omega)]

variable {β : Type}

@[simp] theorem bind_error (next : α → ParseResult β) : (ParseResult.error : ParseResult α).bind next = .error := rfl

@[simp] theorem bind_incomplete (next : α → ParseResult β) :
    (ParseResult.incomplete : ParseResult α).bind next = .incomplete := rfl

@[simp] theorem bind_complete (a : α) (next : α → ParseResult β) : (ParseResult.complete a).bind next = next a := rfl

theorem bind_eq_complete_iff {x : ParseResult α} {next : α → ParseResult β} {r : β} :
    x.bind next = .complete r ↔ ∃ a, x = .complete a ∧ next a = .complete r := by
  cases x with
  | error => simp
  | incomplete => simp
  | complete a => simp

/-- the steps of a round of the loop over the arguments -/
theorem parseArguments_succ_iff :
    parseArguments data eos limit (count + 1) position = .complete (arguments, p) ↔
      position < data.length ∧ data.getD position 0 = 36 ∧ ∃ v q payload q' rest,
        parseDecimalLine data (position + 1) eos limit = .complete (v, q) ∧ parseBulk data eos limit v q = .complete (payload, q') ∧
        parseArguments data eos limit count q' = .complete (rest, p) ∧ arguments = payload :: rest := by
  rw [parseArguments]
  by_cases hend : position ≥ data.length
  · rw [if_pos hend, incompleteOrError]
    constructor
    · intro h
      split_ifs at h
    · rintro ⟨hlt, -⟩
      omega
  rw [if_neg hend]
  by_cases hmark : data.getD position 0 ≠ 36
  · rw [if_pos hmark]
    constructor
    · intro h
      cases h
    · rintro ⟨-, h, -⟩
      exact absurd h hmark
  rw [if_neg hmark]
  constructor
  · intro h
    obtain ⟨⟨v, q⟩, hline, h⟩ := bind_eq_complete_iff.1 h
    obtain ⟨⟨payload, q'⟩, hbulk, h⟩ := bind_eq_complete_iff.1 h
    obtain ⟨⟨rest, p'⟩, hrest, h⟩ := bind_eq_complete_iff.1 h
    cases h
    exact ⟨by omega, not_ne_iff.1 hmark, v, q, payload, q', rest, hline, hbulk, hrest, rfl⟩
  · rintro ⟨-, -, v, q, payload, q', rest, hline, hbulk, hrest, rfl⟩
    exact bind_eq_complete_iff.2 ⟨_, hline, bind_eq_complete_iff.2 ⟨_, hbulk, bind_eq_complete_iff.2 ⟨_, hrest, rfl⟩⟩⟩

/-- the arguments a complete parse has read -/
theorem exists_bulks_of_parse (count : ℕ) : ∀ {position : ℕ} {arguments : List Bytes},
    parseArguments data eos limit count position = .complete (arguments, p) →
    ∃ (bulks : List Bulk) (rest : Bytes), data.drop position = bulks.flatMap Bulk.bytes ++ rest ∧ bulks.length = count ∧
      bulks.map Bulk.payload = arguments ∧ p = position + (bulks.flatMap Bulk.bytes).length ∧
      (∀ b ∈ bulks, b.payload.length ≤ sizeMax) ∧ (bulks ≠ [] → p ≤ limit) := by
  induction count with
  | zero =>
    intro position arguments h
    cases h
    exact ⟨[], data.drop p, rfl, rfl, rfl, rfl, by simp, fun h => absurd rfl h⟩
  | succ count ih =>
    intro position arguments h
    obtain ⟨hlt, hmark, v, q, payload, q', rest, hline, hbulk, hrest, rfl⟩ := parseArguments_succ_iff.1 h
    obtain ⟨text, behind, hdrop, hnum, hmax, -, rfl⟩ := parseDecimalLine_eq_complete_iff.1 hline
    obtain ⟨behind', hdrop', rfl, rfl, hlimit⟩ := parseBulk_eq_complete_iff.1 hbulk
    obtain ⟨bulks, tail, htail, rfl, rfl, rfl, hsize, hroom⟩ := ih hrest
    let b : Bulk := ⟨text, payload, hnum⟩
    have hbehind : behind = payload ++ 13 :: 10 :: behind' := by
      rw [← hdrop']
      exact (drop_add_of_drop (text ++ [13, 10]) (by rw [hdrop]; simp) (by simp; omega)).symm
    have hbehind' : behind' = bulks.flatMap Bulk.bytes ++ tail := by
      rw [← htail]
      exact (drop_add_of_drop (payload ++ [13, 10]) (by rw [hdrop']; simp) (by simp; omega)).symm
    refine ⟨b :: bulks, tail, ?_, rfl, rfl, ?_, ?_, fun _ => ?_⟩
    · have hcons : data.drop position = 36 :: data.drop (position + 1) := by
        rw [drop_eq_getElem_cons hlt, getElem_eq_getD 0, hmark]
      rw [hcons, hdrop, hbehind, hbehind', flatMap_cons]
      simp [b, Bulk.bytes]
    · rw [flatMap_cons, length_append, Bulk.length_bytes]
      simp only [b]
      omega
    · intro b' hb'
      rcases mem_cons.1 hb' with rfl | hb'
      · exact hmax
      · exact hsize b' hb'
    · by_cases hnil : bulks = []
      · subst hnil
        exact hlimit
      · exact hroom hnil

/-- the steps of a complete parse -/
theorem parseRequestWithLimit_eq_complete_iff :
    parseRequestWithLimit data eos limit = .complete (arguments, p) ↔
      limit ≠ 0 ∧ data ≠ [] ∧ data.getD 0 0 = 42 ∧ ∃ count q, parseDecimalLine data 1 eos limit = .complete (count, q) ∧
        count ≠ 0 ∧ count ≤ respMaxArguments ∧ parseArguments data eos limit count q = .complete (arguments, p) := by
  unfold parseRequestWithLimit
  by_cases hlimit : limit = 0
  · simp [hlimit]
  rw [if_neg hlimit]
  by_cases hnil : data = []
  · subst hnil
    simp only [length_nil, if_true]
    constructor
    · intro h
      split_ifs at h
    · rintro ⟨-, h, -⟩
      exact absurd rfl h
  rw [if_neg (by simpa using hnil)]
  by_cases hmark : data.getD 0 0 ≠ 42
  · rw [if_pos hmark]
    constructor
    · intro h
      cases h
    · rintro ⟨-, -, h, -⟩
      exact absurd h hmark
  rw [if_neg hmark, bind_eq_complete_iff]
  constructor
  · rintro ⟨⟨count, q⟩, hline, h⟩
    simp only at h
    split_ifs at h with hcount
    rw [not_or, not_lt] at hcount
    exact ⟨hlimit, hnil, not_ne_iff.1 hmark, count, q, hline, hcount.1, hcount.2, h⟩
  · rintro ⟨-, -, -, count, q, hline, hzero, hfew, h⟩
    refine ⟨(count, q), hline, ?_⟩
    simp only
    rw [if_neg (by rw [not_or, not_lt]; exact ⟨hzero, hfew⟩), h]

/-- **What is accepted**: a buffer that starts with a frame within the limit, with that frame's arguments and length. -/
theorem parse_eq_complete_iff :
    parseRequestWithLimit data eos limit = .complete (arguments, p) ↔
      ∃ f : Frame, f.bytes <+: data ∧ f.bytes.length ≤ limit ∧ (∀ b ∈ f.bulks, b.payload.length ≤ sizeMax) ∧
        f.arguments = arguments ∧ f.bytes.length = p := by
  constructor
  · intro h
    obtain ⟨-, hnil, hmark, count, q, hline, hzero, hfew, hargs⟩ := parseRequestWithLimit_eq_complete_iff.1 h
    obtain ⟨text, behind, hdrop, hnum, -, -, rfl⟩ := parseDecimalLine_eq_complete_iff.1 hline
    obtain ⟨bulks, rest, htail, rfl, rfl, rfl, hsize, hroom⟩ := exists_bulks_of_parse count hargs
    have hne : bulks ≠ [] := by
      rintro rfl
      exact hzero rfl
    have hbehind : behind = bulks.flatMap Bulk.bytes ++ rest := by
      rw [← htail]
      exact (drop_add_of_drop (text ++ [13, 10]) (by rw [hdrop]; simp) (by simp; omega)).symm
    have hdata : data = 42 :: data.drop 1 := by
      cases data with
      | nil => exact absurd rfl hnil
      | cons c data =>
        have hc : c = 42 := hmark
        rw [hc]
        rfl
    let f : Frame := ⟨text, bulks, hnum, hne, hfew⟩
    have hlength := f.length_bytes
    refine ⟨f, ⟨rest, ?_⟩, ?_, hsize, rfl, hlength⟩
    · rw [hdata, hdrop, hbehind]
      simp [f, Frame.bytes]
    · rw [hlength]
      exact hroom hne
  · rintro ⟨f, ⟨rest, rfl⟩, hroom, hsize, rfl, rfl⟩
    rw [← (f.bytes ++ rest).take_length, parse_frame f hsize hroom le_rfl, if_pos (by simp)]

/-! ## More bytes -/

theorem getD_append_left {k : ℕ} (h : k < data.length) : (data ++ more).getD k 0 = data.getD k 0 := by
  rw [getD_eq_getElem?_getD, getD_eq_getElem?_getD, List.getElem?_append_left h]

theorem parseBulk_append (h : parseBulk data false limit length position ≠ .incomplete) :
    parseBulk (data ++ more) false limit length position = parseBulk data false limit length position := by
  cases hbulk : parseBulk data false limit length position with
  | incomplete => exact absurd hbulk h
  | complete bulk =>
    obtain ⟨rest, hdrop, hlength, hp, hlimit⟩ := parseBulk_eq_complete_iff.1 hbulk
    exact parseBulk_eq_complete_iff.2 ⟨rest ++ more, drop_append_of_drop hdrop, hlength, hp, hlimit⟩
  | error =>
    unfold parseBulk at hbulk ⊢
    by_cases hlimit : length > limit ∨ position > limit - length
    · rw [if_pos hlimit]
    rw [if_neg hlimit] at hbulk ⊢
    rw [not_or] at hlimit
    rw [length_append]
    by_cases hpayload : data.length - position < length
    · -- the payload fits the limit, so a full buffer holds it
      rw [if_pos hpayload] at hbulk
      have := incompleteOrError_eq_error hbulk
      omega
    rw [if_neg hpayload] at hbulk
    rw [if_neg (by omega)]
    by_cases hline : position + length + 2 > data.length
    · rw [if_pos hline] at hbulk
      have hfull := incompleteOrError_eq_error hbulk
      rw [incompleteOrError_full (by omega)]
      split_ifs with h1 h2
      · rfl
      · rfl
      · omega
    · rw [if_neg hline] at hbulk
      rw [if_neg (by omega), getD_append_left (by omega), getD_append_left (by omega)]
      split_ifs at hbulk ⊢
      rfl

/-- a line that starts behind the limit has no payload within it -/
theorem parseBulk_past (h : limit < position) : parseBulk data eos limit length position = .error := by
  rw [parseBulk, if_pos (by omega)]

theorem parseArguments_past (hfull : limit ≤ data.length) (hpos : limit ≤ position) :
    parseArguments data eos limit (count + 1) position = .error := by
  rw [parseArguments, incompleteOrError_full hfull]
  by_cases hend : position ≥ data.length
  · rw [if_pos hend]
  rw [if_neg hend]
  by_cases hmark : data.getD position 0 ≠ 36
  · rw [if_pos hmark]
  rw [if_neg hmark]
  cases hline : parseDecimalLine data (position + 1) eos limit with
  | error => rfl
  | incomplete => exact absurd hline (parseDecimalLine_full hfull)
  | complete line =>
    obtain ⟨text, rest, -, -, -, -, hq⟩ := parseDecimalLine_eq_complete_iff.1 hline
    rw [bind_complete, parseBulk_past (by omega)]
    rfl

/-- two steps in a row, each of them final unless it is incomplete -/
theorem bind_stable {x x' : ParseResult α} {next next' : α → ParseResult β} (h : x.bind next ≠ .incomplete)
    (hx : x ≠ .incomplete → x' = x) (hnext : ∀ a, next a ≠ .incomplete → next' a = next a) : x'.bind next' = x.bind next := by
  cases x with
  | incomplete => exact absurd rfl h
  | error =>
    rw [hx (by simp)]
    rfl
  | complete a =>
    rw [hx (by simp)]
    exact hnext a h

theorem parseArguments_append (count : ℕ) : ∀ {position : ℕ}, parseArguments data false limit count position ≠ .incomplete →
    parseArguments (data ++ more) false limit count position = parseArguments data false limit count position := by
  induction count with
  | zero =>
    intro position _
    rfl
  | succ count ih =>
    intro position h
    by_cases hend : position ≥ data.length
    · rw [parseArguments, if_pos hend] at h
      have hfull : limit ≤ data.length := by
        by_contra hshort
        rw [incompleteOrError, if_neg (by simp; omega)] at h
        exact h rfl
      have herror : parseArguments data false limit (count + 1) position = .error := by
        rw [parseArguments, if_pos hend, incompleteOrError_full hfull]
      rw [herror]
      exact parseArguments_past (by rw [length_append]; omega) (by omega)
    rw [parseArguments, if_neg hend] at h
    rw [parseArguments, parseArguments, if_neg hend, if_neg (by rw [length_append]; omega), getD_append_left (by omega)]
    by_cases hmark : data.getD position 0 ≠ 36
    · rw [if_pos hmark, if_pos hmark]
    rw [if_neg hmark] at h ⊢
    rw [if_neg hmark]
    cases hline : parseDecimalLine data (position + 1) false limit with
    | incomplete =>
      rw [hline] at h
      exact absurd rfl h
    | error =>
      rcases parseDecimalLine_error_append hline with herror | ⟨v, q, hlate, hq⟩
      · rw [herror]
        rfl
      · rw [hlate, bind_complete, parseBulk_past hq]
        rfl
    | complete line =>
      rw [hline, bind_complete] at h
      rw [parseDecimalLine_append hline, bind_complete, bind_complete]
      refine bind_stable h (fun hbulk => parseBulk_append hbulk) fun bulk hrest => ?_
      exact bind_stable hrest (fun h => ih h) fun _ _ => rfl

/-- **More bytes change neither a request nor an error.** -/
theorem parse_append (h : parseRequestWithLimit data false limit ≠ .incomplete) :
    parseRequestWithLimit (data ++ more) false limit = parseRequestWithLimit data false limit := by
  unfold parseRequestWithLimit at h ⊢
  by_cases hlimit : limit = 0
  · rw [if_pos hlimit, if_pos hlimit]
  rw [if_neg hlimit] at h ⊢
  rw [if_neg hlimit]
  by_cases hnil : data.length = 0
  · rw [if_pos hnil] at h
    exact absurd rfl h
  rw [if_neg hnil] at h ⊢
  rw [if_neg (by rw [length_append]; omega), getD_append_left (by omega)]
  by_cases hmark : data.getD 0 0 ≠ 42
  · rw [if_pos hmark, if_pos hmark]
  rw [if_neg hmark] at h ⊢
  rw [if_neg hmark]
  cases hline : parseDecimalLine data 1 false limit with
  | incomplete =>
    rw [hline] at h
    exact absurd rfl h
  | error =>
    rcases parseDecimalLine_error_append hline with herror | ⟨v, q, hlate, hq⟩
    · rw [herror]
      rfl
    · obtain ⟨text, rest, hdrop, -, -, -, rfl⟩ := parseDecimalLine_eq_complete_iff.1 hlate
      have hlen := length_of_drop hdrop
      rw [length_cons] at hlen
      rw [hlate, bind_complete, bind_error]
      simp only
      split_ifs with hcount
      · rfl
      · obtain ⟨count, rfl⟩ := Nat.exists_eq_succ_of_ne_zero (not_or.1 hcount).1
        exact parseArguments_past (by omega) (by omega)
  | complete line =>
    rw [hline, bind_complete] at h
    rw [parseDecimalLine_append hline, bind_complete, bind_complete]
    simp only at h ⊢
    split_ifs at h ⊢ with hcount
    · rfl
    · exact parseArguments_append _ h

/-- a frame cut short is incomplete -/
theorem parse_prefix {p : Bytes} {r : List Bytes × ℕ} (h : parseRequestWithLimit data eos limit = .complete r)
    (hcut : p <+: data.take r.2) (hne : p ≠ data.take r.2) : parseRequestWithLimit p false limit = .incomplete := by
  obtain ⟨f, ⟨rest, rfl⟩, hroom, hsize, -, hlength⟩ := parse_eq_complete_iff.1 h
  rw [← hlength, take_left'  rfl] at hcut hne
  have hlt : p.length < f.bytes.length :=
    lt_of_le_of_ne hcut.length_le fun heq => hne (hcut.eq_of_length heq)
  have hparse : parseRequestWithLimit ((f.bytes ++ []).take p.length) false limit = _ :=
    parse_frame f hsize hroom (by rw [append_nil]; omega)
  rw [append_nil, ← prefix_iff_eq_take.1 hcut, if_neg (by omega), incompleteOrError, if_neg (by simp; omega)] at hparse
  exact hparse

end Request

/-! ## Streams in chunks -/

/-- the input of a connection, the requests read so far, and whether the stream was refused -/
structure Session where
  buffer : Bytes
  requests : List (List Bytes)
  refused : Bool
deriving DecidableEq

def Session.start : Session := ⟨[], [], false⟩

/-- parse and consume until the buffer is empty or ends in the middle of a request; a request has at least one byte -/
def drain (limit : ℕ) : ℕ → Session → Session
  | 0, s => s
  | fuel + 1, s =>
    if s.buffer = [] then s
    else
      match parseRequestWithLimit s.buffer false limit with
      | .incomplete => s
      | .error => { s with refused := true }
      | .complete (arguments, consumed) =>
        drain limit fuel ⟨s.buffer.drop consumed, s.requests ++ [arguments], s.refused⟩

/-- a chunk arrives; nothing is read after an error -/
def receive (limit : ℕ) (s : Session) (chunk : Bytes) : Session :=
  if s.refused then s else drain limit (s.buffer ++ chunk).length { s with buffer := s.buffer ++ chunk }

/-- two sessions have read the same and go on in the same way -/
def Session.Same (s t : Session) : Prop :=
  s.requests = t.requests ∧ s.refused = t.refused ∧ (s.refused = false → s.buffer = t.buffer)

section Chunks

variable {limit : ℕ} {s t : Session}

theorem Session.Same.refl (s : Session) : s.Same s := ⟨rfl, rfl, fun _ => rfl⟩

theorem consumed_pos {data : Bytes} {eos : Bool} {arguments : List Bytes} {n : ℕ}
    (h : parseRequestWithLimit data eos limit = .complete (arguments, n)) : 0 < n ∧ n ≤ data.length := by
  obtain ⟨f, hpre, -, -, -, rfl⟩ := parse_eq_complete_iff.1 h
  exact ⟨by rw [f.length_bytes]; omega, hpre.length_le⟩

/-- the bytes of the buffer are fuel enough -/
theorem drain_fuel (fuel : ℕ) : ∀ {s : Session} {fuel' : ℕ}, s.buffer.length ≤ fuel → s.buffer.length ≤ fuel' →
    drain limit fuel s = drain limit fuel' s := by
  induction fuel with
  | zero =>
    intro s fuel' h _
    have hnil : s.buffer = [] := length_eq_zero_iff.1 (Nat.le_zero.1 h)
    cases fuel' with
    | zero => rfl
    | succ fuel' => exact (if_pos hnil).symm
  | succ fuel ih =>
    intro s fuel' h h'
    by_cases hnil : s.buffer = []
    · cases fuel' with
      | zero => exact if_pos hnil
      | succ fuel' => exact (if_pos hnil).trans (if_pos hnil).symm
    obtain ⟨fuel', rfl⟩ := Nat.exists_eq_succ_of_ne_zero (show fuel' ≠ 0 by
      have := length_pos_of_ne_nil hnil
      omega)
    rw [drain, drain, if_neg hnil, if_neg hnil]
    cases hparse : parseRequestWithLimit s.buffer false limit with
    | incomplete => rfl
    | error => rfl
    | complete r =>
      obtain ⟨hpos, hle⟩ := consumed_pos hparse
      refine ih ?_ ?_
      · simp only [length_drop]
        omega
      · simp only [length_drop]
        omega

/-- bytes that arrive behind what is drained already -/
theorem drain_append (more : Bytes) (fuel : ℕ) : ∀ {s : Session}, s.buffer.length ≤ fuel → s.refused = false →
    (receive limit (drain limit fuel s) more).Same
      (drain limit (s.buffer ++ more).length { s with buffer := s.buffer ++ more }) := by
  induction fuel with
  | zero =>
    intro s h hopen
    rw [drain, receive, if_neg (by simp [hopen])]
    exact .refl _
  | succ fuel ih =>
    intro s h hopen
    by_cases hnil : s.buffer = []
    · rw [drain, if_pos hnil, receive, if_neg (by simp [hopen])]
      exact .refl _
    have hlong : s.buffer ++ more ≠ [] := append_ne_nil_of_left_ne_nil hnil _
    rw [drain, if_neg hnil]
    cases hparse : parseRequestWithLimit s.buffer false limit with
    | incomplete =>
      rw [receive, if_neg (by simp [hopen])]
      exact .refl _
    | error =>
      have hmore : parseRequestWithLimit (s.buffer ++ more) false limit = .error := by
        rw [parse_append (by rw [hparse]; simp), hparse]
      obtain ⟨n, hn⟩ := Nat.exists_eq_succ_of_ne_zero (length_pos_of_ne_nil hlong).ne'
      rw [receive, if_pos rfl, hn, drain, if_neg hlong, hmore]
      exact ⟨rfl, rfl, fun h => by simp at h⟩
    | complete r =>
      obtain ⟨arguments, consumed⟩ := r
      obtain ⟨hpos, hle⟩ := consumed_pos hparse
      have hmore : parseRequestWithLimit (s.buffer ++ more) false limit = .complete (arguments, consumed) := by
        rw [parse_append (by rw [hparse]; simp), hparse]
      obtain ⟨n, hn⟩ := Nat.exists_eq_succ_of_ne_zero (length_pos_of_ne_nil hlong).ne'
      rw [hn, drain, if_neg hlong, hmore]
      simp only
      rw [drop_append_of_le_length hle]
      have hlen : (s.buffer.drop consumed ++ more).length ≤ n := by
        rw [length_append] at hn ⊢
        rw [length_drop]
        omega
      rw [drain_fuel n hlen le_rfl]
      refine ih ?_ hopen
      simp only [length_drop]
      omega

/-- **Two chunks are read as one.** -/
theorem receive_append (s : Session) (chunk more : Bytes) :
    (receive limit (receive limit s chunk) more).Same (receive limit s (chunk ++ more)) := by
  by_cases hrefused : s.refused = true
  · have hstays : ∀ chunk, receive limit s chunk = s := fun chunk => by rw [receive, if_pos hrefused]
    rw [hstays, hstays, hstays]
    exact .refl s
  have hopen : s.refused = false := by simpa using hrefused
  have happend : (receive limit (drain limit _ { s with buffer := s.buffer ++ chunk }) more).Same _ :=
    drain_append more (s.buffer ++ chunk).length le_rfl hopen
  rw [receive.eq_def limit s chunk, receive.eq_def limit s (chunk ++ more), if_neg hrefused, if_neg hrefused]
  simpa only [append_assoc] using happend

/-- what comes next depends only on what was read -/
theorem Session.Same.receive (h : s.Same t) (chunk : Bytes) : (receive limit s chunk).Same (receive limit t chunk) := by
  obtain ⟨hrequests, hrefused, hbuffer⟩ := h
  cases hs : s.refused with
  | true =>
    rw [Resp.receive, if_pos hs, Resp.receive, if_pos (hrefused ▸ hs)]
    exact ⟨hrequests, hrefused, hbuffer⟩
  | false =>
    have heq : s = t := by
      cases s
      cases t
      simp only at hrequests hrefused hbuffer hs
      rw [hrequests, hrefused, hbuffer hs]
    rw [heq]
    exact .refl _

theorem Session.Same.trans {u : Session} (h : s.Same t) (h' : t.Same u) : s.Same u :=
  ⟨h.1.trans h'.1, h.2.1.trans h'.2.1, fun hs => (h.2.2 hs).trans (h'.2.2 (h.2.1 ▸ hs))⟩

theorem foldl_receive (chunks : List Bytes) : ∀ {s t : Session} {bytes : Bytes}, s.Same (receive limit t bytes) →
    (chunks.foldl (receive limit) s).Same (receive limit t (bytes ++ chunks.flatten)) := by
  induction chunks with
  | nil =>
    intro s t bytes h
    rw [foldl_nil, flatten_nil, append_nil]
    exact h
  | cons chunk chunks ih =>
    intro s t bytes h
    rw [foldl_cons, flatten_cons, ← append_assoc]
    exact ih ((h.receive chunk).trans (receive_append t bytes chunk))

end Chunks

/-- **Chunks do not matter.** A request or an error that is found stays when bytes are added, a request that is cut short is
incomplete, and so a stream gives the same requests, and is refused after the same of them, however it is divided. -/
theorem chunking_irrelevant (limit : ℕ) : (∀ data more, parseRequestWithLimit data false limit ≠ .incomplete →
      parseRequestWithLimit (data ++ more) false limit = parseRequestWithLimit data false limit) ∧
    (∀ data arguments consumed, parseRequestWithLimit data false limit = .complete (arguments, consumed) →
      ∀ p, p <+: data.take consumed → p ≠ data.take consumed → parseRequestWithLimit p false limit = .incomplete) ∧
    ∀ chunks : List Bytes, (chunks.foldl (receive limit) .start).requests = (receive limit .start chunks.flatten).requests ∧
      (chunks.foldl (receive limit) .start).refused = (receive limit .start chunks.flatten).refused := by
  refine ⟨fun data more h => parse_append h, fun data arguments consumed h p hcut hne => parse_prefix h hcut hne, fun chunks => ?_⟩
  have hnone : Session.start.Same (receive limit .start []) := .refl _
  obtain ⟨hrequests, hrefused, -⟩ := foldl_receive chunks hnone
  exact ⟨hrequests, hrefused⟩

end StoreSystem.Resp
