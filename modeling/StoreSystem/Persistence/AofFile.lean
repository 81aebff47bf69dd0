/-
Model of the AOF's file format (`src/persistence/aof.c`): the encoding of a record, and the replay of a file that a crash may
have cut.

`aof_replay_from` parses records from an offset on and hands each to a callback. The first incomplete record ends the replay
and the file is truncated there; a parse error, or a record the callback refuses, fails it. System calls succeed.

- `encodedSize_spec`: what `encoded_size` accepts is what the parser reads back.
- `replayLoop_cut`, `aofReplayFrom_cut`: the loop over a cut log hands over the whole records, in order.
- `replay_of_cut_log`: any cut of a log is replayed up to the last whole record, and truncated to it.
-/
import StoreSystem.Protocol.Resp

namespace StoreSystem.Aof

open List Option Resp

variable {σ : Type}

/-! ## Model -/

/-- `AOF_MAX_RECORD_SIZE` -/
def aofMaxRecordSize : ℕ := respMaxFrameSize + 1024

def checkedAdd (total amount : ℕ) : Option ℕ := if amount > sizeMax - total then none else some (total + amount)

/-- the loop of `encoded_size` over the arguments -/
def sizeLoop : List Bytes → ℕ → Option ℕ
  | [], total => some total
  | argument :: rest, total =>
    (checkedAdd total (1 + decimalDigits argument.length + 2)).bind fun total =>
      (checkedAdd total argument.length).bind fun total => (checkedAdd total 2).bind (sizeLoop rest)

/-- `encoded_size` -/
def encodedSize (arguments : List Bytes) : Option ℕ :=
  if arguments.length = 0 ∨ arguments.length > respMaxArguments then none
  else (sizeLoop arguments (1 + decimalDigits arguments.length + 2)).bind fun total =>
    if total > aofMaxRecordSize then none else some total

/-- `encode_record` into a buffer with room for `capacity` bytes -/
def encodeRecord (capacity : ℕ) (arguments : List Bytes) (expectedLength : ℕ) : Option Bytes :=
  if capacity < expectedLength then none
  else if (encodeRequest arguments).length ≠ expectedLength then none
  else some (encodeRequest arguments)

/-- what `aof_replay_from` leaves: the callback's context, its result, the file and the statistics -/
structure Replayed (σ : Type) where
  context : σ
  ok : Bool
  file : Bytes
  commandsLoaded : ℕ
  truncatedTailRepaired : Bool
deriving DecidableEq

/-- the loop of `aof_replay_from`: context, position, records loaded, and whether it ended without an error. Every round
consumes a byte, so a fuel above the length of the file is never used up. -/
def replayLoop (file : Bytes) (callback : σ → List Bytes → σ × Bool) : ℕ → ℕ → σ → ℕ → σ × ℕ × ℕ × Bool
  | 0, position, context, loaded => (context, position, loaded, false)
  | fuel + 1, position, context, loaded =>
    if position < file.length then
      match parseRequestWithLimit (file.drop position) false aofMaxRecordSize with
      | .incomplete => (context, position, loaded, true)
      | .error => (context, position, loaded, false)
      | .complete (arguments, consumed) =>
        let r := callback context arguments
        if r.2 then replayLoop file callback fuel (position + consumed) r.1 (loaded + 1) else (r.1, position, loaded, false)
    else (context, position, loaded, true)

/-- `aof_replay_from` -/
def aofReplayFrom (file : Bytes) (offset : ℕ) (callback : σ → List Bytes → σ × Bool) (context : σ) : Replayed σ :=
  if offset > file.length then ⟨context, false, file, 0, false⟩
  else if file.length = 0 ∨ offset = file.length then ⟨context, true, file, 0, false⟩
  else
    let r := replayLoop file callback (file.length + 1) offset context 0
    if r.2.2.2 then
      if r.2.1 ≠ file.length then ⟨r.1, true, file.take r.2.1, r.2.2.1, true⟩ else ⟨r.1, true, file, r.2.2.1, false⟩
    else ⟨r.1, false, file, r.2.2.1, false⟩

variable (arguments : List Bytes) (callback : σ → List Bytes → σ × Bool) (records : List (List Bytes))

/-! ## Sizes -/

theorem length_digitsLoop (fuel : ℕ) : ∀ {g n d : ℕ} (text : Bytes), n < 10 ^ (fuel + 1) → fuel ≤ g →
    (digitsLoop (fuel + 1) n text).length + d = text.length + 1 + decimalDigitsLoop g n d := by
  induction fuel with
  | zero =>
    intro g n d text hn _
    have h10 : n < 10 := by simpa using hn
    have hloop : decimalDigitsLoop g n d = d := by
      cases g with
      | zero => rfl
      | succ g => rw [decimalDigitsLoop, if_neg (by omega)]
    rw [digitsLoop, hloop]
    simp only [if_pos h10, length_cons]
  | succ fuel ih =>
    intro g n d text hn hg
    obtain ⟨g, rfl⟩ : ∃ g', g = g' + 1 := ⟨g - 1, by omega⟩
    rw [digitsLoop, decimalDigitsLoop]
    by_cases h10 : n < 10
    · simp only [if_pos h10, if_neg (not_le.2 h10), length_cons]
    · have hdiv : n / 10 < 10 ^ (fuel + 1) := Nat.div_lt_of_lt_mul (by rwa [pow_succ, Nat.mul_comm] at hn)
      have h := ih (d := d + 1) ((48 + n % 10).toUInt8 :: text) hdiv (show fuel ≤ g by omega)
      simp only [if_neg h10, if_pos (not_lt.1 h10)]
      rw [length_cons] at h
      omega

theorem length_decimalText {n : ℕ} (h : n ≤ sizeMax) : (decimalText n).length = decimalDigits n := by
  have hlength : (digitsLoop 20 n []).length + 1 = 0 + 1 + decimalDigitsLoop 20 n 1 :=
    length_digitsLoop 19 [] (lt_of_le_of_lt h (by decide)) (by decide)
  unfold decimalText decimalDigits
  omega

theorem checkedAdd_some {total amount result : ℕ} (h : checkedAdd total amount = some result) :
    result = total + amount ∧ amount ≤ sizeMax := by
  unfold checkedAdd at h
  split_ifs at h with hbig
  cases h
  exact ⟨rfl, by omega⟩

theorem sizeLoop_some : ∀ {total result : ℕ}, sizeLoop arguments total = some result →
    result = total + (arguments.flatMap encodeArgument).length := by
  induction arguments with
  | nil =>
    intro total result h
    cases h
    rfl
  | cons argument arguments ih =>
    intro total result h
    rw [sizeLoop] at h
    obtain ⟨t1, h1, h⟩ := bind_eq_some_iff.1 h
    obtain ⟨t2, h2, h⟩ := bind_eq_some_iff.1 h
    obtain ⟨t3, h3, h⟩ := bind_eq_some_iff.1 h
    obtain ⟨e1, _⟩ := checkedAdd_some h1
    obtain ⟨e2, hlen⟩ := checkedAdd_some h2
    obtain ⟨e3, _⟩ := checkedAdd_some h3
    rw [flatMap_cons, length_append, length_encodeArgument, length_decimalText hlen, ih h]
    omega

/-- **`encoded_size`** measures what `encode_record` writes, and refuses what the parser would not read. -/
theorem encodedSize_spec {arguments : List Bytes} {size : ℕ} (h : encodedSize arguments = some size) :
    (encodeRequest arguments).length = size ∧ arguments ≠ [] ∧ arguments.length ≤ respMaxArguments ∧ size ≤ aofMaxRecordSize := by
  unfold encodedSize at h
  split_ifs at h with hcount
  obtain ⟨total, htotal, h⟩ := bind_eq_some_iff.1 h
  split_ifs at h with hbig
  cases h
  push Not at hcount
  have hfew : arguments.length ≤ sizeMax := le_trans hcount.2 (by decide)
  refine ⟨?_, ne_nil_of_length_pos (Nat.pos_of_ne_zero hcount.1), hcount.2, not_lt.1 hbig⟩
  rw [encodeRequest, length_append, length_encodeUnsigned, length_decimalText hfew, sizeLoop_some arguments htotal]
  omega

theorem encodeRecord_eq {arguments : List Bytes} {size capacity : ℕ} (h : encodedSize arguments = some size) (hroom : size ≤ capacity) :
    encodeRecord capacity arguments size = some (encodeRequest arguments) := by
  rw [encodeRecord, if_neg (not_lt.2 hroom), (encodedSize_spec h).1, if_neg (by simp)]

/-! ## Replay of a cut log -/

/-- a record that `aof_append` takes -/
def Fits (arguments : List Bytes) : Prop := (encodedSize arguments).isSome

instance (arguments : List Bytes) : Decidable (Fits arguments) := inferInstanceAs (Decidable ((encodedSize arguments).isSome = true))

/-- the loop does not overflow on arguments that fit -/
theorem sizeLoop_eq : ∀ {total : ℕ}, total + (arguments.flatMap encodeArgument).length ≤ sizeMax →
    sizeLoop arguments total = some (total + (arguments.flatMap encodeArgument).length) := by
  induction arguments with
  | nil => exact fun _ => rfl
  | cons argument arguments ih =>
    intro total hfit
    rw [flatMap_cons, length_append, length_encodeArgument] at hfit ⊢
    have hdigits := length_decimalText (n := argument.length) (by omega)
    rw [hdigits] at hfit ⊢
    rw [sizeLoop, checkedAdd, if_neg (by omega), bind_some, checkedAdd, if_neg (by omega), bind_some, checkedAdd,
      if_neg (by omega), bind_some, ih (by omega)]
    congr 1
    omega

/-- a record of a length that `aof_append` allows -/
theorem fits_of_length {arguments : List Bytes} (hsome : arguments ≠ []) (hfew : arguments.length ≤ respMaxArguments)
    (hlength : (encodeRequest arguments).length ≤ aofMaxRecordSize) : Fits arguments := by
  have hmax : aofMaxRecordSize ≤ sizeMax := by decide
  have hcount : arguments.length ≤ sizeMax := hfew.trans (by decide)
  rw [encodeRequest, length_append, length_encodeUnsigned, length_decimalText hcount] at hlength
  rw [Fits, encodedSize, if_neg (by rintro (h | h); exacts [hsome (length_eq_zero_iff.1 h), absurd hfew (not_le.2 h)]),
    sizeLoop_eq arguments (by omega), bind_some, if_neg (by omega)]
  rfl

/-- the bytes of a log -/
def encodeLog : Bytes := records.flatMap encodeRequest

/-- the records that lie within the first `n` bytes of their log -/
def recordsWithin : ℕ → List (List Bytes) → List (List Bytes)
  | _, [] => []
  | n, record :: records =>
    if (encodeRequest record).length ≤ n then record :: recordsWithin (n - (encodeRequest record).length) records else []

/-- a callback over a list of records, up to the first that it refuses -/
def feed (callback : σ → List Bytes → σ × Bool) : σ → List (List Bytes) → σ × Bool
  | context, [] => (context, true)
  | context, record :: records =>
    let r := callback context record
    if r.2 then feed callback r.1 records else (r.1, false)

theorem encodeLog_cons (record : List Bytes) (records : List (List Bytes)) :
    encodeLog (record :: records) = encodeRequest record ++ encodeLog records := flatMap_cons

theorem encodeLog_append (xs ys : List (List Bytes)) : encodeLog (xs ++ ys) = encodeLog xs ++ encodeLog ys := flatMap_append

theorem encodeRequest_pos (record : List Bytes) : 0 < (encodeRequest record).length := by
  rw [encodeRequest, length_append, length_encodeUnsigned]
  omega

theorem recordsWithin_zero : recordsWithin 0 records = [] := by
  cases records with
  | nil => rfl
  | cons record records =>
    have := encodeRequest_pos record
    rw [recordsWithin, if_neg (by omega)]

theorem length_recordsWithin_le : ∀ n, (encodeLog (recordsWithin n records)).length ≤ n := by
  induction records with
  | nil => exact fun n => Nat.zero_le n
  | cons record records ih =>
    intro n
    rw [recordsWithin]
    split_ifs with hfits
    · have := ih (n - (encodeRequest record).length)
      rw [encodeLog_cons, length_append]
      omega
    · exact Nat.zero_le n

/-- a part of the log that lies within the bytes -/
theorem recordsWithin_append (records rest : List (List Bytes)) : ∀ {n}, (encodeLog records).length ≤ n →
    recordsWithin n (records ++ rest) = records ++ recordsWithin (n - (encodeLog records).length) rest := by
  induction records with
  | nil => exact fun _ => rfl
  | cons record records ih =>
    intro n hn
    rw [encodeLog_cons, length_append] at hn ⊢
    rw [cons_append, recordsWithin, if_pos (by omega), ih (by omega), Nat.sub_add_eq]
    rfl

theorem recordsWithin_initial : ∀ n, recordsWithin n records <+: records := by
  induction records with
  | nil => exact fun _ => prefix_rfl
  | cons record records ih =>
    intro n
    rw [recordsWithin]
    split_ifs
    · exact (prefix_cons_inj record).2 (ih _)
    · exact List.nil_prefix

theorem recordsWithin_all : ∀ {n}, (encodeLog records).length ≤ n → recordsWithin n records = records := by
  induction records with
  | nil => exact fun _ => rfl
  | cons record records ih =>
    intro n hn
    rw [encodeLog_cons, length_append] at hn
    rw [recordsWithin, if_pos (by omega), ih (by omega)]

/-- the first bytes of a log, as the bytes of its whole records and a rest -/
theorem take_encodeLog : ∀ {n}, n ≤ (encodeLog records).length →
    (encodeLog records).take (encodeLog (recordsWithin n records)).length = encodeLog (recordsWithin n records) := by
  induction records with
  | nil => exact fun _ => rfl
  | cons record records ih =>
    intro n hn
    rw [recordsWithin]
    split_ifs with hfits
    · rw [encodeLog_cons, length_append] at hn
      rw [encodeLog_cons, encodeLog_cons, length_append, take_length_add_append, ih (by omega)]
    · rfl

/-- **The loop over a cut log**: it hands the whole records to the callback, and if none is refused it stops behind them. -/
theorem replayLoop_cut :
    ∀ {before : Bytes} {n fuel loaded : ℕ} {context : σ}, (∀ r ∈ records, Fits r) → n ≤ (encodeLog records).length →
      (recordsWithin n records).length < fuel →
      ∃ position loaded', replayLoop ((before ++ encodeLog records).take (before.length + n)) callback fuel before.length context
          loaded = ((feed callback context (recordsWithin n records)).1, position, loaded',
            (feed callback context (recordsWithin n records)).2) ∧
        ((feed callback context (recordsWithin n records)).2 = true →
          position = before.length + (encodeLog (recordsWithin n records)).length ∧
            loaded' = loaded + (recordsWithin n records).length) := by
  induction records with
  | nil =>
    intro before n fuel loaded context _ hn hfuel
    obtain ⟨fuel, rfl⟩ : ∃ f, fuel = f + 1 := ⟨fuel - 1, by omega⟩
    have hend : ¬ before.length < ((before ++ encodeLog []).take (before.length + n)).length := by
      simp [encodeLog]
    rw [replayLoop, if_neg hend]
    exact ⟨_, _, rfl, fun _ => ⟨rfl, rfl⟩⟩
  | cons record records ih =>
    intro before n fuel loaded context hvalid hn hfuel
    obtain ⟨fuel, rfl⟩ : ∃ f, fuel = f + 1 := ⟨fuel - 1, by omega⟩
    obtain ⟨hfirst, hrest⟩ := forall_mem_cons.1 hvalid
    obtain ⟨size, hsize⟩ := isSome_iff_exists.1 hfirst
    obtain ⟨hlen, hsome, hfew, hmax⟩ := encodedSize_spec hsize
    rw [encodeLog_cons] at hn ⊢
    have hfile : ((before ++ (encodeRequest record ++ encodeLog records)).take (before.length + n)).length = before.length + n := by
      rw [length_take_of_le]
      rw [length_append]
      omega
    have hdata : ((before ++ (encodeRequest record ++ encodeLog records)).take (before.length + n)).drop before.length =
        (encodeRequest record ++ encodeLog records).take n := by
      rw [drop_take, drop_left, Nat.add_sub_cancel_left]
    rw [replayLoop, hfile, hdata]
    by_cases hzero : n = 0
    · rw [if_neg (by omega), hzero, recordsWithin_zero]
      exact ⟨_, _, rfl, fun _ => ⟨rfl, rfl⟩⟩
    rw [if_pos (by omega), parse_encoded hsome hfew (by decide) (by rw [hlen]; exact hmax) hn]
    rw [recordsWithin] at hfuel ⊢
    by_cases hwhole : (encodeRequest record).length ≤ n
    · rw [if_pos hwhole] at hfuel ⊢
      rw [if_pos hwhole]
      simp only [feed]
      by_cases hok : (callback context record).2 = true
      · simp only [if_pos hok]
        rw [length_append] at hn
        have hsplit : before ++ (encodeRequest record ++ encodeLog records) = (before ++ encodeRequest record) ++ encodeLog records :=
          (append_assoc _ _ _).symm
        have hpos : before.length + (encodeRequest record).length = (before ++ encodeRequest record).length := length_append.symm
        have hcut : before.length + n = (before ++ encodeRequest record).length + (n - (encodeRequest record).length) := by
          rw [length_append]
          omega
        rw [hsplit, hpos, hcut]
        obtain ⟨position, loaded', hloop, hend⟩ := @ih (before ++ encodeRequest record) (n - (encodeRequest record).length) fuel
          (loaded + 1) (callback context record).1 hrest (by omega) (by rw [length_cons] at hfuel; omega)
        refine ⟨position, loaded', hloop, fun haccept => ?_⟩
        obtain ⟨hposition, hloaded⟩ := hend haccept
        rw [encodeLog_cons, hposition, hloaded, length_append, length_append, length_cons]
        omega
      · simp only [if_neg hok]
        exact ⟨_, _, rfl, fun h => absurd h Bool.false_ne_true⟩
    · rw [if_neg hwhole, if_neg hwhole]
      exact ⟨_, _, rfl, fun _ => ⟨rfl, rfl⟩⟩

theorem length_le_encodeLog : records.length ≤ (encodeLog records).length := by
  induction records with
  | nil => exact Nat.zero_le _
  | cons record records ih =>
    have := encodeRequest_pos record
    rw [encodeLog_cons, length_append, length_cons]
    omega

/-- what the callback gets, and whether it accepts it -/
theorem aofReplayFrom_fed (before : Bytes) {records : List (List Bytes)} {n : ℕ} {context : σ}
    (hvalid : ∀ r ∈ records, Fits r) (hn : n ≤ (encodeLog records).length) {r : Replayed σ}
    (hr : aofReplayFrom ((before ++ encodeLog records).take (before.length + n)) before.length callback context = r) :
    r.context = (feed callback context (recordsWithin n records)).1 ∧ r.ok = (feed callback context (recordsWithin n records)).2 := by
  have hfile : ((before ++ encodeLog records).take (before.length + n)).length = before.length + n := by
    rw [length_take_of_le]
    rw [length_append]
    omega
  subst hr
  unfold aofReplayFrom
  rw [hfile, if_neg (by omega)]
  by_cases hzero : n = 0
  · subst hzero
    rw [Nat.add_zero, if_pos (Or.inr rfl), recordsWithin_zero]
    exact ⟨rfl, rfl⟩
  have hle := length_recordsWithin_le records n
  have hcount := length_le_encodeLog (recordsWithin n records)
  obtain ⟨position, loaded, hloop, _⟩ := @replayLoop_cut σ callback records before n (before.length + n + 1) 0 context hvalid hn
    (by omega)
  rw [if_neg (by omega), hloop]
  cases (feed callback context (recordsWithin n records)).2 with
  | false => exact ⟨rfl, rfl⟩
  | true =>
    rw [if_pos rfl]
    split_ifs <;> exact ⟨rfl, rfl⟩

/-- **The replay of a cut log**, from the start of a record on. -/
theorem aofReplayFrom_cut (before : Bytes) {records : List (List Bytes)} {n : ℕ} {context : σ}
    (hvalid : ∀ r ∈ records, Fits r) (hn : n ≤ (encodeLog records).length)
    (haccept : (feed callback context (recordsWithin n records)).2 = true) :
    aofReplayFrom ((before ++ encodeLog records).take (before.length + n)) before.length callback context =
      ⟨(feed callback context (recordsWithin n records)).1, true, before ++ encodeLog (recordsWithin n records),
        (recordsWithin n records).length, decide ((encodeLog (recordsWithin n records)).length ≠ n)⟩ := by
  have hfile : ((before ++ encodeLog records).take (before.length + n)).length = before.length + n := by
    rw [length_take_of_le]
    rw [length_append]
    omega
  unfold aofReplayFrom
  rw [hfile, if_neg (by omega)]
  by_cases hzero : n = 0
  · subst hzero
    rw [Nat.add_zero, if_pos (Or.inr rfl), recordsWithin_zero, take_left]
    simp [feed, encodeLog]
  have hle := length_recordsWithin_le records n
  have hcount := length_le_encodeLog (recordsWithin n records)
  obtain ⟨position, loaded, hloop, hend⟩ := @replayLoop_cut σ callback records before n (before.length + n + 1) 0 context hvalid hn
    (by omega)
  obtain ⟨rfl, rfl⟩ := hend haccept
  rw [if_neg (by omega), hloop, haccept]
  simp only [if_true]
  have hkept : ((before ++ encodeLog records).take (before.length + n)).take
      (before.length + (encodeLog (recordsWithin n records)).length) = before ++ encodeLog (recordsWithin n records) := by
    rw [take_take, Nat.min_eq_left (by omega), take_length_add_append, take_encodeLog records hn]
  by_cases hwhole : (encodeLog (recordsWithin n records)).length = n
  · rw [hwhole, take_take, Nat.min_self] at hkept
    rw [if_neg (by omega), hkept, Nat.zero_add]
    simp [hwhole]
  · rw [if_pos (by omega), hkept, Nat.zero_add]
    simp [hwhole]

theorem feed_accepting (f : σ → List Bytes → σ) (records : List (List Bytes)) :
    ∀ context, feed (fun s r => (f s r, true)) context records = (records.foldl f context, true) := by
  induction records with
  | nil => exact fun _ => rfl
  | cons record records ih => exact fun context => ih (f context record)

/-- **A log cut anywhere** is replayed: the callback gets the records that lie within the first `n` bytes, in order, and the
file is truncated to the end of the last of them. -/
theorem replay_of_cut_log (hvalid : ∀ r ∈ records, Fits r) (n : ℕ) (hn : n ≤ (encodeLog records).length)
    (f : σ → List Bytes → σ) (context : σ) :
    aofReplayFrom ((encodeLog records).take n) 0 (fun s r => (f s r, true)) context =
      ⟨(recordsWithin n records).foldl f context, true, encodeLog (recordsWithin n records), (recordsWithin n records).length,
        decide ((encodeLog (recordsWithin n records)).length ≠ n)⟩ := by
  have haccept := feed_accepting f (recordsWithin n records) context
  have hcut := aofReplayFrom_cut (fun s r => (f s r, true)) [] hvalid hn (by rw [haccept])
  rw [haccept, nil_append, nil_append, length_nil, Nat.zero_add] at hcut
  exact hcut

/-- SET k v and DEL k, cut before the last byte: the callback gets the SET -/
theorem replay_of_cut_log_tail :
    Fits [ascii "SET", ascii "k", ascii "v"] ∧ Fits [ascii "DEL", ascii "k"] ∧
      aofReplayFrom ((encodeLog [[ascii "SET", ascii "k", ascii "v"], [ascii "DEL", ascii "k"]]).take 46) 0
          (fun calls record => (calls ++ [record], true)) [] =
        ⟨[[ascii "SET", ascii "k", ascii "v"]], true, encodeLog [[ascii "SET", ascii "k", ascii "v"]], 1, true⟩ := by
  have hset : Fits [ascii "SET", ascii "k", ascii "v"] := by decide +kernel
  have hdel : Fits [ascii "DEL", ascii "k"] := by decide +kernel
  refine ⟨hset, hdel, ?_⟩
  have hcut := replay_of_cut_log [[ascii "SET", ascii "k", ascii "v"], [ascii "DEL", ascii "k"]]
    (by intro r hr; simp only [mem_cons, not_mem_nil, or_false] at hr; rcases hr with rfl | rfl; exacts [hset, hdel])
    46 (by decide +kernel) (fun calls record => calls ++ [record]) []
  exact hcut.trans (by decide +kernel)

end StoreSystem.Aof
