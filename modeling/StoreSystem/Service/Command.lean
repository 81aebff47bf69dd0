/-
Requests and replies of the command service (`src/service/kvstore_resp_service.c`, the parts that look at arguments only):
the table of commands and their arity, the decimal codecs, durations and the sizes of encoded replies.

The C library's reading and writing of doubles and their arithmetic are parameters (`Libc`): `strtod` says how much of a text it
consumed, which value it read and whether the value was out of range, and `%.17g` prints fewer than 32 bytes. `format_score` is
embedded over them (`Libc.formatScore`).

Results: `parseInt64_eq`, `parseUint64Bytes_eq`: the parsers with their overflow tests accept exactly the decimal texts
whose value is in range. `parseUint64Bytes_decimalText`: a deadline printed into a log record is read back unchanged.
-/
import StoreSystem.Cache.Cache

namespace StoreSystem

/-! ## Commands -/

/-- `enum service_command` -/
inductive ServiceCommand
  | set
  | get
  | del
  | ping
  | expire
  | pexpire
  | ttl
  | pttl
  | persist
  | info
  | dbsize
  | hset
  | hget
  | hdel
  | hlen
  | hgetall
  | zadd
  | zrem
  | zscore
  | zcard
  | zrange
  | save
  | bgsave
  | lastsave
  | unknown
deriving DecidableEq, Repr

/-- the longest request of a client, `RESP_MAX_FRAME_SIZE` -/
def respMaxFrameSize : ℕ := 64 * 1024

/-- `RESP_MAX_ARGUMENTS` -/
def respMaxArguments : ℕ := 128

/-- the bytes of a literal -/
def ascii (text : String) : Bytes := text.toList.map fun c => c.toNat.toUInt8

def asciiUpper (value : UInt8) : UInt8 := if value ≥ 97 ∧ value ≤ 122 then value - 32 else value

variable (argument : Bytes)

def argumentEquals (name : String) : Bool := argument.map asciiUpper = ascii name

/-- the names `find_command` compares with, by length -/
def commandNames : List (String × ServiceCommand) :=
  [("SET", .set), ("GET", .get), ("DEL", .del), ("TTL", .ttl),
   ("PING", .ping), ("PTTL", .pttl), ("INFO", .info), ("HSET", .hset), ("HGET", .hget), ("HDEL", .hdel), ("HLEN", .hlen),
   ("ZADD", .zadd), ("ZREM", .zrem), ("SAVE", .save),
   ("ZCARD", .zcard),
   ("EXPIRE", .expire), ("DBSIZE", .dbsize), ("ZSCORE", .zscore), ("ZRANGE", .zrange), ("BGSAVE", .bgsave),
   ("PEXPIRE", .pexpire), ("PERSIST", .persist), ("HGETALL", .hgetall),
   ("LASTSAVE", .lastsave)]

def findCommand : ServiceCommand :=
  match commandNames.find? fun n => argumentEquals argument n.1 with
  | some n => n.2
  | none => .unknown

def isWriteCommand : ServiceCommand → Bool
  | .set | .del | .expire | .pexpire | .persist | .hset | .hdel | .zadd | .zrem => true
  | _ => false

def commandArityValid (command : ServiceCommand) (argumentCount : ℕ) : Bool :=
  match command with
  | .set => argumentCount = 3 ∨ argumentCount = 5
  | .get | .del | .ttl | .pttl | .persist | .hlen | .hgetall | .zcard => argumentCount = 2
  | .expire | .pexpire | .hget | .zscore => argumentCount = 3
  | .ping => argumentCount = 1 ∨ argumentCount = 2
  | .dbsize | .save | .bgsave | .lastsave => argumentCount = 1
  | .info => argumentCount = 2
  | .hset | .zadd => argumentCount ≥ 4 ∧ argumentCount % 2 = 0
  | .hdel | .zrem => argumentCount ≥ 3
  | .zrange => argumentCount = 4 ∨ argumentCount = 5
  | .unknown => false

/-! ## Replies -/

inductive ServiceError
  | unknown
  | arity
  | internal
  | malformed
  | integer
  | expire
  | capacity
  | aof
  | aofQueue
  | mysqlQueue
  | wrongtype
  | float
  | responseTooLarge
  | rdbDisabled
  | saveBusy
deriving DecidableEq, Repr

/-- `kvstore_reply_t` -/
inductive Reply
  | simple (text : String)
  | error (e : ServiceError)
  | integer (value : ℤ)
  | bulk (data : Bytes)
  | nullBulk
  | array (elements : List Bytes)
deriving DecidableEq, Repr

def Reply.isError : Reply → Bool
  | .error _ => true
  | _ => false

/-- a bulk string, or the null bulk string for NULL -/
def Reply.ofOption : Option Bytes → Reply
  | none => .nullBulk
  | some data => .bulk data

/-! ## Decimal codecs -/

/-- the loop of `parse_int64` and of `parse_uint64_bytes` -/
def parseDigits (limit : ℕ) : Bytes → ℕ → Option ℕ
  | [], magnitude => some magnitude
  | c :: rest, magnitude =>
    if c < 48 ∨ c > 57 then none
    else
      let digit := c.toNat - 48
      if magnitude > (limit - digit) / 10 then none else parseDigits limit rest (magnitude * 10 + digit)

def parseInt64 : Option ℤ :=
  match argument with
  | [] => none
  | c :: rest =>
    if c = 45 then if rest = [] then none else (parseDigits (int64Max + 1) rest 0).map fun m : ℕ => -(m : ℤ)
    else (parseDigits int64Max (c :: rest) 0).map fun m : ℕ => (m : ℤ)

def parseUint64Bytes (data : Bytes) : Option ℕ := if data = [] then none else parseDigits uint64Max data 0

/-- `duration_ms`: -1, -2, or the parsed number and the milliseconds it stands for -/
inductive Duration
  | invalid
  | notPositive
  | ok (parsed : ℤ) (milliseconds : ℕ)
deriving DecidableEq, Repr

def durationMs (multiplier : ℕ) (requirePositive : Bool) : Duration :=
  match parseInt64 argument with
  | none => .invalid
  | some value =>
    if value ≤ 0 then if requirePositive then .notPositive else .ok value 0
    else if value.toNat > uint64Max / multiplier then .invalid
    else .ok value (value.toNat * multiplier)

/-- `snprintf` of `PRIu64`, from the last digit on; twenty digits write any 64-bit number -/
def digitsLoop : ℕ → ℕ → Bytes → Bytes
  | 0, _, text => text
  | fuel + 1, n, text =>
    let text := (48 + n % 10).toUInt8 :: text
    if n < 10 then text else digitsLoop fuel (n / 10) text

def decimalText (n : ℕ) : Bytes := digitsLoop 20 n []

/-! ## Doubles -/

/-- the C library and the arithmetic of doubles, as far as scores need them -/
structure Libc where
  /-- the bytes consumed, the value (`none` for NaN) and whether `errno` is `ERANGE` -/
  strtod : Bytes → ℕ × Option Score × Bool
  /-- `x * 10.0` -/
  timesTen : Score → Score
  /-- `x / 10.0` -/
  overTen : Score → Score
  toInt64 : Score → Int64
  ofInt64 : Int64 → Score
  /-- `snprintf` of `%.17g` -/
  print : Score → Bytes
  print_short : ∀ score, (print score).length < 32

namespace Libc

/-- a libc that reads no number and prints nothing -/
def silent : Libc :=
  ⟨fun _ => (0, none, true), id, id, fun _ => 0, fun _ => ⟨false, 0, Score.zero_notNan⟩, fun _ => [], fun _ => by decide⟩

/-- a libc that reads every text as zero -/
def zeros : Libc := { silent with strtod := fun text => (text.length, some ⟨false, 0, Score.zero_notNan⟩, false) }

/-- `format_score`: a score that is a number of tenths is printed by hand. Its -1 for a text longer than the buffer falls under the
callers' test of the length. -/
def formatScore (libc : Libc) (score : Score) : Bytes :=
  let scaled := libc.timesTen score
  let tenths := libc.toInt64 scaled
  if score.finite ∧ ¬ (score.num = 0 ∧ score.neg) ∧
      (libc.ofInt64 .minValue).num ≤ scaled.num ∧ scaled.num ≤ (libc.ofInt64 .maxValue).num ∧
      scaled.num = (libc.ofInt64 tenths).num ∧ (libc.overTen (libc.ofInt64 tenths)).num = score.num then
    let magnitude := tenths.toInt.natAbs
    (if tenths < 0 then [45] else []) ++ decimalText (magnitude / 10) ++
      if magnitude % 10 ≠ 0 then [46, (48 + magnitude % 10).toUInt8] else []
  else libc.print score

end Libc

theorem length_digitsLoop_le (fuel : ℕ) : ∀ (n : ℕ) (text : Bytes), (digitsLoop fuel n text).length ≤ fuel + text.length := by
  induction fuel with
  | zero => exact fun n text => (Nat.zero_add _).ge
  | succ fuel ih =>
    intro n text
    have hrest := ih (n / 10) ((48 + n % 10).toUInt8 :: text)
    rw [digitsLoop]
    split_ifs <;> grind

/-- a score fits the buffer: a sign, at most twenty digits, a point and a digit -/
theorem Libc.formatScore_short (libc : Libc) (score : Score) : (libc.formatScore score).length < 32 := by
  have hdigits := length_digitsLoop_le 20 ((libc.toInt64 (libc.timesTen score)).toInt.natAbs / 10) []
  simp only [formatScore, decimalText]
  split_ifs <;> grind [libc.print_short score]

/-- `parse_double_argument`; a text of 128 bytes or more is copied to the heap first -/
def parseDoubleArgument (libc : Libc) (copyOk : Bool) (argument : Bytes) : Except ServiceError Score :=
  if argument.length = 0 ∨ argument.length = sizeMax then .error .float
  else if argument.length + 1 > 128 ∧ ¬ copyOk then .error .internal
  else
    let r := libc.strtod argument
    if r.1 ≠ argument.length then .error .float
    else
      match r.2.1, r.2.2 with
      | some score, false => .ok score
      | _, _ => .error .float

/-! ## Sizes of encoded replies -/

def serviceMaxResponse : ℕ := 1024 * 1024

def serviceMaxArrayElements : ℕ := 65536

/-- `a - b` on `size_t` -/
def sizeSub (a b : ℕ) : ℕ := (a + 2 ^ 64 - b % 2 ^ 64) % 2 ^ 64

/-- the loop of `decimal_digits`; a `size_t` has at most twenty digits -/
def decimalDigitsLoop : ℕ → ℕ → ℕ → ℕ
  | 0, _, digits => digits
  | fuel + 1, value, digits => if value ≥ 10 then decimalDigitsLoop fuel (value / 10) (digits + 1) else digits

def decimalDigits (value : ℕ) : ℕ := decimalDigitsLoop 20 value 1

def bulkEncodedSize (length : ℕ) : ℕ :=
  if length > sizeMax - decimalDigits length - 5 then sizeMax else length + decimalDigits length + 5

/-! ## What the parsers accept -/

/-- the number a string of digits spells, read on from `start`; `none` when there is another character -/
def digitsValue (start : ℕ) : Bytes → Option ℕ
  | [] => some start
  | c :: rest => if 48 ≤ c ∧ c ≤ 57 then digitsValue (start * 10 + (c.toNat - 48)) rest else none

/-- the integer an optional minus sign and one or more digits spell, when it has 64 bits -/
def intValue : Bytes → Option ℤ
  | [] => none
  | c :: rest =>
    if c = 45 then if rest = [] then none else (digitsValue 0 rest).bind fun n => if n ≤ 2 ^ 63 then some (-(n : ℤ)) else none
    else (digitsValue 0 (c :: rest)).bind fun n => if n ≤ 2 ^ 63 - 1 then some (n : ℤ) else none

theorem digitsValue_ge {start n : ℕ} {ds : Bytes} (h : digitsValue start ds = some n) : start ≤ n := by
  induction ds generalizing start with
  | nil =>
    cases h
    exact le_rfl
  | cons c ds ih =>
    rw [digitsValue] at h
    split_ifs at h
    exact le_trans (by omega) (ih h)

/-- the overflow test of the loop refuses exactly the values above the limit -/
theorem parseDigits_eq {limit : ℕ} (hl : 9 ≤ limit) (ds : Bytes) {m : ℕ} (hm : m ≤ limit) :
    parseDigits limit ds m = (digitsValue m ds).bind fun n => if n ≤ limit then some n else none := by
  induction ds generalizing m with
  | nil => simp [parseDigits, digitsValue, hm]
  | cons c ds ih =>
    rw [parseDigits, digitsValue]
    by_cases hd : 48 ≤ c ∧ c ≤ 57
    · have hc : c.toNat ≤ 57 := UInt8.le_iff_toNat_le.1 hd.2
      rw [if_neg (by rintro (h | h); exacts [absurd hd.1 (UInt8.not_le.2 h), absurd hd.2 (UInt8.not_le.2 h)]), if_pos hd]
      simp only
      by_cases hbig : m > (limit - (c.toNat - 48)) / 10
      · rw [if_pos hbig]
        cases hv : digitsValue (m * 10 + (c.toNat - 48)) ds with
        | none => rfl
        | some n =>
          have := digitsValue_ge hv
          rw [Option.bind_some, if_neg (by omega)]
      · rw [if_neg hbig]
        exact ih (by omega)
    · rw [if_pos (by
        by_contra hc
        push Not at hc
        exact hd ⟨UInt8.not_lt.1 hc.1, UInt8.not_lt.1 hc.2⟩), if_neg hd]
      rfl

theorem map_bind_ite {α β : Type} (o : Option α) (p : α → Prop) [DecidablePred p] (f : α → β) :
    (o.bind fun n => if p n then some n else none).map f = o.bind fun n => if p n then some (f n) else none := by
  cases o with
  | none => rfl
  | some n =>
    simp only [Option.bind_some]
    split_ifs <;> rfl

/-- **`parse_int64`** accepts exactly the decimal texts of 64-bit integers. -/
theorem parseInt64_eq (argument : Bytes) : parseInt64 argument = intValue argument := by
  cases argument with
  | nil => rfl
  | cons c rest =>
    rw [parseInt64, intValue]
    rw [parseDigits_eq (by decide) rest (Nat.zero_le _), parseDigits_eq (by decide) (c :: rest) (Nat.zero_le _),
      map_bind_ite, map_bind_ite, show int64Max + 1 = 2 ^ 63 from rfl, show int64Max = 2 ^ 63 - 1 from rfl]

theorem parseUint64Bytes_eq (data : Bytes) :
    parseUint64Bytes data = if data = [] then none else (digitsValue 0 data).bind fun n => if n ≤ uint64Max then some n else none := by
  rw [parseUint64Bytes, parseDigits_eq (by decide) data (Nat.zero_le _)]

theorem digitsValue_append (ds es : Bytes) (m : ℕ) : digitsValue m (ds ++ es) = (digitsValue m ds).bind fun n => digitsValue n es := by
  induction ds generalizing m with
  | nil => rfl
  | cons c ds ih =>
    rw [List.cons_append, digitsValue, digitsValue]
    split_ifs
    · exact ih _
    · rfl

theorem digitsValue_digit {d : ℕ} (hd : d < 10) (m : ℕ) (rest : Bytes) :
    digitsValue m ((48 + d).toUInt8 :: rest) = digitsValue (m * 10 + d) rest := by
  have hc : ((48 + d).toUInt8).toNat = 48 + d := by
    rw [Nat.toUInt8, UInt8.toNat_ofNat']
    omega
  rw [digitsValue, if_pos ⟨by rw [UInt8.le_iff_toNat_le, hc]; exact Nat.le_add_right _ _, by
    rw [UInt8.le_iff_toNat_le, hc]
    exact Nat.le_of_lt_succ (by change 48 + d < 58; omega)⟩, hc, Nat.add_sub_cancel_left]

/-- the printed digits of `n` followed by `text` read as `n` followed by `text` -/
theorem digitsLoop_value (fuel : ℕ) {n : ℕ} (hn : n < 10 ^ (fuel + 1)) (text : Bytes) :
    digitsValue 0 (digitsLoop (fuel + 1) n text) = digitsValue n text := by
  induction fuel generalizing n text with
  | zero =>
    have h10 : n < 10 := by simpa using hn
    rw [digitsLoop]
    simp only [if_pos h10]
    rw [digitsValue_digit (Nat.mod_lt _ (by decide)), Nat.mod_eq_of_lt h10, Nat.zero_mul, Nat.zero_add]
  | succ fuel ih =>
    rw [digitsLoop]
    by_cases h10 : n < 10
    · simp only [if_pos h10]
      rw [digitsValue_digit (Nat.mod_lt _ (by decide)), Nat.mod_eq_of_lt h10, Nat.zero_mul, Nat.zero_add]
    · simp only [if_neg h10]
      rw [ih (Nat.div_lt_of_lt_mul (by rwa [pow_succ, Nat.mul_comm] at hn)), digitsValue_digit (Nat.mod_lt _ (by decide))]
      congr 1
      omega

theorem digitsLoop_ne_nil (fuel n : ℕ) (text : Bytes) : digitsLoop (fuel + 1) n text ≠ [] := by
  induction fuel generalizing n text with
  | zero =>
    rw [digitsLoop]
    simp only [digitsLoop, ite_self]
    exact List.cons_ne_nil _ _
  | succ fuel ih =>
    rw [digitsLoop]
    split_ifs
    · exact List.cons_ne_nil _ _
    · exact ih _ _

/-- **A 64-bit number** printed into a record is read back. -/
theorem parseUint64Bytes_decimalText {n : ℕ} (hn : n ≤ uint64Max) : parseUint64Bytes (decimalText n) = some n := by
  rw [parseUint64Bytes_eq, decimalText, if_neg (digitsLoop_ne_nil 19 n []), digitsLoop_value 19 (lt_of_le_of_lt hn (by decide)) []]
  simp [digitsValue, hn]

end StoreSystem
