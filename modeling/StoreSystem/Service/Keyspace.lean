/-
What the command service is for: a finite map from keys to typed objects with an optional absolute deadline, and the
answers of that map to requests. Nothing here mentions the cache; `Service.Refinement` shows that the service computes it.

`readRequest` says which request a list of arguments is at time `t`, or which error it is. `perform` gives the keyspace
after a request, the replies it allows and the record that logs it. One reply is allowed to each request, except that
HGETALL may list its pairs in any order. Requests about the server (INFO, DBSIZE, SAVE, BGSAVE, LASTSAVE) do not look at
the keyspace; any reply is allowed to them.
-/
import StoreSystem.Service.Service

namespace StoreSystem

open Function

/-! ## Keyspaces -/

/-- typed objects by key, each with an optional deadline -/
abbrev Keyspace := Bytes → Option (Obj × Option ℕ)

/-- whether an object with this deadline is still there at time `t` -/
def alive (t : ℕ) : Option ℕ → Bool
  | none => true
  | some d => t < d

namespace Keyspace

/-- what is left of a keyspace at time `t` -/
def after (ks : Keyspace) (t : ℕ) : Keyspace := fun key => (ks key).filter fun v => alive t v.2

def empty : Keyspace := fun _ => none

theorem after_empty (t : ℕ) : empty.after t = empty := rfl

/-- time only takes away -/
theorem after_after (ks : Keyspace) {t t' : ℕ} (h : t ≤ t') : (ks.after t).after t' = ks.after t' := by
  have halive : ∀ d : Option ℕ, (alive t d && alive t' d) = alive t' d := by
    intro d
    cases d with
    | none => rfl
    | some d =>
      simp only [alive, ← Bool.decide_and, decide_eq_decide]
      omega
  funext key
  unfold after
  simp only [Option.filter_filter, halive]

theorem after_update (ks : Keyspace) (t : ℕ) (key : Bytes) (v : Option (Obj × Option ℕ)) :
    after (update ks key v) t = update (ks.after t) key (v.filter fun v => alive t v.2) := by
  funext k
  unfold after
  rw [update_apply, update_apply]
  split_ifs <;> rfl

end Keyspace

/-! ## Requests -/

inductive Request
  | set (key value : Bytes) (deadline : Option ℕ)
  | get (key : Bytes)
  | del (key : Bytes)
  | ping (message : Option Bytes)
  | expireAt (key : Bytes) (deadline : ℕ)
  | ttl (key : Bytes)
  | pttl (key : Bytes)
  | persist (key : Bytes)
  | hset (key : Bytes) (pairs : List (Bytes × Bytes))
  | hget (key field : Bytes)
  | hdel (key : Bytes) (fields : List Bytes)
  | hlen (key : Bytes)
  | hgetall (key : Bytes)
  | zadd (key : Bytes) (pairs : List (Score × Bytes))
  | zrem (key : Bytes) (members : List Bytes)
  | zscore (key member : Bytes)
  | zcard (key : Bytes)
  | zrange (key : Bytes) (start stop : ℤ) (withScores : Bool)
  | server
deriving DecidableEq

variable (t unit : ℕ) (ks : Keyspace)

/-- the deadline `n` units of `unit` milliseconds after `t`, when duration and deadline have 64 bits -/
def deadlineAfter (n : ℤ) : Except ServiceError ℕ :=
  if n * unit > uint64Max ∨ t + n * unit > uint64Max then .error .integer else .ok (t + n.toNat * unit)

/-- the duration of SET: a positive number of units -/
def readDuration (text : Bytes) : Except ServiceError ℕ :=
  match intValue text with
  | none => .error .integer
  | some n => if n ≤ 0 then .error .expire else deadlineAfter t unit n

/-- the option of SET -/
def readSetOption (t : ℕ) (name text : Bytes) : Except ServiceError ℕ :=
  if argumentEquals name "EX" then readDuration t 1000 text
  else if argumentEquals name "PX" then readDuration t 1 text
  else .error .malformed

/-- EXPIRE and PEXPIRE; a time that is not positive deletes the key -/
def readExpire (key text : Bytes) : Except ServiceError Request :=
  match intValue text with
  | none => .error .integer
  | some n => if n ≤ 0 then .ok (.del key) else (deadlineAfter t unit n).map (.expireAt key)

/-- the score a text spells: all of it is read, in range and as a number -/
def scoreOf (libc : Libc) (text : Bytes) : Option Score :=
  if text = [] ∨ (libc.strtod text).1 ≠ text.length ∨ (libc.strtod text).2.2 = true then none else (libc.strtod text).2.1

def readScores (libc : Libc) : List (Bytes × Bytes) → Option (List (Score × Bytes))
  | [] => some []
  | pair :: pairs => (scoreOf libc pair.1).bind fun score => (readScores libc pairs).map ((score, pair.2) :: ·)

def readRange (key start stop : Bytes) (withScores : Bool) : Except ServiceError Request :=
  match intValue start, intValue stop with
  | some first, some last => .ok (.zrange key first last withScores)
  | _, _ => .error .integer

/-- the request a list of arguments is at time `t` -/
def readRequest (libc : Libc) (t : ℕ) (arguments : Record) : Except ServiceError Request :=
  match findCommand (Service.argument arguments 0), arguments with
  | .unknown, _ => .error .unknown
  | .set, [_, key, value] => .ok (.set key value none)
  | .set, [_, key, value, name, text] => (readSetOption t name text).map fun d => .set key value (some d)
  | .get, [_, key] => .ok (.get key)
  | .del, [_, key] => .ok (.del key)
  | .ping, [_] => .ok (.ping none)
  | .ping, [_, message] => .ok (.ping (some message))
  | .expire, [_, key, text] => readExpire t 1000 key text
  | .pexpire, [_, key, text] => readExpire t 1 key text
  | .ttl, [_, key] => .ok (.ttl key)
  | .pttl, [_, key] => .ok (.pttl key)
  | .persist, [_, key] => .ok (.persist key)
  | .hset, _ :: key :: rest =>
    if rest.length ≥ 2 ∧ rest.length % 2 = 0 then .ok (.hset key (Service.pairsOf rest)) else .error .arity
  | .hget, [_, key, field] => .ok (.hget key field)
  | .hdel, _ :: key :: field :: fields => .ok (.hdel key (field :: fields))
  | .hlen, [_, key] => .ok (.hlen key)
  | .hgetall, [_, key] => .ok (.hgetall key)
  | .zadd, _ :: key :: rest =>
    if rest.length ≥ 2 ∧ rest.length % 2 = 0 then
      match readScores libc (Service.pairsOf rest) with
      | none => .error .float
      | some pairs => .ok (.zadd key pairs)
    else .error .arity
  | .zrem, _ :: key :: member :: members => .ok (.zrem key (member :: members))
  | .zscore, [_, key, member] => .ok (.zscore key member)
  | .zcard, [_, key] => .ok (.zcard key)
  | .zrange, [_, key, start, stop] => readRange key start stop false
  | .zrange, [_, key, start, stop, option] =>
    match readRange key start stop true with
    | .error e => .error e
    | .ok request => if argumentEquals option "WITHSCORES" then .ok request else .error .malformed
  | .info, [_, _] => .ok .server
  | .dbsize, [_] => .ok .server
  | .save, [_] => .ok .server
  | .bgsave, [_] => .ok .server
  | .lastsave, [_] => .ok .server
  | _, _ => .error .arity

/-! ## Answers -/

/-- the keyspace after a request, the replies allowed to it and the record it is logged with -/
structure Outcome where
  keyspace : Keyspace
  replies : Reply → Prop
  record : Option Record

/-- a request that changes nothing -/
def Outcome.reads (replies : Reply → Prop) : Outcome := ⟨ks, replies, none⟩

/-- a request that the limit on memory refuses -/
def Outcome.refused : Outcome := .reads ks (· = .error .capacity)

def Obj.string? : Obj → Option Bytes
  | .string value => some value
  | _ => none

def Obj.hash? : Obj → Option (Bytes → Option Bytes)
  | .hash m => some m
  | _ => none

def Obj.zset? : Obj → Option (Bytes → Option Score)
  | .zset m => some m
  | _ => none

/-- an answer that depends on an object of one type; another type is an error -/
def answerWith {M : Type} (key : Bytes) (read : Obj → Option M) (missing : Reply) (answer : M → Option ℕ → Outcome) : Outcome :=
  match ks key with
  | none => .reads ks (· = missing)
  | some (o, d) =>
    match read o with
    | none => .reads ks (· = .error .wrongtype)
    | some m => answer m d

/-- the effect of a list of writes on a map: the items that are new, and whether one of the writes changed anything -/
structure Written (M : Type) where
  map : M
  added : ℕ
  changed : Bool

def writePairs {M W : Type} (next : M → W → M) (result : M → W → ZSet.SetResult) : M → List W → Written M
  | m, [] => ⟨m, 0, false⟩
  | m, w :: ws =>
    let r := writePairs next result (next m w) ws
    ⟨r.map, (result m w).added.toNat + r.added, (result m w).changed || r.changed⟩

/-- HSET, pair by pair -/
def setFields : (Bytes → Option Bytes) → List (Bytes × Bytes) → Written (Bytes → Option Bytes) :=
  writePairs (fun m pair => update m pair.1 (some pair.2)) fun m pair => fieldResult m pair.1 pair.2

/-- ZADD, pair by pair; a score that equals the old one as a number changes nothing -/
def addMembers : (Bytes → Option Score) → List (Score × Bytes) → Written (Bytes → Option Score) :=
  writePairs (fun m pair => ZSet.addTo m pair.1 pair.2) fun m pair => ZSet.addResult m pair.1 pair.2

/-- the map without some items, and how many of them it had -/
def removeItems {V : Type} : (Bytes → Option V) → List Bytes → (Bytes → Option V) × ℕ
  | m, [] => (m, 0)
  | m, item :: items =>
    let r := removeItems (update m item none) items
    (r.1, (m item).isSome.toNat + r.2)

/-- a collection takes writes; a key that is missing gets a new one, without a deadline -/
def updateWith {M : Type} (key : Bytes) (read : Obj → Option M) (wrap : M → Obj) (empty : M)
    (write : M → Written M) (arguments : Record) : Outcome :=
  let store (m : M) (d : Option ℕ) : Outcome :=
    ⟨update ks key (some (wrap (write m).map, d)), (· = .integer (write m).added),
      if (write m).changed then some arguments else none⟩
  match ks key with
  | none => store empty none
  | some (o, d) =>
    match read o with
    | none => .reads ks (· = .error .wrongtype)
    | some m => store m d

open Classical in
/-- a collection loses items; an empty one is removed -/
noncomputable def removeWith {V : Type} (ks : Keyspace) (key : Bytes) (read : Obj → Option (Bytes → Option V))
    (wrap : (Bytes → Option V) → Obj) (items : List Bytes) (arguments : Record) : Outcome :=
  answerWith ks key read (.integer 0) fun m d =>
    let r := removeItems m items
    ⟨if r.2 = 0 then ks
      else if ∀ item, r.1 item = none then update ks key none
      else update ks key (some (wrap r.1, d)),
      (· = .integer r.2), if r.2 = 0 then none else some arguments⟩

/-- the milliseconds left, at most 2^63-1; -1 without a deadline -/
def remaining (t : ℕ) : Option ℕ → ℤ
  | none => -1
  | some d => min (d - t : ℕ) (2 ^ 63 - 1)

/-- the bytes of an array of bulk strings on the wire -/
def arraySize (elements : List Bytes) : ℕ :=
  1 + decimalDigits elements.length + 2 + (elements.map fun e => 1 + decimalDigits e.length + 2 + e.length + 2).sum

/-- an array, unless it has too many elements or bytes -/
def boundedArray (elements : List Bytes) : Reply :=
  if elements.length > 65536 ∨ arraySize elements > 1024 * 1024 then .error .responseTooLarge else .array elements

/-- the elements of a range -/
def rangeElements (libc : Libc) (withScores : Bool) (items : List Item) : List Bytes :=
  items.flatMap fun i => if withScores then [i.member, libc.formatScore i.score] else [i.member]

/-- **The reference semantics** of a request at time `t`, on a keyspace of live objects. -/
noncomputable def perform (libc : Libc) (t : ℕ) (ks : Keyspace) (arguments : Record) : Request → Outcome
  | .set key value d =>
    ⟨update ks key (some (.string value, d)), (· = .simple "OK"), some (Service.setRecord key value (d.getD 0))⟩
  | .get key => answerWith ks key Obj.string? .nullBulk fun value _ => .reads ks (· = .bulk value)
  | .del key =>
    match ks key with
    | none => .reads ks (· = .integer 0)
    | some _ => ⟨update ks key none, (· = .integer 1), some (Service.delRecord key)⟩
  | .ping none => .reads ks (· = .simple "PONG")
  | .ping (some message) => .reads ks (· = .bulk message)
  | .expireAt key d =>
    match ks key with
    | none => .reads ks (· = .integer 0)
    | some (o, _) => ⟨update ks key (some (o, some d)), (· = .integer 1), some (Service.pexpireatRecord key d)⟩
  | .ttl key =>
    match ks key with
    | none => .reads ks (· = .integer (-2))
    | some (_, d) => .reads ks (· = .integer (if d.isSome then remaining t d / 1000 else -1))
  | .pttl key =>
    match ks key with
    | none => .reads ks (· = .integer (-2))
    | some (_, d) => .reads ks (· = .integer (remaining t d))
  | .persist key =>
    match ks key with
    | some (o, some _) => ⟨update ks key (some (o, none)), (· = .integer 1), some (Service.persistRecord key)⟩
    | _ => .reads ks (· = .integer 0)
  | .hset key pairs => updateWith ks key Obj.hash? .hash (fun _ => none) (setFields · pairs) arguments
  | .hget key field =>
    answerWith ks key Obj.hash? .nullBulk fun m _ => .reads ks (· = .ofOption (m field))
  | .hdel key fields => removeWith ks key Obj.hash? .hash fields arguments
  | .hlen key => answerWith ks key Obj.hash? (.integer 0) fun m _ => .reads ks (· = .integer {f | (m f).isSome}.ncard)
  | .hgetall key =>
    answerWith ks key Obj.hash? (.array []) fun m _ =>
      .reads ks fun r => ∃ l, Lists m l ∧ r = boundedArray (l.flatMap fun p => [p.1, p.2])
  | .zadd key pairs => updateWith ks key Obj.zset? .zset (fun _ => none) (addMembers · pairs) arguments
  | .zrem key members => removeWith ks key Obj.zset? .zset members arguments
  | .zscore key member =>
    answerWith ks key Obj.zset? .nullBulk fun m _ => .reads ks (· = .ofOption ((m member).map libc.formatScore))
  | .zcard key => answerWith ks key Obj.zset? (.integer 0) fun m _ => .reads ks (· = .integer {k | (m k).isSome}.ncard)
  | .zrange key start stop withScores =>
    answerWith ks key Obj.zset? (.array []) fun m _ =>
      .reads ks fun r => ∃ l, ZSet.Enumerates m l ∧ r = boundedArray (rangeElements libc withScores (ZSet.slice l start stop))
  | .server => .reads ks fun _ => True

/-- **The reference** for a list of arguments: an error is answered and changes nothing. -/
noncomputable def reference (libc : Libc) (t : ℕ) (ks : Keyspace) (arguments : Record) : Outcome :=
  match readRequest libc t arguments with
  | .error e => .reads ks (· = .error e)
  | .ok request => perform libc t ks arguments request

end StoreSystem
