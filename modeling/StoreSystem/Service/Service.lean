/-
The command service (`src/service/kvstore_resp_service.c`): execution of one request against the cache, the records it
appends to the AOF, the mutation it submits to MySQL, and the replay of a record at startup.

A request is the list of its arguments. What the environment does during a request is an input (`Env`): the outcomes of
the allocations, whether the AOF has failed, accepts a transaction, each single append and a commit, how much of its
transaction a failed commit leaves queued, whether each copy into the mutation buffer succeeds, and whether the MySQL store
accepts and queues a write. Each result also says whether the request ran out of memory: an allocation failed, or a size
was computed that `SIZE_MAX` cannot hold. Records are lists of arguments, in the order in which they were appended; the
`DEL` records of the eviction callback come before the record of the request that evicted.

Of the INFO texts only the call is modelled (`Admin.info`), as are the two persistence callbacks.
-/
import StoreSystem.Service.Command
import StoreSystem.Cache.Operations

namespace StoreSystem

/-! ## State -/

/-- an AOF record, or the arguments of a request -/
abbrev Record := List Bytes

inductive SaveResult
  | done
  | busy
  | notSupported
  | failed
deriving DecidableEq, Repr

inductive InfoSection
  | cache
  | persistence
  | mysql
deriving DecidableEq, Repr

/-- the persistence callbacks and the INFO texts; `none` when a callback is not set or a text does not fit its buffer -/
structure Admin where
  save : Option (Bool → SaveResult)
  lastsave : Option ℕ
  info : Cache → InfoSection → Option Bytes

/-- a service without callbacks for its administration -/
def Admin.none : Admin := ⟨Option.none, Option.none, fun _ _ => Option.none⟩

/-- the attached MySQL store as the service sees it -/
structure MysqlLink where
  writerUuid : Bytes
  nextSequence : ℕ
deriving DecidableEq, Repr

/-- `struct kvstore_service` -/
structure Service where
  cache : Cache
  /-- whether an AOF is attached -/
  aof : Bool
  zsetEngine : ZsetEngine
  replyElementCapacity : ℕ
  replyScoreCapacity : ℕ
  admin : Admin
  dirtyChanges : ℕ
  mysql : Option MysqlLink

/-- what the environment does during one request -/
structure Env where
  /-- the allocation of a new object -/
  object : Bool
  clone : CloneAlloc
  /-- the allocations of the n-th write to a Hash -/
  hash : ℕ → HashAlloc
  /-- the allocations of the n-th write to a ZSet -/
  zset : ℕ → ZSet.Alloc
  cache : Cache.Alloc
  /-- the copy of the n-th score text -/
  copy : ℕ → Bool
  elements : Bool
  scores : Bool
  aofFailed : Bool
  aofBegin : Bool
  /-- the append of the request's own record -/
  aofAppend : Bool
  /-- the append for the n-th key that is evicted -/
  evictionAppend : ℕ → Bool
  markerAppend : Bool
  /-- `capture_mysql_mutation` of the own record: the buffer is large enough, or can grow -/
  ownCopy : Bool
  /-- and of the record for the n-th key that is evicted -/
  evictionCopy : ℕ → Bool
  aofCommit : Bool
  /-- the bytes of its transaction that a failed commit leaves queued -/
  aofCut : ℕ
  mysqlAccepts : Bool
  mysqlSubmits : Bool

/-- the result of `execute_command` -/
structure Executed where
  service : Service
  reply : Reply
  records : List Record
  outOfMemory : Bool

namespace Service

-- what a command runs with: the outcomes of its system calls and allocations, the service, and the request
variable (hash : Hasher) (libc : Libc) (env : Env) (s : Service) (arguments : Record)

def withCache (c : Cache) : Service := { s with cache := c }

/-- a reply with no record -/
def answer (reply : Reply) : Executed := ⟨s, reply, [], false⟩

/-- an allocation has failed -/
def exhausted : Executed := ⟨s, .error .internal, [], true⟩

/-- `append_key_command` and its siblings, after the change they log. With MySQL the record is then copied; when that fails it
stays in the transaction. -/
def appendRecord (record : Record) (reply : Reply) : Executed :=
  if s.aof then
    if env.aofAppend then ⟨s, if s.mysql.isSome ∧ ¬ env.ownCopy then .error .aof else reply, [record], false⟩
    else ⟨s, .error .aof, [], false⟩
  else ⟨s, reply, [], false⟩

def argument (index : ℕ) : Bytes := arguments.getD index []

def delRecord (key : Bytes) : Record := [ascii "DEL", key]

def persistRecord (key : Bytes) : Record := [ascii "PERSIST", key]

def pexpireatRecord (key : Bytes) (deadline : ℕ) : Record := [ascii "PEXPIREAT", key, decimalText deadline]

/-- the record of `append_set_command` -/
def setRecord (key value : Bytes) (deadline : ℕ) : Record :=
  [ascii "SET", key, value] ++ if deadline ≠ 0 then [ascii "PXAT", decimalText deadline] else []

/-- whether the charge of a new entry is too large for a `size_t` -/
def chargeOverflows (key : Bytes) (o : KvObject) : Bool := Cache.entryMemoryCharge key.length o = sizeMax

/-! ## Strings and deadlines -/

/-- the reading of the duration in `execute_set` -/
def setTtl (text : Bytes) (multiplier : ℕ) : Except ServiceError ℕ :=
  match durationMs text multiplier true with
  | .notPositive => .error .expire
  | .invalid => .error .integer
  | .ok _ ttlMs => .ok ttlMs

/-- the duration of `SET key value EX|PX duration`, 0 without one -/
def setDuration : Except ServiceError ℕ :=
  if arguments.length = 5 then
    if argumentEquals (argument arguments 3) "EX" then setTtl (argument arguments 4) 1000
    else if argumentEquals (argument arguments 3) "PX" then setTtl (argument arguments 4) 1
    else .error .malformed
  else .ok 0

def executeSet : Executed :=
  let key := argument arguments 1
  let value := argument arguments 2
  match setDuration arguments with
  | .error e => s.answer (.error e)
  | .ok ttlMs =>
    let now := s.cache.cacheNow
    let s := s.withCache now.2
    if ttlMs ≠ 0 ∧ ttlMs > uint64Max - now.1 then s.answer (.error .integer)
    else
      let expireAtMs := if ttlMs ≠ 0 then now.1 + ttlMs else 0
      let r := s.cache.cacheSetExpireAt hash env.object env.cache key value expireAtMs
      let s := s.withCache r.1
      match r.2 with
      | .ok => s.appendRecord env (setRecord key value expireAtMs) (.simple "OK")
      | .capacity =>
        ⟨s, .error .capacity, [], (kvObjectCreateString env.object value).any (chargeOverflows key)⟩
      | .range => s.answer (.error .integer)
      | .error => s.exhausted

/-- the replies of `execute_expire` to the result of the cache -/
def finishExpire (result : ℤ) (record : Record) : Executed :=
  if result = -2 then s.answer (.error .integer)
  else if result < 0 then s.exhausted
  else if result > 0 then s.appendRecord env record (.integer result)
  else s.answer (.integer result)

def executeExpire (multiplier : ℕ) : Executed :=
  let key := argument arguments 1
  match durationMs (argument arguments 2) multiplier false with
  | .invalid | .notPositive => s.answer (.error .integer)
  | .ok parsed ttlMs =>
    if parsed ≤ 0 then
      let r := s.cache.cacheDelete hash key
      (s.withCache r.1).finishExpire env r.2 (delRecord key)
    else
      let now := s.cache.cacheNow
      let s := s.withCache now.2
      if ttlMs > uint64Max - now.1 then s.answer (.error .integer)
      else
        let r := s.cache.cacheExpireAt hash env.cache.heap key (now.1 + ttlMs)
        (s.withCache r.1).finishExpire env r.2 (pexpireatRecord key (now.1 + ttlMs))

def executeDel : Executed :=
  let key := argument arguments 1
  let r := s.cache.cacheDelete hash key
  let s := s.withCache r.1
  if r.2 < 0 then s.answer (.error .internal)
  else if r.2 > 0 then s.appendRecord env (delRecord key) (.integer r.2)
  else s.answer (.integer r.2)

def executePersist : Executed :=
  let key := argument arguments 1
  let r := s.cache.cachePersist hash key
  let s := s.withCache r.1
  if r.2 < 0 then s.answer (.error .internal)
  else if r.2 > 0 then s.appendRecord env (persistRecord key) (.integer r.2)
  else s.answer (.integer r.2)

/-- `TTL` and `PTTL` -/
def executeTtl (seconds : Bool) : Executed :=
  let r := s.cache.cacheTtlMs hash (argument arguments 1)
  (s.withCache r.1).answer (.integer (if seconds ∧ r.2 ≥ 0 then r.2 / 1000 else r.2))

/-! ## Reads of typed objects -/

/-- the object under a key, for a request that has an answer to a missing key and wants one type -/
def readObject (found : Cache × Option ℕ) (type : KvType) (missing : Reply)
    (read : Service → ℕ → KvObject → Executed) : Executed :=
  let s := s.withCache found.1
  match found.2 with
  | none => s.answer missing
  | some id =>
    let object := (found.1.entry id).object
    if kvObjectType object ≠ type then s.answer (.error .wrongtype) else read s id object

/-- write back what a read did to the object -/
def putObject (id : ℕ) (object : KvObject) : Service := s.withCache (s.cache.mutate id object)

def executeGet : Executed :=
  s.readObject (s.cache.cacheGetObjectRef hash (argument arguments 1) true) .string .nullBulk fun s _ object =>
    s.answer (.bulk ((kvObjectStringValue object).getD []))

def executeHget : Executed :=
  s.readObject (s.cache.cacheGetHashObjectRef hash (argument arguments 1) true) .hash .nullBulk fun s id object =>
    let r := kvObjectHashGet hash object (argument arguments 2)
    (s.putObject id r.1).answer (.ofOption r.2)

def executeHlen : Executed :=
  s.readObject (s.cache.cacheGetHashObjectRef hash (argument arguments 1) true) .hash (.integer 0) fun s _ object =>
    s.answer (.integer (kvObjectHashLength object))

def executeZcard : Executed :=
  s.readObject (s.cache.cacheGetObjectRef hash (argument arguments 1) true) .zset (.integer 0) fun s _ object =>
    s.answer (.integer (kvObjectZsetLength object))

/-! ## Reply buffers -/

inductive ReserveResult
  | ok
  | failed
  | tooLarge
deriving DecidableEq, Repr

/-- the doubling loop of the two reservations; thirty-two rounds double 16 past either limit -/
def growReply (limit : ℕ) : ℕ → ℕ → ℕ → ℕ
  | 0, capacity, _ => capacity
  | fuel + 1, capacity, count =>
    if capacity < count then if capacity > limit / 2 then limit else growReply limit fuel (capacity * 2) count
    else capacity

def reserveReplyElements (ok : Bool) (s : Service) (count : ℕ) : Service × ReserveResult :=
  if count > serviceMaxArrayElements then (s, .tooLarge)
  else if count ≤ s.replyElementCapacity then (s, .ok)
  else
    let capacity := growReply serviceMaxArrayElements 32 (if s.replyElementCapacity = 0 then 16 else s.replyElementCapacity) count
    if ok then ({ s with replyElementCapacity := capacity }, .ok) else (s, .failed)

def reserveScoreBuffer (ok : Bool) (s : Service) (bytes : ℕ) : Service × ReserveResult :=
  if bytes ≤ s.replyScoreCapacity then (s, .ok)
  else
    let capacity := growReply serviceMaxResponse 32 (if s.replyScoreCapacity = 0 then 256 else s.replyScoreCapacity) bytes
    if capacity < bytes then (s, .tooLarge)
    else if ok then ({ s with replyScoreCapacity := capacity }, .ok) else (s, .failed)

/-- the reply to a failed reservation -/
def reserveFailed : ReserveResult → Executed
  | .tooLarge => s.answer (.error .responseTooLarge)
  | _ => s.exhausted

/-- `hash_array_context_t` and `zrange_array_context_t` -/
structure Collection where
  elements : List Bytes
  encodedSize : ℕ
  tooLarge : Bool
deriving DecidableEq, Repr

def collectHashPair (c : Collection) (pair : Bytes × Bytes) : Collection × Bool :=
  let fieldSize := bulkEncodedSize pair.1.length
  let valueSize := bulkEncodedSize pair.2.length
  if fieldSize = sizeMax ∨ valueSize = sizeMax ∨ c.encodedSize > sizeSub serviceMaxResponse fieldSize ∨
      (c.encodedSize + fieldSize) % 2 ^ 64 > sizeSub serviceMaxResponse valueSize then
    ({ c with tooLarge := true }, false)
  else
    ({ c with
       elements := c.elements ++ [pair.1, pair.2]
       encodedSize := (c.encodedSize + fieldSize + valueSize) % 2 ^ 64 }, true)

/-- one element enters the array unless the response grows too large -/
def collectElement (c : Collection) (element : Bytes) : Collection × Bool :=
  let size := bulkEncodedSize element.length
  if size = sizeMax ∨ c.encodedSize > sizeSub serviceMaxResponse size then ({ c with tooLarge := true }, false)
  else ({ c with elements := c.elements ++ [element], encodedSize := (c.encodedSize + size) % 2 ^ 64 }, true)

def collectZsetMember (withScores : Bool) (c : Collection) (i : Item) : Collection × Bool :=
  match collectElement c i.member with
  | (c, false) => (c, false)
  | (c, true) =>
    if withScores then
      let text := libc.formatScore i.score
      if text.length ≥ 32 then (c, false) else collectElement c text
    else (c, true)

/-- the end of both collections -/
def finishCollection (r : Collection × Bool) : Executed :=
  if r.2 then s.answer (.array r.1.elements)
  else s.answer (.error (if r.1.tooLarge then .responseTooLarge else .internal))

def executeHgetall : Executed :=
  s.readObject (s.cache.cacheGetHashObjectRef hash (argument arguments 1) true) .hash (.array []) fun s _ object =>
    let fields := kvObjectHashLength object
    if fields > serviceMaxArrayElements / 2 then s.answer (.error .responseTooLarge)
    else
      match s.reserveReplyElements env.elements (fields * 2) with
      | (s, .ok) =>
        s.finishCollection (kvObjectHashVisit object collectHashPair ⟨[], decimalDigits (fields * 2) + 3, false⟩)
      | (s, failure) => s.reserveFailed failure

/-- `count_zset_member` -/
def countZsetMember (count : ℕ) (_ : Item) : ℕ × Bool := (count + 1, true)

/-- the part of `execute_zrange` after the count, once the buffers are there -/
def collectRange (object : KvObject) (start stop : ℤ) (withScores : Bool) (count : ℕ) : Executed :=
  let elementCount := count * if withScores then 2 else 1
  match s.reserveReplyElements env.elements elementCount with
  | (s, .ok) =>
    match if withScores then s.reserveScoreBuffer env.scores (count * 32) else (s, .ok) with
    | (s, .ok) =>
      let r := kvObjectZsetRange object start stop (collectZsetMember libc withScores) ⟨[], decimalDigits elementCount + 3, false⟩
      s.finishCollection (r.1, r.2.isSome)
    | (s, failure) => s.reserveFailed failure
  | (s, failure) => s.reserveFailed failure

def executeZrange : Executed :=
  let withScores := arguments.length = 5
  match parseInt64 (argument arguments 2), parseInt64 (argument arguments 3) with
  | some start, some stop =>
    if withScores ∧ ¬ argumentEquals (argument arguments 4) "WITHSCORES" then s.answer (.error .malformed)
    else
      s.readObject (s.cache.cacheGetObjectRef hash (argument arguments 1) true) .zset (.array []) fun s _ object =>
        match kvObjectZsetRange object start stop countZsetMember 0 with
        | (_, none) => s.answer (.error .internal)
        | (count, some _) =>
          if count > serviceMaxArrayElements / (if withScores then 2 else 1) then s.answer (.error .responseTooLarge)
          else s.collectRange libc env object start stop withScores count
  | _, _ => s.answer (.error .integer)

def executeZscore : Executed :=
  s.readObject (s.cache.cacheGetObjectRef hash (argument arguments 1) true) .zset .nullBulk fun s id object =>
    let r := kvObjectZsetScore hash object (argument arguments 2)
    let s := s.putObject id r.1
    match r.2 with
    | none => s.answer (.error .internal)
    | some none => s.answer .nullBulk
    | some (some score) =>
      match s.reserveScoreBuffer env.scores 32 with
      | (s, .ok) =>
        if (libc.formatScore score).length ≥ 32 then s.answer (.error .internal) else s.answer (.bulk (libc.formatScore score))
      | (s, .failed) => s.exhausted
      | (s, .tooLarge) => s.answer (.error .internal)

/-! ## Writes to typed objects -/

/-- the arguments two by two -/
def pairsOf : List Bytes → List (Bytes × Bytes)
  | first :: second :: rest => (first, second) :: pairsOf rest
  | _ => []

variable {W : Type}

/-- the loop over the pairs of `HSET` and `ZADD`: the number of items added and whether anything changed; `none` when a
write failed, and then the later pairs are not written -/
def writeAll (write : ℕ → KvObject → W → KvObject × Option ZSet.SetResult) :
    ℕ → KvObject → List W → KvObject × Option (ℕ × Bool)
  | _, object, [] => (object, some (0, false))
  | index, object, w :: ws =>
    match write index object w with
    | (object, none) => (object, none)
    | (object, some result) =>
      match writeAll write (index + 1) object ws with
      | (object, none) => (object, none)
      | (object, some (added, changed)) => (object, some (result.added.toNat + added, result.changed || changed))

/-- `set_object_error`; a result that is not the capacity error means that memory is out -/
def objectError (key : Bytes) (object : KvObject) : CacheSetResult → Executed
  | .capacity => ⟨s, .error .capacity, [], chargeOverflows key object⟩
  | _ => s.exhausted

/-- the pairs are written to an object of the request's own, which then takes the key's place -/
def updateCopy (write : ℕ → KvObject → W → KvObject × Option ZSet.SetResult) (ws : List W) (working : KvObject) : Executed :=
  match writeAll write 0 working ws with
  | (_, none) => s.exhausted
  | (_, some (added, false)) => s.answer (.integer added)
  | (working, some (added, true)) =>
    let r := s.cache.cacheStoreObject hash env.cache (argument arguments 1) working 0 true
    let s := s.withCache r.1
    match r.2 with
    | .ok => s.appendRecord env arguments (.integer added)
    | failure => s.objectError (argument arguments 1) working failure

/-- the one pair is written to the stored object -/
def updateInPlace
    (write : ℕ → KvObject → W → KvObject × Option ZSet.SetResult) (ws : List W) (id : ℕ) (object : KvObject) : Executed :=
  match writeAll write 0 object ws with
  | (object, none) => (s.putObject id object).exhausted
  | (object, some (added, false)) => (s.putObject id object).answer (.integer added)
  | (object, some (added, true)) =>
    let s := s.putObject id object
    let r := s.cache.cacheRechargeRef (some id)
    let s := s.withCache r.1
    match r.2 with
    | .ok => s.appendRecord env arguments (.integer added)
    | .capacity => s.objectError (argument arguments 1) object .capacity
    -- the entry has expired since it was found
    | _ => s.answer (.error .internal)

/-- the common body of `execute_hset` and `execute_zadd` -/
def updateCollection (found : Cache × Option ℕ) (type : KvType) (create : Option KvObject)
    (write : ℕ → KvObject → W → KvObject × Option ZSet.SetResult) (ws : List W) : Executed :=
  let s := s.withCache found.1
  match found.2 with
  | none =>
    match create with
    | none => s.exhausted
    | some working => s.updateCopy hash env arguments write ws working
  | some id =>
    let original := (found.1.entry id).object
    if kvObjectType original ≠ type then s.answer (.error .wrongtype)
    else if ws.length > 1 ∨ found.1.maxMemory ≠ 0 then
      match kvObjectClone hash env.clone original with
      | none => s.exhausted
      | some working => s.updateCopy hash env arguments write ws working
    else s.updateInPlace env arguments write ws id original

def executeHset : Executed :=
  s.updateCollection hash env arguments (s.cache.cacheGetHashObjectRef hash (argument arguments 1) false) .hash
    (kvObjectCreateHash env.object) (fun index object pair => kvObjectHashSet hash (env.hash index) object pair.1 pair.2)
    (pairsOf (arguments.drop 2))

/-- the scores of `ZADD`, parsed before the key is looked up -/
def parseScores (libc : Libc) (env : Env) : ℕ → List (Bytes × Bytes) → Except ServiceError (List (Score × Bytes))
  | _, [] => .ok []
  | index, pair :: pairs =>
    match parseDoubleArgument libc (env.copy index) pair.1 with
    | .error e => .error e
    | .ok score =>
      match parseScores libc env (index + 1) pairs with
      | .error e => .error e
      | .ok scores => .ok ((score, pair.2) :: scores)

/-- the elements of `zadd_scores` -/
def zaddScores : ℕ := 64

def executeZadd : Executed :=
  let pairs := pairsOf (arguments.drop 2)
  if pairs.length > zaddScores then s.answer (.error .internal)
  else
    match parseScores libc env 0 pairs with
    | .error e => ⟨s, .error e, [], e = .internal⟩
    | .ok scores =>
      s.updateCollection hash env arguments (s.cache.cacheGetObjectRef hash (argument arguments 1) false) .zset
        (kvObjectCreateZset env.object s.zsetEngine)
        (fun index object pair => kvObjectZsetAdd hash (env.zset index) object pair.1 pair.2) scores

/-- the loop over the items of `HDEL` and `ZREM`: the number of items removed, `none` when a removal failed -/
def removeAll (remove : KvObject → Bytes → KvObject × Option Bool) : KvObject → List Bytes → KvObject × Option ℕ
  | object, [] => (object, some 0)
  | object, item :: items =>
    match remove object item with
    | (object, none) => (object, none)
    | (object, some removed) =>
      match removeAll remove object items with
      | (object, none) => (object, none)
      | (object, some count) => (object, some (removed.toNat + count))

/-- the part of `execute_hdel` and `execute_zrem` after the removals: an empty collection leaves the keyspace -/
def finishRemoval (id : ℕ) (object : KvObject) (length removed : ℕ) : Executed :=
  if removed > 0 then
    if length = 0 then
      let r := s.cache.cacheDelete hash (argument arguments 1)
      let s := s.withCache r.1
      if r.2 < 0 then s.answer (.error .internal) else s.appendRecord env arguments (.integer removed)
    else
      let r := s.cache.cacheRechargeRef (some id)
      let s := s.withCache r.1
      match r.2 with
      | .ok => s.appendRecord env arguments (.integer removed)
      | .capacity => ⟨s, .error .internal, [], chargeOverflows (argument arguments 1) object⟩
      | _ => s.answer (.error .internal)
  else s.answer (.integer removed)

/-- the common body of `execute_hdel` and `execute_zrem` -/
def removeItems (found : Cache × Option ℕ)
    (type : KvType) (remove : KvObject → Bytes → KvObject × Option Bool) (length : KvObject → ℕ) : Executed :=
  s.readObject found type (.integer 0) fun s id object =>
    match removeAll remove object (arguments.drop 2) with
    | (object, none) => (s.putObject id object).answer (.error .internal)
    | (object, some removed) =>
      (s.putObject id object).finishRemoval hash env arguments id object (length object) removed

def executeHdel : Executed :=
  s.removeItems hash env arguments (s.cache.cacheGetHashObjectRef hash (argument arguments 1) false) .hash
    (kvObjectHashDelete hash) kvObjectHashLength

def executeZrem : Executed :=
  s.removeItems hash env arguments (s.cache.cacheGetObjectRef hash (argument arguments 1) false) .zset
    (kvObjectZsetRemove hash) kvObjectZsetLength

/-! ## Server commands -/

def executeInfo : Executed :=
  let text (section_ : InfoSection) :=
    match s.admin.info s.cache section_ with
    | none => s.answer (.error .internal)
    | some data => s.answer (.bulk data)
  if argumentEquals (argument arguments 1) "PERSISTENCE" then text .persistence
  else if argumentEquals (argument arguments 1) "MYSQL" then text .mysql
  else if argumentEquals (argument arguments 1) "CACHE" then text .cache
  else s.answer (.error .malformed)

def executeSaveCommand (background : Bool) : Executed :=
  match s.admin.save with
  | none => s.answer (.error .rdbDisabled)
  | some save =>
    match save background with
    | .done => s.answer (.simple (if background then "Background saving started" else "OK"))
    | .busy => s.answer (.error .saveBusy)
    | .notSupported => s.answer (.error .rdbDisabled)
    | .failed => s.answer (.error .internal)

def executePing : Executed :=
  if arguments.length = 2 then s.answer (.bulk (argument arguments 1)) else s.answer (.simple "PONG")

/-! ## Execution -/

/-- the switch of `execute_command` -/
def dispatch (command : ServiceCommand) (arguments : Record) : Executed :=
  match command with
  | .set => s.executeSet hash env arguments
  | .get => s.executeGet hash arguments
  | .del => s.executeDel hash env arguments
  | .ping => s.executePing arguments
  | .expire => s.executeExpire hash env arguments 1000
  | .pexpire => s.executeExpire hash env arguments 1
  | .ttl => s.executeTtl hash arguments true
  | .pttl => s.executeTtl hash arguments false
  | .persist => s.executePersist hash env arguments
  | .info => s.executeInfo arguments
  | .dbsize => s.answer (.integer (KvHash.kvHashCount s.cache.index))
  | .save => s.executeSaveCommand false
  | .bgsave => s.executeSaveCommand true
  | .lastsave => s.answer (.integer (s.admin.lastsave.getD 0))
  | .hset => s.executeHset hash env arguments
  | .hget => s.executeHget hash arguments
  | .hdel => s.executeHdel hash env arguments
  | .hlen => s.executeHlen hash arguments
  | .hgetall => s.executeHgetall hash env arguments
  | .zadd => s.executeZadd hash libc env arguments
  | .zrem => s.executeZrem hash env arguments
  | .zscore => s.executeZscore hash libc env arguments
  | .zcard => s.executeZcard hash arguments
  | .zrange => s.executeZrange hash libc env arguments
  | .unknown => s.answer (.error .unknown)

/-- the records of the eviction callback between two states of the cache, for those keys that are taken -/
def evictionRecords (takes : ℕ → Bool) (s : Service) (after : Cache) : List Record :=
  if s.aof then (((after.evicted.drop s.cache.evicted.length).zipIdx.filter fun p => takes p.2).map Prod.fst).map delRecord
  else []

theorem evictionRecords_all {takes : ℕ → Bool} (h : ∀ n, takes n = true) (s : Service) (after : Cache) :
    s.evictionRecords takes after = if s.aof then (after.evicted.drop s.cache.evicted.length).map delRecord else [] := by
  unfold evictionRecords
  rw [List.filter_eq_self.2 fun p _ => h p.2, List.zipIdx_map_fst]

def executeCommand (command : ServiceCommand) (arguments : Record) : Executed :=
  if command = .unknown then s.answer (.error .unknown)
  else if ¬ commandArityValid command arguments.length then s.answer (.error .arity)
  else if isWriteCommand command ∧ s.aof ∧ env.aofFailed then s.answer (.error .aof)
  else
    let e := s.dispatch hash libc env command arguments
    { e with records := s.evictionRecords env.evictionAppend e.service.cache ++ e.records }

/-! ## Transactions -/

/-- the result of `kvstore_service_execute_with_barrier`: the committed records, the mutation MySQL has queued, and the records of
a transaction whose commit has failed -/
structure Response where
  service : Service
  reply : Reply
  records : List Record
  submitted : Option (ℕ × Record)
  outOfMemory : Bool
  unfinished : List Record

/-- a request that is refused before it is executed -/
def refuse (e : ServiceError) : Response := ⟨s, .error e, [], none, false, []⟩

def hexDigit (n : ℕ) : UInt8 := if n < 10 then (48 + n).toUInt8 else (87 + n).toUInt8

/-- the record of `append_mysql_marker` -/
def markerRecord (uuid : Bytes) (sequence : ℕ) : Record :=
  [ascii "PING", ascii "KVMYSQL1:" ++ (uuid.flatMap fun b => [hexDigit (b.toNat / 16), hexDigit (b.toNat % 16)]) ++ ascii ":" ++
    decimalText sequence]

def mysqlWriteEstimate : ℕ := min sizeMax (128 + (arguments.map List.length).sum)

/-- the mutation buffer after `execute_command`: the last record that was appended and copied. Only an own record stands behind
those of the evictions. -/
def captured (e : Executed) : Option Record :=
  if (s.evictionRecords env.evictionAppend e.service.cache).length < e.records.length ∧ env.ownCopy then e.records.getLast?
  else (s.evictionRecords (fun n => env.evictionAppend n && env.evictionCopy n) e.service.cache).getLast?

/-- the end of a transaction, with what was captured -/
def commit (e : Executed) (link : Option MysqlLink) (mutation : Option Record) : Response :=
  match link, mutation with
  | some link, some mutation =>
    let candidate := (link.nextSequence + 1) % 2 ^ 64
    let records := e.records ++ [markerRecord link.writerUuid candidate]
    if ¬ env.markerAppend then ⟨s, .error .aof, [], none, e.outOfMemory, []⟩
    else if ¬ env.aofCommit then ⟨s, .error .aof, [], none, e.outOfMemory, records⟩
    else
      let s := { s with mysql := some { link with nextSequence := candidate } }
      if env.mysqlSubmits then ⟨s, e.reply, records, some (candidate, mutation), e.outOfMemory, []⟩
      else ⟨s, .error .mysqlQueue, records, none, e.outOfMemory, []⟩
  | _, _ =>
    if env.aofCommit then ⟨s, e.reply, e.records, none, e.outOfMemory, []⟩
    else ⟨s, .error .aof, [], none, e.outOfMemory, e.records⟩

/-- `kvstore_service_execute_with_barrier`, on a request with at least one argument -/
def executeWithBarrier : Response :=
  let command := findCommand (argument arguments 0)
  let logicalWrite := command ≠ .unknown ∧ commandArityValid command arguments.length ∧ isWriteCommand command
  let writeCommand := logicalWrite ∧ s.aof
  let link := if logicalWrite then s.mysql else none
  if link.isSome ∧ ¬ s.aof then s.refuse .aof
  else if link.isSome ∧ (mysqlWriteEstimate arguments = sizeMax ∨ ¬ env.mysqlAccepts) then s.refuse .mysqlQueue
  else if link.any fun l => (l.nextSequence + 1) % 2 ^ 64 = 0 then s.refuse .internal
  else if writeCommand ∧ ¬ env.aofBegin then s.refuse .aofQueue
  else
    let e := s.executeCommand hash libc env command arguments
    let counted := if logicalWrite ∧ ¬ e.reply.isError then { e.service with dirtyChanges := e.service.dirtyChanges + 1 } else e.service
    if writeCommand then counted.commit env e link (s.captured env e) else ⟨counted, e.reply, e.records, none, e.outOfMemory, []⟩

/-! ## Replay -/

/-- the result of `kvstore_service_replay_aof`: whether it returned 0 -/
structure Replayed where
  service : Service
  ok : Bool
  outOfMemory : Bool

/-- the deletion that stands for a deadline that has passed -/
def replayDelete (key : Bytes) : Replayed :=
  let r := s.cache.cacheDelete hash key
  ⟨s.withCache r.1, ¬ r.2 < 0, false⟩

/-- the absolute deadline of a record -/
def replayDeadline (text : Bytes) : Option ℕ :=
  match parseUint64Bytes text with
  | some deadline => if deadline = 0 then none else some deadline
  | none => none

def replaySet (now : ℕ) (key value : Bytes) (deadline : ℕ) : Replayed :=
  if deadline ≠ 0 ∧ deadline ≤ now then s.replayDelete hash key
  else
    let r := s.cache.cacheSetExpireAt hash env.object env.cache key value deadline
    ⟨s.withCache r.1, r.2 = .ok,
      r.2 = .error ∨ r.2 = .capacity ∧ (kvObjectCreateString env.object value).any (chargeOverflows key)⟩

def replayExpireAt (now : ℕ) (key : Bytes) (deadline : ℕ) : Replayed :=
  if deadline ≤ now then s.replayDelete hash key
  else
    let r := s.cache.cacheExpireAt hash env.cache.heap key deadline
    ⟨s.withCache r.1, ¬ r.2 < 0, r.2 < 0⟩

/-- the names of the records that are executed as requests -/
def replayedByExecution (name : Bytes) : Bool :=
  argumentEquals name "HSET" || argumentEquals name "HDEL" || argumentEquals name "ZADD" || argumentEquals name "ZREM"

/-- `kvstore_service_replay_aof` -/
def replayAof : Replayed :=
  let name := argument arguments 0
  let key := argument arguments 1
  if arguments = [] then ⟨s, false, false⟩
  else if argumentEquals name "PING" ∧ (arguments.length = 1 ∨ arguments.length = 2) then ⟨s, true, false⟩
  else
    let now := s.cache.cacheNow
    let s := s.withCache now.2
    if argumentEquals name "SET" then
      if arguments.length = 3 then s.replaySet hash env now.1 key (argument arguments 2) 0
      else if arguments.length = 5 ∧ argumentEquals (argument arguments 3) "PXAT" then
        match replayDeadline (argument arguments 4) with
        | none => ⟨s, false, false⟩
        | some deadline => s.replaySet hash env now.1 key (argument arguments 2) deadline
      else ⟨s, false, false⟩
    else if argumentEquals name "DEL" ∧ arguments.length = 2 then s.replayDelete hash key
    else if argumentEquals name "PERSIST" ∧ arguments.length = 2 then
      let r := s.cache.cachePersist hash key
      ⟨s.withCache r.1, ¬ r.2 < 0, false⟩
    else if argumentEquals name "PEXPIREAT" ∧ arguments.length = 3 then
      match replayDeadline (argument arguments 2) with
      | none => ⟨s, false, false⟩
      | some deadline => s.replayExpireAt hash env now.1 key deadline
    else if replayedByExecution name then
      if arguments.length > respMaxArguments then ⟨s, false, false⟩
      else
        let r := s.executeWithBarrier hash libc env arguments
        ⟨r.service, ¬ r.reply.isError, r.outOfMemory⟩
    else ⟨s, false, false⟩

/-! ## Startup and upkeep -/

/-- `kvstore_service_init_with_config` when its allocations succeed -/
def init (maxKeys maxMemory : ℕ) (engine : ZsetEngine) (admin : Admin) (nowMs : ℕ → ℕ) : Service where
  cache := Cache.cacheCreate maxKeys maxMemory nowMs
  aof := false
  zsetEngine := engine
  replyElementCapacity := 0
  replyScoreCapacity := 0
  admin := admin
  dirtyChanges := 0
  mysql := none

/-- `kvstore_service_attach_aof` with an AOF -/
def attachAof : Service := { s with aof := true }

/-- `kvstore_service_maintain`, the cache part -/
def maintain : Service := s.withCache (s.cache.cacheMaintain 64 16).1

/-- the clock shows other readings from now on -/
def setClock (nowMs : ℕ → ℕ) : Service := s.withCache { s.cache with nowMs := nowMs }

end Service

end StoreSystem
