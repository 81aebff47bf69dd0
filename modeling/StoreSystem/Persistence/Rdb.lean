/-
Model of the snapshot file (`src/persistence/rdb.c`): `rdb_save` writes a cache to a file, `rdb_load` reads it back.

The file is the magic, the time of the snapshot, the number of keys, the AOF checkpoint, one record per key, an end mark, and
the CRC-64 of everything before it. Numbers are big-endian words of eight bytes, byte strings stand behind their length.
The writer's descriptor is the file so far, whose length is `writer.bytes`; the reader is the bytes it has not read. The
system calls on the file succeed. `size_t` has 64 bits, so `u64_size` refuses nothing.

An allocation that fails, or an entry whose charge overflows, ends a load with `noMemory`. The code returns -1 for it as for
any other failure.
-/
import StoreSystem.Cache.Operations

namespace StoreSystem.Rdb

/-! ## Numbers -/

def rdbMagic : Bytes := [75, 86, 82, 68, 66, 48, 48, 49]

def rdbTypeString : ℕ := 0

def rdbTypeHash : ℕ := 1

def rdbTypeZset : ℕ := 2

def rdbTypeEnd : ℕ := 255

def rdbCrc64Poly : UInt64 := 0x42f0e1eba9ea3693

def rdbCheckpointTokenSize : ℕ := 16

/-- one bit of the inner loop of `crc64_update` -/
def crcShift (crc : UInt64) : UInt64 := if crc &&& 0x8000000000000000 ≠ 0 then (crc <<< 1) ^^^ rdbCrc64Poly else crc <<< 1

/-- one byte of `crc64_update` -/
def crcByte (crc : UInt64) (byte : UInt8) : UInt64 := crcShift^[8] (crc ^^^ (byte.toUInt64 <<< 56))

def crc64Update (crc : UInt64) (data : Bytes) : UInt64 := data.foldl crcByte crc

/-- the loop of `encode_u64`, from the last byte to the first -/
def encodeLoop : ℕ → ℕ → Bytes → Bytes
  | 0, _, output => output
  | index + 1, value, output => encodeLoop index (value / 256) ((value % 256).toUInt8 :: output)

def encodeU64 (value : ℕ) : Bytes := encodeLoop 8 value []

def decodeU64 (input : Bytes) : ℕ := input.foldl (fun value byte => value * 256 + byte.toNat) 0

/-- the bits of a score -/
def scoreBits (score : Score) : ℕ := (if score.neg then 2 ^ 63 else 0) + score.mag

/-- the score with these bits, `none` for a NaN -/
def scoreOfBits (bits : ℕ) : Option Score :=
  if h : bits % 2 ^ 63 ≤ 0x7FF0000000000000 then some ⟨2 ^ 63 ≤ bits, bits % 2 ^ 63, h⟩ else none

/-! ## Files -/

/-- `rdb_checkpoint_t` -/
structure Checkpoint where
  aofOffset : ℕ
  token : Bytes
  valid : Bool
deriving DecidableEq

/-- `rdb_stats_t` -/
structure RdbStats where
  snapshotTimeMs : ℕ
  keys : ℕ
  counters : Counters
  bytes : ℕ
deriving DecidableEq

/-- the statistics with one more object -/
def RdbStats.addObject (stats : RdbStats) (type : KvType) (items : ℕ) : RdbStats :=
  { stats with keys := stats.keys + 1, counters := stats.counters.addObject type items }

def noStats : RdbStats := ⟨0, 0, ⟨0, 0, 0, 0, 0⟩, 0⟩

/-- `rdb_writer_t` -/
structure RdbWriter where
  file : Bytes
  crc : UInt64
  snapshotTimeMs : ℕ
  stats : RdbStats

variable (w : RdbWriter)

def writerBytes (data : Bytes) : Option RdbWriter :=
  if data.length > uint64Max - w.file.length then none
  else some { w with file := w.file ++ data, crc := crc64Update w.crc data }

def writerU8 (value : ℕ) : Option RdbWriter := writerBytes w [value.toUInt8]

def writerU64 (value : ℕ) : Option RdbWriter := writerBytes w (encodeU64 value)

/-- a function that may fail as a visitor -/
def visitor {C α : Type} (f : C → α → Option C) (c : C) (x : α) : C × Bool :=
  match f c x with
  | some c' => (c', true)
  | none => (c, false)

/-- the visitor's state, unless a visit failed -/
def visited {C : Type} (r : C × Bool) : Option C := if r.2 then some r.1 else none

def writeHashField (field : Bytes × Bytes) : Option RdbWriter := do
  let w ← writerU64 w field.1.length
  let w ← writerBytes w field.1
  let w ← writerU64 w field.2.length
  writerBytes w field.2

def writeZsetMember (item : Item) : Option RdbWriter := do
  let w ← writerU64 w item.member.length
  let w ← writerBytes w item.member
  writerU64 w (scoreBits item.score)

/-- the number of `kv_object_type_t` -/
def typeCode : KvType → ℕ
  | .string => 0
  | .hash => 1
  | .zset => 2

/-- the part of `write_cache_entry` behind the key -/
def writeContent (object : KvObject) : Option RdbWriter :=
  match kvObjectType object with
  | .string => do
    let value := (kvObjectStringValue object).getD []
    let w ← writerU64 w value.length
    let w ← writerBytes w value
    some { w with stats := w.stats.addObject .string 0 }
  | .hash => do
    let count := kvObjectHashLength object
    let w ← writerU64 w count
    let w ← visited (kvObjectHashVisit object (visitor writeHashField) w)
    some { w with stats := w.stats.addObject .hash count }
  | .zset => do
    let count := kvObjectZsetLength object
    let w ← writerU64 w count
    match kvObjectZsetRange object 0 (-1) (visitor writeZsetMember) w with
    | (w, some visited) => if visited ≠ count then none else some { w with stats := w.stats.addObject .zset count }
    | (_, none) => none

def writeCacheEntry (entry : Bytes × KvObject × ℕ) : Option RdbWriter :=
  let (key, object, expireAtMs) := entry
  if expireAtMs ≠ 0 ∧ expireAtMs ≤ w.snapshotTimeMs then some w
  else do
    let w ← writerU8 w (typeCode (kvObjectType object))
    let w ← writerU64 w expireAtMs
    let w ← writerU64 w key.length
    let w ← writerBytes w key
    writeContent w object

def countCacheEntry (snapshotTimeMs keys : ℕ) (entry : Bytes × KvObject × ℕ) : Option ℕ :=
  if entry.2.2 = 0 ∨ entry.2.2 > snapshotTimeMs then if keys = uint64Max then none else some (keys + 1)
  else some keys

/-- the checkpoint `rdb_save` writes: zeros for one that is not valid -/
def writtenCheckpoint (checkpoint : Option Checkpoint) : Checkpoint :=
  match checkpoint.filter Checkpoint.valid with
  | some checkpoint => checkpoint
  | none => ⟨0, List.replicate rdbCheckpointTokenSize 0, false⟩

/-- the head of the file -/
def writeHeader (snapshotTimeMs keys : ℕ) (checkpoint : Option Checkpoint) : Option RdbWriter := do
  let w ← writerBytes w rdbMagic
  let w ← writerU64 w snapshotTimeMs
  let w ← writerU64 w keys
  let w ← writerU64 w (writtenCheckpoint checkpoint).aofOffset
  let w ← writerU8 w (writtenCheckpoint checkpoint).valid.toNat
  writerBytes w (writtenCheckpoint checkpoint).token

/-- `rdb_save` when the clock reads `snapshotTimeMs`: the file and the statistics -/
def rdbSave (c : Cache) (checkpoint : Option Checkpoint) (snapshotTimeMs : ℕ) : Option (Bytes × RdbStats) := do
  let keys ← visited (c.cacheVisit (visitor (countCacheEntry snapshotTimeMs)) 0)
  let w : RdbWriter := ⟨[], 0, snapshotTimeMs, { noStats with snapshotTimeMs := snapshotTimeMs }⟩
  let w ← writeHeader w snapshotTimeMs keys checkpoint
  let w ← visited (c.cacheVisit (visitor writeCacheEntry) w)
  let w ← writerU8 w rdbTypeEnd
  if w.stats.keys ≠ keys then none
  else
    let file := w.file ++ encodeU64 w.crc.toNat
    some (file, { w.stats with bytes := file.length })

/-! ## Loading -/

inductive RdbError
  | invalid
  | noMemory
deriving DecidableEq

variable (hash : Hasher) (reader : Bytes)

/-- the next `length` bytes and the bytes behind them -/
def readerBytes (length : ℕ) : Except RdbError (Bytes × Bytes) :=
  if length > reader.length then .error .invalid else .ok (reader.take length, reader.drop length)

def readerU8 : Except RdbError (ℕ × Bytes) := do
  let (data, reader) ← readerBytes reader 1
  return ((data.headD 0).toNat, reader)

def readerU64 : Except RdbError (ℕ × Bytes) := do
  let (data, reader) ← readerBytes reader 8
  return (decodeU64 data, reader)

/-- a byte string behind its length -/
def readerString : Except RdbError (Bytes × Bytes) := do
  let (length, reader) ← readerU64 reader
  readerBytes reader length

/-- what the allocations for one record do; the n-th field or member has its own -/
structure LoadAlloc where
  object : Bool
  hash : ℕ → HashAlloc
  zset : ℕ → ZSet.Alloc
  cache : Cache.Alloc

def LoadAlloc.succeeding : LoadAlloc :=
  ⟨true, fun _ => ⟨true, true, true⟩, fun _ => ⟨true, true, true, true⟩, ⟨true, true, true, true⟩⟩

/-- an allocation that may have failed -/
def allocated {α : Type} (r : Option α) : Except RdbError α :=
  match r with
  | some x => .ok x
  | none => .error .noMemory

/-- the object after a write, which has to add something -/
def added (r : KvObject × Option ZSet.SetResult) : Except RdbError KvObject := do
  let result ← allocated r.2
  if result.added then .ok r.1 else .error .invalid

/-- one round of the loop over the fields of a Hash -/
def loadField (alloc : HashAlloc) (object : KvObject) (reader : Bytes) :
    Except RdbError (KvObject × Bytes) := do
  let (field, reader) ← readerString reader
  let (value, reader) ← readerString reader
  let object ← added (kvObjectHashSet hash alloc object field value)
  return (object, reader)

/-- one round of the loop over the members of a ZSet; `kv_object_zset_add` refuses a NaN -/
def loadMember (alloc : ZSet.Alloc) (object : KvObject) (reader : Bytes) :
    Except RdbError (KvObject × Bytes) := do
  let (member, reader) ← readerString reader
  let (bits, reader) ← readerU64 reader
  match scoreOfBits bits with
  | none => .error .invalid
  | some score =>
    let object ← added (kvObjectZsetAdd hash alloc object score member)
    return (object, reader)

/-- `count` rounds of a loop, the first of which is the `index`-th -/
def loadItems (round : ℕ → KvObject → Bytes → Except RdbError (KvObject × Bytes)) :
    ℕ → ℕ → KvObject → Bytes → Except RdbError (KvObject × Bytes)
  | 0, _, object, reader => .ok (object, reader)
  | count + 1, index, object, reader => do
    let (object, reader) ← round index object reader
    loadItems round count (index + 1) object reader

/-- the part of `load_object` that reads the object -/
def readObject (alloc : LoadAlloc) (engine : ZsetEngine) (type : ℕ) (reader : Bytes) :
    Except RdbError (KvObject × Bytes) := do
  let (count, reader) ← readerU64 reader
  if type = rdbTypeString then
    let (value, reader) ← readerBytes reader count
    let object ← allocated (kvObjectCreateString alloc.object value)
    return (object, reader)
  else if type = rdbTypeHash then
    let object ← allocated (kvObjectCreateHash alloc.object)
    loadItems (fun index => loadField hash (alloc.hash index)) count 0 object reader
  else if type = rdbTypeZset then
    let object ← allocated (kvObjectCreateZset alloc.object engine)
    loadItems (fun index => loadMember hash (alloc.zset index)) count 0 object reader
  else .error .invalid

/-- the end of `load_object`: an object that has expired is dropped, another is stored -/
def storeLoaded (alloc : Cache.Alloc) (c : Cache) (key : Bytes) (object : KvObject)
    (expireAt nowMs : ℕ) (stats : RdbStats) : Cache × Except RdbError RdbStats :=
  if expireAt ≠ 0 ∧ expireAt ≤ nowMs then (c, .ok stats)
  else
    match c.cacheStoreObject hash alloc key object expireAt false with
    | (c, .ok) => (c, .ok (stats.addObject (kvObjectType object) (Cache.objectItemCount object)))
    | (c, .error) => (c, .error .noMemory)
    | (c, _) => (c, .error (if Cache.entryMemoryCharge key.length object = sizeMax then .noMemory else .invalid))

/-- a record of the file -/
structure RecordHead where
  type : ℕ
  expireAt : ℕ
  key : Bytes

/-- the type, the deadline and the key of a record, `none` at the end mark -/
def readHead : Except RdbError (Option RecordHead × Bytes) := do
  let (type, reader) ← readerU8 reader
  if type = rdbTypeEnd then return (none, reader)
  else
    let (expireAt, reader) ← readerU64 reader
    let (key, reader) ← readerString reader
    return (some ⟨type, expireAt, key⟩, reader)

/-- the loop of `rdb_load` over the records: the bytes behind the end mark, the statistics and `records_loaded`. A round reads
at least one byte, so the length of the file is fuel enough. -/
def loadRecords (hash : Hasher) (alloc : ℕ → LoadAlloc) (engine : ZsetEngine) (nowMs : ℕ) :
    ℕ → ℕ → Cache → RdbStats → Bytes → Cache × Except RdbError (Bytes × RdbStats × ℕ)
  | 0, _, c, _, _ => (c, .error .invalid)
  | fuel + 1, recordsLoaded, c, stats, reader =>
    match readHead reader with
    | .error e => (c, .error e)
    | .ok (none, reader) => (c, .ok (reader, stats, recordsLoaded))
    | .ok (some head, reader) =>
      match readObject hash (alloc recordsLoaded) engine head.type reader with
      | .error e => (c, .error e)
      | .ok (object, reader) =>
        match storeLoaded hash (alloc recordsLoaded).cache c head.key object head.expireAt nowMs stats with
        | (c, .error e) => (c, .error e)
        | (c, .ok stats) =>
          if recordsLoaded = uint64Max then (c, .error .invalid)
          else loadRecords hash alloc engine nowMs fuel (recordsLoaded + 1) c stats reader

/-- what stands before the records -/
structure Header where
  snapshotTimeMs : ℕ
  declaredKeys : ℕ
  checkpoint : Checkpoint

def readHeader : Except RdbError (Header × Bytes) := do
  let (magic, reader) ← readerBytes reader rdbMagic.length
  if magic ≠ rdbMagic then .error .invalid
  else
    let (snapshotTimeMs, reader) ← readerU64 reader
    let (declaredKeys, reader) ← readerU64 reader
    let (aofOffset, reader) ← readerU64 reader
    let (valid, reader) ← readerU8 reader
    if valid > 1 then .error .invalid
    else
      let (token, reader) ← readerBytes reader rdbCheckpointTokenSize
      return (⟨snapshotTimeMs, declaredKeys, ⟨aofOffset, token, valid = 1⟩⟩, reader)

/-- `rdb_load`: the cache, which a load that fails may have filled in part, the checkpoint and the statistics -/
def rdbLoad (alloc : ℕ → LoadAlloc) (engine : ZsetEngine) (c : Cache) (file : Bytes) :
    Cache × Except RdbError (Checkpoint × RdbStats) :=
  let data := file.take (file.length - 8)
  if file.length < 58 then (c, .error .invalid)
  else if decodeU64 (file.drop (file.length - 8)) ≠ (crc64Update 0 data).toNat then (c, .error .invalid)
  else
    match readHeader data with
    | .error e => (c, .error e)
    | .ok (header, reader) =>
      let (nowMs, c) := c.cacheNow
      let stats := { noStats with snapshotTimeMs := header.snapshotTimeMs }
      match loadRecords hash alloc engine nowMs file.length 0 c stats reader with
      | (c, .error e) => (c, .error e)
      | (c, .ok (reader, stats, recordsLoaded)) =>
        if reader ≠ [] then (c, .error .invalid)
        else if recordsLoaded ≠ header.declaredKeys then (c, .error .invalid)
        else (c, .ok (header.checkpoint, { stats with bytes := file.length }))

end StoreSystem.Rdb
