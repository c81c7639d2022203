-- SUMMARY: The oracle index: printings' oracle ids in sixty-four sorted buckets, a function of the set of pairs.
import Sylvan.Data.Buffers
import Sylvan.Data.Probe
import Sylvan.Data.RustStr
import Sylvan.Data.SortedRuns
import Sylvan.Data.Text

/-!
# The oracle index

A publisher streams records of a card id and its oracle id twice: once to count each
bucket, once to scatter them. A bucket is sorted, an id with two oracle ids is dropped from
it, and a reader searches it in place.
-/

namespace OracleIndex

open RustStr Throws

def ORACLE_INDEX_FORMAT_VERSION : UInt8 := 1
def ORACLE_INDEX_BUCKET_COUNT : ℕ := 64
def MAGIC : Bytes := [0x53, 0x4c, 0x4f, 0x58]
def HEADER_BYTES : ℕ := 16
def ID_BYTES : ℕ := 16
def ORACLE_PAIR_BYTES : ℕ := 2 * ID_BYTES

/-- What is thrown: an `OracleIndexFormatError`, the builder's own error, or the runtime's `RangeError`. -/
inductive Thrown where
  | format (message : String)
  | builder (message : String)
  | range

abbrev Checked : Type → Type := Except Thrown

/-! ## Ids -/

def hexDigit (code : ℕ) : Option ℕ :=
  if 0x30 ≤ code ∧ code ≤ 0x39 then some (code - 0x30)
  else if 0x61 ≤ code ∧ code ≤ 0x66 then some (code - 0x61 + 10)
  else if 0x41 ≤ code ∧ code ≤ 0x46 then some (code - 0x41 + 10)
  else none

/-- One unit of an id: the bytes written so far, and the high digit of the next. -/
def readUnit (read : Bytes × Option ℕ) (code : ℕ) : Option (Bytes × Option ℕ) :=
  if code = 0x2d then some read
  else
    match hexDigit code with
    | none => none
    | some d =>
      if ID_BYTES ≤ read.1.length then none
      else
        match read.2 with
        | none => some (read.1, some d)
        | some hi => some (read.1 ++ [UInt8.ofNat (hi * 16 + d)], none)

/-- A UUID's 16 raw bytes, or `none` when it is not one. -/
def uuidBytes (uuid : List Char) : Option Bytes := do
  let read ← (uuid.flatMap Text.units).foldlM readUnit ([], none)
  if read.1.length = ID_BYTES ∧ read.2 = none then some read.1 else none

def formatUuid (bytes : Bytes) : List Char :=
  (bytes.take ID_BYTES).zipIdx.flatMap fun byte =>
    (if byte.2 = 4 ∨ byte.2 = 6 ∨ byte.2 = 8 ∨ byte.2 = 10 then ['-'] else []) ++
      (Nat.toDigits 16 byte.1.toNat).leftpad 2 '0'

def oracleIndexBucketOfByte (firstByte : UInt8) : ℕ := firstByte.toNat >>> 2

/-- `compareIds` of the ids at the start of both. -/
def compareIds (a b : Bytes) : Ordering := Probe.compareBytes (a.take ID_BYTES) (b.take ID_BYTES)

/-! ## Records -/

/-- The bucket of an id, or of a record by its card id. -/
def bucketOf (record : Bytes) : ℕ := oracleIndexBucketOfByte (record.headD 0)

def cardOf (record : Bytes) : Bytes := record.take ID_BYTES
def oracleOf (record : Bytes) : Bytes := record.drop ID_BYTES

def records (run : Bytes) : List Bytes :=
  (List.range (run.length / ORACLE_PAIR_BYTES)).map fun i =>
    run.subarray (i * ORACLE_PAIR_BYTES) (i * ORACLE_PAIR_BYTES + ORACLE_PAIR_BYTES)

def checkRun (chunk : Bytes) : Checked Unit :=
  if chunk.length % ORACLE_PAIR_BYTES ≠ 0 then
    .error (.format s!"pair run is {chunk.length} bytes, not a multiple of {ORACLE_PAIR_BYTES}")
  else .ok ()

/-- The order of a bucket's records: by card id, then by oracle id. -/
def comparePairs (a b : Bytes) : Ordering := (compareIds a b).then (compareIds (oracleOf a) (oracleOf b))

/-! ## The builder -/

/-- A bucket's staging buffer: its size, and what of it is filled. -/
structure Staging where
  size : ℕ
  filled : Bytes

structure OracleIndexBuilder where
  counts : List ℕ := List.replicate ORACLE_INDEX_BUCKET_COUNT 0
  staging : Option (List Staging) := none
  finished : Bool := false

namespace OracleIndexBuilder

def count (builder : OracleIndexBuilder) (chunk : Bytes) : Checked OracleIndexBuilder :=
  if builder.staging.isSome then .error (.builder "OracleIndexBuilder: count after add")
  else do
    checkRun chunk
    pure { builder with
      counts := (records chunk).foldl (fun counts record => counts.modify (bucketOf record) (· + 1)) builder.counts }

def scatter (staging : List Staging) (record : Bytes) : Checked (List Staging) :=
  match staging[bucketOf record]? with
  | some into =>
    if into.size < into.filled.length + ORACLE_PAIR_BYTES then
      .error (.builder s!"OracleIndexBuilder: bucket {bucketOf record} got more pairs than were counted")
    else .ok (staging.set (bucketOf record) { into with filled := into.filled ++ record })
  | none => .error .range

def allocate (isolate : Buffers.Isolate) (n : ℕ) : Checked Staging := do
  let buffer ← Buffers.alloc .range isolate (n * ORACLE_PAIR_BYTES)
  pure ⟨buffer.length, []⟩

def add (isolate : Buffers.Isolate) (builder : OracleIndexBuilder) (chunk : Bytes) : Checked OracleIndexBuilder :=
  if builder.finished then .error (.builder "OracleIndexBuilder: add after finish")
  else do
    checkRun chunk
    let staging ← match builder.staging with
      | some staging => pure staging
      | none => builder.counts.mapM (allocate isolate)
    let staging ← (records chunk).foldlM scatter staging
    pure { builder with staging := some staging }

/-- The walk over sorted records: those kept, and how many card ids had two oracle ids. -/
def keep : List Bytes → List Bytes × ℕ
  | [] => ([], 0)
  | record :: rest =>
    let same := rest.takeWhile fun other => compareIds record other = .eq
    let after := keep (rest.dropWhile fun other => compareIds record other = .eq)
    if same.any fun other => compareIds (oracleOf record) (oracleOf other) ≠ .eq then (after.1, after.2 + 1)
    else (record :: after.1, after.2)
termination_by l => l.length
decreasing_by exact Nat.lt_succ_of_le (List.dropWhile_sublist _).length_le

def frame (b : ℕ) (kept : List Bytes) : Bytes :=
  MAGIC ++ [ORACLE_INDEX_FORMAT_VERSION, UInt8.ofNat b, 0, 0] ++ Bytes.ofNatLE 4 kept.length ++ [0, 0, 0, 0] ++ kept.flatten

/-- One bucket's value, how many pairs it holds, and its conflicts. -/
def finishBucket (isolate : Buffers.Isolate) (into : Staging × ℕ) : Checked (Bytes × ℕ × ℕ) :=
  if into.1.filled.length ≠ into.1.size then
    .error (.builder s!"OracleIndexBuilder: bucket {into.2} got fewer pairs than were counted")
  else do
    let order := (records into.1.filled).insertionSort fun a b => comparePairs a b ≠ .gt
    let kept := keep order
    let _ ← Buffers.alloc .range isolate (HEADER_BYTES + kept.1.length * ORACLE_PAIR_BYTES)
    pure (frame into.2 kept.1, kept.1.length, kept.2)

end OracleIndexBuilder

/-- What `finish` returns. -/
structure Built where
  buckets : List Bytes
  pairCount : ℕ
  conflicts : ℕ

def OracleIndexBuilder.finish (isolate : Buffers.Isolate) (builder : OracleIndexBuilder) : Checked Built :=
  if builder.finished then .error (.builder "OracleIndexBuilder: finish twice")
  else do
    let staging := builder.staging.getD (builder.counts.map fun _ => ⟨0, []⟩)
    let finished ← staging.zipIdx.mapM (finishBucket isolate)
    pure ⟨finished.map Prod.fst, (finished.map (·.2.1)).sum, (finished.map (·.2.2)).sum⟩

def encodeOracleIndexBuckets (isolate : Buffers.Isolate) (chunks : List Bytes) : Checked Built := do
  let builder ← chunks.foldlM OracleIndexBuilder.count {}
  let builder ← chunks.foldlM (OracleIndexBuilder.add isolate) builder
  builder.finish isolate

/-! ## The reader -/

def checkedCount (bucket : Bytes) (expectBucket : Option ℕ) : Checked ℕ :=
  if bucket.length < HEADER_BYTES then
    .error (.format s!"value is {bucket.length} bytes, shorter than the header")
  else if bucket.take MAGIC.length ≠ MAGIC then .error (.format "value does not start with the format magic")
  else if bucket.getD 4 0 ≠ ORACLE_INDEX_FORMAT_VERSION then
    .error (.format s!"value is format version {bucket.getD 4 0}, this reader speaks {ORACLE_INDEX_FORMAT_VERSION}")
  else if expectBucket.any fun expected => (bucket.getD 5 0).toNat ≠ expected then
    .error (.format s!"value is bucket {bucket.getD 5 0}, expected {expectBucket.getD 0}")
  else
    match bucket.getUint32 8 with
    | some count =>
      if HEADER_BYTES + count * ORACLE_PAIR_BYTES ≠ bucket.length then
        .error (.format s!"value claims {count} entries but is {bucket.length} bytes")
      else .ok count
    | none => .error .range

def oracleIdLookup (bucket : Bytes) (scryfallId : List Char) : Checked (Option (List Char)) :=
  match uuidBytes scryfallId with
  | none => .ok none
  | some id => do
    let count ← checkedCount bucket (some (bucketOf id))
    let found := Probe.search (fun mid => compareIds (bucket.drop (HEADER_BYTES + mid * ORACLE_PAIR_BYTES)) id) 0 count
    pure (found.map fun mid => formatUuid (bucket.drop (HEADER_BYTES + mid * ORACLE_PAIR_BYTES + ID_BYTES)))

end OracleIndex
