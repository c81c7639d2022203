-- SUMMARY: The bucket phase: staged draft batches re-grouped once into each partition's own rows.
import Sylvan.Import.BlobCodec

/-!
# Bucketing the drafts

A batch is staged with a hash for each of its drafts. A slice of the phase reads some batches,
sends every draft to the partition its hash names, and writes each partition's drafts in
groups. A group's key is made from the slice's first batch and the group's number within the
slice, so that a slice run again writes the same rows.
-/

namespace Bucket

open ImportSpill (lengthPrefixed splitBatch blobGroups BLOB_GROUP_BYTES)
open BlobCodec

def DRAFT_BATCH_BYTES : ℕ := 6_000_000
def STAGED_ROW_BYTES : ℕ := 1_900_000
def STAGE_BLOB_BYTES : ℕ := STAGED_ROW_BYTES
def BUCKET_SLICE_BATCHES : ℕ := 16
def BUCKET_SLICE_RAW_BYTES : ℕ := 96_000_000
def BUCKET_FETCH_BATCHES : ℕ := 2

/-! ## Hashes -/

def DRAFT_HASH_BYTES : ℕ := 8

/-- Pack per-draft hashes into the `part_hashes` column form. -/
def packPartHashes (hashes : List UInt64) : Bytes := hashes.flatMap fun h => Bytes.ofNatLE DRAFT_HASH_BYTES h.toNat

/-- The hashes from the front of `bytes` on. -/
def hashesFrom (bytes : Bytes) : List UInt64 :=
  if _h : bytes = [] then []
  else UInt64.ofNat (Bytes.toNatLE (bytes.take DRAFT_HASH_BYTES)) :: hashesFrom (bytes.drop DRAFT_HASH_BYTES)
termination_by bytes.length
decreasing_by
  have := List.length_pos_iff.mpr _h
  simp only [DRAFT_HASH_BYTES, List.length_drop]
  omega

def unpackPartHashes (bytes : Bytes) : Except String (List UInt64) :=
  if bytes.length % DRAFT_HASH_BYTES ≠ 0 then
    .error s!"part_hashes blob is {bytes.length} bytes — not a multiple of {DRAFT_HASH_BYTES}"
  else .ok (hashesFrom bytes)

def bucketDrafts (bytes partHashes : Bytes) (partitionCount : ℕ) : Except String (List (List Bytes)) :=
  if partitionCount = 0 then .error s!"partitionCount must be a positive integer, got {partitionCount}"
  else do
    let drafts ← splitBatch bytes
    let hashes ← unpackPartHashes partHashes
    if hashes.length ≠ drafts.length then
      .error s!"draft batch holds {drafts.length} drafts but {hashes.length} hashes"
    else
      .ok ((hashes.zip drafts).foldl (fun out (hash, draft) => out.modify (hash.toNat % partitionCount) (· ++ [draft]))
        (List.replicate partitionCount []))

/-! ## The staging -/

structure DraftRow where
  seq : ℕ
  bytes : Bytes
  part_hashes : Option Bytes
deriving DecidableEq

/-- A row `flush` writes. -/
structure Group where
  partition : ℕ
  seq : ℕ
  bytes : Bytes
deriving DecidableEq

inductive Phase where
  | bucket
  | agg
deriving DecidableEq, Repr

structure BucketState where
  draft_batches : List DraftRow
  /-- The rows of each partition, in key order. -/
  draft_parts : ℕ → ImportSpill.Table
  bucket_batch_done : ℕ
  phase : Phase

/-- The groups a slice has open, how many it has written for each partition, and what it wrote. -/
structure Acc where
  acc : ℕ → Option PackStream
  ordinal : ℕ → ℕ
  written : List Group

def Acc.empty : Acc := { acc := fun _ => none, ordinal := fun _ => 0, written := [] }

section

variable (f : Fflate) (n done : ℕ)

/-! ## A slice -/

def flush (st : Acc) (partition : ℕ) : Acc :=
  match st.acc partition with
  | none => st
  | some group =>
    if group.count = 0 then st
    else
      { acc := Function.update st.acc partition none
        ordinal := Function.update st.ordinal partition (st.ordinal partition + 1)
        written := st.written ++ [⟨partition, done * 128 + st.ordinal partition, group.finish f⟩] }

/-- A group ends where the next draft would take it past `DRAFT_BATCH_BYTES` raw, or past a row once packed. -/
def ends (group : PackStream) (draft : Bytes) : Bool :=
  group.count > 0 ∧
    (group.raw + 4 + draft.length > DRAFT_BATCH_BYTES ∨ group.packedBound f + 4 + draft.length > STAGE_BLOB_BYTES)

def pushDraft (partition : ℕ) (st : Acc) (draft : Bytes) : Acc :=
  let st := if (st.acc partition).any (ends f · draft) then flush f done st partition else st
  { st with acc := Function.update st.acc partition (some (((st.acc partition).getD .empty).push draft)) }

/-- One source row: its drafts into their partitions' groups, and its raw size. -/
def bucketRow (st : Acc) (row : DraftRow) : Except (String × Acc) (Acc × ℕ) :=
  match row.part_hashes with
  | none => .error ("draft batch carries no partition hashes — staged by a pre-partition build; " ++
      "the next scheduled import restarts cleanly", st)
  | some partHashes => do
      let raw ← (unpackBlob f row.bytes).mapError (·, st)
      let byPartition ← (bucketDrafts raw partHashes n).mapError (·, st)
      .ok ((List.range n).foldl (fun st p => (byPartition.getD p []).foldl (pushDraft f done p) st) st, raw.length)

def bucketRows (st : Acc) (fedBytes : ℕ) : List DraftRow → Except (String × Acc) (Acc × ℕ)
  | [] => .ok (st, fedBytes)
  | row :: rows => do
      let (st, raw) ← bucketRow f n done st row
      bucketRows st (fedBytes + raw) rows

/-- What a slice has consumed when its loop stops. -/
structure Fed where
  st : Acc
  fed : ℕ
  exhausted : Bool

/-- The slice's loop: rows are fetched a few at a time, and a short fetch is the end of the staging. -/
def fetchRows (draftBatches : List DraftRow) (st : Acc) (fed fedBytes : ℕ) : Except (String × Acc) Fed :=
  if _h : fed < BUCKET_SLICE_BATCHES ∧ fedBytes < BUCKET_SLICE_RAW_BYTES then do
    let want := min BUCKET_FETCH_BATCHES (BUCKET_SLICE_BATCHES - fed)
    let rows := (draftBatches.filter (done + fed ≤ ·.seq)).take want
    let (st, fedBytes) ← bucketRows f n done st fedBytes rows
    if _hshort : rows.length < want then .ok ⟨st, fed + rows.length, true⟩
    else fetchRows draftBatches st (fed + rows.length) fedBytes
  else .ok ⟨st, fed, false⟩
termination_by BUCKET_SLICE_BATCHES - fed
decreasing_by
  simp only [rows, want, BUCKET_FETCH_BATCHES, BUCKET_SLICE_BATCHES] at *
  omega

/-! ## An alarm -/

/-- `INSERT OR REPLACE INTO draft_parts`. -/
def insertGroup (parts : ℕ → ImportSpill.Table) (g : Group) : ℕ → ImportSpill.Table :=
  Function.update parts g.partition ((parts g.partition).insertOrReplace g.seq g.bytes)

/-- How far an alarm gets: so many of the slice's writes before its transaction, or through. -/
inductive BucketAlarm where
  | stopped (writes : ℕ)
  | through
deriving DecidableEq, Repr

def stepBucket (s : BucketState) : Except (String × Acc) Fed :=
  fetchRows f n s.bucket_batch_done s.draft_batches .empty 0 0

/-- The slice's groups when it commits: those its loop wrote, and those still open. -/
def committed (s : BucketState) (fed : Fed) : List Group :=
  ((List.range n).foldl (flush f s.bucket_batch_done) fed.st).written

def bucketAlarm (s : BucketState) (event : BucketAlarm) : Option BucketState :=
  if s.phase ≠ .bucket then none
  else some <|
    match stepBucket f n s, event with
    | .error (_, st), .stopped writes | .ok ⟨st, _, _⟩, .stopped writes =>
      { s with draft_parts := (st.written.take writes).foldl insertGroup s.draft_parts }
    | .error (_, st), .through => { s with draft_parts := st.written.foldl insertGroup s.draft_parts }
    | .ok fed, .through =>
      { draft_batches := s.draft_batches.filter fun row =>
          ¬ (s.bucket_batch_done ≤ row.seq ∧ row.seq < s.bucket_batch_done + fed.fed)
        draft_parts := (committed f n s fed).foldl insertGroup s.draft_parts
        bucket_batch_done := s.bucket_batch_done + fed.fed
        phase := if fed.exhausted then .agg else s.phase }

/-- A partition's drafts as the loop after the phase reads them, by ascending `seq`. -/
def readDrafts (parts : ImportSpill.Table) : Except String (List Bytes) := do
  let groups ← parts.mapM fun e => do
    let raw ← unpackBlob f e.2
    splitBatch raw
  .ok groups.flatten

end

/-! ## What transform stages -/

/-- One staged draft group: its drafts, and their packed bytes. -/
structure PackedDraftGroup where
  drafts : List Bytes
  raw : ℕ
  packed : Bytes

def packGroup (pack : Bytes → Bytes) (group : List Bytes) : PackedDraftGroup :=
  { drafts := group, raw := (lengthPrefixed group).length, packed := pack (lengthPrefixed group) }

def packedDraftGroups (drafts : List Bytes) (pack : Bytes → Bytes) : List PackedDraftGroup :=
  (blobGroups drafts DRAFT_BATCH_BYTES).flatMap fun group =>
    if (packGroup pack group).packed.length ≤ STAGED_ROW_BYTES then [packGroup pack group]
    else (blobGroups group BLOB_GROUP_BYTES).map (packGroup pack)

def Sized (cap : ℕ) (group : List Bytes) : Prop := group.length ≤ 1 ∨ (lengthPrefixed group).length ≤ cap

/-- A batch as it is staged: no more than `DRAFT_BATCH_BYTES` raw, or one draft. -/
structure StagedBatch where
  drafts : List Bytes
  hashes : List UInt64
  parallel : hashes.length = drafts.length
  sized : Sized DRAFT_BATCH_BYTES drafts
  /-- The header of its row can name its size. -/
  headed : (lengthPrefixed drafts).length < 2 ^ 32

def StagedBatch.row (f : Fflate) (batch : StagedBatch) (seq : ℕ) : DraftRow :=
  { seq := seq, bytes := packBlob f (lengthPrefixed batch.drafts), part_hashes := some (packPartHashes batch.hashes) }

/-- The rows of batches numbered from `seq`. -/
def rowsFrom (f : Fflate) : ℕ → List StagedBatch → List DraftRow
  | _, [] => []
  | seq, batch :: batches => batch.row f seq :: rowsFrom f (seq + 1) batches

/-- The drafts of a batch whose hash is `p` modulo `n`. -/
def StagedBatch.draftsOf (n p : ℕ) (batch : StagedBatch) : List Bytes :=
  ((batch.hashes.zip batch.drafts).filter fun e => e.1.toNat % n = p).map Prod.snd

def BucketState.start (f : Fflate) (batches : List StagedBatch) : BucketState :=
  { draft_batches := rowsFrom f 0 batches, draft_parts := fun _ => [], bucket_batch_done := 0, phase := .bucket }

/-- Where the cutting of blobs under a cap stands. -/
structure SizedGrouping (cap : ℕ) (g : ImportSpill.Grouping) : Prop where
  groups : ∀ group ∈ g.groups, Sized cap group
  bytes : g.bytes = (lengthPrefixed g.group).length
  last : Sized cap g.group

end Bucket
