-- SUMMARY: An engine object's local archive cache: its two tables, writers, readers and prunes.
import Sylvan.Import.Spill

/-!
# The store cache

A writer turns archive bytes into rows of `archive_cache` and records the finished copy in
`archive_cache_meta` last. A reader asks the record first, and then takes one row a pull.
Every statement runs to its end on the spot, so calls interleave and statements do not.
-/

namespace StoreCache

open ImportSpill (BLOB_GROUP_BYTES)
open Function (update)

/-! ## Tables -/

/-- A row of `archive_cache_meta`. -/
structure CacheMeta where
  totalBytes : ℕ
  rowCount : ℕ
deriving DecidableEq, Repr

/-- `archive_cache` under its primary key `(archive_key, seq)`, and `archive_cache_meta`. -/
structure ArchiveCacheStorage where
  rows : JsMap (String × ℕ) Bytes
  metas : JsMap String CacheMeta

def ArchiveCacheStorage.empty : ArchiveCacheStorage := ⟨.empty, .empty⟩

/-- `DELETE FROM archive_cache WHERE archive_key = ?`. -/
def ArchiveCacheStorage.deleteRows (storage : ArchiveCacheStorage) (key : String) : ArchiveCacheStorage :=
  { storage with rows := storage.rows.filter fun at' _ => at'.1 ≠ key }

/-- `DELETE FROM archive_cache_meta WHERE archive_key = ?`. -/
def ArchiveCacheStorage.deleteMeta (storage : ArchiveCacheStorage) (key : String) : ArchiveCacheStorage :=
  { storage with metas := storage.metas.filter fun key' _ => key' ≠ key }

/-- `INSERT INTO archive_cache`; `none` is the primary key's violation. -/
def ArchiveCacheStorage.insertRow (storage : ArchiveCacheStorage) (key : String) (seq : ℕ) (bytes : Bytes) :
    Option ArchiveCacheStorage :=
  if (storage.rows.get (key, seq)).isSome then none
  else some { storage with rows := storage.rows.set (key, seq) bytes }

/-- `INSERT INTO archive_cache_meta`. -/
def ArchiveCacheStorage.insertMeta (storage : ArchiveCacheStorage) (key : String) (written : CacheMeta) :
    Option ArchiveCacheStorage :=
  if (storage.metas.get key).isSome then none
  else some { storage with metas := storage.metas.set key written }

/-! ## Writers -/

/-- What a writer closes over; `expectedBytes` is `none` for a length only known once written. -/
structure CacheWriter where
  key : String
  expectedBytes : Option ℕ
  group : Bytes
  seq : ℕ
  written : ℕ
  /-- `group` is what a buffer of `BLOB_GROUP_BYTES` holds. -/
  fits : group.length ≤ BLOB_GROUP_BYTES

/-- `cacheWriter`: drops what the key holds. -/
def cacheWriter (storage : ArchiveCacheStorage) (key : String) (expectedBytes : Option ℕ) :
    ArchiveCacheStorage × CacheWriter :=
  ((storage.deleteMeta key).deleteRows key, ⟨key, expectedBytes, [], 0, 0, Nat.zero_le _⟩)

def CacheWriter.next (writer : CacheWriter) : CacheWriter :=
  { writer with
    group := []
    seq := writer.seq + 1
    written := writer.written + writer.group.length
    fits := Nat.zero_le _ }

/-- The group with as much of `bytes` as there is room for. -/
def CacheWriter.fill (writer : CacheWriter) (bytes : Bytes) : CacheWriter :=
  { writer with
    group := writer.group ++ bytes.take (BLOB_GROUP_BYTES - writer.group.length)
    fits := by
      have := writer.fits
      rw [List.length_append, List.length_take]
      omega }

/-- `write`: the tables and the writer after it, and whether it returned (`false` is a throw). -/
def CacheWriter.write (writer : CacheWriter) (storage : ArchiveCacheStorage) (bytes : Bytes) :
    ArchiveCacheStorage × CacheWriter × Bool :=
  if bytes = [] then (storage, writer, true)
  else if (writer.fill bytes).group.length = BLOB_GROUP_BYTES then
    match storage.insertRow writer.key writer.seq (writer.fill bytes).group with
    | none => (storage, writer.fill bytes, false)
    | some storage =>
      (writer.fill bytes).next.write storage (bytes.drop (BLOB_GROUP_BYTES - writer.group.length))
  else (writer.fill bytes).write storage (bytes.drop (BLOB_GROUP_BYTES - writer.group.length))
termination_by 2 * bytes.length + if writer.group.length = BLOB_GROUP_BYTES then 1 else 0
decreasing_by
  all_goals
    rename_i hbytes hfull
    have hpos := List.length_pos_iff.mpr hbytes
    have hfits := writer.fits
    have hcap : 0 < BLOB_GROUP_BYTES := by decide
    simp only [CacheWriter.fill, CacheWriter.next, List.length_append, List.length_take, List.length_drop,
      List.length_nil] at hfull ⊢
    split_ifs <;> omega

/-- How a `commit` ends: a throw, a copy deleted for its length (the call returns 0), or a record of its rows. -/
inductive Committed where
  | threw
  | deleted
  | kept (record : CacheMeta)
deriving DecidableEq, Repr

def CacheWriter.refused (writer : CacheWriter) : Bool :=
  match writer.expectedBytes with
  | none => writer.written = 0
  | some expectedBytes => writer.written ≠ expectedBytes

/-- `commit`, once the tail is flushed. -/
def CacheWriter.publish (writer : CacheWriter) (storage : ArchiveCacheStorage) :
    ArchiveCacheStorage × CacheWriter × Committed :=
  if writer.refused then (storage.deleteRows writer.key, writer, .deleted)
  else
    match storage.insertMeta writer.key ⟨writer.written, writer.seq⟩ with
    | none => (storage, writer, .threw)
    | some storage => (storage, writer, .kept ⟨writer.written, writer.seq⟩)

def CacheWriter.commit (writer : CacheWriter) (storage : ArchiveCacheStorage) :
    ArchiveCacheStorage × CacheWriter × Committed :=
  if writer.group = [] then writer.publish storage
  else
    match storage.insertRow writer.key writer.seq writer.group with
    | none => (storage, writer, .threw)
    | some storage => writer.next.publish storage

/-! ## Readers -/

def cachedMeta (storage : ArchiveCacheStorage) (key : String) (expectedBytes : ℕ) : Option CacheMeta :=
  (storage.metas.get key).filter (·.totalBytes = expectedBytes)

inductive StreamState where
  | open
  | closed
  | errored
deriving DecidableEq, Repr

/-- The stream of a cached archive: the record it was opened on, and the rows it has enqueued. -/
structure CachedStream where
  key : String
  record : CacheMeta
  seq : ℕ
  enqueued : List Bytes
  state : StreamState

def cachedArchiveStream (storage : ArchiveCacheStorage) (key : String) (expectedBytes : ℕ) : Option CachedStream :=
  (cachedMeta storage key expectedBytes).map fun record => ⟨key, record, 0, [], .open⟩

/-- `pull`: a row that is missing errors the stream. -/
def CachedStream.pull (stream : CachedStream) (storage : ArchiveCacheStorage) : CachedStream :=
  match stream.state with
  | .open =>
    if stream.seq ≥ stream.record.rowCount then { stream with state := .closed }
    else
      match storage.rows.get (stream.key, stream.seq) with
      | none => { stream with state := .errored }
      | some bytes => { stream with seq := stream.seq + 1, enqueued := stream.enqueued ++ [bytes] }
  | _ => stream

/-! ## Deletions -/

/-- `dropCached`, and a writer's `abort`. -/
def dropCached (storage : ArchiveCacheStorage) (key : String) : ArchiveCacheStorage :=
  (storage.deleteMeta key).deleteRows key

/-- Whether `key` is a names cache whose archive `keep` keeps. -/
def namesKeptWith (key : String) (keep : List String) : Bool :=
  let names := ":names".toList
  names.isSuffixOf key.toList &&
    (let archive := key.toList.take (key.toList.length - names.length)
    keep.any fun kept => kept.toList = archive || (archive ++ [':']).isPrefixOf kept.toList)

/-- What `pruneCache` and `pruneCacheOlderThan` do, each with its own `droppable`. -/
def pruneWhere (storage : ArchiveCacheStorage) (keep : List String) (droppable : String → Bool) : ArchiveCacheStorage :=
  let kept (key : String) : Bool := keep.contains key || namesKeptWith key keep
  let keys := storage.metas.keys
  let stale := keys.filter fun key => !kept key && droppable key
  let storage := stale.foldl (fun storage key => (storage.deleteRows key).deleteMeta key) storage
  let orphans := (JsSet.of (storage.rows.keys.map Prod.fst)).filter fun key =>
    !keys.contains key && !kept key && droppable key
  orphans.foldl ArchiveCacheStorage.deleteRows storage

def pruneCache (storage : ArchiveCacheStorage) (keep : List String) : ArchiveCacheStorage :=
  pruneWhere storage keep fun _ => true

/-! ## Calls in any order -/

/-- A commit that was kept: its writer, the record it inserted, and the bytes that writer was given. -/
structure Commit where
  writer : ℕ
  record : CacheMeta
  bytes : Bytes
deriving DecidableEq, Repr

/-- A stream, with the writer its key had last when it was opened and the commit whose record it saw. -/
structure Opened where
  stream : CachedStream
  newest : Option ℕ
  saw : Option Commit

structure CacheWorld where
  storage : ArchiveCacheStorage
  writers : ℕ → Option CacheWriter
  streams : ℕ → Option Opened
  /-- What each writer has been given. -/
  given : ℕ → Bytes
  /-- The writer created last under each key. -/
  newest : String → Option ℕ
  /-- The last commit kept under each key. -/
  published : String → Option Commit

def CacheWorld.start : CacheWorld :=
  ⟨.empty, fun _ => none, fun _ => none, fun _ => [], fun _ => none, fun _ => none⟩

inductive CacheCall where
  | create (i : ℕ) (key : String) (expectedBytes : Option ℕ)
  | write (i : ℕ) (bytes : Bytes)
  | commit (i : ℕ)
  | abort (i : ℕ)
  | drop (key : String)
  | prune (keep : List String) (droppable : String → Bool)
  | open (j : ℕ) (key : String) (expectedBytes : ℕ)
  | pull (j : ℕ)

def CacheWorld.step (w : CacheWorld) : CacheCall → Option CacheWorld
  | .create i key expectedBytes =>
    match w.writers i with
    | some _ => none
    | none =>
      let (storage, writer) := cacheWriter w.storage key expectedBytes
      some { w with
        storage := storage
        writers := update w.writers i (some writer)
        newest := update w.newest key (some i) }
  | .write i bytes =>
    (w.writers i).map fun writer =>
      let (storage, writer, _) := writer.write w.storage bytes
      { w with
        storage := storage
        writers := update w.writers i (some writer)
        given := update w.given i (w.given i ++ bytes) }
  | .commit i =>
    (w.writers i).map fun writer =>
      let (storage, writer, committed) := writer.commit w.storage
      { w with
        storage := storage
        writers := update w.writers i (some writer)
        published := match committed with
          | .kept record => update w.published writer.key (some ⟨i, record, w.given i⟩)
          | _ => w.published }
  | .abort i => (w.writers i).map fun writer => { w with storage := dropCached w.storage writer.key }
  | .drop key => some { w with storage := dropCached w.storage key }
  | .prune keep droppable => some { w with storage := pruneWhere w.storage keep droppable }
  | .open j key expectedBytes =>
    match w.streams j with
    | some _ => none
    | none => (cachedArchiveStream w.storage key expectedBytes).map fun stream =>
      { w with streams := update w.streams j (some ⟨stream, w.newest key, w.published key⟩) }
  | .pull j =>
    (w.streams j).map fun opened =>
      { w with streams := update w.streams j (some { opened with stream := opened.stream.pull w.storage }) }

end StoreCache
