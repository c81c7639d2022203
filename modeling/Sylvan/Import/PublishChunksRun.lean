-- SUMMARY: Runs of a partition's publish: kills between a put and its record, the safe-cut restart, and the reader.
import Sylvan.Import.PublishChunks

/-!
# Runs of a publish

A slice assembles one cut, compresses it, puts it and records it. The put and the record are
two writes to two stores, so a slice can die between them; a value over the cap starts the
partition's publish again at the safe cut.
-/

namespace PublishChunks

open Publishers (chunkKey)

def KV_CHUNK_BYTES : ℕ := 46_000_000
def KV_CHUNK_BYTES_SAFE : ℕ := 26_000_000
def KV_VALUE_CAP_BYTES : ℕ := 26_214_400

/-! ## The record -/

inductive PartitionStep where
  | agg
  | finalize
  | reorder
  | build
  | publish
  | purge
deriving DecidableEq, Repr

structure PartitionPublishRecord where
  store_bytes : ℕ
  card_count : ℕ
  printing_count : ℕ
  chunk_count : ℕ
  chunks_published : ℕ
  cursor_seq : ℕ
  cursor_off : ℕ
  cut : ℕ
  gzip_bytes : ℕ
deriving DecidableEq, Repr

/-- The loop's durable state; parsing refuses one whose partition is out of range. -/
structure PpPublish where
  partition : ℕ
  step : PartitionStep
  partitions : List PartitionPublishRecord
  inRange : partition < partitions.length
deriving DecidableEq

namespace PpPublish

variable (state : PpPublish)

def currentRecord : PartitionPublishRecord := state.partitions.get ⟨state.partition, state.inRange⟩

def setRecord (record : PartitionPublishRecord) : PpPublish :=
  { state with
    partitions := state.partitions.set state.partition record
    inRange := by rw [List.length_set]; exact state.inRange }

@[simp] theorem currentRecord_setRecord (record : PartitionPublishRecord) :
    (state.setRecord record).currentRecord = record := by
  simp [currentRecord, setRecord]

@[simp] theorem partition_setRecord (record : PartitionPublishRecord) :
    (state.setRecord record).partition = state.partition := rfl

@[simp] theorem step_setRecord (record : PartitionPublishRecord) : (state.setRecord record).step = state.step := rfl

def withStep (step : PartitionStep) : PpPublish := { state with step := step }

@[simp] theorem currentRecord_withStep (step : PartitionStep) :
    (state.withStep step).currentRecord = state.currentRecord := rfl

@[simp] theorem partition_withStep (step : PartitionStep) : (state.withStep step).partition = state.partition := rfl

@[simp] theorem step_withStep (step : PartitionStep) : (state.withStep step).step = step := rfl

end PpPublish

def chunkCountFor (storeBytes cut : ℕ) : ℕ := storeBytes ⌈/⌉ cut

def recordBuild (state : PpPublish) (storeBytes cardCount printingCount : ℕ) : PpPublish :=
  (state.setRecord
    { store_bytes := storeBytes, card_count := cardCount, printing_count := printingCount, chunk_count := 0
      chunks_published := 0, cursor_seq := 0, cursor_off := 0, cut := KV_CHUNK_BYTES, gzip_bytes := 0 }).withStep
    .publish

def recordChunk (state : PpPublish) (cursor : StagingCursor) (gzipBytes : ℕ) : PpPublish :=
  let record := state.currentRecord
  state.setRecord
    { record with
      chunks_published := record.chunks_published + 1, cursor_seq := cursor.seq, cursor_off := cursor.off
      gzip_bytes := record.gzip_bytes + gzipBytes }

def restartAtSafeCut (state : PpPublish) : PpPublish :=
  state.setRecord
    { state.currentRecord with
      cut := KV_CHUNK_BYTES_SAFE, chunks_published := 0, cursor_seq := 0, cursor_off := 0, gzip_bytes := 0 }

def publishChunkTotal (state : PpPublish) : ℕ := chunkCountFor state.currentRecord.store_bytes state.currentRecord.cut

def completePartitionPublish (state : PpPublish) : PpPublish :=
  state.setRecord { state.currentRecord with chunk_count := publishChunkTotal state }

/-! ## A slice -/

/-- What a slice that ran to its writes does: a restart, a put with the record that follows it, or the stamp. -/
inductive Slice where
  | restart (state : PpPublish)
  | chunk (key : String) (stored : Bytes) (state : PpPublish)
  | complete (state : PpPublish)

section

variable (gzip : Bytes → Bytes) (partitionKey : ℕ → String) (staging : Staging)

def stepPublish (pp : PpPublish) : Except String Slice :=
  let record := pp.currentRecord
  if record.store_bytes = 0 then .error s!"publish: partition {pp.partition}'s build recorded no store size"
  else if record.chunks_published < publishChunkTotal pp then do
    let want := min record.cut (record.store_bytes - record.chunks_published * record.cut)
    let st ← assembleChunk staging want ⟨record.cursor_seq, record.cursor_off⟩
    let stored := gzip st.bytes
    if KV_VALUE_CAP_BYTES < stored.length then
      if record.cut ≠ KV_CHUNK_BYTES_SAFE then .ok (.restart (restartAtSafeCut pp))
      else .error (s!"publish: partition {pp.partition} chunk {record.chunks_published} compressed to " ++
        s!"{stored.length} bytes, over KV's {KV_VALUE_CAP_BYTES} cap")
    else
      .ok (.chunk (chunkKey (partitionKey pp.partition) record.chunks_published) stored
        (recordChunk pp st.cursor stored.length))
  else .ok (.complete ((completePartitionPublish pp).withStep .purge))

/-- The values KV holds and the object's record of its publish. -/
structure World where
  kv : String → Option Bytes
  pp : PpPublish

/-- How far an alarm gets: not to its first write, to the put alone, or through. -/
inductive PublishAlarm where
  | stopped
  | putOnly
  | through
deriving DecidableEq, Repr

def World.put (w : World) (key : String) (stored : Bytes) : World :=
  { w with kv := fun k => if k = key then some stored else w.kv k }

def alarm (w : World) (event : PublishAlarm) : Option World :=
  if w.pp.step ≠ .publish then none
  else some <|
    match stepPublish gzip partitionKey staging w.pp, event with
    | .error _, _ | .ok _, .stopped => w
    | .ok (.chunk key stored _), .putOnly => w.put key stored
    | .ok _, .putOnly => w
    | .ok (.chunk key stored pp), .through => { w.put key stored with pp := pp }
    | .ok (.restart pp), .through | .ok (.complete pp), .through => { w with pp := pp }

end

/-! ## The reader -/

section

variable (gunzip : Bytes → Option Bytes) (kv : String → Option Bytes) (storeKey : String)

/-- The chunks from `seq` on, `left` of them; `seen` counts the bytes KV handed over. -/
def readChunks (compressed inflate : Bool) (expectedStored : ℕ) : (left seq seen : ℕ) → Except String Bytes
  | 0, _, seen =>
    if seen ≠ expectedStored then .error s!"Store {storeKey} incomplete in KV: {seen}/{expectedStored} bytes"
    else .ok []
  | left + 1, seq, seen =>
    match kv (chunkKey storeKey seq) with
    | none => .error s!"Store {storeKey} is missing chunk {seq} in KV"
    | some bytes => do
        let piece ← if !compressed || !inflate then .ok bytes
          else match gunzip bytes with
            | some piece => .ok piece
            | none => .error "gzip"
        let rest ← readChunks compressed inflate expectedStored left (seq + 1) (seen + bytes.length)
        .ok (piece ++ rest)

def kvArchiveStream (expected : ℕ) (chunkCount gzipBytes : Option ℕ) (inflate : Bool) : Except String Bytes :=
  let compressed := gzipBytes.isSome
  if compressed ∧ chunkCount = none then
    .error s!"Store {storeKey} is gzipped but its manifest carries no chunk_count"
  else
    readChunks gunzip kv storeKey compressed inflate (gzipBytes.getD expected)
      (chunkCount.getD (chunkCountFor expected KV_CHUNK_BYTES)) 0 0

end

/-! ## Cuts -/

/-- The `i`th cut of an archive. -/
def cutOf (archive : Bytes) (cut i : ℕ) : Bytes := (archive.drop (i * cut)).take cut

theorem flatMap_cutOf (archive : Bytes) (cut n : ℕ) :
    (List.range n).flatMap (cutOf archive cut) = archive.take (n * cut) := by
  induction n with
  | zero => simp
  | succ n ih =>
    rw [List.range_succ, List.flatMap_append, ih, List.flatMap_singleton, cutOf, Nat.succ_mul, List.take_add]

theorem lt_chunkCountFor {storeBytes cut n : ℕ} (hcut : 0 < cut) : n < chunkCountFor storeBytes cut ↔ n * cut < storeBytes := by
  rw [chunkCountFor, ← not_le, ceilDiv_le_iff_le_mul hcut, not_le, mul_comm]

theorem chunkKey_injective {storeKey : String} {i j : ℕ} (h : chunkKey storeKey i = chunkKey storeKey j) : i = j := by
  simp only [chunkKey, String.append_right_inj] at h
  exact Text.repr_injective h

/-! ## The invariant -/

section

variable (gzip : Bytes → Bytes) (partitionKey : ℕ → String) (staging : Staging)

/-- Where a publish under `storeKey` stands: the first chunks are in KV under one cut of the archive, and the cursor
    stands right after them. -/
structure Standing (storeKey : String) (w : World) : Prop where
  key : partitionKey w.pp.partition = storeKey
  size : w.pp.currentRecord.store_bytes = staging.archive.length
  cut : w.pp.currentRecord.cut = KV_CHUNK_BYTES ∨ w.pp.currentRecord.cut = KV_CHUNK_BYTES_SAFE
  bound : w.pp.currentRecord.chunks_published ≤ publishChunkTotal w.pp
  holds : staging.Holds ⟨w.pp.currentRecord.cursor_seq, w.pp.currentRecord.cursor_off⟩
  unread : staging.unread ⟨w.pp.currentRecord.cursor_seq, w.pp.currentRecord.cursor_off⟩ =
    staging.archive.drop (w.pp.currentRecord.chunks_published * w.pp.currentRecord.cut)
  stored : ∀ i < w.pp.currentRecord.chunks_published,
    w.kv (chunkKey storeKey i) = some (gzip (cutOf staging.archive w.pp.currentRecord.cut i))
  gzip_bytes : w.pp.currentRecord.gzip_bytes = ((List.range w.pp.currentRecord.chunks_published).map fun i =>
    (gzip (cutOf staging.archive w.pp.currentRecord.cut i)).length).sum
  done : w.pp.step = .publish ∨ w.pp.step = .purge ∧ w.pp.currentRecord.chunks_published = publishChunkTotal w.pp ∧
      w.pp.currentRecord.chunk_count = publishChunkTotal w.pp

variable {gzip partitionKey staging} {storeKey : String} {w w' : World}

theorem Standing.cut_pos (h : Standing gzip partitionKey staging storeKey w) : 0 < w.pp.currentRecord.cut := by
  rcases h.cut with hcut | hcut <;> rw [hcut] <;> decide

theorem Standing.assemble (h : Standing gzip partitionKey staging storeKey w)
    (hmore : w.pp.currentRecord.chunks_published < publishChunkTotal w.pp) :
    ∃ cursor, assembleChunk staging
        (min w.pp.currentRecord.cut
          (w.pp.currentRecord.store_bytes - w.pp.currentRecord.chunks_published * w.pp.currentRecord.cut))
        ⟨w.pp.currentRecord.cursor_seq, w.pp.currentRecord.cursor_off⟩ =
          .ok ⟨cutOf staging.archive w.pp.currentRecord.cut w.pp.currentRecord.chunks_published, cursor⟩ ∧
      staging.unread cursor = staging.archive.drop ((w.pp.currentRecord.chunks_published + 1) * w.pp.currentRecord.cut) ∧
      staging.Holds cursor := by
  rw [publishChunkTotal, lt_chunkCountFor h.cut_pos] at hmore
  have hsize := h.size
  have hunread := h.unread
  generalize w.pp.currentRecord.cut = cut at *
  generalize w.pp.currentRecord.chunks_published = n at *
  generalize w.pp.currentRecord.store_bytes = size at *
  subst hsize
  have hleft : (staging.archive.drop (n * cut)).length = staging.archive.length - n * cut := List.length_drop
  have hwant : min cut (staging.archive.length - n * cut) ≤
      (staging.unread ⟨w.pp.currentRecord.cursor_seq, w.pp.currentRecord.cursor_off⟩).length := by
    rw [hunread, hleft]
    exact min_le_right _ _
  obtain ⟨cursor, hassemble, hnext, hholds⟩ := assembleChunk_spec h.holds hwant
  refine ⟨cursor, ?_, ?_, hholds⟩
  · rw [hassemble, hunread, cutOf, ← hleft, ← List.take_eq_take_min]
  · rw [hnext, hunread, List.drop_drop, Nat.succ_mul]
    rcases le_total cut (staging.archive.length - n * cut) with hle | hle
    · rw [min_eq_left hle]
    · rw [min_eq_right hle, List.drop_eq_nil_of_le (by omega), List.drop_eq_nil_of_le (by omega)]

/-- What a slice does: it errs, restarts, puts and records the next cut, or stamps the finished record. -/
inductive SliceOf (gzip : Bytes → Bytes) (staging : Staging) (storeKey : String) (pp : PpPublish) :
    Except String Slice → Prop where
  | error (message : String) (h : pp.currentRecord.store_bytes = 0 ∨ pp.currentRecord.cut = KV_CHUNK_BYTES_SAFE ∧
        KV_VALUE_CAP_BYTES < (gzip (cutOf staging.archive pp.currentRecord.cut pp.currentRecord.chunks_published)).length) :
      SliceOf gzip staging storeKey pp (.error message)
  | restart (h : pp.currentRecord.cut ≠ KV_CHUNK_BYTES_SAFE) :
      SliceOf gzip staging storeKey pp (.ok (.restart (restartAtSafeCut pp)))
  | chunk (cursor : StagingCursor) (hmore : pp.currentRecord.chunks_published < publishChunkTotal pp)
      (hunread : staging.unread cursor =
        staging.archive.drop ((pp.currentRecord.chunks_published + 1) * pp.currentRecord.cut))
      (hholds : staging.Holds cursor) :
      SliceOf gzip staging storeKey pp (.ok (.chunk (chunkKey storeKey pp.currentRecord.chunks_published)
        (gzip (cutOf staging.archive pp.currentRecord.cut pp.currentRecord.chunks_published))
        (recordChunk pp cursor
          (gzip (cutOf staging.archive pp.currentRecord.cut pp.currentRecord.chunks_published)).length)))
  | complete (h : pp.currentRecord.chunks_published = publishChunkTotal pp) :
      SliceOf gzip staging storeKey pp (.ok (.complete ((completePartitionPublish pp).withStep .purge)))

theorem Standing.slice (h : Standing gzip partitionKey staging storeKey w) :
    SliceOf gzip staging storeKey w.pp (stepPublish gzip partitionKey staging w.pp) := by
  unfold stepPublish
  by_cases hempty : w.pp.currentRecord.store_bytes = 0
  · simp only [if_pos hempty]
    exact .error _ (.inl hempty)
  by_cases hmore : w.pp.currentRecord.chunks_published < publishChunkTotal w.pp
  · obtain ⟨cursor, hassemble, hunread, hholds⟩ := h.assemble hmore
    simp only [if_neg hempty, if_pos hmore, hassemble, h.key]
    change SliceOf _ _ _ _ (if _ then _ else _)
    split_ifs with hcap hsafe
    · exact .restart hsafe
    · exact .error _ (.inr ⟨not_not.mp hsafe, hcap⟩)
    · exact .chunk cursor hmore hunread hholds
  · simp only [if_neg hempty, if_neg hmore]
    exact .complete (le_antisymm h.bound (Nat.not_lt.mp hmore))

/-! ## Every alarm keeps it -/

@[simp] theorem kv_put (w : World) (key k : String) (stored : Bytes) :
    (w.put key stored).kv k = if k = key then some stored else w.kv k := rfl

@[simp] theorem pp_put (w : World) (key : String) (stored : Bytes) : (w.put key stored).pp = w.pp := rfl

theorem Standing.put (h : Standing gzip partitionKey staging storeKey w) (stored : Bytes) :
    Standing gzip partitionKey staging storeKey
      (w.put (chunkKey storeKey w.pp.currentRecord.chunks_published) stored) where
  key := h.key
  size := h.size
  cut := h.cut
  bound := h.bound
  holds := h.holds
  unread := h.unread
  stored i hi := by
    have hne : chunkKey storeKey i ≠ chunkKey storeKey w.pp.currentRecord.chunks_published := fun heq =>
      hi.ne (chunkKey_injective heq)
    rw [kv_put, if_neg hne]
    exact h.stored i hi
  gzip_bytes := h.gzip_bytes
  done := h.done

theorem publishChunkTotal_recordChunk (pp : PpPublish) (cursor : StagingCursor) (gzipBytes : ℕ) :
    publishChunkTotal (recordChunk pp cursor gzipBytes) = publishChunkTotal pp := by
  simp [publishChunkTotal, recordChunk]

theorem Standing.chunk (h : Standing gzip partitionKey staging storeKey w) (hpublish : w.pp.step = .publish)
    {cursor : StagingCursor} (hmore : w.pp.currentRecord.chunks_published < publishChunkTotal w.pp)
    (hunread : staging.unread cursor =
      staging.archive.drop ((w.pp.currentRecord.chunks_published + 1) * w.pp.currentRecord.cut))
    (hholds : staging.Holds cursor) :
    Standing gzip partitionKey staging storeKey
      { w.put (chunkKey storeKey w.pp.currentRecord.chunks_published)
          (gzip (cutOf staging.archive w.pp.currentRecord.cut w.pp.currentRecord.chunks_published)) with
        pp := recordChunk w.pp cursor
          (gzip (cutOf staging.archive w.pp.currentRecord.cut w.pp.currentRecord.chunks_published)).length } := by
  have hput := h.put (gzip (cutOf staging.archive w.pp.currentRecord.cut w.pp.currentRecord.chunks_published))
  constructor
  · exact h.key
  · simpa [recordChunk] using h.size
  · simpa [recordChunk] using h.cut
  · rw [publishChunkTotal_recordChunk]
    simpa [recordChunk] using Nat.succ_le_of_lt hmore
  · simpa [recordChunk] using hholds
  · simpa [recordChunk] using hunread
  · intro i hi
    simp only [recordChunk, PpPublish.currentRecord_setRecord] at hi ⊢
    rcases Nat.lt_succ_iff_lt_or_eq.mp hi with hi | rfl
    · exact hput.stored i hi
    · exact if_pos rfl
  · simp only [recordChunk, PpPublish.currentRecord_setRecord, List.range_succ, List.map_append, List.map_singleton,
      List.sum_append, List.sum_singleton, h.gzip_bytes]
  · exact .inl hpublish

theorem Standing.restart (h : Standing gzip partitionKey staging storeKey w) (hpublish : w.pp.step = .publish) :
    Standing gzip partitionKey staging storeKey { w with pp := restartAtSafeCut w.pp } where
  key := h.key
  size := by simpa [restartAtSafeCut] using h.size
  cut := .inr (by simp [restartAtSafeCut])
  bound := by simp [restartAtSafeCut]
  holds := by simpa [restartAtSafeCut] using staging.holds_start 0
  unread := by simpa [restartAtSafeCut] using staging.unread_start
  stored := by simp [restartAtSafeCut]
  gzip_bytes := by simp [restartAtSafeCut]
  done := .inl hpublish

theorem Standing.complete (h : Standing gzip partitionKey staging storeKey w)
    (hall : w.pp.currentRecord.chunks_published = publishChunkTotal w.pp) :
    Standing gzip partitionKey staging storeKey
      { w with pp := (completePartitionPublish w.pp).withStep .purge } where
  key := h.key
  size := by simpa [completePartitionPublish] using h.size
  cut := by simpa [completePartitionPublish] using h.cut
  bound := by simpa [completePartitionPublish, publishChunkTotal] using h.bound
  holds := by simpa [completePartitionPublish] using h.holds
  unread := by simpa [completePartitionPublish] using h.unread
  stored := by simpa [completePartitionPublish] using h.stored
  gzip_bytes := by simpa [completePartitionPublish] using h.gzip_bytes
  done := .inr ⟨rfl, by simpa [completePartitionPublish, publishChunkTotal] using hall,
    by simp [completePartitionPublish, publishChunkTotal]⟩

theorem Standing.alarm (h : Standing gzip partitionKey staging storeKey w) {event : PublishAlarm}
    (hstep : alarm gzip partitionKey staging w event = some w') : Standing gzip partitionKey staging storeKey w' := by
  unfold PublishChunks.alarm at hstep
  split_ifs at hstep with hpublish
  rw [not_not] at hpublish
  have hslice := h.slice
  generalize stepPublish gzip partitionKey staging w.pp = slice at hslice hstep
  obtain rfl := Option.some.inj hstep
  cases hslice with
  | error message hwhy => exact h
  | restart hcut =>
    cases event with
    | stopped => exact h
    | putOnly => exact h
    | through => exact h.restart hpublish
  | chunk cursor hmore hunread hholds =>
    cases event with
    | stopped => exact h
    | putOnly => exact h.put _
    | through => exact h.chunk hpublish hmore hunread hholds
  | complete hall =>
    cases event with
    | stopped => exact h
    | putOnly => exact h
    | through => exact h.complete hall

theorem standing_recordBuild (pp : PpPublish) (kv : String → Option Bytes) (cards printings : ℕ) :
    Standing gzip partitionKey staging (partitionKey pp.partition)
      ⟨kv, recordBuild pp staging.archive.length cards printings⟩ where
  key := rfl
  size := by simp [recordBuild]
  cut := .inl (by simp [recordBuild])
  bound := by simp [recordBuild]
  holds := by simpa [recordBuild] using staging.holds_start 0
  unread := by simpa [recordBuild] using staging.unread_start
  stored := by simp [recordBuild]
  gzip_bytes := by simp [recordBuild]
  done := .inl rfl

theorem standing_of_reaches {pp : PpPublish} {kv : String → Option Bytes} {cards printings : ℕ}
    {events : List PublishAlarm}
    (h : Runs.Reaches (alarm gzip partitionKey staging)
      ⟨kv, recordBuild pp staging.archive.length cards printings⟩ events w) :
    Standing gzip partitionKey staging (partitionKey pp.partition) w :=
  h.stateInvariant (standing_recordBuild pp kv cards printings) fun hstanding hstep => hstanding.alarm hstep

/-! ## A publish left alone completes -/

/-- The slices a publish has left at most: a restart adds those of the safe cut. -/
def work (w : World) : ℕ :=
  (if w.pp.currentRecord.cut = KV_CHUNK_BYTES_SAFE then 0
    else chunkCountFor w.pp.currentRecord.store_bytes KV_CHUNK_BYTES_SAFE + 1) +
  (publishChunkTotal w.pp - w.pp.currentRecord.chunks_published)

/-- Where the safe cut always fits, an alarm that runs through completes the publish or leaves less of it. -/
theorem Standing.through (h : Standing gzip partitionKey staging storeKey w) (hpublish : w.pp.step = .publish)
    (hfits : ∀ b : Bytes, b.length ≤ KV_CHUNK_BYTES_SAFE → (gzip b).length ≤ KV_VALUE_CAP_BYTES)
    (harchive : staging.archive ≠ []) :
    ∃ w', PublishChunks.alarm gzip partitionKey staging w .through = some w' ∧
      (w'.pp.step = .purge ∨ w'.pp.step = .publish ∧ work w' < work w) := by
  have hslice := h.slice
  simp only [PublishChunks.alarm, hpublish, ne_eq, not_true_eq_false, if_false]
  generalize stepPublish gzip partitionKey staging w.pp = slice at hslice
  cases hslice with
  | error message hwhy =>
    rcases hwhy with hempty | ⟨hsafe, hcap⟩
    · rw [h.size, List.length_eq_zero_iff] at hempty
      exact absurd hempty harchive
    · have hlength : (cutOf staging.archive w.pp.currentRecord.cut w.pp.currentRecord.chunks_published).length ≤
          KV_CHUNK_BYTES_SAFE := by
        rw [cutOf, ← hsafe]
        exact List.length_take_le _ _
      exact absurd hcap (Nat.not_lt.mpr (hfits _ hlength))
  | restart hcut =>
    refine ⟨_, rfl, .inr ⟨hpublish, ?_⟩⟩
    simp only [work, restartAtSafeCut, publishChunkTotal, PpPublish.currentRecord_setRecord, if_true, if_neg hcut]
    omega
  | chunk cursor hmore hunread hholds =>
    refine ⟨_, rfl, .inr ⟨hpublish, ?_⟩⟩
    simp only [work, publishChunkTotal_recordChunk]
    simp only [recordChunk, PpPublish.currentRecord_setRecord]
    omega
  | complete hall => exact ⟨_, rfl, .inl rfl⟩

theorem publish_completes {start : World} {events : List PublishAlarm}
    (hfits : ∀ b : Bytes, b.length ≤ KV_CHUNK_BYTES_SAFE → (gzip b).length ≤ KV_VALUE_CAP_BYTES)
    (harchive : staging.archive ≠ []) (h : Standing gzip partitionKey staging storeKey w)
    (hreach : Runs.Reaches (PublishChunks.alarm gzip partitionKey staging) start events w)
    (hpublish : w.pp.step = .publish) :
    ∃ n w', Runs.Reaches (PublishChunks.alarm gzip partitionKey staging) start
      (events ++ List.replicate n .through) w' ∧ w'.pp.step = .purge := by
  induction hwork : work w using Nat.strongRecOn generalizing w events with
  | ind n ih =>
    subst hwork
    obtain ⟨w', hstep, hpurge | ⟨hpublish', hless⟩⟩ := h.through hpublish hfits harchive
    · exact ⟨1, w', hreach.step hstep, hpurge⟩
    · obtain ⟨m, last, hlast, hdone⟩ := ih (work w') hless (h.alarm hstep) (hreach.step hstep) hpublish' rfl
      refine ⟨m + 1, last, ?_, hdone⟩
      rwa [List.replicate_succ, ← List.singleton_append, ← List.append_assoc]

/-! ## What a reader gets -/

theorem readChunks_ok {gunzip : Bytes → Option Bytes} (hgunzip : ∀ b, gunzip (gzip b) = some b)
    {kv : String → Option Bytes} {piece : ℕ → Bytes} {expectedStored left seq seen : ℕ}
    (hkv : ∀ i, seq ≤ i → i < seq + left → kv (chunkKey storeKey i) = some (gzip (piece i)))
    (hseen : seen + ((List.range' seq left).map fun i => (gzip (piece i)).length).sum = expectedStored) :
    readChunks gunzip kv storeKey true true expectedStored left seq seen = .ok ((List.range' seq left).flatMap piece) := by
  induction left generalizing seq seen with
  | zero =>
    have hall : seen = expectedStored := by simpa using hseen
    simp [readChunks, hall]
  | succ left ih =>
    have hsum : seen + (gzip (piece seq)).length +
        ((List.range' (seq + 1) left).map fun i => (gzip (piece i)).length).sum = expectedStored := by
      rw [← hseen, List.range'_succ, List.map_cons, List.sum_cons, Nat.add_assoc]
    have hrest := ih (fun i hi hlt => hkv i (by omega) (by omega)) hsum
    rw [readChunks, hkv seq le_rfl (by omega)]
    simp only [Bool.not_true, Bool.or_self, Bool.false_eq_true, if_false, hgunzip, hrest]
    rw [List.range'_succ, List.flatMap_cons]
    rfl

variable {gunzip : Bytes → Option Bytes} {pp : PpPublish} {kv : String → Option Bytes} {cards printings : ℕ}
  {events : List PublishAlarm}

/-- **Published chunks are the archive.** When the publish of a partition completes, after any alarms each of which
    may have died before its put, between its put and its record, or run through, over any rows, compressor and
    earlier contents of KV: the values under the keys below `chunk_count` decompress to consecutive cuts of the
    archive, whose concatenation is the archive, `chunk_count` is the ceiling of its size over the recorded cut, and
    the recorded gzip bytes are those of the stored values, so that a reader of those keys gets the archive. -/
theorem published_chunks_are_archive (hgunzip : ∀ b, gunzip (gzip b) = some b)
    (h : Runs.Reaches (alarm gzip partitionKey staging)
      ⟨kv, recordBuild pp staging.archive.length cards printings⟩ events w)
    (hdone : w.pp.step = .purge) :
    w.pp.currentRecord.chunk_count = staging.archive.length ⌈/⌉ w.pp.currentRecord.cut ∧
    (∃ stored : ℕ → Bytes,
      (∀ i < w.pp.currentRecord.chunk_count,
        w.kv (chunkKey (partitionKey pp.partition) i) = some (stored i) ∧
          gunzip (stored i) = some (cutOf staging.archive w.pp.currentRecord.cut i)) ∧
      w.pp.currentRecord.gzip_bytes =
        ((List.range w.pp.currentRecord.chunk_count).map fun i => (stored i).length).sum) ∧
    (List.range w.pp.currentRecord.chunk_count).flatMap (cutOf staging.archive w.pp.currentRecord.cut) =
      staging.archive ∧
    kvArchiveStream gunzip w.kv (partitionKey pp.partition) w.pp.currentRecord.store_bytes
      (some w.pp.currentRecord.chunk_count) (some w.pp.currentRecord.gzip_bytes) true = .ok staging.archive := by
  have hstanding := standing_of_reaches h
  obtain ⟨hall, hcount⟩ : w.pp.currentRecord.chunks_published = publishChunkTotal w.pp ∧
      w.pp.currentRecord.chunk_count = publishChunkTotal w.pp := by
    rcases hstanding.done with hpublish | ⟨-, hall⟩
    · rw [hdone] at hpublish
      cases hpublish
    · exact hall
  rw [← hall] at hcount
  have harchive : (List.range w.pp.currentRecord.chunk_count).flatMap
      (cutOf staging.archive w.pp.currentRecord.cut) = staging.archive := by
    have hle : staging.archive.length ≤ w.pp.currentRecord.chunk_count * w.pp.currentRecord.cut := by
      have hnot : ¬ w.pp.currentRecord.chunk_count < publishChunkTotal w.pp := by omega
      rw [publishChunkTotal, lt_chunkCountFor hstanding.cut_pos, hstanding.size] at hnot
      exact Nat.not_lt.mp hnot
    rw [flatMap_cutOf, List.take_of_length_le hle]
  refine ⟨?_, ⟨fun i => gzip (cutOf staging.archive w.pp.currentRecord.cut i), fun i hi => ?_, ?_⟩, harchive, ?_⟩
  · rw [hcount, hall, publishChunkTotal, hstanding.size]
    rfl
  · rw [hcount] at hi
    exact ⟨hstanding.stored i hi, hgunzip _⟩
  · rw [hcount]
    exact hstanding.gzip_bytes
  · have hsum : 0 + ((List.range' 0 w.pp.currentRecord.chunk_count).map fun i =>
        (gzip (cutOf staging.archive w.pp.currentRecord.cut i)).length).sum = w.pp.currentRecord.gzip_bytes := by
      rw [← List.range_eq_range', hcount, hstanding.gzip_bytes, Nat.zero_add]
    have hread := readChunks_ok hgunzip (fun i _ hi => hstanding.stored i (by omega)) hsum
    rw [← List.range_eq_range', harchive] at hread
    simpa [kvArchiveStream] using hread

end

def frame (b : Bytes) : Bytes := 0x1f :: b

def unframe (b : Bytes) : Option Bytes := b.tail

/-- Three staged rows on no grid of the publish's, one of them empty. -/
def threeRows : Staging := ⟨[⟨0, [1, 2]⟩, ⟨1, []⟩, ⟨4, [3]⟩], by decide⟩

/-- The three rows through it. -/
theorem published_chunks_are_archive_framed :
    ∃ n w, Runs.Reaches (alarm frame Nat.repr threeRows)
        ⟨fun _ => none, recordBuild ⟨0, .build, [⟨0, 0, 0, 0, 0, 0, 0, 0, 0⟩], by decide⟩ threeRows.archive.length 1 1⟩
        (List.replicate n .through) w ∧
      w.pp.step = .purge ∧
      kvArchiveStream unframe w.kv (Nat.repr 0) w.pp.currentRecord.store_bytes
        (some w.pp.currentRecord.chunk_count) (some w.pp.currentRecord.gzip_bytes) true = .ok [1, 2, 3] := by
  have hfits : ∀ b : Bytes, b.length ≤ KV_CHUNK_BYTES_SAFE → (frame b).length ≤ KV_VALUE_CAP_BYTES := by
    intro b hb
    simp only [KV_CHUNK_BYTES_SAFE, KV_VALUE_CAP_BYTES, frame, List.length_cons] at hb ⊢
    omega
  have hsome : threeRows.archive ≠ [] := by decide
  have hgunzip : ∀ b, unframe (frame b) = some b := fun _ => rfl
  obtain ⟨n, w, hreach, hdone⟩ := publish_completes hfits hsome (standing_recordBuild _ _ 1 1)
    Runs.Reaches.start rfl
  exact ⟨n, w, hreach, hdone, (published_chunks_are_archive hgunzip hreach hdone).2.2.2⟩

end PublishChunks
