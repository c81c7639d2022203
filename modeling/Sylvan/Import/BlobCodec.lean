-- SUMMARY: The codec of staged blobs, and the blob built one entry at a time.
import Mathlib.Algebra.Order.Floor.Div
import Mathlib.Tactic.Linarith
import Sylvan.Import.Spill

/-!
# Packed blobs

A staged blob is stored behind a header that names its raw length. The bucket phase builds
its blobs an entry at a time, so that it holds compressed bytes rather than the entries, and
asks the stream how large it might end up.
-/

namespace BlobCodec

open ImportSpill (lengthPrefixed Fits)

/-! ## The compressor -/

/-- The compressor's two forms: over a whole buffer, and over pushed chunks, the last of them final. -/
structure Fflate where
  deflateSync : Bytes → Bytes
  /-- The bytes a stream has handed on once these chunks are pushed. -/
  emitted : List Bytes → ℕ
  /-- A stream's whole output, its last chunk pushed as final. -/
  finished : List Bytes → Bytes
  inflateSync : Bytes → Bytes

/-- What the codec relies on: inflating gives back what went in, and no input grows past twice its size and a block. -/
structure Fflate.Documented (f : Fflate) : Prop where
  inflate_deflate : ∀ raw, f.inflateSync (f.deflateSync raw) = raw
  inflate_finished : ∀ chunks, f.inflateSync (f.finished chunks) = chunks.flatten
  emitted_le : ∀ chunks, f.emitted chunks ≤ 2 * chunks.flatten.length + 65536

/-! ## The header -/

def BLOB_CODEC_MAGIC : Bytes := [0x53, 0x4c, 0x5a, 0x31]
def HEADER_BYTES : ℕ := 8

def header (raw : ℕ) : Bytes := BLOB_CODEC_MAGIC ++ Bytes.ofNatLE 4 raw

theorem length_header (raw : ℕ) : (header raw).length = HEADER_BYTES := by
  simp [header, BLOB_CODEC_MAGIC, HEADER_BYTES]

/-- True when `bytes` carries the codec header. -/
def isPackedBlob (bytes : Bytes) : Bool := HEADER_BYTES ≤ bytes.length ∧ bytes.take 4 = BLOB_CODEC_MAGIC

section

variable (f : Fflate)

def packBlob (raw : Bytes) : Bytes := header raw.length ++ f.deflateSync raw

/-- The raw bytes of a stored blob: decompressed when packed, passed through when not. -/
def unpackBlob (stored : Bytes) : Except String Bytes :=
  if !isPackedBlob stored then .ok stored
  else
    let rawLength := Bytes.toNatLE (stored.subarray 4 8)
    let out := f.inflateSync (stored.drop HEADER_BYTES)
    if out.length ≠ rawLength then .error s!"staged blob decompressed to {out.length} bytes, header says {rawLength}"
    else .ok out

variable {f}

theorem isPackedBlob_header (raw : ℕ) (body : Bytes) : isPackedBlob (header raw ++ body) = true := by
  have hmagic : (header raw ++ body).take 4 = BLOB_CODEC_MAGIC := by
    rw [header, List.append_assoc]
    exact List.take_left' rfl
  simp [isPackedBlob, hmagic, length_header]

theorem unpackBlob_header {raw : Bytes} (hraw : raw.length < 2 ^ 32) {body : Bytes} (hbody : f.inflateSync body = raw) :
    unpackBlob f (header raw.length ++ body) = .ok raw := by
  have hlength : Bytes.toNatLE ((header raw.length ++ body).subarray 4 8) = raw.length := by
    have hsub : (header raw.length ++ body).subarray 4 8 = Bytes.ofNatLE 4 raw.length := by
      have hmagic (rest : Bytes) : (BLOB_CODEC_MAGIC ++ rest).drop 4 = rest := List.drop_left' rfl
      rw [Bytes.subarray, header, List.append_assoc, hmagic]
      exact List.take_left' (Bytes.length_ofNatLE 4 _)
    rw [hsub, Bytes.toNatLE_ofNatLE]
    exact Nat.mod_eq_of_lt (by simpa using hraw)
  have hdrop : (header raw.length ++ body).drop HEADER_BYTES = body := List.drop_left' (length_header _)
  simp only [unpackBlob, isPackedBlob_header, Bool.not_true, Bool.false_eq_true, if_false, hdrop, hbody, hlength,
    ne_eq, not_true_eq_false]

theorem unpackBlob_packBlob (hf : f.Documented) {raw : Bytes} (hraw : raw.length < 2 ^ 32) :
    unpackBlob f (packBlob f raw) = .ok raw :=
  unpackBlob_header hraw (hf.inflate_deflate raw)

end

/-! ## The stream -/

def PACK_STREAM_PUSH_BYTES : ℕ := 64 * 1024

structure PackStream where
  /-- The chunks handed to the compressor. -/
  chunks : List Bytes
  pending : Bytes
  raw : ℕ
  count : ℕ
deriving DecidableEq

def PackStream.empty : PackStream := { chunks := [], pending := [], raw := 0, count := 0 }

def PackStream.push (s : PackStream) (entry : Bytes) : PackStream :=
  let pending := s.pending ++ (Bytes.ofNatLE 4 entry.length ++ entry)
  if PACK_STREAM_PUSH_BYTES ≤ pending.length then
    { chunks := s.chunks ++ [pending], pending := [], raw := s.raw + (4 + entry.length), count := s.count + 1 }
  else { s with pending := pending, raw := s.raw + (4 + entry.length), count := s.count + 1 }

def PackStream.packedBound (f : Fflate) (s : PackStream) : ℕ :=
  HEADER_BYTES + f.emitted s.chunks + s.pending.length + 8192 + 1024 + (s.raw ⌈/⌉ 65536) * 8

def PackStream.finish (f : Fflate) (s : PackStream) : Bytes := header s.raw ++ f.finished (s.chunks ++ [s.pending])

def packed (entries : List Bytes) : PackStream := entries.foldl PackStream.push .empty

theorem lengthPrefixed_append (as bs : List Bytes) :
    lengthPrefixed (as ++ bs) = lengthPrefixed as ++ lengthPrefixed bs := List.flatMap_append ..

theorem length_lengthPrefixed_append (entries : List Bytes) (entry : Bytes) :
    (lengthPrefixed (entries ++ [entry])).length = (lengthPrefixed entries).length + (4 + entry.length) := by
  simp [lengthPrefixed]

theorem packed_append_singleton (entries : List Bytes) (entry : Bytes) :
    packed (entries ++ [entry]) = (packed entries).push entry := List.foldl_concat ..

theorem packed_spec (entries : List Bytes) :
    (packed entries).chunks.flatten ++ (packed entries).pending = lengthPrefixed entries ∧
      (packed entries).raw = (lengthPrefixed entries).length ∧ (packed entries).count = entries.length := by
  induction entries using List.reverseRecOn with
  | nil => exact ⟨rfl, rfl, rfl⟩
  | append_singleton entries entry ih =>
    obtain ⟨hbytes, hraw, hcount⟩ := ih
    have hframed : lengthPrefixed (entries ++ [entry]) = (packed entries).chunks.flatten ++
          ((packed entries).pending ++ (Bytes.ofNatLE 4 entry.length ++ entry)) := by
      rw [lengthPrefixed_append, ← hbytes, List.append_assoc]
      simp [lengthPrefixed]
    rw [packed_append_singleton, length_lengthPrefixed_append, hframed, ← hraw]
    unfold PackStream.push
    simp only
    split
    · simp [hcount]
    · simp [hcount]

theorem raw_packed (entries : List Bytes) : (packed entries).raw = (lengthPrefixed entries).length :=
  (packed_spec entries).2.1

theorem count_packed (entries : List Bytes) : (packed entries).count = entries.length := (packed_spec entries).2.2

section

variable {f : Fflate}

theorem unpackBlob_finish (hf : f.Documented) {entries : List Bytes} (hraw : (lengthPrefixed entries).length < 2 ^ 32) :
    unpackBlob f ((packed entries).finish f) = .ok (lengthPrefixed entries) := by
  rw [PackStream.finish, raw_packed]
  refine unpackBlob_header hraw ?_
  rw [hf.inflate_finished, List.flatten_append, List.flatten_singleton, (packed_spec entries).1]

theorem packedBound_le (hf : f.Documented) (entries : List Bytes) :
    (packed entries).packedBound f ≤ 3 * (lengthPrefixed entries).length + 74768 := by
  have hemitted := hf.emitted_le (packed entries).chunks
  have hbytes := congrArg List.length (packed_spec entries).1
  rw [List.length_append] at hbytes
  have hceil : (packed entries).raw ⌈/⌉ 65536 ≤ (lengthPrefixed entries).length / 65536 + 1 := by
    rw [raw_packed, ceilDiv_le_iff_le_mul (by norm_num)]
    omega
  unfold PackStream.packedBound HEADER_BYTES
  omega

end

end BlobCodec
