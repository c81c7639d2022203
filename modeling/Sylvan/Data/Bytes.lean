-- SUMMARY: Byte strings as lists, the typed-array operations on them, and chunked sources.
import Mathlib.Algebra.Ring.Nat
import Mathlib.Data.List.Basic
import Mathlib.Data.List.Induction
import Sylvan.Data.Members

/-!
# Bytes

A `Uint8Array` is a list of bytes. A byte source (an async iterable of chunks,
a reader over stored rows) is a list of chunks; how it cuts its bytes is never
promised, so a source is a `Chunking` of them.
-/

abbrev Bytes : Type := List UInt8

namespace Bytes

def indexOf (data : Bytes) (b : UInt8) (start : Nat) : Option Nat :=
  ((data.drop start).findIdx? (· == b)).map (start + ·)

/-- `data.subarray(start, stop)`, clamped at the end as a typed array clamps it. -/
def subarray (data : Bytes) (start stop : Nat) : Bytes :=
  (data.drop start).take (stop - start)

variable {data : Bytes}

theorem indexOf_eq_some {b : UInt8} {start nl : Nat}
    (h : data.indexOf b start = some nl) :
    start ≤ nl ∧ b ∉ data.subarray start nl ∧ data.drop start = data.subarray start nl ++ b :: data.drop (nl + 1) := by
  obtain ⟨i, hi, rfl⟩ := Option.map_eq_some_iff.mp h
  obtain ⟨hlt, hb, hbefore⟩ := List.findIdx?_eq_some_iff_getElem.mp hi
  have hb : (data.drop start)[i] = b := by simpa using hb
  refine ⟨Nat.le_add_right _ _, ?_, ?_⟩
  · simp only [subarray, Nat.add_sub_cancel_left, List.mem_take_iff_getElem]
    rintro ⟨j, hj, hjb⟩
    have := hbefore j (by omega)
    simp_all
  · have hsplit := (List.take_append_drop i (data.drop start)).symm
    rw [List.drop_eq_getElem_cons hlt, hb, List.drop_drop] at hsplit
    simpa [subarray, Nat.add_assoc] using hsplit

theorem indexOf_eq_none {b : UInt8} {start : Nat}
    (h : data.indexOf b start = none) : b ∉ data.drop start := by
  have hnone := List.findIdx?_eq_none_iff.mp (Option.map_eq_none_iff.mp h)
  intro hmem
  simpa using hnone b hmem

theorem lt_length_of_indexOf {b : UInt8} {start nl : Nat}
    (h : data.indexOf b start = some nl) : start ≤ nl ∧ nl < data.length := by
  obtain ⟨hle, -, hsplit⟩ := indexOf_eq_some h
  refine ⟨hle, ?_⟩
  have hlen := congrArg List.length hsplit
  simp only [subarray, List.length_append, List.length_cons, List.length_drop, List.length_take] at hlen
  omega

/-! ## Little-endian integers -/

/-- The `k` low bytes of `n`, least significant first. -/
def ofNatLE : ℕ → ℕ → Bytes
  | 0, _ => []
  | k + 1, n => UInt8.ofNat n :: ofNatLE k (n / 256)

def toNatLE : Bytes → ℕ
  | [] => 0
  | b :: bs => b.toNat + 256 * toNatLE bs

attribute [local simp] ofNatLE toNatLE

@[simp] theorem length_ofNatLE (k n : ℕ) : (ofNatLE k n).length = k := by
  induction k generalizing n with
  | zero => rfl
  | succ k ih => simp [ih]

theorem toNatLE_ofNatLE (k n : ℕ) : toNatLE (ofNatLE k n) = n % 256 ^ k := by
  induction k generalizing n with
  | zero => simp [Nat.mod_one]
  | succ k ih =>
    rw [ofNatLE, toNatLE, ih, Nat.pow_succ', Nat.mod_mul]
    simp

theorem toNatLE_lt (bs : Bytes) : toNatLE bs < 256 ^ bs.length := by
  induction bs with
  | nil => simp
  | cons b bs ih =>
    have hb := b.toNat_lt
    rw [toNatLE, List.length_cons, Nat.pow_succ']
    omega

/-- `view.getUint32(at, true)`: `none` is the `RangeError` of a read past the end. -/
def getUint32 (data : Bytes) (pos : ℕ) : Option ℕ :=
  if pos + 4 ≤ data.length then some (toNatLE (data.subarray pos (pos + 4))) else none

theorem getUint32_eq_none {pos : ℕ} : data.getUint32 pos = none ↔ data.length < pos + 4 := by
  simp [getUint32]

theorem lt_of_getUint32 {pos n : ℕ} (h : data.getUint32 pos = some n) : pos + 4 ≤ data.length := by
  by_contra hlt
  rw [getUint32_eq_none.mpr (by omega)] at h
  cases h

theorem getUint32_lt {pos len : ℕ} (h : data.getUint32 pos = some len) : len < 2 ^ 32 := by
  unfold getUint32 at h
  split at h
  · rw [← Option.some.inj h]
    refine Nat.lt_of_lt_of_le (toNatLE_lt _) ?_
    have hlength : (data.subarray pos (pos + 4)).length ≤ 4 := by
      rw [subarray, List.length_take]
      omega
    exact Nat.pow_le_pow_right (by decide) hlength
  · cases h

end Bytes

/-- A way of cutting any byte string into the chunks a source delivers it in. -/
structure Chunking where
  chunks : Bytes → List Bytes
  flatten_chunks : ∀ b, (chunks b).flatten = b

attribute [simp] Chunking.flatten_chunks
