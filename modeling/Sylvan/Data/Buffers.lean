-- SUMMARY: Byte buffers allocated whole and written piece by piece.
import Mathlib.Data.List.Basic
import Sylvan.Data.Bytes
import Sylvan.Data.Throws

/-!
# Buffers

A value is laid out in a buffer of its whole length, piece after piece. An allocation past
what the isolate holds and a write past the buffer's end throw.
-/

namespace Buffers

/-- The isolate a buffer is allocated in: how large one it can hold, never 4 GiB. -/
structure Isolate where
  maxBytes : ℕ
  maxBytes_lt : maxBytes < 2 ^ 32

variable {ε : Type} {thrown : ε}

def alloc (thrown : ε) (isolate : Isolate) (n : ℕ) : Except ε Bytes :=
  if n ≤ isolate.maxBytes then .ok (List.replicate n 0) else .error thrown

def write (thrown : ε) (bytes source : Bytes) (at_ : ℕ) : Except ε Bytes :=
  if at_ + source.length ≤ bytes.length then
    .ok (bytes.take at_ ++ (source ++ bytes.drop (at_ + source.length)))
  else .error thrown

theorem write_append {source old : Bytes} (h : old.length = source.length) (front back : Bytes) :
    write thrown (front ++ (old ++ back)) source front.length = .ok (front ++ (source ++ back)) := by
  have hfits : front.length + source.length ≤ (front ++ (old ++ back)).length := by
    simp only [List.length_append]
    omega
  rw [write, if_pos hfits, List.take_left, ← List.drop_drop, List.drop_left, ← h, List.drop_left]

theorem length_write {bytes bytes' source : Bytes} {at_ : ℕ} (h : write thrown bytes source at_ = .ok bytes') :
    bytes'.length = bytes.length := by
  unfold write at h
  split at h
  · rename_i hfits
    obtain rfl := Except.ok.inj h
    simp only [List.length_append, List.length_take, List.length_drop]
    omega
  · cases h

/-! ## Pieces of one width -/

/-- The pieces written `width` apart, from `start`. -/
def writeEach {α : Type} (thrown : ε) (piece : α → Bytes) (start width : ℕ) (bytes : Bytes) (items : List α) : Except ε Bytes :=
  items.zipIdx.foldlM (fun bytes item => write thrown bytes (piece item.1) (start + item.2 * width)) bytes

theorem writeEach_append {α : Type} {piece : α → Bytes} {start width : ℕ} {items : List α} {front old : Bytes}
    (hpiece : ∀ item ∈ items, (piece item).length = width) (hfront : front.length = start)
    (hold : old.length = items.length * width) (back : Bytes) :
    writeEach thrown piece start width (front ++ (old ++ back)) items = .ok (front ++ (items.flatMap piece ++ back)) := by
  have hfrom : ∀ (k : ℕ) (items : List α) (front old : Bytes), (∀ item ∈ items, (piece item).length = width) →
      front.length = start + k * width → old.length = items.length * width →
      (items.zipIdx k).foldlM (fun bytes item => write thrown bytes (piece item.1) (start + item.2 * width))
        (front ++ (old ++ back)) = .ok (front ++ (items.flatMap piece ++ back)) := by
    intro k items
    induction items generalizing k with
    | nil =>
      intro front old _ _ hold
      obtain rfl := List.eq_nil_of_length_eq_zero (by simpa using hold)
      rfl
    | cons item items ih =>
      intro front old hpiece hfront hold
      have hwidth := hpiece item List.mem_cons_self
      rw [List.length_cons, Nat.succ_mul] at hold
      have hhead : (old.take width).length = (piece item).length := by
        rw [List.length_take]
        omega
      have hone := @write_append ε thrown (piece item) (old.take width) hhead front (old.drop width ++ back)
      rw [← List.append_assoc (old.take width), List.take_append_drop, hfront] at hone
      rw [List.zipIdx_cons, List.foldlM_cons, Throws.bind_ok hone, ← List.append_assoc front]
      have hrest := ih (k + 1) (front ++ piece item) (old.drop width)
        (fun other hother => hpiece other (List.mem_cons_of_mem _ hother))
        (by rw [List.length_append, hfront, hwidth, Nat.succ_mul]; omega)
        (by rw [List.length_drop]; omega)
      rw [hrest, List.flatMap_cons]
      simp only [List.append_assoc]
  exact hfrom 0 items front old hpiece (by omega) hold

/-! ## Pieces of their own widths -/

/-- The pieces written one behind the other, from `start`. -/
def writeAll (thrown : ε) (start : ℕ) (bytes : Bytes) (pieces : List Bytes) : Except ε (Bytes × ℕ) :=
  pieces.foldlM (fun state piece => do
    let bytes ← write thrown state.1 piece state.2
    pure (bytes, state.2 + piece.length)) (bytes, start)

theorem writeAll_append {pieces : List Bytes} {front old : Bytes} (hold : old.length = pieces.flatten.length) (back : Bytes) :
    writeAll thrown front.length (front ++ (old ++ back)) pieces =
      .ok (front ++ (pieces.flatten ++ back), front.length + pieces.flatten.length) := by
  unfold writeAll
  induction pieces generalizing front old with
  | nil =>
    obtain rfl := List.eq_nil_of_length_eq_zero (by simpa using hold)
    rfl
  | cons piece pieces ih =>
    rw [List.flatten_cons, List.length_append] at hold
    have hhead : (old.take piece.length).length = piece.length := by
      rw [List.length_take]
      omega
    have hone := @write_append ε thrown piece (old.take piece.length) hhead front (old.drop piece.length ++ back)
    rw [← List.append_assoc (old.take piece.length), List.take_append_drop] at hone
    rw [List.foldlM_cons, Throws.bind_ok (a := (front ++ (piece ++ (old.drop piece.length ++ back)),
      front.length + piece.length)) (by rw [hone]; rfl)]
    have hrest := @ih (front ++ piece) (old.drop piece.length) (by rw [List.length_drop]; omega)
    rw [List.length_append, List.append_assoc] at hrest
    rw [hrest, List.flatten_cons]
    simp only [List.append_assoc, List.length_append, Nat.add_assoc]

end Buffers
