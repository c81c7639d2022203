-- SUMMARY: The spill codec, the reorder that rewrites the spill in build order, and the cursor over it.
import Mathlib.Data.List.Perm.Basic
import Mathlib.Data.List.Sort
import Mathlib.Logic.Function.Basic
import Sylvan.Data.Bytes
import Sylvan.Data.JsMap
import Sylvan.Data.Throws

/-!
# The reordered spill

Finalize writes the staged rows in add order, in blobs of length-prefixed rows.
The store build pulls them in card-sort order, so the spill is rewritten once in
that order, a range of build positions per alarm, and read straight through.
-/

namespace ImportSpill

open Throws

/-! ## Length-prefixed batches -/

def lengthPrefixed (blobs : List Bytes) : Bytes :=
  blobs.flatMap fun b => Bytes.ofNatLE 4 b.length ++ b

/-- What a `DataView` read past its end throws. -/
def rangeError : String := "Offset is outside the bounds of the DataView"

/-- The loop of `splitBatch`, from `pos`. `subarray` clamps a payload that runs
past the end of the batch. -/
def splitBatchFrom (batch : Bytes) (pos : ℕ) : Except String (List Bytes) :=
  if pos < batch.length then
    match batch.getUint32 pos with
    | none => .error rangeError
    | some len =>
      match splitBatchFrom batch (pos + 4 + len) with
      | .error e => .error e
      | .ok rows => .ok (batch.subarray (pos + 4) (pos + 4 + len) :: rows)
  else .ok []
termination_by batch.length - pos

def splitBatch (batch : Bytes) : Except String (List Bytes) := splitBatchFrom batch 0

structure Grouping where
  groups : List (List Bytes)
  group : List Bytes
  bytes : ℕ

def Grouping.start : Grouping := { groups := [], group := [], bytes := 0 }

/-- The body of `blobGroups`' loop. -/
def Grouping.push (cap : ℕ) (g : Grouping) (b : Bytes) : Grouping :=
  let g :=
    if g.group.length > 0 ∧ g.bytes + 4 + b.length > cap then
      { groups := g.groups ++ [g.group], group := [], bytes := 0 }
    else g
  { g with group := g.group ++ [b], bytes := g.bytes + (4 + b.length) }

/-- `BLOB_GROUP_BYTES` is the default of `cap`. -/
def BLOB_GROUP_BYTES : ℕ := 1_500_000

def blobGroups (blobs : List Bytes) (cap : ℕ := BLOB_GROUP_BYTES) : List (List Bytes) :=
  let g := blobs.foldl (Grouping.push cap) Grouping.start
  if g.group.length > 0 then g.groups ++ [g.group] else g.groups

/-! ## Tables of blobs -/

/-- `spill_batches` and `ordered_rows`: blobs under the index of their first row,
in primary-key order. -/
abbrev Table : Type := List (ℕ × Bytes)

/-- `INSERT OR REPLACE INTO … (base, …)`. -/
def Table.insertOrReplace (base : ℕ) (bytes : Bytes) : Table → Table
  | [] => [(base, bytes)]
  | e :: t =>
    if e.1 < base then e :: Table.insertOrReplace base bytes t
    else if e.1 = base then (base, bytes) :: t
    else (base, bytes) :: e :: t

/-- `SELECT bytes FROM … WHERE base = ?`. -/
def Table.readGroup (t : Table) (base : ℕ) : Option Bytes :=
  (t.find? fun e => e.1 = base).map Prod.snd

/-- `SELECT … WHERE base <= ? ORDER BY base DESC LIMIT 1`. -/
def Table.readFrom (t : Table) (position : ℕ) : Option (ℕ × Bytes) :=
  (t.filter fun e => e.1 ≤ position).getLast?

/-- Groups written one after the other, each under the index of its first row. -/
def Table.writeGroups : ℕ → List (List Bytes) → Table → Table
  | _, [], t => t
  | base, group :: groups, t =>
    Table.writeGroups (base + group.length) groups (t.insertOrReplace base (lengthPrefixed group))

/-! ## The spill index -/

/-- Where every spilled row sits, by add-order index; a sparse array is a
partial function of its index. -/
structure SpillIndex where
  groupOf : ℕ → Option ℕ
  offsetOf : ℕ → Option ℕ
  lengthOf : ℕ → Option ℕ

def SpillIndex.empty : SpillIndex :=
  { groupOf := fun _ => none, offsetOf := fun _ => none, lengthOf := fun _ => none }

def SpillIndex.put (index : SpillIndex) (i base offset len : ℕ) : SpillIndex :=
  { groupOf := Function.update index.groupOf i (some base)
    offsetOf := Function.update index.offsetOf i (some offset)
    lengthOf := Function.update index.lengthOf i (some len) }

/-- The inner loop of `spillIndex` over one group, from `pos` with `n` rows seen:
it goes on while a header is there to read. -/
def indexGroup (base : ℕ) (bytes : Bytes) (pos n : ℕ) (index : SpillIndex) : SpillIndex :=
  match _h : bytes.getUint32 pos with
  | none => index
  | some len =>
    indexGroup base bytes (pos + 4 + len) (n + 1) (index.put (base + n) base (pos + 4) len)
termination_by bytes.length - pos
decreasing_by
  have := Bytes.lt_of_getUint32 _h
  omega

def spillIndex (groups : Table) : SpillIndex :=
  groups.foldl (fun index g => indexGroup g.1 g.2 0 0 index) SpillIndex.empty

/-! ## One reorder slice -/

/-- `wanted.add(index.groupOf[order[pos]])`, or the throw for an unspilled row. -/
def wantGroup (order : List ℕ) (index : SpillIndex) (wanted : JsSet ℕ) (pos : ℕ) : Except String (JsSet ℕ) :=
  match order[pos]? with
  | none => .error s!"reorder: build position {pos} names unspilled row undefined"
  | some idx =>
    match index.groupOf idx with
    | none => .error s!"reorder: build position {pos} names unspilled row {idx}"
    | some base => .ok (wanted.add base)

/-- One position of the scan over group `base`: its row, when it lies there. -/
def takeRow (order : List ℕ) (index : SpillIndex) (base : ℕ) (bytes : Bytes)
    (rows : JsMap ℕ Bytes) (pos : ℕ) : JsMap ℕ Bytes :=
  match order[pos]? with
  | none => rows
  | some idx =>
    if index.groupOf idx ≠ some base then rows
    else
      let start := (index.offsetOf idx).getD 0
      rows.set pos (bytes.subarray start (start + (index.lengthOf idx).getD 0))

def takeGroup (order : List ℕ) (index : SpillIndex) (positions : List ℕ)
    (readGroup : ℕ → Option Bytes) (rows : JsMap ℕ Bytes) (base : ℕ) :
    Except String (JsMap ℕ Bytes) :=
  match readGroup base with
  | none => .error s!"reorder: spill group {base} missing"
  | some bytes => .ok (positions.foldl (takeRow order index base bytes) rows)

def orderedRow (rows : JsMap ℕ Bytes) (pos : ℕ) : Except String Bytes :=
  match rows.get pos with
  | none => .error s!"reorder: no spilled row for build position {pos}"
  | some row => .ok row

/-- The rows for build positions `[start, stop)`, in build order. -/
def reorderSlice (order : List ℕ) (index : SpillIndex) (start stop : ℕ)
    (readGroup : ℕ → Option Bytes) : Except String (List Bytes) := do
  let positions := List.range' start (stop - start)
  let wanted ← positions.foldlM (wantGroup order index) ([] : JsSet ℕ)
  let rows ← (wanted.insertionSort (· ≤ ·)).foldlM
    (takeGroup order index positions readGroup) JsMap.empty
  positions.mapM (orderedRow rows)

/-! ## The reorder phase -/

/-- What reading a blob gives when rows of the table may be lost or cut short. -/
structure Damage where
  read : ℕ → Bytes → Option Bytes
  short : ∀ base bytes kept, read base bytes = some kept → kept <+: bytes

def Damage.undamaged : Damage where
  read _ bytes := some bytes
  short _ _ _ h := by simp_all

/-- The blob at `base` keeps only its first `k` bytes. -/
def Damage.cut (base k : ℕ) : Damage where
  read b bytes := some (if b = base then bytes.take k else bytes)
  short b bytes kept h := by
    obtain rfl := Option.some.inj h
    split
    · exact List.take_prefix _ _
    · exact List.prefix_refl _

def Damage.apply (d : Damage) (t : Table) : Table :=
  t.filterMap fun e => (d.read e.1 e.2).map fun bytes => (e.1, bytes)

/-- One alarm of the phase: how many positions it claims, and what state of the
spill it reads. -/
structure SliceRead where
  size : ℕ
  damage : Damage

/-- `reorder_done`, and the `ordered_rows` table. -/
structure Reorder where
  done : ℕ
  ordered : Table
  deriving DecidableEq

def Reorder.start : Reorder := { done := 0, ordered := [] }

def stepReorder (spill : Table) (order : List ℕ) (cap : ℕ) (s : Reorder) (slice : SliceRead) : Except String Reorder :=
  let table := slice.damage.apply spill
  let stop := min (s.done + slice.size) order.length
  match reorderSlice order (spillIndex table) s.done stop table.readGroup with
  | .error e => .error e
  | .ok rows => .ok { done := stop, ordered := s.ordered.writeGroups s.done (blobGroups rows cap) }

def reorder (spill : Table) (order : List ℕ) (cap : ℕ) (slices : List SliceRead) : Except String Reorder :=
  slices.foldlM (stepReorder spill order cap) Reorder.start

/-! ## The cursor -/

/-- The cursor's variables; `heldFrom` is `none` for the source's `-1`. -/
structure Cursor where
  cursor : ℕ
  held : List Bytes
  heldFrom : Option ℕ

def Cursor.start : Cursor := { cursor := 0, held := [], heldFrom := none }

/-- `heldFrom < 0 || cursor >= heldFrom + held.length`. -/
def Cursor.spent (c : Cursor) : Bool :=
  match c.heldFrom with
  | none => true
  | some base => base + c.held.length ≤ c.cursor

/-- `held[cursor - heldFrom]`, with the cursor moved past it. -/
def Cursor.next (c : Cursor) : Option Bytes × Cursor :=
  (c.held[c.cursor - c.heldFrom.getD 0]?, { c with cursor := c.cursor + 1 })

/-- One call of the handler `orderedRowCursor` returns. -/
def orderedRowCursor (order : List ℕ) (readFrom : ℕ → Option (ℕ × Bytes)) (c : Cursor)
    (index : ℕ) : Except String (Option Bytes × Cursor) :=
  match order[c.cursor]? with
  | none => .ok (none, c)
  | some wrote =>
    if index ≠ wrote then
      let pos := c.cursor
      .error s!"build pulled row {index} at build position {pos}, but the reorder wrote {wrote} there"
    else if c.spent then
      match readFrom c.cursor with
      | none => .ok (none, c)
      | some (base, bytes) =>
        match splitBatch bytes with
        | .error e => .error e
        | .ok held =>
          let c := { c with held, heldFrom := some base }
          -- a group that does not cover the position ends the stream
          if c.cursor < base ∨ base + held.length ≤ c.cursor then .ok (none, c) else .ok c.next
    else .ok c.next

/-- How a run of pulls ended: answered to the last, at a `null`, or with a throw. -/
inductive Ending where
  | answered
  | null
  | threw (message : String)

@[ext] structure Served where
  rows : List Bytes
  ending : Ending

/-- The build's pulls, up to the first that brings no row. -/
def serve (order : List ℕ) (table : Table) : Cursor → List ℕ → Served
  | _, [] => { rows := [], ending := .answered }
  | c, index :: pulls =>
    match orderedRowCursor order table.readFrom c index with
    | .error e => { rows := [], ending := .threw e }
    | .ok (none, _) => { rows := [], ending := .null }
    | .ok (some row, c) =>
      let served := serve order table c pulls
      { served with rows := row :: served.rows }

/-! ## What a blob cut short still shows -/

/-- The rows a blob shows when only its first `k` bytes are there: the rows whose
header is there, the last one perhaps without its whole payload. -/
def shown : List Bytes → ℕ → List Bytes
  | [], _ => []
  | row :: rows, k => if k < 4 then [] else row.take (k - 4) :: shown rows (k - 4 - row.length)

def CutsHeader : List Bytes → ℕ → Prop
  | [], _ => False
  | row :: rows, k => (0 < k ∧ k < 4) ∨ (4 ≤ k ∧ CutsHeader rows (k - 4 - row.length))

/-- The cut leaves a header and not its whole payload. -/
def CutsPayload : List Bytes → ℕ → Prop
  | [], _ => False
  | row :: rows, k =>
    4 ≤ k ∧ (k - 4 < row.length ∨ CutsPayload rows (k - 4 - row.length))

instance CutsHeader.decidable : ∀ rows k, Decidable (CutsHeader rows k)
  | [], _ => .isFalse id
  | _ :: rows, _ =>
    have := CutsHeader.decidable rows
    inferInstanceAs (Decidable (_ ∨ _ ∧ _))

instance CutsPayload.decidable : ∀ rows k, Decidable (CutsPayload rows k)
  | [], _ => .isFalse id
  | _ :: rows, _ =>
    have := CutsPayload.decidable rows
    inferInstanceAs (Decidable (_ ∧ (_ ∨ _)))

/-- Rows a batch can hold: their lengths fit the four-byte prefix. -/
def Fits (rows : List Bytes) : Prop := ∀ row ∈ rows, row.length < 2 ^ 32

attribute [local simp] shown CutsHeader CutsPayload

variable {row : Bytes}

theorem Fits.head {rows : List Bytes} (h : Fits (row :: rows)) : row.length < 2 ^ 32 := h row (by simp)

theorem Fits.tail {rows : List Bytes} (h : Fits (row :: rows)) : Fits rows :=
  fun r hr => h r (by simp [hr])

@[simp] theorem lengthPrefixed_nil : lengthPrefixed [] = [] := rfl

@[simp] theorem lengthPrefixed_cons (row : Bytes) (rows : List Bytes) :
    lengthPrefixed (row :: rows) = Bytes.ofNatLE 4 row.length ++ (row ++ lengthPrefixed rows) := by
  simp [lengthPrefixed]

theorem shown_whole (rows : List Bytes) : shown rows (lengthPrefixed rows).length = rows := by
  induction rows with
  | nil => rfl
  | cons row rows ih =>
    have hk : (lengthPrefixed (row :: rows)).length - 4 - row.length = (lengthPrefixed rows).length := by
      simp only [lengthPrefixed_cons, List.length_append, Bytes.length_ofNatLE]
      omega
    have h4 : ¬(lengthPrefixed (row :: rows)).length < 4 := by simp
    rw [shown, if_neg h4, hk, ih]
    simp

theorem length_shown_le (rows : List Bytes) (k : ℕ) : (shown rows k).length ≤ rows.length := by
  induction rows generalizing k with
  | nil => simp
  | cons row rows ih =>
    rw [shown]
    split
    · simp
    · simpa using ih _

theorem shown_fits {rows : List Bytes} (h : Fits rows) (k : ℕ) : Fits (shown rows k) := by
  induction rows generalizing k with
  | nil => simpa using h
  | cons row rows ih =>
    rw [shown]
    split
    · simp [Fits]
    · intro r hr
      rcases List.mem_cons.mp hr with rfl | hr
      · exact (List.length_take_le' _ _).trans_lt h.head
      · exact ih h.tail _ r hr

theorem shown_prefix_iff (rows : List Bytes) (k : ℕ) : shown rows k <+: rows ↔ ¬CutsPayload rows k := by
  induction rows generalizing k with
  | nil => simp
  | cons row rows ih =>
    by_cases hk : k < 4
    · simp [hk]
    · simp only [shown, hk, if_false, List.cons_prefix_cons, ih, CutsPayload, not_lt.mp hk,
        true_and, not_or, not_lt, List.take_eq_self_iff]

theorem shown_zero (rows : List Bytes) : shown rows 0 = [] := by
  cases rows <;> simp

theorem not_cutsHeader_zero (rows : List Bytes) : ¬CutsHeader rows 0 := by
  cases rows <;> simp

theorem not_cutsHeader_whole (rows : List Bytes) : ¬CutsHeader rows (lengthPrefixed rows).length := by
  induction rows with
  | nil => simp
  | cons row rows ih =>
    have hk : (lengthPrefixed (row :: rows)).length - 4 - row.length = (lengthPrefixed rows).length := by
      simp only [lengthPrefixed_cons, List.length_append, Bytes.length_ofNatLE]
      omega
    have h4 : 4 ≤ (lengthPrefixed (row :: rows)).length := by simp
    rw [CutsHeader, hk]
    rintro (⟨-, h⟩ | ⟨-, h⟩)
    · omega
    · exact ih h

/-! ## Reading a cut blob -/

/-- From `pos` on, `blob` is the first `k` bytes of the rows' batch. -/
def Remains (blob : Bytes) (pos : ℕ) (rows : List Bytes) (k : ℕ) : Prop :=
  blob.drop pos = (lengthPrefixed rows).take k ∧ k ≤ (lengthPrefixed rows).length

variable {blob : Bytes} {pos k : ℕ}

theorem Remains.length {rows : List Bytes}
    (h : Remains blob pos rows k) : blob.length - pos = k := by
  have hlen := congrArg List.length h.1
  simpa [Nat.min_eq_left h.2] using hlen

theorem Remains.atStart {rows : List Bytes} (h : blob <+: lengthPrefixed rows) : Remains blob 0 rows blob.length :=
  ⟨by simpa using List.prefix_iff_eq_take.mp h, h.length_le⟩

variable {blob row : Bytes}

theorem Remains.getUint32 {rows : List Bytes}
    (h : Remains blob pos (row :: rows) k) (hfit : row.length < 2 ^ 32) :
    blob.getUint32 pos = if k < 4 then none else some row.length := by
  have hlen := h.length
  by_cases hk : k < 4
  · rw [if_pos hk, Bytes.getUint32_eq_none]
    omega
  · have hsub : blob.subarray pos (pos + 4) = Bytes.ofNatLE 4 row.length := by
      rw [Bytes.subarray, h.1, Nat.add_sub_cancel_left, List.take_take, Nat.min_eq_left (not_lt.mp hk), lengthPrefixed_cons,
        List.take_append_of_le_length (by simp), List.take_of_length_le (by simp)]
    rw [if_neg hk, Bytes.getUint32, if_pos (by omega), hsub, Bytes.toNatLE_ofNatLE, Nat.mod_eq_of_lt (by simpa using hfit)]

private theorem Remains.drop_header {rows : List Bytes}
    (h : Remains blob pos (row :: rows) k) :
    blob.drop (pos + 4) = (row ++ lengthPrefixed rows).take (k - 4) := by
  rw [← List.drop_drop, h.1, List.drop_take, lengthPrefixed_cons,
    List.drop_append_of_le_length (by simp), List.drop_of_length_le (by simp), List.nil_append]

theorem Remains.payload {rows : List Bytes}
    (h : Remains blob pos (row :: rows) k) :
    blob.subarray (pos + 4) (pos + 4 + row.length) = row.take (k - 4) := by
  rw [Bytes.subarray, h.drop_header, Nat.add_sub_cancel_left, List.take_take, Nat.min_comm, ← List.take_take, List.take_left]

theorem Remains.tail {rows : List Bytes}
    (h : Remains blob pos (row :: rows) k) :
    Remains blob (pos + 4 + row.length) rows (k - 4 - row.length) := by
  refine ⟨?_, ?_⟩
  · rw [← List.drop_drop, h.drop_header, List.drop_take, List.drop_left]
  · have := h.2
    simp only [lengthPrefixed_cons, List.length_append, Bytes.length_ofNatLE] at this
    omega

theorem splitBatchFrom_eq {rows : List Bytes} (hfit : Fits rows)
    (h : Remains blob pos rows k) :
    splitBatchFrom blob pos = if CutsHeader rows k then .error rangeError else .ok (shown rows k) := by
  induction rows generalizing pos k with
  | nil =>
    have hk : k = 0 := by simpa using h.2
    have hlen := h.length
    rw [splitBatchFrom, if_neg (by omega)]
    rfl
  | cons row rows ih =>
    have hlen := h.length
    by_cases hpos : pos < blob.length
    · by_cases hk : k < 4
      · have hcut : CutsHeader (row :: rows) k := .inl ⟨by omega, hk⟩
        simp only [splitBatchFrom, hpos, if_true, h.getUint32 hfit.head, hk, hcut]
      · have hcut : CutsHeader (row :: rows) k ↔ CutsHeader rows (k - 4 - row.length) := by
          simp only [CutsHeader, hk, not_lt.mp hk]
          simp
        rw [splitBatchFrom, if_pos hpos, h.getUint32 hfit.head, if_neg hk]
        simp only [ih hfit.tail h.tail, h.payload, hcut, shown, hk, if_false]
        by_cases hc : CutsHeader rows (k - 4 - row.length) <;> simp [hc]
    · have hk : k = 0 := by omega
      subst hk
      rw [splitBatchFrom, if_neg hpos, if_neg (not_cutsHeader_zero _), shown_zero]

/-- Splitting a blob that lost its end gives the rows it shows, or the throw of a
header read past the end. -/
theorem splitBatch_eq {rows : List Bytes} (hfit : Fits rows)
    (h : blob <+: lengthPrefixed rows) :
    splitBatch blob = if CutsHeader rows blob.length then .error rangeError else .ok (shown rows blob.length) :=
  splitBatchFrom_eq hfit (.atStart h)

theorem splitBatch_lengthPrefixed {rows : List Bytes} (hfit : Fits rows) : splitBatch (lengthPrefixed rows) = .ok rows := by
  rw [splitBatch_eq hfit (List.prefix_refl _), if_neg (not_cutsHeader_whole _), shown_whole]

/-- The index finds row `i` in `bytes`, the blob at `base`. -/
structure SpillIndex.Locates (index : SpillIndex) (i base : ℕ) (bytes row : Bytes) : Prop where
  group : index.groupOf i = some base
  payload : ∃ offset len, index.offsetOf i = some offset ∧ index.lengthOf i = some len ∧
    bytes.subarray offset (offset + len) = row

/-- Two indexes say the same of row `i`. -/
structure SpillIndex.SameAt (index index' : SpillIndex) (i : ℕ) : Prop where
  group : index'.groupOf i = index.groupOf i
  offset : index'.offsetOf i = index.offsetOf i
  length : index'.lengthOf i = index.lengthOf i

variable {i : ℕ}

theorem SpillIndex.SameAt.trans {index₁ index₂ index₃ : SpillIndex}
    (h : index₁.SameAt index₂ i) (h' : index₂.SameAt index₃ i) : index₁.SameAt index₃ i :=
  ⟨h'.group.trans h.group, h'.offset.trans h.offset, h'.length.trans h.length⟩

theorem SpillIndex.sameAt_put {index : SpillIndex} {i j base offset len : ℕ} (h : i ≠ j) :
    index.SameAt (index.put j base offset len) i := by
  constructor <;> simp [SpillIndex.put, h]

theorem SpillIndex.Locates.same {index index' : SpillIndex} {i base : ℕ} {bytes row : Bytes}
    (h : index.Locates i base bytes row) (hsame : index.SameAt index' i) :
    index'.Locates i base bytes row where
  group := hsame.group.trans h.group
  payload := by simpa only [hsame.offset, hsame.length] using h.payload

variable {base : ℕ} {bytes : Bytes}

theorem indexGroup_none {pos n : ℕ} {index : SpillIndex}
    (h : bytes.getUint32 pos = none) : indexGroup base bytes pos n index = index := by
  rw [indexGroup.eq_1, h]

theorem indexGroup_some {pos n len : ℕ} {index : SpillIndex}
    (h : bytes.getUint32 pos = some len) :
    indexGroup base bytes pos n index =
      indexGroup base bytes (pos + 4 + len) (n + 1) (index.put (base + n) base (pos + 4) len) := by
  rw [indexGroup.eq_1, h]

theorem indexGroup_same (base n : ℕ) {rows : List Bytes}
    (index : SpillIndex) (hfit : Fits rows) (h : Remains bytes pos rows k)
    (hi : i < base + n ∨ base + n + (shown rows k).length ≤ i) :
    index.SameAt (indexGroup base bytes pos n index) i := by
  induction rows generalizing pos k n index with
  | nil =>
    have hk : k = 0 := by simpa using h.2
    have hlen := h.length
    have hnone : bytes.getUint32 pos = none := by
      rw [Bytes.getUint32_eq_none]
      omega
    rw [indexGroup_none hnone]
    exact ⟨rfl, rfl, rfl⟩
  | cons row rows ih =>
    by_cases hk : k < 4
    · rw [indexGroup_none (by rw [h.getUint32 hfit.head, if_pos hk])]
      exact ⟨rfl, rfl, rfl⟩
    · simp only [shown, hk, if_false, List.length_cons] at hi
      rw [indexGroup_some (by rw [h.getUint32 hfit.head, if_neg hk])]
      have hne : i ≠ base + n := by omega
      exact .trans (SpillIndex.sameAt_put hne) (ih _ _ hfit.tail h.tail (by omega))

theorem indexGroup_locates (base n : ℕ) {rows : List Bytes}
    (index : SpillIndex) (hfit : Fits rows) (h : Remains bytes pos rows k) {j : ℕ}
    (hrow : (shown rows k)[j]? = some row) :
    (indexGroup base bytes pos n index).Locates (base + n + j) base bytes row := by
  induction rows generalizing pos k n j index with
  | nil => simp at hrow
  | cons first rows ih =>
    by_cases hk : k < 4
    · simp [hk] at hrow
    · rw [indexGroup_some (by rw [h.getUint32 hfit.head, if_neg hk])]
      simp only [shown, hk, if_false] at hrow
      cases j with
      | zero =>
        obtain rfl : first.take (k - 4) = row := by simpa using hrow
        have hsame := indexGroup_same base (n + 1)
          (index.put (base + n) base (pos + 4) first.length) hfit.tail h.tail
          (i := base + n) (.inl (by omega))
        refine .same ⟨?_, pos + 4, first.length, ?_, ?_, h.payload⟩ hsame <;>
          simp [SpillIndex.put]
      | succ j =>
        have hj : base + n + (j + 1) = base + (n + 1) + j := by omega
        rw [hj]
        exact ih _ _ hfit.tail h.tail (by simpa using hrow)

/-! ## What a damaged spill still holds -/

/-- Rows cut into blobs: no blob is empty, and every row fits its prefix. -/
structure Groups where
  groups : List (List Bytes)
  nonempty : ∀ g ∈ groups, g ≠ []
  fits : ∀ g ∈ groups, Fits g

def Groups.rows (s : Groups) : List Bytes := s.groups.flatten

/-- The blobs of `groups`, each under the index of its first row. -/
def stored : ℕ → List (List Bytes) → Table
  | _, [] => []
  | base, group :: groups => (base, lengthPrefixed group) :: stored (base + group.length) groups

def Groups.table (s : Groups) : Table := stored 0 s.groups

def Damage.shows (d : Damage) (base : ℕ) (group : List Bytes) : List Bytes :=
  match d.read base (lengthPrefixed group) with
  | none => []
  | some blob => shown group blob.length

/-- What there is left of row `i`: nothing when its header is lost, else the part
of its payload that is there. -/
def kept (d : Damage) : ℕ → List (List Bytes) → ℕ → Option Bytes
  | _, [], _ => none
  | base, group :: groups, i =>
    if i < base + group.length then (d.shows base group)[i - base]?
    else kept d (base + group.length) groups i

variable {d : Damage}

variable {t : Table}

theorem Damage.apply_cons_none (h : d.read base bytes = none) : d.apply ((base, bytes) :: t) = d.apply t := by
  simp [Damage.apply, h]

theorem Damage.apply_cons_some {bytes blob : Bytes}
    (h : d.read base bytes = some blob) :
    d.apply ((base, bytes) :: t) = (base, blob) :: d.apply t := by
  simp [Damage.apply, h]

variable {group : List Bytes}

theorem Damage.shows_none (h : d.read base (lengthPrefixed group) = none) : d.shows base group = [] := by
  simp [Damage.shows, h]

theorem Damage.shows_some (h : d.read base (lengthPrefixed group) = some blob) :
    d.shows base group = shown group blob.length := by
  simp [Damage.shows, h]

theorem Damage.apply_undamaged (t : Table) : Damage.undamaged.apply t = t := by
  simp [Damage.apply, Damage.undamaged]

variable {groups : List (List Bytes)}

theorem stored_base_le {e : ℕ × Bytes}
    (h : e ∈ d.apply (stored base groups)) : base ≤ e.1 := by
  induction groups generalizing base with
  | nil => simp [stored, Damage.apply] at h
  | cons group groups ih =>
    rw [stored] at h
    cases hread : d.read base (lengthPrefixed group) with
    | none =>
      rw [Damage.apply_cons_none hread] at h
      have := ih h
      omega
    | some blob =>
      rw [Damage.apply_cons_some hread, List.mem_cons] at h
      rcases h with rfl | h
      · exact le_refl _
      · have := ih h
        omega

theorem readGroup_cons_ne {b base : ℕ} (h : base ≠ b) : Table.readGroup ((base, bytes) :: t) b = t.readGroup b := by
  simp [Table.readGroup, h]

/-- Indexing the groups from `base` on touches no row before it. -/
theorem spillIndex_same (hfit : ∀ g ∈ groups, Fits g) (index : SpillIndex) (hi : i < base) :
    index.SameAt ((d.apply (stored base groups)).foldl
      (fun index g => indexGroup g.1 g.2 0 0 index) index) i := by
  induction groups generalizing base index with
  | nil => exact ⟨rfl, rfl, rfl⟩
  | cons group groups ih =>
    have hrest : ∀ g ∈ groups, Fits g := fun g hg => hfit g (by simp [hg])
    rw [stored]
    cases hread : d.read base (lengthPrefixed group) with
    | none =>
      rw [Damage.apply_cons_none hread]
      exact ih hrest index (by omega)
    | some blob =>
      rw [Damage.apply_cons_some hread, List.foldl_cons]
      have hremains := Remains.atStart (d.short _ _ _ hread)
      have hgroup := indexGroup_same base 0 index (hfit group (by simp))
        hremains (i := i) (.inl (by omega))
      exact hgroup.trans (ih hrest _ (by omega))

/-- Indexing the groups from `base` on locates the rows there is something left
of, in blobs the table can be asked for, and no others. -/
theorem spillIndex_kept (hne : ∀ g ∈ groups, g ≠ []) (hfit : ∀ g ∈ groups, Fits g) (index : SpillIndex)
    (hi : base ≤ i) :
    let table := d.apply (stored base groups)
    let index' := table.foldl (fun index g => indexGroup g.1 g.2 0 0 index) index
    match kept d base groups i with
    | none => index.SameAt index' i
    | some row => ∃ b bytes, base ≤ b ∧ table.readGroup b = some bytes ∧
        index'.Locates i b bytes row := by
  induction groups generalizing base index with
  | nil => exact ⟨rfl, rfl, rfl⟩
  | cons group groups ih =>
    have hrest : ∀ g ∈ groups, Fits g := fun g hg => hfit g (by simp [hg])
    have hgroup : Fits group := hfit group (by simp)
    have hlen : 0 < group.length := List.length_pos_of_ne_nil (hne group (by simp))
    have ih := fun index (hi : base + group.length ≤ i) =>
      ih (fun g hg => hne g (by simp [hg])) hrest index hi
    have hsame := fun index (hi : i < base + group.length) =>
      spillIndex_same (d := d) hrest index hi
    simp only [stored, kept]
    by_cases hhere : i < base + group.length
    · rw [if_pos hhere]
      cases hread : d.read base (lengthPrefixed group) with
      | none =>
        simp only [Damage.apply_cons_none hread, Damage.shows_none hread, List.getElem?_nil]
        exact hsame index hhere
      | some blob =>
        have hremains := Remains.atStart (d.short _ _ _ hread)
        simp only [Damage.apply_cons_some hread, Damage.shows_some hread, List.foldl_cons]
        cases hrow : (shown group blob.length)[i - base]? with
        | none =>
          have hout := List.getElem?_eq_none_iff.mp hrow
          exact (indexGroup_same base 0 index hgroup hremains (.inr (by omega))).trans
            (hsame _ hhere)
        | some row =>
          have hloc := indexGroup_locates base 0 index hgroup hremains hrow
          have hidx : base + 0 + (i - base) = i := by omega
          rw [hidx] at hloc
          exact ⟨base, blob, le_refl _, by simp [Table.readGroup], hloc.same (hsame _ hhere)⟩
    · rw [if_neg hhere]
      cases hread : d.read base (lengthPrefixed group) with
      | none =>
        simp only [Damage.apply_cons_none hread]
        have hih := ih index (by omega)
        revert hih
        cases kept d (base + group.length) groups i with
        | none => exact id
        | some row =>
          rintro ⟨b, bytes, hb, hget, hloc⟩
          exact ⟨b, bytes, by omega, hget, hloc⟩
      | some blob =>
        have hremains := Remains.atStart (d.short _ _ _ hread)
        have hstep := indexGroup_same base 0 index hgroup hremains (i := i)
          (.inr (by have := length_shown_le group blob.length; omega))
        simp only [Damage.apply_cons_some hread, List.foldl_cons]
        have hih := ih (indexGroup base blob 0 0 index) (by omega)
        revert hih
        cases kept d (base + group.length) groups i with
        | none => exact hstep.trans
        | some row =>
          rintro ⟨b, bytes, hb, hget, hloc⟩
          exact ⟨b, bytes, by omega, by rwa [readGroup_cons_ne (by omega)], hloc⟩

/-! ## What one slice writes -/

/-- Reading by `index` and `readGroup` finds what is left of each row. -/
def Finds (index : SpillIndex) (readGroup : ℕ → Option Bytes) (left : ℕ → Option Bytes) : Prop :=
  ∀ i, match left i with
  | none => index.groupOf i = none
  | some row => ∃ b bytes, readGroup b = some bytes ∧ index.Locates i b bytes row

theorem spillIndex_finds (s : Groups) (d : Damage) :
    Finds (spillIndex (d.apply s.table)) (d.apply s.table).readGroup (kept d 0 s.groups) := by
  intro i
  have h := spillIndex_kept (d := d) s.nonempty s.fits SpillIndex.empty (Nat.zero_le i)
  dsimp only at h
  revert h
  cases kept d 0 s.groups i with
  | none => exact fun h => h.group
  | some row =>
    rintro ⟨b, bytes, -, hget, hloc⟩
    exact ⟨b, bytes, hget, hloc⟩

section Slice

variable {order : List ℕ} {index : SpillIndex} {readGroup : ℕ → Option Bytes}

def groupAt (order : List ℕ) (index : SpillIndex) (p : ℕ) : Option ℕ :=
  order[p]?.bind index.groupOf

/-- Position `p` reads `row`, out of a blob that is there. -/
def ReadsAt (order : List ℕ) (index : SpillIndex) (readGroup : ℕ → Option Bytes) (p : ℕ)
    (row : Bytes) : Prop :=
  ∃ i b bytes, order[p]? = some i ∧ readGroup b = some bytes ∧ index.Locates i b bytes row

theorem Finds.readsAt {left : ℕ → Option Bytes} (h : Finds index readGroup left) {p : ℕ}
    (hp : order[p]?.bind left = some row) : ReadsAt order index readGroup p row := by
  obtain ⟨i, hi, hrow⟩ := Option.bind_eq_some_iff.mp hp
  have hfind := h i
  rw [hrow] at hfind
  obtain ⟨b, bytes, hget, hloc⟩ := hfind
  exact ⟨i, b, bytes, hi, hget, hloc⟩

theorem Finds.groupAt_none {left : ℕ → Option Bytes} (h : Finds index readGroup left) {p : ℕ}
    (hp : order[p]?.bind left = none) : groupAt order index p = none := by
  cases hi : order[p]? with
  | none => simp [groupAt, hi]
  | some i =>
    have hfind := h i
    rw [hi, Option.bind_some] at hp
    rw [hp] at hfind
    simpa [groupAt, hi] using hfind

theorem wantGroup_eq (wanted : JsSet ℕ) (p : ℕ) :
    (groupAt order index p = none → ∃ e, wantGroup order index wanted p = .error e) ∧
      ∀ base, groupAt order index p = some base → wantGroup order index wanted p = .ok (wanted.add base) := by
  unfold wantGroup groupAt
  cases order[p]? with
  | none => simp
  | some i => cases h : index.groupOf i <;> simp [h]

theorem get_takeRows {positions : List ℕ} {rowAt : ℕ → Bytes}
    (hreads : ∀ p ∈ positions, ReadsAt order index readGroup p (rowAt p))
    (hget : readGroup base = some bytes) (rows : JsMap ℕ Bytes) (q : ℕ) :
    (positions.foldl (takeRow order index base bytes) rows).get q =
      if q ∈ positions ∧ groupAt order index q = some base then some (rowAt q)
      else rows.get q := by
  induction positions generalizing rows with
  | nil => simp
  | cons p positions ih =>
    rw [List.foldl_cons, ih fun p hp => hreads p (by simp [hp])]
    obtain ⟨i, b, blob, hi, hblob, hgroup, offset, len, hoff, hlen, hrow⟩ := hreads p (by simp)
    by_cases hb : b = base
    · subst hb
      obtain rfl := Option.some.inj (hget.symm.trans hblob)
      have hset : takeRow order index b bytes rows p = rows.set p (rowAt p) := by
        simp [takeRow, hi, hgroup, hoff, hlen, hrow]
      rw [hset, JsMap.get_set]
      by_cases hq : q = p
      · subst hq
        simp [groupAt, hi, hgroup]
      · simp [hq, Ne.symm hq]
    · have hskip : takeRow order index base bytes rows p = rows := by
        simp [takeRow, hi, hgroup, hb]
      rw [hskip]
      by_cases hq : q = p
      · subst hq
        simp [groupAt, hi, hgroup, hb]
      · simp [hq]

theorem get_takeGroups (bases : List ℕ) {positions : List ℕ} {rowAt : ℕ → Bytes}
    (hreads : ∀ p ∈ positions, ReadsAt order index readGroup p (rowAt p))
    (hbases : ∀ b ∈ bases, ∃ bytes, readGroup b = some bytes) (rows : JsMap ℕ Bytes) :
    ∃ rows', bases.foldlM (takeGroup order index positions readGroup) rows = .ok rows' ∧ ∀ q, rows'.get q =
        if q ∈ positions ∧ ∃ b ∈ bases, groupAt order index q = some b then some (rowAt q)
        else rows.get q := by
  induction bases generalizing rows with
  | nil => exact ⟨rows, rfl, by simp⟩
  | cons base bases ih =>
    obtain ⟨bytes, hget⟩ := hbases base (by simp)
    have hstep : takeGroup order index positions readGroup rows base =
        .ok (positions.foldl (takeRow order index base bytes) rows) := by
      simp [takeGroup, hget]
    obtain ⟨rows', hrun, hrows⟩ := ih (fun b hb => hbases b (by simp [hb]))
      (positions.foldl (takeRow order index base bytes) rows)
    refine ⟨rows', ?_, fun q => ?_⟩
    · rw [List.foldlM_cons, hstep]
      exact hrun
    · rw [hrows, get_takeRows hreads hget]
      by_cases hq : q ∈ positions <;> by_cases hb : groupAt order index q = some base <;>
        simp [hq, hb]

theorem reorderSlice_ok {start stop : ℕ} {rowAt : ℕ → Bytes}
    (hreads : ∀ p ∈ List.range' start (stop - start), ReadsAt order index readGroup p (rowAt p)) :
    reorderSlice order index start stop readGroup = .ok ((List.range' start (stop - start)).map rowAt) := by
  let positions := List.range' start (stop - start)
  let group : ℕ → ℕ := fun p => (groupAt order index p).getD 0
  let wanted := positions.foldl (fun wanted p => JsSet.add wanted (group p)) []
  have hgroup : ∀ p ∈ positions, groupAt order index p = some (group p) ∧ ∃ bytes, readGroup (group p) = some bytes := by
    intro p hp
    obtain ⟨i, b, bytes, hi, hget, hloc⟩ := hreads p hp
    have hat : groupAt order index p = some b := by simp [groupAt, hi, hloc.group]
    exact ⟨by simp [group, hat], bytes, by simpa [group, hat] using hget⟩
  have hmem : ∀ b, b ∈ wanted.insertionSort (· ≤ ·) ↔ ∃ p ∈ positions, group p = b := by
    intro b
    have hfold : wanted = (positions.map group).foldl JsSet.add [] :=
      List.foldl_map.symm
    rw [List.mem_insertionSort, hfold, JsSet.mem_foldl_add]
    simp
  have hwanted : positions.foldlM (wantGroup order index) [] = .ok wanted := by
    refine foldlM_ok (fun wanted p hp => ?_) []
    exact (wantGroup_eq wanted p).2 _ (hgroup p hp).1
  obtain ⟨rows, hrun, hrows⟩ := get_takeGroups (wanted.insertionSort (· ≤ ·)) hreads
    (fun b hb => by
      obtain ⟨p, hp, rfl⟩ := (hmem b).mp hb
      exact (hgroup p hp).2) JsMap.empty
  have hordered : positions.mapM (orderedRow rows) = .ok (positions.map rowAt) := by
    refine mapM_ok fun p hp => ?_
    have hin : ∃ b ∈ wanted.insertionSort (· ≤ ·), groupAt order index p = some b :=
      ⟨group p, (hmem _).mpr ⟨p, hp, rfl⟩, (hgroup p hp).1⟩
    rw [orderedRow, hrows p, if_pos ⟨hp, hin⟩]
  exact (bind_ok hwanted).trans ((bind_ok hrun).trans hordered)

theorem reorderSlice_error {start stop p : ℕ} (hp : p ∈ List.range' start (stop - start))
    (hlost : groupAt order index p = none) :
    ∃ e, reorderSlice order index start stop readGroup = .error e := by
  obtain ⟨e, he⟩ := foldlM_error hp (fun wanted => (wantGroup_eq wanted p).1 hlost) []
  exact ⟨e, by simp [reorderSlice, he, bind, Except.bind]⟩

end Slice

/-! ## The phase -/

/-- What the groups cut so far hold together. -/
structure Grouping.Holds (g : Grouping) (blobs : List Bytes) : Prop where
  all : g.groups.flatten ++ g.group = blobs
  nonempty : ∀ group ∈ g.groups, group ≠ []

theorem Grouping.Holds.push {g : Grouping} {blobs : List Bytes} (h : g.Holds blobs) (cap : ℕ)
    (b : Bytes) : (g.push cap b).Holds (blobs ++ [b]) := by
  unfold Grouping.push
  split
  · rename_i hfull
    refine ⟨by simp [← h.all], fun group hgroup => ?_⟩
    rcases List.mem_append.mp hgroup with hgroup | hgroup
    · exact h.nonempty group hgroup
    · rw [List.mem_singleton.mp hgroup]
      exact List.ne_nil_of_length_pos hfull.1
  · exact ⟨by simp [← h.all], h.nonempty⟩

theorem blobGroups_spec (blobs : List Bytes) (cap : ℕ) :
    (blobGroups blobs cap).flatten = blobs ∧ ∀ group ∈ blobGroups blobs cap, group ≠ [] := by
  have hfold : ∀ (l done : List Bytes) (g : Grouping), g.Holds done → (l.foldl (Grouping.push cap) g).Holds (done ++ l) := by
    intro l
    induction l with
    | nil => simp
    | cons b l ih =>
      intro done g hg
      simpa using ih (done ++ [b]) _ (hg.push cap b)
  have h := hfold blobs [] Grouping.start ⟨rfl, by simp [Grouping.start]⟩
  rw [List.nil_append] at h
  unfold blobGroups
  dsimp only
  split
  · rename_i hlast
    refine ⟨by simpa using h.all, fun group hgroup => ?_⟩
    rcases List.mem_append.mp hgroup with hgroup | hgroup
    · exact h.nonempty group hgroup
    · rw [List.mem_singleton.mp hgroup]
      exact List.ne_nil_of_length_pos hlast
  · rename_i hlast
    have hnil := List.eq_nil_of_length_eq_zero (Nat.eq_zero_of_not_pos hlast)
    refine ⟨?_, h.nonempty⟩
    have hall := h.all
    rwa [hnil, List.append_nil] at hall

theorem insertOrReplace_append
    (h : ∀ e ∈ t, e.1 < base) : t.insertOrReplace base bytes = t ++ [(base, bytes)] := by
  induction t with
  | nil => rfl
  | cons e t ih =>
    rw [Table.insertOrReplace, if_pos (h e (by simp)), ih fun e he => h e (by simp [he])]
    rfl

theorem writeGroups_append (hne : ∀ g ∈ groups, g ≠ []) (h : ∀ e ∈ t, e.1 < base) :
    t.writeGroups base groups = t ++ stored base groups := by
  induction groups generalizing t base with
  | nil => simp [Table.writeGroups, stored]
  | cons group groups ih =>
    have hlen : 0 < group.length := List.length_pos_of_ne_nil (hne group (by simp))
    rw [Table.writeGroups, insertOrReplace_append h, ih (fun g hg => hne g (by simp [hg])),
      stored, List.append_assoc, List.singleton_append]
    intro e he
    rcases List.mem_append.mp he with he | he
    · have := h e he
      omega
    · rw [List.mem_singleton.mp he]
      omega

theorem stored_append (base : ℕ) (groups more : List (List Bytes)) : stored base (groups ++ more) =
      stored base groups ++ stored (base + groups.flatten.length) more := by
  induction groups generalizing base with
  | nil => simp [stored]
  | cons group groups ih => simp [stored, ih, Nat.add_assoc]

theorem stored_base_lt (hne : ∀ g ∈ groups, g ≠ [])
    {e : ℕ × Bytes} (he : e ∈ stored base groups) : e.1 < base + groups.flatten.length := by
  induction groups generalizing base with
  | nil => simp [stored] at he
  | cons group groups ih =>
    have hlen : 0 < group.length := List.length_pos_of_ne_nil (hne group (by simp))
    rw [List.flatten_cons, List.length_append]
    rcases List.mem_cons.mp he with rfl | he
    · simp only
      omega
    · have := ih (fun g hg => hne g (by simp [hg])) he
      omega

/-- The phase has written `rows`, in some grouping. -/
structure Reorder.Holds (s : Reorder) (rows : List Bytes) : Prop where
  table : ∃ g : Groups, s.ordered = g.table ∧ g.rows = rows
  done : s.done = rows.length

theorem Reorder.holds_start : Reorder.start.Holds [] :=
  ⟨⟨⟨[], by simp, by simp⟩, rfl, rfl⟩, rfl⟩

variable {s : Reorder}

theorem Reorder.Holds.write {rows more : List Bytes} (h : s.Holds rows)
    (hfit : Fits more) (cap : ℕ) {stop : ℕ} (hstop : stop = (rows ++ more).length) :
    Reorder.Holds { done := stop, ordered := s.ordered.writeGroups s.done (blobGroups more cap) }
      (rows ++ more) := by
  obtain ⟨g, htable, hrows⟩ := h.table
  obtain ⟨hall, hne⟩ := blobGroups_spec more cap
  have hsub : ∀ group ∈ blobGroups more cap, Fits group := by
    intro group hgroup row hrow
    exact hfit row (hall ▸ List.mem_flatten_of_mem hgroup hrow)
  refine ⟨⟨{ groups := g.groups ++ blobGroups more cap
             nonempty := fun group hgroup => (List.mem_append.mp hgroup).elim
               (g.nonempty group) (hne group)
             fits := fun group hgroup => (List.mem_append.mp hgroup).elim
               (g.fits group) (hsub group) }, ?_, ?_⟩, hstop⟩
  · rw [h.done, htable, writeGroups_append hne, Groups.table, Groups.table, stored_append,
      ← hrows, Groups.rows, Nat.zero_add]
    intro e he
    have := stored_base_lt g.nonempty he
    rwa [Nat.zero_add, ← Groups.rows, hrows] at this
  · simp [Groups.rows, hall, ← hrows]

theorem kept_fits (hfit : ∀ g ∈ groups, Fits g) (h : kept d base groups i = some row) : row.length < 2 ^ 32 := by
  induction groups generalizing base with
  | nil => simp [kept] at h
  | cons group groups ih =>
    rw [kept] at h
    split at h
    · have hmem := List.mem_of_getElem? h
      unfold Damage.shows at hmem
      split at hmem
      · cases hmem
      · exact shown_fits (hfit group (by simp)) _ row hmem
    · exact ih (fun g hg => hfit g (by simp [hg])) h

section Phase

variable {spill : Groups} {order : List ℕ} {cap : ℕ}

/-- The state of the spill that the slice covering position `p` reads, counted
from the first of `slices`. -/
def damageAt : List SliceRead → ℕ → Damage
  | [], _ => Damage.undamaged
  | slice :: slices, p =>
    if p < slice.size then slice.damage else damageAt slices (p - slice.size)

/-- What is left, when position `p` is written, of the row it names. -/
def leftAt (spill : Groups) (order : List ℕ) (d : Damage) (p : ℕ) : Option Bytes :=
  order[p]?.bind (kept d 0 spill.groups)

theorem stepReorder_ok (cap : ℕ) (slice : SliceRead) {rows : List Bytes} {rowAt : ℕ → Bytes}
    (h : s.Holds rows) (hbound : s.done ≤ order.length)
    (hleft : ∀ p, s.done ≤ p → p < min (s.done + slice.size) order.length →
      leftAt spill order slice.damage p = some (rowAt p)) :
    ∃ s', stepReorder spill.table order cap s slice = .ok s' ∧ s'.Holds (rows ++ (List.range' s.done
        (min (s.done + slice.size) order.length - s.done)).map rowAt) := by
  set stop := min (s.done + slice.size) order.length with hstop
  have hfinds := spillIndex_finds spill slice.damage
  have hposition : ∀ p ∈ List.range' s.done (stop - s.done), leftAt spill order slice.damage p = some (rowAt p) := by
    intro p hp
    have hp := List.mem_range'_1.mp hp
    exact hleft p hp.1 (by omega)
  have hslice := reorderSlice_ok fun p hp => hfinds.readsAt (hposition p hp)
  have hstep : stepReorder spill.table order cap s slice = .ok
      { done := stop
        ordered := s.ordered.writeGroups s.done
          (blobGroups ((List.range' s.done (stop - s.done)).map rowAt) cap) } := by
    simp only [stepReorder, ← hstop, hslice]
  refine ⟨_, hstep, h.write ?_ cap ?_⟩
  · intro row hrow
    obtain ⟨p, hp, rfl⟩ := List.mem_map.mp hrow
    obtain ⟨i, -, hi⟩ := Option.bind_eq_some_iff.mp (hposition p hp)
    exact kept_fits spill.fits hi
  · simp only [List.length_append, List.length_map, List.length_range', ← h.done]
    omega

theorem stepReorder_error (cap : ℕ) {slice : SliceRead} {p : ℕ} (hp : s.done ≤ p)
    (hstop : p < min (s.done + slice.size) order.length)
    (hlost : leftAt spill order slice.damage p = none) :
    ∃ e, stepReorder spill.table order cap s slice = .error e := by
  have hgroup := (spillIndex_finds spill slice.damage).groupAt_none hlost
  have herror : ∃ e, reorderSlice order (spillIndex (slice.damage.apply spill.table)) s.done
      (min (s.done + slice.size) order.length) (slice.damage.apply spill.table).readGroup =
      .error e :=
    reorderSlice_error (List.mem_range'_1.mpr ⟨hp, by omega⟩) hgroup
  obtain ⟨e, he⟩ := herror
  exact ⟨e, by simp only [stepReorder, he]⟩

theorem done_stepReorder {s s' : Reorder} {slice : SliceRead} {table : Table}
    (h : stepReorder table order cap s slice = .ok s') :
    s'.done = min (s.done + slice.size) order.length := by
  unfold stepReorder at h
  dsimp only at h
  split at h
  · cases h
  · obtain rfl := Except.ok.inj h
    rfl

theorem reorder_ok (cap : ℕ) (slices : List SliceRead) {rows : List Bytes}
    {rowAt : ℕ → Bytes} (h : s.Holds rows) (hbound : s.done ≤ order.length)
    (hcover : order.length ≤ s.done + (slices.map SliceRead.size).sum)
    (hleft : ∀ p, s.done ≤ p → p < order.length → leftAt spill order (damageAt slices (p - s.done)) p = some (rowAt p)) :
    ∃ s', slices.foldlM (stepReorder spill.table order cap) s = .ok s' ∧
      s'.Holds (rows ++ (List.range' s.done (order.length - s.done)).map rowAt) := by
  induction slices generalizing s rows with
  | nil =>
    have hdone : order.length - s.done = 0 := Nat.sub_eq_zero_of_le (by simpa using hcover)
    exact ⟨s, rfl, by simpa [hdone] using h⟩
  | cons slice slices ih =>
    rw [List.map_cons, List.sum_cons] at hcover
    obtain ⟨s₁, hstep, hs₁⟩ := stepReorder_ok cap slice h hbound (by
      intro p hp hstop
      have hhere := hleft p hp (by omega)
      rwa [damageAt, if_pos (by omega)] at hhere)
    have hdone := done_stepReorder hstep
    obtain ⟨s₂, hrun, hs₂⟩ := ih hs₁ (by omega) (by omega) (by
      intro p hp hlt
      have hthere := hleft p (by omega) hlt
      have hpast : ¬p - s.done < slice.size := by omega
      rw [damageAt, if_neg hpast] at hthere
      rwa [show p - s₁.done = p - s.done - slice.size by omega])
    refine ⟨s₂, ?_, ?_⟩
    · rw [List.foldlM_cons]
      exact (bind_ok hstep).trans hrun
    · rw [List.append_assoc, ← List.map_append, hdone] at hs₂
      have hsplit := List.range'_append_1 (s := s.done)
        (m := min (s.done + slice.size) order.length - s.done)
        (n := order.length - min (s.done + slice.size) order.length)
      rw [show s.done + (min (s.done + slice.size) order.length - s.done) =
        min (s.done + slice.size) order.length by omega] at hsplit
      rw [hsplit, show min (s.done + slice.size) order.length - s.done +
        (order.length - min (s.done + slice.size) order.length) =
        order.length - s.done by omega] at hs₂
      exact hs₂

theorem reorder_error (cap : ℕ) (slices : List SliceRead) {p : ℕ} (hp : s.done ≤ p)
    (hlt : p < order.length) (hcover : p < s.done + (slices.map SliceRead.size).sum)
    (hlost : leftAt spill order (damageAt slices (p - s.done)) p = none) :
    ∃ e, slices.foldlM (stepReorder spill.table order cap) s = .error e := by
  induction slices generalizing s with
  | nil =>
    simp only [List.map_nil, List.sum_nil] at hcover
    omega
  | cons slice slices ih =>
    rw [List.map_cons, List.sum_cons] at hcover
    rw [List.foldlM_cons]
    by_cases hhere : p < s.done + slice.size
    · rw [damageAt, if_pos (by omega)] at hlost
      obtain ⟨e, he⟩ := stepReorder_error cap hp (by omega) hlost
      exact ⟨e, by rw [he]; rfl⟩
    · rw [damageAt, if_neg (by omega)] at hlost
      cases hstep : stepReorder spill.table order cap s slice with
      | error e => exact ⟨e, rfl⟩
      | ok s₁ =>
        have hdone := done_stepReorder hstep
        refine ih (s := s₁) (by omega) (by omega) ?_
        rwa [show p - s₁.done = p - s.done - slice.size by omega]

end Phase

/-! ## What the cursor serves -/

/-- The rows a cursor brings from `base` on: it stops in the first group that is
missing, cannot be split, or does not show every row. -/
def servedRows (d : Damage) : ℕ → List (List Bytes) → List Bytes
  | _, [] => []
  | base, group :: groups =>
    match d.read base (lengthPrefixed group) with
    | none => []
    | some blob =>
      if CutsHeader group blob.length then []
      else if (shown group blob.length).length < group.length then shown group blob.length
      else shown group blob.length ++ servedRows d (base + group.length) groups

/-- The first blob from `base` on that is not whole is missing, or is cut inside
no payload. -/
def FirstCutClean (d : Damage) : ℕ → List (List Bytes) → Prop
  | _, [] => True
  | base, group :: groups =>
    match d.read base (lengthPrefixed group) with
    | none => True
    | some blob =>
      if blob.length = (lengthPrefixed group).length then
        FirstCutClean d (base + group.length) groups
      else ¬CutsPayload group blob.length

theorem CutsHeader.not_cutsPayload {rows : List Bytes} {k : ℕ} (h : CutsHeader rows k) : ¬CutsPayload rows k := by
  induction rows generalizing k with
  | nil => exact id
  | cons row rows ih =>
    rintro ⟨h4, hcut⟩
    rcases h with ⟨-, hlt⟩ | ⟨-, hrest⟩
    · omega
    · rcases hcut with hpay | hpay
      · have hzero : k - 4 - row.length = 0 := by omega
        rw [hzero] at hrest
        exact not_cutsHeader_zero _ hrest
      · exact ih hrest hpay

theorem cutsPayload_of_shown {rows : List Bytes} {k : ℕ} (h : (shown rows k).length = rows.length)
    (hk : k < (lengthPrefixed rows).length) : CutsPayload rows k := by
  induction rows generalizing k with
  | nil => simp at hk
  | cons row rows ih =>
    by_cases h4 : k < 4
    · simp [h4] at h
    · simp only [shown, h4, if_false, List.length_cons, Nat.add_right_cancel_iff] at h
      simp only [lengthPrefixed_cons, List.length_append, Bytes.length_ofNatLE] at hk
      refine ⟨not_lt.mp h4, ?_⟩
      by_cases hrow : k - 4 < row.length
      · exact .inl hrow
      · exact .inr (ih h (by omega))

theorem length_servedRows_le (d : Damage) (base : ℕ) (groups : List (List Bytes)) :
    (servedRows d base groups).length ≤ groups.flatten.length := by
  induction groups generalizing base with
  | nil => simp [servedRows]
  | cons group groups ih =>
    rw [servedRows, List.flatten_cons, List.length_append]
    split
    · simp
    · rename_i blob _
      have hshown := length_shown_le group blob.length
      have := ih (base + group.length)
      split
      · simp
      · split
        · omega
        · rw [List.length_append]
          omega

theorem servedRows_undamaged (base : ℕ) (groups : List (List Bytes)) :
    servedRows Damage.undamaged base groups = groups.flatten := by
  induction groups generalizing base with
  | nil => rfl
  | cons group groups ih =>
    have hread : Damage.undamaged.read base (lengthPrefixed group) = some (lengthPrefixed group) := rfl
    simp [servedRows, hread, not_cutsHeader_whole, shown_whole, ih]

/-- The rows served are the first rows of the table exactly when no payload is
cut in the first damaged blob. -/
theorem servedRows_prefix_iff (d : Damage) (base : ℕ) (groups : List (List Bytes)) :
    servedRows d base groups <+: groups.flatten ↔ FirstCutClean d base groups := by
  induction groups generalizing base with
  | nil => simp [servedRows, FirstCutClean]
  | cons group groups ih =>
    rw [servedRows, FirstCutClean, List.flatten_cons]
    cases hread : d.read base (lengthPrefixed group) with
    | none => simp
    | some blob =>
      have hle := (d.short _ _ _ hread).length_le
      have hshown := length_shown_le group blob.length
      by_cases hwhole : blob.length = (lengthPrefixed group).length
      · simp [hwhole, not_cutsHeader_whole, shown_whole, List.prefix_append_right_inj, ih]
      · simp only [hwhole, if_false]
        by_cases hheader : CutsHeader group blob.length
        · simp [hheader, hheader.not_cutsPayload]
        · rw [if_neg hheader, ← shown_prefix_iff]
          have hfirst : ∀ rest, shown group blob.length ++ rest <+: group ++ groups.flatten →
              shown group blob.length <+: group := fun rest hpre =>
            List.prefix_of_prefix_length_le ((List.prefix_append _ _).trans hpre)
              (List.prefix_append _ _) hshown
          split
          · exact ⟨fun hpre => hfirst [] (by simpa using hpre), fun hpre => hpre.trans (List.prefix_append _ _)⟩
          · rename_i hall
            have hcut : CutsPayload group blob.length :=
              cutsPayload_of_shown (by omega) (by omega)
            have hnot : ¬shown group blob.length <+: group := by
              rw [shown_prefix_iff]
              exact not_not.mpr hcut
            exact ⟨fun hpre => (hnot (hfirst _ hpre)).elim, fun hpre => (hnot hpre).elim⟩

/-! ## The cursor's run -/

theorem readFrom_last {before after : Table} {base position : ℕ}
    (hbase : base ≤ position) (hafter : ∀ e ∈ after, position < e.1) :
    Table.readFrom (before ++ (base, bytes) :: after) position = some (base, bytes) := by
  have hnil : (after.filter fun e => decide (e.1 ≤ position)) = [] := by
    rw [List.filter_eq_nil_iff]
    intro e he
    simpa using hafter e he
  rw [Table.readFrom, List.filter_append, List.filter_cons_of_pos (by simpa using hbase), hnil,
    List.getLast?_append_cons, List.getLast?_singleton]

section Run

variable {d : Damage} {g : Groups} {order : List ℕ}

/-- The cursor stands before the rows `ahead`: at the start, or in a group that
was split and shows the rows from the cursor on. -/
inductive Ahead (d : Damage) (g : Groups) : Cursor → List Bytes → Prop
  | start : Ahead d g Cursor.start (servedRows d 0 g.groups)
  | within {before after : List (List Bytes)} {group : List Bytes} {blob : Bytes} (j : ℕ)
      (hgroups : g.groups = before ++ group :: after)
      (hread : d.read before.flatten.length (lengthPrefixed group) = some blob)
      (hsplit : ¬CutsHeader group blob.length) (hj : j ≤ (shown group blob.length).length) :
      Ahead d g
        { cursor := before.flatten.length + j
          held := shown group blob.length
          heldFrom := some before.flatten.length }
        ((shown group blob.length).drop j ++ if (shown group blob.length).length < group.length then []
          else servedRows d (before.flatten.length + group.length) after)

/-- A pull of the right row brings the next row ahead, or none when none is. -/
def Answers (d : Damage) (g : Groups) (c : Cursor) (ahead : List Bytes)
    (r : Except String (Option Bytes × Cursor)) : Prop :=
  match ahead with
  | [] => (∃ e, r = .error e) ∨ ∃ c', r = .ok (none, c')
  | row :: ahead => ∃ c', r = .ok (some row, c') ∧ c'.cursor = c.cursor + 1 ∧ Ahead d g c' ahead

theorem apply_table_eq {before after : List (List Bytes)}
    (hgroups : g.groups = before ++ group :: after)
    (hread : d.read before.flatten.length (lengthPrefixed group) = some blob) :
    d.apply g.table = d.apply (stored 0 before) ++ (before.flatten.length, blob) ::
      d.apply (stored (before.flatten.length + group.length) after) := by
  rw [Groups.table, hgroups, stored_append, stored, Nat.zero_add]
  simp only [Damage.apply, List.filterMap_append, List.filterMap_cons, hread, Option.map_some]

/-- Within the group at hand, and past it while the next blob is missing, reading
by position gives that group's blob. -/
theorem readFrom_group {before after : List (List Bytes)}
    (hgroups : g.groups = before ++ group :: after)
    (hread : d.read before.flatten.length (lengthPrefixed group) = some blob) {position : ℕ}
    (hbase : before.flatten.length ≤ position)
    (hlast : ∀ e ∈ d.apply (stored (before.flatten.length + group.length) after), position < e.1) :
    (d.apply g.table).readFrom position = some (before.flatten.length, blob) := by
  rw [apply_table_eq hgroups hread]
  exact readFrom_last hbase hlast

theorem Groups.fits_of_mem (before : List (List Bytes)) {after : List (List Bytes)}
    (hgroups : g.groups = before ++ group :: after) : Fits group ∧ 0 < group.length := by
  have hmem : group ∈ g.groups := by simp [hgroups]
  exact ⟨g.fits group hmem, List.length_pos_of_ne_nil (g.nonempty group hmem)⟩

theorem split_stored {before after : List (List Bytes)}
    (hgroups : g.groups = before ++ group :: after)
    (hread : d.read before.flatten.length (lengthPrefixed group) = some blob) :
    splitBatch blob = if CutsHeader group blob.length then .error rangeError
      else .ok (shown group blob.length) :=
  splitBatch_eq (Groups.fits_of_mem _ hgroups).1 (d.short _ _ _ hread)

variable {c : Cursor}

theorem answers_enter (before : List (List Bytes)) {after : List (List Bytes)}
    {index : ℕ} (hgroups : g.groups = before ++ group :: after)
    (hcursor : c.cursor = before.flatten.length) (hspent : c.spent = true)
    (hindex : order[c.cursor]? = some index)
    (hmissing : d.read before.flatten.length (lengthPrefixed group) = none →
      (d.apply g.table).readFrom c.cursor = none ∨ ∃ b blob held, (d.apply g.table).readFrom c.cursor = some (b, blob) ∧
          splitBatch blob = .ok held ∧ b + held.length ≤ c.cursor) :
    Answers d g c (servedRows d before.flatten.length (group :: after))
      (orderedRowCursor order (d.apply g.table).readFrom c index) := by
  obtain ⟨-, hlen⟩ := Groups.fits_of_mem _ hgroups
  rw [servedRows, orderedRowCursor]
  simp only [hindex, ne_eq, not_true_eq_false, if_false, hspent, if_true]
  cases hread : d.read before.flatten.length (lengthPrefixed group) with
  | none =>
    rcases hmissing hread with hnone | ⟨b, blob, held, hsome, hsplit, hpast⟩
    · exact .inr ⟨c, by simp [hnone]⟩
    · simp only [hsome, hsplit, hpast, or_true, if_true]
      exact .inr ⟨_, rfl⟩
  | some blob =>
    have hblob : (d.apply g.table).readFrom c.cursor = some (before.flatten.length, blob) := by
      refine readFrom_group hgroups hread (by omega) fun e he => ?_
      have := stored_base_le he
      omega
    simp only [hblob, split_stored hgroups hread]
    by_cases hcut : CutsHeader group blob.length
    · simp only [hcut, if_true]
      exact .inl ⟨_, rfl⟩
    · simp only [hcut, if_false, hcursor, lt_irrefl, false_or]
      cases hshown : shown group blob.length with
      | nil =>
        simp only [List.length_nil, hlen, if_true, Nat.add_zero, le_refl]
        exact .inr ⟨_, rfl⟩
      | cons row rows =>
        have hnext := Ahead.within (g := g) 1 hgroups hread hcut (by simp [hshown])
        have hfew : ¬before.flatten.length + (row :: rows).length ≤ before.flatten.length := by
          simp
        simp only [hshown, List.drop_succ_cons, List.drop_zero] at hnext
        simp only [hfew, if_false, Cursor.next, Option.getD_some, Nat.sub_self, List.getElem?_cons_zero]
        split <;> rename_i hrest
        · rw [if_pos hrest, List.append_nil] at hnext
          exact ⟨_, rfl, by rw [hcursor], hnext⟩
        · rw [if_neg hrest] at hnext
          exact ⟨_, rfl, by rw [hcursor], hnext⟩

/-- **One pull** of the row the order names next. -/
theorem Ahead.answers {ahead : List Bytes} (h : Ahead d g c ahead)
    (horder : order.length = g.rows.length) {index : ℕ}
    (hindex : order[c.cursor]? = some index) :
    Answers d g c ahead (orderedRowCursor order (d.apply g.table).readFrom c index) := by
  have hlt : c.cursor < g.rows.length := by
    rw [← horder]
    exact (List.getElem?_eq_some_iff.mp hindex).1
  cases h with
  | start =>
    cases hgroups : g.groups with
    | nil => simp [Groups.rows, hgroups] at hlt
    | cons group after =>
      refine answers_enter [] hgroups rfl rfl hindex fun hread => .inl ?_
      have hpos := (Groups.fits_of_mem [] hgroups).2
      rw [Table.readFrom, List.getLast?_eq_none_iff, List.filter_eq_nil_iff]
      intro e he
      have hread : d.read 0 (lengthPrefixed group) = none := hread
      rw [Groups.table, hgroups, stored, Damage.apply_cons_none hread] at he
      have := stored_base_le he
      have hfar : ¬e.1 ≤ 0 := by omega
      simpa [Cursor.start] using hfar
  | within j hgroups hread hcut hj =>
    rename_i before after group blob
    have hpast := length_shown_le group blob.length
    have hsplit := split_stored hgroups hread
    rw [if_neg hcut] at hsplit
    rcases hj.lt_or_eq with hj | hj
    · -- still inside the group: the next held row
      rw [List.drop_eq_getElem_cons hj, List.cons_append]
      have hindex : order[before.flatten.length + j]? = some index := hindex
      refine ⟨_, ?_, rfl, .within (j + 1) hgroups hread hcut hj⟩
      simp [orderedRowCursor, hindex, Cursor.spent, Cursor.next, hj, Nat.add_assoc, -List.length_flatten]
    · subst hj
      simp only [List.drop_length, List.nil_append]
      by_cases hshort : (shown group blob.length).length < group.length
      · -- the group does not show the row: it is read again and ends the stream
        have hagain : (d.apply g.table).readFrom
            (before.flatten.length + (shown group blob.length).length) =
            some (before.flatten.length, blob) := by
          refine readFrom_group hgroups hread (by omega) fun e he => ?_
          have := stored_base_le he
          omega
        rw [if_pos hshort]
        refine .inr ⟨{
          cursor := before.flatten.length + (shown group blob.length).length
          held := shown group blob.length
          heldFrom := some before.flatten.length }, ?_⟩
        simp only [orderedRowCursor, hindex, Cursor.spent, hagain, hsplit]
        simp
      · rw [if_neg hshort]
        have hfull : (shown group blob.length).length = group.length := by omega
        cases after with
        | nil =>
          simp only [Groups.rows, hgroups, List.flatten_append, List.flatten_cons,
            List.flatten_nil, List.append_nil, List.length_append] at hlt
          omega
        | cons group' after =>
          have hborder : (before ++ [group]).flatten.length = before.flatten.length + group.length := by simp
          have hgroups' : g.groups = (before ++ [group]) ++ group' :: after := by
            simp [hgroups]
          have henter := answers_enter (d := d) (before ++ [group]) hgroups'
            (c := { cursor := before.flatten.length + (shown group blob.length).length
                    held := shown group blob.length
                    heldFrom := some before.flatten.length })
            (by simp [hfull]) (by simp [Cursor.spent]) hindex
          rw [hborder] at henter
          refine henter fun hmissing => .inr ⟨before.flatten.length, blob, _, ?_, hsplit, ?_⟩
          · refine readFrom_group hgroups hread (by simp) fun e he => ?_
            rw [stored, Damage.apply_cons_none hmissing] at he
            have := stored_base_le he
            have hpos := (Groups.fits_of_mem _ hgroups').2
            simp only
            omega
          · simp

def agreeing : List ℕ → List ℕ → ℕ
  | i :: pulls, j :: order => if i = j then agreeing pulls order + 1 else 0
  | _, _ => 0

@[simp] theorem agreeing_nil_right (pulls : List ℕ) : agreeing pulls [] = 0 := by
  cases pulls <;> rfl

theorem agreeing_self (order : List ℕ) : agreeing order order = order.length := by
  induction order with
  | nil => rfl
  | cons i order ih => simp [agreeing, ih]

theorem Ahead.serve_rows {ahead : List Bytes} (h : Ahead d g c ahead)
    (horder : order.length = g.rows.length) (pulls : List ℕ) :
    (serve order (d.apply g.table) c pulls).rows = ahead.take (agreeing pulls (order.drop c.cursor)) := by
  induction pulls generalizing c ahead with
  | nil => simp [serve, agreeing]
  | cons index pulls ih =>
    cases hindex : order[c.cursor]? with
    | none =>
      have hdrop : order.drop c.cursor = [] :=
        List.drop_eq_nil_of_le (List.getElem?_eq_none_iff.mp hindex)
      simp [serve, orderedRowCursor, hindex, hdrop]
    | some wrote =>
      obtain ⟨hlt, hwrote⟩ := List.getElem?_eq_some_iff.mp hindex
      rw [List.drop_eq_getElem_cons hlt, hwrote, agreeing]
      by_cases hagree : index = wrote
      · subst hagree
        have hans := h.answers horder hindex
        rw [if_pos rfl]
        cases ahead with
        | nil =>
          rcases hans with ⟨e, he⟩ | ⟨c', hc'⟩
          · simp [serve, he]
          · simp [serve, hc']
        | cons row ahead =>
          obtain ⟨c', hc', hcursor, hahead⟩ := hans
          simp only [serve, hc', List.take_succ_cons, ih hahead, hcursor]
      · simp [serve, orderedRowCursor, hindex, hagree]

/-- When every row is ahead, pulling them all and once more ends with a `null`. -/
theorem Ahead.serve_ending {ahead : List Bytes} (h : Ahead d g c ahead)
    (horder : order.length = g.rows.length) (hall : c.cursor + ahead.length = order.length)
    (index : ℕ) :
    (serve order (d.apply g.table) c (order.drop c.cursor ++ [index])).ending = .null := by
  induction ahead generalizing c with
  | nil =>
    have hnone : order[c.cursor]? = none := List.getElem?_eq_none_iff.mpr (by simp_all)
    have hdrop : order.drop c.cursor = [] := List.drop_eq_nil_of_le (by simp_all)
    simp [hdrop, serve, orderedRowCursor, hnone]
  | cons row ahead ih =>
    rw [List.length_cons] at hall
    have hlt : c.cursor < order.length := by omega
    obtain ⟨c', hc', hcursor, hahead⟩ :=
      h.answers horder (List.getElem?_eq_getElem hlt)
    have hih := ih hahead (by omega)
    rw [hcursor] at hih
    rw [List.drop_eq_getElem_cons hlt, List.cons_append]
    simp only [serve, hc', hih]

end Run

/-! ## The whole way -/

/-- A permutation of the rows' indices, as `stagedOrder` gives it. -/
structure BuildOrder (s : Groups) where
  order : List ℕ
  perm : order.Perm (List.range s.rows.length)

def Groups.rowAt (s : Groups) (i : ℕ) : Bytes := s.rows.getD i []

def BuildOrder.rows {s : Groups} (b : BuildOrder s) : List Bytes := b.order.map s.rowAt

theorem BuildOrder.lt {s : Groups} (b : BuildOrder s) (h : i ∈ b.order) : i < s.rows.length := by
  simpa using b.perm.mem_iff.mp h

theorem BuildOrder.rows_eq {s : Groups} (b : BuildOrder s) :
    (List.range' 0 b.order.length).map (fun p => s.rowAt (b.order.getD p 0)) = b.rows := by
  apply List.ext_getElem
  · simp [BuildOrder.rows]
  · intro p hp hp'
    have hlt : p < b.order.length := by simpa using hp
    simp [BuildOrder.rows, hlt]

theorem kept_undamaged (base i : ℕ) (hi : base ≤ i) : kept Damage.undamaged base groups i = groups.flatten[i - base]? := by
  induction groups generalizing base with
  | nil => simp [kept]
  | cons group groups ih =>
    have hshows : Damage.undamaged.shows base group = group :=
      shown_whole group
    rw [kept, List.flatten_cons]
    split
    · rw [hshows, List.getElem?_append_left (by omega)]
    · rw [ih (base + group.length) (by omega), List.getElem?_append_right (by omega), Nat.sub_add_eq]

theorem damageAt_undamaged (sizes : List ℕ) (p : ℕ) :
    damageAt (sizes.map fun size => { size, damage := Damage.undamaged }) p = Damage.undamaged := by
  induction sizes generalizing p with
  | nil => rfl
  | cons size sizes ih =>
    rw [List.map_cons, damageAt]
    split
    · rfl
    · exact ih _

/-- Nothing of the row a position names is missing when its slice reads it. -/
def BuildOrder.WholeAt {s : Groups} (b : BuildOrder s) (d : Damage) (p : ℕ) : Prop :=
  leftAt s b.order d p = some (s.rowAt (b.order.getD p 0))

theorem BuildOrder.wholeAt_undamaged {s : Groups} (b : BuildOrder s) {p : ℕ}
    (hp : p < b.order.length) : b.WholeAt Damage.undamaged p := by
  have hlt := b.lt (List.getElem_mem hp)
  rw [BuildOrder.WholeAt, leftAt, List.getElem?_eq_getElem hp, Option.bind_some,
    kept_undamaged 0 _ (Nat.zero_le _), Nat.sub_zero, ← Groups.rows,
    List.getElem?_eq_getElem hlt, Groups.rowAt]
  simp [hp, List.getElem?_eq_getElem hlt]

/-- The cursor over a table that is all there brings its rows, and then `null`. -/
theorem serve_table {g : Groups} {order : List ℕ} (horder : order.length = g.rows.length)
    (index : ℕ) :
    serve order g.table Cursor.start (order ++ [index]) =
      { rows := g.rows, ending := .null } := by
  have hstart := Ahead.start (d := Damage.undamaged) (g := g)
  rw [servedRows_undamaged] at hstart
  have hrows := hstart.serve_rows horder (order ++ [index])
  have hend := hstart.serve_ending horder (by simp [Cursor.start, horder, Groups.rows]) index
  rw [Damage.apply_undamaged] at hrows hend
  have hagree : ∀ l : List ℕ, agreeing (l ++ [index]) l = l.length := by
    intro l
    induction l with
    | nil => rfl
    | cons i l ih => simp [agreeing, ih]
  simp only [Cursor.start, List.drop_zero, hagree] at hrows hend
  rw [List.take_of_length_le (by rw [horder]; exact le_refl _)] at hrows
  exact Served.ext hrows hend

/-- Over a damaged table the cursor brings the table's first rows and no others,
exactly when the first damaged blob is missing or cut inside no payload. -/
theorem serve_damaged_iff {g : Groups} {order : List ℕ} (horder : order.length = g.rows.length)
    (d : Damage) :
    (∀ pulls, (serve order (d.apply g.table) Cursor.start pulls).rows <+: g.rows) ↔ FirstCutClean d 0 g.groups := by
  have hserve := (Ahead.start (d := d) (g := g)).serve_rows horder
  rw [← servedRows_prefix_iff]
  constructor
  · intro h
    have hall := h order
    rwa [hserve, Cursor.start, List.drop_zero, agreeing_self, List.take_of_length_le] at hall
    rw [horder]
    exact length_servedRows_le _ _ _
  · intro h pulls
    rw [hserve]
    exact (List.take_prefix _ _).trans h

/-- **The reordered spill serves the right rows.** Whatever the grouping, the
permutation, the slices and the cap: an undamaged run writes the rows in build
order, and the cursor brings them one by one and then `null`. Over a damaged
spill the phase throws or writes no wrong row exactly when a row's header is lost
or no payload is cut; over damaged ordered rows the cursor brings no wrong row
exactly when the first damaged blob is missing or cut inside no payload. -/
theorem reordered_spill_serves (s : Groups) (b : BuildOrder s) (cap : ℕ) :
    (∀ sizes : List ℕ, b.order.length ≤ sizes.sum → ∃ (r : Reorder) (g : Groups),
      reorder s.table b.order cap
          (sizes.map fun size => { size, damage := Damage.undamaged }) = .ok r ∧
        r.ordered = g.table ∧ g.rows = b.rows ∧
        (∀ index, serve b.order r.ordered Cursor.start (b.order ++ [index]) =
          { rows := b.rows, ending := .null }) ∧
        ∀ d : Damage, (∀ pulls,
            (serve b.order (d.apply r.ordered) Cursor.start pulls).rows <+: b.rows) ↔
          FirstCutClean d 0 g.groups) ∧
    ∀ slices : List SliceRead, b.order.length ≤ (slices.map SliceRead.size).sum →
      ((∀ r, reorder s.table b.order cap slices = .ok r → ∀ pulls,
          (serve b.order r.ordered Cursor.start pulls).rows <+: b.rows) ↔
        (∃ p < b.order.length, leftAt s b.order (damageAt slices p) p = none) ∨
          ∀ p < b.order.length, b.WholeAt (damageAt slices p) p) := by
  have hlen : b.rows.length = b.order.length := by simp [BuildOrder.rows]
  -- a phase that loses no row writes what its slices read
  have hphase : ∀ (slices : List SliceRead) (rowAt : ℕ → Bytes),
      b.order.length ≤ (slices.map SliceRead.size).sum →
      (∀ p < b.order.length, leftAt s b.order (damageAt slices p) p = some (rowAt p)) →
      ∃ (r : Reorder) (g : Groups), reorder s.table b.order cap slices = .ok r ∧
        r.ordered = g.table ∧ g.rows = (List.range' 0 b.order.length).map rowAt := by
    intro slices rowAt hcover hleft
    obtain ⟨r, hrun, ⟨g, htable, hrows⟩, -⟩ := reorder_ok cap slices Reorder.holds_start (Nat.zero_le _) (by simpa [Reorder.start] using hcover)
      (fun p _ hp => hleft p hp)
    exact ⟨r, g, hrun, htable, by simpa [Reorder.start] using hrows⟩
  refine ⟨fun sizes hcover => ?_, fun slices hcover => ?_⟩
  · obtain ⟨r, g, hrun, htable, hrows⟩ := hphase
      (sizes.map fun size => { size, damage := Damage.undamaged })
      (fun p => s.rowAt (b.order.getD p 0)) (by simpa [Function.comp_def] using hcover)
      (fun p hp => by
        rw [damageAt_undamaged]
        exact b.wholeAt_undamaged hp)
    rw [b.rows_eq] at hrows
    have horder : b.order.length = g.rows.length := by rw [hrows, hlen]
    refine ⟨r, g, hrun, htable, hrows, fun index => ?_, fun d => ?_⟩
    · rw [htable, serve_table horder, hrows]
    · rw [htable, ← hrows]
      exact serve_damaged_iff horder d
  · by_cases hlost : ∃ p < b.order.length, leftAt s b.order (damageAt slices p) p = none
    · obtain ⟨p, hp, hnone⟩ := hlost
      obtain ⟨e, he⟩ := reorder_error cap slices (s := Reorder.start) (Nat.zero_le p) hp (by simpa [Reorder.start] using lt_of_lt_of_le hp hcover) hnone
      refine iff_of_true (fun r hr => ?_) (.inl ⟨p, hp, hnone⟩)
      rw [reorder, he] at hr
      cases hr
    · rw [or_iff_right hlost]
      have hleft : ∀ p < b.order.length, leftAt s b.order (damageAt slices p) p =
          some ((leftAt s b.order (damageAt slices p) p).getD []) := by
        intro p hp
        have hsome : leftAt s b.order (damageAt slices p) p ≠ none :=
          fun hnone => hlost ⟨p, hp, hnone⟩
        obtain ⟨row, hrow⟩ := Option.ne_none_iff_exists'.mp hsome
        rw [hrow, Option.getD_some]
      obtain ⟨r, g, hrun, htable, hrows⟩ := hphase slices _ hcover hleft
      have horder : b.order.length = g.rows.length := by simp [hrows]
      constructor
      · intro h p hp
        have hall := h r hrun (b.order ++ [0])
        rw [htable, serve_table horder] at hall
        have heq : g.rows = b.rows := hall.eq_of_length (by rw [hlen, horder])
        have hget := congrArg (·[p]?) (hrows.symm.trans heq)
        simp [BuildOrder.rows, hp] at hget
        rw [BuildOrder.WholeAt, hleft p hp, hget]
        simp [hp]
      · intro hwhole r' hr' pulls
        obtain rfl := Except.ok.inj (hrun.symm.trans hr')
        have heq : g.rows = b.rows := by
          rw [hrows, ← b.rows_eq]
          refine List.map_congr_left fun p hp => ?_
          have hp : p < b.order.length := by simpa using hp
          rw [hwhole p hp, Option.getD_some]
        have hpulls := (Ahead.start (d := Damage.undamaged) (g := g)).serve_rows horder pulls
        rw [Damage.apply_undamaged, servedRows_undamaged] at hpulls
        rw [htable, hpulls, ← heq]
        exact List.take_prefix _ _

/-- A spill blob that lost the last byte of its row: the row is served short. -/
theorem short_blob_serves_short_row :
    ¬∀ (s : Groups) (b : BuildOrder s) (cap : ℕ) (slices : List SliceRead) (r : Reorder),
      reorder s.table b.order cap slices = .ok r → ∀ pulls,
        (serve b.order r.ordered Cursor.start pulls).rows <+: b.rows := by
  intro h
  have := h { groups := [[[1, 2]]], nonempty := by decide, fits := by simp [Fits] }
    { order := [0], perm := by decide } 100 [{ size := 1, damage := Damage.cut 0 5 }]
    { done := 1, ordered := [(0, [1, 0, 0, 0, 1])] } (by decide +kernel) [0]
  exact absurd this (by decide +kernel)

end ImportSpill
