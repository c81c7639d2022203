-- SUMMARY: One partition's publish: staged rows re-cut into compressed KV values, one a slice, and their reader.
import Mathlib.Algebra.Order.Floor.Div
import Mathlib.Data.List.Flatten
import Sylvan.Data.Bytes
import Sylvan.Import.Publishers

/-!
# Publishing a partition's archive

The build stages an archive as rows; the publish re-cuts them onto a larger grid, one cut a
slice. A cursor into the rows says where the next cut begins, and a record in the object's
storage carries it from slice to slice.
-/

namespace PublishChunks

open Publishers (chunkKey)

/-! ## Staged rows -/

structure StagedRow where
  seq : ℕ
  bytes : Bytes
deriving DecidableEq

/-- The staging table, in the order of its primary key. -/
structure Staging where
  rows : List StagedRow
  sorted : rows.Pairwise (·.seq < ·.seq)

def Staging.archive (staging : Staging) : Bytes := staging.rows.flatMap (·.bytes)

/-- The rows from `seq` on. -/
def Staging.since (staging : Staging) (seq : ℕ) : List StagedRow := staging.rows.filter (seq ≤ ·.seq)

def stagedRows (staging : Staging) (fromSeq limit : ℕ) : List StagedRow := (staging.since fromSeq).take limit

/-- Where a partially consumed staging stream left off. -/
structure StagingCursor where
  seq : ℕ
  off : ℕ
deriving DecidableEq, Repr

/-! ## Assembling a cut -/

/-- The bytes filled so far, and where the next ones come from. -/
structure Assembly where
  bytes : Bytes
  cursor : StagingCursor
deriving DecidableEq

/-- One row of the inner loop; past `want` bytes the loop has broken off. -/
def takeRow (want : ℕ) (st : Assembly) (row : StagedRow) : Assembly :=
  if want ≤ st.bytes.length then st
  else
    let take := min (row.bytes.length - st.cursor.off) (want - st.bytes.length)
    { bytes := st.bytes ++ (row.bytes.drop st.cursor.off).take take
      cursor := if row.bytes.length ≤ st.cursor.off + take then ⟨row.seq + 1, 0⟩
        else ⟨st.cursor.seq, st.cursor.off + take⟩ }

variable {st : Assembly} {want : ℕ}

theorem takeRow_full (h : want ≤ st.bytes.length) (row : StagedRow) : takeRow want st row = st := if_pos h

theorem foldl_takeRow_full (h : want ≤ st.bytes.length) (rows : List StagedRow) : rows.foldl (takeRow want) st = st := by
  induction rows with
  | nil => rfl
  | cons row rows ih => rw [List.foldl_cons, takeRow_full h, ih]

theorem length_takeRow (row : StagedRow) (h : st.bytes.length < want) : (takeRow want st row).bytes.length =
      st.bytes.length + min (row.bytes.length - st.cursor.off) (want - st.bytes.length) := by
  rw [takeRow, if_neg (Nat.not_le.mpr h)]
  simp only [List.length_append, List.length_take, List.length_drop]
  omega

theorem cursor_takeRow (row : StagedRow) (h : st.bytes.length < want) : (takeRow want st row).cursor = ⟨row.seq + 1, 0⟩ ∨
      (takeRow want st row).bytes.length = want ∧ (takeRow want st row).cursor.seq = st.cursor.seq := by
  have hlength := length_takeRow row h
  rw [takeRow, if_neg (Nat.not_le.mpr h)] at hlength ⊢
  simp only at hlength ⊢
  split_ifs with hpast
  · exact .inl rfl
  · refine .inr ⟨?_, rfl⟩
    rw [hlength]
    omega

theorem foldl_takeRow_progress (want : ℕ) {rows : List StagedRow} (hsorted : rows.Pairwise (·.seq < ·.seq))
    (hsince : ∀ row ∈ rows, st.cursor.seq ≤ row.seq) :
    st.cursor.seq ≤ (rows.foldl (takeRow want) st).cursor.seq ∧
      st.bytes.length ≤ (rows.foldl (takeRow want) st).bytes.length := by
  induction rows generalizing st with
  | nil => exact ⟨le_rfl, le_rfl⟩
  | cons row rows ih =>
    rw [List.foldl_cons]
    by_cases hfull : want ≤ st.bytes.length
    · rw [takeRow_full hfull, foldl_takeRow_full hfull]
      exact ⟨le_rfl, le_rfl⟩
    · rw [Nat.not_le] at hfull
      have hle := hsince row List.mem_cons_self
      have hlength := length_takeRow row hfull
      rcases cursor_takeRow row hfull with hcursor | ⟨hdone, hcursor⟩
      · have hlater : ∀ later ∈ rows, (takeRow want st row).cursor.seq ≤ later.seq := by
          intro later hlater
          rw [hcursor]
          exact (List.pairwise_cons.mp hsorted).1 later hlater
        obtain ⟨hseq, hbytes⟩ := ih (List.pairwise_cons.mp hsorted).2 hlater
        rw [hcursor] at hseq
        simp only at hseq
        omega
      · rw [foldl_takeRow_full hdone.ge, hcursor]
        omega

variable {staging : Staging} {row : StagedRow}

theorem Staging.mem_since {seq : ℕ} : row ∈ staging.since seq ↔ row ∈ staging.rows ∧ seq ≤ row.seq := by
  simp [Staging.since]

theorem Staging.sorted_since (staging : Staging) (seq : ℕ) : (staging.since seq).Pairwise (·.seq < ·.seq) :=
  staging.sorted.sublist List.filter_sublist

theorem Staging.since_filter {seq later : ℕ} (h : seq ≤ later) :
    staging.since later = (staging.since seq).filter (later ≤ ·.seq) := by
  rw [since, since, List.filter_filter]
  refine List.filter_congr fun row _ => ?_
  by_cases hrow : later ≤ row.seq
  · simp [hrow, h.trans hrow]
  · simp [hrow]

theorem Staging.length_since_lt {seq later : ℕ} (h : seq ≤ later)
    (hrow : row ∈ staging.since seq) (hpast : row.seq < later) :
    (staging.since later).length < (staging.since seq).length := by
  rw [since_filter h, List.length_filter_lt_length_iff_exists]
  exact ⟨row, hrow, by simpa using hpast⟩

theorem foldl_takeRow_lt {rows : List StagedRow}
    (hfull : st.bytes.length < want) (hrows : stagedRows staging st.cursor.seq 8 = row :: rows) :
    (staging.since ((row :: rows).foldl (takeRow want) st).cursor.seq).length +
        (want - ((row :: rows).foldl (takeRow want) st).bytes.length) <
      (staging.since st.cursor.seq).length + (want - st.bytes.length) := by
  have hsorted : (row :: rows).Pairwise (·.seq < ·.seq) :=
    hrows ▸ (staging.sorted_since st.cursor.seq).sublist (List.take_sublist _ _)
  have hsince : ∀ r ∈ row :: rows, r ∈ staging.since st.cursor.seq := fun r hr =>
    List.mem_of_mem_take (hrows ▸ hr)
  have hle : ∀ r ∈ row :: rows, st.cursor.seq ≤ r.seq := fun r hr => (Staging.mem_since.mp (hsince r hr)).2
  obtain ⟨hseq, hbytes⟩ := foldl_takeRow_progress want hsorted hle
  rw [List.foldl_cons] at hseq hbytes ⊢
  rcases cursor_takeRow row hfull with hcursor | ⟨hdone, hcursor⟩
  · have hlater : ∀ later ∈ rows, (takeRow want st row).cursor.seq ≤ later.seq := by
      intro later hlater
      rw [hcursor]
      exact (List.pairwise_cons.mp hsorted).1 later hlater
    have hpast := (foldl_takeRow_progress want (List.pairwise_cons.mp hsorted).2 hlater).1
    rw [hcursor] at hpast
    have hlt := Staging.length_since_lt hseq (hsince row List.mem_cons_self) hpast
    omega
  · rw [foldl_takeRow_full hdone.ge, hcursor]
    omega

/-- The loop of `assembleChunk`. -/
def assembleFrom (staging : Staging) (want : ℕ) (st : Assembly) : Except String Assembly :=
  if _hfull : want ≤ st.bytes.length then .ok st
  else
    match _hrows : stagedRows staging st.cursor.seq 8 with
    | [] => .error s!"chunk staging ran out at seq {st.cursor.seq} with {st.bytes.length}/{want} bytes filled"
    | row :: rows => assembleFrom staging want ((row :: rows).foldl (takeRow want) st)
termination_by (staging.since st.cursor.seq).length + (want - st.bytes.length)
decreasing_by exact foldl_takeRow_lt (Nat.not_le.mp _hfull) _hrows

/-- Fill `want` bytes from the staged rows, from the cursor on. -/
def assembleChunk (staging : Staging) (want : ℕ) (cursor : StagingCursor) : Except String Assembly :=
  assembleFrom staging want ⟨[], cursor⟩

/-! ## What assembling reads -/

def Staging.unread (staging : Staging) (cursor : StagingCursor) : Bytes :=
  ((staging.since cursor.seq).flatMap (·.bytes)).drop cursor.off

/-- A cursor stands inside the first row it has not passed. -/
def Staging.Holds (staging : Staging) (cursor : StagingCursor) : Prop :=
  ∀ row rest, staging.since cursor.seq = row :: rest → cursor.off ≤ row.bytes.length

theorem Staging.holds_start (staging : Staging) (seq : ℕ) : staging.Holds ⟨seq, 0⟩ :=
  fun _ _ _ => Nat.zero_le _

theorem Staging.unread_start (staging : Staging) : staging.unread ⟨0, 0⟩ = staging.archive := by
  simp [unread, since, archive]

theorem Staging.since_succ {seq : ℕ} {rest : List StagedRow}
    (h : staging.since seq = row :: rest) : staging.since (row.seq + 1) = rest := by
  have hmem : row ∈ staging.since seq := h ▸ List.mem_cons_self
  have hsorted := staging.sorted_since seq
  rw [since_filter ((mem_since.mp hmem).2.trans (Nat.le_succ _))]
  rw [h] at hsorted ⊢
  rw [List.filter_cons_of_neg (by simp)]
  refine List.filter_eq_self.mpr fun later hlater => ?_
  exact decide_eq_true ((List.pairwise_cons.mp hsorted).1 later hlater)

theorem takeRow_spec {rest : List StagedRow}
    (hrows : staging.since st.cursor.seq = row :: rest) (hholds : staging.Holds st.cursor)
    (hfull : st.bytes.length < want) :
    (takeRow want st row).bytes ++ staging.unread (takeRow want st row).cursor = st.bytes ++ staging.unread st.cursor ∧
      staging.Holds (takeRow want st row).cursor ∧ (takeRow want st row).bytes.length ≤ want ∧
      (staging.since (takeRow want st row).cursor.seq = rest ∨ want ≤ (takeRow want st row).bytes.length) := by
  have hoff := hholds row rest hrows
  have hlength := length_takeRow row hfull
  have hunread : staging.unread st.cursor = row.bytes.drop st.cursor.off ++ rest.flatMap (·.bytes) := by
    rw [Staging.unread, hrows, List.flatMap_cons, List.drop_append_of_le_length hoff]
  refine ⟨?_, ?_, by omega, ?_⟩
  · rw [takeRow, if_neg (Nat.not_le.mpr hfull), hunread]
    simp only
    split_ifs with hpast
    · have hall : (row.bytes.drop st.cursor.off).length ≤
          min (row.bytes.length - st.cursor.off) (want - st.bytes.length) := by
        rw [List.length_drop]
        omega
      rw [List.take_of_length_le hall, Staging.unread, Staging.since_succ hrows, List.drop_zero, List.append_assoc]
    · have htake : row.bytes.drop (st.cursor.off + min (row.bytes.length - st.cursor.off) (want - st.bytes.length)) =
          (row.bytes.drop st.cursor.off).drop (min (row.bytes.length - st.cursor.off) (want - st.bytes.length)) := by
        rw [List.drop_drop]
      rw [Staging.unread, hrows, List.flatMap_cons,
        List.drop_append_of_le_length (by simp only; omega), htake, List.append_assoc,
        ← List.append_assoc (List.take _ _), List.take_append_drop]
  · rcases cursor_takeRow row hfull with hcursor | ⟨hdone, hcursor⟩
    · rw [hcursor]
      exact staging.holds_start _
    · intro row' rest' hrows'
      rw [hcursor, hrows] at hrows'
      obtain ⟨rfl, rfl⟩ := List.cons.inj hrows'
      rw [takeRow, if_neg (Nat.not_le.mpr hfull)]
      simp only
      split_ifs
      · exact Nat.zero_le _
      · simp only
        omega
  · rcases cursor_takeRow row hfull with hcursor | ⟨hdone, -⟩
    · rw [hcursor]
      exact .inl (Staging.since_succ hrows)
    · exact .inr hdone.ge

theorem foldl_takeRow_spec {rows tail : List StagedRow}
    (hrows : staging.since st.cursor.seq = rows ++ tail) (hholds : staging.Holds st.cursor)
    (hwant : st.bytes.length ≤ want) :
    (rows.foldl (takeRow want) st).bytes ++ staging.unread (rows.foldl (takeRow want) st).cursor =
        st.bytes ++ staging.unread st.cursor ∧
      staging.Holds (rows.foldl (takeRow want) st).cursor ∧ (rows.foldl (takeRow want) st).bytes.length ≤ want := by
  induction rows generalizing st with
  | nil => exact ⟨rfl, hholds, hwant⟩
  | cons row rows ih =>
    by_cases hfull : want ≤ st.bytes.length
    · rw [foldl_takeRow_full hfull]
      exact ⟨rfl, hholds, hwant⟩
    · obtain ⟨hbytes, hholds', hlength, hnext⟩ := takeRow_spec hrows hholds (Nat.not_le.mp hfull)
      rw [List.foldl_cons]
      rcases hnext with hnext | hdone
      · obtain ⟨hbytes', hrest⟩ := ih hnext hholds' hlength
        exact ⟨hbytes'.trans hbytes, hrest⟩
      · rw [foldl_takeRow_full hdone]
        exact ⟨hbytes, hholds', hlength⟩

theorem assembleFrom_spec (hholds : staging.Holds st.cursor)
    (hlength : st.bytes.length ≤ want) (hwant : want ≤ (st.bytes ++ staging.unread st.cursor).length) :
    ∃ done, assembleFrom staging want st = .ok done ∧ done.bytes.length = want ∧
      done.bytes ++ staging.unread done.cursor = st.bytes ++ staging.unread st.cursor ∧
      staging.Holds done.cursor := by
  induction st using assembleFrom.induct staging want with
  | case1 st hfull =>
    refine ⟨st, ?_, le_antisymm hlength hfull, rfl, hholds⟩
    rw [assembleFrom, dif_pos hfull]
  | case2 st hfull hrows =>
    have hnone : staging.since st.cursor.seq = [] := by
      simpa [stagedRows] using hrows
    simp only [Staging.unread, hnone, List.flatMap_nil, List.drop_nil, List.append_nil] at hwant
    exact absurd hwant hfull
  | case3 st hfull row rows hrows ih =>
    have hsplit : staging.since st.cursor.seq = (row :: rows) ++ (staging.since st.cursor.seq).drop 8 := by
      rw [← hrows, stagedRows, List.take_append_drop]
    obtain ⟨hbytes, hholds', hlength'⟩ := foldl_takeRow_spec hsplit hholds hlength
    obtain ⟨done, hdone, hfilled, hsame, hlast⟩ := ih hholds' hlength' (hbytes ▸ hwant)
    refine ⟨done, ?_, hfilled, hsame.trans hbytes, hlast⟩
    rw [assembleFrom, dif_neg hfull]
    split
    · rename_i hnil
      rw [hnil] at hrows
      cases hrows
    · rename_i row' rows' hrows'
      rw [hrows] at hrows'
      rw [← hrows']
      exact hdone

/-- **A cut is the next bytes of the archive.** With enough of them left, the cut is the `want` bytes past the
    cursor, and the new cursor stands right after them. -/
theorem assembleChunk_spec {cursor : StagingCursor} (hholds : staging.Holds cursor)
    (hwant : want ≤ (staging.unread cursor).length) :
    ∃ cursor', assembleChunk staging want cursor = .ok ⟨(staging.unread cursor).take want, cursor'⟩ ∧
      staging.unread cursor' = (staging.unread cursor).drop want ∧ staging.Holds cursor' := by
  have hstart : staging.Holds (Assembly.mk [] cursor).cursor := hholds
  have hbytes : want ≤ ((Assembly.mk [] cursor).bytes ++ staging.unread (Assembly.mk [] cursor).cursor).length := hwant
  obtain ⟨⟨bytes, cursor'⟩, hdone, rfl, hsame, hlast⟩ :=
    assembleFrom_spec hstart (Nat.zero_le _) hbytes
  simp only [List.nil_append] at hsame
  refine ⟨cursor', ?_, ?_, hlast⟩
  · rw [assembleChunk, hdone, ← hsame, List.take_left' rfl]
  · rw [← hsame, List.drop_left' rfl]

end PublishChunks
