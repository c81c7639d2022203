-- SUMMARY: The native builder's spill of drafts, its cut into partitions, and what a truncated one replays.
import Sylvan.Data.Framed
import Sylvan.Data.Throws
import Sylvan.Import.RowDraft

/-!
# The draft spill

The native builder writes every draft to one file as a framed record and replays the
file, or one partition's cut of it, as finalized rows. A reader tells a spill's end from
a record by whether a whole head is left to read.
-/

namespace DraftSpill

open Corpus Bytes

/-- `serde_json` on drafts. What it writes it reads. -/
structure DraftJson (ρ : Type) where
  toWriter : RowDraft ρ → Except String Bytes
  fromSlice : Bytes → Except String (RowDraft ρ)
  reads : ∀ draft blob, toWriter draft = .ok blob → ∃ read, fromSlice blob = .ok read

/-! ## Writing -/

/-- What the aggregation keeps of repeated ids: the winner of each, and the records they superseded. -/
structure CorpusAggregator where
  byId : JsMap Text ℕ := .empty
  superseded : JsSet ℕ := []

def CorpusAggregator.observe (agg : CorpusAggregator) (record : ℕ) (scryfallId : Text) : CorpusAggregator :=
  { byId := agg.byId.set scryfallId record
    superseded :=
      match agg.byId.get scryfallId with
      | some prev => agg.superseded.add prev
      | none => agg.superseded }

/-- The spill being written, and once written. -/
structure Spill where
  file : Bytes := []
  records : ℕ := 0
  /-- Every record's partition hash and length. -/
  layout : List (ℕ × ℕ) := []
  agg : CorpusAggregator := {}

def framedRecord (partHash : ℕ) (blob : Bytes) : Bytes :=
  ofNatLE 8 partHash ++ ofNatLE 4 blob.length ++ blob

def plainRecord (blob : Bytes) : Bytes := ofNatLE 4 blob.length ++ blob

section

variable {ρ : Type} (json : DraftJson ρ)

def append (spill : Spill) (draft : RowDraft ρ) : Except String Spill :=
  match json.toWriter draft with
  | .error e => .error s!"encode draft: {e}"
  | .ok scratch =>
    if 2 ^ 32 ≤ scratch.length then .error "draft larger than 4GB"
    else
      .ok { file := spill.file ++ framedRecord (fnv1a64OracleId draft.oracleId) scratch
            records := spill.records + 1
            layout := spill.layout ++ [(fnv1a64OracleId draft.oracleId, scratch.length)]
            agg := spill.agg.observe spill.records draft.scryfallId }

def spillOf (drafts : List (RowDraft ρ)) : Except String Spill := drafts.foldlM (append json) {}

end

/-! ## Reading -/

def readBody (len : ℕ) (bytes : Bytes) : Except String (Bytes × Bytes) :=
  if bytes.length < len then .error s!"read spill body ({len} bytes): failed to fill whole buffer"
  else .ok (bytes.take len, bytes.drop len)

/-- Next `[u64 hash][u32 len][json]` record and what is left, or none at what reads as an end. -/
def nextFramed (bytes : Bytes) : Except String (Option ((ℕ × Bytes) × Bytes)) :=
  -- `read_exact` of the head meets the end of the file: `UnexpectedEof`, however much was there
  if bytes.length < 12 then .ok none
  else
    let hash := toNatLE (bytes.take 8)
    let len := toNatLE ((bytes.drop 8).take 4)
    match readBody len (bytes.drop 12) with
    | .error e => .error e
    | .ok (blob, rest) => .ok (some ((hash, blob), rest))

/-- Next `[u32 len][json]` record and what is left, or none at what reads as an end. -/
def nextPlain (bytes : Bytes) : Except String (Option (Bytes × Bytes)) :=
  if bytes.length < 4 then .ok none
  else
    match readBody (toNatLE (bytes.take 4)) (bytes.drop 4) with
    | .error e => .error e
    | .ok (blob, rest) => .ok (some (blob, rest))

def nextBlob (framed : Bool) (bytes : Bytes) : Except String (Option (Bytes × Bytes)) :=
  if framed then
    match nextFramed bytes with
    | .error e => .error e
    | .ok none => .ok none
    | .ok (some ((_, blob), rest)) => .ok (some (blob, rest))
  else nextPlain bytes

theorem readBody_length {len : ℕ} {bytes blob rest : Bytes} (h : readBody len bytes = .ok (blob, rest)) :
    rest.length ≤ bytes.length := by
  unfold readBody at h
  split at h
  · cases h
  · cases h
    rw [List.length_drop]
    omega

theorem nextFramed_length {bytes rest : Bytes} {record : ℕ × Bytes} (h : nextFramed bytes = .ok (some (record, rest))) :
    rest.length < bytes.length := by
  unfold nextFramed at h
  split at h
  · cases h
  · dsimp only at h
    split at h
    · cases h
    · rename_i hlen _ _ _ hbody
      cases h
      have hle := readBody_length hbody
      rw [List.length_drop] at hle
      omega

theorem nextPlain_length {bytes blob rest : Bytes} (h : nextPlain bytes = .ok (some (blob, rest))) :
    rest.length < bytes.length := by
  unfold nextPlain at h
  split at h
  · cases h
  · split at h
    · cases h
    · rename_i hlen _ _ _ hbody
      cases h
      have hle := readBody_length hbody
      rw [List.length_drop] at hle
      omega

theorem nextBlob_length {framed : Bool} {bytes blob rest : Bytes} (h : nextBlob framed bytes = .ok (some (blob, rest))) :
    rest.length < bytes.length := by
  unfold nextBlob at h
  split at h
  · split at h
    · cases h
    · cases h
    · rename_i hnext
      cases h
      exact nextFramed_length hnext
  · exact nextPlain_length h

/-- Finalized rows streamed out of a spill file. -/
structure FinalizedRows (ρ Row : Type) where
  json : DraftJson ρ
  framed : Bool
  superseded : Option (JsSet ℕ)
  finalize : RowDraft ρ → Row

/-- What the rows' iterator yields from record `index` on until it yields none, and the
error it then holds. -/
def FinalizedRows.collect {ρ Row : Type} (rows : FinalizedRows ρ Row) (index : ℕ) (bytes : Bytes) :
    List Row × Option String :=
  match _h : nextBlob rows.framed bytes with
  | .error e => ([], some e)
  | .ok none => ([], none)
  | .ok (some (blob, rest)) =>
    if rows.superseded.any (index ∈ ·) then rows.collect (index + 1) rest
    else
      match rows.json.fromSlice blob with
      | .error e => ([], some s!"spill record {index}: {e}")
      | .ok draft =>
        let more := rows.collect (index + 1) rest
        (rows.finalize draft :: more.1, more.2)
termination_by bytes.length
decreasing_by
  all_goals exact nextBlob_length _h

/-- Cut the spill into partitions by `part_hash % n`, dropping superseded records. -/
def demuxFrom (n : ℕ) (superseded : JsSet ℕ) (index : ℕ) (files : ℕ → Bytes) (bytes : Bytes) : Except String (ℕ → Bytes) :=
  match _h : nextFramed bytes with
  | .error e => .error e
  | .ok none => .ok files
  | .ok (some ((partHash, blob), rest)) =>
    if index ∈ superseded then demuxFrom n superseded (index + 1) files rest
    else if 2 ^ 32 ≤ blob.length then .error "draft larger than 4GB"
    else
      let k := partHash % n
      demuxFrom n superseded (index + 1) (Function.update files k (files k ++ plainRecord blob)) rest
termination_by bytes.length
decreasing_by
  all_goals exact nextFramed_length _h

def Spill.demux (spill : Spill) (n : ℕ) : Except String (ℕ → Bytes) :=
  demuxFrom n spill.agg.superseded 0 (fun _ => []) spill.file

section

variable {ρ Row : Type} (json : DraftJson ρ) (finalize : RowDraft ρ → Row)

def Spill.rows (spill : Spill) (file : Bytes) : List Row × Option String :=
  FinalizedRows.collect
    { json := json, framed := true, superseded := some spill.agg.superseded, finalize := finalize } 0 file

def partitionRows (file : Bytes) : List Row × Option String :=
  FinalizedRows.collect { json := json, framed := false, superseded := none, finalize := finalize } 0 file

end

/-! ## Records -/

def headLength (framed : Bool) : ℕ := if framed then 12 else 4

/-- A record: its partition hash and its draft's JSON. -/
abbrev Record : Type := ℕ × Bytes

def record (framed : Bool) (r : Record) : Bytes := if framed then framedRecord r.1 r.2 else plainRecord r.2

/-- The hash and the length of a record fit their fields. -/
def Fits (r : Record) : Prop := r.1 < 2 ^ 64 ∧ r.2.length < 2 ^ 32

variable {r : Record} {recs : List Record} {part : Bytes}

theorem readBody_append (blob rest : Bytes) : readBody blob.length (blob ++ rest) = .ok (blob, rest) := by
  rw [readBody, if_neg (by rw [List.length_append]; omega), List.take_left, List.drop_left]

theorem readBody_part {blob : Bytes} (hpre : part <+: blob) (hne : part ≠ blob) :
    ∃ e, readBody blob.length part = .error e := by
  have hlt : part.length < blob.length :=
    Nat.lt_of_le_of_ne hpre.length_le fun heq => hne (hpre.eq_of_length heq)
  exact ⟨_, if_pos hlt⟩

theorem nextFramed_head (h : Fits r) (bytes : Bytes) : nextFramed (ofNatLE 8 r.1 ++ ofNatLE 4 r.2.length ++ bytes) =
      match readBody r.2.length bytes with
      | .error e => .error e
      | .ok (blob, rest) => .ok (some ((r.1, blob), rest)) := by
  have hhash : r.1 < 256 ^ 8 := h.1
  have hlen : r.2.length < 256 ^ 4 := h.2
  have hlong : ¬ (ofNatLE 8 r.1 ++ ofNatLE 4 r.2.length ++ bytes).length < 12 := by
    simp only [List.length_append, length_ofNatLE]
    omega
  have hbody : (ofNatLE 8 r.1 ++ ofNatLE 4 r.2.length ++ bytes).drop 12 = bytes :=
    List.drop_left' (by simp only [List.length_append, length_ofNatLE])
  rw [nextFramed, if_neg hlong, hbody, List.append_assoc, List.take_left' (length_ofNatLE 8 r.1),
    List.drop_left' (length_ofNatLE 8 r.1), List.take_left' (length_ofNatLE 4 r.2.length),
    toNatLE_ofNatLE, toNatLE_ofNatLE, Nat.mod_eq_of_lt hhash, Nat.mod_eq_of_lt hlen]

theorem nextPlain_head (h : Fits r) (bytes : Bytes) : nextPlain (ofNatLE 4 r.2.length ++ bytes) =
      match readBody r.2.length bytes with
      | .error e => .error e
      | .ok (blob, rest) => .ok (some (blob, rest)) := by
  have hlen : r.2.length < 256 ^ 4 := h.2
  have hlong : ¬ (ofNatLE 4 r.2.length ++ bytes).length < 4 := by
    simp only [List.length_append, length_ofNatLE]
    omega
  rw [nextPlain, if_neg hlong, List.take_left' (length_ofNatLE 4 r.2.length),
    List.drop_left' (length_ofNatLE 4 r.2.length), toNatLE_ofNatLE, Nat.mod_eq_of_lt hlen]

def head (framed : Bool) (r : Record) : Bytes :=
  if framed then ofNatLE 8 r.1 ++ ofNatLE 4 r.2.length else ofNatLE 4 r.2.length

theorem record_eq (framed : Bool) (r : Record) : record framed r = head framed r ++ r.2 := by
  cases framed with
  | false => rfl
  | true => rfl

theorem length_head (framed : Bool) (r : Record) : (head framed r).length = headLength framed := by
  cases framed with
  | false => exact length_ofNatLE 4 _
  | true =>
    rw [head, if_pos rfl, List.length_append, length_ofNatLE, length_ofNatLE]
    rfl

theorem nextBlob_head (framed : Bool) (h : Fits r) (bytes : Bytes) : nextBlob framed (head framed r ++ bytes) =
      match readBody r.2.length bytes with
      | .error e => .error e
      | .ok (blob, rest) => .ok (some (blob, rest)) := by
  cases framed with
  | false => exact nextPlain_head h bytes
  | true =>
    rw [nextBlob, if_pos rfl, head, if_pos rfl, nextFramed_head h]
    cases readBody r.2.length bytes with
    | error e => rfl
    | ok read => rfl

theorem nextBlob_record (framed : Bool) (h : Fits r) (rest : Bytes) :
    nextBlob framed (record framed r ++ rest) = .ok (some (r.2, rest)) := by
  rw [record_eq, List.append_assoc, nextBlob_head framed h, readBody_append]

theorem nextFramed_record (h : Fits r) (rest : Bytes) : nextFramed (record true r ++ rest) = .ok (some (r, rest)) := by
  rw [record_eq, List.append_assoc, head, if_pos rfl, nextFramed_head h, readBody_append]

theorem nextBlob_short {framed : Bool} {bytes : Bytes} (h : bytes.length < headLength framed) :
    nextBlob framed bytes = .ok none := by
  cases framed with
  | false => exact if_pos h
  | true =>
    have hlt : bytes.length < 12 := h
    rw [nextBlob, if_pos rfl, nextFramed, if_pos hlt]

theorem nextBlob_part (framed : Bool) (h : Fits r) (hpre : part <+: record framed r) (hne : part ≠ record framed r) :
    if part.length < headLength framed then nextBlob framed part = .ok none
    else ∃ e, nextBlob framed part = .error e := by
  by_cases hshort : part.length < headLength framed
  · rw [if_pos hshort]
    exact nextBlob_short hshort
  · rw [if_neg hshort]
    rw [record_eq] at hpre hne
    rcases Framed.prefix_append_cases hpre with ⟨hhead, hcut⟩ | ⟨front, rfl, hbody⟩
    · -- a front of the head is shorter than it
      refine absurd (Nat.lt_of_le_of_ne hhead.length_le fun heq => hcut (hhead.eq_of_length heq)) ?_
      rwa [length_head]
    · obtain ⟨e, he⟩ := readBody_part hbody fun heq => hne (by rw [heq])
      exact ⟨e, by rw [nextBlob_head framed h, he]⟩

/-! ## Replaying records -/

section Replay

variable {ρ Row : Type} {rows : FinalizedRows ρ Row}

/-- The record fits its fields and its body reads as a draft. -/
def Decodes (json : DraftJson ρ) (r : Record) : Prop := Fits r ∧ ∃ draft, json.fromSlice r.2 = .ok draft

def FinalizedRows.rowOf (rows : FinalizedRows ρ Row) (index : ℕ) (r : Record) : List Row :=
  if rows.superseded.any (index ∈ ·) then []
  else
    match rows.json.fromSlice r.2 with
    | .error _ => []
    | .ok draft => [rows.finalize draft]

def FinalizedRows.rowsOf (rows : FinalizedRows ρ Row) : ℕ → List Record → List Row
  | _, [] => []
  | index, r :: recs => rows.rowOf index r ++ rows.rowsOf (index + 1) recs

theorem collect_record (h : Decodes rows.json r) (index : ℕ) (rest : Bytes) :
    rows.collect index (record rows.framed r ++ rest) =
      (rows.rowOf index r ++ (rows.collect (index + 1) rest).1, (rows.collect (index + 1) rest).2) := by
  obtain ⟨hfits, draft, hdraft⟩ := h
  rw [FinalizedRows.collect]
  split
  next e hnext =>
    rw [nextBlob_record rows.framed hfits] at hnext
    cases hnext
  next hnext =>
    rw [nextBlob_record rows.framed hfits] at hnext
    cases hnext
  next blob rest' hnext =>
    rw [nextBlob_record rows.framed hfits] at hnext
    cases hnext
    rw [FinalizedRows.rowOf, hdraft]
    by_cases hskip : rows.superseded.any (index ∈ ·) = true
    · rw [if_pos hskip, if_pos hskip]
      rfl
    · rw [if_neg hskip, if_neg hskip]
      rfl

/-- Records are replayed in turn. Induction on the records. -/
theorem collect_records (h : ∀ r ∈ recs, Decodes rows.json r) (index : ℕ) (rest : Bytes) :
    rows.collect index (recs.flatMap (record rows.framed) ++ rest) =
      (rows.rowsOf index recs ++ (rows.collect (index + recs.length) rest).1,
        (rows.collect (index + recs.length) rest).2) := by
  induction recs generalizing index with
  | nil => rfl
  | cons r recs ih =>
    have hrest := ih (fun r hr => h r (List.mem_cons_of_mem _ hr)) (index + 1)
    have hindex : index + 1 + recs.length = index + (r :: recs).length := by
      rw [List.length_cons]
      omega
    rw [List.flatMap_cons, List.append_assoc, collect_record (h r (by simp)), hrest, hindex, FinalizedRows.rowsOf,
      List.append_assoc]

theorem collect_end (index : ℕ) : rows.collect index [] = ([], none) := by
  have hnext : nextBlob rows.framed [] = .ok none := by
    apply nextBlob_short
    cases rows.framed <;> decide
  rw [FinalizedRows.collect]
  split
  next e he =>
    rw [hnext] at he
    cases he
  next => rfl
  next blob rest he =>
    rw [hnext] at he
    cases he

theorem collect_part (h : Fits r) (hpre : part <+: record rows.framed r) (hne : part ≠ record rows.framed r) (index : ℕ) :
    (rows.collect index part).1 = [] ∧
      ((∃ e, (rows.collect index part).2 = some e) ↔ ¬ part.length < headLength rows.framed) := by
  have hnext := nextBlob_part rows.framed h hpre hne
  by_cases hshort : part.length < headLength rows.framed
  · rw [if_pos hshort] at hnext
    rw [FinalizedRows.collect]
    split
    next e he =>
      rw [hnext] at he
      cases he
    next => exact ⟨rfl, by simp [hshort]⟩
    next blob rest he =>
      rw [hnext] at he
      cases he
  · rw [if_neg hshort] at hnext
    obtain ⟨e, hnext⟩ := hnext
    rw [FinalizedRows.collect]
    split
    next => exact ⟨rfl, by simp [hshort]⟩
    next he =>
      rw [hnext] at he
      cases he
    next blob rest he =>
      rw [hnext] at he
      cases he

theorem rowsOf_append (before after : List Record) (index : ℕ) :
    rows.rowsOf index (before ++ after) = rows.rowsOf index before ++ rows.rowsOf (index + before.length) after := by
  induction before generalizing index with
  | nil => rfl
  | cons r before ih =>
    have hindex : index + 1 + before.length = index + (r :: before).length := by
      rw [List.length_cons]
      omega
    rw [List.cons_append, FinalizedRows.rowsOf, ih, hindex, FinalizedRows.rowsOf, List.append_assoc]

end Replay

/-! ## Boundaries -/

/-- Where record `i` of a file begins, by the lengths of its records' bodies. -/
def boundary (head : ℕ) (lens : List ℕ) (i : ℕ) : ℕ := ((lens.map (head + ·)).take i).sum

def OnBoundary (head : ℕ) (lens : List ℕ) (cut : ℕ) : Prop := ∃ i, cut = boundary head lens i

/-- The cut leaves part of a head and nothing of a body. -/
def InHead (head : ℕ) (lens : List ℕ) (cut : ℕ) : Prop :=
  ∃ i, boundary head lens i < cut ∧ cut < boundary head lens i + head

section Boundaries

variable {head_ : ℕ} {lens : List ℕ}

theorem boundary_succ {i : ℕ} (h : i < lens.length) :
    boundary head_ lens (i + 1) = boundary head_ lens i + (head_ + lens[i]) := by
  have hlen : i < (lens.map (head_ + ·)).length := by rwa [List.length_map]
  rw [boundary, List.sum_take_succ _ i hlen, List.getElem_map]
  rfl

theorem boundary_mono : Monotone (boundary head_ lens) := by
  apply monotone_nat_of_le_succ
  intro i
  by_cases h : i < lens.length
  · rw [boundary_succ h]
    omega
  · have hlen : (lens.map (head_ + ·)).length ≤ i := by
      rw [List.length_map]
      omega
    rw [boundary, boundary, List.take_of_length_le hlen, List.take_of_length_le (by omega)]

/-- Past record `i`'s beginning and before the next, only `i`'s own head can hold the cut. -/
theorem inHead_iff {i cut : ℕ} (hi : i < lens.length) (hlt : boundary head_ lens i < cut)
    (hnext : cut < boundary head_ lens (i + 1)) : InHead head_ lens cut ↔ cut < boundary head_ lens i + head_ := by
  constructor
  · rintro ⟨j, hj, hcut⟩
    have hle : j ≤ i := by
      by_contra hgt
      have hmono : boundary head_ lens (i + 1) ≤ boundary head_ lens j := boundary_mono (by omega)
      omega
    rcases Nat.lt_or_eq_of_le hle with hlt' | rfl
    · have hsucc := @boundary_succ head_ lens j (by omega)
      have hmono : boundary head_ lens (j + 1) ≤ boundary head_ lens i := boundary_mono hlt'
      omega
    · exact hcut
  · intro hcut
    exact ⟨i, hlt, hcut⟩

theorem length_record (framed : Bool) (r : Record) : (record framed r).length = headLength framed + r.2.length := by
  rw [record_eq, List.length_append, length_head]

theorem length_records (framed : Bool) (recs : List Record) (i : ℕ) :
    ((recs.take i).flatMap (record framed)).length = boundary (headLength framed) (recs.map fun r => r.2.length) i := by
  have hmap : (recs.map fun r => r.2.length).map (headLength framed + ·) = recs.map fun r => (record framed r).length := by
    rw [List.map_map]
    apply List.map_congr_left
    intro r hr
    exact (length_record framed r).symm
  rw [boundary, hmap, ← List.map_take, List.length_flatMap]

end Boundaries

/-! ## A cut file -/

/-- What a replay of a cut file owes: an error, and before it a front of the whole file's rows. -/
def Reports {Row : Type} (cut whole : List Row × Option String) : Prop := (∃ e, cut.2 = some e) ∧ cut.1 <+: whole.1

section Cut

variable {ρ Row : Type} {rows : FinalizedRows ρ Row}

theorem collect_whole (h : ∀ r ∈ recs, Decodes rows.json r) :
    rows.collect 0 (recs.flatMap (record rows.framed)) = (rows.rowsOf 0 recs, none) := by
  have hrecords := collect_records h 0 []
  rw [List.append_nil, collect_end, List.append_nil] at hrecords
  exact hrecords

/-- A file cut inside a record is replayed up to the record, and the cut is reported
unless it left no more than part of a head. -/
theorem collect_cut (h : ∀ r ∈ recs, Decodes rows.json r) {cut : ℕ}
    (hcut : cut < (recs.flatMap (record rows.framed)).length)
    (hbetween : ¬ OnBoundary (headLength rows.framed) (recs.map fun r => r.2.length) cut) :
    Reports (rows.collect 0 ((recs.flatMap (record rows.framed)).take cut))
        (rows.collect 0 (recs.flatMap (record rows.framed))) ↔
      ¬ InHead (headLength rows.framed) (recs.map fun r => r.2.length) cut := by
  obtain ⟨i, hi, part, hfront, hpart⟩ :=
    Framed.prefix_flatMap_cases (List.take_prefix cut (recs.flatMap (record rows.framed)))
  have hlen := congrArg List.length hfront
  rw [List.length_take, Nat.min_eq_left hcut.le, List.length_append, length_records] at hlen
  rcases hpart with rfl | ⟨r, hr, hpre, hne⟩
  · exact absurd ⟨i, by rw [hlen, List.length_nil, Nat.add_zero]⟩ hbetween
  · obtain ⟨hi', hget⟩ := List.getElem?_eq_some_iff.mp hr
    have hmem : r ∈ recs := hget ▸ List.getElem_mem hi'
    have hfits := (h r hmem).1
    have htake : ∀ r' ∈ recs.take i, Decodes rows.json r' := fun r' hr' => h r' (List.mem_of_mem_take hr')
    obtain ⟨hnone, herror⟩ := collect_part hfits hpre hne (0 + (recs.take i).length)
    -- the cut lies inside record `i`
    have hpos : 0 < part.length := by
      by_contra hzero
      exact hbetween ⟨i, by omega⟩
    have hshort : part.length < headLength rows.framed + r.2.length := by
      rw [← length_record]
      exact Nat.lt_of_le_of_ne hpre.length_le fun heq => hne (hpre.eq_of_length heq)
    have hi'' : i < (recs.map fun r => r.2.length).length := by rwa [List.length_map]
    have hnext := @boundary_succ (headLength rows.framed) _ _ hi''
    rw [List.getElem_map, hget] at hnext
    have hhead := @inHead_iff (headLength rows.framed) _ i cut hi'' (by omega) (by omega)
    have hprefix : rows.rowsOf 0 (recs.take i) <+: rows.rowsOf 0 recs := by
      have hsplit := @rowsOf_append ρ Row rows (recs.take i) (recs.drop i) 0
      rw [List.take_append_drop] at hsplit
      rw [hsplit]
      exact List.prefix_append _ _
    rw [hfront, collect_records htake, collect_whole h, hnone, List.append_nil, hhead]
    constructor
    · rintro ⟨hreported, -⟩ hin
      exact herror.mp hreported (by omega)
    · intro hout
      exact ⟨herror.mpr (by omega), hprefix⟩

end Cut

/-! ## The sealed spill -/

section Sealed

variable {ρ : Type} {json : DraftJson ρ}

/-- The spill holds the records, and nothing else. -/
structure Written (json : DraftJson ρ) (spill : Spill) (recs : List Record) : Prop where
  file : spill.file = recs.flatMap (record true)
  layout : spill.layout = recs.map fun r => (r.1, r.2.length)
  decodes : ∀ r ∈ recs, Decodes json r

/-- The spill with one more draft in it, of which `blob` is written. -/
def Spill.push (spill : Spill) (draft : RowDraft ρ) (blob : Bytes) : Spill :=
  { file := spill.file ++ framedRecord (fnv1a64OracleId draft.oracleId) blob
    records := spill.records + 1
    layout := spill.layout ++ [(fnv1a64OracleId draft.oracleId, blob.length)]
    agg := spill.agg.observe spill.records draft.scryfallId }

theorem append_ok {spill spill' : Spill} {draft : RowDraft ρ} (h : append json spill draft = .ok spill') :
    ∃ blob, json.toWriter draft = .ok blob ∧ blob.length < 2 ^ 32 ∧ spill' = spill.push draft blob := by
  unfold append at h
  split at h
  · cases h
  · rename_i blob hblob
    split at h
    · cases h
    · rename_i hlen
      cases h
      exact ⟨blob, hblob, not_le.mp hlen, rfl⟩

theorem Written.push {spill : Spill} {draft : RowDraft ρ} {blob : Bytes} (h : Written json spill recs)
    (hblob : json.toWriter draft = .ok blob) (hlen : blob.length < 2 ^ 32) :
    Written json (spill.push draft blob) (recs ++ [(fnv1a64OracleId draft.oracleId, blob)]) := by
  refine ⟨?_, ?_, ?_⟩
  · simp only [Spill.push, h.file, List.flatMap_append, List.flatMap_singleton]
    rfl
  · simp only [Spill.push, h.layout, List.map_append, List.map_singleton]
  · intro r hr
    rcases List.mem_append.mp hr with hold | hnew
    · exact h.decodes r hold
    · obtain rfl := List.mem_singleton.mp hnew
      exact ⟨⟨Fnv.word_lt _, hlen⟩, json.reads draft blob hblob⟩

/-- A sealed spill holds a record for every draft. Induction on the drafts. -/
theorem written_foldlM {drafts : List (RowDraft ρ)} {spill spill' : Spill} (h : Written json spill recs)
    (hrun : drafts.foldlM (append json) spill = .ok spill') : ∃ recs, Written json spill' recs := by
  induction drafts generalizing spill recs with
  | nil =>
    cases hrun
    exact ⟨recs, h⟩
  | cons draft drafts ih =>
    rw [List.foldlM_cons] at hrun
    obtain ⟨next, happend, hrun⟩ := Throws.ok_of_bind hrun
    obtain ⟨blob, hblob, hlen, rfl⟩ := append_ok happend
    exact ih (h.push hblob hlen) hrun

theorem written_spillOf {drafts : List (RowDraft ρ)} {spill : Spill} (h : spillOf json drafts = .ok spill) :
    ∃ recs, Written json spill recs := by
  have hempty : Written json {} [] := ⟨rfl, rfl, by simp⟩
  exact written_foldlM hempty h

end Sealed

/-! ## Partitions -/

/-- What a partition keeps of the records from `index` on: those of its hash, not superseded. -/
def kept {α : Type} (hash : α → ℕ) (n k : ℕ) (superseded : JsSet ℕ) (index : ℕ) (recs : List α) : List α :=
  ((recs.zipIdx index).filter fun e => e.2 ∉ superseded ∧ hash e.1 % n = k).map Prod.fst

theorem kept_cons {α : Type} (hash : α → ℕ) (n k : ℕ) (superseded : JsSet ℕ) (index : ℕ) (a : α) (recs : List α) :
    kept hash n k superseded index (a :: recs) =
      (if index ∉ superseded ∧ hash a % n = k then [a] else []) ++ kept hash n k superseded (index + 1) recs := by
  rw [kept, List.zipIdx_cons, List.filter_cons]
  by_cases h : index ∉ superseded ∧ hash a % n = k
  · rw [if_pos (by simpa using h), if_pos h]
    rfl
  · rw [if_neg (by simpa using h), if_neg h]
    rfl

theorem mem_kept {α : Type} {hash : α → ℕ} {n k : ℕ} {superseded : JsSet ℕ} {index : ℕ} {recs : List α} {a : α}
    (h : a ∈ kept hash n k superseded index recs) : a ∈ recs := by
  obtain ⟨e, he, rfl⟩ := List.mem_map.mp h
  exact List.fst_mem_of_mem_zipIdx (List.mem_filter.mp he).1

theorem kept_map {α β : Type} (hash : β → ℕ) (f : α → β) (n k : ℕ) (superseded : JsSet ℕ) (index : ℕ) (recs : List α) :
    kept hash n k superseded index (recs.map f) = (kept (fun a => hash (f a)) n k superseded index recs).map f := by
  induction recs generalizing index with
  | nil => rfl
  | cons a recs ih =>
    rw [List.map_cons, kept_cons, kept_cons, ih, List.map_append]
    by_cases h : index ∉ superseded ∧ hash (f a) % n = k
    · rw [if_pos h, if_pos h]
      rfl
    · rw [if_neg h, if_neg h]
      rfl

theorem demuxFrom_record (n : ℕ) (superseded : JsSet ℕ) (h : Fits r) (index : ℕ) (files : ℕ → Bytes) (rest : Bytes) :
    demuxFrom n superseded index files (record true r ++ rest) = demuxFrom n superseded (index + 1)
        (fun k => files k ++ if index ∉ superseded ∧ r.1 % n = k then record false r else []) rest := by
  have hlen : ¬ 2 ^ 32 ≤ r.2.length := not_le.mpr h.2
  rw [demuxFrom]
  split
  next e hnext =>
    rw [nextFramed_record h] at hnext
    cases hnext
  next hnext =>
    rw [nextFramed_record h] at hnext
    cases hnext
  next partHash blob rest' hnext =>
    rw [nextFramed_record h] at hnext
    cases hnext
    by_cases hskip : index ∈ superseded
    · rw [if_pos hskip]
      congr 1
      funext k
      rw [if_neg fun hk => hk.1 hskip, List.append_nil]
    · rw [if_neg hskip, if_neg hlen]
      dsimp only
      congr 1
      funext k
      by_cases hk : partHash % n = k
      · subst hk
        rw [Function.update_self, if_pos ⟨hskip, rfl⟩]
        rfl
      · rw [Function.update_of_ne (fun heq => hk heq.symm), if_neg fun h => hk h.2, List.append_nil]

/-- The cut gives every partition its records, in order. Induction on the records. -/
theorem demuxFrom_eq (n : ℕ) (superseded : JsSet ℕ) (h : ∀ r ∈ recs, Fits r) (index : ℕ) (files : ℕ → Bytes) :
    demuxFrom n superseded index files (recs.flatMap (record true)) =
      .ok fun k => files k ++ (kept Prod.fst n k superseded index recs).flatMap (record false) := by
  induction recs generalizing index files with
  | nil =>
    have hfiles : files = fun k => files k ++ (kept Prod.fst n k superseded index []).flatMap (record false) := by
      funext k
      exact (List.append_nil _).symm
    rw [← hfiles, demuxFrom]
    split
    next e he => cases he
    next => rfl
    next he => cases he
  | cons r recs ih =>
    rw [List.flatMap_cons, demuxFrom_record n superseded (h r (by simp)),
      ih (fun r hr => h r (List.mem_cons_of_mem _ hr)) (index + 1)]
    congr 1
    funext k
    rw [kept_cons, List.flatMap_append, List.append_assoc]
    by_cases hk : index ∉ superseded ∧ r.1 % n = k
    · rw [if_pos hk, if_pos hk, List.flatMap_singleton]
    · rw [if_neg hk, if_neg hk]
      rfl

/-! ## Truncated spills -/

section Truncated

variable {ρ Row : Type} (json : DraftJson ρ) (finalize : RowDraft ρ → Row)

def Spill.partLens (spill : Spill) (n k : ℕ) : List ℕ :=
  (kept Prod.fst n k spill.agg.superseded 0 spill.layout).map Prod.snd

/-- **A truncated spill is reported unless a head was cut**: for a sealed spill and for
each of its partitions, a whole file replays cleanly, and a file cut between record
boundaries replays to an error and a front of the rows exactly when it was not cut in a head. -/
theorem truncated_spill {drafts : List (RowDraft ρ)} {spill : Spill} (hspill : spillOf json drafts = .ok spill) :
    ((spill.rows json finalize spill.file).2 = none ∧
      ∀ cut < spill.file.length, ¬ OnBoundary 12 (spill.layout.map Prod.snd) cut →
        (Reports (spill.rows json finalize (spill.file.take cut)) (spill.rows json finalize spill.file) ↔
          ¬ InHead 12 (spill.layout.map Prod.snd) cut)) ∧
    ∀ n, 0 < n → ∃ files : ℕ → Bytes, spill.demux n = .ok files ∧
      ∀ k < n, (partitionRows json finalize (files k)).2 = none ∧
        ∀ cut < (files k).length, ¬ OnBoundary 4 (spill.partLens n k) cut →
          (Reports (partitionRows json finalize ((files k).take cut)) (partitionRows json finalize (files k)) ↔
            ¬ InHead 4 (spill.partLens n k) cut) := by
  obtain ⟨recs, hfile, hlayout, hdecodes⟩ := written_spillOf hspill
  have hlens : spill.layout.map Prod.snd = recs.map fun r => r.2.length := by
    rw [hlayout, List.map_map]
    rfl
  refine ⟨?_, fun n hn => ⟨fun k => (kept Prod.fst n k spill.agg.superseded 0 recs).flatMap (record false), ?_, ?_⟩⟩
  · let rows : FinalizedRows ρ Row :=
      { json := json, framed := true, superseded := some spill.agg.superseded, finalize := finalize }
    rw [hlens, hfile]
    refine ⟨congrArg Prod.snd (@collect_whole recs ρ Row rows hdecodes), ?_⟩
    intro cut hcut hbetween
    exact @collect_cut recs ρ Row rows hdecodes cut hcut hbetween
  · rw [Spill.demux, hfile, demuxFrom_eq n _ fun r hr => (hdecodes r hr).1]
    rfl
  · intro k hk
    let rows : FinalizedRows ρ Row := { json := json, framed := false, superseded := none, finalize := finalize }
    have hpart : ∀ r ∈ kept Prod.fst n k spill.agg.superseded 0 recs, Decodes rows.json r :=
      fun r hr => hdecodes r (mem_kept hr)
    have hpartLens : spill.partLens n k = (kept Prod.fst n k spill.agg.superseded 0 recs).map fun r => r.2.length := by
      rw [Spill.partLens, hlayout, kept_map, List.map_map]
      rfl
    rw [hpartLens]
    refine ⟨congrArg Prod.snd (@collect_whole _ ρ Row rows hpart), ?_⟩
    intro cut hcut hbetween
    exact @collect_cut _ ρ Row rows hpart cut hcut hbetween

end Truncated

def sample : RowDraft Bytes where
  scryfallId := "a".toList
  oracleId := "b".toList
  cardName := "c".toList
  cardSetCode := none
  collectorNumber := none
  illustrationId := none
  faceIllustrations := []
  releasedAt := []
  rawLangEn := true
  isCanonical := true
  rawSetType := none
  variation := false
  allParts := false
  isTokenLayout := false
  cardIsTags := []
  rankClass := 0
  cardBorder := none
  edhrecRank := none
  noFormatAllows := false
  relatedVerdict := none
  rest := RustStr.utf8 "\x7b\x7d".toList

def sampleJson : DraftJson Bytes where
  toWriter draft := .ok draft.rest
  fromSlice blob := .ok { sample with rest := blob }
  reads _ blob _ := ⟨{ sample with rest := blob }, rfl⟩

def sampleSpill : Spill where
  file := framedRecord (fnv1a64OracleId sample.oracleId) sample.rest
  records := 1
  layout := [(fnv1a64OracleId sample.oracleId, 2)]
  agg := CorpusAggregator.observe {} 0 sample.scryfallId

theorem sampleSpill_eq : spillOf sampleJson [sample] = .ok sampleSpill := rfl

theorem sample_between {head_ len cut : ℕ} (hpos : 0 < cut) (hlt : cut < head_ + len) : ¬ OnBoundary head_ [len] cut := by
  rintro ⟨i, hi⟩
  cases i with
  | zero =>
    rw [boundary, List.take_zero, List.sum_nil] at hi
    omega
  | succ i =>
    have hmono : boundary head_ [len] 1 ≤ boundary head_ [len] (i + 1) := boundary_mono (by omega)
    have hone : boundary head_ [len] 1 = head_ + len := by simp [boundary]
    omega

theorem sample_behind {head_ len cut : ℕ} (hge : head_ ≤ cut) (hlt : cut < head_ + len) : ¬ InHead head_ [len] cut := by
  have hzero : boundary head_ [len] 0 = 0 := rfl
  have hone : boundary head_ [len] 1 = head_ + len := by simp [boundary]
  by_cases hpos : 0 < cut
  · rw [@inHead_iff head_ [len] 0 cut (by simp) (by omega) (by simpa using by omega)]
    omega
  · rintro ⟨i, hi, -⟩
    omega

/-- **A cut inside a head ends cleanly**: five bytes of a spill of one draft replay to no
row and no error. -/
theorem truncated_head_replays :
    spillOf sampleJson [sample] = .ok sampleSpill ∧ 5 < sampleSpill.file.length ∧
      ¬ OnBoundary 12 (sampleSpill.layout.map Prod.snd) 5 ∧
      sampleSpill.rows sampleJson RowDraft.rest (sampleSpill.file.take 5) = ([], none) ∧
      sampleSpill.rows sampleJson RowDraft.rest sampleSpill.file = ([sample.rest], none) := by
  refine ⟨sampleSpill_eq, by decide, sample_between (by omega) (by omega), ?_, ?_⟩
  · decide +kernel
  · decide +kernel

/-- A body cut short is reported, in the spill and in the only partition of one. -/
theorem truncated_spill_body :
    Reports (sampleSpill.rows sampleJson RowDraft.rest (sampleSpill.file.take 13))
        (sampleSpill.rows sampleJson RowDraft.rest sampleSpill.file) ∧
      ∃ file, Reports (partitionRows sampleJson RowDraft.rest (file.take 5)) (partitionRows sampleJson RowDraft.rest file) := by
  obtain ⟨⟨-, hspill⟩, hparts⟩ := truncated_spill sampleJson RowDraft.rest sampleSpill_eq
  obtain ⟨files, hfiles, hparts⟩ := hparts 1 (by omega)
  obtain ⟨-, hpart⟩ := hparts 0 (by omega)
  have hlens : sampleSpill.partLens 1 0 = [2] := by decide +kernel
  rw [hlens] at hpart
  refine ⟨(hspill 13 (by decide) (sample_between (by omega) (by omega))).mpr (sample_behind (by omega) (by omega)),
    files 0, ?_⟩
  have hlen : ((sampleSpill.demux 1).map fun files => (files 0).length) = .ok 6 := by decide +kernel
  rw [hfiles] at hlen
  have hcut : 5 < (files 0).length := by
    have heq : (files 0).length = 6 := Except.ok.inj hlen
    omega
  exact (hpart 5 hcut (sample_between (by omega) (by omega))).mpr (sample_behind (by omega) (by omega))

end DraftSpill
