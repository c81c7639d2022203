-- SUMMARY: Four walks over staged drafts: the buckets of a batch, a partition's own scan, the packed groups and the feed slices.
import Mathlib.Data.List.GetD
import Sylvan.Import.BucketRun

/-!
# Buckets, groups and slices

A batch of drafts is split into its partitions in one pass, where a partition used to be
scanned for by itself. What lands in a partition is cut into groups and packed, and a group is
fed to the build in slices. Each walk counts bytes on its own, over the same framed drafts.
-/

namespace Bucket

open ImportSpill (lengthPrefixed splitBatch splitBatchFrom blobGroups BLOB_GROUP_BYTES Fits)
open BlobCodec (lengthPrefixed_append)

/-! ## The walks -/

/-- A staged batch: its framed drafts and the column of their hashes. -/
structure Batch where
  bytes : Bytes
  partHashes : Bytes

/-- What a walk yields, and what it throws after that. -/
structure Yielded (α : Type) where
  yields : List α
  thrown : Option String
deriving DecidableEq

def hashedDrafts (batch : Batch) : Except String (List (UInt64 × Bytes)) := do
  let drafts ← splitBatch batch.bytes
  let hashes ← unpackPartHashes batch.partHashes
  if hashes.length ≠ drafts.length then
    .error s!"draft batch holds {drafts.length} drafts but {hashes.length} hashes"
  else .ok (hashes.zip drafts)

def scanBatches (partition n : ℕ) : List Batch → Yielded Bytes
  | [] => ⟨[], none⟩
  | batch :: batches =>
    match hashedDrafts batch with
    | .error e => ⟨[], some e⟩
    | .ok drafts =>
      let rest := scanBatches partition n batches
      ⟨(drafts.filter fun e => e.1.toNat % n = partition).map Prod.snd ++ rest.yields, rest.thrown⟩

def draftsForPartition (batches : List Batch) (partition partitionCount : ℕ) : Yielded Bytes :=
  if partitionCount = 0 then ⟨[], some s!"partitionCount must be a positive integer, got {partitionCount}"⟩
  else scanBatches partition partitionCount batches

def bucketBatches (partitionCount : ℕ) : List Batch → Yielded (List (List Bytes))
  | [] => ⟨[], none⟩
  | batch :: batches =>
    match bucketDrafts batch.bytes batch.partHashes partitionCount with
    | .error e => ⟨[], some e⟩
    | .ok out =>
      let rest := bucketBatches partitionCount batches
      ⟨out :: rest.yields, rest.thrown⟩

/-- A staged group as it is returned: its drafts by their places in the caller's list. -/
structure DraftRange where
  start : ℕ
  stop : ℕ
  raw : ℕ
  packed : Bytes

/-- Groups packed one after another, the first from `start` on. -/
def packRanges (pack : Bytes → Bytes) : ℕ → List (List Bytes) → List DraftRange
  | _, [] => []
  | start, group :: groups =>
    ⟨start, start + group.length, (lengthPrefixed group).length, pack (lengthPrefixed group)⟩ ::
      packRanges pack (start + group.length) groups

/-- The loop of `packedDraftGroups`: a group that packs past a row is cut again. -/
def rangesFrom (rowCap subCap : ℕ) (pack : Bytes → Bytes) : ℕ → List (List Bytes) → List DraftRange
  | _, [] => []
  | start, group :: groups =>
    (if (pack (lengthPrefixed group)).length ≤ rowCap then packRanges pack start [group]
      else packRanges pack start (blobGroups group subCap)) ++ rangesFrom rowCap subCap pack (start + group.length) groups

/-- The groups under any three sizes; the staging's are `DRAFT_BATCH_BYTES`, `STAGED_ROW_BYTES` and `BLOB_GROUP_BYTES`. -/
def draftRanges (groupCap rowCap subCap : ℕ) (pack : Bytes → Bytes) (drafts : List Bytes) : List DraftRange :=
  rangesFrom rowCap subCap pack 0 (blobGroups drafts groupCap)

def WASM_FEED_BYTES : ℕ := 256 * 1024

/-- The loop of `feedSlices`: the slice from `start` is open, and the entry at `at_` comes next. -/
def feedFrom (batch : Bytes) (cap start at_ : ℕ) : Except String (List Bytes) :=
  if _h : at_ < batch.length then
    match batch.getUint32 at_ with
    | none => .error s!"truncated batch header at {at_}"
    | some len =>
      let next := at_ + 4 + len
      if batch.length < next then .error s!"truncated batch entry at {at_}"
      else if cap < next - start ∧ start < at_ then do
        let rest ← feedFrom batch cap at_ next
        return batch.subarray start at_ :: rest
      else feedFrom batch cap start next
  else return if start < at_ then [batch.subarray start at_] else []
termination_by batch.length - at_

def feedSlices (batch : Bytes) (cap : ℕ := WASM_FEED_BYTES) : Except String (List Bytes) := feedFrom batch cap 0 0

/-! ## Buckets -/

section Buckets

variable {n : ℕ} {batch : Batch} {out : List (List Bytes)}

def fill (n : ℕ) (drafts : List (UInt64 × Bytes)) : List (List Bytes) :=
  drafts.foldl (fun out e => out.modify (e.1.toNat % n) (· ++ [e.2])) (List.replicate n [])

theorem bucketDrafts_eq (hn : n ≠ 0) (batch : Batch) :
    bucketDrafts batch.bytes batch.partHashes n = (hashedDrafts batch).map (fill n) := by
  unfold bucketDrafts hashedDrafts
  rw [if_neg hn]
  cases splitBatch batch.bytes with
  | error e => rfl
  | ok drafts =>
    cases unpackPartHashes batch.partHashes with
    | error e => rfl
    | ok hashes =>
      change (if _ then _ else _) = Except.map _ (if _ then _ else _)
      split
      · rfl
      · rfl

theorem fill_length (n : ℕ) (drafts : List (UInt64 × Bytes)) : (fill n drafts).length = n := by
  have hrun : ∀ out : List (List Bytes),
      (drafts.foldl (fun out e => out.modify (e.1.toNat % n) (· ++ [e.2])) out).length = out.length := by
    induction drafts with
    | nil => intro out; rfl
    | cons e drafts ih =>
      intro out
      rw [List.foldl_cons, ih, List.length_modify]
  rw [fill, hrun, List.length_replicate]

theorem fill_getD (hn : n ≠ 0) (drafts : List (UInt64 × Bytes)) (k : ℕ) :
    (fill n drafts).getD k [] = (drafts.filter fun e => e.1.toNat % n = k).map Prod.snd := by
  by_cases hk : k < n
  · rw [fill, getD_foldl_modify drafts List.length_replicate k hk]
    simp [hk]
  · -- no hash is `k` modulo `n`
    have hnone : (drafts.filter fun e => e.1.toNat % n = k) = [] := by
      apply List.filter_eq_nil_iff.mpr
      intro e _
      have hlt : e.1.toNat % n < n := Nat.mod_lt _ (Nat.pos_of_ne_zero hn)
      simp only [decide_eq_true_eq]
      omega
    rw [hnone, List.getD_eq_default _ _ (by rw [fill_length]; omega)]
    rfl

theorem flatten_modify_perm {out : List (List Bytes)} {i : ℕ} (hi : i < out.length) (d : Bytes) :
    ((out.modify i (· ++ [d])).flatten).Perm (out.flatten ++ [d]) := by
  induction out generalizing i with
  | nil => cases hi
  | cons bucket out ih =>
    cases i with
    | zero =>
      rw [List.modify_zero_cons, List.flatten_cons, List.flatten_cons, List.append_assoc, List.append_assoc]
      exact List.perm_append_comm.append_left bucket
    | succ i =>
      rw [List.modify_succ_cons, List.flatten_cons, List.flatten_cons, List.append_assoc]
      exact (ih (by simpa using hi)).append_left bucket

theorem fill_perm (hn : n ≠ 0) (drafts : List (UInt64 × Bytes)) : (fill n drafts).flatten.Perm (drafts.map Prod.snd) := by
  have hrun : ∀ out : List (List Bytes), out.length = n →
      (drafts.foldl (fun out e => out.modify (e.1.toNat % n) (· ++ [e.2])) out).flatten.Perm
        (out.flatten ++ drafts.map Prod.snd) := by
    induction drafts with
    | nil =>
      intro out _
      simp
    | cons e drafts ih =>
      intro out hout
      have hlt : e.1.toNat % n < out.length := by
        rw [hout]
        exact Nat.mod_lt _ (Nat.pos_of_ne_zero hn)
      have hsplit : out.flatten ++ (e :: drafts).map Prod.snd = out.flatten ++ [e.2] ++ drafts.map Prod.snd := by simp
      rw [List.foldl_cons, hsplit]
      exact (ih _ (by rw [List.length_modify, hout])).trans ((flatten_modify_perm hlt e.2).append_right _)
  have h := hrun (List.replicate n []) List.length_replicate
  rw [fill]
  simpa using h

theorem scanBatches_eq (hn : n ≠ 0) (k : ℕ) (batches : List Batch) : scanBatches k n batches =
    ⟨(bucketBatches n batches).yields.flatMap (·.getD k []), (bucketBatches n batches).thrown⟩ := by
  induction batches with
  | nil => rfl
  | cons batch batches ih =>
    rw [scanBatches, bucketBatches, bucketDrafts_eq hn]
    cases hashedDrafts batch with
    | error e => rfl
    | ok drafts =>
      simp only [Except.map, ih, List.flatMap_cons, fill_getD hn]

theorem bucketBatches_mem (hn : n ≠ 0) {batches : List Batch} (hout : out ∈ (bucketBatches n batches).yields) :
    ∃ batch ∈ batches, ∃ drafts, hashedDrafts batch = .ok drafts ∧ out = fill n drafts := by
  induction batches with
  | nil => cases hout
  | cons batch batches ih =>
    rw [bucketBatches, bucketDrafts_eq hn] at hout
    cases hdrafts : hashedDrafts batch with
    | error e =>
      rw [hdrafts] at hout
      cases hout
    | ok drafts =>
      rw [hdrafts] at hout
      rcases List.mem_cons.mp hout with rfl | hout
      · exact ⟨batch, List.mem_cons_self, drafts, hdrafts, rfl⟩
      · obtain ⟨batch', hbatch', h⟩ := ih hout
        exact ⟨batch', List.mem_cons_of_mem _ hbatch', h⟩

theorem splitBatchFrom_fits {batch : Bytes} {pos : ℕ} {rows : List Bytes} (h : splitBatchFrom batch pos = .ok rows) :
    Fits rows := by
  induction hleft : batch.length - pos using Nat.strong_induction_on generalizing pos rows with
  | _ left ih =>
    rw [splitBatchFrom] at h
    split at h
    · rename_i hpos
      split at h
      · cases h
      · rename_i len hlen
        split at h
        · cases h
        · rename_i rest hrest
          obtain rfl := Except.ok.inj h
          intro row hrow
          rcases List.mem_cons.mp hrow with rfl | hrow
          · refine lt_of_le_of_lt ?_ (Bytes.getUint32_lt hlen)
            rw [Bytes.subarray, List.length_take]
            omega
          · exact ih _ (by omega) hrest rfl row hrow
    · obtain rfl := Except.ok.inj h
      nofun

theorem hashedDrafts_ok {drafts : List (UInt64 × Bytes)} (h : hashedDrafts batch = .ok drafts) :
    ∃ rows, splitBatch batch.bytes = .ok rows ∧ drafts.map Prod.snd = rows := by
  obtain ⟨rows, hrows, h⟩ := Throws.ok_of_bind h
  obtain ⟨hashes, _, h⟩ := Throws.ok_of_bind h
  split at h
  · cases h
  · rename_i hlength
    obtain rfl := Except.ok.inj h
    refine ⟨rows, hrows, List.map_snd_zip ?_⟩
    simp only [ne_eq, not_not] at hlength
    omega

end Buckets

/-! ## Groups -/

def DraftRange.of (drafts : List Bytes) (r : DraftRange) : List Bytes := (drafts.drop r.start).take (r.stop - r.start)

/-- The ranges follow each other from `start` to `stop`, none of them empty. -/
def Tiles : ℕ → ℕ → List DraftRange → Prop
  | start, stop, [] => start = stop
  | start, stop, r :: ranges => r.start = start ∧ start < r.stop ∧ Tiles r.stop stop ranges

/-- The group is packed from its own drafts. -/
structure Packs (pack : Bytes → Bytes) (drafts : List Bytes) (r : DraftRange) : Prop where
  raw : r.raw = (lengthPrefixed (r.of drafts)).length
  packed : r.packed = pack (lengthPrefixed (r.of drafts))

section Groups

variable {pack : Bytes → Bytes} {drafts : List Bytes} {groups : List (List Bytes)} {start stop : ℕ}

theorem Tiles.append {mid : ℕ} {front back : List DraftRange} (hfront : Tiles start mid front) (hback : Tiles mid stop back) :
    Tiles start stop (front ++ back) := by
  induction front generalizing start with
  | nil =>
    subst hfront
    exact hback
  | cons r front ih =>
    obtain ⟨hstart, hlt, htail⟩ := hfront
    exact ⟨hstart, hlt, ih htail⟩

theorem packRanges_tiles (pack : Bytes → Bytes) (start : ℕ) (hne : ∀ group ∈ groups, group ≠ []) :
    Tiles start (start + groups.flatten.length) (packRanges pack start groups) := by
  induction groups generalizing start with
  | nil => rfl
  | cons group groups ih =>
    have hpos : 0 < group.length := List.length_pos_iff.mpr (hne group List.mem_cons_self)
    have htail := ih (start + group.length) fun g hg => hne g (List.mem_cons_of_mem _ hg)
    rw [List.flatten_cons, List.length_append, ← Nat.add_assoc]
    exact ⟨rfl, by simp only; omega, htail⟩

theorem packRanges_packs (h : groups.flatten <+: drafts.drop start) :
    ∀ r ∈ packRanges pack start groups, Packs pack drafts r := by
  induction groups generalizing start with
  | nil => nofun
  | cons group groups ih =>
    obtain ⟨rest, hrest⟩ := h
    rw [List.flatten_cons, List.append_assoc] at hrest
    intro r hr
    rcases List.mem_cons.mp hr with rfl | hr
    · have hof : (drafts.drop start).take (start + group.length - start) = group := by
        rw [← hrest, Nat.add_sub_cancel_left, List.take_left]
      constructor
      · rw [DraftRange.of, hof]
      · rw [DraftRange.of, hof]
    · refine ih ⟨rest, ?_⟩ r hr
      rw [← List.drop_drop, ← hrest, List.drop_left]

theorem rangesFrom_tiles (rowCap subCap : ℕ) (pack : Bytes → Bytes) (start : ℕ) (hne : ∀ group ∈ groups, group ≠ []) :
    Tiles start (start + groups.flatten.length) (rangesFrom rowCap subCap pack start groups) := by
  induction groups generalizing start with
  | nil => rfl
  | cons group groups ih =>
    have htail := ih (start + group.length) fun g hg => hne g (List.mem_cons_of_mem _ hg)
    rw [rangesFrom, List.flatten_cons, List.length_append, ← Nat.add_assoc]
    refine Tiles.append ?_ htail
    split
    · have hone := packRanges_tiles pack start (List.forall_mem_singleton.mpr (hne group List.mem_cons_self))
      rwa [List.flatten_singleton] at hone
    · obtain ⟨hflat, hsub⟩ := ImportSpill.blobGroups_spec group subCap
      have hcut := packRanges_tiles pack start hsub
      rwa [hflat] at hcut

theorem rangesFrom_packs {rowCap subCap : ℕ} (h : groups.flatten <+: drafts.drop start) :
    ∀ r ∈ rangesFrom rowCap subCap pack start groups, Packs pack drafts r := by
  induction groups generalizing start with
  | nil => nofun
  | cons group groups ih =>
    obtain ⟨rest, hrest⟩ := h
    rw [List.flatten_cons, List.append_assoc] at hrest
    intro r hr
    rcases List.mem_append.mp hr with hr | hr
    · -- the group whole, or cut again: either way its own drafts in order
      split at hr
      · exact packRanges_packs ⟨groups.flatten ++ rest, by rw [List.flatten_singleton, hrest]⟩ r hr
      · exact packRanges_packs ⟨groups.flatten ++ rest, by rw [(ImportSpill.blobGroups_spec group subCap).1, hrest]⟩ r hr
    · refine ih ⟨rest, ?_⟩ r hr
      rw [← List.drop_drop, ← hrest, List.drop_left]

theorem draftRanges_tiles (groupCap rowCap subCap : ℕ) (pack : Bytes → Bytes) (drafts : List Bytes) :
    Tiles 0 drafts.length (draftRanges groupCap rowCap subCap pack drafts) := by
  obtain ⟨hflat, hne⟩ := ImportSpill.blobGroups_spec drafts groupCap
  have h := rangesFrom_tiles rowCap subCap pack 0 hne
  rwa [hflat, Nat.zero_add] at h

theorem draftRanges_packs (groupCap rowCap subCap : ℕ) (pack : Bytes → Bytes) (drafts : List Bytes) :
    ∀ r ∈ draftRanges groupCap rowCap subCap pack drafts, Packs pack drafts r := by
  apply rangesFrom_packs
  rw [(ImportSpill.blobGroups_spec drafts groupCap).1, List.drop_zero]

end Groups

/-! ## Slices -/

section Slices

variable {cap : ℕ} {sent held rest : List Bytes}

theorem getUint32_entry {row : Bytes} (hfit : row.length < 2 ^ 32) (front rest : List Bytes) :
    (lengthPrefixed (front ++ row :: rest)).getUint32 (lengthPrefixed front).length = some row.length := by
  have hremains : ImportSpill.Remains (lengthPrefixed (front ++ row :: rest)) (lengthPrefixed front).length (row :: rest)
      (lengthPrefixed (row :: rest)).length := by
    refine ⟨?_, le_rfl⟩
    rw [lengthPrefixed_append, List.drop_left, List.take_length]
  rw [hremains.getUint32 hfit, if_neg]
  simp only [ImportSpill.lengthPrefixed_cons, List.length_append, Bytes.length_ofNatLE]
  omega

theorem subarray_entries (front mid rest : List Bytes) :
    (lengthPrefixed (front ++ mid ++ rest)).subarray (lengthPrefixed front).length (lengthPrefixed (front ++ mid)).length =
      lengthPrefixed mid := by
  rw [List.append_assoc, lengthPrefixed_append front (mid ++ rest), lengthPrefixed_append mid rest, Bytes.subarray,
    List.drop_left, lengthPrefixed_append front mid, List.length_append, Nat.add_sub_cancel_left, List.take_left]

/-- The slice `held` is open behind those sent. Induction on the entries to come. -/
theorem feedFrom_spec (hfit : Fits rest) (hheld : Sized cap held) :
    ∃ parts : List (List Bytes), feedFrom (lengthPrefixed (sent ++ held ++ rest)) cap (lengthPrefixed sent).length
        (lengthPrefixed (sent ++ held)).length = .ok (parts.map lengthPrefixed) ∧
      parts.flatten = held ++ rest ∧ ∀ part ∈ parts, part ≠ [] ∧ Sized cap part := by
  induction rest generalizing sent held with
  | nil =>
    rw [List.append_nil, feedFrom, dif_neg (lt_irrefl _)]
    have hlength : (lengthPrefixed (sent ++ held)).length = (lengthPrefixed sent).length + (lengthPrefixed held).length := by
      rw [lengthPrefixed_append, List.length_append]
    cases held with
    | nil =>
      rw [if_neg (by rw [List.append_nil]; exact lt_irrefl _)]
      exact ⟨[], rfl, rfl, nofun⟩
    | cons row held =>
      have hsub := subarray_entries sent (row :: held) []
      rw [List.append_nil] at hsub
      rw [if_pos, hsub]
      · exact ⟨[row :: held], rfl, by simp, List.forall_mem_singleton.mpr ⟨List.cons_ne_nil _ _, hheld⟩⟩
      · rw [hlength]
        simp only [ImportSpill.lengthPrefixed_cons, List.length_append, Bytes.length_ofNatLE]
        omega
  | cons row rest ih =>
    have hnext : (lengthPrefixed (sent ++ held)).length + 4 + row.length = (lengthPrefixed (sent ++ held ++ [row])).length := by
      rw [lengthPrefixed_append (sent ++ held)]
      simp only [List.length_append, ImportSpill.lengthPrefixed_cons, Bytes.length_ofNatLE, ImportSpill.lengthPrefixed_nil,
        List.append_nil]
      omega
    have hwhole : sent ++ held ++ row :: rest = sent ++ held ++ [row] ++ rest := by simp
    have hle : (lengthPrefixed (sent ++ held ++ [row])).length ≤ (lengthPrefixed (sent ++ held ++ row :: rest)).length := by
      rw [hwhole, lengthPrefixed_append _ rest, List.length_append]
      omega
    rw [feedFrom, dif_pos (by omega), getUint32_entry hfit.head]
    simp only [hnext]
    rw [if_neg (by omega)]
    by_cases hover : cap < (lengthPrefixed (sent ++ held ++ [row])).length - (lengthPrefixed sent).length ∧
        (lengthPrefixed sent).length < (lengthPrefixed (sent ++ held)).length
    · -- the entry does not fit: the open slice ends before it
      obtain ⟨parts, hfeed, hflat, hparts⟩ := @ih (sent ++ held) [row] hfit.tail (.inl (by simp))
      rw [if_pos hover, subarray_entries, hwhole, hfeed]
      refine ⟨held :: parts, rfl, by simp [hflat], ?_⟩
      intro part hpart
      rcases List.mem_cons.mp hpart with rfl | hpart
      · refine ⟨?_, hheld⟩
        rintro rfl
        rw [List.append_nil] at hover
        exact lt_irrefl _ hover.2
      · exact hparts part hpart
    · have hgrown : Sized cap (held ++ [row]) := by
        rw [not_and_or] at hover
        have hsum : (lengthPrefixed (sent ++ held ++ [row])).length =
            (lengthPrefixed sent).length + (lengthPrefixed (held ++ [row])).length := by
          rw [List.append_assoc, lengthPrefixed_append, List.length_append]
        rcases hover with hfits | hempty
        · exact .inr (by omega)
        · -- nothing is open: the entry stands alone
          left
          cases held with
          | nil => simp
          | cons first held =>
            rw [lengthPrefixed_append, List.length_append] at hempty
            simp only [ImportSpill.lengthPrefixed_cons, List.length_append, Bytes.length_ofNatLE] at hempty
            omega
      obtain ⟨parts, hfeed, hflat, hparts⟩ := @ih sent (held ++ [row]) hfit.tail hgrown
      rw [← List.append_assoc] at hfeed
      rw [if_neg hover, hwhole, hfeed]
      exact ⟨parts, rfl, by simp [hflat], hparts⟩

end Slices

/-! ## The whole way -/

/-- The buckets of a batch: one for each partition, with the drafts whose hash names it, and every draft in one of them. -/
structure Split (n : ℕ) (batch : Batch) (out : List (List Bytes)) : Prop where
  length : out.length = n
  drafts : ∃ drafts, hashedDrafts batch = .ok drafts ∧ out.flatten.Perm (drafts.map Prod.snd) ∧
    ∀ k, out.getD k [] = (drafts.filter fun e => e.1.toNat % n = k).map Prod.snd

/-- Under any limit the slices of a group are its drafts in order, and each but a lone draft is within it. -/
def FedWhole (group : List Bytes) : Prop :=
  ∀ cap, ∃ parts : List (List Bytes), feedSlices (lengthPrefixed group) cap = .ok (parts.map lengthPrefixed) ∧
    parts.flatten = group ∧ ∀ part ∈ parts, part ≠ [] ∧ Sized cap part ∧ splitBatch (lengthPrefixed part) = .ok part

def bucketOf (batches : List Batch) (k n : ℕ) : List Bytes := (bucketBatches n batches).yields.flatMap (·.getD k [])

theorem bucketBatches_split (n : ℕ) (batches : List Batch) : List.Forall₂ (Split n)
    (batches.take (bucketBatches n batches).yields.length) (bucketBatches n batches).yields := by
  by_cases hn : n = 0
  · subst hn
    cases batches with
    | nil => exact .nil
    | cons batch batches => exact .nil
  · induction batches with
    | nil => exact .nil
    | cons batch batches ih =>
      rw [bucketBatches, bucketDrafts_eq hn]
      cases hdrafts : hashedDrafts batch with
      | error e => exact .nil
      | ok drafts => exact .cons ⟨fill_length n drafts, drafts, hdrafts, fill_perm hn drafts, fill_getD hn drafts⟩ ih

theorem bucketOf_fits (batches : List Batch) (k n : ℕ) : Fits (bucketOf batches k n) := by
  intro draft hdraft
  obtain ⟨out, hout, hin⟩ := List.mem_flatMap.mp hdraft
  have hn : n ≠ 0 := by
    rintro rfl
    cases batches with
    | nil => cases hout
    | cons batch batches => cases hout
  obtain ⟨batch, _, drafts, hdrafts, rfl⟩ := bucketBatches_mem hn hout
  obtain ⟨rows, hrows, hmap⟩ := hashedDrafts_ok hdrafts
  rw [fill_getD hn] at hin
  obtain ⟨e, he, rfl⟩ := List.mem_map.mp hin
  apply splitBatchFrom_fits hrows
  rw [← hmap]
  exact List.mem_map_of_mem (List.mem_of_mem_filter he)

theorem feedSlices_whole {group : List Bytes} (hfit : Fits group) : FedWhole group := by
  intro cap
  obtain ⟨parts, hfeed, hflat, hparts⟩ := @feedFrom_spec cap [] [] group hfit (.inl (by simp))
  refine ⟨parts, hfeed, hflat, ?_⟩
  intro part hpart
  obtain ⟨hne, hsized⟩ := hparts part hpart
  refine ⟨hne, hsized, ImportSpill.splitBatch_lengthPrefixed ?_⟩
  intro row hrow
  apply hfit
  rw [show group = parts.flatten from hflat.symm]
  exact List.mem_flatten.mpr ⟨part, hpart, hrow⟩

def DraftRange.group (drafts : List Bytes) (r : DraftRange) : PackedDraftGroup := ⟨r.of drafts, r.raw, r.packed⟩

/-- **Staged drafts are partitioned**: what the one pass files under a partition is what a scan for it selects, in
order and with the same error behind it; each batch's drafts land in one bucket each; and the packed groups of a
bucket, and the slices of each group, hold its drafts once and in order, whatever the sizes. -/
theorem drafts_partitioned (batches : List Batch) (n : ℕ) :
    (∀ k : Fin n, draftsForPartition batches k n = ⟨bucketOf batches k n, (bucketBatches n batches).thrown⟩) ∧
    List.Forall₂ (Split n) (batches.take (bucketBatches n batches).yields.length) (bucketBatches n batches).yields ∧
    ∀ (k groupCap rowCap subCap : ℕ) (pack : Bytes → Bytes),
      Tiles 0 (bucketOf batches k n).length (draftRanges groupCap rowCap subCap pack (bucketOf batches k n)) ∧
      ∀ r ∈ draftRanges groupCap rowCap subCap pack (bucketOf batches k n),
        Packs pack (bucketOf batches k n) r ∧ FedWhole (r.of (bucketOf batches k n)) := by
  refine ⟨?_, bucketBatches_split n batches, ?_⟩
  · intro k
    have hn : n ≠ 0 := Nat.ne_of_gt (Nat.lt_of_le_of_lt (Nat.zero_le _) k.isLt)
    rw [draftsForPartition, if_neg hn, scanBatches_eq hn, bucketOf]
  · intro k groupCap rowCap subCap pack
    refine ⟨draftRanges_tiles .., ?_⟩
    intro r hr
    refine ⟨draftRanges_packs _ _ _ _ _ r hr, feedSlices_whole ?_⟩
    intro row hrow
    exact bucketOf_fits batches k n row (List.mem_of_mem_drop (List.mem_of_mem_take hrow))

end Bucket
