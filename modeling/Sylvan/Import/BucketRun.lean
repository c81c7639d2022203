-- SUMMARY: A bucket slice's groups as a function of the batches it reads, their number and their sizes.
import Mathlib.Algebra.Order.BigOperators.Group.List
import Sylvan.Import.Bucket

/-!
# A bucket slice

A slice keeps every partition's groups apart, so that what it writes for one is a function of
the drafts sent there. A group is ended by a draft that would take it past a size, so a batch
can end only so many.
-/

namespace Bucket

open ImportSpill (lengthPrefixed splitBatch Fits)
open BlobCodec
open Function (update update_of_ne)

/-! ## One partition's groups -/

/-- The drafts sent to one partition: the groups closed so far, and the one open. -/
structure Groups where
  closed : List (List Bytes)
  last : List Bytes

namespace Groups

def empty : Groups := { closed := [], last := [] }

def push (f : Fflate) (g : Groups) (draft : Bytes) : Groups :=
  if ends f (packed g.last) draft then { closed := g.closed ++ [g.last], last := [draft] }
  else { g with last := g.last ++ [draft] }

def all (g : Groups) : List (List Bytes) := if g.last = [] then g.closed else g.closed ++ [g.last]

theorem flatten_all (g : Groups) : g.all.flatten = g.closed.flatten ++ g.last := by
  unfold all
  split_ifs with h
  · simp [h]
  · simp

theorem flatten_push (f : Fflate) (g : Groups) (draft : Bytes) :
    (g.push f draft).all.flatten = g.all.flatten ++ [draft] := by
  rw [flatten_all, flatten_all]
  unfold push
  split_ifs <;> simp

theorem flatten_foldl_push (f : Fflate) (g : Groups) (drafts : List Bytes) :
    (drafts.foldl (push f) g).all.flatten = g.all.flatten ++ drafts := by
  induction drafts generalizing g with
  | nil => simp
  | cons draft drafts ih => rw [List.foldl_cons, ih, flatten_push, List.append_assoc, List.singleton_append]

/-- A group and the draft that ended it are at least this large. -/
def LOW : ℕ := 600_000

def level (g : Groups) : ℕ := g.closed.length * LOW + min (lengthPrefixed g.last).length LOW

theorem low_of_ends {f : Fflate} (hf : f.Documented) {last : List Bytes} {draft : Bytes}
    (h : ends f (packed last) draft) : LOW ≤ (lengthPrefixed last).length + (4 + draft.length) := by
  have hbound := packedBound_le hf last
  simp only [ends, raw_packed, DRAFT_BATCH_BYTES, STAGE_BLOB_BYTES, STAGED_ROW_BYTES, decide_eq_true_eq] at h
  unfold LOW
  omega

theorem level_push {f : Fflate} (hf : f.Documented) (g : Groups) (draft : Bytes) :
    (g.push f draft).level ≤ g.level + 2 * min (4 + draft.length) LOW := by
  unfold push
  split_ifs with hends
  · have hlow := low_of_ends hf hends
    have hlast : (lengthPrefixed [draft]).length = 4 + draft.length := by simp
    simp only [level, List.length_append, List.length_singleton, hlast, Nat.succ_mul]
    omega
  · simp only [level, length_lengthPrefixed_append]
    omega

theorem level_foldl_push {f : Fflate} (hf : f.Documented) (g : Groups) (drafts : List Bytes) :
    (drafts.foldl (push f) g).level ≤ g.level + 2 * (drafts.map fun d => min (4 + d.length) LOW).sum := by
  induction drafts generalizing g with
  | nil => simp
  | cons draft drafts ih =>
    have hpush := level_push hf g draft
    have hrest := ih (g.push f draft)
    rw [List.foldl_cons, List.map_cons, List.sum_cons]
    omega

end Groups

theorem sum_draftsOf_le (n p : ℕ) (batch : StagedBatch) :
    ((batch.draftsOf n p).map fun d => min (4 + d.length) Groups.LOW).sum ≤ DRAFT_BATCH_BYTES := by
  have hsub : (batch.draftsOf n p).Sublist batch.drafts := by
    have hzip : (batch.hashes.zip batch.drafts).map Prod.snd = batch.drafts :=
      List.map_snd_zip batch.parallel.ge
    have hfilter : (batch.draftsOf n p).Sublist ((batch.hashes.zip batch.drafts).map Prod.snd) :=
      List.filter_sublist.map Prod.snd
    rwa [hzip] at hfilter
  have hmono : ((batch.draftsOf n p).map fun d => min (4 + d.length) Groups.LOW).sum ≤
      (batch.drafts.map fun d => min (4 + d.length) Groups.LOW).sum :=
    (hsub.map _).sum_le_sum fun _ _ => Nat.zero_le _
  refine hmono.trans ?_
  rcases batch.sized with hone | hsize
  · match hdrafts : batch.drafts, hone with
    | [], _ => simp
    | [d], _ => simp [Groups.LOW, DRAFT_BATCH_BYTES]
  · refine le_trans ?_ hsize
    rw [lengthPrefixed, List.length_flatMap]
    refine List.sum_le_sum fun d _ => ?_
    simp

/-! ## A slice, partition by partition -/

section

variable {f : Fflate} {n done : ℕ}

/-- The rows of these groups, under the keys of a slice from `done` on. -/
def rowsOf (f : Fflate) (done p : ℕ) (groups : List (List Bytes)) : List Group :=
  groups.mapIdx fun i entries => ⟨p, done * 128 + i, (packed entries).finish f⟩

/-- What a slice holds for partition `p` once `g` is its groups. -/
structure View (f : Fflate) (done p : ℕ) (st : Acc) (g : Groups) : Prop where
  acc : st.acc p = if g.last = [] then none else some (packed g.last)
  ordinal : st.ordinal p = g.closed.length
  written : st.written.filter (·.partition = p) = rowsOf f done p g.closed

theorem view_empty (f : Fflate) (done p : ℕ) : View f done p .empty .empty := ⟨rfl, rfl, rfl⟩

theorem rowsOf_append_singleton (f : Fflate) (done p : ℕ) (groups : List (List Bytes)) (entries : List Bytes) :
    rowsOf f done p (groups ++ [entries]) =
      rowsOf f done p groups ++ [⟨p, done * 128 + groups.length, (packed entries).finish f⟩] := by
  simp [rowsOf, List.mapIdx_append]

def Groups.close (g : Groups) : Groups := { closed := g.all, last := [] }

variable {st : Acc}

variable {p : ℕ}

theorem View.flush {g : Groups} (h : View f done p st g) : View f done p (Bucket.flush f done st p) g.close := by
  unfold Bucket.flush
  by_cases hlast : g.last = []
  · have hnone : st.acc p = none := by simp [h.acc, hlast]
    simp only [hnone, Groups.close, Groups.all, hlast, if_true]
    exact ⟨by simp [hnone], h.ordinal, h.written⟩
  · have hsome : st.acc p = some (packed g.last) := by simp [h.acc, hlast]
    have hcount : (packed g.last).count ≠ 0 := by simpa [count_packed] using hlast
    simp only [hsome, if_neg hcount, Groups.close, Groups.all, if_neg hlast]
    refine ⟨by simp, by simp [h.ordinal], ?_⟩
    rw [List.filter_append, h.written, rowsOf_append_singleton, h.ordinal]
    simp

theorem View.flush_other {p q : ℕ} (hne : q ≠ p) {g : Groups} (h : View f done q st g) :
    View f done q (Bucket.flush f done st p) g := by
  unfold Bucket.flush
  split
  · exact h
  · split
    · exact h
    · refine ⟨?_, ?_, ?_⟩
      · simpa [update_of_ne hne] using h.acc
      · simpa [update_of_ne hne] using h.ordinal
      · rw [List.filter_append, h.written]
        simp [Ne.symm hne]

theorem View.pushDraft {g : Groups} (h : View f done p st g) (draft : Bytes) :
    View f done p (Bucket.pushDraft f done p st draft) (g.push f draft) := by
  have hends : (st.acc p).any (ends f · draft) = ends f (packed g.last) draft := by
    rw [h.acc]
    split_ifs with hlast
    · simp [hlast, ends, count_packed]
    · rfl
  have hopen {st : Acc} {g : Groups} (h : View f done p st g) : (st.acc p).getD .empty = packed g.last := by
    rw [h.acc]
    split_ifs with hlast
    · rw [hlast]
      rfl
    · rfl
  unfold Bucket.pushDraft Groups.push
  rw [hends]
  by_cases hfull : ends f (packed g.last) draft
  · have hlast : g.last ≠ [] := by
      rintro hlast
      simp [hlast, ends, count_packed] at hfull
    have hclosed := h.flush
    simp only [if_pos hfull, hopen hclosed]
    refine ⟨?_, ?_, ?_⟩
    · simp only [Function.update_self, List.cons_ne_nil, if_false]
      rfl
    · simpa [Groups.close, Groups.all, hlast] using hclosed.ordinal
    · simpa [Groups.close, Groups.all, hlast] using hclosed.written
  · simp only [if_neg hfull, hopen h]
    refine ⟨?_, h.ordinal, h.written⟩
    simp [packed_append_singleton]

theorem View.pushDraft_other {p q : ℕ} (hne : q ≠ p) {g : Groups} (h : View f done q st g) (draft : Bytes) :
    View f done q (Bucket.pushDraft f done p st draft) g := by
  unfold Bucket.pushDraft
  have hkeep : View f done q (if (st.acc p).any (ends f · draft) then Bucket.flush f done st p else st) g := by
    split_ifs
    · exact h.flush_other hne
    · exact h
  refine ⟨?_, hkeep.ordinal, hkeep.written⟩
  simpa [update_of_ne hne] using hkeep.acc

def Views (f : Fflate) (done : ℕ) (st : Acc) (g : ℕ → Groups) : Prop := ∀ p, View f done p st (g p)

variable {g : ℕ → Groups}

theorem Views.step {groups : Groups} (hp : View f done p st groups) (hother : ∀ q, q ≠ p → View f done q st (g q)) :
    Views f done st (update g p groups) := by
  intro q
  by_cases hq : q = p
  · subst hq
    simpa using hp
  · simpa [update_of_ne hq] using hother q hq

theorem Views.pushDrafts (h : Views f done st g) (p : ℕ) (drafts : List Bytes) :
    Views f done (drafts.foldl (Bucket.pushDraft f done p) st)
      (update g p (drafts.foldl (Groups.push f) (g p))) := by
  induction drafts generalizing st g with
  | nil => simpa using h
  | cons draft drafts ih =>
    have hpush : Views f done (Bucket.pushDraft f done p st draft) (update g p ((g p).push f draft)) :=
      .step ((h p).pushDraft draft) fun q hq => (h q).pushDraft_other hq draft
    simpa using ih hpush

theorem Views.each {step : Acc → ℕ → Acc} (change : ℕ → Groups → Groups)
    (hstep : ∀ {st g} (p : ℕ), Views f done st g → Views f done (step st p) (update g p (change p (g p))))
    (h : Views f done st g) {ps : List ℕ} (hnodup : ps.Nodup) :
    Views f done (ps.foldl step st) (fun p => if p ∈ ps then change p (g p) else g p) := by
  induction ps generalizing st g with
  | nil => simpa using h
  | cons p ps ih =>
    obtain ⟨hnot, hnodup⟩ := List.nodup_cons.mp hnodup
    have hrest := ih (hstep p h) hnodup
    rw [List.foldl_cons]
    intro q
    have hq := hrest q
    by_cases hqp : q = p
    · subst hqp
      simpa [hnot] using hq
    · simpa [update_of_ne hqp, hqp] using hq

theorem Views.pushAll (h : Views f done st g) (drafts : ℕ → List Bytes) {ps : List ℕ}
    (hnodup : ps.Nodup) :
    Views f done (ps.foldl (fun st p => (drafts p).foldl (Bucket.pushDraft f done p) st) st)
      (fun p => if p ∈ ps then (drafts p).foldl (Groups.push f) (g p) else g p) :=
  .each (fun p groups => (drafts p).foldl (Groups.push f) groups) (fun p h => h.pushDrafts p (drafts p)) h hnodup

theorem Views.flushAll (h : Views f done st g) {ps : List ℕ} (hnodup : ps.Nodup) :
    Views f done (ps.foldl (Bucket.flush f done) st) (fun p => if p ∈ ps then (g p).close else g p) :=
  .each (fun _ => Groups.close) (fun p h => .step (h p).flush fun q hq => (h q).flush_other hq) h hnodup

/-! ## The batches a slice reads -/

attribute [local simp] rowsFrom

theorem length_packPartHashes (hashes : List UInt64) :
    (packPartHashes hashes).length = hashes.length * DRAFT_HASH_BYTES := by
  simp [packPartHashes, List.length_flatMap, DRAFT_HASH_BYTES]

theorem hashesFrom_packPartHashes (hashes : List UInt64) : hashesFrom (packPartHashes hashes) = hashes := by
  induction hashes with
  | nil => simp [packPartHashes, hashesFrom]
  | cons h hashes ih =>
    have hbytes : packPartHashes (h :: hashes) = Bytes.ofNatLE DRAFT_HASH_BYTES h.toNat ++ packPartHashes hashes :=
      List.flatMap_cons ..
    have hne : Bytes.ofNatLE DRAFT_HASH_BYTES h.toNat ++ packPartHashes hashes ≠ [] := by
      intro hnil
      have hlength := congrArg List.length hnil
      simp [DRAFT_HASH_BYTES] at hlength
    have hread : UInt64.ofNat (Bytes.toNatLE (Bytes.ofNatLE DRAFT_HASH_BYTES h.toNat)) = h := by
      rw [Bytes.toNatLE_ofNatLE, Nat.mod_eq_of_lt (by simpa [DRAFT_HASH_BYTES] using h.toNat_lt), UInt64.ofNat_toNat]
    rw [hbytes, hashesFrom, dif_neg hne, List.take_left' (Bytes.length_ofNatLE ..),
      List.drop_left' (Bytes.length_ofNatLE ..), hread, ih]

theorem unpackPartHashes_packPartHashes (hashes : List UInt64) : unpackPartHashes (packPartHashes hashes) = .ok hashes := by
  have hwhole : (packPartHashes hashes).length % DRAFT_HASH_BYTES = 0 := by
    rw [length_packPartHashes]
    exact Nat.mul_mod_left ..
  rw [unpackPartHashes, if_neg (not_not.mpr hwhole), hashesFrom_packPartHashes]

theorem getD_foldl_modify (pairs : List (UInt64 × Bytes)) {out : List (List Bytes)} (hout : out.length = n)
    (p : ℕ) (hp : p < n) :
    (pairs.foldl (fun out e => out.modify (e.1.toNat % n) (· ++ [e.2])) out).getD p [] =
      out.getD p [] ++ (pairs.filter fun e => e.1.toNat % n = p).map Prod.snd := by
  induction pairs generalizing out with
  | nil => simp
  | cons e pairs ih =>
    have hsome : out[p]? = some (out.getD p []) := by
      rw [List.getD_eq_getElem?_getD, List.getElem?_eq_getElem (by omega), Option.getD_some]
    have hmodify : (out.modify (e.1.toNat % n) (· ++ [e.2])).getD p [] =
        if e.1.toNat % n = p then out.getD p [] ++ [e.2] else out.getD p [] := by
      rw [List.getD_eq_getElem?_getD, List.getElem?_modify, hsome]
      split_ifs <;> rfl
    rw [List.foldl_cons, ih (by rwa [List.length_modify]), hmodify]
    by_cases he : e.1.toNat % n = p
    · simp [he]
    · simp [he]

theorem length_singleton_le {drafts : List Bytes} {draft : Bytes} (hdraft : draft ∈ drafts) :
    (lengthPrefixed [draft]).length ≤ (lengthPrefixed drafts).length := by
  obtain ⟨before, after, rfl⟩ := List.append_of_mem hdraft
  have happend : before ++ draft :: after = before ++ ([draft] ++ after) := rfl
  rw [happend, lengthPrefixed_append, lengthPrefixed_append, List.length_append, List.length_append]
  omega

theorem headed_singleton (batch : StagedBatch) {draft : Bytes} (hdraft : draft ∈ batch.drafts) :
    (lengthPrefixed [draft]).length < 2 ^ 32 :=
  (length_singleton_le hdraft).trans_lt batch.headed

theorem fits_of_headed {drafts : List Bytes} (h : (lengthPrefixed drafts).length < 2 ^ 32) : Fits drafts := by
  intro draft hdraft
  have hle := length_singleton_le hdraft
  have hlength : (lengthPrefixed [draft]).length = 4 + draft.length := by simp
  omega

theorem bucketDrafts_row (hn : 0 < n) (batch : StagedBatch) :
    ∃ out, bucketDrafts (lengthPrefixed batch.drafts) (packPartHashes batch.hashes) n = .ok out ∧
      ∀ p < n, out.getD p [] = batch.draftsOf n p := by
  refine ⟨(batch.hashes.zip batch.drafts).foldl (fun out e => out.modify (e.1.toNat % n) (· ++ [e.2]))
    (List.replicate n []), ?_, fun p hp => ?_⟩
  · rw [bucketDrafts, if_neg (Nat.ne_of_gt hn), ImportSpill.splitBatch_lengthPrefixed (fits_of_headed batch.headed),
      unpackPartHashes_packPartHashes]
    change (if _ then _ else _) = _
    rw [if_neg (not_not.mpr batch.parallel)]
  · rw [getD_foldl_modify _ List.length_replicate p hp, StagedBatch.draftsOf]
    simp [hp]

def groupsOf (f : Fflate) (n : ℕ) (batches : List StagedBatch) (g : ℕ → Groups) (p : ℕ) : Groups :=
  if p < n then (batches.flatMap (·.draftsOf n p)).foldl (Groups.push f) (g p) else g p

theorem groupsOf_append (f : Fflate) (n : ℕ) (as bs : List StagedBatch) (g : ℕ → Groups) :
    groupsOf f n (as ++ bs) g = groupsOf f n bs (groupsOf f n as g) := by
  funext p
  simp only [groupsOf]
  split_ifs
  · rw [List.flatMap_append, List.foldl_append]
  · rfl

@[simp] theorem groupsOf_nil (f : Fflate) (n : ℕ) (g : ℕ → Groups) : groupsOf f n [] g = g := by
  funext p
  simp [groupsOf]

theorem Views.bucketRow (hf : f.Documented) (hn : 0 < n) (h : Views f done st g)
    (batch : StagedBatch) (seq : ℕ) :
    ∃ st', Bucket.bucketRow f n done st (batch.row f seq) = .ok (st', (lengthPrefixed batch.drafts).length) ∧
      Views f done st' (groupsOf f n [batch] g) := by
  obtain ⟨out, hsplit, hout⟩ := bucketDrafts_row hn batch
  refine ⟨(List.range n).foldl (fun st p => (out.getD p []).foldl (Bucket.pushDraft f done p) st) st, ?_, ?_⟩
  · unfold Bucket.bucketRow StagedBatch.row
    simp only [unpackBlob_packBlob hf batch.headed, Except.mapError]
    change (do
      let byPartition ← Except.mapError (·, st)
        (bucketDrafts (lengthPrefixed batch.drafts) (packPartHashes batch.hashes) n)
      Except.ok (((List.range n).foldl (fun st p =>
        (byPartition.getD p []).foldl (Bucket.pushDraft f done p) st) st), (lengthPrefixed batch.drafts).length)) = _
    rw [hsplit]
    rfl
  · have hall := h.pushAll (fun p => out.getD p []) (List.nodup_range (n := n))
    intro p
    have hp := hall p
    simp only [List.mem_range] at hp
    rw [groupsOf, List.flatMap_singleton]
    split_ifs at hp ⊢ with hlt
    · rwa [hout p hlt] at hp
    · exact hp

theorem Views.bucketRows (hf : f.Documented) (hn : 0 < n) (h : Views f done st g)
    (batches : List StagedBatch) (seq fedBytes : ℕ) :
    ∃ st' bytes, Bucket.bucketRows f n done st fedBytes (rowsFrom f seq batches) = .ok (st', bytes) ∧
      Views f done st' (groupsOf f n batches g) := by
  induction batches generalizing st g seq fedBytes with
  | nil => exact ⟨st, fedBytes, rfl, by simpa using h⟩
  | cons batch batches ih =>
    obtain ⟨st', hrow, hviews⟩ := h.bucketRow hf hn batch seq
    obtain ⟨st'', bytes, hrows, hviews'⟩ :=
      ih hviews (seq + 1) (fedBytes + (lengthPrefixed batch.drafts).length)
    refine ⟨st'', bytes, ?_, ?_⟩
    · rw [rowsFrom, Bucket.bucketRows, hrow]
      exact hrows
    · rwa [← groupsOf_append, List.singleton_append] at hviews'

theorem rowsFrom_append (seq : ℕ) (as bs : List StagedBatch) :
    rowsFrom f seq (as ++ bs) = rowsFrom f seq as ++ rowsFrom f (seq + as.length) bs := by
  induction as generalizing seq with
  | nil => simp
  | cons a as ih =>
    simp only [List.cons_append, rowsFrom, ih, List.length_cons]
    rw [Nat.add_right_comm, Nat.add_assoc]

theorem take_rowsFrom (seq k : ℕ) (batches : List StagedBatch) :
    (rowsFrom f seq batches).take k = rowsFrom f seq (batches.take k) := by
  induction batches generalizing seq k with
  | nil => simp
  | cons batch batches ih => cases k <;> simp [ih]

@[simp] theorem length_rowsFrom (seq : ℕ) (batches : List StagedBatch) :
    (rowsFrom f seq batches).length = batches.length := by
  induction batches generalizing seq with
  | nil => rfl
  | cons batch batches ih => simp [ih]

variable {batches : List StagedBatch}

theorem seq_rowsFrom {seq : ℕ} {row : DraftRow} (h : row ∈ rowsFrom f seq batches) :
    seq ≤ row.seq ∧ row.seq < seq + batches.length := by
  induction batches generalizing seq with
  | nil => cases h
  | cons batch batches ih =>
    rcases List.mem_cons.mp h with rfl | h
    · simp [StagedBatch.row]
    · obtain ⟨hlow, hhigh⟩ := ih h
      simp only [List.length_cons]
      omega

/-- The rows past the first `k` are those of the batches past them. -/
theorem filter_rowsFrom (seq k : ℕ) (batches : List StagedBatch) (hk : k ≤ batches.length) :
    (rowsFrom f seq batches).filter (seq + k ≤ ·.seq) = rowsFrom f (seq + k) (batches.drop k) := by
  have hsplit := rowsFrom_append (f := f) seq (batches.take k) (batches.drop k)
  rw [List.take_append_drop, List.length_take_of_le hk] at hsplit
  rw [hsplit, List.filter_append]
  have hfront : (rowsFrom f seq (batches.take k)).filter (seq + k ≤ ·.seq) = [] := by
    refine List.filter_eq_nil_iff.mpr fun row hrow => ?_
    have hbound := (seq_rowsFrom hrow).2
    rw [List.length_take_of_le hk] at hbound
    simpa using hbound
  have hback : (rowsFrom f (seq + k) (batches.drop k)).filter (seq + k ≤ ·.seq) = rowsFrom f (seq + k) (batches.drop k) :=
    List.filter_eq_self.mpr fun row hrow => by simpa using (seq_rowsFrom hrow).1
  rw [hfront, hback, List.nil_append]

/-- What a slice's loop leaves: every partition's groups of the batches it read, and whether they were the last. -/
structure Reads (f : Fflate) (n done : ℕ) (batches : List StagedBatch) (fed : Fed) : Prop where
  le : fed.fed ≤ batches.length
  views : Views f done fed.st (groupsOf f n (batches.take fed.fed) fun _ => .empty)
  exhausted : fed.exhausted = true → fed.fed = batches.length

theorem fetchRows_reads (hf : f.Documented) (hn : 0 < n) {fed fedBytes : ℕ}
    (hfed : fed ≤ batches.length)
    (hviews : Views f done st (groupsOf f n (batches.take fed) fun _ => .empty)) :
    ∃ result, fetchRows f n done (rowsFrom f done batches) st fed fedBytes = .ok result ∧ Reads f n done batches result := by
  induction hleft : BUCKET_SLICE_BATCHES - fed using Nat.strongRecOn generalizing st fed fedBytes with
  | ind left ih =>
    subst hleft
    rw [fetchRows]
    by_cases hmore : fed < BUCKET_SLICE_BATCHES ∧ fedBytes < BUCKET_SLICE_RAW_BYTES
    · rw [dif_pos hmore, filter_rowsFrom done fed batches hfed]
      simp only [take_rowsFrom]
      obtain ⟨st', bytes, hrows, hviews'⟩ := hviews.bucketRows hf hn
        ((batches.drop fed).take (min BUCKET_FETCH_BATCHES (BUCKET_SLICE_BATCHES - fed))) (done + fed) fedBytes
      have hlength : (rowsFrom f (done + fed) ((batches.drop fed).take
          (min BUCKET_FETCH_BATCHES (BUCKET_SLICE_BATCHES - fed)))).length =
            min (min BUCKET_FETCH_BATCHES (BUCKET_SLICE_BATCHES - fed)) (batches.length - fed) := by simp
      have htaken : (batches.drop fed).take (min BUCKET_FETCH_BATCHES (BUCKET_SLICE_BATCHES - fed)) = (batches.drop fed).take
            (min (min BUCKET_FETCH_BATCHES (BUCKET_SLICE_BATCHES - fed)) (batches.length - fed)) := by
        rw [← List.length_drop, ← List.take_eq_take_min]
      rw [htaken, ← groupsOf_append, ← List.take_add] at hviews'
      simp only [hrows, hlength]
      dsimp only [bind, Except.bind]
      split_ifs with hshort
      · exact ⟨_, rfl, by simp only; omega, hviews', by simp only; omega⟩
      · refine ih _ ?_ ?_ hviews' rfl
        · simp only [BUCKET_FETCH_BATCHES, BUCKET_SLICE_BATCHES] at hmore hshort ⊢
          omega
        · omega
    · rw [dif_neg hmore]
      exact ⟨⟨st, fed, false⟩, rfl, hfed, hviews, by simp⟩

/-! ## The groups a slice writes -/

def sliceGroups (f : Fflate) (n : ℕ) (batches : List StagedBatch) (p : ℕ) : List (List Bytes) :=
  (groupsOf f n batches (fun _ => .empty) p).all

theorem sliceGroups_of_ge (hp : ¬ p < n) : sliceGroups f n batches p = [] := by
  simp [sliceGroups, groupsOf, hp, Groups.all, Groups.empty]

theorem flatten_sliceGroups (batches : List StagedBatch) (hp : p < n) :
    (sliceGroups f n batches p).flatten = batches.flatMap (·.draftsOf n p) := by
  rw [sliceGroups, groupsOf, if_pos hp, Groups.flatten_foldl_push]
  rfl

theorem sum_flatMap_draftsOf_le (n p : ℕ) (batches : List StagedBatch) :
    ((batches.flatMap (·.draftsOf n p)).map fun d => min (4 + d.length) Groups.LOW).sum ≤
      batches.length * DRAFT_BATCH_BYTES := by
  induction batches with
  | nil => simp
  | cons batch batches ih =>
    have hbatch := sum_draftsOf_le n p batch
    rw [List.flatMap_cons, List.map_append, List.sum_append, List.length_cons, Nat.add_mul, Nat.one_mul]
    omega

theorem length_sliceGroups_le (hf : f.Documented) (batches : List StagedBatch) (p : ℕ) :
    (sliceGroups f n batches p).length ≤ batches.length * 128 := by
  by_cases hp : p < n
  · have hlevel := Groups.level_foldl_push hf .empty (batches.flatMap (·.draftsOf n p))
    have hsum := sum_flatMap_draftsOf_le n p batches
    have hall : (sliceGroups f n batches p).length ≤ (groupsOf f n batches (fun _ => .empty) p).closed.length + 1 := by
      unfold sliceGroups Groups.all
      split_ifs <;> simp
    have hempty : batches = [] → sliceGroups f n batches p = [] := by
      rintro rfl
      simp [sliceGroups, Groups.all, Groups.empty]
    have hstart : Groups.empty.level = 0 := by simp [Groups.level, Groups.empty]
    rw [hstart] at hlevel
    simp only [groupsOf, if_pos hp] at hall
    simp only [Groups.level, Groups.LOW] at hlevel
    simp only [DRAFT_BATCH_BYTES, Groups.LOW] at hsum
    rcases Nat.eq_zero_or_pos batches.length with hzero | hpos
    · rw [hempty (List.length_eq_zero_iff.mp hzero)]
      exact Nat.zero_le _
    · omega
  · rw [sliceGroups_of_ge hp]
    exact Nat.zero_le _

theorem Groups.sized_foldl_push (drafts : List Bytes) {g : Groups}
    (h : (∀ group ∈ g.closed, Sized DRAFT_BATCH_BYTES group) ∧ Sized DRAFT_BATCH_BYTES g.last) :
    (∀ group ∈ (drafts.foldl (push f) g).closed, Sized DRAFT_BATCH_BYTES group) ∧
      Sized DRAFT_BATCH_BYTES (drafts.foldl (push f) g).last := by
  induction drafts generalizing g with
  | nil => exact h
  | cons draft drafts ih =>
    refine ih ?_
    unfold push
    split_ifs with hends
    · refine ⟨fun group hgroup => ?_, .inl (by simp)⟩
      rcases List.mem_append.mp hgroup with hgroup | hgroup
      · exact h.1 group hgroup
      · rw [List.mem_singleton.mp hgroup]
        exact h.2
    · refine ⟨h.1, ?_⟩
      simp only [ends, count_packed, raw_packed, decide_eq_true_eq, not_and_or, not_or] at hends
      simp only [Sized, length_lengthPrefixed_append, List.length_append, List.length_singleton]
      omega

theorem sized_sliceGroups (batches : List StagedBatch) (p : ℕ) :
    ∀ group ∈ sliceGroups f n batches p, Sized DRAFT_BATCH_BYTES group := by
  intro group hgroup
  by_cases hp : p < n
  · have hstart : (∀ group ∈ Groups.empty.closed, Sized DRAFT_BATCH_BYTES group) ∧
        Sized DRAFT_BATCH_BYTES Groups.empty.last := ⟨by simp [Groups.empty], .inl (by simp [Groups.empty])⟩
    obtain ⟨hclosed, hlast⟩ := Groups.sized_foldl_push (f := f) (batches.flatMap (·.draftsOf n p)) hstart
    rw [sliceGroups, groupsOf, if_pos hp, Groups.all] at hgroup
    split_ifs at hgroup
    · exact hclosed group hgroup
    · rcases List.mem_append.mp hgroup with hgroup | hgroup
      · exact hclosed group hgroup
      · rw [List.mem_singleton.mp hgroup]
        exact hlast
  · rw [sliceGroups_of_ge hp] at hgroup
    cases hgroup

theorem headed_sliceGroups {group : List Bytes}
    (hgroup : group ∈ sliceGroups f n batches p) : (lengthPrefixed group).length < 2 ^ 32 := by
  rcases sized_sliceGroups batches p group hgroup with hone | hsize
  · match group, hone, hgroup with
    | [], _, _ => simp
    | [draft], _, hgroup =>
      by_cases hp : p < n
      · have hmem : draft ∈ (sliceGroups f n batches p).flatten := List.mem_flatten.mpr ⟨_, hgroup, by simp⟩
        rw [flatten_sliceGroups batches hp] at hmem
        obtain ⟨batch, -, hdraft⟩ := List.mem_flatMap.mp hmem
        obtain ⟨e, he, rfl⟩ := List.mem_map.mp hdraft
        exact headed_singleton batch (List.of_mem_zip (List.mem_filter.mp he).1).2
      · rw [sliceGroups_of_ge hp] at hgroup
        cases hgroup
  · unfold DRAFT_BATCH_BYTES at hsize
    omega

theorem filter_committed {s : BucketState} {fed : Fed}
    (h : Reads f n s.bucket_batch_done batches fed) (p : ℕ) :
    (committed f n s fed).filter (·.partition = p) =
      rowsOf f s.bucket_batch_done p (sliceGroups f n (batches.take fed.fed) p) := by
  have hview := h.views.flushAll (List.nodup_range (n := n)) p
  have hwritten := hview.written
  simp only [List.mem_range] at hwritten
  by_cases hp : p < n
  · rwa [if_pos hp] at hwritten
  · rw [if_neg hp] at hwritten
    rw [sliceGroups_of_ge hp]
    rw [groupsOf, if_neg hp] at hwritten
    exact hwritten

theorem mem_committed_of_written {s : BucketState} {fed : Fed}
    (h : Reads f n s.bucket_batch_done batches fed) {g : Group} (hg : g ∈ fed.st.written) : g ∈ committed f n s fed := by
  have hmem : g ∈ fed.st.written.filter (·.partition = g.partition) := List.mem_filter.mpr ⟨hg, by simp⟩
  rw [(h.views g.partition).written] at hmem
  have hall : g ∈ rowsOf f s.bucket_batch_done g.partition (sliceGroups f n (batches.take fed.fed) g.partition) := by
    unfold sliceGroups Groups.all
    split_ifs
    · exact hmem
    · rw [rowsOf_append_singleton]
      exact List.mem_append_left _ hmem
  rw [← filter_committed h] at hall
  exact (List.mem_filter.mp hall).1

theorem seq_rowsOf (hf : f.Documented) {g : Group}
    (hg : g ∈ rowsOf f done p (sliceGroups f n batches p)) :
    done * 128 ≤ g.seq ∧ g.seq < (done + batches.length) * 128 := by
  have hle := length_sliceGroups_le (n := n) hf batches p
  obtain ⟨i, hi, rfl⟩ := List.mem_mapIdx.mp hg
  simp only
  omega

theorem pairwise_rowsOf (p : ℕ) (groups : List (List Bytes)) : (rowsOf f done p groups).Pairwise (·.seq < ·.seq) := by
  rw [rowsOf, List.pairwise_iff_getElem]
  intro i j hi hj hij
  simp only [List.getElem_mapIdx]
  omega

end

end Bucket
