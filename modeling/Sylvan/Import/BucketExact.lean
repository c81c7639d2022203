-- SUMMARY: Bucketing over any killed and repeated slices stages every draft once, in order, under keys that never meet.
import Sylvan.Data.Runs
import Sylvan.Import.BucketRun

/-!
# Bucketing is exactly once

What a killed attempt leaves behind is some of the rows the next attempt writes again, and a
slice's keys stay under those of the slice after it.
-/

namespace Bucket

open ImportSpill (lengthPrefixed splitBatch)
open BlobCodec

/-! ## Rows in their tables -/

theorem mem_insertOrReplace {t : ImportSpill.Table} (hsorted : t.Pairwise (·.1 < ·.1)) {k : ℕ} {b : Bytes}
    {e : ℕ × Bytes} : e ∈ t.insertOrReplace k b ↔ e = (k, b) ∨ e ∈ t ∧ e.1 ≠ k := by
  induction t with
  | nil => simp [ImportSpill.Table.insertOrReplace]
  | cons e' t ih =>
    obtain ⟨hhead, htail⟩ := List.pairwise_cons.mp hsorted
    rw [ImportSpill.Table.insertOrReplace]
    split_ifs with hlt heq
    · rw [List.mem_cons, ih htail, List.mem_cons]
      constructor
      · rintro (rfl | rfl | ⟨hmem, hne⟩)
        · exact .inr ⟨.inl rfl, hlt.ne⟩
        · exact .inl rfl
        · exact .inr ⟨.inr hmem, hne⟩
      · rintro (rfl | ⟨rfl | hmem, hne⟩)
        · exact .inr (.inl rfl)
        · exact .inl rfl
        · exact .inr (.inr ⟨hmem, hne⟩)
    · rw [List.mem_cons, List.mem_cons]
      constructor
      · rintro (rfl | hmem)
        · exact .inl rfl
        · exact .inr ⟨.inr hmem, heq ▸ (hhead e hmem).ne'⟩
      · rintro (rfl | ⟨rfl | hmem, hne⟩)
        · exact .inl rfl
        · exact absurd heq hne
        · exact .inr hmem
    · rw [List.mem_cons]
      constructor
      · rintro (rfl | hmem)
        · exact .inl rfl
        · refine .inr ⟨hmem, ?_⟩
          rcases List.mem_cons.mp hmem with rfl | hmem
          · exact heq
          · have hlow := hhead e hmem
            omega
      · rintro (rfl | ⟨hmem, -⟩)
        · exact .inl rfl
        · exact .inr hmem

theorem sorted_insertOrReplace {t : ImportSpill.Table} (hsorted : t.Pairwise (·.1 < ·.1)) (k : ℕ) (b : Bytes) :
    (t.insertOrReplace k b).Pairwise (·.1 < ·.1) := by
  induction t with
  | nil => simp [ImportSpill.Table.insertOrReplace]
  | cons e' t ih =>
    obtain ⟨hhead, htail⟩ := List.pairwise_cons.mp hsorted
    rw [ImportSpill.Table.insertOrReplace]
    split_ifs with hlt heq
    · refine List.pairwise_cons.mpr ⟨fun e he => ?_, ih htail⟩
      rcases (mem_insertOrReplace htail).mp he with rfl | ⟨hmem, -⟩
      · exact hlt
      · exact hhead e hmem
    · exact List.pairwise_cons.mpr ⟨fun e he => heq ▸ hhead e he, htail⟩
    · refine List.pairwise_cons.mpr ⟨fun e he => ?_, hsorted⟩
      rcases List.mem_cons.mp he with rfl | he
      · simp only
        omega
      · have hlow := hhead e he
        simp only
        omega

theorem insertGroups_spec {rows : List Group} {parts : ℕ → ImportSpill.Table} {p : ℕ}
    (hsorted : (parts p).Pairwise (·.1 < ·.1))
    (hkeys : (rows.filter (·.partition = p)).Pairwise (·.seq < ·.seq)) :
    (rows.foldl insertGroup parts p).Pairwise (·.1 < ·.1) ∧ ∀ e, e ∈ rows.foldl insertGroup parts p ↔
        (∃ g ∈ rows, g.partition = p ∧ e = (g.seq, g.bytes)) ∨ e ∈ parts p ∧ ∀ g ∈ rows, g.partition = p → g.seq ≠ e.1 := by
  induction rows generalizing parts with
  | nil => exact ⟨hsorted, by simp⟩
  | cons g rows ih =>
    rw [List.foldl_cons]
    by_cases hp : g.partition = p
    · rw [List.filter_cons_of_pos (by simpa using hp)] at hkeys
      obtain ⟨hfirst, hrest⟩ := List.pairwise_cons.mp hkeys
      have hinsert : insertGroup parts g p = (parts p).insertOrReplace g.seq g.bytes := by
        simp [insertGroup, hp]
      have hsorted' : (insertGroup parts g p).Pairwise (·.1 < ·.1) :=
        hinsert ▸ sorted_insertOrReplace hsorted g.seq g.bytes
      obtain ⟨hall, hmem⟩ := ih hsorted' hrest
      refine ⟨hall, fun e => ?_⟩
      rw [hmem e, hinsert, mem_insertOrReplace hsorted]
      constructor
      · rintro (⟨g', hg', hp', rfl⟩ | ⟨rfl | ⟨he, hne⟩, hrows⟩)
        · exact .inl ⟨g', List.mem_cons_of_mem g hg', hp', rfl⟩
        · exact .inl ⟨g, List.mem_cons_self, hp, rfl⟩
        · refine .inr ⟨he, fun g' hg' hp' => ?_⟩
          rcases List.mem_cons.mp hg' with rfl | hg'
          · exact Ne.symm hne
          · exact hrows g' hg' hp'
      · rintro (⟨g', hg', hp', rfl⟩ | ⟨he, hrows⟩)
        · rcases List.mem_cons.mp hg' with rfl | hg'
          · refine .inr ⟨.inl rfl, fun later hlater hlp => ?_⟩
            exact (hfirst later (List.mem_filter.mpr ⟨hlater, by simpa using hlp⟩)).ne'
          · exact .inl ⟨g', hg', hp', rfl⟩
        · exact .inr ⟨.inr ⟨he, Ne.symm (hrows g List.mem_cons_self hp)⟩,
            fun g' hg' hp' => hrows g' (List.mem_cons_of_mem g hg') hp'⟩
    · rw [List.filter_cons_of_neg (by simpa using hp)] at hkeys
      have hinsert : insertGroup parts g p = parts p := by
        simp [insertGroup, Function.update_of_ne (Ne.symm hp)]
      have hsorted' : (insertGroup parts g p).Pairwise (·.1 < ·.1) := hinsert ▸ hsorted
      have hrest := ih hsorted' hkeys
      refine ⟨hrest.1, fun e => ?_⟩
      rw [hrest.2 e, hinsert]
      simp [hp]

theorem nodup_keys {rows : List Group} (h : ∀ p, (rows.filter (·.partition = p)).Pairwise (·.seq < ·.seq)) :
    (rows.map fun g => (g.partition, g.seq)).Nodup := by
  induction rows with
  | nil => exact List.nodup_nil
  | cons g rows ih =>
    rw [List.map_cons, List.nodup_cons]
    refine ⟨fun hmem => ?_, ih fun p => (h p).sublist ((List.sublist_cons_self g rows).filter _)⟩
    obtain ⟨g', hg', heq⟩ := List.mem_map.mp hmem
    obtain ⟨hp, hseq⟩ := Prod.mk.inj heq
    have hsorted := h g.partition
    rw [List.filter_cons_of_pos (by simp)] at hsorted
    have hlt := (List.pairwise_cons.mp hsorted).1 g' (List.mem_filter.mpr ⟨hg', by simpa using hp⟩)
    omega

theorem table_eq_of_mem {t t' : ImportSpill.Table} (h : t.Pairwise (·.1 < ·.1)) (h' : t'.Pairwise (·.1 < ·.1))
    (hmem : ∀ e, e ∈ t ↔ e ∈ t') : t = t' := by
  have hnodup {t : ImportSpill.Table} (h : t.Pairwise (·.1 < ·.1)) : t.Nodup :=
    h.imp fun hlt heq => by simp [heq] at hlt
  have hperm : t.Perm t' := (List.perm_ext_iff_of_nodup (hnodup h) (hnodup h')).mpr hmem
  exact List.Perm.eq_of_pairwise (fun a b _ _ hab hba => absurd hab hba.asymm) h h' hperm

/-! ## The invariant -/

section

variable {f : Fflate} {n : ℕ} {batches : List StagedBatch}

def histRows (f : Fflate) (hist : List (ℕ × List Bytes)) : ImportSpill.Table :=
  hist.map fun e => (e.1, (packed e.2).finish f)

/-- The rows the slice at this state commits for a partition. -/
def NextRow (f : Fflate) (n : ℕ) (s : BucketState) (p : ℕ) (e : ℕ × Bytes) : Prop :=
  ∃ fed, stepBucket f n s = .ok fed ∧ ∃ g ∈ committed f n s fed, g.partition = p ∧ e = (g.seq, g.bytes)

/-- A partition's table: the groups `hist` of the batches consumed, and rows the next slice writes again. -/
structure Held (f : Fflate) (n : ℕ) (batches : List StagedBatch) (s : BucketState) (p : ℕ)
    (hist : List (ℕ × List Bytes)) : Prop where
  sorted : hist.Pairwise (·.1 < ·.1)
  under : ∀ e ∈ hist, e.1 < s.bucket_batch_done * 128
  headed : ∀ e ∈ hist, (lengthPrefixed e.2).length < 2 ^ 32
  drafts : p < n → hist.flatMap (·.2) = (batches.take s.bucket_batch_done).flatMap (·.draftsOf n p)
  table : (s.draft_parts p).Pairwise (·.1 < ·.1)
  kept : ∀ e ∈ histRows f hist, e ∈ s.draft_parts p
  left : ∀ e ∈ s.draft_parts p, e ∈ histRows f hist ∨ NextRow f n s p e

structure Inv (f : Fflate) (n : ℕ) (batches : List StagedBatch) (s : BucketState) : Prop where
  le : s.bucket_batch_done ≤ batches.length
  rows : s.draft_batches = rowsFrom f s.bucket_batch_done (batches.drop s.bucket_batch_done)
  phase : s.phase = .agg → s.bucket_batch_done = batches.length
  parts : ∀ p, ∃ hist, Held f n batches s p hist

theorem inv_start : Inv f n batches (.start f batches) where
  le := Nat.zero_le _
  rows := rfl
  phase h := by cases h
  parts p := ⟨[], by
    constructor <;> simp [BucketState.start, histRows]⟩

variable {s : BucketState}

theorem Inv.reads (hf : f.Documented) (hn : 0 < n) (h : Inv f n batches s) :
    ∃ fed, stepBucket f n s = .ok fed ∧ Reads f n s.bucket_batch_done (batches.drop s.bucket_batch_done) fed := by
  have hstart : Views f s.bucket_batch_done .empty
      (groupsOf f n ((batches.drop s.bucket_batch_done).take 0) fun _ => .empty) := by
    intro p
    simpa using view_empty f s.bucket_batch_done p
  rw [stepBucket, h.rows]
  exact fetchRows_reads hf hn (Nat.zero_le _) hstart

theorem Held.under_next (hf : f.Documented) {p : ℕ} {hist : List (ℕ × List Bytes)}
    (h : Held f n batches s p hist) {fed : Fed} (hreads : Reads f n s.bucket_batch_done (batches.drop s.bucket_batch_done) fed)
    {g : Group} (hg : g ∈ committed f n s fed) (hp : g.partition = p) {e : ℕ × Bytes} (he : e ∈ histRows f hist) :
    e.1 < g.seq := by
  have hmem : g ∈ (committed f n s fed).filter (·.partition = p) := List.mem_filter.mpr ⟨hg, by simpa using hp⟩
  rw [filter_committed hreads] at hmem
  obtain ⟨e', he', rfl⟩ := List.mem_map.mp he
  exact (h.under e' he').trans_le (seq_rowsOf hf hmem).1

theorem Inv.stopped (hf : f.Documented) (hn : 0 < n) (h : Inv f n batches s) {fed : Fed}
    (hstep : stepBucket f n s = .ok fed) (writes : ℕ) :
    Inv f n batches { s with draft_parts := (fed.st.written.take writes).foldl insertGroup s.draft_parts } := by
  obtain ⟨fed', hstep', hreads⟩ := h.reads hf hn
  obtain rfl := Except.ok.inj (hstep.symm.trans hstep')
  refine ⟨h.le, h.rows, h.phase, fun p => ?_⟩
  obtain ⟨hist, hheld⟩ := h.parts p
  have hwritten : ∀ g ∈ fed.st.written.take writes, g ∈ committed f n s fed := fun g hg =>
    mem_committed_of_written hreads (List.mem_of_mem_take hg)
  have hkeys : ((fed.st.written.take writes).filter (·.partition = p)).Pairwise (·.seq < ·.seq) := by
    have hall : (fed.st.written.filter (·.partition = p)).Pairwise (·.seq < ·.seq) := by
      rw [(hreads.views p).written]
      exact pairwise_rowsOf p _
    exact hall.sublist ((List.take_sublist _ _).filter _)
  obtain ⟨hsorted, hmem⟩ := insertGroups_spec hheld.table hkeys
  refine ⟨hist, hheld.sorted, hheld.under, hheld.headed, hheld.drafts, hsorted, fun e he => ?_, fun e he => ?_⟩
  · exact (hmem e).mpr (.inr ⟨hheld.kept e he, fun g hg hp =>
      (hheld.under_next hf hreads (hwritten g hg) hp he).ne'⟩)
  · rcases (hmem e).mp he with ⟨g, hg, hp, rfl⟩ | ⟨he, -⟩
    · exact .inr ⟨fed, hstep, g, hwritten g hg, hp, rfl⟩
    · exact hheld.left e he

/-- The groups a slice adds to a partition's history. -/
def sliceHist (f : Fflate) (n done : ℕ) (batches : List StagedBatch) (p : ℕ) : List (ℕ × List Bytes) :=
  (sliceGroups f n batches p).mapIdx fun i entries => (done * 128 + i, entries)

theorem mem_histRows_sliceHist {done p : ℕ} {taken : List StagedBatch} {e : ℕ × Bytes} :
    e ∈ histRows f (sliceHist f n done taken p) ↔ ∃ g ∈ rowsOf f done p (sliceGroups f n taken p), e = (g.seq, g.bytes) := by
  simp only [histRows, sliceHist, rowsOf, List.mem_map, List.mem_mapIdx]
  constructor
  · rintro ⟨e', ⟨i, hi, rfl⟩, rfl⟩
    exact ⟨_, ⟨i, hi, rfl⟩, rfl⟩
  · rintro ⟨g, ⟨i, hi, rfl⟩, rfl⟩
    exact ⟨_, ⟨i, hi, rfl⟩, rfl⟩

theorem sliceHist_spec (hf : f.Documented) (done p : ℕ) (taken : List StagedBatch) :
    (sliceHist f n done taken p).Pairwise (·.1 < ·.1) ∧
      (∀ e ∈ sliceHist f n done taken p, done * 128 ≤ e.1 ∧ e.1 < (done + taken.length) * 128 ∧
        (lengthPrefixed e.2).length < 2 ^ 32) ∧
      (sliceHist f n done taken p).flatMap (·.2) = (sliceGroups f n taken p).flatten := by
  refine ⟨?_, fun e he => ?_, ?_⟩
  · rw [sliceHist, List.pairwise_iff_getElem]
    intro i j hi hj hij
    simp only [List.getElem_mapIdx]
    omega
  · obtain ⟨i, hi, rfl⟩ := List.mem_mapIdx.mp he
    have hle := length_sliceGroups_le (n := n) hf taken p
    refine ⟨by simp, ?_, headed_sliceGroups (List.getElem_mem hi)⟩
    simp only
    omega
  · have hmap : (sliceHist f n done taken p).map (·.2) = sliceGroups f n taken p :=
      List.ext_getElem (by simp [sliceHist]) (by simp [sliceHist])
    rw [List.flatMap_def, hmap]

theorem Inv.through (hf : f.Documented) (hn : 0 < n) (h : Inv f n batches s) {fed : Fed}
    (hstep : stepBucket f n s = .ok fed) :
    Inv f n batches
      { draft_batches := s.draft_batches.filter fun row =>
          ¬ (s.bucket_batch_done ≤ row.seq ∧ row.seq < s.bucket_batch_done + fed.fed)
        draft_parts := (committed f n s fed).foldl insertGroup s.draft_parts
        bucket_batch_done := s.bucket_batch_done + fed.fed
        phase := if fed.exhausted then .agg else s.phase } := by
  obtain ⟨fed', hstep', hreads⟩ := h.reads hf hn
  obtain rfl := Except.ok.inj (hstep.symm.trans hstep')
  have hle := hreads.le
  rw [List.length_drop] at hle
  have hdone := h.le
  refine ⟨by simp only; omega, ?_, fun hphase => ?_, fun p => ?_⟩
  · have hfilter := filter_rowsFrom (f := f) s.bucket_batch_done fed.fed (batches.drop s.bucket_batch_done) hreads.le
    rw [List.drop_drop] at hfilter
    simp only [h.rows]
    rw [← hfilter]
    refine List.filter_congr fun row hrow => ?_
    have hlow := (seq_rowsFrom hrow).1
    simp only [decide_eq_decide]
    omega
  · simp only at hphase ⊢
    split_ifs at hphase with hex
    · have hall := hreads.exhausted hex
      rw [List.length_drop] at hall
      omega
    · have hall := h.phase hphase
      omega
  · obtain ⟨hist, hheld⟩ := h.parts p
    set taken := (batches.drop s.bucket_batch_done).take fed.fed with htaken
    have hlength : taken.length = fed.fed := by simp [htaken, hle]
    have hfilter : (committed f n s fed).filter (·.partition = p) =
        rowsOf f s.bucket_batch_done p (sliceGroups f n taken p) := filter_committed hreads p
    have hrows : ∀ g, g ∈ rowsOf f s.bucket_batch_done p (sliceGroups f n taken p) ↔
        g ∈ committed f n s fed ∧ g.partition = p := by
      intro g
      rw [← hfilter, List.mem_filter, decide_eq_true_eq]
    have hkeys : ((committed f n s fed).filter (·.partition = p)).Pairwise (·.seq < ·.seq) :=
      hfilter ▸ pairwise_rowsOf p _
    obtain ⟨hsorted, hmem⟩ := insertGroups_spec hheld.table hkeys
    obtain ⟨hslice, hbounds, hflat⟩ := sliceHist_spec (n := n) hf s.bucket_batch_done p taken
    refine ⟨hist ++ sliceHist f n s.bucket_batch_done taken p, ?_, fun e he => ?_, fun e he => ?_, fun hp => ?_,
      hsorted, fun e he => (hmem e).mpr ?_, fun e he => .inl ?_⟩
    · refine List.pairwise_append.mpr ⟨hheld.sorted, hslice, fun a ha b hb => ?_⟩
      exact (hheld.under a ha).trans_le (hbounds b hb).1
    · simp only
      rcases List.mem_append.mp he with he | he
      · have hunder := hheld.under e he
        omega
      · have hunder := (hbounds e he).2.1
        omega
    · rcases List.mem_append.mp he with he | he
      · exact hheld.headed e he
      · exact (hbounds e he).2.2
    · rw [List.flatMap_append, hheld.drafts hp, hflat, flatten_sliceGroups taken hp, ← List.flatMap_append,
        htaken, ← List.take_add]
    · rw [histRows, List.map_append] at he
      rcases List.mem_append.mp he with he | he
      · refine .inr ⟨hheld.kept e he, fun g hg hp => (hheld.under_next hf hreads hg hp he).ne'⟩
      · obtain ⟨g, hg, rfl⟩ := mem_histRows_sliceHist.mp he
        obtain ⟨hg, hp⟩ := (hrows g).mp hg
        exact .inl ⟨g, hg, hp, rfl⟩
    · rw [histRows, List.map_append, List.mem_append]
      have hcommit : ∀ g ∈ committed f n s fed, g.partition = p →
          (g.seq, g.bytes) ∈ histRows f (sliceHist f n s.bucket_batch_done taken p) := fun g hg hp =>
        mem_histRows_sliceHist.mpr ⟨g, (hrows g).mpr ⟨hg, hp⟩, rfl⟩
      rcases (hmem e).mp he with ⟨g, hg, hp, rfl⟩ | ⟨he, hnot⟩
      · exact .inr (hcommit g hg hp)
      · -- A row an earlier attempt left is one the slice has just written again.
        rcases hheld.left e he with he | ⟨fed', hstep', g, hg, hp, rfl⟩
        · exact .inl he
        · obtain rfl := Except.ok.inj (hstep.symm.trans hstep')
          exact absurd rfl (hnot g hg hp)

theorem Inv.alarm (hf : f.Documented) (hn : 0 < n) {s s' : BucketState} (h : Inv f n batches s) {event : BucketAlarm}
    (hstep : bucketAlarm f n s event = some s') : Inv f n batches s' := by
  obtain ⟨fed, hslice, -⟩ := h.reads hf hn
  unfold bucketAlarm at hstep
  split_ifs at hstep
  rw [hslice] at hstep
  cases event with
  | stopped writes =>
    obtain rfl := Option.some.inj hstep
    exact h.stopped hf hn hslice writes
  | through =>
    obtain rfl := Option.some.inj hstep
    exact h.through hf hn hslice

/-! ## The end of the phase -/

theorem readDrafts_histRows (hf : f.Documented) {hist : List (ℕ × List Bytes)}
    (h : ∀ e ∈ hist, (lengthPrefixed e.2).length < 2 ^ 32) :
    readDrafts f (histRows f hist) = .ok (hist.flatMap (·.2)) := by
  have hmap : (histRows f hist).mapM (fun e => do
      let raw ← unpackBlob f e.2
      splitBatch raw) = .ok (hist.map (·.2)) := by
    induction hist with
    | nil => rfl
    | cons e hist ih =>
      have he := h e List.mem_cons_self
      rw [histRows, List.map_cons, List.mapM_cons]
      simp only [unpackBlob_finish hf he]
      change (do
        let first ← splitBatch (lengthPrefixed e.2)
        let rest ← (histRows f hist).mapM _
        pure (first :: rest)) = _
      rw [ImportSpill.splitBatch_lengthPrefixed (fits_of_headed he), ih fun e' he' => h e' (List.mem_cons_of_mem e he')]
      rfl
  rw [readDrafts, hmap, List.flatMap_def]
  rfl

/-- **Bucketing is exactly once.** Over any staged batches, partition count and alarms, each of which may have died
    after any of its writes or run through: when the phase is over no source batch is left, and each partition's rows,
    read by ascending `seq`, hold exactly the staged drafts whose hash names it, each once, in staging order. And at
    every state on the way the slice writes its groups under distinct keys, from its first batch's to those of the
    first batch it leaves. -/
theorem bucketed_exactly_once (hf : f.Documented) (hn : 0 < n) {events : List BucketAlarm} {s : BucketState}
    (h : Runs.Reaches (bucketAlarm f n) (.start f batches) events s) :
    (s.phase = .agg → s.draft_batches = [] ∧
      ∀ p < n, readDrafts f (s.draft_parts p) = .ok (batches.flatMap (·.draftsOf n p))) ∧
    ∃ fed, stepBucket f n s = .ok fed ∧
      (∀ g ∈ committed f n s fed,
        s.bucket_batch_done * 128 ≤ g.seq ∧ g.seq < (s.bucket_batch_done + fed.fed) * 128) ∧
      ((committed f n s fed).map fun g => (g.partition, g.seq)).Nodup := by
  have hinv : Inv f n batches s := h.stateInvariant inv_start fun hinv hstep => hinv.alarm hf hn hstep
  obtain ⟨fed, hslice, hreads⟩ := hinv.reads hf hn
  refine ⟨fun hphase => ?_, fed, hslice, fun g hg => ?_, ?_⟩
  · have hdone := hinv.phase hphase
    have hrest : batches.drop s.bucket_batch_done = [] := by simp [hdone]
    refine ⟨by rw [hinv.rows, hrest]; rfl, fun p hp => ?_⟩
    obtain ⟨hist, hheld⟩ := hinv.parts p
    have htable : s.draft_parts p = histRows f hist := by
      have hsorted : (histRows f hist).Pairwise (·.1 < ·.1) := List.pairwise_map.mpr hheld.sorted
      refine table_eq_of_mem hheld.table hsorted fun e => ⟨fun he => ?_, hheld.kept e⟩
      rcases hheld.left e he with he | ⟨fed', hslice', g, hg, hp', -⟩
      · exact he
      · obtain rfl := Except.ok.inj (hslice.symm.trans hslice')
        have hnone : g ∈ (committed f n s fed).filter (·.partition = p) :=
          List.mem_filter.mpr ⟨hg, by simpa using hp'⟩
        rw [filter_committed hreads, hrest] at hnone
        simp [sliceGroups, Groups.all, Groups.empty, rowsOf] at hnone
    have htaken : batches.take s.bucket_batch_done = batches := by simp [hdone]
    rw [htable, readDrafts_histRows hf hheld.headed, hheld.drafts hp, htaken]
  · have hmem : g ∈ (committed f n s fed).filter (·.partition = g.partition) := List.mem_filter.mpr ⟨hg, by simp⟩
    rw [filter_committed hreads] at hmem
    have hbounds := seq_rowsOf hf hmem
    rwa [List.length_take_of_le hreads.le] at hbounds
  · refine nodup_keys fun p => ?_
    rw [filter_committed hreads]
    exact pairwise_rowsOf p _

end

/-! ## A run -/

def storedBlock (raw : Bytes) : Bytes :=
  1 :: (Bytes.ofNatLE 2 raw.length ++ (Bytes.ofNatLE 2 (65535 - raw.length) ++ raw))

def storing : Fflate where
  deflateSync := storedBlock
  emitted chunks := chunks.flatten.length
  finished chunks := storedBlock chunks.flatten
  inflateSync bytes := bytes.drop 5

theorem storing_documented : storing.Documented where
  inflate_deflate _ := rfl
  inflate_finished _ := rfl
  emitted_le chunks := by
    simp only [storing]
    omega

def threeDrafts : StagedBatch where
  drafts := [[7], [8, 8], [9]]
  hashes := [4, 1, 6]
  parallel := rfl
  sized := .inr (by decide)
  headed := by decide

/-- A killed slice, and the one that ran again. -/
theorem bucketed_exactly_once_threeDrafts :
    ∃ s, Runs.Reaches (bucketAlarm storing 2) (.start storing [threeDrafts]) [.stopped 1, .through] s ∧
      s.phase = .agg ∧ s.draft_batches = [] ∧
      ∀ p < 2, readDrafts storing (s.draft_parts p) = .ok ([threeDrafts].flatMap (·.draftsOf 2 p)) := by
  have hphase : (Runs.run (bucketAlarm storing 2) (.start storing [threeDrafts]) [.stopped 1, .through]).map (·.phase) =
      some .agg := by decide +kernel
  obtain ⟨s, hrun, hagg⟩ := Option.map_eq_some_iff.mp hphase
  have hreach := Runs.reaches_iff.mpr hrun
  exact ⟨s, hreach, hagg, (bucketed_exactly_once storing_documented (by decide) hreach).1 hagg⟩

end Bucket
