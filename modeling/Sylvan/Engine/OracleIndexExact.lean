-- SUMMARY: The oracle index holds the card ids with one oracle id, whatever the order and repeats of the pairs.
import Sylvan.Engine.OracleIndex

/-!
# What the index holds

The walk over a sorted bucket keeps the records of the card ids that have one oracle id,
in the order of the ids: a list that the set of pairs determines.
-/

namespace OracleIndex

open Throws OracleIndexBuilder Probe

def Whole (record : Bytes) : Prop := record.length = ORACLE_PAIR_BYTES

/-! ## Records -/

theorem length_of_mem_records {run record : Bytes} (h : record ∈ records run) : Whole record := by
  obtain ⟨i, hi, rfl⟩ := List.mem_map.mp h
  rw [List.mem_range, Nat.lt_div_iff_mul_lt (by decide)] at hi
  rw [Whole, Bytes.subarray, List.length_take, List.length_drop]
  simp only [ORACLE_PAIR_BYTES, ID_BYTES] at hi ⊢
  omega

variable {rs : List Bytes}

theorem length_flatten (h : ∀ r ∈ rs, Whole r) : rs.flatten.length = rs.length * ORACLE_PAIR_BYTES := by
  induction rs with
  | nil => simp
  | cons r rs ih =>
    rw [List.flatten_cons, List.length_append, h r List.mem_cons_self, ih fun s hs => h s (List.mem_cons_of_mem r hs),
      List.length_cons, Nat.succ_mul, Nat.add_comm]

theorem drop_flatten (h : ∀ r ∈ rs, Whole r) (i : ℕ) : rs.flatten.drop (i * ORACLE_PAIR_BYTES) = (rs.drop i).flatten := by
  induction i generalizing rs with
  | zero => rw [Nat.zero_mul, List.drop_zero, List.drop_zero]
  | succ i ih =>
    cases rs with
    | nil => simp
    | cons r rs =>
      have hr : r.length = ORACLE_PAIR_BYTES := h r List.mem_cons_self
      rw [List.flatten_cons, Nat.succ_mul, Nat.add_comm, ← List.drop_drop, ← hr, List.drop_left, hr,
        ih fun s hs => h s (List.mem_cons_of_mem r hs), List.drop_succ_cons]

theorem records_flatten (h : ∀ r ∈ rs, Whole r) : records rs.flatten = rs := by
  rw [records, length_flatten h, Nat.mul_div_cancel _ (by decide)]
  refine List.ext_getElem (by simp) fun i hi hi' => ?_
  have hsplit : rs.drop i = rs[i] :: rs.drop (i + 1) := List.drop_eq_getElem_cons hi'
  have hone : rs[i].length = ORACLE_PAIR_BYTES := h _ (List.getElem_mem hi')
  rw [List.getElem_map, List.getElem_range, Bytes.subarray, drop_flatten h, Nat.add_sub_cancel_left, hsplit,
    List.flatten_cons, ← hone, List.take_left]

theorem card_append_oracle (record : Bytes) : cardOf record ++ oracleOf record = record := List.take_append_drop _ _

/-! ## The order of a bucket -/

theorem comparePairs_eq {a b : Bytes} (ha : Whole a) (hb : Whole b) : comparePairs a b = compareBytes a b := by
  have hlen : (a.take ID_BYTES).length = (b.take ID_BYTES).length := by rw [List.length_take, List.length_take, ha, hb]
  have hsplit := @compareBytes_append _ _ (a.drop ID_BYTES) (b.drop ID_BYTES) hlen
  rw [List.take_append_drop, List.take_append_drop] at hsplit
  have hwhole : ∀ {r : Bytes}, Whole r → (oracleOf r).take ID_BYTES = r.drop ID_BYTES := by
    intro r hr
    refine List.take_of_length_le ?_
    rw [oracleOf, List.length_drop, hr]
    decide
  rw [hsplit, comparePairs, compareIds, compareIds, hwhole ha, hwhole hb]

theorem compareIds_spec {a b : Bytes} (ha : Whole a) (hb : Whole b) : (compareIds a b = .eq ↔ cardOf b = cardOf a) ∧
      (compareIds a b ≠ .gt ↔ order (cardOf a) ≤ order (cardOf b)) ∧
      (compareIds (oracleOf a) (oracleOf b) = .eq ↔ oracleOf b = oracleOf a) := by
  have hcard : (a.take ID_BYTES).length = (b.take ID_BYTES).length := by rw [List.length_take, List.length_take, ha, hb]
  have horacle : (oracleOf a).length = (oracleOf b).length := by rw [oracleOf, oracleOf, List.length_drop, List.length_drop, ha, hb]
  have hlen : (oracleOf b).length ≤ ID_BYTES := by
    rw [oracleOf, List.length_drop, hb]
    decide
  obtain ⟨_, heq, hgt⟩ := compareBytes_spec hcard
  refine ⟨?_, ?_, ?_⟩
  · rw [compareIds, heq, order_injective.eq_iff, eq_comm]
    rfl
  · rw [compareIds, ne_eq, hgt, not_lt]
    rfl
  · rw [compareIds, List.take_of_length_le hlen, List.take_of_length_le (horacle ▸ hlen), (compareBytes_spec horacle).2.1,
      order_injective.eq_iff, eq_comm]

def orderOf (rs : List Bytes) : List Bytes := rs.insertionSort fun a b => comparePairs a b ≠ .gt

theorem orderOf_spec (h : ∀ r ∈ rs, Whole r) :
    (orderOf rs).Perm rs ∧ (orderOf rs).Pairwise fun a b => order (cardOf a) ≤ order (cardOf b) := by
  have hle : ∀ a ∈ rs, ∀ b ∈ rs, comparePairs a b ≠ .gt ↔ order a ≤ order b := by
    intro a ha b hb
    have hlen : a.length = b.length := (h a ha).trans (h b hb).symm
    rw [comparePairs_eq (h a ha) (h b hb), ne_eq, (compareBytes_spec hlen).2.2, not_lt]
  have hsort : orderOf rs = SortedRuns.sortBy order rs := by
    have hmap := List.map_insertionSort (fun a b => comparePairs a b ≠ .gt) (fun a b => order a ≤ order b) id rs hle
    rwa [List.map_id, List.map_id] at hmap
  have hperm : (orderOf rs).Perm rs := List.perm_insertionSort _ rs
  refine ⟨hperm, ?_⟩
  have hpairs := SortedRuns.pairwise_sortBy order rs
  rw [← hsort] at hpairs
  refine hpairs.imp_of_mem fun {a b} ha hb hab => ?_
  have ha' := hperm.mem_iff.mp ha
  have hb' := hperm.mem_iff.mp hb
  refine (compareIds_spec (h a ha') (h b hb')).2.1.mp fun hgt => ?_
  have hpair := (hle a ha' b hb').mpr hab
  rw [comparePairs, hgt] at hpair
  exact hpair rfl

/-! ## The walk -/

/-- What the walk keeps: the records of the card ids with one oracle id, by card id. -/
structure Kept (l kept : List Bytes) : Prop where
  mem : ∀ r, r ∈ kept ↔ r ∈ l ∧ ∀ s ∈ l, cardOf s = cardOf r → oracleOf s = oracleOf r
  sorted : SortedRuns.SortedBy (order ∘ cardOf) kept

theorem keep_kept {l : List Bytes} (hwhole : ∀ r ∈ l, Whole r)
    (h : l.Pairwise fun a b => order (cardOf a) ≤ order (cardOf b)) : Kept l (keep l).1 := by
  induction hn : l.length using Nat.strong_induction_on generalizing l with
  | _ n ih =>
  cases l with
  | nil =>
    rw [keep]
    exact ⟨by simp, List.Pairwise.nil⟩
  | cons record rest =>
    obtain ⟨hle, hrest⟩ := List.pairwise_cons.mp h
    obtain ⟨hrecord, hothers⟩ := List.forall_mem_cons.mp hwhole
    have hcard : ∀ other ∈ rest, decide (compareIds record other = .eq) = true ↔
        order (cardOf other) = order (cardOf record) := by
      intro other hother
      rw [decide_eq_true_iff, (compareIds_spec hrecord (hothers other hother)).1, order_injective.eq_iff]
    obtain ⟨htake, hdrop⟩ := SortedRuns.while_eq_filter hrest hle hcard
    obtain ⟨later, hlater⟩ : ∃ later, later = rest.filter fun other => !decide (compareIds record other = .eq) := ⟨_, rfl⟩
    rw [keep, htake, hdrop, ← hlater]
    have hmem : ∀ r, r ∈ later ↔ r ∈ rest ∧ cardOf r ≠ cardOf record := by
      intro r
      rw [hlater, List.mem_filter, Bool.not_eq_true', Bool.eq_false_iff, ne_eq]
      refine and_congr_right fun hr => ?_
      rw [hcard r hr, order_injective.eq_iff]
    have hafter : Kept later (keep later).1 := by
      have hfew : later.length ≤ rest.length := hlater ▸ List.length_filter_le _ rest
      refine ih later.length (hn ▸ Nat.lt_succ_of_le hfew) (fun r hr => hothers r ((hmem r).mp hr).1) ?_ rfl
      rw [hlater]
      exact hrest.filter _
    -- a record of another card id is kept with the rest
    have hother : ∀ r, cardOf r ≠ cardOf record → (r ∈ (keep later).1 ↔
          r ∈ record :: rest ∧ ∀ s ∈ record :: rest, cardOf s = cardOf r → oracleOf s = oracleOf r) := by
      intro r hne
      rw [hafter.mem, hmem, and_assoc, List.mem_cons, or_iff_right (ne_of_apply_ne cardOf hne), and_iff_right hne]
      refine and_congr_right fun _ => ⟨fun hall s hs hsame => ?_, fun hall s hs hsame => ?_⟩
      · rcases List.mem_cons.mp hs with rfl | hs
        · exact absurd hsame.symm hne
        · exact hall s ((hmem s).mpr ⟨hs, hsame ▸ hne⟩) hsame
      · exact hall s (List.mem_cons_of_mem _ ((hmem s).mp hs).1) hsame
    have hsame : ∀ r, cardOf r = cardOf record → r ∉ (keep later).1 := by
      intro r heq hr
      exact ((hmem r).mp ((hafter.mem r).mp hr).1).2 heq
    split
    · rename_i hconflict
      obtain ⟨other, hin, hdiffers⟩ := List.any_eq_true.mp hconflict
      obtain ⟨hin, hequal⟩ := List.mem_filter.mp hin
      rw [hcard other hin, order_injective.eq_iff] at hequal
      rw [decide_eq_true_iff, ne_eq, (compareIds_spec hrecord (hothers other hin)).2.2] at hdiffers
      refine ⟨fun r => ?_, hafter.sorted⟩
      by_cases hr : cardOf r = cardOf record
      · refine ⟨fun hin => absurd hin (hsame r hr), fun hall => absurd ?_ hdiffers⟩
        exact (hall.2 other (List.mem_cons_of_mem _ hin) (hequal.trans hr.symm)).trans
          (hall.2 record List.mem_cons_self hr.symm).symm
      · exact hother r hr
    · rename_i hagree
      have hone : ∀ s ∈ rest, cardOf s = cardOf record → oracleOf s = oracleOf record := by
        intro s hs heq
        by_contra hne
        refine hagree (List.any_eq_true.mpr ⟨s, List.mem_filter.mpr ⟨hs, ?_⟩, ?_⟩)
        · rw [hcard s hs, heq]
        · rw [decide_eq_true_iff, ne_eq, (compareIds_spec hrecord (hothers s hs)).2.2]
          exact hne
      refine ⟨fun r => ?_, List.pairwise_cons.mpr ⟨fun r hr => ?_, hafter.sorted⟩⟩
      · rw [List.mem_cons]
        by_cases hr : cardOf r = cardOf record
        · rw [or_iff_left (hsame r hr)]
          constructor
          · rintro rfl
            refine ⟨List.mem_cons_self, fun s hs heq => ?_⟩
            rcases List.mem_cons.mp hs with rfl | hs
            · rfl
            · exact hone s hs heq
          · rintro ⟨_, hall⟩
            have horacle := hall record List.mem_cons_self hr.symm
            rw [← card_append_oracle r, ← card_append_oracle record, hr, horacle]
        · rw [or_iff_right (ne_of_apply_ne cardOf hr)]
          exact hother r hr
      · obtain ⟨hin, hne⟩ := (hmem r).mp ((hafter.mem r).mp hr).1
        exact lt_of_le_of_ne (hle r hin) fun heq => hne (order_injective heq).symm

theorem Kept.eq {l l' kept kept' : List Bytes} (h : Kept l kept) (h' : Kept l' kept') (hsame : ∀ r, r ∈ l ↔ r ∈ l') :
    kept = kept' := by
  refine h.sorted.eq_of_perm h'.sorted ((List.perm_ext_iff_of_nodup (List.Nodup.of_map _ h.sorted.nodup_keys)
    (List.Nodup.of_map _ h'.sorted.nodup_keys)).mpr fun r => ?_)
  rw [h.mem, h'.mem]
  simp only [hsame]

/-! ## The builder -/

theorem bucketOf_lt (record : Bytes) : bucketOf record < ORACLE_INDEX_BUCKET_COUNT := by
  have hbyte := (record.headD 0).toNat_lt
  rw [bucketOf, oracleIndexBucketOfByte, Nat.shiftRight_eq_div_pow, ORACLE_INDEX_BUCKET_COUNT]
  omega

def inBucket (b : ℕ) (rs : List Bytes) : List Bytes := rs.filter fun r => bucketOf r = b

theorem inBucket_concat (b : ℕ) (rs : List Bytes) (r : Bytes) :
    inBucket b (rs ++ [r]) = if b = bucketOf r then inBucket b rs ++ [r] else inBucket b rs := by
  rw [inBucket, List.filter_append]
  by_cases h : b = bucketOf r
  · simp [inBucket, h]
  · simp [inBucket, h, Ne.symm h]

def tally (rs : List Bytes) : List ℕ := (List.range ORACLE_INDEX_BUCKET_COUNT).map fun b => (inBucket b rs).length

/-- A bucket sized for all its records, holding those scattered. -/
def stagedAt (rs scattered : List Bytes) (b : ℕ) : Staging :=
  ⟨(inBucket b rs).length * ORACLE_PAIR_BYTES, (inBucket b scattered).flatten⟩

def staged (rs scattered : List Bytes) : List Staging := (List.range ORACLE_INDEX_BUCKET_COUNT).map (stagedAt rs scattered)

variable {isolate : Buffers.Isolate} {rs : List Bytes} {runs : List Bytes}

theorem tally_concat (rs : List Bytes) (r : Bytes) : (tally rs).modify (bucketOf r) (· + 1) = tally (rs ++ [r]) := by
  refine List.ext_getElem (by simp [tally]) fun b hb _ => ?_
  rw [List.getElem_modify]
  simp only [tally, List.getElem_map, List.getElem_range, inBucket_concat]
  by_cases h : bucketOf r = b
  · rw [if_pos h, if_pos h.symm, List.length_append, List.length_singleton]
  · rw [if_neg h, if_neg (Ne.symm h)]

def pairsOf (runs : List Bytes) : List Bytes := runs.flatMap records

theorem whole_pairsOf {record : Bytes} (h : record ∈ pairsOf runs) : Whole record := by
  obtain ⟨run, _, hrecord⟩ := List.mem_flatMap.mp h
  exact length_of_mem_records hrecord

def WholeRuns (runs : List Bytes) : Prop := ∀ run ∈ runs, run.length % ORACLE_PAIR_BYTES = 0

theorem checkRun_ok {run : Bytes} (h : run.length % ORACLE_PAIR_BYTES = 0) : checkRun run = .ok () := if_neg (not_not.mpr h)

theorem count_runs (h : WholeRuns runs) (rs : List Bytes) :
    runs.foldlM count ⟨tally rs, none, false⟩ = .ok ⟨tally (rs ++ pairsOf runs), none, false⟩ := by
  induction runs generalizing rs with
  | nil =>
    simp [pairsOf]
    rfl
  | cons run runs ih =>
    obtain ⟨hrun, hrest⟩ := List.forall_mem_cons.mp h
    have hfold : ∀ (l : List Bytes) (rs : List Bytes),
        l.foldl (fun counts record => counts.modify (bucketOf record) (· + 1)) (tally rs) = tally (rs ++ l) := by
      intro l
      induction l with
      | nil => simp
      | cons r l ih =>
        intro rs
        rw [List.foldl_cons, tally_concat, ih, List.append_assoc, List.singleton_append]
    have hone : count ⟨tally rs, none, false⟩ run = .ok ⟨tally (rs ++ records run), none, false⟩ := by
      rw [count, if_neg (by simp), bind_ok (checkRun_ok hrun), hfold]
      rfl
    rw [List.foldlM_cons, bind_ok hone, ih hrest, List.append_assoc]
    rfl

theorem scatter_staged {before after : List Bytes} {r : Bytes} (h : ∀ s ∈ before ++ r :: after, Whole s) :
    scatter (staged (before ++ r :: after) before) r = .ok (staged (before ++ r :: after) (before ++ [r])) := by
  have hget : (staged (before ++ r :: after) before)[bucketOf r]? = some (stagedAt (before ++ r :: after) before (bucketOf r)) := by
    rw [staged, List.getElem?_map, List.getElem?_range (bucketOf_lt r)]
    rfl
  have hroom : ¬ (stagedAt (before ++ r :: after) before (bucketOf r)).size <
      (stagedAt (before ++ r :: after) before (bucketOf r)).filled.length + ORACLE_PAIR_BYTES := by
    have hmore : (inBucket (bucketOf r) (before ++ r :: after)).length =
        (inBucket (bucketOf r) before).length + ((inBucket (bucketOf r) after).length + 1) := by
      simp [inBucket]
    have hlen := @length_flatten (inBucket (bucketOf r) before) fun s hs =>
      h s (List.mem_append_left _ (List.mem_of_mem_filter hs))
    dsimp only [stagedAt]
    rw [hmore, hlen, Nat.add_mul, Nat.succ_mul]
    omega
  unfold scatter
  rw [hget]
  dsimp only
  rw [if_neg hroom, Except.ok.injEq]
  refine List.ext_getElem (by simp [staged]) fun b hb _ => ?_
  rw [List.getElem_set]
  simp only [staged, List.getElem_map, List.getElem_range, stagedAt, inBucket_concat]
  by_cases heq : bucketOf r = b
  · subst heq
    simp
  · rw [if_neg heq, if_neg (Ne.symm heq)]

theorem scatter_records {before l after : List Bytes} (h : ∀ s ∈ before ++ (l ++ after), Whole s) :
    l.foldlM scatter (staged (before ++ (l ++ after)) before) = .ok (staged (before ++ (l ++ after)) (before ++ l)) := by
  induction l generalizing before with
  | nil =>
    simp
    rfl
  | cons r l ih =>
    rw [List.cons_append] at h ⊢
    rw [List.foldlM_cons, bind_ok (scatter_staged h)]
    have hrest := @ih (before ++ [r]) (by simpa using h)
    simpa using hrest

theorem add_runs (hruns : WholeRuns runs) (h : ∀ s ∈ rs ++ pairsOf runs, Whole s) :
    runs.foldlM (add isolate) ⟨tally (rs ++ pairsOf runs), some (staged (rs ++ pairsOf runs) rs), false⟩ =
      .ok ⟨tally (rs ++ pairsOf runs), some (staged (rs ++ pairsOf runs) (rs ++ pairsOf runs)), false⟩ := by
  induction runs generalizing rs with
  | nil =>
    simp [pairsOf]
    rfl
  | cons run runs ih =>
    obtain ⟨hrun, hrest⟩ := List.forall_mem_cons.mp hruns
    have hone : add isolate ⟨tally (rs ++ (records run ++ pairsOf runs)),
        some (staged (rs ++ (records run ++ pairsOf runs)) rs), false⟩ run =
        .ok ⟨tally (rs ++ (records run ++ pairsOf runs)),
          some (staged (rs ++ (records run ++ pairsOf runs)) (rs ++ records run)), false⟩ := by
      rw [add, if_neg (by simp), bind_ok (checkRun_ok hrun)]
      dsimp only
      rw [pure_bind, bind_ok (@scatter_records rs (records run) (pairsOf runs) h)]
      rfl
    have hsplit : pairsOf (run :: runs) = records run ++ pairsOf runs := rfl
    rw [hsplit, List.foldlM_cons, bind_ok hone]
    have hlater := @ih (rs ++ records run) hrest (by simpa [hsplit] using h)
    rwa [List.append_assoc] at hlater

theorem allocate_staged (h : HEADER_BYTES + rs.length * ORACLE_PAIR_BYTES ≤ isolate.maxBytes) :
    (tally rs).mapM (allocate isolate) = .ok (staged rs []) := by
  have hone : ∀ b, allocate isolate (inBucket b rs).length = .ok (stagedAt rs [] b) := by
    intro b
    have hfew : (inBucket b rs).length * ORACLE_PAIR_BYTES ≤ rs.length * ORACLE_PAIR_BYTES :=
      Nat.mul_le_mul_right _ (List.length_filter_le _ rs)
    have halloc : Buffers.alloc Thrown.range isolate ((inBucket b rs).length * ORACLE_PAIR_BYTES) = .ok _ :=
      if_pos (by omega)
    rw [allocate, bind_ok halloc, List.length_replicate]
    rfl
  rw [tally, List.mapM_map, staged]
  exact mapM_ok fun b _ => hone b

def keptOf (rs : List Bytes) (b : ℕ) : List Bytes := (keep (orderOf (inBucket b rs))).1

theorem keptOf_kept (h : ∀ r ∈ rs, Whole r) (b : ℕ) : Kept (inBucket b rs) (keptOf rs b) := by
  have hwhole : ∀ r ∈ inBucket b rs, Whole r := fun r hr => h r (List.mem_of_mem_filter hr)
  obtain ⟨hperm, hsorted⟩ := orderOf_spec hwhole
  have hkept := keep_kept (fun r hr => hwhole r (hperm.mem_iff.mp hr)) hsorted
  refine ⟨fun r => ?_, hkept.sorted⟩
  rw [keptOf, hkept.mem]
  simp only [hperm.mem_iff]

theorem length_keptOf (h : ∀ r ∈ rs, Whole r) (b : ℕ) : (keptOf rs b).length ≤ rs.length := by
  have hkept := keptOf_kept h b
  have hnodup := List.Nodup.of_map _ hkept.sorted.nodup_keys
  exact (List.subperm_of_subset hnodup fun r hr => List.mem_of_mem_filter ((hkept.mem r).mp hr).1).length_le

def builtOf (rs : List Bytes) : Built where
  buckets := (List.range ORACLE_INDEX_BUCKET_COUNT).map fun b => frame b (keptOf rs b)
  pairCount := ((List.range ORACLE_INDEX_BUCKET_COUNT).map fun b => (keptOf rs b).length).sum
  conflicts := ((List.range ORACLE_INDEX_BUCKET_COUNT).map fun b => (keep (orderOf (inBucket b rs))).2).sum

theorem finish_staged {builder : OracleIndexBuilder} (hwhole : ∀ r ∈ rs, Whole r)
    (h : HEADER_BYTES + rs.length * ORACLE_PAIR_BYTES ≤ isolate.maxBytes) (hopen : builder.finished = false)
    (hstaging : builder.staging.getD (builder.counts.map fun _ => ⟨0, []⟩) = staged rs rs) :
    builder.finish isolate = .ok (builtOf rs) := by
  have hnumbered : (staged rs rs).zipIdx = (List.range ORACLE_INDEX_BUCKET_COUNT).map fun b => (stagedAt rs rs b, b) :=
    List.ext_getElem (by simp [staged]) fun b hb _ => by simp [staged]
  have hone : ∀ b, (finishBucket isolate ∘ fun b => (stagedAt rs rs b, b)) b =
      .ok (frame b (keptOf rs b), (keptOf rs b).length, (keep (orderOf (inBucket b rs))).2) := by
    intro b
    have hbucket : ∀ r ∈ inBucket b rs, Whole r := fun r hr => hwhole r (List.mem_of_mem_filter hr)
    have hrecords : records (stagedAt rs rs b).filled = inBucket b rs := records_flatten hbucket
    have hfew := Nat.mul_le_mul_right ORACLE_PAIR_BYTES (length_keptOf hwhole b)
    have halloc : Buffers.alloc Thrown.range isolate (HEADER_BYTES + (keptOf rs b).length * ORACLE_PAIR_BYTES) = .ok _ :=
      if_pos (by omega)
    have hsize : (stagedAt rs rs b).filled.length = (stagedAt rs rs b).size := length_flatten hbucket
    rw [Function.comp_apply, finishBucket, if_neg (not_not.mpr hsize)]
    dsimp only
    rw [hrecords]
    exact bind_ok halloc
  rw [OracleIndexBuilder.finish, hopen, if_neg (by simp)]
  dsimp only
  rw [hstaging, hnumbered, List.mapM_map, bind_ok (mapM_ok fun b _ => hone b)]
  simp only [List.map_map]
  rfl

theorem encode_eq (hruns : WholeRuns runs) (h : HEADER_BYTES + (pairsOf runs).length * ORACLE_PAIR_BYTES ≤ isolate.maxBytes) :
    encodeOracleIndexBuckets isolate runs = .ok (builtOf (pairsOf runs)) := by
  have hwhole : ∀ r ∈ pairsOf runs, Whole r := fun _ => whole_pairsOf
  have hcount : runs.foldlM count {} = .ok ⟨tally (pairsOf runs), none, false⟩ := count_runs hruns []
  have hadd := @add_runs isolate [] runs hruns hwhole
  rw [List.nil_append] at hadd
  rw [encodeOracleIndexBuckets, bind_ok hcount]
  cases runs with
  | nil =>
    rw [List.foldlM_nil, pure_bind]
    exact finish_staged hwhole h rfl rfl
  | cons run runs =>
    -- the first run allocates the buffers
    have hfirst : add isolate ⟨tally (pairsOf (run :: runs)), none, false⟩ run =
        add isolate ⟨tally (pairsOf (run :: runs)), some (staged (pairsOf (run :: runs)) []), false⟩ run := by
      rw [add, add, if_neg (by simp), if_neg (by simp)]
      dsimp only
      rw [allocate_staged h]
      rfl
    rw [List.foldlM_cons, hfirst, ← List.foldlM_cons, bind_ok hadd]
    exact finish_staged hwhole h rfl rfl

/-! ## The reader -/

theorem length_uuidBytes {uuid : List Char} {id : Bytes} (h : uuidBytes uuid = some id) : id.length = ID_BYTES := by
  obtain ⟨read, _, h⟩ := Option.bind_eq_some_iff.mp h
  split at h
  · rename_i hread
    rw [← Option.some.inj h]
    exact hread.1
  · cases h

theorem drop_frame (b : ℕ) (kept : List Bytes) : (frame b kept).drop HEADER_BYTES = kept.flatten := by
  have hlen : (MAGIC ++ [ORACLE_INDEX_FORMAT_VERSION, UInt8.ofNat b, 0, 0] ++ Bytes.ofNatLE 4 kept.length ++
      ([0, 0, 0, 0] : Bytes)).length = HEADER_BYTES := by
    simp only [List.length_append, Bytes.length_ofNatLE]
    rfl
  rw [frame, ← hlen, List.drop_left]

theorem checkedCount_frame {b : ℕ} {kept : List Bytes} (hb : b < ORACLE_INDEX_BUCKET_COUNT) (h : ∀ r ∈ kept, Whole r)
    (hkept : kept.length < 2 ^ 32) : checkedCount (frame b kept) (some b) = .ok kept.length := by
  have hlength : (frame b kept).length = HEADER_BYTES + kept.length * ORACLE_PAIR_BYTES := by
    simp only [frame, List.length_append, Bytes.length_ofNatLE, length_flatten h]
    rfl
  have hbyte : (UInt8.ofNat b).toNat = b := by
    rw [UInt8.toNat_ofNat']
    exact Nat.mod_eq_of_lt (by rw [ORACLE_INDEX_BUCKET_COUNT] at hb; omega)
  have hcount : (frame b kept).getUint32 8 = some kept.length := by
    have hsub : (frame b kept).subarray 8 (8 + 4) = Bytes.ofNatLE 4 kept.length := rfl
    rw [Bytes.getUint32, if_pos (by rw [hlength, HEADER_BYTES]; omega), hsub, Bytes.toNatLE_ofNatLE]
    exact congrArg some (Nat.mod_eq_of_lt hkept)
  have hmagic : (frame b kept).take MAGIC.length = MAGIC := rfl
  have hversion : (frame b kept).getD 4 0 = ORACLE_INDEX_FORMAT_VERSION := rfl
  have hbucket : (frame b kept).getD 5 0 = UInt8.ofNat b := rfl
  rw [checkedCount, if_neg (by omega), if_neg (not_not.mpr hmagic), if_neg (not_not.mpr hversion),
    if_neg (by rw [hbucket, Option.any_some, hbyte]; simp), hcount]
  exact if_neg (not_not.mpr hlength.symm)

theorem formatUuid_append {oracle : Bytes} (h : oracle.length = ID_BYTES) (rest : Bytes) :
    formatUuid (oracle ++ rest) = formatUuid oracle := by
  rw [formatUuid, formatUuid, ← h, List.take_left, List.take_length]

theorem lookup_frame {kept : List Bytes} {uuid : List Char} {id : Bytes} (h : ∀ r ∈ kept, Whole r)
    (hsorted : SortedRuns.SortedBy (order ∘ cardOf) kept) (hkept : kept.length < 2 ^ 32) (hid : uuidBytes uuid = some id) :
    (∀ r ∈ kept, cardOf r = id → oracleIdLookup (frame (bucketOf id) kept) uuid = .ok (some (formatUuid (oracleOf r)))) ∧
      ((∀ r ∈ kept, cardOf r ≠ id) → oracleIdLookup (frame (bucketOf id) kept) uuid = .ok none) := by
  have hlen := length_uuidBytes hid
  have hdrop : ∀ i : ℕ, (frame (bucketOf id) kept).drop (HEADER_BYTES + i * ORACLE_PAIR_BYTES) = (kept.drop i).flatten := by
    intro i
    rw [← List.drop_drop, drop_frame, drop_flatten h]
  have hcompares : Compares (fun mid =>
      compareIds ((frame (bucketOf id) kept).drop (HEADER_BYTES + mid * ORACLE_PAIR_BYTES)) id)
      (kept.map (order ∘ cardOf)) (order id) := by
    have hspec : ∀ i (hi : i < kept.length),
        compareIds ((frame (bucketOf id) kept).drop (HEADER_BYTES + i * ORACLE_PAIR_BYTES)) id =
          compareBytes (cardOf kept[i]) id := by
      intro i hi
      have hwhole : kept[i].length = ORACLE_PAIR_BYTES := h _ (List.getElem_mem hi)
      rw [hdrop, List.drop_eq_getElem_cons hi, List.flatten_cons, compareIds, List.take_append_of_le_length (by rw [hwhole]; decide),
        List.take_of_length_le hlen.le]
      rfl
    have hequal : ∀ i (hi : i < kept.length), (cardOf kept[i]).length = id.length := by
      intro i hi
      have hwhole : kept[i].length = ORACLE_PAIR_BYTES := h _ (List.getElem_mem hi)
      rw [cardOf, List.length_take, hwhole, hlen]
      decide
    constructor
    all_goals
      intro i hi
      rw [List.length_map] at hi
      rw [List.getElem_map, hspec i hi]
    · exact (compareBytes_spec (hequal i hi)).1
    · exact (compareBytes_spec (hequal i hi)).2.1
    · exact (compareBytes_spec (hequal i hi)).2.2
  have hkeys : (kept.map (order ∘ cardOf)).Pairwise (· < ·) := List.pairwise_map.mpr hsorted
  have hrun : oracleIdLookup (frame (bucketOf id) kept) uuid = .ok ((search (fun mid =>
      compareIds ((frame (bucketOf id) kept).drop (HEADER_BYTES + mid * ORACLE_PAIR_BYTES)) id) 0
        (kept.map (order ∘ cardOf)).length).map fun mid =>
          formatUuid ((frame (bucketOf id) kept).drop (HEADER_BYTES + mid * ORACLE_PAIR_BYTES + ID_BYTES))) := by
    rw [oracleIdLookup, hid]
    dsimp only
    rw [bind_ok (checkedCount_frame (bucketOf_lt id) h hkept), List.length_map]
    rfl
  rw [hrun]
  constructor
  · intro r hr heq
    obtain ⟨i, hi, rfl⟩ := List.mem_iff_getElem.mp hr
    have hwhole : kept[i].length = ORACLE_PAIR_BYTES := h _ hr
    have hfound := (search_eq_some hcompares hkeys (i := i)).mpr (by
      rw [List.getElem?_map, List.getElem?_eq_getElem hi, Option.map_some, Function.comp_apply, heq])
    have hlong : ID_BYTES ≤ kept[i].length := by
      rw [hwhole]
      decide
    rw [hfound, Option.map_some, ← List.drop_drop, hdrop, List.drop_eq_getElem_cons hi, List.flatten_cons,
      List.drop_append_of_le_length hlong]
    have horacle : (oracleOf kept[i]).length = ID_BYTES := by
      rw [oracleOf, List.length_drop, hwhole]
      rfl
    exact congrArg (fun s => Except.ok (some s)) (formatUuid_append horacle _)
  · intro hnone
    have hmissed := (search_eq_none hcompares hkeys).mpr (by
      intro hmem
      obtain ⟨r, hr, horder⟩ := List.mem_map.mp hmem
      exact hnone r hr (order_injective horder))
    rw [hmissed]
    rfl

/-! ## The index -/

/-- The runs are whole records, and a buffer holds them. -/
structure Fits (isolate : Buffers.Isolate) (runs : List Bytes) : Prop where
  whole : WholeRuns runs
  room : HEADER_BYTES + (pairsOf runs).length * ORACLE_PAIR_BYTES ≤ isolate.maxBytes

def oraclesOf (runs : List Bytes) (id : Bytes) : List Bytes := ((pairsOf runs).filter fun r => cardOf r = id).map oracleOf

/-- **The oracle index is exact.** Runs with the same pairs, in whatever order and with whatever repeats, have
one index; its buckets answer a card id with its oracle id when the runs pair it with exactly one, and with
nothing when they pair it with none or with several. -/
theorem index_of_pairs (h : Fits isolate runs) :
    ∃ built, encodeOracleIndexBuckets isolate runs = .ok built ∧
      (∀ runs', Fits isolate runs' → (∀ pair, pair ∈ pairsOf runs' ↔ pair ∈ pairsOf runs) →
        ∃ built', encodeOracleIndexBuckets isolate runs' = .ok built' ∧ built'.buckets = built.buckets ∧
          built'.pairCount = built.pairCount) ∧
      ∀ uuid id, uuidBytes uuid = some id → ∃ bucket, built.buckets[bucketOf id]? = some bucket ∧
        (∀ oracle, oracle ∈ oraclesOf runs id → (∀ other ∈ oraclesOf runs id, other = oracle) →
          oracleIdLookup bucket uuid = .ok (some (formatUuid oracle))) ∧
        ((¬ ∃ oracle ∈ oraclesOf runs id, ∀ other ∈ oraclesOf runs id, other = oracle) →
          oracleIdLookup bucket uuid = .ok none) := by
  have hwhole : ∀ {runs : List Bytes}, ∀ r ∈ pairsOf runs, Whole r := fun _ => whole_pairsOf
  refine ⟨_, encode_eq h.whole h.room, ?_, ?_⟩
  · intro runs' h' hsame
    have hkept : ∀ b, keptOf (pairsOf runs') b = keptOf (pairsOf runs) b := by
      intro b
      refine (keptOf_kept hwhole b).eq (keptOf_kept hwhole b) fun r => ?_
      rw [inBucket, inBucket, List.mem_filter, List.mem_filter, hsame]
    refine ⟨_, encode_eq h'.whole h'.room, ?_, ?_⟩
    · simp only [builtOf, hkept]
    · simp only [builtOf, hkept]
  · intro uuid id hid
    have hkept := keptOf_kept (@hwhole runs) (bucketOf id)
    have hlen := length_keptOf (@hwhole runs) (bucketOf id)
    have hmax := isolate.maxBytes_lt
    have hroom := h.room
    simp only [HEADER_BYTES, ORACLE_PAIR_BYTES, ID_BYTES] at hroom
    obtain ⟨hfound, hmissed⟩ := lookup_frame (fun r hr => hwhole r (List.mem_of_mem_filter ((hkept.mem r).mp hr).1))
      hkept.sorted (by omega) hid
    -- a record of the card id is in its bucket
    have hbucket : ∀ r, cardOf r = id → bucketOf r = bucketOf id := by
      rintro r rfl
      cases r with
      | nil => rfl
      | cons x r => rfl
    have hmem : ∀ r, r ∈ inBucket (bucketOf id) (pairsOf runs) ∧ cardOf r = id ↔ r ∈ pairsOf runs ∧ cardOf r = id := by
      intro r
      rw [inBucket, List.mem_filter, and_assoc]
      refine and_congr_right fun _ => and_iff_right_of_imp fun heq => ?_
      rw [decide_eq_true_iff]
      exact hbucket r heq
    have horacles : ∀ {oracle}, oracle ∈ oraclesOf runs id ↔ ∃ r, (r ∈ pairsOf runs ∧ cardOf r = id) ∧ oracleOf r = oracle := by
      intro oracle
      simp [oraclesOf]
    refine ⟨frame (bucketOf id) (keptOf (pairsOf runs) (bucketOf id)), ?_, ?_, ?_⟩
    · simp only [builtOf]
      rw [List.getElem?_map, List.getElem?_range (bucketOf_lt id)]
      rfl
    · intro oracle hin hone
      obtain ⟨r, hr, rfl⟩ := horacles.mp hin
      refine hfound r ((hkept.mem r).mpr ⟨((hmem r).mpr hr).1, fun s hs heq => ?_⟩) hr.2
      exact hone _ (horacles.mpr ⟨s, (hmem s).mp ⟨hs, heq.trans hr.2⟩, rfl⟩)
    · intro hnone
      refine hmissed fun r hr heq => hnone ⟨oracleOf r, ?_, fun other hother => ?_⟩
      · exact horacles.mpr ⟨r, (hmem r).mp ⟨((hkept.mem r).mp hr).1, heq⟩, rfl⟩
      · obtain ⟨s, hs, rfl⟩ := horacles.mp hother
        exact ((hkept.mem r).mp hr).2 s ((hmem s).mpr hs).1 (hs.2.trans heq.symm)

/-- Two pairs of one run, in an isolate of 128 MiB. -/
theorem index_of_two : ∃ built,
    encodeOracleIndexBuckets ⟨134217728, by decide⟩ [List.replicate 32 7 ++ List.replicate 32 9] = .ok built ∧
      ∃ bucket, built.buckets[1]? = some bucket ∧
        oracleIdLookup bucket "07070707-0707-0707-0707-070707070707".toList =
          .ok (some "07070707-0707-0707-0707-070707070707".toList) := by
  obtain ⟨built, hbuilt, _, hlookup⟩ := @index_of_pairs ⟨134217728, by decide⟩
    [List.replicate 32 7 ++ List.replicate 32 9] ⟨by unfold WholeRuns; decide, by decide⟩
  obtain ⟨bucket, hbucket, hone, _⟩ := hlookup "07070707-0707-0707-0707-070707070707".toList (List.replicate 16 7) (by decide)
  exact ⟨built, hbuilt, bucket, hbucket, hone (List.replicate 16 7) (by decide) (by decide)⟩

end OracleIndex
