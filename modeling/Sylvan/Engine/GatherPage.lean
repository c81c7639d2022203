-- SUMMARY: The gathered page against the whole order: which rows it holds, and in which order.
import Mathlib.Data.List.Flatten
import Mathlib.Data.List.Range
import Sylvan.Engine.GatherMerge

/-!
# The page of the whole order

A row is placed by its key and belongs to a partition's printing. The page of a
set of rows is a slice of them in key order; the merge of the partitions' best
rows cuts the same page.
-/

namespace Gather

open SortedRuns
open KeyEntry (key)

/-! ## Rows in key order -/

/-- A row: its key, its partition and its printing there. -/
structure Placed where
  key : Bytes
  partition : ℕ
  vpid : ℕ
  deriving DecidableEq

def Placed.order (row : Placed) : List ℕ := byteOrder row.key

def Placed.owner (row : Placed) : ℕ × ℕ := (row.partition, row.vpid)

def MergedRef.owner (ref : MergedRef) : ℕ × ℕ := (ref.partition, ref.vpid)

/-- Rows `[offset, offset + limit)` of all rows in key order. -/
def pageOf (rows : List Placed) (offset limit : ℕ) : List Placed :=
  ((sortBy Placed.order rows).drop offset).take limit

def place (p : ℕ) (entry : KeyEntry) : Placed :=
  { key := entry.key, partition := p, vpid := entry.vpid }

def Chosen.placed (c : Chosen) : Placed :=
  { key := c.candidate.key, partition := c.partition, vpid := c.candidate.vpid }

def placedIn (streams : Streams) : List Placed :=
  (List.range streams.length).flatMap fun p => (streams.getD p []).map (place p)

def rowOf (streams : Streams) (ref : MergedRef) : Placed :=
  { key := ((entryAt streams ref).map key).getD []
    partition := ref.partition
    vpid := ref.vpid }

theorem sortBy_eq_of_perm {rows rows' : List Placed} (hnodup : (rows.map Placed.order).Nodup)
    (hperm : rows.Perm rows') : sortBy Placed.order rows = sortBy Placed.order rows' :=
  (sortedBy_sortBy hnodup).eq_sortBy ((perm_sortBy _ rows).trans hperm)

theorem map_getD_range (streams : Streams) : (List.range streams.length).map (fun p => streams.getD p []) = streams := by
  refine List.ext_getElem (by simp) fun p hp hp' => ?_
  simp [List.getD_eq_getElem?_getD, List.getElem?_eq_getElem hp']

theorem length_placedIn (streams : Streams) : (placedIn streams).length = streams.flatten.length := by
  have hflat : streams.flatten = (List.range streams.length).flatMap fun p => streams.getD p [] := by
    rw [List.flatMap_def, map_getD_range]
  rw [hflat]
  simp [placedIn, List.length_flatMap, -List.length_flatten]

theorem placedIn_append (streams : Streams) (extra : List KeyEntry) : placedIn (streams ++ [extra]) =
      placedIn streams ++ extra.map (place streams.length) := by
  have hsame : ∀ p ∈ List.range streams.length,
      ((streams ++ [extra]).getD p []).map (place p) = (streams.getD p []).map (place p) := by
    intro p hp
    have hp := List.mem_range.mp hp
    simp [List.getD_eq_getElem?_getD, List.getElem?_append_left hp]
  unfold placedIn
  rw [List.length_append, List.length_singleton, List.range_succ, List.flatMap_append, List.flatMap_congr hsame]
  simp [List.getD_eq_getElem?_getD]

variable {streams : Streams}

theorem mem_placedIn {row : Placed} : row ∈ placedIn streams ↔ row.partition < streams.length ∧
        ∃ (j : ℕ) (entry : KeyEntry), (streams.getD row.partition [])[j]? = some entry ∧
          row = place row.partition entry := by
  simp only [placedIn, List.mem_flatMap, List.mem_range, List.mem_map]
  constructor
  · rintro ⟨p, hp, entry, hentry, rfl⟩
    obtain ⟨j, hj⟩ := List.mem_iff_getElem?.mp hentry
    exact ⟨hp, j, entry, hj, rfl⟩
  · rintro ⟨hp, j, entry, hj, hrow⟩
    exact ⟨row.partition, hp, entry, List.mem_of_getElem? hj, hrow.symm⟩

theorem map_refsFrom {p i : ℕ} {entries : List KeyEntry}
    (hat : ∀ j, entries[j]? = (streams.getD p [])[i + j]?) :
    (refsFrom p i entries).map (rowOf streams) = entries.map (place p) := by
  induction entries generalizing i with
  | nil => rfl
  | cons entry entries ih =>
    have hhead : (streams.getD p [])[i]? = some entry := (hat 0).symm
    have htail : ∀ j, entries[j]? = (streams.getD p [])[i + 1 + j]? := fun j => by
      rw [Nat.add_assoc, Nat.add_comm 1 j]
      exact hat (j + 1)
    rw [refsFrom, List.map_cons, List.map_cons, ih htail]
    simp only [rowOf, entryAt, hhead, place, Option.map_some, Option.getD_some]

theorem map_pending (streams : Streams) : (pending streams fun _ => 0).map (rowOf streams) = placedIn streams := by
  unfold pending placedIn
  rw [List.map_flatMap]
  refine List.flatMap_congr fun p _ => ?_
  rw [List.drop_zero]
  exact map_refsFrom fun j => by rw [Nat.zero_add]

theorem map_mergeKeyStreams (hsorted : ∀ s ∈ streams, SortedBy (byteOrder ∘ key) s)
    (hnodup : ((placedIn streams).map Placed.order).Nodup) :
    (mergeKeyStreams streams).map (rowOf streams) = sortBy Placed.order (placedIn streams) := by
  have hturns : (pending streams fun _ => 0).length < streams.flatten.length + 1 := by
    rw [← length_placedIn, ← map_pending, List.length_map]
    omega
  obtain ⟨hperm, hpair⟩ := mergeLoop_spec hsorted hturns
  have hrows : ((mergeKeyStreams streams).map (rowOf streams)).Perm (placedIn streams) := by
    rw [← map_pending]
    exact hperm.map _
  have hle : ((mergeKeyStreams streams).map (rowOf streams)).Pairwise
      fun a b => a.order ≤ b.order := List.pairwise_map.mpr hpair
  have hkeys := ((hrows.map Placed.order).nodup_iff.mpr hnodup)
  exact (sortedBy_of_le hle hkeys).eq_sortBy hrows

theorem mem_mergeKeyStreams {ref : MergedRef}
    (href : ref ∈ mergeKeyStreams streams) :
    ref.partition < streams.length ∧ ∃ entry, entryAt streams ref = some entry ∧ ref.vpid = entry.vpid :=
  mem_mergeLoop href

theorem length_mergeKeyStreams_le (streams : Streams) : (mergeKeyStreams streams).length ≤ streams.flatten.length := by
  rw [← length_placedIn, ← map_pending, List.length_map]
  exact length_mergeLoop_le _ _ _

/-! ## The rows kept apart, merged in -/

theorem chosenLE_iff {a b : Chosen} : chosenLE a b ↔ a.placed.order < b.placed.order ∨
      (a.placed.order = b.placed.order ∧ a.partition ≤ b.partition) := by
  have hzero : compareKeys a.candidate.key b.candidate.key = 0 ↔ byteOrder a.candidate.key = byteOrder b.candidate.key := by
    rw [le_antisymm_iff, le_antisymm_iff, ← compareKeys_nonneg, ← compareKeys_nonneg, compareKeys_comm b.candidate.key]
    omega
  rw [chosenLE, compareKeys_neg, hzero]
  rfl

instance : Std.Total chosenLE := ⟨fun a b => by
  rw [chosenLE_iff, chosenLE_iff]
  rcases lt_trichotomy a.placed.order b.placed.order with h | h | h
  · exact .inl (.inl h)
  · rcases Nat.le_total a.partition b.partition with hp | hp
    · exact .inl (.inr ⟨h, hp⟩)
    · exact .inr (.inr ⟨h.symm, hp⟩)
  · exact .inr (.inl h)⟩

instance : IsTrans Chosen chosenLE := ⟨fun a b c hab hbc => by
  rw [chosenLE_iff] at hab hbc ⊢
  rcases hab with hab | ⟨hab, hp⟩ <;> rcases hbc with hbc | ⟨hbc, hp'⟩
  · exact .inl (hab.trans hbc)
  · exact .inl (hbc ▸ hab)
  · exact .inl (hab ▸ hbc)
  · exact .inr ⟨hab.trans hbc, hp.trans hp'⟩⟩

def leadRow (streams : ℕ) (chosen : List Chosen) (row : Placed) : Placed :=
  if row.partition = streams then
    match chosen[row.vpid]? with
    | some c => { row with partition := c.partition, vpid := c.candidate.vpid }
    | none => row
  else row

theorem order_leadRow (streams : ℕ) (chosen : List Chosen) : Placed.order ∘ leadRow streams chosen = Placed.order := by
  funext row
  simp only [Function.comp_apply, leadRow]
  split
  · split <;> rfl
  · rfl

theorem owner_leadBack (streams : Streams) (n : ℕ) (chosen : List Chosen) (ref : MergedRef) :
    (leadBack n chosen ref).owner = (leadRow n chosen (rowOf streams ref)).owner := by
  have hvpid : (rowOf streams ref).vpid = ref.vpid := rfl
  simp only [leadBack, leadRow, hvpid]
  by_cases hn : ref.partition = n
  · rw [if_pos hn, if_pos (show (rowOf streams ref).partition = n from hn)]
    cases chosen[ref.vpid]? <;> rfl
  · rw [if_neg hn, if_neg (show ¬ (rowOf streams ref).partition = n from hn)]
    rfl

def extraStream (chosen : List Chosen) : List KeyEntry :=
  chosen.zipIdx.map fun c => { key := c.1.candidate.key, vpid := c.2 }

theorem map_leadRow_extra (n : ℕ) (chosen : List Chosen) :
    ((extraStream chosen).map (place n)).map (leadRow n chosen) = chosen.map Chosen.placed := by
  have hrow : ∀ c ∈ chosen.zipIdx, leadRow n chosen (place n { key := c.1.candidate.key, vpid := c.2 }) = c.1.placed := by
    rintro ⟨c, i⟩ hc
    have hget : chosen[i]? = some c := List.mem_zipIdx_iff_getElem?.mp hc
    simp [leadRow, place, hget, Chosen.placed]
  calc ((extraStream chosen).map (place n)).map (leadRow n chosen)
      = chosen.zipIdx.map fun c => leadRow n chosen
          (place n { key := c.1.candidate.key, vpid := c.2 }) := by
        simp only [extraStream, List.map_map, Function.comp_def]
    _ = chosen.zipIdx.map (Chosen.placed ∘ Prod.fst) := List.map_congr_left hrow
    _ = chosen.map Chosen.placed := by rw [← List.map_map, List.zipIdx_map_fst]

theorem map_leadRow_placedIn (streams : Streams) (chosen : List Chosen) :
    (placedIn streams).map (leadRow streams.length chosen) = placedIn streams := by
  conv_rhs => rw [← List.map_id (placedIn streams)]
  refine List.map_congr_left fun row hrow => ?_
  have hne := (mem_placedIn.mp hrow).1.ne
  simp [leadRow, hne]

theorem extraStream_getElem? (chosen : List Chosen) (i : ℕ) : (extraStream chosen)[i]? =
      chosen[i]?.map fun c => { key := c.candidate.key, vpid := i } := by
  simp only [extraStream, List.getElem?_map, List.getElem?_zipIdx, Nat.zero_add, Option.map_map]
  rfl

variable {chosen : List Chosen}

theorem sortedBy_extraStream (h : SortedBy Placed.order (chosen.map Chosen.placed)) :
    SortedBy (byteOrder ∘ key) (extraStream chosen) := by
  have hkeys : (extraStream chosen).map (byteOrder ∘ key) = (chosen.map Chosen.placed).map Placed.order := by
    refine List.ext_getElem? fun i => ?_
    rw [List.getElem?_map, extraStream_getElem?, List.map_map, List.getElem?_map, Option.map_map]
    rfl
  exact List.pairwise_map.mp (hkeys ▸ List.pairwise_map.mpr h)

theorem mergeApart_eq (streams : Streams) (artless : List (Option ArtlessCandidate))
    (shared : List (Option (List SharedCandidate))) :
    mergeApart streams artless shared = if (apartRows artless shared).length = 0 then (mergeKeyStreams streams, 0)
      else
        ((mergeKeyStreams (streams ++ [extraStream ((apartRows artless shared).insertionSort chosenLE)])).map
          (leadBack streams.length ((apartRows artless shared).insertionSort chosenLE)),
          ((apartRows artless shared).insertionSort chosenLE).length) := rfl

section Apart

variable {streams : Streams} {artless : List (Option ArtlessCandidate)}
  {shared : List (Option (List SharedCandidate))}

theorem mergeApart_apart : (mergeApart streams artless shared).2 = (apartRows artless shared).length := by
  rw [mergeApart_eq]
  split
  · rename_i hzero
    rw [hzero]
  · exact List.length_insertionSort _ _

/-- The rows of the streams and the rows kept apart. -/
def rowsWith (streams : Streams) (chosen : List Chosen) : List Placed :=
  placedIn streams ++ chosen.map Chosen.placed

theorem sortedBy_chosen (hnodup : ((chosen.map Chosen.placed).map Placed.order).Nodup) :
    SortedBy Placed.order ((chosen.insertionSort chosenLE).map Chosen.placed) := by
  refine sortedBy_of_le (List.pairwise_map.mpr ?_) ?_
  · refine (List.pairwise_insertionSort chosenLE chosen).imp fun {a b} hab => ?_
    rcases chosenLE_iff.mp hab with h | ⟨h, -⟩
    · exact h.le
    · exact h.le
  · exact (((List.perm_insertionSort chosenLE chosen).map _).map _).nodup_iff.mpr hnodup

theorem sorted_withExtra (hsorted : ∀ s ∈ streams, SortedBy (byteOrder ∘ key) s)
    (hnodup : ((rowsWith streams chosen).map Placed.order).Nodup) :
    ∀ s ∈ streams ++ [extraStream (chosen.insertionSort chosenLE)], SortedBy (byteOrder ∘ key) s := by
  intro s hs
  rcases List.mem_append.mp hs with hs | hs
  · exact hsorted s hs
  · rw [List.mem_singleton.mp hs]
    refine sortedBy_extraStream (sortedBy_chosen ?_)
    rw [rowsWith, List.map_append] at hnodup
    exact hnodup.of_append_right

theorem map_owner_mergeApart (hsorted : ∀ s ∈ streams, SortedBy (byteOrder ∘ key) s)
    (hnodup : ((rowsWith streams (apartRows artless shared)).map Placed.order).Nodup) :
    (mergeApart streams artless shared).1.map MergedRef.owner =
      (sortBy Placed.order (rowsWith streams (apartRows artless shared))).map Placed.owner := by
  have howner : (MergedRef.owner : MergedRef → ℕ × ℕ) = Placed.owner ∘ rowOf streams := rfl
  rw [mergeApart_eq]
  split
  · rename_i hzero
    have hnone : apartRows artless shared = [] := List.length_eq_zero_iff.mp hzero
    rw [hnone] at hnodup ⊢
    rw [rowsWith, List.map_nil, List.append_nil] at hnodup ⊢
    rw [howner, ← List.map_map, map_mergeKeyStreams hsorted hnodup]
  · set chosen := (apartRows artless shared).insertionSort chosenLE with hchosen
    set all := streams ++ [extraStream chosen] with hall
    have hperm : chosen.Perm (apartRows artless shared) := List.perm_insertionSort _ _
    have hlead : (placedIn all).map (leadRow streams.length chosen) = rowsWith streams chosen := by
      rw [hall, placedIn_append, List.map_append, map_leadRow_placedIn, map_leadRow_extra, rowsWith]
    have hrows : (rowsWith streams chosen).Perm (rowsWith streams (apartRows artless shared)) :=
      (hperm.map _).append_left _
    have hkeys : (placedIn all).map Placed.order = (rowsWith streams chosen).map Placed.order := by
      rw [← hlead, List.map_map, order_leadRow]
    have hall_nodup : ((placedIn all).map Placed.order).Nodup := by
      rw [hkeys]
      exact (hrows.map _).nodup_iff.mpr hnodup
    calc ((mergeKeyStreams all).map (leadBack streams.length chosen)).map MergedRef.owner
        = (((mergeKeyStreams all).map (rowOf all)).map (leadRow streams.length chosen)).map
            Placed.owner := by
          simp only [List.map_map]
          exact List.map_congr_left fun ref _ => owner_leadBack all streams.length chosen ref
      _ = (sortBy Placed.order ((placedIn all).map (leadRow streams.length chosen))).map
            Placed.owner := by
          rw [map_mergeKeyStreams (sorted_withExtra hsorted hnodup) hall_nodup, sortBy_map, order_leadRow]
      _ = (sortBy Placed.order (rowsWith streams (apartRows artless shared))).map Placed.owner := by
          rw [hlead, sortBy_eq_of_perm ((hrows.map _).nodup_iff.mpr hnodup) hrows]

theorem mem_mergeApart {ref : MergedRef} (href : ref ∈ (mergeApart streams artless shared).1) :
    (ref.partition < streams.length ∧ ∃ entry, entryAt streams ref = some entry ∧ ref.vpid = entry.vpid) ∨
      (ref.index = NOT_INLINE ∧ ∃ c ∈ apartRows artless shared,
        ref.partition = c.partition ∧ ref.vpid = c.candidate.vpid) := by
  rw [mergeApart_eq] at href
  split at href
  · exact .inl (mem_mergeKeyStreams href)
  · obtain ⟨inner, hinner, rfl⟩ := List.mem_map.mp href
    obtain ⟨hp, entry, hentry, hvpid⟩ := mem_mergeKeyStreams hinner
    set chosen := (apartRows artless shared).insertionSort chosenLE with hchosen
    by_cases hextra : inner.partition = streams.length
    · -- the extra stream's vpids are places in `chosen`
      right
      have hat : entryAt (streams ++ [extraStream chosen]) inner = (extraStream chosen)[inner.index]? := by
        simp [entryAt, hextra, List.getD_eq_getElem?_getD]
      rw [hat, extraStream_getElem?] at hentry
      obtain ⟨c, hc, rfl⟩ := Option.map_eq_some_iff.mp hentry
      have hget : chosen[inner.vpid]? = some c := hvpid ▸ hc
      have hback : leadBack streams.length chosen inner =
          { partition := c.partition, vpid := c.candidate.vpid, index := NOT_INLINE } := by
        simp [leadBack, hextra, hget]
      rw [hback]
      exact ⟨rfl, c, (List.mem_insertionSort _).mp (List.mem_of_getElem? hget), rfl, rfl⟩
    · left
      have hlt : inner.partition < streams.length := by
        rw [List.length_append, List.length_singleton] at hp
        omega
      have hback : leadBack streams.length chosen inner = inner := by simp [leadBack, hextra]
      have hat : entryAt (streams ++ [extraStream chosen]) inner = entryAt streams inner := by
        simp only [entryAt, List.getD_eq_getElem?_getD, List.getElem?_append_left hlt]
      rw [hback]
      exact ⟨hlt, entry, hat ▸ hentry, hvpid⟩

theorem length_mergeApart_le : (mergeApart streams artless shared).1.length ≤
      streams.flatten.length + (apartRows artless shared).length := by
  rw [mergeApart_eq]
  split
  · exact (length_mergeKeyStreams_le streams).trans (Nat.le_add_right _ _)
  · rw [List.length_map]
    refine (length_mergeKeyStreams_le _).trans (le_of_eq ?_)
    rw [List.flatten_append, List.length_append, List.flatten_singleton, extraStream,
      List.length_map, List.length_zipIdx, List.length_insertionSort]

end Apart

/-! ## The best of each stream suffice -/

theorem getD_map_take (streams : Streams) (bound p : ℕ) :
    (streams.map (List.take bound)).getD p [] = (streams.getD p []).take bound := by
  simp only [List.getD_eq_getElem?_getD, List.getElem?_map]
  cases streams[p]? <;> simp

theorem rowsWith_take_sublist (streams : Streams) (chosen : List Chosen) (bound : ℕ) :
    (rowsWith (streams.map (List.take bound)) chosen).Sublist (rowsWith streams chosen) := by
  refine List.Sublist.append_right ?_ _
  simp only [placedIn, List.length_map, getD_map_take]
  refine List.Sublist.flatMap_right _ fun p _ => ?_
  exact (List.take_sublist _ _).map _

/-- Each stream's best `bound` rows are all a page within `bound` needs of it. -/
theorem take_sortBy_best {bound k : ℕ}
    (hsorted : ∀ s ∈ streams, SortedBy (byteOrder ∘ key) s)
    (hnodup : ((rowsWith streams chosen).map Placed.order).Nodup)
    (hbound : k ≤ bound ∨ ∀ s ∈ streams, s.length ≤ bound) :
    (sortBy Placed.order (rowsWith (streams.map (List.take bound)) chosen)).take k =
      (sortBy Placed.order (rowsWith streams chosen)).take k := by
  set sent := rowsWith (streams.map (List.take bound)) chosen with hsent
  set all := rowsWith streams chosen with hall
  have hsub : sent.Sublist all := rowsWith_take_sublist _ _ _
  have hall_nodup : all.Nodup := List.Nodup.of_map _ hnodup
  have hfilter : (all.filter fun row => row ∈ sent).Perm sent := by
    refine (List.perm_ext_iff_of_nodup (hall_nodup.filter _) (hall_nodup.sublist hsub)).mpr ?_
    intro row
    simp only [List.mem_filter, decide_eq_true_eq]
    exact ⟨fun h => h.2, fun h => ⟨hsub.subset h, h⟩⟩
  have hfilter_nodup : ((all.filter fun row => row ∈ sent).map Placed.order).Nodup :=
    hnodup.sublist (List.filter_sublist.map _)
  rw [← sortBy_eq_of_perm hfilter_nodup hfilter]
  refine take_sortBy_filter hnodup fun row hrow hdropped => ?_
  have hnot : row ∉ sent := by simpa using hdropped
  rw [hall, rowsWith, List.mem_append] at hrow
  rcases hrow with hrow | hrow
  · obtain ⟨hp, j, entry, hj, hplace⟩ := mem_placedIn.mp hrow
    obtain ⟨hlt, hentry⟩ := List.getElem?_eq_some_iff.mp hj
    set s := streams.getD row.partition [] with hs
    have hmem : s ∈ streams := by
      rw [hs, List.getD_eq_getElem?_getD, List.getElem?_eq_getElem hp]
      exact List.getElem_mem hp
    -- a row not sent lies past its stream's first `bound`
    have hpast : bound ≤ j := by
      by_contra hbefore
      refine hnot (List.mem_append_left _ (mem_placedIn.mpr ⟨?_, j, entry, ?_, hplace⟩))
      · rwa [List.length_map]
      · rw [getD_map_take, List.getElem?_take, if_pos (by omega)]
        exact hj
    have hk : k ≤ bound := by
      rcases hbound with h | h
      · exact h
      · have := h s hmem
        omega
    have hbetter : (((s.take bound).map (place row.partition)).countP
        fun other => other.order < row.order) = bound := by
      have hlen : ((s.take bound).map (place row.partition)).length = bound := by
        rw [List.length_map, List.length_take]
        omega
      conv_rhs => rw [← hlen]
      rw [List.countP_eq_length]
      intro other hother
      obtain ⟨better, hbetter, rfl⟩ := List.mem_map.mp hother
      obtain ⟨i, hi, rfl⟩ := List.mem_take_iff_getElem.mp hbetter
      have hrel := List.pairwise_iff_getElem.mp (hsorted s hmem) i j (by omega) hlt (by omega)
      rw [hentry] at hrel
      rw [hplace]
      exact decide_eq_true hrel
    have hstream : ((s.take bound).map (place row.partition)).Sublist all := by
      refine ((List.take_sublist _ _).map _).trans (.trans ?_ (List.sublist_append_left _ _))
      exact List.sublist_flatten_of_mem
        (List.mem_map.mpr ⟨row.partition, List.mem_range.mpr hp, rfl⟩)
    have hcount : bound ≤ all.countP fun other => other.order < row.order :=
      hbetter.symm.trans_le hstream.countP_le
    exact (hk.trans hcount).trans_eq (List.countP_congr fun _ _ => by simp)
  · exact (hnot (List.mem_append_right _ hrow)).elim

/-! ## Which rows are kept apart -/

theorem mem_sharedOffers {shared : List (Option (List SharedCandidate))}
    {offer : ℕ × SharedCandidate} :
    offer ∈ sharedOffers shared ↔ ∃ sent, shared[offer.1]? = some (some sent) ∧ offer.2 ∈ sent := by
  obtain ⟨p, candidate⟩ := offer
  simp only [sharedOffers, List.mem_flatMap, List.mem_map, Prod.exists, List.mem_zipIdx_iff_getElem?, Prod.mk.injEq]
  constructor
  · rintro ⟨sent, q, hq, c, hc, rfl, rfl⟩
    cases sent with
    | none => simp at hc
    | some sent => exact ⟨sent, hq, hc⟩
  · rintro ⟨sent, hsent, hc⟩
    exact ⟨some sent, p, hsent, candidate, hc, rfl, rfl⟩

/-- The choice `best` makes among `offers`: for each artwork offered, an offer no
other of the artwork ranks below. -/
structure Represents (offers : List (ℕ × SharedCandidate)) (best : JsMap Bytes Chosen) : Prop where
  sent : ∀ art c, best.get art = some c → (c.partition, { c.candidate with art }) ∈ offers
  least : ∀ offer ∈ offers, ∃ c, best.get offer.2.art = some c ∧ byteOrder c.candidate.rank ≤ byteOrder offer.2.rank

theorem Represents.set {offers : List (ℕ × SharedCandidate)} {best : JsMap Bytes Chosen}
    {offer : ℕ × SharedCandidate} (h : Represents offers best)
    (hbelow : ∀ held, best.get offer.2.art = some held → byteOrder offer.2.rank ≤ byteOrder held.candidate.rank) :
    Represents (offers ++ [offer]) (best.set offer.2.art
      { partition := offer.1, candidate := offer.2.toArtlessCandidate }) := by
  constructor
  · intro art c hc
    rw [JsMap.get_set] at hc
    split at hc
    · rename_i hart
      cases hc
      subst hart
      exact List.mem_append_right _ (List.mem_singleton.mpr rfl)
    · exact List.mem_append_left _ (h.sent art c hc)
  · intro other hother
    rw [JsMap.get_set]
    split
    · rename_i hart
      refine ⟨_, rfl, ?_⟩
      rcases List.mem_append.mp hother with hother | hother
      · obtain ⟨held, hheld, hle⟩ := h.least other hother
        rw [← hart] at hheld
        exact (hbelow held hheld).trans hle
      · rw [List.mem_singleton.mp hother]
    · rename_i hart
      rcases List.mem_append.mp hother with hother | hother
      · exact h.least other hother
      · exact (hart (by rw [List.mem_singleton.mp hother])).elim

theorem Represents.step {offers : List (ℕ × SharedCandidate)} {best : JsMap Bytes Chosen}
    (h : Represents offers best) (offer : ℕ × SharedCandidate) :
    Represents (offers ++ [offer]) (pickSharedStep best offer) := by
  unfold pickSharedStep
  cases hheld : best.get offer.2.art with
  | none => exact h.set fun held hsome => by rw [hheld] at hsome; cases hsome
  | some held =>
    by_cases hless : compareKeys offer.2.rank held.candidate.rank < 0
    · simp only [if_pos hless]
      refine h.set fun held' hsome => ?_
      rw [Option.some.inj (hsome.symm.trans hheld)]
      exact (compareKeys_neg.mp hless).le
    · simp only [if_neg hless]
      constructor
      · exact fun art c hc => List.mem_append_left _ (h.sent art c hc)
      · intro other hother
        rcases List.mem_append.mp hother with hother | hother
        · exact h.least other hother
        · rw [List.mem_singleton.mp hother]
          exact ⟨held, hheld, compareKeys_nonneg.mp (not_lt.mp hless)⟩

theorem represents_foldl {offers rest : List (ℕ × SharedCandidate)} {best : JsMap Bytes Chosen}
    (h : Represents offers best) : Represents (offers ++ rest) (rest.foldl pickSharedStep best) := by
  induction rest generalizing offers best with
  | nil => simpa using h
  | cons offer rest ih => simpa using ih (h.step offer)

/-- The choice among the art-less candidates of partitions `0, 1, …`. -/
def IsArtless (candidates : List (Option ArtlessCandidate)) : Option Chosen → Prop
  | none => ∀ c ∈ candidates, c = none
  | some best => candidates[best.partition]? = some (some best.candidate) ∧
      ∀ c, some c ∈ candidates → byteOrder best.candidate.rank ≤ byteOrder c.rank

theorem IsArtless.step {candidates : List (Option ArtlessCandidate)} {best : Option Chosen}
    (h : IsArtless candidates best) (offer : Option ArtlessCandidate) :
    IsArtless (candidates ++ [offer]) (pickArtlessStep best (offer, candidates.length)) := by
  have hkeep : ∀ {p : ℕ} {c : ArtlessCandidate}, candidates[p]? = some (some c) →
      (candidates ++ [offer])[p]? = some (some c) := by
    intro p c hp
    rw [List.getElem?_append_left (List.getElem?_eq_some_iff.mp hp).1]
    exact hp
  cases offer with
  | none =>
    cases best with
    | none =>
      intro c hc
      rcases List.mem_append.mp hc with hc | hc
      · exact h c hc
      · exact List.mem_singleton.mp hc
    | some held =>
      refine ⟨hkeep h.1, fun c hc => h.2 c ?_⟩
      simpa using hc
  | some new =>
    cases best with
    | none =>
      refine ⟨by simp, fun c hc => ?_⟩
      rcases List.mem_append.mp hc with hc | hc
      · cases h _ hc
      · cases List.mem_singleton.mp hc
        exact le_rfl
    | some held =>
      by_cases hless : compareKeys new.rank held.candidate.rank < 0
      · simp only [pickArtlessStep, if_pos hless]
        refine ⟨by simp, fun c hc => ?_⟩
        rcases List.mem_append.mp hc with hc | hc
        · exact (compareKeys_neg.mp hless).le.trans (h.2 c hc)
        · cases List.mem_singleton.mp hc
          exact le_rfl
      · simp only [pickArtlessStep, if_neg hless]
        refine ⟨hkeep h.1, fun c hc => ?_⟩
        rcases List.mem_append.mp hc with hc | hc
        · exact h.2 c hc
        · cases List.mem_singleton.mp hc
          exact compareKeys_nonneg.mp (not_lt.mp hless)

theorem isArtless_foldl {candidates rest : List (Option ArtlessCandidate)} {best : Option Chosen}
    (h : IsArtless candidates best) :
    IsArtless (candidates ++ rest)
      ((rest.zipIdx candidates.length).foldl pickArtlessStep best) := by
  induction rest generalizing candidates best with
  | nil => simpa using h
  | cons offer rest ih => simpa using ih (h.step offer)

/-- The rows a `unique=art` answer keeps apart: the best candidate of each shared
artwork, and the best of the art-less ones. -/
def KeptApart (artless : List (Option ArtlessCandidate))
    (shared : List (Option (List SharedCandidate))) (rows : List Chosen) : Prop :=
  ∃ best group, Represents (sharedOffers shared) best ∧ IsArtless artless group ∧
    rows = best.entries.map Prod.snd ++ group.toList

theorem keptApart_apartRows (artless : List (Option ArtlessCandidate))
    (shared : List (Option (List SharedCandidate))) :
    KeptApart artless shared (apartRows artless shared) := by
  have hempty : Represents [] JsMap.empty := ⟨by simp, by simp⟩
  have hnone : IsArtless [] none := by simp [IsArtless]
  exact ⟨_, _, represents_foldl hempty, isArtless_foldl hnone, rfl⟩

/-! ## What a page still owes -/

/-- The vpids of a page's refs of partition `p` past its carried prefix. -/
def owedOf (carried : List ℕ) : (page : List MergedRef) → (p : ℕ) → List ℕ
  | [], _ => []
  | ref :: page, p =>
    if ref.index < carried.getD ref.partition 0 then owedOf carried page p
    else if ref.partition = p then ref.vpid :: owedOf carried page p
    else owedOf carried page p

theorem get_foldl_owe (carried : List ℕ) (page : List MergedRef) (m : JsMap ℕ (List ℕ)) (p : ℕ) :
    (page.foldl (owe carried) m).get p = if owedOf carried page p = [] then m.get p
      else some ((m.get p).getD [] ++ owedOf carried page p) := by
  induction page generalizing m with
  | nil => simp [owedOf]
  | cons ref page ih =>
    rw [List.foldl_cons, ih]
    by_cases hcarried : ref.index < carried.getD ref.partition 0
    · rw [owedOf, if_pos hcarried, owe, if_pos hcarried]
    · rw [owedOf, if_neg hcarried, owe, if_neg hcarried, JsMap.get_update]
      by_cases hp : ref.partition = p
      · subst hp
        by_cases hrest : owedOf carried page ref.partition = []
        · simp [hrest]
        · simp [hrest]
      · simp [hp]

theorem mem_byPartition {merged : List MergedRef} {offset limit : ℕ} {carried : List ℕ} {p : ℕ}
    {vpids : List ℕ} :
    (p, vpids) ∈ (selectPage merged offset limit carried).2.entries ↔
      vpids = owedOf carried (selectPage merged offset limit carried).1 p ∧ vpids ≠ [] := by
  rw [JsMap.mem_entries]
  simp only [selectPage, get_foldl_owe, JsMap.get_empty, Option.getD_none, List.nil_append]
  split
  · rename_i hnone
    simp only [hnone, reduceCtorEq, false_iff, not_and, not_not, imp_self]
  · rename_i hsome
    constructor
    · intro h
      cases h
      exact ⟨rfl, hsome⟩
    · rintro ⟨rfl, -⟩
      rfl

end Gather
