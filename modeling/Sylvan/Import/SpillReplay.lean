-- SUMMARY: What a sealed spill replays: the last draft of each id, whole or cut into partitions.
import Sylvan.Data.LastWins
import Sylvan.Import.DraftSpill

/-!
# Replaying a spill

Every draft was appended, repeats included, and each repeat noted the record it superseded.
Replay passes over those, and so does the cut into partitions.
-/

namespace DraftSpill

open Corpus Bytes

/-! ## Superseded records -/

/-- What the aggregation keeps of some rows, by the ids of each. -/
structure Aggregated {α : Type} (id : α → Text) (agg : CorpusAggregator) (rows : List α) : Prop where
  byId : agg.byId = LastWins.positions id .empty rows.zipIdx
  /-- The place an id is at is a row of the id. -/
  at_ : ∀ {key i}, agg.byId.get key = some i → ∃ a, (a, i) ∈ rows.zipIdx ∧ id a = key
  below : ∀ i ∈ agg.superseded, i < rows.length
  superseded : ∀ e ∈ rows.zipIdx, e.2 ∈ agg.superseded ↔ agg.byId.get (id e.1) ≠ some e.2

variable {α : Type} {id : α → Text} {agg : CorpusAggregator} {rows : List α}

theorem Aggregated.observe (h : Aggregated id agg rows) (a : α) :
    Aggregated id (agg.observe rows.length (id a)) (rows ++ [a]) := by
  have hzip : (rows ++ [a]).zipIdx = rows.zipIdx ++ [(a, rows.length)] := by simp [List.zipIdx_append]
  have hlt : ∀ e ∈ rows.zipIdx, e.2 < rows.length := fun e he => by simpa using List.snd_lt_of_mem_zipIdx he
  have hin : ∀ i, i ∈ (agg.observe rows.length (id a)).superseded ↔ i ∈ agg.superseded ∨ agg.byId.get (id a) = some i := by
    intro i
    unfold CorpusAggregator.observe
    cases agg.byId.get (id a) with
    | none => simp
    | some prev => simp [JsSet.mem_add, eq_comm (a := i)]
  have hget : ∀ key, (agg.observe rows.length (id a)).byId.get key = if id a = key then some rows.length else agg.byId.get key :=
    fun key => JsMap.get_set ..
  have hbelow : ∀ i, i ∈ (agg.observe rows.length (id a)).superseded → i < rows.length := by
    intro i hi
    rcases (hin i).mp hi with hi | hi
    · exact h.below i hi
    · obtain ⟨b, hb, -⟩ := h.at_ hi
      exact hlt _ hb
  refine ⟨?_, ?_, fun i hi => ?_, ?_⟩
  · rw [hzip, LastWins.positions, LastWins.overwrite, List.foldl_append]
    exact congrArg (JsMap.set · (id a) rows.length) h.byId
  · intro key i hi
    rw [hget] at hi
    rw [hzip]
    split at hi
    · obtain rfl := Option.some.inj hi
      exact ⟨a, by simp, ‹_›⟩
    · obtain ⟨b, hb, hkey⟩ := h.at_ hi
      exact ⟨b, by simp [hb], hkey⟩
  · rw [List.length_append, List.length_singleton]
    exact (hbelow i hi).trans (Nat.lt_succ_self _)
  · intro e he
    rw [hget]
    rw [hzip] at he
    rcases List.mem_append.mp he with he | he
    · rw [hin, h.superseded e he]
      by_cases hkey : id a = id e.1
      · have hne : rows.length ≠ e.2 := (hlt e he).ne'
        rw [if_pos hkey, hkey]
        simp only [ne_eq, Option.some.injEq, hne, not_false_eq_true, iff_true]
        tauto
      · have hother : agg.byId.get (id a) ≠ some e.2 := by
          intro hat
          obtain ⟨b, hb, hid⟩ := h.at_ hat
          have hsame : b = e.1 := by
            have hb' := List.mk_mem_zipIdx_iff_getElem?.mp hb
            have he' := List.mk_mem_zipIdx_iff_getElem?.mp he
            exact Option.some.inj (hb'.symm.trans he')
          exact hkey (hid.symm.trans (congrArg id hsame))
        rw [if_neg hkey]
        tauto
    · obtain rfl := List.mem_singleton.mp he
      rw [if_pos rfl]
      simp only [ne_eq, not_true_eq_false, iff_false]
      exact fun hmem => lt_irrefl _ (hbelow _ hmem)

theorem Aggregated.last (h : Aggregated id agg rows) :
    (rows.zipIdx.filter fun e => e.2 ∉ agg.superseded).map Prod.fst = LastWins.last id rows := by
  rw [← LastWins.filter_positions .empty rows 0, ← h.byId]
  congr 1
  apply List.filter_congr
  intro e he
  simp [h.superseded e he]

/-! ## The records of a spill -/

variable {ρ Row : Type} {json : DraftJson ρ}

abbrev Stored (ρ : Type) : Type := RowDraft ρ × Bytes

def recordOf (e : Stored ρ) : Record := (fnv1a64OracleId e.1.oracleId, e.2)

/-- What a sealed spill holds of its drafts. -/
structure Holds (json : DraftJson ρ) (spill : Spill) (stored : List (Stored ρ)) : Prop where
  written : Written json spill (stored.map recordOf)
  encoded : ∀ e ∈ stored, json.toWriter e.1 = .ok e.2
  records : spill.records = stored.length
  aggregated : Aggregated (fun e : Stored ρ => e.1.scryfallId) spill.agg stored

theorem Holds.push {spill : Spill} {stored : List (Stored ρ)} (h : Holds json spill stored) {draft : RowDraft ρ} {blob : Bytes}
    (hblob : json.toWriter draft = .ok blob) (hlen : blob.length < 2 ^ 32) :
    Holds json (spill.push draft blob) (stored ++ [(draft, blob)]) := by
  refine ⟨?_, ?_, ?_, ?_⟩
  · rw [List.map_append]
    exact h.written.push hblob hlen
  · intro e he
    rcases List.mem_append.mp he with he | he
    · exact h.encoded e he
    · obtain rfl := List.mem_singleton.mp he
      exact hblob
  · simp [Spill.push, h.records]
  · have hobserve := h.aggregated.observe (draft, blob)
    rw [← h.records] at hobserve
    exact hobserve

theorem holds_spillOf {drafts : List (RowDraft ρ)} {spill : Spill} (hspill : spillOf json drafts = .ok spill) :
    ∃ stored, stored.map Prod.fst = drafts ∧ Holds json spill stored := by
  have hrun : ∀ (drafts : List (RowDraft ρ)) (before : Spill) (stored : List (Stored ρ)), Holds json before stored →
      drafts.foldlM (append json) before = .ok spill →
      ∃ more, more.map Prod.fst = drafts ∧ Holds json spill (stored ++ more) := by
    intro drafts
    induction drafts with
    | nil =>
      intro before stored h hrun
      cases hrun
      exact ⟨[], rfl, by rwa [List.append_nil]⟩
    | cons draft drafts ih =>
      intro before stored h hrun
      rw [List.foldlM_cons] at hrun
      obtain ⟨next, happend, hrun⟩ := Throws.ok_of_bind hrun
      obtain ⟨blob, hblob, hlen, rfl⟩ := append_ok happend
      obtain ⟨more, hmore, hholds⟩ := ih _ _ (h.push hblob hlen) hrun
      exact ⟨(draft, blob) :: more, by rw [List.map_cons, hmore], by rwa [List.append_assoc] at hholds⟩
  exact hrun drafts {} [] ⟨⟨rfl, rfl, by simp⟩, by simp, rfl, ⟨rfl, by simp, by simp, by simp⟩⟩ hspill

/-! ## Replay -/

theorem rowsOf_stored {rows : FinalizedRows ρ Row} {stored : List (Stored ρ)}
    (hreads : ∀ e ∈ stored, rows.json.fromSlice e.2 = .ok e.1) (index : ℕ) :
    rows.rowsOf index (stored.map recordOf) =
      (((stored.zipIdx index).filter fun e => !rows.superseded.any (e.2 ∈ ·)).map Prod.fst).map fun e => rows.finalize e.1 := by
  induction stored generalizing index with
  | nil => rfl
  | cons e stored ih =>
    rw [List.map_cons, FinalizedRows.rowsOf, FinalizedRows.rowOf, ih (fun e he => hreads e (by simp [he])), List.zipIdx_cons]
    by_cases hskip : rows.superseded.any (index ∈ ·) = true
    · rw [if_pos hskip, List.filter_cons_of_neg (by simp [hskip])]
      rfl
    · rw [if_neg hskip, List.filter_cons_of_pos (by simpa using hskip), recordOf, hreads e (by simp)]
      rfl

theorem replay_stored {rows : FinalizedRows ρ Row} {stored : List (Stored ρ)}
    (hdecodes : ∀ e ∈ stored, Decodes rows.json (recordOf e)) (hreads : ∀ e ∈ stored, rows.json.fromSlice e.2 = .ok e.1) :
    rows.collect 0 ((stored.map recordOf).flatMap (record rows.framed)) =
      (((stored.zipIdx.filter fun e => !rows.superseded.any (e.2 ∈ ·)).map Prod.fst).map fun e => rows.finalize e.1, none) := by
  rw [collect_whole, rowsOf_stored hreads]
  intro r hr
  obtain ⟨e, he, rfl⟩ := List.mem_map.mp hr
  exact hdecodes e he

/-- **A sealed spill replays the last draft of each id, and each to one partition.** Where drafts are read back as
they were written: the whole spill gives their rows in order, and a partition's file those of its cards. -/
theorem spill_replays (json : DraftJson ρ) (finalize : RowDraft ρ → Row) {drafts : List (RowDraft ρ)} {spill : Spill}
    (hjson : ∀ d ∈ drafts, ∀ blob, json.toWriter d = .ok blob → json.fromSlice blob = .ok d)
    (hspill : spillOf json drafts = .ok spill) :
    spill.rows json finalize spill.file = ((LastWins.last (fun d : RowDraft ρ => d.scryfallId) drafts).map finalize, none) ∧
      ∀ n, ∃ files, spill.demux n = .ok files ∧ ∀ k, partitionRows json finalize (files k) =
        (((LastWins.last (fun d : RowDraft ρ => d.scryfallId) drafts).filter fun d =>
          fnv1a64OracleId d.oracleId % n = k).map finalize, none) := by
  obtain ⟨stored, rfl, h⟩ := holds_spillOf hspill
  have hreads : ∀ e ∈ stored, json.fromSlice e.2 = .ok e.1 :=
    fun e he => hjson e.1 (List.mem_map_of_mem he) e.2 (h.encoded e he)
  have hdecodes : ∀ e ∈ stored, Decodes json (recordOf e) := fun e he => h.written.decodes _ (List.mem_map_of_mem he)
  rw [LastWins.last_map, ← h.aggregated.last]
  constructor
  · rw [Spill.rows, h.written.file]
    refine (@replay_stored _ _ ⟨json, true, some spill.agg.superseded, finalize⟩ _ hdecodes hreads).trans ?_
    simp [List.map_map, Function.comp_def]
  · intro n
    refine ⟨_, by rw [Spill.demux, h.written.file, demuxFrom_eq n _ fun r hr => (h.written.decodes r hr).1], fun k => ?_⟩
    rw [List.nil_append, kept_map]
    refine (@replay_stored _ _ ⟨json, false, none, finalize⟩ _ (fun e he => hdecodes e (mem_kept he))
      fun e he => hreads e (mem_kept he)).trans ?_
    simp [kept, List.map_map, Function.comp_def, List.filter_map, List.filter_filter, recordOf, and_comm]

theorem spill_replays_repeated : ∃ spill, spillOf sampleJson [sample, { sample with rest := [] }] = .ok spill ∧
    spill.rows sampleJson RowDraft.rest spill.file = ([[]], none) := by
  obtain ⟨spill, hspill⟩ : ∃ spill, spillOf sampleJson [sample, { sample with rest := [] }] = .ok spill := ⟨_, rfl⟩
  refine ⟨spill, hspill, (spill_replays sampleJson RowDraft.rest ?_ hspill).1⟩
  intro d hd blob hblob
  cases hblob
  rcases List.mem_pair.mp hd with rfl | rfl <;> rfl

end DraftSpill
