-- SUMMARY: The scores phase: slices that carry the corpus tables from snapshot to snapshot, and what is sealed at its end.
import Sylvan.Data.Runs
import Sylvan.Import.CorpusTables
import Sylvan.Import.PrintingRanks
import Sylvan.Import.Spill

/-!
# The scores phase

A slice restores the tables the last committed one exported, sees more of the staged drafts
and exports the tables again, in one transaction with its cursor. One that dies commits
nothing. The snapshot leaves the index of the names out, and the tables rebuild it when its
size tells that it is stale.
-/

namespace Corpus

variable {ρ ω : Type} (engine : CardEngine) (percent : ℕ → ℕ → ω)

/-! ## Snapshots -/

/-- What `corpus_export` writes and `corpus_restore_pull` reads back. -/
def CorpusTables.snapshot (t : CorpusTables ω) : CorpusTables ω := { t with index := .empty }

theorem isSome_placesOf {pending : List (Text × Option ℤ)} {name : Text} :
    ((placesOf pending).get name).isSome ↔ name ∈ pending.map Prod.fst := by
  rw [show placesOf pending = LastWins.positions Prod.fst .empty pending.zipIdx from rfl]
  constructor
  · intro h
    by_contra hnot
    rw [LastWins.positions, LastWins.get_overwrite_of_notMem] at h
    · cases h
    · rwa [show (fun e : (Text × Option ℤ) × ℕ => e.1.1) = Prod.fst ∘ Prod.fst from rfl, ← List.map_map, List.zipIdx_map_fst]
  · intro h
    obtain ⟨pos, -, hget⟩ := LastWins.exists_get_positions h .empty 0
    rw [hget]
    rfl

/-- The tables some drafts leave of those of the drafts before, whatever the index. -/
def unsealedTables (drafts : List (RowDraft ρ)) (t : CorpusTables ω) : CorpusTables ω :=
  { pending := drafts.foldl (fun perName d => seeName perName (d.cardName, d.edhrecRank)) t.pending
    scores := t.scores
    illust := Gathered.gather (fun d : RowDraft ρ => (illustCountKey d).map (illustGroupKey · d.cardName)) Gathered.tally t.illust
      drafts
    newArt := (drafts.map RowDraft.toObserved).foldl (NewArt.see engine) t.newArt
    index := .empty }

theorem unsealedTables_append (before after : List (RowDraft ρ)) (t : CorpusTables ω) :
    unsealedTables engine (before ++ after) t = unsealedTables engine after (unsealedTables engine before t) := by
  simp [unsealedTables, Gathered.gather, List.foldl_append]

theorem see_spec {t : CorpusTables ω} (h : t.Indexed) (d : RowDraft ρ) :
    (t.see engine d).Indexed ∧ (t.see engine d).snapshot = unsealedTables engine [d] t := by
  have hindex : ∀ name, ((if t.index.entries.length ≠ t.pending.length then placesOf t.pending else t.index).get name).isSome ↔
      name ∈ t.pending.map Prod.fst := by
    intro name
    split
    · exact isSome_placesOf
    · exact h (not_not.mp ‹_›) name
  have hillust : (t.see engine d).illust = (unsealedTables engine [d] t).illust := by
    unfold CorpusTables.see CorpusTables.observe unsealedTables Gathered.gather
    cases hkey : illustCountKey d <;> simp [hkey, Gathered.tally]
  have hpending : (t.see engine d).Indexed ∧ (t.see engine d).pending = seeName t.pending (d.cardName, d.edhrecRank) := by
    unfold CorpusTables.see CorpusTables.observe seeName
    dsimp only
    generalize (if t.index.entries.length ≠ t.pending.length then placesOf t.pending else t.index) = index at hindex
    by_cases hseen : (index.get d.cardName).isSome = true
    · rw [if_pos hseen, if_pos ((hindex d.cardName).mp hseen)]
      exact ⟨fun _ => hindex, rfl⟩
    · rw [if_neg hseen, if_neg (mt (hindex d.cardName).mpr hseen)]
      refine ⟨fun _ name => ?_, rfl⟩
      dsimp only
      rw [JsMap.get_set, List.map_append, List.mem_append, ← hindex name]
      by_cases hname : d.cardName = name <;> simp [hname, eq_comm (a := name)]
  refine ⟨hpending.1, ?_⟩
  calc (t.see engine d).snapshot
      = { pending := (t.see engine d).pending
          scores := t.scores
          illust := (t.see engine d).illust
          newArt := t.newArt.see engine d.toObserved
          index := .empty } := rfl
    _ = unsealedTables engine [d] t := by
      rw [hpending.2, hillust]
      rfl

theorem indexed_empty : (CorpusTables.empty : CorpusTables ω).Indexed := by
  simp [CorpusTables.Indexed, CorpusTables.empty]

theorem foldl_see (drafts : List (RowDraft ρ)) {t : CorpusTables ω} (h : t.Indexed) :
    (drafts.foldl (CorpusTables.see engine) t).snapshot = unsealedTables engine drafts t := by
  induction drafts generalizing t with
  | nil => rfl
  | cons d drafts ih =>
    obtain ⟨hindexed, hsnapshot⟩ := see_spec engine h d
    calc (drafts.foldl (CorpusTables.see engine) (t.see engine d)).snapshot
        = unsealedTables engine drafts (t.see engine d).snapshot := ih hindexed
      _ = unsealedTables engine (d :: drafts) t := by
        rw [hsnapshot, ← unsealedTables_append]
        rfl

/-! ## Slices -/

/-- A row of `draft_batches`: the length it unpacks to, and its drafts. -/
structure DraftBatch (ρ : Type) where
  bytes : ℕ
  drafts : List (RowDraft ρ)

def SCORES_SLICE_RAW_BYTES : ℕ := 24 * ImportSpill.BLOB_GROUP_BYTES
def SCORES_FETCH_ROWS : ℕ := 2

/-- One batch into the tables; refused once they are sealed. -/
def scoresAddDrafts (batch : List (RowDraft ρ)) (t : CorpusTables ω) : Option (CorpusTables ω) :=
  if t.isSealed then none else some (batch.foldl (CorpusTables.see engine) t)

/-- Rows fetched and fed until the slice has its bytes or a fetch comes short: how many, whether one did, the tables. -/
def feedRows (rows : List (DraftBatch ρ)) (fedBytes : ℕ) (t : CorpusTables ω) : Option (ℕ × Bool × CorpusTables ω) :=
  if fedBytes < SCORES_SLICE_RAW_BYTES then do
    let t ← (rows.take SCORES_FETCH_ROWS).foldlM (fun t row => scoresAddDrafts engine row.drafts t) t
    if (rows.take SCORES_FETCH_ROWS).length < SCORES_FETCH_ROWS then return (rows.length, true, t)
    else do
      let rest ← feedRows (rows.drop SCORES_FETCH_ROWS) (fedBytes + ((rows.take SCORES_FETCH_ROWS).map DraftBatch.bytes).sum) t
      return (SCORES_FETCH_ROWS + rest.1, rest.2)
  else return (0, false, t)
termination_by rows.length
decreasing_by
  simp [SCORES_FETCH_ROWS] at *
  omega

/-- What the phase has committed. -/
structure ScoresState (ω : Type) where
  /-- `scores_batch_done`. -/
  batchDone : ℕ
  /-- `corpus_blobs`. -/
  corpus : Option (CorpusTables ω)
  /-- The phase is over. -/
  ended : Bool

def ScoresState.start : ScoresState ω := { batchDone := 0, corpus := none, ended := false }

def ScoresState.restored (s : ScoresState ω) : Option (CorpusTables ω) := if s.batchDone = 0 then some .empty else s.corpus

/-- A slice that commits; `none` where it throws. -/
def stepScores (staged : List (DraftBatch ρ)) (s : ScoresState ω) : Option (ScoresState ω) := do
  let t ← s.restored
  let (fed, exhausted, t) ← feedRows engine (staged.drop s.batchDone) 0 t
  let t := if exhausted then t.seal percent else t
  return { batchDone := s.batchDone + fed, corpus := some t.snapshot, ended := exhausted }

/-- What becomes of a slice. -/
inductive ScoresEvent where
  | commits
  | dies

def scoresStep (staged : List (DraftBatch ρ)) (s : ScoresState ω) : ScoresEvent → Option (ScoresState ω)
  | .commits => if s.ended then none else stepScores engine percent staged s
  | .dies => if s.ended then none else some s

/-! ## What a slice feeds -/

theorem scores_foldl_see (drafts : List (RowDraft ρ)) (t : CorpusTables ω) :
    (drafts.foldl (CorpusTables.see engine) t).scores = t.scores := by
  induction drafts generalizing t with
  | nil => rfl
  | cons d drafts ih => exact ih (t.see engine d)

theorem foldlM_scoresAddDrafts (rows : List (DraftBatch ρ)) {t : CorpusTables ω} (h : t.scores = none) :
    rows.foldlM (fun t row => scoresAddDrafts engine row.drafts t) t =
      some ((rows.flatMap DraftBatch.drafts).foldl (CorpusTables.see engine) t) := by
  induction rows generalizing t with
  | nil => rfl
  | cons row rows ih =>
    have hrow : scoresAddDrafts engine row.drafts t = some (row.drafts.foldl (CorpusTables.see engine) t) := by
      rw [scoresAddDrafts, CorpusTables.isSealed, h]
      rfl
    rw [List.foldlM_cons, hrow, List.flatMap_cons, List.foldl_append]
    exact ih ((scores_foldl_see engine row.drafts t).trans h)

/-- A slice feeds the rows it counts, and all of them where a fetch comes short. Induction on the rows left. -/
theorem feedRows_spec (rows : List (DraftBatch ρ)) (fedBytes : ℕ) {t : CorpusTables ω} (h : t.scores = none) :
    ∃ fed exhausted, feedRows engine rows fedBytes t =
        some (fed, exhausted, ((rows.take fed).flatMap DraftBatch.drafts).foldl (CorpusTables.see engine) t) ∧
      fed ≤ rows.length ∧ (exhausted = true → fed = rows.length) ∧
      (fedBytes < SCORES_SLICE_RAW_BYTES → exhausted = true ∨ 0 < fed) := by
  induction hlength : rows.length using Nat.strong_induction_on generalizing rows fedBytes t with
  | _ length ih =>
    subst hlength
    rw [feedRows]
    by_cases hbytes : fedBytes < SCORES_SLICE_RAW_BYTES
    · rw [if_pos hbytes, foldlM_scoresAddDrafts engine _ h]
      dsimp only [bind, Option.bind]
      by_cases hshort : (rows.take SCORES_FETCH_ROWS).length < SCORES_FETCH_ROWS
      · have htake : rows.take SCORES_FETCH_ROWS = rows := List.take_of_length_le (by simp at hshort; omega)
        rw [if_pos hshort, htake]
        exact ⟨rows.length, true, by simp, le_rfl, fun _ => rfl, fun _ => .inl rfl⟩
      · have hrows : SCORES_FETCH_ROWS ≤ rows.length := by simp at hshort; omega
        obtain ⟨fed, exhausted, hrest, hle, hall, -⟩ := ih (rows.drop SCORES_FETCH_ROWS).length
          (by simp [SCORES_FETCH_ROWS] at hrows ⊢; omega) (rows.drop SCORES_FETCH_ROWS)
          (fedBytes + ((rows.take SCORES_FETCH_ROWS).map DraftBatch.bytes).sum)
          ((scores_foldl_see engine ((rows.take SCORES_FETCH_ROWS).flatMap DraftBatch.drafts) t).trans h) rfl
        rw [if_neg hshort, hrest]
        rw [List.length_drop] at hle hall
        refine ⟨SCORES_FETCH_ROWS + fed, exhausted, ?_, by omega, fun hend => ?_, fun _ => .inr ?_⟩
        · rw [List.take_add, List.flatMap_append, List.foldl_append]
          rfl
        · have hfed := hall hend
          omega
        · exact Nat.add_pos_left (by decide) fed
    · rw [if_neg hbytes]
      exact ⟨0, false, by simp, Nat.zero_le _, by simp, fun hlt => absurd hlt hbytes⟩

/-! ## The run -/

/-- The snapshot is of the batches up to the cursor, and sealed over all of them at the end. -/
def Carries (staged : List (DraftBatch ρ)) (s : ScoresState ω) : Prop :=
  if s.ended then
    s.corpus = some (((staged.flatMap DraftBatch.drafts).foldl (CorpusTables.see engine) .empty).seal percent)
  else
    s.batchDone ≤ staged.length ∧ (s.batchDone ≠ 0 →
      s.corpus = some (unsealedTables engine ((staged.take s.batchDone).flatMap DraftBatch.drafts) .empty))

theorem indexed_unsealedTables (drafts : List (RowDraft ρ)) (t : CorpusTables ω) : (unsealedTables engine drafts t).Indexed := by
  intro hlength name
  have hpending : (unsealedTables engine drafts t).pending = [] := List.length_eq_zero_iff.mp hlength.symm
  rw [hpending]
  simp [unsealedTables]

theorem stepScores_spec {staged : List (DraftBatch ρ)} {s : ScoresState ω} (h : Carries engine percent staged s)
    (hended : s.ended = false) :
    ∃ s', stepScores engine percent staged s = some s' ∧ Carries engine percent staged s' ∧
      (s'.ended = true ∨ s.batchDone < s'.batchDone) := by
  rw [Carries, hended] at h
  obtain ⟨hdone, hcorpus⟩ := h
  have hrestored : s.restored = some (unsealedTables engine ((staged.take s.batchDone).flatMap DraftBatch.drafts) .empty) := by
    unfold ScoresState.restored
    by_cases hzero : s.batchDone = 0
    · rw [if_pos hzero, hzero]
      rfl
    · rw [if_neg hzero, hcorpus hzero]
  obtain ⟨fed, exhausted, hfeed, hle, hall, hmoves⟩ := feedRows_spec engine (staged.drop s.batchDone) 0
    (t := unsealedTables engine ((staged.take s.batchDone).flatMap DraftBatch.drafts) .empty) rfl
  have hsnapshot := foldl_see engine (((staged.drop s.batchDone).take fed).flatMap DraftBatch.drafts)
    (indexed_unsealedTables engine ((staged.take s.batchDone).flatMap DraftBatch.drafts) (.empty : CorpusTables ω))
  rw [← unsealedTables_append, ← List.flatMap_append, ← List.take_add] at hsnapshot
  rw [List.length_drop] at hle hall
  rw [stepScores, hrestored]
  dsimp only [bind, Option.bind]
  rw [hfeed]
  refine ⟨_, rfl, ?_, (hmoves (by decide)).imp id fun hpos => by simpa using hpos⟩
  cases exhausted with
  | true =>
    have hwhole : s.batchDone + fed = staged.length := by
      have hfed := hall rfl
      omega
    rw [hwhole, List.take_length] at hsnapshot
    have hpass := foldl_see engine (staged.flatMap DraftBatch.drafts) (indexed_empty (ω := ω))
    have hsealed := congrArg (fun t : CorpusTables ω => some (t.seal percent)) (hsnapshot.trans hpass.symm)
    exact hsealed
  | false => exact ⟨by dsimp only; omega, fun _ => congrArg some hsnapshot⟩

theorem carries_run {staged : List (DraftBatch ρ)} {events : List ScoresEvent} {s : ScoresState ω}
    (hrun : Runs.run (scoresStep engine percent staged) .start events = some s) : Carries engine percent staged s := by
  refine Runs.run_invariant (P := Carries engine percent staged) (by simp [Carries, ScoresState.start]) ?_ hrun
  intro s s' event _ hs hstep
  cases hended : s.ended with
  | true => cases event <;> simp [scoresStep, hended] at hstep
  | false =>
    cases event with
    | commits =>
      obtain ⟨next, hnext, hcarries, -⟩ := stepScores_spec engine percent hs hended
      obtain rfl : next = s' := by simpa [scoresStep, hended, hnext] using hstep
      exact hcarries
    | dies =>
      obtain rfl : s = s' := by simpa [scoresStep, hended] using hstep
      exact hs

end Corpus
