-- SUMMARY: The rows a partition emits: the last draft of each of its ids, finalized as the whole corpus would have it.
import Sylvan.Import.DraftSpill
import Sylvan.Import.PartitionTables
import Sylvan.Import.PrintingRanks

/-!
# A partition's rows

The second pass walks a partition's drafts as the first did and finalizes those at the
winning positions. What a row is told of its card is gathered from the partition alone; a
card lies in one partition, so that is what the whole corpus would have told it.
-/

namespace Corpus

variable {ρ ω R : Type} (engine : CardEngine) (finalizeRow : FinalizeRow ρ ω R)

/-- The partition's drafts, in their order. -/
def draftsOf (p n : ℕ) (drafts : List (RowDraft ρ)) : List (RowDraft ρ) :=
  drafts.filter fun d => partitionOf n d.oracleId = p

/-- The rows of the second pass, batch after batch. -/
def finalizeBatches (batches : List (List (RowDraft ρ))) (s : ImportState ω × List R) : Option (ImportState ω × List R) :=
  batches.foldlM (fun s batch => (finalizeDrafts engine finalizeRow batch s.1).map fun next => (next.1, s.2 ++ next.2)) s

/-- Both passes over a partition: `seen` are the batches of the first, `batches` those of the second. -/
def partitionRows (p n : ℕ) (tags : TagData ω) (tables : Pulled ω) (seen batches : List (List (RowDraft ρ))) :
    Option (List R) := do
  let s ← restorePartition p n tags tables seen
  let finalized ← finalizeBatches engine finalizeRow batches (s, [])
  return finalized.2

/-! ## The second pass -/

theorem finalizeDraft_run (batch : List (RowDraft ρ)) (s : ImportState ω) (rows : List R) :
    batch.foldl (finalizeDraft engine finalizeRow) (s, rows) =
      ({ s with finalizePos := s.finalizePos + batch.length },
        rows ++ ((batch.zipIdx s.finalizePos).filter fun e => s.agg.winnerPos.get e.1.scryfallId = some e.2).map fun e =>
          (draftLookups engine s.tags s.agg.cards).row finalizeRow e.1) := by
  induction batch generalizing s rows with
  | nil => simp
  | cons d batch ih =>
    rw [List.foldl_cons, finalizeDraft, List.zipIdx_cons]
    by_cases hwins : s.agg.winnerPos.get d.scryfallId = some s.finalizePos
    · rw [if_neg (not_not.mpr hwins), ih, List.filter_cons_of_pos (by simpa using hwins), List.map_cons]
      simp [Nat.add_comm, Nat.add_left_comm]
    · rw [if_pos hwins, ih, List.filter_cons_of_neg (by simpa using hwins)]
      simp [Nat.add_comm, Nat.add_left_comm]

theorem finalizeBatches_run (batches : List (List (RowDraft ρ))) {s : ImportState ω} (h : s.staging = true) (rows : List R) :
    finalizeBatches engine finalizeRow batches (s, rows) =
      some (batches.flatten.foldl (finalizeDraft engine finalizeRow) (s, rows)) := by
  induction batches generalizing s rows with
  | nil => rfl
  | cons batch batches ih =>
    have hbatch : finalizeDrafts engine finalizeRow batch s =
        some (batch.foldl (finalizeDraft engine finalizeRow) (s, [])) := by
      rw [finalizeDrafts, h]
      rfl
    rw [finalizeBatches, List.foldlM_cons, hbatch, List.flatten_cons, List.foldl_append,
      finalizeDraft_run engine finalizeRow batch s [], finalizeDraft_run engine finalizeRow batch s rows, List.nil_append]
    exact ih (s := { s with finalizePos := s.finalizePos + batch.length }) h _

theorem partitionRows_run {p n : ℕ} {tags : TagData ω} {tables : Pulled ω} {s : ImportState ω}
    {seen batches : List (List (RowDraft ρ))} (hrun : restorePartition p n tags tables seen = some s)
    (hpos : s.finalizePos = 0) (hstaging : s.staging = true)
    (hwinner : s.agg.winnerPos = LastWins.positions (fun d : RowDraft ρ => d.scryfallId) .empty seen.flatten.zipIdx)
    (hbatches : batches.flatten = seen.flatten) :
    partitionRows engine finalizeRow p n tags tables seen batches =
      some ((LastWins.last (fun d : RowDraft ρ => d.scryfallId) seen.flatten).map
        ((draftLookups engine s.tags s.agg.cards).row finalizeRow)) := by
  have hrows : ∀ es : List (RowDraft ρ × ℕ), (es.map fun e => (draftLookups engine s.tags s.agg.cards).row finalizeRow e.1) =
      (es.map Prod.fst).map ((draftLookups engine s.tags s.agg.cards).row finalizeRow) := by
    intro es
    rw [List.map_map]
    rfl
  rw [partitionRows, hrun]
  dsimp only [bind, Option.bind]
  rw [finalizeBatches_run engine finalizeRow batches hstaging, finalizeDraft_run, hbatches, hpos, hwinner, hrows,
    LastWins.filter_positions]
  rfl

/-! ## What the rows are told -/

theorem cards_agree (tags : TagData ω) {l l' : List Observed} {d : RowDraft ρ} (h : SameCard d.oracleId l l') :
    Lookups.Agree (draftLookups engine tags (.of tags.labels l)) (draftLookups engine tags (.of tags.labels l')) d := by
  have htag : RelatedCards.tag (l.foldl RelatedCards.observe []) d = RelatedCards.tag (l'.foldl RelatedCards.observe []) d := by
    simp only [RelatedCards.tag, related_same h]
  obtain ⟨isTags, heq⟩ := tag_eq (l.foldl RelatedCards.observe []) d
  have hcard : SameCard (RelatedCards.tag (l.foldl RelatedCards.observe []) d).oracleId l l' := by
    rw [heq]
    exact h
  refine ⟨htag, rfl, rfl, rfl, rfl, ?_, rank_same engine tags.labels hcard, ?_, rfl, rfl⟩
  · dsimp only [draftLookups, CardTables.of, isPinned, PinnedPrintings.contains]
    cases hkey : pinKey (RelatedCards.tag (l.foldl RelatedCards.observe []) d).toObserved with
    | none => rfl
    | some key => simp only [Option.any_some, pins_same hcard tags.labels (pinKey_oracleId hkey)]
  · simp only [draftLookups, CardTables.of, FunnyCards.isFunny, funny_same hcard]

theorem sameCard_draftsOf {p n : ℕ} (drafts : List (RowDraft ρ)) {d : RowDraft ρ} (hd : d ∈ draftsOf p n drafts) :
    SameCard d.oracleId ((draftsOf p n drafts).map RowDraft.toObserved) (drafts.map RowDraft.toObserved) := by
  have hp : partitionOf n d.oracleId = p := of_decide_eq_true (List.mem_filter.mp hd).2
  intro a ha
  constructor
  · intro hmem
    obtain ⟨b, hb, rfl⟩ := List.mem_map.mp hmem
    exact List.mem_map_of_mem (List.mem_filter.mp hb).1
  · intro hmem
    obtain ⟨b, hb, rfl⟩ := List.mem_map.mp hmem
    exact List.mem_map_of_mem (List.mem_filter.mpr ⟨hb, decide_eq_true (by rw [ha, hp])⟩)

/-- The whole corpus' answers: the tags, the tables of a snapshot and every draft's card facts. -/
def wholeLookups (tags : TagData ω) (snapshot : CorpusTables ω) (drafts : List (RowDraft ρ)) : Lookups ρ ω :=
  draftLookups engine { tags with corpus := snapshot } (.of tags.labels (drafts.map RowDraft.toObserved))

/-- **A partition's rows are the whole corpus' rows of its cards.** However both passes batch its drafts. -/
theorem partitionRows_eq {p n : ℕ} (hp : p < n) (tags : TagData ω) {tables : Pulled ω} {snapshot : CorpusTables ω}
    (htables : tables.tables = some snapshot) (hsealed : snapshot.isSealed) {drafts : List (RowDraft ρ)}
    (hsep : ∀ d ∈ drafts, ∀ ill, d.illustrationId = some ill → SEP ∉ ill) {seen batches : List (List (RowDraft ρ))}
    (hseen : seen.flatten = draftsOf p n drafts) (hbatches : batches.flatten = draftsOf p n drafts) :
    partitionRows engine finalizeRow p n tags tables seen batches =
      some ((LastWins.last (fun d : RowDraft ρ => d.scryfallId) (draftsOf p n drafts)).map
        ((wholeLookups engine tags snapshot drafts).row finalizeRow)) := by
  obtain ⟨corpus, -, hinstance⟩ := restorePartition_eq hp tags htables hsealed seen
  have hin : ∀ d ∈ seen.flatten, partitionOf n d.oracleId = p := by
    rw [hseen]
    exact fun d hd => of_decide_eq_true (List.mem_filter.mp hd).2
  have hplain : ∀ d ∈ seen.flatten, ∀ ill, d.illustrationId = some ill → SEP ∉ ill := by
    rw [hseen]
    exact fun d hd => hsep d (List.mem_filter.mp hd).1
  obtain ⟨s, hrun, hagree⟩ := share_agrees engine hp tags htables hsealed hin hplain
  obtain rfl := Option.some.inj (hrun.symm.trans hinstance)
  obtain ⟨-, hcards, hwinner, -, -⟩ := agg_run tags.labels seen.flatten .empty
  rw [partitionRows_run engine finalizeRow hrun rfl rfl hwinner (hbatches.trans hseen.symm), ← hseen]
  congr 1
  apply List.map_congr_left
  intro d hd
  have hd := (LastWins.last_sublist _).subset hd
  refine ((hagree d hd).row finalizeRow).trans ?_
  have htables : (partitionInstance p n tags corpus (seen.flatten.foldl (aggDraft tags.labels) .empty)).agg.cards =
      .of tags.labels ((draftsOf p n drafts).map RowDraft.toObserved) := by
    rw [← hseen, ← CardTables.foldl_observe]
    exact hcards
  rw [htables]
  exact (cards_agree engine { tags with corpus := snapshot } (sameCard_draftsOf drafts (hseen ▸ hd))).row finalizeRow

def bear : RowDraft Bytes := { DraftSpill.sample with illustrationId := some ['i'] }

theorem sep_bear (rest : Bytes) : ∀ ill, { bear with rest := rest }.illustrationId = some ill → SEP ∉ ill := by
  intro ill hill
  obtain rfl : ['i'] = ill := Option.some.inj hill
  decide

end Corpus
