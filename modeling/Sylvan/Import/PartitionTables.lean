-- SUMMARY: One partition of the nightly: its share of the tags and tables, the passes over its drafts, and that its share answers like the whole.
import Sylvan.Import.FinalizeRows

/-!
# A partition's share

A partition's instance restores the tags its own cards can ask for, sees its drafts once to
learn the names and illustrations they show, restores those entries of the other tables, and
sees its drafts again to finalize them.
-/

namespace Corpus

variable {ρ ω R : Type}

/-! ## The instance -/

/-- What the first pass over a partition's drafts leaves. -/
structure AggState where
  /-- The last position of each scryfall id. -/
  winnerPos : JsMap Text ℕ
  cards : CardTables
  sealed : Bool
  positionsSeen : ℕ
  /-- The keys the restores after the pass keep to, taken by them. -/
  names : JsSet Text
  illustrationIds : JsSet Text

def AggState.empty : AggState :=
  { winnerPos := .empty, cards := .empty, sealed := false, positionsSeen := 0, names := [], illustrationIds := [] }

structure ImportState (ω : Type) where
  tags : TagData ω
  agg : AggState
  finalizePos : ℕ
  /-- A store is being staged. -/
  staging : Bool

/-- `reset`. -/
def ImportState.fresh : ImportState ω := { tags := .empty, agg := .empty, finalizePos := 0, staging := false }

/-! ## Restores

A call that fails answers `none`; its caller throws. -/

def partitionOf (n : ℕ) (oracleId : Text) : ℕ := fnv1a64OracleId oracleId % n

inductive Keep where
  | partition (p n : ℕ)
  | keys (set : JsSet Text)

def Keep.kept : Keep → Text → Bool
  | .partition p n, key => partitionOf n key = p
  | .keys set, key => key ∈ set

def filteredMapBy {α : Type} (keep : Keep) (project : Text → Text) (m : JsMap Text α) : JsMap Text α :=
  m.filter fun key _ => keep.kept (project key)

def filteredMap {α : Type} (keep : Keep) (m : JsMap Text α) : JsMap Text α := filteredMapBy keep id m

/-- A snapshot, as the restore after the pass is asked to read it. -/
inductive Pulled (ω : Type) where
  | art (snapshot : TagData ω)
  | corpus (snapshot : CorpusTables ω)
  /-- The tables out of a tag snapshot, where they lived before they had one of their own. -/
  | legacyCorpus (snapshot : TagData ω)

/-- The labels and the slugs whole, the oracle tags of the partition's cards. -/
def tagsRestorePullPartition (p n : ℕ) (snapshot : TagData ω) (s : ImportState ω) : Option (ImportState ω) :=
  if n = 0 ∨ p ≥ n then none
  else some { s with
    tags := { TagData.empty with
      labels := snapshot.labels
      slugs := snapshot.slugs
      oracle := filteredMap (.partition p n) snapshot.oracle } }

/-- A sealed table of the kept names; none of an unsealed one. -/
def partitionCorpus (keep : Keep) (snapshot : CorpusTables ω) : Option (CorpusTables ω) :=
  snapshot.scores.map fun scores =>
    { pending := []
      scores := some (filteredMap keep scores)
      illust := filteredMapBy keep illustKeyName snapshot.illust
      newArt :=
        { leads := filteredMapBy keep illustKeyName snapshot.newArt.leads
          sealed := snapshot.newArt.sealed
          artworks := snapshot.newArt.artworks }
      index := .empty }

/-- The art tags of the partition's illustrations, or the tables of its names. -/
def partitionTablesRestorePull (pulled : Pulled ω) (s : ImportState ω) : Option (ImportState ω) :=
  if !s.agg.sealed then none
  else match pulled with
    | .art snapshot =>
      some { s with
        tags := { s.tags with art := filteredMap (.keys s.agg.illustrationIds) snapshot.art }
        agg := { s.agg with illustrationIds := [] } }
    | .corpus snapshot =>
      (partitionCorpus (.keys s.agg.names) snapshot).map fun corpus =>
        { s with tags := { s.tags with corpus := corpus }, agg := { s.agg with names := [] } }
    | .legacyCorpus snapshot =>
      (partitionCorpus (.keys s.agg.names) snapshot.corpus).map fun corpus =>
        { s with tags := { s.tags with corpus := corpus }, agg := { s.agg with names := [] } }

def Pulled.tables : Pulled ω → Option (CorpusTables ω)
  | .art _ => none
  | .corpus snapshot => some snapshot
  | .legacyCorpus snapshot => some snapshot.corpus

/-! ## The passes -/

def aggDraft (labels : JsSet Text) (agg : AggState) (draft : RowDraft ρ) : AggState :=
  { agg with
    winnerPos := agg.winnerPos.set draft.scryfallId agg.positionsSeen
    cards := agg.cards.observe labels draft.toObserved
    positionsSeen := agg.positionsSeen + 1
    names := agg.names.add draft.cardName
    illustrationIds := (illustrationIds draft.toObserved).foldl JsSet.add agg.illustrationIds }

def aggDrafts (batch : List (RowDraft ρ)) (s : ImportState ω) : Option (ImportState ω) :=
  if s.agg.sealed then none else some { s with agg := batch.foldl (aggDraft s.tags.labels) s.agg }

def aggFinish (s : ImportState ω) : ImportState ω := { s with agg := { s.agg with sealed := true } }

def finalizeBegin (s : ImportState ω) : Option (ImportState ω) :=
  if !s.agg.sealed || !s.tags.corpus.isSealed then none else some { s with finalizePos := 0, staging := true }

section

variable (engine : CardEngine)

/-- The answers `finalize_drafts` asks of the instance's tags and tables. -/
def draftLookups (tags : TagData ω) (cards : CardTables) : Lookups ρ ω :=
  { tag := RelatedCards.tag cards.related
    oracleTags := oracleTagsOf tags
    artTags := artTagsOf tags
    illustrationCount := tags.corpus.illustrationCount
    cubecobra := tags.corpus.cubecobra
    pinned := fun r => isPinned r tags.labels cards.pins
    rank := PrintingRanks.rankOf engine ⟨cards.pins, cards.slots⟩
    isFunny := FunnyCards.isFunny cards.funny
    standing := tags.corpus.newArt.standing engine
    shared := tags.corpus.newArt.isShared }

/-- One draft of the second pass: a row where it is the last of its id. -/
def finalizeDraft (finalizeRow : FinalizeRow ρ ω R) (s : ImportState ω × List R) (draft : RowDraft ρ) :
    ImportState ω × List R :=
  let (s, rows) := s
  let pos := s.finalizePos
  let s := { s with finalizePos := pos + 1 }
  if s.agg.winnerPos.get draft.scryfallId ≠ some pos then (s, rows)
  else (s, rows ++ [(draftLookups engine s.tags s.agg.cards).row finalizeRow draft])

def finalizeDrafts (finalizeRow : FinalizeRow ρ ω R) (batch : List (RowDraft ρ)) (s : ImportState ω) :
    Option (ImportState ω × List R) :=
  if !s.staging then none else some (batch.foldl (finalizeDraft engine finalizeRow) (s, []))

def restorePartition (p n : ℕ) (tags : TagData ω) (tables : Pulled ω) (batches : List (List (RowDraft ρ))) :
    Option (ImportState ω) := do
  let s ← tagsRestorePullPartition p n tags .fresh
  let s ← batches.foldlM (fun s batch => aggDrafts batch s) s
  let s ← partitionTablesRestorePull (.art tags) (aggFinish s)
  let s ← partitionTablesRestorePull tables s
  finalizeBegin s

/-! ## The first pass -/

theorem agg_run (labels : JsSet Text) (drafts : List (RowDraft ρ)) (agg : AggState) :
    (drafts.foldl (aggDraft labels) agg).sealed = agg.sealed ∧ (drafts.foldl (aggDraft labels) agg).cards =
        (drafts.map RowDraft.toObserved).foldl (CardTables.observe labels) agg.cards ∧
      (drafts.foldl (aggDraft labels) agg).winnerPos =
        LastWins.positions (fun d : RowDraft ρ => d.scryfallId) agg.winnerPos (drafts.zipIdx agg.positionsSeen) ∧
      (∀ name, name ∈ (drafts.foldl (aggDraft labels) agg).names ↔ name ∈ agg.names ∨ ∃ d ∈ drafts, d.cardName = name) ∧
      ∀ ill, ill ∈ (drafts.foldl (aggDraft labels) agg).illustrationIds ↔
        ill ∈ agg.illustrationIds ∨ ∃ d ∈ drafts, ill ∈ illustrationIds d.toObserved := by
  induction drafts generalizing agg with
  | nil => exact ⟨rfl, rfl, rfl, by simp, by simp⟩
  | cons d drafts ih =>
    obtain ⟨hsealed, hcards, hpos, hnames, hills⟩ := ih (aggDraft labels agg d)
    rw [List.foldl_cons]
    refine ⟨hsealed, hcards, hpos, fun name => ?_, fun ill => ?_⟩
    · rw [hnames, show (aggDraft labels agg d).names = agg.names.add d.cardName from rfl, JsSet.mem_add, or_assoc]
      simp only [List.mem_cons, exists_eq_or_imp, eq_comm (a := name)]
    · rw [hills, show (aggDraft labels agg d).illustrationIds =
        (illustrationIds d.toObserved).foldl JsSet.add agg.illustrationIds from rfl, JsSet.mem_foldl_add, or_assoc]
      simp only [List.mem_cons, exists_eq_or_imp]

theorem aggDrafts_run (batches : List (List (RowDraft ρ))) {s : ImportState ω} (h : s.agg.sealed = false) :
    batches.foldlM (fun s batch => aggDrafts batch s) s =
      some { s with agg := batches.flatten.foldl (aggDraft s.tags.labels) s.agg } := by
  induction batches generalizing s with
  | nil => rfl
  | cons batch batches ih =>
    have hstep : aggDrafts batch s = some { s with agg := batch.foldl (aggDraft s.tags.labels) s.agg } := by
      rw [aggDrafts, h]
      rfl
    have hsealed : (batch.foldl (aggDraft s.tags.labels) s.agg).sealed = false :=
      (agg_run s.tags.labels batch s.agg).1.trans h
    rw [List.foldlM_cons, hstep]
    refine (ih hsealed).trans ?_
    rw [List.flatten_cons, List.foldl_append]

def partitionInstance (p n : ℕ) (tags : TagData ω) (corpus : CorpusTables ω) (agg : AggState) : ImportState ω :=
  { tags :=
      { labels := tags.labels
        corpus := corpus
        slugs := tags.slugs
        oracle := filteredMap (.partition p n) tags.oracle
        art := filteredMap (.keys agg.illustrationIds) tags.art }
    agg := { agg with sealed := true, names := [], illustrationIds := [] }
    finalizePos := 0
    staging := true }

theorem restorePartition_eq {p n : ℕ} (hp : p < n) (tags : TagData ω) {tables : Pulled ω} {snapshot : CorpusTables ω}
    (htables : tables.tables = some snapshot) (hsealed : snapshot.isSealed) (batches : List (List (RowDraft ρ))) :
    ∃ corpus, partitionCorpus (.keys (batches.flatten.foldl (aggDraft tags.labels) .empty).names) snapshot = some corpus ∧
      restorePartition p n tags tables batches =
        some (partitionInstance p n tags corpus (batches.flatten.foldl (aggDraft tags.labels) .empty)) := by
  obtain ⟨scores, hscores⟩ := Option.isSome_iff_exists.mp hsealed
  have hrestore : tagsRestorePullPartition p n tags .fresh = some { (.fresh : ImportState ω) with
      tags := { TagData.empty with
        labels := tags.labels
        slugs := tags.slugs
        oracle := filteredMap (.partition p n) tags.oracle } } :=
    if_neg (by omega)
  rw [partitionCorpus, hscores]
  refine ⟨_, rfl, ?_⟩
  rw [restorePartition, hrestore]
  dsimp only [bind, Option.bind]
  rw [aggDrafts_run batches rfl]
  dsimp only
  cases tables with
  | art snapshot' => cases htables
  | corpus snapshot' =>
    obtain rfl := Option.some.inj htables
    simp [partitionTablesRestorePull, aggFinish, partitionCorpus, hscores, finalizeBegin, CorpusTables.isSealed,
      partitionInstance, ImportState.fresh, TagData.empty]
  | legacyCorpus snapshot' =>
    obtain rfl := Option.some.inj htables
    simp [partitionTablesRestorePull, aggFinish, partitionCorpus, hscores, finalizeBegin, CorpusTables.isSealed,
      partitionInstance, ImportState.fresh, TagData.empty]

/-! ## Lookups through a filter -/

theorem get_filteredMapBy {α : Type} {keep : Keep} {project : Text → Text} {m : JsMap Text α} {key : Text}
    (h : keep.kept (project key) = true) : (filteredMapBy keep project m).get key = m.get key := by
  rw [filteredMapBy, JsMap.get_filter, h]
  cases m.get key <;> rfl

theorem artTagsOf_congr {tags tags' : TagData ω} {r : Observed} (hslugs : tags.slugs = tags'.slugs)
    (h : ∀ ill ∈ illustrationIds r, tags.art.get ill = tags'.art.get ill) : artTagsOf tags r = artTagsOf tags' r := by
  have hresolve : ∀ idxs, tags.resolve idxs = tags'.resolve idxs := by
    intro idxs
    rw [TagData.resolve, TagData.resolve, hslugs]
  unfold artTagsOf
  dsimp only
  split
  · have hhead : (illustrationIds r).head?.bind tags.art.get = (illustrationIds r).head?.bind tags'.art.get := by
      cases hids : illustrationIds r with
      | nil => rfl
      | cons ill ids => exact h ill (by rw [hids]; exact List.mem_cons_self)
    rw [hhead, hresolve]
  · have hflat : ((illustrationIds r).flatMap fun ill => tags.resolve ((tags.art.get ill).getD [])) =
        (illustrationIds r).flatMap fun ill => tags'.resolve ((tags'.art.get ill).getD []) := by
      apply List.flatMap_congr
      intro ill hill
      rw [h ill hill, hresolve]
    rw [hflat]

theorem illustKeyName_group {r : Observed} (h : ∀ ill, r.illustrationId = some ill → SEP ∉ ill) :
    illustKeyName r.group = r.cardName := by
  apply illustKeyName_groupKey
  cases hill : r.illustrationId with
  | none => simp
  | some ill => exact h ill hill

theorem partitionCorpus_answers {keep : Keep} {snapshot corpus : CorpusTables ω} (h : partitionCorpus keep snapshot = some corpus)
    {r : Observed} (hname : keep.kept r.cardName = true) (hsep : ∀ ill, r.illustrationId = some ill → SEP ∉ ill) :
    corpus.illustrationCount r.illustrationId r.cardName = snapshot.illustrationCount r.illustrationId r.cardName ∧
      corpus.cubecobra r.cardName = snapshot.cubecobra r.cardName ∧
      corpus.newArt.standing engine r = snapshot.newArt.standing engine r ∧
      ∀ artwork, corpus.newArt.isShared artwork = snapshot.newArt.isShared artwork := by
  rw [partitionCorpus, Option.map_eq_some_iff] at h
  obtain ⟨scores, hscores, rfl⟩ := h
  refine ⟨?_, ?_, ?_, fun _ => rfl⟩
  · unfold CorpusTables.illustrationCount
    cases hill : r.illustrationId with
    | none => rfl
    | some ill =>
      have hkey : keep.kept (illustKeyName (illustGroupKey ill r.cardName)) = true := by
        rw [illustKeyName_groupKey (hsep ill hill)]
        exact hname
      rw [Option.bind_some, Option.bind_some, get_filteredMapBy hkey]
  · rw [CorpusTables.cubecobra, CorpusTables.cubecobra, hscores, Option.bind_some, Option.bind_some]
    exact get_filteredMapBy hname
  · have hkey : keep.kept (illustKeyName r.group) = true := by
      rw [illustKeyName_group hsep]
      exact hname
    unfold NewArt.standing
    rw [get_filteredMapBy hkey]

/-- **A partition's share answers like the whole.** For every partition and every draft its first pass saw. -/
theorem share_agrees {p n : ℕ} (hp : p < n) (tags : TagData ω) {tables : Pulled ω} {snapshot : CorpusTables ω}
    (htables : tables.tables = some snapshot) (hsealed : snapshot.isSealed) {batches : List (List (RowDraft ρ))}
    (hpart : ∀ d ∈ batches.flatten, partitionOf n d.oracleId = p)
    (hsep : ∀ d ∈ batches.flatten, ∀ ill, d.illustrationId = some ill → SEP ∉ ill) :
    ∃ s : ImportState ω, restorePartition p n tags tables batches = some s ∧
      ∀ d ∈ batches.flatten, Lookups.Agree (draftLookups engine s.tags s.agg.cards)
        (draftLookups engine { tags with corpus := snapshot } s.agg.cards) d := by
  obtain ⟨corpus, hcorpus, hrun⟩ := restorePartition_eq hp tags htables hsealed batches
  obtain ⟨-, -, -, hnames, hills⟩ := agg_run tags.labels batches.flatten .empty
  refine ⟨_, hrun, ?_⟩
  intro d hd
  -- The row asked about is the draft with its related mark, so its keys are the draft's.
  obtain ⟨isTags, htag⟩ := tag_eq (partitionInstance p n tags corpus
    (batches.flatten.foldl (aggDraft tags.labels) .empty)).agg.cards.related d
  generalize hr : RelatedCards.tag (partitionInstance p n tags corpus
    (batches.flatten.foldl (aggDraft tags.labels) .empty)).agg.cards.related d = r at htag
  have hname : Keep.kept (.keys (batches.flatten.foldl (aggDraft tags.labels) .empty).names) r.cardName = true := by
    rw [htag]
    exact decide_eq_true ((hnames _).mpr (.inr ⟨d, hd, rfl⟩))
  have hrsep : ∀ ill, r.illustrationId = some ill → SEP ∉ ill := by
    rw [htag]
    exact hsep d hd
  obtain ⟨hcount, hscore, hstanding, hshared⟩ := partitionCorpus_answers engine hcorpus hname hrsep
  have horacle : Keep.kept (.partition p n) r.oracleId = true := by
    rw [htag]
    exact decide_eq_true (hpart d hd)
  have hart : ∀ ill ∈ illustrationIds r.toObserved,
      Keep.kept (.keys (batches.flatten.foldl (aggDraft tags.labels) .empty).illustrationIds) ill = true := by
    rw [htag]
    exact fun ill hill => decide_eq_true ((hills ill).mpr (.inr ⟨d, hd, hill⟩))
  have hagree : ∀ cards : CardTables, RelatedCards.tag cards.related d = r →
      Lookups.Agree (draftLookups engine (partitionInstance p n tags corpus
        (batches.flatten.foldl (aggDraft tags.labels) .empty)).tags cards)
        (draftLookups engine { tags with corpus := snapshot } cards) d := by
    intro cards hcards
    constructor <;> dsimp only [draftLookups] <;> rw [hcards]
    · rw [oracleTagsOf, oracleTagsOf, partitionInstance, filteredMap, get_filteredMapBy horacle]
      rfl
    · exact artTagsOf_congr rfl fun ill hill => get_filteredMapBy (hart ill hill)
    · exact hcount
    · exact hscore
    · rfl
    · exact hstanding
    · exact hshared _
  exact hagree _ hr

/-- **Partition-scoped tables answer like the whole ones.** Every lookup of the second pass, against what the restores
kept of the snapshots, is the lookup against the snapshots. -/
theorem partition_tables_answer_whole (p n : ℕ) (hp : p < n) (tags : TagData ω) (tables : Pulled ω) (snapshot : CorpusTables ω)
    (htables : tables.tables = some snapshot) (hsealed : snapshot.isSealed) (batches : List (List (RowDraft ρ)))
    (hpart : ∀ d ∈ batches.flatten, partitionOf n d.oracleId = p)
    (hsep : ∀ d ∈ batches.flatten, ∀ ill, d.illustrationId = some ill → SEP ∉ ill) :
    ∃ s : ImportState ω, restorePartition p n tags tables batches = some s ∧ ∀ d ∈ batches.flatten,
      ∀ r, r = (RelatedCards.tag s.agg.cards.related d).toObserved →
        oracleTagsOf s.tags r = oracleTagsOf tags r ∧ artTagsOf s.tags r = artTagsOf tags r ∧
          s.tags.corpus.cubecobra r.cardName = snapshot.cubecobra r.cardName ∧
          s.tags.corpus.illustrationCount r.illustrationId r.cardName =
            snapshot.illustrationCount r.illustrationId r.cardName ∧
          s.tags.corpus.newArt.standing engine r = snapshot.newArt.standing engine r ∧
          s.tags.corpus.newArt.isShared (artworkKey r) = snapshot.newArt.isShared (artworkKey r) := by
  obtain ⟨s, hrun, hagree⟩ := share_agrees engine hp tags htables hsealed hpart hsep
  refine ⟨s, hrun, ?_⟩
  rintro d hd r rfl
  have h := hagree d hd
  exact ⟨h.oracleTags, h.artTags, h.cubecobra, h.illustrationCount, h.standing, h.shared⟩

/-- A draft of one card, and tables that hold it beside another card's. -/
theorem partition_tables_answer_whole_bear :
    ∃ (draft : RowDraft Unit) (tables : CorpusTables ℕ) (s : ImportState ℕ),
      restorePartition 0 2 TagData.empty (.corpus tables) [[draft]] = some s ∧
        tables.scores.map (·.entries.length) = some 2 ∧ s.tags.corpus.cubecobra draft.cardName = some 7 := by
  let engine : CardEngine :=
    { releaseBatch := fun _ _ => 0
      collectorCollationKey := id
      collation_injective := fun _ _ => id
      newOrderKey := fun _ _ _ _ _ => (0, 0, false, false, 0, false, 0) }
  let draft : RowDraft Unit :=
    { scryfallId := ['1'], oracleId := ['a'], cardName := "Bear".toList, cardSetCode := none, collectorNumber := none
      illustrationId := some ['i'], faceIllustrations := [], releasedAt := [], rawLangEn := true, isCanonical := true
      rawSetType := none, variation := false, allParts := false, isTokenLayout := false, cardIsTags := [], rankClass := 0
      cardBorder := none, edhrecRank := none, noFormatAllows := false, relatedVerdict := none, rest := () }
  let tables : CorpusTables ℕ :=
    { pending := [], scores := some ((JsMap.empty.set "Elk".toList 3).set "Bear".toList 7), illust := .empty
      newArt := .empty, index := .empty }
  obtain ⟨s, hrun, hanswers⟩ := partition_tables_answer_whole engine 0 2 (by decide) TagData.empty (.corpus tables) tables
    rfl rfl [[draft]] (by decide) (by
      intro d hd ill hill
      obtain rfl : d = draft := by simpa using hd
      obtain rfl : ['i'] = ill := Option.some.inj hill
      decide)
  refine ⟨draft, tables, s, hrun, rfl, ?_⟩
  have hscore := (hanswers draft (by simp) _ rfl).2.2.1
  obtain ⟨isTags, htag⟩ := tag_eq s.agg.cards.related draft
  rw [htag] at hscore
  exact hscore

end

end Corpus
