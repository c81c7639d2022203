-- SUMMARY: Finalizing drafts: the tags and tables a row is finalized with, and the in-memory build.
import Mathlib.Data.List.Destutter
import Sylvan.Import.CorpusTables

/-!
# Finalizing rows

Every import path hands `finalize_row` the same ten answers and differs in the tables they
come from. The answers are a record here; a path is the record its tables make and the
drafts it finalizes.
-/

namespace Corpus

variable {ρ ω R : Type}

/-! ## Tags -/

/-- The tag dumps, and the corpus tables carried with them. -/
structure TagData (ω : Type) where
  /-- The printings Scryfall's `oracle_cards` dump names. -/
  labels : JsSet Text
  corpus : CorpusTables ω
  slugs : List Text
  /-- Indices into `slugs`, by oracle id and by illustration id. -/
  oracle : JsMap Text (List ℕ)
  art : JsMap Text (List ℕ)

def TagData.empty : TagData ω := { labels := [], corpus := .empty, slugs := [], oracle := .empty, art := .empty }

def TagData.resolve (tags : TagData ω) (idxs : List ℕ) : List Text := idxs.filterMap (tags.slugs[·]?)

def oracleTagsOf (tags : TagData ω) (r : Observed) : List Text := tags.resolve ((tags.oracle.get r.oracleId).getD [])

def artTagsOf (tags : TagData ω) (r : Observed) : List Text :=
  let ids := illustrationIds r
  -- A single list is sorted and told apart already.
  if ids.length < 2 then tags.resolve ((ids.head?.bind tags.art.get).getD [])
  else
    let out := ids.flatMap fun ill => tags.resolve ((tags.art.get ill).getD [])
    (out.insertionSort (· ≤ ·)).destutter (· ≠ ·)

/-! ## The facts of a row's card -/

/-- What the passes over a card's printings gathered. -/
structure CardTables where
  pins : PinnedPrintings
  slots : Slots
  funny : FunnyCards
  related : RelatedCards

def CardTables.empty : CardTables := { pins := [], slots := .empty, funny := [], related := [] }

def CardTables.observe (labels : JsSet Text) (t : CardTables) (r : Observed) : CardTables :=
  { pins := t.pins.observe labels r
    slots := t.slots.observe r
    funny := t.funny.observe r
    related := t.related.observe r }

def CardTables.of (labels : JsSet Text) (rows : List Observed) : CardTables :=
  { pins := rows.foldl (PinnedPrintings.observe labels) []
    slots := rows.foldl Slots.observe .empty
    funny := rows.foldl FunnyCards.observe []
    related := rows.foldl RelatedCards.observe [] }

theorem CardTables.foldl_observe (labels : JsSet Text) (rows : List Observed) :
    rows.foldl (CardTables.observe labels) .empty = .of labels rows := by
  have hrun : ∀ t : CardTables, rows.foldl (CardTables.observe labels) t =
      { pins := rows.foldl (PinnedPrintings.observe labels) t.pins
        slots := rows.foldl Slots.observe t.slots
        funny := rows.foldl FunnyCards.observe t.funny
        related := rows.foldl RelatedCards.observe t.related } := by
    induction rows with
    | nil => exact fun _ => rfl
    | cons r rows ih => exact fun t => ih (t.observe labels r)
  exact hrun .empty

/-! ## Rows -/

structure Lookups (ρ ω : Type) where
  tag : RowDraft ρ → RowDraft ρ
  oracleTags : Observed → List Text
  artTags : Observed → List Text
  illustrationCount : Option Text → Text → ℕ
  cubecobra : Text → Option ω
  pinned : Observed → Bool
  rank : Observed → ℕ
  isFunny : RowDraft ρ → Bool
  standing : Observed → ArtStanding
  shared : Option Text → Bool

/-- The draft, its tags, count, score, pin, rank, and whether it is funny, new art and shared. -/
abbrev FinalizeRow (ρ ω R : Type) : Type :=
  RowDraft ρ → List Text → List Text → ℕ → Option ω → Bool → ℕ → Bool → ArtStanding → Bool → R

def Lookups.row (finalizeRow : FinalizeRow ρ ω R) (look : Lookups ρ ω) (draft : RowDraft ρ) : R :=
  -- The related mark is written onto the draft before anything else is asked.
  let r := look.tag draft
  finalizeRow r (look.oracleTags r.toObserved) (look.artTags r.toObserved) (look.illustrationCount r.illustrationId r.cardName)
    (look.cubecobra r.cardName) (look.pinned r.toObserved) (look.rank r.toObserved) (look.isFunny r)
    (look.standing r.toObserved) (look.shared (artworkKey r.toObserved))

structure Lookups.Agree (look look' : Lookups ρ ω) (draft : RowDraft ρ) : Prop where
  tag : look.tag draft = look'.tag draft
  oracleTags : look.oracleTags (look.tag draft).toObserved = look'.oracleTags (look.tag draft).toObserved
  artTags : look.artTags (look.tag draft).toObserved = look'.artTags (look.tag draft).toObserved
  illustrationCount : look.illustrationCount (look.tag draft).illustrationId (look.tag draft).cardName =
    look'.illustrationCount (look.tag draft).illustrationId (look.tag draft).cardName
  cubecobra : look.cubecobra (look.tag draft).cardName = look'.cubecobra (look.tag draft).cardName
  pinned : look.pinned (look.tag draft).toObserved = look'.pinned (look.tag draft).toObserved
  rank : look.rank (look.tag draft).toObserved = look'.rank (look.tag draft).toObserved
  isFunny : look.isFunny (look.tag draft) = look'.isFunny (look.tag draft)
  standing : look.standing (look.tag draft).toObserved = look'.standing (look.tag draft).toObserved
  shared : look.shared (artworkKey (look.tag draft).toObserved) = look'.shared (artworkKey (look.tag draft).toObserved)

theorem Lookups.Agree.row {look look' : Lookups ρ ω} {draft : RowDraft ρ} (h : look.Agree look' draft)
    (finalizeRow : FinalizeRow ρ ω R) : look.row finalizeRow draft = look'.row finalizeRow draft := by
  unfold Lookups.row
  dsimp only
  rw [← h.tag, h.oracleTags, h.artTags, h.illustrationCount, h.cubecobra, h.pinned, h.rank, h.isFunny, h.standing, h.shared]

theorem tag_eq (related : RelatedCards) (draft : RowDraft ρ) :
    ∃ tags, RelatedCards.tag related draft = { draft with cardIsTags := tags } := by
  unfold RelatedCards.tag Observed.setRoles
  split
  · exact ⟨_, rfl⟩
  · exact ⟨draft.cardIsTags, rfl⟩

section

variable (engine : CardEngine) (percent : ℕ → ℕ → ω)

/-! ## The build in memory -/

def dedupe (drafts : List (RowDraft ρ)) : List (RowDraft ρ) :=
  (LastWins.overwrite (fun d : RowDraft ρ => d.scryfallId) id .empty drafts).entries.map Prod.snd

/-- The rows counted for an illustration and a name. -/
def illustCounts (rows : List (RowDraft ρ)) : JsMap (Text × Text) ℕ :=
  Gathered.gather (fun r : RowDraft ρ => (illustCountKey r).map (·, r.cardName)) Gathered.tally .empty rows

/-- The answers `finalize` gathers from the deduped rows. -/
def finalizeLookups (rows : List (RowDraft ρ)) (tags : TagData ω) : Lookups ρ ω :=
  let observed := rows.map RowDraft.toObserved
  let cards := CardTables.of tags.labels observed
  let cubecobra := cubecobraScoresFromPairs percent (namesOf rows)
  let newArt := artOf engine observed
  { tag := RelatedCards.tag cards.related
    oracleTags := oracleTagsOf tags
    artTags := artTagsOf tags
    illustrationCount := fun ill name => (ill.bind fun ill => (illustCounts rows).get (ill, name)).getD 0
    cubecobra := cubecobra.get
    pinned := fun r => isPinned r tags.labels cards.pins
    rank := PrintingRanks.rankOf engine ⟨cards.pins, cards.slots⟩
    isFunny := FunnyCards.isFunny cards.funny
    standing := newArt.standing engine
    shared := newArt.isShared }

def finalize (finalizeRow : FinalizeRow ρ ω R) (drafts : List (RowDraft ρ)) (tags : TagData ω) : List R :=
  (dedupe drafts).map ((finalizeLookups engine percent (dedupe drafts) tags).row finalizeRow)

end

end Corpus
