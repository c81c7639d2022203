-- SUMMARY: The name keys a builder writes for a row, what an engine may answer by that row, and what a filter built from them says.
import Sylvan.Engine.NameSettle

/-!
# Name keys

A builder writes one key for every name a row can be asked by, spelled by how well
the engine would rank the row under it. A filter built from the keys of all
partitions then says of a name which replies another partition can give.
-/

/-! ## The keys of a row -/

def ART_SERIES_LAYOUT : String := "art_series"
def FACES_ARE_NAMES_LAYOUT : String := "double_faced_token"

/-- The fields of a finalized row the name keys are written from. Every art series
is an extra. -/
structure NameRow where
  card_name_folded : String
  flavor_name_folded : Option String
  face_flavor_folded : Option String
  canonical : Bool
  extra : Bool
  layout : Option String
  art_extra : layout = some ART_SERIES_LAYOUT → extra = true

namespace NameRow

def art_series (row : NameRow) : Bool := row.layout = some ART_SERIES_LAYOUT

def facesAreNames (row : NameRow) : Bool :=
  row.extra && row.layout = some FACES_ARE_NAMES_LAYOUT

def spellings (row : NameRow) : Char × Char × Char :=
  match row.extra, row.art_series with
  | _, true => ('a', 'a', 'f')
  | true, false => ('w', 'm', 'f')
  | false, false => ('s', 's', 's')

end NameRow

/-- Which characters the engine keeps of a name: of ASCII the letters and digits,
and none of the typographic marks a router drops. -/
structure Collation where
  isAlphanumeric : Char → Bool
  ascii : ∀ c, c.toNat ≤ 0x7f → isAlphanumeric c = isAsciiAlnum c
  typography : ∀ c ∈ DROPPED_TYPOGRAPHY, isAlphanumeric c = false

namespace Collation

variable (collation : Collation)

def collate_name (folded : List Char) : List Char := folded.filter collation.isAlphanumeric

/-- A key under one of the name spellings `n?:`. -/
def spelled (spelling : Char) (name : List Char) : String :=
  String.ofList ('n' :: spelling :: ':' :: name)

/-- The collated halves of a name that splits in exactly two. -/
def halvesOf (name : String) : Option (List Char × List Char) :=
  match Text.splitOn " // ".toList name.toList with
  | [front, back] => some (collation.collate_name front, collation.collate_name back)
  | _ => none

/-- One name's keys: the whole name, and its halves with the spelling of each chosen
from its collated form. -/
def push_name_keys_with (name : String) (wholeSpelling : Char) (faceSpelling : List Char → Char) : List String :=
  let whole := collation.collate_name name.toList
  (if whole ≠ [] then [spelled wholeSpelling whole] else []) ++ match collation.halvesOf name with
    | some (front, back) =>
      (if front ≠ [] ∧ front ≠ whole then [spelled (faceSpelling front) front] else []) ++
        (if back ≠ [] ∧ back ≠ whole ∧ back ≠ front then [spelled (faceSpelling back) back] else [])
    | none => []

def push_name_keys (name : String) (wholeSpelling faceSpelling : Char) : List String :=
  collation.push_name_keys_with name wholeSpelling fun _ => faceSpelling

/-- The keys of a row's own name. A token named before the needle outranks even a
served card of that name, so such a face is spelled as if served. -/
def ownNameKeys (row : NameRow) : List String :=
  if row.canonical then
    if row.facesAreNames then
      let whole_collated := collation.collate_name row.card_name_folded.toList
      collation.push_name_keys_with row.card_name_folded row.spellings.1 fun face =>
        if whole_collated < face then 's' else 'w'
    else collation.push_name_keys row.card_name_folded row.spellings.1 row.spellings.2.1
  else []

/-- The keys of a row's flavor name, halves included. -/
def flavorNameKeys (row : NameRow) : List String :=
  match row.flavor_name_folded with
  | some name =>
    if name ≠ "" then collation.push_name_keys name row.spellings.2.2 row.spellings.2.2 else []
  | none => []

/-- The one key of the joined flavor names of a row's faces. -/
def joinedFlavorKeys (row : NameRow) : List String :=
  match row.face_flavor_folded with
  | some joined =>
    let collated := collation.collate_name joined.toList
    if collated ≠ [] then [spelled row.spellings.2.2 collated] else []
  | none => []

def name_routing_keys_of (row : NameRow) : List String :=
  collation.ownNameKeys row ++ collation.flavorNameKeys row ++ collation.joinedFlavorKeys row

/-! ## What an engine answers by a row -/

/-- A collated name among a name's: the whole of it, or a half. -/
def Named (name : String) (needle : List Char) : Prop :=
  collation.collate_name name.toList = needle ∨ ∃ front back,
    collation.halvesOf name = some (front, back) ∧ (front = needle ∨ back = needle)

/-- A row matched by a collated name, and the rank it gives the match: the tier of
what matched, the row's own name on the whole-name tier, and whether a default
search shows the row. -/
inductive Answers (row : NameRow) (needle : List Char) (rank : NameRank) : Prop
  | whole (hcanonical : row.canonical = true) (hart : row.art_series = false)
      (hmatch : collation.collate_name row.card_name_folded.toList = needle)
      (htier : rank.tier = NAME_TIER_WHOLE) (hname : rank.name.toList = needle)
      (hserved : rank.served = if row.extra then 0 else 1)
  | face (hcanonical : row.canonical = true) (hart : row.art_series = false)
      (hwhole : collation.collate_name row.card_name_folded.toList ≠ needle)
      (hmatch : collation.Named row.card_name_folded needle)
      (htoken : row.facesAreNames = true → rank.tier = NAME_TIER_WHOLE ∧
        rank.name.toList = collation.collate_name row.card_name_folded.toList)
      (hface : row.facesAreNames = false → row.extra = true → rank.tier = 2)
      (hserved : rank.served = if row.extra then 0 else 1)
  | flavor (hmatch : (∃ name, row.flavor_name_folded = some name ∧ name ≠ "" ∧
          collation.Named name needle) ∨
        ∃ joined, row.face_flavor_folded = some joined ∧ collation.collate_name joined.toList = needle)
      (htier : rank.tier = 1) (hserved : rank.served = if row.extra then 0 else 1)
  -- only a collection identifier is answered by an art series
  | artSeries (hcanonical : row.canonical = true) (hart : row.art_series = true)
      (hmatch : collation.Named row.card_name_folded needle)
      (htier : rank.tier = 0) (hserved : rank.served = if row.extra then 0 else 1)

/-- Flags that own up to a rank: served, or an extra's on its tier, where a whole
name is the needle or sorts after it. -/
def Spells (flags : ℕ) (needle : String) (rank : NameRank) : Prop :=
  isServed flags = true ∨
    rank.served = 0 ∧ (rank.tier = 0 ∨ 1 ≤ rank.tier ∧ rank.tier ≤ 3 ∧ isExtraOn rank.tier flags = true) ∧
      (rank.tier = NAME_TIER_WHOLE → rank.name = needle ∨ Text.before needle rank.name = true)

section Spelling

variable {collation : Collation}

@[simp] theorem keyFlags_spelled (spelling : Char) (name : List Char) :
    RoutingFilter.keyFlags (spelled spelling name) = nameFlags spelling := by
  simp [RoutingFilter.keyFlags, spelled]

theorem hashedKey_spelled {spelling : Char} (h : nameFlags spelling ≠ 0) (name : List Char) :
    RoutingFilter.hashedKey (spelled spelling name) = spelled 'm' name := by
  by_cases hm : spelling = 'm'
  · subst hm
    simp [RoutingFilter.hashedKey, spelled]
  · simp [RoutingFilter.hashedKey, spelled, h, hm]

variable {name : String} {wholeSpelling : Char} {faceSpelling : List Char → Char}
  {needle : List Char}

theorem mem_push_whole (hneedle : needle ≠ [])
    (h : collation.collate_name name.toList = needle) :
    spelled wholeSpelling needle ∈ collation.push_name_keys_with name wholeSpelling faceSpelling := by
  subst h
  exact List.mem_append_left _ (by rw [if_pos hneedle]; exact List.mem_singleton_self _)

theorem mem_push_face (hneedle : needle ≠ [])
    (hwhole : collation.collate_name name.toList ≠ needle) {front back : List Char}
    (hhalves : collation.halvesOf name = some (front, back)) (h : front = needle ∨ back = needle) :
    spelled (faceSpelling needle) needle
      ∈ collation.push_name_keys_with name wholeSpelling faceSpelling := by
  refine List.mem_append_right _ ?_
  rw [hhalves]
  by_cases hfront : front = needle
  · subst hfront
    exact List.mem_append_left _ (by rw [if_pos ⟨hneedle, Ne.symm hwhole⟩]; exact List.mem_singleton_self _)
  · have hback := h.resolve_left hfront
    subst hback
    exact List.mem_append_right _ (by
      rw [if_pos ⟨hneedle, Ne.symm hwhole, Ne.symm hfront⟩]
      exact List.mem_singleton_self _)

theorem mem_push_of_named (wholeSpelling : Char) (faceSpelling : List Char → Char)
    (hneedle : needle ≠ []) (h : collation.Named name needle) :
    ∃ spelling, (spelling = wholeSpelling ∨ spelling = faceSpelling needle) ∧
      spelled spelling needle ∈ collation.push_name_keys_with name wholeSpelling faceSpelling := by
  by_cases hwhole : collation.collate_name name.toList = needle
  · exact ⟨wholeSpelling, Or.inl rfl, mem_push_whole hneedle hwhole⟩
  · obtain ⟨front, back, hhalves, hmatch⟩ := h.resolve_left hwhole
    exact ⟨faceSpelling needle, Or.inr rfl, mem_push_face hneedle hwhole hhalves hmatch⟩

section Row

variable {row : NameRow} {rank : NameRank}

theorem NameRow.spellings_served (h : row.extra = false) : row.spellings = ('s', 's', 's') := by
  have hart : row.art_series = false := by
    by_contra hart
    rw [row.art_extra (by simpa [NameRow.art_series] using hart)] at h
    cases h
  rw [NameRow.spellings, h, hart]

theorem NameRow.spellings_art (h : row.art_series = true) : row.spellings = ('a', 'a', 'f') := by
  rw [NameRow.spellings, h]

theorem NameRow.spellings_extra (hextra : row.extra = true) (hart : row.art_series = false) :
    row.spellings = ('w', 'm', 'f') := by
  rw [NameRow.spellings, hextra, hart]

theorem NameRow.not_facesAreNames_of_art (h : row.art_series = true) : row.facesAreNames = false := by
  have hlayout : row.layout = some ART_SERIES_LAYOUT := by simpa [NameRow.art_series] using h
  simp [NameRow.facesAreNames, hlayout, ART_SERIES_LAYOUT, FACES_ARE_NAMES_LAYOUT]

theorem NameRow.flavorSpelling (row : NameRow) : row.spellings.2.2 = if row.extra then 'f' else 's' := by
  cases hextra : row.extra with
  | false => rw [NameRow.spellings_served hextra]; rfl
  | true =>
    cases hart : row.art_series with
    | false => rw [NameRow.spellings_extra hextra hart]; rfl
    | true => rw [NameRow.spellings_art hart]; rfl

theorem mem_ownNameKeys {key : String} (h : key ∈ collation.ownNameKeys row) : key ∈ collation.name_routing_keys_of row :=
  List.mem_append_left _ (List.mem_append_left _ h)

theorem exists_ownNameKey (hneedle : needle ≠ []) (hcanonical : row.canonical = true)
    (htoken : row.facesAreNames = false) (h : collation.Named row.card_name_folded needle) :
    ∃ spelling, (spelling = row.spellings.1 ∨ spelling = row.spellings.2.1) ∧
      spelled spelling needle ∈ collation.name_routing_keys_of row := by
  obtain ⟨spelling, hspelling, hmem⟩ := mem_push_of_named row.spellings.1
    (fun _ => row.spellings.2.1) hneedle h
  refine ⟨spelling, hspelling, mem_ownNameKeys ?_⟩
  rw [ownNameKeys, if_pos hcanonical, htoken]
  exact hmem

theorem wholeKey_mem (hneedle : needle ≠ []) (hcanonical : row.canonical = true)
    (h : collation.collate_name row.card_name_folded.toList = needle) :
    spelled row.spellings.1 needle ∈ collation.name_routing_keys_of row := by
  refine mem_ownNameKeys ?_
  rw [ownNameKeys, if_pos hcanonical]
  split
  · exact mem_push_whole hneedle h
  · exact mem_push_whole hneedle h

theorem faceKey_mem (hneedle : needle ≠ []) (hcanonical : row.canonical = true)
    (hwhole : collation.collate_name row.card_name_folded.toList ≠ needle)
    (h : collation.Named row.card_name_folded needle) :
    spelled (if row.facesAreNames then
        if collation.collate_name row.card_name_folded.toList < needle then 's' else 'w'
      else row.spellings.2.1) needle ∈ collation.name_routing_keys_of row := by
  obtain ⟨front, back, hhalves, hmatch⟩ := h.resolve_left hwhole
  refine mem_ownNameKeys ?_
  rw [ownNameKeys, if_pos hcanonical]
  split
  · exact mem_push_face hneedle hwhole hhalves hmatch
  · exact mem_push_face hneedle hwhole hhalves hmatch

theorem flavorKey_mem (hneedle : needle ≠ []) (h : (∃ name, row.flavor_name_folded = some name ∧
      name ≠ "" ∧ collation.Named name needle) ∨
    ∃ joined, row.face_flavor_folded = some joined ∧ collation.collate_name joined.toList = needle) :
    spelled row.spellings.2.2 needle ∈ collation.name_routing_keys_of row := by
  rcases h with ⟨name, hname, hne, hnamed⟩ | ⟨joined, hjoined, hmatch⟩
  · obtain ⟨spelling, hspelling, hmem⟩ := mem_push_of_named row.spellings.2.2
      (fun _ => row.spellings.2.2) hneedle hnamed
    rw [or_self_iff] at hspelling
    subst hspelling
    refine List.mem_append_left _ (List.mem_append_right _ ?_)
    rw [flavorNameKeys, hname]
    simp only [ne_eq, hne, not_false_eq_true, if_true]
    exact hmem
  · subst hmatch
    refine List.mem_append_right _ ?_
    rw [joinedFlavorKeys, hjoined]
    simp only [if_pos hneedle, List.mem_singleton]

theorem spells_of_served {spelling : Char} (h : spelling = 's') (needle : String)
    (rank : NameRank) : Spells (nameFlags spelling) needle rank :=
  Or.inl (by subst h; decide)

/-- **A row's keys own up to every answer given by it.** -/
theorem exists_key_of_answers (hneedle : needle ≠ []) (hascii : ∀ c ∈ needle, c.toNat ≤ 0x7f)
    (h : collation.Answers row needle rank) :
    ∃ spelling, nameFlags spelling ≠ 0 ∧ spelled spelling needle ∈ collation.name_routing_keys_of row ∧
      Spells (nameFlags spelling) (String.ofList needle) rank := by
  cases hextra : row.extra with
  | false =>
    have hspellings := NameRow.spellings_served hextra
    have htoken : row.facesAreNames = false := by simp [NameRow.facesAreNames, hextra]
    have hown : row.canonical = true → collation.Named row.card_name_folded needle →
        spelled 's' needle ∈ collation.name_routing_keys_of row := by
      intro hcanonical hnamed
      obtain ⟨spelling, hspelling, hmem⟩ := exists_ownNameKey hneedle hcanonical htoken hnamed
      rw [hspellings, or_self_iff] at hspelling
      subst hspelling
      exact hmem
    have hserved := spells_of_served rfl (String.ofList needle) rank
    cases h with
    | whole hcanonical _ hmatch => exact ⟨'s', by decide, hown hcanonical (Or.inl hmatch), hserved⟩
    | face hcanonical _ _ hmatch => exact ⟨'s', by decide, hown hcanonical hmatch, hserved⟩
    | flavor hmatch =>
      have hmem := flavorKey_mem hneedle hmatch
      rw [hspellings] at hmem
      exact ⟨'s', by decide, hmem, hserved⟩
    | artSeries hcanonical _ hmatch => exact ⟨'s', by decide, hown hcanonical hmatch, hserved⟩
  | true =>
    have hzero : ∀ n, (if row.extra then 0 else n) = 0 := fun n => by rw [hextra, if_pos rfl]
    cases h with
    | whole hcanonical hart hmatch htier hname hserved =>
      have hmem := wholeKey_mem hneedle hcanonical hmatch
      rw [NameRow.spellings_extra hextra hart] at hmem
      refine ⟨'w', by decide, hmem, Or.inr ⟨hserved.trans (hzero 1), Or.inr ?_, fun _ => Or.inl ?_⟩⟩
      · rw [htier]
        decide
      · rw [← hname, String.ofList_toList]
    | face hcanonical hart hwhole hmatch htoken hface hserved =>
      have hmem := faceKey_mem hneedle hcanonical hwhole hmatch
      split_ifs at hmem with hnames hbefore
      · exact ⟨'s', by decide, hmem, spells_of_served rfl _ rank⟩
      · obtain ⟨htier, hname⟩ := htoken hnames
        refine ⟨'w', by decide, hmem, Or.inr ⟨hserved.trans (hzero 1), Or.inr ?_, fun _ => Or.inr ?_⟩⟩
        · rw [htier]
          decide
        · -- The token's own name is not before the needle, nor is it the needle.
          rw [← hname] at hbefore hwhole
          have hafter := (Text.codeUnits_of_ascii hascii hbefore).resolve_left hwhole
          rw [Text.before, decide_eq_true_eq, Text.codeUnits, Text.codeUnits, String.toList_ofList]
          exact hafter
      · rw [NameRow.spellings_extra hextra hart] at hmem
        have htier := hface (by simpa using hnames) hextra
        refine ⟨'m', by decide, hmem, Or.inr ⟨hserved.trans (hzero 1), Or.inr ?_, fun hwhole => ?_⟩⟩
        · rw [htier]
          decide
        · rw [htier] at hwhole
          cases hwhole
    | flavor hmatch htier hserved =>
      have hmem := flavorKey_mem hneedle hmatch
      rw [NameRow.flavorSpelling, hextra, if_pos rfl] at hmem
      refine ⟨'f', by decide, hmem, Or.inr ⟨hserved.trans (hzero 1), Or.inr ?_, fun hwhole => ?_⟩⟩
      · rw [htier]
        decide
      · rw [htier] at hwhole
        cases hwhole
    | artSeries hcanonical hart hmatch htier hserved =>
      obtain ⟨spelling, hspelling, hmem⟩ := exists_ownNameKey hneedle hcanonical
        (NameRow.not_facesAreNames_of_art hart) hmatch
      rw [NameRow.spellings_art hart, or_self_iff] at hspelling
      subst hspelling
      refine ⟨'a', by decide, hmem, Or.inr ⟨hserved.trans (hzero 1), Or.inl htier, fun hwhole => ?_⟩⟩
      rw [htier] at hwhole
      cases hwhole

end Row

end Spelling

end Collation

/-! ## What a filter says of a name -/

section Filter

open RoutingFilter

variable {collation : Collation} {rows : ℕ → List NameRow} {filter : RoutingFilter.Filter}

/-- The entries a key is built from: the partition and flags of every key of a row
that hashes as it. -/
def nameEntries (collation : Collation) (rows : ℕ → List NameRow) (n : ℕ) (key : String) : List (ℤ × ℕ) :=
  (List.range n).flatMap fun p =>
    (((rows p).flatMap collation.name_routing_keys_of).filter (hashedKey · = key)).map
      fun written => ((p : ℤ), keyFlags written)

def RoutingFilter.Filter.tiers (filter : RoutingFilter.Filter) : Bool :=
  filter.features &&& ROUTING_FEATURE_NAME_TIERS ≠ 0

def RoutingFilter.Filter.pairs (filter : RoutingFilter.Filter) : Bool :=
  filter.features &&& ROUTING_FEATURE_NAME_SERVED_PAIRS ≠ 0

/-- A filter that holds every name key it was built with, and of any other key
anything. -/
structure HoldsNames (collation : Collation) (rows : ℕ → List NameRow)
    (filter : RoutingFilter.Filter) : Prop where
  count : filter.partitionCount ≤ VALUE_MASK
  value : ∀ key, nameEntries collation rows filter.partitionCount key ≠ [] →
    (filter.valueOf key : ℤ) = (NameRun.of (nameEntries collation rows filter.partitionCount key)).value
      filter.partitionCount filter.tiers filter.pairs

theorem mem_nameEntries {n p : ℕ} (hp : p < n) {row : NameRow} (hrow : row ∈ rows p)
    {spelling : Char} {needle : List Char} (hspelling : nameFlags spelling ≠ 0)
    (h : Collation.spelled spelling needle ∈ collation.name_routing_keys_of row) :
    ((p : ℤ), nameFlags spelling) ∈ nameEntries collation rows n (Collation.spelled 'm' needle) := by
  refine List.mem_flatMap.mpr ⟨p, List.mem_range.mpr hp, List.mem_map.mpr
    ⟨Collation.spelled spelling needle, List.mem_filter.mpr ⟨List.mem_flatMap.mpr ⟨row, hrow, h⟩, ?_⟩, ?_⟩⟩
  · exact decide_eq_true (Collation.hashedKey_spelled hspelling needle)
  · rw [Collation.keyFlags_spelled]

theorem nameEntries_range {n : ℕ} {key : String} : ∀ e ∈ nameEntries collation rows n key, 0 ≤ e.1 ∧ e.1 < n := by
  intro e he
  obtain ⟨p, hp, he⟩ := List.mem_flatMap.mp he
  obtain ⟨written, -, rfl⟩ := List.mem_map.mp he
  have hlt := List.mem_range.mp hp
  simp only
  omega

theorem lookupName_cases {key : String} {hint : NameHint} (h : filter.lookupName key = some hint) :
    (hint = .sole (filter.valueOf key) ∧ filter.valueOf key < filter.partitionCount) ∨
    (filter.partitionCount ≤ filter.valueOf key ∧ (filter.valueOf key : ℤ) ≠ NAME_AMBIGUOUS ∧
      ((filter.tiers = true ∧ filter.valueOf key < pairBase filter.partitionCount ∧
        hint = .served ↑((filter.valueOf key - filter.partitionCount) / NAME_RIVALS)
          (some ((filter.valueOf key - filter.partitionCount) % NAME_RIVALS)) none) ∨
      (filter.tiers = false ∧ filter.valueOf key < 2 * filter.partitionCount ∧
        hint = .served ↑(filter.valueOf key - filter.partitionCount) none none))) := by
  unfold Filter.lookupName at h
  split at h
  · rename_i said hplacement
    cases h
    unfold Filter.lookupNamePlacement at hplacement
    simp only at hplacement
    split_ifs at hplacement with hkeys hsole hambiguous htiers hpair hfits hserved
    · cases hplacement
      exact Or.inl ⟨rfl, hsole⟩
    · obtain ⟨pair, -, hpairs⟩ := Option.map_eq_some_iff.mp hplacement
      cases hpairs
    · cases hplacement
      exact Or.inr ⟨Nat.not_lt.mp hsole, hambiguous, Or.inl ⟨decide_eq_true htiers, Nat.not_le.mp hpair, rfl⟩⟩
    · cases hplacement
      exact Or.inr ⟨Nat.not_lt.mp hsole, hambiguous, Or.inr ⟨decide_eq_false htiers, hserved, rfl⟩⟩
  · cases h

theorem hintPartition_lt {key : String} {hint : NameHint} (h : filter.lookupName key = some hint) :
    0 ≤ hintPartition hint ∧ hintPartition hint < filter.partitionCount := by
  rcases lookupName_cases h with ⟨rfl, hlt⟩ | ⟨hle, -, ⟨-, hlt, rfl⟩ | ⟨-, hlt, rfl⟩⟩
  · simp only [hintPartition]
    omega
  · simp only [hintPartition, pairBase, NAME_RIVALS] at hlt ⊢
    omega
  · simp only [hintPartition]
    omega

variable (hholds : HoldsNames collation rows filter)
include hholds

theorem hint_of_held {key : String} {hint : NameHint} (h : filter.lookupName key = some hint)
    (hheld : nameEntries collation rows filter.partitionCount key ≠ []) :
    (∃ p, hint = .sole p ∧ ∀ e ∈ nameEntries collation rows filter.partitionCount key, e.1 = p) ∨
    ∃ s rival, hint = .served s rival none ∧ NameRun.OnlyServed (nameEntries collation rows filter.partitionCount key) s ∧
      ∀ t, rival = some t → NameRun.RivalsUpTo (nameEntries collation rows filter.partitionCount key) s t := by
  have hcount := hholds.count
  have hvalue := hholds.value key hheld
  have hrange : ∀ e ∈ nameEntries collation rows filter.partitionCount key,
      0 ≤ e.1 ∧ e.1 < filter.partitionCount := nameEntries_range
  have hsays := NameRun.value_says hrange filter.tiers filter.pairs
  rw [← hvalue] at hsays
  generalize hv : (filter.valueOf key : ℤ) = v at hsays
  simp only [VALUE_MASK] at hcount
  rcases lookupName_cases h with ⟨rfl, hlt⟩ | ⟨hle, hne, ⟨htiers, hlt, rfl⟩ | ⟨htiers, hlt, rfl⟩⟩
  · -- Below the count: no served value is, so this is the one holder.
    cases hsays with
    | sole hp honly => exact Or.inl ⟨v, by rw [hv], honly⟩
    | pair _ hpair => simp only [pairBase, NAME_RIVALS] at hpair; omega
    | ambiguous => simp only [NAME_AMBIGUOUS] at hv; omega
    | untiered _ hs => omega
    | tiered _ hs => simp only [NAME_RIVALS] at hv; omega
  · simp only [pairBase, NAME_RIVALS] at hlt
    cases hsays with
    | sole hp honly => omega
    | pair _ hpair => simp only [pairBase, NAME_RIVALS] at hpair; omega
    | ambiguous => exact absurd hv hne
    | untiered hno => rw [hno] at htiers; cases htiers
    | @tiered s t _ hs ht honly hrivals =>
      simp only [NAME_RIVALS] at hv ht
      have hdiv : (((filter.valueOf key - filter.partitionCount) / NAME_RIVALS : ℕ) : ℤ) = s := by
        simp only [NAME_RIVALS]
        omega
      have hmod : (filter.valueOf key - filter.partitionCount) % NAME_RIVALS = t := by
        simp only [NAME_RIVALS]
        omega
      refine Or.inr ⟨s, some t, by rw [hdiv, hmod], honly, fun t' ht' => ?_⟩
      cases ht'
      exact hrivals
  · cases hsays with
    | sole hp honly => omega
    | pair hno => rw [hno] at htiers; cases htiers
    | ambiguous => exact absurd hv hne
    | @untiered s _ hs honly =>
      have hs' : ((filter.valueOf key - filter.partitionCount : ℕ) : ℤ) = s := by omega
      exact Or.inr ⟨s, none, by rw [hs'], honly, fun t ht => by cases ht⟩
    | tiered hno => rw [hno] at htiers; cases htiers

end Filter
