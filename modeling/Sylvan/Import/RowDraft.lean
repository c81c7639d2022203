-- SUMMARY: A draft of a printing, and the keys a build gathers and looks it up by: its slot, illustrations, artwork and place in the order of new art.
import Mathlib.Data.List.Lex
import Sylvan.Data.Fnv
import Sylvan.Data.JsMap
import Sylvan.Data.RustStr
import Sylvan.Data.Text

/-!
# Drafts

A draft is one printing before the whole corpus has been seen. What a row needs of the
other printings is gathered by passes over all the drafts; here is what the passes read of
one draft, and the keys they gather under.
-/

namespace Corpus

abbrev Text : Type := List Char

/-- What the engine decides of a printing by tables of its own. -/
structure CardEngine where
  releaseBatch : ℕ → Text → ℕ
  collectorCollationKey : Text → Text
  /-- The raw number ends the key, so that no two numbers share one. -/
  collation_injective : Function.Injective collectorCollationKey
  /-- Date, batch, lead, variation, number, tie and id. -/
  newOrderKey : Option ℕ → Text → Option ℤ → Bool → Text → ℕ × ℕ × Bool × Bool × ℕ × Bool × ℕ

/-! ## Drafts -/

/-- What the passes over the corpus read of a draft. -/
structure Observed where
  scryfallId : Text
  oracleId : Text
  cardName : Text
  cardSetCode : Option Text
  collectorNumber : Option Text
  illustrationId : Option Text
  /-- The faces' illustration ids, `none` where a face has none. -/
  faceIllustrations : List (Option Text)
  releasedAt : Text
  rawLangEn : Bool
  isCanonical : Bool
  rawSetType : Option Text
  /-- `compat_blob["variation"]`. -/
  variation : Bool
  /-- `compat_blob["all_parts"]` names a part. -/
  allParts : Bool
  isTokenLayout : Bool
  cardIsTags : List Text
  /-- The class `rank_class` reads off the row. -/
  rankClass : ℕ

/-- A draft: what the passes read of it, what its own row is finalized from, and everything else. -/
structure RowDraft (ρ : Type) extends Observed where
  cardBorder : Option Text
  edhrecRank : Option ℤ
  /-- `no_format_allows(&card_legalities)`. -/
  noFormatAllows : Bool
  /-- The measured table's verdict on `is:related`. -/
  relatedVerdict : Option Bool
  rest : ρ

def extractCollectorNumberInt (number : Text) : Option ℤ :=
  let digits := number.filter Text.isDigit
  if digits.isEmpty then none
  else
    let n := Text.decimal (String.ofList digits)
    if n ≤ 2147483647 then some n else none

def Observed.collectorNumberInt (r : Observed) : Option ℤ := r.collectorNumber.bind extractCollectorNumberInt

def FUNNY_IS_TAG : Text := "funny".toList
def REPRINT_IS_TAG : Text := "reprint".toList
def EXTRA_IS_TAG : Text := "extra".toList
def RELATED_IS_TAG : Text := "related".toList

def Observed.hasIsTag (r : Observed) (tag : Text) : Bool := tag ∈ r.cardIsTags

def Observed.isExtra (r : Observed) : Bool := r.hasIsTag EXTRA_IS_TAG

def Observed.setRoles (r : Observed) (roles : List Text) : Observed :=
  { r with cardIsTags := roles.foldl JsSet.add r.cardIsTags }

def toAsciiLowercase (s : Text) : Text := s.map Char.toLower

def fnv1a64OracleId (oracleId : Text) : ℕ := Fnv.word (RustStr.utf8 (toAsciiLowercase oracleId))

/-! ## Keys -/

/-- The printing slot a pin applies to: card, set and collector number. -/
abbrev PinKey : Type := Text × Text × Text

def pinKey (r : Observed) : Option PinKey := do
  let set ← r.cardSetCode
  let number ← r.collectorNumber
  return (r.oracleId, set, number)

/-- The separator of `illust_group_key`. -/
def SEP : Char := Char.ofNat 0x1f

def illustGroupKey (illustrationId cardName : Text) : Text := illustrationId ++ SEP :: cardName

/-- The illustration inside a group key; empty for a key without the separator. -/
def illustKeyIllustration (key : Text) : Text := if SEP ∈ key then key.takeWhile (· ≠ SEP) else []

def illustKeyName (key : Text) : Text := (key.dropWhile (· ≠ SEP)).tail

theorem illustKeyName_groupKey {illustrationId : Text} (h : SEP ∉ illustrationId) (cardName : Text) :
    illustKeyName (illustGroupKey illustrationId cardName) = cardName := by
  have hdrop : (illustrationId ++ SEP :: cardName).dropWhile (· ≠ SEP) = SEP :: cardName := by
    rw [List.dropWhile_append_of_pos]
    · simp
    · intro c hc
      simp only [ne_eq, decide_eq_true_eq]
      rintro rfl
      exact h hc
  rw [illustKeyName, illustGroupKey, hdrop, List.tail_cons]

theorem illustGroupKey_inj {a b name name' : Text} (ha : SEP ∉ a) (hb : SEP ∉ b)
    (h : illustGroupKey a name = illustGroupKey b name') : a = b ∧ name = name' := by
  have hname : name = name' := by
    rw [← illustKeyName_groupKey ha name, h, illustKeyName_groupKey hb]
  subst hname
  exact ⟨List.append_cancel_right h, rfl⟩

def illustrationIds (r : Observed) : List Text :=
  JsSet.of (((r.illustrationId :: r.faceIllustrations).filterMap id).filter fun id => !id.isEmpty)

def MEMORABILIA_SET_TYPE : Text := "memorabilia".toList

def illustCountQualifies (rawLangEn : Bool) (rawSetType cardBorder : Option Text) : Bool :=
  rawLangEn && rawSetType ≠ some MEMORABILIA_SET_TYPE && cardBorder ≠ some "gold".toList &&
    cardBorder ≠ some "yellow".toList

def illustCountKey {ρ : Type} (r : RowDraft ρ) : Option Text :=
  r.illustrationId.filter fun _ => illustCountQualifies r.rawLangEn r.rawSetType r.cardBorder

/-- The ids of an artwork's slots as the hash reads them. -/
def artworkBytes (ids : List Text) : Bytes := ids.flatMap fun id => RustStr.utf8 (toAsciiLowercase id ++ ['+'])

/-- A printing's artwork: each face's illustration, or its own where it has no faces, hashed. -/
def artworkKey (r : Observed) : Option Text := do
  let slots := if r.faceIllustrations.isEmpty then [r.illustrationId] else r.faceIllustrations
  let ids ← slots.mapM fun slot => slot.filter fun id => !id.isEmpty
  return Fnv.hex 12 (Fnv.word (artworkBytes ids) / 0x10000)

/-! ## New art -/

/-- `s.parse::<u32>().ok()` -/
def parseU32 (s : Text) : Option ℕ :=
  let digits := match s with
    | '+' :: rest => rest
    | _ => s
  if digits.isEmpty || !digits.all Text.isDigit then none
  else
    let n := Text.decimal (String.ofList digits)
    if n < 0x100000000 then some n else none

/-- The memorabilia sets whose printings are eligible for `new:art`. -/
def NEW_ART_MEMORABILIA_SETS : List Text := ["olgc".toList, "o90p".toList]

def Observed.eligible (r : Observed) : Bool :=
  r.isCanonical && (r.rawSetType ≠ some MEMORABILIA_SET_TYPE || r.cardSetCode.any (· ∈ NEW_ART_MEMORABILIA_SETS))

/-- The row's entry: its illustration, none being a group of its own, and its card's name. -/
def Observed.group (r : Observed) : Text := illustGroupKey (r.illustrationId.getD []) r.cardName

def dateOf (releasedAt : Text) : Option ℕ := parseU32 (releasedAt.filter (· ≠ '-'))

/-- The row's place in the order of new printings, as a text that sorts as the key does. -/
def Observed.order (engine : CardEngine) (r : Observed) : Text :=
  let (date, batch, lead, variation, number, tie, id) :=
    engine.newOrderKey (dateOf r.releasedAt) (r.cardSetCode.getD []) r.collectorNumberInt r.variation r.scryfallId
  let flag (b : Bool) : Text := if b then ['1'] else ['0']
  Fnv.hex 8 date ++ Fnv.hex 4 batch ++ flag lead ++ flag variation ++ Fnv.hex 8 number ++ flag tie ++
    Fnv.hex 16 (id / 0x10000000000000000)

/-- Where a printing stands with its artwork. -/
inductive ArtStanding where
  /-- Released after the artwork's first printing, or nothing is known of the artwork. -/
  | later
  /-- Released the day the artwork's first printing was, and not that printing. -/
  | debut
  /-- The artwork's first printing anywhere. -/
  | first
deriving DecidableEq, Repr

end Corpus
