-- SUMMARY: How many partitions the store is cut into: the nightly coordinator's rule and the native builder's.
import Mathlib.Algebra.BigOperators.Group.Finset.Basic
import Sylvan.Data.Machine
import Sylvan.Data.SortedRuns

/-!
# Partition sizing

The store is cut into the smallest number of partitions whose largest projects under
a ceiling. A partition's archive is projected from its cards and from the framed bytes
of its drafts, in units of 1/10000 of a byte. The nightly coordinator computes this in
JavaScript's numbers and the native builder in 64-bit words.
-/

namespace Sizing

def MIN_PARTITION_COUNT : ℕ := 2
def MAX_PARTITION_COUNT : ℕ := 48

def DRAFT_FRAME_BYTES : ℕ := 8

def STORE_BYTES_PER_PARTITION : ℕ := 1074000
def STORE_BYTES_PER_CARD : ℕ := 3755
def STORE_PER_DRAFT_BYTE_NUM : ℕ := 1545
def STORE_PER_DRAFT_BYTE_DEN : ℕ := 10000

def PARTITION_CEILING_BYTES : ℕ := 43160493

/-- A staged draft: the hash of its card's oracle id and the length of its JSON. -/
structure Draft where
  hash : UInt64
  length : UInt32

def Draft.card (draft : Draft) : ℕ := draft.hash.toNat

/-! ## The steps the twins share -/

section Shared

variable {α κ : Type} (A : Arith α)

def scaledProjection (cards framedDraftBytes : α) : α :=
  A.add
    (A.mul (A.add (A.nat STORE_BYTES_PER_PARTITION) (A.mul (A.nat STORE_BYTES_PER_CARD) cards))
      (A.nat STORE_PER_DRAFT_BYTE_DEN))
    (A.mul (A.nat STORE_PER_DRAFT_BYTE_NUM) framedDraftBytes)

/-- The corpus as the projection needs it: a row for each card, with the framed bytes
of all its drafts. -/
structure CardBytes (κ α : Type) where
  rows : List (κ × α)
  drafts : α
  framedBytes : α

def CardBytes.cards (corpus : CardBytes κ α) : ℕ := corpus.rows.length

/-- Each partition's projection when the corpus is cut into `n`. -/
def scaledAt (partOf : κ → ℕ → ℕ) (corpus : CardBytes κ α) (n : ℕ) : List α :=
  let bytes := A.spread (fun row => partOf row.1 n) Prod.snd n corpus.rows
  let cards := A.spread (fun row => partOf row.1 n) (fun _ => A.nat 1) n corpus.rows
  List.zipWith (fun b c => scaledProjection A c b) bytes cards

/-- What a sizing decided, and the numbers it decided on. -/
structure SizingChoice (α : Type) where
  n : ℕ
  projected : List α
  largest : α
  largestAt : ℕ
  cards : α
  framedBytes : α
  drafts : α
  ceiling : α
  clamped : Bool
  deriving DecidableEq

def largestAt (scaled : List α) : ℕ :=
  (List.range' 1 (scaled.length - 1)).foldl
    (fun best k => if A.lt (scaled.getD best (A.nat 0)) (scaled.getD k (A.nat 0)) then k else best) 0

def project (partOf : κ → ℕ → ℕ) (corpus : CardBytes κ α) (ceiling scaledCeiling : α) (n : ℕ) : SizingChoice α :=
  let scaled := scaledAt A partOf corpus n
  let largest := largestAt A scaled
  let largestScaled := scaled.getD largest (A.nat 0)
  { n := n
    projected := scaled.map fun v => A.div v (A.nat STORE_PER_DRAFT_BYTE_DEN)
    largest := A.div largestScaled (A.nat STORE_PER_DRAFT_BYTE_DEN)
    largestAt := largest
    cards := A.nat corpus.cards
    framedBytes := corpus.framedBytes
    drafts := corpus.drafts
    ceiling := ceiling
    clamped := A.lt scaledCeiling largestScaled }

/-- The walk up from `start`: the first choice that is not clamped, or the last count's. -/
def walk (project : ℕ → SizingChoice α) (start : ℕ) : SizingChoice α :=
  (((List.range' start (MAX_PARTITION_COUNT - start)).map project).find? fun choice => !choice.clamped).getD
    (project MAX_PARTITION_COUNT)

end Shared

/-! ## The nightly coordinator -/

namespace Nightly

open Arith

/-- A 64-bit hash as two 32-bit halves. -/
structure Halves where
  hi : UInt32
  lo : UInt32
  deriving DecidableEq

def halves (h : UInt64) : Halves := ⟨(h >>> 32).toUInt32, h.toUInt32⟩

def TWO_32 : ℕ := 4294967296

/-- `hash % n` from the halves: no intermediate value leaves the exact integers. -/
def modHalves (h : Halves) (n : ℕ) : ℕ := ((h.hi.toNat % n) * (TWO_32 % n) + h.lo.toNat % n) % n

def Halves.below (m h : Halves) : Bool := m.hi < h.hi || (m.hi == h.hi && m.lo < h.lo)

/-- The distinct hashes of a sorted array, packed to its front. -/
def pack (hashes : List UInt64) : List UInt64 :=
  hashes.foldl (fun kept h => if kept.getLast? = some h then kept else kept ++ [h]) []

/-- `CardBytes.distinct`: a row without bytes for each card. -/
def distinct (hashes : List UInt64) : CardBytes Halves ℚ :=
  { rows := (pack (SortedRuns.sortBy UInt64.toNat hashes)).map fun h => (halves h, 0)
    drafts := 0
    framedBytes := 0 }

/-- The binary search over the rows from `a` to before `e`, the source's `b + 1`. -/
def search (rows : List (Halves × ℚ)) (h : Halves) (a e : ℕ) : Option ℕ :=
  if a < e then
    let mid := (a + (e - 1)) / 2
    match rows[mid]? with
    | some row =>
      if row.1 = h then some mid
      else if row.1.below h then search rows h (mid + 1) e
      else search rows h a mid
    | none => none
  else none
termination_by e - a
decreasing_by all_goals omega

/-- `CardBytes.add`: one draft counted at its card. -/
def add (corpus : CardBytes Halves ℚ) (partHash : UInt64) (jsonLength : ℕ) : Except String (CardBytes Halves ℚ) :=
  match search corpus.rows (halves partHash) 0 corpus.rows.length with
  | some mid =>
    let framed := double.add (double.nat DRAFT_FRAME_BYTES) (double.nat jsonLength)
    .ok
      { rows := corpus.rows.modify mid fun row => (row.1, double.add row.2 framed)
        drafts := double.add corpus.drafts 1
        framedBytes := double.add corpus.framedBytes framed }
  | none => .error s!"draft hash {partHash} was not among the corpus's distinct hashes"

/-- The first count whose mean fits. The quotient is a double, so its ceiling may be one
short of the exact one. -/
def start (total scaledCeiling : ℚ) : ℕ :=
  min MAX_PARTITION_COUNT (max MIN_PARTITION_COUNT ⌈Float64.nearest (total / scaledCeiling)⌉.toNat)

def choosePartitionCountFor (corpus : CardBytes Halves ℚ) (ceiling : ℤ) : Except String (SizingChoice ℚ) :=
  if ceiling ≤ 0 then .error s!"cannot size partitions against {ceiling} bytes"
  else
    let scaledCeiling := double.mul ceiling (double.nat STORE_PER_DRAFT_BYTE_DEN)
    let total := scaledProjection double (double.nat corpus.cards) corpus.framedBytes
    .ok (walk (project double modHalves corpus ceiling scaledCeiling) (start total scaledCeiling))

def choosePartitionCount (hashes : List UInt64) (lengths : List UInt32) (ceiling : ℤ) : Except String (SizingChoice ℚ) := do
  if hashes.length ≠ lengths.length then
    .error s!"sizing input has {hashes.length} hashes but {lengths.length} lengths"
  else
    let corpus ← (hashes.zip lengths).foldlM (fun corpus draft => add corpus draft.1 draft.2.toNat) (distinct hashes)
    choosePartitionCountFor corpus ceiling

end Nightly

/-! ## The native builder -/

namespace Native

open Arith

def framed (draft : Draft) : ℕ := word.add (word.nat DRAFT_FRAME_BYTES) (word.nat draft.length.toNat)

/-- `CardBytes::of`. Drafts of one card are summed, so how the unstable sort orders
them does not show. -/
def CardBytes.of (drafts : List Draft) : CardBytes ℕ ℕ :=
  let sorted := SortedRuns.sortBy Draft.card drafts
  { rows := SortedRuns.group Draft.card
      (fun bytes draft => match bytes with
        | some bytes => word.add bytes (framed draft)
        | none => framed draft) sorted
    drafts := drafts.length
    framedBytes := sorted.foldl (fun sum draft => word.add sum (framed draft)) 0 }

/-- `h % u64::from(n)`. -/
def part_of (h n : ℕ) : ℕ := h % n

def start (total scaled_ceiling : ℕ) : ℕ :=
  let most := max scaled_ceiling 1
  min (max ((total + most - 1) / most) MIN_PARTITION_COUNT) MAX_PARTITION_COUNT

def choose_partition_count_for (corpus : CardBytes ℕ ℕ) (ceiling : ℕ) : SizingChoice ℕ :=
  let scaled_ceiling := word.mul ceiling (word.nat STORE_PER_DRAFT_BYTE_DEN)
  let total := scaledProjection word (word.nat corpus.cards) corpus.framedBytes
  walk (project word part_of corpus ceiling scaled_ceiling) (start total scaled_ceiling)

def choose_partition_count (drafts : List Draft) (ceiling : ℕ) : SizingChoice ℕ :=
  choose_partition_count_for (CardBytes.of drafts) ceiling

end Native

/-! ## What a count is for -/

def framed (draft : Draft) : ℕ := DRAFT_FRAME_BYTES + draft.length.toNat

def framedBytes (drafts : List Draft) : ℕ := (drafts.map framed).sum

def cards (drafts : List Draft) : ℕ := (drafts.map Draft.card).toFinset.card

def projection (drafts : List Draft) : ℚ :=
  STORE_BYTES_PER_PARTITION + STORE_BYTES_PER_CARD * cards drafts +
    STORE_PER_DRAFT_BYTE_NUM / STORE_PER_DRAFT_BYTE_DEN * framedBytes drafts

/-- The drafts partition `k` of `n` holds. -/
def share (drafts : List Draft) (n k : ℕ) : List Draft := drafts.filter fun draft => draft.card % n = k

/-- No partition of `n` projects over the ceiling. -/
def Fits (drafts : List Draft) (ceiling n : ℕ) : Prop := ∀ k < n, projection (share drafts n k) ≤ ceiling

/-- The counts a sizing may choose: those whose partitions all fit, and the largest. -/
def Admissible (drafts : List Draft) (ceiling : ℕ) : Set ℕ :=
  { n | MIN_PARTITION_COUNT ≤ n ∧ n ≤ MAX_PARTITION_COUNT ∧ (Fits drafts ceiling n ∨ n = MAX_PARTITION_COUNT) }

def scaled (drafts : List Draft) : ℕ :=
  (STORE_BYTES_PER_PARTITION + STORE_BYTES_PER_CARD * cards drafts) * STORE_PER_DRAFT_BYTE_DEN +
    STORE_PER_DRAFT_BYTE_NUM * framedBytes drafts

end Sizing
