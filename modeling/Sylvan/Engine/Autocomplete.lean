-- SUMMARY: Autocomplete over the card-names list: one search of the joined names, a ranking, and the head of its sort.
import Mathlib.Data.Prod.Lex
import Mathlib.Data.Rat.Defs
import Mathlib.Algebra.Order.Ring.Rat
import Mathlib.Data.List.Lex
import Mathlib.Data.Char
import Mathlib.Data.Finset.Dedup
import Mathlib.Data.Finset.Card
import Mathlib.Order.Compare
import Sylvan.Data.HeadSort
import Sylvan.Data.Search
import Sylvan.Engine.NamesBlob

/-!
# Autocomplete

The answer is the printed names of the hits, the best first. `autocomplete` is the code's scan
and selection; `plain` says what the answer is: every name that holds the needle, sorted, and
the first distinct printed names of the sort.
-/

namespace Autocomplete

open NamesBlob RustStr

/-- What the standard library tells of characters. -/
structure Letters where
  isAlphanumeric : Char → Bool
  newline : isAlphanumeric '\n' = false

/-- `select_nth_unstable_by(k, order)`: the `k` least first, each side in an order of its own. -/
structure Selection (α : Type) where
  select : (order : α → α → Ordering) → (k : ℕ) → List α → List α
  selects : ∀ (order : α → α → Ordering) (k : ℕ) (l : List α), k < l.length →
    (∀ a ∈ l, ∀ b ∈ l, order a b ≠ .gt ∨ order b a ≠ .gt) →
    (∀ a ∈ l, ∀ b ∈ l, ∀ c ∈ l, order a b ≠ .gt → order b c ≠ .gt → order a c ≠ .gt) →
    HeadSort.Selects (fun a b => order a b ≠ .gt) (k + 1) l (select order k l)

/-! ## Similarity -/

/-- `collate_name`. -/
def collateName (letters : Letters) (folded : List Char) : List Char := folded.filter letters.isAlphanumeric

abbrev Window : Type := Char × Char × Char

def windows (collated : List Char) : List Window := windowsFrom ' ' ' ' (collated ++ [' '])

def pushWindow (out : List Window) (window : Window) : List Window := if window ∈ out then out else out ++ [window]

/-- `collated_trigrams`: the windows, each once. -/
def collatedTrigrams (collated : List Char) : List Window :=
  if collated.isEmpty then [] else (windows collated).foldl pushWindow []

def seeWindow (needleTg : List Window) (seen : List Bool) (window : Window) : List Bool :=
  match needleTg.idxOf? window with
  | some j => seen.set j true
  | none => seen

/-- `shared_windows`: the needle's windows that occur in the name. -/
def sharedWindows (needleTg : List Window) (collated : List Char) : ℕ :=
  ((windows collated).foldl (seeWindow needleTg) (List.replicate needleTg.length false)).countP id

/-! ## Hits -/

structure Hit where
  rank : ℕ
  inter : ℕ
  total : ℕ
  printed : List Char
  index : ℕ
deriving DecidableEq

def unionOf (qn inter total : ℕ) : ℕ := qn + total - inter

/-- Prefixes first, the more similar first, then by printed name and by place. -/
def order (qn : ℕ) (a b : Hit) : Ordering :=
  (cmp a.rank b.rank).then
    ((cmp (b.inter * unionOf qn a.inter a.total) (a.inter * unionOf qn b.inter b.total)).then
      ((cmp a.printed b.printed).then (cmp a.index b.index)))

/-- Whether entry `i` is a card autocomplete may offer. -/
def served (host : Host) (e : Entry) : Bool := e.classes &&& host.CLASS_EXTRA_GATE ≠ 0

/-- The hits so far, and the entry hit last. -/
structure Scan where
  last : Option ℕ
  hits : List Hit

def scanStep (host : Host) (list : NameList host.Bits) (needle : List Char) (needleTg : List Window)
    (includeExtras : Bool) (s : Scan) (at_ : ℕ) : Checked Scan :=
  match Search.partitionPoint (fun start : UInt32 => decide (start.toNat ≤ at_)) list.collatedStarts with
  | 0 => .error .panic
  | i + 1 =>
    if s.last = some i then .ok s
    else do
      let e ← orPanic list.entries[i]?
      if !includeExtras && !served host e then .ok { s with last := some i }
      else do
        let collated ← list.atCollated e.collated
        let printed ← list.atText e.printed
        let count ← orPanic list.trigramCounts[i]?
        .ok {
          last := some i
          hits := s.hits ++ [{
            rank := if needle <+: collated then 0 else 1, inter := sharedWindows needleTg collated,
            total := count.toNat, printed := printed, index := i }] }

def sortHits (qn : ℕ) (hits : List Hit) : List Hit := hits.insertionSort fun a b => order qn a b ≠ .gt

/-- The head of the sort where it decides the answer, all of it elsewhere. -/
def rankHits (selection : Selection Hit) (qn limit : ℕ) (hits : List Hit) : List Hit :=
  let head := max (limit * 4) (limit + 16)
  if head < hits.length then
    let selected := selection.select (order qn) (head - 1) hits
    let top := sortHits qn (selected.take head)
    if (HeadSort.takeDistinct limit [] (top.map Hit.printed)).length = limit then top
    else sortHits qn (top ++ selected.drop head)
  else sortHits qn hits

def autocomplete (host : Host) (letters : Letters) (selection : Selection Hit) (list : NameList host.Bits)
    (pfx : List Char) (limit : ℕ) (includeExtras : Bool) : Checked (List (List Char)) := do
  let needle := collateName letters (host.toLowercase pfx)
  if needle.length < 2 then .ok []
  else do
    let needleTg := collatedTrigrams needle
    let scan ← (Search.findIter (utf8 needle) (utf8 list.collated)).foldlM
      (scanStep host list needle needleTg includeExtras) ⟨none, []⟩
    .ok (HeadSort.takeDistinct limit [] ((rankHits selection needleTg.length limit scan.hits).map Hit.printed))

/-! ## The answer -/

structure Row where
  collated : List Char
  printed : List Char
  served : Bool
deriving DecidableEq

def rowsOf (host : Host) (list : NameList host.Bits) : Checked (List Row) :=
  list.entries.mapM fun e => do
    let collated ← list.atCollated e.collated
    let printed ← list.atText e.printed
    pure ⟨collated, printed, served host e⟩

def similarity (a b : List Char) : ℚ :=
  ((windows a).toFinset ∩ (windows b).toFinset).card / ((windows a).toFinset ∪ (windows b).toFinset).card

/-- Names that begin with the needle first, then the more similar, then by printed name, then by place. -/
def rankKey (needle : List Char) (row : Row × ℕ) : ℕ ×ₗ ℚ ×ₗ List Char ×ₗ ℕ :=
  toLex (if needle <+: row.1.collated then 0 else 1, toLex (-similarity needle row.1.collated, toLex (row.1.printed, row.2)))

/-- The plain answer: sort every row that is offered and holds the needle, and take the first distinct printed names. -/
def plain (needle : List Char) (limit : ℕ) (includeExtras : Bool) (rows : List Row) : List (List Char) :=
  if needle.length < 2 then []
  else
    let offered := rows.zipIdx.filter fun row => (includeExtras || row.1.served) && decide (needle <:+: row.1.collated)
    (HeadSort.distinct ((offered.insertionSort fun a b => rankKey needle a ≤ rankKey needle b).map fun row =>
      row.1.printed)).take limit

end Autocomplete
