-- SUMMARY: The refreshed `is:` lists: the compiled table as the night reads it, the stored state, the lines of each unit, and the override composed of them.
import Sylvan.Import.IsListTable

/-!
# The refreshed `is:` lists

The compiled table is exact on the day it was measured. The nights read what moved since
and keep it in a state; the override is the compiled lines with every list the state
holds in place of the compiled one.
-/

namespace IsLists

/-! ## The compiled table -/

structure CompiledBase where
  fingerprint : List Char
  date : List Char
  tiers : List Char
  totals : ListTag → Option ℕ
  /-- Rows of its covered lines in a language other than English. -/
  foreignRows : ℕ
  /-- Whether its covered and related lines are the kinds a set's lines can replace. -/
  refinable : Bool
  /-- The card lists' own lines of rows that are out. -/
  keep : SmallList → List (List Char)

/-- `line.split("\t")[i]`, empty where there is none. -/
def fieldAt (line : List Char) (i : ℕ) : List Char := ((line.splitOn '\t')[i]?).getD []

/-- `/^print_tiers\.tsv (\S+)$/` -/
def tiersNamed (comment : List Char) : Option (List Char) :=
  (Text.stripLit "print_tiers.tsv ".toList comment).filter fun word => !word.isEmpty && word.all fun c => !isSpace c

def isWord (c : Char) : Bool := Text.isLowerOrDigit c || ('A' ≤ c && c ≤ 'Z') || c = '_'

/-- `/^(\w+): (\d+) rows of every language/` -/
def totalNamed (comment : List Char) : Option (ListTag × ℕ) := do
  let (word, rest) ← Text.stripRun isWord comment
  let rest ← Text.stripLit ": ".toList rest
  let (digits, rest) ← Text.stripRun Text.isDigit rest
  let _ ← Text.stripLit " rows of every language".toList rest
  let tag ← tagOf word
  return (tag, Text.decimal (String.ofList digits))

/-- `/api\.scryfall\.com, (\d{4}-\d{2}-\d{2})\.$/` -/
def dayNamed (comment : List Char) : Option (List Char) := do
  let rest ← Text.stripLit "api.scryfall.com, ".toList (comment.drop (comment.length - 29))
  if rest.getLast? = some '.' ∧ isDay rest.dropLast then some rest.dropLast else none

structure HeaderFacts where
  tiers : List Char := []
  date : List Char := []
  totals : ListTag → Option ℕ := fun _ => none

def HeaderFacts.take (facts : HeaderFacts) (comment : List Char) : HeaderFacts :=
  { tiers := (tiersNamed comment).getD facts.tiers
    date := if facts.date = [] then (dayNamed comment).getD [] else facts.date
    totals := match totalNamed comment with
      | some (tag, total) => fun t => if t = tag then some total else facts.totals t
      | none => facts.totals }

/-- `line.slice(0, line.indexOf("\t"))`. -/
def firstField (line : List Char) : List Char :=
  if '\t' ∈ line then line.takeWhile (· ≠ '\t') else line.dropLast

/-- A covered line a set's lines or the foreign rows can replace. -/
def coveredRefinable (line : List Char) : Bool :=
  (fieldAt line 1 = Kind.row.name || fieldAt line 1 = Kind.notRow.name) &&
    !(fieldAt line 3).isEmpty && !(fieldAt line 4).isEmpty &&
    (fieldAt line 3 = "en".toList || fieldAt line 1 = Kind.notRow.name)

def relatedRefinable (line : List Char) : Bool :=
  fieldAt line 1 = Kind.oracle.name || fieldAt line 1 = Kind.print.name || fieldAt line 1 = Kind.not.name

/-- How many rows of another language a covered line names. -/
def foreignRowsOf (line : List Char) : ℕ :=
  if (fieldAt line 1 = Kind.row.name || fieldAt line 1 = Kind.notRow.name) && !(fieldAt line 3).isEmpty &&
      !(fieldAt line 4).isEmpty && fieldAt line 3 ≠ "en".toList then
    ((fieldAt line 4).splitOn ' ').length
  else 0

def readCompiled (tsv : List Char) : Except String (CompiledBase × (ListTag → List (List Char))) :=
  let given := (tsv.splitOn '\n').filter fun line => !line.isEmpty
  let facts := (given.filter isComment).foldl (fun facts line => facts.take (trimBy isSpace line.tail)) ({} : HeaderFacts)
  let data := given.filter fun line => !isComment line
  match data.find? fun line => (tagOf (firstField line)).isNone with
  | some line => .error s!"the compiled table has a line of no value: {String.ofList line}"
  | none =>
    let lines : ListTag → List (List Char) := fun tag => data.filter fun line => tagOf (firstField line) = some tag
    if facts.date = [] || facts.tiers = [] then
      .error "the compiled table does not say when it was measured or against which tier table"
    else .ok
      ({ fingerprint := Fnv.fnv1a64Halves (RustStr.utf8 tsv)
         date := facts.date
         tiers := facts.tiers
         totals := facts.totals
         foreignRows := ((lines .covered).map foreignRowsOf).sum
         refinable := (lines .covered).all coveredRefinable && (lines .related).all relatedRefinable
         keep := fun list =>
          if list ∈ CARD_LISTS then
            (lines list.tag).filter fun line =>
              fieldAt line 1 = Kind.not.name || fieldAt line 1 = Kind.notRow.name
          else [] },
       lines)

/-! ## The state -/

structure ListState where
  total : ℕ
  fetched : List Char
  lines : List (List Char)
deriving DecidableEq, Repr

/-- One set as last read. No `count`: owed a read. -/
structure SetState where
  count : Option ℕ
  fetched : Option (List Char) := none
  cov : Option ℕ := none
  unc : Option ℕ := none
  rel : Option ℕ := none
  lines : Option (List (List Char)) := none
deriving DecidableEq, Repr

/-- The newest end of the record of artwork representatives, as last read. -/
structure ArtRepsState where
  total : ℕ
  fetched : List Char
  /-- The day it was read back to. -/
  back : List Char
  lines : List (List Char)
deriving DecidableEq, Repr

structure IsListsState where
  /-- The compiled table this refines. -/
  base : List Char
  baseDate : List Char
  /-- The last night the refresh ran to its end. -/
  checked : Option (List Char)
  lists : JsMap SmallList ListState
  /-- The rows not covered in a language other than English. -/
  foreign : Option ListState
  sets : JsMap (List Char) SetState
  art : Option ArtRepsState

def freshState (base : CompiledBase) : IsListsState :=
  { base := base.fingerprint, baseDate := base.date, checked := none, lists := .empty, foreign := none,
    sets := .empty, art := none }

/-- Whether the state says anything the compiled table does not, to a builder that reads the artwork
representatives' lines or to one that would refuse them. -/
def refines (state : IsListsState) (artReps : Bool) : Bool :=
  !state.lists.entries.isEmpty || state.foreign.isSome || (state.sets.entries.any fun e => e.2.lines.isSome) ||
    (artReps && state.art.isSome)

/-! ## The lines of a unit read whole -/

def listLines (keep : SmallList → List (List Char)) (list : SmallList) (rows : List Got) : List (List Char) :=
  if list ∈ CARD_LISTS then oracleLines list.tag.name rows ++ keep list
  else rowLines list.tag.name Kind.row.name rows

def foreignLines (rows : List Got) : List (List Char) := rowLines ListTag.covered.name Kind.notRow.name rows

def artLines (rows : List Got) : List (List Char) := rowLines ART_REP_LINE Kind.row.name rows

/-- `text.toLowerCase()` of a set code, which has ASCII letters and digits alone. -/
def lowerCase (text : List Char) : List Char := text.map Char.toLower

/-- The rows of a set by key, the covered half first. -/
def allOf (covered uncovered : List Got) : JsMap (List Char) Got :=
  (covered ++ uncovered).foldl (fun all g => all.set (keyOf g) g) .empty

def english (rows : List Got) : List Got := rows.filter fun g => g.l = "en".toList

/-- One set, read whole: every printing of it written in or out of covered (English) and related. -/
def setLines (code : List Char) (covered uncovered related : List Got) : List (List Char) :=
  let set := lowerCase code
  let inRelated := JsSet.of (related.map (·.n))
  printLines ListTag.covered.name Kind.row.name (tabbed [set, "en".toList]) ((english covered).map (·.n)) ++
    printLines ListTag.covered.name Kind.notRow.name (tabbed [set, "en".toList]) ((english uncovered).map (·.n)) ++
    -- By printing, in every language: Scryfall's class is by card, so a printing's rows agree.
    printLines ListTag.related.name Kind.print.name set inRelated ++
    printLines ListTag.related.name Kind.not.name set
      ((((allOf covered uncovered).entries.map Prod.snd).filter fun g => g.n ∉ inRelated).map (·.n)) ++
    -- A related printing with no `all_parts` of its own: its card is related, wherever printed.
    oracleLines ListTag.related.name (related.filter fun g => !g.p)

/-! ## The override -/

/-- A text without a line end: what `JSON.stringify` writes. -/
abbrev OneLine : Type := { text : List Char // '\n' ∉ text ∧ '\r' ∉ text }

def smallOf (tag : ListTag) : Option SmallList := (ROW_LISTS ++ CARD_LISTS).find? fun list => list.tag = tag

def isCoveredLine (line : List Char) : Bool := "covered\t".toList.isPrefixOf line

def readSets (state : IsListsState) : List (List Char × List (List Char)) :=
  (state.sets.entries.filterMap fun e => e.2.lines.map fun lines => (e.1, lines)).insertionSort
    fun a b => textBefore a.1 b.1

/-- The lines of each value, the refreshed ones in place of the compiled ones. -/
def refreshed (lines : ListTag → List (List Char)) (state : IsListsState) : ListTag → List (List Char)
  | .covered =>
    ((lines .covered).filter fun line =>
      if fieldAt line 3 ≠ "en".toList then state.foreign.isNone
      else fieldAt line 2 ∉ (readSets state).map Prod.fst) ++
    ((state.foreign.map (·.lines)).getD []) ++
    (readSets state).flatMap fun e => e.2.filter isCoveredLine
  | .related =>
    JsSet.of (lines .related ++ (readSets state).flatMap fun e => e.2.filter fun line => !isCoveredLine line)
  | tag =>
    match (smallOf tag).bind state.lists.get with
    | some list => list.lines
    | none => lines tag

def isArtLine (line : List Char) : Bool := (ART_REP_LINE ++ "\trow\t".toList).isPrefixOf line

section

variable (noteText : IsListsState → List Char → Bool → OneLine)

def overrideHeader (base : CompiledBase) (state : IsListsState) (artReps : Bool) : List (List Char) :=
  ["# OVERRIDE of is_lists.tsv (".toList ++ base.date ++ "), composed by src/import-is-lists.ts; checked ".toList ++
      state.checked.getD "never".toList ++ ['.'],
    "# base ".toList ++ base.fingerprint,
    "# print_tiers.tsv ".toList ++ base.tiers,
    "# meta ".toList ++ (noteText state base.date artReps).val] ++
  match (if artReps then state.art else none) with
  | some art => ["# art-reps-from ".toList ++ art.back]
  | none => []

def overrideBody (lines : ListTag → List (List Char)) (state : IsListsState) (artReps : Bool) : List (List Char) :=
  LIST_TAGS.flatMap (refreshed lines state) ++ (((if artReps then state.art else none).map (·.lines)).getD [])

/-- The table the builder is handed; `none` when the state refines nothing. -/
def composeOverride (tsv : List Char) (state : IsListsState) (artReps : Bool) : Except String (Option (List Char)) := do
  let (base, lines) ← readCompiled tsv
  if state.base ≠ base.fingerprint then
    .error s!"the state refines table {String.ofList state.base}, not {String.ofList base.fingerprint}"
  else if !refines state artReps then .ok none
  else if (state.foreign.isSome || !(readSets state).isEmpty) && !base.refinable then
    .error "the compiled covered or related lines are of a kind a set's lines cannot replace"
  else if (if artReps then state.art else none).any fun art => !isDay art.back || art.lines.any fun line => !isArtLine line then
    .error "the stored artwork representatives are not rows under a day"
  else do
    let body ← (overrideBody lines state artReps).mapM checkLine
    .ok (some (['\n'].intercalate (overrideHeader noteText base state artReps ++ body) ++ ['\n']))

end

def tableLines (table : List Char) : ℕ :=
  ((table.splitOn '\n').filter fun line => line ≠ [] && !isComment line).length

end IsLists
