-- SUMMARY: The builder's reading of the `is:` lists' table, when it takes an override, and what a table says of a printing.
import Sylvan.Data.Fnv
import Sylvan.Data.Layers
import Sylvan.Data.RustStr
import Sylvan.Data.Throws
import Sylvan.Import.IsListLines

/-!
# The table the builder tags printings from

The compiled table and an override of it are the same encoding. Each line names one
value's printings at some width, and the narrowest key wins.
-/

namespace IsLists

open Layers

/-! ## Tables -/

/-- An entry under a set and collector number: the value, the language it is about, empty for all
of them, and whether the printing is in. -/
structure Entry where
  tag : ListTag
  lang : List Char
  isIn : Bool
deriving DecidableEq, Repr

/-- The maps of vectors hold what was pushed under each key, in order. -/
structure Table where
  bySet : List (List Char × ListTag) := []
  byOracle : List (List Char × ListTag) := []
  byPrint : List ((List Char × List Char) × Entry) := []
  tiersFingerprint : Option (List Char) := none
  base : Option (List Char) := none
  note : Option (List Char) := none
  artFrom : Option (List Char) := none
  artRows : List (List Char × List Char × List Char) := []
  lines : ℕ := 0
deriving DecidableEq, Repr

/-- What was pushed under `key`. -/
def pushed {κ α : Type} [DecidableEq κ] (map : List (κ × α)) (key : κ) : List α :=
  map.filterMap fun e => if e.1 = key then some e.2 else none

/-! ## Reading -/

/-- `char::is_whitespace`. -/
def isWhitespace (c : Char) : Bool :=
  c.toNat ∈ [0x09, 0x0a, 0x0b, 0x0c, 0x0d, 0x20, 0x85, 0xa0, 0x1680, 0x2028, 0x2029, 0x202f, 0x205f, 0x3000] ||
    (0x2000 ≤ c.toNat && c.toNat ≤ 0x200a)

/-- Both ends stripped of the characters of a class. -/
def trimBy (cls : Char → Bool) (s : List Char) : List Char :=
  ((s.dropWhile cls).reverse.dropWhile cls).reverse

/-- A carriage return before the line feed is part of the line end. -/
def stripCr (line : List Char) : List Char :=
  if line.getLast? = some '\r' then line.dropLast else line

/-- `str::lines`, the empty ones left out. -/
def rustLines (tsv : List Char) : List (List Char) :=
  let pieces := tsv.splitOn '\n'
  (pieces.dropLast.map stripCr ++ pieces.getLast?.toList).filter fun line => !line.isEmpty

inductive Line where
  | set (tag : ListTag) (set : List Char)
  | oracle (tag : ListTag) (id : List Char)
  | numbers (tag : ListTag) (set lang : List Char) (numbers : List (List Char)) (isIn : Bool)
  | art (set lang : List Char) (numbers : List (List Char))
deriving DecidableEq, Repr

def malformed (line : List Char) : String := s!"is_lists.tsv: malformed row {String.ofList line}"

def numbersIn (line list : List Char) : Except String (List (List Char)) :=
  let numbers := list.splitOn ' '
  if numbers.any List.isEmpty then .error s!"is_lists.tsv: an empty collector number in {String.ofList line}"
  else .ok numbers

def readFields (line : List Char) (tag : ListTag) (kind : Option Kind) (fields : List (List Char)) : Except String Line :=
  match kind, fields with
  | some .set, [set] => .ok (.set tag set)
  | some .oracle, [id, _] => .ok (.oracle tag id)
  | some .print, [set, list] => return .numbers tag set [] (← numbersIn line list) true
  | some .not, [set, list] => return .numbers tag set [] (← numbersIn line list) false
  | some .row, [set, lang, list] => return .numbers tag set lang (← numbersIn line list) true
  | some .notRow, [set, lang, list] => return .numbers tag set lang (← numbersIn line list) false
  | _, _ => .error (malformed line)

def readLine (line : List Char) : Except String Line :=
  let fields := line.splitOn '\t'
  if fields.any List.isEmpty then .error (malformed line)
  else match fields with
    | tag :: kind :: rest =>
      if tag = ART_REP_LINE then
        match rest with
        | [set, lang, list] =>
          if kind = Kind.row.name then return .art set lang (← numbersIn line list) else .error (malformed line)
        | _ => .error (malformed line)
      else match tagOf tag with
        | some tag => readFields line tag (kindOf kind) rest
        | none => .error (malformed line)
    | _ => .error (malformed line)

def Table.push (table : Table) : Line → Table
  | .set tag set => { table with bySet := table.bySet ++ [(set, tag)], lines := table.lines + 1 }
  | .oracle tag id => { table with byOracle := table.byOracle ++ [(id, tag)], lines := table.lines + 1 }
  | .numbers tag set lang numbers isIn =>
    { table with
      byPrint := table.byPrint ++ numbers.map fun number => ((set, number), ⟨tag, lang, isIn⟩)
      lines := table.lines + 1 }
  | .art set lang numbers =>
    { table with
      artRows := table.artRows ++ numbers.map fun number => (set, number, lang)
      lines := table.lines + 1 }

/-- A comment line, its `#` stripped and its ends trimmed. -/
def Table.comment (table : Table) (comment : List Char) : Table :=
  match Text.stripLit "print_tiers.tsv ".toList comment with
  | some fingerprint => { table with tiersFingerprint := some fingerprint }
  | none => match Text.stripLit "base ".toList comment with
    | some base => { table with base := some base }
    | none => match Text.stripLit "meta ".toList comment with
      | some note => { table with note := some note }
      | none => match Text.stripLit "art-reps-from ".toList comment with
        | some day => { table with artFrom := some day }
        | none => table

def Table.take (table : Table) (line : List Char) : Except String Table :=
  match line with
  | '#' :: comment => .ok (table.comment (trimBy isWhitespace comment))
  | line => return table.push (← readLine line)

/-- The table in `tsv`, or the first line that is not one. -/
def tryParse (tsv : List Char) : Except String Table := (rustLines tsv).foldlM Table.take {}

/-! ## Overrides -/

/-- `YYYY-MM-DD`. -/
def isDay (text : List Char) : Bool :=
  text.length = 10 && text.zipIdx.all fun c => if c.2 = 4 ∨ c.2 = 7 then c.1 = '-' else Text.isDigit c.1

def compiledFingerprint (compiled : List Char) : List Char := Fnv.fnv1a64 (RustStr.utf8 compiled)

/-- `tsv` as a table that may stand in for the compiled one, or why it may not. -/
def checkedOverride (compiled : List Char) (compiledTable : Table) (tsv : List Char) : Except String Table := do
  let table ← tryParse tsv
  if table.base ≠ some (compiledFingerprint compiled) then
    .error "the override was composed over another table than this build compiles"
  else if table.tiersFingerprint ≠ compiledTable.tiersFingerprint then
    .error "the override's lines were measured against another print_tiers.tsv than this build compiles"
  else if table.lines = 0 then .error "the override holds no line"
  else match table.artFrom with
    | some day => if isDay day then .ok table else .error "the override's art-reps-from is not a day"
    | none =>
      if table.artRows ≠ [] then .error "the override names artwork representatives and no art-reps-from day"
      else .ok table

/-! ## Verdicts -/

structure Printing where
  set : List Char
  lang : List Char
  number : List Char
  oracles : List (List Char)
deriving DecidableEq, Repr

/-- The verdict for each value: in, out, or nothing. -/
abbrev Verdicts : Type := ListTag → Option Bool

def Verdicts.put (out : Verdicts) (tag : ListTag) (isIn : Bool) : Verdicts :=
  fun t => if t = tag then some isIn else out t

def verdictsIn (table : Table) (row : Printing) : Verdicts :=
  let out : Verdicts := fun _ => none
  let out := (pushed table.bySet row.set).foldl (fun out tag => out.put tag true) out
  let out := (row.oracles.flatMap (pushed table.byOracle)).foldl (fun out tag => out.put tag true) out
  let entries := pushed table.byPrint (row.set, row.number)
  let out := (entries.filter fun e => e.lang.isEmpty).foldl (fun out e => out.put e.tag e.isIn) out
  (entries.filter fun e => !e.lang.isEmpty && e.lang = row.lang).foldl (fun out e => out.put e.tag e.isIn) out

/-! ## What a line says -/

def Line.sets : Line → List (List Char × ListTag)
  | .set tag code => [(code, tag)]
  | _ => []

def Line.oracles : Line → List (List Char × ListTag)
  | .oracle tag id => [(id, tag)]
  | _ => []

def Line.prints : Line → List ((List Char × List Char) × Entry)
  | .numbers tag code lang list isIn => list.map fun number => ((code, number), ⟨tag, lang, isIn⟩)
  | _ => []

def Line.arts : Line → List (List Char × List Char × List Char)
  | .art code lang list => list.map fun number => (code, number, lang)
  | _ => []

def Line.value : Line → Option ListTag
  | .set tag _ => some tag
  | .oracle tag _ => some tag
  | .numbers tag _ _ _ _ => some tag
  | .art _ _ _ => none

def Line.own (row : Printing) (tag : ListTag) : Line → Option Bool
  | .numbers t code lang list isIn =>
    if t = tag ∧ lang ≠ [] ∧ lang = row.lang ∧ code = row.set ∧ row.number ∈ list then some isIn else none
  | _ => none

def Line.every (row : Printing) (tag : ListTag) : Line → Option Bool
  | .numbers t code lang list isIn =>
    if t = tag ∧ lang = [] ∧ code = row.set ∧ row.number ∈ list then some isIn else none
  | _ => none

def Line.wide (row : Printing) (tag : ListTag) : Line → Option Bool
  | .set t code => if t = tag ∧ code = row.set then some true else none
  | .oracle t id => if t = tag ∧ id ∈ row.oracles then some true else none
  | _ => none

/-- What the lines say of a row: the narrowest key, and at one width the last line. -/
def saidBy (row : Printing) (tag : ListTag) (lines : List Line) : Option Bool :=
  (last (Line.own row tag) lines).or
    ((last (Line.every row tag) lines).or (last (Line.wide row tag) lines))

/-! ## The table holds what its lines say -/

def Entry.verdict (tag : ListTag) (e : Entry) : Option Bool := if e.tag = tag then some e.isIn else none

theorem put_entries (entries : List Entry) (out : Verdicts) (tag : ListTag) :
    (entries.foldl (fun out e => out.put e.tag e.isIn) out) tag = (last (Entry.verdict tag) entries).or (out tag) := by
  induction entries generalizing out with
  | nil => rfl
  | cons e entries ih =>
    rw [List.foldl_cons, ih, last_cons, Option.or_assoc]
    congr 1
    by_cases htag : e.tag = tag
    · simp [Verdicts.put, Entry.verdict, htag]
    · simp [Verdicts.put, Entry.verdict, htag, Ne.symm htag]

theorem put_tags (tags : List ListTag) (out : Verdicts) (tag : ListTag) :
    (tags.foldl (fun out t => out.put t true) out) tag = if tag ∈ tags then some true else out tag := by
  induction tags generalizing out with
  | nil => rfl
  | cons t tags ih =>
    rw [List.foldl_cons, ih]
    by_cases hmem : tag ∈ tags
    · simp [hmem]
    · by_cases htag : tag = t <;> simp [Verdicts.put, hmem, htag]

structure Table.Holds (table : Table) (lines : List Line) : Prop where
  sets : table.bySet = lines.flatMap Line.sets
  oracles : table.byOracle = lines.flatMap Line.oracles
  prints : table.byPrint = lines.flatMap Line.prints
  arts : table.artRows = lines.flatMap Line.arts
  count : table.lines = lines.length

variable {lines : List Line} {table : Table}

theorem Table.Holds.push (h : table.Holds lines) (line : Line) : (table.push line).Holds (lines ++ [line]) := by
  cases line <;> constructor <;>
    simp [Table.push, h.sets, h.oracles, h.prints, h.arts, h.count, Line.sets, Line.oracles, Line.prints, Line.arts]

theorem Table.Holds.comment (h : table.Holds lines) (comment : List Char) : (table.comment comment).Holds lines := by
  unfold Table.comment
  repeat' split
  all_goals exact ⟨h.sets, h.oracles, h.prints, h.arts, h.count⟩

theorem last_pushed {κ α β : Type} [DecidableEq κ] {say : α → Option β} (map : List (κ × α)) (key : κ) :
    last say (pushed map key) = last (fun e => if e.1 = key then say e.2 else none) map := by
  rw [pushed, last_filterMap]
  exact last_congr fun e _ => by by_cases he : e.1 = key <;> simp [he]

theorem last_numbers {α : Type} (f : Entry → Option α) (row : Printing) (code : List Char) (entry : Entry)
    (list : List (List Char)) :
    last (fun e : (List Char × List Char) × Entry => if e.1 = (row.set, row.number) then f e.2 else none)
        (list.map fun number => ((code, number), entry)) =
      if code = row.set ∧ row.number ∈ list then f entry else none := by
  induction list with
  | nil => simp
  | cons number list ih =>
    rw [List.map_cons, last_cons, ih]
    by_cases hset : code = row.set
    · by_cases hnumber : number = row.number
      · by_cases hmem : row.number ∈ list <;> cases f entry <;> simp [hset, hnumber, hmem]
      · simp [hset, hnumber, Ne.symm hnumber]
    · simp [hset]

theorem last_prints (p : Entry → Bool) (row : Printing) (tag : ListTag) (lines : List Line)
    (say : Line → Option Bool) (hnumbers : ∀ t code lang list isIn, say (.numbers t code lang list isIn) =
      if code = row.set ∧ row.number ∈ list then
        (if p ⟨t, lang, isIn⟩ = true then Entry.verdict tag ⟨t, lang, isIn⟩ else none) else none)
    (hother : ∀ line : Line, line.prints = [] → say line = none) :
    last (Entry.verdict tag) ((pushed (lines.flatMap Line.prints) (row.set, row.number)).filter p) = last say lines := by
  rw [last_guard, last_pushed, last_flatMap]
  refine last_congr fun line _ => ?_
  cases line with
  | numbers t code lang list isIn =>
    rw [hnumbers]
    exact last_numbers (fun e => if p e = true then Entry.verdict tag e else none) row code _ list
  | set t code => exact (hother _ rfl).symm
  | oracle t id => exact (hother _ rfl).symm
  | art code lang list => exact (hother _ rfl).symm

theorem mem_pushed {κ α : Type} [DecidableEq κ] {map : List (κ × α)} {key : κ} {a : α} :
    a ∈ pushed map key ↔ (key, a) ∈ map := by
  simp only [pushed, List.mem_filterMap, Prod.exists]
  constructor
  · rintro ⟨k, b, hmem, hb⟩
    split at hb
    · rename_i hk
      cases hb
      exact hk ▸ hmem
    · cases hb
  · intro hmem
    exact ⟨key, a, hmem, by simp⟩

theorem last_wide (h : table.Holds lines) (row : Printing) (tag : ListTag) :
    (if tag ∈ row.oracles.flatMap (pushed table.byOracle) then some true
      else if tag ∈ pushed table.bySet row.set then some true else none) =
      last (Line.wide row tag) lines := by
  have htrue : ∀ line ∈ lines, ∀ b ∈ line.wide row tag, b = true := by
    intro line _ b hb
    cases line with
    | set t code => simp only [Line.wide] at hb; split at hb <;> simp_all
    | oracle t id => simp only [Line.wide] at hb; split at hb <;> simp_all
    | numbers t code lang list isIn => cases hb
    | art code lang list => cases hb
  have hsome : (tag ∈ row.oracles.flatMap (pushed table.byOracle) ∨ tag ∈ pushed table.bySet row.set) ↔
      ∃ line ∈ lines, line.wide row tag = some true := by
    rw [List.mem_flatMap]
    simp only [mem_pushed, h.oracles, h.sets, List.mem_flatMap]
    constructor
    · rintro (⟨id, hid, line, hline, hmem⟩ | ⟨line, hline, hmem⟩)
      · refine ⟨line, hline, ?_⟩
        cases line <;> simp_all [Line.oracles, Line.wide]
      · refine ⟨line, hline, ?_⟩
        cases line <;> simp_all [Line.sets, Line.wide]
    · rintro ⟨line, hline, hwides⟩
      cases line with
      | set t code =>
        have hwide : t = tag ∧ code = row.set := by simpa [Line.wide] using hwides
        exact .inr ⟨_, hline, by simp [Line.sets, hwide.1, hwide.2]⟩
      | oracle t id =>
        have hwide : t = tag ∧ id ∈ row.oracles := by simpa [Line.wide] using hwides
        exact .inl ⟨id, hwide.2, _, hline, by simp [Line.oracles, hwide.1]⟩
      | numbers t code lang list isIn => cases hwides
      | art code lang list => cases hwides
  rw [← last_uniform htrue] at hsome
  cases hlast : last (Line.wide row tag) lines with
  | none =>
    rw [hlast] at hsome
    simp only [reduceCtorEq, iff_false, not_or] at hsome
    rw [if_neg hsome.1, if_neg hsome.2]
  | some b =>
    obtain ⟨line, hline, hb⟩ := mem_of_last hlast
    obtain rfl := htrue line hline b hb
    rcases hsome.mpr hlast with horacle | hset
    · rw [if_pos horacle]
    · rw [if_pos hset, ite_self]

/-- **A table says of a row what its lines say.** -/
theorem Table.Holds.verdict (h : table.Holds lines) (row : Printing)
    (tag : ListTag) : verdictsIn table row tag = saidBy row tag lines := by
  have hown : last (Entry.verdict tag)
      ((pushed table.byPrint (row.set, row.number)).filter fun e => !e.lang.isEmpty && e.lang = row.lang) =
        last (Line.own row tag) lines := by
    rw [h.prints]
    refine last_prints _ row tag lines _ (fun t code lang list isIn => ?_) fun line hline => ?_
    · simp only [Line.own, Entry.verdict, Bool.and_eq_true, Bool.not_eq_true', decide_eq_true_eq, List.isEmpty_eq_false_iff]
      grind
    · cases line <;> simp_all [Line.prints, Line.own]
  have hevery : last (Entry.verdict tag)
      ((pushed table.byPrint (row.set, row.number)).filter fun e => e.lang.isEmpty) = last (Line.every row tag) lines := by
    rw [h.prints]
    refine last_prints _ row tag lines _ (fun t code lang list isIn => ?_) fun line hline => ?_
    · simp only [Line.every, Entry.verdict, List.isEmpty_iff]
      grind
    · cases line <;> simp_all [Line.prints, Line.every]
  simp only [verdictsIn]
  rw [put_entries, put_entries, put_tags, put_tags, hown, hevery, last_wide h, saidBy]

/-! ## Reading line by line -/

def isComment (line : List Char) : Bool := line.head? = some '#'

/-- The comment lines of a table, the last of a kind winning. -/
def headerOf (lines : List (List Char)) (table : Table) : Table :=
  (lines.filter isComment).foldl (fun table line => table.comment (trimBy isWhitespace line.tail)) table

def dataOf (lines : List (List Char)) : List (List Char) := lines.filter fun line => !isComment line

theorem push_comment (table : Table) (line : Line) (comment : List Char) :
    (table.push line).comment comment = (table.comment comment).push line := by
  unfold Table.comment
  cases line <;> (repeat' split) <;> rfl

theorem headerOf_push (lines : List (List Char)) (table : Table) (line : Line) :
    headerOf lines (table.push line) = (headerOf lines table).push line := by
  unfold headerOf
  generalize lines.filter isComment = comments
  induction comments generalizing table with
  | nil => rfl
  | cons comment comments ih => rw [List.foldl_cons, List.foldl_cons, push_comment, ih]

theorem foldlM_take (lines : List (List Char)) (table : Table) : lines.foldlM Table.take table =
      ((dataOf lines).mapM readLine).map fun read => read.foldl Table.push (headerOf lines table) := by
  induction lines generalizing table with
  | nil => rfl
  | cons line lines ih =>
    by_cases hcomment : isComment line = true
    · obtain ⟨rest, rfl⟩ : ∃ rest, line = '#' :: rest := by
        cases line with
        | nil => cases hcomment
        | cons c rest => exact ⟨rest, by simpa [isComment] using hcomment⟩
      have hdata : dataOf (('#' :: rest) :: lines) = dataOf lines := by simp [dataOf, isComment]
      have hheader : headerOf (('#' :: rest) :: lines) table =
          headerOf lines (table.comment (trimBy isWhitespace rest)) := by simp [headerOf, isComment]
      rw [List.foldlM_cons, hdata, hheader]
      exact ih _
    · have htake : Table.take table line = (readLine line).map table.push := by
        unfold Table.take
        split
        · exact absurd rfl hcomment
        · cases readLine line <;> rfl
      have hdata : dataOf (line :: lines) = line :: dataOf lines := by
        simp [dataOf, Bool.not_eq_true _ ▸ hcomment]
      have hheader : headerOf (line :: lines) table = headerOf lines table := by
        simp [headerOf, Bool.not_eq_true _ ▸ hcomment]
      rw [List.foldlM_cons, htake, hdata, hheader, List.mapM_cons]
      cases hread : readLine line with
      | error e => rfl
      | ok read =>
        have hrest := ih (table.push read)
        rw [headerOf_push] at hrest
        refine hrest.trans ?_
        cases (dataOf lines).mapM readLine <;> rfl

/-- **A table is read as its data lines, under what its comments say.** -/
theorem tryParse_eq (tsv : List Char) : tryParse tsv = ((dataOf (rustLines tsv)).mapM readLine).map fun read =>
      read.foldl Table.push (headerOf (rustLines tsv) {}) :=
  foldlM_take _ _

theorem Table.Holds.foldl_push (h : table.Holds lines) (more : List Line) :
    (more.foldl Table.push table).Holds (lines ++ more) := by
  induction more generalizing table lines with
  | nil => simpa using h
  | cons line more ih => simpa using ih (h.push line)

theorem headerOf_holds (lines : List (List Char)) : (headerOf lines {}).Holds [] := by
  unfold headerOf
  have hfold : ∀ comments : List (List Char), ∀ table : Table, table.Holds [] →
      (comments.foldl (fun table line => table.comment (trimBy isWhitespace line.tail)) table).Holds [] := by
    intro comments
    induction comments with
    | nil => exact fun table h => h
    | cons comment comments ih => exact fun table h => ih _ (h.comment _)
  exact hfold _ {} ⟨rfl, rfl, rfl, rfl, rfl⟩

theorem foldl_push_header (lines : List Line) (table : Table) : (lines.foldl Table.push table).base = table.base ∧
      (lines.foldl Table.push table).tiersFingerprint = table.tiersFingerprint ∧
      (lines.foldl Table.push table).artFrom = table.artFrom := by
  induction lines generalizing table with
  | nil => exact ⟨rfl, rfl, rfl⟩
  | cons line lines ih =>
    have hpush : (table.push line).base = table.base ∧ (table.push line).tiersFingerprint = table.tiersFingerprint ∧
        (table.push line).artFrom = table.artFrom := by cases line <;> exact ⟨rfl, rfl, rfl⟩
    rw [List.foldl_cons, ← hpush.1, ← hpush.2.1, ← hpush.2.2]
    exact ih _

/-! ## What texts say -/

def lineOf (text : List Char) : Option Line := (readLine text).toOption

def ownOf (row : Printing) (tag : ListTag) (texts : List (List Char)) : Option Bool :=
  last (fun text => (lineOf text).bind (Line.own row tag)) texts

def everyOf (row : Printing) (tag : ListTag) (texts : List (List Char)) : Option Bool :=
  last (fun text => (lineOf text).bind (Line.every row tag)) texts

def wideOf (row : Printing) (tag : ListTag) (texts : List (List Char)) : Option Bool :=
  last (fun text => (lineOf text).bind (Line.wide row tag)) texts

/-- What the data lines of a table say of a row, read from their texts. -/
def textsSay (row : Printing) (tag : ListTag) (texts : List (List Char)) : Option Bool :=
  (ownOf row tag texts).or ((everyOf row tag texts).or (wideOf row tag texts))

theorem saidBy_filterMap (row : Printing) (tag : ListTag) (texts : List (List Char)) :
    saidBy row tag (texts.filterMap lineOf) = textsSay row tag texts := by
  rw [saidBy, last_filterMap, last_filterMap, last_filterMap]
  rfl

theorem filterMap_lineOf {texts : List (List Char)}
    (h : texts.mapM readLine = .ok lines) : texts.filterMap lineOf = lines := by
  have hall := Throws.forall₂_of_mapM h
  clear h
  induction hall with
  | nil => rfl
  | cons hread _ ih =>
    rw [List.filterMap_cons, lineOf, hread]
    exact congrArg _ ih

theorem mapM_readLine {texts : List (List Char)} (h : ∀ text ∈ texts, (lineOf text).isSome = true) :
    texts.mapM readLine = .ok (texts.filterMap lineOf) := by
  induction texts with
  | nil => rfl
  | cons text texts ih =>
    have hread := h text List.mem_cons_self
    rw [List.mapM_cons, ih fun t ht => h t (List.mem_cons_of_mem text ht)]
    unfold lineOf at hread ⊢
    cases hline : readLine text with
    | error e =>
      rw [hline] at hread
      cases hread
    | ok line =>
      rw [List.filterMap_cons, hline]
      rfl

theorem verdict_of_tryParse {tsv : List Char} (h : tryParse tsv = .ok table) :
    (∀ text ∈ dataOf (rustLines tsv), (lineOf text).isSome = true) ∧
      ∀ row tag, verdictsIn table row tag = textsSay row tag (dataOf (rustLines tsv)) := by
  rw [tryParse_eq] at h
  cases hread : (dataOf (rustLines tsv)).mapM readLine with
  | error e =>
    rw [hread] at h
    cases h
  | ok lines =>
    rw [hread] at h
    have htable : lines.foldl Table.push (headerOf (rustLines tsv) {}) = table := Except.ok.inj h
    constructor
    · intro text htext
      obtain ⟨line, hline⟩ := Throws.ok_of_mem_mapM hread htext
      rw [lineOf, hline]
      rfl
    · intro row tag
      have hholds := (headerOf_holds (rustLines tsv)).foldl_push lines
      rw [htable] at hholds
      rw [hholds.verdict, List.nil_append, ← filterMap_lineOf hread, saidBy_filterMap]

end IsLists
