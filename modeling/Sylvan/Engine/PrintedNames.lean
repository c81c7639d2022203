-- SUMMARY: The printed-names blob: its parser, and the partitions whose printed names complete a list of words.
import Mathlib.Data.List.Sort
import Sylvan.Data.Search
import Sylvan.Engine.NamesBlob

/-!
# Printed names

One line a card: its partition, its oracle name, its printed names. A search answers which
partitions hold a card whose printed name, pooled with its oracle name, carries every word.
-/

namespace PrintedNames

open RustStr

def PRINTED_BLOB_HEADER : List Char := "sylvan-printed-names/1\n".toList

/-- What the standard library provides. -/
structure Host where
  isAlphanumeric : Char → Bool
  /-- A string as `{:?}` prints it. -/
  debug : List Char → String
  /-- What `from_utf8` says of bytes it refuses. -/
  utf8Error : Bytes → String

/-- A card's oracle name or one of its printed forms. -/
structure Field where
  start : ℕ
  card : ℕ
  oracle : Bool
  len : ℕ
deriving DecidableEq

structure PrintedList where
  text : List Char
  fields : List Field
  partitions : List ℕ
  printed : ℕ
deriving DecidableEq

/-! ## Parsing -/

def isAsciiAlphanumeric (b : ℕ) : Bool :=
  0x30 ≤ b && b ≤ 0x39 || 0x41 ≤ b && b ≤ 0x5a || 0x61 ≤ b && b ≤ 0x7a

def FORM_BYTE (b : UInt8) : Bool := b.toNat = 0x20 || isAsciiAlphanumeric b.toNat

/-- `memchr2_iter(b'\t', b'\n', …)`: the offset of each separator, and which it is; `start` is where the text stands. -/
def separators (start : ℕ) : List Char → List (ℕ × Char)
  | [] => []
  | c :: cs =>
    if c = '\t' ∨ c = '\n' then (start, c) :: separators (start + 1) cs
    else separators (start + (Utf8.encodeChar c).length) cs

/-- The lines read so far, and where the line under way stands. -/
structure Parsing where
  fields : List Field
  partitions : List ℕ
  printed : ℕ
  start : ℕ
  field : ℕ
  partition : ℕ
deriving DecidableEq

/-- Why a field is refused; `none` where slicing the text would panic. -/
abbrev Checked : Type → Type := Except (Option String)

def refuse {α : Type} (message : String) : Checked α := .error (some message)

def readField (host : Host) (s : Parsing) (n stop : ℕ) (value : List Char) : Checked Parsing := do
  if 0xffff < RustStr.len value then refuse s!"printed names line {n}: a field past 64KB"
  else if 2 ^ 31 ≤ s.partitions.length then refuse "too many printed-name lines"
  else
    match s.field with
    | 0 =>
      match NamesBlob.fromStrRadix 10 0xffff value with
      | none => refuse s!"printed names line {n}: bad partition {host.debug value}"
      | some partition => .ok { s with partition := partition, start := stop + 1 }
    | 1 =>
      .ok { s with
        fields := s.fields ++ [⟨s.start, s.partitions.length, true, RustStr.len value⟩], start := stop + 1 }
    | _ =>
      if value = [] ∨ (utf8 value).all FORM_BYTE = false then
        refuse s!"printed names line {n}: {host.debug value} is not a printed form"
      else
        .ok { s with
          fields := s.fields ++ [⟨s.start, s.partitions.length, false, RustStr.len value⟩], start := stop + 1 }

def endField (s : Parsing) (n : ℕ) (sep : Char) : Checked Parsing :=
  if sep = '\t' then .ok { s with field := s.field + 1 }
  else
    match s.field with
    | 0 => refuse s!"printed names line {n}: no oracle name"
    | 1 => refuse s!"printed names line {n}: a card with no printed name"
    | forms =>
      .ok { s with printed := s.printed + (forms - 1), partitions := s.partitions ++ [s.partition], field := 0 }

def parseStep (host : Host) (text : List Char) (s : Parsing) (at_ : ℕ × Char) : Checked Parsing :=
  match slice text s.start at_.1 with
  | none => .error none
  | some value => do
      let read ← readField host s (s.partitions.length + 1) at_.1 value
      endField read (s.partitions.length + 1) at_.2

def parse (host : Host) (raw : Bytes) : Checked PrintedList :=
  match fromUtf8 raw with
  | none => refuse s!"printed names blob is not UTF-8: {host.utf8Error raw}"
  | some text =>
    if ¬ PRINTED_BLOB_HEADER <+: text then
      refuse s!"printed names blob starts {host.debug ((NamesBlob.firstLine text).take 40)}, not a printed-names header"
    else if 2 ^ 32 ≤ RustStr.len text then
      refuse s!"printed names blob is {RustStr.len text} bytes, past what a u32 offset addresses"
    else
      let body := text.drop PRINTED_BLOB_HEADER.length
      if body ≠ [] ∧ body.getLast? ≠ some '\n' then
        refuse "printed names blob does not end in a line break (truncated?)"
      else do
        let s ← (separators (RustStr.len PRINTED_BLOB_HEADER) body).foldlM (parseStep host text)
          ⟨[], [], 0, RustStr.len PRINTED_BLOB_HEADER, 0, 0⟩
        pure ⟨text, s.fields, s.partitions, s.printed⟩

/-! ## Carriers -/

/-- `fields.partition_point(|f| f.start <= at)`, of fields in the order of their starts. -/
def partitionPoint (fields : List Field) (at_ : ℕ) : ℕ := Search.partitionPoint (fun f => decide (f.start ≤ at_)) fields

/-- The end of the last field that starts no later than a hit, where the hit lies within that field. -/
def fieldEnd (fields : List Field) (word : Bytes) (at_ : ℕ) : Option ℕ :=
  match fields[partitionPoint fields at_ - 1]? with
  | some f =>
    if 0 < partitionPoint fields at_ ∧ at_ + word.length ≤ f.start + f.len then some (f.start + f.len) else none
  | none => none

/-- The loop of one word over the text, from `pos`; `left` bounds its steps. -/
def markFields (fields : List Field) (hay word : Bytes) : (left pos : ℕ) → List Bool → List Bool
  | 0, _, marks => marks
  | left + 1, pos, marks =>
    if pos < hay.length then
      match Search.find word (hay.drop pos) with
      | none => marks
      | some off =>
        match fieldEnd fields word (pos + off) with
        | some stop => markFields fields hay word left stop (marks.set (partitionPoint fields (pos + off) - 1) true)
        -- Inside a partition number, which is no name.
        | none => markFields fields hay word left (pos + off + 1) marks
    else marks

def hits (fields : List Field) (hay : Bytes) : List Bytes → Option (List (List Bool))
  | [] => some []
  | word :: words =>
    let marks := markFields fields hay word hay.length (RustStr.len PRINTED_BLOB_HEADER)
      (List.replicate fields.length false)
    if marks.any id then (hits fields hay words).map (marks :: ·) else none

def carried (i oracleAt : ℕ) (own : Bool) : List (List Bool) → Bool × Bool
  | [] => (true, own)
  | marks :: rest =>
    let own := own || marks.getD i false
    if marks.getD i false || marks.getD oracleAt false then carried i oracleAt own rest else (false, own)

/-- Insert into a `BTreeSet`, as its elements in order. -/
def insertSet (p : ℕ) (found : List ℕ) : List ℕ := if p ∈ found then found else found.orderedInsert (· ≤ ·) p

/-- The partitions found so far, and the oracle name of the card under way. -/
def foundStep (partitions : List ℕ) (hit : List (List Bool)) (s : List ℕ × ℕ) (field : Field × ℕ) : List ℕ × ℕ :=
  if field.1.oracle then (s.1, field.2)
  else
    let p := partitions.getD field.1.card 0
    if p ∈ s.1 then s
    else
      let (all, own) := carried field.2 s.2 false hit
      if all && own then (insertSet p s.1, s.2) else s

def needles (host : Host) (words : List (List Char)) : List (List Char) :=
  (words.map fun w => w.filter host.isAlphanumeric).filter fun w => w ≠ []

def isAscii (w : List Char) : Bool := w.all fun c => c.toNat < 0x80

def carriers (host : Host) (list : PrintedList) (words : List (List Char)) : Option (List ℕ) :=
  let needles := needles host words
  if needles.any fun w => !isAscii w then none
  else if needles = [] then some []
  else
    match hits list.fields (utf8 list.text) (needles.map utf8) with
    | none => some []
    | some hit => some (list.fields.zipIdx.foldl (foundStep list.partitions hit) ([], 0)).1

end PrintedNames
