-- SUMMARY: The card-names blob: its parsers, and format 3's encoder.
import Mathlib.Data.List.Dedup
import Sylvan.Data.RustStr

/-!
# The card-names blob

The query engine reads the blob and answers autocomplete and fuzzy plans from it; both
publishers run the encoder, so that what they store is what the engine's parser reads.
Format 1 is read for autocomplete only, format 2 holds a card record a line, and format
3 holds the same records in columns, with what a load builds from them already built.
-/

namespace NamesBlob

open RustStr

def NAMES_BLOB_HEADER : List Char := "sylvan-card-names/1\n".toList
def NAMES_BLOB_HEADER_V2 : List Char := "sylvan-card-names/2\n".toList
def NAMES_BLOB_HEADER_V3 : List Char := "sylvan-card-names/3\n".toList

def SHAPE_LOWER_IS_PRINTED_LOWERCASED : UInt8 := 1
def SHAPE_FOLDED_IS_LOWER : UInt8 := 2

inductive Fault where
  | error (message : String)
  | panic

abbrev Checked : Type → Type := Except Fault

def fail {α : Type} (message : String) : Checked α := .error (.error message)

def refuse (c : Prop) [Decidable c] (message : String) : Checked Unit :=
  if c then fail message else .ok ()

def orPanic {α : Type} : Option α → Checked α
  | some a => .ok a
  | none => .error .panic

/-! ## The tables -/

abbrev Span : Type := UInt32 × UInt32

structure FuzzySignature (Bits : Type) where
  trigrams : UInt16
  bits : Bits
deriving DecidableEq

structure Read where
  collated : List Char
  printed : List Char
  lower : List Char
  folded : List Char
  partition : UInt16
  classes : UInt8
  best : UInt8
  flavor : List (List Char × UInt8)
deriving DecidableEq

/-- What the standard library and the engine's own crate provide. -/
structure Host where
  toLowercase : List Char → List Char
  Bits : Type
  decEqBits : DecidableEq Bits
  /-- `FuzzyProbe::signature`. -/
  signature : List Char → FuzzySignature Bits
  /-- `FuzzyProbe::signature_bits`. -/
  signatureBits : List Char → Bits
  /-- A string as `{:?}` prints it. -/
  debug : List Char → String
  debugRead : Read → String
  /-- What `from_utf8` says of bytes it refuses. -/
  utf8Error : Bytes → String
  CLASS_EXTRA_GATE : UInt8

instance (host : Host) : DecidableEq host.Bits := host.decEqBits

structure Entry where
  /-- Into `collated`. -/
  collated : Span
  /-- Into `text`. -/
  printed : Span
  /-- Into `derived`. -/
  lower : Span
  folded : Span
  partition : UInt16
  classes : UInt8
  best : UInt8
  flavorFrom : UInt32
  flavorLen : UInt32

structure NameList (Bits : Type) where
  format : UInt8
  text : List Char
  derived : List Char
  entries : List Entry
  /-- A span into `text`, and the key's class bits. -/
  flavor : List (UInt32 × UInt32 × UInt8)
  trigramCounts : List UInt32
  /-- Every collated name, each followed by a line break. -/
  collated : List Char
  collatedStarts : List UInt32
  signatures : List (FuzzySignature Bits)

def sliceAt (s : List Char) (span : Span) : Checked (List Char) :=
  orPanic (slice s span.1.toNat span.2.toNat)

namespace NameList

variable {Bits : Type} (list : NameList Bits)

/-- `self.at(span)`. -/
def atText (span : Span) : Checked (List Char) := sliceAt list.text span

def atDerived (span : Span) : Checked (List Char) := sliceAt list.derived span

def atCollated (span : Span) : Checked (List Char) := sliceAt list.collated span

def flavorOf (e : Entry) : Checked (List (List Char × UInt8)) :=
  if e.flavorFrom ≤ e.flavorFrom + e.flavorLen ∧ (e.flavorFrom + e.flavorLen).toNat ≤ list.flavor.length then
    ((list.flavor.drop e.flavorFrom.toNat).take
      ((e.flavorFrom + e.flavorLen).toNat - e.flavorFrom.toNat)).mapM fun (s, t, bits) => do
        let key ← list.atText (s, t)
        pure (key, bits)
  else .error .panic

end NameList

/-! ## Small readers -/

def toDigit (radix : ℕ) (c : Char) : Option ℕ :=
  let v :=
    if '0' ≤ c ∧ c ≤ '9' then c.toNat - '0'.toNat
    else if 'a' ≤ c ∧ c ≤ 'z' then c.toNat - 'a'.toNat + 10
    else if 'A' ≤ c ∧ c ≤ 'Z' then c.toNat - 'A'.toNat + 10
    else radix
  if v < radix then some v else none

/-- `from_str_radix` of an unsigned integer no larger than `limit`. -/
def fromStrRadix (radix limit : ℕ) (s : List Char) : Option ℕ :=
  let digits := if s.head? = some '+' then s.tail else s
  if digits.isEmpty then none
  else
    digits.foldlM (fun n c =>
      (toDigit radix c).bind fun d => if n * radix + d ≤ limit then some (n * radix + d) else none) 0

def hex (host : Host) (field : List Char) (line : ℕ) : Checked UInt32 :=
  match fromStrRadix 16 0xffffffff field with
  | some v => .ok (UInt32.ofNat v)
  | none => fail s!"card names line {line}: {host.debug field} is not hex"

def slackBase (collated : List Char) : UInt16 := UInt16.ofNat collated.length + 1

def windowsFrom (b c : Char) : List Char → List (Char × Char × Char)
  | [] => []
  | d :: cs => (b, c, d) :: windowsFrom c d cs

/-- `|collated_trigrams(name)|`: its distinct windows. -/
def windowCount (name : List Char) : ℕ :=
  if name.isEmpty then 0 else (windowsFrom ' ' ' ' (name ++ [' '])).dedup.length

/-! ## Formats 1 and 2 -/

structure Records where
  entries : List Entry
  flavor : List (UInt32 × UInt32 × UInt8)
  derived : List Char

def fieldSpan (field : ℕ × List Char) : Span :=
  (UInt32.ofNat field.1, UInt32.ofNat (field.1 + len field.2))

/-- The derived names with `s` behind them, and its place there. -/
def push (derived s : List Char) : List Char × Span :=
  (derived ++ s, UInt32.ofNat (len derived), UInt32.ofNat (len (derived ++ s)))

def parsePair (host : Host) (records : Records) (line : ℕ × List Char) : Checked Records :=
  let n := records.entries.length + 1
  match pieces '\t' line.1 line.2 with
  | [collated, printed] =>
    .ok { records with
      entries := records.entries ++ [{
        collated := fieldSpan collated, printed := fieldSpan printed, lower := (0, 0),
        folded := (0, 0), partition := 0, classes := host.CLASS_EXTRA_GATE, best := 0,
        flavorFrom := 0, flavorLen := 0 }] }
  | _ =>
    fail s!"card names line {n} is not one tab between two names: {host.debug line.2}"

def parseKeys (host : Host) (n : ℕ) (keys : ℕ × List Char)
    (flavor : List (UInt32 × UInt32 × UInt8)) : Checked (List (UInt32 × UInt32 × UInt8)) :=
  if keys.2.isEmpty then .ok flavor
  else
    (pieces ',' keys.1 keys.2).foldlM (fun flavor key =>
      match rsplitOnce ':' key.2 with
      | none => fail s!"card names line {n}: bad flavor key {host.debug key.2}"
      | some (name, bits) => do
        let bits ← hex host bits n
        pure (flavor ++ [((fieldSpan (key.1, name)).1, (fieldSpan (key.1, name)).2, bits.toUInt8)])) flavor

def parsePartition (host : Host) (n : ℕ) (field : List Char) : Checked UInt16 :=
  match fromStrRadix 10 0xffff field with
  | some v => .ok (UInt16.ofNat v)
  | none => fail s!"card names line {n}: bad partition {host.debug field}"

def parseFlags (host : Host) (n : ℕ) (flags : List Char) : Checked (UInt8 × UInt8) := do
  refuse (len flags ≠ 3) s!"card names line {n}: bad flags {host.debug flags}"
  let classes ← hex host (← orPanic (sliceTo flags 2)) n
  let best ← hex host (← orPanic (sliceFrom flags 2)) n
  pure (classes.toUInt8, best.toUInt8)

/-- The derived names with an entry's behind them, and the places of its two: an empty lower
field is the printed name's, an empty folded field is the lower name. -/
def pushNames (host : Host) (derived printed lower folded : List Char) : List Char × Span × Span :=
  let (derived, lower) :=
    push derived (if lower.isEmpty then host.toLowercase printed else lower)
  if folded.isEmpty then (derived, lower, lower)
  else ((push derived folded).1, lower, (push derived folded).2)

def parseRecord (host : Host) (records : Records) (line : ℕ × List Char) : Checked Records :=
  let n := records.entries.length + 1
  match pieces '\t' line.1 line.2 with
  | [partition, flags, collated, printed, lower, folded, keys] => do
    let partition ← parsePartition host n partition.2
    let (classes, best) ← parseFlags host n flags.2
    let (derived, lower, folded) := pushNames host records.derived printed.2 lower.2 folded.2
    let flavor ← parseKeys host n keys records.flavor
    pure {
      entries := records.entries ++ [{
        collated := fieldSpan collated, printed := fieldSpan printed, lower := lower,
        folded := folded, partition := partition, classes := classes, best := best,
        flavorFrom := UInt32.ofNat records.flavor.length,
        flavorLen := UInt32.ofNat flavor.length - UInt32.ofNat records.flavor.length }]
      flavor := flavor
      derived := derived }
  | _ => fail s!"card names line {n} does not hold 7 fields: {host.debug line.2}"

/-- What the entries so far hold in the joined haystack. -/
structure Joined where
  entries : List Entry
  collated : List Char
  starts : List UInt32
  counts : List UInt32

/-- From here on an entry's collated name is read from the haystack. -/
def joinEntry (text : List Char) (joined : Joined) (e : Entry) : Checked Joined := do
  let name ← sliceAt text e.collated
  refuse (name.contains '\n')
    s!"card names line {joined.entries.length + 1} has a line break in its collated name"
  let (collated, span) := push joined.collated name
  pure {
    entries := joined.entries ++ [{ e with collated := span }]
    collated := collated ++ ['\n']
    starts := joined.starts ++ [span.1]
    counts := joined.counts ++ [UInt32.ofNat (windowCount name)] }

/-- Each folded name's signature; format 1 has none. -/
def signaturesOf (host : Host) (format : UInt8) (derived : List Char) (entries : List Entry) :
    Checked (List (FuzzySignature host.Bits)) :=
  if format = 2 then
    entries.mapM fun e => do
      let folded ← sliceAt derived e.folded
      pure (host.signature folded)
  else .ok []

def parseLines (host : Host) (format : UInt8) (header text : List Char) : Checked (NameList host.Bits) := do
  refuse (2 ^ 32 ≤ len text)
    s!"card names blob is {len text} bytes, past what a u32 offset addresses"
  let body := text.drop header.length
  refuse (body ≠ [] ∧ body.getLast? ≠ some '\n')
    "card names blob does not end in a line break (truncated?)"
  let records ← (piecesTerminated '\n' (len header) body).foldlM
    (if format = 1 then parsePair host else parseRecord host) ⟨[], [], []⟩
  let joined ← records.entries.foldlM (joinEntry text) ⟨[], [], [], []⟩
  let signatures ← signaturesOf host format records.derived joined.entries
  pure {
    format := format, text := text, derived := records.derived, entries := joined.entries,
    flavor := records.flavor, trigramCounts := joined.counts, collated := joined.collated,
    collatedStarts := joined.starts, signatures := signatures }

/-! ## Format 3 -/

def putLine (host : Host) (out s : List Char) (what : String) : Checked (List Char) :=
  if s.contains '\n' then fail s!"card names: a {what} holds a line break: {host.debug s}"
  else .ok (out ++ s ++ ['\n'])

def putUnless (host : Host) (elided : Prop) [Decidable elided] (out s : List Char) (what : String) : Checked (List Char) :=
  if elided then .ok out else putLine host out s what

def putU16s (column : List UInt16) : Bytes := column.flatMap fun v => Bytes.ofNatLE 2 v.toNat

/-- What the encoder writes of the entries so far. -/
structure Sections where
  text : List Char
  derived : List Char
  shape : List UInt8
  keys : List UInt16
  keyBits : List UInt8

def encodeKey (host : Host) (sections : Sections) (key : List Char × UInt8) : Checked Sections := do
  let text ← putLine host sections.text key.1 "flavor key"
  pure { sections with text := text, keyBits := sections.keyBits ++ [key.2] }

def encodeEntry (host : Host) (list : NameList host.Bits) (sections : Sections) (e : Entry) : Checked Sections := do
  let printed ← list.atText e.printed
  let text ← putLine host sections.text printed "printed name"
  let flavor ← list.flavorOf e
  refuse (2 ^ 16 ≤ flavor.length) s!"card names: {flavor.length} flavor keys on one card"
  let sections ← flavor.foldlM (encodeKey host)
    { sections with text := text, keys := sections.keys ++ [UInt16.ofNat flavor.length] }
  let lower ← list.atDerived e.lower
  let folded ← list.atDerived e.folded
  let derived ← putUnless host (lower = host.toLowercase printed) sections.derived lower "lower name"
  let derived ← putUnless host (folded = lower) derived folded "folded name"
  let shape :=
    (if lower = host.toLowercase printed then SHAPE_LOWER_IS_PRINTED_LOWERCASED else 0) |||
      (if folded = lower then SHAPE_FOLDED_IS_LOWER else 0)
  pure { sections with derived := derived, shape := sections.shape ++ [shape] }

/-- The window counts of entry `i`, as their distance from what they usually are. -/
def slacks {Bits : Type} (list : NameList Bits) (i : ℕ) : Checked (UInt16 × UInt16) := do
  let count ← orPanic list.trigramCounts[i]?
  refuse (2 ^ 16 ≤ count.toNat) s!"card names: {count.toNat} trigrams"
  let e ← orPanic list.entries[i]?
  let name ← list.atCollated e.collated
  let _ ← list.atText e.printed
  let signature ← orPanic list.signatures[i]?
  pure (slackBase name - count.toUInt16, signature.trigrams ^^^ count.toUInt16)

def putLen (n : ℕ) (what : String) : Checked Bytes :=
  if n < 2 ^ 32 then .ok (Bytes.ofNatLE 4 n) else fail s!"card names: a {what} of {n}"

def encodeV3 (host : Host) (list : NameList host.Bits) : Checked Bytes := do
  refuse (list.format ≠ 2)
    s!"card names: format {list.format} has no format-3 form (only format 2 does)"
  let n := list.entries.length
  let sections ← list.entries.foldlM (encodeEntry host list) ⟨[], [], [], [], []⟩
  let slack ← (List.range n).mapM (slacks list)
  let entryCount ← putLen n "entry count"
  let keyCount ← putLen list.flavor.length "flavor key count"
  let collatedLen ← putLen (len list.collated) "collated section"
  let textLen ← putLen (len sections.text) "text section"
  let derivedLen ← putLen (len sections.derived) "derived section"
  pure (utf8 NAMES_BLOB_HEADER_V3 ++ entryCount ++ keyCount ++ collatedLen ++ textLen ++ derivedLen
    ++ utf8 list.collated ++ utf8 sections.text ++ utf8 sections.derived
    ++ putU16s (list.entries.map (·.partition)) ++ list.entries.map (·.classes)
    ++ list.entries.map (·.best) ++ sections.shape ++ putU16s sections.keys ++ sections.keyBits
    ++ putU16s (slack.map (·.1)) ++ putU16s (slack.map (·.2)))

/-! ## Reading format 3 -/

/-- The next `len` bytes of the blob, and what is left of it. -/
def takeBytes (len : ℕ) (what : String) (bytes : Bytes) : Checked (Bytes × Bytes) :=
  if len ≤ bytes.length then .ok (bytes.take len, bytes.drop len)
  else fail s!"card names blob (format 3) ends inside its {what}"

def takeU32 (what : String) (bytes : Bytes) : Checked (ℕ × Bytes) := do
  let (b, bytes) ← takeBytes 4 what bytes
  pure (Bytes.toNatLE b, bytes)

def u16s : Bytes → List UInt16
  | a :: b :: rest => UInt16.ofNat (Bytes.toNatLE [a, b]) :: u16s rest
  | _ => []

def takeU16s (n : ℕ) (what : String) (bytes : Bytes) : Checked (List UInt16 × Bytes) := do
  let (b, bytes) ← takeBytes (n * 2) what bytes
  pure (u16s b, bytes)

def takeString (host : Host) (len : ℕ) (what : String) (bytes : Bytes) : Checked (List Char × Bytes) := do
  let (b, bytes) ← takeBytes len what bytes
  match fromUtf8 b with
  | some s => pure (s, bytes)
  | none => fail s!"card names blob (format 3): its {what} is not UTF-8: {host.utf8Error b}"

/-- The next line of a section from `start`, as a span without its break, and where the one
behind it starts. -/
def nextLine (s : List Char) (start : ℕ) (what : String) : Checked (Span × ℕ) :=
  match sliceFrom s start with
  | some rest =>
    if rest.contains '\n' then
      let stop := start + len (rest.takeWhile (· != '\n'))
      .ok ((UInt32.ofNat start, UInt32.ofNat stop), stop + 1)
    else fail s!"card names blob (format 3): its section ends before a {what}"
  | none => fail s!"card names blob (format 3): its section ends before a {what}"

structure Row where
  partition : UInt16
  classes : UInt8
  best : UInt8
  shape : UInt8
  keys : UInt16
  trigramSlack : UInt16
  signatureSlack : UInt16

/-- The tables read so far, and where each section is read on. -/
structure Reading (Bits : Type) where
  atCollated : ℕ
  atText : ℕ
  atStored : ℕ
  derived : List Char
  entries : List Entry
  flavor : List (UInt32 × UInt32 × UInt8)
  collatedStarts : List UInt32
  trigramCounts : List UInt32
  signatures : List (FuzzySignature Bits)

def readKey (text : List Char) (keyBits : List UInt8)
    (state : ℕ × List (UInt32 × UInt32 × UInt8)) :
    Checked (ℕ × List (UInt32 × UInt32 × UInt8)) := do
  match keyBits[state.2.length]? with
  | none => fail "card names blob (format 3): more flavor keys than its key table"
  | some bits => do
    let (span, next) ← nextLine text state.1 "flavor key"
    pure (next, state.2 ++ [(span.1, span.2, bits)])

/-- `count` flavor keys, one after the other. -/
def readKeys (text : List Char) (keyBits : List UInt8) :
    ℕ → ℕ × List (UInt32 × UInt32 × UInt8) → Checked (ℕ × List (UInt32 × UInt32 × UInt8))
  | 0, state => .ok state
  | count + 1, state => do readKeys text keyBits count (← readKey text keyBits state)

/-- An entry's lower name, written out or its printed name's. -/
def readLower (host : Host) (text stored : List Char) (shape : UInt8) (printed : Span)
    (atStored : ℕ) : Checked (List Char × ℕ) :=
  if shape &&& SHAPE_LOWER_IS_PRINTED_LOWERCASED ≠ 0 then do
    let printed ← sliceAt text printed
    pure (host.toLowercase printed, atStored)
  else do
    let (span, atStored) ← nextLine stored atStored "lower name"
    let lower ← sliceAt stored span
    pure (lower, atStored)

/-- An entry's folded name, behind the derived names or its lower name again. -/
def readFolded (stored : List Char) (shape : UInt8) (derived : List Char) (lower : Span)
    (atStored : ℕ) : Checked ((List Char × Span) × ℕ) :=
  if shape &&& SHAPE_FOLDED_IS_LOWER ≠ 0 then .ok ((derived, lower), atStored)
  else do
    let (span, atStored) ← nextLine stored atStored "folded name"
    let folded ← sliceAt stored span
    pure (push derived folded, atStored)

def readRow (host : Host) (collated text stored : List Char) (keyBits : List UInt8)
    (reading : Reading host.Bits) (row : Row) : Checked (Reading host.Bits) := do
  let (name, atCollated) ← nextLine collated reading.atCollated "collated name"
  let collatedName ← sliceAt collated name
  let count := slackBase collatedName - row.trigramSlack
  let (printed, atText) ← nextLine text reading.atText "printed name"
  let (atText, flavor) ← readKeys text keyBits row.keys.toNat (atText, reading.flavor)
  let (lowerName, atStored) ← readLower host text stored row.shape printed reading.atStored
  let lower := push reading.derived lowerName
  let (folded, atStored) ← readFolded stored row.shape lower.1 lower.2 atStored
  let foldedName ← sliceAt folded.1 folded.2
  pure {
    atCollated := atCollated, atText := atText, atStored := atStored, derived := folded.1
    entries := reading.entries ++ [{
      collated := name, printed := printed, lower := lower.2, folded := folded.2,
      partition := row.partition, classes := row.classes, best := row.best,
      flavorFrom := UInt32.ofNat reading.flavor.length,
      flavorLen := UInt32.ofNat flavor.length - UInt32.ofNat reading.flavor.length }]
    flavor := flavor
    collatedStarts := reading.collatedStarts ++ [name.1]
    trigramCounts := reading.trigramCounts ++ [count.toUInt32]
    signatures := reading.signatures ++ [{
      trigrams := row.signatureSlack ^^^ count, bits := host.signatureBits foldedName }] }

def rows : List UInt16 → List UInt8 → List UInt8 → List UInt8 → List UInt16 → List UInt16 → List UInt16 → List Row
  | p :: ps, c :: cs, b :: bs, s :: ss, k :: ks, t :: ts, g :: gs =>
    ⟨p, c, b, s, k, t, g⟩ :: rows ps cs bs ss ks ts gs
  | _, _, _, _, _, _, _ => []

def parseV3 (host : Host) (raw : Bytes) : Checked (NameList host.Bits) := do
  let bytes := raw.drop (utf8 NAMES_BLOB_HEADER_V3).length
  let (n, bytes) ← takeU32 "entry count" bytes
  let (nf, bytes) ← takeU32 "flavor key count" bytes
  let (collatedLen, bytes) ← takeU32 "collated section" bytes
  let (textLen, bytes) ← takeU32 "text section" bytes
  let (derivedLen, bytes) ← takeU32 "derived section" bytes
  let (collated, bytes) ← takeString host collatedLen "collated section" bytes
  let (text, bytes) ← takeString host textLen "text section" bytes
  let (stored, bytes) ← takeString host derivedLen "derived section" bytes
  let (partition, bytes) ← takeU16s n "partitions" bytes
  let (classes, bytes) ← takeBytes n "classes" bytes
  let (best, bytes) ← takeBytes n "best flags" bytes
  let (shape, bytes) ← takeBytes n "shapes" bytes
  let (keys, bytes) ← takeU16s n "flavor key counts" bytes
  let (keyBits, bytes) ← takeBytes nf "flavor key bits" bytes
  let (trigramSlack, bytes) ← takeU16s n "trigram counts" bytes
  let (signatureSlack, bytes) ← takeU16s n "signature window counts" bytes
  refuse (bytes ≠ []) s!"card names blob (format 3) holds {bytes.length} bytes past its tables"
  let reading ← (rows partition classes best shape keys trigramSlack signatureSlack).foldlM
    (readRow host collated text stored keyBits) ⟨0, 0, 0, [], [], [], [], [], []⟩
  refuse (reading.atCollated ≠ len collated ∨ reading.atText ≠ len text ∨
      reading.atStored ≠ len stored ∨ reading.flavor.length ≠ nf)
    "card names blob (format 3): its sections hold strings no entry names"
  refuse (2 ^ 32 ≤ len reading.derived)
    "card names blob (format 3): its derived names pass what a u32 offset addresses"
  pure {
    format := 3, text := text, derived := reading.derived, entries := reading.entries,
    flavor := reading.flavor, trigramCounts := reading.trigramCounts, collated := collated,
    collatedStarts := reading.collatedStarts, signatures := reading.signatures }

/-- `text.lines().next().unwrap_or("")`. -/
def firstLine (text : List Char) : List Char :=
  let line := text.takeWhile (· != '\n')
  if line.length < text.length ∧ line.getLast? = some '\r' then line.dropLast else line

def parse (host : Host) (raw : Bytes) : Checked (NameList host.Bits) :=
  if utf8 NAMES_BLOB_HEADER_V3 <+: raw then parseV3 host raw
  else
    match fromUtf8 raw with
    | none => fail s!"card names blob is not UTF-8: {host.utf8Error raw}"
    | some text =>
      if NAMES_BLOB_HEADER <+: text then parseLines host 1 NAMES_BLOB_HEADER text
      else if NAMES_BLOB_HEADER_V2 <+: text then parseLines host 2 NAMES_BLOB_HEADER_V2 text
      else
        fail s!"card names blob starts {host.debug ((firstLine text).take 40)}, not a card-names header"

/-! ## Comparing two lists -/

def NameList.read {Bits : Type} (list : NameList Bits) (e : Entry) : Checked Read := do
  pure {
    collated := ← list.atCollated e.collated, printed := ← list.atText e.printed,
    lower := ← list.atDerived e.lower, folded := ← list.atDerived e.folded,
    partition := e.partition, classes := e.classes, best := e.best,
    flavor := ← list.flavorOf e }

/-- `a.iter().zip(b).position(|(a, b)| a != b)`, as `{:?}` prints it. -/
def firstDifference {α : Type} [DecidableEq α] (a b : List α) : String :=
  match (a.zip b).findIdx? fun (x, y) => x ≠ y with
  | some i => s!"Some({i})"
  | none => "None"

def sameTables (host : Host) (a b : NameList host.Bits) : Checked Unit := do
  refuse (a.entries.length ≠ b.entries.length)
    s!"{a.entries.length} entries against {b.entries.length}"
  refuse (a.collated ≠ b.collated ∨ a.collatedStarts ≠ b.collatedStarts)
    "the collated haystacks differ"
  refuse (a.trigramCounts ≠ b.trigramCounts) "the trigram counts differ"
  refuse (a.signatures ≠ b.signatures)
    s!"the signatures differ, first at entry {firstDifference a.signatures b.signatures}"
  (a.entries.zip b.entries).zipIdx.forM fun ((x, y), i) => do
    let rx ← a.read x
    let ry ← b.read y
    refuse (rx ≠ ry) s!"entry {i} differs: {host.debugRead rx} against {host.debugRead ry}"

end NamesBlob
