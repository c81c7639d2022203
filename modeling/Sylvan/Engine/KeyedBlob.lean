-- SUMMARY: The keyed blob: one KV value that answers a key with a slice of rendered JSON.
import Sylvan.Data.Buffers
import Sylvan.Data.Fnv
import Sylvan.Data.Json
import Sylvan.Data.Probe
import Sylvan.Data.RustStr
import Sylvan.Data.SortedRuns
import Sylvan.Data.Text

/-!
# Keyed blobs

A blob is a header, an index of fixed-width entries sorted by key, and the payload the
entries point into. The reader binary-searches the index in place.
-/

namespace KeyedBlob

open Text RustStr Throws

def MAGIC : List Char := "SLKB".toList
def HEADER_BYTES : ℕ := 17
def OFFSET_HEX_BYTES : ℕ := 8

/-- What is thrown: a `KeyedBlobError`, or the runtime's own `RangeError`. -/
inductive Thrown where
  | keyed (message : String)
  | range

abbrev Checked : Type → Type := Except Thrown

/-- One key and the JSON it answers with. -/
structure KeyedEntry where
  key : List Char
  json : List Char
deriving DecidableEq

/-- `key.length`. -/
def unitLength (s : List Char) : ℕ := (s.flatMap units).length

def quoted (key : List Char) : String := String.ofList (Json.quote (String.ofList key))

def padKey (key : List Char) (keyWidth : ℕ) : Checked (List Char) :=
  if keyWidth < unitLength key then
    .error (.keyed s!"key {quoted key} is longer than this blob's {keyWidth}-byte keys")
  else .ok (key ++ List.replicate (keyWidth - unitLength key) ' ')

def hex (value width : ℕ) : List Char := (Nat.toDigits 16 value).leftpad width '0'

def hexDigit (code : UInt8) : Option ℕ :=
  if 0x30 ≤ code.toNat ∧ code.toNat ≤ 0x39 then some (code.toNat - 0x30)
  else if 0x61 ≤ code.toNat ∧ code.toNat ≤ 0x66 then some (code.toNat - 0x61 + 10)
  else none

/-- `length` hex digits as a number, where `none` is `NaN`. -/
def readHex (bytes : Bytes) (at_ length : ℕ) : Option ℕ :=
  (List.range length).foldlM (fun value i =>
    (bytes[at_ + i]?.bind hexDigit).map fun digit => value * 16 + digit) 0

/-! ## The encoder -/

def keepKey (byKey : JsMap (List Char) (List Char)) (entry : KeyedEntry) : Checked (JsMap (List Char) (List Char)) :=
  match byKey.get entry.key with
  | some existing =>
    if existing ≠ entry.json then .error (.keyed s!"key {quoted entry.key} was given two different payloads")
    else .ok (byKey.set entry.key entry.json)
  | none => .ok (byKey.set entry.key entry.json)

/-- One entry of the index, its key padded. -/
structure Padded where
  padded : List Char
  json : List Char

/-- `a.padded < b.padded` compares by these. -/
def Padded.order (e : Padded) : List ℕ := e.padded.flatMap units

/-- The payloads laid out so far: each distinct JSON once, and where it is. -/
structure Payload where
  rangeOf : JsMap (List Char) (ℕ × ℕ)
  payloads : List Bytes
  payloadBytes : ℕ

def Payload.add (payload : Payload) (e : Padded) : Payload :=
  if (payload.rangeOf.get e.json).isSome then payload
  else
    { rangeOf := payload.rangeOf.set e.json (payload.payloadBytes, (utf8 e.json).length)
      payloads := payload.payloads ++ [utf8 e.json]
      payloadBytes := payload.payloadBytes + (utf8 e.json).length }

def payloadOf (sorted : List Padded) : Payload := sorted.foldl Payload.add ⟨.empty, [], 0⟩

def headerOf (keyWidth count : ℕ) : Bytes := utf8 (MAGIC ++ hex 1 2 ++ hex keyWidth 2 ++ hex count 8 ++ ['\n'])

/-- An entry of the index; every JSON has its range. -/
def indexEntry (payload : Payload) (e : Padded) : Bytes :=
  let range := (payload.rangeOf.get e.json).getD (0, 0)
  utf8 (e.padded ++ hex range.1 OFFSET_HEX_BYTES ++ hex range.2 OFFSET_HEX_BYTES)

def padEntry (keyWidth : ℕ) (entry : List Char × List Char) : Checked Padded := do
  let padded ← padKey entry.1 keyWidth
  pure ⟨padded, entry.2⟩

def sortedOf (entries : List KeyedEntry) (keyWidth : ℕ) : Checked (List Padded) := do
  let byKey ← entries.foldlM keepKey .empty
  let padded ← byKey.entries.mapM (padEntry keyWidth)
  pure (SortedRuns.sortBy Padded.order padded)

def encodeKeyedBlob (isolate : Buffers.Isolate) (entries : List KeyedEntry) (keyWidth : ℕ) : Checked Bytes := do
  let sorted ← sortedOf entries keyWidth
  let payload := payloadOf sorted
  let indexEntryBytes := keyWidth + 2 * OFFSET_HEX_BYTES
  let payloadAt := HEADER_BYTES + sorted.length * indexEntryBytes
  let bytes ← Buffers.alloc .range isolate (payloadAt + payload.payloadBytes)
  let bytes ← Buffers.write .range bytes (headerOf keyWidth sorted.length) 0
  let bytes ← Buffers.writeEach .range (indexEntry payload) HEADER_BYTES indexEntryBytes bytes sorted
  let (bytes, _) ← Buffers.writeAll .range payloadAt bytes payload.payloads
  pure bytes

/-! ## The reader -/

def shown : Option ℕ → String
  | some n => n.repr
  | none => "NaN"

def answer (blob : Bytes) (payloadAt keyAt keyWidth : ℕ) : Checked (Option Bytes) :=
  match readHex blob (keyAt + keyWidth) OFFSET_HEX_BYTES,
      readHex blob (keyAt + keyWidth + OFFSET_HEX_BYTES) OFFSET_HEX_BYTES with
  | some offset, some length =>
    if blob.length < payloadAt + offset + length then .error (.keyed "an entry runs past the end of the value")
    else .ok (some (blob.subarray (payloadAt + offset) (payloadAt + offset + length)))
  | _, _ => .error (.keyed "an entry runs past the end of the value")

def answerAt (blob : Bytes) (keyWidth count : ℕ) : Option ℕ → Checked (Option Bytes)
  | some mid =>
    answer blob (HEADER_BYTES + count * (keyWidth + 2 * OFFSET_HEX_BYTES))
      (HEADER_BYTES + mid * (keyWidth + 2 * OFFSET_HEX_BYTES)) keyWidth
  | none => .ok none

/-- The search of an index of `count` entries. -/
def searchIndex (blob : Bytes) (key : List Char) (keyWidth count : ℕ) : Checked (Option Bytes) :=
  let indexEntryBytes := keyWidth + 2 * OFFSET_HEX_BYTES
  let payloadAt := HEADER_BYTES + count * indexEntryBytes
  if blob.length < payloadAt then
    .error (.keyed s!"value claims {count} entries, more than its {blob.length} bytes hold")
  else do
    let wanted := utf8 (← padKey key keyWidth)
    let found := Probe.search (fun mid => Probe.compareBytes
      ((blob.drop (HEADER_BYTES + mid * indexEntryBytes)).take keyWidth) wanted) 0 count
    answerAt blob keyWidth count found

/-- The JSON the key answers with; `none` is a miss. -/
def keyedBlobLookup (blob : Bytes) (key : List Char) : Checked (Option Bytes) :=
  if blob.length < HEADER_BYTES then
    .error (.keyed s!"value is {blob.length} bytes, shorter than the header")
  else if blob.take MAGIC.length ≠ utf8 MAGIC then
    .error (.keyed "value does not start with the format magic")
  else if readHex blob 4 2 ≠ some 1 then
    .error (.keyed s!"value is format version {shown (readHex blob 4 2)}, this reader speaks 1")
  else
    match readHex blob 6 2, readHex blob 8 8 with
    | some keyWidth, some count =>
      -- A longer key cannot be in a blob whose keys are narrower.
      if keyWidth < unitLength key then .ok none else searchIndex blob key keyWidth count
    | _, _ => .error (.keyed "header is not readable")

end KeyedBlob
