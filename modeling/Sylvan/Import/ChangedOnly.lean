-- SUMMARY: The rulings and reference steps: values rendered each night, put only when their hash is not the one on record.
import Mathlib.Algebra.Order.Floor.Div
import Sylvan.Data.Act
import Sylvan.Data.Bytes
import Sylvan.Data.JsMap
import Sylvan.Data.Text

/-!
# Changed-only publishing

The rulings buckets and the reference values sit in KV under stable keys, overwritten in
place. The object keeps the hash of what it last put under each, and leaves a value alone
whose rendered bytes have that hash.
-/

namespace ChangedOnly

open Act

/-! ## Constants and keys -/

def RULINGS_SLICE_BUCKETS : ℕ := 64
def RULINGS_PUT_CONCURRENCY : ℕ := 8
def RULINGS_MAX_ATTEMPTS : ℕ := 3
def RULINGS_FORMAT_VERSION : ℕ := 2
def RULINGS_CONTENT_GENERATION : ℕ := 1
def RULINGS_BUCKET_COUNT : ℕ := 256
def RULINGS_META_KEY : String := "rulings:meta"
def RULINGS_KEY_PREFIX : String := "rulings:v"
def REFERENCE_FORMAT_VERSION : ℕ := 2
def REFERENCE_CONTENT_GENERATION : ℕ := 2
def SETS_BUCKET_COUNT : ℕ := 16
def REFERENCE_META_KEY : String := "reference:meta"
def REFERENCE_KEY_PREFIX : String := "reference:v"

def CATALOG_NAMES : List String :=
  ["card-names", "artist-names", "word-bank", "supertypes", "card-types", "artifact-types", "battle-types",
    "creature-types", "enchantment-types", "land-types", "planeswalker-types", "spell-types", "powers",
    "toughnesses", "loyalties", "watermarks", "keyword-abilities", "keyword-actions", "ability-words",
    "flavor-words"]

/-- `n.toString(16).padStart(2, "0")`. -/
def hex2 (n : ℕ) : String := String.ofList ((Nat.toDigits 16 n).leftpad 2 '0')

def rulingsCurrentPrefix : String := s!"rulings:v{RULINGS_FORMAT_VERSION}:"
def rulingsBucketKey (bucket : ℕ) : String := rulingsCurrentPrefix ++ hex2 bucket
def referenceCurrentPrefix : String := s!"reference:v{REFERENCE_FORMAT_VERSION}:"
def setsListKey : String := referenceCurrentPrefix ++ "sets:list"
def setsBucketKey (bucket : ℕ) : String := referenceCurrentPrefix ++ "sets:" ++ hex2 bucket
def catalogKey (name : String) : String := referenceCurrentPrefix ++ "catalog:" ++ name
def symbologyKey : String := referenceCurrentPrefix ++ "symbology"

def startsWith (key lead : String) : Bool := lead.toList.isPrefixOf key.toList

/-- Keys under `lead` that are not part of `current`: left over from an older layout. -/
def staleKeys (all : List String) (lead current : String) : List String :=
  all.filter fun key => startsWith key lead && !startsWith key current

def isQuotaError (message : String) : Bool :=
  ["daily limit", "exceeded your", "too many writes", "quota"].any fun phrase =>
    Text.includes message.toLower.toList phrase.toList

/-! ## The object and its namespace -/

structure RulingsMeta where
  format_version : ℕ
  content_generation : Option ℕ
  bucket_count : ℕ
  built_at : String
  ruling_count : ℕ
deriving DecidableEq, Repr

structure ReferenceMeta where
  format_version : ℕ
  content_generation : Option ℕ
  bucket_count : ℕ
  built_at : String
  set_count : ℕ
  symbol_count : ℕ
  catalogs : List (String × ℕ)
deriving DecidableEq, Repr

/-- The values the two steps put: the ones with a hash on record, and the two records of a published set. -/
inductive Value where
  | bucket (bucket : ℕ)
  | reference (key : String)
  | rulingsMeta
  | referenceMeta
deriving DecidableEq, Repr

def Value.key : Value → String
  | .bucket n => rulingsBucketKey n
  | .reference name => name
  | .rulingsMeta => RULINGS_META_KEY
  | .referenceMeta => REFERENCE_META_KEY

inductive Phase where
  | rulings
  | reference
  | purge
  | elsewhere
deriving DecidableEq, Repr

inductive ReferenceStep where
  | sets
  | catalogs
  | symbology
deriving DecidableEq, Repr

/-- What a step recorded of a value, as published or as unchanged, and what KV held of it then. -/
structure Note where
  value : Value
  bytes : Bytes
  held : Option Bytes
deriving DecidableEq, Repr

/-- KV, the object's tables and its meta rows. No step reads the last two fields: `unrecorded` is a value's last put
    that took effect since its last record, when that put was not recorded itself, and `notes` is what the steps
    have recorded. -/
structure World where
  kv : String → Option Bytes
  rulings_buckets : ℕ → Option (String × ℕ)
  reference_values : String → Option String
  phase : Phase
  rulings_bucket_cursor : ℕ
  rulings_attempts : ℕ
  reference_step : ReferenceStep
  reference_set_count : ℕ
  reference_catalogs : List (String × ℕ)
  built_at : String
  alive : Bool
  unrecorded : Value → Option Bytes
  notes : List Note

def World.hashOf (w : World) : Value → Option String
  | .bucket bucket => (w.rulings_buckets bucket).map Prod.fst
  | .reference key => w.reference_values key
  | .rulingsMeta | .referenceMeta => none

/-! ## What an alarm meets -/

/-- What becomes of a put: it is acknowledged, it throws, or the object dies in it; without the acknowledgement it
    may have taken effect all the same. -/
inductive Put where
  | done
  | threw (took : Bool) (message : String)
  | killed (took : Bool)
deriving DecidableEq, Repr

inductive Reply (α : Type) where
  | answered (a : α)
  | threw (message : String)
  | killed
deriving DecidableEq, Repr

/-- The values rendered, what the dump and the responses hold, and what becomes of each call. `fetch` answers the
    length of the response's `data`, when that is an array. -/
structure Alarm where
  bytes : Value → Bytes
  lines : ℕ
  valid : ℕ
  rulingCount : ℕ → ℕ
  setCount : ℕ
  symbolCount : ℕ
  catalogCount : String → ℕ
  published : Reply (Option RulingsMeta)
  fetch : String → Reply (Option ℕ)
  put : Value → Put
  listed : List String
  pruned : Reply Unit

/-- The hash function and `JSON.stringify` of the two records. -/
structure Host where
  sha256Hex : Bytes → String
  rulingsMetaJson : RulingsMeta → Bytes
  referenceMetaJson : ReferenceMeta → Bytes

/-! ## Calls -/

def stop {α : Type} : Act World α := do
  modify fun w => { w with alive := false }
  throw "killed"

def await {α : Type} : Reply α → Act World α
  | .answered a => pure a
  | .threw message => throw message
  | .killed => stop

/-- `try … catch`. -/
def rescue {α : Type} (x : Act World α) (handler : String → Act World α) : Act World α := do
  match ← attempt x with
  | .ok a => pure a
  | .error message =>
    let w ← read
    if w.alive then handler message else throw message

def World.took (w : World) (value : Value) (bytes : Bytes) : World :=
  { w with kv := Function.update w.kv value.key (some bytes), unrecorded := Function.update w.unrecorded value (some bytes) }

def World.note (w : World) (value : Value) (bytes : Bytes) : World :=
  { w with notes := ⟨value, bytes, w.kv value.key⟩ :: w.notes }

def World.recordBucket (w : World) (bucket : ℕ) (hash : String) (rulings : ℕ) : World :=
  { w with
    rulings_buckets := Function.update w.rulings_buckets bucket (some (hash, rulings))
    unrecorded := Function.update w.unrecorded (.bucket bucket) none }

def World.recordReference (w : World) (key hash : String) : World :=
  { w with
    reference_values := Function.update w.reference_values key (some hash)
    unrecorded := Function.update w.unrecorded (.reference key) none }

section

variable (host : Host) (a : Alarm)

def kvPut (value : Value) (bytes : Bytes) : Act World Unit :=
  match a.put value with
  | .done => modify (·.took value bytes)
  | .threw took message => do
      modify fun w => if took then w.took value bytes else w
      throw message
  | .killed took => do
      modify fun w => if took then w.took value bytes else w
      stop

def pruneOldKeys (lead current : String) : Act World Unit :=
  rescue (do
    modify fun w => { w with kv := fun key => if key ∈ staleKeys a.listed lead current then none else w.kv key }
    await a.pruned) fun _ => pure ()

/-! ## Rulings -/

/-- Whether KV describes the set the recorded hashes belong to. -/
def describesCurrentSet : Option RulingsMeta → Bool
  | none => false
  | some published =>
    published.format_version == RULINGS_FORMAT_VERSION &&
      published.content_generation == some RULINGS_CONTENT_GENERATION &&
      published.bucket_count == RULINGS_BUCKET_COUNT

def resetRulingsIfUnpublished : Act World Unit := do
  let published ← await a.published
  if describesCurrentSet published then pure ()
  else modify fun w => { w with rulings_buckets := fun _ => none }

def bucketChanged (bucket : ℕ) : Act World Bool := do
  let w ← read
  let bytes := a.bytes (.bucket bucket)
  if (w.rulings_buckets bucket).map Prod.fst = some (host.sha256Hex bytes) then
    modify (·.note (.bucket bucket) bytes)
    pure false
  else pure true

def putBucket (bucket : ℕ) : Act World Unit := do
  let bytes := a.bytes (.bucket bucket)
  kvPut a (.bucket bucket) bytes
  modify fun w => (w.recordBucket bucket (host.sha256Hex bytes) (a.rulingCount bucket)).note (.bucket bucket) bytes

/-- The puts in runs of `RULINGS_PUT_CONCURRENCY`, one run at a time. -/
def putGroups (pending : List ℕ) : List (List ℕ) :=
  (List.range (pending.length ⌈/⌉ RULINGS_PUT_CONCURRENCY)).map fun i =>
    (pending.drop (i * RULINGS_PUT_CONCURRENCY)).take RULINGS_PUT_CONCURRENCY

/-- `Promise.all`: every put of the group runs, and the first that threw is the group's error. -/
def putGroup (group : List ℕ) : Act World Unit := do
  let outcomes ← group.mapM fun bucket => attempt (putBucket host a bucket)
  match outcomes.find? fun outcome => outcome.toOption.isNone with
  | some (.error message) => throw message
  | _ => pure ()

def checkCoverage : Act World Unit :=
  if 0 < a.lines ∧ 5 * a.valid < 4 * a.lines then
    throw s!"rulings dump: only {a.valid} of {a.lines} entries are usable; format changed?"
  else pure ()

def sliceEnd (first : ℕ) : ℕ := min (first + RULINGS_SLICE_BUCKETS) RULINGS_BUCKET_COUNT

def sliceBuckets (first : ℕ) : List ℕ := List.range' first (sliceEnd first - first)

/-- The set is complete: record it, prune older layouts, leave the phase. -/
def finishRulings : Act World Unit := do
  let w ← read
  let total := ((List.range RULINGS_BUCKET_COUNT).map fun bucket => ((w.rulings_buckets bucket).map Prod.snd).getD 0).sum
  kvPut a .rulingsMeta <| host.rulingsMetaJson
    { format_version := RULINGS_FORMAT_VERSION, content_generation := some RULINGS_CONTENT_GENERATION
      bucket_count := RULINGS_BUCKET_COUNT, built_at := w.built_at, ruling_count := total }
  pruneOldKeys a RULINGS_KEY_PREFIX rulingsCurrentPrefix
  modify fun w => { w with phase := .reference }

/-- A slice, past the look at the published set: the changed buckets, in groups, and the cursor. -/
def publishBuckets (first : ℕ) : Act World Unit := do
  checkCoverage a
  let changed ← (sliceBuckets first).mapM (bucketChanged host a)
  let pending := ((sliceBuckets first).zip changed).filterMap fun bucket => if bucket.2 then some bucket.1 else none
  let _ ← (putGroups pending).mapM (putGroup host a)
  if sliceEnd first < RULINGS_BUCKET_COUNT then modify fun w => { w with rulings_bucket_cursor := sliceEnd first }
  else finishRulings host a

def rulingsSlice : Act World Unit := do
  let w ← read
  let first := w.rulings_bucket_cursor
  if first = 0 then do
    resetRulingsIfUnpublished a
    publishBuckets host a first
  else publishBuckets host a first

def stepRulings : Act World Unit :=
  rescue (rulingsSlice host a) fun message => do
    let w ← read
    let attempts := w.rulings_attempts + 1
    modify fun w => { w with rulings_attempts := attempts }
    if attempts < RULINGS_MAX_ATTEMPTS ∧ isQuotaError message = false then throw message
    else modify fun w => { w with phase := .reference }

/-! ## Reference -/

def putReferenceValue (key : String) : Act World Bool := do
  let w ← read
  let bytes := a.bytes (.reference key)
  let hash := host.sha256Hex bytes
  if w.reference_values key = some hash then
    modify (·.note (.reference key) bytes)
    pure false
  else
    kvPut a (.reference key) bytes
    modify fun w => (w.recordReference key hash).note (.reference key) bytes
    pure true

def advanceReference (step : ReferenceStep) : Act World Unit :=
  modify fun w => match step with
    | .sets => { w with reference_step := .catalogs }
    | .catalogs => { w with reference_step := .symbology }
    | .symbology => { w with phase := .purge }

def setsKeys : List String := setsListKey :: (List.range SETS_BUCKET_COUNT).map setsBucketKey

def referenceSets : Act World Unit := do
  let data ← await (a.fetch "sets")
  if data.getD 0 = 0 then throw "/sets answered no data"
  else do
    let _ ← setsKeys.mapM (putReferenceValue host a)
    modify fun w => { w with reference_set_count := a.setCount }
    advanceReference .sets

/-- One catalog; one that fails keeps its previous value. -/
def referenceCatalog (counts : List (String × ℕ)) (name : String) : Act World (List (String × ℕ)) :=
  rescue (do
    let data ← await (a.fetch s!"catalog/{name}")
    if data.isNone then throw "no data array"
    else do
      let _ ← putReferenceValue host a (catalogKey name)
      pure (JsMap.insertAt name (a.catalogCount name) counts)) fun _ => pure counts

def referenceCatalogs : Act World Unit := do
  let w ← read
  let counts ← CATALOG_NAMES.foldlM (referenceCatalog host a) w.reference_catalogs
  modify fun w => { w with reference_catalogs := counts }
  advanceReference .catalogs

def referenceSymbology : Act World Unit := do
  let data ← await (a.fetch "symbology")
  if data.getD 0 = 0 then throw "/symbology answered no data"
  else do
    let _ ← putReferenceValue host a symbologyKey
    let w ← read
    kvPut a .referenceMeta <| host.referenceMetaJson
      { format_version := REFERENCE_FORMAT_VERSION, content_generation := some REFERENCE_CONTENT_GENERATION
        bucket_count := SETS_BUCKET_COUNT, built_at := w.built_at, set_count := w.reference_set_count
        symbol_count := a.symbolCount, catalogs := w.reference_catalogs }
    pruneOldKeys a REFERENCE_KEY_PREFIX referenceCurrentPrefix
    modify fun w => { w with phase := .purge }

def stepReference : Act World Unit := do
  let w ← read
  let step := w.reference_step
  rescue (match step with
    | .sets => referenceSets host a
    | .catalogs => referenceCatalogs host a
    | .symbology => referenceSymbology host a) fun _ => advanceReference step

end

/-! ## Nights -/

/-- A store goes live, which is where the two steps' rows are set; an alarm of one of the steps; the object's storage
    is released. -/
inductive Event where
  | live (built_at : String)
  | alarm (a : Alarm)
  | released

def step (host : Host) (w : World) : Event → Option World
  | .live built_at =>
    some { w with
      phase := .rulings, rulings_bucket_cursor := 0, rulings_attempts := 0, reference_step := .sets
      built_at := built_at }
  | .alarm a =>
    match w.phase with
    | .rulings => some (stepRulings host a { w with alive := true }).2
    | .reference => some (stepReference host a { w with alive := true }).2
    | .purge | .elsewhere => none
  | .released =>
    some { w with
      rulings_buckets := fun _ => none, reference_values := fun _ => none, phase := .elsewhere
      reference_set_count := 0, reference_catalogs := [] }

def fresh (kv : String → Option Bytes) : World where
  kv := kv
  rulings_buckets := fun _ => none
  reference_values := fun _ => none
  phase := .elsewhere
  rulings_bucket_cursor := 0
  rulings_attempts := 0
  reference_step := .sets
  reference_set_count := 0
  reference_catalogs := []
  built_at := ""
  alive := true
  unrecorded := fun _ => none
  notes := []

end ChangedOnly
