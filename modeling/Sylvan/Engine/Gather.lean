-- SUMMARY: The two-phase gather: keys from every partition on one build, one page, its rows.
import Sylvan.Data.Act
import Sylvan.Data.Text
import Sylvan.Engine.GatherPage

/-!
# The two-phase gather

The coordinator asks every partition for its best keys, merges them, cuts the page
and fetches the rows the replies did not carry. A partition is what its client
answers: any act of a world.
-/

namespace Gather

open Throws

/-! ## What a partition is asked -/

structure EngineSearchOptions where
  filterTreeJson : String
  unique : String
  prefer : String
  orderby : String
  direction : String
  limit : ℕ
  offset : ℕ
  fields : List String
  includeMultilingual : Bool

inductive RowShape where
  | rows
  | cards
  | columns
  deriving DecidableEq

def RowShape.name : RowShape → String
  | rows => "rows"
  | cards => "cards"
  | columns => "columns"

structure RowShaping where
  shape : RowShape
  baseUrl : String

def ROWS_SHAPING : RowShaping := { shape := .rows, baseUrl := "" }

/-- JSON text and the row objects of type `R` it spells: one row, and an array of them. -/
structure RowCodec (R : Type) where
  parse : Bytes → Except String R
  parseAll : Bytes → Except String (List R)
  stringify : R → Bytes

/-- The shape a gather runs in, and how a row that arrives unshaped is reshaped. -/
structure GatherShaping (R : Type) extends RowShaping where
  reshape : R → Bytes

structure SearchKeysReply where
  packed : Bytes
  storeKey : String
  sortKeyVersion : ℕ
  /-- Absent on a build that does not shape rows. -/
  shape : Option RowShape
  acquireMs : Option ℕ

structure FetchRowsReply where
  rowsBytes : Bytes
  shape : Option RowShape

structure PartitionClient (W : Type) where
  searchKeys : EngineSearchOptions → ℕ → RowShaping → Act W SearchKeysReply
  fetchRows : List ℕ → List String → String → RowShaping → Act W FetchRowsReply
  refresh : Option (Act W Unit)

/-! ## A partition on the previous build -/

/-- `[` slot `,` slot … `]` -/
def joinJsonArray (slots : List Bytes) : Bytes :=
  [0x5b] ++ List.intercalate [0x2c] slots ++ [0x5d]

def isUnknownRowShape (message : String) (shape : RowShape) : Bool :=
  let name := shape.name
  Text.includes message.toList s!"unknown row shape \"{name}\"".toList

/-- A run's world: the partitions', and which of them have refused the shape. -/
structure Run (W : Type) where
  world : W
  refused : ℕ → Bool

def Run.start {W : Type} (w : W) : Run W := { world := w, refused := fun _ => false }

def Run.call {W α : Type} (x : Act W α) : Act (Run W) α := fun r =>
  match x r.world with
  | (a, w) => (a, { r with world := w })

/-- The wrapper's one way to ask: in `shape` unless partition `p` has refused it,
for rows once it has, and the answer then as the previous build's. -/
def askOrFallBack {W α : Type} (p : ℕ) (shape : RowShape) (asked rows : Act W α)
    (legacy : α → Except String α) : Act (Run W) α := fun r =>
  let fallBack : Act (Run W) α := Run.call rows >>= fun reply => Act.lift (legacy reply)
  if r.refused p then fallBack r
  else
    match Run.call asked r with
    | (.ok reply, r) => (.ok reply, r)
    | (.error err, r) =>
      if isUnknownRowShape err shape then
        fallBack { r with refused := Function.update r.refused p true }
      else (.error err, r)

def legacyFetchReply (reply : FetchRowsReply) : Except String FetchRowsReply :=
  match reply.shape with
  | none => .ok { reply with shape := none }
  | some _ => do
    let rows ← decodeRowPacket reply.rowsBytes
    return { rowsBytes := joinJsonArray rows, shape := none }

/-- Client `p`, asked for `shape`, and for plain rows when it refuses. -/
def tolerateUnknownShape {W : Type} (p : ℕ) (client : PartitionClient W) (shape : RowShape) : PartitionClient (Run W) :=
  if shape = .rows then
    { searchKeys := fun opts inlineRows shaping =>
        Run.call (client.searchKeys opts inlineRows shaping)
      fetchRows := fun vpids fields storeKey shaping =>
        Run.call (client.fetchRows vpids fields storeKey shaping)
      refresh := client.refresh.map Run.call }
  else
    { searchKeys := fun opts inlineRows shaping =>
        askOrFallBack p shape (client.searchKeys opts inlineRows shaping)
          (client.searchKeys opts inlineRows ROWS_SHAPING)
          fun reply => .ok { reply with shape := none }
      fetchRows := fun vpids fields storeKey shaping =>
        askOrFallBack p shape (client.fetchRows vpids fields storeKey shaping)
          (client.fetchRows vpids fields storeKey ROWS_SHAPING) legacyFetchReply
      refresh := client.refresh.map Run.call }

/-! ## The pinned generation -/

structure GenerationReply where
  partition : ℕ
  storeKey : String

structure Pin where
  pinnedBuiltAt : String
  stragglers : List ℕ

/-- `-v\d+-(\d+)(?:-p\d+)?\.store$`, from the front of `s`. -/
def storeKeyTail (s : List Char) : Option (List Char) := do
  let s ← Text.stripLit "-v".toList s
  let (_, s) ← Text.stripRun Text.isDigit s
  let s ← Text.stripLit "-".toList s
  let (builtAt, s) ← Text.stripRun Text.isDigit s
  if Text.stripPartition s = ".store".toList then some builtAt else none

def builtAtOfStoreKey (storeKey : String) : Except String String :=
  match storeKey.toList.tails.findSome? storeKeyTail with
  | some builtAt => .ok (String.ofList builtAt)
  | none => .error s!"phase-1 reply names an unparseable store key: {storeKey}"

def newestOf (builds : List String) : String :=
  builds.foldl
    (fun pinned built =>
      if pinned = "" ∨ Text.decimal built > Text.decimal pinned then built else pinned) ""

def pinGeneration (replies : List GenerationReply) : Except String Pin := do
  let builds ← replies.mapM fun r => builtAtOfStoreKey r.storeKey
  let pinned := newestOf builds
  return {
    pinnedBuiltAt := pinned
    stragglers := ((replies.zip builds).filter fun r => r.2 ≠ pinned).map fun r => r.1.partition }

def pinReplies (replies : List SearchKeysReply) : Except String Pin :=
  pinGeneration
    (replies.zipIdx.map fun r => { partition := r.2, storeKey := r.1.storeKey })

/-- The build the replies answered from, or `""` for none. -/
def pinnedBuild : List SearchKeysReply → Except String String
  | [] => .ok ""
  | first :: _ => builtAtOfStoreKey first.storeKey

/-! ## Phase 1 -/

section Phase1

variable {W : Type}

def GATHER_REISSUE_BACKOFF_MS : ℕ := 250

def clientAt (clients : List (PartitionClient W)) (p : ℕ) : Except String (PartitionClient W) :=
  match clients[p]? with
  | some client => .ok client
  | none => .error "TypeError"

def reissue (clients : List (PartitionClient W)) (phase1 : EngineSearchOptions) (budget : ℕ)
    (shaping : RowShaping) (stragglers : List ℕ) (replies : List SearchKeysReply) :
    Act W (List SearchKeysReply) :=
  stragglers.foldlM
    (fun replies p => do
      let client ← Act.lift (clientAt clients p)
      let reply ← client.searchKeys phase1 budget shaping
      return replies.set p reply)
    replies

/-- Tell the stragglers to converge on the manifest. -/
def refreshAll (clients : List (PartitionClient W)) (stragglers : List ℕ) : Act W Unit :=
  stragglers.forM fun p => do
    let client ← Act.lift (clientAt clients p)
    client.refresh.getD (pure ())

def askKeys (clients : List (PartitionClient W)) (phase1 : EngineSearchOptions) (budget : ℕ)
    (shaping : RowShaping) (sleep : ℕ → W → W) : Act W (List SearchKeysReply) := do
  let replies ← clients.mapM fun c => c.searchKeys phase1 budget shaping
  let pin ← Act.lift (pinReplies replies)
  if pin.stragglers = [] then pure replies
  else
    Act.modify (sleep GATHER_REISSUE_BACKOFF_MS)
    let replies ← reissue clients phase1 budget shaping pin.stragglers replies
    let pin ← Act.lift (pinReplies replies)
    if pin.stragglers = [] then pure replies
    else
      refreshAll clients pin.stragglers
      let replies ← reissue clients phase1 budget shaping pin.stragglers replies
      let pin ← Act.lift (pinReplies replies)
      if pin.stragglers = [] then pure replies
      else
        let which := ",".intercalate (pin.stragglers.map toString)
        let built := pin.pinnedBuiltAt
        Act.throw (s!"gather: partitions {which} still answer from another generation " ++
          s!"after re-issue and refresh (pinned built_at {built})")

end Phase1

/-- How many rows each partition carries inline; `slack` is four deviations of its
share of the page. -/
def inlineRowBudget (slack : ℕ → ℕ → ℕ) (offset limit partitionCount : ℕ) : ℕ :=
  if offset > 0 ∨ partitionCount = 0 ∨ limit = 0 then 0
  else min limit ((limit + partitionCount - 1) / partitionCount + slack limit partitionCount)

/-! ## The gates -/

def versionGate (replies : List SearchKeysReply) : Except String Unit :=
  match replies with
  | [] => .error "TypeError"
  | first :: _ =>
    match replies.zipIdx.find? fun r => r.1.sortKeyVersion ≠ first.sortKeyVersion with
    | none => .ok ()
    | some (r, p) =>
      let version := r.sortKeyVersion
      let against := first.sortKeyVersion
      .error (s!"gather: partition {p} emits sort-key version {version} " ++
        s!"against partition 0's {against}; refusing to merge streams from different encodings")

/-- A reply in another shape than the one asked for is refused. -/
def shapeGate (asked : RowShape) (replies : List SearchKeysReply) : Except String Unit :=
  match replies.zipIdx.find? fun r => r.1.shape ≠ none ∧ r.1.shape ≠ some asked with
  | none => .ok ()
  | some (r, p) =>
    let carried := (r.shape.map RowShape.name).getD ""
    let asked := asked.name
    .error s!"gather: partition {p} carried {carried} rows where {asked} was asked"

/-! ## Phase 2 -/

section Phase2

variable {W R : Type}

def GatherShaping.spell (shaping : GatherShaping R) (codec : RowCodec R) (row : R) : Bytes :=
  if shaping.shape = .rows then codec.stringify row else shaping.reshape row

def reshapeLegacy (codec : RowCodec R) (shaping : GatherShaping R) (bytes : Bytes) : Except String Bytes :=
  if shaping.shape = .rows then .ok bytes
  else do
    let row ← codec.parse bytes
    return shaping.reshape row

def inlineSlot (codec : RowCodec R) (shaping : GatherShaping R) (legacy : Bool) (bytes : Bytes) : Except String Bytes :=
  if legacy then reshapeLegacy codec shaping bytes else .ok bytes

def framesOf (codec : RowCodec R) (shaping : GatherShaping R) (partition : ℕ)
    (reply : FetchRowsReply) : Except String (List Bytes) :=
  match reply.shape with
  | none => do
    let rows ← codec.parseAll reply.rowsBytes
    return rows.map (shaping.spell codec)
  | some shape =>
    if shape ≠ shaping.shape then
      let fetched := shape.name
      let asked := shaping.shape.name
      .error s!"gather: partition {partition} fetched {fetched} rows where {asked} was asked"
    else decodeRowPacket reply.rowsBytes

def fetchOwed (codec : RowCodec R) (shaping : GatherShaping R) (clients : List (PartitionClient W))
    (fields : List String) (replies : List SearchKeysReply) (owed : ℕ × List ℕ) :
    Act W (ℕ × List Bytes) := do
  let partition := owed.1
  let vpids := owed.2
  let client ← Act.lift (clientAt clients partition)
  let storeKey := ((replies[partition]?).map SearchKeysReply.storeKey).getD ""
  let reply ← client.fetchRows vpids fields storeKey shaping.toRowShaping
  let frames ← Act.lift (framesOf codec shaping partition reply)
  if frames.length ≠ vpids.length then
    let returned := frames.length
    let asked := vpids.length
    Act.throw s!"gather: partition {partition} returned {returned} rows for {asked} vpids"
  else pure (partition, frames)

/-- Each page slot's row: inline, or the next of its partition's fetched rows. -/
def splice (codec : RowCodec R) (shaping : GatherShaping R) (packets : List KeyPacket)
    (legacy : ℕ → Bool) (fetched : JsMap ℕ (List Bytes)) :
    (page : List MergedRef) → (cursors : JsMap ℕ ℕ) → Except String (List Bytes)
  | [], _ => .ok []
  | ref :: page, cursors =>
    match (packets[ref.partition]?).bind fun packet => packet.inlineRows[ref.index]? with
    | some inline => do
      let slot ← inlineSlot codec shaping (legacy ref.partition) inline
      let slots ← splice codec shaping packets legacy fetched page cursors
      return slot :: slots
    | none =>
      let next := (cursors.get ref.partition).getD 0
      match (fetched.get ref.partition).bind fun frames => frames[next]? with
      -- the length check of `fetchOwed` leaves no queue short
      | none => .error "TypeError"
      | some slot => do
        let slots ← splice codec shaping packets legacy fetched page
          (cursors.set ref.partition (next + 1))
        return slot :: slots

end Phase2

/-! ## Both phases -/

structure GatheredPage where
  total : ℕ
  slots : List Bytes
  acquireMs : ℕ
  widened : Bool
  builtAt : String

def DEEP_OFFSET_PROBE : ℕ := 10000

def longest (acquireMs : ℕ) (replies : List SearchKeysReply) : ℕ :=
  replies.foldl (fun longest r => max longest (r.acquireMs.getD 0)) acquireMs

def decodeAll (replies : List SearchKeysReply) : Except String (List KeyPacket) :=
  replies.mapM fun r => decodeKeyPacket r.packed

def widenedOf (packets : List KeyPacket) : Bool := (packets.head?.map KeyPacket.widened).getD false

def summedTotal (packets : List KeyPacket) : ℕ := (packets.map KeyPacket.total).sum

def probedTotal (packets : List KeyPacket) : ℕ :=
  summedTotal packets + (if pickArtless (packets.map KeyPacket.artless) = none then 0 else 1) +
    (pickShared (packets.map KeyPacket.shared)).length

section

variable {W R : Type} (codec : RowCodec R) (slack : ℕ → ℕ → ℕ) (sleep : ℕ → W → W)

def gatherPage (clients : List (PartitionClient (Run W))) (opts : EngineSearchOptions)
    (shaping : GatherShaping R) (acquireMs : ℕ) (replies : List SearchKeysReply) :
    Act (Run W) GatheredPage := do
  Act.lift (versionGate replies)
  Act.lift (shapeGate shaping.shape replies)
  let legacy := fun p => (replies.map fun r => decide (r.shape = none)).getD p false
  let packets ← Act.lift (decodeAll replies)
  let merge := mergeApart (packets.map KeyPacket.entries)
    (packets.map KeyPacket.artless) (packets.map KeyPacket.shared)
  let total := summedTotal packets + merge.2
  let carried := packets.map fun p => p.inlineRows.length
  let cut := selectPage merge.1 opts.offset opts.limit carried
  let builtAt ← Act.lift (pinnedBuild replies)
  if cut.1 = [] then
    pure { total, slots := [], acquireMs, widened := widenedOf packets, builtAt }
  else
    let fetched ← cut.2.entries.mapM (fetchOwed codec shaping clients opts.fields replies)
    let queues := fetched.foldl (fun queues f => queues.set f.1 f.2) JsMap.empty
    let slots ← Act.lift (splice codec shaping packets legacy queues cut.1 JsMap.empty)
    pure { total, slots, acquireMs, widened := widenedOf packets, builtAt }

def gatherFrom (clients : List (PartitionClient (Run W))) (opts : EngineSearchOptions)
    (shaping : GatherShaping R) (acquireMs : ℕ) : Act (Run W) GatheredPage := do
  let phase1 := { opts with offset := 0, limit := min (opts.offset + opts.limit) 0xffffffff }
  let budget := inlineRowBudget slack opts.offset opts.limit clients.length
  let replies ← askKeys clients phase1 budget shaping.toRowShaping
    fun ms r => { r with world := sleep ms r.world }
  gatherPage codec clients opts shaping (longest acquireMs replies) replies

def gatherRun (clients : List (PartitionClient (Run W))) (opts : EngineSearchOptions)
    (shaping : GatherShaping R) : Act (Run W) GatheredPage := do
  if opts.offset ≥ DEEP_OFFSET_PROBE then
    let probe ← askKeys clients { opts with offset := 0, limit := 1 } 0 shaping.toRowShaping
      fun ms r => { r with world := sleep ms r.world }
    let acquireMs := longest 0 probe
    let probed ← Act.lift (decodeAll probe)
    if opts.offset ≥ probedTotal probed then
      let builtAt ← Act.lift (pinnedBuild probe)
      pure {
        total := probedTotal probed, slots := [], acquireMs, widened := widenedOf probed, builtAt }
    else gatherFrom codec slack sleep clients opts shaping acquireMs
  else gatherFrom codec slack sleep clients opts shaping 0

def runTwoPhase (partitionClients : List (PartitionClient W)) (opts : EngineSearchOptions)
    (shaping : GatherShaping R) : Act W GatheredPage := fun w =>
  let clients := partitionClients.zipIdx.map fun c => tolerateUnknownShape c.2 c.1 shaping.shape
  match gatherRun codec slack sleep clients opts shaping (Run.start w) with
  | (page, r) => (page, r.world)

end

end Gather
