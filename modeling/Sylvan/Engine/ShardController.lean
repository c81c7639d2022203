-- SUMMARY: The per-isolate shard autoscaler: a region's widths, the reports that expand it, and the shard a request draws.
import Sylvan.Data.Float64
import Sylvan.Data.Runs
import Mathlib.Algebra.Order.Archimedean.Basic

/-!
# The shard controller

An isolate keeps one record for each region it addresses. `targetShards` is what it
decided to run, `readyShards` what a request draws from, `ownWidth` what it decided
on its own evidence. Reports ridden on responses expand a region, a warm ping's
outcome admits or gives back the new shard, and the width a region's object
announces is adopted. Contraction rides on the draw.
-/

namespace Shards

/-! ## Constants -/

def EXPAND_MIN_RATE : ℚ := 10
def DO_CEILING_RATE : ℚ := 66
def EXPAND_RATE : ℚ := 53
def LATENCY_MIN_RATE : ℚ := 33
def EXPAND_DEPTH : ℤ := 2
def EXPAND_SAMPLES : ℕ := 3
def EXPAND_WINDOW_MS : ℤ := 15000
def EXPAND_COOLDOWN_MS : ℤ := 30000
def CONTRACT_IDLE_MS : ℤ := 10 * 60000
def CONTRACT_COOLDOWN_MS : ℤ := 60000
def BURST_MEMORY_MS : ℤ := 60 * 60000
def BURST_EXPAND_RATE : ℚ := LATENCY_MIN_RATE
def BURST_HOLD_MS : ℤ := 20 * 60000
def BURST_RECUR_GAP_MS : ℤ := 60000
def DEFAULT_MAX_SHARDS : ℕ := 8
def LATENCY_FLOOR_MULT : ℚ := 3
def LATENCY_ABS_MS : ℚ := 10
def LATENCY_BREACHES_TO_EXPAND : ℕ := 5
def LATENCY_MIN_SAMPLES : ℕ := 20

/-! ## State -/

/-- One region's view of its own fan-out. -/
structure RegionState where
  targetShards : ℕ
  readyShards : ℕ
  /-- The width this isolate decided from its own evidence. -/
  ownWidth : ℕ
  queuedAt : List ℤ
  lastBusyAt : ℤ
  lastExpandAt : ℤ
  lastContractAt : ℤ
  floorEwma : ℚ
  fastEwma : ℚ
  latencySamples : ℕ
  latencyBreaches : ℕ
  engineRate : ℚ
  pendingWarmShard : Option ℕ
  wideAt : ℤ
  recurredAt : ℤ
deriving DecidableEq, Repr

/-- What `stateFor` creates for a region seen for the first time. -/
def RegionState.fresh : RegionState where
  targetShards := 1
  readyShards := 1
  ownWidth := 1
  queuedAt := []
  lastBusyAt := 0
  lastExpandAt := 0
  lastContractAt := 0
  floorEwma := 0
  fastEwma := 0
  latencySamples := 0
  latencyBreaches := 0
  engineRate := 0
  pendingWarmShard := none
  wideAt := 0
  recurredAt := 0

/-- An isolate's module state. A region with no record reads as a fresh one, which is what
    `stateFor` would create for it. -/
structure Isolate where
  configuredMax : ℕ
  stateFor : String → RegionState

def Isolate.fresh : Isolate where
  configuredMax := DEFAULT_MAX_SHARDS
  stateFor _ := .fresh

/-- `Math.random()`: a double from zero up to the last one below one. -/
structure Random where
  value : ℚ
  nonneg : 0 ≤ value
  below : value ≤ 1 - 1 / 2 ^ 53

namespace RegionState

variable (state : RegionState) (configuredMax : ℕ) (now : ℤ)

/-! ## Expansion -/

def canExpand : Bool := configuredMax = 0 || state.targetShards < configuredMax

/-- Whether the region ran two or more shards within `BURST_MEMORY_MS` of `now`. -/
def inBurstSeason : Bool := state.wideAt > 0 && now - state.wideAt ≤ BURST_MEMORY_MS

def contractIdleMs : ℤ :=
  if state.recurredAt > 0 ∧ now - state.recurredAt ≤ BURST_MEMORY_MS then BURST_HOLD_MS
  else CONTRACT_IDLE_MS

def expand : RegionState :=
  { state with
    recurredAt :=
      if state.targetShards = 1 ∧ state.inBurstSeason now ∧ now - state.wideAt ≥ BURST_RECUR_GAP_MS
      then now else state.recurredAt
    wideAt := now
    targetShards := state.targetShards + 1
    ownWidth := state.targetShards + 1
    lastExpandAt := now
    queuedAt := []
    pendingWarmShard := some state.targetShards }

def reportEngineRate (rate : ℚ) : RegionState :=
  let state := { state with engineRate := rate }
  let season := state.inBurstSeason now
  if rate < (if season then BURST_EXPAND_RATE else EXPAND_RATE) then state
  else
    let state := { state with lastBusyAt := now }
    let bar := if season ∧ state.targetShards = 1 then BURST_EXPAND_RATE else EXPAND_RATE
    if rate ≥ bar ∧ now - state.lastExpandAt ≥ EXPAND_COOLDOWN_MS ∧ state.canExpand configuredMax
    then state.expand now
    else state

/-- The region's object says the region ran two or more shards `agoMs` ago; not finite is `none`. -/
def noteRegionWide (agoMs : Option ℤ) : RegionState :=
  match agoMs with
  | none => state
  | some agoMs =>
    if agoMs < 0 ∨ agoMs > BURST_MEMORY_MS then state
    else { state with wideAt := max state.wideAt (now - agoMs) }

def reportEngineLoad (depth : ℤ) : RegionState :=
  let state := if depth ≥ 1 then { state with lastBusyAt := now } else state
  if depth < EXPAND_DEPTH then state
  else
    let state := { state with
      queuedAt := (state.queuedAt ++ [now]).filter fun t => now - t ≤ EXPAND_WINDOW_MS }
    if state.queuedAt.length ≥ EXPAND_SAMPLES ∧ state.engineRate ≥ EXPAND_MIN_RATE ∧
        now - state.lastExpandAt ≥ EXPAND_COOLDOWN_MS ∧ state.canExpand configuredMax
    then state.expand now
    else state

/-- `a * x + b * y` on doubles. -/
def blend (a x b y : ℚ) : ℚ :=
  Float64.nearest (Float64.nearest (x * Float64.nearest a) + Float64.nearest (y * Float64.nearest b))

def reportEngineLatency (rpcMs : ℚ) : RegionState :=
  let state := { state with
    latencySamples := state.latencySamples + 1
    floorEwma :=
      if state.floorEwma = 0 then rpcMs
      else if rpcMs < state.floorEwma then blend (7 / 10) state.floorEwma (3 / 10) rpcMs
      else blend (999 / 1000) state.floorEwma (1 / 1000) rpcMs
    fastEwma :=
      if state.fastEwma = 0 then rpcMs else blend (8 / 10) state.fastEwma (2 / 10) rpcMs }
  let bar := max (Float64.nearest (LATENCY_FLOOR_MULT * state.floorEwma)) LATENCY_ABS_MS
  if state.latencySamples < LATENCY_MIN_SAMPLES ∨ state.fastEwma ≤ bar then
    { state with latencyBreaches := 0 }
  else
    let state := { state with lastBusyAt := now, latencyBreaches := state.latencyBreaches + 1 }
    if state.latencyBreaches ≥ LATENCY_BREACHES_TO_EXPAND ∧ state.engineRate ≥ LATENCY_MIN_RATE ∧
        now - state.lastExpandAt ≥ EXPAND_COOLDOWN_MS ∧ state.canExpand configuredMax
    then { state with latencyBreaches := 0 }.expand now
    else state

/-! ## Warming -/

def takeWarmTarget : RegionState × Option ℕ :=
  ({ state with pendingWarmShard := none }, state.pendingWarmShard)

/-- A pending shard has finished its warm-up. Admits every shard up to and including it. -/
def markShardReady (shard : ℕ) : RegionState :=
  let admitted := min (max state.readyShards (shard + 1)) state.targetShards
  if admitted = state.readyShards then state else { state with readyShards := admitted }

def unmarkPending : RegionState :=
  if state.targetShards ≤ state.readyShards then state
  else
    { state with
      targetShards := state.readyShards
      ownWidth := min state.ownWidth state.readyShards }

/-! ## The rendezvous, the isolate's half -/

def currentShardWidth : ℕ := min state.ownWidth state.readyShards

/-- An announced width as the isolate may adopt it; not finite or under one is nonsense. -/
def capped (width : Option ℚ) : Option ℕ :=
  match width with
  | none => none
  | some width =>
    if width < 1 then none
    else if configuredMax = 0 then some ⌊width⌋.toNat
    else some (min ⌊width⌋.toNat configuredMax)

def adoptShardWidth (width : Option ℚ) : RegionState :=
  match capped configuredMax width with
  | none => state
  | some capped =>
    if capped > state.readyShards then
      { state with
        readyShards := capped
        wideAt := if capped > 1 then now else state.wideAt
        targetShards := if state.targetShards < capped then capped else state.targetShards }
    else if capped ≥ state.readyShards then state
    else if state.targetShards ≠ state.readyShards then state
    else
      let floor := min state.ownWidth state.readyShards
      let lowered := max capped floor
      if lowered ≥ state.readyShards then state
      else { state with readyShards := lowered, targetShards := lowered, queuedAt := [] }

/-! ## The draw -/

/-- A region quiet for long enough steps down by one. -/
def contract : RegionState :=
  if state.targetShards > 1 ∧ state.lastBusyAt ≠ 0 ∧ now - state.lastBusyAt ≥ state.contractIdleMs now ∧
      now - state.lastContractAt ≥ CONTRACT_COOLDOWN_MS
  then
    { state with
      targetShards := state.targetShards - 1
      readyShards := if state.readyShards > state.targetShards - 1 then state.targetShards - 1
        else state.readyShards
      ownWidth := min state.ownWidth (state.targetShards - 1)
      lastContractAt := now }
  else state

def clamp : RegionState :=
  { state with
    targetShards := if configuredMax > 0 ∧ state.targetShards > configuredMax then configuredMax
      else state.targetShards
    readyShards := if configuredMax > 0 ∧ state.readyShards > configuredMax then configuredMax
      else state.readyShards }

/-- What `pickShard` leaves of the region's record. -/
def settle : RegionState :=
  let state := state.contract now
  let state := if state.readyShards > 1 then { state with wideAt := now } else state
  state.clamp configuredMax

def draw (random : Random) : ℕ :=
  if state.readyShards = 1 then 0
  else ⌊Float64.nearest (random.value * state.readyShards)⌋.toNat

end RegionState

/-! ## The isolate's operations -/

/-- `SHARDS_MAX` as configured, and never above what the pool can hold. -/
def effectiveShardCap (configured : Option ℤ) (poolCap : Option ℚ) : Option ℤ :=
  match poolCap with
  | none => configured
  | some poolCap =>
    if poolCap < 1 then configured
    else
      match configured with
      | none => some (min DEFAULT_MAX_SHARDS ⌊poolCap⌋)
      | some configured => some (if configured = 0 then ⌊poolCap⌋ else min configured ⌊poolCap⌋)

/-- What a request isolate, and the replies it receives, do to one region's record. -/
inductive Op where
  | expand (now : ℤ)
  | reportEngineRate (now : ℤ) (rate : ℚ)
  | noteRegionWide (now : ℤ) (agoMs : Option ℤ)
  | reportEngineLoad (now : ℤ) (depth : ℤ)
  | reportEngineLatency (now : ℤ) (rpcMs : ℚ)
  | takeWarmTarget
  | markShardReady (shard : ℕ)
  | unmarkPending
  | adoptShardWidth (now : ℤ) (width : Option ℚ)
  | pickShard (now : ℤ) (maxShards : Option ℤ)

def RegionState.take (state : RegionState) (configuredMax : ℕ) : Op → RegionState
  | .expand now => state.expand now
  | .reportEngineRate now rate => state.reportEngineRate configuredMax now rate
  | .noteRegionWide now agoMs => state.noteRegionWide now agoMs
  | .reportEngineLoad now depth => state.reportEngineLoad configuredMax now depth
  | .reportEngineLatency now rpcMs => state.reportEngineLatency configuredMax now rpcMs
  | .takeWarmTarget => state.takeWarmTarget.1
  | .markShardReady shard => state.markShardReady shard
  | .unmarkPending => state.unmarkPending
  | .adoptShardWidth now width => state.adoptShardWidth configuredMax now width
  | .pickShard now _ => state.settle configuredMax now

namespace Isolate

variable (isolate : Isolate)

def update (region : String) (change : RegionState → RegionState) : Isolate :=
  { isolate with stateFor := Function.update isolate.stateFor region (change (isolate.stateFor region)) }

/-- `pickShard`'s first line: a cap that is passed and not negative is the one kept. -/
def configure : Op → Isolate
  | .pickShard _ (some maxShards) =>
    if maxShards ≥ 0 then { isolate with configuredMax := maxShards.toNat } else isolate
  | _ => isolate

def apply (event : String × Op) : Isolate :=
  let isolate := isolate.configure event.2
  isolate.update event.1 (·.take isolate.configuredMax event.2)

def pickShard (region : String) (now : ℤ) (maxShards : Option ℤ) (random : Random) : Isolate × ℕ :=
  let isolate := isolate.apply (region, .pickShard now maxShards)
  (isolate, (isolate.stateFor region).draw random)

def currentShardWidth (region : String) : ℕ := (isolate.stateFor region).currentShardWidth

/-- An isolate that has taken `events`. -/
def after (events : List (String × Op)) : Isolate := events.foldl apply fresh

end Isolate

end Shards
