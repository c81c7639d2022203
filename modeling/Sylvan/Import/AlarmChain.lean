-- SUMMARY: The import coordinator's alarm: fences, budgets, attempts, retries, and the purge of its staging, with a kill between any two calls.
import Sylvan.Data.Calls
import Sylvan.Import.ChangedOnly
import Sylvan.Import.PublishChunksRun

/-!
# The alarm chain

A run is a chain of alarms, each of which does one slice of the phase it finds and arms the
next. A run that was replaced retires: its alarms purge the staging tables in bounded slices,
and then it ends superseded.
-/

namespace AlarmChain

open ChangedOnly (isQuotaError)
open PublishChunks (PpPublish)

/-! ## Constants -/

def MAX_RETRIES : ℕ := 8
def MAX_PHASE_ATTEMPTS : ℕ := 12
def RETIRE_DEFER_MS : ℕ := 60 * 60000
def ALARM_WATCHDOG_MS : ℕ := 5 * 60000
def NOTIFY_WATCHDOG_MS : ℕ := 10 * 60000
def DEAD_MAN_MARGIN_MS : ℕ := 60000
def MAX_RUN_ROWS_READ : ℕ := 1000000
def MAX_RUN_ROWS_WRITTEN : ℕ := 40000
def MAX_DAY_ROWS_READ : ℕ := 1500000
def MAX_DAY_ROWS_WRITTEN : ℕ := 60000
def MAX_RUN_ACTIVE_MS : ℕ := 3 * 60 * 60000
def PURGE_SLICE_BYTES : ℕ := 32 * 1024 * 1024
def PURGE_SLICE_MAX_ROWS : ℕ := 64
def DAY_MS : ℕ := 24 * 3600000

def nextUtcDayMs (now : ℕ) : ℕ := (now / DAY_MS + 1) * DAY_MS + 5 * 60000

def deadManDelayMs (watchdogMs : ℕ) : ℕ := watchdogMs + DEAD_MAN_MARGIN_MS

/-! ## The object -/

inductive RunState where
  | idle
  | starting
  | running
  | done
  | failed
  | superseded
deriving DecidableEq, Repr

inductive Phase where
  | idle
  | listing
  | is_lists
  | fetch (kind : String)
  | recode (kind : String)
  | canonical
  | transform
  | tags
  | scores
  | routing
  | oracle_index
  | bucket
  | agg
  | finalize
  | reorder
  | build
  | publish
  | purge_staging
  | placement
  | manifest
  | notify
  | rulings
  | reference
  | purge
deriving DecidableEq, Repr

def watchdogMs (phase : Phase) : ℕ := if phase = .notify then NOTIFY_WATCHDOG_MS else ALARM_WATCHDOG_MS

inductive PurgeScope where
  | reset
  | partition
  | rewind
  | blobs
  | retire
deriving DecidableEq, Repr

inductive Replacement where
  | watchdog
  | deploy
  | lease
deriving DecidableEq, Repr

structure Superseder where
  name : String
  epoch : ℕ
  kind : Replacement
deriving DecidableEq, Repr

inductive SliceError where
  | fatal (message : String)
  | superseded (superseder : Superseder)
  | other (message : String)
deriving DecidableEq, Repr

def Replacement.text : Replacement → String
  | .watchdog => "watchdog"
  | .deploy => "deploy"
  | .lease => "lease"

def SliceError.message : SliceError → String
  | .fatal message | .other message => message
  | .superseded s => s!"superseded by {s.name} ({s.kind.text}, epoch {s.epoch})"

def SliceError.isFatal : SliceError → Bool
  | .fatal _ => true
  | .superseded _ | .other _ => false

inductive Table where
  | chunk_staging
  | ordered_rows
  | spill_batches
  | routing_keys
  | tagdata_blobs
  | corpus_blobs
  | draft_parts
  | draft_batches
  | stage_members
  | stage_blobs
deriving DecidableEq, Repr

/-- The value of a row's leading key column, in the tables that have one. -/
inductive ScopeValue where
  | whole
  | partition (partition : ℕ)
  | kind (kind : String)
deriving DecidableEq, Repr

def ScopeValue.before : ScopeValue → ScopeValue → Bool
  | .partition a, .partition b => a < b
  | .kind a, .kind b => a < b
  | _, _ => false

/-- A staged row, without its bytes but for their length. -/
structure Row where
  scope : ScopeValue
  key : ℤ
  bytes : ℕ
deriving DecidableEq, Repr

/-- The run record, the meta rows and the staging tables; the alarm that is set; the flag an instance keeps in memory.
    The last four are history, which nothing reads: the keys the run has put to KV, how many there were when it began
    to retire and by whom it was replaced, whether its superseded record was written, whether its storage was
    released, and whether the last alarm's handler survived. -/
structure World where
  run : RunState
  phase : Phase
  purge_scope : Option PurgeScope
  purge_table : Option Table
  purge_kinds : Option (List String)
  purge_next : Option Phase
  purge_slices : ℕ
  pp_publish : Option PpPublish
  superseded_by : Option String
  superseded_kind : Option Replacement
  retries : ℕ
  phase_attempts : ℕ
  tags_nonce : String
  rows_read : ℕ
  rows_written : ℕ
  active_ms : ℕ
  day : ℕ → ℕ × ℕ
  tables : Table → List Row
  alarmAt : Option ℕ
  releaseAfterAlarm : Bool
  puts : ℕ
  entered : Option (ℕ × Replacement)
  recorded : Bool
  released : Bool
  survived : Bool

def World.retiring (w : World) : Bool := w.phase = .purge_staging && w.purge_scope = some .retire

/-! ## What an alarm meets -/

/-- The calls an alarm may die in; those of a slice may throw instead. -/
inductive Site where
  | getRun
  | beginRetire
  | deferRetries
  | deferAttempts
  | deferAlarm
  | readAttempts
  | writeAttempts
  | deadMan
  | failPhase
  | failRun
  | failAlarm
  | purgeSlice (table : Table) (left : ℕ)
  | purgeSlices
  | leavePurge
  | readRun
  | writeSuperseded
  | dropAlarm
  | clearRetries
  | clearAttempts
  | nextAlarm
  | retireAlarm
  | writeRetries
  | writeNonce
  | retryAlarm
  | flushMeters
  | deleteAll
deriving DecidableEq, Repr

inductive Fate where
  | ok
  | threw (error : SliceError)
  | killed
deriving DecidableEq, Repr

/-- A slice of a phase other than the purge: what it leaves in storage and puts to KV, and how it ends. Retiring is not
    a slice's to begin, and the slice that ends the run meets no fence. -/
structure Slice where
  phase : Phase
  purge_scope : Option PurgeScope
  purge_table : Option Table
  purge_kinds : Option (List String)
  purge_next : Option Phase
  pp_publish : Option PpPublish
  tables : Table → List Row
  puts : ℕ
  done : Bool
  fate : Fate
  notRetire : purge_scope ≠ some .retire
  unfenced : done = true → ∀ superseder, fate ≠ .threw (.superseded superseder)

/-- The clock, what the fence reads, what every storage call meets, the slice of another phase, the rows and the time
    spent, and the delay the pacing asks for. -/
structure Alarm where
  now : ℕ
  isRetry : Bool
  fence : Option Superseder
  fate : Site → Fate
  slice : Slice
  rowsRead : ℕ
  rowsWritten : ℕ
  elapsedMs : ℕ
  delayMs : ℕ
  noFence : ∀ site superseder, fate site ≠ .threw (.superseded superseder)

inductive Stop where
  | threw (error : SliceError)
  | killed
deriving DecidableEq, Repr

abbrev Call (α : Type) : Type := EStateM Stop World α

section

variable (a : Alarm)

def bookkeep (site : Site) : Call Unit :=
  if a.fate site = .killed then throw .killed else pure ()

def attempt (fate : Fate) : Call Unit :=
  match fate with
  | .ok => pure ()
  | .threw error => throw (.threw error)
  | .killed => throw .killed

def armAlarm (site : Site) (atMs : ℕ) : Call Unit := do
  bookkeep a site
  modify fun w => { w with alarmAt := some atMs }

/-! ## Purging -/

inductive ScopeColumn where
  | partition
  | kind
deriving DecidableEq, Repr

structure PurgeTable where
  table : Table
  scope : Option ScopeColumn := none
deriving DecidableEq, Repr

def resetTables : List PurgeTable :=
  [⟨.chunk_staging, none⟩, ⟨.ordered_rows, none⟩, ⟨.spill_batches, none⟩, ⟨.routing_keys, none⟩, ⟨.tagdata_blobs, none⟩,
    ⟨.corpus_blobs, none⟩, ⟨.draft_parts, some .partition⟩, ⟨.draft_batches, none⟩, ⟨.stage_members, some .kind⟩,
    ⟨.stage_blobs, some .kind⟩]

def PURGE_TABLES : PurgeScope → List PurgeTable
  | .partition =>
    [⟨.chunk_staging, none⟩, ⟨.ordered_rows, none⟩, ⟨.spill_batches, none⟩, ⟨.draft_parts, some .partition⟩]
  | .rewind => [⟨.ordered_rows, none⟩, ⟨.spill_batches, none⟩]
  | .blobs => [⟨.stage_blobs, some .kind⟩, ⟨.stage_members, some .kind⟩]
  | .reset | .retire => resetTables

structure PurgePlan where
  upTo : ℤ
  rows : ℕ
  bytes : ℕ
deriving DecidableEq, Repr

/-- The loop of `planPurgeSlice`: rows until their bytes reach the budget, one row at least. -/
def planRows (budgetBytes : ℕ) : List Row → PurgePlan → PurgePlan
  | [], plan => plan
  | row :: rows, plan =>
    if 0 < plan.rows ∧ budgetBytes ≤ plan.bytes then plan
    else planRows budgetBytes rows ⟨row.key, plan.rows + 1, plan.bytes + row.bytes⟩

def planPurgeSlice (rows : List Row) (budgetBytes : ℕ) : Option PurgePlan :=
  match rows with
  | [] => none
  | row :: _ => some (planRows budgetBytes rows ⟨row.key, 0, 0⟩)

/-- `MIN` of the leading key column. -/
def leastScope (rows : List Row) : Option ScopeValue :=
  rows.foldl (fun least row => match least with
    | none => some row.scope
    | some value => if row.scope.before value then some row.scope else some value) none

def sliceScope (t : PurgeTable) (partition : Option ℕ) (kinds : Option (List String)) (rows : List Row) :
    Option ScopeValue :=
  match t.scope with
  | none => some .whole
  | some .partition =>
    match partition with
    | some partition => some (.partition partition)
    | none => leastScope rows
  | some .kind =>
    match kinds with
    | some kinds => leastScope (rows.filter fun row => kinds.any fun kind => row.scope = .kind kind)
    | none => leastScope rows

def PurgeTable.inScope (t : PurgeTable) (value : ScopeValue) (row : Row) : Bool := t.scope.isNone || row.scope = value

/-- The table after one delete, and the bytes it freed; `none` when the table, or its scoped part, is empty. -/
def purgeSlice (t : PurgeTable) (partition : Option ℕ) (kinds : Option (List String)) (budgetBytes : ℕ) (rows : List Row) :
    Option (List Row × ℕ) :=
  (sliceScope t partition kinds rows).bind fun value =>
    let head := ((rows.filter (t.inScope value)).insertionSort fun a b => a.key ≤ b.key).take PURGE_SLICE_MAX_ROWS
    (planPurgeSlice head budgetBytes).map fun plan =>
      (rows.filter fun row => !(t.inScope value row && decide (row.key ≤ plan.upTo)), plan.bytes)

/-- One table's deletes, until the budget is spent or the table is empty; `left` bounds them, one for each of its rows. -/
def purgeTable (t : PurgeTable) (partition : Option ℕ) (kinds : Option (List String)) : (left freedBytes : ℕ) → Call ℕ
  | 0, freedBytes => pure freedBytes
  | left + 1, freedBytes => do
      let w ← get
      if freedBytes < PURGE_SLICE_BYTES then
        match purgeSlice t partition kinds (PURGE_SLICE_BYTES - freedBytes) (w.tables t.table) with
        | none => pure freedBytes
        | some (rows, bytes) => do
            attempt (a.fate (.purgeSlice t.table left))
            modify fun w => { w with tables := Function.update w.tables t.table rows }
            purgeTable t partition kinds left (freedBytes + bytes)
      else pure freedBytes

def purgeTables (partition : Option ℕ) (kinds : Option (List String)) : List PurgeTable → ℕ → Call ℕ
  | [], freedBytes => pure freedBytes
  | t :: ts, freedBytes => do
      let w ← get
      let freedBytes ← purgeTable a t partition kinds (w.tables t.table).length freedBytes
      if PURGE_SLICE_BYTES ≤ freedBytes then pure freedBytes else purgeTables partition kinds ts freedBytes

/-- What the scope's purge is confined to, and its tables. -/
structure PurgeContext where
  pp : Option PpPublish
  kinds : Option (List String)
  tables : List PurgeTable

def requirePp (w : World) : Except SliceError PpPublish :=
  match w.pp_publish with
  | some pp => .ok pp
  | none => .error (.fatal ("pp_publish is missing mid-loop — staged by a pre-partition build; " ++
      "the next scheduled import restarts cleanly"))

def purgeContext (w : World) (scope : PurgeScope) : Except SliceError PurgeContext :=
  match scope with
  | .partition | .rewind => do
      let pp ← requirePp w
      .ok ⟨some pp, none, PURGE_TABLES scope⟩
  | .blobs =>
    match w.purge_kinds with
    | none | some [] => .error (.fatal "purge_staging: blobs scope without kinds")
    | some kinds =>
      match w.purge_table with
      | none => .error (.fatal "purge_staging: blobs scope without a table")
      | some table =>
        let tables := (PURGE_TABLES scope).filter fun t => t.table = table
        if tables = [] then .error (.fatal "purge_staging: no such purge table") else .ok ⟨none, some kinds, tables⟩
  | .reset | .retire => .ok ⟨none, none, PURGE_TABLES scope⟩

def advanceToNextPartition (pp : PpPublish) : Option PpPublish :=
  if h : pp.partition + 1 < pp.partitions.length then
    some { pp with partition := pp.partition + 1, step := .agg, inRange := h }
  else none

/-- What follows a scope whose tables are empty, in one transaction. -/
def leavePurge (w : World) : PurgeScope → Option PpPublish → Except SliceError World
  | .reset, _ => .ok { w with phase := .listing, purge_scope := none }
  | .blobs, _ =>
    match w.purge_next with
    | none => .error (.fatal "purge_staging: blobs scope without a next phase")
    | some after =>
      .ok { w with
        phase := after, purge_scope := none, purge_table := none, purge_kinds := none, purge_next := none }
  | .rewind, _ => .ok { w with phase := .agg, purge_scope := none }
  | .retire, _ => .ok { w with phase := .idle, purge_scope := none }
  | .partition, none => .ok { w with purge_scope := none }
  | .partition, some pp =>
    if pp.partition + 1 = pp.partitions.length then .ok { w with phase := .placement, purge_scope := none }
    else match advanceToNextPartition pp with
      | none => .error (.other s!"purge_staging: could not advance past partition {pp.partition}")
      | some pp => .ok { w with phase := .agg, purge_scope := none, pp_publish := some pp }

/-- The superseded record, past the transaction that left the purge. -/
def endSuperseded : Call Unit := do
  attempt (a.fate .readRun)
  attempt (a.fate .writeSuperseded)
  modify fun w => { w with run := .superseded, recorded := true }
  attempt (a.fate .dropAlarm)
  modify fun w => { w with alarmAt := none }
  modify fun w => { w with releaseAfterAlarm := decide (w.superseded_kind ≠ some .deploy) }

def finishPurge (scope : PurgeScope) (pp : Option PpPublish) : Call Unit := do
  attempt (a.fate .leavePurge)
  let w ← get
  match leavePurge w scope pp with
  | .error error => throw (.threw error)
  | .ok left => do
      set left
      if scope = .retire then endSuperseded a else pure ()

def stepPurgeStaging : Call Unit := do
  let w ← get
  match w.purge_scope with
  | none => throw (.threw (.fatal "purge_staging: no purge scope recorded (null)"))
  | some scope =>
    match purgeContext w scope with
    | .error error => throw (.threw error)
    | .ok context => do
        let freedBytes ← purgeTables a (context.pp.map PpPublish.partition) context.kinds context.tables 0
        if 0 < freedBytes then do
          attempt (a.fate .purgeSlices)
          modify fun w => { w with purge_slices := w.purge_slices + 1 }
          if PURGE_SLICE_BYTES ≤ freedBytes then pure () else finishPurge a scope context.pp
        else finishPurge a scope context.pp

/-! ## The alarm -/

def otherSlice : Call Unit := do
  modify fun w =>
    { w with
      phase := a.slice.phase, purge_scope := a.slice.purge_scope, purge_table := a.slice.purge_table
      purge_kinds := a.slice.purge_kinds, purge_next := a.slice.purge_next, pp_publish := a.slice.pp_publish
      tables := a.slice.tables, puts := w.puts + a.slice.puts, run := if a.slice.done then .done else w.run }
  attempt a.slice.fate

def step (phase : Phase) : Call Unit := if phase = .purge_staging then stepPurgeStaging a else otherSlice a

def beginRetire (superseder : Superseder) : Call Unit := do
  bookkeep a .beginRetire
  modify fun w =>
    { w with
      superseded_by := some superseder.name, superseded_kind := some superseder.kind
      phase := .purge_staging, purge_scope := some .retire, purge_slices := 0
      entered := some (w.puts, superseder.kind) }

/-- Park the retiring run's purge until `untilMs`. -/
def deferRetire (untilMs : ℕ) : Call Unit := do
  bookkeep a .deferRetries
  modify fun w => { w with retries := 0 }
  bookkeep a .deferAttempts
  modify fun w => { w with phase_attempts := 0 }
  armAlarm a .deferAlarm untilMs

def failRun : Call Unit := do
  bookkeep a .failPhase
  modify fun w => { w with phase := .idle }
  bookkeep a .failRun
  modify fun w => { w with run := .failed }
  bookkeep a .failAlarm
  modify fun w => { w with alarmAt := none }

def clearRetries : Call Unit := do
  let w ← get
  if w.retries ≠ 0 then do
    attempt (a.fate .clearRetries)
    modify fun w => { w with retries := 0 }
  else pure ()

def clearAttempts (attempts : ℕ) : Call Unit :=
  if 1 < attempts then do
    attempt (a.fate .clearAttempts)
    modify fun w => { w with phase_attempts := 0 }
  else pure ()

def armNext : Call Unit := do
  let w ← get
  if w.phase ≠ .idle then do
    attempt (a.fate .nextAlarm)
    modify fun w => { w with alarmAt := some (a.now + a.delayMs) }
  else pure ()

/-- The slice, the counters it clears, and the next alarm. -/
def sliceAndRearm (phase : Phase) (attempts : ℕ) : Call Unit := do
  step a phase
  clearRetries a
  clearAttempts a attempts
  armNext a

/-- A failed slice of a wasm phase leaves the heap ahead of storage. -/
def markDirty (phase : Phase) : Call Unit :=
  if phase = .agg ∨ phase = .finalize ∨ phase = .reorder ∨ phase = .build then do
    bookkeep a .writeNonce
    modify fun w => { w with tags_nonce := "dirty" }
  else pure ()

/-- A transient error: the retry is recorded, and armed. -/
def retrySlice (phase : Phase) (retries : ℕ) : Call Unit := do
  bookkeep a .writeRetries
  modify fun w => { w with retries := retries }
  markDirty a phase
  armAlarm a .retryAlarm (a.now + min 60000 (1000 * 2 ^ retries))

def handleError (retiring : Bool) (phase : Phase) (error : SliceError) : Call Unit := do
  match error, retiring with
  | .superseded superseder, false => do
      beginRetire a superseder
      armAlarm a .retireAlarm a.now
  | error, retiring => do
      let quota := isQuotaError error.message
      if retiring ∧ (error.isFatal ∨ quota) then
        deferRetire a (if quota then nextUtcDayMs a.now else a.now + RETIRE_DEFER_MS)
      else if error.isFatal ∨ quota then failRun a
      else do
        let w ← get
        if w.retries + 1 ≤ MAX_RETRIES then retrySlice a phase (w.retries + 1)
        else if retiring then deferRetire a (a.now + RETIRE_DEFER_MS)
        else failRun a

/-- The slice under its handler, which a kill does not reach. -/
def guardedSlice (retiring : Bool) (phase : Phase) (attempts : ℕ) : Call Unit :=
  tryCatch (sliceAndRearm a phase attempts) fun
    | .killed => throw .killed
    | .threw error => handleError a retiring phase error

/-- On a platform retry, an alarm past the watchdog, in case this handler is killed too. -/
def armDeadMan (phase : Phase) : Call Unit :=
  if a.isRetry then armAlarm a .deadMan (a.now + deadManDelayMs (watchdogMs phase)) else pure ()

def countedSlice (retiring : Bool) (phase : Phase) : Call Unit := do
  bookkeep a .readAttempts
  let w ← get
  let attempts := w.phase_attempts + 1
  bookkeep a .writeAttempts
  modify fun w => { w with phase_attempts := attempts }
  armDeadMan a phase
  if MAX_PHASE_ATTEMPTS < attempts ∧ retiring then deferRetire a (a.now + RETIRE_DEFER_MS)
  else if MAX_PHASE_ATTEMPTS < attempts then failRun a
  else guardedSlice a retiring phase attempts

def budgetedSlice : Call Unit := do
  let w ← get
  let retiring := w.retiring
  let (dayRead, dayWritten) := w.day (a.now / DAY_MS)
  let overRun := !retiring && decide (MAX_RUN_ROWS_READ < w.rows_read ∨ MAX_RUN_ROWS_WRITTEN < w.rows_written)
  let overDay := decide (MAX_DAY_ROWS_READ < dayRead ∨ MAX_DAY_ROWS_WRITTEN < dayWritten)
  if retiring ∧ overDay then deferRetire a (nextUtcDayMs a.now)
  else if overRun ∨ overDay then failRun a
  else if !retiring ∧ MAX_RUN_ACTIVE_MS < w.active_ms then failRun a
  else countedSlice a retiring w.phase

def fencedSlice : Call Unit := do
  bookkeep a .getRun
  let w ← get
  if w.run ≠ .running then pure ()
  else if w.retiring then budgetedSlice a
  else match a.fence with
    | none => budgetedSlice a
    | some superseder => do
        beginRetire a superseder
        budgetedSlice a

def flushMeters : Call Unit := do
  bookkeep a .flushMeters
  modify fun w =>
    { w with
      rows_read := w.rows_read + a.rowsRead, rows_written := w.rows_written + a.rowsWritten
      active_ms := w.active_ms + a.elapsedMs
      day := Function.update w.day (a.now / DAY_MS)
        ((w.day (a.now / DAY_MS)).1 + a.rowsRead, (w.day (a.now / DAY_MS)).2 + a.rowsWritten) }

def runAlarmBody : Call Unit := do
  tryCatch (fencedSlice a) fun
    | .killed => throw .killed
    | .threw error => do
        flushMeters a
        throw (.threw error)
  flushMeters a

/-- `deleteAll`, which drops the alarm too. -/
def World.deleteAll (w : World) : World :=
  { w with
    run := .idle, phase := .idle, purge_scope := none, purge_table := none, purge_kinds := none, purge_next := none
    purge_slices := 0, pp_publish := none, superseded_by := none, superseded_kind := none, retries := 0
    phase_attempts := 0, tags_nonce := "", rows_read := 0, rows_written := 0, active_ms := 0, day := fun _ => (0, 0)
    tables := fun _ => [], alarmAt := none, released := true }

def releaseStorage : Call Unit := do
  let w ← get
  if w.releaseAfterAlarm then do
    modify fun w => { w with releaseAfterAlarm := false }
    bookkeep a .deleteAll
    modify World.deleteAll
  else pure ()

def runAlarm : Call Unit := do
  let w ← get
  if w.phase = .idle then pure ()
  else do
    runAlarmBody a
    releaseStorage a

/-- One delivery of the alarm. What its handler throws is logged; a kill loses what the instance kept in memory. -/
def alarm (w : World) : World :=
  match runAlarm a { w with alarmAt := none } with
  | .ok _ w' | .error (.threw _) w' => { w' with survived := true }
  | .error .killed w' => { w' with survived := false, releaseAfterAlarm := false }

end

end AlarmChain
