-- SUMMARY: The nightly import's watchdog: the coordinator pointer over ticks, failovers and releases.
import Sylvan.Data.Calendar
import Sylvan.Data.JsMap
import Sylvan.Data.Runs

/-!
# The import watchdog

Each tick reads the pointer from KV, asks the replaced coordinators to release their
storage, asks the current one for its status, and may replace it. What the coordinators
answer, or that they do not, is the tick's input.
-/

namespace Watchdog

/-! ## Constants -/

def LEGACY_COORDINATOR_NAME : String := "singleton"
def STALL_MS : ℤ := 12 * 60000
def KICK_GRACE_MS : ℤ := 10 * 60000
def MAX_FAILOVERS_PER_DAY : ℕ := 3
def SUSPECT_CONFIRM_MS : ℤ := 5 * 60000
def LOST_START_WINDOW_MS : ℤ := 6 * 3600000

def DAY_MS : ℤ := 24 * 3600000

/-! ## The pointer -/

structure CoordinatorPointer where
  name : String
  epoch : ℤ
  failovers : List ℤ
  previous : Option String
  suspectSince : Option ℤ
  retiring : Option (List String)
deriving DecidableEq, Repr

def LEGACY_POINTER : CoordinatorPointer := ⟨LEGACY_COORDINATOR_NAME, 0, [], none, none, none⟩

/-- The stored JSON: a field that is missing, or not of its type, is `none`. -/
structure RawPointer where
  name : Option String
  epoch : Option ℤ
  failovers : Option (List ℤ)
  previous : Option String
  suspectSince : Option ℤ
  retiring : Option (List String)
deriving DecidableEq, Repr

def CoordinatorPointer.stringify (pointer : CoordinatorPointer) : RawPointer where
  name := some pointer.name
  epoch := some pointer.epoch
  failovers := some pointer.failovers
  previous := pointer.previous
  suspectSince := pointer.suspectSince
  retiring := pointer.retiring

/-- The coordinator name a failover at `epoch` designates; a time no date can hold throws. -/
def coordinatorNameAt (epoch : ℤ) : Option String :=
  (Calendar.toISOString epoch).map ("import-" ++ ·)

/-- The coordinators a pointer written before `retiring` existed had already replaced. -/
def replacedBefore (name : String) (epoch : ℤ) (failovers : List ℤ) (previous : Option String) : Option (List String) :=
  if epoch ≤ 0 then some []
  else do
    let ledger ← (failovers.filter (· < epoch)).mapM coordinatorNameAt
    let names := [LEGACY_COORDINATOR_NAME] ++ previous.toList ++ ledger
    pure ((JsSet.of names).filter (· ≠ name))

/-- The pointer, or the legacy coordinator when none was ever written, or it is garbage. -/
def readPointer (raw : Option RawPointer) : Option CoordinatorPointer :=
  match raw with
  | none => some LEGACY_POINTER
  | some raw =>
    match raw.name, raw.epoch with
    | some name, some epoch =>
      if name = "" then some LEGACY_POINTER
      else do
        let failovers := raw.failovers.getD []
        let retiring ← match raw.retiring with
          | some names => some (names.filter (· ≠ name))
          | none => replacedBefore name epoch failovers raw.previous
        pure
          { name := name
            epoch := epoch
            failovers := failovers
            previous := raw.previous
            suspectSince := raw.suspectSince
            retiring := if retiring ≠ [] ∨ raw.retiring.isSome then some retiring else none }
    | _, _ => some LEGACY_POINTER

/-- The pointer after a failover at `now`, with the 24-hour ledger pruned. -/
def nextPointer (current : CoordinatorPointer) (now : ℤ) : Option CoordinatorPointer :=
  let epoch := max now (current.epoch + 1)
  (coordinatorNameAt epoch).map fun name =>
    { name := name
      epoch := epoch
      failovers := current.failovers.filter (· > now - DAY_MS) ++ [epoch]
      previous := some current.name
      suspectSince := none
      retiring := some (JsSet.of (current.retiring.getD [] ++ [current.name])) }

/-! ## Answers -/

inductive ImportState where
  | idle
  | starting
  | running
  | done
  | failed
  | superseded
deriving DecidableEq, Repr

/-- What `/status` answers, as far as the watchdog decides by it. -/
structure CoordinatorStatus where
  state : ImportState
  lastActivityMs : ℤ
  kickedAtMs : Option ℤ
deriving DecidableEq, Repr

inductive StatusAnswer where
  | unresponsive
  | error
  | answered (status : CoordinatorStatus)
deriving DecidableEq, Repr

/-- `typeof status === "object"`. -/
def StatusAnswer.isAnswered : StatusAnswer → Bool
  | .answered _ => true
  | _ => false

inductive KickAnswer where
  | answered
  | timeout
  | threw
deriving DecidableEq, Repr

/-- What a tick meets: the time, and what each coordinator it asks does. -/
structure Tick where
  now : ℤ
  /-- Whether a replaced coordinator answers its `/release` with `released`. -/
  released : String → Bool
  status : StatusAnswer
  kick : KickAnswer

inductive WatchdogAction where
  | none
  | kick
  | suspect
  | failover
deriving DecidableEq, Repr

def decideWatchdog (status : StatusAnswer) (now : ℤ) (suspectSince : Option ℤ) : WatchdogAction :=
  match status with
  | .unresponsive =>
    match suspectSince with
    | none => .suspect
    | some since => if now - since ≥ SUSPECT_CONFIRM_MS then .failover else .none
  | .error => .none
  | .answered status =>
    if status.state ≠ .running ∧ status.state ≠ .starting then .none
    else if now - status.lastActivityMs < STALL_MS then .none
    else
      match status.kickedAtMs with
      | none => .kick
      | some kickedAtMs =>
        if kickedAtMs < status.lastActivityMs then .kick
        else if now - kickedAtMs ≥ KICK_GRACE_MS then .failover
        else .none

/-! ## One tick -/

/-- Ask every replaced coordinator to release its storage; the list is written back when it changed. -/
def releaseRetired (kv : Option RawPointer) (pointer : CoordinatorPointer) (released : String → Bool) :
    Option RawPointer × CoordinatorPointer :=
  let names := pointer.retiring.getD []
  let remaining := names.filter (!released ·)
  if names = [] ∨ remaining.length = names.length then (kv, pointer)
  else
    let next := { pointer with retiring := some remaining }
    (some next.stringify, next)

/-- The status and the action once a kick, where one was due, has been answered. -/
def afterKick (tick : Tick) (suspectSince : Option ℤ) : Option (StatusAnswer × WatchdogAction) :=
  match decideWatchdog tick.status tick.now suspectSince with
  | .kick =>
    match tick.kick with
    | .answered => some (tick.status, .kick)
    -- a kick that is not answered is a missed check of its own
    | .timeout => some (.unresponsive, decideWatchdog .unresponsive tick.now suspectSince)
    | .threw => none
  | action => some (tick.status, action)

/-- `runImportWatchdog`: the pointer as the tick leaves it in KV, and what it decided (`none` is a
    throw: a time no date string can hold). -/
def runImportWatchdog (kv : Option RawPointer) (tick : Tick) : Option RawPointer × Option WatchdogAction :=
  match readPointer kv with
  | none => (kv, none)
  | some pointer =>
    let (kv, pointer) := releaseRetired kv pointer tick.released
    match afterKick tick pointer.suspectSince with
    | none => (kv, some .none)
    | some (status, action) =>
      let kv := if status.isAnswered && pointer.suspectSince.isSome
        then some ({ pointer with suspectSince := none } : CoordinatorPointer).stringify else kv
      match action with
      | .suspect =>
        (some ({ pointer with suspectSince := some tick.now } : CoordinatorPointer).stringify, some .suspect)
      | .failover =>
        if (pointer.failovers.filter (· > tick.now - DAY_MS)).length ≥ MAX_FAILOVERS_PER_DAY then
          (kv, some .none)
        else
          match nextPointer pointer tick.now with
          | some next => (some next.stringify, some .failover)
          | none => (kv, none)
      -- starting a coordinator whose start was lost leaves the pointer alone
      | .none => (kv, some .none)
      | .kick => (kv, some .kick)

/-! ## Runs -/

/-- KV, the clock, and what has happened so far. -/
structure World where
  kv : Option RawPointer
  clock : ℤ
  /-- Names the pointer stopped naming. -/
  replaced : List String
  /-- Names that answered a release. -/
  released : List String
  /-- When each failover happened, and the epoch it stored. -/
  failovers : List (ℤ × ℤ)

def World.start : World := ⟨none, 0, [], [], []⟩

def World.pointer (w : World) : CoordinatorPointer := (readPointer w.kv).getD LEGACY_POINTER

def World.step (w : World) (tick : Tick) : Option World :=
  if tick.now < w.clock then none
  else
    let (kv, action) := runImportWatchdog w.kv tick
    let after : World :=
      { kv := kv
        clock := tick.now
        replaced := w.replaced
        released := w.released ++ (w.pointer.retiring.getD []).filter tick.released
        failovers := w.failovers }
    some (if action = some .failover then
      { after with
        replaced := w.replaced ++ [w.pointer.name]
        failovers := w.failovers ++ [(tick.now, after.pointer.epoch)] }
    else after)

end Watchdog
