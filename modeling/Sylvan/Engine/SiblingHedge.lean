-- SUMMARY: One phase of a gather's sibling calls: each call raced against at most two hedges of it.
import Sylvan.Data.Float64
import Sylvan.Data.Runs
import Mathlib.Data.List.Sort

/-!
# Hedged calls

A phase issues its calls together. Each waits for a slot of the limiter, is sent, and is
looked at by a timer; a late one is asked once more, of the same object or of the
neighbour region's copy. The original and its hedges race: their settlements, the timers
and the limiter's grants come in any order. A timer that is set may fire at any later
moment, so its delay is not kept.
-/

namespace SiblingHedge

/-! ## State -/

structure Tuning where
  enabled : Bool
  crossRegion : Bool
  floorMs : ℤ
  wakingFloorMs : ℤ
  peerFactor : ℤ
  quorum : ℚ
  coolingFloorMs : ℤ
  busyGathers : ℕ
  slowPhaseMs : ℤ

/-- Why a late call's second ask went away from the same object. -/
inductive HedgeAway where
  | busy
  | slowPhase
deriving DecidableEq, Repr

inductive Won where
  | hedge
  | original
  | neither
deriving DecidableEq, Repr

structure Seen where
  answered : ℕ
  issued : ℕ
  peerMedianMs : ℤ
deriving DecidableEq, Repr

/-- The call to the neighbour region's copy. -/
structure CrossNote where
  region : String
  firedAtMs : ℤ
  direct : Bool
  cooled : Bool
  away : Option HedgeAway
  won : Bool
  discarded : Option String
deriving DecidableEq, Repr

structure HedgeNote where
  firedAtMs : ℤ
  won : Won
  originalMs : Option ℤ
  seen : Seen
  cross : Option CrossNote
deriving DecidableEq, Repr

def CrossNote.win (cross : CrossNote) : CrossNote := { cross with won := true }

def CrossNote.discard (why : String) (cross : CrossNote) : CrossNote :=
  { cross with discarded := some why }

/-- A call's outcome, with the note as it stood when the call settled. -/
structure HedgedCall (ε α : Type) where
  result : Except ε α
  ms : ℤ
  hedge : Option HedgeNote

inductive Original (ε α : Type) where
  /-- In the limiter's line. -/
  | queued
  | out
  /-- Its promise has settled; the gather's own continuation has not run. -/
  | landed (result : Except ε α)
  | heard (result : Except ε α)

inductive HedgeState (ε α : Type) where
  /-- In the limiter's line. -/
  | queued
  /-- Its turn came after the call had landed: rejected, and not heard of yet. -/
  | notSent
  | out
  | failed
  | refused (value : α) (why : String)
  | answered (value : α)

/-- One hedge: of the same object (`target` none), or of the neighbour's copy. -/
structure Hedge (ε α : Type) where
  target : Option String
  seen : Seen
  direct : Bool
  cooled : Bool
  away : Option HedgeAway
  /-- What `then` starts as the hedge is sent: the clock of the neighbour named. -/
  next : Option String
  state : HedgeState ε α

structure Call (ε α : Type) where
  sentAt : ℤ
  settled : Bool
  landed : Bool
  asked : Bool
  out : ℤ
  note : Option HedgeNote
  originalFailed : Option ε
  timer : Bool
  crossTimer : Option (Seen × String)
  original : Original ε α
  hedges : List (Hedge ε α)
  /-- What the call's promise was resolved with, each time it was. -/
  outcomes : List (HedgedCall ε α)

def Call.issue {ε α : Type} : Call ε α where
  sentAt := -1
  settled := false
  landed := false
  asked := false
  out := 0
  note := none
  originalFailed := none
  timer := false
  crossTimer := none
  original := .queued
  hedges := []
  outcomes := []

structure Phase where
  issued : ℕ
  answers : List ℤ
  /-- Calls sent, not yet landed, and not yet hedged. -/
  unhedged : ℤ

/-- What the gather's options answer when a late call is looked at. `coolingAgain` and `coolCross`
    are `coolTarget`'s own questions; `free` without a limiter is unbounded. -/
structure Looked where
  now : ℤ
  cooling : Bool
  coolingAgain : Bool
  coolCross : Option String
  mayBeWaking : Bool
  cross : Option String
  gathersAlongside : ℕ
  free : Option ℤ

inductive CallEvent (ε α : Type) where
  /-- The limiter gives the original its slot. -/
  | grant (now : ℤ)
  /-- The original's promise settles, inside its slot. -/
  | settle (result : Except ε α)
  /-- The gather's continuation of the original. -/
  | hear (now : ℤ)
  | consider (looked : Looked)
  | crossAsk
  /-- The limiter gives a hedge its turn. -/
  | grantHedge (i : ℕ) (now : ℤ)
  /-- A hedge's continuation: its result, and what `refuse` says of a neighbour's value (the text of
      what it throws included). -/
  | hearHedge (i : ℕ) (now : ℤ) (result : Except ε α) (refused : Option String)

variable {ε α : Type}

/-! ## The call's own functions -/

/-- The median of the answers in hand, the lower of two. -/
def peerMedian (answers : List ℤ) : ℤ :=
  let sorted := answers.insertionSort (· ≤ ·)
  sorted.getD ((sorted.length - 1) / 2) 0

def hedgeAway (tuning : Tuning) (gathersAlongside : ℕ) (peerMedianMs : ℤ) : Option HedgeAway :=
  if gathersAlongside ≥ tuning.busyGathers then some .busy
  else if peerMedianMs ≥ tuning.slowPhaseMs then some .slowPhase
  else none

namespace Call

def noting (call : Call ε α) (change : HedgeNote → HedgeNote) : Call ε α :=
  { call with note := call.note.map change }

def finish (call : Call ε α) (now : ℤ) (result : Except ε α) : Call ε α :=
  { call with
    settled := true
    timer := false
    crossTimer := none
    outcomes := call.outcomes ++ [⟨result, now - call.sentAt, call.note⟩] }

def hedgeOver (call : Call ε α) (now : ℤ) : Call ε α :=
  let call := { call with out := call.out - 1 }
  match call.originalFailed with
  | some error => if !call.settled && call.out = 0 then call.finish now (.error error) else call
  | none => call

def hedge (call : Call ε α) (hedge : Hedge ε α) : Call ε α :=
  { call with out := call.out + 1, hedges := call.hedges ++ [hedge] }

def moveHedge (call : Call ε α) (i : ℕ) (hedge : Hedge ε α) (state : HedgeState ε α) : Call ε α :=
  { call with hedges := call.hedges.set i { hedge with state := state } }

def ask (tuning : Tuning) (phase : Phase) (call : Call ε α) (looked : Looked) (waking : Bool)
    (peerMedianMs : ℤ) : Phase × Call ε α :=
  let phase := { phase with unhedged := phase.unhedged - 1 }
  let call := { call with asked := true }
  let target := if tuning.crossRegion then looked.cross else none
  let away := hedgeAway tuning looked.gathersAlongside peerMedianMs
  let same := tuning.enabled && away.isNone && (!waking || target.isNone)
  let seen : Seen := ⟨phase.answers.length, phase.issued, peerMedianMs⟩
  let crowded := looked.free.any (· < 2 * (phase.unhedged + 1))
  if target.isSome && (!same || crowded) then
    (phase, call.hedge ⟨target, seen, true, false, away, none, .queued⟩)
  else if same then (phase, call.hedge ⟨none, seen, false, false, none, target, .queued⟩)
  else (phase, call)

/-- A look at a call that is still out, past the cooling branch. -/
def judge (tuning : Tuning) (phase : Phase) (call : Call ε α) (looked : Looked) : Phase × Call ε α :=
  let quorum := max 1 ⌈Float64.nearest (phase.issued * tuning.quorum)⌉
  if phase.answers.length < quorum then (phase, { call with timer := true })
  else
    let peerMedianMs := peerMedian phase.answers
    let waking := tuning.wakingFloorMs > tuning.floorMs && looked.mayBeWaking
    let due := max (if waking then tuning.wakingFloorMs else tuning.floorMs) (tuning.peerFactor * peerMedianMs)
    if looked.now - call.sentAt < due then (phase, { call with timer := true })
    else call.ask tuning phase looked waking peerMedianMs

def consider (tuning : Tuning) (phase : Phase) (call : Call ε α) (looked : Looked) : Phase × Call ε α :=
  let call := { call with timer := false }
  if call.settled || call.landed || call.asked then (phase, call)
  else if looked.cooling && tuning.crossRegion then
    if phase.answers = [] ∨ looked.now - call.sentAt < tuning.coolingFloorMs then
      (phase, { call with timer := true })
    else
      match (if tuning.crossRegion && looked.coolingAgain then looked.coolCross else none) with
      | some target =>
        let call := { call with asked := true }
        let seen : Seen := ⟨phase.answers.length, phase.issued, peerMedian phase.answers⟩
        ({ phase with unhedged := phase.unhedged - 1 }, call.hedge ⟨some target, seen, true, true, none, none, .queued⟩)
      -- no neighbour to ask after all: hedged as any other call
      | none => call.judge tuning phase looked
  else call.judge tuning phase looked

/-- A hedge's turn in the limiter, when the call is still out: it is noted and sent. -/
def sendHedge (call : Call ε α) (i : ℕ) (hedge : Hedge ε α) (now : ℤ) : Call ε α :=
  let firedAtMs := now - call.sentAt
  let note := call.note.getD ⟨firedAtMs, .neither, none, hedge.seen, none⟩
  let note := match hedge.target with
    | some region =>
      { note with cross := some ⟨region, firedAtMs, hedge.direct, hedge.cooled, hedge.away, false, none⟩ }
    | none => note
  { call.moveHedge i hedge .out with
    note := some note
    crossTimer := match hedge.next with
      | some region => some (hedge.seen, region)
      | none => call.crossTimer }

/-- A hedge's answer that the gather can use, unless it has its outcome already. -/
def useHedge (call : Call ε α) (hedge : Hedge ε α) (now : ℤ) (value : α) : Call ε α :=
  if call.settled then call
  else
    let call := call.noting fun note =>
      if hedge.target.isSome then { note with won := .hedge, cross := note.cross.map CrossNote.win }
      else { note with won := .hedge }
    call.finish now (.ok value)

def hearHedge (call : Call ε α) (i : ℕ) (hedge : Hedge ε α) (now : ℤ) (result : Except ε α)
    (refused : Option String) : Call ε α :=
  match result with
  | .error _ => (call.moveHedge i hedge .failed).hedgeOver now
  | .ok value =>
    match hedge.target, refused with
    | some _, some why =>
      let call := call.moveHedge i hedge (.refused value why)
      let call := call.noting fun note => { note with cross := note.cross.map (CrossNote.discard why) }
      call.hedgeOver now
    | _, _ => (call.moveHedge i hedge (.answered value)).useHedge hedge now value

def hear (phase : Phase) (call : Call ε α) (now : ℤ) (result : Except ε α) : Phase × Call ε α :=
  let ms := now - call.sentAt
  let call := { call with original := .heard result }
  let call := call.noting fun note => { note with originalMs := some ms }
  if call.settled then (phase, call)
  else
    match result with
    | .ok value =>
      let answers := if call.note.isNone then phase.answers ++ [ms] else phase.answers
      let call := call.noting fun note => { note with won := .original }
      ({ phase with answers := answers }, call.finish now (.ok value))
    | .error error =>
      if call.out > 0 then (phase, { call with originalFailed := some error })
      else (phase, call.finish now (.error error))

def step (tuning : Tuning) (phase : Phase) (call : Call ε α) : CallEvent ε α → Option (Phase × Call ε α)
  | .grant now =>
    match call.original with
    | .queued => some
        ({ phase with unhedged := phase.unhedged + 1 },
          { call with
            sentAt := now
            original := .out
            timer := tuning.enabled || tuning.crossRegion })
    | _ => none
  | .settle result =>
    match call.original with
    | .out => some
        ({ phase with unhedged := if call.asked then phase.unhedged else phase.unhedged - 1 },
          { call with landed := true, original := .landed result, timer := false, crossTimer := none })
    | _ => none
  | .hear now =>
    match call.original with
    | .landed result => some (call.hear phase now result)
    | _ => none
  | .consider looked => if call.timer then some (call.consider tuning phase looked) else none
  | .crossAsk =>
    match call.crossTimer with
    | some (seen, region) =>
      let call := { call with crossTimer := none }
      some (phase, if !call.settled && !call.landed
        then call.hedge ⟨some region, seen, false, false, none, none, .queued⟩ else call)
    | none => none
  | .grantHedge i now =>
    match call.hedges[i]? with
    | some hedge =>
      match hedge.state with
      | .queued => some (phase,
          if call.landed || call.settled then call.moveHedge i hedge .notSent
          else call.sendHedge i hedge now)
      | _ => none
    | none => none
  | .hearHedge i now result refused =>
    match call.hedges[i]? with
    | some hedge =>
      match hedge.state with
      | .out => some (phase, call.hearHedge i hedge now result refused)
      | .notSent => some (phase, (call.moveHedge i hedge .failed).hedgeOver now)
      | _ => none
    | none => none

end Call

/-! ## The phase -/

structure Run (ε α : Type) where
  phase : Phase
  calls : List (Call ε α)

def Run.start : Run ε α := ⟨⟨0, [], 0⟩, []⟩

inductive Event (ε α : Type) where
  /-- `HedgePhase.run`: one more call is issued. -/
  | run
  | call (c : ℕ) (event : CallEvent ε α)

def Run.step (tuning : Tuning) (s : Run ε α) : Event ε α → Option (Run ε α)
  | .run => some ⟨{ s.phase with issued := s.phase.issued + 1 }, s.calls ++ [.issue]⟩
  | .call c event =>
    match s.calls[c]? with
    | some call => (call.step tuning s.phase event).map fun next => ⟨next.1, s.calls.set c next.2⟩
    | none => none

end SiblingHedge
