-- SUMMARY: Recoding a staged dump into independently compressed members, window by window.
import Sylvan.Data.Bytes

/-!
# Recode

A fetched dump is one long gzip stream. The recode cuts what it decompresses to
into members of `memberRaw` bytes, each compressed on its own, and commits them a
window at a time. An alarm cuts as many windows as its budget affords; the next
one resumes from the saved inflater, or reads the dump again from byte 0.
-/

namespace Recode

/-! ## One window -/

structure RecodedMember where
  seq : ℕ
  rawStart : ℕ
  rawLen : ℕ
  bytes : Bytes
  deriving DecidableEq

structure RecodeResult where
  members : List RecodedMember
  rawStart : ℕ
  rawEnd : ℕ
  exhausted : Bool
  /-- What the window left of its last chunk. -/
  carry : Option Bytes
  deriving DecidableEq

/-- Why a run ends early: something threw, or the isolate was killed. -/
inductive Stop where
  | threw (message : String)
  | killed
  deriving DecidableEq

/-- How a stream ends. A run that is killed sees no more of it. -/
abbrev Ending : Type := Except Stop Unit

/-- A stream: its chunks, each with where the source stands once it is taken. -/
structure Source (σ : Type) where
  chunks : List (Bytes × σ)
  ending : Ending

/-- A window being cut: the members so far, where the next one starts, and its
bytes so far. -/
structure Cut where
  members : List RecodedMember
  memberStart : ℕ
  part : Bytes

/-- A cut window, where the source then stands, and what it still holds. -/
structure Window (σ : Type) where
  result : RecodeResult
  mark : σ
  rest : List (Bytes × σ)

def MEMBER_GZ_CAP_BYTES : ℕ := 2000000

section Window

variable {σ : Type} (gzipBytes : Bytes → Bytes)

def flush (memberRaw : ℕ) (cut : Cut) : Except Stop Cut :=
  if cut.part = [] then .ok cut
  else
    let bytes := gzipBytes cut.part
    if bytes.length > MEMBER_GZ_CAP_BYTES then
      let rawOffset := cut.memberStart
      let length := bytes.length
      .error (.threw (s!"recode: member at raw offset {rawOffset} compressed to {length} bytes, " ++
        s!"over the {MEMBER_GZ_CAP_BYTES} SQLite value ceiling — this data compresses worse " ++
        "than ~4.2:1; halve MEMBER_RAW_BYTES"))
    else
      let member := {
        seq := cut.memberStart / memberRaw
        rawStart := cut.memberStart
        rawLen := cut.part.length
        bytes }
      .ok {
        members := cut.members ++ [member]
        memberStart := cut.memberStart + cut.part.length
        part := [] }

/-- The loop over one chunk, which takes a byte at least each turn. A window that
fills returns with what is left of the chunk. -/
def takeChunk (rawDone windowRaw memberRaw : ℕ) : (turns : ℕ) → Cut → Bytes → Except Stop (Cut × Option Bytes)
  | 0, cut, _ => .ok (cut, none)
  | turns + 1, cut, data =>
    if data = [] then .ok (cut, none)
    else
      let take := min (memberRaw - cut.part.length) data.length
      let cut := { cut with part := cut.part ++ data.take take }
      let rest := data.drop take
      if cut.part.length = memberRaw then
        match flush gzipBytes memberRaw cut with
        | .error stop => .error stop
        | .ok cut =>
          if cut.memberStart - rawDone ≥ windowRaw then .ok (cut, some rest)
          else takeChunk rawDone windowRaw memberRaw turns cut rest
      else takeChunk rawDone windowRaw memberRaw turns cut rest

def finish (rawDone memberRaw : ℕ) (exhausted : Bool) (carry : Option Bytes) (cut : Cut) : Except Stop RecodeResult :=
  match flush gzipBytes memberRaw cut with
  | .error stop => .error stop
  | .ok cut => .ok {
      members := cut.members
      rawStart := rawDone
      rawEnd := cut.memberStart
      exhausted
      carry }

def windowLoop (rawDone windowRaw memberRaw : ℕ) (ending : Ending) :
    (chunks : List (Bytes × σ)) → (toSkip : ℕ) → Cut → (mark : σ) → Except Stop (Window σ)
  | [], _, cut, mark =>
    match ending with
    | .error stop => .error stop
    | .ok () =>
      match finish gzipBytes rawDone memberRaw true none cut with
      | .error stop => .error stop
      | .ok result => .ok { result, mark, rest := [] }
  | (chunk, mark) :: chunks, toSkip, cut, _ =>
    if toSkip > 0 ∧ chunk.length ≤ toSkip then
      windowLoop rawDone windowRaw memberRaw ending chunks (toSkip - chunk.length) cut mark
    else
      let data := chunk.drop toSkip
      match takeChunk gzipBytes rawDone windowRaw memberRaw (data.length + 1) cut data with
      | .error stop => .error stop
      | .ok (cut, none) => windowLoop rawDone windowRaw memberRaw ending chunks 0 cut mark
      | .ok (cut, some left) =>
        match finish gzipBytes rawDone memberRaw false (if left = [] then none else some left) cut with
        | .error stop => .error stop
        | .ok result => .ok { result, mark, rest := chunks }

/-- Cut one window out of a stream that stands at `mark`. -/
def recodeWindow (source : Source σ) (mark : σ) (rawDone windowRaw memberRaw skip : ℕ) : Except Stop (Window σ) :=
  if windowRaw % memberRaw ≠ 0 then
    .error (.threw s!"recode: window {windowRaw} is not a multiple of the member size {memberRaw}")
  else if rawDone % memberRaw ≠ 0 then
    .error (.threw
      s!"recode: checkpoint {rawDone} is not on a {memberRaw}-byte member boundary")
  else
    windowLoop gzipBytes rawDone windowRaw memberRaw source.ending source.chunks skip
      { members := [], memberStart := rawDone, part := [] } mark

end Window

/-! ## One alarm -/

/-- Modelled work: what is spent when an alarm starts, whether so many more bytes
overrun the budget, and their charge. -/
structure Budget (κ : Type) where
  start : ℕ → κ
  overruns : κ → ℕ → Bool
  charge : κ → ℕ → κ

def GIB : Float := 1073741824

def secondsBudget (budgetSeconds gzipSecondsPerGib discardSecondsPerGib : Float)
    (resumed : Bool) : Budget Float where
  start rawDone := if resumed then 0 else rawDone.toFloat / GIB * discardSecondsPerGib
  overruns spent bytes := bytes.toFloat / GIB * gzipSecondsPerGib > budgetSeconds - spent
  charge spent bytes := spent + bytes.toFloat / GIB * gzipSecondsPerGib

/-- Halve the window until it fits, to one member at least. -/
def fitUnits (overruns : ℕ → Bool) (units : ℕ) : ℕ :=
  if units > 1 ∧ overruns units then fitUnits overruns (units / 2) else units
termination_by units
decreasing_by omega

/-- How an alarm that is not stopped ends. -/
inductive AlarmEnd where
  | exhausted
  | overBudget
  deriving DecidableEq

section Alarm

variable {σ κ : Type} (gzipBytes : Bytes → Bytes) (budget : Budget κ) (windowRaw memberRaw : ℕ)

/-- A window's view of the alarm's stream: the last window's carry, then the rest. -/
def resumedSource (carry : Option Bytes) (mark : σ) (source : Source σ) : Source σ :=
  { source with chunks := (carry.map fun bytes => (bytes, mark)).toList ++ source.chunks }

/-- The loop over windows, killed after `turns` of them: the windows handed to
`commit`, each with where the source then stands. -/
def alarmLoop : (turns : ℕ) → (first : Bool) → (spent : κ) → (skip cur : ℕ) →
    (carry : Option Bytes) → Source σ → (mark : σ) →
    List (RecodeResult × σ) × Except Stop AlarmEnd
  | 0, _, _, _, _, _, _, _ => ([], .error .killed)
  | turns + 1, first, spent, skip, cur, carry, source, mark =>
    let units := fitUnits (fun units => budget.overruns spent (units * memberRaw))
      (max 1 (windowRaw / memberRaw))
    if ¬ first ∧ budget.overruns spent (units * memberRaw) then ([], .ok .overBudget)
    else
      match recodeWindow gzipBytes (resumedSource carry mark source) mark cur (units * memberRaw)
          memberRaw skip with
      | .error stop => ([], .error stop)
      | .ok window =>
        let committed := (window.result, window.mark)
        if window.result.exhausted then ([committed], .ok .exhausted)
        else
          let later := alarmLoop turns false
            (budget.charge spent (window.result.rawEnd - cur)) 0 window.result.rawEnd
            window.result.carry { source with chunks := window.rest } window.mark
          (committed :: later.1, later.2)

/-- Cut windows from `source`, which stands at `rawDone` when `resumed` and at
byte 0 otherwise. -/
def recodeAlarm (turns : ℕ) (source : Source σ) (mark : σ) (rawDone : ℕ) (resumed : Bool) :
    List (RecodeResult × σ) × Except Stop AlarmEnd :=
  alarmLoop gzipBytes budget windowRaw memberRaw turns true (budget.start rawDone)
    (if resumed then 0 else rawDone) rawDone none source mark

end Alarm

/-! ## The inflater as a source -/

/-- The resumable inflater, by its decoder's state: what a feed consumes and
produces, and the state saved and restored with its offset in the compressed
stream. -/
structure InflateHost (ι : Type) where
  begin : ι
  feed : ι → Bytes → ℕ → ι × ℕ × Bytes
  atBoundary : ι → Bool
  totalOut : ι → ℕ
  save : ι → Bytes
  restore : Bytes → Option (ι × ℕ)

structure InflateRecodeSource (ι : Type) where
  inflate : ι
  /-- The compressed rows still to read. -/
  rows : List Bytes
  pending : Bytes
  rowsDone : Bool
  produced : ℕ

namespace InflateRecodeSource

variable {ι : Type} (host : InflateHost ι) (memberRaw : ℕ)

def start (inflate : ι) (rows : List Bytes) (rawStart : ℕ) : InflateRecodeSource ι :=
  { inflate, rows, pending := [], rowsDone := false, produced := rawStart }

def refill (s : InflateRecodeSource ι) : InflateRecodeSource ι :=
  if s.pending = [] ∧ s.rowsDone = false then
    match s.rows with
    | [] => { s with rowsDone := true }
    | row :: rows => { s with pending := row, rows }
  else s

/-- One turn of the stream: a chunk, another turn, or the end. -/
inductive Turn (ι : Type) where
  | chunk (output : Bytes) (s : InflateRecodeSource ι)
  | again (s : InflateRecodeSource ι)
  | ends (ending : Ending)

def turn (s : InflateRecodeSource ι) : Turn ι :=
  let s := s.refill
  let input := s.pending
  let cap := memberRaw - s.produced % memberRaw
  let fed := host.feed s.inflate input cap
  let consumed := fed.2.1
  let output := fed.2.2
  let pending := if consumed ≥ input.length then [] else input.drop consumed
  let s := { s with inflate := fed.1, pending }
  if output ≠ [] then .chunk output { s with produced := s.produced + output.length }
  else if pending = [] ∧ s.rowsDone then
    if host.atBoundary s.inflate then .ends (.ok ())
    else .ends (.error (.threw "recode: staged gzip stream is truncated (ends mid-member)"))
  else if consumed = 0 ∧ input ≠ [] then
    .ends (.error (.threw "recode: inflater made no progress"))
  else .again s

/-- The stream, for `turns` of its turns. -/
def stream : (turns : ℕ) → InflateRecodeSource ι → Source (InflateRecodeSource ι)
  | 0, _ => { chunks := [], ending := .error .killed }
  | turns + 1, s =>
    match turn host memberRaw s with
    | .chunk output s =>
      let later := stream turns s
      { later with chunks := (output, s) :: later.chunks }
    | .again s => stream turns s
    | .ends ending => { chunks := [], ending }

end InflateRecodeSource

/-! ## What is stored -/

structure Checkpoint where
  version : ℕ
  rawDone : ℕ
  state : Bytes

def RECODE_CHECKPOINT_VERSION : ℕ := 1

/-- One dump's rows: its staged blobs, the members in order, and the marks of how
far the recode is. -/
structure Disk where
  blobs : List Bytes
  members : List RecodedMember
  rawDone : ℕ
  checkpoint : Option Checkpoint
  engineFallback : Bool
  done : Bool

def Disk.staged (blobs : List Bytes) : Disk where
  blobs := blobs
  members := []
  rawDone := 0
  checkpoint := none
  engineFallback := false
  done := false

def stagedIsGzip (blobs : List Bytes) : Bool :=
  match blobs.head? with
  | some (0x1f :: 0x8b :: _) => true
  | _ => false

/-- The staged rows from compressed byte `skip` on. -/
def stagedCompressedBytes : (rows : List Bytes) → (skip : ℕ) → List Bytes
  | [], _ => []
  | row :: rows, skip =>
    if skip ≥ row.length then stagedCompressedBytes rows (skip - row.length)
    else row.drop skip :: rows

section Steps

variable {ι : Type} (host : InflateHost ι) (memberRaw : ℕ)

/-- The inflater at `rawDone`, and its compressed offset. -/
def restoreCheckpoint (disk : Disk) : Option (ι × ℕ) :=
  if disk.rawDone = 0 then some (host.begin, 0)
  else
    match disk.checkpoint with
    | none => none
    | some row =>
      if row.version ≠ RECODE_CHECKPOINT_VERSION ∨ row.rawDone ≠ disk.rawDone then none
      else
        match host.restore row.state with
        | none => none
        | some (i, compOffset) => if host.totalOut i ≠ disk.rawDone then none else some (i, compOffset)

/-- What a commit does to the checkpoint row: the fallback leaves it, the resumable
path replaces it by the state it saves, if any. -/
inductive CheckpointState where
  | keep
  | replace (state : Option Bytes)

def commitWindow (disk : Disk) (window : RecodeResult) (state : CheckpointState) : Disk where
  blobs := if window.exhausted then [] else disk.blobs
  members := disk.members.filter (fun m => m.seq < window.rawStart / memberRaw) ++ window.members
  rawDone := window.rawEnd
  checkpoint :=
    if window.exhausted then none
    else
      match state with
      | .keep => disk.checkpoint
      | .replace state => state.map fun state => {
          version := RECODE_CHECKPOINT_VERSION
          rawDone := window.rawEnd
          state }
  engineFallback := disk.engineFallback
  done := disk.done || window.exhausted

/-- The resumable path saves the decoder that has produced exactly the window's end. -/
def commitResumed (disk : Disk) (committed : RecodeResult × InflateRecodeSource ι) : Disk :=
  let window := committed.1
  let source := committed.2
  commitWindow memberRaw disk window (.replace (
    if source.produced = window.rawEnd ∧ host.totalOut source.inflate = window.rawEnd then
      some (host.save source.inflate)
    else none))

def commitFallback (disk : Disk) (committed : RecodeResult × Unit) : Disk :=
  commitWindow memberRaw disk committed.1 .keep

def Disk.fallBack (disk : Disk) : Disk :=
  { disk with checkpoint := none, engineFallback := true }

end Steps

/-! ## Reading the members back -/

/-- Drop the first `skip` bytes of a list of chunks; also what is left to skip. -/
def skipChunks : (chunks : List Bytes) → (toSkip : ℕ) → List Bytes × ℕ
  | [], toSkip => ([], toSkip)
  | chunk :: chunks, toSkip =>
    if toSkip ≥ chunk.length then skipChunks chunks (toSkip - chunk.length)
    else ((if toSkip > 0 then chunk.drop toSkip else chunk) :: (skipChunks chunks 0).1, (skipChunks chunks 0).2)

/-- The bytes of consecutive members from `skip` bytes into member `startSeq`,
`fuel` members at most. -/
def memberBytes (gunzipMember : Bytes → List Bytes) (readMember : ℕ → Option Bytes) : (fuel startSeq skip : ℕ) → List Bytes
  | 0, _, _ => []
  | fuel + 1, seq, toSkip =>
    match readMember seq with
    | none => []
    | some member =>
      let cut := skipChunks (gunzipMember member) toSkip
      cut.1 ++ memberBytes gunzipMember readMember fuel (seq + 1) cut.2

end Recode
