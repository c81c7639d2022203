-- SUMMARY: The nightly judgement of the engine objects: who is misplaced or sick, and which names get a new epoch.
import Mathlib.Data.Rat.Floor
import Sylvan.Engine.EngineNamespace

/-!
# Engine moves

Every night each announced object reports its colo and how it fared. An object far from its
replica's home, or at fault two nights running, is given a new epoch: its name then resolves
to a fresh object. What the nightly remembers of a name, and the limits on moves, live in the
name's record.
-/

namespace EngineMoves

open PlacementPolicy EngineNamespace

/-! ## Limits -/

def MISPLACED_KM : ℕ := 1000
def HOME_MIN_SHARE : ℚ := 2 / 5
def MIN_GROUP_REPORTS : ℕ := 4
def COLO_FRESH_MS : ℤ := 48 * 60 * 60 * 1000
def SICK_HEDGES_MIN : ℚ := 50
def SICK_HEDGES_FACTOR : ℚ := 5
def SICK_LOADS_MIN : ℚ := 1500
def SICK_LOADS_FACTOR : ℚ := 4
def SICK_NIGHTS : ℕ := 2
def STRIKE_GAP_MS : ℤ := 36 * 60 * 60 * 1000
def MAX_MOVES_PER_NIGHT : ℕ := 3
def MOVE_COOLDOWN_MS : ℤ := 3 * 24 * 60 * 60 * 1000
def MAX_AUTO_MOVES : ℕ := 3

/-! ## Input -/

/-- What an object reports: its colo and when it measured it, and yesterday's counters. -/
structure EngineReport where
  name : String
  colo : Option String
  coloAt : Option ℤ
  day : String
  loads : ℕ
  /-- The hedges the object won around each sibling partition. -/
  around : List (ℕ × ℕ)

/-- What the judgement takes from outside: the colo table, the great-circle distance, and the
collation order. -/
structure World where
  coordsOf : String → Option (ℚ × ℚ)
  greatCircleKm : ℚ × ℚ → ℚ × ℚ → ℕ
  localeCompare : String → String → Bool

/-- A value of the hand-written pins, as JSON has it. -/
inductive PinValue where
  | text (s : String)
  | number (value : ℚ)
  | other

inductive Pin where
  | auto
  | epoch (value : ℕ)
deriving DecidableEq

structure JudgeInput where
  /-- Last night's records. -/
  previous : Engines
  reports : List EngineReport
  /-- The object an epoch-0 name resolves to under last night's placement. -/
  currentNameOf : String → String
  /-- Whether an epoch-0 name is served tonight at all. -/
  served : String → Bool
  /-- The pins' members, none when they are not an object. -/
  pins : Option (List (String × PinValue))
  nowMs : ℤ

structure EngineMove where
  name0 : String
  /-- The object the name resolved to before tonight. -/
  source : String
  /-- The object it resolves to from tonight's manifest. -/
  target : String
  epoch : ℕ
  /-- A sibling in the replica's home colo to make the first call. -/
  host : Option String
  why : Why
deriving DecidableEq

structure JudgeResult where
  engines : Engines
  moves : List EngineMove

/-! ## Colos and medians -/

section

variable (world : World)

def coloKm (a b : String) : Option ℕ :=
  if a = b then (world.coordsOf a).map fun _ => 0
  else
    match world.coordsOf a, world.coordsOf b with
    | some p, some q => some (world.greatCircleKm p q)
    | _, _ => none

def median (values : List ℕ) : ℚ :=
  let sorted := values.insertionSort (· ≤ ·)
  let mid := sorted.length / 2
  if sorted = [] then 0
  else if sorted.length % 2 = 1 then sorted.getD mid 0
  else ((sorted.getD (mid - 1) 0 : ℚ) + sorted.getD mid 0) / 2

/-- A colo, how many of the members are in it, and its summed distance to them all. -/
structure Medoid where
  colo : String
  count : ℕ
  cost : ℕ

/-- The colo of least summed distance, ties to the larger count, then by name. -/
def homeColo (colos : List String) : Option (String × ℕ) :=
  let counts := (colos.filter fun c => (world.coordsOf c).isSome).foldl
    (fun (m : JsMap String ℕ) c => m.update c fun n => n.getD 0 + 1) .empty
  let best := counts.entries.foldl
    (fun best (candidate, count) =>
      let cost := (counts.entries.map fun (other, n) => n * (coloKm world candidate other).getD 0).sum
      match best with
      | none => some (Medoid.mk candidate count cost)
      | some b =>
        if cost < b.cost ∨ (cost = b.cost ∧ (count > b.count ∨ (count = b.count ∧ candidate < b.colo))) then
          some ⟨candidate, count, cost⟩
        else best) none
  best.map fun b => (b.colo, b.count)

/-! ## Who speaks for a name -/

/-- The report of the object a served name resolves to. -/
structure Speaker where
  name0 : String
  group : String
  partition : ℕ
  report : EngineReport
  /-- The report's name, taken apart. -/
  parsed : ParsedName

def speakerOf (input : JudgeInput) (report : EngineReport) : Option Speaker :=
  (parseEngineName report.name).bind fun parsed =>
    parsed.partition.bind fun partition =>
      let name0 := engineName parsed.region parsed.shard (some partition) parsed.generation 0
      if !input.served name0 || input.currentNameOf name0 ≠ report.name then none
      else (replicaGroupOf report.name).map fun group => ⟨name0, group, partition, report, parsed⟩

def current (input : JudgeInput) : JsMap String Speaker :=
  (input.reports.filterMap (speakerOf input)).foldl
    (fun current s => if (current.get s.name0).isSome then current else current.set s.name0 s) .empty

def speakers (input : JudgeInput) : List Speaker := (current input).entries.map Prod.snd

/-! ## What is known of a replica -/

structure GroupFacts where
  home : Option (String × ℕ)
  members : ℕ
  judgesColo : Bool
  /-- The shard-0 replica whose home this one is judged by. -/
  borrowed : Option String
  loadsMedian : ℚ
  aroundMedian : ℚ
  around : JsMap ℕ ℕ

def fresh (nowMs : ℤ) (r : EngineReport) : Bool :=
  match r.colo, r.coloAt with
  | some colo, some coloAt => nowMs - coloAt ≤ COLO_FRESH_MS && (world.coordsOf colo).isSome
  | _, _ => false

/-- The hedges won around each of the replica's own partitions. -/
def aroundOf (members : List Speaker) : JsMap ℕ ℕ :=
  let zero := members.foldl (fun (m : JsMap ℕ ℕ) s => m.set s.partition 0) .empty
  (members.flatMap fun s => s.report.around).foldl
    (fun m (k, n) => if (m.get k).isSome then m.update k fun v => v.getD 0 + n else m) zero

/-- The facts a replica's own reports give. A replica that has none cannot judge a colo. -/
def ownFacts (input : JudgeInput) (group : String) : GroupFacts :=
  let members := (speakers input).filter fun s => s.group = group
  let colos := (members.filter fun s => fresh world input.nowMs s.report).filterMap fun s => s.report.colo
  let home := homeColo world colos
  let around := aroundOf members
  { home
    members := colos.length
    judgesColo := MIN_GROUP_REPORTS ≤ colos.length &&
      home.any fun h => HOME_MIN_SHARE ≤ (h.2 : ℚ) / colos.length
    borrowed := none
    loadsMedian := median (members.map fun s => s.report.loads)
    aroundMedian := median (around.entries.map Prod.snd)
    around }

/-- A replica above shard 0 that cannot judge a colo is judged by its region's shard-0 home.
Shard 0 borrows from none, so the order the replicas are visited in does not matter. -/
def factsOf (input : JudgeInput) (group : String) : GroupFacts :=
  let own := ownFacts world input group
  if own.judgesColo then own
  else
    match parseEngineName group with
    | none => own
    | some parsed =>
      let base := engineName parsed.region 0 none parsed.generation 0
      let zero := ownFacts world input base
      if parsed.shard ≠ 0 ∧ zero.judgesColo then
        { own with home := zero.home, members := zero.members, judgesColo := true, borrowed := some base }
      else own

/-! ## Verdicts -/

structure Judged extends Speaker where
  /-- How far from home, when that is too far. -/
  misplaced : Option ℕ
  sick : List Sickness
  evidence : Evidence

def judge (input : JudgeInput) (s : Speaker) : Judged :=
  let f := factsOf world input s.group
  let r := s.report
  let misplaced :=
    if f.judgesColo && fresh world input.nowMs r then
      match r.colo, f.home with
      | some colo, some home => (coloKm world colo home.1).filter (MISPLACED_KM < ·)
      | _, _ => none
    else none
  let hedges := (f.around.get s.partition).getD 0
  let hedgeBar := max SICK_HEDGES_MIN (SICK_HEDGES_FACTOR * f.aroundMedian)
  let loadBar := max SICK_LOADS_MIN (SICK_LOADS_FACTOR * f.loadsMedian)
  { s with
    misplaced
    sick :=
      (if (hedges : ℚ) ≥ hedgeBar then [.hedged hedges r.day hedgeBar] else []) ++
        (if (r.loads : ℚ) ≥ loadBar then [.loads r.loads r.day loadBar] else [])
    evidence :=
      { colo := r.colo
        km := misplaced
        home := f.home.map fun h => ⟨h.1, h.2, f.members, f.borrowed⟩
        hedges
        aroundMedian := f.aroundMedian
        loads := r.loads
        loadsMedian := f.loadsMedian
        day := r.day } }

/-- Tonight's verdict on a name, none when no object spoke for it. -/
def judgedOf (input : JudgeInput) (name0 : String) : Option Judged :=
  ((current input).get name0).map (judge world input)

/-! ## Pins -/

def parsePins (pins : Option (List (String × PinValue))) : JsMap String Pin :=
  (pins.getD []).foldl
    (fun out (name, value) =>
      match parseEngineName name, value with
      | some parsed, .text s =>
        if parsed.partition.isSome ∧ parsed.epoch = 0 ∧ s = "auto" then out.set name .auto else out
      | some parsed, .number n =>
        if parsed.partition.isSome ∧ parsed.epoch = 0 ∧ n.isInt ∧ 0 ≤ n ∧ n ≤ MAX_ENGINE_EPOCH then
          out.set name (.epoch n.num.toNat)
        else out
      | _, _ => out) .empty

/-! ## A name's record -/

def isEmptyRecord (r : EngineMoveRecord) : Bool :=
  r.e.getD 0 = 0 && r.stop.isNone && r.strikes.getD 0 = 0 && r.moves.getD 0 = 0

/-- `{}` -/
def noRecord : EngineMoveRecord := ⟨none, none, none, none, none, none, none⟩

def applyPin (pin : Option Pin) (r : EngineMoveRecord) : EngineMoveRecord :=
  match pin with
  | some .auto => { r with stop := none, moves := none }
  | some (.epoch n) =>
    { r with e := if 0 < n then some n else none, stop := some .pinned, strikes := none, seen := none }
  | none => if r.stop = some .pinned then { r with stop := none } else r

/-- A name no object spoke for keeps its run of strikes as it was. -/
def countStrike (nowMs : ℤ) (j : Option Judged) (r : EngineMoveRecord) : EngineMoveRecord :=
  match j with
  | none => r
  | some j =>
    if j.sick ≠ [] ∧ r.stop ≠ some .pinned then
      let running := r.seen.any fun seen => nowMs - seen ≤ STRIKE_GAP_MS
      { r with strikes := some ((if running then r.strikes.getD 0 else 0) + 1), seen := some nowMs }
    else { r with strikes := none, seen := none }

def Judged.why (j : Judged) : Why :=
  if j.misplaced.isSome then .misplaced j.evidence else .sick j.sick j.evidence

def Judged.nextEpoch (j : Judged) : ℕ := j.parsed.epoch + 1

inductive Ruling where
  | gaveUp
  | kept
  | candidate
deriving DecidableEq

def coolingDown (nowMs : ℤ) (r : EngineMoveRecord) : Bool :=
  r.since.any fun since => nowMs - since < MOVE_COOLDOWN_MS

/-- What becomes tonight of a name that is flagged and not pinned. -/
def ruling (nowMs : ℤ) (j : Judged) (r : EngineMoveRecord) : Ruling :=
  if r.stop = some .gaveUp ∨ MAX_AUTO_MOVES ≤ r.moves.getD 0 ∨ MAX_ENGINE_EPOCH < j.nextEpoch then .gaveUp
  else if j.misplaced.isNone ∧ r.strikes.getD 0 < SICK_NIGHTS then .kept
  else if coolingDown nowMs r then .kept
  else .candidate

/-- A served name's record after pins and strikes, and its verdict when it may move. -/
def judgeRecord (nowMs : ℤ) (j : Option Judged) (pin : Option Pin) (prev : EngineMoveRecord) :
    EngineMoveRecord × Option Judged :=
  let r := countStrike nowMs j (applyPin pin prev)
  match j with
  | none => (r, none)
  | some j =>
    if (j.misplaced.isSome ∨ j.sick ≠ []) ∧ r.stop ≠ some .pinned then
      match ruling nowMs j r with
      | .gaveUp => ({ r with stop := some .gaveUp, why := some j.why }, none)
      | .kept => (r, none)
      | .candidate => (r, some j)
    else (r, none)

/-- Last night's record of a name, an empty one where there is none. -/
def recordOf (engines : Engines) (name0 : String) : EngineMoveRecord :=
  (engineMoveRecord engines name0).getD noRecord

/-! ## Tonight's moves -/

structure Moving where
  engines : JsMap String EngineMoveRecord
  moves : List EngineMove
  movedGroups : JsSet String

/-- The sibling to make the first call: of the same replica, in its home colo, and not flagged. -/
def hostOf (input : JudgeInput) (name0 : String) (j : Judged) : Option String :=
  let f := factsOf world input j.group
  if f.judgesColo then
    let hosts := (speakers input).filter fun m =>
      m.group = j.group && m.name0 ≠ name0 && m.report.colo = f.home.map Prod.fst &&
        fresh world input.nowMs m.report && (judge world input m).misplaced.isNone &&
        (judge world input m).sick = []
    (hosts.insertionSort fun a b => a.partition ≤ b.partition).head?.map fun m => m.report.name
  else none

def movedRecord (nowMs : ℤ) (j : Judged) (r : EngineMoveRecord) : EngineMoveRecord :=
  { r with
    e := some j.nextEpoch
    since := some nowMs
    moves := some (r.moves.getD 0 + 1)
    why := some j.why
    strikes := none
    seen := none }

def moveOf (input : JudgeInput) (name0 : String) (j : Judged) : EngineMove :=
  { name0
    source := j.report.name
    target := engineName j.parsed.region j.parsed.shard j.parsed.partition j.parsed.generation j.nextEpoch
    epoch := j.nextEpoch
    host := hostOf world input name0 j
    why := j.why }

def tryMove (input : JudgeInput) (st : Moving) (candidate : String × Judged) : Moving :=
  let (name0, j) := candidate
  let r := (st.engines.get name0).getD noRecord
  if MAX_MOVES_PER_NIGHT ≤ st.moves.length ∨ j.group ∈ st.movedGroups then
    { st with engines := st.engines.set name0 { r with why := some j.why } }
  else
    { engines := st.engines.set name0 (movedRecord input.nowMs j r)
      moves := st.moves ++ [moveOf world input name0 j]
      movedGroups := st.movedGroups.add j.group }

/-- Misplaced first, farthest first; then the sick, the most hedged-around first. -/
def rank (input : JudgeInput) (j : Judged) : ℕ :=
  match j.misplaced with
  | some km => 10 ^ 9 + km
  | none => ((factsOf world input j.group).around.get j.partition).getD 0

def candidateBefore (input : JudgeInput) (a b : String × Judged) : Bool :=
  rank world input b.2 < rank world input a.2 ||
    (rank world input a.2 = rank world input b.2 && world.localeCompare a.1 b.1)

/-! ## The night -/

/-- Every name that is remembered, judged or pinned. -/
def namesOf (input : JudgeInput) : List String :=
  (JsSet.of ((input.previous.map (·.keys)).getD [] ++ (current input).keys ++
    (parsePins input.pins).keys)).insertionSort (· ≤ ·)

/-- The served ones, each with its record and its verdict when it may move. -/
def judgements (input : JudgeInput) : List (String × EngineMoveRecord × Option Judged) :=
  ((namesOf input).filter input.served).map fun name0 =>
    (name0, judgeRecord input.nowMs (judgedOf world input name0) ((parsePins input.pins).get name0)
      (recordOf input.previous name0))

def candidates (input : JudgeInput) : List (String × Judged) :=
  ((judgements world input).filterMap fun (name0, _, j) => j.map fun j => (name0, j)).insertionSort
    fun a b => candidateBefore world input a b

def settled (input : JudgeInput) : Moving :=
  (candidates world input).foldl (tryMove world input)
    { engines := (judgements world input).foldl (fun m (name0, r, _) => m.set name0 r) .empty
      moves := []
      movedGroups := [] }

def judgeEngines (input : JudgeInput) : JudgeResult :=
  let st := settled world input
  let engines := st.engines.filter fun _ r => !isEmptyRecord r
  { engines := if engines.entries.isEmpty then none else some engines
    moves := st.moves }

end

/-! ## Nights -/

structure Night where
  reports : List EngineReport
  served : String → Bool
  pins : Option (List (String × PinValue))
  /-- Whether the object of a name is listed as abandoned. -/
  abandoned : String → Bool
  nowMs : ℤ

def Night.input (night : Night) (before : Engines) : JudgeInput :=
  { previous := before
    reports := night.reports
    currentNameOf := fun name0 =>
      match parseEngineName name0 with
      | none => name0
      | some p => currentEngineName night.abandoned before p.region p.shard p.partition p.generation
    served := night.served
    pins := night.pins
    nowMs := night.nowMs }

def Night.pin (night : Night) (name0 : String) : Option Pin := (parsePins night.pins).get name0

section

variable (world : World)

def judgeNight (before : Engines) (night : Night) : JudgeResult := judgeEngines world (night.input before)

def enginesAfter : Engines → List Night → Engines
  | before, [] => before
  | before, night :: nights => enginesAfter (judgeNight world before night).engines nights

end

end EngineMoves
