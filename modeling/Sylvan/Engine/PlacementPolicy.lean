-- SUMMARY: Which location hints are hosted: the placement block of the manifest, and how a night's probes advance it.
import Mathlib.Data.Rat.Defs
import Mathlib.Algebra.Order.Ring.Unbundled.Rat
import Mathlib.Logic.Function.Basic
import Sylvan.Data.JsMap

/-!
# Placement

A location hint whose objects land off its own continent is unserved: it is aliased to the
served hint whose probes land in the same colos. The manifest carries the aliases, the
generation of every hint, and the probes of the last two nights that probed it. Names
missing from a block are `none`, and a generation that is zero is not written.
-/

namespace PlacementPolicy

/-! ## Regions -/

inductive Hint where
  | wnam | enam | sam | weur | eeur | apac | apacNe | apacSe | oc | afr | me
deriving DecidableEq, Repr

/-- `REGIONS`' keys, in their order. -/
def REGION_HINTS : List Hint := [.wnam, .enam, .sam, .weur, .eeur, .apac, .apacNe, .apacSe, .oc, .afr, .me]

def Hint.text : Hint → String
  | .wnam => "wnam"
  | .enam => "enam"
  | .sam => "sam"
  | .weur => "weur"
  | .eeur => "eeur"
  | .apac => "apac"
  | .apacNe => "apac-ne"
  | .apacSe => "apac-se"
  | .oc => "oc"
  | .afr => "afr"
  | .me => "me"

def continentOfHint : Hint → String
  | .wnam | .enam => "NA"
  | .sam => "SA"
  | .weur | .eeur => "EU"
  | .apac | .apacNe | .apacSe => "AP"
  | .oc => "OC"
  | .afr => "AF"
  | .me => "ME"

theorem mem_REGION_HINTS (h : Hint) : h ∈ REGION_HINTS := by cases h <;> decide

/-! ## The block -/

/-- The hint `target` serves another one's users. -/
structure PlacementAlias where
  target : Hint
  /-- `built_at` of the first manifest that carried this alias. -/
  since : String
deriving DecidableEq

inductive Stop where
  /-- Moved as often as it may be and flagged still. -/
  | gaveUp
  /-- Held by hand. -/
  | pinned
deriving DecidableEq

/-- How an object's health was at fault over a day. -/
inductive Sickness where
  | hedged (times : ℕ) (day : String) (bar : ℚ)
  | loads (times : ℕ) (day : String) (bar : ℚ)
deriving DecidableEq

/-- A replica's home colo, as the evidence quotes it: how many of its members are there, and
the replica it was borrowed from. -/
structure Home where
  colo : String
  count : ℕ
  members : ℕ
  borrowed : Option String
deriving DecidableEq

structure Evidence where
  colo : Option String
  /-- The distance from home of a misplaced object. -/
  km : Option ℕ
  home : Option Home
  hedges : ℕ
  aroundMedian : ℚ
  loads : ℕ
  loadsMedian : ℚ
  day : String
deriving DecidableEq

/-- The sentence a record keeps, as the facts it states. -/
inductive Why where
  | misplaced (evidence : Evidence)
  | sick (sickness : List Sickness) (evidence : Evidence)
deriving DecidableEq

/-- What the nightly remembers about one engine name. Times are kept in milliseconds. -/
structure EngineMoveRecord where
  /-- The epoch the name resolves to, at least. -/
  e : Option ℕ
  /-- When the last automatic move was made. -/
  since : Option ℤ
  /-- How many automatic moves the name has had. -/
  moves : Option ℕ
  /-- How many nights running the health rule has flagged the name. -/
  strikes : Option ℕ
  /-- When the last of those nights was. -/
  seen : Option ℤ
  why : Option Why
  stop : Option Stop
deriving DecidableEq

/-- The per-object records of a block, by epoch-0 name. -/
abbrev Engines : Type := Option (JsMap String EngineMoveRecord)

structure PlacementBlock where
  gens : Hint → ℕ
  aliases : Hint → Option PlacementAlias
  /-- The probes of the last two nights that probed a hint, newest first. -/
  obs : Hint → Option (List (List String))
  /-- `built_at` of the first run to pass the first-run gate. -/
  checked : Option String
  engines : Engines

def UNSERVED_SEED : PlacementBlock :=
  { gens := fun _ => 0
    aliases := fun
      | .sam => some ⟨.enam, "seed"⟩
      | .afr => some ⟨.weur, "seed"⟩
      | .me => some ⟨.eeur, "seed"⟩
      | _ => none
    obs := fun _ => none
    checked := none
    engines := none }

def blockOf (placement : Option PlacementBlock) : PlacementBlock := placement.getD UNSERVED_SEED

/-- The region whose objects serve a request that maps to `hint`. -/
def effectiveRegion (hint : Hint) (placement : Option PlacementBlock) : Hint :=
  match (blockOf placement).aliases hint with
  | none => hint
  | some a =>
    if a.target = hint ∨ ((blockOf placement).aliases a.target).isSome then hint else a.target

def generationOf (region : Hint) (placement : Option PlacementBlock) : ℕ := (blockOf placement).gens region

/-! ## Verdicts -/

inductive Verdict where
  | on
  | off
  | unknown
deriving DecidableEq

section

variable (continentOf : String → Option String)

def verdict (hint : Hint) (colos : List String) : Verdict :=
  let known := colos.filterMap continentOf
  if known = [] then .unknown
  else if known.all (· = continentOfHint hint) then .on
  else if known.all (· ≠ continentOfHint hint) then .off
  else .unknown

def majority (values : List String) : Option String :=
  let counts := values.foldl (fun (m : JsMap String ℕ) v => m.update v fun n => n.getD 0 + 1) .empty
  counts.entries.foldl
    (fun best (v, n) =>
      match best with
      | none => some v
      | some b => if n > (counts.get b).getD 0 then some v else best) none

/-! ## A night -/

/-- Tonight's input, the same for every hint. -/
structure Night where
  /-- The colos each hint's probes answered from. -/
  probes : Hint → List String
  builtAt : String
  /-- Whether a fresh generation fits the pool. -/
  mayBump : Bool

def known (night : Night) (h : Hint) : List String :=
  (night.probes h).filter fun c => (continentOf c).isSome

def fresh (night : Night) (h : Hint) : Bool := !(known continentOf night h).isEmpty

def strays (prev : PlacementBlock) (night : Night) : List Hint :=
  REGION_HINTS.filter fun h =>
    (prev.aliases h).isNone && fresh continentOf night h &&
      (known continentOf night h).any fun c => continentOf c ≠ some (continentOfHint h)

def observe (prev : PlacementBlock) (night : Night) (h : Hint) : Option (List (List String)) :=
  if fresh continentOf night h then
    match (prev.obs h).bind List.head? with
    | some last => some [night.probes h, last]
    | none => some [night.probes h]
  else prev.obs h

def nights (obs : Hint → Option (List (List String))) (h : Hint) : List Verdict :=
  ((obs h).getD []).map (verdict continentOf h)

def twice (obs : Hint → Option (List (List String))) (night : Night) (h : Hint) (v : Verdict) : Bool :=
  fresh continentOf night h && nights continentOf obs h = [v, v]

/-- Whether the hint is served again tonight: its alias goes and its generation is bumped. -/
def servedAgain (prev : PlacementBlock) (obs : Hint → Option (List (List String))) (night : Night)
    (h : Hint) : Bool :=
  (prev.aliases h).isSome && twice continentOf obs night h .on && night.mayBump

/-- The aliases after the first two passes: the served again dropped, the newly unserved
marked with themselves as target. -/
def marked (prev : PlacementBlock) (obs : Hint → Option (List (List String))) (night : Night) (h : Hint) :
    Option PlacementAlias :=
  let kept := if servedAgain continentOf prev obs night h then none else prev.aliases h
  if kept.isNone && twice continentOf obs night h .off then some ⟨h, night.builtAt⟩ else kept

def servedHints (obs : Hint → Option (List (List String))) (aliases : Hint → Option PlacementAlias) : List Hint :=
  REGION_HINTS.filter fun h => (aliases h).isNone && (nights continentOf obs h).head? ≠ some .off

def coloSet (obs : Hint → Option (List (List String))) (h : Hint) : JsSet String :=
  JsSet.of ((obs h).getD []).flatten

def score (obs : Hint → Option (List (List String))) (h c : Hint) : ℚ :=
  let own := coloSet obs h
  let theirs := coloSet obs c
  let shared := own.countP (· ∈ theirs)
  (shared : ℚ) / (max (JsSet.of (own ++ theirs)).length 1 : ℕ)

/-- The target a hint's alias gets among the served ones, none when there is nowhere to send anyone. -/
def bestTarget (obs : Hint → Option (List (List String))) (served : List Hint) (h : Hint) (current : Hint)
    (valid : Bool) : Option Hint :=
  let landed := majority ((coloSet obs h).filterMap continentOf)
  let candidates := served.filter fun c => landed = none ∨ some (continentOfHint c) = landed
  let kept := if valid && current ∈ candidates then some current else none
  let best := candidates.foldl
    (fun best c =>
      if score obs h c > 0 ∧ (best = none ∨ ∃ b ∈ best, score obs h c > score obs h b) then some c
      else best) kept
  match best.filter fun b => score obs h b ≠ 0 with
  | some b => some b
  | none =>
    if valid then some current
    else ((UNSERVED_SEED.aliases h).map (·.target)).filter (· ∈ served)

def retarget (obs : Hint → Option (List (List String))) (served : List Hint) (night : Night) (h : Hint) :
    Option PlacementAlias → Option PlacementAlias
  | none => none
  | some current =>
    let placeholder := current.target = h
    let valid := !placeholder && current.target ∈ served
    if valid && (!fresh continentOf night h || (nights continentOf obs h).head? ≠ some .off) then some current
    else
      match bestTarget continentOf obs served h current.target valid with
      | none => none
      | some best =>
        if best = current.target then some current
        else some ⟨best, if placeholder then night.builtAt else current.since⟩

structure PlacementDecision where
  placement : Option PlacementBlock
  /-- Whether the night left everything as it was. -/
  held : Bool

def nextPlacement (previous : Option PlacementBlock) (night : Night) : PlacementDecision :=
  let prev := blockOf previous
  if !REGION_HINTS.any (fresh continentOf night) then ⟨previous, true⟩
  else if prev.checked.isNone && !(strays continentOf prev night).isEmpty then ⟨previous, true⟩
  else
    let obs := observe continentOf prev night
    let aliases := marked continentOf prev obs night
    let served := servedHints continentOf obs aliases
    ⟨some
      { gens := fun h => if servedAgain continentOf prev obs night h then prev.gens h + 1 else prev.gens h
        aliases := fun h => retarget continentOf obs served night h (aliases h)
        obs
        checked := prev.checked.getD night.builtAt
        engines := prev.engines }, false⟩

end

end PlacementPolicy
