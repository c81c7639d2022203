-- SUMMARY: What holds of the placement over any run of nights: aliases and their targets, generations, and the probes behind each change.
import Mathlib.Data.List.Induction
import Sylvan.Engine.PlacementPolicy

/-!
# Placement over runs of nights

A night either holds everything as it was or writes a block in which every alias points at a
served hint. The history in a block is what the last two nights that probed a hint saw, so a
change made on two verdicts that agree can be traced to those two nights.
-/

namespace PlacementPolicy

section

variable {continentOf : String → Option String}

/-! ## Targets -/

variable {obs : Hint → Option (List (List String))} {h : Hint}

theorem mem_servedHints {aliases : Hint → Option PlacementAlias} : h ∈ servedHints continentOf obs aliases ↔
      aliases h = none ∧ (nights continentOf obs h).head? ≠ some .off := by
  simp [servedHints, mem_REGION_HINTS]

variable {served : List Hint}

theorem bestTarget_mem {h current b : Hint}
    {valid : Bool} (hvalid : valid = true → current ∈ served)
    (hbest : bestTarget continentOf obs served h current valid = some b) : b ∈ served := by
  simp only [bestTarget] at hbest
  generalize hcandidates : (served.filter fun c => majority ((coloSet obs h).filterMap continentOf) = none ∨
    some (continentOfHint c) = majority ((coloSet obs h).filterMap continentOf)) = candidates at hbest
  have hsub : ∀ c ∈ candidates, c ∈ served := by
    rw [← hcandidates]
    exact fun c hc => (List.mem_filter.mp hc).1
  have hfold : ∀ b, candidates.foldl (fun best c =>
      if score obs h c > 0 ∧ (best = none ∨ ∃ b ∈ best, score obs h c > score obs h b) then some c else best)
      (if valid && current ∈ candidates then some current else none) = some b → b ∈ served := by
    refine List.foldlRecOn (motive := fun best : Option Hint => ∀ b, best = some b → b ∈ served) _ _ ?_
      fun best hin c hc => ?_
    · intro b hb
      split at hb
      · rename_i hkept
        obtain rfl := Option.some.inj hb
        exact hvalid (by simp_all)
      · cases hb
    · intro b hb
      split at hb
      · obtain rfl := Option.some.inj hb
        exact hsub c hc
      · exact hin b hb
  split at hbest
  · rename_i b' heq
    obtain rfl := Option.some.inj hbest
    exact hfold b' (Option.filter_eq_some_iff.mp heq).1
  · split at hbest
    · rename_i hv
      obtain rfl := Option.some.inj hbest
      exact hvalid hv
    · simpa using (Option.filter_eq_some_iff.mp hbest).2

theorem bestTarget_valid {h current : Hint} : bestTarget continentOf obs served h current true ≠ none := by
  simp only [bestTarget]
  split <;> simp

theorem retarget_mem {night : Night}
    {marked : Option PlacementAlias} {a : PlacementAlias}
    (hsome : retarget continentOf obs served night h marked = some a) :
    marked.isSome ∧ a.target ∈ served := by
  cases marked with
  | none => cases hsome
  | some current =>
    refine ⟨rfl, ?_⟩
    simp only [retarget] at hsome
    split at hsome
    · rename_i hkept
      obtain rfl := Option.some.inj hsome
      simp_all
    · split at hsome
      · cases hsome
      · rename_i best hbest
        have hin := bestTarget_mem (by simp) hbest
        split at hsome
        · rename_i heq
          obtain rfl := Option.some.inj hsome
          exact heq ▸ hin
        · obtain rfl := Option.some.inj hsome
          exact hin

theorem retarget_ne_none {night : Night}
    {current : PlacementAlias} (hne : current.target ≠ h) (hin : current.target ∈ served) :
    retarget continentOf obs served night h (some current) ≠ none := by
  simp only [retarget, hne, hin, decide_true, decide_false, Bool.not_false, Bool.true_and]
  split
  · simp
  · split
    · rename_i hbest
      exact absurd hbest bestTarget_valid
    · split <;> simp

/-! ## Marks -/

theorem marked_eq_some {prev : PlacementBlock} {night : Night}
    {a : PlacementAlias} (hmarked : marked continentOf prev obs night h = some a) :
    (prev.aliases h = some a ∧ servedAgain continentOf prev obs night h = false) ∨
      twice continentOf obs night h .off = true := by
  cases hoff : twice continentOf obs night h .off with
  | true => exact .inr rfl
  | false =>
    simp only [marked, hoff, Bool.and_false, Bool.false_eq_true, if_false] at hmarked
    split at hmarked
    · cases hmarked
    · rename_i hagain
      exact .inl ⟨hmarked, Bool.eq_false_iff.mpr hagain⟩

theorem head_of_twice {night : Night} {v : Verdict}
    (htwice : twice continentOf obs night h v = true) : (nights continentOf obs h).head? = some v := by
  simp only [twice, Bool.and_eq_true, decide_eq_true_eq] at htwice
  rw [htwice.2]
  rfl

/-! ## Blocks -/

/-- Every alias points at another hint that is served and has no alias. -/
def TargetsServed (continentOf : String → Option String) (block : PlacementBlock) : Prop :=
  ∀ h a, block.aliases h = some a → a.target ≠ h ∧ block.aliases a.target = none ∧
    (nights continentOf block.obs a.target).head? ≠ some .off

theorem targetsServed_seed : TargetsServed continentOf UNSERVED_SEED := by
  intro h a hsome
  cases h <;> cases hsome <;> exact ⟨by decide, rfl, by simp [nights, UNSERVED_SEED]⟩

theorem TargetsServed.effectiveRegion {placement : Option PlacementBlock}
    (hserved : TargetsServed continentOf (blockOf placement)) (h : Hint) :
    (blockOf placement).aliases (effectiveRegion h placement) = none := by
  unfold PlacementPolicy.effectiveRegion
  split
  · assumption
  · rename_i a hsome
    obtain ⟨hne, hnone, -⟩ := hserved h a hsome
    rw [if_neg (by simp [hne, hnone])]
    exact hnone

/-- What a night writes when it does not hold everything. -/
structure Decided (continentOf : String → Option String) (prev : PlacementBlock) (night : Night)
    (block : PlacementBlock) : Prop where
  obs : block.obs = observe continentOf prev night
  gens : ∀ h, block.gens h = if servedAgain continentOf prev block.obs night h then prev.gens h + 1 else prev.gens h
  aliases : ∀ h, block.aliases h = retarget continentOf block.obs
    (servedHints continentOf block.obs (marked continentOf prev block.obs night)) night h
    (marked continentOf prev block.obs night h)
  checked : block.checked ≠ none

/-- **What a night can do**: hold everything, because nothing answered or because the first-run
gate has not been passed, or decide. -/
theorem nextPlacement_cases (previous : Option PlacementBlock) (night : Night) :
    (nextPlacement continentOf previous night).placement = previous ∧
        ((∀ h, fresh continentOf night h = false) ∨ (blockOf previous).checked = none) ∨
      ∃ block, (nextPlacement continentOf previous night).placement = some block ∧
        Decided continentOf (blockOf previous) night block := by
  simp only [nextPlacement]
  split
  · rename_i hnone
    refine .inl ⟨rfl, .inl fun h => ?_⟩
    have hall : ∀ h ∈ REGION_HINTS, fresh continentOf night h = false := by simpa using hnone
    exact hall h (mem_REGION_HINTS h)
  · split
    · rename_i hgate
      refine .inl ⟨rfl, .inr ?_⟩
      simp only [Bool.and_eq_true, Option.isNone_iff_eq_none] at hgate
      exact hgate.1
    · exact .inr ⟨_, rfl, rfl, fun _ => rfl, fun _ => rfl, by simp⟩

variable {prev block : PlacementBlock}

theorem Decided.targetsServed {night : Night}
    (hdecided : Decided continentOf prev night block) : TargetsServed continentOf block := by
  intro h a hsome
  rw [hdecided.aliases] at hsome
  obtain ⟨hmarked, hin⟩ := retarget_mem hsome
  obtain ⟨hnone, hoff⟩ := mem_servedHints.mp hin
  refine ⟨?_, ?_, hoff⟩
  · rintro rfl
    rw [hnone] at hmarked
    cases hmarked
  · rw [hdecided.aliases, hnone]
    rfl

theorem Decided.added {night : Night} (hdecided : Decided continentOf prev night block)
    (hbefore : prev.aliases h = none) (hafter : block.aliases h ≠ none) :
    twice continentOf block.obs night h .off = true := by
  obtain ⟨a, hsome⟩ := Option.ne_none_iff_exists'.mp hafter
  rw [hdecided.aliases] at hsome
  obtain ⟨m, hmarked⟩ := Option.isSome_iff_exists.mp (retarget_mem hsome).1
  rcases marked_eq_some hmarked with ⟨hprev, -⟩ | hoff
  · rw [hbefore] at hprev
    cases hprev
  · exact hoff

/-- An alias goes with a new generation, after two verdicts on the hint's continent, or because
its target was found off its own. -/
theorem Decided.removed {night : Night} (hdecided : Decided continentOf prev night block)
    (hserved : TargetsServed continentOf prev) {a : PlacementAlias} (hbefore : prev.aliases h = some a)
    (hafter : block.aliases h = none) :
    (twice continentOf block.obs night h .on = true ∧ block.gens h = prev.gens h + 1) ∨
      ((nights continentOf block.obs a.target).head? = some .off ∧ block.gens h = prev.gens h) := by
  cases hagain : servedAgain continentOf prev block.obs night h with
  | true =>
    refine .inl ⟨?_, by rw [hdecided.gens, hagain]; rfl⟩
    simp only [servedAgain, Bool.and_eq_true] at hagain
    exact hagain.1.2
  | false =>
    refine .inr ⟨?_, by rw [hdecided.gens, hagain]; rfl⟩
    obtain ⟨hne, htarget, -⟩ := hserved h a hbefore
    have hmarked : marked continentOf prev block.obs night h = some a := by
      simp [marked, hagain, hbefore]
    rw [hdecided.aliases, hmarked] at hafter
    -- the target is not among the served hints, and it had no alias
    have hnot : a.target ∉ servedHints continentOf block.obs (marked continentOf prev block.obs night) :=
      fun hin => retarget_ne_none hne hin hafter
    rw [mem_servedHints, not_and_or] at hnot
    rcases hnot with hmark | hoff
    · obtain ⟨m, hm⟩ := Option.ne_none_iff_exists'.mp hmark
      rcases marked_eq_some hm with ⟨hprev, -⟩ | hoff
      · rw [htarget] at hprev
        cases hprev
      · exact head_of_twice hoff
    · exact not_not.mp hoff

theorem Decided.gens_step {night : Night}
    (hdecided : Decided continentOf prev night block) (h : Hint) :
    block.gens h = prev.gens h ∨ (block.gens h = prev.gens h + 1 ∧ prev.aliases h ≠ none ∧ block.aliases h = none ∧
        twice continentOf block.obs night h .on = true) := by
  cases hagain : servedAgain continentOf prev block.obs night h with
  | false => exact .inl (by rw [hdecided.gens, hagain]; rfl)
  | true =>
    have hgens : block.gens h = prev.gens h + 1 := by
      rw [hdecided.gens, hagain]
      rfl
    have hparts := hagain
    simp only [servedAgain, Bool.and_eq_true] at hparts
    refine .inr ⟨hgens, Option.isSome_iff_ne_none.mp hparts.1.1, ?_, hparts.1.2⟩
    have hnotOff : twice continentOf block.obs night h .off = false := by
      refine Bool.eq_false_iff.mpr fun hoff => ?_
      have := (head_of_twice hparts.1.2).symm.trans (head_of_twice hoff)
      cases this
    rw [hdecided.aliases]
    simp [marked, hagain, hnotOff, retarget]

/-! ## Runs -/

def placementAfter (continentOf : String → Option String) : Option PlacementBlock → List Night → Option PlacementBlock
  | previous, [] => previous
  | previous, night :: run => placementAfter continentOf (nextPlacement continentOf previous night).placement run

variable {run : List Night}

theorem placementAfter_append {previous : Option PlacementBlock} {night : Night} :
    placementAfter continentOf previous (run ++ [night]) =
      (nextPlacement continentOf (placementAfter continentOf previous run) night).placement := by
  induction run generalizing previous with
  | nil => rfl
  | cons first run ih => exact ih

/-- `colos` is what the last night of the run that probed the hint saw. -/
def LastProbed (continentOf : String → Option String) (run : List Night) (h : Hint) (colos : List String) : Prop :=
  ∃ earlier last between, run = earlier ++ last :: between ∧ last.probes h = colos ∧
    ∀ n ∈ between, fresh continentOf n h = false

/-- The history in the block is of the run, and there is none before the first-run gate. -/
structure Recorded (continentOf : String → Option String) (run : List Night) (block : PlacementBlock) : Prop where
  unchecked : block.checked = none → ∀ h, block.obs h = none
  latest : ∀ h colos, (block.obs h).bind List.head? = some colos → LastProbed continentOf run h colos

theorem recorded_seed : Recorded continentOf [] UNSERVED_SEED :=
  ⟨fun _ _ => rfl, by intro h colos hsome; cases hsome⟩

theorem LastProbed.unprobed {colos : List String} {night : Night}
    (hlast : LastProbed continentOf run h colos) (hnot : fresh continentOf night h = false) :
    LastProbed continentOf (run ++ [night]) h colos := by
  obtain ⟨earlier, last, between, rfl, hprobes, hbetween⟩ := hlast
  refine ⟨earlier, last, between ++ [night], by simp, hprobes, ?_⟩
  intro n hn
  rcases List.mem_append.mp hn with hn | hn
  · exact hbetween n hn
  · exact List.mem_singleton.mp hn ▸ hnot

theorem Recorded.night {previous : Option PlacementBlock} {night : Night}
    (hrecorded : Recorded continentOf run (blockOf previous)) :
    Recorded continentOf (run ++ [night]) (blockOf (nextPlacement continentOf previous night).placement) := by
  rcases nextPlacement_cases previous night with ⟨hheld, hwhy⟩ | ⟨block, hblock, hdecided⟩
  · rw [hheld]
    refine ⟨hrecorded.unchecked, fun h colos hsome => ?_⟩
    rcases hwhy with hnone | hunchecked
    · exact (hrecorded.latest h colos hsome).unprobed (hnone h)
    · rw [hrecorded.unchecked hunchecked h] at hsome
      cases hsome
  · rw [hblock]
    refine ⟨fun hnone => absurd hnone hdecided.checked, fun h colos hsome => ?_⟩
    have hobs : (block.obs h).bind List.head? = some colos := hsome
    rw [hdecided.obs, observe] at hobs
    cases hfresh : fresh continentOf night h with
    | true =>
      have hprobes : night.probes h = colos := by
        rw [hfresh, if_pos rfl] at hobs
        split at hobs <;> exact Option.some.inj hobs
      exact ⟨run, night, [], rfl, hprobes, by simp⟩
    | false =>
      rw [hfresh, if_neg (by decide)] at hobs
      exact (hrecorded.latest h colos hobs).unprobed hfresh

/-- Tonight's probes of the hint, and those of the last night before that probed it, agree. -/
def AgreeTwice (continentOf : String → Option String) (run : List Night) (night : Night) (h : Hint)
    (v : Verdict) : Prop :=
  verdict continentOf h (night.probes h) = v ∧ ∃ colos, LastProbed continentOf run h colos ∧ verdict continentOf h colos = v

theorem Decided.agreeTwice {night : Night}
    (hdecided : Decided continentOf prev night block) (hrecorded : Recorded continentOf run prev)
    {v : Verdict} (htwice : twice continentOf block.obs night h v = true) : AgreeTwice continentOf run night h v := by
  simp only [twice, Bool.and_eq_true, decide_eq_true_eq] at htwice
  obtain ⟨hfresh, hnights⟩ := htwice
  rw [nights, hdecided.obs, observe, if_pos hfresh] at hnights
  cases hlast : (prev.obs h).bind List.head? with
  | none =>
    rw [hlast] at hnights
    simp at hnights
  | some last =>
    rw [hlast] at hnights
    simp only [Option.getD_some, List.map_cons, List.map_nil, List.cons.injEq, and_true] at hnights
    exact ⟨hnights.1, last, hrecorded.latest h last hlast, hnights.2⟩

theorem invariant_after (run : List Night) : TargetsServed continentOf (blockOf (placementAfter continentOf none run)) ∧
      Recorded continentOf run (blockOf (placementAfter continentOf none run)) := by
  induction run using List.reverseRecOn with
  | nil => exact ⟨targetsServed_seed, recorded_seed⟩
  | append_singleton run night ih =>
    rw [placementAfter_append]
    refine ⟨?_, ih.2.night⟩
    rcases nextPlacement_cases (placementAfter continentOf none run) night with ⟨hheld, -⟩ | ⟨block, hblock, hdecided⟩
    · rw [hheld]
      exact ih.1
    · rw [hblock]
      exact hdecided.targetsServed

end

def fewColos (colo : String) : Option String :=
  if colo = "SEA" ∨ colo = "EWR" then some "NA"
  else if colo = "AMS" then some "EU"
  else if colo = "SIN" then some "AP"
  else none

/-- A night on which these probes answered, and no others. -/
def nightOf (probes : List (Hint × List String)) : Night :=
  { probes := fun h => (JsMap.lookup h probes).getD []
    builtAt := "2026-10-01"
    mayBump := true }

end PlacementPolicy
