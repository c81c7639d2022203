-- SUMMARY: What holds of the engine moves over any run of nights: limits, epochs, automatic moves and cool-down.
import Mathlib.Tactic.Linarith
import Sylvan.Engine.EngineMovesNight

/-!
# Runs of nights

A name's record is the only memory a night has. As long as the name is served every night its
record is carried from night to night, so the epoch, the count of moves and the time of the
last one bound what later nights may do.
-/

namespace EngineMoves

open PlacementPolicy EngineNamespace

section

variable {world : World}

/-! ## What a kept record keeps -/

variable {r : EngineMoveRecord}

theorem prune_e : ((prune r).e).getD 0 = r.e.getD 0 := by
  unfold prune
  split
  · rename_i h
    simp only [isEmptyRecord, Bool.and_eq_true, decide_eq_true_eq] at h
    exact h.1.1.1.symm
  · rfl

theorem prune_moves : ((prune r).moves).getD 0 = r.moves.getD 0 := by
  unfold prune
  split
  · rename_i h
    simp only [isEmptyRecord, Bool.and_eq_true, decide_eq_true_eq] at h
    exact h.2.symm
  · rfl

theorem prune_of_nonempty (h : 0 < r.e.getD 0 ∨ 0 < r.moves.getD 0) : prune r = r := by
  have hnot : isEmptyRecord r = false := by
    rcases h with h | h
    · simp [isEmptyRecord, Nat.ne_of_gt h]
    · simp [isEmptyRecord, Nat.ne_of_gt h]
  simp [prune, hnot]

/-! ## Epochs -/

def recordedEpoch (engines : Engines) (name0 : String) : ℕ := ((recordOf engines name0).e).getD 0

variable {name0 : String}

theorem epochFloorOf_eq {engines : Engines} :
    epochFloorOf engines name0 = min (recordedEpoch engines name0) MAX_ENGINE_EPOCH := by
  unfold epochFloorOf recordedEpoch recordOf
  cases engineMoveRecord engines name0 <;> rfl

theorem parsePins_bound {pins : Option (List (String × PinValue))} {name : String} {n : ℕ}
    (h : (parsePins pins).get name = some (.epoch n)) : n ≤ MAX_ENGINE_EPOCH := by
  have hall : ∀ name pin, (parsePins pins).get name = some pin → ∀ n, pin = .epoch n → n ≤ MAX_ENGINE_EPOCH := by
    refine List.foldlRecOn (motive := fun m : JsMap String Pin => ∀ name pin, m.get name = some pin →
      ∀ n, pin = .epoch n → n ≤ MAX_ENGINE_EPOCH) _ _ (by simp) fun m hm entry _ => ?_
    obtain ⟨key, value⟩ := entry
    have hset : ∀ newPin : Pin, (∀ n, newPin = .epoch n → n ≤ MAX_ENGINE_EPOCH) →
        ∀ name pin, (m.set key newPin).get name = some pin → ∀ n, pin = .epoch n → n ≤ MAX_ENGINE_EPOCH := by
      intro newPin hnew name pin hget
      rw [JsMap.get_set] at hget
      split at hget
      · exact Option.some.inj hget ▸ hnew
      · exact hm name pin hget
    dsimp only
    split
    · split
      · exact hset .auto (by simp)
      · exact hm
    · rename_i value' _ _
      split
      · rename_i hvalid
        refine hset _ fun n hn => ?_
        obtain rfl := Pin.epoch.inj hn
        have hnum : (value'.num : ℚ) = value' := Rat.coe_int_num_of_den_eq_one (by simpa [Rat.isInt] using hvalid.2.2.1)
        have hle : (value'.num : ℚ) ≤ (MAX_ENGINE_EPOCH : ℤ) := by
          rw [hnum]
          exact_mod_cast hvalid.2.2.2.2
        have := Int.cast_le.mp hle
        omega
      · exact hm
    · exact hm
  exact hall name _ h n rfl

def EpochsBounded (engines : Engines) : Prop := ∀ name0, recordedEpoch engines name0 ≤ MAX_ENGINE_EPOCH

theorem recordedEpoch_judged {input : JudgeInput} {why : Option Why} :
    ((prune { (judgementOf world input name0).1 with why }).e).getD 0 = match (parsePins input.pins).get name0 with
      | some (.epoch n) => n
      | _ => recordedEpoch input.previous name0 := by
  rw [prune_e]
  show ((judgementOf world input name0).1.e).getD 0 = _
  rw [judgementOf, judgeRecord_frame.1, applyPin_e]
  rfl

variable {before : Engines}

theorem EpochsBounded.after_night (h : EpochsBounded before) (night : Night) :
    EpochsBounded (judgeNight world before night).engines := by
  intro name0
  cases nightOf_judgeEngines world (night.input before) name0 with
  | forgotten hserved hrecord hmoves =>
    rw [recordedEpoch, judgeNight, hrecord]
    exact Nat.zero_le _
  | settled why hserved hrecord hmoves =>
    rw [recordedEpoch, judgeNight, hrecord, recordedEpoch_judged]
    split
    · rename_i hpin
      exact parsePins_bound hpin
    · exact h name0
  | moved j hserved hcandidate hrecord hmoves =>
    rw [recordedEpoch, judgeNight, hrecord]
    exact (mayMove_of_candidate hcandidate).2.epochLeft

theorem epochsBounded_after (nights : List Night) (h : EpochsBounded before) :
    EpochsBounded (enginesAfter world before nights) := by
  induction nights generalizing before with
  | nil => exact h
  | cons night nights ih => exact ih (h.after_night night)

variable {night : Night}

theorem recordedEpoch_mono (h : EpochsBounded before)
    (hserved : night.served name0 = true) (hpin : ∀ n, night.pin name0 ≠ some (.epoch n)) :
    recordedEpoch before name0 ≤ recordedEpoch (judgeNight world before night).engines name0 := by
  cases nightOf_judgeEngines world (night.input before) name0 with
  | forgotten hnot hrecord hmoves => exact absurd hserved (Bool.eq_false_iff.mp hnot)
  | settled why _ hrecord hmoves =>
    have hafter : recordedEpoch (judgeNight world before night).engines name0 = _ :=
      (congrArg (fun r : EngineMoveRecord => r.e.getD 0) hrecord).trans recordedEpoch_judged
    rw [hafter]
    split
    · rename_i n heq
      exact absurd heq (hpin n)
    · exact le_rfl
  | moved j _ hcandidate hrecord hmoves =>
    have hafter : recordedEpoch (judgeNight world before night).engines name0 = j.nextEpoch :=
      congrArg (fun r : EngineMoveRecord => r.e.getD 0) hrecord
    have hfloor := epochFloor_le_judged (mayMove_of_candidate hcandidate).1
    rw [epochFloorOf_eq, min_eq_left (h name0)] at hfloor
    rw [hafter, Judged.nextEpoch]
    omega

/-! ## Automatic moves -/

def autoMoves (world : World) (name0 : String) : Engines → List Night → ℕ
  | _, [] => 0
  | before, night :: nights =>
    (movesOf (judgeNight world before night).moves name0).length +
      autoMoves world name0 (judgeNight world before night).engines nights

def recordedMoves (engines : Engines) (name0 : String) : ℕ := ((recordOf engines name0).moves).getD 0

theorem recordedMoves_judgeNight (world : World) (before : Engines)
    (hserved : night.served name0 = true) :
    recordedMoves (judgeNight world before night).engines name0 =
        (if night.pin name0 = some .auto then 0 else recordedMoves before name0) +
          (movesOf (judgeNight world before night).moves name0).length ∧
      (0 < (movesOf (judgeNight world before night).moves name0).length →
        recordedMoves (judgeNight world before night).engines name0 ≤ MAX_AUTO_MOVES) := by
  have hbefore : (((applyPin (night.pin name0) (recordOf before name0)).moves).getD 0) =
      if night.pin name0 = some .auto then 0 else recordedMoves before name0 := by
    rw [applyPin_moves]
    split <;> rfl
  cases nightOf_judgeEngines world (night.input before) name0 with
  | forgotten hnot hrecord hmoves => exact absurd hserved (Bool.eq_false_iff.mp hnot)
  | settled why _ hrecord hmoves =>
    have hafter : recordedMoves (judgeNight world before night).engines name0 = _ :=
      (congrArg (fun r : EngineMoveRecord => r.moves.getD 0) hrecord).trans prune_moves
    have hnone : (movesOf (judgeNight world before night).moves name0).length = 0 :=
      congrArg List.length hmoves
    rw [hafter, hnone]
    refine ⟨?_, by simp⟩
    show ((judgementOf world (night.input before) name0).1.moves).getD 0 = _
    rw [judgementOf, judgeRecord_frame.2.2]
    exact hbefore
  | moved j _ hcandidate hrecord hmoves =>
    have hafter : recordedMoves (judgeNight world before night).engines name0 = _ :=
      congrArg (fun r : EngineMoveRecord => r.moves.getD 0) hrecord
    have hone : (movesOf (judgeNight world before night).moves name0).length = 1 :=
      congrArg List.length hmoves
    have hframe : (judgementOf world (night.input before) name0).1.moves = _ := judgeRecord_frame.2.2
    have hcount : recordedMoves (judgeNight world before night).engines name0 =
        (if night.pin name0 = some .auto then 0 else recordedMoves before name0) + 1 := by
      rw [hafter, ← hbefore]
      simp only [movedRecord, hframe, Option.getD_some]
      rfl
    have hleft := (mayMove_of_candidate hcandidate).2.movesLeft
    have hleft' : (if night.pin name0 = some .auto then 0 else recordedMoves before name0) < MAX_AUTO_MOVES := by
      rw [← hbefore]
      exact hleft
    rw [hcount, hone]
    exact ⟨rfl, fun _ => hleft'⟩

/-- Over nights that serve a name and bring it no "auto", every move adds to the count on record,
and no move is made once the count is full. -/
theorem autoMoves_recorded {nights : List Night} {made : ℕ}
    (hnights : ∀ n ∈ nights, n.served name0 = true ∧ n.pin name0 ≠ some .auto)
    (hmade : made ≤ recordedMoves before name0) (hmax : made ≤ MAX_AUTO_MOVES) :
    made + autoMoves world name0 before nights ≤ MAX_AUTO_MOVES := by
  induction nights generalizing before made with
  | nil => exact hmax
  | cons night nights ih =>
    obtain ⟨hserved, hpin⟩ := hnights night List.mem_cons_self
    obtain ⟨hcount, hfull⟩ := recordedMoves_judgeNight world before hserved
    rw [if_neg hpin] at hcount
    have hnext := @ih (judgeNight world before night).engines
      (made + (movesOf (judgeNight world before night).moves name0).length)
      (fun n hn => hnights n (List.mem_cons_of_mem _ hn)) (by omega) (by omega)
    rw [autoMoves]
    omega

theorem moves_recorded (world : World) (before : Engines) (night : Night) (name0 : String) :
    (movesOf (judgeNight world before night).moves name0).length ≤
        recordedMoves (judgeNight world before night).engines name0 ∧
      (movesOf (judgeNight world before night).moves name0).length ≤ MAX_AUTO_MOVES := by
  cases nightOf_judgeEngines world (night.input before) name0 with
  | forgotten _ _ hmoves =>
    have hnone := congrArg List.length hmoves
    exact ⟨hnone ▸ Nat.zero_le _, hnone ▸ Nat.zero_le _⟩
  | settled _ _ _ hmoves =>
    have hnone := congrArg List.length hmoves
    exact ⟨hnone ▸ Nat.zero_le _, hnone ▸ Nat.zero_le _⟩
  | moved j hserved _ _ hmoves =>
    have hone : (movesOf (judgeNight world before night).moves name0).length = 1 :=
      congrArg List.length hmoves
    obtain ⟨hcount, -⟩ := recordedMoves_judgeNight world before hserved
    rw [hcount, hone]
    exact ⟨Nat.le_add_left _ _, by decide⟩

/-! ## Cool-down -/

/-- What a name's record still says some nights after the name moved at `movedAt`: when the last
move was, the epoch unless a pin took it, and the count unless an "auto" did. -/
structure Remembers (engines : Engines) (name0 : String) (movedAt : ℤ) (zeroed auto : Prop) : Prop where
  since : ∃ since, (recordOf engines name0).since = some since ∧ movedAt ≤ since
  epoch : ¬ zeroed → 0 < recordedEpoch engines name0
  count : ¬ auto → 0 < recordedMoves engines name0

theorem remembers_moved {j : Judged}
    (hrecord : recordOf (judgeNight world before night).engines name0 = movedRecord night.nowMs j r)
    {movedAt : ℤ} (h : movedAt ≤ night.nowMs) {zeroed auto : Prop} :
    Remembers (judgeNight world before night).engines name0 movedAt zeroed auto := by
  refine ⟨⟨night.nowMs, by rw [hrecord]; rfl, h⟩, fun _ => ?_, fun _ => ?_⟩
  · rw [recordedEpoch, hrecord]
    exact Nat.succ_pos _
  · rw [recordedMoves, hrecord]
    exact Nat.succ_pos _

/-- A served night keeps the time of the last move, unless both a pin to 0 and an "auto" have
come since: the record then looks empty. -/
theorem Remembers.after_night (world : World) {movedAt : ℤ} {zeroed auto : Prop}
    (h : Remembers before name0 movedAt zeroed auto) (hserved : night.served name0 = true)
    (hboth : ¬ ((zeroed ∨ night.pin name0 = some (.epoch 0)) ∧ (auto ∨ night.pin name0 = some .auto))) :
    Remembers (judgeNight world before night).engines name0 movedAt
      (zeroed ∨ night.pin name0 = some (.epoch 0)) (auto ∨ night.pin name0 = some .auto) := by
  obtain ⟨since, hsince, hle⟩ := h.since
  cases nightOf_judgeEngines world (night.input before) name0 with
  | forgotten hnot hrecord hmoves => exact absurd hserved (Bool.eq_false_iff.mp hnot)
  | settled why _ hrecord hmoves =>
    have hepoch : recordedEpoch (judgeNight world before night).engines name0 = _ :=
      (congrArg (fun r : EngineMoveRecord => r.e.getD 0) hrecord).trans recordedEpoch_judged
    have hcount := (recordedMoves_judgeNight world before hserved).1
    have hnone : (movesOf (judgeNight world before night).moves name0).length = 0 :=
      congrArg List.length hmoves
    rw [hnone, Nat.add_zero] at hcount
    have hepochKept : ¬ (zeroed ∨ night.pin name0 = some (.epoch 0)) →
        0 < recordedEpoch (judgeNight world before night).engines name0 := by
      intro hnot
      rw [not_or] at hnot
      rw [hepoch]
      split
      · rename_i n hpin
        refine Nat.pos_of_ne_zero ?_
        rintro rfl
        exact hnot.2 hpin
      · exact h.epoch hnot.1
    have hcountKept : ¬ (auto ∨ night.pin name0 = some .auto) →
        0 < recordedMoves (judgeNight world before night).engines name0 := by
      intro hnot
      rw [not_or] at hnot
      rw [hcount, if_neg hnot.2]
      exact h.count hnot.1
    refine ⟨⟨since, ?_, hle⟩, hepochKept, hcountKept⟩
    -- one of the two is left, so the record is not pruned
    have hkept : 0 < recordedEpoch (judgeNight world before night).engines name0 ∨
        0 < recordedMoves (judgeNight world before night).engines name0 := by
      rcases not_and_or.mp hboth with hnot | hnot
      · exact .inl (hepochKept hnot)
      · exact .inr (hcountKept hnot)
    have hwhole : recordOf (judgeNight world before night).engines name0 =
        { (judgementOf world (night.input before) name0).1 with why } := by
      refine hrecord.trans (prune_of_nonempty ?_)
      rw [recordedEpoch, recordedMoves] at hkept
      refine hkept.imp (fun hpos => ?_) fun hpos => ?_
      · have heq : _ = _ := congrArg (fun r : EngineMoveRecord => r.e.getD 0) hrecord
        exact Nat.lt_of_lt_of_eq hpos (heq.trans prune_e)
      · have heq : _ = _ := congrArg (fun r : EngineMoveRecord => r.moves.getD 0) hrecord
        exact Nat.lt_of_lt_of_eq hpos (heq.trans prune_moves)
    rw [hwhole]
    show (judgementOf world (night.input before) name0).1.since = some since
    rw [judgementOf, judgeRecord_frame.2.1]
    exact hsince
  | moved j _ hcandidate hrecord hmoves =>
    have hcooled := (mayMove_of_candidate hcandidate).2.cooledDown since hsince
    have hlater : movedAt ≤ night.nowMs := by
      simp only [Night.input, MOVE_COOLDOWN_MS] at hcooled
      omega
    exact remembers_moved hrecord hlater

theorem Remembers.after (world : World) {movedAt : ℤ} {nights : List Night}
    {zeroed auto : Prop} (h : Remembers before name0 movedAt zeroed auto)
    (hserved : ∀ n ∈ nights, n.served name0 = true)
    (hboth : ¬ ((zeroed ∨ ∃ n ∈ nights, n.pin name0 = some (.epoch 0)) ∧ (auto ∨ ∃ n ∈ nights, n.pin name0 = some .auto))) :
    ∃ since, (recordOf (enginesAfter world before nights) name0).since = some since ∧ movedAt ≤ since := by
  induction nights generalizing before zeroed auto with
  | nil => exact h.since
  | cons night nights ih =>
    have hnight := h.after_night world (hserved night List.mem_cons_self) fun hnow => hboth
      ⟨hnow.1.imp id fun hpin => ⟨night, List.mem_cons_self, hpin⟩,
        hnow.2.imp id fun hpin => ⟨night, List.mem_cons_self, hpin⟩⟩
    refine ih hnight (fun n hn => hserved n (List.mem_cons_of_mem _ hn)) fun hlater => hboth ?_
    simp only [List.mem_cons, exists_eq_or_imp, ← or_assoc]
    exact hlater

theorem moved_of_movesOf (h : movesOf (judgeNight world before night).moves name0 ≠ []) :
    ∃ j, (judgementOf world (night.input before) name0).2 = some j ∧ recordOf (judgeNight world before night).engines name0 =
        movedRecord night.nowMs j (judgementOf world (night.input before) name0).1 := by
  cases nightOf_judgeEngines world (night.input before) name0 with
  | forgotten _ _ hmoves => exact absurd hmoves h
  | settled _ _ _ hmoves => exact absurd hmoves h
  | moved j _ hcandidate hrecord _ => exact ⟨j, hcandidate, hrecord⟩

theorem cooldown_between {first last : Night} {between : List Night}
    (hfirst : movesOf (judgeNight world before first).moves name0 ≠ [])
    (hlast : movesOf (judgeNight world (enginesAfter world before (first :: between)) last).moves name0 ≠ [])
    (hserved : ∀ n ∈ between, n.served name0 = true)
    (hboth : ¬ ((∃ n ∈ between, n.pin name0 = some (.epoch 0)) ∧ ∃ n ∈ between, n.pin name0 = some .auto)) :
    MOVE_COOLDOWN_MS ≤ last.nowMs - first.nowMs := by
  obtain ⟨j, -, hrecord⟩ := moved_of_movesOf hfirst
  have hmoved : Remembers (judgeNight world before first).engines name0 first.nowMs False False :=
    remembers_moved hrecord le_rfl
  obtain ⟨since, hsince, hle⟩ := hmoved.after world hserved (by simpa using hboth)
  obtain ⟨j', hcandidate, -⟩ := moved_of_movesOf hlast
  have hcooled := (mayMove_of_candidate hcandidate).2.cooledDown since hsince
  simp only [Night.input] at hcooled
  linarith

/-! ## Every run -/

theorem enginesAfter_append (before : Engines) (earlier later : List Night) :
    enginesAfter world before (earlier ++ later) = enginesAfter world (enginesAfter world before earlier) later := by
  induction earlier generalizing before with
  | nil => rfl
  | cons night earlier ih => exact ih _

theorem nodup_movedNames {input : JudgeInput} : ((judgeEngines world input).moves.map (·.name0)).Nodup := by
  rw [List.nodup_iff_count_le_one]
  intro name0
  have hcount : ((judgeEngines world input).moves.map (·.name0)).count name0 =
      (movesOf (judgeEngines world input).moves name0).length := by
    rw [List.count, List.countP_map, List.countP_eq_length_filter]
    rfl
  rw [hcount]
  cases nightOf_judgeEngines world input name0 with
  | forgotten _ _ hmoves => simp [hmoves]
  | settled _ _ _ hmoves => simp [hmoves]
  | moved _ _ _ _ hmoves => simp [hmoves]

end

/-- **The nightly keeps its limits over every run of nights.** -/
theorem judgeEngines_sound (world : World) :
    (∀ nights night,
      let before := enginesAfter world none nights
      let result := judgeNight world before night
      -- a night moves a name and a replica once at most, and no more than the cap
      (result.moves.length ≤ MAX_MOVES_PER_NIGHT ∧ (result.moves.map (·.name0)).Nodup ∧
          (result.moves.map fun m => replicaGroupOf m.source).Nodup) ∧
        -- a name pinned tonight, or given up and not set free tonight, is not moved
        (∀ m ∈ result.moves, (∀ n, night.pin m.name0 ≠ some (.epoch n)) ∧
          ((recordOf before m.name0).stop = some .gaveUp → night.pin m.name0 = some .auto)) ∧
        -- the epoch of a served name is lowered by a pin only
        (∀ name0, night.served name0 = true → (∀ n, night.pin name0 ≠ some (.epoch n)) →
          recordedEpoch before name0 ≤ recordedEpoch result.engines name0)) ∧
      -- between two "auto" pins a name that stays served has few automatic moves
      (∀ name0 earlier first later, (∀ n ∈ later, n.served name0 = true ∧ n.pin name0 ≠ some .auto) →
        autoMoves world name0 (enginesAfter world none earlier) (first :: later) ≤ MAX_AUTO_MOVES) ∧
      -- and two of them are a cool-down apart
      (∀ name0 earlier first between last,
        movesOf (judgeNight world (enginesAfter world none earlier) first).moves name0 ≠ [] →
        movesOf (judgeNight world (enginesAfter world none (earlier ++ first :: between)) last).moves name0 ≠ [] →
        (∀ n ∈ between, n.served name0 = true) →
        ¬ ((∃ n ∈ between, n.pin name0 = some (.epoch 0)) ∧ ∃ n ∈ between, n.pin name0 = some .auto) →
        MOVE_COOLDOWN_MS ≤ last.nowMs - first.nowMs) := by
  refine ⟨fun nights night => ?_, ?_, ?_⟩
  · intro before result
    have hlimits : WithinLimits (settled world (night.input before)) := settled_withinLimits
    have hbounded : EpochsBounded before := epochsBounded_after nights fun _ => Nat.zero_le _
    refine ⟨⟨hlimits.few, nodup_movedNames, ?_⟩, ?_, ?_⟩
    · have hmoves : result.moves = (settled world (night.input before)).moves := rfl
      rw [hmoves, hlimits.groups]
      exact hlimits.nodup.map (Option.some_injective _)
    · intro m hm
      have hmoves : movesOf result.moves m.name0 ≠ [] :=
        List.ne_nil_of_mem (List.mem_filter.mpr ⟨hm, by simp⟩)
      obtain ⟨j, hcandidate, -⟩ := moved_of_movesOf hmoves
      have hmay := (mayMove_of_candidate hcandidate).2
      exact ⟨hmay.unpinned, hmay.notGivenUp⟩
    · intro name0 hserved hpin
      exact recordedEpoch_mono hbounded hserved hpin
  · intro name0 earlier first later hlater
    obtain ⟨hrecorded, hfew⟩ := moves_recorded world (enginesAfter world none earlier) first name0
    exact autoMoves_recorded hlater hrecorded hfew
  · intro name0 earlier first between last hfirst hlast hserved hboth
    rw [enginesAfter_append] at hlast
    exact cooldown_between hfirst hlast hserved hboth

def twoColos : World :=
  { coordsOf := fun colo =>
      if colo = "SEA" then some (47.45, -122.31) else if colo = "DFW" then some (32.9, -97.04) else none
    greatCircleKm := fun p q => if p = q then 0 else 2668
    localeCompare := fun a b => a ≤ b }

def quietReport (name colo : String) (coloAt : ℤ) : EngineReport :=
  { name, colo := some colo, coloAt := some coloAt, day := "2026-10-26", loads := 0, around := [] }

/-- A night on which the replica's partition 3 answers under `name` and is far from the others. -/
def farNight (name : String) (served : Bool) (nowMs : ℤ) : Night :=
  { reports := [quietReport "engine-wnam-p0" "SEA" nowMs, quietReport "engine-wnam-p1" "SEA" nowMs,
      quietReport "engine-wnam-p2" "SEA" nowMs, quietReport name "DFW" nowMs]
    served := fun name0 => name0 ≠ "engine-wnam-p3" || served
    pins := none
    abandoned := fun _ => false
    nowMs }

theorem judgeEngines_sound_twoMoves :
    movesOf (judgeNight twoColos none (farNight "engine-wnam-p3" true 0)).moves "engine-wnam-p3" ≠ [] ∧
      movesOf (judgeNight twoColos (enginesAfter twoColos none [farNight "engine-wnam-p3" true 0])
        (farNight "engine-wnam-p3-e1" true MOVE_COOLDOWN_MS)).moves "engine-wnam-p3" ≠ [] ∧
      MOVE_COOLDOWN_MS ≤ (farNight "engine-wnam-p3-e1" true MOVE_COOLDOWN_MS).nowMs -
        (farNight "engine-wnam-p3" true 0).nowMs :=
  have hfirst : movesOf (judgeNight twoColos none (farNight "engine-wnam-p3" true 0)).moves
      "engine-wnam-p3" ≠ [] := by decide +kernel
  have hlast : movesOf (judgeNight twoColos (enginesAfter twoColos none [farNight "engine-wnam-p3" true 0])
      (farNight "engine-wnam-p3-e1" true MOVE_COOLDOWN_MS)).moves "engine-wnam-p3" ≠ [] := by decide +kernel
  ⟨hfirst, hlast, (judgeEngines_sound twoColos).2.2 "engine-wnam-p3" [] _ [] _ hfirst hlast (by simp) (by simp)⟩

/-- A night on which the name is not served drops its record: without any pin its epoch falls
back to 0, and it is moved again two days after its last move. -/
theorem forgotten_on_unserved_night :
    let first := farNight "engine-wnam-p3" true 0
    let unserved := farNight "engine-wnam-p3-e1" false 86400000
    let last := farNight "engine-wnam-p3" true 172800000
    movesOf (judgeNight twoColos none first).moves "engine-wnam-p3" ≠ [] ∧
      recordedEpoch (enginesAfter twoColos none [first]) "engine-wnam-p3" = 1 ∧
      recordedEpoch (enginesAfter twoColos none [first, unserved]) "engine-wnam-p3" = 0 ∧
      movesOf (judgeNight twoColos (enginesAfter twoColos none [first, unserved]) last).moves
        "engine-wnam-p3" ≠ [] ∧
      last.nowMs - first.nowMs < MOVE_COOLDOWN_MS := by
  decide +kernel

end EngineMoves
