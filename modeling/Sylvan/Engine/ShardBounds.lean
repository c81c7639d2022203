-- SUMMARY: What every run of the shard controller keeps: the bounds on a region's widths, and which shards may be drawn.
import Sylvan.Engine.ShardController
import Mathlib.Tactic.NormNum

/-!
# Widths over runs

Each operation's effect on a region's three widths is stated once. From it follow the
bounds every run keeps, and what a shard above zero owes its place in the draw to.
-/

namespace Shards

namespace RegionState

variable {state : RegionState} {configuredMax : ℕ} {now : ℤ}

/-! ## One operation -/

/-- The widths a region's record may stand at. -/
structure Bounded (state : RegionState) : Prop where
  one_le_ready : 1 ≤ state.readyShards
  ready_le_target : state.readyShards ≤ state.targetShards
  one_le_own : 1 ≤ state.ownWidth
  /-- A shard that is still warming was opened by this isolate's own expansion. -/
  target_le_own : state.readyShards < state.targetShards → state.targetShards ≤ state.ownWidth

theorem Bounded.fresh : Bounded .fresh := ⟨le_rfl, le_rfl, le_rfl, fun h => absurd h (by decide)⟩

/-- The record's widths are kept, or it took one expansion. -/
def Widened (before after : RegionState) : Prop :=
  after.readyShards = before.readyShards ∧ ((after.targetShards = before.targetShards ∧ after.ownWidth = before.ownWidth) ∨
      (after.targetShards = before.targetShards + 1 ∧ after.ownWidth = before.targetShards + 1))

theorem widened_expand : Widened state (state.expand now) := ⟨rfl, .inr ⟨rfl, rfl⟩⟩

theorem widened_reportEngineRate {rate : ℚ} : Widened state (state.reportEngineRate configuredMax now rate) := by
  simp only [reportEngineRate]
  split_ifs
  all_goals first
    | exact ⟨rfl, .inl ⟨rfl, rfl⟩⟩
    | exact ⟨rfl, .inr ⟨rfl, rfl⟩⟩

theorem widened_reportEngineLoad {depth : ℤ} : Widened state (state.reportEngineLoad configuredMax now depth) := by
  simp only [reportEngineLoad]
  split_ifs
  all_goals first
    | exact ⟨rfl, .inl ⟨rfl, rfl⟩⟩
    | exact ⟨rfl, .inr ⟨rfl, rfl⟩⟩

theorem widened_reportEngineLatency {rpcMs : ℚ} : Widened state (state.reportEngineLatency configuredMax now rpcMs) := by
  simp only [reportEngineLatency]
  split_ifs
  all_goals first
    | exact ⟨rfl, .inl ⟨rfl, rfl⟩⟩
    | exact ⟨rfl, .inr ⟨rfl, rfl⟩⟩

theorem widened_noteRegionWide {agoMs : Option ℤ} : Widened state (state.noteRegionWide now agoMs) := by
  cases agoMs with
  | none => exact ⟨rfl, .inl ⟨rfl, rfl⟩⟩
  | some agoMs =>
    simp only [noteRegionWide]
    split_ifs <;> exact ⟨rfl, .inl ⟨rfl, rfl⟩⟩

theorem Bounded.widened {after : RegionState} (h : state.Bounded) (hwiden : Widened state after) : after.Bounded := by
  obtain ⟨hready, ⟨htarget, hown⟩ | ⟨htarget, hown⟩⟩ := hwiden
  · refine ⟨hready ▸ h.one_le_ready, ?_, hown ▸ h.one_le_own, ?_⟩
    · simpa [hready, htarget] using h.ready_le_target
    · simpa [hready, htarget, hown] using h.target_le_own
  · have hle := h.ready_le_target
    exact ⟨hready ▸ h.one_le_ready, by omega, by omega, by omega⟩

variable {shard : ℕ}

@[simp] theorem markShardReady_ready : (state.markShardReady shard).readyShards =
      min (max state.readyShards (shard + 1)) state.targetShards := by
  simp only [markShardReady]
  split_ifs with hsame
  · exact hsame.symm
  · rfl

@[simp] theorem markShardReady_target : (state.markShardReady shard).targetShards = state.targetShards := by
  simp only [markShardReady]
  split_ifs <;> rfl

@[simp] theorem markShardReady_own : (state.markShardReady shard).ownWidth = state.ownWidth := by
  simp only [markShardReady]
  split_ifs <;> rfl

theorem Bounded.markShardReady (h : state.Bounded) : (state.markShardReady shard).Bounded := by
  obtain ⟨hready, htarget, hown, hpending⟩ := h
  constructor <;> simp only [markShardReady_ready, markShardReady_target, markShardReady_own] <;> omega

theorem Bounded.unmarkPending (h : state.Bounded) : state.unmarkPending.Bounded := by
  obtain ⟨hready, htarget, hown, hpending⟩ := h
  simp only [RegionState.unmarkPending]
  split_ifs
  · exact ⟨hready, htarget, hown, hpending⟩
  · exact ⟨hready, le_rfl, by simp only; omega, fun hlt => absurd hlt (lt_irrefl _)⟩

theorem capped_spec {width : Option ℚ} {adopted : ℕ} (h : capped configuredMax width = some adopted) :
    configuredMax = 0 ∧ 1 ≤ adopted ∨ 0 < configuredMax ∧ 1 ≤ adopted ∧ adopted ≤ configuredMax := by
  cases width with
  | none => cases h
  | some width =>
    simp only [capped] at h
    split_ifs at h with hwidth hmax
    · have hfloor : 1 ≤ ⌊width⌋ := Int.le_floor.mpr (by exact_mod_cast not_lt.mp hwidth)
      obtain rfl := Option.some.inj h
      exact .inl ⟨hmax, by omega⟩
    · have hfloor : 1 ≤ ⌊width⌋ := Int.le_floor.mpr (by exact_mod_cast not_lt.mp hwidth)
      obtain rfl := Option.some.inj h
      exact .inr ⟨by omega, by omega, by omega⟩

theorem Bounded.adoptShardWidth {width : Option ℚ} (h : state.Bounded) :
    (state.adoptShardWidth configuredMax now width).Bounded := by
  obtain ⟨hready, htarget, hown, hpending⟩ := h
  simp only [RegionState.adoptShardWidth]
  cases hcapped : capped configuredMax width with
  | none => exact ⟨hready, htarget, hown, hpending⟩
  | some adopted =>
    have hone : 1 ≤ adopted := by
      obtain h | h := capped_spec hcapped
      · exact h.2
      · exact h.2.1
    simp only
    split_ifs <;> constructor <;> (try simp only) <;> omega

theorem Bounded.contract (h : state.Bounded) : (state.contract now).Bounded := by
  obtain ⟨hready, htarget, hown, hpending⟩ := h
  simp only [RegionState.contract]
  split_ifs <;> constructor <;> (try simp only) <;> omega

theorem Bounded.clamp (h : state.Bounded) : (state.clamp configuredMax).Bounded := by
  obtain ⟨hready, htarget, hown, hpending⟩ := h
  simp only [RegionState.clamp]
  split_ifs <;> constructor <;> simp only <;> omega

theorem Bounded.settle (h : state.Bounded) : (state.settle configuredMax now).Bounded := by
  have hcontract : (state.contract now).Bounded := h.contract
  simp only [RegionState.settle]
  split_ifs
  · exact Bounded.clamp ⟨hcontract.1, hcontract.2, hcontract.3, hcontract.4⟩
  · exact hcontract.clamp

/-! ## The draw -/

theorem contract_ready_le : (state.contract now).readyShards ≤ state.readyShards := by
  simp only [contract]
  split_ifs <;> (try simp only) <;> omega

theorem settle_ready : (state.settle configuredMax now).readyShards =
      if configuredMax > 0 ∧ (state.contract now).readyShards > configuredMax then configuredMax
      else (state.contract now).readyShards := by
  by_cases hwide : (state.contract now).readyShards > 1 <;> simp [settle, clamp, hwide]

theorem settle_ready_le : (state.settle configuredMax now).readyShards ≤ state.readyShards := by
  have hcontract : (state.contract now).readyShards ≤ state.readyShards := contract_ready_le
  rw [settle_ready]
  split_ifs <;> omega

theorem settle_ready_le_cap (h : 0 < configuredMax) : (state.settle configuredMax now).readyShards ≤ configuredMax := by
  rw [settle_ready]
  split_ifs <;> omega

theorem draw_lt {random : Random} (h : 1 ≤ state.readyShards) : state.draw random < state.readyShards := by
  unfold draw
  split_ifs
  · exact h
  · have hpos : (0 : ℚ) < state.readyShards := by exact_mod_cast h
    have hlt := Float64.nearest_mul_lt random.nonneg random.below hpos
    have hnonneg : 0 ≤ Float64.nearest (random.value * state.readyShards) :=
      Float64.nearest_nonneg (mul_nonneg random.nonneg hpos.le)
    have hfloor : ⌊Float64.nearest (random.value * state.readyShards)⌋ < (state.readyShards : ℤ) :=
      Int.floor_lt.mpr (by exact_mod_cast hlt)
    have := Int.floor_nonneg.mpr hnonneg
    omega

theorem Bounded.take {op : Op} (h : state.Bounded) : (state.take configuredMax op).Bounded := by
  cases op with
  | expand now => exact h.widened widened_expand
  | reportEngineRate now rate => exact h.widened widened_reportEngineRate
  | noteRegionWide now agoMs => exact h.widened widened_noteRegionWide
  | reportEngineLoad now depth => exact h.widened widened_reportEngineLoad
  | reportEngineLatency now rpcMs => exact h.widened widened_reportEngineLatency
  | takeWarmTarget => exact h.widened ⟨rfl, .inl ⟨rfl, rfl⟩⟩
  | markShardReady shard => exact h.markShardReady
  | unmarkPending => exact h.unmarkPending
  | adoptShardWidth now width => exact h.adoptShardWidth
  | pickShard now maxShards => exact h.settle

theorem currentShardWidth_bounds (h : state.Bounded) :
    1 ≤ state.currentShardWidth ∧ state.currentShardWidth ≤ state.readyShards :=
  ⟨le_min h.one_le_own h.one_le_ready, min_le_right _ _⟩

end RegionState

/-! ## Runs -/

namespace Isolate

open RegionState

variable {isolate : Isolate} {region : String}

@[simp] theorem configure_stateFor {op : Op} : (isolate.configure op).stateFor = isolate.stateFor := by
  unfold configure
  split
  · split_ifs <;> rfl
  · rfl

variable {event : String × Op}

theorem apply_stateFor : (isolate.apply event).stateFor region = if region = event.1
      then (isolate.stateFor region).take (isolate.configure event.2).configuredMax event.2
      else isolate.stateFor region := by
  by_cases h : region = event.1
  · subst h
    simp [apply, update]
  · simp [apply, update, h]

@[simp] theorem apply_configuredMax : (isolate.apply event).configuredMax = (isolate.configure event.2).configuredMax := rfl

theorem apply_bounded (h : (isolate.stateFor region).Bounded) : ((isolate.apply event).stateFor region).Bounded := by
  rw [apply_stateFor]
  split_ifs
  · exact h.take
  · exact h

theorem after_append {events : List (String × Op)} : after (events ++ [event]) = (after events).apply event := by
  simp [after]

theorem after_bounded {events : List (String × Op)} : ((after events).stateFor region).Bounded :=
  Runs.foldl_invariant (P := fun _ (isolate : Isolate) => (isolate.stateFor region).Bounded) Bounded.fresh
    (fun _ _ h => apply_bounded h) events

theorem pickShard_stateFor {now : ℤ} {maxShards : Option ℤ} {random : Random} :
    (isolate.pickShard region now maxShards random).1.stateFor region = (isolate.stateFor region).settle
        (isolate.pickShard region now maxShards random).1.configuredMax now := by
  simp [pickShard, apply_stateFor, RegionState.take]

/-- **Over every run, every region keeps `1 ≤ readyShards ≤ targetShards` and reports a width of one
    to `readyShards`; a draw is below `readyShards`, as it was and as the pick leaves it, and below
    the cap.** -/
theorem widths_bounded (events : List (String × Op)) (region : String) :
    let isolate := after events
    (1 ≤ (isolate.stateFor region).readyShards ∧
      (isolate.stateFor region).readyShards ≤ (isolate.stateFor region).targetShards) ∧
    (1 ≤ isolate.currentShardWidth region ∧
      isolate.currentShardWidth region ≤ (isolate.stateFor region).readyShards) ∧
    ∀ now maxShards random,
      let picked := isolate.pickShard region now maxShards random
      picked.2 < (picked.1.stateFor region).readyShards ∧
      picked.2 < (isolate.stateFor region).readyShards ∧
      (0 < picked.1.configuredMax → picked.2 < picked.1.configuredMax) := by
  have hbounded : ((after events).stateFor region).Bounded := after_bounded
  refine ⟨⟨hbounded.one_le_ready, hbounded.ready_le_target⟩, currentShardWidth_bounds hbounded, ?_⟩
  intro now maxShards random picked
  have hpicked : picked.1.stateFor region =
      ((after events).stateFor region).settle picked.1.configuredMax now := pickShard_stateFor
  have hdraw : picked.2 < (picked.1.stateFor region).readyShards :=
    draw_lt (hpicked ▸ hbounded.settle.one_le_ready)
  refine ⟨hdraw, hdraw.trans_le ?_, fun hpos => hdraw.trans_le ?_⟩
  · rw [hpicked]
    exact settle_ready_le
  · rw [hpicked]
    exact settle_ready_le_cap hpos

end Isolate

end Shards
