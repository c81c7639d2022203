-- SUMMARY: Which shards a draw may return: every one warmed, as long as no warm ping overtakes a lower pending one.
import Sylvan.Engine.ShardBounds

/-!
# Warmed shards

`readyShards` is one high-water mark for the shards of a region. A warm ping that ends
before a lower shard's moves the mark past that shard, and `pickShard` then draws an
index nothing has warmed. Where no ping overtakes, every index in the draw has had its
own ping or is below an adopted width.
-/

namespace Shards

open RegionState Isolate

/-! ## Vouching -/

/-- The event says that `shard` of `region` may serve: its own warm ping ended, or a wider
    announcement that covers it was adopted. -/
def vouches (isolate : Isolate) (event : String × Op) (region : String) (shard : ℕ) : Prop :=
  match event with
  | (r, .markShardReady warmed) => r = region ∧ warmed = shard
  | (r, .adoptShardWidth _ width) =>
    r = region ∧ ∃ adopted ∈ capped isolate.configuredMax width,
      (isolate.stateFor region).readyShards < adopted ∧ shard < adopted
  | _ => False

instance (isolate : Isolate) (event : String × Op) (region : String) (shard : ℕ) :
    Decidable (vouches isolate event region shard) := by
  unfold vouches
  split <;> infer_instance

/-- One of the events vouched for `shard`. -/
def Vouched (events : List (String × Op)) (region : String) (shard : ℕ) : Prop :=
  ∃ i : Fin events.length, vouches (after (events.take i)) events[i] region shard

instance (events : List (String × Op)) (region : String) (shard : ℕ) : Decidable (Vouched events region shard) :=
  inferInstanceAs (Decidable (∃ _ : Fin _, _))

/-- A warm ping marks a shard while every lower one it would open is vouched for. -/
def InOrder (before : List (String × Op)) (event : String × Op) : Prop :=
  match event with
  | (region, .markShardReady shard) =>
    ∀ lower < min shard ((after before).stateFor region).targetShards,
      ((after before).stateFor region).readyShards ≤ lower → Vouched before region lower
  | _ => True

instance (before : List (String × Op)) (event : String × Op) : Decidable (InOrder before event) := by
  unfold InOrder
  split <;> infer_instance

/-! ## Runs -/

section

variable {events : List (String × Op)} {event : String × Op} {region : String} {shard : ℕ}

theorem Vouched.append (h : Vouched events region shard) : Vouched (events ++ [event]) region shard := by
  obtain ⟨i, hi⟩ := h
  refine ⟨⟨i, Nat.lt_of_lt_of_le i.isLt (by simp)⟩, ?_⟩
  simpa [List.take_append_of_le_length i.isLt.le, List.getElem_append_left] using hi

theorem Vouched.last (h : vouches (after events) event region shard) : Vouched (events ++ [event]) region shard :=
  ⟨⟨events.length, by simp⟩, by simpa using h⟩

/-- The width after one operation is no wider, or the operation vouched for what it opened, or it
    is a warm ping that may have overtaken others. -/
theorem take_ready_le (state : RegionState) (configuredMax : ℕ) (op : Op) :
    (state.take configuredMax op).readyShards ≤ state.readyShards ∨ (∃ shard, op = .markShardReady shard) ∨
      ∃ now width adopted, op = .adoptShardWidth now width ∧ capped configuredMax width = some adopted ∧
        state.readyShards < adopted ∧ (state.take configuredMax op).readyShards = adopted := by
  cases op with
  | expand now => exact .inl widened_expand.1.le
  | reportEngineRate now rate => exact .inl widened_reportEngineRate.1.le
  | noteRegionWide now agoMs => exact .inl widened_noteRegionWide.1.le
  | reportEngineLoad now depth => exact .inl widened_reportEngineLoad.1.le
  | reportEngineLatency now rpcMs => exact .inl widened_reportEngineLatency.1.le
  | takeWarmTarget => exact .inl le_rfl
  | markShardReady shard => exact .inr (.inl ⟨shard, rfl⟩)
  | unmarkPending =>
    refine .inl ?_
    simp only [RegionState.take, unmarkPending]
    split_ifs <;> rfl
  | adoptShardWidth now width =>
    simp only [RegionState.take, adoptShardWidth]
    cases hcapped : capped configuredMax width with
    | none => exact .inl le_rfl
    | some adopted =>
      by_cases hwider : adopted > state.readyShards
      · exact .inr (.inr ⟨now, width, adopted, rfl, hcapped, hwider, by simp [hwider]⟩)
      · refine .inl ?_
        simp only [hwider, if_false]
        split_ifs <;> (try simp only) <;> omega
  | pickShard now maxShards => exact .inl settle_ready_le

theorem apply_vouched (horder : InOrder events event)
    (hbefore : ∀ shard, 0 < shard → shard < ((after events).stateFor region).readyShards → Vouched events region shard)
    (hpos : 0 < shard)
    (hshard : shard < (((after events).apply event).stateFor region).readyShards) :
    Vouched (events ++ [event]) region shard := by
  rw [apply_stateFor] at hshard
  split_ifs at hshard with hregion
  · obtain ⟨r, op⟩ := event
    obtain rfl : region = r := hregion
    obtain hle | ⟨warmed, rfl⟩ | ⟨now, width, adopted, rfl, hcapped, hwider, hready⟩ :=
      take_ready_le ((after events).stateFor region) ((after events).configure op).configuredMax op
    · exact (hbefore shard hpos (hshard.trans_le hle)).append
    · -- the mark's own shard is vouched for by it, a lower one it opens by the order of the pings
      simp only [RegionState.take, markShardReady_ready, lt_min_iff, lt_max_iff] at hshard
      obtain ⟨hlt | hlt, htarget⟩ := hshard
      · exact (hbefore shard hpos hlt).append
      · by_cases hself : warmed = shard
        · exact Vouched.last ⟨rfl, hself⟩
        · by_cases hdrawn : shard < ((after events).stateFor region).readyShards
          · exact (hbefore shard hpos hdrawn).append
          · exact (horder shard (by omega) (by omega)).append
    · rw [hready] at hshard
      exact Vouched.last ⟨rfl, adopted, hcapped, hwider, hshard⟩
  · exact (hbefore shard hpos hshard).append

theorem ready_vouched (horder : ∀ i : Fin events.length, InOrder (events.take i) events[i])
    (hpos : 0 < shard) (hshard : shard < ((after events).stateFor region).readyShards) :
    Vouched events region shard := by
  induction events using List.reverseRecOn generalizing shard with
  | nil =>
    have hone : ((after []).stateFor region).readyShards = 1 := rfl
    omega
  | append_singleton events event ih =>
    rw [after_append] at hshard
    refine apply_vouched ?_ (fun shard hpos hshard => ih ?_ hpos hshard) hpos hshard
    · simpa using horder ⟨events.length, by simp⟩
    · intro i
      simpa [List.take_append_of_le_length i.isLt.le, List.getElem_append_left] using
        horder ⟨i, Nat.lt_of_lt_of_le i.isLt (by simp)⟩

/-- **When every warm ping of a run ends in order, `pickShard` returns no shard above zero that was
    neither marked ready itself nor below an adopted width.** -/
theorem pickShard_warmed (horder : ∀ i : Fin events.length, InOrder (events.take i) events[i])
    (now : ℤ) (maxShards : Option ℤ) (random : Random)
    (hpos : 0 < ((after events).pickShard region now maxShards random).2) :
    Vouched events region ((after events).pickShard region now maxShards random).2 :=
  ready_vouched horder hpos ((widths_bounded events region).2.2 now maxShards random).2.1

end

/-! ## Two shards opened in quick succession -/

def half : Random := ⟨1 / 2, by norm_num, by norm_num⟩

/-- A shard opened, warmed and drawn. -/
theorem pickShard_warmed_one :
    Vouched [("wnam", .reportEngineRate 100000 60), ("wnam", .takeWarmTarget),
      ("wnam", .markShardReady 1)] "wnam"
      ((after [("wnam", .reportEngineRate 100000 60), ("wnam", .takeWarmTarget),
        ("wnam", .markShardReady 1)]).pickShard "wnam" 101000 none half).2 :=
  pickShard_warmed (by decide +kernel) 101000 none half (by decide +kernel)

/-- Two expansions past the cooldown, each pinged, and the end of the second ping. -/
def overtaken : List (String × Op) :=
  [("wnam", .reportEngineRate 100000 60), ("wnam", .takeWarmTarget),
   ("wnam", .reportEngineRate 130000 60), ("wnam", .takeWarmTarget), ("wnam", .markShardReady 2)]

/-- Shard 1 is drawn while its ping is still out. -/
theorem overtaken_draws_cold_shard :
    ((after overtaken).pickShard "wnam" 131000 none half).2 = 1 ∧ ¬ Vouched overtaken "wnam" 1 := by
  decide +kernel

end Shards
