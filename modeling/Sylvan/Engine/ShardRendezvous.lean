-- SUMMARY: Isolates sharing one region's object: reports, announcements and adoptions in any order never inflate a width.
import Sylvan.Engine.ShardWarming

/-!
# The rendezvous

Every search call carries its isolate's own width to the region's object, and the reply
carries the object's announcement back. Both kinds of message may be late, repeated,
out of order or lost: a width that was sent once may arrive at any later time, any
number of times. What the isolates hold and what the object announces never exceeds the
widest fan-out some isolate opened by its own expansion and found warm.
-/

namespace Shards

open RegionState Isolate

/-! ## The object's half -/

structure Announcement where
  shards : ℕ
  since : ℤ

/-- Fold one caller's reported width into the announcement; a report that is not finite is `none`. -/
def foldWidthAnnouncement (announced : Announcement) (reported : Option ℚ) (now ttlMs : ℤ) : Announcement :=
  let width := match reported with
    | some reported => if reported ≥ 1 then ⌊reported⌋.toNat else 1
    | none => 1
  if width ≥ announced.shards ∨ now - announced.since > ttlMs then ⟨width, now⟩ else announced

def WIDTH_TTL_MS : ℤ := 60000

theorem fold_shards (announced : Announcement) (width : ℕ) (now ttlMs : ℤ) :
    (foldWidthAnnouncement announced (some width) now ttlMs).shards ∈ [announced.shards, width, 1] := by
  simp only [foldWidthAnnouncement]
  split_ifs <;> simp

/-! ## Isolates around one object -/

variable {ι : Type} [DecidableEq ι]

/-- The isolates that address `region`, its object, and every width sent so far. -/
structure Network (ι : Type) where
  isolates : ι → Isolate
  announced : Announcement
  reports : List ℕ
  replies : List ℕ
  /-- The widest target each isolate's own expansions of the region have set. -/
  opened : ι → ℕ
  /-- The greatest width some isolate opened itself and marked ready; one is where all start. -/
  reached : ℕ

def Network.start : Network ι where
  isolates _ := .fresh
  announced := ⟨1, 0⟩
  reports := []
  replies := []
  opened _ := 1
  reached := 1

inductive Event (ι : Type) where
  /-- An isolate's own operation on any region; adoptions of `region` come from replies only. -/
  | own (i : ι) (region : String) (op : Op)
  /-- A call leaves, carrying its isolate's width. -/
  | report (i : ι)
  /-- A report arrives at the object, which folds it and replies. -/
  | fold (width : ℕ) (now : ℤ)
  /-- A reply arrives at an isolate. -/
  | adopt (i : ι) (width : ℕ) (now : ℤ)
  /-- The object is evicted and starts again. -/
  | evictObject
  /-- An isolate is evicted and starts again. -/
  | evictIsolate (i : ι)

namespace Network

variable (net : Network ι) (region : String)

def record (i : ι) : RegionState := (net.isolates i).stateFor region

def setIsolate (i : ι) (isolate : Isolate) : Network ι :=
  { net with isolates := Function.update net.isolates i isolate }

/-- What an isolate's own operation adds to the record of widths opened and reached. -/
def note (i : ι) (after : RegionState) (op : Op) : Network ι :=
  let net := if (net.record region i).targetShards < after.targetShards
    then { net with opened := Function.update net.opened i (max (net.opened i) after.targetShards) }
    else net
  match op with
  | .markShardReady _ => { net with reached := max net.reached (min after.readyShards (net.opened i)) }
  | _ => net

def step : Event ι → Option (Network ι)
  | .own i r op =>
    let isolate := (net.isolates i).apply (r, op)
    match op with
    | .adoptShardWidth _ _ => if r = region then none else some (net.setIsolate i isolate)
    | op =>
      if r = region then
        some ((net.note region i (isolate.stateFor region) op).setIsolate i isolate)
      else some (net.setIsolate i isolate)
  | .report i => some { net with reports := (net.isolates i).currentShardWidth region :: net.reports }
  | .fold width now =>
    if width ∈ net.reports then
      let announced := foldWidthAnnouncement net.announced (some width) now WIDTH_TTL_MS
      some { net with announced := announced, replies := announced.shards :: net.replies }
    else none
  | .adopt i width now =>
    if width ∈ net.replies then
      some (net.setIsolate i ((net.isolates i).apply (region, .adoptShardWidth now (some width))))
    else none
  | .evictObject => some { net with announced := ⟨1, 0⟩ }
  | .evictIsolate i => some (net.setIsolate i .fresh)

/-! ## What the messages and the isolates hold -/

/-- Nothing held, announced or in flight is wider than what was reached. -/
structure Uninflated (net : Network ι) (region : String) : Prop where
  bounded : ∀ i, (net.record region i).Bounded
  own_le : ∀ i, (net.record region i).ownWidth ≤ net.opened i
  ready_le : ∀ i, (net.record region i).readyShards ≤ net.reached
  announced_le : net.announced.shards ≤ net.reached
  reports_le : ∀ width ∈ net.reports, width ≤ net.reached
  replies_le : ∀ width ∈ net.replies, width ≤ net.reached
  one_le_opened : ∀ i, 1 ≤ net.opened i
  one_le_reached : 1 ≤ net.reached

variable {net} {region}

omit [DecidableEq ι] in
theorem Uninflated.start : Uninflated (Network.start : Network ι) region :=
  ⟨fun _ => .fresh, fun _ => le_rfl, fun _ => le_rfl, le_rfl, by simp [Network.start],
    by simp [Network.start], fun _ => le_rfl, le_rfl⟩

theorem setIsolate_record {i j : ι} {isolate : Isolate} : (net.setIsolate i isolate).record region j =
      if j = i then isolate.stateFor region else net.record region j := by
  by_cases h : j = i
  · subst h
    simp [setIsolate, record]
  · simp [setIsolate, record, h]

/-- An isolate whose record changed to one that is bounded, opened and reached leaves the network
    uninflated. -/
theorem Uninflated.setIsolate (h : net.Uninflated region) {i : ι} {isolate : Isolate}
    (hbounded : (isolate.stateFor region).Bounded)
    (hown : (isolate.stateFor region).ownWidth ≤ net.opened i)
    (hready : (isolate.stateFor region).readyShards ≤ net.reached) :
    (net.setIsolate i isolate).Uninflated region where
  bounded j := by
    rw [setIsolate_record]
    split_ifs
    · exact hbounded
    · exact h.bounded j
  own_le j := by
    rw [setIsolate_record]
    split_ifs with hj
    · exact hj ▸ hown
    · exact h.own_le j
  ready_le j := by
    rw [setIsolate_record]
    split_ifs
    · exact hready
    · exact h.ready_le j
  announced_le := h.announced_le
  reports_le := h.reports_le
  replies_le := h.replies_le
  one_le_opened := h.one_le_opened
  one_le_reached := h.one_le_reached

omit [DecidableEq ι] in
theorem Uninflated.grow (h : net.Uninflated region) {opened : ι → ℕ} {reached : ℕ}
    (hopened : ∀ i, net.opened i ≤ opened i) (hreached : net.reached ≤ reached) :
    ({ net with opened := opened, reached := reached } : Network ι).Uninflated region where
  bounded := h.bounded
  own_le i := (h.own_le i).trans (hopened i)
  ready_le i := (h.ready_le i).trans hreached
  announced_le := h.announced_le.trans hreached
  reports_le width hwidth := (h.reports_le width hwidth).trans hreached
  replies_le width hwidth := (h.replies_le width hwidth).trans hreached
  one_le_opened i := (h.one_le_opened i).trans (hopened i)
  one_le_reached := h.one_le_reached.trans hreached

theorem note_eq {i : ι} {after : RegionState} {op : Op} :
    ∃ opened reached, net.note region i after op = { net with opened := opened, reached := reached } ∧
      (∀ j, net.opened j ≤ opened j) ∧ net.reached ≤ reached ∧
      ((net.record region i).targetShards < after.targetShards → after.targetShards ≤ opened i) ∧
      ((∃ shard, op = .markShardReady shard) → min after.readyShards (opened i) ≤ reached) := by
  have hgrow : ∀ j, net.opened j ≤ Function.update net.opened i (max (net.opened i) after.targetShards) j := by
    intro j
    by_cases hj : j = i
    · subst hj
      simp
    · simp [hj]
  simp only [note]
  split_ifs with hwider
  · cases op with
    | markShardReady shard => exact ⟨_, _, rfl, hgrow, le_max_left _ _, by simp, by simp⟩
    | _ => exact ⟨_, _, rfl, hgrow, le_rfl, by simp, by simp⟩
  · cases op with
    | markShardReady shard =>
      exact ⟨_, _, rfl, fun _ => le_rfl, le_max_left _ _, fun h => absurd h hwider, by simp⟩
    | _ => exact ⟨_, _, rfl, fun _ => le_rfl, le_rfl, fun h => absurd h hwider, by simp⟩

end Network

namespace RegionState

theorem adoptShardWidth_own {state : RegionState} {configuredMax : ℕ} {now : ℤ} {width : Option ℚ} :
    (state.adoptShardWidth configuredMax now width).ownWidth = state.ownWidth := by
  simp only [adoptShardWidth]
  split
  · rfl
  · split_ifs <;> rfl

theorem capped_le {configuredMax width adopted : ℕ} (h : capped configuredMax (some (width : ℚ)) = some adopted) :
    adopted ≤ width := by
  simp only [capped] at h
  split_ifs at h <;> obtain rfl := Option.some.inj h <;> simp

theorem take_own_le (state : RegionState) (configuredMax : ℕ) (op : Op) :
    (state.take configuredMax op).ownWidth ≤ state.ownWidth ∨
      ((state.take configuredMax op).ownWidth = (state.take configuredMax op).targetShards ∧
        state.targetShards < (state.take configuredMax op).targetShards) := by
  have hwiden {after : RegionState} (h : Widened state after) : after.ownWidth ≤ state.ownWidth ∨
        (after.ownWidth = after.targetShards ∧ state.targetShards < after.targetShards) := by
    obtain ⟨-, ⟨-, hown⟩ | ⟨htarget, hown⟩⟩ := h
    · exact .inl hown.le
    · exact .inr (by omega)
  cases op with
  | expand now => exact hwiden widened_expand
  | reportEngineRate now rate => exact hwiden widened_reportEngineRate
  | noteRegionWide now agoMs => exact hwiden widened_noteRegionWide
  | reportEngineLoad now depth => exact hwiden widened_reportEngineLoad
  | reportEngineLatency now rpcMs => exact hwiden widened_reportEngineLatency
  | takeWarmTarget => exact .inl le_rfl
  | markShardReady shard => exact .inl markShardReady_own.le
  | unmarkPending =>
    refine .inl ?_
    simp only [RegionState.take, unmarkPending]
    split_ifs <;> simp
  | adoptShardWidth now width => exact .inl adoptShardWidth_own.le
  | pickShard now maxShards =>
    refine .inl ?_
    simp only [RegionState.take, settle, clamp, contract]
    split_ifs <;> simp

end RegionState

namespace Network

variable {net : Network ι} {region : String}

theorem Uninflated.own (h : net.Uninflated region) {i : ι} {op : Op}
    (hnot : ∀ now width, op ≠ .adoptShardWidth now width) :
    ((net.note region i (((net.isolates i).apply (region, op)).stateFor region) op).setIsolate i
      ((net.isolates i).apply (region, op))).Uninflated region := by
  generalize hstate : ((net.isolates i).apply (region, op)).stateFor region = after
  obtain ⟨opened, reached, hnote, hopened, hreached, hwider, hmark⟩ :
      ∃ opened reached, net.note region i after op = { net with opened := opened, reached := reached } ∧
        (∀ j, net.opened j ≤ opened j) ∧ net.reached ≤ reached ∧
        ((net.record region i).targetShards < after.targetShards → after.targetShards ≤ opened i) ∧
        ((∃ shard, op = .markShardReady shard) → min after.readyShards (opened i) ≤ reached) := note_eq
  have hbounded : after.Bounded := hstate ▸ apply_bounded (h.bounded i)
  have htake : after = (net.record region i).take ((net.isolates i).configure op).configuredMax op := by
    rw [← hstate, apply_stateFor, if_pos rfl, record]
  have hown : after.ownWidth ≤ opened i := by
    obtain hle | ⟨heq, hlt⟩ := take_own_le (net.record region i) ((net.isolates i).configure op).configuredMax op
    · exact htake ▸ hle.trans ((h.own_le i).trans (hopened i))
    · rw [← htake] at heq hlt
      exact heq ▸ hwider hlt
  have hready : after.readyShards ≤ reached := by
    obtain hle | ⟨shard, hop⟩ | ⟨now, width, _, hop, -⟩ :=
      take_ready_le (net.record region i) ((net.isolates i).configure op).configuredMax op
    · exact htake ▸ hle.trans ((h.ready_le i).trans hreached)
    · -- a mark that widens the draw does so up to a target of the isolate's own
      by_cases hwidened : (net.record region i).readyShards < after.readyShards
      · have hpending : (net.record region i).readyShards < (net.record region i).targetShards := by
          subst hop
          rw [htake] at hwidened
          simp only [RegionState.take, markShardReady_ready] at hwidened
          omega
        have htarget : after.readyShards ≤ opened i := by
          have hsame : after.targetShards = (net.record region i).targetShards := by
            subst hop
            rw [htake]
            exact markShardReady_target
          have h1 := hbounded.ready_le_target
          have h2 := (h.bounded i).target_le_own hpending
          have h3 := h.own_le i
          have h4 := hopened i
          omega
        have := hmark ⟨shard, hop⟩
        omega
      · have := h.ready_le i
        omega
    · exact absurd hop (hnot now width)
  rw [hnote]
  exact (h.grow hopened hreached).setIsolate (hstate ▸ hbounded) (hstate ▸ hown) (hstate ▸ hready)

theorem Uninflated.step (h : net.Uninflated region) {event : Event ι} {net' : Network ι}
    (hstep : net.step region event = some net') : net'.Uninflated region := by
  cases event with
  | own i r op =>
    by_cases hr : r = region
    · subst hr
      by_cases hadopt : ∃ now width, op = .adoptShardWidth now width
      · obtain ⟨now, width, rfl⟩ := hadopt
        simp [Network.step] at hstep
      · have hnot : ∀ now width, op ≠ .adoptShardWidth now width :=
          fun now width hop => hadopt ⟨now, width, hop⟩
        have hnet : net' = (net.note r i (((net.isolates i).apply (r, op)).stateFor r) op).setIsolate i
            ((net.isolates i).apply (r, op)) := by
          cases op <;> simp_all [Network.step]
        exact hnet ▸ h.own hnot
    · have hnet : net' = net.setIsolate i ((net.isolates i).apply (r, op)) := by
        cases op <;> simp_all [Network.step]
      have hsame : ((net.isolates i).apply (r, op)).stateFor region = net.record region i := by
        rw [apply_stateFor, if_neg (Ne.symm hr), record]
      exact hnet ▸ h.setIsolate (hsame ▸ h.bounded i) (hsame ▸ h.own_le i) (hsame ▸ h.ready_le i)
  | report i =>
    obtain rfl := Option.some.inj hstep
    have hwidth : (net.isolates i).currentShardWidth region ≤ net.reached :=
      (min_le_right _ _).trans (h.ready_le i)
    exact { h with reports_le := List.forall_mem_cons.mpr ⟨hwidth, h.reports_le⟩ }
  | fold width now =>
    simp only [Network.step] at hstep
    split_ifs at hstep with hsent
    obtain rfl := Option.some.inj hstep
    have hfold : (foldWidthAnnouncement net.announced (some width) now WIDTH_TTL_MS).shards ≤ net.reached := by
      have hmem := fold_shards net.announced width now WIDTH_TTL_MS
      simp only [List.mem_cons, List.not_mem_nil, or_false] at hmem
      obtain hsame | hsame | hsame := hmem <;> rw [hsame]
      · exact h.announced_le
      · exact h.reports_le width hsent
      · exact h.one_le_reached
    exact { h with
      announced_le := hfold
      replies_le := List.forall_mem_cons.mpr ⟨hfold, h.replies_le⟩ }
  | adopt i width now =>
    simp only [Network.step] at hstep
    split_ifs at hstep with hsent
    obtain rfl := Option.some.inj hstep
    refine h.setIsolate (apply_bounded (h.bounded i)) ?_ ?_
    · rw [apply_stateFor, if_pos rfl]
      exact adoptShardWidth_own.trans_le (h.own_le i)
    · rw [apply_stateFor, if_pos rfl]
      obtain hle | ⟨_, hop⟩ | ⟨_, _, adopted, hop, hcapped, -, hready⟩ :=
        take_ready_le ((net.isolates i).stateFor region)
          ((net.isolates i).configure (.adoptShardWidth now (some width))).configuredMax
          (.adoptShardWidth now (some width))
      · exact hle.trans (h.ready_le i)
      · cases hop
      · obtain ⟨rfl, rfl⟩ := Op.adoptShardWidth.inj hop
        rw [hready]
        exact (capped_le hcapped).trans (h.replies_le width hsent)
  | evictObject =>
    obtain rfl := Option.some.inj hstep
    exact { h with announced_le := h.one_le_reached }
  | evictIsolate i =>
    obtain rfl := Option.some.inj hstep
    exact h.setIsolate .fresh (h.one_le_opened i) h.one_le_reached

/-- **Over every interleaving, no announcement, no message in flight and no isolate's ready width
    exceeds the greatest width that some isolate opened by its own expansion and marked ready.** -/
theorem widths_not_inflated {events : List (Event ι)}
    (h : Runs.Reaches (fun net => net.step region) Network.start events net) :
    net.announced.shards ≤ net.reached ∧ (∀ width ∈ net.reports, width ≤ net.reached) ∧
      (∀ width ∈ net.replies, width ≤ net.reached) ∧
      ∀ i, ((net.isolates i).stateFor region).readyShards ≤ net.reached := by
  have hinv : net.Uninflated region :=
    h.stateInvariant (P := fun net : Network ι => net.Uninflated region) Uninflated.start
      fun hnet hstep => hnet.step hstep
  exact ⟨hinv.announced_le, hinv.reports_le, hinv.replies_le, hinv.ready_le⟩

/-- One isolate opens and warms a shard; the other hears of it through the object. -/
def heard : List (Event Bool) :=
  [.own true "wnam" (.reportEngineRate 100000 60), .own true "wnam" (.markShardReady 1), .report true,
   .fold 2 102000, .adopt false 2 102100]

theorem heard_not_inflated :
    ∃ net : Network Bool,
      Runs.run (fun net : Network Bool => net.step "wnam") Network.start heard = some net ∧
      ((net.isolates false).stateFor "wnam").readyShards = 2 ∧
      ((net.isolates false).stateFor "wnam").readyShards ≤ net.reached := by
  have hrun : (Runs.run (fun net : Network Bool => net.step "wnam") Network.start heard).map
      (fun net => ((net.isolates false).stateFor "wnam").readyShards) = some 2 := by
    decide +kernel
  obtain ⟨net, hnet, hready⟩ := Option.map_eq_some_iff.mp hrun
  exact ⟨net, hnet, hready, (widths_not_inflated (Runs.reaches_iff.mpr hnet)).2.2.2 false⟩

end Network

end Shards
