-- SUMMARY: The watchdog's pointer over every run of ticks: epochs, the failover cap, and the retiring list.
import Sylvan.Import.Watchdog

/-!
# The pointer over ticks

A coordinator's name determines the epoch it was designated at, so the pointer's name is
never one of those it replaced. The ledger of epochs never counts fewer failovers in a
day than the clock saw.
-/

namespace Watchdog

/-! ## Names -/

/-- The name a coordinator designated at `epoch` has; the original one is of epoch zero. -/
def Designates (epoch : ℤ) (name : String) : Prop :=
  (epoch = 0 ∧ name = LEGACY_COORDINATOR_NAME) ∨ coordinatorNameAt epoch = some name

variable {name : String}

theorem coordinatorNameAt_ne_legacy {epoch : ℤ} (h : coordinatorNameAt epoch = some name) :
    name ≠ LEGACY_COORDINATOR_NAME ∧ name ≠ "" := by
  obtain ⟨date, -, rfl⟩ := Option.map_eq_some_iff.mp h
  constructor
  · intro heq
    have := congrArg (fun s : String => s.toList.head?) heq
    simp [LEGACY_COORDINATOR_NAME] at this
  · intro heq
    have := congrArg String.toList heq
    simp at this

theorem coordinatorNameAt_injective {e e' : ℤ} (h : coordinatorNameAt e = some name)
    (h' : coordinatorNameAt e' = some name) : e = e' := by
  obtain ⟨date, hdate, hname⟩ := Option.map_eq_some_iff.mp h
  obtain ⟨date', hdate', hname'⟩ := Option.map_eq_some_iff.mp h'
  have hsame : date = date' := by
    have := congrArg String.toList (hname.trans hname'.symm)
    simpa [String.toList_inj] using this
  exact Calendar.toISOString_injective hdate (hsame ▸ hdate')

theorem Designates.unique {e e' : ℤ} (h : Designates e name) (h' : Designates e' name) : e = e' := by
  obtain ⟨rfl, rfl⟩ | h := h
  · obtain ⟨rfl, -⟩ | h' := h'
    · rfl
    · exact absurd rfl (coordinatorNameAt_ne_legacy h').1
  · obtain ⟨rfl, rfl⟩ | h' := h'
    · exact absurd rfl (coordinatorNameAt_ne_legacy h).1
    · exact coordinatorNameAt_injective h h'

theorem Designates.ne_empty {e : ℤ} (h : Designates e name) : name ≠ "" := by
  obtain ⟨-, rfl⟩ | h := h
  · decide
  · exact (coordinatorNameAt_ne_legacy h).2

/-! ## Pointers the watchdog writes -/

structure Good (p : CoordinatorPointer) : Prop where
  named : Designates p.epoch p.name
  retiring_older : ∀ name ∈ p.retiring.getD [], ∃ epoch < p.epoch, Designates epoch name
  /-- Only the original line has no list. -/
  unlisted : p.retiring = none → p.epoch = 0

theorem Good.legacy : Good LEGACY_POINTER := ⟨.inl ⟨rfl, rfl⟩, by simp [LEGACY_POINTER], fun _ => rfl⟩

variable {p : CoordinatorPointer}

theorem Good.name_not_retiring (h : Good p) : p.name ∉ p.retiring.getD [] := by
  intro hin
  obtain ⟨epoch, hlt, hname⟩ := h.retiring_older p.name hin
  have := h.named.unique hname
  omega

theorem readPointer_stringify (h : Good p) : readPointer (some p.stringify) = some p := by
  have hname := h.named.ne_empty
  have hnot := h.name_not_retiring
  have hunlisted := h.unlisted
  obtain ⟨name, epoch, failovers, previous, suspectSince, retiring⟩ := p
  simp only at hname hnot hunlisted
  cases retiring with
  | none =>
    obtain rfl := hunlisted rfl
    simp [readPointer, CoordinatorPointer.stringify, hname, replacedBefore]
  | some names =>
    have hfilter : names.filter (· ≠ name) = names := by
      refine List.filter_eq_self.mpr fun other hin => ?_
      simp only [ne_eq, decide_not, Bool.not_eq_true', decide_eq_false_iff_not]
      rintro rfl
      exact hnot hin
    simp [readPointer, CoordinatorPointer.stringify, hname] at hfilter ⊢
    exact hfilter

/-! ## One tick -/

/-- The pointer keeps its line; of the retiring list the released names are gone. -/
structure Kept (released : String → Bool) (p p' : CoordinatorPointer) : Prop where
  name_eq : p'.name = p.name
  epoch_eq : p'.epoch = p.epoch
  failovers_eq : p'.failovers = p.failovers
  retiring_eq : p'.retiring.getD [] = (p.retiring.getD []).filter (!released ·)
  unlisted : p'.retiring = none → p.retiring = none

theorem Good.kept {released : String → Bool} {p p' : CoordinatorPointer} (h : Good p)
    (hkept : Kept released p p') : Good p' where
  named := by rw [hkept.epoch_eq, hkept.name_eq]; exact h.named
  retiring_older name hin := by
    rw [hkept.retiring_eq] at hin
    rw [hkept.epoch_eq]
    exact h.retiring_older name (List.mem_of_mem_filter hin)
  unlisted hnone := by rw [hkept.epoch_eq]; exact h.unlisted (hkept.unlisted hnone)

theorem releaseRetired_spec {kv : Option RawPointer} (h : Good p)
    (hread : readPointer kv = some p) (released : String → Bool) :
    readPointer (releaseRetired kv p released).1 = some (releaseRetired kv p released).2 ∧
      Kept released p (releaseRetired kv p released).2 := by
  simp only [releaseRetired]
  split_ifs with hsame
  · refine ⟨hread, rfl, rfl, rfl, ?_, id⟩
    obtain hnil | hlength := hsame
    · simp [hnil]
    · exact (List.length_filter_eq_length_iff.mp hlength |> List.filter_eq_self.mpr).symm
  · have hkept : Kept released p { p with retiring := some ((p.retiring.getD []).filter (!released ·)) } :=
      ⟨rfl, rfl, rfl, rfl, by simp⟩
    exact ⟨readPointer_stringify (h.kept hkept), hkept⟩

/-- What a tick leaves: the same line, or a failover from it. -/
inductive Ticked (p : CoordinatorPointer) (tick : Tick) : Option RawPointer × Option WatchdogAction → Prop
  | kept {kv : Option RawPointer} {p' : CoordinatorPointer} {action : Option WatchdogAction}
      (hread : readPointer kv = some p') (hkept : Kept tick.released p p')
      (haction : action ≠ some .failover) : Ticked p tick (kv, action)
  | failover {p₁ p' : CoordinatorPointer} (hkept : Kept tick.released p p₁)
      (hcap : (p.failovers.filter (· > tick.now - DAY_MS)).length < MAX_FAILOVERS_PER_DAY)
      (hnext : nextPointer p₁ tick.now = some p') : Ticked p tick (some p'.stringify, some .failover)

theorem runImportWatchdog_spec {kv : Option RawPointer} (h : Good p)
    (hread : readPointer kv = some p) (tick : Tick) : Ticked p tick (runImportWatchdog kv tick) := by
  obtain ⟨hread₁, hkept₁⟩ := releaseRetired_spec h hread tick.released
  simp only [runImportWatchdog, hread]
  generalize releaseRetired kv p tick.released = released at hread₁ hkept₁ ⊢
  obtain ⟨kv₁, p₁⟩ := released
  simp only at hread₁ hkept₁ ⊢
  have hsuspect (suspectSince : Option ℤ) : Kept tick.released p { p₁ with suspectSince := suspectSince } :=
    ⟨hkept₁.name_eq, hkept₁.epoch_eq, hkept₁.failovers_eq, hkept₁.retiring_eq, hkept₁.unlisted⟩
  have hwrite (suspectSince : Option ℤ) :
      readPointer (some ({ p₁ with suspectSince := suspectSince } : CoordinatorPointer).stringify) =
        some { p₁ with suspectSince := suspectSince } :=
    readPointer_stringify (h.kept (hsuspect suspectSince))
  cases hafter : afterKick tick p₁.suspectSince with
  | none => exact .kept hread₁ hkept₁ (by simp)
  | some result =>
    obtain ⟨status, action⟩ := result
    simp only
    -- a cleared suspect mark leaves the line as it is
    have hclear : ∃ p₂, readPointer (if (status.isAnswered && p₁.suspectSince.isSome) = true
        then some ({ p₁ with suspectSince := none } : CoordinatorPointer).stringify else kv₁) = some p₂ ∧
        Kept tick.released p p₂ := by
      split_ifs
      · exact ⟨_, hwrite none, hsuspect none⟩
      · exact ⟨_, hread₁, hkept₁⟩
    obtain ⟨p₂, hread₂, hkept₂⟩ := hclear
    generalize (if (status.isAnswered && p₁.suspectSince.isSome) = true
        then some ({ p₁ with suspectSince := none } : CoordinatorPointer).stringify else kv₁) = kv₂
      at hread₂ ⊢
    cases action with
    | none => exact .kept hread₂ hkept₂ (by simp)
    | kick => exact .kept hread₂ hkept₂ (by simp)
    | suspect => exact .kept (hwrite _) (hsuspect _) (by simp)
    | failover =>
      simp only
      split_ifs with hcap
      · exact .kept hread₂ hkept₂ (by simp)
      · cases hnext : nextPointer p₁ tick.now with
        | none => exact .kept hread₂ hkept₂ (by simp)
        | some next =>
          refine .failover hkept₁ ?_ hnext
          rw [hkept₁.failovers_eq] at hcap
          omega

theorem nextPointer_good {p p' : CoordinatorPointer} {now : ℤ} (h : Good p) (hnext : nextPointer p now = some p') :
    Good p' ∧ p.epoch < p'.epoch ∧ now ≤ p'.epoch ∧ p'.failovers = p.failovers.filter (· > now - DAY_MS) ++ [p'.epoch] ∧
      ∀ name, name ∈ p'.retiring.getD [] ↔ name ∈ p.retiring.getD [] ∨ name = p.name := by
  obtain ⟨name, hname, rfl⟩ := Option.map_eq_some_iff.mp hnext
  have hretiring : ∀ other, other ∈ JsSet.of (p.retiring.getD [] ++ [p.name]) ↔
      other ∈ p.retiring.getD [] ∨ other = p.name := by simp
  have hlt : p.epoch < max now (p.epoch + 1) := lt_max_of_lt_right (lt_add_one _)
  refine ⟨⟨.inr hname, ?_, by simp⟩, hlt, le_max_left _ _, rfl, hretiring⟩
  intro other hin
  obtain hin | rfl := (hretiring other).mp hin
  · obtain ⟨epoch, hold, hother⟩ := h.retiring_older other hin
    exact ⟨epoch, hold.trans hlt, hother⟩
  · exact ⟨p.epoch, hlt, h.named⟩

/-! ## Runs -/

structure World.Sound (w : World) : Prop where
  read : readPointer w.kv = some w.pointer
  good : Good w.pointer
  /-- A replaced coordinator is on the list, or has been released. -/
  listed : ∀ name ∈ w.replaced, name ∈ w.pointer.retiring.getD [] ∨ name ∈ w.released
  /-- An epoch is no earlier than its failover, and no failover later than the clock. -/
  timed : ∀ failover ∈ w.failovers, failover.1 ≤ failover.2 ∧ failover.1 ≤ w.clock
  /-- From now on the ledger has every epoch of the last day. -/
  ledger : ∀ now ≥ w.clock, w.pointer.failovers.filter (· > now - DAY_MS) =
    (w.failovers.map Prod.snd).filter (· > now - DAY_MS)
  capped : ∀ since, w.failovers.countP (fun failover => since < failover.1 ∧ failover.1 ≤ since + DAY_MS) ≤
    MAX_FAILOVERS_PER_DAY

theorem World.Sound.start : World.start.Sound where
  read := rfl
  good := .legacy
  listed := by simp [World.start]
  timed := by simp [World.start]
  ledger := by simp [World.start, World.pointer, readPointer, LEGACY_POINTER]
  capped := by simp [World.start]

theorem World.Sound.recent_le {w : World} (h : w.Sound) {now : ℤ} (hnow : w.clock ≤ now) :
    w.failovers.countP (fun failover => now - DAY_MS < failover.1) ≤
      (w.pointer.failovers.filter (· > now - DAY_MS)).length := by
  rw [h.ledger now hnow, ← List.countP_eq_length_filter, List.countP_map]
  refine List.countP_mono_left fun failover hin hlate => ?_
  have := (h.timed failover hin).1
  simp only [decide_eq_true_eq, Function.comp_apply, gt_iff_lt] at hlate ⊢
  omega

theorem capped_append {failovers : List (ℤ × ℤ)} {now epoch : ℤ}
    (hcapped : ∀ since, failovers.countP (fun failover => since < failover.1 ∧ failover.1 ≤ since + DAY_MS) ≤
      MAX_FAILOVERS_PER_DAY)
    (hroom : failovers.countP (fun failover => now - DAY_MS < failover.1) < MAX_FAILOVERS_PER_DAY) (since : ℤ) :
    (failovers ++ [(now, epoch)]).countP (fun failover => since < failover.1 ∧ failover.1 ≤ since + DAY_MS) ≤
      MAX_FAILOVERS_PER_DAY := by
  rw [List.countP_append, List.countP_singleton]
  split_ifs with hin
  · have hwindow : failovers.countP (fun failover => since < failover.1 ∧ failover.1 ≤ since + DAY_MS) ≤
        failovers.countP (fun failover => now - DAY_MS < failover.1) := by
      refine List.countP_mono_left fun failover _ hlate => ?_
      simp only [decide_eq_true_eq] at hin hlate ⊢
      omega
    omega
  · exact hcapped since

theorem World.Sound.step {w w' : World} {tick : Tick} (h : w.Sound) (hstep : w.step tick = some w') : w'.Sound ∧
      ((runImportWatchdog w.kv tick).2 = some .failover → w.pointer.epoch < w'.pointer.epoch) ∧
      ((runImportWatchdog w.kv tick).2 ≠ some .failover → w'.pointer.epoch = w.pointer.epoch) := by
  have hclock : w.clock ≤ tick.now := by
    by_contra hlt
    simp [World.step, not_le.mp hlt] at hstep
  have hticked := runImportWatchdog_spec h.good h.read tick
  simp only [World.step, not_lt.mpr hclock, if_false, Option.some.injEq] at hstep
  generalize hresult : runImportWatchdog w.kv tick = result at hticked hstep
  have hreleased (name : String) : name ∈ w.pointer.retiring.getD [] →
      name ∈ (w.pointer.retiring.getD []).filter (!tick.released ·) ∨
        name ∈ w.released ++ (w.pointer.retiring.getD []).filter tick.released := by
    intro hin
    cases hanswer : tick.released name with
    | true => exact .inr (List.mem_append_right _ (List.mem_filter.mpr ⟨hin, hanswer⟩))
    | false => exact .inl (List.mem_filter.mpr ⟨hin, by simp [hanswer]⟩)
  cases hticked with
  | @kept kv p' action hread hkept haction =>
    simp only [haction, if_false] at hstep
    subst hstep
    have hpointer : (⟨kv, tick.now, w.replaced, w.released ++ (w.pointer.retiring.getD []).filter tick.released,
        w.failovers⟩ : World).pointer = p' := by
      simp [World.pointer, hread]
    refine ⟨⟨by rw [hpointer]; exact hread, hpointer ▸ h.good.kept hkept, ?_, ?_, ?_, h.capped⟩, ?_, ?_⟩
    · intro name hin
      rw [hpointer, hkept.retiring_eq]
      obtain hlisted | hdone := h.listed name hin
      · exact hreleased name hlisted
      · exact .inr (List.mem_append_left _ hdone)
    · intro failover hin
      exact ⟨(h.timed failover hin).1, (h.timed failover hin).2.trans hclock⟩
    · intro now hnow
      rw [hpointer, hkept.failovers_eq]
      exact h.ledger now (hclock.trans hnow)
    · exact fun hfailover => absurd hfailover haction
    · exact fun _ => hpointer ▸ hkept.epoch_eq
  | @failover p₁ p' hkept hcap hnext =>
    obtain ⟨hgood, hepoch, hlate, hledger, hretiring⟩ := nextPointer_good (h.good.kept hkept) hnext
    simp only [if_true] at hstep
    subst hstep
    have hread : readPointer (some p'.stringify) = some p' := readPointer_stringify hgood
    have hpointer (replaced released : List String) (failovers : List (ℤ × ℤ)) :
        (⟨some p'.stringify, tick.now, replaced, released, failovers⟩ : World).pointer = p' := by
      simp [World.pointer, hread]
    refine ⟨⟨hread.trans (congrArg some (hpointer _ _ _).symm), (hpointer _ _ _).symm ▸ hgood, ?_, ?_, ?_, ?_⟩, ?_, ?_⟩
    · intro name hin
      rw [hpointer, hretiring, hkept.retiring_eq, hkept.name_eq]
      obtain hold | hnew := List.mem_append.mp hin
      · obtain hlisted | hdone := h.listed name hold
        · obtain hstays | hreleasedNow := hreleased name hlisted
          · exact .inl (.inl hstays)
          · exact .inr hreleasedNow
        · exact .inr (List.mem_append_left _ hdone)
      · exact .inl (.inr (List.mem_singleton.mp hnew))
    · intro failover hin
      obtain hold | hnew := List.mem_append.mp hin
      · exact ⟨(h.timed failover hold).1, (h.timed failover hold).2.trans hclock⟩
      · obtain rfl := List.mem_singleton.mp hnew
        exact ⟨by simpa [hpointer] using hlate, le_rfl⟩
    · intro now hnow
      have hnow : tick.now ≤ now := hnow
      have hprune : (w.pointer.failovers.filter (· > tick.now - DAY_MS)).filter (· > now - DAY_MS) =
          w.pointer.failovers.filter (· > now - DAY_MS) := by
        rw [List.filter_filter]
        refine List.filter_congr fun epoch _ => ?_
        simp only [gt_iff_lt, Bool.and_eq_decide, decide_eq_decide]
        simp only [decide_eq_true_eq]
        omega
      rw [hpointer, hledger, hkept.failovers_eq]
      simp only [List.filter_append, List.map_append, hprune, h.ledger now (hclock.trans hnow), hpointer,
        List.map_cons, List.map_nil]
    · exact capped_append h.capped ((h.recent_le hclock).trans_lt hcap)
    · intro _
      rw [hpointer]
      rw [hkept.epoch_eq] at hepoch
      exact hepoch
    · exact fun hnot => absurd rfl hnot

/-- **After any ticks, one at a time: the current coordinator is not on the retiring list; every coordinator
    replaced is on it or has been released; no day holds more failovers than the cap; and the next
    tick raises the stored epoch when it fails over, and keeps it when it does not.** -/
theorem watchdog_sound {ticks : List Tick} {w : World} (h : Runs.Reaches World.step World.start ticks w) :
    w.pointer.name ∉ w.pointer.retiring.getD [] ∧
    (∀ name ∈ w.replaced, name ∈ w.pointer.retiring.getD [] ∨ name ∈ w.released) ∧
    (∀ since, w.failovers.countP (fun failover => since < failover.1 ∧ failover.1 ≤ since + DAY_MS) ≤
      MAX_FAILOVERS_PER_DAY) ∧
    ∀ tick w', w.step tick = some w' →
      ((runImportWatchdog w.kv tick).2 = some .failover → w.pointer.epoch < w'.pointer.epoch) ∧
      ((runImportWatchdog w.kv tick).2 ≠ some .failover → w'.pointer.epoch = w.pointer.epoch) := by
  have hsound : w.Sound := h.stateInvariant (P := World.Sound) .start fun hw hstep => (hw.step hstep).1
  exact ⟨hsound.good.name_not_retiring, hsound.listed, hsound.capped, fun tick w' hstep => (hsound.step hstep).2⟩

/-- A wedged coordinator: suspect, replaced ten minutes later, and not released. -/
def wedged : List Tick :=
  [⟨1790163198250, fun _ => false, .unresponsive, .timeout⟩, ⟨1790163798250, fun _ => false, .unresponsive, .timeout⟩,
   ⟨1790164398250, fun _ => false, .answered ⟨.running, 1790164390000, none⟩, .answered⟩]

theorem watchdog_sound_wedged :
    ∃ w, Runs.run World.step World.start wedged = some w ∧ w.replaced = ["singleton"] ∧
      w.pointer.name ∉ w.pointer.retiring.getD [] := by
  have hrun : (Runs.run World.step World.start wedged).map World.replaced = some ["singleton"] := by
    decide +kernel
  obtain ⟨w, hw, hreplaced⟩ := Option.map_eq_some_iff.mp hrun
  exact ⟨w, hw, hreplaced, (watchdog_sound (Runs.reaches_iff.mpr hw)).1⟩

end Watchdog
