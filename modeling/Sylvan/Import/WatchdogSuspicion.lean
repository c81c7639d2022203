-- SUMMARY: When a coordinator that does not answer is replaced: the suspect mark over runs of checks.
import Sylvan.Import.WatchdogRun

/-!
# The suspect mark

A first missed check marks the coordinator and a second one replaces it; an answer clears the
mark. A check that fails otherwise leaves an earlier one's mark standing.
-/

namespace Watchdog

def Tick.missed (tick : Tick) : Bool :=
  tick.status = .unresponsive || (decideWatchdog tick.status tick.now none = .kick && tick.kick = .timeout)

def Tick.failed (tick : Tick) : Bool :=
  tick.status = .error || (decideWatchdog tick.status tick.now none = .kick && tick.kick = .threw)

def World.isSuspect (w : World) : Bool := w.pointer.suspectSince.isSome

/-- A step in which no check fails while the coordinator is suspect. -/
def World.steadyStep (w : World) (tick : Tick) : Option World :=
  if w.isSuspect && tick.failed then none else w.step tick

theorem suspectSince_releaseRetired {kv : Option RawPointer} {p : CoordinatorPointer} {released : String → Bool} :
    (releaseRetired kv p released).2.suspectSince = p.suspectSince := by
  unfold releaseRetired
  dsimp only
  split_ifs <;> rfl

theorem suspectSince_run {kv : Option RawPointer} {p p' : CoordinatorPointer} {tick : Tick} (h : Good p)
    (hread : readPointer kv = some p) (hmissed : tick.missed = false)
    (hafter : readPointer (runImportWatchdog kv tick).1 = some p') (hmarked : p'.suspectSince.isSome = true) :
    tick.failed = true ∧ p.suspectSince.isSome = true := by
  obtain ⟨hread₁, hkept⟩ := releaseRetired_spec h hread tick.released
  have hgood := h.kept hkept
  have hmark := @suspectSince_releaseRetired kv p tick.released
  simp only [runImportWatchdog, hread] at hafter
  generalize releaseRetired kv p tick.released = start at *
  obtain ⟨kv₁, p₁⟩ := start
  simp only at hread₁ hmark hafter hgood
  have hkeeps : readPointer kv₁ = some p' → p.suspectSince.isSome = true := by
    intro hsame
    rw [← hmark, Option.some.inj (hread₁.symm.trans hsame)]
    exact hmarked
  have hcleared : readPointer (if p₁.suspectSince.isSome = true
      then some ({ p₁ with suspectSince := none } : CoordinatorPointer).stringify else kv₁) ≠ some p' := by
    intro hsame
    split_ifs at hsame with hsuspect
    · have hread₂ : readPointer (some ({ p₁ with suspectSince := none } : CoordinatorPointer).stringify) =
          some { p₁ with suspectSince := none } :=
        readPointer_stringify ⟨hgood.named, hgood.retiring_older, hgood.unlisted⟩
      obtain rfl := Option.some.inj (hread₂.symm.trans hsame)
      cases hmarked
    · rw [hmark] at hsuspect
      exact hsuspect (hkeeps hsame)
  cases hstatus : tick.status with
  | unresponsive => simp [Tick.missed, hstatus] at hmissed
  | error =>
    simp only [afterKick, hstatus, decideWatchdog, StatusAnswer.isAnswered] at hafter
    exact ⟨by simp [Tick.failed, hstatus], hkeeps (by simpa using hafter)⟩
  | answered status =>
    have hsame : decideWatchdog (.answered status) tick.now p₁.suspectSince =
        decideWatchdog (.answered status) tick.now none := rfl
    simp only [Tick.missed, Tick.failed, hstatus] at hmissed ⊢
    simp only [afterKick, hstatus, hsame, StatusAnswer.isAnswered] at hafter
    cases hdecide : decideWatchdog (.answered status) tick.now none with
    | none =>
      rw [hdecide] at hafter
      exact absurd hafter hcleared
    | suspect => exact absurd hdecide (by unfold decideWatchdog; grind)
    | kick =>
      simp only [hdecide] at hafter hmissed ⊢
      cases hkick : tick.kick with
      | answered =>
        rw [hkick] at hafter
        exact absurd hafter hcleared
      | timeout => simp [hkick] at hmissed
      | threw =>
        rw [hkick] at hafter
        exact ⟨rfl, hkeeps hafter⟩
    | failover =>
      simp only [hdecide] at hafter
      by_cases hcap : (p₁.failovers.filter (· > tick.now - DAY_MS)).length ≥ MAX_FAILOVERS_PER_DAY
      · rw [if_pos hcap] at hafter
        exact absurd hafter hcleared
      · rw [if_neg hcap] at hafter
        cases hnext : nextPointer p₁ tick.now with
        | none =>
          rw [hnext] at hafter
          exact absurd hafter hcleared
        | some next =>
          rw [hnext] at hafter
          obtain rfl := Option.some.inj ((readPointer_stringify (nextPointer_good hgood hnext).1).symm.trans hafter)
          obtain ⟨_, -, rfl⟩ := Option.map_eq_some_iff.mp hnext
          cases hmarked

theorem isSuspect_of_failover {w : World} {tick : Tick} (h : w.Sound) (hmissed : tick.missed = true)
    (hfailover : (runImportWatchdog w.kv tick).2 = some .failover) : w.isSuspect = true := by
  have hmark := @suspectSince_releaseRetired w.kv w.pointer tick.released
  simp only [runImportWatchdog, h.read] at hfailover
  generalize releaseRetired w.kv w.pointer tick.released = start at *
  obtain ⟨kv₁, p₁⟩ := start
  rw [World.isSuspect, ← hmark]
  by_contra hnone
  have hnone : p₁.suspectSince = none := by simpa using hnone
  have hafter : afterKick tick none = some (.unresponsive, .suspect) := by
    unfold afterKick
    rcases Bool.or_eq_true_iff.mp hmissed with hstatus | hkick
    · rw [of_decide_eq_true hstatus]
      rfl
    · obtain ⟨hdecide, hkick⟩ := Bool.and_eq_true_iff.mp hkick
      rw [of_decide_eq_true hdecide, of_decide_eq_true hkick]
      rfl
  simp only [hnone, hafter] at hfailover
  cases hfailover

def missedAt (now : ℤ) : Tick := ⟨now, fun _ => false, .unresponsive, .timeout⟩

end Watchdog
