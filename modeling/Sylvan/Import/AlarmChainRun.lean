-- SUMMARY: Runs of the alarm chain: a retiring run puts nothing, never fails, and ends superseded with its staging empty.
import Sylvan.Import.PurgeSlices

/-!
# Retiring runs

Every way out of an alarm either arms the next one or has ended the run. A purge slice empties
the tables from the first on; the transaction that leaves the purge and the superseded record
are separate writes.
-/

namespace AlarmChain

open Calls
open Ends (change change_bind get_bind ret)

/-! ## The invariant -/

/-- In the retire purge, entered after `n` puts. -/
structure InPurge (n : ℕ) (kind : Replacement) (w : World) : Prop where
  entered : w.entered = some (n, kind)
  puts : w.puts = n
  phase : w.phase = .purge_staging
  scope : w.purge_scope = some .retire
  run : w.run = .running
  kind : w.superseded_kind = some kind
  unreleased : w.released = false
  kept : w.releaseAfterAlarm = false

/-- Ended, with the staging tables empty. -/
structure Ended (n : ℕ) (kind : Replacement) (w : World) : Prop where
  entered : w.entered = some (n, kind)
  puts : w.puts = n
  phase : w.phase = .idle
  tables : ∀ table, w.tables table = []
  recorded : w.recorded = true
  run : w.run = .superseded ∧ w.released = false ∨ w.run = .idle ∧ w.released = true ∧ kind ≠ .deploy
  release : w.releaseAfterAlarm = true → kind ≠ .deploy

/-- A retiring run, at any call but the two between the purge and the record. -/
def Retired (n : ℕ) (kind : Replacement) (w : World) : Prop := InPurge n kind w ∨ Ended n kind w

def Settled (n : ℕ) (kind : Replacement) (w : World) : Prop :=
  InPurge n kind w ∧ w.alarmAt.isSome = true ∨ Ended n kind w

structure Unreplaced (w : World) : Prop where
  entered : w.entered = none
  scope : w.purge_scope ≠ some .retire
  recorded : w.recorded = false
  unreleased : w.released = false
  kept : w.releaseAfterAlarm = false

section

variable {a : Alarm} {n : ℕ} {kind : Replacement} {w : World} {site : Site}

variable {Q : Unit → World → Prop}

theorem bookkeep_ends {E : Stop → World → Prop} (hok : Q () w) (hkill : E .killed w) : Ends (bookkeep a site) w Q E := by
  unfold bookkeep
  split_ifs
  · exact Ends.throw hkill
  · exact ret hok

theorem attempt_ends {fate : Fate} {E : Stop → World → Prop} (hok : Q () w)
    (hstop : ∀ stop, E stop w) : Ends (attempt fate) w Q E := by
  cases fate with
  | ok => exact ret hok
  | threw error => exact Ends.throw (hstop _)
  | killed => exact Ends.throw (hstop _)

theorem armAlarm_ends {atMs : ℕ} {E : Stop → World → Prop}
    (hok : Q () { w with alarmAt := some atMs }) (hkill : E .killed w) : Ends (armAlarm a site atMs) w Q E :=
  Ends.bind (bookkeep_ends (change hok) hkill)

/-! ## The retire purge -/

theorem purgeTable_ends {t : PurgeTable} {left freedBytes : ℕ} (h : InPurge n kind w)
    (hleft : (w.tables t.table).length ≤ left) :
    Ends (purgeTable a t none none left freedBytes) w
      (fun freed w' => InPurge n kind w' ∧ (freed < PURGE_SLICE_BYTES → w'.tables t.table = []) ∧
        ∀ table, w.tables table = [] → w'.tables table = [])
      (fun _ w' => InPurge n kind w') := by
  induction left generalizing w freedBytes with
  | zero =>
    refine ret ⟨h, fun _ => ?_, fun _ hempty => hempty⟩
    exact List.eq_nil_of_length_eq_zero (Nat.le_zero.mp hleft)
  | succ left ih =>
    rw [purgeTable]
    refine get_bind ?_
    split_ifs with hbudget
    · cases hslice : purgeSlice t none none (PURGE_SLICE_BYTES - freedBytes) (w.tables t.table) with
      | none => exact ret ⟨h, fun _ => purgeSlice_eq_none hslice, fun _ hempty => hempty⟩
      | some slice =>
        obtain ⟨rows, bytes⟩ := slice
        have hfewer := length_of_purgeSlice hslice
        refine Ends.bind (attempt_ends (change_bind ?_) fun _ => h)
        have hnext : InPurge n kind { w with tables := Function.update w.tables t.table rows } :=
          ⟨h.entered, h.puts, h.phase, h.scope, h.run, h.kind, h.unreleased, h.kept⟩
        have hlength : (Function.update w.tables t.table rows t.table).length ≤ left := by
          rw [Function.update_self]
          omega
        refine (ih hnext hlength).mono (fun freed w' hw' => ⟨hw'.1, hw'.2.1, fun table hempty => ?_⟩) fun _ _ hw' => hw'
        refine hw'.2.2 table ?_
        by_cases htable : table = t.table
        · subst htable
          rw [hempty] at hfewer
          cases hfewer
        · exact (Function.update_of_ne htable _ _).trans hempty
    · exact ret ⟨h, fun hless => absurd hless hbudget, fun _ hempty => hempty⟩

theorem purgeTables_ends {ts : List PurgeTable} {freedBytes : ℕ} (h : InPurge n kind w) :
    Ends (purgeTables a none none ts freedBytes) w
      (fun freed w' => InPurge n kind w' ∧
        (freed < PURGE_SLICE_BYTES → ∀ table, w.tables table = [] ∨ table ∈ ts.map PurgeTable.table → w'.tables table = []))
      (fun _ w' => InPurge n kind w') := by
  induction ts generalizing w freedBytes with
  | nil =>
    refine ret ⟨h, fun _ table hempty => ?_⟩
    simpa using hempty
  | cons t ts ih =>
    rw [purgeTables]
    refine get_bind (Ends.bind ((purgeTable_ends h le_rfl).mono (fun freed w' hw' => ?_) fun _ _ hw' => hw'))
    obtain ⟨hpurge, hemptied, hkept⟩ := hw'
    split_ifs with hspent
    · exact ret ⟨hpurge, fun hless => absurd hless (Nat.not_lt.mpr hspent)⟩
    · refine (ih hpurge).mono (fun freed' w'' hw'' => ⟨hw''.1, fun hless table htable => ?_⟩) fun _ _ hw'' => hw''
      refine hw''.2 hless table ?_
      rw [List.map_cons, List.mem_cons] at htable
      rcases htable with hempty | rfl | htable
      · exact .inl (hkept table hempty)
      · exact .inl (hemptied (Nat.not_le.mp hspent))
      · exact .inr htable

theorem mem_resetTables (table : Table) : table ∈ resetTables.map PurgeTable.table := by
  cases table <;> decide

theorem endSuperseded_ends (hread : a.fate .readRun = .ok) (hwrite : a.fate .writeSuperseded = .ok)
    (h : w.entered = some (n, kind)) (hputs : w.puts = n) (hphase : w.phase = .idle) (htables : ∀ table, w.tables table = [])
    (hkind : w.superseded_kind = some kind) (hreleased : w.released = false) (hkept : w.releaseAfterAlarm = false) :
    Ends (endSuperseded a) w (fun _ => Ended n kind) (fun _ => Ended n kind) := by
  rw [endSuperseded, hread, hwrite]
  refine Ends.bind (ret (Ends.bind (ret (change_bind ?_))))
  have hended : Ended n kind { w with run := .superseded, recorded := true } :=
    ⟨h, hputs, hphase, htables, rfl, .inl ⟨rfl, hreleased⟩, fun hrelease => by rw [hkept] at hrelease; cases hrelease⟩
  refine Ends.bind (attempt_ends (change_bind (change ?_)) fun _ => hended)
  refine ⟨h, hputs, hphase, htables, rfl, .inl ⟨rfl, hreleased⟩, fun hrelease hdeploy => ?_⟩
  rw [hdeploy] at hkind
  simp [hkind] at hrelease

/-- Nothing stops this alarm between the transaction that leaves the retire purge and the superseded record. -/
structure RecordsSuperseded (a : Alarm) : Prop where
  read : a.fate .readRun = .ok
  write : a.fate .writeSuperseded = .ok

theorem finishPurge_ends (ha : RecordsSuperseded a) (h : InPurge n kind w) (htables : ∀ table, w.tables table = []) :
    Ends (finishPurge a .retire none) w (fun _ => Ended n kind) (fun _ => Retired n kind) := by
  refine Ends.bind (attempt_ends (get_bind ?_) fun _ => .inl h)
  dsimp only [leavePurge]
  rw [if_pos rfl]
  have hended : Ends (endSuperseded a) { w with phase := .idle, purge_scope := none } (fun _ => Ended n kind)
      (fun _ => Ended n kind) :=
    endSuperseded_ends ha.read ha.write h.entered h.puts rfl htables h.kind h.unreleased h.kept
  exact hended.mono (fun _ _ hw => hw) fun _ _ hw => .inr hw

theorem stepPurgeStaging_ends (ha : RecordsSuperseded a) (h : InPurge n kind w) :
    Ends (stepPurgeStaging a) w (fun _ => Retired n kind) (fun _ => Retired n kind) := by
  refine get_bind ?_
  rw [h.scope]
  dsimp only [purgeContext, Option.map_none]
  refine Ends.bind ((purgeTables_ends h).mono (fun freed w' hw' => ?_) fun _ _ hw' => .inl hw')
  obtain ⟨hpurge, hempty⟩ := hw'
  have hall : freed < PURGE_SLICE_BYTES → ∀ table, w'.tables table = [] := fun hless table =>
    hempty hless table (.inr (mem_resetTables table))
  by_cases hfreed : 0 < freed
  · rw [if_pos hfreed]
    refine Ends.bind (attempt_ends (change_bind ?_) fun _ => .inl hpurge)
    have hcounted : InPurge n kind { w' with purge_slices := w'.purge_slices + 1 } :=
      ⟨hpurge.entered, hpurge.puts, hpurge.phase, hpurge.scope, hpurge.run, hpurge.kind, hpurge.unreleased, hpurge.kept⟩
    split_ifs with hspent
    · exact ret (.inl hcounted)
    · exact (finishPurge_ends ha hcounted (hall (Nat.not_le.mp hspent))).mono (fun _ _ hw => .inr hw) fun _ _ hw => hw
  · rw [if_neg hfreed]
    have hnone : freed < PURGE_SLICE_BYTES := lt_of_le_of_lt (Nat.not_lt.mp hfreed) (by decide)
    exact (finishPurge_ends ha hpurge (hall hnone)).mono (fun _ _ hw => .inr hw) fun _ _ hw => hw

/-! ## The rest of a retiring run's alarm -/

theorem Retired.rows (h : Retired n kind w) {w' : World} (hentered : w'.entered = w.entered) (hputs : w'.puts = w.puts)
    (hphase : w'.phase = w.phase) (hscope : w'.purge_scope = w.purge_scope) (hrun : w'.run = w.run)
    (hkind : w'.superseded_kind = w.superseded_kind) (htables : w'.tables = w.tables)
    (hrecorded : w'.recorded = w.recorded) (hreleased : w'.released = w.released)
    (hkept : w'.releaseAfterAlarm = w.releaseAfterAlarm) : Retired n kind w' := by
  rcases h with h | h
  · refine .inl ⟨?_, ?_, ?_, ?_, ?_, ?_, ?_, ?_⟩
    · rw [hentered, h.entered]
    · rw [hputs, h.puts]
    · rw [hphase, h.phase]
    · rw [hscope, h.scope]
    · rw [hrun, h.run]
    · rw [hkind, h.kind]
    · rw [hreleased, h.unreleased]
    · rw [hkept, h.kept]
  · refine .inr ⟨?_, ?_, ?_, ?_, ?_, ?_, ?_⟩
    · rw [hentered, h.entered]
    · rw [hputs, h.puts]
    · rw [hphase, h.phase]
    · rw [htables]
      exact h.tables
    · rw [hrecorded, h.recorded]
    · rw [hrun, hreleased]
      exact h.run
    · rw [hkept]
      exact h.release

theorem Retired.settled (h : Retired n kind w) (hwait : w.alarmAt.isSome = true) : Settled n kind w :=
  h.imp (fun hpurge => ⟨hpurge, hwait⟩) id

theorem Settled.retired (h : Settled n kind w) : Retired n kind w := h.imp And.left id

def KilledRetired (n : ℕ) (kind : Replacement) (stop : Stop) (w : World) : Prop := stop = .killed ∧ Retired n kind w

theorem Retired.arm {atMs : ℕ} (h : Retired n kind w) :
    Ends (armAlarm a site atMs) w (fun _ => Settled n kind) (KilledRetired n kind) :=
  armAlarm_ends (Retired.settled (h.rows rfl rfl rfl rfl rfl rfl rfl rfl rfl rfl) rfl) ⟨rfl, h⟩

theorem deferRetire_ends {untilMs : ℕ} (h : Retired n kind w) :
    Ends (deferRetire a untilMs) w (fun _ => Settled n kind) (KilledRetired n kind) := by
  refine Ends.bind (bookkeep_ends (change_bind ?_) ⟨rfl, h⟩)
  have hretries : Retired n kind { w with retries := 0 } := h.rows rfl rfl rfl rfl rfl rfl rfl rfl rfl rfl
  refine Ends.bind (bookkeep_ends (change_bind ?_) ⟨rfl, hretries⟩)
  have hattempts : Retired n kind { w with retries := 0, phase_attempts := 0 } :=
    hretries.rows rfl rfl rfl rfl rfl rfl rfl rfl rfl rfl
  exact hattempts.arm

variable {phase : Phase}

theorem markDirty_ends (h : Retired n kind w) :
    Ends (markDirty a phase) w (fun _ => Retired n kind) (KilledRetired n kind) := by
  unfold markDirty
  split_ifs
  · exact Ends.bind (bookkeep_ends (change (h.rows rfl rfl rfl rfl rfl rfl rfl rfl rfl rfl)) ⟨rfl, h⟩)
  · exact ret h

theorem retrySlice_ends {retries : ℕ} (h : Retired n kind w) :
    Ends (retrySlice a phase retries) w (fun _ => Settled n kind) (KilledRetired n kind) := by
  refine Ends.bind (bookkeep_ends (change_bind (Ends.bind ?_)) ⟨rfl, h⟩)
  have hretries : Retired n kind { w with retries := retries } := h.rows rfl rfl rfl rfl rfl rfl rfl rfl rfl rfl
  exact (markDirty_ends hretries).mono (fun _ _ hw => hw.arm) fun _ _ hw => hw

theorem handled_ends {retiring : Bool} {error : SliceError} {E : Stop → World → Prop}
    (hdefer : retiring = true → ∀ untilMs, Ends (deferRetire a untilMs) w Q E)
    (hfail : retiring = false → Ends (failRun a) w Q E) (hretry : ∀ retries, Ends (retrySlice a phase retries) w Q E)
    (hretire : retiring = false → ∀ superseder, error = .superseded superseder →
      Ends (do beginRetire a superseder; armAlarm a .retireAlarm a.now) w Q E) :
    Ends (handleError a retiring phase error) w Q E := by
  unfold handleError
  split
  · exact hretire rfl _ rfl
  · by_cases hstop : error.isFatal = true ∨ ChangedOnly.isQuotaError error.message = true
    · cases retiring with
      | true =>
        rw [if_pos ⟨rfl, hstop⟩]
        exact hdefer rfl _
      | false =>
        rw [if_neg (by simp), if_pos hstop]
        exact hfail rfl
    · rw [if_neg fun hboth => hstop hboth.2, if_neg hstop]
      refine get_bind ?_
      split_ifs with hmore hretiring
      · exact hretry _
      · exact hdefer hretiring _
      · exact hfail (Bool.eq_false_iff.mpr hretiring)

theorem handleError_ends {error : SliceError} (h : Retired n kind w) :
    Ends (handleError a true phase error) w (fun _ => Settled n kind) (KilledRetired n kind) :=
  handled_ends (fun _ _ => deferRetire_ends h) nofun (fun _ => retrySlice_ends h) nofun

theorem rearmed_ends {attempts : ℕ} {P S : World → Prop} {E : Stop → World → Prop}
    (hstep : Ends (step a phase) w (fun _ => P) E)
    (hattempt : ∀ w site (Q : Unit → World → Prop), P w → Q () w → Ends (attempt (a.fate site)) w Q E)
    (hretries : ∀ w, P w → P { w with retries := 0 }) (hattempts : ∀ w, P w → P { w with phase_attempts := 0 })
    (harmed : ∀ w, P w → S { w with alarmAt := some (a.now + a.delayMs) })
    (hidle : ∀ w, P w → w.phase = .idle → S w) : Ends (sliceAndRearm a phase attempts) w (fun _ => S) E := by
  have hcleared : ∀ w, P w → Ends (clearRetries a) w (fun _ => P) E := by
    intro w hw
    refine get_bind ?_
    split_ifs
    · exact Ends.bind (hattempt _ _ _ hw (change (hretries w hw)))
    · exact ret hw
  have hcounted : ∀ w, P w → Ends (clearAttempts a attempts) w (fun _ => P) E := by
    intro w hw
    unfold clearAttempts
    split_ifs
    · exact Ends.bind (hattempt _ _ _ hw (change (hattempts w hw)))
    · exact ret hw
  have hnext : ∀ w, P w → Ends (armNext a) w (fun _ => S) E := by
    intro w hw
    refine get_bind ?_
    split_ifs with hphase
    · exact Ends.bind (hattempt _ _ _ hw (change (harmed w hw)))
    · exact ret (hidle w hw (not_not.mp hphase))
  refine Ends.bind (hstep.mono (fun _ w₁ h₁ => ?_) fun _ _ hw => hw)
  refine Ends.bind ((hcleared w₁ h₁).mono (fun _ w₂ h₂ => ?_) fun _ _ hw => hw)
  exact Ends.bind ((hcounted w₂ h₂).mono (fun _ w₃ h₃ => hnext w₃ h₃) fun _ _ hw => hw)

theorem sliceAndRearm_ends (ha : RecordsSuperseded a) {attempts : ℕ} (h : InPurge n kind w) :
    Ends (sliceAndRearm a .purge_staging attempts) w (fun _ => Settled n kind) (fun _ => Retired n kind) := by
  refine rearmed_ends (stepPurgeStaging_ends ha h) (fun _ _ _ hw hok => attempt_ends hok fun _ => hw)
    (fun _ hw => hw.rows rfl rfl rfl rfl rfl rfl rfl rfl rfl rfl) (fun _ hw => hw.rows rfl rfl rfl rfl rfl rfl rfl rfl rfl rfl)
    (fun _ hw => Retired.settled (hw.rows rfl rfl rfl rfl rfl rfl rfl rfl rfl rfl) rfl) fun w hw hphase => ?_
  rcases hw with hpurge | hended
  · rw [hpurge.phase] at hphase
    cases hphase
  · exact .inr hended

theorem counted_ends {retiring : Bool} {P : World → Prop} {E : Stop → World → Prop} (hw : P w) (hkill : ∀ w, P w → E .killed w)
    (hcount : ∀ w attempts, P w → P { w with phase_attempts := attempts })
    (harm : ∀ w atMs, P w → P { w with alarmAt := some atMs })
    (hdefer : retiring = true → ∀ w, P w → ∀ untilMs, Ends (deferRetire a untilMs) w Q E)
    (hfail : retiring = false → ∀ w, P w → Ends (failRun a) w Q E)
    (hguarded : ∀ w attempts, P w → Ends (guardedSlice a retiring phase attempts) w Q E) :
    Ends (countedSlice a retiring phase) w Q E := by
  refine Ends.bind (bookkeep_ends (get_bind ?_) (hkill w hw))
  refine Ends.bind (bookkeep_ends (change_bind ?_) (hkill w hw))
  have hcounted := hcount w (w.phase_attempts + 1) hw
  have hdead : Ends (armDeadMan a phase) { w with phase_attempts := w.phase_attempts + 1 } (fun _ => P) E := by
    unfold armDeadMan
    split_ifs
    · exact armAlarm_ends (harm _ _ hcounted) (hkill _ hcounted)
    · exact ret hcounted
  refine Ends.bind (hdead.mono (fun _ w' hw' => ?_) fun _ _ hw => hw)
  split_ifs with hboth hstuck
  · exact hdefer hboth.2 w' hw' _
  · exact hfail (Bool.eq_false_iff.mpr fun hretiring => hboth ⟨hstuck, hretiring⟩) w' hw'
  · exact hguarded w' _ hw'

theorem countedSlice_ends (ha : RecordsSuperseded a) (h : InPurge n kind w) :
    Ends (countedSlice a true .purge_staging) w (fun _ => Settled n kind) (KilledRetired n kind) := by
  refine counted_ends h (fun _ hw => ⟨rfl, .inl hw⟩)
    (fun _ _ h => ⟨h.entered, h.puts, h.phase, h.scope, h.run, h.kind, h.unreleased, h.kept⟩)
    (fun _ _ h => ⟨h.entered, h.puts, h.phase, h.scope, h.run, h.kind, h.unreleased, h.kept⟩)
    (fun _ _ hw _ => deferRetire_ends (.inl hw)) nofun fun _ _ hw => ?_
  refine Ends.tryCatch ((sliceAndRearm_ends ha hw).mono (fun _ _ hw => hw) fun stop w' hw' => ?_)
  cases stop with
  | killed => exact Ends.throw ⟨rfl, hw'⟩
  | threw error => exact handleError_ends hw'

theorem budgetedSlice_ends (ha : RecordsSuperseded a) (h : InPurge n kind w) :
    Ends (budgetedSlice a) w (fun _ => Settled n kind) (KilledRetired n kind) := by
  have hretiring : w.retiring = true := by simp [World.retiring, h.phase, h.scope]
  refine get_bind ?_
  rw [hretiring, h.phase]
  obtain ⟨dayRead, dayWritten⟩ := w.day (a.now / DAY_MS)
  dsimp only
  by_cases hover : decide (MAX_DAY_ROWS_READ < dayRead ∨ MAX_DAY_ROWS_WRITTEN < dayWritten) = true
  · rw [if_pos ⟨rfl, hover⟩]
    exact deferRetire_ends (.inl h)
  · rw [if_neg fun hboth => hover hboth.2, if_neg (by simpa using hover), if_neg (by simp)]
    exact countedSlice_ends ha h

/-! ## A run that has not been replaced -/

theorem Unreplaced.rows (h : Unreplaced w) {w' : World} (hentered : w'.entered = w.entered)
    (hscope : w'.purge_scope ≠ some .retire) (hrecorded : w'.recorded = w.recorded) (hreleased : w'.released = w.released)
    (hkept : w'.releaseAfterAlarm = w.releaseAfterAlarm) : Unreplaced w' where
  entered := hentered.trans h.entered
  scope := hscope
  recorded := hrecorded.trans h.recorded
  unreleased := hreleased.trans h.unreleased
  kept := hkept.trans h.kept

def Open (w : World) : Prop := Unreplaced w ∧ w.run = .running

/-- Where a slice of such a run stops: a fence that stopped it found it running. -/
def Stopped (stop : Stop) (w : World) : Prop :=
  Unreplaced w ∧ ((∃ superseder, stop = .threw (.superseded superseder)) → w.run = .running)

theorem Open.stopped (h : Open w) (stop : Stop) : Stopped stop w := ⟨h.1, fun _ => h.2⟩

theorem storage_ends (hok : Q () w) (h : Unreplaced w) : Ends (attempt (a.fate site)) w Q Stopped := by
  cases hfate : a.fate site with
  | ok => exact ret hok
  | killed => exact Ends.throw ⟨h, fun ⟨_, hstop⟩ => by cases hstop⟩
  | threw error =>
    refine Ends.throw ⟨h, fun ⟨superseder, hstop⟩ => ?_⟩
    cases hstop
    exact absurd hfate (a.noFence site superseder)

theorem purgeTable_keeps {t : PurgeTable} {partition : Option ℕ} {kinds : Option (List String)} {left freedBytes : ℕ}
    (h : Open w) : Ends (purgeTable a t partition kinds left freedBytes) w (fun _ => Open) Stopped := by
  induction left generalizing w freedBytes with
  | zero => exact ret h
  | succ left ih =>
    rw [purgeTable]
    refine get_bind ?_
    split_ifs
    · cases purgeSlice t partition kinds (PURGE_SLICE_BYTES - freedBytes) (w.tables t.table) with
      | none => exact ret h
      | some slice =>
        refine Ends.bind (storage_ends (change_bind ?_) h.1)
        exact ih ⟨h.1.rows rfl h.1.scope rfl rfl rfl, h.2⟩
    · exact ret h

theorem purgeTables_keeps {ts : List PurgeTable} {partition : Option ℕ} {kinds : Option (List String)} {freedBytes : ℕ}
    (h : Open w) : Ends (purgeTables a partition kinds ts freedBytes) w (fun _ => Open) Stopped := by
  induction ts generalizing w freedBytes with
  | nil => exact ret h
  | cons t ts ih =>
    rw [purgeTables]
    refine get_bind (Ends.bind ((purgeTable_keeps h).mono (fun freed w' hw' => ?_) fun _ _ hw' => hw'))
    split_ifs
    · exact ret hw'
    · exact ih hw'

theorem Open.leavePurge (h : Open w) {scope : PurgeScope} {pp : Option PublishChunks.PpPublish} {left : World}
    (hleave : leavePurge w scope pp = .ok left) : Open left := by
  have hnone : ∀ w', w'.entered = w.entered → w'.purge_scope = none → w'.recorded = w.recorded →
      w'.released = w.released → w'.releaseAfterAlarm = w.releaseAfterAlarm → w'.run = w.run → Open w' :=
    fun w' hentered hscope hrecorded hreleased hkept hrun =>
      ⟨h.1.rows hentered (by rw [hscope]; nofun) hrecorded hreleased hkept, hrun.trans h.2⟩
  cases scope with
  | reset =>
    obtain rfl := Except.ok.inj hleave
    exact hnone _ rfl rfl rfl rfl rfl rfl
  | rewind =>
    obtain rfl := Except.ok.inj hleave
    exact hnone _ rfl rfl rfl rfl rfl rfl
  | retire =>
    obtain rfl := Except.ok.inj hleave
    exact hnone _ rfl rfl rfl rfl rfl rfl
  | blobs =>
    rw [AlarmChain.leavePurge] at hleave
    cases hnext : w.purge_next with
    | none =>
      rw [hnext] at hleave
      cases hleave
    | some after =>
      rw [hnext] at hleave
      obtain rfl := Except.ok.inj hleave
      exact hnone _ rfl rfl rfl rfl rfl rfl
  | partition =>
    cases pp with
    | none =>
      obtain rfl := Except.ok.inj hleave
      exact hnone _ rfl rfl rfl rfl rfl rfl
    | some pp =>
      rw [AlarmChain.leavePurge] at hleave
      split_ifs at hleave
      · obtain rfl := Except.ok.inj hleave
        exact hnone _ rfl rfl rfl rfl rfl rfl
      · cases hadvance : advanceToNextPartition pp with
        | none =>
          rw [hadvance] at hleave
          cases hleave
        | some next =>
          rw [hadvance] at hleave
          obtain rfl := Except.ok.inj hleave
          exact hnone _ rfl rfl rfl rfl rfl rfl

theorem finishPurge_keeps {scope : PurgeScope} {pp : Option PublishChunks.PpPublish} (h : Open w) (hscope : scope ≠ .retire) :
    Ends (finishPurge a scope pp) w (fun _ => Open) Stopped := by
  refine Ends.bind (storage_ends (get_bind ?_) h.1)
  cases hleave : leavePurge w scope pp with
  | error error => exact Ends.throw (h.stopped _)
  | ok left =>
    refine change_bind (f := fun _ => left) ?_
    rw [if_neg hscope]
    exact ret (h.leavePurge hleave)

theorem stepPurgeStaging_keeps (h : Open w) : Ends (stepPurgeStaging a) w (fun _ => Open) Stopped := by
  refine get_bind ?_
  cases hscope : w.purge_scope with
  | none => exact Ends.throw (h.stopped _)
  | some scope =>
    have hother : scope ≠ .retire := by
      rintro rfl
      exact h.1.scope hscope
    dsimp only
    cases purgeContext w scope with
    | error error => exact Ends.throw (h.stopped _)
    | ok context =>
      refine Ends.bind ((purgeTables_keeps h).mono (fun freed w' hw' => ?_) fun _ _ hw' => hw')
      by_cases hfreed : 0 < freed
      · rw [if_pos hfreed]
        refine Ends.bind (storage_ends (change_bind ?_) hw'.1)
        have hcounted : Open { w' with purge_slices := w'.purge_slices + 1 } :=
          ⟨hw'.1.rows rfl hw'.1.scope rfl rfl rfl, hw'.2⟩
        split_ifs
        · exact ret hcounted
        · exact finishPurge_keeps hcounted hother
      · rw [if_neg hfreed]
        exact finishPurge_keeps hw' hother

theorem otherSlice_keeps (h : Open w) : Ends (otherSlice a) w (fun _ => Unreplaced) Stopped := by
  refine change_bind ?_
  have hleft : Unreplaced { w with
      phase := a.slice.phase, purge_scope := a.slice.purge_scope, purge_table := a.slice.purge_table
      purge_kinds := a.slice.purge_kinds, purge_next := a.slice.purge_next, pp_publish := a.slice.pp_publish
      tables := a.slice.tables, puts := w.puts + a.slice.puts, run := if a.slice.done then .done else w.run } :=
    h.1.rows rfl a.slice.notRetire rfl rfl rfl
  cases hfate : a.slice.fate with
  | ok => exact ret hleft
  | killed => exact Ends.throw ⟨hleft, fun ⟨_, hstop⟩ => by cases hstop⟩
  | threw error =>
    refine Ends.throw ⟨hleft, fun ⟨superseder, hstop⟩ => ?_⟩
    cases hstop
    cases hdone : a.slice.done with
    | true => exact absurd hfate (a.slice.unfenced hdone superseder)
    | false => exact h.2

theorem sliceAndRearm_keeps {attempts : ℕ} (h : Open w) :
    Ends (sliceAndRearm a phase attempts) w (fun _ => Unreplaced) Stopped := by
  have hstep : Ends (step a phase) w (fun _ => Unreplaced) Stopped := by
    unfold step
    split_ifs
    · exact (stepPurgeStaging_keeps h).mono (fun _ _ hw => hw.1) fun _ _ hw => hw
    · exact otherSlice_keeps h
  exact rearmed_ends hstep (fun _ _ _ hw hok => storage_ends hok hw) (fun _ hw => hw.rows rfl hw.scope rfl rfl rfl)
    (fun _ hw => hw.rows rfl hw.scope rfl rfl rfl) (fun _ hw => hw.rows rfl hw.scope rfl rfl rfl) fun _ hw _ => hw

/-- Between two alarms: not replaced, or retiring with the next alarm armed. -/
def Sane (w : World) : Prop := Unreplaced w ∨ ∃ n kind, Settled n kind w

def Killed (stop : Stop) (w : World) : Prop := stop = .killed ∧ (Unreplaced w ∨ ∃ n kind, Retired n kind w)

theorem failRun_keeps (h : Unreplaced w) : Ends (failRun a) w (fun _ => Sane) Killed := by
  have hphase : Unreplaced { w with phase := .idle } := h.rows rfl h.scope rfl rfl rfl
  have hfailed : Unreplaced { w with phase := .idle, run := .failed } := h.rows rfl h.scope rfl rfl rfl
  refine Ends.bind (bookkeep_ends (change_bind ?_) ⟨rfl, .inl h⟩)
  refine Ends.bind (bookkeep_ends (change_bind ?_) ⟨rfl, .inl hphase⟩)
  refine Ends.bind (bookkeep_ends (change ?_) ⟨rfl, .inl hfailed⟩)
  exact .inl (h.rows rfl h.scope rfl rfl rfl)

theorem arm_keeps {atMs : ℕ} (h : Unreplaced w) : Ends (armAlarm a site atMs) w (fun _ => Sane) Killed :=
  armAlarm_ends (.inl (h.rows rfl h.scope rfl rfl rfl)) ⟨rfl, .inl h⟩

theorem retrySlice_keeps {retries : ℕ} (h : Unreplaced w) : Ends (retrySlice a phase retries) w (fun _ => Sane) Killed := by
  refine Ends.bind (bookkeep_ends (change_bind (Ends.bind ?_)) ⟨rfl, .inl h⟩)
  have hretries : Unreplaced { w with retries := retries } := h.rows rfl h.scope rfl rfl rfl
  unfold markDirty
  split_ifs
  · refine Ends.bind (bookkeep_ends (change ?_) ⟨rfl, .inl hretries⟩)
    exact arm_keeps (h.rows rfl h.scope rfl rfl rfl)
  · exact ret (arm_keeps hretries)

theorem beginRetire_ends {superseder : Superseder} (h : Open w) :
    Ends (beginRetire a superseder) w (fun _ => InPurge w.puts superseder.kind) Killed := by
  refine Ends.bind (bookkeep_ends (change ?_) ⟨rfl, .inl h.1⟩)
  exact ⟨rfl, rfl, rfl, rfl, h.2, rfl, h.1.unreleased, h.1.kept⟩

theorem handleError_keeps {error : SliceError} (h : Stopped (.threw error) w) :
    Ends (handleError a false phase error) w (fun _ => Sane) Killed := by
  refine handled_ends nofun (fun _ => failRun_keeps h.1) (fun _ => retrySlice_keeps h.1) fun _ superseder hsuperseded => ?_
  refine Ends.bind ((beginRetire_ends ⟨h.1, h.2 ⟨superseder, by rw [hsuperseded]⟩⟩).mono (fun _ w' hw' => ?_) fun _ _ hw => hw)
  exact (Retired.arm (.inl hw')).mono (fun _ _ hw => .inr ⟨_, _, hw⟩) fun _ _ hw => ⟨hw.1, .inr ⟨_, _, hw.2⟩⟩

theorem countedSlice_keeps (h : Open w) : Ends (countedSlice a false phase) w (fun _ => Sane) Killed := by
  refine counted_ends h (fun _ hw => ⟨rfl, .inl hw.1⟩) (fun _ _ h => ⟨h.1.rows rfl h.1.scope rfl rfl rfl, h.2⟩)
    (fun _ _ h => ⟨h.1.rows rfl h.1.scope rfl rfl rfl, h.2⟩) nofun (fun _ _ hw => failRun_keeps hw.1) fun _ _ hw => ?_
  refine Ends.tryCatch ((sliceAndRearm_keeps hw).mono (fun _ _ hw => .inl hw) fun stop w' hw' => ?_)
  cases stop with
  | killed => exact Ends.throw ⟨rfl, .inl hw'.1⟩
  | threw error => exact handleError_keeps hw'

theorem budgetedSlice_keeps (h : Open w) : Ends (budgetedSlice a) w (fun _ => Sane) Killed := by
  have hretiring : w.retiring = false := by simp [World.retiring, h.1.scope]
  refine get_bind ?_
  rw [hretiring]
  obtain ⟨dayRead, dayWritten⟩ := w.day (a.now / DAY_MS)
  dsimp only
  rw [if_neg fun hboth => by cases hboth.1]
  split_ifs
  · exact failRun_keeps h.1
  · exact failRun_keeps h.1
  · exact countedSlice_keeps h

theorem fencedSlice_keeps (ha : RecordsSuperseded a) (h : Unreplaced w) : Ends (fencedSlice a) w (fun _ => Sane) Killed := by
  have hretiring : w.retiring = false := by simp [World.retiring, h.scope]
  refine Ends.bind (bookkeep_ends (get_bind ?_) ⟨rfl, .inl h⟩)
  by_cases hrun : w.run = .running
  · rw [if_neg (not_not.mpr hrun), hretiring, if_neg (by decide)]
    cases a.fence with
    | none => exact budgetedSlice_keeps ⟨h, hrun⟩
    | some superseder =>
      refine Ends.bind ((beginRetire_ends ⟨h, hrun⟩).mono (fun _ w' hw' => ?_) fun _ _ hw => hw)
      exact (budgetedSlice_ends ha hw').mono (fun _ _ hw => .inr ⟨_, _, hw⟩) fun _ _ hw => ⟨hw.1, .inr ⟨_, _, hw.2⟩⟩
  · rw [if_pos hrun]
    exact ret (.inl h)

/-! ## An alarm -/

theorem fencedSlice_ends (ha : RecordsSuperseded a) (h : InPurge n kind w) :
    Ends (fencedSlice a) w (fun _ => Settled n kind) (KilledRetired n kind) := by
  have hretiring : w.retiring = true := by simp [World.retiring, h.phase, h.scope]
  refine Ends.bind (bookkeep_ends (get_bind ?_) ⟨rfl, .inl h⟩)
  rw [if_neg (not_not.mpr h.run), hretiring, if_pos rfl]
  exact budgetedSlice_ends ha h

theorem runAlarmBody_ends {Q : World → Prop} {K : World → Prop}
    (hbody : Ends (fencedSlice a) w (fun _ => Q) (fun stop w => stop = .killed ∧ K w)) (hQ : ∀ w, Q w → K w)
    (hflush : ∀ w rows_read rows_written active_ms day, Q w → Q { w with
      rows_read := rows_read, rows_written := rows_written, active_ms := active_ms, day := day }) :
    Ends (runAlarmBody a) w (fun _ => Q) (fun stop w => stop = .killed ∧ K w) := by
  refine Ends.bind ((Ends.tryCatch (hbody.mono (fun _ _ hw => hw) fun stop w' hw' => ?_)).mono (fun _ w' hw' => ?_)
    fun _ _ hw => hw)
  · rw [hw'.1]
    exact Ends.throw ⟨rfl, hw'.2⟩
  · exact Ends.bind (bookkeep_ends (change (hflush w' _ _ _ _ hw')) ⟨rfl, hQ w' hw'⟩)

theorem Settled.meters (h : Settled n kind w) (rows_read rows_written active_ms : ℕ) (day : ℕ → ℕ × ℕ) :
    Settled n kind { w with
      rows_read := rows_read, rows_written := rows_written, active_ms := active_ms, day := day } := by
  rcases h with ⟨h, hwait⟩ | h
  · exact .inl ⟨⟨h.entered, h.puts, h.phase, h.scope, h.run, h.kind, h.unreleased, h.kept⟩, hwait⟩
  · exact .inr ⟨h.entered, h.puts, h.phase, h.tables, h.recorded, h.run, h.release⟩

theorem releaseStorage_ends (h : Settled n kind w) :
    Ends (releaseStorage a) w (fun _ => Settled n kind) (KilledRetired n kind) := by
  refine get_bind ?_
  split_ifs with hrelease
  · rcases h with ⟨h, -⟩ | h
    · rw [h.kept] at hrelease
      cases hrelease
    · have hkept : Ended n kind { w with releaseAfterAlarm := false } :=
        ⟨h.entered, h.puts, h.phase, h.tables, h.recorded, h.run, fun hrelease => by cases hrelease⟩
      refine change_bind (Ends.bind (bookkeep_ends (change ?_) ⟨rfl, .inr hkept⟩))
      exact .inr ⟨h.entered, h.puts, rfl, fun _ => rfl, h.recorded, .inr ⟨rfl, rfl, h.release hrelease⟩,
        fun hrelease => by cases hrelease⟩
  · exact ret h

theorem releaseStorage_keeps (h : Sane w) : Ends (releaseStorage a) w (fun _ => Sane) Killed := by
  rcases h with h | ⟨n, kind, h⟩
  · refine get_bind ?_
    rw [h.kept, if_neg (by decide)]
    exact ret (.inl h)
  · exact (releaseStorage_ends h).mono (fun _ _ hw => .inr ⟨n, kind, hw⟩) fun _ _ hw => ⟨hw.1, .inr ⟨n, kind, hw.2⟩⟩

theorem runAlarm_ends (ha : RecordsSuperseded a) (h : Retired n kind w) :
    Ends (runAlarm a) w (fun _ => Settled n kind) (KilledRetired n kind) := by
  refine get_bind ?_
  rcases h with h | h
  · rw [if_neg (by rw [h.phase]; decide)]
    have hbody := runAlarmBody_ends (fencedSlice_ends ha h) (fun _ hw => hw.retired)
      fun _ rows_read rows_written active_ms day hw => hw.meters rows_read rows_written active_ms day
    exact Ends.bind (hbody.mono (fun _ _ hw => releaseStorage_ends hw) fun _ _ hw => hw)
  · rw [if_pos h.phase]
    exact ret (.inr h)

theorem runAlarm_keeps (ha : RecordsSuperseded a) (h : Unreplaced w) : Ends (runAlarm a) w (fun _ => Sane) Killed := by
  refine get_bind ?_
  split_ifs
  · exact ret (.inl h)
  · have hbody := runAlarmBody_ends (K := fun w => Unreplaced w ∨ ∃ n kind, Retired n kind w) (fencedSlice_keeps ha h)
      (fun _ hw => hw.imp_right fun ⟨n, kind, hsettled⟩ => ⟨n, kind, hsettled.retired⟩)
      (fun w rows_read rows_written active_ms day hw => ?_)
    · exact Ends.bind (hbody.mono (fun _ _ hw => releaseStorage_keeps hw) fun _ _ hw => hw)
    · rcases hw with hw | ⟨n, kind, hw⟩
      · exact .inl (hw.rows rfl hw.scope rfl rfl rfl)
      · exact .inr ⟨n, kind, hw.meters rows_read rows_written active_ms day⟩

/-- A retiring run between two alarms; one whose handler survived is settled. -/
def Between (n : ℕ) (kind : Replacement) (w : World) : Prop := Retired n kind w ∧ (w.survived = true → Settled n kind w)

theorem Settled.between (h : Settled n kind w) : Between n kind { w with survived := true } := by
  have hsettled : Settled n kind { w with survived := true } := by
    rcases h with ⟨h, hwait⟩ | h
    · exact .inl ⟨⟨h.entered, h.puts, h.phase, h.scope, h.run, h.kind, h.unreleased, h.kept⟩, hwait⟩
    · exact .inr ⟨h.entered, h.puts, h.phase, h.tables, h.recorded, h.run, h.release⟩
  exact ⟨hsettled.retired, fun _ => hsettled⟩

theorem Retired.between (h : Retired n kind w) :
    Between n kind { w with survived := false, releaseAfterAlarm := false } := by
  refine ⟨?_, fun hsurvived => by cases hsurvived⟩
  rcases h with h | h
  · exact .inl ⟨h.entered, h.puts, h.phase, h.scope, h.run, h.kind, h.unreleased, rfl⟩
  · exact .inr ⟨h.entered, h.puts, h.phase, h.tables, h.recorded, h.run, fun hrelease => by cases hrelease⟩

theorem Between.alarm (ha : RecordsSuperseded a) (h : Between n kind w) : Between n kind (alarm a w) := by
  have hrun := runAlarm_ends (w := { w with alarmAt := none }) ha (h.1.rows rfl rfl rfl rfl rfl rfl rfl rfl rfl rfl)
  unfold Ends at hrun
  unfold AlarmChain.alarm
  cases hresult : runAlarm a { w with alarmAt := none } with
  | ok value w' =>
    rw [hresult] at hrun
    exact hrun.between
  | error stop w' =>
    rw [hresult] at hrun
    obtain ⟨rfl, hretired⟩ := hrun
    exact hretired.between

theorem Unreplaced.alarm (ha : RecordsSuperseded a) (h : Unreplaced w) :
    Unreplaced (alarm a w) ∨ ∃ n kind, Between n kind (alarm a w) := by
  have hrun := runAlarm_keeps (w := { w with alarmAt := none }) ha (h.rows rfl h.scope rfl rfl rfl)
  unfold Ends at hrun
  unfold AlarmChain.alarm
  cases hresult : runAlarm a { w with alarmAt := none } with
  | ok value w' =>
    rw [hresult] at hrun
    rcases hrun with hopen | ⟨n, kind, hsettled⟩
    · exact .inl (hopen.rows rfl hopen.scope rfl rfl rfl)
    · exact .inr ⟨n, kind, hsettled.between⟩
  | error stop w' =>
    rw [hresult] at hrun
    obtain ⟨rfl, hopen | ⟨n, kind, hretired⟩⟩ := hrun
    · exact .inl ⟨hopen.entered, hopen.scope, hopen.recorded, hopen.unreleased, rfl⟩
    · exact .inr ⟨n, kind, hretired.between⟩

/-! ## Runs -/

def alarms (w : World) (events : List Alarm) : World := events.foldl (fun w a => alarm a w) w

/-- What a retiring run may be: it put nothing since it was replaced, it never failed, it is in its purge or has ended
    superseded with every staging table empty, an alarm is armed whenever a handler survived short of that end, and its
    storage is released after its record, if at all, and never behind a deploy's fence. -/
structure OnlyCleansUp (n : ℕ) (kind : Replacement) (w : World) : Prop where
  puts : w.puts = n
  notFailed : w.run ≠ .failed
  place : w.phase = .purge_staging ∧ w.purge_scope = some .retire ∧ w.run = .running ∨
    w.phase = .idle ∧ (w.run = .superseded ∨ w.released = true) ∧ ∀ table, w.tables table = []
  armed : w.survived = true → w.run = .superseded ∨ w.released = true ∨ w.alarmAt.isSome = true
  deploy : kind = .deploy → w.released = false
  release : w.released = true → w.recorded = true

theorem Between.onlyCleansUp (h : Between n kind w) : OnlyCleansUp n kind w := by
  obtain ⟨hretired, hsurvived⟩ := h
  have hend : ∀ h : Ended n kind w, w.run = .superseded ∨ w.released = true := fun h =>
    h.run.imp And.left fun hreleased => hreleased.2.1
  have harmed : w.survived = true → w.run = .superseded ∨ w.released = true ∨ w.alarmAt.isSome = true := by
    intro hlast
    rcases hsurvived hlast with ⟨-, hwait⟩ | hended
    · exact .inr (.inr hwait)
    · exact (hend hended).imp_right .inl
  rcases hretired with h | h
  · refine ⟨h.puts, by rw [h.run]; decide, .inl ⟨h.phase, h.scope, h.run⟩, harmed, fun _ => h.unreleased, fun hreleased => ?_⟩
    rw [h.unreleased] at hreleased
    cases hreleased
  · refine ⟨h.puts, ?_, .inr ⟨h.phase, hend h, h.tables⟩, harmed, fun hdeploy => ?_, fun _ => h.recorded⟩
    · rcases h.run with ⟨hrun, -⟩ | ⟨hrun, -⟩ <;> rw [hrun] <;> decide
    · rcases h.run with ⟨-, hreleased⟩ | ⟨-, -, hother⟩
      · exact hreleased
      · exact absurd hdeploy hother

theorem Between.alarms (h : Between n kind w) {events : List Alarm} (hrecords : ∀ a ∈ events, RecordsSuperseded a) :
    Between n kind (alarms w events) := by
  induction events generalizing w with
  | nil => exact h
  | cons a events ih =>
    exact ih (h.alarm (hrecords a (by simp))) fun a ha => hrecords a (by simp [ha])

theorem Unreplaced.alarms (h : Unreplaced w) {events : List Alarm} (hrecords : ∀ a ∈ events, RecordsSuperseded a) :
    Unreplaced (alarms w events) ∨ ∃ n kind, Between n kind (alarms w events) := by
  induction events generalizing w with
  | nil => exact .inl h
  | cons a events ih =>
    have hrest : ∀ a ∈ events, RecordsSuperseded a := fun a ha => hrecords a (by simp [ha])
    rcases h.alarm (hrecords a (by simp)) with hopen | ⟨n, kind, hbetween⟩
    · exact ih hopen hrest
    · exact .inr ⟨n, kind, hbetween.alarms hrest⟩

end

/-! ## Concrete runs -/

/-- A run in its listing phase, with one staged row. -/
def listingRun : World where
  run := .running
  phase := .listing
  purge_scope := none
  purge_table := none
  purge_kinds := none
  purge_next := none
  purge_slices := 0
  pp_publish := none
  superseded_by := none
  superseded_kind := none
  retries := 0
  phase_attempts := 0
  tags_nonce := ""
  rows_read := 0
  rows_written := 0
  active_ms := 0
  day _ := (0, 0)
  tables table := if table = .stage_blobs then [⟨.kind "all_cards", 0, 100⟩] else []
  alarmAt := some 0
  releaseAfterAlarm := false
  puts := 0
  entered := none
  recorded := false
  released := false
  survived := true

theorem unreplaced_listingRun : Unreplaced listingRun := ⟨rfl, nofun, rfl, rfl, rfl⟩

/-- An alarm that finds the watchdog's newer coordinator, and is killed in the call `site`, if in any. -/
def fencedAlarm (site : Option Site) : Alarm where
  now := 1000
  isRetry := false
  fence := some ⟨"import-9", 9, .watchdog⟩
  fate call := if site = some call then .killed else .ok
  slice :=
    { phase := .listing, purge_scope := none, purge_table := none, purge_kinds := none, purge_next := none
      pp_publish := none, tables := fun _ => [], puts := 0, done := false, fate := .ok, notRetire := nofun
      unfenced := nofun }
  rowsRead := 3
  rowsWritten := 2
  elapsedMs := 10
  delayMs := 0
  noFence := fun call superseder => by split_ifs <;> nofun

end AlarmChain
