-- SUMMARY: Overlapping watchdog ticks: each one's KV calls as steps of their own, in any order.
import Sylvan.Import.WatchdogRun
import Mathlib.Logic.Function.Basic

/-!
# Overlapping ticks

A tick reads the pointer once, and every write of it puts a whole pointer back: the one
it read, with its own change. Between two KV calls it waits for coordinators, and other
ticks read and write. While no tick writes over a failover it has not seen, the pointers
ticks hold are of the stored line or of an older one.
-/

namespace Watchdog

open CoordinatorPointer (epoch stringify)

/-! ## One tick's steps -/

/-- Where a tick stands, with the pointer it holds. -/
inductive Phase where
  | idle
  /-- The replaced coordinators are asked to release. -/
  | asking (tick : Tick) (pointer : CoordinatorPointer)
  /-- The shortened list is to be written back. -/
  | releasing (tick : Tick) (pointer : CoordinatorPointer)
  /-- The current coordinator is asked for its status, and kicked. -/
  | checking (tick : Tick) (pointer : CoordinatorPointer)
  /-- The suspect mark is to be cleared. -/
  | clearing (tick : Tick) (pointer : CoordinatorPointer) (action : WatchdogAction)
  /-- The action is to be taken. -/
  | acting (tick : Tick) (pointer : CoordinatorPointer) (action : WatchdogAction)
  | finished

def Phase.pointer : Phase → Option CoordinatorPointer
  | .asking _ pointer => some pointer
  | .releasing _ pointer => some pointer
  | .checking _ pointer => some pointer
  | .clearing _ pointer _ => some pointer
  | .acting _ pointer _ => some pointer
  | _ => none

/-- The pointer a tick's next step writes, if it writes one. -/
def Phase.stores : Phase → Option CoordinatorPointer
  | .releasing _ pointer => some pointer
  | .clearing _ pointer _ => some { pointer with suspectSince := none }
  | .acting tick pointer .suspect => some { pointer with suspectSince := some tick.now }
  | .acting tick pointer .failover =>
    if (pointer.failovers.filter (· > tick.now - DAY_MS)).length ≥ MAX_FAILOVERS_PER_DAY then none
    else nextPointer pointer tick.now
  | _ => none

/-- The coordinators that have answered `released` when a tick's next step is taken. -/
def Phase.releases : Phase → List String
  | .asking tick pointer => (pointer.retiring.getD []).filter tick.released
  | _ => []

def Phase.next : Phase → Phase
  | .asking tick pointer =>
    let names := pointer.retiring.getD []
    let remaining := names.filter (!tick.released ·)
    if names = [] ∨ remaining.length = names.length then .checking tick pointer
    else .releasing tick { pointer with retiring := some remaining }
  | .releasing tick pointer => .checking tick pointer
  | .checking tick pointer =>
    match afterKick tick pointer.suspectSince with
    | none => .finished
    | some (status, action) =>
      if status.isAnswered && pointer.suspectSince.isSome then .clearing tick pointer action
      else .acting tick pointer action
  | .clearing tick pointer action => .acting tick pointer action
  | .acting _ _ _ => .finished
  | phase => phase

/-! ## Ticks over one KV -/

/-- The stored pointer, every tick, and the names that answered a release. -/
structure Shared where
  kv : Option RawPointer
  ticks : ℕ → Phase
  released : List String

def Shared.start : Shared := ⟨none, fun _ => .idle, []⟩

inductive TickEvent where
  /-- The tick reads the pointer. -/
  | start (i : ℕ) (tick : Tick)
  /-- What it waited for has come, or its write is made. -/
  | advance (i : ℕ)
  /-- Its invocation ends before its time. -/
  | stop (i : ℕ)

def Shared.pointer (w : Shared) : CoordinatorPointer := (readPointer w.kv).getD LEGACY_POINTER

def Shared.retiring (w : Shared) : List String := w.pointer.retiring.getD []

def Shared.step (w : Shared) : TickEvent → Option Shared
  | .start i tick =>
    match w.ticks i with
    | .idle =>
      let phase := match readPointer w.kv with
        | some pointer => .asking tick pointer
        | none => .finished
      some { w with ticks := Function.update w.ticks i phase }
    | _ => none
  | .advance i =>
    let phase := w.ticks i
    some
      { kv := (phase.stores.map stringify).or w.kv
        ticks := Function.update w.ticks i phase.next
        released := w.released ++ phase.releases }
  | .stop i => some { w with ticks := Function.update w.ticks i .finished }

def wholeTick (i : ℕ) (tick : Tick) : List TickEvent :=
  [.start i tick, .advance i, .advance i, .advance i, .advance i, .advance i]

/-! ## One tick alone -/

/-- What a tick's next `n` steps leave in KV when no other tick writes. -/
def Phase.leaves : ℕ → Option RawPointer → Phase → Option RawPointer
  | 0, kv, _ => kv
  | n + 1, kv, phase => phase.next.leaves n ((phase.stores.map stringify).or kv)

/-! ## The line a tick's pointer is of -/

/-- What a tick's pointer `p` is to the stored one: of an older line, or of the same, with
    the same names still to be released. -/
structure Lined (stored : CoordinatorPointer) (released : List String) (p : CoordinatorPointer) : Prop where
  good : Good p
  epoch_le : p.epoch ≤ stored.epoch
  same : p.epoch = stored.epoch → p.name = stored.name ∧
    ∀ name, (name ∈ p.retiring.getD [] ∨ name ∈ released) ↔ (name ∈ stored.retiring.getD [] ∨ name ∈ released)

/-- The pointer with another suspect mark. -/
structure Marked (p q : CoordinatorPointer) : Prop where
  name_eq : q.name = p.name
  epoch_eq : q.epoch = p.epoch
  retiring_eq : q.retiring = p.retiring

theorem Good.marked {p q : CoordinatorPointer} (h : Good p) (hmark : Marked p q) : Good q where
  named := by rw [hmark.epoch_eq, hmark.name_eq]; exact h.named
  retiring_older := by rw [hmark.epoch_eq, hmark.retiring_eq]; exact h.retiring_older
  unlisted := by rw [hmark.epoch_eq, hmark.retiring_eq]; exact h.unlisted

section

variable {stored p q : CoordinatorPointer} {released : List String}

theorem Lined.refl (h : Good stored) : Lined stored released stored :=
  ⟨h, le_rfl, fun _ => ⟨rfl, fun _ => .rfl⟩⟩

theorem Lined.mono (h : Lined stored released p) (answered : List String) : Lined stored (released ++ answered) p := by
  refine ⟨h.good, h.epoch_le, fun heq => ⟨(h.same heq).1, fun name => ?_⟩⟩
  have hsame := (h.same heq).2 name
  simp only [List.mem_append]
  tauto

theorem Lined.kept (h : Lined stored released p) {answer : String → Bool} (hkept : Kept answer p q)
    (hanswered : ∀ name ∈ p.retiring.getD [], answer name = true → name ∈ released) :
    Lined stored released q := by
  refine ⟨h.good.kept hkept, hkept.epoch_eq ▸ h.epoch_le, fun heq => ?_⟩
  obtain ⟨hname, hsame⟩ := h.same (hkept.epoch_eq ▸ heq)
  refine ⟨hkept.name_eq.trans hname, fun name => ?_⟩
  rw [← hsame name, hkept.retiring_eq, List.mem_filter]
  constructor
  · rintro (⟨hin, -⟩ | hin)
    · exact .inl hin
    · exact .inr hin
  · rintro (hin | hin)
    · cases hname : answer name with
      | true => exact .inr (hanswered name hin hname)
      | false => exact .inl ⟨hin, by simp⟩
    · exact .inr hin

theorem Lined.write {other : CoordinatorPointer} (h : Lined stored released p) (hfresh : p.epoch = stored.epoch)
    (hmark : Marked p q) (hother : Lined stored released other) : Lined q released other := by
  have hepoch : q.epoch = stored.epoch := hmark.epoch_eq.trans hfresh
  refine ⟨hother.good, hepoch ▸ hother.epoch_le, fun heq => ?_⟩
  obtain ⟨hname, hsame⟩ := h.same hfresh
  obtain ⟨hname', hsame'⟩ := hother.same (heq.trans hepoch)
  refine ⟨by rw [hname', hmark.name_eq, hname], fun name => ?_⟩
  rw [hsame' name, hmark.retiring_eq, hsame name]

theorem Lined.failover {other : CoordinatorPointer} {now : ℤ} (h : Lined stored released p)
    (hfresh : p.epoch = stored.epoch) (hnext : nextPointer p now = some q)
    (hother : Lined stored released other) : Lined q released other := by
  have hlt : stored.epoch < q.epoch := hfresh ▸ (nextPointer_good h.good hnext).2.1
  have hle := hother.epoch_le
  exact ⟨hother.good, by omega, fun heq => by omega⟩

end

/-! ## What a step does -/

theorem next_kept {phase : Phase} {q : CoordinatorPointer} (h : phase.next.pointer = some q) :
    ∃ p, phase.pointer = some p ∧ ∃ answer, Kept answer p q ∧
      ∀ name ∈ p.retiring.getD [], answer name = true → name ∈ phase.releases := by
  have hself (p : CoordinatorPointer) : Kept (fun _ => false) p p := ⟨rfl, rfl, rfl, by simp, id⟩
  cases phase with
  | idle => exact absurd h (by simp [Phase.next, Phase.pointer])
  | asking tick p =>
    refine ⟨p, rfl, tick.released, ?_, fun name hin hanswer => List.mem_filter.mpr ⟨hin, hanswer⟩⟩
    simp only [Phase.next] at h
    split_ifs at h with hsame
    · obtain rfl : p = q := Option.some.inj h
      refine ⟨rfl, rfl, rfl, ?_, id⟩
      obtain hnil | hlength := hsame
      · simp [hnil]
      · exact (List.length_filter_eq_length_iff.mp hlength |> List.filter_eq_self.mpr).symm
    · obtain rfl := Option.some.inj h
      exact ⟨rfl, rfl, rfl, rfl, by simp⟩
  | releasing tick p =>
    obtain rfl : p = q := Option.some.inj h
    exact ⟨p, rfl, _, hself p, by simp⟩
  | checking tick p =>
    simp only [Phase.next] at h
    cases hafter : afterKick tick p.suspectSince with
    | none => simp [hafter, Phase.pointer] at h
    | some result =>
      obtain ⟨status, action⟩ := result
      simp only [hafter] at h
      split_ifs at h
      · obtain rfl : p = q := Option.some.inj h
        exact ⟨p, rfl, _, hself p, by simp⟩
      · obtain rfl : p = q := Option.some.inj h
        exact ⟨p, rfl, _, hself p, by simp⟩
  | clearing tick p action =>
    obtain rfl : p = q := Option.some.inj h
    exact ⟨p, rfl, _, hself p, by simp⟩
  | acting tick p action => exact absurd h (by simp [Phase.next, Phase.pointer])
  | finished => exact absurd h (by simp [Phase.next, Phase.pointer])

theorem stores_cases {phase : Phase} {q : CoordinatorPointer} (h : phase.stores = some q) :
    ∃ p, phase.pointer = some p ∧ (Marked p q ∨
      ∃ tick, phase = .acting tick p .failover ∧ nextPointer p tick.now = some q) := by
  cases phase with
  | idle => cases h
  | asking tick p => cases h
  | releasing tick p =>
    obtain rfl := Option.some.inj h
    exact ⟨p, rfl, .inl ⟨rfl, rfl, rfl⟩⟩
  | checking tick p => cases h
  | clearing tick p action =>
    obtain rfl := Option.some.inj h
    exact ⟨p, rfl, .inl ⟨rfl, rfl, rfl⟩⟩
  | acting tick p action =>
    cases action with
    | none => cases h
    | kick => cases h
    | suspect =>
      obtain rfl := Option.some.inj h
      exact ⟨p, rfl, .inl ⟨rfl, rfl, rfl⟩⟩
    | failover =>
      simp only [Phase.stores] at h
      split_ifs at h
      exact ⟨p, rfl, .inr ⟨tick, rfl, h⟩⟩
  | finished => cases h

/-! ## Runs -/

/-- A write finds the line its tick read: no other tick has failed over since. -/
def Shared.Fresh (w : Shared) : TickEvent → Prop
  | .advance i => (w.ticks i).stores.isSome →
      (w.ticks i).pointer.map epoch = some w.pointer.epoch
  | _ => True

instance (w : Shared) (event : TickEvent) : Decidable (w.Fresh event) := by
  cases event <;> unfold Shared.Fresh <;> infer_instance

def Shared.freshStep (w : Shared) (event : TickEvent) : Option Shared :=
  if w.Fresh event then w.step event else none

/-- What holds however the ticks overlap. -/
structure Shared.Sound (w : Shared) : Prop where
  read : readPointer w.kv = some w.pointer
  good : Good w.pointer
  lined : ∀ i p, (w.ticks i).pointer = some p → Lined w.pointer w.released p

/-- The stored line does not go back, and forgets no coordinator that has not answered. -/
structure Shared.Follows (w w' : Shared) : Prop where
  epoch_le : w.pointer.epoch ≤ w'.pointer.epoch
  released : ∀ name ∈ w.released, name ∈ w'.released
  listed : ∀ name ∈ w.retiring, name ∈ w'.retiring ∨ name ∈ w'.released

theorem Shared.Follows.refl (w : Shared) : w.Follows w := ⟨le_rfl, fun _ => id, fun _ => .inl⟩

theorem Shared.Follows.trans {w₁ w₂ w₃ : Shared} (h : w₁.Follows w₂) (h' : w₂.Follows w₃) : w₁.Follows w₃ where
  epoch_le := h.epoch_le.trans h'.epoch_le
  released name hin := h'.released name (h.released name hin)
  listed name hin := by
    obtain hlisted | hdone := h.listed name hin
    · exact h'.listed name hlisted
    · exact .inr (h'.released name hdone)

theorem pointer_update {ticks : ℕ → Phase} {i j : ℕ} {phase : Phase} {p : CoordinatorPointer}
    (h : (Function.update ticks i phase j).pointer = some p) :
    phase.pointer = some p ∨ (ticks j).pointer = some p := by
  obtain rfl | hne := eq_or_ne j i
  · rw [Function.update_self] at h
    exact .inl h
  · rw [Function.update_of_ne hne] at h
    exact .inr h

theorem Shared.Sound.write {w : Shared} {i : ℕ} (h : w.Sound) (hfresh : w.Fresh (.advance i)) {stored : CoordinatorPointer}
    (hread : readPointer (((w.ticks i).stores.map stringify).or w.kv) = some stored) :
    Good stored ∧ w.pointer.epoch ≤ stored.epoch ∧
      (∀ name ∈ w.retiring, name ∈ stored.retiring.getD [] ∨ name ∈ w.released) ∧
      ∀ p, Lined w.pointer w.released p → Lined stored w.released p := by
  cases hstores : (w.ticks i).stores with
  | none =>
    rw [hstores, Option.map_none, Option.none_or, h.read] at hread
    obtain rfl := Option.some.inj hread
    exact ⟨h.good, le_rfl, fun _ => .inl, fun _ => id⟩
  | some q =>
    obtain ⟨p, hpointer, hwrite⟩ := stores_cases hstores
    have hlined := h.lined i p hpointer
    have hepoch : p.epoch = w.pointer.epoch := by
      simpa [Shared.Fresh, hstores, hpointer] using hfresh
    have hsame := (hlined.same hepoch).2
    simp only [hstores, Option.map_some, Option.some_or] at hread
    obtain hmark | ⟨tick, -, hnext⟩ := hwrite
    · rw [readPointer_stringify (hlined.good.marked hmark)] at hread
      obtain rfl := Option.some.inj hread
      refine ⟨hlined.good.marked hmark, (hmark.epoch_eq.trans hepoch).ge, fun name hin => ?_,
        fun other hother => hlined.write hepoch hmark hother⟩
      rw [hmark.retiring_eq]
      exact (hsame name).mpr (.inl hin)
    · obtain ⟨hgood, hlt, -, -, hretiring⟩ := nextPointer_good hlined.good hnext
      rw [readPointer_stringify hgood] at hread
      obtain rfl := Option.some.inj hread
      refine ⟨hgood, hepoch ▸ hlt.le, fun name hin => ?_, fun other hother => hlined.failover hepoch hnext hother⟩
      obtain hlisted | hdone := (hsame name).mpr (.inl hin)
      · exact .inl ((hretiring name).mpr (.inl hlisted))
      · exact .inr hdone

theorem Shared.Sound.readable {w : Shared} (h : w.Sound) (i : ℕ) :
    ∃ stored, readPointer (((w.ticks i).stores.map stringify).or w.kv) = some stored := by
  cases hstores : (w.ticks i).stores with
  | none => exact ⟨_, h.read⟩
  | some q =>
    obtain ⟨p, hpointer, hwrite⟩ := stores_cases hstores
    have hgood := (h.lined i p hpointer).good
    obtain hmark | ⟨tick, -, hnext⟩ := hwrite
    · exact ⟨q, readPointer_stringify (hgood.marked hmark)⟩
    · exact ⟨q, readPointer_stringify (nextPointer_good hgood hnext).1⟩

theorem Shared.Sound.step {w w' : Shared} {event : TickEvent} (h : w.Sound) (hstep : w.freshStep event = some w') :
    w'.Sound ∧ w.Follows w' := by
  rw [Shared.freshStep] at hstep
  split_ifs at hstep with hfresh
  cases event with
  | start i tick =>
    simp only [Shared.step, h.read] at hstep
    split at hstep
    · obtain rfl := Option.some.inj hstep
      refine ⟨⟨h.read, h.good, fun j p hp => ?_⟩, ⟨le_rfl, fun _ => id, fun _ => .inl⟩⟩
      obtain hself | hother := pointer_update hp
      · obtain rfl := Option.some.inj hself
        exact .refl h.good
      · exact h.lined j p hother
    · cases hstep
  | advance i =>
    obtain ⟨stored, hread⟩ := h.readable i
    obtain ⟨hgood, hepoch, hlisted, hlined⟩ := h.write hfresh hread
    obtain rfl := Option.some.inj hstep
    have hpointer : (⟨((w.ticks i).stores.map stringify).or w.kv,
        Function.update w.ticks i (w.ticks i).next, w.released ++ (w.ticks i).releases⟩ : Shared).pointer = stored := by
      simp only [Shared.pointer, hread, Option.getD_some]
    refine ⟨⟨hread.trans (congrArg some hpointer.symm), hpointer ▸ hgood, fun j p hp => ?_⟩,
      ⟨hpointer ▸ hepoch, fun _ => List.mem_append_left _, fun name hin => ?_⟩⟩
    · rw [hpointer]
      obtain hself | hother := pointer_update hp
      · obtain ⟨p₀, hp₀, answer, hkept, hanswered⟩ := next_kept hself
        exact ((hlined p₀ (h.lined i p₀ hp₀)).mono _).kept hkept
          fun name hin hanswer => List.mem_append_right _ (hanswered name hin hanswer)
      · exact (hlined p (h.lined j p hother)).mono _
    · rw [Shared.retiring, hpointer]
      exact (hlisted name hin).imp_right (List.mem_append_left _)
  | stop i =>
    obtain rfl := Option.some.inj hstep
    refine ⟨⟨h.read, h.good, fun j p hp => ?_⟩, ⟨le_rfl, fun _ => id, fun _ => .inl⟩⟩
    obtain hself | hother := pointer_update hp
    · cases hself
    · exact h.lined j p hother

theorem Shared.Sound.stale {w w' : Shared} {i : ℕ} (h : w.Sound) (hstep : w.step (.advance i) = some w')
    (hstale : ¬w.Fresh (.advance i)) (hkeeps : ∀ tick p, w.ticks i ≠ .acting tick p .failover) :
    w'.pointer.epoch < w.pointer.epoch := by
  simp only [Shared.Fresh, Classical.not_imp] at hstale
  obtain ⟨hwrites, hepoch⟩ := hstale
  obtain ⟨q, hstores⟩ := Option.isSome_iff_exists.mp hwrites
  obtain ⟨p, hpointer, hwrite⟩ := stores_cases hstores
  have hlined := h.lined i p hpointer
  obtain hmark | ⟨tick, hphase, -⟩ := hwrite
  · have hread := readPointer_stringify (hlined.good.marked hmark)
    obtain rfl := Option.some.inj hstep
    have hne : p.epoch ≠ w.pointer.epoch := fun heq => hepoch (by rw [hpointer, Option.map_some, heq])
    have hlt := lt_of_le_of_ne hlined.epoch_le hne
    simp only [Shared.pointer, hstores, Option.map_some, Option.some_or, hread, Option.getD_some] at hlt ⊢
    rwa [hmark.epoch_eq]
  · exact absurd hphase (hkeeps tick p)

theorem Shared.Sound.start : Shared.start.Sound := ⟨rfl, .legacy, fun _ _ h => nomatch h⟩

/-- **However many ticks overlap, and in whatever order their reads and writes fall: while every write finds the
    line its tick read, the stored epoch does not go down, and a coordinator once on the stored
    retiring list stays on it until it has answered a release. The first write of a suspect mark
    or a release list that does not lowers the epoch.** -/
theorem overlap_monotone {before after : List TickEvent} {w w' : Shared}
    (hbefore : Runs.Reaches Shared.freshStep Shared.start before w)
    (hafter : Runs.Reaches Shared.freshStep w after w') :
    w.pointer.epoch ≤ w'.pointer.epoch ∧
    (∀ name ∈ w.retiring, name ∈ w'.retiring ∨ name ∈ w'.released) ∧
    ∀ i w'', w'.step (.advance i) = some w'' → ¬w'.Fresh (.advance i) →
      (∀ tick p, w'.ticks i ≠ .acting tick p .failover) → w''.pointer.epoch < w'.pointer.epoch := by
  have hsound : w.Sound := hbefore.stateInvariant .start fun hw hstep => (hw.step hstep).1
  obtain ⟨hsound', hfollows⟩ : w'.Sound ∧ w.Follows w' := by
    refine hafter.stateInvariant (P := fun w' => w'.Sound ∧ w.Follows w') ⟨hsound, .refl w⟩ ?_
    rintro s s' event ⟨hs, hfollows⟩ hstep
    obtain ⟨hs', hnext⟩ := hs.step hstep
    exact ⟨hs', hfollows.trans hnext⟩
  exact ⟨hfollows.epoch_le, hfollows.listed, fun i w'' hstep hstale hkeeps => hsound'.stale hstep hstale hkeeps⟩

/-! ## Two ticks at once -/

/-- A coordinator that does not answer, ten minutes on, and answers the second tick after all. -/
def missed : Tick := ⟨1790163198250, fun _ => false, .unresponsive, .timeout⟩
def missedAgain : Tick := ⟨1790163798250, fun _ => false, .unresponsive, .timeout⟩
def awake : Tick := ⟨1790163828250, fun _ => false, .answered ⟨.done, 1790163198000, none⟩, .answered⟩

/-- The suspect is replaced while a second tick that has read its pointer waits for it. -/
def replacedMeanwhile : List TickEvent :=
  wholeTick 0 missed ++ [.start 1 missedAgain, .start 2 awake, .advance 1, .advance 2, .advance 1, .advance 2, .advance 1]

theorem overlap_monotone_replaced :
    ∃ w, Runs.Reaches Shared.freshStep Shared.start (wholeTick 0 missed) w ∧
      ∃ w', Runs.Reaches Shared.freshStep w (replacedMeanwhile.drop 6) w' ∧
        w'.pointer.epoch = 1790163798250 ∧ w.pointer.epoch ≤ w'.pointer.epoch := by
  have hrun : ((Runs.run Shared.freshStep Shared.start (wholeTick 0 missed)).bind
      fun w => (Runs.run Shared.freshStep w (replacedMeanwhile.drop 6)).map fun w' => w'.pointer.epoch) =
        some 1790163798250 := by
    decide +kernel
  obtain ⟨w, hw, hrest⟩ := Option.bind_eq_some_iff.mp hrun
  obtain ⟨w', hw', hepoch⟩ := Option.map_eq_some_iff.mp hrest
  exact ⟨w, Runs.reaches_iff.mpr hw, w', Runs.reaches_iff.mpr hw', hepoch,
    (overlap_monotone (Runs.reaches_iff.mpr hw) (Runs.reaches_iff.mpr hw')).1⟩

/-- The second tick's write puts the replaced coordinator's pointer back: the epoch goes down, and the
    retiring list forgets it. -/
theorem overlap_goes_back :
    ∃ before w, Runs.Reaches Shared.step Shared.start before w ∧
      ∃ after w', Runs.Reaches Shared.step w after w' ∧ w'.pointer.epoch < w.pointer.epoch ∧
        "singleton" ∈ w.retiring ∧ "singleton" ∉ w'.retiring ∧ "singleton" ∉ w'.released := by
  have hrun : ((Runs.run Shared.step Shared.start replacedMeanwhile).bind fun w =>
      (Runs.run Shared.step w [.advance 2]).map fun w' =>
        ((w.pointer.epoch, w.retiring), (w'.pointer.epoch, w'.retiring, w'.released))) =
        some ((1790163798250, ["singleton"]), (0, [], [])) := by
    decide +kernel
  obtain ⟨w, hw, hrest⟩ := Option.bind_eq_some_iff.mp hrun
  obtain ⟨w', hw', hends⟩ := Option.map_eq_some_iff.mp hrest
  simp only [Prod.mk.injEq] at hends
  obtain ⟨⟨hepoch, hlisted⟩, hepoch', hlisted', hreleased⟩ := hends
  refine ⟨_, w, Runs.reaches_iff.mpr hw, _, w', Runs.reaches_iff.mpr hw', ?_, ?_, ?_, ?_⟩
  · rw [hepoch, hepoch']
    decide
  · simp [hlisted]
  · simp [hlisted']
  · simp [hreleased]

end Watchdog
