-- SUMMARY: The limiter of a gather's sibling calls: slots handed from a settled task to the next in line.
import Sylvan.Data.Runs
import Mathlib.Data.List.Perm.Basic
import Mathlib.Data.List.Sublists

/-!
# The sibling limiter

A task that finds a slot free starts at once. One that does not waits in line: an
ordinary task at the end, an urgent one at the head. A task that settles hands its slot,
still counted, to the head of the line, whose start is a microtask of its own: other code
may run between the hand-over and the start.
-/

namespace SiblingLimit

/-! ## State -/

/-- A submitted task, numbered in the order of the `run` calls. -/
structure Task where
  number : ℕ
  urgent : Bool
deriving DecidableEq, Repr

/-- The tallies for the log line: calls sent and not settled, calls waiting for a slot. -/
structure SiblingLoad where
  sent : ℤ
  queued : ℤ
deriving DecidableEq, Repr

/-- The limiter's own fields, and the tasks around it. -/
structure Limiter where
  openCalls : ℕ
  waiting : List Task
  load : SiblingLoad
  /-- Tasks whose promise `release` has resolved, and whose continuation has not run yet. -/
  granted : List Task
  running : List Task
  submitted : List Task
  /-- Every task started so far, in the order of the starts. -/
  started : List Task
deriving DecidableEq, Repr

def Limiter.fresh : Limiter := ⟨0, [], ⟨0, 0⟩, [], [], [], []⟩

inductive Event where
  /-- A call of `run`. -/
  | run (urgent : Bool)
  /-- The microtask of the task granted first: it starts. -/
  | resume
  /-- A started task is over: a value, an error, or a throw before its first await. -/
  | settle (task : Task)
deriving DecidableEq, Repr

/-! ## Steps -/

namespace Limiter

section

variable (s : Limiter)

/-- What the next call of `run` submits. -/
def next (urgent : Bool) : Task := ⟨s.submitted.length, urgent⟩

/-- `run`, up to its first await. -/
def submit (limit : ℕ) (urgent : Bool) : Limiter :=
  let task := s.next urgent
  let s := { s with submitted := s.submitted ++ [task] }
  if s.openCalls < limit then
    { s with
      openCalls := s.openCalls + 1
      load := { s.load with sent := s.load.sent + 1 }
      running := s.running ++ [task]
      started := s.started ++ [task] }
  else
    { s with
      load := { s.load with queued := s.load.queued + 1 }
      waiting := if urgent then task :: s.waiting else s.waiting ++ [task] }

def resume (task : Task) (granted : List Task) : Limiter :=
  { s with
    granted := granted
    load := ⟨s.load.sent + 1, s.load.queued - 1⟩
    running := s.running ++ [task]
    started := s.started ++ [task] }

/-- The `finally` of every settled task. -/
def release : Limiter :=
  let s := { s with load := { s.load with sent := s.load.sent - 1 } }
  match s.waiting with
  | next :: waiting => { s with waiting := waiting, granted := s.granted ++ [next] }
  | [] => { s with openCalls := s.openCalls - 1 }

/-- The order tasks start in, as it stands: those started, those granted, those in line. -/
def order : List Task := s.started ++ s.granted ++ s.waiting

end

def step (limit : ℕ) (s : Limiter) : Event → Option Limiter
  | .run urgent => some (s.submit limit urgent)
  | .resume =>
    match s.granted with
    | task :: granted => some (s.resume task granted)
    | [] => none
  | .settle task =>
    if task ∈ s.running then some (release { s with running := s.running.erase task }) else none

/-! ## What a step keeps -/

/-- The counter, the tallies and the lists agree. -/
structure Counted (limit : ℕ) (s : Limiter) : Prop where
  openCalls_eq : s.openCalls = s.running.length + s.granted.length
  open_le : s.openCalls ≤ limit
  full_of_waiting : s.waiting ≠ [] → s.openCalls = limit
  sent_eq : s.load.sent = s.running.length
  queued_eq : s.load.queued = s.waiting.length + s.granted.length
  order_perm : s.order.Perm s.submitted
  numbered : s.submitted.map Task.number = List.range s.submitted.length

variable {limit : ℕ} {s : Limiter}

theorem Counted.fresh : Counted limit .fresh := by
  constructor <;> simp [Limiter.fresh, order]

theorem Counted.submit (h : Counted limit s) (urgent : Bool) : Counted limit (s.submit limit urgent) := by
  have hnumbered : (s.submitted ++ [s.next urgent]).map Task.number =
      List.range (s.submitted ++ [s.next urgent]).length := by
    simp [h.numbered, next, List.range_succ]
  have hperm := h.order_perm
  have hcount := h.openCalls_eq
  have hle := h.open_le
  have hsent := h.sent_eq
  have hqueued := h.queued_eq
  simp only [Limiter.submit]
  split_ifs with hfree hurgent
  · have hnone : s.waiting = [] := by
      by_contra hwaiting
      exact absurd (h.full_of_waiting hwaiting) hfree.ne
    refine ⟨by simp; omega, hfree, by simp [hnone], by simp [hsent], by simpa using hqueued, ?_, hnumbered⟩
    simp only [order, hnone, List.append_nil] at hperm ⊢
    have hcomm : ([s.next urgent] ++ s.granted).Perm (s.granted ++ [s.next urgent]) :=
      List.perm_append_comm
    calc (s.started ++ [s.next urgent] ++ s.granted).Perm (s.started ++ s.granted ++ [s.next urgent]) := by
          simpa using hcomm.append_left s.started
      _ |>.Perm (s.submitted ++ [s.next urgent]) := hperm.append_right _
  · have hfull : s.openCalls = limit := by omega
    refine ⟨hcount, hle, fun _ => hfull, hsent, by simp [hqueued]; omega, ?_, hnumbered⟩
    simp only [order] at hperm ⊢
    calc (s.started ++ s.granted ++ s.next urgent :: s.waiting).Perm
          (s.next urgent :: (s.started ++ s.granted ++ s.waiting)) := List.perm_middle
      _ |>.Perm (s.next urgent :: s.submitted) := hperm.cons _
      _ |>.Perm (s.submitted ++ [s.next urgent]) := (List.perm_append_singleton _ _).symm
  · have hfull : s.openCalls = limit := by omega
    refine ⟨hcount, hle, fun _ => hfull, hsent, by simp [hqueued]; omega, ?_, hnumbered⟩
    simp only [order] at hperm ⊢
    rw [← List.append_assoc]
    exact hperm.append_right _

theorem Counted.resume (h : Counted limit s) {task : Task} {granted : List Task}
    (hgranted : s.granted = task :: granted) : Counted limit (s.resume task granted) := by
  have hcount := h.openCalls_eq
  have hqueued := h.queued_eq
  refine ⟨?_, h.open_le, h.full_of_waiting, by simp [Limiter.resume, h.sent_eq], ?_, ?_, h.numbered⟩
  · simp only [hgranted, List.length_cons] at hcount
    simp [Limiter.resume]
    omega
  · simp only [hgranted, List.length_cons] at hqueued
    simp [Limiter.resume, hqueued]
    omega
  · simpa [order, Limiter.resume, hgranted] using h.order_perm

theorem Counted.settle (h : Counted limit s) {task : Task} (hrunning : task ∈ s.running) :
    Counted limit (release { s with running := s.running.erase task }) := by
  have hlength := List.length_erase_of_mem hrunning
  have hpos := List.length_pos_of_mem hrunning
  have hcount := h.openCalls_eq
  have hle := h.open_le
  have hsent := h.sent_eq
  have hqueued := h.queued_eq
  have hperm := h.order_perm
  simp only [release]
  split
  · next next waiting hwaiting =>
      have hfull := h.full_of_waiting (by simp [hwaiting])
      refine ⟨by simp [hlength]; omega, hle, fun _ => hfull, by simp [hlength]; omega, ?_, ?_, h.numbered⟩
      · simp [hwaiting] at hqueued
        simp
        omega
      · simpa [order, hwaiting] using hperm
  · next hwaiting =>
      refine ⟨by simp [hlength]; omega, by simp; omega, by simp [hwaiting], by simp [hlength]; omega, ?_, hperm, h.numbered⟩
      simpa using hqueued

theorem Counted.step (h : Counted limit s) {event : Event} {s' : Limiter}
    (hstep : s.step limit event = some s') : Counted limit s' := by
  cases event with
  | run urgent => exact Option.some.inj hstep ▸ h.submit urgent
  | resume =>
    simp only [Limiter.step] at hstep
    split at hstep
    · next task granted hgranted => exact Option.some.inj hstep ▸ h.resume hgranted
    · cases hstep
  | settle task =>
    simp only [Limiter.step] at hstep
    split_ifs at hstep with hrunning
    exact Option.some.inj hstep ▸ h.settle hrunning

/-! ## The order of starts -/

theorem order_sublist {event : Event} {s' : Limiter}
    (hstep : s.step limit event = some s') : s.order.Sublist s'.order := by
  cases event with
  | run urgent =>
    obtain rfl := Option.some.inj hstep
    simp only [submit, order]
    split_ifs with hfree hurgent
    · simp
    · simp
    · simp
  | resume =>
    simp only [step] at hstep
    split at hstep
    · next task granted hgranted =>
        obtain rfl := Option.some.inj hstep
        simp [order, resume, hgranted]
    · cases hstep
  | settle task =>
    simp only [step] at hstep
    split_ifs at hstep with hrunning
    obtain rfl := Option.some.inj hstep
    simp only [release]
    split
    · next hwaiting => simp [order, hwaiting]
    · next hwaiting => simp [order, hwaiting]

theorem order_sublist_run (h : Counted limit s) {events : List Event} {s' : Limiter}
    (hrun : Runs.run (step limit) s events = some s') :
    Counted limit s' ∧ s.order.Sublist s'.order :=
  Runs.run_invariant (P := fun later => Counted limit later ∧ s.order.Sublist later.order)
    ⟨h, List.Sublist.refl _⟩
    (fun _ hlater hstep => ⟨hlater.1.step hstep, hlater.2.trans (order_sublist hstep)⟩) hrun

theorem Counted.submitted_nodup (h : Counted limit s) : s.submitted.Nodup :=
  List.Nodup.of_map Task.number (h.numbered ▸ List.nodup_range)

/-- `second` does not start before `first`. -/
def InTurn (s : Limiter) (first second : Task) : Prop :=
  second ∈ s.started → [first, second].Sublist s.started

theorem inTurn_of_order (h : Counted limit s) {first second : Task}
    (horder : [first, second].Sublist s.order) : s.InTurn first second := by
  intro hstarted
  have hnodup : s.order.Nodup := h.order_perm.nodup_iff.mpr h.submitted_nodup
  simp only [order, List.append_assoc] at horder hnodup
  obtain ⟨early, late, hsplit, hearly, hlate⟩ := List.sublist_append_iff.mp horder
  have hnot : second ∉ late := fun hin =>
    (List.nodup_append.mp hnodup).2.2 second hstarted second (hlate.subset hin) rfl
  -- `second` is the last of the two, so nothing is left for the later part
  obtain rfl : late = [] := by
    rcases List.eq_nil_or_concat late with hnil | ⟨front, last, rfl⟩
    · exact hnil
    · have hlast : second = last := by
        have := congrArg List.getLast? hsplit
        simpa using this
      exact absurd (by simp [hlast]) hnot
  rw [List.append_nil] at hsplit
  exact hsplit ▸ hearly

/-! ## Runs -/

def work (s : Limiter) : ℕ := s.running.length + 2 * s.granted.length + 3 * s.waiting.length

theorem Counted.started_all (h : Counted limit s) (hlimit : 0 < limit) (hrunning : s.running = [])
    (hgranted : s.granted = []) : s.started.Perm s.submitted := by
  have hidle : s.openCalls = 0 := by simp [h.openCalls_eq, hrunning, hgranted]
  have hnone : s.waiting = [] := by
    by_contra hwaiting
    have := h.full_of_waiting hwaiting
    omega
  simpa [order, hgranted, hnone] using h.order_perm

theorem mem_order_of_submitted (h : Counted limit s) {task : Task} (hin : task ∈ s.submitted) : task ∈ s.order :=
  h.order_perm.mem_iff.mpr hin

/-- **Over every run: open tasks stay within the limit, a task waits only while they are at it, each
    submitted task is started, granted or waiting exactly once and all are started when nothing is
    left to settle or resume; of the tasks that wait, an ordinary one starts after every task
    submitted before it, and an urgent one before every task then waiting.** -/
theorem limiter_sound {events : List Event} (h : Runs.Reaches (step limit) .fresh events s) :
    (s.running.length ≤ limit ∧ s.openCalls ≤ limit) ∧
    (s.waiting ≠ [] → s.openCalls = limit ∧ s.running.length + s.granted.length = limit) ∧
    (s.submitted.Nodup ∧ (s.started ++ s.granted ++ s.waiting).Perm s.submitted) ∧
    (0 < limit → s.running = [] → s.granted = [] → s.started.Perm s.submitted) ∧
    ∀ urgent,
      (s.openCalls < limit → (s.submit limit urgent).started = s.started ++ [s.next urgent]) ∧
      (¬ s.openCalls < limit → ∀ more later, Runs.run (step limit) (s.submit limit urgent) more = some later →
        (urgent = false → ∀ earlier ∈ s.submitted, later.InTurn earlier (s.next urgent)) ∧
        (urgent = true → ∀ passed ∈ s.waiting, later.InTurn (s.next urgent) passed)) := by
  have hcounted : Counted limit s :=
    h.stateInvariant (P := Counted limit) .fresh fun hs hstep => hs.step hstep
  have hopen := hcounted.openCalls_eq
  have hle := hcounted.open_le
  refine ⟨⟨by omega, hle⟩, fun hwaiting => ?_, ⟨hcounted.submitted_nodup, hcounted.order_perm⟩,
    hcounted.started_all, fun urgent => ⟨fun hfree => by simp [submit, hfree], ?_⟩⟩
  · have hfull := hcounted.full_of_waiting hwaiting
    exact ⟨hfull, by omega⟩
  · intro hfull more later hrun
    obtain ⟨hlater, hkept⟩ := order_sublist_run (hcounted.submit urgent) hrun
    constructor
    · rintro rfl earlier hearlier
      refine inTurn_of_order hlater (List.Sublist.trans ?_ hkept)
      have hline : (s.submit limit false).order = s.order ++ [s.next false] := by
        simp [submit, order, hfull]
      rw [hline]
      exact (List.singleton_sublist.mpr (mem_order_of_submitted hcounted hearlier)).append
        (List.Sublist.refl [s.next false])
    · rintro rfl passed hpassed
      refine inTurn_of_order hlater (List.Sublist.trans ?_ hkept)
      have hline : (s.submit limit true).order = (s.started ++ s.granted) ++ (s.next true :: s.waiting) := by
        simp [submit, order, hfull]
      rw [hline]
      exact ((List.singleton_sublist.mpr hpassed).cons_cons (s.next true)).trans
        (List.sublist_append_right _ _)

/-- Two tasks, one slot: the second waits and has its turn. -/
theorem limiter_sound_two :
    ∃ s, Runs.run (step 1) .fresh [.run false, .run false, .settle ⟨0, false⟩, .resume, .settle ⟨1, false⟩] =
        some s ∧ s.started.Perm s.submitted := by
  have hrun : Runs.run (step 1) .fresh
      [.run false, .run false, .settle ⟨0, false⟩, .resume, .settle ⟨1, false⟩] = some _ := rfl
  exact ⟨_, hrun, (limiter_sound (Runs.reaches_iff.mpr hrun)).2.2.2.1 (by decide) rfl rfl⟩

/-- Submission order is not the order of starts within a priority: of two urgent tasks in line the
    later goes first, and a task that finds a slot free starts before one that was handed a slot
    and has not resumed. -/
theorem later_task_first :
    (∃ s, Runs.run (step 1) .fresh [.run false, .run true, .run true, .settle ⟨0, false⟩, .resume] =
        some s ∧ ⟨2, true⟩ ∈ s.started ∧ ⟨1, true⟩ ∈ s.waiting) ∧
    ∃ s, Runs.run (step 2) .fresh [.run false, .run false, .run false, .settle ⟨0, false⟩,
        .settle ⟨1, false⟩, .run false, .resume] = some s ∧
      s.started = [⟨0, false⟩, ⟨1, false⟩, ⟨3, false⟩, ⟨2, false⟩] :=
  ⟨⟨_, rfl, by decide, by decide⟩, ⟨_, rfl, rfl⟩⟩

end Limiter

end SiblingLimit
