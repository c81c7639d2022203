-- SUMMARY: Runs of a state machine: the events so far, the state they lead to, and invariants over both.
import Mathlib.Data.List.Induction

/-!
# Runs

A machine takes one event at a time; an event its state does not allow has no next
state. An invariant speaks of the events so far as well as of the state, so that it
can say what has happened, not only where the machine stands.
-/

namespace Runs

variable {σ ε : Type*}

def run (step : σ → ε → Option σ) : σ → List ε → Option σ
  | s, [] => some s
  | s, event :: events => (step s event).bind (run step · events)

/-- `Reaches step start events s`: the machine, started in `start`, took `events` and is now in `s`. -/
inductive Reaches (step : σ → ε → Option σ) (start : σ) : List ε → σ → Prop
  | start : Reaches step start [] start
  | step {events : List ε} {s s' : σ} {event : ε} :
      Reaches step start events s → step s event = some s' →
      Reaches step start (events ++ [event]) s'

section

variable {step : σ → ε → Option σ} {start : σ}

/-! ## Rules -/

variable {events : List ε} {s : σ}

theorem Reaches.invariant {P : List ε → σ → Prop} (base : P [] start)
    (keeps : ∀ {events s s' event}, Reaches step start events s → P events s →
      step s event = some s' → P (events ++ [event]) s')
    (h : Reaches step start events s) : P events s := by
  induction h with
  | start => exact base
  | step hreach hstep ih => exact keeps hreach ih hstep

theorem Reaches.stateInvariant {P : σ → Prop} (base : P start)
    (keeps : ∀ {s s' event}, P s → step s event = some s' → P s')
    (h : Reaches step start events s) : P s :=
  h.invariant (P := fun _ s => P s) base (fun _ hs hstep => keeps hs hstep)

@[simp] theorem run_nil : run step s [] = some s := rfl

theorem run_append {before after : List ε} : run step s (before ++ after) = (run step s before).bind (run step · after) := by
  induction before generalizing s with
  | nil => rfl
  | cons event before ih =>
    simp only [List.cons_append, run]
    cases step s event with
    | none => rfl
    | some s' => simpa using ih

theorem Reaches.trans {before after : List ε} {s s' : σ} (h : Reaches step start before s)
    (hrun : run step s after = some s') : Reaches step start (before ++ after) s' := by
  induction after generalizing before s with
  | nil =>
    obtain rfl : s = s' := by simpa using hrun
    simpa using h
  | cons event after ih =>
    obtain ⟨next, hstep, hrest⟩ := Option.bind_eq_some_iff.mp hrun
    have hnext := ih (h.step hstep) hrest
    simpa using hnext

theorem reaches_iff : Reaches step start events s ↔ run step start events = some s := by
  constructor
  · intro h
    induction h with
    | start => rfl
    | step _ hstep ih => simp [run_append, ih, run, hstep]
  · intro h
    simpa using Reaches.start.trans h

theorem run_invariant {P : σ → Prop} {s s' : σ} (base : P s)
    (keeps : ∀ {s s' event}, event ∈ events → P s → step s event = some s' → P s')
    (hrun : run step s events = some s') : P s' := by
  induction events generalizing s with
  | nil => exact Option.some.inj hrun ▸ base
  | cons event events ih =>
    obtain ⟨next, hstep, hrest⟩ := Option.bind_eq_some_iff.mp hrun
    exact ih (keeps (by simp) base hstep) (fun hin => keeps (List.mem_cons_of_mem _ hin)) hrest

end

/-! ## Machines every event is allowed in -/

theorem foldl_invariant {step : σ → ε → σ} {start : σ} {P : List ε → σ → Prop}
    (base : P [] start)
    (keeps : ∀ events event, P events (events.foldl step start) →
      P (events ++ [event]) (step (events.foldl step start) event))
    (events : List ε) : P events (events.foldl step start) := by
  induction events using List.reverseRecOn with
  | nil => exact base
  | append_singleton events event ih =>
    rw [List.foldl_append]
    exact keeps events event ih

/-- Every event of the run is one that `ok` allows in the state it is taken in. -/
def Within (step : σ → ε → σ) (ok : σ → ε → Prop) : σ → List ε → Prop
  | _, [] => True
  | s, event :: events => ok s event ∧ Within step ok (step s event) events

instance Within.decidable {step : σ → ε → σ} {ok : σ → ε → Prop} [∀ s event, Decidable (ok s event)] :
    ∀ (s : σ) (events : List ε), Decidable (Within step ok s events)
  | _, [] => .isTrue trivial
  | s, event :: events =>
    let _ : Decidable (Within step ok (step s event) events) :=
      Within.decidable (step s event) events
    inferInstanceAs (Decidable (ok s event ∧ Within step ok (step s event) events))

theorem Within.invariant {step : σ → ε → σ} {ok : σ → ε → Prop} {P : σ → Prop}
    (keeps : ∀ {s event}, P s → ok s event → P (step s event)) {events : List ε} :
    ∀ {s : σ}, P s → Within step ok s events → P (events.foldl step s) := by
  induction events with
  | nil =>
    intro s hs _
    exact hs
  | cons event events ih =>
    intro s hs hwithin
    exact ih (keeps hs hwithin.1) hwithin.2

end Runs
