-- SUMMARY: Programs on a state that may stop with an error: what holds where they return and where they stop.
import Mathlib.Logic.Basic

/-!
# Calls that may stop

A program of `EStateM` changes a state and returns, or stops with an error where it stands.
`Ends` gives a condition for each of the two, with one rule per construct.
-/

namespace Calls

universe u

variable {ε σ α β : Type u}

/-- From `s`, the program returns in `Q` or stops in `E`. -/
def Ends (x : EStateM ε σ α) (s : σ) (Q : α → σ → Prop) (E : ε → σ → Prop) : Prop :=
  match x s with
  | .ok a s' => Q a s'
  | .error e s' => E e s'

variable {Q : α → σ → Prop} {E : ε → σ → Prop} {s : σ}

theorem Ends.ret {a : α} (h : Q a s) : Ends (pure a) s Q E := h

theorem Ends.throw {e : ε} (h : E e s) : Ends (throw e) s Q E := h

theorem Ends.change {f : σ → σ} {Q : PUnit → σ → Prop} (h : Q ⟨⟩ (f s)) : Ends (modify f) s Q E := h

theorem Ends.bind {x : EStateM ε σ α} {f : α → EStateM ε σ β} {Q : β → σ → Prop}
    (h : Ends x s (fun a s' => Ends (f a) s' Q E) E) : Ends (x >>= f) s Q E := by
  unfold Ends at h ⊢
  change (match EStateM.bind x f s with | .ok a s' => Q a s' | .error e s' => E e s')
  unfold EStateM.bind
  cases hx : x s with
  | ok a s' =>
    rw [hx] at h
    exact h
  | error e s' =>
    rw [hx] at h
    exact h

theorem Ends.get_bind {f : σ → EStateM ε σ α} (h : Ends (f s) s Q E) : Ends (get >>= f) s Q E := h

theorem Ends.change_bind {f : σ → σ} {g : PUnit → EStateM ε σ α} (h : Ends (g ⟨⟩) (f s) Q E) :
    Ends (modify f >>= g) s Q E := h

theorem Ends.mono {x : EStateM ε σ α} {Q' : α → σ → Prop} {E' : ε → σ → Prop} (h : Ends x s Q E)
    (hQ : ∀ a s', Q a s' → Q' a s') (hE : ∀ e s', E e s' → E' e s') : Ends x s Q' E' := by
  unfold Ends at h ⊢
  cases hx : x s with
  | ok a s' =>
    rw [hx] at h
    exact hQ a s' h
  | error e s' =>
    rw [hx] at h
    exact hE e s' h

theorem Ends.tryCatch {x : EStateM ε σ α} {handler : ε → EStateM ε σ α} {E' : ε → σ → Prop}
    (h : Ends x s Q fun e s' => Ends (handler e) s' Q E') : Ends (tryCatch x handler) s Q E' := by
  unfold Ends at h ⊢
  change (match EStateM.tryCatch x handler s with | .ok a s' => Q a s' | .error e s' => E' e s')
  unfold EStateM.tryCatch
  cases hx : x s with
  | ok a s' =>
    rw [hx] at h
    exact h
  | error e s' =>
    rw [hx] at h
    exact h

end Calls
