-- SUMMARY: Programs of several workers that share one state, call by call in any order, and the rely-guarantee rule for their invariants.
import Mathlib.Logic.Function.Basic

/-!
# Workers over a shared state

A program is the calls it makes, each going on from the answer it gets. Workers take
turns, one call at a time: between two calls of one, any number of the others' may
happen. A worker keeps something between its programs, wakes with the next one, and may
be killed in the middle of it.

What a worker may assume of the others is its rely; each of its own steps must keep
within every other worker's rely, and keep the invariant.
-/

/-- A program over calls `Op`, each answered with an `Answer`. -/
inductive Prog (Op : Type) (Answer : Op → Type) (α : Type) : Type
  | ret (a : α)
  | call (op : Op) (next : Answer op → Prog Op Answer α)

namespace Prog

variable {Op : Type} {Answer : Op → Type} {α β γ : Type}

def bind : Prog Op Answer α → (α → Prog Op Answer β) → Prog Op Answer β
  | .ret a, f => f a
  | .call op next, f => .call op fun answer => (next answer).bind f

instance : Monad (Prog Op Answer) where
  pure := .ret
  bind := bind

def perform (op : Op) : Prog Op Answer (Answer op) := .call op .ret

instance : LawfulMonad (Prog Op Answer) := LawfulMonad.mk' (Prog Op Answer)
  (by
    intro α x
    induction x with
    | ret a => rfl
    | call op next ih => exact congrArg (Prog.call op) (funext ih))
  (by intros; rfl)
  (by
    intro α β γ x f g
    induction x with
    | ret a => rfl
    | call op next ih => exact congrArg (Prog.call op) (funext ih))

end Prog

namespace Shared

/-! ## Machines -/

/-- What the calls of each worker do to the state they share, what a worker does when it wakes,
and what is left behind when its program ends or is killed. -/
structure Machine (Id Op : Type) (Answer : Op → Type) (L S : Type) where
  exec : Id → (op : Op) → S → Answer op × S
  wake : Id → L → Prog Op Answer L
  drop : Id → S → S

/-- A worker: what it kept, and the rest of its program while it is awake. -/
structure Worker (Op : Type) (Answer : Op → Type) (L : Type) where
  kept : L
  running : Option (Prog Op Answer L) := none

structure Sys (Id Op : Type) (Answer : Op → Type) (L S : Type) where
  shared : S
  worker : Id → Worker Op Answer L

/-- One turn. `env` is a step of the state that no worker takes. -/
inductive Event (Id E : Type) where
  | wake (i : Id)
  | turn (i : Id)
  | kill (i : Id)
  | env (e : E)

section

variable {Id E Op L S : Type} {Answer : Op → Type} [DecidableEq Id]
variable (m : Machine Id Op Answer L S) (env : E → S → S)

def step (s : Sys Id Op Answer L S) : Event Id E → Sys Id Op Answer L S
  | .wake i =>
    match (s.worker i).running with
    | some _ => s
    | none =>
      let kept := (s.worker i).kept
      { s with worker := Function.update s.worker i ⟨kept, some (m.wake i kept)⟩ }
  | .turn i =>
    match (s.worker i).running with
    | none => s
    | some (.ret kept) =>
      { shared := m.drop i s.shared, worker := Function.update s.worker i ⟨kept, none⟩ }
    | some (.call op next) =>
      { shared := (m.exec i op s.shared).2
        worker := Function.update s.worker i
          ⟨(s.worker i).kept, some (next (m.exec i op s.shared).1)⟩ }
  | .kill i =>
    { shared := m.drop i s.shared
      worker := Function.update s.worker i ⟨(s.worker i).kept, none⟩ }
  | .env e => { s with shared := env e s.shared }

/-- Every call of the run was made in a state that allows it. -/
def Allowed (may : Id → Op → S → Prop) : Sys Id Op Answer L S → List (Event Id E) → Prop
  | _, [] => True
  | s, event :: events =>
    (∀ i op next, event = .turn i → (s.worker i).running = some (.call op next) → may i op s.shared) ∧
    Allowed may (step m env s event) events

end

/-! ## Rely and guarantee -/

section

variable {Id Op L S : Type} {Answer : Op → Type}

/-- The invariant of the state, what each worker relies on, and when a call is allowed. -/
structure Terms (Id Op S : Type) where
  inv : S → Prop
  rely : Id → S → S → Prop
  may : Id → Op → S → Prop
  refl : ∀ i s, rely i s s
  trans : ∀ {i s s' s''}, rely i s s' → rely i s' s'' → rely i s s''

variable (m : Machine Id Op Answer L S) (t : Terms Id Op S)

/-- A step of worker `i` keeps the invariant and what the others rely on. -/
def Terms.Keeps (i : Id) (s s' : S) : Prop := t.inv s' ∧ ∀ j, j ≠ i → t.rely j s s'

/-- From a state of the invariant, whatever the others do within the rely, each call of the
program keeps the terms and it returns with `Q`. -/
def Safe {α : Type} (i : Id) (Q : α → S → Prop) : Prog Op Answer α → S → Prop
  | .ret a, s => ∀ s', t.rely i s s' → t.inv s' → Q a s'
  | .call op next, s => ∀ s', t.rely i s s' → t.inv s' → t.may i op s' →
      t.Keeps i s' (m.exec i op s').2 ∧ Safe i Q (next (m.exec i op s').1) (m.exec i op s').2

def Terms.Stable (i : Id) (P : S → Prop) : Prop :=
  ∀ {s s'}, P s → t.rely i s s' → t.inv s' → P s'

variable {m t} {i : Id} {α β : Type}

theorem Terms.Stable.and {P P' : S → Prop} (h : t.Stable i P) (h' : t.Stable i P') : t.Stable i fun s => P s ∧ P' s :=
  fun hs hrely hinv => ⟨h hs.1 hrely hinv, h' hs.2 hrely hinv⟩

namespace Safe

theorem rely {Q : α → S → Prop} {p : Prog Op Answer α} {s s' : S} (h : Safe m t i Q p s)
    (hrely : t.rely i s s') : Safe m t i Q p s' := by
  cases p with
  | ret a => exact fun s'' hrely' hinv => h s'' (t.trans hrely hrely') hinv
  | call op next => exact fun s'' hrely' hinv hmay => h s'' (t.trans hrely hrely') hinv hmay

theorem ret {Q : α → S → Prop} {P : S → Prop} (hstable : t.Stable i P) {a : α} {s : S} (hs : P s)
    (himp : ∀ s', t.inv s' → P s' → Q a s') : Safe m t i Q (.ret a) s :=
  fun s' hrely hinv => himp s' hinv (hstable hs hrely hinv)

theorem call {Q : α → S → Prop} {P : S → Prop} (hstable : t.Stable i P) {op : Op}
    {next : Answer op → Prog Op Answer α} {s : S} (hs : P s)
    (h : ∀ s', t.inv s' → t.may i op s' → P s' → t.Keeps i s' (m.exec i op s').2 ∧
      Safe m t i Q (next (m.exec i op s').1) (m.exec i op s').2) :
    Safe m t i Q (.call op next) s :=
  fun s' hrely hinv hmay => h s' hinv hmay (hstable hs hrely hinv)

theorem mono {Q Q' : α → S → Prop} {p : Prog Op Answer α} {s : S} (h : Safe m t i Q p s)
    (himp : ∀ a s', t.inv s' → Q a s' → Q' a s') : Safe m t i Q' p s := by
  induction p generalizing s with
  | ret a => exact fun s' hrely hinv => himp a s' hinv (h s' hrely hinv)
  | call op next ih =>
    intro s' hrely hinv hmay
    obtain ⟨hkeeps, hnext⟩ := h s' hrely hinv hmay
    exact ⟨hkeeps, ih _ hnext⟩

theorem bind {Q : β → S → Prop} {p : Prog Op Answer α} {f : α → Prog Op Answer β} {s : S}
    (hs : t.inv s) (h : Safe m t i (fun a s' => Safe m t i Q (f a) s') p s) :
    Safe m t i Q (p >>= f) s := by
  induction p generalizing s with
  | ret a => exact h s (t.refl i s) hs
  | call op next ih =>
    intro s' hrely hinv hmay
    obtain ⟨hkeeps, hnext⟩ := h s' hrely hinv hmay
    exact ⟨hkeeps, ih _ hkeeps.1 hnext⟩

end Safe

/-! ## Every run -/

variable [DecidableEq Id] {E : Type} {env : E → S → S}

/-- The obligations on a machine: its programs are safe from whatever state they start in, its
workers can be dropped at any time, and the environment's steps are within every rely. -/
structure Sound (m : Machine Id Op Answer L S) (t : Terms Id Op S) (env : E → S → S) : Prop where
  wake : ∀ i kept s, t.inv s → Safe m t i (fun _ _ => True) (m.wake i kept) s
  drop : ∀ i s, t.inv s → t.Keeps i s (m.drop i s)
  env : ∀ e s, t.inv s → t.inv (env e s) ∧ ∀ i, t.rely i s (env e s)

/-- The state keeps the invariant, and every program under way is safe. -/
structure Good (m : Machine Id Op Answer L S) (t : Terms Id Op S) (s : Sys Id Op Answer L S) :
    Prop where
  inv : t.inv s.shared
  awake : ∀ i p, (s.worker i).running = some p → Safe m t i (fun _ _ => True) p s.shared

theorem Good.update {s : Sys Id Op Answer L S} (h : Good m t s) {i : Id} {shared : S}
    {w : Worker Op Answer L} (hkeeps : t.Keeps i s.shared shared)
    (hawake : ∀ p, w.running = some p → Safe m t i (fun _ _ => True) p shared) :
    Good m t ⟨shared, Function.update s.worker i w⟩ where
  inv := hkeeps.1
  awake j p hj := by
    by_cases hij : j = i
    · subst hij
      exact hawake p (by simpa using hj)
    · exact (h.awake j p (by simpa [hij] using hj)).rely (hkeeps.2 j hij)

theorem Good.step (hsound : Sound m t env) {s : Sys Id Op Answer L S} (h : Good m t s)
    {event : Event Id E}
    (hmay : ∀ i op next, event = .turn i → (s.worker i).running = some (.call op next) →
      t.may i op s.shared) : Good m t (step m env s event) := by
  have hstill : ∀ i, t.Keeps i s.shared s.shared := fun i => ⟨h.inv, fun j _ => t.refl j _⟩
  cases event with
  | wake i =>
    simp only [Shared.step]
    split
    · exact h
    · refine h.update (hstill i) fun p hp => ?_
      obtain rfl := Option.some.inj hp
      exact hsound.wake i _ _ h.inv
  | turn i =>
    simp only [Shared.step]
    split
    · exact h
    · exact h.update (hsound.drop i _ h.inv) (by simp)
    · rename_i op next hrun
      obtain ⟨hkeeps, hnext⟩ :=
        h.awake i _ hrun _ (t.refl i _) h.inv (hmay i op next rfl hrun)
      refine h.update hkeeps fun p hp => ?_
      obtain rfl := Option.some.inj hp
      exact hnext
  | kill i => exact h.update (hsound.drop i _ h.inv) (by simp)
  | env e =>
    obtain ⟨hinv, hrely⟩ := hsound.env e _ h.inv
    exact ⟨hinv, fun i p hp => (h.awake i p hp).rely (hrely i)⟩

theorem Good.run (hsound : Sound m t env) {s : Sys Id Op Answer L S} (h : Good m t s)
    {events : List (Event Id E)} (hallowed : Allowed m env t.may s events) :
    Good m t (events.foldl (Shared.step m env) s) := by
  induction events generalizing s with
  | nil => exact h
  | cons event events ih => exact ih (h.step hsound hallowed.1) hallowed.2

end

end Shared
