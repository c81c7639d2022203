-- SUMMARY: Calls that read and change a world and may throw, and what holds of all they return.
import Mathlib.Data.List.Forall2

/-!
# Acts

An act runs in a world, changes it, and returns a value or throws. What was
changed before a throw stays changed. `Serves` is total correctness: from every
world the act returns, and what it returns satisfies the postcondition. `Yields`
is that or partial correctness, as its first argument says.
-/

def Act (W α : Type) : Type := W → Except String α × W

namespace Act

variable {W α β : Type}

instance : Monad (Act W) where
  pure a := fun w => (.ok a, w)
  bind x f := fun w =>
    match x w with
    | (.ok a, w') => f a w'
    | (.error e, w') => (.error e, w')

theorem bind_apply (x : Act W α) (f : α → Act W β) (w : W) : (x >>= f) w = match x w with
      | (.ok a, w') => f a w'
      | (.error e, w') => (.error e, w') := rfl

instance : LawfulMonad (Act W) := LawfulMonad.mk' (Act W)
  (by
    intro α x
    funext w
    change (x >>= pure) w = x w
    rw [bind_apply]
    rcases x w with ⟨_ | _, _⟩ <;> rfl)
  (by intros; rfl)
  (by
    intro α β γ x f g
    funext w
    simp only [bind_apply]
    rcases x w with ⟨_ | _, _⟩ <;> rfl)

def throw (message : String) : Act W α := fun w => (.error message, w)

def lift (x : Except String α) : Act W α := fun w => (x, w)

def modify (f : W → W) : Act W Unit := fun w => (.ok (), f w)

def read : Act W W := fun w => (.ok w, w)

def attempt (x : Act W α) : Act W (Except String α) := fun w => (.ok (x w).1, (x w).2)

/-- Every run returns, with a value of `P`. -/
def Serves (x : Act W α) (P : α → Prop) : Prop := ∀ w, ∃ a w', x w = (.ok a, w') ∧ P a

namespace Serves

variable {P : α → Prop} {Q : β → Prop}

theorem imp {x : Act W α} {P' : α → Prop} (h : Serves x P) (himp : ∀ a, P a → P' a) : Serves x P' := by
  intro w
  obtain ⟨a, w', hrun, ha⟩ := h w
  exact ⟨a, w', hrun, himp a ha⟩

end Serves

/-- Every run that returns does so with a value of `P`, and when `strict` every run returns. -/
def Yields (strict : Prop) (x : Act W α) (P : α → Prop) : Prop :=
  ∀ w, (∃ a w', x w = (.ok a, w') ∧ P a) ∨ (¬ strict ∧ ∃ e w', x w = (.error e, w'))

theorem yields_true {x : Act W α} {P : α → Prop} : Yields True x P ↔ Serves x P := by
  constructor
  · intro h w
    rcases h w with hok | ⟨hnot, -⟩
    · exact hok
    · exact (hnot trivial).elim
  · intro h w
    exact .inl (h w)

namespace Yields

variable {strict : Prop} {P : α → Prop} {Q : β → Prop}

theorem imp {x : Act W α} {P' : α → Prop} (h : Yields strict x P) (himp : ∀ a, P a → P' a) : Yields strict x P' := by
  intro w
  rcases h w with ⟨a, w', hrun, ha⟩ | herror
  · exact .inl ⟨a, w', hrun, himp a ha⟩
  · exact .inr herror

theorem ret {a : α} (h : P a) : Yields strict (pure a : Act W α) P := fun w => .inl ⟨a, w, rfl, h⟩

theorem throw {message : String} (h : ¬ strict) : Yields strict (Act.throw message : Act W α) P :=
  fun w => .inr ⟨h, message, w, rfl⟩

theorem bind {x : Act W α} {f : α → Act W β} (hx : Yields strict x P)
    (hf : ∀ a, P a → Yields strict (f a) Q) : Yields strict (x >>= f) Q := by
  intro w
  rcases hx w with ⟨a, w', hrun, ha⟩ | ⟨hnot, e, w', hrun⟩
  · rw [bind_apply, hrun]
    exact hf a ha w'
  · exact .inr ⟨hnot, e, w', by rw [bind_apply, hrun]⟩

theorem modify {f : W → W} : Yields strict (Act.modify f) fun _ => True :=
  fun w => .inl ⟨(), f w, rfl, trivial⟩

theorem lift {x : Except String α} {a : α} (hx : x = .ok a) (h : P a) :
    Yields strict (Act.lift x : Act W α) P := fun w => .inl ⟨a, w, by rw [hx]; rfl, h⟩

theorem lift_loose {x : Except String α} (hloose : ¬ strict) (h : ∀ a, x = .ok a → P a) :
    Yields strict (Act.lift x : Act W α) P := by
  intro w
  cases hx : x with
  | ok a => exact .inl ⟨a, w, rfl, h a hx⟩
  | error e => exact .inr ⟨hloose, e, w, rfl⟩

theorem any {x : Act W α} (hloose : ¬ strict) : Yields strict x fun _ => True := by
  intro w
  rcases hrun : x w with ⟨e | a, w'⟩
  · exact .inr ⟨hloose, e, w', rfl⟩
  · exact .inl ⟨a, w', rfl, trivial⟩

theorem mapM {l : List α} {f : α → Act W β} {R : α → β → Prop}
    (h : ∀ a ∈ l, Yields strict (f a) (R a)) : Yields strict (l.mapM f) (List.Forall₂ R l) := by
  induction l with
  | nil => exact ret .nil
  | cons a l ih =>
    rw [List.mapM_cons]
    refine bind (h a (by simp)) fun b hb => ?_
    exact bind (ih fun a ha => h a (by simp [ha])) fun bs hbs => ret (.cons hb hbs)

theorem foldlM {l : List α} {f : β → α → Act W β} {b : β} (hb : Q b)
    (h : ∀ b, Q b → ∀ a ∈ l, Yields strict (f b a) Q) : Yields strict (l.foldlM f b) Q := by
  induction l generalizing b with
  | nil => exact ret hb
  | cons a l ih =>
    rw [List.foldlM_cons]
    refine bind (h b hb a (by simp)) fun b' hb' => ?_
    exact ih hb' fun b hb a ha => h b hb a (by simp [ha])

end Yields

/-- Whether it returns or throws, the act leaves `I` as it was. -/
def Keeps (I : W → Prop) (x : Act W α) : Prop := ∀ w, I w → I (x w).2

namespace Keeps

variable {I : W → Prop}

theorem ret {a : α} : Keeps I (pure a : Act W α) := fun _ hw => hw

theorem throw {message : String} : Keeps I (Act.throw message : Act W α) := fun _ hw => hw

theorem modify {f : W → W} (h : ∀ w, I w → I (f w)) : Keeps I (Act.modify f) := h

theorem bind {x : Act W α} {f : α → Act W β} (hx : Keeps I x) (hf : ∀ a, Keeps I (f a)) : Keeps I (x >>= f) := by
  intro w hw
  have hnext := hx w hw
  rw [bind_apply]
  cases hrun : x w with
  | mk result w' =>
    rw [hrun] at hnext
    cases result with
    | error e => exact hnext
    | ok a => exact hf a w' hnext

theorem read_bind {f : W → Act W β} (h : ∀ w, I w → I ((f w) w).2) : Keeps I (Act.read >>= f) := h

theorem attempt {x : Act W α} (hx : Keeps I x) : Keeps I (Act.attempt x) := hx

theorem mapM {l : List α} {f : α → Act W β} (h : ∀ a ∈ l, Keeps I (f a)) : Keeps I (l.mapM f) := by
  induction l with
  | nil => exact ret
  | cons a l ih =>
    rw [List.mapM_cons]
    refine bind (h a (by simp)) fun b => ?_
    exact bind (ih fun a ha => h a (by simp [ha])) fun bs => ret

theorem foldlM {l : List α} {f : β → α → Act W β} {b : β} (h : ∀ b, ∀ a ∈ l, Keeps I (f b a)) : Keeps I (l.foldlM f b) := by
  induction l generalizing b with
  | nil => exact ret
  | cons a l ih =>
    rw [List.foldlM_cons]
    exact bind (h b a (by simp)) fun b' => ih fun b a ha => h b a (by simp [ha])

end Keeps

end Act
