-- SUMMARY: Loops and sequences of steps that may throw.
import Mathlib.Data.List.Basic

/-!
# Throwing steps

A step that may throw is a value of `Except`. A loop of such steps succeeds when
each does, and throws when one of them does whatever it is given.
-/

namespace Throws

variable {α β ε : Type} {l : List α}

variable {f : α → Except ε β}

theorem bind_ok {x : Except ε α} {a : α} (h : x = .ok a) : (x >>= f) = f a := by
  rw [h]
  rfl

theorem foldlM_ok {f : β → α → Except ε β} {g : β → α → β}
    (h : ∀ b, ∀ a ∈ l, f b a = .ok (g b a)) (b : β) : l.foldlM f b = .ok (l.foldl g b) := by
  induction l generalizing b with
  | nil => rfl
  | cons a l ih =>
    rw [List.foldlM_cons, h b a (by simp)]
    exact ih (fun b a ha => h b a (by simp [ha])) _

theorem foldlM_error {f : β → α → Except ε β} {a : α} (ha : a ∈ l)
    (h : ∀ b, ∃ e, f b a = .error e) (b : β) : ∃ e, l.foldlM f b = .error e := by
  induction l generalizing b with
  | nil => cases ha
  | cons a' l ih =>
    rw [List.foldlM_cons]
    cases hstep : f b a' with
    | error e => exact ⟨e, rfl⟩
    | ok b' =>
      rcases List.mem_cons.mp ha with rfl | ha
      · obtain ⟨e, he⟩ := h b
        rw [he] at hstep
        cases hstep
      · exact ih ha b'

theorem foldlM_eq_error {f : β → α → Except ε β} {b : β} {e : ε} : l.foldlM f b = .error e ↔
    ∃ before a after b', l = before ++ a :: after ∧ before.foldlM f b = .ok b' ∧ f b' a = .error e := by
  constructor
  · intro h
    induction l generalizing b with
    | nil => cases h
    | cons a l ih =>
      rw [List.foldlM_cons] at h
      cases hstep : f b a with
      | error e' =>
        rw [hstep] at h
        cases h
        exact ⟨[], a, l, b, rfl, rfl, hstep⟩
      | ok b' =>
        rw [hstep] at h
        obtain ⟨before, a', after, b'', rfl, hbefore, ha'⟩ := ih h
        refine ⟨a :: before, a', after, b'', rfl, ?_, ha'⟩
        rw [List.foldlM_cons, bind_ok hstep, hbefore]
  · rintro ⟨before, a, after, b', rfl, hbefore, ha⟩
    rw [List.foldlM_append, bind_ok hbefore, List.foldlM_cons, ha]
    rfl

theorem mapM_ok {g : α → β} (h : ∀ a ∈ l, f a = .ok (g a)) : l.mapM f = .ok (l.map g) := by
  induction l with
  | nil => rfl
  | cons a l ih =>
    rw [List.mapM_cons, h a (by simp), ih fun a ha => h a (by simp [ha])]
    rfl

theorem forall₂_of_mapM {bs : List β} (h : l.mapM f = .ok bs) : List.Forall₂ (fun a b => f a = .ok b) l bs := by
  induction l generalizing bs with
  | nil =>
    rw [List.mapM_nil] at h
    obtain rfl := Except.ok.inj h
    exact .nil
  | cons a l ih =>
    rw [List.mapM_cons] at h
    cases ha : f a with
    | error e =>
      rw [ha] at h
      cases h
    | ok b =>
      rw [ha] at h
      cases hl : l.mapM f with
      | error e =>
        rw [hl] at h
        cases h
      | ok bs' =>
        rw [hl] at h
        obtain rfl := Except.ok.inj h
        exact .cons ha (ih hl)

theorem mapM_of_forall₂ {bs : List β} (h : List.Forall₂ (fun a b => f a = .ok b) l bs) : l.mapM f = .ok bs := by
  induction h with
  | nil => rfl
  | cons ha _ ih =>
    rw [List.mapM_cons, ha, ih]
    rfl

theorem ok_of_mem_mapM {bs : List β} (h : l.mapM f = .ok bs) {a : α} (ha : a ∈ l) : ∃ b, f a = .ok b := by
  have hall := forall₂_of_mapM h
  clear h
  induction hall with
  | nil => cases ha
  | @cons first b _ _ hfirst _ ih =>
    rcases List.mem_cons.mp ha with rfl | ha
    · exact ⟨b, hfirst⟩
    · exact ih ha

theorem ok_of_bind {x : Except ε α} {b : β} (h : (x >>= f) = .ok b) : ∃ a, x = .ok a ∧ f a = .ok b := by
  cases x with
  | ok a => exact ⟨a, rfl, h⟩
  | error e => cases h

theorem ok_of_forM {f : α → Except ε PUnit} (h : l.forM f = .ok ()) : ∀ a ∈ l, f a = .ok () := by
  induction l with
  | nil => nofun
  | cons a l ih =>
    obtain ⟨_, ha, hl⟩ := ok_of_bind h
    exact List.forall_mem_cons.mpr ⟨ha, ih hl⟩

theorem ok_getD {x : Except ε α} (a : α) (h : x.toOption.isSome = true) : x = .ok (x.toOption.getD a) := by
  cases x with
  | ok b => rfl
  | error e => cases h

/-! ## What a step ends with -/

/-- The step returns what `P` holds of, or throws what `E` allows. -/
def Ends (E : ε → Prop) (P : α → Prop) : Except ε α → Prop
  | .ok a => P a
  | .error e => E e

section Ends

variable {E : ε → Prop} {P : α → Prop} {Q : β → Prop} {x : Except ε α}

theorem Ends.mono {P' : α → Prop} (h : Ends E P x) (hP : ∀ a, P a → P' a) : Ends E P' x := by
  cases x with
  | ok a => exact hP a h
  | error e => exact h

theorem Ends.bind (h : Ends E P x) (hf : ∀ a, P a → Ends E Q (f a)) : Ends E Q (x >>= f) := by
  cases x with
  | ok a => exact hf a h
  | error e => exact h

theorem Ends.of_ok {a : α} (h : Ends E P x) (hx : x = .ok a) : P a := by
  rw [hx] at h
  exact h

theorem Ends.foldlM {f : β → α → Except ε β} {I : List α → β → Prop} {b : β}
    (hstep : ∀ a rest b, I (a :: rest) b → Ends E (I rest) (f b a)) (h : I l b) : Ends E (I []) (l.foldlM f b) := by
  induction l generalizing b with
  | nil => exact h
  | cons a l ih =>
    rw [List.foldlM_cons]
    exact (hstep a l b h).bind fun _ hb => ih hb

end Ends

end Throws
