-- SUMMARY: Remarks read in order: what a list of them says of a thing, the last one that speaks winning.
import Mathlib.Data.List.Basic

/-!
# Layered records

A record of exceptions is a list of remarks. A remark says something of a thing or
nothing, a later remark wins over an earlier one, and a layer that says nothing leaves
the thing to the next layer.
-/

namespace Layers

variable {ρ β : Type*} {say : ρ → Option β}

def last (say : ρ → Option β) (remarks : List ρ) : Option β := (remarks.filterMap say).getLast?

@[simp] theorem last_nil : last say [] = none := rfl

theorem last_append {xs ys : List ρ} : last say (xs ++ ys) = (last say ys).or (last say xs) := by
  rw [last, List.filterMap_append, List.getLast?_append]
  rfl

variable {xs : List ρ}

theorem last_cons {x : ρ} : last say (x :: xs) = (last say xs).or (say x) := by
  rw [← List.singleton_append, last_append]
  cases hx : say x with
  | none => simp [last, hx]
  | some b => simp [last, hx]

theorem last_filter {p : ρ → Bool} (h : ∀ x ∈ xs, p x = false → say x = none) : last say (xs.filter p) = last say xs := by
  induction xs with
  | nil => rfl
  | cons x xs ih =>
    have hxs := ih fun y hy => h y (List.mem_cons_of_mem x hy)
    cases hp : p x with
    | true => rw [List.filter_cons_of_pos hp, last_cons, last_cons, hxs]
    | false =>
      rw [List.filter_cons_of_neg (by simp [hp]), last_cons, h x List.mem_cons_self hp, hxs, Option.or_none]

theorem last_eq_none (h : ∀ x ∈ xs, say x = none) : last say xs = none := by
  rw [last, List.filterMap_eq_nil_iff.mpr h]
  rfl

/-- Remarks that all say `b` or nothing say `b` as soon as one of them does. -/
theorem last_uniform {b : β} (h : ∀ x ∈ xs, ∀ b' ∈ say x, b' = b) : last say xs = some b ↔ ∃ x ∈ xs, say x = some b := by
  induction xs with
  | nil => simp
  | cons x xs ih =>
    have hxs := ih fun y hy => h y (List.mem_cons_of_mem x hy)
    rw [last_cons, List.exists_mem_cons_iff, ← hxs]
    cases hlast : last say xs with
    | none => simp
    | some b' =>
      have hb' : b' ∈ xs.filterMap say := List.mem_of_getLast? hlast
      obtain ⟨y, hy, hsay⟩ := List.mem_filterMap.mp hb'
      have := h y (List.mem_cons_of_mem x hy) b' hsay
      simp [this]

theorem mem_of_last {b : β} (h : last say xs = some b) : ∃ x ∈ xs, say x = some b := by
  have hb : b ∈ xs.filterMap say := List.mem_of_getLast? h
  simpa using List.mem_filterMap.mp hb

theorem last_congr {say' : ρ → Option β} (h : ∀ x ∈ xs, say x = say' x) : last say xs = last say' xs := by
  rw [last, last, List.filterMap_congr h]

theorem last_filterMap {σ : Type*} {f : σ → Option ρ} {xs : List σ} :
    last say (xs.filterMap f) = last (fun x => (f x).bind say) xs := by
  rw [last, last, List.filterMap_filterMap]

theorem last_guard {p : ρ → Bool} : last say (xs.filter p) = last (fun x => if p x then say x else none) xs := by
  have hsilent : ∀ x ∈ xs, p x = false → (if p x then say x else none) = none := by
    intro x _ hp
    simp [hp]
  rw [← last_filter hsilent]
  exact last_congr fun x hx => by simp [(List.mem_filter.mp hx).2]

theorem last_flatMap {σ : Type*} {f : σ → List ρ} {xs : List σ} :
    last say (xs.flatMap f) = last (fun x => last say (f x)) xs := by
  induction xs with
  | nil => rfl
  | cons x xs ih => rw [List.flatMap_cons, last_append, last_cons, ih]

theorem last_single {x : ρ} (hmem : x ∈ xs) (h : ∀ y ∈ xs, y ≠ x → say y = none) : last say xs = say x := by
  cases hx : say x with
  | none =>
    refine last_eq_none fun y hy => ?_
    by_cases hyx : y = x
    · rw [hyx, hx]
    · exact h y hy hyx
  | some b =>
    refine (last_uniform fun y hy b' hb' => ?_).mpr ⟨x, hmem, hx⟩
    by_cases hyx : y = x
    · rw [hyx, hx] at hb'
      exact (Option.some.inj hb').symm
    · rw [h y hy hyx] at hb'
      cases hb'

end Layers
