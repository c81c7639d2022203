-- SUMMARY: A list with one entry replaced: counts, sums and the entries that stay.
import Mathlib.Algebra.BigOperators.Group.List.Basic
import Mathlib.Tactic.Ring

/-!
# One entry replaced

What a state kept as a list of records owes to a step that changes one of them.
-/

namespace Replace

variable {α : Type*} {xs : List α} {i : ℕ} {x y : α}

/-- Replacing `x` by `y` moves a count by what the two weigh. -/
theorem countP_set_add (p : α → Bool) (h : xs[i]? = some x) :
    (xs.set i y).countP p + (if p x then 1 else 0) = xs.countP p + (if p y then 1 else 0) := by
  obtain ⟨hi, rfl⟩ := List.getElem?_eq_some_iff.mp h
  have hle : (if p xs[i] then 1 else 0) ≤ xs.countP p := by
    split_ifs with hp
    · exact List.countP_pos_iff.mpr ⟨xs[i], List.getElem_mem hi, hp⟩
    · exact Nat.zero_le _
  rw [List.countP_set hi]
  omega

theorem countP_set_eq (p : α → Bool) (h : xs[i]? = some x) (hp : p y = p x) : (xs.set i y).countP p = xs.countP p := by
  have := countP_set_add (y := y) p h
  rw [hp] at this
  omega

theorem sum_map_set (f : α → ℤ) (h : xs[i]? = some x) : ((xs.set i y).map f).sum = (xs.map f).sum + (f y - f x) := by
  induction xs generalizing i with
  | nil => cases h
  | cons head tail ih =>
    cases i with
    | zero =>
      obtain rfl : head = x := by simpa using h
      simp only [List.set_cons_zero, List.map_cons, List.sum_cons]
      ring
    | succ i =>
      have htail := ih (by simpa using h)
      simp only [List.set_cons_succ, List.map_cons, List.sum_cons, htail]
      ring

theorem mem_set_of_ne (h : xs[i]? = some x) {z : α} (hz : z ∈ xs) (hne : z ≠ x) : z ∈ xs.set i y := by
  obtain ⟨j, hj, rfl⟩ := List.getElem_of_mem hz
  have hij : i ≠ j := by
    rintro rfl
    exact hne (by simpa [hj] using h)
  exact List.mem_iff_getElem.mpr ⟨j, by simpa using hj, by simp [hij]⟩

theorem mem_set_new (h : xs[i]? = some x) : y ∈ xs.set i y :=
  List.mem_set (List.getElem?_eq_some_iff.mp h).1 y

theorem forall_mem_set {p : α → Prop} (hall : ∀ z ∈ xs, p z) (hy : p y) : ∀ z ∈ xs.set i y, p z := by
  intro z hz
  obtain hz | rfl := List.mem_or_eq_of_mem_set hz
  · exact hall z hz
  · exact hy

end Replace
