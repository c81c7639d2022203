-- SUMMARY: Fixed-length arrays read and written in place, as lists.
import Mathlib.Algebra.BigOperators.Group.List.Basic
import Mathlib.Algebra.Ring.Nat
import Mathlib.Data.List.Basic

/-!
# Typed arrays

A typed array never changes its length. Writing an element leaves the others, a
write past the end does nothing, and a read past the end is the default, which
is what `undefined` counts for in integer arithmetic.
-/

abbrev TypedArray (α : Type) : Type := List α

namespace TypedArray

variable {α : Type}

def read [Inhabited α] (a : TypedArray α) (i : ℕ) : α := a.getD i default

def write (a : TypedArray α) (i : ℕ) (v : α) : TypedArray α := a.set i v

@[simp] theorem length_write (a : TypedArray α) (i : ℕ) (v : α) : (a.write i v).length = a.length := List.length_set

theorem write_write (a : TypedArray α) (i : ℕ) (v w : α) : (a.write i v).write i w = a.write i w :=
  List.set_set _

theorem write_comm (a : TypedArray α) {i j : ℕ} (h : i ≠ j) (v w : α) :
    (a.write i v).write j w = (a.write j w).write i v := List.set_comm _ _ h

variable [Inhabited α]

theorem write_read (a : TypedArray α) (i : ℕ) : a.write i (a.read i) = a := by
  refine List.ext_getElem (by simp [write]) fun j h _ => ?_
  simp only [write, List.length_set] at h
  by_cases hij : i = j
  · subst hij
    simp [write, read, h]
  · simp [write, hij]

variable {a : TypedArray α} {i : ℕ}

theorem read_write_self (h : i < a.length) (v : α) : (a.write i v).read i = v := by
  simp [read, write, h]

theorem read_write_of_ne {i j : ℕ} (h : i ≠ j) (v : α) : (a.write i v).read j = a.read j := by
  simp [read, write, h]

theorem read_write (h : i < a.length) (v : α) (j : ℕ) : (a.write i v).read j = if j = i then v else a.read j := by
  by_cases hj : j = i
  · subst hj
    rw [read_write_self h, if_pos rfl]
  · rw [read_write_of_ne (Ne.symm hj), if_neg hj]

theorem read_replicate (n : ℕ) (v : α) (h : i < n) : read (List.replicate n v) i = v := by
  simp [read, h]

theorem read_of_le (h : a.length ≤ i) : a.read i = default := by
  simp [read, h]

omit [Inhabited α] in
theorem write_of_le (h : a.length ≤ i) (v : α) : a.write i v = a :=
  List.set_eq_of_length_le h

theorem sum_write (a : TypedArray ℕ) (h : i < a.length) (v : ℕ) : (a.write i v).sum + a.read i = a.sum + v := by
  induction a generalizing i with
  | nil => cases h
  | cons x a ih =>
    cases i with
    | zero =>
      simp only [write, read, List.set_cons_zero, List.sum_cons, List.getD_cons_zero]
      omega
    | succ i =>
      have := ih (i := i) (by simpa using h)
      simp only [write, read, List.set_cons_succ, List.sum_cons, List.getD_cons_succ] at this ⊢
      omega

end TypedArray
