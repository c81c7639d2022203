-- SUMMARY: Integer arithmetic of a machine, exact as long as nothing leaves its range: doubles and 64-bit words.
import Mathlib.Data.List.Basic
import Sylvan.Data.Float64

/-!
# Machine arithmetic

Code that runs in two languages computes with the numbers of each. `Arith` is what
such numbers do, and the range in which they do what natural numbers do. A result
proved for every `Arith` holds of each language's.
-/

/-- Numbers that stand for the natural numbers below `bound`. -/
structure Arith (α : Type) where
  nat : ℕ → α
  add : α → α → α
  mul : α → α → α
  /-- The integer quotient. -/
  div : α → α → α
  lt : α → α → Bool
  bound : ℕ
  add_nat : ∀ {a b : ℕ}, a + b < bound → add (nat a) (nat b) = nat (a + b)
  mul_nat : ∀ {a b : ℕ}, a * b < bound → mul (nat a) (nat b) = nat (a * b)
  div_nat : ∀ {a b : ℕ}, a < bound → 0 < b → div (nat a) (nat b) = nat (a / b)
  lt_nat : ∀ {a b : ℕ}, a < bound → b < bound → lt (nat a) (nat b) = decide (a < b)

namespace Arith

open Float64

def double : Arith ℚ where
  nat n := n
  add a b := nearest (a + b)
  mul a b := nearest (a * b)
  div a b := ⌊nearest (a / b)⌋
  lt a b := a < b
  bound := 2 ^ 53
  add_nat h := by exact_mod_cast nearest_nat h
  mul_nat h := by exact_mod_cast nearest_nat h
  div_nat ha hb := by
    rw [floor_nearest_div ha hb]
    exact Int.cast_natCast _
  lt_nat _ _ := by simp

def word : Arith ℕ where
  nat n := n
  add a b := (a + b) % 2 ^ 64
  mul a b := a * b % 2 ^ 64
  div a b := a / b
  lt a b := a < b
  bound := 2 ^ 64
  add_nat h := Nat.mod_eq_of_lt h
  mul_nat h := Nat.mod_eq_of_lt h
  div_nat _ _ := rfl
  lt_nat _ _ := rfl

/-! ## Sums over the places of an array -/

variable {α β : Type} (A : Arith α)

def spread (place : β → ℕ) (weight : β → α) (n : ℕ) (l : List β) : List α :=
  l.foldl (fun sums b => sums.modify (place b) fun sum => A.add sum (weight b)) (List.replicate n (A.nat 0))

theorem modify_map_range (f : ℕ → α) (g : α → α) (n i : ℕ) :
    ((List.range n).map f).modify i g = (List.range n).map fun k => if k = i then g (f k) else f k := by
  apply List.ext_getElem
  · simp
  · intro k hk hk'
    rw [List.getElem_modify]
    simp [eq_comm]

theorem spread_eq {place : β → ℕ} {weight : β → α} {w : β → ℕ} (n : ℕ) {l : List β}
    (hw : ∀ b ∈ l, weight b = A.nat (w b)) (hbound : (l.map w).sum < A.bound) :
    A.spread place weight n l = (List.range n).map fun k => A.nat ((l.filter fun b => place b = k).map w).sum := by
  induction l using List.reverseRecOn with
  | nil => simp [spread, List.map_const']
  | append_singleton l b ih =>
    have hsum : (l.map w).sum + w b < A.bound := by simpa using hbound
    have ih := ih (fun c hc => hw c (by simp [hc])) (by omega)
    rw [spread] at ih
    rw [spread, List.foldl_append, ih, List.foldl_cons, List.foldl_nil, modify_map_range]
    apply List.map_congr_left
    intro k _
    rw [List.filter_append, List.map_append, List.sum_append, List.filter_singleton]
    by_cases hk : k = place b
    · have hpart : ((l.filter fun c => place c = k).map w).sum ≤ (l.map w).sum :=
        ((List.filter_sublist).map w).sum_le_sum fun _ _ => Nat.zero_le _
      rw [if_pos hk, hw b (by simp), A.add_nat (by omega)]
      simp [hk]
    · simp [hk, eq_comm]

end Arith
