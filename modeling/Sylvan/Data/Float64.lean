-- SUMMARY: Numbers as JavaScript computes them: rounding to a double, and 32-bit integer conversions.
import Mathlib.Data.Int.Log
import Mathlib.Data.Nat.Cast.Order.Field
import Mathlib.Data.Rat.Floor
import Mathlib.Tactic.FieldSimp
import Mathlib.Tactic.Linarith
import Mathlib.Tactic.Positivity

/-!
# Numbers

A product or a quotient is the double nearest to the exact one, a tie going to the
even significand. Only magnitudes in the normal range occur here, so a double has 53
significant bits and nothing overflows. Integers below 2^53 are exact, and so is the floor of
their quotient. `x | 0` keeps the low 32 bits of an integer.
-/

namespace Float64

def roundEven (q : ℚ) : ℤ :=
  let below := ⌊q⌋
  let rest := q - below
  if rest < 1 / 2 ∨ (rest = 1 / 2 ∧ below % 2 = 0) then below else below + 1

/-- The double nearest to `x`. -/
def nearest (x : ℚ) : ℚ :=
  let ulp : ℚ := 2 ^ (Int.log 2 |x| - 52)
  roundEven (x / ulp) * ulp

theorem roundEven_le (q : ℚ) : (roundEven q : ℚ) ≤ q + 1 / 2 := by
  have hbelow := Int.floor_le q
  simp only [roundEven]
  split
  · linarith
  · next h =>
      push_cast
      have hrest : 1 / 2 ≤ q - ⌊q⌋ := by
        rw [← not_lt]
        exact fun hlt => h (.inl hlt)
      linarith

theorem roundEven_nonneg {q : ℚ} (h : 0 ≤ q) : 0 ≤ roundEven q := by
  have hbelow : 0 ≤ ⌊q⌋ := Int.floor_nonneg.mpr h
  simp only [roundEven]
  split <;> omega

theorem nearest_nonneg {x : ℚ} (h : 0 ≤ x) : 0 ≤ nearest x := by
  have hulp : (0 : ℚ) < 2 ^ (Int.log 2 |x| - 52) := zpow_pos (by norm_num) _
  have hround := roundEven_nonneg (div_nonneg h hulp.le)
  exact mul_nonneg (by exact_mod_cast hround) hulp.le

theorem nearest_mul_lt {r n : ℚ} (hr : 0 ≤ r) (hbelow : r ≤ 1 - 1 / 2 ^ 53) (hn : 0 < n) : nearest (r * n) < n := by
  rcases hr.eq_or_lt with rfl | hpos
  · simpa [nearest, roundEven] using hn
  have hx : 0 < r * n := mul_pos hpos hn
  have hle : r * n ≤ n - n / 2 ^ 53 := by
    calc r * n ≤ (1 - 1 / 2 ^ 53) * n := mul_le_mul_of_nonneg_right hbelow hn.le
      _ = n - n / 2 ^ 53 := by ring
  unfold nearest
  rw [abs_of_pos hx]
  generalize hulp : (2 : ℚ) ^ (Int.log 2 (r * n) - 52) = ulp
  have hulpPos : 0 < ulp := hulp ▸ zpow_pos (by norm_num) _
  -- half a unit in the last place is less than what the factor took off
  have hhalf : ulp / 2 < n / 2 ^ 53 := by
    have hlog : (2 : ℚ) ^ Int.log 2 (r * n) ≤ r * n :=
      Int.zpow_log_le_self (by norm_num) hx
    have hscale : ulp * 2 ^ 52 = (2 : ℚ) ^ Int.log 2 (r * n) := by
      rw [← hulp, ← zpow_natCast, ← zpow_add₀ (by norm_num)]
      norm_num
    have hlt : ulp * 2 ^ 52 < n := by linarith
    calc ulp / 2 = ulp * 2 ^ 52 / 2 ^ 53 := by ring
      _ < n / 2 ^ 53 := by gcongr
  calc (roundEven (r * n / ulp) : ℚ) * ulp
      ≤ (r * n / ulp + 1 / 2) * ulp := by gcongr; exact roundEven_le _
    _ = r * n + ulp / 2 := by field_simp
    _ < n := by linarith

/-! ## Integers below 2^53 -/

theorem le_roundEven {q : ℚ} {m : ℤ} (h : m ≤ q) : m ≤ roundEven q := by
  have hbelow : m ≤ ⌊q⌋ := Int.le_floor.mpr h
  simp only [roundEven]
  split <;> omega

theorem roundEven_le_int {q : ℚ} {m : ℤ} (h : q ≤ m) : roundEven q ≤ m := by
  have hbelow : ⌊q⌋ ≤ m := by exact_mod_cast (Int.floor_le q).trans h
  simp only [roundEven]
  split
  · exact hbelow
  · next hround =>
      -- an integer rounds down to itself
      rcases hbelow.eq_or_lt with heq | hlt
      · have hq : q - ⌊q⌋ ≤ 0 := by
          rw [heq]
          linarith
        exact absurd (.inl (by linarith)) hround
      · omega

theorem log_le_of_lt {x : ℚ} (hx : 0 < x) (hlt : x < 2 ^ 53) : Int.log 2 |x| ≤ 52 := by
  rw [abs_of_pos hx]
  have h : Int.log 2 x < 53 := (Int.lt_zpow_iff_log_lt (by norm_num) hx).mp (by exact_mod_cast hlt)
  omega

theorem nat_eq_units {e : ℤ} (he : e ≤ 52) (m : ℕ) : ∃ k : ℤ, (m : ℚ) = k * (2 : ℚ) ^ (e - 52) := by
  obtain ⟨d, hd⟩ := Int.le.dest he
  refine ⟨m * 2 ^ d, ?_⟩
  have hexp : e - 52 = -(d : ℤ) := by omega
  rw [hexp, zpow_neg, zpow_natCast]
  push_cast
  field_simp

theorem nearest_le_nat {x : ℚ} {m : ℕ} (hx : 0 ≤ x) (hm : m < 2 ^ 53) (h : x ≤ m) : nearest x ≤ m := by
  rcases hx.eq_or_lt with rfl | hpos
  · simp [nearest, roundEven]
  have hm' : (m : ℚ) < 2 ^ 53 := by exact_mod_cast hm
  obtain ⟨k, hk⟩ := nat_eq_units (log_le_of_lt hpos (h.trans_lt hm')) m
  have hulp : (0 : ℚ) < 2 ^ (Int.log 2 |x| - 52) := zpow_pos (by norm_num) _
  have hround : roundEven (x / 2 ^ (Int.log 2 |x| - 52)) ≤ k := by
    apply roundEven_le_int
    rw [div_le_iff₀ hulp, ← hk]
    exact h
  simp only [nearest]
  rw [hk]
  exact mul_le_mul_of_nonneg_right (by exact_mod_cast hround) hulp.le

theorem nat_le_nearest {x : ℚ} {m : ℕ} (hx : x < 2 ^ 53) (h : m ≤ x) : m ≤ nearest x := by
  rcases Nat.eq_zero_or_pos m with rfl | hm
  · exact_mod_cast nearest_nonneg (by exact_mod_cast h)
  have hpos : 0 < x := lt_of_lt_of_le (by exact_mod_cast hm) h
  obtain ⟨k, hk⟩ := nat_eq_units (log_le_of_lt hpos hx) m
  have hulp : (0 : ℚ) < 2 ^ (Int.log 2 |x| - 52) := zpow_pos (by norm_num) _
  have hround : k ≤ roundEven (x / 2 ^ (Int.log 2 |x| - 52)) := by
    apply le_roundEven
    rw [le_div_iff₀ hulp, ← hk]
    exact h
  simp only [nearest]
  rw [hk]
  exact mul_le_mul_of_nonneg_right (by exact_mod_cast hround) hulp.le

theorem nearest_nat {m : ℕ} (hm : m < 2 ^ 53) : nearest m = m :=
  le_antisymm (nearest_le_nat (by positivity) hm le_rfl) (nat_le_nearest (by exact_mod_cast hm) le_rfl)

theorem nearest_int {z : ℤ} (h : z.natAbs < 2 ^ 53) : nearest z = z := by
  obtain ⟨n, rfl | rfl⟩ := z.eq_nat_or_neg
  · exact_mod_cast nearest_nat (by simpa using h)
  · have hn : n < 2 ^ 53 := by simpa using h
    rcases Nat.eq_zero_or_pos n with rfl | hpos
    · simp [nearest, roundEven]
    have hpos' : (0 : ℚ) < n := by exact_mod_cast hpos
    obtain ⟨k, hk⟩ := nat_eq_units (log_le_of_lt hpos' (by exact_mod_cast hn)) n
    have hulp : (2 : ℚ) ^ (Int.log 2 |(n : ℚ)| - 52) ≠ 0 := zpow_ne_zero _ (by norm_num)
    have hunits : -(n : ℚ) / 2 ^ (Int.log 2 |(n : ℚ)| - 52) = ((-k : ℤ) : ℚ) := by
      rw [div_eq_iff hulp, Int.cast_neg, neg_mul, ← hk]
    have hround : ∀ m : ℤ, roundEven m = m := by
      intro m
      simp only [roundEven, Int.floor_intCast, sub_self]
      norm_num
    simp only [nearest, Int.cast_neg, Int.cast_natCast, abs_neg]
    rw [hunits, hround, Int.cast_neg, neg_mul, ← hk]

theorem pow_le_nearest {x : ℚ} (h : 2 ^ 53 ≤ x) : 2 ^ 53 ≤ nearest x := by
  have hpos : 0 < x := lt_of_lt_of_le (by norm_num) h
  have hulp : (0 : ℚ) < 2 ^ (Int.log 2 |x| - 52) := zpow_pos (by norm_num) _
  have hlog : (53 : ℤ) ≤ Int.log 2 |x| := by
    rw [abs_of_pos hpos]
    exact (Int.zpow_le_iff_le_log (by norm_num) hpos).mp (by exact_mod_cast h)
  have hself : (2 : ℚ) ^ Int.log 2 |x| ≤ x := by
    rw [abs_of_pos hpos]
    exact Int.zpow_log_le_self (by norm_num) hpos
  have hscale : (2 : ℚ) ^ Int.log 2 |x| = 2 ^ 52 * 2 ^ (Int.log 2 |x| - 52) := by
    rw [← zpow_natCast, ← zpow_add₀ (by norm_num)]
    norm_num
  have hround : (2 : ℤ) ^ 52 ≤ roundEven (x / 2 ^ (Int.log 2 |x| - 52)) := by
    apply le_roundEven
    rw [le_div_iff₀ hulp]
    have hcast : ((2 ^ 52 : ℤ) : ℚ) = 2 ^ 52 := by norm_num
    rw [hcast, ← hscale]
    exact hself
  calc (2 : ℚ) ^ 53 ≤ 2 ^ Int.log 2 |x| := by
        exact_mod_cast zpow_le_zpow_right₀ (by norm_num : (1 : ℚ) ≤ 2) hlog
    _ = 2 ^ 52 * 2 ^ (Int.log 2 |x| - 52) := hscale
    _ ≤ nearest x := mul_le_mul_of_nonneg_right (by exact_mod_cast hround) hulp.le

theorem nearest_le_mul {x : ℚ} (hx : 0 < x) : nearest x ≤ x + x / 2 ^ 53 := by
  have hulp : (0 : ℚ) < 2 ^ (Int.log 2 |x| - 52) := zpow_pos (by norm_num) _
  have hself : (2 : ℚ) ^ Int.log 2 |x| ≤ x := by
    rw [abs_of_pos hx]
    exact Int.zpow_log_le_self (by norm_num) hx
  have hscale : (2 : ℚ) ^ (Int.log 2 |x| - 52) * 2 ^ 52 = 2 ^ Int.log 2 |x| := by
    rw [← zpow_natCast, ← zpow_add₀ (by norm_num)]
    norm_num
  simp only [nearest]
  generalize (2 : ℚ) ^ (Int.log 2 |x| - 52) = ulp at hulp hscale
  calc (roundEven (x / ulp) : ℚ) * ulp ≤ (x / ulp + 1 / 2) * ulp := by gcongr; exact roundEven_le _
    _ = x + ulp * 2 ^ 52 / 2 ^ 53 := by field_simp
    _ ≤ x + x / 2 ^ 53 := by
        rw [hscale]
        gcongr

/-- `Math.floor(a / b)` of integers below 2^53 is their integer quotient. -/
theorem floor_nearest_div {a b : ℕ} (ha : a < 2 ^ 53) (hb : 0 < b) : ⌊nearest ((a : ℚ) / b)⌋ = (a / b : ℕ) := by
  have hb' : (0 : ℚ) < b := by exact_mod_cast hb
  have ha' : (a : ℚ) < 2 ^ 53 := by exact_mod_cast ha
  rw [Int.floor_eq_iff]
  constructor
  · apply nat_le_nearest
    · exact (div_le_self (by positivity) (by exact_mod_cast hb)).trans_lt ha'
    · exact Nat.cast_div_le
  · have hnext : (a : ℚ) + 1 ≤ ((a / b : ℕ) + 1) * b := by
      exact_mod_cast Nat.lt_mul_of_div_lt (Nat.lt_succ_self (a / b)) hb
    rcases Nat.eq_zero_or_pos a with rfl | hpos
    · simp [nearest, roundEven]
    calc nearest ((a : ℚ) / b) ≤ a / b + a / b / 2 ^ 53 := nearest_le_mul (by positivity)
      _ = (a + a / 2 ^ 53) / b := by ring
      _ < (a + 1) / b := by
          gcongr
          rw [div_lt_one (by norm_num)]
          exact ha'
      _ ≤ (a / b : ℕ) + 1 := by
          rw [div_le_iff₀ hb']
          exact hnext

def signed (x : UInt32) : ℤ := x.toBitVec.toInt

/-- `x | 0` of a double holding an integer. -/
def toInt32 (x : ℚ) : UInt32 := UInt32.ofInt ⌊x⌋

end Float64
