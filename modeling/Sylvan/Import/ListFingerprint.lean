-- SUMMARY: A list table's fingerprint as the coordinator computes it, in doubles.
import Mathlib.Data.List.Induction
import Sylvan.Data.Float64
import Sylvan.Data.Fnv

/-!
# The fingerprint in doubles

The coordinator keeps the hash in two numbers. A product is a double, and only the bitwise
operators and `Math.imul` bring it back to 32 bits.
-/

namespace Fnv

open Float64

/-- `x >>> 0` of a double holding an integer. -/
def toUint32 (x : ℚ) : ℕ := (⌊x⌋ % 0x100000000).toNat

/-- `lo ^ byte`, unsigned. -/
def mixed (halves : ℚ × ℚ) (byte : UInt8) : ℚ := (toUint32 halves.2 ^^^ byte.toNat : ℕ)

def product (halves : ℚ × ℚ) (byte : UInt8) : ℚ := mixed halves byte * 0x1b3

/-- One byte into the numbers `(hi, lo)`. -/
def mixDoubles (halves : ℚ × ℚ) (byte : UInt8) : ℚ × ℚ :=
  let low := nearest (product halves byte)
  let carried := nearest (imul (toUint32 halves.1) 0x1b3 + ⌊nearest (low / (0x100000000 : ℕ))⌋)
  let hi := nearest (carried + (toUint32 (mixed halves byte) * 0x100 % 0x100000000 : ℕ))
  (toUint32 hi, toUint32 low)

def doubles (bytes : Bytes) : ℚ × ℚ := bytes.foldl mixDoubles (0xcbf29ce4, 0x84222325)

def fnv1a64Doubles (bytes : Bytes) : List Char :=
  hexPadded (toUint32 (doubles bytes).1) ++ hexPadded (toUint32 (doubles bytes).2)

theorem toUint32_int (z : ℤ) : toUint32 z = (z % 0x100000000).toNat := by rw [toUint32, Int.floor_intCast]

theorem toUint32_nat (n : ℕ) : toUint32 n = n % 0x100000000 := by
  rw [toUint32, Int.floor_natCast]
  omega

theorem product_exact (hi : ℕ) {lo : ℕ} (hlo : lo < 0x100000000) (byte : UInt8) :
    product (hi, lo) byte = ((lo ^^^ byte.toNat) * 0x1b3 : ℕ) ∧ (lo ^^^ byte.toNat) < 0x100000000 ∧
      nearest (product (hi, lo) byte) = ((lo ^^^ byte.toNat) * 0x1b3 : ℕ) := by
  have hbyte : byte.toNat < 2 ^ 32 := lt_trans byte.toNat_lt (by decide)
  have hxor : (lo ^^^ byte.toNat) < 0x100000000 := Nat.xor_lt_two_pow (n := 32) hlo hbyte
  have hproduct : product (hi, lo) byte = ((lo ^^^ byte.toNat) * 0x1b3 : ℕ) := by
    rw [product, mixed, toUint32_nat, Nat.mod_eq_of_lt hlo]
    push_cast
    rfl
  refine ⟨hproduct, hxor, ?_⟩
  rw [hproduct]
  exact nearest_nat (by omega)

theorem mixDoubles_halves {hi lo : ℕ} (hhi : hi < 0x100000000) (hlo : lo < 0x100000000) (byte : UInt8) :
    mixDoubles (hi, lo) byte = (((mixHalves (hi, lo) byte).1 : ℚ), ((mixHalves (hi, lo) byte).2 : ℚ)) := by
  obtain ⟨_, hxor, hlow⟩ := product_exact hi hlo byte
  have hmixed : mixed (hi, lo) byte = (lo ^^^ byte.toNat : ℕ) := by
    rw [mixed, toUint32_nat, Nat.mod_eq_of_lt hlo]
  generalize hx : lo ^^^ byte.toNat = x at hxor hlow hmixed
  have hsmall : x * 0x1b3 < 2 ^ 53 := by omega
  have hwidth : 0 < 0x100000000 := by norm_num
  have hcarry := floor_nearest_div hsmall hwidth
  have himul : (imul hi 0x1b3).natAbs ≤ 0x100000000 := by
    have hge := @Int.le_bmod ((hi : ℤ) * (0x1b3 : ℕ)) 0x100000000 (by omega)
    have hlt := @Int.bmod_lt ((hi : ℤ) * (0x1b3 : ℕ)) 0x100000000 (by omega)
    unfold imul
    omega
  have hcarried : nearest ((imul hi 0x1b3 : ℚ) + ((x * 0x1b3 / 0x100000000 : ℕ) : ℤ)) =
      ((imul hi 0x1b3 + (x * 0x1b3 / 0x100000000 : ℕ) : ℤ) : ℚ) := by
    rw [← Int.cast_add]
    exact nearest_int (by omega)
  have hsum : nearest (((imul hi 0x1b3 + (x * 0x1b3 / 0x100000000 : ℕ) : ℤ) : ℚ) + (x * 0x100 % 0x100000000 : ℕ)) =
      ((imul hi 0x1b3 + (x * 0x1b3 / 0x100000000 : ℕ) + (x * 0x100 % 0x100000000 : ℕ) : ℤ) : ℚ) := by
    rw [← Int.cast_natCast (x * 0x100 % 0x100000000), ← Int.cast_add]
    exact nearest_int (by omega)
  have hhigh : toUint32 hi = hi := by rw [toUint32_nat, Nat.mod_eq_of_lt hhi]
  have hagain : toUint32 ((x : ℕ) : ℚ) = x := by rw [toUint32_nat, Nat.mod_eq_of_lt hxor]
  rw [mixDoubles, hlow, hmixed, hcarry, hhigh, hagain, hcarried, hsum, toUint32_int, toUint32_nat, mixHalves]
  dsimp only
  rw [hx]

theorem doubles_halves (bytes : Bytes) : doubles bytes = (((halves bytes).1 : ℚ), ((halves bytes).2 : ℚ)) := by
  induction bytes using List.reverseRecOn with
  | nil => simp [doubles, halves]
  | append_singleton bytes byte ih =>
    obtain ⟨_, hhi, hlo⟩ := halves_word bytes
    have hdoubles : doubles (bytes ++ [byte]) = mixDoubles (doubles bytes) byte := by simp [doubles]
    have hhalves : halves (bytes ++ [byte]) = mixHalves (halves bytes) byte := by simp [halves]
    rw [hdoubles, hhalves, ih, mixDoubles_halves hhi hlo]

/-- **The coordinator's fingerprint is the builder's.** In two halves kept in doubles it is the 64-bit FNV-1a, and the
product of each byte's step is an integer that a double holds. -/
theorem fnv1a64_doubles (bytes : Bytes) : fnv1a64Doubles bytes = fnv1a64 bytes ∧
    ∀ before byte after, bytes = before ++ byte :: after →
      ∃ n : ℕ, n < 2 ^ 53 ∧ product (doubles before) byte = n ∧ nearest (product (doubles before) byte) = n := by
  constructor
  · obtain ⟨_, hhi, hlo⟩ := halves_word bytes
    rw [← fnv1a64Halves_eq, fnv1a64Doubles, doubles_halves, toUint32_nat, toUint32_nat, Nat.mod_eq_of_lt hhi, Nat.mod_eq_of_lt hlo]
    rfl
  · intro before byte after _
    obtain ⟨_, _, hlo⟩ := halves_word before
    rw [doubles_halves]
    obtain ⟨hproduct, hxor, hnearest⟩ := product_exact (halves before).1 hlo byte
    exact ⟨_, by omega, hproduct, hnearest⟩

end Fnv
