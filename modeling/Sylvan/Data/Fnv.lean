-- SUMMARY: The 64-bit FNV-1a of bytes, in one word and in two halves, and its sixteen hexadecimal digits.
import Sylvan.Data.Bytes
import Mathlib.Data.Nat.Bitwise
import Mathlib.Data.List.Basic
import Mathlib.Data.Int.ModEq
import Mathlib.Tactic.Ring

/-!
# FNV-1a

One reader of a table keeps the hash in a 64-bit word, the other in two 32-bit halves.
-/

namespace Fnv

/-- `n` in `width` hexadecimal digits. -/
def hex : ℕ → ℕ → List Char
  | 0, _ => []
  | width + 1, n => hex width (n / 16) ++ [Nat.digitChar (n % 16)]

/-- The hash in one word: `hash = (hash ^ byte).wrapping_mul(0x100000001b3)`. -/
def word (bytes : Bytes) : ℕ :=
  bytes.foldl (fun hash byte => (hash ^^^ byte.toNat) * 0x100000001b3 % 0x10000000000000000) 0xcbf29ce484222325

def fnv1a64 (bytes : Bytes) : List Char := hex 16 (word bytes)

/-- `Math.imul`: the low 32 bits of the product, signed. -/
def imul (a b : ℕ) : ℤ := Int.bmod (a * b) (0x100000000)

/-- One byte into the halves `(hi, lo)`. -/
def mixHalves (halves : ℕ × ℕ) (byte : UInt8) : ℕ × ℕ :=
  let lo := halves.2 ^^^ byte.toNat
  let low := lo * 0x1b3
  let hi := imul halves.1 0x1b3 + (low / 0x100000000 : ℕ) + ((lo * 0x100) % 0x100000000 : ℕ)
  ((hi % 0x100000000).toNat, low % 0x100000000)

def halves (bytes : Bytes) : ℕ × ℕ := bytes.foldl mixHalves (0xcbf29ce4, 0x84222325)

/-- `n.toString(16).padStart(8, "0")`. -/
def hexPadded (n : ℕ) : List Char := (Nat.toDigits 16 n).leftpad 8 '0'

def fnv1a64Halves (bytes : Bytes) : List Char :=
  hexPadded (halves bytes).1 ++ hexPadded (halves bytes).2

/-! ## Digits -/

@[simp] theorem length_hex (width n : ℕ) : (hex width n).length = width := by
  induction width generalizing n with
  | zero => rfl
  | succ width ih => simp [hex, ih]

theorem hex_zero (width : ℕ) : hex width 0 = List.replicate width '0' := by
  induction width with
  | zero => rfl
  | succ width ih =>
    rw [hex, Nat.zero_div, ih, List.replicate_succ']
    rfl

theorem hex_append (front back m n : ℕ) (h : n < 16 ^ back) :
    hex (front + back) (m * 16 ^ back + n) = hex front m ++ hex back n := by
  induction back generalizing n with
  | zero => simp [hex, show n = 0 by simpa using h]
  | succ back ih =>
    have hfar : m * 16 ^ (back + 1) = m * 16 ^ back * 16 := by rw [pow_succ, mul_assoc]
    have hdiv : (m * 16 ^ (back + 1) + n) / 16 = m * 16 ^ back + n / 16 := by omega
    have hmod : (m * 16 ^ (back + 1) + n) % 16 = n % 16 := by omega
    have hlt : n / 16 < 16 ^ back := by
      rw [pow_succ] at h
      omega
    rw [← Nat.add_assoc, hex, hdiv, hmod, ih (n / 16) hlt, hex, List.append_assoc]

theorem digitChar_inj {m n : ℕ} (hm : m < 16) (hn : n < 16) (h : Nat.digitChar m = Nat.digitChar n) : m = n := by
  have hall : ∀ a b : Fin 16, Nat.digitChar a = Nat.digitChar b → a = b := by decide
  exact congrArg Fin.val (hall ⟨m, hm⟩ ⟨n, hn⟩ h)

theorem hex_inj {width m n : ℕ} (hm : m < 16 ^ width) (hn : n < 16 ^ width) (h : hex width m = hex width n) : m = n := by
  induction width generalizing m n with
  | zero =>
    rw [pow_zero] at hm hn
    omega
  | succ width ih =>
    rw [hex, hex] at h
    obtain ⟨hfront, hlast⟩ := List.append_inj' h rfl
    rw [pow_succ] at hm hn
    have hdiv := ih (by omega) (by omega) hfront
    have hmod := digitChar_inj (Nat.mod_lt m (by omega)) (Nat.mod_lt n (by omega)) (List.cons.inj hlast).1
    omega

theorem leftpad_toDigits {width n : ℕ} (hwidth : 0 < width) (h : n < 16 ^ width) :
    (Nat.toDigits 16 n).leftpad width '0' = hex width n := by
  induction width generalizing n with
  | zero => omega
  | succ width ih =>
    rw [Nat.toDigits_eq_if (by omega)]
    split
    · rename_i hlt
      rw [hex, Nat.div_eq_of_lt hlt, hex_zero, Nat.mod_eq_of_lt hlt]
      simp [List.leftpad]
    · rename_i hge
      have hlt : n / 16 < 16 ^ width := by
        rw [pow_succ] at h
        omega
      have hpos : 0 < width := by
        rcases Nat.eq_zero_or_pos width with rfl | hpos
        · omega
        · exact hpos
      rw [hex, ← ih hpos hlt]
      simp [List.leftpad]

/-! ## The halves are the word -/

theorem xor_low {hi lo byte : ℕ} (hlo : lo < 2 ^ 32) (hbyte : byte < 2 ^ 32) :
    (2 ^ 32 * hi + lo) ^^^ byte = 2 ^ 32 * hi + (lo ^^^ byte) := by
  have hxor : lo ^^^ byte < 2 ^ 32 := Nat.xor_lt_two_pow hlo hbyte
  apply Nat.eq_of_testBit_eq
  intro i
  rw [Nat.testBit_xor, Nat.testBit_two_pow_mul_add hi hlo i, Nat.testBit_two_pow_mul_add hi hxor i]
  by_cases hi32 : i < 32
  · simp [hi32, Nat.testBit_xor]
  · have hpow : 2 ^ 32 ≤ 2 ^ i := Nat.pow_le_pow_right Nat.two_pos (by omega)
    have hbit : byte.testBit i = false := Nat.testBit_lt_two_pow (lt_of_lt_of_le hbyte hpow)
    simp [hi32, hbit]

theorem imul_emod (a b : ℕ) : Int.ModEq (0x100000000 : ℕ) (imul a b) (a * b : ℕ) := by
  unfold imul Int.ModEq
  simpa only [Nat.cast_mul] using Int.bmod_emod

theorem mixHalves_hi (hi lo : ℕ) (byte : UInt8) : (mixHalves (hi, lo) byte).1 =
      (hi * 0x1b3 + (lo ^^^ byte.toNat) * 0x1b3 / 0x100000000 + (lo ^^^ byte.toNat) * 0x100) % 0x100000000 := by
  generalize hx : lo ^^^ byte.toNat = x
  have hcarry : Int.ModEq (0x100000000 : ℕ) ((x * 0x100 % 0x100000000 : ℕ) : ℤ) (x * 0x100 : ℕ) := by
    rw [Int.natCast_mod]
    exact Int.mod_modEq _ _
  have hsum := ((imul_emod hi 0x1b3).add_right ((x * 0x1b3 / 0x100000000 : ℕ) : ℤ)).add hcarry
  have hnat := congrArg Int.toNat hsum
  rw [← Nat.cast_add, ← Nat.cast_add, ← Int.natCast_mod, Int.toNat_natCast] at hnat
  simp only [mixHalves, hx]
  exact hnat

/-- A product of two-digit numbers to the base `w`, kept to two digits. -/
theorem mul_two_digits {w : ℕ} (hw : 0 < w) (hi x c d : ℕ) : (hi * w + x) * (d * w + c) % (w * w) =
      (hi * c + x * c / w + x * d) % w * w + x * c % w := by
  have hsplit : (hi * w + x) * (d * w + c) = x * c + w * (hi * c + x * d + w * (hi * d)) := by ring
  rw [Nat.mod_mul, hsplit, Nat.add_mul_mod_self_left, Nat.add_mul_div_left _ _ hw, ← Nat.add_assoc,
    Nat.add_mul_mod_self_left, add_comm (x * c % w), mul_comm w]
  congr 3
  omega

theorem mixHalves_word (hi : ℕ) {lo : ℕ} (hlo : lo < 0x100000000) (byte : UInt8) :
    (mixHalves (hi, lo) byte).1 * 0x100000000 + (mixHalves (hi, lo) byte).2 =
      ((hi * 0x100000000 + lo) ^^^ byte.toNat) * 0x100000001b3 % 0x10000000000000000 := by
  have hbyte : byte.toNat < 0x100000000 := lt_trans byte.toNat_lt (by decide)
  have hxor : (hi * 0x100000000 + lo) ^^^ byte.toNat = hi * 0x100000000 + (lo ^^^ byte.toNat) := by
    rw [mul_comm hi]
    exact xor_low hlo hbyte
  rw [hxor, mixHalves_hi]
  exact (mul_two_digits (w := 0x100000000) (by decide) hi (lo ^^^ byte.toNat) 0x1b3 0x100).symm

theorem mixHalves_lt (halves : ℕ × ℕ) (byte : UInt8) :
    (mixHalves halves byte).1 < 0x100000000 ∧ (mixHalves halves byte).2 < 0x100000000 := by
  constructor
  · rw [mixHalves_hi halves.1 halves.2]
    exact Nat.mod_lt _ (by decide)
  · exact Nat.mod_lt _ (by decide)

theorem halves_word (bytes : Bytes) : (halves bytes).1 * 0x100000000 + (halves bytes).2 = word bytes ∧
      (halves bytes).1 < 0x100000000 ∧ (halves bytes).2 < 0x100000000 := by
  have hfold : ∀ start : ℕ × ℕ, start.1 < 0x100000000 ∧ start.2 < 0x100000000 →
      (bytes.foldl mixHalves start).1 * 0x100000000 + (bytes.foldl mixHalves start).2 =
          bytes.foldl (fun hash byte => (hash ^^^ byte.toNat) * 0x100000001b3 % 0x10000000000000000)
            (start.1 * 0x100000000 + start.2) ∧
        (bytes.foldl mixHalves start).1 < 0x100000000 ∧ (bytes.foldl mixHalves start).2 < 0x100000000 := by
    intro start hlt
    induction bytes generalizing start with
    | nil => exact ⟨rfl, hlt⟩
    | cons byte bytes ih =>
      have hword := mixHalves_word start.1 hlt.2 byte
      rw [List.foldl_cons, List.foldl_cons, ← hword]
      exact ih (mixHalves start byte) (mixHalves_lt start byte)
  exact hfold (0xcbf29ce4, 0x84222325) (by decide)

theorem word_lt (bytes : Bytes) : word bytes < 2 ^ 64 := by
  obtain ⟨hword, hhi, hlo⟩ := halves_word bytes
  omega

/-- **Both readers name a table by the same sixteen digits.** -/
theorem fnv1a64Halves_eq (bytes : Bytes) : fnv1a64Halves bytes = fnv1a64 bytes := by
  obtain ⟨hword, hhi, hlo⟩ := halves_word bytes
  have h16 : (16 : ℕ) ^ 8 = 0x100000000 := by decide
  rw [fnv1a64Halves, fnv1a64, ← hword, hexPadded, hexPadded, leftpad_toDigits (by omega) (by omega),
    leftpad_toDigits (by omega) (by omega), ← h16, hex_append 8 8 _ _ (by omega)]

end Fnv
