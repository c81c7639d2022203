-- SUMMARY: Python's strings and numbers as the parser reads them.
import Mathlib.Data.Int.Notation
import Mathlib.Data.Nat.Notation

/-!
# Python strings and numbers

The parser mirrors CPython. Its Unicode tables and the engine's doubles stay
parameters: what is fixed of them is what they say of ASCII.
-/

/-- Python's `str.isspace()`. -/
def pySpace (c : Char) : Bool :=
  [0x09, 0x0a, 0x0b, 0x0c, 0x0d, 0x1c, 0x1d, 0x1e, 0x1f, 0x20, 0x85, 0xa0, 0x1680, 0x2000, 0x2001,
    0x2002, 0x2003, 0x2004, 0x2005, 0x2006, 0x2007, 0x2008, 0x2009, 0x200a, 0x2028, 0x2029, 0x202f,
    0x205f, 0x3000].contains c.toNat

/-- The tables of `py-unicode-data`, and doubles with what is read off them. -/
structure PyHost where
  isAlphaCp : Char → Bool
  pyLower : String → String
  pyUpper : String → String
  Double : Type
  /-- `Number(text)` of digits with a point among them, where it is finite. -/
  number : String → Option Double
  negate : Double → Double
  /-- `BigInt(Math.trunc(x))`. -/
  truncated : Double → ℤ
  /-- `pyFloatRepr(x)`. -/
  repr : Double → String
  isAlphaCp_ascii : ∀ c : Char, c.toNat < 0x80 → isAlphaCp c = c.isAlpha
  /-- No space is a letter. -/
  pySpace_of_isAlphaCp : ∀ c : Char, isAlphaCp c = true → pySpace c = false

/-- An int or a float; the difference shows in the wire text. -/
inductive PyNumber (F : Type) where
  | int (value : ℤ)
  | float (value : F)
deriving DecidableEq, Repr

namespace PyNumber

variable {py : PyHost}

def toBigIntTruncated : PyNumber py.Double → ℤ
  | .int value => value
  | .float value => py.truncated value

def negate : PyNumber py.Double → PyNumber py.Double
  | .int value => .int (-value)
  | .float value => .float (py.negate value)

def toString : PyNumber py.Double → String
  | .int value => ToString.toString value
  | .float value => py.repr value

end PyNumber

def pyStrip (s : String) : String :=
  String.ofList (((s.toList.dropWhile pySpace).reverse.dropWhile pySpace).reverse)

theorem pySpace_of_lt {c : Char} (hl : 0x20 < c.toNat) (hu : c.toNat < 0x85) : pySpace c = false := by
  simp only [pySpace, List.contains_eq_mem, decide_eq_false_iff_not, List.mem_cons, List.not_mem_nil, or_false]
  omega

theorem isAlpha_range {c : Char} (h : c.isAlpha = true) : 0x41 ≤ c.toNat ∧ c.toNat ≤ 0x7a := by
  unfold Char.isAlpha Char.isUpper Char.isLower at h
  simp only [Bool.or_eq_true, Bool.and_eq_true, decide_eq_true_eq, ge_iff_le, UInt32.le_iff_toNat_le] at h
  have hz : 'z'.val.toNat = 0x7a := rfl
  have ha : 'a'.val.toNat = 0x61 := rfl
  have hZ : 'Z'.val.toNat = 0x5a := rfl
  have hA : 'A'.val.toNat = 0x41 := rfl
  have hc : c.toNat = c.val.toNat := rfl
  omega

theorem isDigit_range {c : Char} (h : c.isDigit = true) : 0x30 ≤ c.toNat ∧ c.toNat ≤ 0x39 := by
  simp only [Char.isDigit, Bool.and_eq_true, decide_eq_true_eq, ge_iff_le, UInt32.le_iff_toNat_le] at h
  have h0 : '0'.val.toNat = 0x30 := rfl
  have h9 : '9'.val.toNat = 0x39 := rfl
  have hc : c.toNat = c.val.toNat := rfl
  omega

theorem pySpace_of_isAlpha {c : Char} (h : c.isAlpha = true) : pySpace c = false := by
  have hrange := isAlpha_range h
  exact pySpace_of_lt (by omega) (by omega)

def asciiHost : PyHost where
  isAlphaCp c := c.isAlpha
  pyLower s := String.ofList (s.toList.map Char.toLower)
  pyUpper s := String.ofList (s.toList.map Char.toUpper)
  Double := Empty
  number _ := none
  negate := id
  truncated := nofun
  repr := nofun
  isAlphaCp_ascii _ _ := rfl
  pySpace_of_isAlphaCp _ h := pySpace_of_isAlpha h

instance : DecidableEq asciiHost.Double := inferInstanceAs (DecidableEq Empty)
