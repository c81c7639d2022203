-- SUMMARY: `TextEncoder` and `TextDecoder`: UTF-8 of strings, and the replacing decoder.
import Sylvan.Data.Bytes

/-!
# UTF-8

The encoder writes one to four bytes a character. The decoder reads any bytes: what
is not well formed becomes U+FFFD, at the byte where it stopped being so, and a
byte-order mark at the start is dropped.
-/

namespace Utf8

def encodeChar (c : Char) : Bytes :=
  let v := c.toNat
  if v < 0x80 then [UInt8.ofNat v]
  else if v < 0x800 then [UInt8.ofNat (0xc0 + v / 64), UInt8.ofNat (0x80 + v % 64)]
  else if v < 0x10000 then
    [UInt8.ofNat (0xe0 + v / 4096), UInt8.ofNat (0x80 + v / 64 % 64), UInt8.ofNat (0x80 + v % 64)]
  else
    [UInt8.ofNat (0xf0 + v / 262144), UInt8.ofNat (0x80 + v / 4096 % 64),
      UInt8.ofNat (0x80 + v / 64 % 64), UInt8.ofNat (0x80 + v % 64)]

def encode (s : String) : Bytes := s.toList.flatMap encodeChar

/-! ## Decoding -/

/-- A sequence in progress: the continuation bytes it still needs, its code point so
far, and the range the next byte must lie in. -/
structure Pending where
  needed : ℕ
  point : ℕ
  lower : ℕ
  upper : ℕ

def ready : Pending := ⟨0, 0, 0x80, 0xbf⟩

def REPLACEMENT : Char := '\uFFFD'

/-- A byte read where a sequence begins: what it emits, and the sequence it opens. -/
def lead (b : ℕ) : List Char × Pending :=
  if b < 0x80 then ([Char.ofNat b], ready)
  else if b < 0xc2 then ([REPLACEMENT], ready)
  else if b < 0xe0 then ([], ⟨1, b % 32, 0x80, 0xbf⟩)
  else if b < 0xf0 then
    -- No overlong forms after E0, no surrogates after ED.
    ([], ⟨2, b % 16, if b = 0xe0 then 0xa0 else 0x80, if b = 0xed then 0x9f else 0xbf⟩)
  else if b < 0xf5 then
    ([], ⟨3, b % 8, if b = 0xf0 then 0x90 else 0x80, if b = 0xf4 then 0x8f else 0xbf⟩)
  else ([REPLACEMENT], ready)

def step (p : Pending) (b : ℕ) : List Char × Pending :=
  match p.needed with
  | 0 => lead b
  | n + 1 =>
    if b < p.lower ∨ p.upper < b then
      -- The byte is read again, as the start of a sequence.
      (REPLACEMENT :: (lead b).1, (lead b).2)
    else if n = 0 then ([Char.ofNat (64 * p.point + b % 64)], ready)
    else ([], ⟨n, 64 * p.point + b % 64, 0x80, 0xbf⟩)

def decodeFrom (p : Pending) : Bytes → List Char
  | [] => if p.needed = 0 then [] else [REPLACEMENT]
  | b :: bs => (step p b.toNat).1 ++ decodeFrom (step p b.toNat).2 bs

def BOM : Char := '\uFEFF'

def decode (bytes : Bytes) : String :=
  let text := decodeFrom ready bytes
  String.ofList (if text.head? = some BOM then text.tail else text)

theorem toNat_ofNat_of_lt {n : ℕ} (h : n < 256) : (UInt8.ofNat n).toNat = n := by
  rw [UInt8.toNat_ofNat']
  omega

theorem decodeFrom_cons {p q : Pending} {b : ℕ} {out : List Char} (hb : b < 256)
    (h : step p b = (out, q)) (bs : Bytes) :
    decodeFrom p (UInt8.ofNat b :: bs) = out ++ decodeFrom q bs := by
  rw [decodeFrom, toNat_ofNat_of_lt hb, h]

theorem decodeFrom_next {n point lower upper b : ℕ} (hb : b < 256) (hl : lower ≤ b)
    (hu : b ≤ upper) (bs : Bytes) :
    decodeFrom ⟨n + 2, point, lower, upper⟩ (UInt8.ofNat b :: bs) =
      decodeFrom ⟨n + 1, 64 * point + b % 64, 0x80, 0xbf⟩ bs := by
  have hstep : step ⟨n + 2, point, lower, upper⟩ b = ([], ⟨n + 1, 64 * point + b % 64, 0x80, 0xbf⟩) := by
    simp only [step]
    rw [if_neg (by omega), if_neg (by omega)]
  exact decodeFrom_cons hb hstep bs

theorem decodeFrom_last {point lower upper b v : ℕ} (hb : b < 256) (hl : lower ≤ b)
    (hu : b ≤ upper) (hv : 64 * point + b % 64 = v) (bs : Bytes) :
    decodeFrom ⟨1, point, lower, upper⟩ (UInt8.ofNat b :: bs) = Char.ofNat v :: decodeFrom ready bs := by
  have hstep : step ⟨1, point, lower, upper⟩ b = ([Char.ofNat v], ready) := by
    simp only [step]
    rw [if_neg (by omega), if_pos trivial, hv]
  exact decodeFrom_cons hb hstep bs

theorem lead_two {b : ℕ} (hl : 0xc2 ≤ b) (hu : b < 0xe0) : lead b = ([], ⟨1, b % 32, 0x80, 0xbf⟩) := by
  rw [lead, if_neg (by omega), if_neg (by omega), if_pos hu]

theorem lead_three {b : ℕ} (hl : 0xe0 ≤ b) (hu : b < 0xf0) : lead b =
      ([], ⟨2, b % 16, if b = 0xe0 then 0xa0 else 0x80, if b = 0xed then 0x9f else 0xbf⟩) := by
  rw [lead, if_neg (by omega), if_neg (by omega), if_neg (by omega), if_pos hu]

theorem lead_four {b : ℕ} (hl : 0xf0 ≤ b) (hu : b < 0xf5) : lead b =
      ([], ⟨3, b % 8, if b = 0xf0 then 0x90 else 0x80, if b = 0xf4 then 0x8f else 0xbf⟩) := by
  rw [lead, if_neg (by omega), if_neg (by omega), if_neg (by omega), if_neg (by omega), if_pos hu]

theorem decodeFrom_encodeChar (c : Char) (bs : Bytes) :
    decodeFrom ready (encodeChar c ++ bs) = c :: decodeFrom ready bs := by
  have hc : Char.ofNat c.toNat = c := Char.ofNat_toNat c
  have hvalid : c.toNat < 0xd800 ∨ 0xdfff < c.toNat ∧ c.toNat < 0x110000 := c.valid
  simp only [encodeChar]
  generalize c.toNat = v at hc hvalid
  subst hc
  -- The first byte's value alone tells how many follow and what the second may be.
  split_ifs with h1 h2 h3
  · have hlead : step ready v = ([Char.ofNat v], ready) := by
      show lead v = _
      rw [lead, if_pos h1]
    exact decodeFrom_cons (by omega) hlead bs
  · have hlead : step ready (0xc0 + v / 64) = _ := lead_two (by omega) (by omega)
    exact (decodeFrom_cons (by omega) hlead _).trans
      (decodeFrom_last (by omega) (by omega) (by omega) (by omega) bs)
  · have hlead : step ready (0xe0 + v / 4096) = _ := lead_three (by omega) (by omega)
    have hdiv : v / 64 / 64 = v / 4096 := by omega
    exact (decodeFrom_cons (by omega) hlead _).trans
      ((decodeFrom_next (by omega) (by split_ifs <;> omega) (by split_ifs <;> omega) _).trans
        (decodeFrom_last (by omega) (by omega) (by omega) (by omega) bs))
  · have hlead : step ready (0xf0 + v / 262144) = _ := lead_four (by omega) (by omega)
    have hdiv : v / 4096 / 64 = v / 262144 := by omega
    exact (decodeFrom_cons (by omega) hlead _).trans
      ((decodeFrom_next (by omega) (by split_ifs <;> omega) (by split_ifs <;> omega) _).trans
        ((decodeFrom_next (by omega) (by omega) (by omega) _).trans
          (decodeFrom_last (by omega) (by omega) (by omega) (by omega) bs)))

/-- **A string without a byte-order mark reads back as it was written.** -/
theorem decode_encode {s : String} (h : s.toList.head? ≠ some BOM) : decode (encode s) = s := by
  have htext : ∀ cs : List Char, decodeFrom ready (cs.flatMap encodeChar) = cs := by
    intro cs
    induction cs with
    | nil => rfl
    | cons c cs ih => rw [List.flatMap_cons, decodeFrom_encodeChar, ih]
  rw [decode, encode, htext, if_neg h, String.ofList_toList]

end Utf8
