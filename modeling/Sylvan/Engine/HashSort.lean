-- SUMMARY: The in-place radix sort of the accumulator's columns by 64-bit hash.
import Mathlib.Tactic.IntervalCases
import Sylvan.Data.FlagSort

/-!
# The in-place hash sort

The columns are sorted by `(hi, lo)` where they lie: 16 bits of the hash first, 8 bits
a level after that, and insertion once a bucket is small. Equal hashes may come out
in any order.
-/

/-- One row of the accumulator's columns. -/
structure HashedEntry where
  lo : UInt32
  hi : UInt32
  value : UInt8
  flags : ℕ
deriving DecidableEq, Inhabited

namespace HashSort

open TypedArray

/-- The hash as one number, `hi` first. -/
def hash64 (e : HashedEntry) : ℕ := e.hi.toNat * 2 ^ 32 + e.lo.toNat

def INSERTION_CUTOFF : ℕ := 24
def SUB_LEVELS : ℕ := 6

def LEVEL_IN_HI (level : ℕ) : Bool := [true, true, true, false, false, false, false].getD level false
def LEVEL_SHIFT (level : ℕ) : ℕ := [16, 8, 0, 24, 16, 8, 0].getD level 0

def digit (level radix : ℕ) (e : HashedEntry) : ℕ :=
  ((if LEVEL_IN_HI level then e.hi else e.lo).toNat >>> LEVEL_SHIFT level) &&& (radix - 1)

/-- How many entries of `[start, stop)` have the digit `d`. -/
def countDigit (cols : TypedArray HashedEntry) (start stop level radix d : ℕ) : ℕ :=
  ((List.range' start (stop - start)).filter fun i => digit level radix (cols.read i) = d).length

/-- Where each digit's bucket starts: the running sum of the digits' counts. -/
def bucketBounds (cols : TypedArray HashedEntry) (start stop level radix : ℕ) : ℕ → ℕ
  | 0 => start
  | d + 1 =>
    bucketBounds cols start stop level radix d + countDigit cols start stop level radix d

def permute (cols : TypedArray HashedEntry) (bounds : ℕ → ℕ) (radix level : ℕ) : TypedArray HashedEntry :=
  cols.distribute (digit level radix) radix bounds

def notAfter (a b : HashedEntry) : Bool := a.hi < b.hi ∨ (a.hi = b.hi ∧ a.lo ≤ b.lo)

/-- Sort `[start, stop)` with `left` levels of 8 bits to go. -/
def sortRange : ℕ → ℕ → ℕ → TypedArray HashedEntry → TypedArray HashedEntry
  | 0, start, stop, cols => cols.insertionSort notAfter start stop
  | left + 1, start, stop, cols =>
    if stop - start ≤ INSERTION_CUTOFF then cols.insertionSort notAfter start stop
    else
      let level := SUB_LEVELS - left
      let bounds := bucketBounds cols start stop level 256
      (permute cols bounds 256 level).sortBuckets (sortRange left) 256 bounds

/-- Sort the first `n` rows. -/
def sortByHash (cols : TypedArray HashedEntry) (n : ℕ) : TypedArray HashedEntry :=
  if n < 2 then cols
  else
    let bounds := bucketBounds cols 0 n 0 65536
    (permute cols bounds 65536 0).sortBuckets (sortRange SUB_LEVELS) 65536 bounds

/-! ## The digits of a hash -/

theorem notAfter_iff (a b : HashedEntry) : notAfter a b = true ↔ hash64 a ≤ hash64 b := by
  have ha := a.lo.toNat_lt
  have hb := b.lo.toNat_lt
  rw [notAfter, decide_eq_true_iff, UInt32.lt_iff_toNat_lt, UInt32.le_iff_toNat_le, ← UInt32.toNat_inj, hash64, hash64]
  omega

theorem digit_zero (e : HashedEntry) : digit 0 65536 e = hash64 e / 2 ^ 48 := by
  have hhi := e.hi.toNat_lt
  have hlo := e.lo.toNat_lt
  have hmask : digit 0 65536 e = e.hi.toNat / 65536 % 2 ^ 16 := by
    rw [← Nat.and_two_pow_sub_one_eq_mod]
    simp [digit, LEVEL_IN_HI, LEVEL_SHIFT, Nat.shiftRight_eq_div_pow]
  rw [hmask, hash64]
  omega

/-- With `left` levels after it, a level's digit is the next 8 bits of the hash. -/
theorem digit_level {left : ℕ} (h : left < SUB_LEVELS) (e : HashedEntry) :
    digit (SUB_LEVELS - left) 256 e = hash64 e / 2 ^ (8 * left) % 256 := by
  have hlo := e.lo.toNat_lt
  have hmask : ∀ n, n &&& 255 = n % 2 ^ 8 := fun n => Nat.and_two_pow_sub_one_eq_mod n 8
  rw [SUB_LEVELS] at h ⊢
  interval_cases left <;>
    simp [digit, LEVEL_IN_HI, LEVEL_SHIFT, Nat.shiftRight_eq_div_pow, hmask, hash64] <;> omega

theorem hash64_split {left : ℕ} (h : left < SUB_LEVELS) (e : HashedEntry) : hash64 e / 2 ^ (8 * left) =
      256 * (hash64 e / 2 ^ (8 * (left + 1))) + digit (SUB_LEVELS - left) 256 e := by
  have hpow : 2 ^ (8 * (left + 1)) = 2 ^ (8 * left) * 256 := by
    rw [Nat.mul_succ, Nat.pow_add]
  rw [digit_level h, hpow, ← Nat.div_div_eq_div_mul, Nat.div_add_mod]

/-! ## Buckets -/

variable {cols : TypedArray HashedEntry} {start stop level radix : ℕ}

theorem digit_lt (level : ℕ) {radix : ℕ} (h : 0 < radix) (e : HashedEntry) : digit level radix e < radix :=
  lt_of_le_of_lt Nat.and_le_right (by omega)

theorem countDigit_eq (d : ℕ) : countDigit cols start stop level radix d =
    ((Finset.Ico start stop).filter fun k => digit level radix (cols.read k) = d).card := by
  rw [countDigit, ← List.toFinset_card_of_nodup (List.Nodup.filter _ List.nodup_range')]
  congr 1
  ext k
  simp only [List.mem_toFinset, List.mem_filter, List.mem_range'_1, Finset.mem_filter, Finset.mem_Ico, decide_eq_true_eq]
  refine and_congr_left fun _ => ?_
  omega

theorem bucketBounds_mono : Monotone (bucketBounds cols start stop level radix) :=
  monotone_nat_of_le_succ fun _ => Nat.le_add_right _ _

theorem bucketBounds_eq (d : ℕ) : bucketBounds cols start stop level radix d = start +
    ((Finset.Ico start stop).filter fun k => digit level radix (cols.read k) < d).card := by
  induction d with
  | zero => simp [bucketBounds]
  | succ d ih =>
    rw [bucketBounds, ih, countDigit_eq, Nat.add_assoc, ← Finset.card_union_of_disjoint]
    · congr 2
      ext k
      simp only [Finset.mem_union, Finset.mem_filter]
      rw [← and_or_left]
      exact and_congr_right fun _ => Nat.lt_succ_iff_lt_or_eq.symm
    · refine Finset.disjoint_filter.mpr fun k _ h1 h2 => ?_
      omega

theorem bucketBounds_radix (hradix : 0 < radix) (h : start ≤ stop) :
    bucketBounds cols start stop level radix radix = stop := by
  rw [bucketBounds_eq, Finset.filter_true_of_mem fun k _ => digit_lt level hradix _, Nat.card_Ico]
  omega

theorem permute_spec (level : ℕ) (hradix : 0 < radix) (h : start ≤ stop) (hstop : stop ≤ cols.length) :
    let bounds := bucketBounds cols start stop level radix
    Rearranges start stop cols (permute cols bounds radix level) ∧
      InBuckets (digit level radix) radix bounds (permute cols bounds radix level) := by
  have hend : bucketBounds cols start stop level radix radix = stop := bucketBounds_radix hradix h
  have hmono : Monotone (bucketBounds cols start stop level radix) := bucketBounds_mono
  have hdist := distribute_spec hmono (digit_lt level hradix) (hend.trans_le hstop)
    (fun e _ => by
      rw [hend, bucketBounds, bucketBounds, Nat.add_sub_cancel_left]
      exact (countDigit_eq e).symm)
  rwa [hend] at hdist

/-! ## The sort -/

/-- The hashes of `[start, stop)` agree above their low `8 * left` bits. -/
def Agree (left start stop : ℕ) (cols : TypedArray HashedEntry) : Prop :=
  ∃ c, ∀ k, start ≤ k → k < stop → hash64 (cols.read k) / 2 ^ (8 * left) = c

theorem Agree.rearranges {left : ℕ} {cols' : TypedArray HashedEntry} (h : Agree left start stop cols)
    (hmoved : Rearranges start stop cols cols') : Agree left start stop cols' := by
  obtain ⟨c, hc⟩ := h
  refine ⟨c, fun k hk hk' => ?_⟩
  obtain ⟨k', h1, h2, hread⟩ := hmoved.inside hk hk'
  rw [hread]
  exact hc k' h1 h2

theorem bucket_order (left : ℕ) {bounds : ℕ → ℕ} (hmono : Monotone bounds)
    {pick : HashedEntry → ℕ} (hin : InBuckets pick radix bounds cols)
    (hpick : ∀ i j, bounds 0 ≤ i → i < bounds radix → bounds 0 ≤ j → j < bounds radix →
      pick (cols.read i) < pick (cols.read j) →
      hash64 (cols.read i) / 2 ^ (8 * left) < hash64 (cols.read j) / 2 ^ (8 * left))
    (hsorted : ∀ e < radix, RangeSorted hash64 (bounds e) (bounds (e + 1)) cols) :
    RangeSorted hash64 (bounds 0) (bounds radix) cols := by
  refine rangeSorted_of_buckets hmono hsorted fun i j hi hij hj hapart => ?_
  obtain ⟨d, hd, hdi, hdi'⟩ := exists_bucket hi (hij.trans hj)
  obtain ⟨e, he, hej, hej'⟩ := exists_bucket (hi.trans hij.le) hj
  have hde : d < e := by
    by_contra hle
    have hbelow := hmono (show e + 1 ≤ d + 1 by omega)
    have habove := hapart d hdi hdi'
    omega
  have hlt := hpick i j hi (hij.trans hj) (hi.trans hij.le) hj
    (by rwa [hin d hd i hdi hdi', hin e he j hej hej'])
  by_contra hgt
  exact absurd (Nat.div_le_div_right (c := 2 ^ (8 * left)) (Nat.le_of_lt (Nat.lt_of_not_le hgt)))
    (Nat.not_le.mpr hlt)

theorem sortRange_spec (left : ℕ) (hleft : left ≤ SUB_LEVELS) (h : start ≤ stop)
    (hstop : stop ≤ cols.length) (hagree : Agree left start stop cols) :
    Rearranges start stop cols (sortRange left start stop cols) ∧
      RangeSorted hash64 start stop (sortRange left start stop cols) := by
  induction left generalizing cols start stop with
  | zero => exact insertionSort_spec notAfter_iff hstop
  | succ left ih =>
    rw [sortRange]
    split_ifs with hsmall
    · exact insertionSort_spec notAfter_iff hstop
    · have hmono : Monotone (bucketBounds cols start stop (SUB_LEVELS - left) 256) :=
        bucketBounds_mono
      have hend : bucketBounds cols start stop (SUB_LEVELS - left) 256 256 = stop :=
        bucketBounds_radix (by omega) h
      obtain ⟨hmoved, hin⟩ := permute_spec (SUB_LEVELS - left) (show 0 < 256 by omega) h
        hstop
      have hzero : bucketBounds cols start stop (SUB_LEVELS - left) 256 0 = start := rfl
      simp only
      generalize bucketBounds cols start stop (SUB_LEVELS - left) 256 = bounds at *
      generalize permute cols bounds 256 (SUB_LEVELS - left) = spread at *
      have hagree' : Agree (left + 1) start stop spread := hagree.rearranges hmoved
      have hlen := hmoved.length
      have hsplit : ∀ e, hash64 e / 2 ^ (8 * left) = 256 * (hash64 e / 2 ^ (8 * (left + 1))) +
          digit (SUB_LEVELS - left) 256 e := hash64_split hleft
      have hsort := sortBuckets_spec hash64 (sortRange left) hmono hin
        (fun d hd b hb hbin => by
          have h0 := hmono (Nat.zero_le d)
          have h1 := hmono (show d + 1 ≤ 256 from hd)
          obtain ⟨c, hc⟩ := hagree'.rearranges (by rwa [hzero, hend] at hb)
          have hblen := hb.length
          refine ih (Nat.le_of_lt hleft) (hmono (Nat.le_succ d)) (by omega)
            ⟨256 * c + d, fun k hk hk' => ?_⟩
          rw [hsplit, hc k (by omega) (by omega), hbin d hd k hk hk'])
      obtain ⟨hfinal, hfinalin, hsorted⟩ := hsort
      obtain ⟨c, hc⟩ := hagree'.rearranges (by rwa [hzero, hend] at hfinal)
      have hordered := bucket_order left hmono hfinalin
        (fun i j hi hi' hj hj' hlt => by
          rw [hsplit, hsplit, hc i (by omega) (by omega), hc j (by omega) (by omega)]
          omega) hsorted
      rw [hzero, hend] at hfinal hordered
      exact ⟨hmoved.trans hfinal, hordered⟩

/-- **The radix sort sorts**: the rows it was given, in the order of their hashes. -/
theorem sortByHash_spec {n : ℕ} (hn : n ≤ cols.length) : Rearranges 0 n cols (sortByHash cols n) ∧
      RangeSorted hash64 0 n (sortByHash cols n) := by
  rw [sortByHash]
  split_ifs with hshort
  · exact ⟨Rearranges.refl _ _ _, fun i j hi hij hj => by omega⟩
  · have hmono : Monotone (bucketBounds cols 0 n 0 65536) := bucketBounds_mono
    have hend : bucketBounds cols 0 n 0 65536 65536 = n :=
      bucketBounds_radix (by omega) (Nat.zero_le n)
    obtain ⟨hmoved, hin⟩ := permute_spec 0 (show 0 < 65536 by omega) (Nat.zero_le n) hn
    have hzero : bucketBounds cols 0 n 0 65536 0 = 0 := rfl
    simp only
    generalize bucketBounds cols 0 n 0 65536 = bounds at *
    generalize permute cols bounds 65536 0 = spread at *
    have hlen := hmoved.length
    have hsort := sortBuckets_spec hash64 (sortRange SUB_LEVELS) hmono hin
      (fun d hd b hb hbin => by
        have h1 := hmono (show d + 1 ≤ 65536 from hd)
        have hblen := hb.length
        refine sortRange_spec SUB_LEVELS le_rfl (hmono (Nat.le_succ d)) (by omega)
          ⟨d, fun k hk hk' => ?_⟩
        rw [← hbin d hd k hk hk', digit_zero]
        rfl)
    obtain ⟨hfinal, hfinalin, hsorted⟩ := hsort
    have hordered := bucket_order SUB_LEVELS hmono hfinalin
      (fun i j hi hi' hj hj' hlt => by rwa [digit_zero, digit_zero] at hlt) hsorted
    rw [hzero, hend] at hfinal hordered
    exact ⟨hmoved.trans hfinal, hordered⟩

end HashSort
