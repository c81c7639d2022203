-- SUMMARY: A binary search by comparisons, and byte strings compared byte by byte.
import Mathlib.Data.List.Lex
import Mathlib.Data.List.Nodup
import Mathlib.Data.Nat.Basic
import Mathlib.Order.Lattice
import Mathlib.Order.Nat
import Sylvan.Data.Bytes

/-!
# Binary search

The reader of a sorted table compares the entry in the middle with what it wants, and goes
on in one half. Comparing keys of one length byte by byte is comparing them as lists.
-/

namespace Probe

/-! ## The loop -/

/-- `while (lo <= hi)` from the entries `lo..=hi`, where `stop` is `hi + 1`: the entry that compares equal. -/
def search (cmp : ℕ → Ordering) (lo stop : ℕ) : Option ℕ :=
  if lo < stop then
    match cmp ((lo + stop - 1) / 2) with
    | .eq => some ((lo + stop - 1) / 2)
    | .lt => search cmp ((lo + stop - 1) / 2 + 1) stop
    | .gt => search cmp lo ((lo + stop - 1) / 2)
  else none
termination_by stop - lo

variable {cmp : ℕ → Ordering} {lo stop i k : ℕ}

theorem search_sound (h : search cmp lo stop = some i) : lo ≤ i ∧ i < stop ∧ cmp i = .eq := by
  fun_induction search cmp lo stop with
  | case1 lo stop hlt hcmp =>
    obtain rfl := Option.some.inj h
    exact ⟨by omega, by omega, hcmp⟩
  | case2 lo stop hlt hcmp ih =>
    obtain ⟨hlo, hstop, heq⟩ := ih h
    exact ⟨by omega, hstop, heq⟩
  | case3 lo stop hlt hcmp ih =>
    obtain ⟨hlo, hstop, heq⟩ := ih h
    exact ⟨hlo, by omega, heq⟩
  | case4 lo stop hlt => cases h

/-- The entries before `n` compare as less, then as equal, then as greater. -/
structure Monotone (cmp : ℕ → Ordering) (n : ℕ) : Prop where
  lt : ∀ i j, i ≤ j → j < n → cmp j = .lt → cmp i = .lt
  gt : ∀ i j, i ≤ j → j < n → cmp i = .gt → cmp j = .gt

theorem search_complete {n : ℕ} (hmono : Monotone cmp n) (hn : stop ≤ n) (hlo : lo ≤ k) (hstop : k < stop)
    (hk : cmp k = .eq) : ∃ i, search cmp lo stop = some i := by
  fun_induction search cmp lo stop with
  | case1 lo stop hlt hcmp => exact ⟨_, rfl⟩
  | case2 lo stop hlt hcmp ih =>
    refine ih hn ?_ hstop
    by_contra hbefore
    rw [hmono.lt k _ (by omega) (by omega) hcmp] at hk
    cases hk
  | case3 lo stop hlt hcmp ih =>
    refine ih (by omega) hlo ?_
    by_contra hafter
    rw [hmono.gt _ k (by omega) (by omega) hcmp] at hk
    cases hk
  | case4 lo stop hlt => omega

/-! ## Over a sorted list -/

section Sorted

variable {κ : Type*} [LinearOrder κ] {keys : List κ} {key : κ}

/-- What a comparison with `key` tells of the keys of a list. -/
structure Compares (cmp : ℕ → Ordering) (keys : List κ) (key : κ) : Prop where
  lt : ∀ i (h : i < keys.length), cmp i = .lt ↔ keys[i] < key
  eq : ∀ i (h : i < keys.length), cmp i = .eq ↔ keys[i] = key
  gt : ∀ i (h : i < keys.length), cmp i = .gt ↔ key < keys[i]

theorem Compares.monotone (h : Compares cmp keys key) (hsorted : keys.Pairwise (· < ·)) : Monotone cmp keys.length := by
  have hle : ∀ i j (hij : i ≤ j) (hj : j < keys.length), keys[i] ≤ keys[j] := by
    intro i j hij hj
    rcases Nat.eq_or_lt_of_le hij with rfl | hlt
    · exact le_rfl
    · exact (List.pairwise_iff_getElem.mp hsorted i j (by omega) hj hlt).le
  constructor
  · exact fun i j hij hj hcmp => (h.lt i (by omega)).mpr (lt_of_le_of_lt (hle i j hij hj) ((h.lt j hj).mp hcmp))
  · exact fun i j hij hj hcmp => (h.gt j hj).mpr (lt_of_lt_of_le ((h.gt i (by omega)).mp hcmp) (hle i j hij hj))

theorem search_eq_some (h : Compares cmp keys key) (hsorted : keys.Pairwise (· < ·)) :
    search cmp 0 keys.length = some i ↔ keys[i]? = some key := by
  constructor
  · intro hfound
    obtain ⟨_, hi, heq⟩ := search_sound hfound
    rw [List.getElem?_eq_getElem hi, (h.eq i hi).mp heq]
  · intro hat
    obtain ⟨hi, hkey⟩ := List.getElem?_eq_some_iff.mp hat
    obtain ⟨j, hj⟩ := search_complete (h.monotone hsorted) (Nat.le_refl _) (Nat.zero_le i) hi ((h.eq i hi).mpr hkey)
    obtain ⟨_, hjlen, heq⟩ := search_sound hj
    have hsame : keys[i] = keys[j] := hkey.trans ((h.eq j hjlen).mp heq).symm
    have hnodup : keys.Nodup := hsorted.imp ne_of_lt
    rw [hj, hnodup.getElem_inj_iff.mp hsame]

theorem search_eq_none (h : Compares cmp keys key) (hsorted : keys.Pairwise (· < ·)) :
    search cmp 0 keys.length = none ↔ key ∉ keys := by
  rw [← not_iff_not, not_not, ← ne_eq, Option.ne_none_iff_exists']
  simp only [search_eq_some h hsorted, ← List.mem_iff_getElem?]

end Sorted

/-! ## Bytes -/

def compareBytes : Bytes → Bytes → Ordering
  | a :: as, b :: bs => if a ≠ b then (if a < b then .lt else .gt) else compareBytes as bs
  | _, _ => .eq

def order (bytes : Bytes) : List ℕ := bytes.map (·.toNat)

theorem order_injective : Function.Injective order := List.map_injective_iff.mpr fun _ _ => UInt8.toNat_inj.mp

theorem compareBytes_spec {a b : Bytes} (h : a.length = b.length) :
    (compareBytes a b = .lt ↔ order a < order b) ∧ (compareBytes a b = .eq ↔ order a = order b) ∧
      (compareBytes a b = .gt ↔ order b < order a) := by
  induction a generalizing b with
  | nil =>
    obtain rfl := List.eq_nil_of_length_eq_zero h.symm
    simp [compareBytes]
  | cons x a ih =>
    cases b with
    | nil => cases h
    | cons y b =>
      have hrest := ih (Nat.succ.inj h)
      rw [compareBytes]
      simp only [order, List.map_cons] at hrest ⊢
      simp only [List.cons_lt_cons_iff, List.cons.injEq]
      rcases Nat.lt_trichotomy x.toNat y.toNat with hlt | heq | hgt
      · have hne : x ≠ y := fun h => absurd (congrArg UInt8.toNat h) hlt.ne
        rw [if_pos hne, if_pos (UInt8.lt_iff_toNat_lt.mpr hlt)]
        simp [hlt, hlt.ne, hlt.ne', hlt.not_gt]
      · obtain rfl := UInt8.toNat_inj.mp heq
        simpa using hrest
      · have hne : x ≠ y := fun h => absurd (congrArg UInt8.toNat h) hgt.ne'
        rw [if_pos hne, if_neg (fun h => absurd (UInt8.lt_iff_toNat_lt.mp h) hgt.not_gt)]
        simp [hgt, hgt.ne, hgt.ne', hgt.not_gt]

theorem compareBytes_append {a b c d : Bytes} (h : a.length = b.length) :
    compareBytes (a ++ c) (b ++ d) = (compareBytes a b).then (compareBytes c d) := by
  induction a generalizing b with
  | nil =>
    obtain rfl := List.eq_nil_of_length_eq_zero h.symm
    rfl
  | cons x a ih =>
    cases b with
    | nil => cases h
    | cons y b =>
      rw [List.cons_append, List.cons_append, compareBytes, compareBytes, ih (Nat.succ.inj h)]
      split
      · split <;> rfl
      · rfl

end Probe
