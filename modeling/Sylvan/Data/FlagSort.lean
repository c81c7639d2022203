-- SUMMARY: Sorting a typed array where it lies: rearrangements of a range, insertion by sinking, and distribution into buckets by cycles.
import Mathlib.Algebra.BigOperators.Intervals
import Mathlib.Algebra.Order.BigOperators.Group.Finset
import Mathlib.Logic.Equiv.Basic
import Mathlib.Data.Finset.Card
import Mathlib.Data.Finset.Dedup
import Mathlib.Data.List.Perm.Lattice
import Mathlib.Order.Interval.Finset.Nat
import Mathlib.Tactic.Linarith
import Sylvan.Data.TypedArray

/-!
# Sorting in place

Every step moves elements about inside one range of the array. A loop that carries
an element in a register is read as one over the array that has it back in the
place it was lifted from: each step is then the exchange of two elements.
-/

namespace TypedArray

open Function (update update_of_ne update_self)

variable {α : Type} [Inhabited α]

/-! ## Rearrangements -/

/-- `b` is `a` with the elements of `[start, stop)` in another order. -/
def Rearranges (start stop : ℕ) (a b : TypedArray α) : Prop :=
  b.length = a.length ∧ ∃ σ : Equiv.Perm ℕ, (∀ k, σ k ≠ k → start ≤ k ∧ k < stop) ∧ ∀ k, b.read k = a.read (σ k)

variable {start stop : ℕ} {a b c : TypedArray α}

theorem Rearranges.refl (start stop : ℕ) (a : TypedArray α) : Rearranges start stop a a :=
  ⟨rfl, Equiv.refl ℕ, fun _ h => absurd rfl h, fun _ => rfl⟩

theorem Rearranges.trans (hab : Rearranges start stop a b) (hbc : Rearranges start stop b c) :
    Rearranges start stop a c := by
  obtain ⟨hlen, σ, hσ, hread⟩ := hab
  obtain ⟨hlen', τ, hτ, hread'⟩ := hbc
  refine ⟨hlen'.trans hlen, τ.trans σ, fun k hk => ?_, fun k => ?_⟩
  · by_cases hfix : τ k = k
    · exact hσ k (by simpa [hfix] using hk)
    · exact hτ k hfix
  · rw [hread', hread]
    rfl

theorem Rearranges.mono (h : Rearranges start stop a b) {start' stop' : ℕ} (hs : start' ≤ start)
    (hs' : stop ≤ stop') : Rearranges start' stop' a b := by
  obtain ⟨hlen, σ, hσ, hread⟩ := h
  refine ⟨hlen, σ, fun k hk => ?_, hread⟩
  have := hσ k hk
  omega

theorem Rearranges.length (h : Rearranges start stop a b) : b.length = a.length := h.1

theorem Rearranges.outside (h : Rearranges start stop a b) {k : ℕ} (hk : k < start ∨ stop ≤ k) : b.read k = a.read k := by
  obtain ⟨-, σ, hσ, hread⟩ := h
  have hfix : σ k = k := by
    by_contra hne
    have := hσ k hne
    omega
  rw [hread, hfix]

theorem mem_range_of_moves {σ : Equiv.Perm ℕ} (hσ : ∀ k, σ k ≠ k → start ≤ k ∧ k < stop) {k : ℕ} :
    start ≤ σ k ∧ σ k < stop ↔ start ≤ k ∧ k < stop := by
  by_cases hfix : σ k = k
  · rw [hfix]
  · have hk := hσ k hfix
    have hσk := hσ (σ k) fun h => hfix (σ.injective h)
    exact ⟨fun _ => hk, fun _ => hσk⟩

theorem Rearranges.inside (h : Rearranges start stop a b) {k : ℕ} (hs : start ≤ k)
    (hk : k < stop) : ∃ k', start ≤ k' ∧ k' < stop ∧ b.read k = a.read k' := by
  obtain ⟨-, σ, hσ, hread⟩ := h
  obtain ⟨h1, h2⟩ := (mem_range_of_moves hσ).mpr ⟨hs, hk⟩
  exact ⟨σ k, h1, h2, hread k⟩

theorem eq_map_read (a : TypedArray α) : a = (List.range a.length).map a.read := by
  refine List.ext_getElem (by simp) fun i h _ => ?_
  simp [read, h]

theorem Rearranges.perm (h : Rearranges start stop a b) (hstop : stop ≤ a.length) : b.Perm a := by
  obtain ⟨hlen, σ, hσ, hread⟩ := h
  have hrange : ((List.range a.length).map σ).Perm (List.range a.length) := by
    refine (List.perm_ext_iff_of_nodup (List.nodup_range.map σ.injective) List.nodup_range).mpr ?_
    have hwide : ∀ k, σ k ≠ k → 0 ≤ k ∧ k < a.length := fun k hk => by
      have := hσ k hk
      omega
    intro k
    simp only [List.mem_map, List.mem_range]
    constructor
    · rintro ⟨j, hj, rfl⟩
      exact ((mem_range_of_moves hwide).mpr ⟨Nat.zero_le _, hj⟩).2
    · intro hk
      refine ⟨σ.symm k, ?_, σ.apply_symm_apply k⟩
      have hmem := (mem_range_of_moves hwide (k := σ.symm k)).mp
      rw [σ.apply_symm_apply] at hmem
      exact (hmem ⟨Nat.zero_le _, hk⟩).2
  have hmap : b = ((List.range a.length).map σ).map a.read := by
    rw [eq_map_read b, hlen, List.map_map]
    exact List.map_congr_left fun k _ => hread k
  calc b = ((List.range a.length).map σ).map a.read := hmap
    List.Perm _ ((List.range a.length).map a.read) := hrange.map _
    _ = a := (eq_map_read a).symm

theorem Rearranges.card (h : Rearranges start stop a b) (p : α → Prop) [DecidablePred p] :
    ((Finset.Ico start stop).filter fun k => p (b.read k)).card =
      ((Finset.Ico start stop).filter fun k => p (a.read k)).card := by
  obtain ⟨-, σ, hσ, hread⟩ := h
  refine Finset.card_equiv σ fun k => ?_
  simp only [Finset.mem_filter, Finset.mem_Ico, mem_range_of_moves hσ, hread]

theorem rearranges_swap {i j : ℕ} (hi : start ≤ i ∧ i < stop) (hj : start ≤ j ∧ j < stop)
    (hstop : stop ≤ a.length) :
    Rearranges start stop a ((a.write i (a.read j)).write j (a.read i)) := by
  refine ⟨by simp, Equiv.swap i j, fun k hk => ?_, fun k => ?_⟩
  · rcases Equiv.swap_apply_ne_self_iff.mp hk with ⟨-, rfl | rfl⟩
    · exact hi
    · exact hj
  · rw [read_write (by simp; omega), read_write (by omega), Equiv.swap_apply_def]
    by_cases hkj : k = j
    · subst hkj
      by_cases hki : k = i
      · rw [if_pos rfl, if_pos hki, ← hki]
      · rw [if_pos rfl, if_neg hki, if_pos rfl]
    · rw [if_neg hkj, if_neg hkj]
      split_ifs <;> rfl

/-! ## Sorted ranges -/

/-- The keys of `[start, stop)` never fall. -/
def RangeSorted (key : α → ℕ) (start stop : ℕ) (a : TypedArray α) : Prop :=
  ∀ i j, start ≤ i → i < j → j < stop → key (a.read i) ≤ key (a.read j)

/-- An element held in a register belongs where it was lifted from; laying it down
at `j` and lifting what was there is an exchange. -/
theorem rearranges_lift {i j : ℕ} {e : α} (hi : start ≤ i ∧ i < stop) (hj : start ≤ j ∧ j < stop)
    (hij : i ≠ j) (hstop : stop ≤ a.length) :
    Rearranges start stop (a.write i e) ((a.write j e).write i (a.read j)) := by
  have h := rearranges_swap (a := a.write i e) hi hj (by simpa using hstop)
  rwa [read_write_of_ne hij, read_write_self (by omega), write_write, write_comm a hij] at h

/-! ## Insertion -/

/-- Carry `e` down from the hole at `k`, past every element it is not to stand after. -/
def sink (le : α → α → Bool) (start : ℕ) (e : α) : ℕ → TypedArray α → TypedArray α
  | 0, a => a.write 0 e
  | k + 1, a =>
    if start ≤ k ∧ ¬le (a.read k) e then sink le start e k (a.write (k + 1) (a.read k))
    else a.write (k + 1) e

def insertionSort (le : α → α → Bool) (a : TypedArray α) (start stop : ℕ) : TypedArray α :=
  (List.range' (start + 1) (stop - (start + 1))).foldl
    (fun a i => sink le start (a.read i) i a) a

section insertion

variable {le : α → α → Bool} {key : α → ℕ}

theorem rangeSorted_write {e : α} {k : ℕ} (hks : k < stop) (hstop : stop ≤ a.length)
    (hothers : ∀ i j, start ≤ i → i < j → j < stop → i ≠ k → j ≠ k → key (a.read i) ≤ key (a.read j))
    (hafter : ∀ j, k < j → j < stop → key e ≤ key (a.read j))
    (hbefore : ∀ i, start ≤ i → i < k → key (a.read i) ≤ key e) :
    RangeSorted key start stop (a.write k e) := by
  intro i j hi hij hj
  rw [read_write (by omega), read_write (by omega)]
  split_ifs with h1 h2 h2
  · omega
  · exact hafter j (by omega) hj
  · exact hbefore i hi (by omega)
  · exact hothers i j hi hij hj h1 h2

variable (hle : ∀ x y, le x y = true ↔ key x ≤ key y)
include hle

/-- `a` with `e` in its hole at `k` lacks order only between `e` and what is before it. -/
theorem sink_spec {e : α} {k : ℕ} (hk : start ≤ k) (hks : k < stop) (hstop : stop ≤ a.length)
    (hothers : ∀ i j, start ≤ i → i < j → j < stop → i ≠ k → j ≠ k → key (a.read i) ≤ key (a.read j))
    (hafter : ∀ j, k < j → j < stop → key e ≤ key (a.read j)) :
    Rearranges start stop (a.write k e) (sink le start e k a) ∧ RangeSorted key start stop (sink le start e k a) := by
  induction k generalizing a with
  | zero =>
    exact ⟨Rearranges.refl _ _ _, rangeSorted_write hks hstop hothers hafter
      fun i _ hi => absurd hi (Nat.not_lt_zero i)⟩
  | succ k ih =>
    rw [sink]
    split_ifs with hcond
    · obtain ⟨hsk, hnle⟩ := hcond
      have hlt : key e ≤ key (a.read k) := by
        rw [hle] at hnle
        omega
      have hlift := rearranges_lift (e := e) ⟨hk, hks⟩ ⟨hsk, by omega⟩ (by omega) hstop
      rw [write_comm a (Nat.ne_of_lt (Nat.lt_succ_self k))] at hlift
      -- The hole is one place lower, and what stood there now stands after it.
      have hrest := ih (a := a.write (k + 1) (a.read k)) hsk (by omega) (by simpa using hstop)
        (fun i j hi hij hj hik hjk => by
          rw [read_write (by omega), read_write (by omega)]
          split_ifs with h1 h2 h2
          · omega
          · exact hothers k j hsk (by omega) hj (by omega) h2
          · exact hothers i k hi (by omega) (by omega) h1 (by omega)
          · exact hothers i j hi hij hj h1 h2)
        (fun j hkj hj => by
          rw [read_write (by omega)]
          split_ifs with h1
          · exact hlt
          · exact hafter j (by omega) hj)
      exact ⟨hlift.trans hrest.1, hrest.2⟩
    · refine ⟨Rearranges.refl _ _ _, rangeSorted_write hks hstop hothers hafter
        fun i hi hik => ?_⟩
      have hek : key (a.read k) ≤ key e := by
        rw [← hle]
        by_contra hne
        exact hcond ⟨by omega, hne⟩
      by_cases hik' : i = k
      · rwa [hik']
      · exact (hothers i k hi (by omega) (by omega) (by omega) (by omega)).trans hek

theorem insertionSort_spec (hstop : stop ≤ a.length) : Rearranges start stop a (insertionSort le a start stop) ∧
      RangeSorted key start stop (insertionSort le a start stop) := by
  have hrun : ∀ n, start + 1 + n ≤ stop → Rearranges start stop a ((List.range' (start + 1) n).foldl
        (fun a i => sink le start (a.read i) i a) a) ∧
      RangeSorted key start (start + 1 + n) ((List.range' (start + 1) n).foldl
        (fun a i => sink le start (a.read i) i a) a) := by
    intro n hn
    induction n with
    | zero => exact ⟨Rearranges.refl _ _ _, fun i j hi hij hj => by omega⟩
    | succ n ih =>
      obtain ⟨hmoved, hsorted⟩ := ih (by omega)
      rw [List.range'_concat, List.foldl_append, List.foldl_cons, List.foldl_nil]
      generalize (List.range' (start + 1) n).foldl _ a = b at hmoved hsorted
      have hlen := hmoved.length
      have hsink : Rearranges start (start + 1 + (n + 1)) (b.write (start + 1 + 1 * n) _) _ ∧ _ :=
        sink_spec hle (e := b.read (start + 1 + 1 * n)) (by omega) (by omega) (by omega)
          (fun i j hi hij hj hik hjk => hsorted i j hi hij (by omega)) (fun j hkj hj => by omega)
      obtain ⟨hsunk, hnow⟩ := hsink
      rw [write_read] at hsunk
      exact ⟨hmoved.trans (hsunk.mono le_rfl hn), hnow⟩
  by_cases hshort : stop ≤ start
  · have hnone : stop - (start + 1) = 0 := by omega
    rw [insertionSort, hnone]
    exact ⟨Rearranges.refl _ _ _, fun i j hi hij hj => by omega⟩
  · have h := hrun (stop - (start + 1)) (by omega)
    have hsplit : start + 1 + (stop - (start + 1)) = stop := by omega
    rwa [hsplit] at h

end insertion

/-! ## Distribution -/

/-- Carry `e` round its cycle until an element of bucket `d` comes back: each turn
lays one down at the front of its bucket and lifts what stood there. -/
def carryRound (digit : α → ℕ) (d : ℕ) : ℕ → TypedArray α → (ℕ → ℕ) → α → TypedArray α × (ℕ → ℕ) × α
  | 0, a, next, e => (a, next, e)
  | fuel + 1, a, next, e =>
    if digit e = d then (a, next, e)
    else
      let place := next (digit e)
      carryRound digit d fuel (a.write place e) (update next (digit e) (place + 1))
        (a.read place)

/-- Fill the places `i`, `i + 1`, … of bucket `d`, `n` of them. No cycle is longer than
the array, every turn of it filling a place for good. -/
def fillBucket (digit : α → ℕ) (d : ℕ) : ℕ → ℕ → TypedArray α → (ℕ → ℕ) → TypedArray α × (ℕ → ℕ)
  | 0, i, a, next => (a, update next d i)
  | n + 1, i, a, next =>
    let carried := carryRound digit d a.length a next (a.read i)
    fillBucket digit d n (i + 1) (carried.1.write i carried.2.2) carried.2.1

/-- Move every element of `[bounds 0, bounds radix)` into its digit's bucket. -/
def distribute (digit : α → ℕ) (radix : ℕ) (bounds : ℕ → ℕ) (a : TypedArray α) : TypedArray α :=
  ((List.range radix).foldl
    (fun s d => fillBucket digit d (bounds (d + 1) - s.2 d) (s.2 d) s.1 s.2) (a, bounds)).1

/-- Bucket `e` starts at `bounds e` and is filled up to `front e`; the range holds as
many of each digit as its bucket has places. -/
structure Filling (digit : α → ℕ) (radix : ℕ) (bounds front : ℕ → ℕ) (a : TypedArray α) :
    Prop where
  within : ∀ e < radix, bounds e ≤ front e ∧ front e ≤ bounds (e + 1)
  filled : ∀ e < radix, ∀ k, bounds e ≤ k → k < front e → digit (a.read k) = e
  counted : ∀ e < radix, ((Finset.Ico (bounds 0) (bounds radix)).filter
    fun k => digit (a.read k) = e).card = bounds (e + 1) - bounds e

/-- Every place of bucket `e` holds an element of digit `e`. -/
def InBuckets (digit : α → ℕ) (radix : ℕ) (bounds : ℕ → ℕ) (a : TypedArray α) : Prop :=
  ∀ e < radix, ∀ k, bounds e ≤ k → k < bounds (e + 1) → digit (a.read k) = e

section distribution

variable {digit : α → ℕ} {radix : ℕ} {bounds front next : ℕ → ℕ}

def unfilled (radix : ℕ) (bounds front : ℕ → ℕ) : ℕ :=
  ∑ e ∈ Finset.range radix, (bounds (e + 1) - front e)

theorem unfilled_le (hmono : Monotone bounds) (h : Filling digit radix bounds front a) :
    unfilled radix bounds front ≤ bounds radix - bounds 0 := by
  rw [← Finset.sum_range_tsub hmono]
  refine Finset.sum_le_sum fun e he => ?_
  have := h.within e (Finset.mem_range.mp he)
  omega

theorem bucket_unique (hmono : Monotone bounds) {d e k : ℕ} (hd : bounds d ≤ k)
    (hd' : k < bounds (d + 1)) (he : bounds e ≤ k) (he' : k < bounds (e + 1)) : d = e := by
  by_contra hne
  rcases Nat.lt_or_gt_of_ne hne with h | h
  · have := hmono (show d + 1 ≤ e from h)
    omega
  · have := hmono (show e + 1 ≤ d from h)
    omega

theorem in_range (hmono : Monotone bounds) {d k : ℕ} (hd : d < radix) (hk : bounds d ≤ k)
    (hk' : k < bounds (d + 1)) : bounds 0 ≤ k ∧ k < bounds radix := by
  have h0 := hmono (Nat.zero_le d)
  have h1 := hmono (show d + 1 ≤ radix from hd)
  omega

theorem Filling.room (h : Filling digit radix bounds front a) (hmono : Monotone bounds)
    {g k : ℕ} (hg : g < radix) (hk : bounds 0 ≤ k ∧ k < bounds radix)
    (hdigit : digit (a.read k) = g) (hout : ¬(bounds g ≤ k ∧ k < bounds (g + 1))) :
    front g < bounds (g + 1) := by
  obtain ⟨hlo, hhi⟩ := h.within g hg
  by_contra hfull
  have hsub : insert k (Finset.Ico (bounds g) (bounds (g + 1))) ⊆
      (Finset.Ico (bounds 0) (bounds radix)).filter fun k => digit (a.read k) = g := by
    intro j hj
    rw [Finset.mem_filter, Finset.mem_Ico]
    rcases Finset.mem_insert.mp hj with rfl | hj
    · exact ⟨hk, hdigit⟩
    · obtain ⟨h1, h2⟩ := Finset.mem_Ico.mp hj
      exact ⟨in_range hmono hg h1 h2, h.filled g hg j h1 (by omega)⟩
  have hcard := Finset.card_le_card hsub
  rw [Finset.card_insert_of_notMem (by simpa using fun h1 => not_lt.mp fun h2 => hout ⟨h1, h2⟩),
    h.counted g hg, Nat.card_Ico] at hcard
  omega

/-- One turn of a cycle: the element at `i` of another bucket changes places with the
one at the front of its own. -/
theorem Filling.turn (h : Filling digit radix bounds front a) (hmono : Monotone bounds)
    {d i : ℕ} (hd : d < radix) (hi : front d = i) (hi' : i < bounds (d + 1))
    {g : ℕ} (hg : g < radix) (hgd : g ≠ d)
    (hdigit : digit (a.read i) = g) {b : TypedArray α}
    (hswap : Rearranges (bounds 0) (bounds radix) a b) (hto : b.read (front g) = a.read i)
    (hothers : ∀ k, k ≠ i → k ≠ front g → b.read k = a.read k) :
    Filling digit radix bounds (update front g (front g + 1)) b := by
  have hid := h.within d hd
  have hout : ¬(bounds g ≤ i ∧ i < bounds (g + 1)) := fun hin =>
    hgd (bucket_unique hmono hin.1 hin.2 (by omega) hi')
  have hroom := h.room hmono hg (in_range hmono hd (by omega) hi') hdigit hout
  refine ⟨fun e he => ?_, fun e he k hk hk' => ?_, fun e he => ?_⟩
  · by_cases heg : e = g
    · subst heg
      have := h.within e he
      rw [update_self]
      omega
    · rw [update_of_ne heg]
      exact h.within e he
  · have hfront := h.within e he
    by_cases hkto : k = front g
    · have heg : e = g := by
        by_contra heg
        rw [update_of_ne heg] at hk'
        have hg' := h.within g hg
        exact heg (bucket_unique hmono hk (by omega) (k := k) (by omega) (by omega))
      rw [hkto, hto, hdigit, heg]
    · have hk'' : k < front e := by
        by_cases heg : e = g
        · subst heg
          rw [update_self] at hk'
          omega
        · rwa [update_of_ne heg] at hk'
      have hki : k ≠ i := by
        rintro rfl
        have hed := bucket_unique hmono hk (by omega) (by omega) hi'
        subst hed
        omega
      rw [hothers k hki hkto]
      exact h.filled e he k hk hk''
  · rw [hswap.card fun x => digit x = e]
    exact h.counted e he

theorem unfilled_update (front : ℕ → ℕ) {g : ℕ} (hg : g < radix) (hroom : front g < bounds (g + 1)) :
    unfilled radix bounds (update front g (front g + 1)) < unfilled radix bounds front := by
  refine Finset.sum_lt_sum (fun e _ => ?_) ⟨g, Finset.mem_range.mpr hg, ?_⟩
  · by_cases heg : e = g
    · subst heg
      rw [update_self]
      omega
    · rw [update_of_ne heg]
  · rw [update_self]
    omega

/-- The front of bucket `d` is kept in `i`, not in `next`, while the bucket fills. -/
theorem carryRound_spec (hmono : Monotone bounds) (hradix : ∀ x, digit x < radix) {d i : ℕ}
    (hd : d < radix) (hi' : i < bounds (d + 1)) {fuel : ℕ} {e : α}
    (hstop : bounds radix ≤ a.length)
    (h : Filling digit radix bounds (update next d i) (a.write i e))
    (hfuel : unfilled radix bounds (update next d i) ≤ fuel) :
    let r := carryRound digit d fuel a next e
    digit r.2.2 = d ∧ Rearranges (bounds 0) (bounds radix) (a.write i e) (r.1.write i r.2.2) ∧
      Filling digit radix bounds (update r.2.1 d i) (r.1.write i r.2.2) ∧
      ∀ g, next g ≤ r.2.1 g := by
  induction fuel generalizing a next e with
  | zero =>
    -- Bucket `d` itself has room at `i`.
    have hroom := unfilled_update (update next d i) hd (by rwa [update_self])
    omega
  | succ fuel ih =>
    rw [carryRound]
    split_ifs with hdigit
    · exact ⟨hdigit, Rearranges.refl _ _ _, h, fun g => le_rfl⟩
    · have hid : bounds d ≤ i := by simpa using (h.within d hd).1
      have hir := in_range hmono hd hid hi'
      have hdigit' : digit ((a.write i e).read i) = digit e := by
        rw [read_write_self (by omega)]
      have hg := hradix e
      have hfront : update next d i (digit e) = next (digit e) :=
        update_of_ne hdigit _ _
      have hout : ¬(bounds (digit e) ≤ i ∧ i < bounds (digit e + 1)) := fun hin =>
        hdigit (bucket_unique hmono hin.1 hin.2 hid hi')
      have hroom := h.room hmono hg hir hdigit' hout
      have hlo := (h.within _ hg).1
      rw [hfront] at hroom hlo
      have hpr := in_range hmono hg hlo hroom
      have hne : i ≠ next (digit e) := fun heq => hout (heq ▸ ⟨hlo, hroom⟩)
      have hlift := rearranges_lift (e := e) hir hpr hne hstop
      have hturned := h.turn hmono hd (update_self d i next) hi' hg hdigit hdigit' hlift
        (by rw [hfront, read_write_of_ne hne, read_write_self (by omega), read_write_self (by omega)])
        (fun k hki hkp => by
          rw [hfront] at hkp
          rw [read_write_of_ne (Ne.symm hki), read_write_of_ne (Ne.symm hkp), read_write_of_ne (Ne.symm hki)])
      have hfewer := unfilled_update (update next d i) hg (by rwa [hfront])
      rw [hfront, Function.update_comm (Ne.symm hdigit)] at hturned hfewer
      obtain ⟨h1, h2, h3, h4⟩ := ih (by simpa using hstop) hturned (by omega)
      refine ⟨h1, hlift.trans h2, h3, fun g => le_trans ?_ (h4 g)⟩
      by_cases hgd : g = digit e
      · rw [hgd, update_self]
        omega
      · rw [update_of_ne hgd]

theorem fillBucket_spec (hmono : Monotone bounds) (hradix : ∀ x, digit x < radix) {d n i : ℕ}
    (hd : d < radix) (hn : i + n = bounds (d + 1)) (hstop : bounds radix ≤ a.length)
    (h : Filling digit radix bounds (update next d i) a) :
    let r := fillBucket digit d n i a next
    Rearranges (bounds 0) (bounds radix) a r.1 ∧ Filling digit radix bounds r.2 r.1 ∧
      r.2 d = bounds (d + 1) ∧ ∀ g, g ≠ d → next g ≤ r.2 g := by
  induction n generalizing a next i with
  | zero =>
    refine ⟨Rearranges.refl _ _ _, h, ?_, fun g hg => ?_⟩
    · exact (update_self d i next).trans (by omega)
    · exact (update_of_ne hg _ _).ge
  | succ n ih =>
    have hback : a.write i (a.read i) = a := write_read a i
    have hfuel : unfilled radix bounds (update next d i) ≤ a.length := by
      have := unfilled_le hmono h
      omega
    obtain ⟨hdigit, hmoved, hfilling, hnext⟩ := carryRound_spec hmono hradix hd (i := i) (by omega)
      hstop (by rwa [hback]) hfuel
    rw [hback] at hmoved
    rw [fillBucket]
    generalize carryRound digit d a.length a next (a.read i) = r at *
    have hid := (hfilling.within d hd).1
    rw [update_self] at hid
    have hlen := hmoved.length
    -- The place `i` now holds an element of the bucket: the front moves past it.
    have hpast : Filling digit radix bounds (update r.2.1 d (i + 1))
        (r.1.write i r.2.2) := by
      refine ⟨fun e he => ?_, fun e he k hk hk' => ?_, hfilling.counted⟩
      · by_cases hed : e = d
        · subst hed
          rw [update_self]
          omega
        · have := hfilling.within e he
          rwa [update_of_ne hed] at this ⊢
      · have hbefore := hfilling.filled e he k hk
        by_cases hed : e = d
        · subst hed
          rw [update_self] at hk' hbefore
          by_cases hki : k = i
          · have hir := in_range hmono hd hid (by omega)
            rw [hki, read_write_self (by simp at hlen; omega), hdigit]
          · exact hbefore (by omega)
        · rw [update_of_ne hed] at hk' hbefore
          exact hbefore hk'
    obtain ⟨h1, h2, h3, h4⟩ := ih (by omega) (by omega) hpast
    exact ⟨hmoved.trans h1, h2, h3, fun g hg => (hnext g).trans (h4 g hg)⟩

/-- **Distribution puts every element in its digit's bucket**, when the buckets are as
long as the range has elements for them. -/
theorem distribute_spec (hmono : Monotone bounds) (hradix : ∀ x, digit x < radix)
    (hstop : bounds radix ≤ a.length)
    (hcounted : ∀ e < radix, ((Finset.Ico (bounds 0) (bounds radix)).filter
      fun k => digit (a.read k) = e).card = bounds (e + 1) - bounds e) :
    Rearranges (bounds 0) (bounds radix) a (distribute digit radix bounds a) ∧
      InBuckets digit radix bounds (distribute digit radix bounds a) := by
  have hrun : ∀ n ≤ radix,
      let r := (List.range n).foldl
        (fun s d => fillBucket digit d (bounds (d + 1) - s.2 d) (s.2 d) s.1 s.2) (a, bounds)
      Rearranges (bounds 0) (bounds radix) a r.1 ∧ Filling digit radix bounds r.2 r.1 ∧ ∀ e < n, r.2 e = bounds (e + 1) := by
    intro n hn
    induction n with
    | zero =>
      exact ⟨Rearranges.refl _ _ _, ⟨fun e _ => ⟨le_rfl, hmono (Nat.le_succ e)⟩,
        fun e _ k hk hk' => absurd hk' (not_lt.mpr hk), hcounted⟩, fun e he => absurd he (by omega)⟩
    | succ n ih =>
      obtain ⟨hmoved, hfilling, hdone⟩ := ih (by omega)
      rw [List.range_succ, List.foldl_append, List.foldl_cons, List.foldl_nil]
      generalize (List.range n).foldl _ (a, bounds) = r at *
      have hlen := hmoved.length
      have hwithin := hfilling.within n (by omega)
      have hstart : Filling digit radix bounds (update r.2 n (r.2 n)) r.1 := by
        rwa [Function.update_eq_self]
      obtain ⟨h1, h2, h3, h4⟩ := fillBucket_spec hmono hradix (n := bounds (n + 1) - r.2 n)
        (by omega) (by omega) (by omega) hstart
      refine ⟨hmoved.trans h1, h2, fun e he => ?_⟩
      by_cases hen : e = n
      · rw [hen, h3]
      · have h5 := h4 e hen
        have h6 := (h2.within e (by omega)).2
        have h7 := hdone e (by omega)
        omega
  obtain ⟨hmoved, hfilling, hdone⟩ := hrun radix le_rfl
  exact ⟨hmoved, fun e he k hk hk' => hfilling.filled e he k hk (by rwa [hdone e he])⟩

/-! ## Sorting bucket by bucket -/

/-- Sort each bucket that holds more than one element. -/
def sortBuckets (sort : ℕ → ℕ → TypedArray α → TypedArray α) (radix : ℕ) (bounds : ℕ → ℕ)
    (a : TypedArray α) : TypedArray α :=
  (List.range radix).foldl
    (fun a d => if 1 < bounds (d + 1) - bounds d then sort (bounds d) (bounds (d + 1)) a else a) a

theorem InBuckets.rearranges (h : InBuckets digit radix bounds a) (hmono : Monotone bounds)
    {d : ℕ} (hd : d < radix) (hmoved : Rearranges (bounds d) (bounds (d + 1)) a b) :
    InBuckets digit radix bounds b := by
  intro e he k hk hk'
  by_cases hin : bounds d ≤ k ∧ k < bounds (d + 1)
  · have hed := bucket_unique hmono hk hk' hin.1 hin.2
    obtain ⟨k', h1, h2, hread⟩ := hmoved.inside hin.1 hin.2
    rw [hread, hed]
    exact h d hd k' h1 h2
  · rw [hmoved.outside (by omega)]
    exact h e he k hk hk'

theorem exists_bucket {k : ℕ} (h0 : bounds 0 ≤ k) (hk : k < bounds radix) :
    ∃ e < radix, bounds e ≤ k ∧ k < bounds (e + 1) := by
  induction radix with
  | zero => omega
  | succ r ih =>
    by_cases hr : k < bounds r
    · obtain ⟨e, he, hin⟩ := ih hr
      exact ⟨e, by omega, hin⟩
    · exact ⟨r, by omega, by omega, hk⟩

theorem rangeSorted_of_buckets {key : α → ℕ} (hmono : Monotone bounds)
    (hsorted : ∀ e < radix, RangeSorted key (bounds e) (bounds (e + 1)) a)
    (hapart : ∀ i j, bounds 0 ≤ i → i < j → j < bounds radix →
      (∀ e, bounds e ≤ i → i < bounds (e + 1) → bounds (e + 1) ≤ j) →
      key (a.read i) ≤ key (a.read j)) :
    RangeSorted key (bounds 0) (bounds radix) a := by
  intro i j hi hij hj
  obtain ⟨e, he, hei, hei'⟩ := exists_bucket hi (hij.trans hj)
  by_cases hsame : j < bounds (e + 1)
  · exact hsorted e he i j hei hij hsame
  · refine hapart i j hi hij hj fun e' h1 h2 => ?_
    rw [← bucket_unique hmono hei hei' h1 h2]
    omega

theorem sortBuckets_spec (key : α → ℕ) (sort : ℕ → ℕ → TypedArray α → TypedArray α)
    (hmono : Monotone bounds) (ha : InBuckets digit radix bounds a)
    (hsort : ∀ d < radix, ∀ b, Rearranges (bounds 0) (bounds radix) a b → InBuckets digit radix bounds b →
      Rearranges (bounds d) (bounds (d + 1)) b (sort (bounds d) (bounds (d + 1)) b) ∧
        RangeSorted key (bounds d) (bounds (d + 1)) (sort (bounds d) (bounds (d + 1)) b)) :
    Rearranges (bounds 0) (bounds radix) a (sortBuckets sort radix bounds a) ∧
      InBuckets digit radix bounds (sortBuckets sort radix bounds a) ∧
      ∀ e < radix, RangeSorted key (bounds e) (bounds (e + 1)) (sortBuckets sort radix bounds a) := by
  have hrun : ∀ n ≤ radix, let r := sortBuckets sort n bounds a
      Rearranges (bounds 0) (bounds radix) a r ∧ InBuckets digit radix bounds r ∧
        ∀ e < n, RangeSorted key (bounds e) (bounds (e + 1)) r := by
    intro n hn
    induction n with
    | zero => exact ⟨Rearranges.refl _ _ _, ha, fun e he => absurd he (by omega)⟩
    | succ n ih =>
      obtain ⟨hmoved, hin, hdone⟩ := ih (by omega)
      rw [sortBuckets, List.range_succ, List.foldl_append, List.foldl_cons, List.foldl_nil]
      rw [sortBuckets] at hmoved hin hdone
      generalize (List.range n).foldl _ a = r at *
      have hstep : ∃ r', (if 1 < bounds (n + 1) - bounds n then
            sort (bounds n) (bounds (n + 1)) r else r) = r' ∧
          Rearranges (bounds n) (bounds (n + 1)) r r' ∧
          RangeSorted key (bounds n) (bounds (n + 1)) r' := by
        split_ifs with hlong
        · exact ⟨_, rfl, hsort n (by omega) r hmoved hin⟩
        · exact ⟨_, rfl, Rearranges.refl _ _ _, fun i j hi hij hj => by omega⟩
      obtain ⟨r', hr', hbucket, hsorted⟩ := hstep
      rw [hr']
      have hwide := hbucket.mono (hmono (Nat.zero_le n)) (hmono (show n + 1 ≤ radix from hn))
      refine ⟨hmoved.trans hwide, hin.rearranges hmono (by omega) hbucket, fun e he => ?_⟩
      by_cases hen : e = n
      · rwa [hen]
      · intro i j hi hij hj
        have hbelow := hmono (show e + 1 ≤ n by omega)
        rw [hbucket.outside (by omega), hbucket.outside (by omega)]
        exact hdone e (by omega) i j hi hij hj
  exact hrun radix le_rfl

end distribution

end TypedArray
