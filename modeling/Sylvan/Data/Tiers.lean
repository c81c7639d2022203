-- SUMMARY: The members of a list in its highest tier, and the first member under each key.
import Mathlib.Data.List.MinMax
import Mathlib.Data.Finset.Max
import Mathlib.Data.List.Nodup
import Sylvan.Data.JsMap

/-!
# Tiers and first members

A list is ranked by a tier of each member, and told apart by a key of each member. `best`
keeps the members no other outranks; `firsts` keeps the first member under each key.
-/

namespace Tiers

variable {α κ τ : Type*}

/-! ## The highest tier -/

section

variable [LinearOrder τ] (tier : α → τ)

def best (l : List α) : List α := l.filter fun a => l.all fun b => tier b ≤ tier a

variable {tier}

variable {l : List α}

theorem mem_best {a : α} : a ∈ best tier l ↔ a ∈ l ∧ ∀ b ∈ l, tier b ≤ tier a := by
  simp [best]

theorem mem_of_mem_best {a : α} (h : a ∈ best tier l) : a ∈ l := (mem_best.mp h).1

theorem tier_le_of_mem_best {a b : α} (ha : a ∈ best tier l) (hb : b ∈ l) : tier b ≤ tier a :=
  (mem_best.mp ha).2 b hb

theorem tier_eq_of_mem_best {a b : α} (ha : a ∈ best tier l) (hb : b ∈ best tier l) : tier a = tier b :=
  le_antisymm (tier_le_of_mem_best hb (mem_of_mem_best ha)) (tier_le_of_mem_best ha (mem_of_mem_best hb))

theorem exists_mem_best (h : l ≠ []) : ∃ a, a ∈ best tier l := by
  induction l with
  | nil => exact absurd rfl h
  | cons a l ih =>
    by_cases hl : l = []
    · subst hl
      exact ⟨a, mem_best.mpr ⟨by simp, by simp⟩⟩
    · obtain ⟨b, hb⟩ := ih hl
      rcases le_total (tier b) (tier a) with hle | hle
      · refine ⟨a, mem_best.mpr ⟨by simp, fun c hc => ?_⟩⟩
        rcases List.mem_cons.mp hc with rfl | hc
        · exact le_rfl
        · exact (tier_le_of_mem_best hb hc).trans hle
      · refine ⟨b, mem_best.mpr ⟨List.mem_cons_of_mem a (mem_of_mem_best hb), fun c hc => ?_⟩⟩
        rcases List.mem_cons.mp hc with rfl | hc
        · exact hle
        · exact tier_le_of_mem_best hb hc

theorem best_eq_filter [DecidableEq τ] {a : α} (h : a ∈ best tier l) : best tier l = l.filter fun b => tier b = tier a := by
  refine List.filter_congr fun b hb => ?_
  rw [Bool.eq_iff_iff, List.all_eq_true, decide_eq_true_eq]
  simp only [decide_eq_true_eq]
  constructor
  · intro hall
    exact le_antisymm (tier_le_of_mem_best h hb) (hall a (mem_of_mem_best h))
  · intro heq c hc
    exact heq ▸ tier_le_of_mem_best h hc

theorem best_eq_nil : best tier l = [] ↔ l = [] := by
  constructor
  · intro h
    by_contra hl
    have hsome : ∃ a, a ∈ best tier l := exists_mem_best hl
    simp [h] at hsome
  · rintro rfl
    rfl

end

/-! ## The first under each key -/

section

variable [DecidableEq κ] (key : α → κ)

/-- The members no earlier member shares a key with. -/
def firsts : List α → List α
  | [] => []
  | a :: l => a :: (firsts l).filter fun b => key b ≠ key a

variable {key}

theorem mem_of_mem_firsts {l : List α} {a : α} (h : a ∈ firsts key l) : a ∈ l := by
  induction l with
  | nil => exact h
  | cons b l ih =>
    rcases List.mem_cons.mp h with rfl | h
    · exact List.mem_cons_self
    · exact List.mem_cons_of_mem b (ih (List.mem_filter.mp h).1)

theorem exists_mem_firsts {l : List α} {a : α} (h : a ∈ l) : ∃ b ∈ firsts key l, key b = key a := by
  induction l with
  | nil => cases h
  | cons c l ih =>
    by_cases hkey : key c = key a
    · exact ⟨c, List.mem_cons_self, hkey⟩
    · rcases List.mem_cons.mp h with rfl | h
      · exact absurd rfl hkey
      · obtain ⟨b, hb, heq⟩ := ih h
        refine ⟨b, List.mem_cons_of_mem c (List.mem_filter.mpr ⟨hb, ?_⟩), heq⟩
        simpa [heq] using Ne.symm hkey

theorem nodup_firsts (l : List α) : ((firsts key l).map key).Nodup := by
  induction l with
  | nil => exact List.nodup_nil
  | cons a l ih =>
    rw [firsts, List.map_cons, List.nodup_cons]
    refine ⟨fun hmem => ?_, ih.sublist (List.filter_sublist.map key)⟩
    obtain ⟨b, hb, heq⟩ := List.mem_map.mp hmem
    exact absurd heq (by simpa using (List.mem_filter.mp hb).2)

theorem firsts_append (l l' : List α) :
    firsts key (l ++ l') = firsts key l ++ (firsts key l').filter fun b => key b ∉ l.map key := by
  induction l with
  | nil => simp [firsts]
  | cons a l ih =>
    simp only [List.cons_append, firsts, ih, List.filter_append, List.filter_filter, List.map_cons, List.mem_cons, not_or]
    congr 3
    funext b
    simp [Bool.decide_and]

variable (key) in
theorem entries_fold_first (l : List α) :
    (l.foldl (fun (m : JsMap κ α) a => if (m.get (key a)).isSome then m else m.set (key a) a)
      .empty).entries = (firsts key l).map fun a => (key a, a) := by
  induction l using List.reverseRecOn with
  | nil => rfl
  | append_singleton l a ih =>
    rw [List.foldl_concat]
    generalize l.foldl _ _ = m at ih ⊢
    have hget : (m.get (key a)).isSome = true ↔ key a ∈ l.map key := by
      rw [Option.isSome_iff_exists, ← JsMap.mem_keys, JsMap.keys, ih, List.map_map]
      constructor
      · intro h
        obtain ⟨b, hb, heq⟩ := List.mem_map.mp h
        exact List.mem_map.mpr ⟨b, mem_of_mem_firsts hb, heq⟩
      · intro h
        obtain ⟨b, hb, heq⟩ := List.mem_map.mp h
        have hfirst : ∃ c ∈ firsts key l, key c = key b := exists_mem_firsts hb
        obtain ⟨c, hc, heq'⟩ := hfirst
        exact List.mem_map.mpr ⟨c, hc, heq'.trans heq⟩
    rw [firsts_append, firsts, firsts, List.filter_nil, List.filter_singleton]
    by_cases hmem : key a ∈ l.map key
    · rw [if_pos (hget.mpr hmem), ih]
      simp only [hmem, not_true_eq_false, decide_false, Bool.cond_false, List.append_nil]
    · rw [if_neg fun h => hmem (hget.mp h)]
      have hnone : JsMap.lookup (key a) m.entries = none := by
        have := mt hget.mp hmem
        simpa [JsMap.get] using this
      change JsMap.insertAt (key a) a m.entries = _
      rw [JsMap.insertAt_of_lookup_eq_none hnone, ih]
      simp only [hmem, not_false_eq_true, decide_true, Bool.cond_true, List.map_append, List.map_cons, List.map_nil]

end

end Tiers
