-- SUMMARY: Merging the partitions' autocomplete lists, ranked again by the names alone.
import Sylvan.Data.JsMap
import Sylvan.Data.SortedRuns
import Sylvan.Data.Text
import Sylvan.Engine.AutocompleteExact

/-!
# Merging autocomplete lists

Every partition answers its own best names. The merge drops the repeats and ranks the rest by
the key the partitions rank by, which names alone determine.
-/

namespace AutocompleteMerge

open SortedRuns Text
open Autocomplete (Window collatedTrigrams)
open JsSet (mem_of nodup_of)

section

-- `collateName(foldAccents(value.toLowerCase()))`.
variable (collate : String → List Char)

def rank (p : List Char) (name : String) : ℕ := if p <+: collate name then 0 else 1

/-- How many windows a name shares with the needle, and how many the two have together. -/
def score (needle : List Window) (name : String) : ℕ × ℕ :=
  let tg := collatedTrigrams (collate name)
  let inter := tg.countP needle.contains
  (inter, needle.length + tg.length - inter)

/-- The order the names are sorted by: `a` before `b` if negative. -/
def compareNames (p : List Char) (a b : String) : ℤ :=
  let needle := collatedTrigrams p
  if rank collate p a ≠ rank collate p b then (rank collate p a : ℤ) - rank collate p b
  else
    let (ia, ua) := score collate needle a
    let (ib, ub) := score collate needle b
    if ib * ua ≠ ia * ub then ((ib * ua : ℕ) : ℤ) - (ia * ub : ℕ)
    else if before a b then -1 else if before b a then 1 else 0

def mergeAutocomplete (lists : List (List String)) (start : String) (limit : ℕ) : List String :=
  ((JsSet.of lists.flatten).insertionSort fun a b => compareNames collate (collate start) a b ≤ 0).take limit

/-! ## The ranking -/

def similarity (a b : List Char) : ℚ :=
  ((collatedTrigrams a).toFinset ∩ (collatedTrigrams b).toFinset).card /
    ((collatedTrigrams a).toFinset ∪ (collatedTrigrams b).toFinset).card

/-- Names that begin with the needle first, then the more similar, then by code units. -/
def rankKey (p : List Char) (name : String) : ℕ ×ₗ ℚ ×ₗ List ℕ :=
  toLex (rank collate p name, toLex (-similarity p (collate name), codeUnits name))

/-- The best `k` distinct names of a store. -/
def best (p : List Char) (k : ℕ) (store : List String) : List String :=
  (sortBy (rankKey collate p) (JsSet.of store)).take k

variable {p : List Char}

theorem rankKey_injective : Function.Injective (rankKey collate p) := fun _ _ h =>
  codeUnits_injective (congrArg (fun key => (ofLex (ofLex key).2).2) h)

theorem nodup_rankKey {names : List String} : ((JsSet.of names).map (rankKey collate p)).Nodup :=
  nodup_of.map (rankKey_injective collate)

theorem score_eq (name : String) : score collate (collatedTrigrams p) name =
    (((collatedTrigrams p).toFinset ∩ (collatedTrigrams (collate name)).toFinset).card,
      ((collatedTrigrams p).toFinset ∪ (collatedTrigrams (collate name)).toFinset).card) := by
  have hp := Autocomplete.collatedTrigrams_nodup p
  have hname := Autocomplete.collatedTrigrams_nodup (collate name)
  have hinter : (collatedTrigrams (collate name)).countP (collatedTrigrams p).contains =
      ((collatedTrigrams p).toFinset ∩ (collatedTrigrams (collate name)).toFinset).card := by
    rw [List.countP_eq_length_filter, ← List.toFinset_card_of_nodup (hname.filter _)]
    congr 1
    ext t
    simp [and_comm]
  simp only [score, hinter, Finset.card_union, List.toFinset_card_of_nodup hp, List.toFinset_card_of_nodup hname]

theorem cross_lt (a b : String) : (score collate (collatedTrigrams p) b).1 * (score collate (collatedTrigrams p) a).2 <
        (score collate (collatedTrigrams p) a).1 * (score collate (collatedTrigrams p) b).2 ↔
      similarity p (collate b) < similarity p (collate a) := by
  simp only [score_eq, similarity]
  generalize (collatedTrigrams (collate a)).toFinset = x
  generalize (collatedTrigrams (collate b)).toFinset = y
  rcases (collatedTrigrams p).toFinset.eq_empty_or_nonempty with hempty | hfull
  · simp [hempty]
  · have hx : (0 : ℚ) < ((collatedTrigrams p).toFinset ∪ x).card := by
      exact_mod_cast Finset.card_pos.mpr (hfull.mono Finset.subset_union_left)
    have hy : (0 : ℚ) < ((collatedTrigrams p).toFinset ∪ y).card := by
      exact_mod_cast Finset.card_pos.mpr (hfull.mono Finset.subset_union_left)
    rw [div_lt_div_iff₀ hy hx]
    exact_mod_cast Iff.rfl

theorem compareNames_le (a b : String) : compareNames collate p a b ≤ 0 ↔ rankKey collate p a ≤ rankKey collate p b := by
  have hab := cross_lt collate (p := p) a b
  have hba := cross_lt collate (p := p) b a
  have hunits : codeUnits a ≤ codeUnits b ↔ ¬ codeUnits b < codeUnits a := not_lt.symm
  have htie : -similarity p (collate a) = -similarity p (collate b) ↔ ¬ similarity p (collate b) < similarity p (collate a) ∧
      ¬ similarity p (collate a) < similarity p (collate b) := by
    rw [neg_inj, not_lt, not_lt, le_antisymm_iff]
  simp only [compareNames, rankKey, Prod.Lex.toLex_le_toLex, neg_lt_neg_iff, htie, ← hab, ← hba, hunits, before,
    decide_eq_true_eq]
  generalize (score collate (collatedTrigrams p) b).1 * (score collate (collatedTrigrams p) a).2 = crossB
  generalize (score collate (collatedTrigrams p) a).1 * (score collate (collatedTrigrams p) b).2 = crossA
  split_ifs with hrank hcross hbefore hafter
  · omega
  · omega
  · simp only [lt_asymm hbefore, not_false_iff, and_true]
    omega
  · simp only [hafter, not_true, and_false, or_false]
    omega
  · simp only [hafter, not_false_iff, and_true]
    omega

variable {k : ℕ}

theorem best_sublist (store : List String) : (best collate p k store).Subperm (JsSet.of store) :=
  (List.take_sublist _ _).subperm.trans (perm_sortBy _ _).subperm

theorem mergeAutocomplete_eq (lists : List (List String)) (start : String) :
    mergeAutocomplete collate lists start k = best collate (collate start) k lists.flatten := by
  simp only [mergeAutocomplete, compareNames_le]
  rfl

/-- A name a partition does not send has `k` better ones in the store. -/
theorem better_of_unsent {store part : List String} (hpart : ∀ name ∈ part, name ∈ store) {name : String}
    (hin : name ∈ part) (hunsent : name ∉ best collate p k part) :
    k ≤ (JsSet.of store).countP fun other => rankKey collate p other < rankKey collate p name := by
  have hsorted : SortedBy (rankKey collate p) (sortBy (rankKey collate p) (JsSet.of part)) :=
    sortedBy_sortBy (nodup_rankKey collate)
  have hmem : name ∈ sortBy (rankKey collate p) (JsSet.of part) :=
    (perm_sortBy _ _).mem_iff.mpr (mem_of.mpr hin)
  have hrest : name ∈ (sortBy (rankKey collate p) (JsSet.of part)).drop k := by
    rw [← List.take_append_drop k (sortBy _ _), List.mem_append] at hmem
    exact hmem.resolve_left hunsent
  have hfull : (best collate p k part).length = k := by
    rw [best, List.length_take]
    have hlong := List.length_pos_of_mem hrest
    rw [List.length_drop] at hlong
    omega
  have hbefore : ∀ other ∈ best collate p k part, rankKey collate p other < rankKey collate p name := by
    intro other hother
    rw [SortedBy, ← List.take_append_drop k (sortBy _ _), List.pairwise_append] at hsorted
    exact hsorted.2.2 other hother name hrest
  have hsub : (best collate p k part).Subperm (JsSet.of store) := by
    refine List.subperm_of_subset ?_ fun other hother => ?_
    · exact ((perm_sortBy _ _).nodup_iff.mpr nodup_of).sublist (List.take_sublist _ _)
    · have hother := (best_sublist collate part).subset hother
      exact mem_of.mpr (hpart other (mem_of.mp hother))
  calc k = (best collate p k part).countP fun other => rankKey collate p other < rankKey collate p name := by
        rw [List.countP_eq_length.mpr fun other hother => decide_eq_true (hbefore other hother), hfull]
    _ ≤ _ := hsub.countP_le _

end

end AutocompleteMerge
