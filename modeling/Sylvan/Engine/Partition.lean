-- SUMMARY: The partition a card lives in, and what a routing filter can say of a name's partitions.
import Mathlib.Data.Nat.Basic

/-!
# Partitions

A store is cut into `n` partitions by a hash of each card's oracle id. The count
comes from the manifest of the build and is never a constant.
-/

namespace Partition

def FNV_OFFSET : ℕ := 0xcbf29ce484222325
def FNV_PRIME : ℕ := 0x100000001b3
def U64 : ℕ := 0xffffffffffffffff

/-- `s.toLowerCase()`, of an ASCII string. -/
def toLowerCase (s : String) : String := String.ofList (s.toList.map Char.toLower)

def fnv1a64OracleId (oracleId : String) : ℕ :=
  (toLowerCase oracleId).toList.foldl
    (fun hash c => ((hash ^^^ c.toNat) * FNV_PRIME) &&& U64) FNV_OFFSET

/-- The partition owning `oracleId` in a store cut into a positive number of
partitions. -/
def partitionOfOracleId (oracleId : String) (partitionCount : ℕ) : ℕ :=
  fnv1a64OracleId oracleId % partitionCount

theorem toLower_toLower (c : Char) : c.toLower.toLower = c.toLower := by
  by_cases h : c.val ≥ 'A'.val ∧ c.val ≤ 'Z'.val
  · have hval : c.toLower.val = c.val + ('a'.val - 'A'.val) := by unfold Char.toLower; rw [dif_pos h]
    have hlow : ¬(c.toLower.val ≥ 'A'.val ∧ c.toLower.val ≤ 'Z'.val) := by
      rintro ⟨-, hz⟩
      have h1 := UInt32.le_iff_toNat_le.mp h.1
      have h2 := UInt32.le_iff_toNat_le.mp h.2
      rw [hval, UInt32.le_iff_toNat_le, UInt32.toNat_add] at hz
      simp at h1 h2 hz
      omega
    exact dif_neg hlow
  · have hc : c.toLower = c := dif_neg h
    rw [hc, hc]

theorem toLowerCase_toLowerCase (s : String) : toLowerCase (toLowerCase s) = toLowerCase s := by
  simp only [toLowerCase, String.toList_ofList, List.map_map, Function.comp_def, toLower_toLower]

theorem partitionOfOracleId_congr {a b : String} (n : ℕ) (h : toLowerCase a = toLowerCase b) :
    partitionOfOracleId a n = partitionOfOracleId b n := by
  rw [partitionOfOracleId, partitionOfOracleId, fnv1a64OracleId, fnv1a64OracleId, h]

end Partition

/-- What a routing filter's name keys say of a name: the one partition holding it,
or the one holding it served, with the best tier any other holds it by and the
name it was asked under. -/
inductive NameHint where
  | sole (sole : ℤ)
  | served (served : ℤ) (rival : Option ℕ) (needle : Option String)

/-- A hint, or the two partitions holding the name served. -/
inductive NamePlacement where
  | hint (hint : NameHint)
  | servedPair (a b : ℤ)
