-- SUMMARY: Engine names as a code: what a name is read as, with its numbers doubles.
import Sylvan.Data.Float64
import Sylvan.Engine.EngineNamespace

/-!
# Engine names as a code

`Number` of a run of digits is the nearest double, so a name with a larger number than a double
tells apart is read as another object's.
-/

namespace EngineNames

open Text PlacementPolicy
open EngineNamespace (ParsedName engineName stripNumber parseSuffixes generationPiece shardPiece partitionPiece
  epochPiece)

/-- `Number` of the digits of `n`. -/
def asNumber (n : ℕ) : ℕ := ⌊Float64.nearest n⌋.toNat

def parseEngineName (name : String) : Option ParsedName :=
  (EngineNamespace.parseEngineName name).map fun p =>
    { p with
      shard := asNumber p.shard, partition := p.partition.map asNumber
      generation := asNumber p.generation, epoch := asNumber p.epoch }

def nameOf (p : ParsedName) : String := engineName p.region p.shard p.partition p.generation p.epoch

/-- Each number is one a double holds exactly, and all below it. -/
def Safe (p : ParsedName) : Prop :=
  p.shard < 2 ^ 53 ∧ (∀ k ∈ p.partition, k < 2 ^ 53) ∧ p.generation < 2 ^ 53 ∧ p.epoch < 2 ^ 53

/-- No number has a leading zero, and the shard is not written as zero. -/
def Canonical (name : String) : Prop :=
  ¬ ['-', '0'] <:+: name.toList ∧ ∀ d, isDigit d = true → ¬ ['-', 'p', '0', d] <:+: name.toList

theorem asNumber_of_safe {n : ℕ} (h : n < 2 ^ 53) : asNumber n = n := by
  rw [asNumber, Float64.nearest_nat h]
  simp

theorem Safe.parseEngineName {p : ParsedName} {name : String} (h : Safe p)
    (hparse : EngineNamespace.parseEngineName name = some p) : parseEngineName name = some p := by
  obtain ⟨region, shard, partition, generation, epoch⟩ := p
  obtain ⟨hshard, hpartition, hgeneration, hepoch⟩ := h
  have hmap : partition.map asNumber = partition := by
    cases partition with
    | none => rfl
    | some k => exact congrArg some (asNumber_of_safe (hpartition k rfl))
  simp only [EngineNames.parseEngineName, hparse, Option.map_some, hmap, asNumber_of_safe hshard,
    asNumber_of_safe hgeneration, asNumber_of_safe hepoch]

/-! ## A read name is written back -/

theorem stripNumber_cases {positive : Bool} {lit s : List Char} : stripNumber positive lit s = (none, s) ∨
      ∃ run rest, s = lit ++ (run ++ rest) ∧ run ≠ [] ∧ (∀ c ∈ run, isDigit c = true) ∧
        (positive = true → run.head? ≠ some '0') ∧
        stripNumber positive lit s = (some (Nat.ofDigitChars 10 run 0), rest) := by
  unfold stripNumber
  cases hlit : stripLit lit s with
  | none => exact .inl rfl
  | some after =>
    have hs := eq_append_of_stripLit hlit
    rw [Option.bind_some]
    cases hrun : stripRun isDigit after with
    | none => exact .inl rfl
    | some pair =>
      obtain ⟨run, rest⟩ := pair
      have hne := run_ne_nil hrun
      have hsplit : run = after.takeWhile isDigit ∧ rest = after.dropWhile isDigit := by
        simp only [stripRun] at hrun
        split at hrun
        · cases hrun
        · cases hrun
          exact ⟨rfl, rfl⟩
      have hafter : after = run ++ rest := by
        rw [hsplit.1, hsplit.2, List.takeWhile_append_dropWhile]
      have hdigits : ∀ c ∈ run, isDigit c = true := fun c hc => List.all_eq_true.mp List.all_takeWhile c (hsplit.1 ▸ hc)
      dsimp only
      split_ifs with hzero
      · exact .inl rfl
      · refine .inr ⟨run, rest, by rw [hs, hafter], hne, hdigits, fun hpositive hhead => ?_, rfl⟩
        simp [hpositive, hhead] at hzero

theorem ofDigitChars_pos {run : List Char} (hrun : ∀ c ∈ run, isDigit c = true) (hne : run ≠ [])
    (hzero : run.head? ≠ some '0') :
    Nat.toDigits 10 (Nat.ofDigitChars 10 run 0) = run ∧ 0 < Nat.ofDigitChars 10 run 0 := by
  have hdigits := toDigits_ofDigitChars hrun hne fun h => absurd h hzero
  refine ⟨hdigits, Nat.pos_of_ne_zero fun hnone => ?_⟩
  rw [hnone] at hdigits
  exact hzero (by rw [← hdigits]; rfl)

theorem positive_piece {letter : Char} {s : List Char} : s = (if 0 < (stripNumber true ['-', letter] s).1.getD 0 then
        ['-', letter] ++ Nat.toDigits 10 ((stripNumber true ['-', letter] s).1.getD 0) else []) ++
      (stripNumber true ['-', letter] s).2 := by
  rcases @stripNumber_cases true ['-', letter] s with
    h | ⟨run, rest, hs, hne, hdigits, hhead, h⟩
  · rw [h]
    rfl
  · obtain ⟨hrun, hpos⟩ := ofDigitChars_pos hdigits hne (hhead rfl)
    rw [h, Option.getD_some, if_pos hpos, hrun, hs, List.append_assoc]

theorem shard_piece {s : List Char} (h : ¬ ['-', '0'] <:+: s) :
    s = shardPiece ((stripNumber false ['-'] s).1.getD 0) ++ (stripNumber false ['-'] s).2 := by
  rcases @stripNumber_cases false ['-'] s with
    hread | ⟨run, rest, hs, hne, hdigits, -, hread⟩
  · rw [hread]
    rfl
  · have hhead : run.head? ≠ some '0' := by
      intro hhead
      obtain ⟨more, rfl⟩ : ∃ more, run = '0' :: more := ⟨run.tail, (List.cons_head?_tail hhead).symm⟩
      exact h ⟨[], more ++ rest, by rw [hs]; rfl⟩
    obtain ⟨hrun, hpos⟩ := ofDigitChars_pos hdigits hne hhead
    rw [hread, Option.getD_some, shardPiece, if_neg hpos.ne', hrun, hs, List.append_assoc]

theorem partition_piece {s : List Char} (h : ∀ d, isDigit d = true → ¬ ['-', 'p', '0', d] <:+: s) :
    s = partitionPiece (stripNumber false ['-', 'p'] s).1 ++ (stripNumber false ['-', 'p'] s).2 := by
  rcases @stripNumber_cases false ['-', 'p'] s with
    hread | ⟨run, rest, hs, hne, hdigits, -, hread⟩
  · rw [hread]
    rfl
  · have hhead : run.head? = some '0' → run = ['0'] := by
      intro hhead
      obtain ⟨more, rfl⟩ : ∃ more, run = '0' :: more := ⟨run.tail, (List.cons_head?_tail hhead).symm⟩
      cases more with
      | nil => rfl
      | cons d more => exact absurd ⟨[], more ++ rest, by rw [hs]; rfl⟩ (h d (hdigits d (by simp)))
    rw [hread, partitionPiece, toDigits_ofDigitChars hdigits hne hhead, hs, List.append_assoc]

theorem suffixes_written {region : Hint} {s : List Char} {p : ParsedName} (h : parseSuffixes region s = some p)
    (hshard : ¬ ['-', '0'] <:+: s) (hpartition : ∀ d, isDigit d = true → ¬ ['-', 'p', '0', d] <:+: s) :
    p.region = region ∧ s = generationPiece p.generation ++ (shardPiece p.shard ++
      (partitionPiece p.partition ++ epochPiece p.epoch)) := by
  have hgenerationPiece := @positive_piece 'g' s
  simp only [parseSuffixes] at h
  generalize stripNumber true ['-', 'g'] s = generation at h hgenerationPiece
  have hin1 : generation.2 <:+: s := ⟨_, [], by rw [List.append_nil]; exact hgenerationPiece.symm⟩
  have hshardPiece := shard_piece fun hin => hshard (hin.trans hin1)
  generalize stripNumber false ['-'] generation.2 = shard at h hshardPiece
  have hin2 : shard.2 <:+: generation.2 := ⟨_, [], by rw [List.append_nil]; exact hshardPiece.symm⟩
  have hpartitionPiece := partition_piece fun d hd hin => hpartition d hd ((hin.trans hin2).trans hin1)
  generalize stripNumber false ['-', 'p'] shard.2 = partition at h hpartitionPiece
  have hepochPiece := @positive_piece 'e' partition.2
  generalize stripNumber true ['-', 'e'] partition.2 = epoch at h hepochPiece
  split at h
  · rename_i hend
    cases h
    refine ⟨rfl, ?_⟩
    rw [List.isEmpty_iff.mp hend, List.append_nil] at hepochPiece
    conv_lhs => rw [hgenerationPiece, hshardPiece, hpartitionPiece, hepochPiece]
    rfl
  · cases h

theorem nameOf_of_parse {name : String} {p : ParsedName}
    (h : EngineNamespace.parseEngineName name = some p) (hcanonical : Canonical name) : nameOf p = name := by
  obtain ⟨s, hs, hfind⟩ := Option.bind_eq_some_iff.mp h
  obtain ⟨region, -, hread⟩ := List.exists_of_findSome?_eq_some hfind
  obtain ⟨rest, hrest, hsuffixes⟩ := Option.bind_eq_some_iff.mp hread
  have hname : name.toList = "engine-".toList ++ (region.text.toList ++ rest) := by
    rw [eq_append_of_stripLit hs, eq_append_of_stripLit hrest]
  have hin : rest <:+: name.toList :=
    ⟨"engine-".toList ++ region.text.toList, [], by rw [hname, List.append_nil, List.append_assoc]⟩
  obtain ⟨rfl, hpieces⟩ := suffixes_written hsuffixes (fun hzero => hcanonical.1 (hzero.trans hin))
    fun d hd hzero => hcanonical.2 d hd (hzero.trans hin)
  rw [← String.toList_inj, nameOf, EngineNamespace.toList_engineName, hname, ← hpieces]

/-- **Engine names are a faithful code** of objects whose numbers are safe integers. -/
theorem names_code :
    (∀ p, Safe p → parseEngineName (nameOf p) = some p) ∧
    (∀ p q, Safe p → Safe q → nameOf p = nameOf q → p = q) ∧
    ∀ name p, EngineNamespace.parseEngineName name = some p → Safe p → Canonical name →
      parseEngineName name = some p ∧ nameOf p = name := by
  have hread : ∀ p, Safe p → parseEngineName (nameOf p) = some p :=
    fun p hsafe => hsafe.parseEngineName EngineNamespace.parseEngineName_engineName
  refine ⟨hread, fun p q hp hq heq => ?_, fun name p hparse hsafe hcanonical => ?_⟩
  · have hsame := hread p hp
    rw [heq, hread q hq] at hsame
    exact (Option.some.inj hsame).symm
  · exact ⟨hsafe.parseEngineName hparse, nameOf_of_parse hparse hcanonical⟩

/-- A shard past the integers that doubles tell apart is read as its neighbour. -/
theorem large_shard_read : ¬ ∀ name p, Canonical name → parseEngineName name = some p → nameOf p = name := by
  intro hall
  have hcanonical : Canonical "engine-wnam-9007199254740993" := by
    have hzero : ¬ ['-', '0'] <:+: "engine-wnam-9007199254740993".toList := by decide +kernel
    have hpartition : ¬ ['-', 'p'] <:+: "engine-wnam-9007199254740993".toList := by decide +kernel
    exact ⟨hzero, fun d _ h => hpartition (List.IsInfix.trans ⟨[], ['0', d], rfl⟩ h)⟩
  have hread : parseEngineName "engine-wnam-9007199254740993" =
      some { region := .wnam, shard := 9007199254740992, partition := none, generation := 0, epoch := 0 } := by
    decide +kernel
  exact absurd (hall _ _ hcanonical hread) (by decide +kernel)

end EngineNames
