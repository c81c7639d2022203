-- SUMMARY: Engine object names: how they are written and read, and which object holds a name today.
import Mathlib.Data.List.Sort
import Sylvan.Data.Text
import Sylvan.Engine.PlacementPolicy

/-!
# Engine names

`engine-<region>[-g<k>][-<n>][-p<k>][-e<k>]`: an object holds one partition of one replica of
a region, in one generation, and its epoch says which object that is. A number that is zero is
not written, the partition's apart.
-/

namespace EngineNamespace

open Text PlacementPolicy

/-! ## Grammar -/

/-- An engine name, taken apart; a generation or an epoch the name does not carry is zero. -/
structure ParsedName where
  region : Hint
  shard : ℕ
  partition : Option ℕ
  generation : ℕ
  epoch : ℕ
deriving DecidableEq

def engineName (region : Hint) (shard : ℕ) (partition : Option ℕ) (generation epoch : ℕ) : String :=
  let stem := "engine-" ++ region.text ++ (if 0 < generation then "-g" ++ generation.repr else "")
  let base := stem ++ (if shard = 0 then "" else "-" ++ shard.repr)
  let name := base ++ (match partition with | none => "" | some p => "-p" ++ p.repr)
  name ++ (if 0 < epoch then "-e" ++ epoch.repr else "")

/-- `(?:<lit>(\d+))?`, or with `[1-9]\d*` when the number must be positive. -/
def stripNumber (positive : Bool) (lit s : List Char) : Option ℕ × List Char :=
  match (stripLit lit s).bind (stripRun isDigit) with
  | none => (none, s)
  | some (run, rest) =>
    if positive && run.head? = some '0' then (none, s) else (some (Nat.ofDigitChars 10 run 0), rest)

def parseSuffixes (region : Hint) (s : List Char) : Option ParsedName :=
  let (generation, s) := stripNumber true ['-', 'g'] s
  let (shard, s) := stripNumber false ['-'] s
  let (partition, s) := stripNumber false ['-', 'p'] s
  let (epoch, s) := stripNumber true ['-', 'e'] s
  if s.isEmpty then
    some { region, shard := shard.getD 0, partition, generation := generation.getD 0, epoch := epoch.getD 0 }
  else none

/-- The region alternatives of the grammar, longest first. -/
def regionAlternatives : List Hint :=
  REGION_HINTS.insertionSort fun a b => b.text.length ≤ a.text.length

def parseEngineName (name : String) : Option ParsedName :=
  (stripLit "engine-".toList name.toList).bind fun s =>
    regionAlternatives.findSome? fun region => (stripLit region.text.toList s).bind (parseSuffixes region)

/-- The replica a name belongs to: the name without its partition and its epoch. -/
def replicaGroupOf (name : String) : Option String :=
  (parseEngineName name).map fun p => engineName p.region p.shard none p.generation 0

example : parseEngineName "engine-apac-ne-g2-1-p11-e3" =
    some { region := .apacNe, shard := 1, partition := some 11, generation := 2, epoch := 3 } := by
  decide +kernel

example : parseEngineName "engine-wnam-p10-e0" = none := by decide +kernel

/-! ## Reading a written name -/

/-- What can follow a number: nothing, or a dash and a letter or digit that says what comes next. -/
def LeadIn (next : Char → Prop) (s : List Char) : Prop :=
  s = [] ∨ ∃ c rest, s = '-' :: c :: rest ∧ next c

variable {next : Char → Prop} {s : List Char}

theorem LeadIn.stripRun_digits (h : LeadIn next s) (n : ℕ) :
    stripRun isDigit (Nat.toDigits 10 n ++ s) = some (Nat.toDigits 10 n, s) := by
  have hall : ∀ c ∈ Nat.toDigits 10 n, isDigit c = true := fun c => isDigit_of_mem_toDigits
  have htake : s.takeWhile isDigit = [] := by
    rcases h with rfl | ⟨c, rest, rfl, -⟩ <;> rfl
  have hdrop : s.dropWhile isDigit = s := by
    rcases h with rfl | ⟨c, rest, rfl, -⟩ <;> rfl
  rw [stripRun, List.takeWhile_append_of_pos hall, List.dropWhile_append_of_pos hall, htake, hdrop, List.append_nil]
  simp [Nat.toDigits_ne_nil]

theorem LeadIn.stripNumber_written (h : LeadIn next s)
    {positive : Bool} {lit : List Char} {n : ℕ} (hn : positive = true → 0 < n) :
    stripNumber positive lit (lit ++ (Nat.toDigits 10 n ++ s)) = (some n, s) := by
  have hzero : (positive && (Nat.toDigits 10 n).head? = some '0') = false := by
    cases positive with
    | false => rfl
    | true => simpa using head_toDigits_ne_zero (hn rfl)
  simp only [stripNumber, stripLit_append, Option.bind_some, h.stripRun_digits, hzero]
  simp

theorem LeadIn.stripNumber_absent (h : LeadIn next s)
    {positive : Bool} {letter : Char} (hnext : ¬ next letter) :
    stripNumber positive ['-', letter] s = (none, s) := by
  rcases h with rfl | ⟨c, rest, rfl, hc⟩
  · rfl
  · have hne : letter ≠ c := by
      rintro rfl
      exact hnext hc
    simp [stripNumber, stripLit, hne]

theorem LeadIn.stripShard_absent (h : LeadIn next s)
    (hnext : ∀ c, next c → isDigit c = false) : stripNumber false ['-'] s = (none, s) := by
  rcases h with rfl | ⟨c, rest, rfl, hc⟩
  · rfl
  · simp [stripNumber, stripLit, stripRun, List.takeWhile, hnext c hc]

/-! ### The pieces -/

def epochPiece (epoch : ℕ) : List Char := if 0 < epoch then ['-', 'e'] ++ Nat.toDigits 10 epoch else []

def partitionPiece : Option ℕ → List Char
  | none => []
  | some p => ['-', 'p'] ++ Nat.toDigits 10 p

def shardPiece (shard : ℕ) : List Char := if shard = 0 then [] else ['-'] ++ Nat.toDigits 10 shard

def generationPiece (generation : ℕ) : List Char :=
  if 0 < generation then ['-', 'g'] ++ Nat.toDigits 10 generation else []

variable {region : Hint}

theorem toList_engineName {shard : ℕ} {partition : Option ℕ} {generation epoch : ℕ} :
    (engineName region shard partition generation epoch).toList =
      "engine-".toList ++ (region.text.toList ++ (generationPiece generation ++ (shardPiece shard ++
        (partitionPiece partition ++ epochPiece epoch)))) := by
  simp only [engineName, generationPiece, shardPiece, epochPiece, String.toList_append, List.append_assoc]
  congr 3
  · split_ifs <;> simp
  · congr 1
    · split_ifs <;> simp
    · congr 1
      · cases partition with
        | none => rfl
        | some p => simp [partitionPiece]
      · split_ifs <;> simp

theorem leadIn_epoch (epoch : ℕ) : LeadIn (· = 'e') (epochPiece epoch) := by
  unfold epochPiece
  split
  · exact .inr ⟨'e', _, rfl, rfl⟩
  · exact .inl rfl

theorem leadIn_partition (partition : Option ℕ) (epoch : ℕ) :
    LeadIn (fun c => c = 'p' ∨ c = 'e') (partitionPiece partition ++ epochPiece epoch) := by
  cases partition with
  | none => exact (leadIn_epoch epoch).imp id fun ⟨c, rest, heq, hc⟩ => ⟨c, rest, heq, .inr hc⟩
  | some p => exact .inr ⟨'p', _, rfl, .inl rfl⟩

theorem leadIn_shard (shard : ℕ) (partition : Option ℕ) (epoch : ℕ) : LeadIn (fun c => isDigit c = true ∨ c = 'p' ∨ c = 'e')
      (shardPiece shard ++ (partitionPiece partition ++ epochPiece epoch)) := by
  unfold shardPiece
  split
  · exact (leadIn_partition partition epoch).imp id fun ⟨c, rest, heq, hc⟩ => ⟨c, rest, heq, .inr hc⟩
  · obtain ⟨c, rest, hdigits⟩ := List.exists_cons_of_ne_nil (Nat.toDigits_ne_nil (n := shard) (b := 10))
    rw [hdigits]
    exact .inr ⟨c, _, rfl, .inl (isDigit_of_mem_toDigits (n := shard) (by simp [hdigits]))⟩

theorem leadIn_generation (generation shard : ℕ) (partition : Option ℕ) (epoch : ℕ) :
    LeadIn (fun c => isDigit c = true ∨ c = 'p' ∨ c = 'e' ∨ c = 'g')
      (generationPiece generation ++ (shardPiece shard ++ (partitionPiece partition ++ epochPiece epoch))) := by
  unfold generationPiece
  split
  · exact .inr ⟨'g', _, rfl, by simp⟩
  · exact (leadIn_shard shard partition epoch).imp id fun ⟨c, rest, heq, hc⟩ => ⟨c, rest, heq, by tauto⟩

theorem parseSuffixes_written {shard : ℕ} {partition : Option ℕ} {generation epoch : ℕ} :
    parseSuffixes region (generationPiece generation ++ (shardPiece shard ++
        (partitionPiece partition ++ epochPiece epoch))) =
      some { region, shard, partition, generation, epoch } := by
  have hgeneration : stripNumber true ['-', 'g'] (generationPiece generation ++ (shardPiece shard ++
      (partitionPiece partition ++ epochPiece epoch))) = (if 0 < generation then some generation else none,
        shardPiece shard ++ (partitionPiece partition ++ epochPiece epoch)) := by
    have hlead := leadIn_shard shard partition epoch
    unfold generationPiece
    split_ifs with h
    · rw [List.append_assoc]
      exact hlead.stripNumber_written fun _ => h
    · exact hlead.stripNumber_absent (by decide)
  have hshard : stripNumber false ['-'] (shardPiece shard ++ (partitionPiece partition ++ epochPiece epoch)) =
      (if shard = 0 then none else some shard, partitionPiece partition ++ epochPiece epoch) := by
    have hlead := leadIn_partition partition epoch
    unfold shardPiece
    split_ifs with h
    · exact hlead.stripShard_absent (by rintro c (rfl | rfl) <;> decide)
    · rw [List.append_assoc]
      exact hlead.stripNumber_written (by simp)
  have hpartition : stripNumber false ['-', 'p'] (partitionPiece partition ++ epochPiece epoch) =
      (partition, epochPiece epoch) := by
    have hlead := leadIn_epoch epoch
    cases partition with
    | none => exact hlead.stripNumber_absent (by decide)
    | some p =>
      rw [partitionPiece, List.append_assoc]
      exact hlead.stripNumber_written (by simp)
  have hepoch : stripNumber true ['-', 'e'] (epochPiece epoch) = (if 0 < epoch then some epoch else none, []) := by
    have hlead : LeadIn (fun _ => False) [] := .inl rfl
    unfold epochPiece
    split_ifs with h
    · have hread : stripNumber true ['-', 'e'] (['-', 'e'] ++ (Nat.toDigits 10 epoch ++ [])) =
          (some epoch, []) := hlead.stripNumber_written fun _ => h
      simpa using hread
    · rfl
  simp only [parseSuffixes, hgeneration, hshard, hpartition, hepoch]
  split_ifs <;> simp_all

theorem LeadIn.stripLit_absent (h : LeadIn next s) {c : Char}
    {lit : List Char} (hnext : ¬ next c) : stripLit ('-' :: c :: lit) s = none := by
  rcases h with rfl | ⟨d, rest, rfl, hd⟩
  · rfl
  · have hne : c ≠ d := by
      rintro rfl
      exact hnext hd
    simp [stripLit, hne]

theorem own_alternative : ∀ region ∈ REGION_HINTS, regionAlternatives = regionAlternatives.takeWhile (· ≠ region) ++
      region :: (regionAlternatives.dropWhile (· ≠ region)).tail := by
  decide +kernel

theorem earlier_alternative : ∀ region ∈ REGION_HINTS, ∀ a ∈ regionAlternatives.takeWhile (· ≠ region),
      (¬ a.text.toList <+: region.text.toList ∧ ¬ region.text.toList <+: a.text.toList) ∨
        a.text.toList = region.text.toList ++ "-ne".toList ∨ a.text.toList = region.text.toList ++ "-se".toList := by
  decide +kernel

theorem findSome_region {β : Type*} {f : Hint → List Char → Option β}
    (hlead : LeadIn next s)
    (hn : ¬ next 'n') (hs : ¬ next 's') {b : β} (hf : f region s = some b) :
    regionAlternatives.findSome? (fun a => (stripLit a.text.toList (region.text.toList ++ s)).bind (f a)) = some b := by
  have hearlier : (regionAlternatives.takeWhile (· ≠ region)).findSome?
      (fun a => (stripLit a.text.toList (region.text.toList ++ s)).bind (f a)) = none := by
    refine List.findSome?_eq_none_iff.mpr fun a ha => ?_
    have hstrip : stripLit a.text.toList (region.text.toList ++ s) = none := by
      rcases earlier_alternative region (mem_REGION_HINTS region) a ha with ⟨hlit, hfront⟩ | heq | heq
      · exact stripLit_append_of_clash hlit hfront
      · rw [heq, stripLit_append_left]
        exact hlead.stripLit_absent hn
      · rw [heq, stripLit_append_left]
        exact hlead.stripLit_absent hs
    rw [hstrip, Option.bind_none]
  rw [own_alternative region (mem_REGION_HINTS region), List.findSome?_append, hearlier, Option.none_or, List.findSome?_cons,
    stripLit_append, Option.bind_some, hf]

/-- **A written name reads back as what it was written from.** -/
theorem parseEngineName_engineName {shard : ℕ} {partition : Option ℕ} {generation epoch : ℕ} :
    parseEngineName (engineName region shard partition generation epoch) =
      some { region, shard, partition, generation, epoch } := by
  have hwritten := @parseSuffixes_written region shard partition generation epoch
  have hlead := leadIn_generation generation shard partition epoch
  rw [parseEngineName, toList_engineName, stripLit_append, Option.bind_some]
  exact findSome_region hlead (by decide) (by decide) hwritten

/-! ## The object that holds a name

A name resolves to the epoch its record says, at least, and past every object of that name the
deployment has abandoned. -/

def MAX_ENGINE_EPOCH : ℕ := 8

def engineMoveRecord (engines : Engines) (name : String) : Option EngineMoveRecord :=
  engines.bind (·.get name)

def epochFloorOf (engines : Engines) (name : String) : ℕ :=
  min (((engineMoveRecord engines name).bind (·.e)).getD 0) MAX_ENGINE_EPOCH

section

-- Whether the object a name is hashed to is listed in `ABANDONED_ENGINES`.
variable (abandoned : String → Bool)

/-- Up to `steps` abandoned objects of a name, followed from `epoch` on. -/
def followAbandoned (name : ℕ → String) : ℕ → ℕ → ℕ
  | 0, epoch => epoch
  | steps + 1, epoch =>
    if abandoned (name epoch) then followAbandoned name steps (epoch + 1) else epoch

def currentEngineName (engines : Engines) (region : Hint) (shard : ℕ) (partition : Option ℕ)
    (generation : ℕ) : String :=
  let name := engineName region shard partition generation
  let floor := if partition.isNone then 0 else epochFloorOf engines (name 0)
  name (followAbandoned abandoned name (MAX_ENGINE_EPOCH - floor) floor)

theorem le_followAbandoned {name : ℕ → String} {steps epoch : ℕ} : epoch ≤ followAbandoned abandoned name steps epoch := by
  induction steps generalizing epoch with
  | zero => exact le_rfl
  | succ steps ih =>
    rw [followAbandoned]
    split
    · exact (Nat.le_succ epoch).trans ih
    · exact le_rfl

theorem parse_currentEngineName {engines : Engines} {shard p generation : ℕ} :
    ∃ epoch, epochFloorOf engines (engineName region shard (some p) generation 0) ≤ epoch ∧
      parseEngineName (currentEngineName abandoned engines region shard (some p) generation) =
        some { region, shard, partition := some p, generation, epoch } := by
  simp only [currentEngineName, Option.isNone_some, Bool.false_eq_true, if_false]
  generalize epochFloorOf engines (engineName region shard (some p) generation 0) = floor
  refine ⟨followAbandoned abandoned (engineName region shard (some p) generation)
    (MAX_ENGINE_EPOCH - floor) floor, le_followAbandoned abandoned, ?_⟩
  rw [parseEngineName_engineName]

end

end EngineNamespace
