-- SUMMARY: The routing filter's soundness: every key added to a builder reads the value it was sealed to.
import Mathlib.Order.Bounds.Basic
import Sylvan.Engine.RoutingBuild
import Sylvan.Engine.RoutingSeal

/-!
# Soundness

Keys are added in any order, sealed by hash, and built into a filter. Where no two of
them share a hash, the filter answers each with the lowest partition it was added
for, and a name with what its holders come to.
-/

namespace RoutingFilter

open RoutingKeyAccumulator

/-! ## Added keys -/

/-- Every key of a list added to an empty builder, each for its partition. -/
def addAll (added : List (String × ℕ)) : Except String RoutingKeyAccumulator :=
  added.foldlM (fun acc a => acc.add a.1 a.2) {}

theorem addAll_eq (added : List (String × ℕ)) : addAll added = .ok { rows := added.map fun a => rowOf a.1 a.2 } := by
  have hstep : ∀ acc : RoutingKeyAccumulator, acc.isSealed = false →
      added.foldlM (fun acc a => acc.add a.1 a.2) acc = .ok { acc with
        rows := acc.rows ++ added.map fun a => rowOf a.1 a.2 } := by
    induction added with
    | nil =>
      intro acc _
      rw [List.map_nil, List.append_nil]
      rfl
    | cons a added ih =>
      intro acc hopen
      have hadd : acc.add a.1 a.2 = .ok { acc with rows := acc.rows ++ [rowOf a.1 a.2] } := by
        rw [add, addHashed, hopen]
        rfl
      rw [List.foldlM_cons, Throws.bind_ok hadd]
      refine (ih { acc with rows := acc.rows ++ [rowOf a.1 a.2] } hopen).trans ?_
      rw [List.map_cons, List.append_assoc]
      rfl
  exact hstep {} rfl

/-! ## Spellings -/

theorem isNameFlag_keyFlags (key : String) : isNameFlag (keyFlags key) = true ↔ keyFlags key ≠ 0 := by
  have hflags : ∀ c, isNameFlag (nameFlags c) = true ↔ nameFlags c ≠ 0 := by
    intro c
    unfold nameFlags
    split <;> decide
  unfold keyFlags
  split
  · exact hflags _
  · decide

theorem hashedKey_of_flags {key : String} (h : keyFlags key = 0) : hashedKey key = key := by
  unfold keyFlags at h
  unfold hashedKey
  split
  · rename_i second name hchars
    rw [hchars] at h
    simp only at h
    rw [if_neg fun hand => hand.1 h]
  · rfl

theorem keyFlags_hashedKey (key : String) : keyFlags (hashedKey key) = 0 ↔ keyFlags key = 0 := by
  refine ⟨fun h => ?_, fun h => by rw [hashedKey_of_flags h, h]⟩
  by_contra hname
  obtain ⟨second, name, hchars, hflags⟩ : ∃ second name,
      key.toList = 'n' :: second :: ':' :: name ∧ nameFlags second ≠ 0 := by
    unfold keyFlags at hname
    split at hname
    · rename_i second name hchars
      exact ⟨second, name, hchars, hname⟩
    · exact absurd rfl hname
  unfold hashedKey at h
  rw [hchars] at h
  simp only at h
  split_ifs at h
  · unfold keyFlags at h
    rw [String.toList_ofList] at h
    exact absurd h (show nameFlags 'm' ≠ 0 by decide)
  · exact hname h

theorem keyFlags_congr {a b : String} (h : hashedKey a = hashedKey b) : keyFlags a = 0 ↔ keyFlags b = 0 := by
  rw [← keyFlags_hashedKey, h, keyFlags_hashedKey]

/-! ## What is read back -/

section Sound

variable {host : Host} {added : List (String × ℕ)} {acc acc' : RoutingKeyAccumulator}
  {options : SealOptions} {keys : SealedRoutingKeys} {identity : RoutingFilterIdentity}
  {features : ℕ} {bytes : Bytes}

/-- The entries of everything added under a spelling of `key`: each its partition, as
`store` keeps it, and its flags. -/
def entriesOf (store : ℕ → ℕ) (added : List (String × ℕ)) (key : String) : List (ℤ × ℕ) :=
  (added.filter fun a => hashedKey a.1 = key).map fun a => ((store a.2 : ℤ), keyFlags a.1)

def storedByte (partition : ℕ) : ℕ := partition % 256

/-- No two keys hash alike but the spellings of one name. -/
def HashApart (added : List (String × ℕ)) : Prop :=
  ∀ a ∈ added, ∀ b ∈ added, routingHash (hashedKey a.1) = routingHash (hashedKey b.1) → hashedKey a.1 = hashedKey b.1

theorem filter_map_congr {α β : Type} {f : α → β} {p : β → Bool} {q : α → Bool} {l : List α}
    (h : ∀ a ∈ l, p (f a) = q a) : (l.map f).filter p = (l.filter q).map f := by
  rw [List.filter_map]
  exact congrArg _ (List.filter_congr h)

theorem hash64_rowOf (a b : String × ℕ) : HashSort.hash64 (rowOf a.1 a.2) = HashSort.hash64 (rowOf b.1 b.2) ↔
    routingHash (hashedKey a.1) = routingHash (hashedKey b.1) := by
  rw [hash64_inj, Prod.ext_iff]
  simp only [rowOf]

theorem rows_filter (hapart : HashApart added) {a : String × ℕ} (ha : a ∈ added) :
    (added.map fun b => rowOf b.1 b.2).filter (fun e =>
        HashSort.hash64 e = HashSort.hash64 (rowOf a.1 a.2)) =
      (added.filter fun b => hashedKey b.1 = hashedKey a.1).map fun b =>
        rowOf b.1 b.2 := by
  have hsame : ∀ b ∈ added, (HashSort.hash64 (rowOf b.1 b.2) =
      HashSort.hash64 (rowOf a.1 a.2)) ↔ hashedKey b.1 = hashedKey a.1 := by
    intro b hb
    rw [hash64_rowOf]
    exact ⟨hapart b hb a ha, fun h => by rw [h]⟩
  exact filter_map_congr fun b hb => decide_eq_decide.mpr (hsame b hb)

theorem sealsTo_cases (hapart : HashApart added) {a : String × ℕ} (ha : a ∈ added) {value : UInt8}
    (h : SealsTo options ((added.map fun b => rowOf b.1 b.2).filter fun e =>
      HashSort.hash64 e = HashSort.hash64 (rowOf a.1 a.2)) value) :
    (keyFlags a.1 = 0 → IsLeast {p | ∃ b ∈ added, b.1 = a.1 ∧ p = storedByte b.2} value.toNat) ∧
    (keyFlags a.1 ≠ 0 → ∃ n, options.partitionCount = some n ∧
      value = UInt8.ofInt ((NameRun.of (entriesOf storedByte added (hashedKey a.1))).value n
        options.tiers options.pairs)) := by
  rw [rows_filter hapart ha, SealsTo, List.map_map] at h
  have hstored : ∀ p, (UInt8.ofNat p).toNat = storedByte p := fun p => UInt8.toNat_ofNat'
  have hany : ((added.filter fun b => hashedKey b.1 = hashedKey a.1).map fun b =>
      rowOf b.1 b.2).any (fun e => isNameFlag e.flags) = true ↔
      keyFlags a.1 ≠ 0 := by
    rw [List.any_map, List.any_eq_true]
    constructor
    · rintro ⟨b, hb, hflag⟩
      have hhash := of_decide_eq_true (List.mem_filter.mp hb).2
      exact fun hzero => (isNameFlag_keyFlags b.1).mp hflag ((keyFlags_congr hhash).mpr hzero)
    · intro hname
      exact ⟨a, List.mem_filter.mpr ⟨ha, decide_eq_true rfl⟩, (isNameFlag_keyFlags a.1).mpr hname⟩
  refine ⟨fun hid => ?_, fun hname => ?_⟩
  · rw [if_neg fun hnamed => hany.mp hnamed hid] at h
    obtain ⟨⟨e, he, hvalue⟩, hleast⟩ := h
    -- An id is hashed as it is, and only it is hashed so.
    have hsame : ∀ b : String × ℕ, hashedKey b.1 = hashedKey a.1 ↔ b.1 = a.1 := by
      intro b
      refine ⟨fun hhash => ?_, fun heq => by rw [heq]⟩
      rwa [hashedKey_of_flags ((keyFlags_congr hhash).mpr hid), hashedKey_of_flags hid] at hhash
    obtain ⟨b, hb, rfl⟩ := List.mem_map.mp he
    obtain ⟨hb, hhash⟩ := List.mem_filter.mp hb
    refine ⟨⟨b, hb, (hsame b).mp (of_decide_eq_true hhash), ?_⟩, ?_⟩
    · rw [← hvalue]
      exact hstored b.2
    · rintro _ ⟨c, hc, hkey, rfl⟩
      have hle := hleast _ (List.mem_map_of_mem
        (List.mem_filter.mpr ⟨hc, decide_eq_true ((hsame c).mpr hkey)⟩))
      rw [← hstored c.2]
      exact UInt8.le_iff_toNat_le.mp hle
  · rw [if_pos (hany.mpr hname)] at h
    obtain ⟨n, hn, hvalue⟩ := h
    refine ⟨n, hn, hvalue.trans ?_⟩
    have hentries : ((added.filter fun b => hashedKey b.1 = hashedKey a.1).map
          ((fun e : HashedEntry => ((e.value.toNat : ℤ), e.flags)) ∘ fun b =>
            rowOf b.1 b.2)) =
        entriesOf storedByte added (hashedKey a.1) := by
      refine List.map_congr_left fun b _ => ?_
      simp only [Function.comp_apply, rowOf, hstored]
    rw [hentries]

/-- What a filter answers of everything added to its builder: of an id, the lowest
partition it was added for; of a name, what its holders come to. -/
structure Answers (filter : Filter) (options : SealOptions) (added : List (String × ℕ)) : Prop where
  id : ∀ a ∈ added, keyFlags a.1 = 0 → IsLeast {p | ∃ b ∈ added, b.1 = a.1 ∧ p = storedByte b.2} (filter.valueOf a.1)
  name : ∀ a ∈ added, keyFlags a.1 ≠ 0 → ∃ n, options.partitionCount = some n ∧ filter.valueOf (hashedKey a.1) = (UInt8.ofInt
      ((NameRun.of (entriesOf storedByte added (hashedKey a.1))).value n options.tiers
        options.pairs)).toNat

/-- In range, a filter answers in the partitions themselves. -/
structure AnswersInRange (filter : Filter) (options : SealOptions) (added : List (String × ℕ)) :
    Prop where
  id : ∀ a ∈ added, keyFlags a.1 = 0 → IsLeast {p | (a.1, p) ∈ added} (filter.valueOf a.1) ∧
    filter.lookup a.1 = some (filter.valueOf a.1)
  name : options.partitionCount = some filter.partitionCount → ∀ a ∈ added, keyFlags a.1 ≠ 0 →
    (filter.valueOf (hashedKey a.1) : ℤ) = (NameRun.of (entriesOf (·) added (hashedKey a.1))).value
      filter.partitionCount options.tiers options.pairs

theorem toNat_ofInt {v : ℤ} (h : 0 ≤ v ∧ v ≤ NAME_AMBIGUOUS) : ((UInt8.ofInt v).toNat : ℤ) = v := by
  rw [NAME_AMBIGUOUS] at h
  rw [UInt8.ofInt, UInt8.toNat_ofNat']
  omega

theorem Answers.inRange {filter : Filter} (h : Answers filter options added)
    (hmask : filter.partitionCount ≤ VALUE_MASK)
    (hrange : ∀ a ∈ added, a.2 < filter.partitionCount) : AnswersInRange filter options added := by
  rw [VALUE_MASK] at hmask
  have hstored : ∀ a ∈ added, storedByte a.2 = a.2 := by
    intro a ha
    have hlt := hrange a ha
    exact Nat.mod_eq_of_lt (by omega)
  refine ⟨fun a ha hid => ?_, fun hcount a ha hname => ?_⟩
  · have hset : {p | ∃ b ∈ added, b.1 = a.1 ∧ p = storedByte b.2} = {p | (a.1, p) ∈ added} := by
      ext p
      constructor
      · rintro ⟨b, hb, hkey, rfl⟩
        rw [hstored b hb, ← hkey]
        exact hb
      · intro hp
        exact ⟨(a.1, p), hp, rfl, (hstored _ hp).symm⟩
    have hleast := hset ▸ h.id a ha hid
    exact ⟨hleast, if_pos (hrange _ hleast.1)⟩
  · obtain ⟨n, hn, hvalue⟩ := h.name a ha hname
    cases hn.symm.trans hcount
    have hentries : entriesOf storedByte added (hashedKey a.1) = entriesOf (·) added (hashedKey a.1) :=
      List.map_congr_left fun b hb => by rw [hstored b (List.mem_filter.mp hb).1]
    rw [hvalue, hentries]
    refine toNat_ofInt (NameRun.value_range (by rw [NAME_AMBIGUOUS]; omega) (fun e he => ?_) _ _)
    obtain ⟨b, hb, rfl⟩ := List.mem_map.mp he
    have hlt := hrange b (List.mem_filter.mp hb).1
    simp only
    omega

/-- **A filter tells the truth of every key it was built with.** Whatever keys are added
for whatever partitions, where no two share a hash: the bytes of the build are accepted
under its identity, and every id reads the lowest partition it was added for, every name
the value its holders come to. -/
theorem routing_filter_sound (hadd : addAll added = .ok acc) (hapart : HashApart added)
    (hseal : acc.seal host options = .ok (keys, acc'))
    (hbuild : buildRoutingFilterFromHashes host keys.keys identity features = .ok bytes) :
    ∃ filter, parse bytes identity = .ok filter ∧
      filter.partitionCount = identity.partitionCount ∧ Answers filter options added ∧
      ((∀ a ∈ added, a.2 < identity.partitionCount) → AnswersInRange filter options added) := by
  rw [addAll_eq] at hadd
  cases hadd
  obtain ⟨filter, hparse, hcount, hmask, -, hreads⟩ := exists_filter_of_build hbuild
  have hanswers : Answers filter options added := by
    have hsealed : ∀ a ∈ added, ∃ value, filter.valueOf (hashedKey a.1) = UInt8.toNat value ∧
        SealsTo options ((added.map fun b => rowOf b.1 b.2).filter fun e =>
          HashSort.hash64 e = HashSort.hash64 (rowOf a.1 a.2)) value := by
      intro a ha
      obtain ⟨row, hrow, hlo, hhi, hseals⟩ := seal_spec hseal _ (List.mem_map_of_mem ha)
      refine ⟨row.value, hreads _ row hrow ?_, hseals⟩
      rw [hlo, hhi]
      rfl
    refine ⟨fun a ha hid => ?_, fun a ha hname => ?_⟩
    · obtain ⟨value, hvalue, hseals⟩ := hsealed a ha
      rw [hashedKey_of_flags hid] at hvalue
      rw [hvalue]
      exact (sealsTo_cases hapart ha hseals).1 hid
    · obtain ⟨value, hvalue, hseals⟩ := hsealed a ha
      obtain ⟨n, hn, rfl⟩ := (sealsTo_cases hapart ha hseals).2 hname
      exact ⟨n, hn, hvalue⟩
  refine ⟨filter, hparse, hcount, hanswers, fun hrange => ?_⟩
  exact hanswers.inRange (hcount ▸ hmask) (by rwa [hcount])

end Sound

/-! ## One name in one partition -/

def chaosHost : Host := ⟨2 ^ 20, by decide⟩

def chaosIdentity : RoutingFilterIdentity where
  builtAt := "1"
  partitionCount := 3
  partitionHash := "fnv"
  builtAt_plain := by decide +kernel
  partitionHash_plain := by decide +kernel

def chaosAdded : List (String × ℕ) := [("ns:chaos", 1)]

def chaosOptions : SealOptions := { partitionCount := some 3, tiers := true }

def chaosAcc : RoutingKeyAccumulator :=
  { rows := chaosAdded.map fun a => rowOf a.1 a.2 }

def chaosSealed : SealedRoutingKeys × RoutingKeyAccumulator :=
  (chaosAcc.seal chaosHost chaosOptions).toOption.getD (⟨[], 0⟩, {})

def chaosBytes : Bytes :=
  (buildRoutingFilterFromHashes chaosHost chaosSealed.1.keys chaosIdentity 3).toOption.getD []

theorem routing_filter_sound_chaos : ∃ filter, parse chaosBytes chaosIdentity = .ok filter ∧
    filter.partitionCount = 3 ∧ Answers filter chaosOptions chaosAdded ∧
    AnswersInRange filter chaosOptions chaosAdded := by
  have hapart : HashApart chaosAdded := by
    intro a ha b hb _
    rw [List.mem_singleton.mp ha, List.mem_singleton.mp hb]
  have hadd : addAll chaosAdded = .ok chaosAcc := addAll_eq chaosAdded
  have hseal : chaosAcc.seal chaosHost chaosOptions = .ok (chaosSealed.1, chaosSealed.2) :=
    Throws.ok_getD (⟨[], 0⟩, {}) (by decide +kernel)
  have hbuild : buildRoutingFilterFromHashes chaosHost chaosSealed.1.keys chaosIdentity 3 =
      .ok chaosBytes := Throws.ok_getD [] (by decide +kernel)
  obtain ⟨filter, hparse, hcount, hanswers, hrange⟩ :=
    routing_filter_sound hadd hapart hseal hbuild
  refine ⟨filter, hparse, hcount, hanswers, hrange fun a ha => ?_⟩
  rw [List.mem_singleton.mp ha]
  decide

end RoutingFilter