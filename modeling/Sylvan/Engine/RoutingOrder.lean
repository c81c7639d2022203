-- SUMMARY: Sealing whatever keys were added, in whatever order: one row for each hash, ascending, with its lowest partition or its name's value.
import Sylvan.Data.SortedRuns
import Sylvan.Engine.RoutingSound

/-!
# The order of adding

What a seal makes of a builder is what the set of its rows decides. The hashes of the
sealed columns are those of the groups the sorted rows fall into, and a group's value
reads only which partitions its rows are of.
-/

namespace RoutingFilter

open SortedRuns
open RoutingKeyAccumulator (rowOf)

/-! ## The rows of a seal -/

def SealedKey.hash (row : SealedKey) : ℕ := row.hi.toNat * 2 ^ 32 + row.lo.toNat

theorem SealedKey.hash_eq_iff {row : SealedKey} {e : HashedEntry} :
    row.hash = HashSort.hash64 e ↔ row.lo = e.lo ∧ row.hi = e.hi := by
  have hrow : row.hash = HashSort.hash64 ⟨row.lo, row.hi, 0, 0⟩ := rfl
  rw [hrow, hash64_inj]

def noteName (named : Option Bool) (e : HashedEntry) : Bool := named.getD false || isNameFlag e.flags

/-- The rows sealed so far are the groups `groups`, the last of them the run that is open. -/
inductive Tracks (s : Sealing) : List (ℕ × Bool) → Prop
  | empty (hcurrent : s.current = none) (hclosed : s.closed = []) (hnames : s.nameKeys = 0) : Tracks s []
  | run {row : SealedKey} {front : List (ℕ × Bool)} (hcurrent : s.current = some row)
      (hclosed : s.closed.map SealedKey.hash = front.map Prod.fst) (hnames : s.nameKeys = front.countP Prod.snd) :
      Tracks s (front ++ [(row.hash, s.runName)])

section Groups

variable {options : SealOptions}

theorem Tracks.close {s : Sealing} {groups : List (ℕ × Bool)} (h : Tracks s groups)
    (hcount : s.runName = true → options.partitionCount.isSome) :
    ∃ s', s.closeRun options = .ok s' ∧ s'.closed.map SealedKey.hash = groups.map Prod.fst ∧
      s'.nameKeys = groups.countP Prod.snd := by
  cases h with
  | empty hcurrent hclosed hnames =>
    refine ⟨s, ?_, by rw [hclosed]; rfl, hnames⟩
    rw [Sealing.closeRun, hcurrent]
  | @run row front hcurrent hclosed hnames =>
    unfold Sealing.closeRun
    rw [hcurrent]
    cases hname : s.runName with
    | false =>
      refine ⟨_, rfl, ?_, ?_⟩
      · rw [List.map_append, List.map_append, hclosed]
        rfl
      · rw [List.countP_append, ← hnames]
        rfl
    | true =>
      obtain ⟨n, hn⟩ := Option.isSome_iff_exists.mp (hcount hname)
      simp only [hn, if_true]
      refine ⟨_, rfl, ?_, ?_⟩
      · rw [List.map_append, List.map_append, hclosed]
        rfl
      · rw [List.countP_append, ← hnames]
        rfl

theorem Tracks.fold {s : Sealing} {groups : List (ℕ × Bool)} {e : HashedEntry} (h : Tracks s groups)
    (hcount : s.runName = true → options.partitionCount.isSome)
    (hname : isNameFlag e.flags = true → options.partitionCount.isSome) :
    ∃ s', Sealing.fold options s e = .ok s' ∧ Tracks s' (join HashSort.hash64 noteName groups e) ∧
        (s'.runName = true → options.partitionCount.isSome) := by
  obtain ⟨closed, hclose, hhashes, hnames⟩ := h.close hcount
  -- a new run opens behind the groups
  have hopens : ∃ s', (do
        let s ← s.closeRun options
        return { s with
          current := some ⟨e.lo, e.hi, e.value⟩
          runName := isNameFlag e.flags
          run := NameRun.note {} e.value.toNat e.flags } : Except String Sealing) = .ok s' ∧
      Tracks s' (groups ++ [(HashSort.hash64 e, noteName none e)]) ∧
        (s'.runName = true → options.partitionCount.isSome) := by
    rw [Throws.bind_ok hclose]
    exact ⟨_, rfl, @Tracks.run _ ⟨e.lo, e.hi, e.value⟩ _ rfl hhashes hnames, hname⟩
  unfold Sealing.fold
  cases h with
  | empty hcurrent hclosed hnone =>
    rw [hcurrent]
    exact hopens
  | @run row front hcurrent hclosed hnames' =>
    rw [hcurrent]
    simp only
    have hlast : (front ++ [(row.hash, s.runName)]).getLast? = some (row.hash, s.runName) := List.getLast?_concat
    unfold join
    rw [hlast]
    simp only
    by_cases hhash : row.lo = e.lo ∧ row.hi = e.hi
    · rw [if_pos hhash, if_pos (SealedKey.hash_eq_iff.mpr hhash), List.dropLast_concat]
      have hkept : (if e.value < row.value then { row with value := e.value } else row).hash = row.hash := by
        split
        · rfl
        · rfl
      refine ⟨_, rfl, ?_, ?_⟩
      · rw [← hkept]
        exact .run rfl hclosed hnames'
      · intro hor
        rcases Bool.or_eq_true_iff.mp hor with hrun | hflag
        · exact hcount hrun
        · exact hname hflag
    · rw [if_neg hhash, if_neg fun heq => hhash (SealedKey.hash_eq_iff.mp heq)]
      exact hopens

theorem Tracks.foldlM {l : List HashedEntry}
    (hname : ∀ e ∈ l, isNameFlag e.flags = true → options.partitionCount.isSome) :
    ∀ {s : Sealing} {groups : List (ℕ × Bool)}, Tracks s groups → (s.runName = true → options.partitionCount.isSome) →
        ∃ s', l.foldlM (Sealing.fold options) s = .ok s' ∧ Tracks s' (l.foldl (join HashSort.hash64 noteName) groups) ∧
            (s'.runName = true → options.partitionCount.isSome) := by
  induction l with
  | nil => exact fun h hcount => ⟨_, rfl, h, hcount⟩
  | cons e l ih =>
    intro s groups h hcount
    obtain ⟨s₁, hstep, h₁, hcount₁⟩ := h.fold hcount (hname e (by simp))
    obtain ⟨s', hfold, h', hcount'⟩ := ih (fun e he => hname e (by simp [he])) h₁ hcount₁
    refine ⟨s', ?_, h', hcount'⟩
    rw [List.foldlM_cons, hstep]
    exact hfold

theorem foldl_noteName (l : List HashedEntry) : l.foldl (fun named e => some (noteName named e)) none =
      if l = [] then none else some (l.any fun e => isNameFlag e.flags) := by
  induction l using List.reverseRecOn with
  | nil => rfl
  | append_singleton l e ih =>
    have hne : l ++ [e] ≠ [] := by simp
    rw [List.foldl_append, ih, if_neg hne, List.any_append]
    by_cases hl : l = []
    · subst hl
      simp [noteName]
    · rw [if_neg hl]
      simp [noteName]

/-- The groups of some rows: their hashes in ascending order, and which of them are names'. -/
def groupsOf (rows : List HashedEntry) : List (ℕ × Bool) :=
  group HashSort.hash64 noteName (HashSort.sortByHash rows rows.length)

theorem sorted_perm (rows : List HashedEntry) : (HashSort.sortByHash rows rows.length).Perm rows :=
  (HashSort.sortByHash_spec (le_refl rows.length)).1.perm le_rfl

theorem sorted_pairwise (rows : List HashedEntry) : (HashSort.sortByHash rows rows.length).Pairwise
    fun a b => HashSort.hash64 a ≤ HashSort.hash64 b := by
  obtain ⟨hmoved, hsorted⟩ := HashSort.sortByHash_spec (le_refl rows.length)
  refine List.pairwise_iff_getElem.mpr fun i j hi hj hij => ?_
  have hle := hsorted i j (Nat.zero_le i) hij (hmoved.length ▸ hj)
  simpa [TypedArray.read, hi, hj] using hle

theorem grouped (rows : List HashedEntry) :
    Grouped HashSort.hash64 noteName (HashSort.sortByHash rows rows.length) (groupsOf rows) :=
  grouped_group _ (sorted_pairwise rows)

theorem mem_groupsOf {rows : List HashedEntry} {group : ℕ × Bool} : group ∈ groupsOf rows ↔
    group.1 ∈ rows.map HashSort.hash64 ∧
      group.2 = rows.any fun e => HashSort.hash64 e = group.1 ∧ isNameFlag e.flags = true := by
  have hgrouped := grouped rows
  have hkeys : ∀ h, h ∈ (groupsOf rows).map Prod.fst ↔ h ∈ rows.map HashSort.hash64 := by
    intro h
    rw [hgrouped.keys, ((sorted_perm rows).map _).mem_iff]
  have hvalue : ∀ g ∈ groupsOf rows, g.2 = rows.any fun e => HashSort.hash64 e = g.1 ∧ isNameFlag e.flags = true := by
    intro g hg
    have hgathered := hgrouped.values g hg
    rw [gathered, foldl_noteName] at hgathered
    split at hgathered
    · cases hgathered
    · rw [Option.some.injEq] at hgathered
      rw [← hgathered, Bool.eq_iff_iff]
      simp only [List.any_eq_true, List.mem_filter, decide_eq_true_eq, (sorted_perm rows).mem_iff, and_assoc]
  constructor
  · intro hmem
    exact ⟨(hkeys _).mp (List.mem_map_of_mem hmem), hvalue group hmem⟩
  · rintro ⟨hhash, hnamed⟩
    obtain ⟨g, hg, hfst⟩ := List.mem_map.mp ((hkeys _).mpr hhash)
    have hsnd := hvalue g hg
    rw [hfst, ← hnamed] at hsnd
    rwa [← Prod.ext hfst hsnd]

theorem groupsOf_perm {rows rows' : List HashedEntry} (h : rows.Perm rows') : groupsOf rows = groupsOf rows' := by
  have hsorted := (grouped rows).sorted
  have hsorted' := (grouped rows').sorted
  refine hsorted.eq_of_perm hsorted' ((List.perm_ext_iff_of_nodup ?_ ?_).mpr fun group => ?_)
  · exact List.Nodup.of_map _ hsorted.nodup_keys
  · exact List.Nodup.of_map _ hsorted'.nodup_keys
  · have hany : ∀ k, (rows.any fun e => HashSort.hash64 e = k ∧ isNameFlag e.flags = true) =
        rows'.any fun e => HashSort.hash64 e = k ∧ isNameFlag e.flags = true := by
      intro k
      rw [Bool.eq_iff_iff]
      simp only [List.any_eq_true, h.mem_iff]
    rw [mem_groupsOf, mem_groupsOf, hany, (h.map _).mem_iff]

theorem length_groupsOf (rows : List HashedEntry) : (groupsOf rows).length = (rows.map HashSort.hash64).toFinset.card := by
  have hset : (rows.map HashSort.hash64).toFinset = ((groupsOf rows).map Prod.fst).toFinset := by
    ext h
    rw [List.mem_toFinset, List.mem_toFinset, (grouped rows).keys, ((sorted_perm rows).map _).mem_iff]
  rw [hset, List.toFinset_card_of_nodup (grouped rows).sorted.nodup_keys, List.length_map]

/-- What a seal needs: the partition count where there are names, a tiered seal of a count
the served pairs fit where they are asked for, and room for the columns. -/
structure Sealable (host : Host) (options : SealOptions) (rows : List HashedEntry) : Prop where
  count : ∀ e ∈ rows, isNameFlag e.flags = true → options.partitionCount.isSome
  pairs : options.pairs = true → options.tiers = true ∧ options.partitionCount.any servedPairsFit = true
  room : (rows.map HashSort.hash64).toFinset.card * 4 ≤ host.maxBytes

/-- **A seal succeeds with a row for each group.** -/
theorem seal_groups {host : Host} {rows : List HashedEntry} (h : Sealable host options rows) :
    ∃ keys, RoutingKeyAccumulator.seal { rows := rows } host options = .ok (keys, ⟨[], true⟩) ∧
      keys.keys.map SealedKey.hash = (groupsOf rows).map Prod.fst ∧ keys.nameKeys = (groupsOf rows).countP Prod.snd := by
  have hname : ∀ e ∈ HashSort.sortByHash rows rows.length, isNameFlag e.flags = true →
      options.partitionCount.isSome := fun e he => h.count e ((sorted_perm rows).mem_iff.mp he)
  obtain ⟨folded, hfold, htracks, hcount⟩ := Tracks.foldlM hname (.empty rfl rfl rfl : Tracks {} []) (fun hrun => by cases hrun)
  obtain ⟨closed, hclose, hhashes, hnames⟩ := htracks.close hcount
  have hgroups : (HashSort.sortByHash rows rows.length).foldl (join HashSort.hash64 noteName) [] = groupsOf rows := rfl
  rw [hgroups] at hhashes hnames
  refine ⟨⟨closed.closed, closed.nameKeys⟩, ?_, hhashes, hnames⟩
  have hpairs : ¬(options.pairs = true ∧ (!options.tiers ∨ !(options.partitionCount.any servedPairsFit))) := by
    rintro ⟨hpairs, hbad⟩
    obtain ⟨htiers, hfit⟩ := h.pairs hpairs
    rw [htiers, hfit] at hbad
    simp at hbad
  have hroom : host.alloc (closed.closed.length * 4) = .ok () := by
    have hlength := congrArg List.length hhashes
    rw [List.length_map, List.length_map, length_groupsOf] at hlength
    rw [Host.alloc, hlength, if_pos h.room]
  unfold RoutingKeyAccumulator.seal
  simp only [Bool.false_eq_true, if_false, hpairs]
  rw [Throws.bind_ok hfold, Throws.bind_ok hclose, Throws.bind_ok hroom]
  rfl

/-- Keys sealed from some rows: ascending, one for each hash, each valued by the rows of its hash. -/
structure SealedFrom (options : SealOptions) (rows : List HashedEntry) (keys : SealedRoutingKeys) : Prop where
  ascending : SortedBy SealedKey.hash keys.keys
  hashes : ∀ h, h ∈ keys.keys.map SealedKey.hash ↔ h ∈ rows.map HashSort.hash64
  values : ∀ row ∈ keys.keys, SealsTo options (rows.filter fun e => HashSort.hash64 e = row.hash) row.value
  nameKeys : keys.nameKeys = (groupsOf rows).countP Prod.snd

theorem seal_sealedFrom {host : Host} {rows : List HashedEntry} (h : Sealable host options rows) :
    ∃ keys, RoutingKeyAccumulator.seal { rows := rows } host options = .ok (keys, ⟨[], true⟩) ∧
      SealedFrom options rows keys := by
  obtain ⟨keys, hseal, hhashes, hnames⟩ := seal_groups h
  have hgrouped := grouped rows
  have hascending : SortedBy SealedKey.hash keys.keys := by
    have hgroups : ((groupsOf rows).map Prod.fst).Pairwise (· < ·) := List.pairwise_map.mpr hgrouped.sorted
    rw [← hhashes] at hgroups
    exact List.pairwise_map.mp hgroups
  have hmem : ∀ x, x ∈ keys.keys.map SealedKey.hash ↔ x ∈ rows.map HashSort.hash64 := by
    intro x
    rw [hhashes, hgrouped.keys, ((sorted_perm rows).map _).mem_iff]
  refine ⟨keys, hseal, hascending, hmem, ?_, hnames⟩
  intro row hrow
  obtain ⟨e, he, hhash⟩ := List.mem_map.mp ((hmem _).mp (List.mem_map_of_mem hrow))
  obtain ⟨row', hrow', hlo, hhi, hseals⟩ := seal_spec hseal e he
  have hsame : row'.hash = row.hash := (SealedKey.hash_eq_iff.mpr ⟨hlo, hhi⟩).trans hhash
  rw [← hhash, ← List.inj_on_of_nodup_map hascending.nodup_keys hrow' hrow hsame]
  exact hseals

theorem SealsTo.unique {run : List HashedEntry} {v w : UInt8} (hv : SealsTo options run v)
    (hw : SealsTo options run w) : v = w := by
  unfold SealsTo at hv hw
  split_ifs at hv hw
  · obtain ⟨n, hn, rfl⟩ := hv
    obtain ⟨m, hm, rfl⟩ := hw
    rw [hn, Option.some.injEq] at hm
    rw [hm]
  · obtain ⟨⟨e, he, rfl⟩, hlow⟩ := hv
    obtain ⟨⟨e', he', rfl⟩, hlow'⟩ := hw
    exact UInt8.le_antisymm (hlow e' he') (hlow' e he)

theorem SealedFrom.eq_of_perm {rows rows' : List HashedEntry} {keys keys' : SealedRoutingKeys}
    (h : SealedFrom options rows keys) (h' : SealedFrom options rows' keys') (hperm : rows.Perm rows') : keys = keys' := by
  have hmem : ∀ {rows rows' keys keys'}, SealedFrom options rows keys → SealedFrom options rows' keys' →
      rows.Perm rows' → ∀ row ∈ keys.keys, row ∈ keys'.keys := by
    intro rows rows' keys keys' h h' hperm row hrow
    have hhash := (h.hashes _).mp (List.mem_map_of_mem hrow)
    rw [(hperm.map _).mem_iff] at hhash
    obtain ⟨row', hrow', hsame⟩ := List.mem_map.mp ((h'.hashes _).mpr hhash)
    have hseals := (h.values row hrow).of_perm (hperm.filter _)
    have hseals' := h'.values row' hrow'
    rw [hsame] at hseals'
    have hvalue := hseals.unique hseals'
    have hrow'' : row = row' := by
      have hlohi := (@SealedKey.hash_eq_iff row' ⟨row.lo, row.hi, 0, 0⟩).mp hsame
      cases row
      cases row'
      simp only [SealedKey.mk.injEq] at hvalue hlohi ⊢
      exact ⟨hlohi.1.symm, hlohi.2.symm, hvalue⟩
    rwa [hrow'']
  have hrows : keys.keys = keys'.keys := by
    refine h.ascending.eq_of_perm h'.ascending ((List.perm_ext_iff_of_nodup ?_ ?_).mpr fun row => ?_)
    · exact List.Nodup.of_map _ h.ascending.nodup_keys
    · exact List.Nodup.of_map _ h'.ascending.nodup_keys
    · exact ⟨hmem h h' hperm row, hmem h' h hperm.symm row⟩
  have hnames : keys.nameKeys = keys'.nameKeys := by
    rw [h.nameKeys, h'.nameKeys, groupsOf_perm hperm]
  cases keys
  cases keys'
  rw [SealedRoutingKeys.mk.injEq]
  exact ⟨hrows, hnames⟩

end Groups

/-! ## What keys are sealed to -/

section Added

variable {options : SealOptions} {added added' : List (String × ℕ)}

def keyHash (key : String) : ℕ :=
  let hash := routingHash (hashedKey key)
  hash.2.toNat * 2 ^ 32 + hash.1.toNat

/-- What is sealed for the keys of one hash: the lowest of an id's partitions, and of a
name the value its partitions' sets have by the rule. -/
def SealedAs (store : ℕ → ℕ) (options : SealOptions) (added : List (String × ℕ)) (row : SealedKey) : Prop :=
  let run := added.filter fun a => keyHash a.1 = row.hash
  let entries := run.map fun a => ((store a.2 : ℤ), keyFlags a.1)
  if run.any fun a => keyFlags a.1 ≠ 0 then
    ∃ n v, options.partitionCount = some n ∧
      NameRun.Rule (holders (fun _ => true) entries) (holders isServed entries) (fun t => holders (isExtraOn t) entries)
        n options.tiers options.pairs v ∧ row.value = UInt8.ofInt v
  else IsLeast {p | ∃ a ∈ run, store a.2 = p} row.value.toNat

structure SealableKeys (host : Host) (options : SealOptions) (added : List (String × ℕ)) : Prop where
  count : ∀ a ∈ added, keyFlags a.1 ≠ 0 → options.partitionCount.isSome
  pairs : options.pairs = true → options.tiers = true ∧ options.partitionCount.any servedPairsFit = true
  room : (added.map fun a => keyHash a.1).toFinset.card * 4 ≤ host.maxBytes

theorem hash64_row (a : String × ℕ) : HashSort.hash64 (rowOf a.1 a.2) = keyHash a.1 := rfl

theorem map_hash64 (added : List (String × ℕ)) :
    (added.map fun a => rowOf a.1 a.2).map HashSort.hash64 = added.map fun a => keyHash a.1 := by
  rw [List.map_map]
  rfl

theorem SealableKeys.sealable {host : Host} (h : SealableKeys host options added) :
    Sealable host options (added.map fun a => rowOf a.1 a.2) where
  count e he hname := by
    obtain ⟨a, ha, rfl⟩ := List.mem_map.mp he
    exact h.count a ha ((isNameFlag_keyFlags a.1).mp hname)
  pairs := h.pairs
  room := by
    rw [map_hash64]
    exact h.room

theorem SealsTo.sealedAs {row : SealedKey}
    (hrow : row.hash ∈ (added.map fun a => rowOf a.1 a.2).map HashSort.hash64)
    (h : SealsTo options ((added.map fun a => rowOf a.1 a.2).filter fun e =>
      HashSort.hash64 e = row.hash) row.value) :
    SealedAs storedByte options added row := by
  have hrun : ((added.map fun a => rowOf a.1 a.2).filter fun e => HashSort.hash64 e = row.hash) =
      (added.filter fun a => keyHash a.1 = row.hash).map fun a => rowOf a.1 a.2 :=
    filter_map_congr fun a _ => by rw [hash64_row]
  have hne : added.filter (fun a => keyHash a.1 = row.hash) ≠ [] := by
    rw [map_hash64] at hrow
    obtain ⟨a, ha, hhash⟩ := List.mem_map.mp hrow
    exact List.ne_nil_of_mem (List.mem_filter.mpr ⟨ha, by simpa using hhash⟩)
  have hstored : ∀ p, (UInt8.ofNat p).toNat = storedByte p := fun p => UInt8.toNat_ofNat'
  unfold SealedAs
  rw [hrun] at h
  generalize added.filter (fun a => keyHash a.1 = row.hash) = run at h hne
  have hany : ((run.map fun a => rowOf a.1 a.2).any fun e => isNameFlag e.flags) = run.any fun a => keyFlags a.1 ≠ 0 := by
    rw [List.any_map, Bool.eq_iff_iff]
    simp only [List.any_eq_true, Function.comp_apply, decide_eq_true_eq, ← isNameFlag_keyFlags]
    rfl
  have hentries : (run.map fun a => rowOf a.1 a.2).map
      (fun e => ((e.value.toNat : ℤ), e.flags)) = run.map fun a => ((storedByte a.2 : ℤ), keyFlags a.1) := by
    rw [List.map_map]
    refine List.map_congr_left fun a _ => ?_
    simp only [Function.comp_apply, rowOf, hstored]
  unfold SealsTo at h
  rw [hany, hentries] at h
  simp only
  by_cases hname : (run.any fun a => keyFlags a.1 ≠ 0) = true
  · rw [if_pos hname] at h ⊢
    obtain ⟨n, hn, hvalue⟩ := h
    exact ⟨n, _, hn, NameRun.value_rule (by simpa using hne) n options.tiers options.pairs, hvalue⟩
  · rw [if_neg hname] at h ⊢
    obtain ⟨⟨e, he, hvalue⟩, hlow⟩ := h
    obtain ⟨a, ha, rfl⟩ := List.mem_map.mp he
    refine ⟨⟨a, ha, by rw [← hvalue]; exact (hstored a.2).symm⟩, ?_⟩
    rintro _ ⟨b, hb, rfl⟩
    rw [← hstored b.2]
    exact UInt8.le_iff_toNat_le.mp (hlow _ (List.mem_map_of_mem hb))

theorem SealedAs.inRange {row : SealedKey} (h : SealedAs storedByte options added row)
    (hrange : ∀ a ∈ added, a.2 < 256) : SealedAs (·) options added row := by
  have hstored : ∀ a ∈ added.filter (fun a => keyHash a.1 = row.hash), storedByte a.2 = a.2 :=
    fun a ha => Nat.mod_eq_of_lt (hrange a (List.mem_filter.mp ha).1)
  have hentries : (added.filter fun a => keyHash a.1 = row.hash).map (fun a => ((storedByte a.2 : ℤ), keyFlags a.1)) =
      (added.filter fun a => keyHash a.1 = row.hash).map fun a => ((a.2 : ℤ), keyFlags a.1) :=
    List.map_congr_left fun a ha => by rw [hstored a ha]
  have hset : {p | ∃ a ∈ added.filter (fun a => keyHash a.1 = row.hash), storedByte a.2 = p} =
      {p | ∃ a ∈ added.filter (fun a => keyHash a.1 = row.hash), a.2 = p} := by
    ext p
    constructor
    · rintro ⟨a, ha, rfl⟩
      exact ⟨a, ha, (hstored a ha).symm⟩
    · rintro ⟨a, ha, rfl⟩
      exact ⟨a, ha, hstored a ha⟩
  unfold SealedAs at h ⊢
  simp only [hentries, hset] at h ⊢
  exact h

/-- What a seal yields: the added hashes in strictly ascending order, each valued as its
keys' partitions say, as the accumulator's bytes hold them and, in a byte's range, as
they are. -/
structure Yields (options : SealOptions) (added : List (String × ℕ)) (keys : SealedRoutingKeys) : Prop where
  ascending : (keys.keys.map SealedKey.hash).Pairwise (· < ·)
  hashes : ∀ h, h ∈ keys.keys.map SealedKey.hash ↔ h ∈ added.map fun a => keyHash a.1
  values : ∀ row ∈ keys.keys, SealedAs storedByte options added row
  inRange : (∀ a ∈ added, a.2 < 256) → ∀ row ∈ keys.keys, SealedAs (·) options added row

/-- **A seal does not tell the order of adding**, and yields what the added keys and
their partitions decide. -/
theorem seal_order_free {host : Host} (h : SealableKeys host options added) (hperm : added.Perm added') :
    ∃ acc acc' keys, addAll added = .ok acc ∧ addAll added' = .ok acc' ∧
      acc.seal host options = .ok (keys, ⟨[], true⟩) ∧ acc'.seal host options = .ok (keys, ⟨[], true⟩) ∧
        Yields options added keys := by
  have h' : SealableKeys host options added' := by
    refine ⟨fun a ha => h.count a (hperm.mem_iff.mpr ha), h.pairs, ?_⟩
    rw [← List.toFinset_eq_of_perm _ _ (hperm.map fun a => keyHash a.1)]
    exact h.room
  obtain ⟨keys, hseal, hfrom⟩ := seal_sealedFrom h.sealable
  obtain ⟨keys', hseal', hfrom'⟩ := seal_sealedFrom h'.sealable
  have hsame := hfrom.eq_of_perm hfrom' (hperm.map _)
  have hvalues : ∀ row ∈ keys.keys, SealedAs storedByte options added row := by
    intro row hrow
    exact (hfrom.values row hrow).sealedAs ((hfrom.hashes _).mp (List.mem_map_of_mem hrow))
  refine ⟨_, _, keys, addAll_eq added, addAll_eq added', hseal, by rw [hsame]; exact hseal', ?_⟩
  constructor
  · exact List.pairwise_map.mpr hfrom.ascending
  · intro x
    rw [hfrom.hashes, map_hash64]
  · exact hvalues
  · intro hrange row hrow
    exact (hvalues row hrow).inRange hrange

end Added

def ringAdded : List (String × ℕ) := [("nw:sol ring", 2), ("p:1", 1), ("ns:sol ring", 0), ("p:1", 0)]

theorem seal_order_free_ring :
    ∃ acc acc' keys, addAll ringAdded = .ok acc ∧ addAll ringAdded.reverse = .ok acc' ∧
      acc.seal chaosHost chaosOptions = .ok (keys, ⟨[], true⟩) ∧
        acc'.seal chaosHost chaosOptions = .ok (keys, ⟨[], true⟩) ∧ Yields chaosOptions ringAdded keys := by
  have hroom : (ringAdded.map fun a => keyHash a.1).toFinset.card ≤ 4 := List.toFinset_card_le _
  have hhost : chaosHost.maxBytes = 1048576 := by decide
  exact seal_order_free ⟨fun _ _ _ => rfl, (fun hpairs => by cases hpairs), by omega⟩ (List.reverse_perm ringAdded).symm

end RoutingFilter
