-- SUMMARY: A collection batch's answer is the merge of every partition's answer to the whole batch.
import Mathlib.Data.List.FinRange
import Mathlib.Data.List.ReduceOption
import Sylvan.Engine.CollectionBatchRounds

/-!
# Collection batches are exact

What the filter says of a key it was built with is exact, and of any other key it
may say anything. Then the partitions the first round leaves out hold nothing that
the ones it asks do not answer first, and nothing the index and a settled reply
leave out can outrank what was heard.
-/

/-- The first holder below `n` is among the ones asked when every holder has one
asked no later. -/
theorem List.findSome?_filter_range {α : Type*} {f : ℕ → Option α} {asked : ℕ → Bool} {n : ℕ}
    (h : ∀ p < n, f p ≠ none → ∃ t ≤ p, asked t = true ∧ f t ≠ none) :
    ((List.range n).filter asked).findSome? f = (List.range n).findSome? f := by
  induction n with
  | zero => rfl
  | succ n ih =>
    have ih' := ih fun p hp => h p (by omega)
    rw [List.range_succ, List.filter_append, List.findSome?_append, List.findSome?_append, ih']
    cases hbefore : (List.range n).findSome? f with
    | some card => rfl
    | none =>
      rw [Option.none_or, Option.none_or]
      cases hasked : asked n with
      | true => rw [List.filter_cons_of_pos hasked, List.filter_nil]
      | false =>
        rw [List.filter_cons_of_neg (by simp [hasked])]
        by_contra hne
        have hn : f n ≠ none := by
          intro hnone
          simp [hnone] at hne
        obtain ⟨t, ht, haskedt, hft⟩ := h n (by omega) hn
        rcases Nat.lt_or_eq_of_le ht with hlt | rfl
        · exact hft (List.findSome?_eq_none_iff.mp hbefore t (List.mem_range.mpr hlt))
        · rw [hasked] at haskedt
          cases haskedt

namespace PartitionedEngine

open NamePick

variable {Card : Type} {engine : PartitionedEngine Card} {batch : CollectionBatch}

/-- What routing promises of a batch's identifiers, each clause about those some
partition holds only: an oracle id lives with its owner, another key's hint is the
lowest partition holding it, all trees at an address live in the one its hint names,
a sole name in no other, a served name elsewhere only as an extra of the rival tier
at most, and the names index leaves no holder out. -/
structure Exact (engine : PartitionedEngine Card) (batch : CollectionBatch) : Prop where
  owner : ∀ p id, engine.partitions.key p (.oracleId id) ≠ none →
    p < engine.n ∧ p = Partition.partitionOfOracleId id engine.n
  lowest : ∀ key t, key.isOracle = false → engine.targetOf key engine.n = some t →
    ∀ p < engine.n, engine.partitions.key p key ≠ none → engine.partitions.key t key ≠ none ∧ t ≤ p
  address : ∀ (i : Fin batch.trees.length) address t, treeAddress batch i = some address →
    engine.hintOf address engine.n = some t → ∀ p < engine.n, engine.partitions.tree p (batch.trees.get i) ≠ none → p = t
  sole : ∀ (name : NameIdentifier) s, nameHintOf engine.routing name.folded = some (.sole s) →
    ∀ p < engine.n, (engine.partitions.name p name).rank ≠ none → (p : ℤ) = s
  served : ∀ (name : NameIdentifier) s rival needle, nameHintOf engine.routing name.folded = some (.served s rival needle) →
      ∀ p < engine.n, (p : ℤ) ≠ s → ∀ rank, (engine.partitions.name p name).rank = some rank → RivalOf rival needle rank
  index : engine.IndexSound

/-! ## Keys and trees -/

theorem found_firstAsks_keys (i : Fin batch.keys.length) (card : ℕ → Fin batch.keys.length → Option Card) :
    found Ask.keyAt card (engine.firstAsks batch) i
      = ((List.range engine.n).filter (engine.askedIn1 batch)).findSome? fun p => card p i := by
  rw [found, firstAsks, List.findSome?_map]
  congr 1
  funext p
  exact if_pos (List.mem_finRange i)

theorem found_firstAsks_trees (i : Fin batch.trees.length)
    (card : ℕ → Fin batch.trees.length → Option Card) :
    found Ask.treeAt card (engine.firstAsks batch) i
      = ((List.range engine.n).filter (engine.askedIn1 batch)).findSome? fun p => card p i := by
  rw [found, firstAsks, List.findSome?_map]
  congr 1
  funext p
  exact if_pos (List.mem_finRange i)

theorem found_eq_none {α : Type} [DecidableEq α] {at' : Ask batch → List α}
    {card : ℕ → α → Option Card} {asks : List (Ask batch)} {i : α}
    (h : ∀ ask ∈ asks, i ∈ at' ask → card ask.p i = none) : found at' card asks i = none := by
  refine List.findSome?_eq_none_iff.mpr fun ask hask => ?_
  split_ifs with hi
  · exact h ask hask hi
  · rfl

theorem mem_called_of_target {t : ℕ} (hall : engine.everywhere batch = false)
    (h : some t ∈ engine.targets batch) : engine.askedIn1 batch t = true := by
  have hrouted : (engine.unroutedNames batch).isEmpty = true := by
    simp only [everywhere, Bool.or_eq_false_iff, Bool.not_eq_false'] at hall
    exact hall.1
  rw [askedIn1, hall, Bool.false_or, decide_eq_true_eq, called, hrouted]
  refine JsSet.mem_of.mpr (List.mem_append_right _ ?_)
  exact List.mem_map.mpr ⟨t, List.reduceOption_mem_iff.mpr h, rfl⟩

theorem target_of_mem {target : Option ℕ} (hall : engine.everywhere batch = false)
    (h : target ∈ engine.targets batch) : ∃ t, target = some t := by
  simp only [everywhere, Bool.or_eq_false_iff, List.any_eq_false] at hall
  exact Option.ne_none_iff_exists'.mp (by simpa using hall.2 target h)

variable {p : ℕ}

theorem exists_asked_of_key (hexact : engine.Exact batch) (i : Fin batch.keys.length)
    (hp : p < engine.n) (hheld : engine.partitions.key p (batch.keys.get i) ≠ none) :
    ∃ t ≤ p, engine.askedIn1 batch t = true ∧ engine.partitions.key t (batch.keys.get i) ≠ none := by
  cases hall : engine.everywhere batch with
  | true => exact ⟨p, le_rfl, by rw [askedIn1, hall, Bool.true_or], hheld⟩
  | false =>
    have hmem : engine.targetOf (batch.keys.get i) engine.n ∈ engine.targets batch :=
      List.mem_append_left _ (List.mem_map.mpr ⟨_, List.get_mem _ _, rfl⟩)
    obtain ⟨t, ht⟩ := target_of_mem hall hmem
    have hasked := mem_called_of_target hall (ht ▸ hmem)
    cases horacle : (batch.keys.get i).isOracle with
    | true =>
      generalize batch.keys.get i = key at *
      cases key with
      | oracleId id =>
        obtain ⟨-, rfl⟩ := hexact.owner p id hheld
        cases ht
        exact ⟨_, le_rfl, hasked, hheld⟩
      | scryfallId id => cases horacle
      | illustrationId id => cases horacle
      | external namespaceOf id => cases horacle
    | false =>
      obtain ⟨hlow, hle⟩ := hexact.lowest _ t horacle ht p hp hheld
      exact ⟨t, hle, hasked, hlow⟩

theorem exists_asked_of_tree (hexact : engine.Exact batch) (i : Fin batch.trees.length)
    (hp : p < engine.n) (hheld : engine.partitions.tree p (batch.trees.get i) ≠ none) :
    ∃ t ≤ p, engine.askedIn1 batch t = true ∧ engine.partitions.tree t (batch.trees.get i) ≠ none := by
  cases hall : engine.everywhere batch with
  | true => exact ⟨p, le_rfl, by rw [askedIn1, hall, Bool.true_or], hheld⟩
  | false =>
    have hmem : ((treeAddress batch i).filter (· ≠ "")).bind (engine.hintOf · engine.n)
        ∈ engine.targets batch :=
      List.mem_append_right _ (List.mem_map.mpr ⟨i, List.mem_finRange i, rfl⟩)
    obtain ⟨t, ht⟩ := target_of_mem hall hmem
    have hasked := mem_called_of_target hall (ht ▸ hmem)
    obtain ⟨address, haddress, hhint⟩ := Option.bind_eq_some_iff.mp ht
    have hp' := hexact.address i address t (Option.filter_eq_some_iff.mp haddress).1 hhint p hp hheld
    exact ⟨t, hp'.ge, hasked, hp' ▸ hheld⟩

theorem p_lt_of_mem_repairAsks {filled : Filled Card batch} {ask : Ask batch}
    (h : ask ∈ engine.repairAsks filled) : ask.p < engine.n := by
  obtain ⟨p, hp, rfl⟩ := List.mem_map.mp (List.mem_filter.mp h).1
  exact List.mem_range.mp hp

theorem mem_of_regrouped {freshN : ℕ} {missed : List (Fin batch.keys.length)} {p2 : ℕ}
    {ids : List (Fin batch.keys.length)} (h : (engine.regrouped freshN missed).get p2 = some ids)
    {i : Fin batch.keys.length} (hi : i ∈ ids) : i ∈ missed := by
  have hgroups : ∀ p2 ids, (engine.regrouped freshN missed).get p2 = some ids → ∀ i ∈ ids, i ∈ missed := by
    unfold regrouped
    refine List.foldlRecOn (motive := fun groups : JsMap ℕ (List (Fin batch.keys.length)) =>
      ∀ p2 ids, groups.get p2 = some ids → ∀ i ∈ ids, i ∈ missed) _ _ ?_ ?_
    · intro p2 ids hget
      cases hget
    · intro groups ih j hj
      split
      · rename_i owner howner
        split_ifs with hask
        · intro p2 ids hget i hi
          rw [JsMap.get_update] at hget
          split_ifs at hget with heq
          · cases hget
            rcases List.mem_append.mp hi with hi | hi
            · cases hold : groups.get owner with
              | none => simp [hold] at hi
              | some old => exact ih owner old hold i (by simpa [hold] using hi)
            · exact List.mem_singleton.mp hi ▸ hj
          · exact ih p2 ids hget i hi
        · exact ih
      · exact ih
  exact hgroups p2 ids h i hi

theorem of_mem_oracleAsks {filled : Filled Card batch} {ask : Ask batch}
    (h : ask ∈ engine.oracleAsks filled) : ask.treeAt = [] ∧ ask.nameAt = [] ∧
      ∀ i ∈ ask.keyAt, (batch.keys.get i).isOracle = true ∧ filled.keys i = none := by
  simp only [oracleAsks] at h
  split_ifs at h with hmissed
  · cases h
  · split at h
    · split_ifs at h with hn
      · cases h
      · obtain ⟨group, hgroup, rfl⟩ := List.mem_map.mp h
        have hget := JsMap.mem_entries.mp ((List.mem_insertionSort _).mp hgroup)
        exact ⟨rfl, rfl, fun i hi => by simpa using (List.mem_filter.mp (mem_of_regrouped hget hi)).2⟩
    · cases h

/-! ### The rounds -/

def firstRound (engine : PartitionedEngine Card) (batch : CollectionBatch) : Filled Card batch :=
  engine.round true (emptyCollectionAnswer batch) (engine.firstAsks batch)

def oracleRound (engine : PartitionedEngine Card) (batch : CollectionBatch) : Filled Card batch :=
  engine.round false (engine.firstRound batch) (engine.oracleAsks (engine.firstRound batch))

theorem gathered_eq : engine.gathered batch = engine.round false (engine.oracleRound batch)
    (engine.repairAsks (engine.oracleRound batch)) := rfl

theorem firstRound_keys (hexact : engine.Exact batch) (i : Fin batch.keys.length) : (engine.firstRound batch).keys i
      = (List.range engine.n).findSome? (engine.partitions.key · (batch.keys.get i)) := by
  rw [firstRound, round_keys, found_firstAsks_keys,
    ← List.findSome?_filter_range fun p hp hheld => exists_asked_of_key hexact i hp hheld]
  rfl

theorem firstRound_trees (hexact : engine.Exact batch) (i : Fin batch.trees.length) : (engine.firstRound batch).trees i
      = (List.range engine.n).findSome? (engine.partitions.tree · (batch.trees.get i)) := by
  rw [firstRound, round_trees, found_firstAsks_trees,
    ← List.findSome?_filter_range fun p hp hheld => exists_asked_of_tree hexact i hp hheld]
  rfl

theorem oracleRound_keys (hexact : engine.Exact batch) (i : Fin batch.keys.length) :
    (engine.oracleRound batch).keys i = (engine.firstRound batch).keys i := by
  rw [oracleRound, round_keys, found_eq_none, Option.or_none]
  intro ask hask hi
  obtain ⟨horacle, hmissed⟩ := (of_mem_oracleAsks hask).2.2 i hi
  rw [firstRound_keys hexact] at hmissed
  by_contra hheld
  have howner : ask.p < engine.n := by
    generalize batch.keys.get i = key at *
    cases key with
    | oracleId id => exact (hexact.owner ask.p id hheld).1
    | scryfallId id => cases horacle
    | illustrationId id => cases horacle
    | external namespaceOf id => cases horacle
  exact hheld (List.findSome?_eq_none_iff.mp hmissed ask.p (List.mem_range.mpr howner))

theorem oracleRound_trees (i : Fin batch.trees.length) :
    (engine.oracleRound batch).trees i = (engine.firstRound batch).trees i := by
  rw [oracleRound, round_trees, found_eq_none, Option.or_none]
  intro ask hask hi
  rw [(of_mem_oracleAsks hask).1] at hi
  cases hi

theorem gathered_keys (hexact : engine.Exact batch) (i : Fin batch.keys.length) : (engine.gathered batch).keys i
      = (List.range engine.n).findSome? (engine.partitions.key · (batch.keys.get i)) := by
  rw [gathered_eq, round_keys, oracleRound_keys hexact, firstRound_keys hexact]
  cases hfirst : (List.range engine.n).findSome? (engine.partitions.key · (batch.keys.get i)) with
  | some card => rfl
  | none =>
    rw [Option.none_or]
    refine found_eq_none fun ask hask _ => ?_
    exact List.findSome?_eq_none_iff.mp hfirst ask.p (List.mem_range.mpr (p_lt_of_mem_repairAsks hask))

theorem gathered_trees (hexact : engine.Exact batch) (i : Fin batch.trees.length) : (engine.gathered batch).trees i
      = (List.range engine.n).findSome? (engine.partitions.tree · (batch.trees.get i)) := by
  rw [gathered_eq, round_trees, oracleRound_trees, firstRound_trees hexact]
  cases hfirst : (List.range engine.n).findSome? (engine.partitions.tree · (batch.trees.get i)) with
  | some card => rfl
  | none =>
    rw [Option.none_or]
    refine found_eq_none fun ask hask _ => ?_
    exact List.findSome?_eq_none_iff.mp hfirst ask.p (List.mem_range.mpr (p_lt_of_mem_repairAsks hask))

/-! ## Names -/

/-- Whether the first round asks a partition for a name. -/
def namedIn1 (engine : PartitionedEngine Card) (batch : CollectionBatch)
    (i : Fin batch.names.length) (p : ℕ) : Bool :=
  engine.askedIn1 batch p && (engine.namesFor batch p).contains i

/-- Whether the repair round asks a partition for a name. -/
def namedInRepair (engine : PartitionedEngine Card) (batch : CollectionBatch)
    (i : Fin batch.names.length) (p : ℕ) : Bool :=
  let filled := engine.oracleRound batch
  (engine.unsettled filled).contains i && !((filled.nameAsked i).contains p) && mayHold filled i p

theorem askedFor_firstAsks (i : Fin batch.names.length) :
    askedFor (engine.firstAsks batch) i = (List.range engine.n).filter (engine.namedIn1 batch i) := by
  rw [askedFor, firstAsks, List.filter_map, List.map_map, List.filter_filter]
  refine (List.map_id' _).trans (List.filter_congr fun p _ => ?_)
  simp [namedIn1, Bool.and_comm]

theorem askedFor_oracleAsks (filled : Filled Card batch) (i : Fin batch.names.length) :
    askedFor (engine.oracleAsks filled) i = [] := by
  rw [askedFor, List.map_eq_nil_iff, List.filter_eq_nil_iff]
  intro ask hask hi
  rw [(of_mem_oracleAsks hask).2.1] at hi
  simp at hi

theorem askedFor_repairAsks (i : Fin batch.names.length) : askedFor (engine.repairAsks (engine.oracleRound batch)) i
      = (List.range engine.n).filter (engine.namedInRepair batch i) := by
  rw [askedFor, repairAsks, List.filter_filter, List.filter_map, List.map_map]
  refine (List.map_id' _).trans (List.filter_congr fun p _ => ?_)
  -- An ask with a name in it is sent.
  have hnamed : i ∈ (engine.unsettled (engine.oracleRound batch)).filter (fun i =>
      !(((engine.oracleRound batch).nameAsked i).contains p) && mayHold (engine.oracleRound batch) i p)
      ↔ engine.namedInRepair batch i p = true := by
    simp [namedInRepair, and_assoc]
  by_cases hi : engine.namedInRepair batch i p = true
  · have hne := List.ne_nil_of_mem (hnamed.mpr hi)
    simp only [Function.comp_apply, hnamed, hi, decide_true, Bool.true_and, Bool.or_eq_true]
    exact Or.inr (by simpa using hne)
  · simp only [Function.comp_apply, hnamed, hi, Bool.false_eq_true, decide_false, Bool.false_and]

theorem nodup_nameAt_firstAsks (engine : PartitionedEngine Card) (batch : CollectionBatch) :
    ∀ ask ∈ engine.firstAsks batch, ask.nameAt.Nodup := by
  intro ask hask
  obtain ⟨p, -, rfl⟩ := List.mem_map.mp hask
  exact (List.nodup_finRange _).filter _

theorem nodup_nameAt_oracleAsks (engine : PartitionedEngine Card) (filled : Filled Card batch) :
    ∀ ask ∈ engine.oracleAsks filled, ask.nameAt.Nodup := by
  intro ask hask
  rw [(of_mem_oracleAsks hask).2.1]
  exact List.nodup_nil

theorem nodup_nameAt_repairAsks (engine : PartitionedEngine Card) (filled : Filled Card batch) :
    ∀ ask ∈ engine.repairAsks filled, ask.nameAt.Nodup := by
  intro ask hask
  obtain ⟨p, -, rfl⟩ := List.mem_map.mp (List.mem_filter.mp hask).1
  exact ((List.nodup_finRange _).filter _).filter _

theorem heard_oracleRound (hexact : engine.Exact batch) (i : Fin batch.names.length) :
    Heard engine (engine.oracleRound batch) i
      ((List.range engine.n).filter (engine.namedIn1 batch i)) := by
  have hempty : Heard engine (emptyCollectionAnswer batch) i [] :=
    ⟨rfl, fun r hr => (List.not_mem_nil hr).elim, fun holders h => nomatch h⟩
  have hfirst := hempty.round hexact.index true (nodup_nameAt_firstAsks engine batch)
  have hmoved := hfirst.round hexact.index false (nodup_nameAt_oracleAsks engine (engine.firstRound batch))
  rwa [askedFor_oracleAsks, List.append_nil, List.nil_append, askedFor_firstAsks] at hmoved

theorem heard_gathered (hexact : engine.Exact batch) (i : Fin batch.names.length) : Heard engine (engine.gathered batch) i
      ((List.range engine.n).filter (engine.namedIn1 batch i) ++
        (List.range engine.n).filter (engine.namedInRepair batch i)) := by
  have hrepair := (heard_oracleRound hexact i).round hexact.index false 
    (nodup_nameAt_repairAsks engine (engine.oracleRound batch))
  rwa [askedFor_repairAsks] at hrepair

theorem mem_nameAsked {i : Fin batch.names.length} :
    p ∈ (engine.oracleRound batch).nameAsked i ↔ p < engine.n ∧ engine.namedIn1 batch i p = true := by
  rw [oracleRound, round_nameAsked, mem_foldl_noteAsked, askedFor_oracleAsks, firstRound,
    round_nameAsked, mem_foldl_noteAsked, askedFor_firstAsks, List.mem_filter, List.mem_range]
  simp [emptyCollectionAnswer]

theorem nodup_nameAsked (i : Fin batch.names.length) : ((engine.oracleRound batch).nameAsked i).Nodup := by
  rw [oracleRound, round_nameAsked, firstRound, round_nameAsked]
  exact nodup_foldl_noteAsked (nodup_foldl_noteAsked (fun _ => List.nodup_nil) _) _ i

theorem mergeReplies_of_heard {filled : Filled Card batch} {i : Fin batch.names.length}
    {asked : List ℕ} (h : Heard engine filled i asked) {keep : ℕ → Bool}
    (hperm : asked.Perm ((List.range engine.n).filter keep)) :
    mergeReplies (filled.nameReplies i) = best
      (((List.range engine.n).filter keep).map (engine.partitions.name · (batch.names.get i))) := by
  have hsorted : ((filled.nameReplies i).insertionSort fun a b => a.p ≤ b.p).map (·.p)
      = (List.range engine.n).filter keep := by
    rw [List.map_insertionSort (fun a b : NameReply Card => a.p ≤ b.p) (· ≤ ·) (·.p) _
      (fun _ _ _ _ => Iff.rfl), h.partitions]
    refine List.Perm.eq_of_pairwise (fun a b _ _ hab hba => Nat.le_antisymm hab hba)
      (List.pairwise_insertionSort _ _) ?_ ((List.perm_insertionSort _ _).trans hperm)
    exact (List.pairwise_lt_range.imp Nat.le_of_lt).filter _
  have hpicks : ((filled.nameReplies i).insertionSort fun a b => a.p ≤ b.p).map (·.pick)
      = (((filled.nameReplies i).insertionSort fun a b => a.p ≤ b.p).map (·.p)).map
        (engine.partitions.name · (batch.names.get i)) := by
    rw [List.map_map]
    exact List.map_congr_left fun r hr => h.picks r ((List.mem_insertionSort _).mp hr)
  rw [mergeReplies, hpicks, hsorted]

theorem mergeReplies_gathered (hexact : engine.Exact batch) (i : Fin batch.names.length) :
    mergeReplies ((engine.gathered batch).nameReplies i) = best
      (((List.range engine.n).filter fun p =>
        engine.namedIn1 batch i p || engine.namedInRepair batch i p).map
          (engine.partitions.name · (batch.names.get i))) := by
  refine mergeReplies_of_heard (heard_gathered hexact i) ?_
  refine (List.perm_ext_iff_of_nodup ?_ (List.nodup_range.filter _)).mpr fun p => ?_
  · refine List.Nodup.append (List.nodup_range.filter _) (List.nodup_range.filter _) ?_
    intro p h1 h2
    have hasked := mem_nameAsked.mpr ⟨List.mem_range.mp (List.mem_filter.mp h1).1, (List.mem_filter.mp h1).2⟩
    have hrepair := (List.mem_filter.mp h2).2
    simp [namedInRepair, hasked] at hrepair
  · simp only [List.mem_append, List.mem_filter, Bool.or_eq_true, ← and_or_left]

/-! ### What the rounds leave out -/

section Name

variable {i : Fin batch.names.length}

theorem namedIn1_of_unrouted (h : engine.hint batch i = none) (p : ℕ) : engine.namedIn1 batch i p = true := by
  have hmem : i ∈ engine.unroutedNames batch :=
    List.mem_filter.mpr ⟨List.mem_finRange i, decide_eq_true h⟩
  have hsome : (engine.unroutedNames batch).isEmpty = false := by
    simpa using List.ne_nil_of_mem hmem
  have hall : engine.everywhere batch = true := by
    rw [everywhere, hsome]
    rfl
  have hnamed : i ∈ engine.namesFor batch p :=
    List.mem_filter.mpr ⟨List.mem_finRange i, by simp only [h]⟩
  simpa [namedIn1, askedIn1, hall] using hnamed

theorem namedIn1_of_hint {hint : NameHint} (h : engine.hint batch i = some hint)
    (hp : hintPartition hint = p) : engine.namedIn1 batch i p = true := by
  have hcalled : (p : ℤ) ∈ engine.called batch := by
    refine JsSet.mem_of.mpr (List.mem_append_left _ ?_)
    exact List.mem_filterMap.mpr ⟨i, List.mem_finRange i, by rw [h, Option.map_some, hp]⟩
  have hnamed : i ∈ engine.namesFor batch p :=
    List.mem_filter.mpr ⟨List.mem_finRange i, by simp [h, hp]⟩
  simpa [namedIn1, askedIn1, hcalled] using hnamed

/-- A name noted as asked of `n` partitions was asked of all of them. -/
theorem namedIn1_of_length (h : engine.n ≤ ((engine.oracleRound batch).nameAsked i).length)
    (hp : p < engine.n) : engine.namedIn1 batch i p = true := by
  have hsub : ((engine.oracleRound batch).nameAsked i) ⊆ List.range engine.n := fun q hq =>
    List.mem_range.mpr (mem_nameAsked.mp hq).1
  have hperm : ((engine.oracleRound batch).nameAsked i).Perm (List.range engine.n) :=
    (nodup_nameAsked i).subperm hsub |>.perm_of_length_le (by rwa [List.length_range])
  exact (mem_nameAsked.mp (hperm.mem_iff.mpr (List.mem_range.mpr hp))).2

theorem unranked_of_unsettled (hexact : engine.Exact batch)
    (hunsettled : i ∈ engine.unsettled (engine.oracleRound batch)) (hp : p < engine.n)
    (h1 : engine.namedIn1 batch i p = false) (h2 : engine.namedInRepair batch i p = false) :
    (engine.partitions.name p (batch.names.get i)).rank = none := by
  have hasked : p ∉ (engine.oracleRound batch).nameAsked i := by
    rw [mem_nameAsked]
    simp [h1]
  have hmay : mayHold (engine.oracleRound batch) i p = false := by
    simpa [namedInRepair, hunsettled, hasked] using h2
  unfold mayHold at hmay
  split at hmay
  · rename_i holders hholders
    by_contra hrank
    have hheld := (heard_oracleRound hexact i).holders holders hholders p hp hrank
    simp [hheld] at hmay
  · cases hmay

theorem route_reply (hexact : engine.Exact batch) {hint : NameHint} {reply : NameReply Card}
    (h : ((engine.oracleRound batch).nameReplies i).find?
      (fun reply => (reply.p : ℤ) = hintPartition hint) = some reply) :
    (reply.p : ℤ) = hintPartition hint ∧ reply.p < engine.n ∧
      reply.pick = engine.partitions.name reply.p (batch.names.get i) := by
  have hheard := heard_oracleRound hexact i
  have hmem := List.mem_of_find?_eq_some h
  have hp : reply.p ∈ (List.range engine.n).filter (engine.namedIn1 batch i) :=
    hheard.partitions ▸ List.mem_map_of_mem hmem
  have hroute : (reply.p : ℤ) = hintPartition hint := by simpa using List.find?_some h
  exact ⟨hroute, List.mem_range.mp (List.mem_filter.mp hp).1, hheard.picks reply hmem⟩

/-- A name whose filter spells no rival tier, answered by a served card of the
partition its hint names: that reply is taken as final. -/
def AnsweredUntiered (engine : PartitionedEngine Card) (batch : CollectionBatch)
    (i : Fin batch.names.length) : Prop :=
  ∃ p < engine.n, ∃ needle rank, engine.hint batch i = some (.served p none needle) ∧
    (engine.partitions.name p (batch.names.get i)).rank = some rank ∧ rank.served = 1

/-- An unsettled name's answer is the merge over all partitions: whom the rounds
leave out ranks it nowhere. -/
theorem best_of_unsettled (hexact : engine.Exact batch)
    (h : i ∈ engine.unsettled (engine.oracleRound batch)) :
    best (((List.range engine.n).filter fun p =>
      engine.namedIn1 batch i p || engine.namedInRepair batch i p).map
        (engine.partitions.name · (batch.names.get i)))
      = best ((List.range engine.n).map (engine.partitions.name · (batch.names.get i))) := by
  refine best_filter fun p hp hkeep => ?_
  obtain ⟨h1, h2⟩ := Bool.or_eq_false_iff.mp hkeep
  exact unranked_of_unsettled hexact h (List.mem_range.mp hp) h1 h2

/-- A settled name's answer is the merge over all partitions: what its route's
reply leaves out ranks it nowhere or is beaten by it. -/
theorem best_of_settled (hexact : engine.Exact batch) (huntiered : ¬engine.AnsweredUntiered batch i)
    {hint : NameHint} (hhint : engine.hint batch i = some hint) (hp : p < engine.n)
    (hroute : (p : ℤ) = hintPartition hint) {present : Bool}
    (h : nameReplySettles hint (engine.partitions.name p (batch.names.get i)).rank present = true) :
    best (((List.range engine.n).filter fun p =>
      engine.namedIn1 batch i p || engine.namedInRepair batch i p).map
        (engine.partitions.name · (batch.names.get i)))
      = best ((List.range engine.n).map (engine.partitions.name · (batch.names.get i))) := by
  have hasked : engine.namedIn1 batch i p = true := namedIn1_of_hint hhint hroute.symm
  cases hint with
  | sole s =>
    refine best_filter fun q hq hkeep => ?_
    by_contra hrank
    -- The one holder is the partition that was asked.
    have hqs : (q : ℤ) = p :=
      (hexact.sole _ s hhint q (List.mem_range.mp hq) hrank).trans hroute.symm
    rw [Int.ofNat_inj.mp hqs, hasked, Bool.true_or] at hkeep
    cases hkeep
  | served s rival needle =>
    cases hrank : (engine.partitions.name p (batch.names.get i)).rank with
    | none =>
      rw [hrank] at h
      cases h
    | some rank =>
      rw [hrank] at h
      cases rival with
      | none =>
        have hserved : rank.served = 1 := by simpa [nameReplySettles] using h
        exact absurd ⟨p, hp, needle, rank, hroute ▸ hhint, hrank, hserved⟩ huntiered
      | some t =>
        have hbeats : ∀ q < engine.n, q ≠ p → ∀ r, (engine.partitions.name q (batch.names.get i)).rank = some r →
              rank.beats r = true := by
          intro q hq hne r hr
          refine nameReplySettles_beats h (hexact.served _ s _ _ hhint q hq ?_ r hr)
          intro hqs
          exact hne (Int.ofNat_inj.mp (hqs.trans hroute.symm))
        have hbest : ∀ asked : List ℕ, p ∈ asked → (∀ q ∈ asked, q < engine.n) →
            best (asked.map (engine.partitions.name · (batch.names.get i)))
              = engine.partitions.name p (batch.names.get i) := fun asked hmem hlt =>
          best_of_beats (f := (engine.partitions.name · (batch.names.get i))) hrank
            hmem fun q hq => hbeats q (hlt q hq)
        rw [hbest _ (List.mem_range.mpr hp) fun q hq => List.mem_range.mp hq,
          hbest _ (List.mem_filter.mpr ⟨List.mem_range.mpr hp, by simp [hasked]⟩)
            fun q hq => List.mem_range.mp (List.mem_filter.mp hq).1]

theorem gathered_name (hexact : engine.Exact batch) (huntiered : ¬engine.AnsweredUntiered batch i) :
    mergeReplies ((engine.gathered batch).nameReplies i) = best
      ((List.range engine.n).map (engine.partitions.name · (batch.names.get i))) := by
  rw [mergeReplies_gathered hexact]
  by_cases hunsettled : i ∈ engine.unsettled (engine.oracleRound batch)
  · exact best_of_unsettled hexact hunsettled
  · have hfilter := fun h => hunsettled (List.mem_filter.mpr ⟨List.mem_finRange i, h⟩)
    cases hhint : engine.hint batch i with
    | none =>
      exact best_filter fun p _ hkeep => by simp [namedIn1_of_unrouted hhint] at hkeep
    | some hint =>
      simp only [hhint] at hfilter
      split_ifs at hfilter with hlength
      · refine best_filter fun p hp hkeep => ?_
        simp [namedIn1_of_length hlength (List.mem_range.mp hp)] at hkeep
      · split at hfilter
        · rename_i reply hfind
          obtain ⟨hroute, hp, hpick⟩ := route_reply hexact hfind
          rw [hpick] at hfilter
          exact best_of_settled hexact huntiered hhint hp hroute (by simpa using hfilter)
        · exact absurd rfl hfilter

theorem gathered_name_untiered (hexact : engine.Exact batch)
    (huntiered : engine.AnsweredUntiered batch i) :
    mergeReplies ((engine.gathered batch).nameReplies i) = best
      (((List.range engine.n).filter (engine.namedIn1 batch i)).map
        (engine.partitions.name · (batch.names.get i))) := by
  obtain ⟨p, hp, needle, rank, hhint, hrank, hserved⟩ := huntiered
  have hsettled : i ∉ engine.unsettled (engine.oracleRound batch) := by
    intro hmem
    have hopen := (List.mem_filter.mp hmem).2
    simp only [hhint] at hopen
    split_ifs at hopen with hlength
    · split at hopen
      · rename_i reply hfind
        obtain ⟨hroute, -, hpick⟩ := route_reply hexact hfind
        rw [hpick, Int.ofNat_inj.mp hroute, hrank] at hopen
        simp [nameReplySettles, hserved] at hopen
      · rename_i hfind
        -- The route was asked, so it replied.
        have hasked : p ∈ (List.range engine.n).filter (engine.namedIn1 batch i) :=
          List.mem_filter.mpr ⟨List.mem_range.mpr hp, namedIn1_of_hint hhint rfl⟩
        rw [← (heard_oracleRound hexact i).partitions] at hasked
        obtain ⟨reply, hreply, hreplyp⟩ := List.mem_map.mp hasked
        have hnone := List.find?_eq_none.mp hfind reply hreply
        simp [hintPartition, hreplyp] at hnone
  have hrepair : ∀ q, engine.namedInRepair batch i q = false := by
    intro q
    simp [namedInRepair, hsettled]
  rw [mergeReplies_gathered hexact]
  simp only [hrepair, Bool.or_false]

end Name

/-! ## The full fan-out -/

def bestOfAll (engine : PartitionedEngine Card) (name : NameIdentifier) : NamePick Card :=
  best ((List.range engine.n).map (engine.partitions.name · name))

/-- The best of the first round's replies to a name. -/
def bestOfFirst (engine : PartitionedEngine Card) (batch : CollectionBatch)
    (i : Fin batch.names.length) : NamePick Card :=
  best (((List.range engine.n).filter (engine.namedIn1 batch i)).map
    (engine.partitions.name · (batch.names.get i)))

theorem join_getElem?_map {α γ : Type} {l : List α} (f : α → Option γ) (i : Fin l.length) :
    ((l.map f)[i.val]?).join = f (l.get i) := by
  rw [List.getElem?_map, List.getElem?_eq_getElem i.isLt]
  rfl

theorem fanOut_keys : (engine.fanOut batch).keys = List.ofFn fun i : Fin batch.keys.length =>
    (List.range engine.n).findSome? (engine.partitions.key · (batch.keys.get i)) := by
  refine congrArg List.ofFn (funext fun i => ?_)
  rw [answersOfAll, List.findSome?_map]
  congr 1
  funext p
  exact join_getElem?_map (engine.partitions.key p) i

theorem fanOut_trees : (engine.fanOut batch).trees = List.ofFn fun i : Fin batch.trees.length =>
    (List.range engine.n).findSome? (engine.partitions.tree · (batch.trees.get i)) := by
  refine congrArg List.ofFn (funext fun i => ?_)
  rw [answersOfAll, List.findSome?_map]
  congr 1
  funext p
  exact join_getElem?_map (engine.partitions.tree p) i

theorem fanOut_pick (i : Fin batch.names.length) : best ((engine.answersOfAll batch).map fun answer =>
      { rank := (answer.nameRanks[i.val]?).join, card := (answer.names[i.val]?).join })
      = engine.bestOfAll (batch.names.get i) := by
  rw [answersOfAll, List.map_map, bestOfAll]
  congr 1
  refine List.map_congr_left fun p _ => ?_
  have hrank : ((engine.partitions.scryfallCollectionBatch p batch).nameRanks[i.val]?).join
      = (engine.partitions.name p (batch.names.get i)).rank :=
    join_getElem?_map (fun name => (engine.partitions.name p name).rank) i
  have hcard : ((engine.partitions.scryfallCollectionBatch p batch).names[i.val]?).join
      = (engine.partitions.name p (batch.names.get i)).card :=
    join_getElem?_map (fun name => (engine.partitions.name p name).card) i
  rw [Function.comp_apply, hrank, hcard]

theorem fanOut_names (i : Fin batch.names.length) :
    (engine.fanOut batch).names[i.val]? = some (engine.bestOfAll (batch.names.get i)).card ∧
      (engine.fanOut batch).nameRanks[i.val]?
        = some (engine.bestOfAll (batch.names.get i)).rank := by
  rw [← fanOut_pick i]
  simp [fanOut]

theorem batch_names (i : Fin batch.names.length) : (engine.scryfallCollectionBatch batch).names[i.val]?
        = some (mergeReplies ((engine.gathered batch).nameReplies i)).card ∧
      (engine.scryfallCollectionBatch batch).nameRanks[i.val]?
        = some (mergeReplies ((engine.gathered batch).nameReplies i)).rank := by
  simp [scryfallCollectionBatch]

/-- **A collection batch is the full fan-out.** With routing that is exact for what
some partition holds, and anything for what none does, every key and tree is
answered as by merging all partitions' answers to the whole batch, and so is every
name, except one whose filter spells no rival tier and whose partition answers it
with a served card: that one is the best of the first round's replies. -/
theorem scryfallCollectionBatch_eq_fanOut (hexact : engine.Exact batch) :
    (engine.scryfallCollectionBatch batch).keys = (engine.fanOut batch).keys ∧
    (engine.scryfallCollectionBatch batch).trees = (engine.fanOut batch).trees ∧
    ∀ i : Fin batch.names.length,
      (¬engine.AnsweredUntiered batch i →
        (engine.scryfallCollectionBatch batch).names[i.val]? = (engine.fanOut batch).names[i.val]? ∧
        (engine.scryfallCollectionBatch batch).nameRanks[i.val]?
          = (engine.fanOut batch).nameRanks[i.val]?) ∧
      (engine.AnsweredUntiered batch i →
        (engine.scryfallCollectionBatch batch).names[i.val]?
          = some (engine.bestOfFirst batch i).card ∧
        (engine.scryfallCollectionBatch batch).nameRanks[i.val]?
          = some (engine.bestOfFirst batch i).rank) := by
  refine ⟨?_, ?_, fun i => ⟨fun huntiered => ?_, fun huntiered => ?_⟩⟩
  · rw [fanOut_keys]
    exact congrArg List.ofFn (funext (gathered_keys hexact))
  · rw [fanOut_trees]
    exact congrArg List.ofFn (funext (gathered_trees hexact))
  · rw [(batch_names i).1, (batch_names i).2, (fanOut_names i).1, (fanOut_names i).2,
      gathered_name hexact huntiered]
    exact ⟨rfl, rfl⟩
  · rw [(batch_names i).1, (batch_names i).2, gathered_name_untiered hexact huntiered]
    exact ⟨rfl, rfl⟩

/-! ## A served face and an extra of its name -/

/-- Two partitions: a served card with a face named chaos in the first, and an
extra of that whole name in the second. -/
def chaosPartitions : Partitions String where
  key p key := if p = 1 ∧ key = .scryfallId "s1" then some "S1" else none
  tree p tree := if p = 0 ∧ tree = "t0" then some "T0" else none
  name p name :=
    if name.folded = "chaos" ∧ p = 0 then
      { rank := some ⟨2, "orderchaos", 1, "", 1⟩, card := some "Order // Chaos" }
    else if name.folded = "chaos" ∧ p = 1 then
      { rank := some ⟨3, "chaos", 0, "", 1⟩, card := some "Chaos" }
    else nothing
  present _ := none
  index _ := some { builtAt := "b", nameHolders := fun _ => some [0, 1] }

/-- A router over them whose filter names the first partition for chaos, and some
partition for everything else. -/
def chaosEngine (rival : Option ℕ) : PartitionedEngine String where
  n := 2
  builtAt := "b"
  locatable := true
  routing := some
    { lookup := fun key => if key = "i:s1" then some 1 else some 0
      hasNameKeys := true
      lookupName := fun key =>
        if key = "nm:chaos" then some (.served 0 rival none) else some (.sole 1) }
  reread := none
  partitions := chaosPartitions

def chaosBatch : CollectionBatch where
  keys := [.scryfallId "s1", .illustrationId "s2"]
  trees := ["t0", "t1"]
  treeAddresses := some [some "sn:a", some "sn:a"]
  names := [⟨"chaos", ""⟩, ⟨"order", ""⟩]

theorem folded_of_ranked {name : NameIdentifier}
    (h : (chaosPartitions.name p name).rank ≠ none) : name.folded = "chaos" := by
  by_contra hname
  exact h (by simp [chaosPartitions, hname, nothing])

theorem nameHintOf_chaos (rival : Option ℕ) :
    nameHintOf (chaosEngine rival).routing "chaos" = some (.served 0 rival (some "chaos")) := by
  have h : collatedName "chaos" = some "chaos" := by decide +kernel
  simp [nameHintOf, chaosEngine, h, NAME_PREFIX]

theorem exact_chaosEngine {rival : Option ℕ} (h : ∀ t, rival = some t → 3 ≤ t) : (chaosEngine rival).Exact chaosBatch where
  owner p id hheld := by simp [chaosEngine, chaosPartitions] at hheld
  lowest key t horacle htarget p hp hheld := by
    have hkey : p = 1 ∧ key = .scryfallId "s1" := by
      by_contra hne
      exact hheld (if_neg hne)
    obtain ⟨rfl, rfl⟩ := hkey
    have hs1 : (chaosEngine rival).targetOf (.scryfallId "s1") 2 = some 1 := by
      have hid : scryfallIdKey "s1" = "i:s1" := by decide +kernel
      simp [targetOf, hintOf, chaosEngine, hid]
    cases hs1.symm.trans htarget
    exact ⟨hheld, le_rfl⟩
  address i address t haddress hhint p hp hheld := by
    have hp0 : p = 0 := by
      by_contra hne
      exact hheld (if_neg fun hp => hne hp.1)
    have hi : address = "sn:a" := by
      have hall : ∀ i : Fin chaosBatch.trees.length, treeAddress chaosBatch i = some "sn:a" := by
        decide +kernel
      rw [hall i] at haddress
      exact (Option.some.inj haddress).symm
    have ht : (chaosEngine rival).hintOf "sn:a" 2 = some 0 := by simp [hintOf, chaosEngine]
    cases ht.symm.trans (hi ▸ hhint)
    exact hp0
  sole name s hhint p hp hheld := by
    rw [folded_of_ranked hheld, nameHintOf_chaos] at hhint
    cases hhint
  served name s rival' needle hhint p hp hne rank hrank := by
    have hname : name.folded = "chaos" := by
      refine folded_of_ranked (p := p) ?_
      have hpart : chaosPartitions.name p name = (chaosEngine rival).partitions.name p name := rfl
      rw [hpart, hrank]
      exact Option.some_ne_none rank
    rw [hname, nameHintOf_chaos] at hhint
    cases hhint
    have hp1 : p = 1 := by
      have hlt : p < 2 := hp
      omega
    subst hp1
    have hextra : rank = ⟨3, "chaos", 0, "", 1⟩ := by
      simpa [chaosEngine, chaosPartitions, hname, eq_comm] using hrank
    subst hextra
    exact ⟨rfl, h, fun needle hneedle _ => Or.inl (Option.some.inj hneedle)⟩
  index p index hindex hbuilt name holders hholders q hq _ := by
    cases hindex
    cases hholders
    have hlt : q < 2 := hq
    have hcases : q = 0 ∨ q = 1 := by omega
    rcases hcases with rfl | rfl <;> simp

theorem scryfallCollectionBatch_eq_fanOut_chaos :
    let engine := chaosEngine (some 3)
    (engine.scryfallCollectionBatch chaosBatch).keys = (engine.fanOut chaosBatch).keys ∧
    (engine.scryfallCollectionBatch chaosBatch).trees = (engine.fanOut chaosBatch).trees ∧
    (engine.scryfallCollectionBatch chaosBatch).names[0]? = (engine.fanOut chaosBatch).names[0]? := by
  have hexact : (chaosEngine (some 3)).Exact chaosBatch :=
    exact_chaosEngine fun t ht => (Option.some.inj ht).le
  obtain ⟨hkeys, htrees, hnames⟩ := scryfallCollectionBatch_eq_fanOut hexact
  refine ⟨hkeys, htrees, ((hnames ⟨0, by decide⟩).1 ?_).1⟩
  rintro ⟨p, -, needle, rank, hhint, -⟩
  have hchaos : (chaosEngine (some 3)).hint chaosBatch ⟨0, by decide⟩
      = some (.served 0 (some 3) (some "chaos")) := nameHintOf_chaos (some 3)
  cases hchaos.symm.trans hhint

/-- A filter from before the tiers takes the served face of `Order // Chaos` for the
answer, where the merge of all partitions answers the extra named Chaos. -/
theorem untiered_route_differs : (chaosEngine none).Exact chaosBatch ∧
    ((chaosEngine none).scryfallCollectionBatch chaosBatch).names
      ≠ ((chaosEngine none).fanOut chaosBatch).names :=
  ⟨exact_chaosEngine (fun _ h => nomatch h), by decide +kernel⟩

end PartitionedEngine
