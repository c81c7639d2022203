-- SUMMARY: A fuzzy name's three stages over every partition, and the one-round bundles that answer them at once.
import Sylvan.Data.JsMap
import Sylvan.Engine.ExactName

/-!
# Fuzzy names

A name is looked up exactly, then with typos, then by the words it contains; a stage is
reached where the one before it fell through. A partition's bundle holds what it answers
to all three, without the stages it can tell nobody will read.
-/

namespace NamedFuzzy

open NamePick

/-! ## Answers -/

def NAMED_CONTAINMENT_LIMIT : ℕ := 2
def FUZZY_SIMILARITY_LEAD : ℚ := 0
def FUZZY_WEAK_BELOW : ℚ := 0

structure FuzzyCandidateWire where
  score : ℚ
  served : Bool
  firstReleased : Option ℕ
  oracleId : String
  vpid : ℤ
  foldedName : String
deriving DecidableEq

inductive FuzzyStatus where
  | hit
  | weak
  | ambiguous
  | miss
deriving DecidableEq, Repr

structure ScryfallFuzzyResult (Card : Type) where
  status : FuzzyStatus
  card : Option Card
deriving DecidableEq

inductive NamedFuzzyAnswer (Card : Type) where
  | card (card : Card)
  | ambiguous
  | miss
deriving DecidableEq, Repr

/-- One store's whole answer; a stage it skipped is `none`. -/
structure NamedFuzzyBundle (Card : Type) where
  exact : ExactNameProbe Card
  fuzzy : Option (ScryfallFuzzyResult Card)
  candidates : List FuzzyCandidateWire
  contained : Option (List Card)

/-- The names of a card object, as far as containment reads them. -/
structure CardNames where
  name : Option String
  printed_name : Option String
  flavor_name : Option String
  /-- The flavor names of `card_faces`, where it is an array. -/
  card_faces : Option (List (Option String))
deriving DecidableEq, Repr

variable {Card : Type}

/-! ## The three stages -/

/-- The per-stage calls one store answers. -/
structure NamedFuzzyStages (Card : Type) where
  scryfallExactNameProbe : (folded setCode baseUrl : String) → ExactNameProbe Card
  fuzzyCandidates : (name setCode : String) → List FuzzyCandidateWire
  scryfallFuzzyName : (name baseUrl setCode : String) → ScryfallFuzzyResult Card
  scryfallNamesContaining : (words : List String) → (setCode : String) → (limit : ℕ) → (baseUrl : String) → List Card

structure Engine (Card : Type) where
  scryfallExactName : (folded setCode baseUrl : String) → Option Card
  scryfallFuzzyName : (name baseUrl setCode : String) → ScryfallFuzzyResult Card
  scryfallNamesContaining : (words : List String) → (setCode : String) → (limit : ℕ) → (baseUrl : String) → List Card

def weakWinnerOrContained (winner : Card) (contained : List Card) : NamedFuzzyAnswer Card :=
  match contained with
  | [only] => .card only
  | _ => .card winner

def containedAnswer (contained : List Card) : NamedFuzzyAnswer Card :=
  if contained.length > 1 then .ambiguous
  else match contained[0]? with
    | some only => .card only
    | none => .miss

def resolveNamedFuzzyStaged (engine : Engine Card) (folded : String) (words : List String)
    (setCode baseUrl : String) : NamedFuzzyAnswer Card :=
  match engine.scryfallExactName folded setCode baseUrl with
  | some exactHit => .card exactHit
  | none =>
    let result := engine.scryfallFuzzyName folded baseUrl setCode
    let contained := engine.scryfallNamesContaining words setCode NAMED_CONTAINMENT_LIMIT baseUrl
    match result.status, result.card with
    | .ambiguous, _ => .ambiguous
    | .hit, some card => .card card
    | .weak, some card => weakWinnerOrContained card contained
    | _, _ => containedAnswer contained

/-! ## The bundle -/

/-- Whether the best candidate scores at or above the weak line. -/
def isStrong (candidates : List FuzzyCandidateWire) : Bool :=
  (candidates.map (·.score)).max?.any (FUZZY_WEAK_BELOW ≤ ·)

/-- One store's bundle built from its separate stage calls. -/
def bundleFromStages (stages : NamedFuzzyStages Card) (folded setCode : String) (words : List String)
    (limit : ℕ) (baseUrl : String) : NamedFuzzyBundle Card :=
  let exact := stages.scryfallExactNameProbe folded setCode baseUrl
  if exact.pick.rank.isSome then ⟨exact, none, [], none⟩
  else
    let candidates := stages.fuzzyCandidates folded setCode
    let contained := stages.scryfallNamesContaining words setCode limit baseUrl
    if candidates ≠ [] then
      let fuzzy := stages.scryfallFuzzyName folded baseUrl setCode
      ⟨exact, some fuzzy, candidates, if isStrong candidates then none else some contained⟩
    else ⟨exact, some ⟨.miss, none⟩, candidates, some contained⟩

/-! ## The race -/

/-- The comparison `all.sort` is given: negative, zero or positive. -/
def compareCandidates (a b : FuzzyCandidateWire) : ℤ :=
  let number (x y : ℚ) : ℤ := if x < y then -1 else if y < x then 1 else 0
  let text (x y : String) : ℤ := if Text.before x y then -1 else if Text.before y x then 1 else 0
  [number b.score a.score, number (if b.served then 1 else 0) (if a.served then 1 else 0),
    number (b.firstReleased.getD 0) (a.firstReleased.getD 0),
    text b.foldedName a.foldedName,
    text a.oracleId b.oracleId,
    number a.vpid b.vpid].find? (· ≠ 0) |>.getD 0

inductive Race where
  | hit (winner : ℕ)
  | ambiguous
  | miss
deriving DecidableEq, Repr

/-- The best candidate of all partitions, unless another name on another card is as good. -/
def raceFuzzyCandidates (perPartition : List (List FuzzyCandidateWire)) (lead : ℚ) : Race :=
  let all := perPartition.zipIdx.flatMap fun (list, partition) => list.map fun c => (c, partition)
  match all.mergeSort fun a b => compareCandidates a.1 b.1 ≤ 0 with
  | [] => .miss
  | (best, partition) :: rest =>
    let runner := ((best, partition) :: rest).find? fun c =>
      c.1.foldedName ≠ best.foldedName ∧ c.1.oracleId ≠ best.oracleId
    if runner.any fun runner => best.score - runner.1.score < lead then .ambiguous
    else .hit partition

/-! ## Containment over the partitions -/

def flavorKeyOf (card : CardNames) : Option String :=
  match card.flavor_name with
  | some flavor => some flavor
  | none =>
    match card.card_faces with
    | none => none
    | some faces =>
      let names := faces.reduceOption
      if names ≠ [] then some (String.intercalate " // " names) else none

section

variable (unseparated : String → String) (names : Card → CardNames)

/-- One card per distinct name, in partition order; a name that is the whole query alone. -/
def mergeContained (perPartition : List (List Card)) (words : List String) (limit : ℕ) : List Card :=
  let byName := perPartition.flatten.foldl
    (fun (byName : JsMap String Card) card =>
      let key := (names card).name.getD ""
      if (byName.get key).isSome then byName else byName.set key card) .empty
  let cards := byName.entries.map Prod.snd
  let whole := String.join (words.map unseparated)
  let needles := (words.map unseparated).filter (· ≠ "")
  let english := cards.filter fun card =>
    let pool := [(names card).name, flavorKeyOf (names card)].map fun n => (n.map unseparated).getD ""
    needles.all fun w => pool.any fun n => Text.includes n.toList w.toList
  let tier := if english ≠ [] then english else cards
  let named := tier.filter fun card =>
    (if english ≠ [] then [(names card).name, flavorKeyOf (names card)]
      else [(names card).name, (names card).printed_name]).any fun n => n.map unseparated = some whole
  if named ≠ [] then named.take 1 else tier.take limit

/-! ## The partitioned engine -/

/-- The stages, each asked of all `n` partitions. -/
def partitionedEngine (n : ℕ) (stages : ℕ → NamedFuzzyStages Card) : Engine Card where
  scryfallExactName folded setCode baseUrl :=
    scryfallExactName n none (fun p => (stages p).scryfallExactNameProbe folded setCode baseUrl) folded
  scryfallFuzzyName name baseUrl setCode :=
    match raceFuzzyCandidates ((List.range n).map fun p => (stages p).fuzzyCandidates name setCode)
      FUZZY_SIMILARITY_LEAD with
    | .hit winner => (stages winner).scryfallFuzzyName name baseUrl setCode
    | .ambiguous => ⟨.ambiguous, none⟩
    | .miss => ⟨.miss, none⟩
  scryfallNamesContaining words setCode limit baseUrl :=
    mergeContained unseparated names
      ((List.range n).map fun p => (stages p).scryfallNamesContaining words setCode limit baseUrl) words limit

/-- What containment answers beside a weak typo winner, or alone. -/
def weakOrContained (weak : Option Card) (found : List Card) : NamedFuzzyAnswer Card :=
  match weak with
  | some weak => weakWinnerOrContained weak found
  | none => containedAnswer found

/-- The merge's last stage; a partition that did not run it leaves no answer. -/
def mergeContainedStage (replies : List (NamedFuzzyBundle Card)) (words : List String) (limit : ℕ)
    (weak : Option Card) : Option (NamedFuzzyAnswer Card) :=
  (replies.mapM NamedFuzzyBundle.contained).map fun contained =>
    weakOrContained weak (mergeContained unseparated names contained words limit)

def mergeTypoStage (replies : List (NamedFuzzyBundle Card)) (words : List String) (limit : ℕ) :
    Option (NamedFuzzyAnswer Card) :=
  if replies.any (·.fuzzy.isNone) then none
  else
    let contained := mergeContainedStage unseparated names replies words limit
    match raceFuzzyCandidates (replies.map (·.candidates)) FUZZY_SIMILARITY_LEAD with
    | .ambiguous => some .ambiguous
    | .hit winner =>
      match replies[winner]?.bind (·.fuzzy) with
      | some ⟨.ambiguous, _⟩ => some .ambiguous
      | some ⟨.hit, some card⟩ => some (.card card)
      | some ⟨.weak, some card⟩ => contained (some card)
      | _ => contained none
    | .miss => contained none

/-- Every partition's bundle, in partition order, combined; `none` is for the caller to ask the stages. -/
def mergeNamedFuzzyBundles (replies : List (NamedFuzzyBundle Card)) (words : List String) (limit : ℕ)
    (exactSettledMiss : Bool) : Option (NamedFuzzyAnswer Card) :=
  if exactSettledMiss then
    if replies.any (·.exact.pick.rank.isSome) then none
    else mergeTypoStage unseparated names replies words limit
  else
    let best := best (replies.map (·.exact.pick))
    if best.rank.isSome then best.card.map .card
    else mergeTypoStage unseparated names replies words limit

end

/-! ## What a bundle says -/

theorem rank_best_eq_none {replies : List (NamePick Card)} :
    (best replies).rank = none ↔ ∀ reply ∈ replies, reply.rank = none := by
  suffices hfold : ∀ start : NamePick Card, (replies.foldl offer start).rank = none ↔
      start.rank = none ∧ ∀ reply ∈ replies, reply.rank = none by
    rw [best, hfold, nothing]
    simp
  induction replies with
  | nil => simp
  | cons reply replies ih =>
    intro start
    rw [List.foldl_cons, ih]
    cases hrank : reply.rank with
    | none => simp [offer, hrank]
    | some rank =>
      -- An offer that is ranked leaves a ranked pick.
      have hoffer : (start.offer reply).rank ≠ none := by
        unfold offer
        simp only [hrank]
        split_ifs with hbeats
        · simp [hrank]
        · intro hnone
          simp [hnone, beatsExactRank] at hbeats
      simp [hoffer, hrank]

section

variable {stages : NamedFuzzyStages Card} {folded setCode baseUrl : String} {words : List String} {limit : ℕ}

theorem bundle_exact : (bundleFromStages stages folded setCode words limit baseUrl).exact =
    stages.scryfallExactNameProbe folded setCode baseUrl := by
  unfold bundleFromStages
  simp only
  split_ifs <;> rfl

theorem bundle_candidates (h : (stages.scryfallExactNameProbe folded setCode baseUrl).pick.rank = none) :
    (bundleFromStages stages folded setCode words limit baseUrl).candidates = stages.fuzzyCandidates folded setCode := by
  simp only [bundleFromStages, h, Option.isSome_none, Bool.false_eq_true, if_false]
  split_ifs <;> rfl

theorem bundle_fuzzy (h : (stages.scryfallExactNameProbe folded setCode baseUrl).pick.rank = none)
    (hcandidates : stages.fuzzyCandidates folded setCode ≠ []) :
    (bundleFromStages stages folded setCode words limit baseUrl).fuzzy =
      some (stages.scryfallFuzzyName folded baseUrl setCode) := by
  simp only [bundleFromStages, h, Option.isSome_none, Bool.false_eq_true, if_false, if_pos hcandidates]

theorem bundle_contained {contained : List Card}
    (h : (bundleFromStages stages folded setCode words limit baseUrl).contained = some contained) :
    contained = stages.scryfallNamesContaining words setCode limit baseUrl := by
  simp only [bundleFromStages] at h
  split_ifs at h
  · exact (Option.some.inj h).symm
  · exact (Option.some.inj h).symm

end

theorem race_hit {perPartition : List (List FuzzyCandidateWire)} {lead : ℚ} {winner : ℕ}
    (h : raceFuzzyCandidates perPartition lead = .hit winner) :
    ∃ candidates, perPartition[winner]? = some candidates ∧ candidates ≠ [] := by
  simp only [raceFuzzyCandidates] at h
  split at h
  · cases h
  · rename_i best partition rest hsorted
    split_ifs at h
    obtain rfl := Race.hit.inj h
    have hmem : (best, partition) ∈ perPartition.zipIdx.flatMap fun (list, partition) =>
        list.map fun c => (c, partition) := by
      rw [← List.mem_mergeSort, hsorted]
      exact List.mem_cons_self
    obtain ⟨⟨list, index⟩, hlist, hbest⟩ := List.mem_flatMap.mp hmem
    obtain ⟨c, hc, heq⟩ := List.mem_map.mp hbest
    obtain ⟨rfl, rfl⟩ := Prod.mk.inj heq
    exact ⟨list, List.mem_zipIdx_iff_getElem?.mp hlist, List.ne_nil_of_mem hc⟩

theorem mapM_contained {α : Type} {l : List α} {bundle : α → Option (List Card)} {stage : α → List Card}
    (h : ∀ x ∈ l, ∀ contained, bundle x = some contained → contained = stage x) {contained : List (List Card)}
    (hall : l.mapM bundle = some contained) : contained = l.map stage := by
  induction l generalizing contained with
  | nil => simpa using hall.symm
  | cons x l ih =>
    simp only [List.mapM_cons, Option.bind_eq_bind, Option.bind_eq_some_iff, Option.pure_def, Option.some.injEq] at hall
    obtain ⟨first, hfirst, rest, hrest, rfl⟩ := hall
    rw [List.map_cons, h x List.mem_cons_self first hfirst, ih (fun y hy => h y (List.mem_cons_of_mem x hy)) hrest]

/-! ## The merge decides as the stages do -/

section

variable (unseparated : String → String) (names : Card → CardNames) (stages : ℕ → NamedFuzzyStages Card)

theorem mergeTypoStage_eq_staged {n : ℕ} {folded setCode baseUrl : String} {words : List String}
    {answer : NamedFuzzyAnswer Card}
    (hunranked : ∀ p < n, ((stages p).scryfallExactNameProbe folded setCode baseUrl).pick.rank = none)
    (hexact : (partitionedEngine unseparated names n stages).scryfallExactName folded setCode baseUrl = none)
    (h : mergeTypoStage unseparated names ((List.range n).map fun p =>
        bundleFromStages (stages p) folded setCode words NAMED_CONTAINMENT_LIMIT baseUrl)
      words NAMED_CONTAINMENT_LIMIT = some answer) :
    resolveNamedFuzzyStaged (partitionedEngine unseparated names n stages) folded words setCode baseUrl = answer := by
  have hcandidates : ((List.range n).map fun p => bundleFromStages (stages p) folded setCode words
      NAMED_CONTAINMENT_LIMIT baseUrl).map (·.candidates) =
        (List.range n).map fun p => (stages p).fuzzyCandidates folded setCode := by
    rw [List.map_map]
    exact List.map_congr_left fun p hp => bundle_candidates (hunranked p (List.mem_range.mp hp))
  have hcontained {weak : Option Card} {answer : NamedFuzzyAnswer Card}
      (hstage : mergeContainedStage unseparated names ((List.range n).map fun p =>
          bundleFromStages (stages p) folded setCode words NAMED_CONTAINMENT_LIMIT baseUrl)
        words NAMED_CONTAINMENT_LIMIT weak = some answer) :
      weakOrContained weak ((partitionedEngine unseparated names n stages).scryfallNamesContaining
        words setCode NAMED_CONTAINMENT_LIMIT baseUrl) = answer := by
    obtain ⟨contained, hall, rfl⟩ := Option.map_eq_some_iff.mp hstage
    rw [List.mapM_map] at hall
    rw [mapM_contained (fun p _ contained => bundle_contained) hall]
    rfl
  rw [mergeTypoStage, hcandidates] at h
  split_ifs at h with hskipped
  simp only [resolveNamedFuzzyStaged, hexact]
  simp only [partitionedEngine] at hcontained ⊢
  cases hrace : raceFuzzyCandidates ((List.range n).map fun p => (stages p).fuzzyCandidates folded setCode)
      FUZZY_SIMILARITY_LEAD with
  | ambiguous =>
    simp only [hrace, Option.some.injEq] at h ⊢
    exact h
  | miss =>
    simp only [hrace] at h ⊢
    exact hcontained h
  | hit winner =>
    obtain ⟨candidates, hwinner, hsome⟩ := race_hit hrace
    rw [List.getElem?_map, Option.map_eq_some_iff] at hwinner
    obtain ⟨p, hp, rfl⟩ := hwinner
    obtain ⟨hlt, rfl⟩ : p < n ∧ winner = p := by
      obtain ⟨hlength, hget⟩ := List.getElem?_eq_some_iff.mp hp
      rw [List.getElem_range] at hget
      exact ⟨hget ▸ List.length_range (n := n) ▸ hlength, hget⟩
    have hlocal : (((List.range n).map fun p => bundleFromStages (stages p) folded setCode words
        NAMED_CONTAINMENT_LIMIT baseUrl)[winner]?).bind (·.fuzzy) =
          some ((stages winner).scryfallFuzzyName folded baseUrl setCode) := by
      rw [List.getElem?_map, hp]
      exact bundle_fuzzy (hunranked winner hlt) hsome
    simp only [hrace, hlocal] at h ⊢
    generalize (stages winner).scryfallFuzzyName folded baseUrl setCode = result at h ⊢
    obtain ⟨status, card⟩ := result
    cases status with
    | ambiguous => exact Option.some.inj h
    | miss => exact hcontained h
    | hit =>
      cases card with
      | none => exact hcontained h
      | some card => exact Option.some.inj h
    | weak =>
      cases card with
      | none => exact hcontained h
      | some card => exact hcontained h

/-- **What the merge decides is what the stages answer.** Over any partitions' bundles, a merge that decides
    gives the answer of the three stages asked of all the partitions one after another. -/
theorem mergeNamedFuzzyBundles_eq_staged {n : ℕ} {folded setCode baseUrl : String} {words : List String}
    {exactSettledMiss : Bool} {answer : NamedFuzzyAnswer Card}
    (h : mergeNamedFuzzyBundles unseparated names ((List.range n).map fun p =>
        bundleFromStages (stages p) folded setCode words NAMED_CONTAINMENT_LIMIT baseUrl)
      words NAMED_CONTAINMENT_LIMIT exactSettledMiss = some answer) :
    resolveNamedFuzzyStaged (partitionedEngine unseparated names n stages) folded words setCode baseUrl = answer := by
  have hexact : (partitionedEngine unseparated names n stages).scryfallExactName folded setCode baseUrl =
      (bestOfProbes n fun p => (stages p).scryfallExactNameProbe folded setCode baseUrl).card := by
    have hnone : nameHintOf none folded = none := rfl
    refine (scryfallExactName_of_unsettled fun hint hhint => ?_ :
      scryfallExactName n none (fun p => (stages p).scryfallExactNameProbe folded setCode baseUrl) folded = _)
    cases hnone.symm.trans hhint
  have hpicks : ((List.range n).map fun p => bundleFromStages (stages p) folded setCode words
      NAMED_CONTAINMENT_LIMIT baseUrl).map (·.exact.pick) =
        (List.range n).map fun p => ((stages p).scryfallExactNameProbe folded setCode baseUrl).pick := by
    rw [List.map_map]
    exact List.map_congr_left fun p _ => congrArg ExactNameProbe.pick bundle_exact
  have hmiss (hunranked : ∀ p < n, ((stages p).scryfallExactNameProbe folded setCode baseUrl).pick.rank = none) :
      (partitionedEngine unseparated names n stages).scryfallExactName folded setCode baseUrl = none := by
    have hnone : best (((List.range n).filter fun _ => false).map fun p =>
        ((stages p).scryfallExactNameProbe folded setCode baseUrl).pick) =
        best ((List.range n).map fun p =>
          ((stages p).scryfallExactNameProbe folded setCode baseUrl).pick) :=
      best_filter fun p hp _ => hunranked p (List.mem_range.mp hp)
    rw [hexact, bestOfProbes, ← hnone]
    simp [best, nothing]
  cases exactSettledMiss with
  | true =>
    simp only [mergeNamedFuzzyBundles, if_true] at h
    split_ifs at h with hranked
    have hunranked : ∀ p < n, ((stages p).scryfallExactNameProbe folded setCode baseUrl).pick.rank = none := by
      simpa [bundle_exact] using hranked
    exact mergeTypoStage_eq_staged unseparated names stages hunranked (hmiss hunranked) h
  | false =>
    simp only [mergeNamedFuzzyBundles, hpicks, Bool.false_eq_true, if_false] at h
    split_ifs at h with hranked
    · obtain ⟨card, hcard, rfl⟩ := Option.map_eq_some_iff.mp h
      rw [resolveNamedFuzzyStaged, hexact, bestOfProbes, hcard]
    · have hnone := rank_best_eq_none.mp (Option.not_isSome_iff_eq_none.mp hranked)
      have hunranked : ∀ p < n, ((stages p).scryfallExactNameProbe folded setCode baseUrl).pick.rank = none :=
        fun p hp => hnone _ (List.mem_map_of_mem (List.mem_range.mpr hp))
      exact mergeTypoStage_eq_staged unseparated names stages hunranked (hmiss hunranked) h

end

/-- Two partitions a mistyped name is no card's of: the second has a candidate, the first contains its words. -/
def mistyped (p : ℕ) : NamedFuzzyStages String where
  scryfallExactNameProbe _ _ _ := ⟨⟨none, none⟩, false⟩
  fuzzyCandidates _ _ := if p = 1 then [⟨5 / 9, true, none, "o1", 0, "lightning bolt"⟩] else []
  scryfallFuzzyName _ _ _ := if p = 1 then ⟨.hit, some "Lightning Bolt"⟩ else ⟨.miss, none⟩
  scryfallNamesContaining _ _ _ _ := if p = 0 then ["Lihgtning Bolt Statue"] else []

theorem mergeNamedFuzzyBundles_eq_staged_mistyped :
    resolveNamedFuzzyStaged (partitionedEngine id (fun name => ⟨some name, none, none, none⟩) 2 mistyped)
      "lihgtning bolt" ["lihgtning", "bolt"] "" "" = .card "Lightning Bolt" := by
  have hmerge : mergeNamedFuzzyBundles id (fun name => ⟨some name, none, none, none⟩)
      ((List.range 2).map fun p => bundleFromStages (mistyped p) "lihgtning bolt" "" ["lihgtning", "bolt"]
        NAMED_CONTAINMENT_LIMIT "") ["lihgtning", "bolt"] NAMED_CONTAINMENT_LIMIT false =
      some (.card "Lightning Bolt") := by
    decide +kernel
  exact mergeNamedFuzzyBundles_eq_staged id _ mistyped hmerge

end NamedFuzzy
