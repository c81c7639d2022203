-- SUMMARY: An exact name asked of the partition its routing hint names, and why a settled reply is the full fan-out's answer.
import Mathlib.Data.List.ReduceOption
import Sylvan.Engine.NameKeys

/-!
# Exact names

A name is asked of the one partition the filter names for it, and of the others only
when that reply does not settle it. A settled reply beats every other partition's:
what those hold of the name is an extra the settled card outranks, or nothing.
-/

/-! ## Asking -/

/-- One store's whole answer to an exact name: what it picked, and whether it holds
the name at all. -/
structure ExactNameProbe (Card : Type) where
  pick : NamePick Card
  present : Bool

section Asking

variable {Card : Type}

/-- The replies of the partitions asked, entered where the others are still null. -/
def probeAll (probe : ℕ → ExactNameProbe Card) (asked : List ℕ)
    (replies : List (Option (ExactNameProbe Card))) : List (Option (ExactNameProbe Card)) :=
  asked.foldl (fun replies p => replies.set p (some (probe p))) replies

def bestReply (replies : List (Option (ExactNameProbe Card))) : Option Card :=
  (NamePick.best (replies.reduceOption.map (·.pick))).card

/-- The router's answer to a name over `n` partitions. -/
def scryfallExactName (n : ℕ) (routing : Option Routing) (probe : ℕ → ExactNameProbe Card)
    (folded : String) : Option Card :=
  match nameHintOf routing folded with
  | some hint =>
    let first := (hintPartition hint).toNat
    let reply := probe first
    if nameReplySettles hint reply.pick.rank reply.present then reply.pick.card
    else bestReply (probeAll probe ((List.range n).filter (· ≠ first))
      ((List.replicate n none).set first (some reply)))
  | none => bestReply (probeAll probe (List.range n) (List.replicate n none))

def bestOfProbes (n : ℕ) (probe : ℕ → ExactNameProbe Card) : NamePick Card :=
  NamePick.best ((List.range n).map fun p => (probe p).pick)

theorem getElem?_probeAll (probe : ℕ → ExactNameProbe Card) (asked : List ℕ)
    (replies : List (Option (ExactNameProbe Card))) (p : ℕ) :
    (probeAll probe asked replies)[p]? = if p ∈ asked ∧ p < replies.length then some (some (probe p)) else replies[p]? := by
  unfold probeAll
  induction asked generalizing replies with
  | nil => simp
  | cons q asked ih =>
    rw [List.foldl_cons, ih, List.length_set, List.getElem?_set]
    by_cases hp : p < replies.length
    · by_cases hq : q = p
      · subst hq
        simp [hp]
      · simp [hp, hq, Ne.symm hq]
    · have hnone : replies[p]? = none := List.getElem?_eq_none (Nat.not_lt.mp hp)
      simp only [hp, and_false, if_false, hnone]
      split_ifs with hqp hlt
      · exact absurd (hqp ▸ hlt) hp
      · rfl
      · rfl

theorem bestReply_of_all {n : ℕ} {probe : ℕ → ExactNameProbe Card}
    {replies : List (Option (ExactNameProbe Card))}
    (h : ∀ p, replies[p]? = if p < n then some (some (probe p)) else none) :
    bestReply replies = (bestOfProbes n probe).card := by
  have hreplies : replies = ((List.range n).map probe).map some := by
    refine List.ext_getElem? fun p => ?_
    rw [h p, List.getElem?_map, List.getElem?_map]
    by_cases hp : p < n
    · rw [if_pos hp, List.getElem?_range hp]
      rfl
    · rw [if_neg hp, List.getElem?_eq_none (by rw [List.length_range]; omega)]
      rfl
  have hall : (((List.range n).map probe).map some).reduceOption = (List.range n).map probe := by
    rw [List.reduceOption, List.filterMap_map]
    exact List.filterMap_some
  rw [bestReply, hreplies, hall, List.map_map, bestOfProbes]
  rfl

theorem scryfallExactName_of_unsettled {n : ℕ} {routing : Option Routing}
    {probe : ℕ → ExactNameProbe Card} {folded : String}
    (h : ∀ hint, nameHintOf routing folded = some hint → nameReplySettles hint (probe (hintPartition hint).toNat).pick.rank
        (probe (hintPartition hint).toNat).present = false) :
    scryfallExactName n routing probe folded = (bestOfProbes n probe).card := by
  unfold scryfallExactName
  split
  · rename_i hint hhint
    simp only [h hint hhint, Bool.false_eq_true, if_false]
    refine bestReply_of_all fun p => ?_
    simp only [getElem?_probeAll, List.length_set, List.length_replicate, List.mem_filter,
      List.mem_range, List.getElem?_set, List.getElem?_replicate]
    by_cases hp : p < n
    · by_cases hfirst : p = (hintPartition hint).toNat
      · simp [hp, ← hfirst]
      · simp [hp, hfirst]
    · by_cases hfirst : p = (hintPartition hint).toNat
      · simp [hp, ← hfirst]
      · simp [hp, Ne.symm hfirst]
  · refine bestReply_of_all fun p => ?_
    simp only [getElem?_probeAll, List.length_replicate, List.mem_range, List.getElem?_replicate]
    by_cases hp : p < n <;> simp [hp]

end Asking

/-! ## What the engines answer -/

section Answering

variable {Card : Type} {collation : Collation} {rows : ℕ → List NameRow}
  {filter : RoutingFilter.Filter} {folded : String} {probe : ℕ → ExactNameProbe Card}

/-- Replies that are each a partition's own best match: by a row it holds, at the
rank that row gives the name; a name it says it holds some row of it answers, and a
reply without a rank has no card. -/
structure RepliesOf (collation : Collation) (rows : ℕ → List NameRow) (n : ℕ) (folded : String)
    (probe : ℕ → ExactNameProbe Card) : Prop where
  rank : ∀ p < n, ∀ r, (probe p).pick.rank = some r →
    ∃ row ∈ rows p, collation.Answers row (collation.collate_name folded.toList) r
  present : ∀ p < n, (probe p).present = true →
    ∃ row ∈ rows p, ∃ r, collation.Answers row (collation.collate_name folded.toList) r
  card : ∀ p < n, (probe p).pick.rank = none → (probe p).pick.card = none

theorem collatedName_spec (collation : Collation) {collated : String}
    (h : collatedName folded = some collated) :
    collated.toList = collation.collate_name folded.toList ∧ collated.toList ≠ [] ∧
      ∀ c ∈ collated.toList, c.toNat ≤ 0x7f := by
  simp only [collatedName] at h
  split_ifs at h with hall hempty
  cases h
  rw [String.toList_ofList]
  have hascii : ∀ c ∈ folded.toList, c ∉ DROPPED_TYPOGRAPHY → c.toNat ≤ 0x7f := by
    intro c hc hkept
    simp only [Bool.not_eq_true, Bool.not_eq_false', List.all_eq_true, List.mem_filter, decide_eq_true_eq] at hall
    exact hall c ⟨hc, by simpa using hkept⟩
  refine ⟨?_, by simpa using hempty, fun c hc => ?_⟩
  · rw [List.filter_filter, Collation.collate_name]
    refine List.filter_congr fun c hc => ?_
    by_cases hdropped : c ∈ DROPPED_TYPOGRAPHY
    · simp [collation.typography c hdropped, hdropped]
    · simp [collation.ascii c (hascii c hc hdropped), hdropped]
  · have hmem := (List.mem_filter.mp (List.mem_filter.mp hc).1)
    exact hascii c hmem.1 (by simpa using hmem.2)

theorem nameHintOf_cases {hint : NameHint}
    (h : nameHintOf (some filter.routing) folded = some hint) :
    ∃ collated, collatedName folded = some collated ∧
      ∃ said, filter.lookupName (Collation.spelled 'm' collated.toList) = some said ∧ (hint = said ∧ (∃ p, said = .sole p) ∨
          ∃ s rival needle, said = .served s rival needle ∧ hint = .served s rival (some collated)) := by
  unfold nameHintOf at h
  split at h
  · rename_i routing collated hrouting hcollated
    cases hrouting
    have hkey : NAME_PREFIX ++ collated = Collation.spelled 'm' collated.toList := by
      apply String.toList_injective
      rw [String.toList_append, Collation.spelled, String.toList_ofList]
      rfl
    rw [hkey] at h
    refine ⟨collated, hcollated, ?_⟩
    split_ifs at h with hkeys
    split at h
    · rename_i s rival needle hsaid
      cases h
      exact ⟨_, hsaid, Or.inr ⟨s, rival, needle, rfl, rfl⟩⟩
    · rename_i hsaid
      refine ⟨hint, h, Or.inl ⟨rfl, ?_⟩⟩
      cases hint with
      | sole p => exact ⟨p, rfl⟩
      | served s rival needle => exact absurd h (hsaid s rival needle)
  · cases h

end Answering

/-! ## Settled replies -/

/-- A served hint of a filter built before the builders spelled tiers. -/
def NameHint.untiered : NameHint → Bool
  | .served _ none _ => true
  | _ => false

section Settling

variable {Card : Type} {collation : Collation} {rows : ℕ → List NameRow}
  {filter : RoutingFilter.Filter} {folded : String} {probe : ℕ → ExactNameProbe Card}

theorem entry_of_answers {collated : String} (hcollated : collatedName folded = some collated)
    {n p : ℕ} (hp : p < n) {row : NameRow} (hrow : row ∈ rows p) {r : NameRank}
    (h : collation.Answers row (collation.collate_name folded.toList) r) :
    ∃ flags, ((p : ℤ), flags) ∈ nameEntries collation rows n (Collation.spelled 'm' collated.toList) ∧
      Collation.Spells flags collated r := by
  obtain ⟨heq, hne, hascii⟩ := collatedName_spec collation hcollated
  rw [← heq] at h
  obtain ⟨spelling, hspelling, hkey, hspells⟩ := Collation.exists_key_of_answers hne hascii h
  rw [String.ofList_toList] at hspells
  exact ⟨_, mem_nameEntries hp hrow hspelling hkey, hspells⟩

variable (hholds : HoldsNames collation rows filter)
include hholds

theorem partition_of_sole {p : ℤ} (hhint : nameHintOf (some filter.routing) folded = some (.sole p))
    {q : ℕ} (hq : q < filter.partitionCount) {row : NameRow} (hrow : row ∈ rows q) {r : NameRank}
    (h : collation.Answers row (collation.collate_name folded.toList) r) : (q : ℤ) = p := by
  obtain ⟨collated, hcollated, said, hsaid, ⟨rfl, -⟩ | ⟨s, rival, needle, -, hserved⟩⟩ :=
    nameHintOf_cases hhint
  · obtain ⟨flags, hentry, -⟩ := entry_of_answers hcollated hq hrow h
    rcases hint_of_held hholds hsaid (List.ne_nil_of_mem hentry) with
      ⟨p', hp', honly⟩ | ⟨s, rival, hserved, -⟩
    · cases hp'
      exact honly _ hentry
    · cases hserved
  · cases hserved

/-- A name with a served route is answered elsewhere as an extra at most, and by
none above the rival tier. -/
theorem rival_of_served {s : ℤ} {rival : Option ℕ} {needle : Option String}
    (hhint : nameHintOf (some filter.routing) folded = some (.served s rival needle))
    {q : ℕ} (hq : q < filter.partitionCount) (hne : (q : ℤ) ≠ s) {row : NameRow}
    (hrow : row ∈ rows q) {r : NameRank}
    (h : collation.Answers row (collation.collate_name folded.toList) r) :
    RivalOf rival needle r := by
  obtain ⟨collated, hcollated, said, hsaid, ⟨rfl, p, hsole⟩ | ⟨s', rival', needle', rfl, hserved⟩⟩ :=
    nameHintOf_cases hhint
  · cases hsole
  · cases hserved
    obtain ⟨flags, hentry, hspells⟩ := entry_of_answers hcollated hq hrow h
    rcases hint_of_held hholds hsaid (List.ne_nil_of_mem hentry) with
      ⟨p', hp', -⟩ | ⟨s'', rival'', hsays, honly, hrivals⟩
    · cases hp'
    · cases hsays
      rcases hspells with hserved | ⟨hextra, htier, hname⟩
      · exact absurd (honly.2 _ hentry hserved) hne
      · refine ⟨hextra, fun t ht => ?_, fun name hneedle hwhole => ?_⟩
        · rcases htier with hzero | ⟨hpos, hle, hon⟩
          · omega
          · exact hrivals t ht _ hentry hne _ hpos hle hon
        · cases hneedle
          exact hname hwhole

variable (hreplies : RepliesOf collation rows filter.partitionCount folded probe)
include hreplies

theorem unranked_of_sole {p : ℤ} (hpos : 0 ≤ p)
    (hhint : nameHintOf (some filter.routing) folded = some (.sole p)) {q : ℕ}
    (hq : q < filter.partitionCount) (hne : q ≠ p.toNat) : (probe q).pick.rank = none := by
  by_contra hrank
  obtain ⟨r, hr⟩ := Option.ne_none_iff_exists'.mp hrank
  obtain ⟨row, hrow, hanswers⟩ := hreplies.rank q hq r hr
  have hsole := partition_of_sole hholds hhint hq hrow hanswers
  omega

theorem settled_beats {hint : NameHint} (hhint : nameHintOf (some filter.routing) folded = some hint)
    (htiered : hint.untiered = false) (hpos : 0 ≤ hintPartition hint)
    (hsettles : nameReplySettles hint (probe (hintPartition hint).toNat).pick.rank
      (probe (hintPartition hint).toNat).present = true)
    {q : ℕ} (hq : q < filter.partitionCount) (hne : q ≠ (hintPartition hint).toNat) {r : NameRank}
    (hr : (probe q).pick.rank = some r) :
    ∃ rank, (probe (hintPartition hint).toNat).pick.rank = some rank ∧ rank.beats r = true := by
  cases hint with
  | sole p =>
    rw [unranked_of_sole hholds hreplies hpos hhint hq hne] at hr
    cases hr
  | served s rival needle =>
    cases rival with
    | none => cases htiered
    | some t =>
      have hs : (q : ℤ) ≠ s := by
        simp only [hintPartition] at hpos hne
        omega
      obtain ⟨row, hrow, hanswers⟩ := hreplies.rank q hq r hr
      have hrival := rival_of_served hholds hhint hq hs hrow hanswers
      cases hrank : (probe (hintPartition (.served s (some t) needle)).toNat).pick.rank with
      | none =>
        rw [hrank] at hsettles
        cases hsettles
      | some rank =>
        rw [hrank] at hsettles
        exact ⟨rank, rfl, nameReplySettles_beats hsettles hrival⟩

theorem settled_is_best {hint : NameHint} (hhint : nameHintOf (some filter.routing) folded = some hint)
    (htiered : hint.untiered = false)
    (hrange : 0 ≤ hintPartition hint ∧ hintPartition hint < filter.partitionCount)
    (hsettles : nameReplySettles hint (probe (hintPartition hint).toNat).pick.rank
      (probe (hintPartition hint).toNat).present = true) :
    (probe (hintPartition hint).toNat).pick = bestOfProbes filter.partitionCount probe := by
  have hfirst : (hintPartition hint).toNat < filter.partitionCount := by omega
  have hbeats := fun {q} => settled_beats hholds hreplies hhint htiered hrange.1 hsettles (q := q)
  cases hrank : (probe (hintPartition hint).toNat).pick.rank with
  | some rank =>
    refine (NamePick.best_of_beats (f := fun p => (probe p).pick) hrank
      (List.mem_range.mpr hfirst) fun q hq hne r hr => ?_).symm
    obtain ⟨rank', hrank', hbeat⟩ := hbeats (List.mem_range.mp hq) hne hr
    cases hrank.symm.trans hrank'
    exact hbeat
  | none =>
    -- It holds the name outside the asked set; no partition answers within it.
    have hunranked : ∀ q ∈ List.range filter.partitionCount, (probe q).pick.rank = none := by
      intro q hq
      by_cases hne : q = (hintPartition hint).toNat
      · rw [hne, hrank]
      · by_contra hsome
        obtain ⟨r, hr⟩ := Option.ne_none_iff_exists'.mp hsome
        obtain ⟨rank', hrank', -⟩ := hbeats (List.mem_range.mp hq) hne hr
        rw [hrank] at hrank'
        cases hrank'
    have hnothing : bestOfProbes filter.partitionCount probe = NamePick.nothing := by
      have hnone : (List.range filter.partitionCount).filter (fun _ => false) = [] :=
        List.filter_false _
      rw [bestOfProbes, ← NamePick.best_filter fun q hq _ => hunranked q hq, hnone]
      rfl
    have hcard := hreplies.card _ hfirst hrank
    rw [hnothing, NamePick.nothing, ← hrank, ← hcard]

end Settling

/-! ## The answer -/

/-- The hint of a routed name, where the reply of its partition settles the name. -/
def SettledBy {Card : Type} (routing : Option Routing) (probe : ℕ → ExactNameProbe Card)
    (folded : String) (hint : NameHint) : Prop :=
  nameHintOf routing folded = some hint ∧ nameReplySettles hint (probe (hintPartition hint).toNat).pick.rank
      (probe (hintPartition hint).toNat).present = true

section Answer

variable {Card : Type} {collation : Collation} {rows : ℕ → List NameRow} {n : ℕ}
  {loaded : Option RoutingFilter.Filter} {folded : String} {probe : ℕ → ExactNameProbe Card}

theorem nameHintOf_range {filter : RoutingFilter.Filter} {hint : NameHint}
    (h : nameHintOf (some filter.routing) folded = some hint) :
    0 ≤ hintPartition hint ∧ hintPartition hint < filter.partitionCount := by
  obtain ⟨collated, -, said, hsaid, ⟨rfl, -⟩ | ⟨s, rival, needle, rfl, rfl⟩⟩ := nameHintOf_cases h
  · exact hintPartition_lt hsaid
  · have hrange := hintPartition_lt hsaid
    exact hrange

theorem scryfallExactName_of_settled {routing : Option Routing} {hint : NameHint}
    (h : SettledBy routing probe folded hint) :
    scryfallExactName n routing probe folded = (probe (hintPartition hint).toNat).pick.card := by
  rw [scryfallExactName, h.1]
  simp only [h.2, if_true]

theorem served_of_untiered {hint : NameHint} (huntiered : hint.untiered = true)
    {rank : Option NameRank} {present : Bool} (h : nameReplySettles hint rank present = true) :
    ∃ s needle r, hint = .served s none needle ∧ rank = some r ∧ r.served = 1 := by
  cases hint with
  | sole p => cases huntiered
  | served s rival needle =>
    cases rival with
    | some t => cases huntiered
    | none =>
      cases rank with
      | none => cases h
      | some r => exact ⟨s, needle, r, rfl, rfl, of_decide_eq_true h⟩

/-- **An exact name is answered as by asking every partition.** With a filter that
holds every name key it was built with, and of any other name says anything, a reply
that settles its name is the best of all partitions' replies; only where the filter
spells no rival tier may an extra elsewhere beat the served reply that is answered. -/
theorem scryfallExactName_eq_fanOut (hholds : ∀ filter, loaded = some filter →
      filter.partitionCount = n ∧ HoldsNames collation rows filter)
    (hreplies : RepliesOf collation rows n folded probe) :
    (∀ hint, SettledBy (loaded.map (·.routing)) probe folded hint → hint.untiered = false →
      (probe (hintPartition hint).toNat).pick = bestOfProbes n probe ∧
      ∀ q < n, q ≠ (hintPartition hint).toNat → ∀ r, (probe q).pick.rank = some r →
        ∃ rank, (probe (hintPartition hint).toNat).pick.rank = some rank ∧
          beatsExactRank rank (some r) = true) ∧
    ((∀ hint, SettledBy (loaded.map (·.routing)) probe folded hint → hint.untiered = false) →
      scryfallExactName n (loaded.map (·.routing)) probe folded = (bestOfProbes n probe).card) ∧
    ∀ hint, SettledBy (loaded.map (·.routing)) probe folded hint → hint.untiered = true →
      scryfallExactName n (loaded.map (·.routing)) probe folded
          = (probe (hintPartition hint).toNat).pick.card ∧
      (∃ rank, (probe (hintPartition hint).toNat).pick.rank = some rank ∧ rank.served = 1) ∧
      ∀ q < n, q ≠ (hintPartition hint).toNat → ∀ r, (probe q).pick.rank = some r →
        r.served = 0 := by
  cases loaded with
  | none =>
    have hnone : ∀ hint, nameHintOf ((none : Option RoutingFilter.Filter).map (·.routing)) folded
        ≠ some hint := fun hint h => nomatch h
    refine ⟨fun hint h => absurd h.1 (hnone hint), fun _ => ?_,
      fun hint h => absurd h.1 (hnone hint)⟩
    exact scryfallExactName_of_unsettled fun hint h => absurd h (hnone hint)
  | some filter =>
    obtain ⟨rfl, hheld⟩ := hholds filter rfl
    have hbest : ∀ hint, SettledBy (some filter.routing) probe folded hint →
        hint.untiered = false →
        (probe (hintPartition hint).toNat).pick = bestOfProbes filter.partitionCount probe :=
      fun hint h htiered => settled_is_best hheld hreplies h.1 htiered (nameHintOf_range h.1) h.2
    refine ⟨fun hint h htiered => ⟨hbest hint h htiered, fun q hq hne r hr => ?_⟩,
      fun htiered => ?_, fun hint h huntiered => ⟨scryfallExactName_of_settled h, ?_, ?_⟩⟩
    · exact settled_beats hheld hreplies h.1 htiered (nameHintOf_range h.1).1 h.2 hq hne hr
    · by_cases hsettled : ∃ hint, SettledBy (some filter.routing) probe folded hint
      · obtain ⟨hint, h⟩ := hsettled
        exact (scryfallExactName_of_settled h).trans
          (congrArg NamePick.card (hbest hint h (htiered hint h)))
      · refine scryfallExactName_of_unsettled fun hint hhint => ?_
        by_contra hsettles
        exact hsettled ⟨hint, hhint, by simpa using hsettles⟩
    · obtain ⟨s, needle, rank, -, hrank, hserved⟩ := served_of_untiered huntiered h.2
      exact ⟨rank, hrank, hserved⟩
    · intro q hq hne r hr
      obtain ⟨s, needle, rank, rfl, -⟩ := served_of_untiered huntiered h.2
      obtain ⟨row, hrow, hanswers⟩ := hreplies.rank q hq r hr
      have hpos := (nameHintOf_range h.1).1
      refine (rival_of_served hheld h.1 hq ?_ hrow hanswers).extra
      simp only [hintPartition] at hne hpos
      omega

end Answer

/-! ## A flavor name and an extra of that name -/

/-- A collation of a store whose names are all ASCII. -/
def asciiCollation : Collation where
  isAlphanumeric := isAsciiAlnum
  ascii _ _ := rfl
  typography c hc := by
    have hall : DROPPED_TYPOGRAPHY.all (fun c => !isAsciiAlnum c) = true := by decide +kernel
    simpa using List.all_eq_true.mp hall c hc

def chaosFlavor : NameRow where
  card_name_folded := "order // chaos"
  flavor_name_folded := some "chaos"
  face_flavor_folded := none
  canonical := false
  extra := false
  layout := none
  art_extra h := nomatch h

def chaosCard (extra : Bool) : NameRow where
  card_name_folded := "chaos"
  flavor_name_folded := none
  face_flavor_folded := none
  canonical := true
  extra := extra
  layout := none
  art_extra h := nomatch h

/-- Two partitions: a served row answering to chaos, and an extra of that name. -/
def chaosRows (served : NameRow) (p : ℕ) : List NameRow :=
  if p = 0 then [served] else if p = 1 then [chaosCard true] else []

def chaosFilter (value : UInt8) (features : ℕ) : RoutingFilter.Filter where
  cells := [value, 0, 0]
  cellsAt := 0
  seed := 0
  blockLength := 1
  keyCount := 1
  partitionCount := 2
  nibbles := false
  features := features

def chaosProbe (tier : ℕ) (name : String) (p : ℕ) : ExactNameProbe String :=
  if p = 0 then { pick := ⟨some ⟨tier, name, 1, "", 0⟩, some "served"⟩, present := true }
  else { pick := ⟨some ⟨3, "chaos", 0, "", 0⟩, some "extra"⟩, present := true }

theorem chaosFilter_valueOf (value : UInt8) (features : ℕ) (key : String) :
    (chaosFilter value features).valueOf key = value.toNat := by
  simp [RoutingFilter.Filter.valueOf, RoutingFilter.slotsOf, chaosFilter, Nat.mod_one,
    RoutingFilter.Filter.cellAt, TypedArray.read]

theorem holdsNames_chaos {served : NameRow} {value : UInt8} {features : ℕ}
    (hkeys : asciiCollation.name_routing_keys_of served = ["ns:chaos"])
    (hvalue : (value.toNat : ℤ) = (NameRun.of [(0, nameFlags 's'), (1, nameFlags 'w')]).value 2
      (chaosFilter value features).tiers (chaosFilter value features).pairs) :
    HoldsNames asciiCollation (chaosRows served) (chaosFilter value features) where
  count := (by decide : 2 ≤ RoutingFilter.VALUE_MASK)
  value key hheld := by
    have hextra : asciiCollation.name_routing_keys_of (chaosCard true) = ["nw:chaos"] := by
      decide +kernel
    have hs : RoutingFilter.hashedKey "ns:chaos" = "nm:chaos" := by decide +kernel
    have hw : RoutingFilter.hashedKey "nw:chaos" = "nm:chaos" := by decide +kernel
    have hsflags : RoutingFilter.keyFlags "ns:chaos" = nameFlags 's' := by decide +kernel
    have hwflags : RoutingFilter.keyFlags "nw:chaos" = nameFlags 'w' := by decide +kernel
    have hentries : nameEntries asciiCollation (chaosRows served) 2 key =
        if "nm:chaos" = key then [(0, nameFlags 's'), (1, nameFlags 'w')] else [] := by
      by_cases hkey : "nm:chaos" = key
      · simp [nameEntries, List.range_succ, chaosRows, hkeys, hextra, hs, hw, hkey, hsflags, hwflags]
      · simp [nameEntries, List.range_succ, chaosRows, hkeys, hextra, hs, hw, hkey]
    have hcount : (chaosFilter value features).partitionCount = 2 := rfl
    rw [hcount, hentries] at hheld ⊢
    split_ifs at hheld ⊢ with hkey
    · rw [chaosFilter_valueOf, hvalue]
    · exact absurd rfl hheld

theorem repliesOf_chaos {served : NameRow} {tier : ℕ} {name : String}
    (h : asciiCollation.Answers served "chaos".toList ⟨tier, name, 1, "", 0⟩) :
    RepliesOf asciiCollation (chaosRows served) 2 "chaos" (chaosProbe tier name) := by
  have hneedle : asciiCollation.collate_name "chaos".toList = "chaos".toList := by decide +kernel
  have hextra : asciiCollation.Answers (chaosCard true) "chaos".toList ⟨3, "chaos", 0, "", 0⟩ :=
    .whole rfl rfl hneedle rfl rfl rfl
  have hrow : ∀ p < 2, ∀ r, (chaosProbe tier name p).pick.rank = some r →
      ∃ row ∈ chaosRows served p, asciiCollation.Answers row "chaos".toList r := by
    intro p hp r hr
    have hcases : p = 0 ∨ p = 1 := by omega
    rcases hcases with rfl | rfl
    · cases hr
      exact ⟨served, List.mem_singleton_self _, h⟩
    · cases hr
      exact ⟨_, List.mem_singleton_self _, hextra⟩
  have hranked : ∀ p, ∃ r, (chaosProbe tier name p).pick.rank = some r := by
    intro p
    rw [chaosProbe]
    split_ifs
    · exact ⟨_, rfl⟩
    · exact ⟨_, rfl⟩
  refine ⟨fun p hp r hr => ?_, fun p hp _ => ?_, fun p _ hnone => ?_⟩
  · rw [hneedle]
    exact hrow p hp r hr
  · rw [hneedle]
    obtain ⟨r, hr⟩ := hranked p
    obtain ⟨row, hmem, hanswers⟩ := hrow p hp r hr
    exact ⟨row, hmem, r, hanswers⟩
  · obtain ⟨r, hr⟩ := hranked p
    rw [hnone] at hr
    cases hr

theorem nameHintOf_chaosFilter {value : UInt8} {features : ℕ} {s : ℤ} {rival : Option ℕ}
    (h : ∀ key, (chaosFilter value features).lookupName key = some (.served s rival none))
    (hkeys : features &&& RoutingFilter.ROUTING_FEATURE_NAME_KEYS ≠ 0) :
    nameHintOf (some (chaosFilter value features).routing) "chaos"
      = some (.served s rival (some "chaos")) := by
  have hcollated : collatedName "chaos" = some "chaos" := by decide +kernel
  have hnames : (chaosFilter value features).hasNameKeys = true := by
    rw [RoutingFilter.Filter.hasNameKeys]
    exact decide_eq_true hkeys
  simp [nameHintOf, hcollated, RoutingFilter.Filter.routing, hnames, h]

theorem scryfallExactName_eq_fanOut_chaos :
    scryfallExactName 2 (some (chaosFilter 5 3).routing) (chaosProbe 3 "chaos") "chaos"
      = (bestOfProbes 2 (chaosProbe 3 "chaos")).card := by
  have hneedle : asciiCollation.collate_name "chaos".toList = "chaos".toList := by decide +kernel
  have hholds : HoldsNames asciiCollation (chaosRows (chaosCard false)) (chaosFilter 5 3) :=
    holdsNames_chaos (by decide +kernel) (by decide +kernel)
  have hlookup : ∀ key, (chaosFilter 5 3).lookupName key = some (.served 0 (some 3) none) := by
    intro key
    rw [RoutingFilter.Filter.lookupName, RoutingFilter.Filter.lookupNamePlacement]
    simp only [chaosFilter_valueOf]
    rfl
  have hhint := nameHintOf_chaosFilter hlookup (by decide)
  have hloaded : ∀ filter, some (chaosFilter 5 3) = some filter → filter.partitionCount = 2 ∧
      HoldsNames asciiCollation (chaosRows (chaosCard false)) filter := by
    rintro filter ⟨⟩
    exact ⟨rfl, hholds⟩
  refine (scryfallExactName_eq_fanOut hloaded
    (repliesOf_chaos (.whole rfl rfl hneedle rfl rfl rfl))).2.1 fun hint h => ?_
  cases hhint.symm.trans h.1
  rfl

/-- A filter from before the tiers answers a served card's flavor name, where the
merge of all partitions answers the extra of that name. -/
theorem untiered_name_differs :
    HoldsNames asciiCollation (chaosRows chaosFlavor) (chaosFilter 2 1) ∧
    RepliesOf asciiCollation (chaosRows chaosFlavor) 2 "chaos" (chaosProbe 1 "") ∧
    SettledBy (some (chaosFilter 2 1).routing) (chaosProbe 1 "") "chaos"
      (.served 0 none (some "chaos")) ∧
    (chaosProbe 1 "" 0).pick ≠ bestOfProbes 2 (chaosProbe 1 "") ∧
    scryfallExactName 2 (some (chaosFilter 2 1).routing) (chaosProbe 1 "") "chaos"
      ≠ (bestOfProbes 2 (chaosProbe 1 "")).card := by
  have hlookup : ∀ key, (chaosFilter 2 1).lookupName key = some (.served 0 none none) := by
    intro key
    rw [RoutingFilter.Filter.lookupName, RoutingFilter.Filter.lookupNamePlacement]
    simp only [chaosFilter_valueOf]
    rfl
  have hsettled : SettledBy (some (chaosFilter 2 1).routing) (chaosProbe 1 "") "chaos"
      (.served 0 none (some "chaos")) :=
    ⟨nameHintOf_chaosFilter hlookup (by decide), by decide +kernel⟩
  have hanswers : asciiCollation.Answers chaosFlavor "chaos".toList ⟨1, "", 1, "", 0⟩ :=
    .flavor (Or.inl ⟨"chaos", rfl, by decide, Or.inl (by decide +kernel)⟩) rfl rfl
  refine ⟨holdsNames_chaos (by decide +kernel) (by decide +kernel), repliesOf_chaos hanswers,
    hsettled, by decide +kernel, ?_⟩
  rw [scryfallExactName_of_settled hsettled]
  decide +kernel
