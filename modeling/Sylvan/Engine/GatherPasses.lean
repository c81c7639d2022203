-- SUMMARY: The coordinator's gathers over listed and over named partitions, against its full gather.
import Mathlib.Algebra.Order.Ring.Rat
import Sylvan.Engine.GatherExact
import Sylvan.Engine.GatherPrune

/-!
# The coordinator's pruned gathers

The coordinator asks only the partitions a list of cards or the names index names,
and serves that page when it is of the build the list or the index is of. What it
serves is the page the full gather of that build would.
-/

namespace Gather

open Act

/-! ## The coordinator -/

/-- What the coordinator reads of a manifest. -/
structure StoreManifest where
  storeKey : String
  /-- `String(built_at ?? "")` -/
  builtAt : String
  partitionCount : Option ℕ
  formatVersion : ℕ

def isPartitionedManifest (manifest : StoreManifest) : Bool := manifest.partitionCount.isSome

def manifestServableBy (format : ℕ) (partition : Option ℕ) (manifest : StoreManifest) : Bool :=
  partition.isSome && isPartitionedManifest manifest && decide (manifest.formatVersion = format)

/-- A coordinating object: what it knows, and the calls it makes. -/
structure Coordinator (W : Type) where
  label : String
  /-- `parseEngineName(label)?.partition` -/
  own : Option ℕ
  format : ℕ
  currentManifest : W → Option StoreManifest
  /-- Its own store, loaded. -/
  engine : Act W Unit
  /-- The manifest a publisher pushed into its storage. -/
  readLiveManifest : W → Except String (Option StoreManifest)
  /-- KV's manifest. -/
  readManifest : Act W (Option StoreManifest)
  partitionClients : ℕ → List (PartitionClient W)
  mayBeNameOnly : String → Bool
  /-- The partitions the names index names, JavaScript numbers. -/
  namesSearchPartitions : EngineSearchOptions → String → Act W (Option (List ℚ))
  now : W → ℕ

section

variable {W R : Type} (coordinator : Coordinator W)

def widthOf (manifest : Option StoreManifest) : Option ℕ := manifest.bind StoreManifest.partitionCount

def gatherWidth : Act W ℕ := do
  let w ← read
  match widthOf (coordinator.currentManifest w) with
  | some width => pure width
  | none =>
    let servable := manifestServableBy coordinator.format coordinator.own
    let pushed := ((coordinator.readLiveManifest w).toOption.join).filter servable
    match widthOf pushed with
    | some width => pure width
    | none =>
      let truth ← attempt coordinator.readManifest
      match widthOf (truth.toOption.join.filter servable) with
      | some width => pure width
      | none =>
        -- nothing names a width: load, and ask again
        coordinator.engine
        let w ← read
        match widthOf (coordinator.currentManifest w) with
        | some width => pure width
        | none =>
          let label := coordinator.label
          throw s!"{label} cannot gather: no manifest names a partition count"

/-! ## A list of cards -/

/-- The partitions a router found a list's cards in, and the build it found them in. -/
structure GatherPartitions where
  build : String
  partitions : List ℚ

def ascending : List ℚ → Bool
  | [] => true
  | [p] => p.isInt && decide (0 ≤ p)
  | p :: q :: rest => p.isInt && decide (0 ≤ p) && decide (p < q) && ascending (q :: rest)

def indexOf (p : ℚ) : ℕ := p.num.toNat

variable (codec : RowCodec R) (slack : ℕ → ℕ → ℕ) (sleep : ℕ → W → W)
  (shaping : GatherShaping R)

/-- The page of the listed partitions, and how many they are; none when the list
means nothing here and every partition is to be asked. -/
def gatherListed (list : Option GatherPartitions) (rest : EngineSearchOptions) : Act W (Option (GatheredPage × ℕ)) := do
  match list with
  | none => pure none
  | some list =>
    if list.build = "" ∨ list.partitions = [] ∨ ascending list.partitions = false then pure none
    else
      let w ← read
      if (coordinator.currentManifest w).any fun loaded => loaded.builtAt ≠ list.build then
        pure none
      else
        let width ← gatherWidth coordinator
        if (list.partitions.getLast?.map indexOf).getD 0 ≥ width then pure none
        else
          let clients := coordinator.partitionClients width
          let page ← runTwoPhase codec slack sleep (pick (list.partitions.map indexOf) clients) rest
            shaping
          if page.builtAt ≠ list.build then pure none
          else pure (some (page, list.partitions.length))

/-! ## The names index -/

/-- The page of the partitions the names index names: of none, the empty page. -/
def gatherNamed (namesBuild : Option String) (opts : EngineSearchOptions) : Act W (Option (GatheredPage × ℕ)) := do
  let builtAt := namesBuild.getD ""
  if builtAt = "" ∨ coordinator.mayBeNameOnly opts.filterTreeJson = false then pure none
  else
    let acquireStart := coordinator.now (← read)
    match ← attempt coordinator.engine with
    | .error _ => pure none
    | .ok _ =>
      let acquireMs := coordinator.now (← read) - acquireStart
      let partitions ← coordinator.namesSearchPartitions opts builtAt
      let loaded := coordinator.currentManifest (← read)
      let width := (widthOf loaded).getD 0
      match partitions with
      | none => pure none
      | some partitions =>
        if partitions.any fun p => !p.isInt || decide (p < 0) || decide (indexOf p ≥ width) then
          pure none
        else if partitions = [] then
          pure (some ({
            total := 0, slots := [], acquireMs, widened := opts.includeMultilingual, builtAt }, 0))
        else
          let clients := coordinator.partitionClients width
          let page ← runTwoPhase codec slack sleep (pick (partitions.map indexOf) clients) opts
            shaping
          if page.builtAt ≠ builtAt then pure none
          else pure (some ({ page with acquireMs := max acquireMs page.acquireMs }, partitions.length))

end

/-! ## Ascending indices -/

theorem indexOf_lt {p q : ℚ} (hp : p.isInt) (hq : q.isInt) (hzero : 0 ≤ p) (hlt : p < q) : indexOf p < indexOf q := by
  have hint : ∀ r : ℚ, r.isInt → (r.num : ℚ) = r := by
    intro r hr
    exact (Rat.den_eq_one_iff r).mp (by simpa [Rat.isInt] using hr)
  have hnum : p.num < q.num := by
    rw [← hint p hp, ← hint q hq] at hlt
    exact_mod_cast hlt
  have hpos : 0 ≤ p.num := Rat.num_nonneg.mpr hzero
  rw [indexOf, indexOf]
  omega

theorem ascending_cons {p : ℚ} {rest : List ℚ} (h : ascending (p :: rest) = true) :
    p.isInt ∧ 0 ≤ p ∧ (∀ q ∈ rest.head?, p < q) ∧ ascending rest = true := by
  cases rest with
  | nil => simpa [ascending] using h
  | cons q rest =>
    simp only [ascending, Bool.and_eq_true, decide_eq_true_eq] at h
    obtain ⟨⟨⟨hint, hzero⟩, hlt⟩, hrest⟩ := h
    exact ⟨hint, hzero, by simpa using hlt, hrest⟩

theorem pairwise_of_ascending {l : List ℚ} (h : ascending l = true) : (l.map indexOf).Pairwise (· < ·) := by
  induction l with
  | nil => exact .nil
  | cons p rest ih =>
    obtain ⟨hint, hzero, hlt, hrest⟩ := ascending_cons h
    have hpair := ih hrest
    rw [List.map_cons, List.pairwise_cons]
    refine ⟨?_, hpair⟩
    cases rest with
    | nil => simp
    | cons q rest =>
      obtain ⟨hint', -, -, -⟩ := ascending_cons hrest
      have hfirst : indexOf p < indexOf q := indexOf_lt hint hint' hzero (hlt q rfl)
      intro i hi
      rw [List.map_cons] at hi hpair
      rcases List.mem_cons.mp hi with rfl | hi
      · exact hfirst
      · exact hfirst.trans ((List.pairwise_cons.mp hpair).1 i hi)

theorem indexOf_le_last {l : List ℚ} (h : ascending l = true) :
    ∀ i ∈ l.map indexOf, i ≤ (l.getLast?.map indexOf).getD 0 := by
  rw [← List.getLast?_map]
  have hpair := pairwise_of_ascending h
  generalize l.map indexOf = is at hpair
  intro i hi
  obtain ⟨last, hlast⟩ : ∃ last, is.getLast? = some last :=
    Option.isSome_iff_exists.mp (by simpa using List.ne_nil_of_mem hi)
  rw [hlast]
  obtain ⟨before, rfl⟩ := List.getLast?_eq_some_iff.mp hlast
  rcases List.mem_append.mp hi with hi | hi
  · exact ((List.pairwise_append.mp hpair).2.2 i hi last (by simp)).le
  · exact (List.mem_singleton.mp hi).le

/-! ## What the pruned gathers serve -/

/-- A coordinator whose clients answer for whichever of the releases their
partitions serve when they are asked. -/
structure Serving {W R : Type} (coordinator : Coordinator W) (codec : RowCodec R)
    (shaping : GatherShaping R) (opts : EngineSearchOptions) (releases : Set (Release R)) :
    Prop where
  lawful : codec.Lawful
  width : ∀ width, (coordinator.partitionClients width).length = width
  truthful : ∀ width (p : ℕ) client, (coordinator.partitionClients width)[p]? = some client →
    Truthful codec shaping False releases opts client p
  stamped : ∀ r ∈ releases, ∀ part ∈ r.parts, builtAtOfStoreKey part.storeKey = .ok r.build.builtAt
  unique : ∀ r ∈ releases, ∀ r' ∈ releases, r.build.builtAt = r'.build.builtAt → r = r'

/-- The names index's answer for a name query, of the build it is of: in ascending
order, every partition that holds a row; such a query widens only when told to. -/
structure Named {R : Type} (opts : EngineSearchOptions) (r : Release R) (named : List ℚ) :
    Prop where
  ascending : Gather.ascending named = true
  rest : Rest (named.map indexOf) r.parts Partition.Bare
  widened : r.build.widened = opts.includeMultilingual

def NamesHold {W R : Type} (coordinator : Coordinator W) (opts : EngineSearchOptions)
    (r : Release R) : Prop :=
  ∀ w named w', coordinator.namesSearchPartitions opts r.build.builtAt w = (.ok (some named), w') → Named opts r named

namespace Serving

variable {W R : Type} {coordinator : Coordinator W} {codec : RowCodec R}
  {shaping : GatherShaping R} {opts : EngineSearchOptions} {releases : Set (Release R)}
  (h : Serving coordinator codec shaping opts releases)

include h

/-- The clients of the partitions `kept`, as a crew that may fail. -/
def crew {width : ℕ} {kept : List ℕ} (hwithin : ∀ p ∈ kept, p < width) (hsome : kept ≠ []) : Crew W R where
  strict := False
  opts := opts
  codec := codec
  shaping := shaping
  releases := releases
  members := numbered (coordinator.partitionClients width) kept
  nonempty := numbered_ne_nil (fun p hp => (h.width width).symm ▸ hwithin p hp) hsome
  lawful := h.lawful
  truthful m hm := h.truthful width m.2 m.1 (mem_numbered.mp hm).2
  stamped := h.stamped
  unique := h.unique
  alone := False.elim

variable (slack : ℕ → ℕ → ℕ) (sleep : ℕ → W → W)

/-- A gather over ascending partitions that returns a page of a build whose other
partitions are bare returns that build's page. -/
theorem yields_pick {width : ℕ} {kept : List ℕ} (hascending : kept.Pairwise (· < ·))
    (hwithin : ∀ p ∈ kept, p < width) (hsome : kept ≠ []) :
    Yields False (runTwoPhase codec slack sleep
      (pick kept (coordinator.partitionClients width)) opts shaping) fun page =>
        ∀ r ∈ releases, page.builtAt = r.build.builtAt → Rest kept r.parts Partition.Bare →
          Tells codec shaping opts r.build r.parts page := by
  have hclients : ∀ p ∈ kept, p < (coordinator.partitionClients width).length :=
    fun p hp => (h.width width).symm ▸ hwithin p hp
  rw [← clients_numbered]
  refine ((h.crew hwithin hsome).yields_runTwoPhase slack sleep).imp ?_
  rintro page ⟨r', hr', hbelow, htells⟩ r hr hbuilt hrest
  obtain rfl : r' = r := h.unique r' hr' r hr (htells.builtAt.symm.trans hbuilt)
  have hparts : (h.crew hwithin hsome).partsOf r' = pick kept r'.parts :=
    parts_numbered r'.parts hclients
  rw [hparts] at htells
  refine Covers.tells_pick ⟨⟨hascending, fun p hp => ?_⟩, hrest⟩ |>.mp htells
  have hmem : ((coordinator.partitionClients width).get ⟨p, hclients p hp⟩, p) ∈
      numbered (coordinator.partitionClients width) kept :=
    mem_numbered.mpr ⟨hp, List.getElem?_eq_getElem (hclients p hp)⟩
  exact hbelow _ hmem

theorem gatherListed_tells {list : GatherPartitions} {r : Release R} (hr : r ∈ releases)
    (hbuilt : list.build = r.build.builtAt)
    (hrest : Rest (list.partitions.map indexOf) r.parts Partition.Bare) :
    Yields False (gatherListed coordinator codec slack sleep shaping (some list) opts)
      fun served => ∀ page gathered, served = some (page, gathered) → Tells codec shaping opts r.build r.parts page := by
  have hnone : Yields False (pure none : Act W (Option (GatheredPage × ℕ))) fun served =>
      ∀ page gathered, served = some (page, gathered) → Tells codec shaping opts r.build r.parts page := .ret (by simp)
  unfold gatherListed
  dsimp only
  split
  · exact hnone
  · rename_i hlist
    simp only [not_or, Bool.not_eq_false] at hlist
    obtain ⟨-, hsome, hascending⟩ := hlist
    refine (Yields.any not_false).bind fun w _ => ?_
    split
    · exact hnone
    · refine (Yields.any not_false).bind fun width _ => ?_
      split
      · exact hnone
      · rename_i hlast
        have hwithin : ∀ i ∈ list.partitions.map indexOf, i < width := by
          intro i hi
          exact (indexOf_le_last hascending i hi).trans_lt (not_le.mp hlast)
        refine (h.yields_pick slack sleep (pairwise_of_ascending hascending) hwithin
          (by simpa using hsome)).bind fun page hpage => ?_
        split
        · exact hnone
        · rename_i hsame
          refine .ret ?_
          rintro _ _ ⟨⟩
          exact hpage r hr ((not_not.mp hsame).trans hbuilt) hrest

theorem gatherNamed_tells {namesBuild : Option String} {r : Release R} (hr : r ∈ releases)
    (hbuilt : namesBuild = some r.build.builtAt) (hnames : NamesHold coordinator opts r) :
    Yields False (gatherNamed coordinator codec slack sleep shaping namesBuild opts)
      fun served => ∀ page gathered, served = some (page, gathered) → Tells codec shaping opts r.build r.parts page := by
  have hnone : Yields False (pure none : Act W (Option (GatheredPage × ℕ))) fun served =>
      ∀ page gathered, served = some (page, gathered) → Tells codec shaping opts r.build r.parts page := .ret (by simp)
  subst hbuilt
  unfold gatherNamed
  dsimp only [Option.getD_some]
  split
  · exact hnone
  · refine (Yields.any not_false).bind fun w _ => ?_
    refine (Yields.any not_false).bind fun acquired _ => ?_
    cases acquired with
    | error e => exact hnone
    | ok _ =>
      refine (Yields.any not_false).bind fun w' _ => ?_
      have hnamed : Yields False
          (coordinator.namesSearchPartitions opts r.build.builtAt) fun answer =>
            ∀ named, answer = some named → Named opts r named := by
        intro v
        rcases hanswer : coordinator.namesSearchPartitions opts r.build.builtAt v with
          ⟨e | answer, v'⟩
        · exact .inr ⟨not_false, e, v', rfl⟩
        · refine .inl ⟨answer, v', rfl, ?_⟩
          rintro named rfl
          exact hnames v named v' hanswer
      refine hnamed.bind fun answer hanswer => ?_
      refine (Yields.any not_false).bind fun loaded _ => ?_
      cases answer with
      | none => exact hnone
      | some named =>
        have hof := hanswer named rfl
        dsimp only
        split
        · exact hnone
        · rename_i hall
          split
          · -- no partition holds a row, so the whole page has none
            rename_i hempty
            refine .ret ?_
            rintro _ _ ⟨⟩
            have hcovers : Covers [] r.parts :=
              ⟨⟨.nil, by simp⟩, by simpa [hempty] using hof.rest⟩
            have hcut : cutOf (pick [] r.parts) opts = [] :=
              Crew.cutOf_past (Nat.zero_le _)
            refine hcovers.tells_pick.mp {
              slots := ?_, total := rfl, widened := hof.widened.symm, builtAt := rfl }
            rw [hcut, List.map_nil]
          · rename_i hsome
            have hwithin : ∀ i ∈ named.map indexOf, i < (widthOf (coordinator.currentManifest loaded)).getD 0 := by
              intro i hi
              obtain ⟨p, hp, rfl⟩ := List.mem_map.mp hi
              have hnot := List.any_eq_false.mp (Bool.not_eq_true _ ▸ hall) p hp
              simp only [Bool.or_eq_true, decide_eq_true_eq, not_or] at hnot
              exact not_le.mp hnot.2
            refine (h.yields_pick slack sleep (pairwise_of_ascending hof.ascending) hwithin
              (by simpa using hsome)).bind fun page hpage => ?_
            split
            · exact hnone
            · rename_i hsame
              refine .ret ?_
              rintro _ _ ⟨⟩
              have htells := hpage r hr (not_not.mp hsame) hof.rest
              exact { htells with }

end Serving

/-- **A pruned gather serves the full gather's page.** Over any of a build's
partitions that include every one holding a row or a candidate, a gather serves what
the gather over all of them does; and a page of the listed or the named partitions
is the full gather's of that build, whatever builds the partitions serve meanwhile. -/
theorem pruned_gather_full {V W R : Type} (roster : Roster W R) (slack : ℕ → ℕ → ℕ)
    (sleep : ℕ → W → W) :
    (∀ kept, Covers kept roster.release.parts → kept ≠ [] → ∀ w w', ∃ page v page' v',
      runTwoPhase roster.codec slack sleep (pick kept roster.clients) roster.opts roster.shaping w =
          (.ok page, v) ∧
        runTwoPhase roster.codec slack sleep roster.clients roster.opts roster.shaping w' =
          (.ok page', v') ∧ page.Same page') ∧
      ∀ (releases : Set (Release R)) (coordinator : Coordinator V) (pause : ℕ → V → V),
        roster.release ∈ releases →
        Serving coordinator roster.codec roster.shaping roster.opts releases →
        (∀ list v page gathered v', list.build = roster.release.build.builtAt →
          Rest (list.partitions.map indexOf) roster.release.parts Partition.Bare →
          gatherListed coordinator roster.codec slack pause roster.shaping (some list) roster.opts v =
            (.ok (some (page, gathered)), v') →
          Serves (runTwoPhase roster.codec slack sleep roster.clients roster.opts
            roster.shaping) page.Same) ∧
        ∀ v page gathered v', NamesHold coordinator roster.opts roster.release →
          gatherNamed coordinator roster.codec slack pause roster.shaping
              (some roster.release.build.builtAt) roster.opts v =
            (.ok (some (page, gathered)), v') →
          Serves (runTwoPhase roster.codec slack sleep roster.clients roster.opts
            roster.shaping) page.Same := by
  have hfull := roster.serves_all slack sleep
  refine ⟨fun kept hcovers hsome w w' => ?_, fun releases coordinator pause hr serving => ⟨?_, ?_⟩⟩
  · obtain ⟨page, v, hpage, htells⟩ := roster.serves_pick slack sleep hcovers hsome w
    obtain ⟨page', v', hpage', htells'⟩ := hfull w'
    exact ⟨page, v, page', v', hpage, hpage', htells.same htells'⟩
  · intro list v page gathered v' hbuilt hrest hrun
    rcases serving.gatherListed_tells slack pause hr hbuilt hrest v with
      ⟨served, v'', hserved, htells⟩ | ⟨-, e, v'', herror⟩
    · rw [hrun] at hserved
      cases hserved
      exact hfull.imp fun page' htells' => (htells page gathered rfl).same htells'
    · rw [hrun] at herror
      cases herror
  · intro v page gathered v' hnames hrun
    rcases serving.gatherNamed_tells slack pause hr rfl hnames v with
      ⟨served, v'', hserved, htells⟩ | ⟨-, e, v'', herror⟩
    · rw [hrun] at hserved
      cases hserved
      exact hfull.imp fun page' htells' => (htells page gathered rfl).same htells'
    · rw [hrun] at herror
      cases herror

/-! ## Three partitions, the middle one bare -/

section Sample

def bareBit : Partition Bool where
  entries := []
  artless := none
  shared := none
  row _ := false
  storeKey := "cards-v1-5-p1.store"

theorem bareBit_bare : bareBit.Bare := ⟨rfl, rfl, rfl⟩

theorem bareBit_reads : ∀ shape ∈ [RowShape.columns, .rows], ∀ bound, ReadsBack (bitPacket bareBit shape bound) := by
  intro shape hshape bound
  rw [bitPacket_min]
  have hzero : min bound bareBit.entries.length = 0 := Nat.min_zero _
  rw [hzero]
  simp only [List.mem_cons, List.not_mem_nil, or_false] at hshape
  rcases hshape with rfl | rfl <;> exact ⟨_, rfl, rfl⟩

def bareRoster : Roster Unit Bool where
  opts := bitOpts
  codec := bitCodec
  shaping := bitShaping
  release := { build := bitBuild, parts := [bareBit] }
  clients := [bitClient bareBit true]
  nonempty := by simp
  lawful := bitCodec_lawful
  honest := .cons (bitClient_honest true bareBit_reads) .nil
  stamped part hpart := by
    rw [List.mem_singleton.mp hpart]
    decide +kernel

/-- A gather over no partition has no reply to read an encoding off. -/
theorem empty_gather_throws : Covers [] bareRoster.release.parts ∧
    (runTwoPhase bitCodec (fun _ _ => 4) (fun _ w => w) (pick [] bareRoster.clients) bitOpts
      bitShaping ()).1 = .error "TypeError" ∧
    ∃ page, (runTwoPhase bitCodec (fun _ _ => 4) (fun _ w => w) bareRoster.clients bitOpts
      bitShaping ()).1 = .ok page ∧ page.total = 0 := by
  refine ⟨⟨⟨.nil, by simp⟩, ?_⟩, rfl, ?_⟩
  · intro p _ part hpart
    have hmem := List.mem_of_getElem? hpart
    rw [List.mem_singleton.mp hmem]
    exact bareBit_bare
  · obtain ⟨page, w, hrun, htells⟩ := bareRoster.serves_all (fun _ _ => 4) (fun _ w => w) ()
    exact ⟨page, congrArg Prod.fst hrun, htells.total⟩

/-- Two partitions, and one on a build that refuses columns between them. -/
def threeRelease : Release Bool := { build := bitBuild, parts := [bitPart0, bareBit, bitPart1] }

def threeClients : List (PartitionClient Unit) :=
  [bitClient bitPart0 true, bitClient bareBit true, bitClient bitPart1 false]

theorem threeRelease_ne_nil : threeRelease.parts ≠ [] := List.cons_ne_nil _ _

theorem threeClients_honest :
    List.Forall₂ (Honest bitCodec bitShaping threeRelease.build bitOpts) threeClients threeRelease.parts :=
  .cons (bitClient_honest true bitPart0_reads)
    (.cons (bitClient_honest true bareBit_reads) (.cons (bitClient_honest false bitPart1_reads) .nil))

theorem threeRelease_stamped :
    ∀ part ∈ threeRelease.parts, builtAtOfStoreKey part.storeKey = .ok threeRelease.build.builtAt := by
  intro part hpart
  simp only [threeRelease, List.mem_cons, List.not_mem_nil, or_false] at hpart
  rcases hpart with rfl | rfl | rfl <;> decide +kernel

def threeRoster : Roster Unit Bool where
  opts := bitOpts
  codec := bitCodec
  shaping := bitShaping
  release := threeRelease
  clients := threeClients
  nonempty := threeRelease_ne_nil
  lawful := bitCodec_lawful
  honest := threeClients_honest
  stamped := threeRelease_stamped

theorem threeRoster_rest : Rest [0, 2] threeRoster.release.parts Partition.Bare := by
  intro p hp part hpart
  match p with
  | 1 =>
    obtain rfl := Option.some.inj hpart
    exact bareBit_bare
  | 0 | 2 => exact (hp (by simp)).elim
  | _ + 3 => cases hpart

/-- An object past the partitions, which answers nothing. -/
def deafClient : PartitionClient Unit where
  searchKeys _ _ _ := throw "unreachable"
  fetchRows _ _ _ _ := throw "unreachable"
  refresh := none

def bitCoordinator : Coordinator Unit where
  label := "engine"
  own := some 0
  format := 1
  currentManifest _ := some {
    storeKey := "cards-v1-5.store", builtAt := "5", partitionCount := some 3, formatVersion := 1 }
  engine := pure ()
  readLiveManifest _ := .ok none
  readManifest := pure none
  partitionClients width := (List.range width).map fun p => threeRoster.clients.getD p deafClient
  mayBeNameOnly _ := true
  namesSearchPartitions _ _ := pure (some [0, 2])
  now _ := 0

theorem bitCoordinator_serving : Serving bitCoordinator bitCodec bitShaping bitOpts {threeRoster.release} where
  lawful := bitCodec_lawful
  width width := by simp [bitCoordinator]
  truthful width p client hclient := by
    have hof : client = threeRoster.clients.getD p deafClient := by
      simp only [bitCoordinator, List.getElem?_map, Option.map_eq_some_iff] at hclient
      obtain ⟨q, hq, rfl⟩ := hclient
      rw [(List.getElem?_eq_some_iff.mp hq).2.symm, List.getElem_range]
    by_cases hp : p < 3
    · have hwithin : ∀ q ∈ [p], q < threeRoster.release.parts.length := by
        intro q hq
        rw [List.mem_singleton.mp hq]
        exact hp
      have hmem : (client, p) ∈ numbered threeRoster.clients [p] := by
        refine mem_numbered.mpr ⟨by simp, ?_⟩
        have hclients : p < threeRoster.clients.length := hp
        rw [hof, List.getD_eq_getElem?_getD, List.getElem?_eq_getElem hclients]
        rfl
      have htruthful := (threeRoster.crew [p] hwithin (by simp)).truthful _ hmem
      exact ⟨fun bound inlineRows asked hasked => (htruthful.keys bound inlineRows asked hasked).loose,
        fun r hr part hpart vpids fields hlimit howned asked hasked =>
          (htruthful.rows r hr part hpart vpids fields hlimit howned asked hasked).loose⟩
    · have hdeaf : client = deafClient := by
        rw [hof, List.getD_eq_getElem?_getD, List.getElem?_eq_none (not_lt.mp hp)]
        rfl
      subst hdeaf
      exact ⟨fun _ _ _ _ w => .inr ⟨_, w, rfl, False.elim⟩, fun _ _ _ _ _ _ _ _ _ _ w => .inr ⟨_, w, rfl, False.elim⟩⟩
  stamped := by
    rintro r rfl
    exact threeRoster.stamped
  unique := by
    rintro r rfl r' rfl _
    rfl

def served (run : Except String (Option (GatheredPage × ℕ)) × Unit) : Bool :=
  match run.1 with
  | .ok (some _) => true
  | _ => false

theorem exists_of_served {run : Except String (Option (GatheredPage × ℕ)) × Unit}
    (h : served run = true) : ∃ page gathered v, run = (.ok (some (page, gathered)), v) := by
  obtain ⟨e | (_ | ⟨page, gathered⟩), v⟩ := run
  · cases h
  · cases h
  · exact ⟨page, gathered, v, rfl⟩

/-- The first and the third of three partitions, listed, named or just asked. -/
theorem pruned_gather_bits :
    (∃ page v page' v', runTwoPhase bitCodec (fun _ _ => 4) (fun _ w => w)
          (pick [0, 2] threeRoster.clients) bitOpts bitShaping () = (.ok page, v) ∧
        runTwoPhase bitCodec (fun _ _ => 4) (fun _ w => w) threeRoster.clients bitOpts bitShaping () =
          (.ok page', v') ∧ page.Same page') ∧
      (∃ page gathered v, gatherListed bitCoordinator bitCodec (fun _ _ => 4) (fun _ w => w)
          bitShaping (some { build := "5", partitions := [0, 2] }) bitOpts () =
            (.ok (some (page, gathered)), v) ∧
        Serves (runTwoPhase bitCodec (fun _ _ => 4) (fun _ w => w) threeRoster.clients bitOpts
          bitShaping) page.Same) ∧
      ∃ page gathered v, gatherNamed bitCoordinator bitCodec (fun _ _ => 4) (fun _ w => w)
          bitShaping (some "5") bitOpts () = (.ok (some (page, gathered)), v) ∧
        Serves (runTwoPhase bitCodec (fun _ _ => 4) (fun _ w => w) threeRoster.clients bitOpts
          bitShaping) page.Same := by
  obtain ⟨hpick, hcoordinated⟩ := pruned_gather_full threeRoster (fun _ _ => 4) fun _ w => w
  obtain ⟨hlisted, hnamed⟩ := hcoordinated {threeRoster.release} bitCoordinator (fun _ w => w) rfl
    bitCoordinator_serving
  refine ⟨hpick [0, 2] ⟨⟨by simp, by decide⟩, threeRoster_rest⟩ (by simp) () (), ?_, ?_⟩
  · obtain ⟨page, gathered, v, hrun⟩ := exists_of_served
      (show served (gatherListed bitCoordinator bitCodec (fun _ _ => 4) (fun _ w => w) bitShaping
        (some { build := "5", partitions := [0, 2] }) bitOpts ()) = true by decide +kernel)
    exact ⟨page, gathered, v, hrun, hlisted { build := "5", partitions := [0, 2] } () page gathered v
      rfl threeRoster_rest hrun⟩
  · obtain ⟨page, gathered, v, hrun⟩ := exists_of_served
      (show served (gatherNamed bitCoordinator bitCodec (fun _ _ => 4) (fun _ w => w) bitShaping
        (some "5") bitOpts ()) = true by decide +kernel)
    refine ⟨page, gathered, v, hrun, hnamed () page gathered v ?_ hrun⟩
    rintro w named w' hanswer
    cases hanswer
    exact ⟨rfl, threeRoster_rest, rfl⟩

end Sample

end Gather
