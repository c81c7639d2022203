-- SUMMARY: A full gather beside the swaps of its region's stores: the width it asks at, the check, the run it repeats.
import Sylvan.Data.Runs
import Sylvan.Engine.GatherTells

/-!
# The width of a full gather

The coordinator asks as many partitions as a manifest names, before its own store is
loaded. When the page is in, it compares the count with the store it holds by then and
asks once more at that width when the two differ. Stores are installed and dropped
meanwhile, on every object of the region.
-/

namespace GatherWidth

open Gather Throws
open Function (update update_apply update_of_ne update_self)

/-! ## The region and the gather -/

/-- A published build: each partition's archive, and how many partitions it is cut in. -/
structure Published where
  storeKey : ℕ → String
  partitionCount : ℕ

/-- The builds ever published, which their keys tell apart, the coordinator's
partition, and whether the request's page is deep enough to be probed. -/
structure World where
  build : ℕ → Published
  own : ℕ
  deep : Bool
  told : ∀ {b b' p p' : ℕ} {stamp : String}, builtAtOfStoreKey ((build b).storeKey p) = .ok stamp →
    builtAtOfStoreKey ((build b').storeKey p') = .ok stamp → b = b'

inductive Round where
  | first
  | reissued
  | refreshed
  deriving DecidableEq

structure Pass where
  /-- The run at the loaded width, after the check. -/
  again : Bool
  /-- One key each, for the total. -/
  probe : Bool
  width : ℕ
  round : Round
  /-- The build each partition last answered from. -/
  replies : ℕ → Option ℕ
  pending : List ℕ

structure Page where
  width : ℕ
  /-- The build each partition's keys are of. -/
  keys : ℕ → Option ℕ
  /-- Partitions that rows were fetched from, and the builds of those rows. -/
  rows : List (ℕ × ℕ)

inductive Stage where
  /-- `gatherWidth` -/
  | width
  /-- phase-1 replies outstanding -/
  | asking (pass : Pass)
  /-- the probe's replies are in, of one build -/
  | probed (pass : Pass)
  /-- phase 2 -/
  | rows (pass : Pass) (fetched : List (ℕ × ℕ))
  /-- the first run's page, before the coordinator's own store is waited for -/
  | engine (page : Page)
  | served (page : Page)
  | failed

structure State where
  /-- The build each object of the region holds. -/
  held : ℕ → Option ℕ
  /-- The neighbour region's objects, which a late sibling's call is also sent to. -/
  away : ℕ → Option ℕ
  stage : Stage

inductive Event where
  /-- A swap, a wake or a refresh: object `p` now serves build `b`. -/
  | install (p b : ℕ)
  /-- Object `p` goes cold. -/
  | evict (p : ℕ)
  | installAway (p b : ℕ)
  | evictAway (p : ℕ)
  /-- `gatherWidth` returns. -/
  | start (width : ℕ)
  /-- Partition `p` answers phase 1, from this region or from the neighbour. -/
  | answer (p : ℕ) (home : Bool)
  /-- Every reply is in. -/
  | pinned
  /-- The probe's total is at or before the offset. -/
  | past
  /-- The probe's total is past the offset. -/
  | deeper
  /-- Partition `p` answers phase 2. -/
  | fetch (p : ℕ) (home : Bool)
  | assembled
  /-- The coordinator's own store is loaded; the widths are compared. -/
  | loaded
  /-- A call throws. -/
  | throws

variable (W : World)

def countOf (b : ℕ) : ℕ := (W.build b).partitionCount

def askAll (again probe : Bool) (width : ℕ) : Stage :=
  .asking {
    again, probe, width, round := .first, replies := fun _ => none, pending := List.range width }

/-- The width the coordinator may read: its own store's when it has one; when it is
cold, that of a pushed record or of KV's manifest, either of them a build behind. -/
def mayRead (s : State) (width : ℕ) : Bool :=
  match s.held W.own with
  | some b => width = countOf W b
  | none => true

/-- The copy of partition `p` that answers; the coordinator answers for its own itself. -/
def copyOf (s : State) (p : ℕ) (home : Bool) : Option ℕ :=
  if home ∨ p = W.own then s.held p else s.away p

def generationsOf (pass : Pass) : List GenerationReply :=
  (List.range pass.width).map fun p => {
    partition := p
    storeKey := ((pass.replies p).map fun b => (W.build b).storeKey p).getD "" }

def pin (pass : Pass) : Stage :=
  match pinGeneration (generationsOf W pass) with
  | .error _ => .failed
  | .ok pin =>
    if pin.stragglers = [] then
      if pass.probe then .probed pass
      -- the version gate reads the first reply
      else if pass.width = 0 then .failed
      else .rows pass []
    else
      match pass.round with
      | .first => .asking { pass with round := .reissued, pending := pin.stragglers }
      | .reissued => .asking { pass with round := .refreshed, pending := pin.stragglers }
      | .refreshed => .failed

def close (pass : Pass) (fetched : List (ℕ × ℕ)) : Stage :=
  let page : Page := { width := pass.width, keys := pass.replies, rows := fetched }
  if pass.again then .served page else .engine page

def check (s : State) (page : Page) : Stage :=
  match s.held W.own with
  | none => .failed
  | some b => if countOf W b ≠ page.width then askAll true W.deep (countOf W b) else .served page

/-- Partition `p`'s reply, when it is asked and holds a store. -/
def answer (s : State) (pass : Pass) (p : ℕ) (home : Bool) : Stage :=
  if p ∈ pass.pending then
    match copyOf W s p home with
    | some b => .asking { pass with
        replies := update pass.replies p (some b), pending := pass.pending.erase p }
    | none => s.stage
  else s.stage

/-- Partition `p`'s rows, from the archive its reply named or from none. -/
def fetch (s : State) (pass : Pass) (fetched : List (ℕ × ℕ)) (p : ℕ) (home : Bool) : Stage :=
  match pass.replies p, copyOf W s p home with
  | some asked, some b =>
    if p < pass.width ∧ asked = b then .rows pass (fetched ++ [(p, b)]) else .failed
  | _, _ => .failed

def step (s : State) (event : Event) : State :=
  match event with
  | .install p b =>
    -- a manifest without a record of partition `p` is refused
    if p < countOf W b then { s with held := update s.held p (some b) } else s
  | .evict p => { s with held := update s.held p none }
  | .installAway p b =>
    if p < countOf W b then { s with away := update s.away p (some b) } else s
  | .evictAway p => { s with away := update s.away p none }
  | .start width =>
    match s.stage with
    | .width => if mayRead W s width then { s with stage := askAll false W.deep width } else s
    | _ => s
  | .answer p home =>
    match s.stage with
    | .asking pass => { s with stage := answer W s pass p home }
    | _ => s
  | .pinned =>
    match s.stage with
    | .asking pass => if pass.pending = [] then { s with stage := pin W pass } else s
    | _ => s
  | .past =>
    match s.stage with
    | .probed pass => { s with stage := close pass [] }
    | _ => s
  | .deeper =>
    match s.stage with
    | .probed pass => { s with stage := askAll pass.again false pass.width }
    | _ => s
  | .fetch p home =>
    match s.stage with
    | .rows pass fetched => { s with stage := fetch W s pass fetched p home }
    | _ => s
  | .assembled =>
    match s.stage with
    | .rows pass fetched => { s with stage := close pass fetched }
    | _ => s
  | .loaded =>
    match s.stage with
    | .engine page => { s with stage := check W s page }
    | _ => s
  | .throws =>
    match s.stage with
    | .served _ => s
    | _ => { s with stage := .failed }

/-- No gather yet, and whatever stores the region holds. -/
structure Start (s : State) : Prop where
  stage : s.stage = .width
  held : ∀ p b, s.held p = some b → p < countOf W b

/-! ## What a page may be served from -/

/-- Every key and row answered by partitions `0 … width - 1` of one build, which is cut
in that many. -/
def Page.Whole (page : Page) : Prop :=
  ∃ b, countOf W b = page.width ∧ (∀ p < page.width, page.keys p = some b) ∧
    ∀ row ∈ page.rows, row.1 < page.width ∧ row.2 = b

/-- The partition count the coordinator's store must keep for the check to mean
something: in the first run that of its own reply, while the reply stands; in the
repeated one the width it is asked at, until phase 1 is over. -/
def reference (s : State) : Option ℕ :=
  match s.stage with
  | .asking pass =>
    if pass.again then some pass.width
    else if W.own ∈ pass.pending then none
    else (pass.replies W.own).map (countOf W)
  | .probed pass => if pass.again then some pass.width else (pass.replies W.own).map (countOf W)
  | .rows pass _ => if pass.again then none else (pass.replies W.own).map (countOf W)
  | .engine page => (page.keys W.own).map (countOf W)
  | _ => none

/-- The coordinator installs no store of another partition count meanwhile. -/
def Steady (s : State) : Event → Prop
  | .install p b => p = W.own → ∀ n, reference W s = some n → countOf W b = n
  | _ => True

instance (s : State) : (event : Event) → Decidable (Steady W s event)
  | .install p b =>
    if hp : p = W.own then
      match href : reference W s with
      | none => .isTrue fun _ n hn => by rw [href] at hn; cases hn
      | some n =>
        if hn : countOf W b = n then
          .isTrue fun _ n' hn' => by rw [href] at hn'; exact hn.trans (Option.some.inj hn')
        else .isFalse fun h => hn (h hp n href)
    else .isTrue fun h => (hp h).elim
  | .evict _ | .installAway _ _ | .evictAway _ | .start _ | .answer _ _ | .pinned | .past | .deeper
  | .fetch _ _ | .assembled | .loaded | .throws => .isTrue trivial

/-! ## What every event keeps -/

def One (pass : Pass) : Prop := ∃ b, ∀ p < pass.width, pass.replies p = some b

/-- The repeated run asks the coordinator, and hears of a build of its width from it. -/
def Again (pass : Pass) : Prop :=
  pass.again = true → W.own < pass.width ∧ ∀ b, pass.replies W.own = some b → countOf W b = pass.width

def Rows (pass : Pass) (fetched : List (ℕ × ℕ)) : Prop :=
  ∀ row ∈ fetched, row.1 < pass.width ∧ pass.replies row.1 = some row.2

def Stands (stage : Stage) : Prop :=
  match stage with
  | .asking pass =>
    Again W pass ∧ ∀ p < pass.width, p ∈ pass.pending ∨ ∃ b, pass.replies p = some b
  | .probed pass => Again W pass ∧ One pass
  | .rows pass fetched => Again W pass ∧ One pass ∧ Rows pass fetched
  | .engine page => ∃ b, (∀ p < page.width, page.keys p = some b) ∧
      ∀ row ∈ page.rows, row.1 < page.width ∧ row.2 = b
  | .served page => page.Whole W
  | _ => True

structure Sound (s : State) : Prop where
  held : ∀ p b, s.held p = some b → p < countOf W b
  kept : ∀ n b, reference W s = some n → s.held W.own = some b → countOf W b = n
  stands : Stands W s.stage

section

variable {W} {s : State}

theorem Start.sound (h : Start W s) : Sound W s where
  held := h.held
  kept n b hn := by
    rw [reference, h.stage] at hn
    cases hn
  stands := by
    rw [h.stage]
    trivial

theorem Sound.goto (h : Sound W s) {stage : Stage} (hstands : Stands W stage)
    (hkept : ∀ n, reference W { s with stage } = some n → reference W s = some n ∨
      ∀ b, s.held W.own = some b → countOf W b = n) : Sound W { s with stage } where
  held := h.held
  kept n b hn hb := by
    rcases hkept n hn with hsame | hall
    · exact h.kept n b hsame hb
    · exact hall b hb
  stands := hstands

theorem Sound.install (h : Sound W s) {p b : ℕ} (hp : p < countOf W b)
    (hsteady : Steady W s (.install p b)) :
    Sound W { s with held := update s.held p (some b) } where
  held q b' hq := by
    dsimp only at hq
    rw [update_apply] at hq
    split at hq
    · rename_i hsame
      obtain rfl := Option.some.inj hq
      exact hsame ▸ hp
    · exact h.held q b' hq
  kept n b' hn hb' := by
    dsimp only at hb'
    rw [update_apply] at hb'
    split at hb'
    · rename_i hown
      obtain rfl := Option.some.inj hb'
      exact hsteady hown.symm n hn
    · exact h.kept n b' hn hb'
  stands := h.stands

theorem Sound.evict (h : Sound W s) (p : ℕ) : Sound W { s with held := update s.held p none } where
  held q b hq := by
    dsimp only at hq
    rw [update_apply] at hq
    split at hq
    · cases hq
    · exact h.held q b hq
  kept n b hn hb := by
    dsimp only at hb
    rw [update_apply] at hb
    split at hb
    · cases hb
    · exact h.kept n b hn hb
  stands := h.stands

theorem Sound.askAll (h : Sound W s) {again probe : Bool} {width : ℕ}
    (hagain : again = true → W.own < width ∧ ∀ b, s.held W.own = some b → countOf W b = width) :
    Sound W { s with stage := askAll again probe width } := by
  refine h.goto ⟨fun ha => ⟨(hagain ha).1, by simp⟩, fun p hp => .inl (List.mem_range.mpr hp)⟩ ?_
  intro n hn
  simp only [reference, GatherWidth.askAll] at hn
  cases again with
  | true => exact .inr fun b hb => Option.some.inj hn ▸ (hagain rfl).2 b hb
  | false =>
    rw [if_neg (by decide)] at hn
    split at hn
    · cases hn
    · cases hn

theorem Sound.answer (h : Sound W s) {pass : Pass} (hstage : s.stage = .asking pass) (p : ℕ)
    (home : Bool) : Sound W { s with stage := answer W s pass p home } := by
  have hstands := h.stands
  rw [hstage] at hstands
  obtain ⟨hagain, hall⟩ := hstands
  have hsame : Sound W { s with stage := s.stage } := h
  unfold GatherWidth.answer
  split
  · rename_i hpending
    cases hcopy : copyOf W s p home with
    | none => exact hsame
    | some b =>
      have hown : p = W.own → s.held W.own = some b := by
        intro hp
        rw [copyOf, if_pos (.inr hp), hp] at hcopy
        exact hcopy
      refine h.goto ⟨fun ha => ⟨(hagain ha).1, fun b' hb' => ?_⟩, fun q hq => ?_⟩ fun n hn => ?_
      · dsimp only at hb' ⊢
        by_cases hp : W.own = p
        · subst hp
          rw [update_self] at hb'
          obtain rfl := Option.some.inj hb'
          refine h.kept pass.width b ?_ (hown rfl)
          rw [reference, hstage]
          exact if_pos ha
        · rw [update_of_ne hp] at hb'
          exact (hagain ha).2 b' hb'
      · by_cases hqp : q = p
        · exact .inr ⟨b, by rw [hqp]; exact update_self _ _ _⟩
        · rcases hall q hq with hmem | ⟨b', hb'⟩
          · exact .inl ((List.mem_erase_of_ne hqp).mpr hmem)
          · exact .inr ⟨b', by rw [← hb']; exact update_of_ne hqp _ _⟩
      · simp only [reference] at hn
        rw [reference, hstage]
        dsimp only
        split at hn
        · rename_i ha
          exact .inl ((if_pos ha).trans hn)
        · rename_i hfirst
          rw [if_neg hfirst]
          split at hn
          · cases hn
          · rename_i hnotpending
            by_cases hp : W.own = p
            · right
              intro b' hb'
              rw [← hp, update_self, Option.map_some] at hn
              rw [hown hp.symm] at hb'
              rw [← Option.some.inj hn, Option.some.inj hb']
            · left
              rw [update_of_ne hp] at hn
              rwa [if_neg fun hmem => hnotpending ((List.mem_erase_of_ne hp).mpr hmem)]
  · exact hsame

theorem one_of_pinned {pass : Pass} {pin : Pin}
    (hpin : pinGeneration (generationsOf W pass) = .ok pin) (hnone : pin.stragglers = [])
    (hall : ∀ p < pass.width, ∃ b, pass.replies p = some b) : One pass := by
  have hbuilt := built_of_pinGeneration hpin hnone
  have hstamp : ∀ p < pass.width, ∀ b, pass.replies p = some b →
      builtAtOfStoreKey ((W.build b).storeKey p) = .ok pin.pinnedBuiltAt := by
    intro p hp b hb
    have hreply := hbuilt _ (List.mem_map_of_mem (List.mem_range.mpr hp))
    rw [hb] at hreply
    exact hreply
  by_cases hwidth : pass.width = 0
  · exact ⟨0, fun p hp => by omega⟩
  · have hzero : 0 < pass.width := Nat.pos_of_ne_zero hwidth
    obtain ⟨b, hb⟩ := hall 0 hzero
    refine ⟨b, fun p hp => ?_⟩
    obtain ⟨b', hb'⟩ := hall p hp
    rw [hb', W.told (hstamp p hp b' hb') (hstamp 0 hzero b hb)]

theorem Sound.pinned (h : Sound W s) {pass : Pass} (hstage : s.stage = .asking pass)
    (hpending : pass.pending = []) : Sound W { s with stage := pin W pass } := by
  have hstands := h.stands
  rw [hstage] at hstands
  obtain ⟨hagain, hall⟩ := hstands
  have hreplied : ∀ p < pass.width, ∃ b, pass.replies p = some b := by
    intro p hp
    rcases hall p hp with hmem | hsome
    · rw [hpending] at hmem
      cases hmem
    · exact hsome
  have hfailed : Sound W { s with stage := .failed } :=
    h.goto trivial fun n hn => by cases hn
  -- a straggler's reply no longer stands, the others' still do
  have hreissue : ∀ (round : Round) (stragglers : List ℕ),
      Sound W { s with stage := .asking { pass with round, pending := stragglers } } := by
    intro round stragglers
    refine h.goto ⟨hagain, fun p hp => .inr (hreplied p hp)⟩ fun n hn => .inl ?_
    simp only [reference] at hn
    rw [reference, hstage]
    dsimp only
    split at hn
    · rename_i ha
      exact (if_pos ha).trans hn
    · rename_i hfirst
      rw [if_neg hfirst, hpending]
      split at hn
      · cases hn
      · exact hn
  unfold pin
  cases hpin : pinGeneration (generationsOf W pass) with
  | error e => exact hfailed
  | ok pin =>
    dsimp only
    split
    · rename_i hnone
      have hone := one_of_pinned hpin hnone hreplied
      split
      · refine h.goto ⟨hagain, hone⟩ fun n hn => .inl ?_
        rw [reference, hstage]
        dsimp only
        rw [hpending]
        exact hn
      · split
        · exact hfailed
        · refine h.goto ⟨hagain, hone, by simp [Rows]⟩ fun n hn => .inl ?_
          simp only [reference] at hn
          split at hn
          · cases hn
          · rename_i hfirst
            rw [reference, hstage]
            dsimp only
            rw [if_neg hfirst, hpending]
            exact hn
    · cases pass.round with
      | first => exact hreissue .reissued _
      | reissued => exact hreissue .refreshed _
      | refreshed => exact hfailed

theorem Sound.close (h : Sound W s) {pass : Pass} {fetched : List (ℕ × ℕ)} (hagain : Again W pass)
    (hone : One pass) (hrows : Rows pass fetched)
    (hkept : pass.again = false → reference W s = (pass.replies W.own).map (countOf W)) :
    Sound W { s with stage := close pass fetched } := by
  obtain ⟨b, hb⟩ := hone
  have hof : ∀ row ∈ fetched, row.1 < pass.width ∧ row.2 = b := by
    intro row hrow
    obtain ⟨hlt, hreply⟩ := hrows row hrow
    rw [hb row.1 hlt] at hreply
    exact ⟨hlt, (Option.some.inj hreply).symm⟩
  unfold GatherWidth.close
  dsimp only
  split
  · rename_i ha
    obtain ⟨hown, hcount⟩ := hagain ha
    exact h.goto ⟨b, hcount b (hb _ hown), hb, hof⟩ fun n hn => by cases hn
  · rename_i hfirst
    refine h.goto ⟨b, hb, hof⟩ fun n hn => .inl ?_
    rw [hkept (by simpa using hfirst)]
    exact hn

theorem Sound.loaded (h : Sound W s) {page : Page} (hstage : s.stage = .engine page) :
    Sound W { s with stage := check W s page } := by
  have hstands := h.stands
  rw [hstage] at hstands
  obtain ⟨b, hkeys, hrows⟩ := hstands
  unfold check
  cases hheld : s.held W.own with
  | none => exact h.goto trivial fun n hn => by cases hn
  | some held =>
    have hown := h.held W.own held hheld
    dsimp only
    split
    · refine h.askAll fun _ => ⟨hown, fun b' hb' => ?_⟩
      rw [hheld] at hb'
      rw [Option.some.inj hb']
    · rename_i hsame
      have hsame := not_not.mp hsame
      -- the coordinator answered the run, with the count it still has
      have hkey := hkeys W.own (hsame ▸ hown)
      have hcount := h.kept (countOf W b) held (by rw [reference, hstage]; simp [hkey]) hheld
      exact h.goto ⟨b, hcount ▸ hsame, hkeys, hrows⟩ fun n hn => by cases hn

theorem Sound.step (h : Sound W s) {event : Event} (hsteady : Steady W s event) : Sound W (step W s event) := by
  cases event with
  | install p b =>
    rw [GatherWidth.step]
    split
    · rename_i hp
      exact h.install hp hsteady
    · exact h
  | evict p => exact h.evict p
  | installAway p b =>
    rw [GatherWidth.step]
    split
    · exact ⟨h.held, h.kept, h.stands⟩
    · exact h
  | evictAway p => exact ⟨h.held, h.kept, h.stands⟩
  | start width =>
    rw [GatherWidth.step]
    split
    · split
      · exact h.askAll (by simp)
      · exact h
    · exact h
  | answer p home =>
    rw [GatherWidth.step]
    split
    · rename_i pass hstage
      exact h.answer hstage p home
    · exact h
  | pinned =>
    rw [GatherWidth.step]
    split
    · rename_i pass hstage
      split
      · rename_i hpending
        exact h.pinned hstage hpending
      · exact h
    · exact h
  | past =>
    rw [GatherWidth.step]
    split
    · rename_i pass hstage
      have hstands := h.stands
      rw [hstage] at hstands
      refine h.close hstands.1 hstands.2 (by simp [Rows]) fun hfirst => ?_
      rw [reference, hstage]
      simp [hfirst]
    · exact h
  | deeper =>
    rw [GatherWidth.step]
    split
    · rename_i pass hstage
      have hstands := h.stands
      rw [hstage] at hstands
      refine h.askAll fun ha => ⟨(hstands.1 ha).1, fun b hb => ?_⟩
      refine h.kept pass.width b ?_ hb
      rw [reference, hstage]
      exact if_pos ha
    · exact h
  | fetch p home =>
    rw [GatherWidth.step]
    split
    · rename_i pass fetched hstage
      have hstands := h.stands
      rw [hstage] at hstands
      obtain ⟨hagain, hone, hrows⟩ := hstands
      have hfailed : Sound W { s with stage := .failed } :=
        h.goto trivial fun n hn => by cases hn
      unfold fetch
      split
      · rename_i asked b hasked hcopy
        split
        · rename_i hok
          refine h.goto ⟨hagain, hone, fun row hrow => ?_⟩ fun n hn => .inl ?_
          · rcases List.mem_append.mp hrow with hrow | hrow
            · exact hrows row hrow
            · rw [List.mem_singleton.mp hrow]
              exact ⟨hok.1, hok.2 ▸ hasked⟩
          · rw [reference, hstage]
            exact hn
        · exact hfailed
      · exact hfailed
    · exact h
  | assembled =>
    rw [GatherWidth.step]
    split
    · rename_i pass fetched hstage
      have hstands := h.stands
      rw [hstage] at hstands
      refine h.close hstands.1 hstands.2.1 hstands.2.2 fun hfirst => ?_
      rw [reference, hstage]
      simp [hfirst]
    · exact h
  | loaded =>
    rw [GatherWidth.step]
    split
    · rename_i page hstage
      exact h.loaded hstage
    · exact h
  | throws =>
    rw [GatherWidth.step]
    split
    · exact h
    · exact h.goto trivial fun n hn => by cases hn

end

/-- **A full gather's page is one build at its whole width**, in every run in which the
coordinator's store keeps its partition count where the check relies on it; phase 1
returns replies of one build in every run at all. -/
theorem full_gather_whole (W : World) :
    (∀ {V : Type} (clients : List (PartitionClient V)) (phase1 : EngineSearchOptions) (budget : ℕ)
      (shaping : RowShaping) (sleep : ℕ → V → V) (v : V) (replies : List SearchKeysReply) (v' : V),
      askKeys clients phase1 budget shaping sleep v = (.ok replies, v') →
        ∃ built, ∀ reply ∈ replies, builtAtOfStoreKey reply.storeKey = .ok built) ∧
      ∀ s events, Start W s → Runs.Within (step W) (Steady W) s events →
        ∀ page, (events.foldl (step W) s).stage = .served page → page.Whole W := by
  constructor
  · intro V clients phase1 budget shaping sleep v replies v' hrun
    rcases built_of_askKeys v with ⟨replies', v'', hrun', hbuilt⟩ | ⟨-, e, v'', herror⟩
    · rw [hrun] at hrun'
      cases hrun'
      exact hbuilt
    · rw [hrun] at herror
      cases herror
  · intro s events hstart hwithin page hserved
    have hsound : Sound W (events.foldl (step W) s) :=
      Runs.Within.invariant (fun hs hok => hs.step hok) hstart.sound hwithin
    have hstands := hsound.stands
    rw [hserved] at hstands
    exact hstands

/-! ## Two publishes meet a gather -/

section Sample

def stamped : ℕ → Published
  | 0 => { storeKey := fun _ => "cards-v1-5.store", partitionCount := 1 }
  | 1 => { storeKey := fun _ => "cards-v1-6.store", partitionCount := 2 }
  | 2 => { storeKey := fun _ => "cards-v1-7.store", partitionCount := 3 }
  | 3 => { storeKey := fun _ => "cards-v1-8.store", partitionCount := 1 }
  | _ => { storeKey := fun _ => "", partitionCount := 0 }

def stampOf : ℕ → Option String
  | 0 => some "5"
  | 1 => some "6"
  | 2 => some "7"
  | 3 => some "8"
  | _ => none

theorem stamped_eq (b p : ℕ) : (builtAtOfStoreKey ((stamped b).storeKey p)).toOption = stampOf b := by
  match b with
  | 0 => exact (by decide +kernel : (builtAtOfStoreKey "cards-v1-5.store").toOption = some "5")
  | 1 => exact (by decide +kernel : (builtAtOfStoreKey "cards-v1-6.store").toOption = some "6")
  | 2 => exact (by decide +kernel : (builtAtOfStoreKey "cards-v1-7.store").toOption = some "7")
  | 3 => exact (by decide +kernel : (builtAtOfStoreKey "cards-v1-8.store").toOption = some "8")
  | _ + 4 => exact (by decide +kernel : (builtAtOfStoreKey "").toOption = none)

theorem stampOf_injective {b b' : ℕ} {stamp : String} (h : stampOf b = some stamp)
    (h' : stampOf b' = some stamp) : b = b' := by
  have hsome : ∀ n, stampOf (n + 4) = none := fun _ => rfl
  have hlt : ∀ {n}, stampOf n = some stamp → n < 4 := by
    intro n hn
    by_contra hge
    obtain ⟨m, rfl⟩ := Nat.exists_eq_add_of_le' (not_lt.mp hge)
    rw [hsome] at hn
    cases hn
  have hall : ∀ i < 4, ∀ j < 4, stampOf i = stampOf j → i = j := by decide
  exact hall b (hlt h) b' (hlt h') (h.trans h'.symm)

def region : World where
  build := stamped
  own := 0
  deep := false
  told {b b' p p' stamp} h h' := by
    have hof := stamped_eq b p
    have hof' := stamped_eq b' p'
    rw [h] at hof
    rw [h'] at hof'
    exact stampOf_injective hof.symm hof'.symm

def warm : State where
  held p := if p = 0 then some 0 else none
  away _ := none
  stage := .width

theorem warm_start : Start region warm where
  stage := rfl
  held p b h := by
    rw [warm] at h
    dsimp only at h
    split at h
    · rename_i hp
      rw [hp, ← Option.some.inj h]
      decide
    · cases h

/-- The coordinator swaps before it answers and swaps back before its check. -/
def swappedBack : List Event :=
  [.start 1, .install 0 1, .answer 0 true, .pinned, .assembled, .install 0 3, .loaded]

/-- A second publish reaches the run the check repeats. -/
def swappedAgain : List Event :=
  [.start 1, .answer 0 true, .pinned, .assembled, .install 0 1, .loaded, .install 0 2, .install 1 2,
    .answer 0 true, .answer 1 true, .pinned, .assembled]

def short (stage : Stage) : Bool :=
  match stage with
  | .served page =>
    match page.keys 0 with
    | some b => decide (0 < page.width ∧ page.width < countOf region b)
    | none => false
  | _ => false

theorem exists_of_short {stage : Stage} (h : short stage = true) : ∃ page, stage = .served page ∧ ¬ page.Whole region := by
  unfold short at h
  split at h
  · rename_i page
    refine ⟨page, rfl, ?_⟩
    rintro ⟨b, hcount, hkeys, -⟩
    split at h
    · rename_i b' hb'
      obtain ⟨hpos, hlt⟩ := of_decide_eq_true h
      rw [hkeys 0 hpos] at hb'
      rw [← Option.some.inj hb', hcount] at hlt
      exact lt_irrefl _ hlt
    · cases h
  · cases h

/-- A page of one partition of a build of two, and of two of a build of three. -/
theorem gathers_short :
    (∃ page, (swappedBack.foldl (step region) warm).stage = .served page ∧ ¬ page.Whole region) ∧
      ∃ page, (swappedAgain.foldl (step region) warm).stage = .served page ∧
        ¬ page.Whole region := by
  have hback : short (swappedBack.foldl (step region) warm).stage = true := by decide +kernel
  have hagain : short (swappedAgain.foldl (step region) warm).stage = true := by decide +kernel
  exact ⟨exists_of_short hback, exists_of_short hagain⟩

/-- One publish of another width, and the run repeated at it. -/
def repeated : List Event :=
  [.start 1, .install 0 1, .answer 0 true, .pinned, .assembled, .loaded, .install 1 1,
    .answer 0 true, .answer 1 true, .pinned, .fetch 1 true, .assembled]

theorem full_gather_repeated :
    ∃ page, (repeated.foldl (step region) warm).stage = .served page ∧ page.Whole region := by
  have hserved : (match (repeated.foldl (step region) warm).stage with
      | .served _ => true
      | _ => false) = true := by decide +kernel
  cases hstage : (repeated.foldl (step region) warm).stage with
  | served page =>
    exact ⟨page, rfl, (full_gather_whole region).2 warm repeated warm_start (by decide +kernel) page
      hstage⟩
  | _ =>
    rw [hstage] at hserved
    cases hserved

end Sample

end GatherWidth
