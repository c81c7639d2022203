-- SUMMARY: Runs of a label's loads: one load at a time drives the instance, what liveCurrent returns is what the instance holds, and when an abandoned load touches nothing.
import Sylvan.Data.Runs
import Sylvan.Engine.StoreLoadFrame

/-!
# The fence

Only the load in the slot can be driving: the others have ended or are abandoned. What a
driving load has fed is the archive it settled on, from the block it began with, in the
instance it began in.

The fence is not looked at between a load's manifest read and its feed, nor where a read of
the archive throws; and a load that installed its store takes the instance's generation only
after its announcement has landed. A run that meets none of these keeps every abandoned load's
hands off the label. What is left without that is the same invariant made `loose`: loads may
stray, and a store may be lost under the object that serves it.
-/

namespace StoreLoad

variable {β : Type} {W : World β} {loose : Prop} {i j : ℕ} {s : Label β}

/-! ## Where the fence is not looked at -/

/-- On its way from this manifest to the feed, a load touches the label whatever its fence says:
it clears the loaded store, drops older copies, or drops the copy it could not feed. -/
def Unfenced (W : World β) (s : Label β) (manifest : StoreManifest) (early : Option EarlyFeed) : Prop :=
  rawFormat manifest = true ∧ ∃ source, archiveOfManifest W manifest = some source ∧ s.liveKey ≠ some source.storeKey ∧
      (s.liveCurrent ≠ none ∨ match early.filter (·.storeKey = source.storeKey) with
        | some fed => fed.failed = true
        | none => s.held source.storeKey = false)

/-- An abandoned load goes on from an await where it is not stopped. -/
def Strays (W : World β) (s : Label β) (i : ℕ) (answer : Answer) : Prop :=
  s.abandoned i = true ∧ match (s.loads i).stage, answer with
    | .earlyFeed _ _ _, .read .unreadable => True
    | .truthRead pushed source early, .manifest truth =>
      Unfenced W s (tiebreak W pushed source truth).manifest early
    | .truthRead pushed source early, .unreadable =>
      Unfenced W s (tiebreak W pushed source none).manifest early
    | .correctionRead, .manifest truth =>
      ∃ manifest, truth.filter (servable W) = some manifest ∧ Unfenced W s manifest none
    | .manifestRead, .manifest (some manifest) => Unfenced W s manifest none
    | .feed job _, .read .unreadable =>
      (job.source.gzipped && job.cached) = true ∨ ∃ truth, job.fallback = some truth ∧ Unfenced W s truth none
    | _, _ => False

/-- A load's announcement lands in another instance than the one it installed its store in. -/
def Lost (s : Label β) (i : ℕ) (answer : Answer) : Prop :=
  s.abandoned i = false ∧ answer = .announced ∧ ∃ job since, (s.loads i).stage = .announced job since ∧ since ≠ s.generation

def Fenced (W : World β) (s : Label β) : Event → Prop
  | .resumes i answer => ¬ Strays W s i answer ∧ ¬ Lost s i answer
  | _ => True

/-! ## Driving -/

/-- The load goes on, and nothing has taken the label from it. -/
def Label.drives (s : Label β) (i : ℕ) : Prop :=
  (s.loads i).stage ≠ .done ∧ s.abandoned i = false

/-- If the instance has a load begun, these are its bytes. -/
def Label.Buffered (s : Label β) (bytes : List β) : Prop :=
  ∀ fed, s.inst.loading = some fed → fed = bytes

/-- The active store is the archive under `key`; where `loose` allows it, there may be none. -/
def Label.Holds (s : Label β) (W : World β) (loose : Prop) (key : String) : Prop :=
  s.inst.store = some (W.archive key) ∨ loose ∧ s.inst.store = none

/-- What the driving load has done to the instance, by the await it stands at. -/
def StageOk (W : World β) (s : Label β) : Stage → Prop
  | .earlyFeed _ source fed => s.Buffered ((W.archive source.storeKey).take fed)
  | .truthRead _ _ (some early) => early.failed = false → s.Buffered (W.archive early.storeKey)
  | .feed job fed =>
    s.liveCurrent = none ∧ s.Buffered ((W.archive job.source.storeKey).take fed)
  | .announced job since =>
    s.liveCurrent = none ∧ since ≤ s.generation ∧
      (since = s.generation → s.inst.store = some (W.archive job.source.storeKey)) ∧
      s.Holds W True job.source.storeKey
  | _ => True

/-- What holds of the label at every moment, steps of a load included. -/
structure Served (W : World β) (loose : Prop) (s : Label β) : Prop where
  served : ∀ c, s.liveCurrent = some c → s.Holds W loose c.storeKey
  past : ∀ c, s.current = some c → c.generation ≤ s.generation
  clean : loose ∨ ∀ t ∈ s.touched, t.abandoned = false

/-- **The invariant** between two steps: the load in the slot is the only one driving. -/
structure Sound (W : World β) (loose : Prop) (s : Label β) : Prop extends Served W loose s where
  slot : ∀ i, s.drives i → s.loading = some i
  stage : ∀ i, s.drives i → StageOk W s (s.loads i).stage

/-- Load `i` is driving, and in the middle of a step. -/
structure Driving (W : World β) (loose : Prop) (i : ℕ) (s : Label β) : Prop extends Served W loose s where
  fresh : s.abandoned i = false
  slot : s.loading = some i
  alone : ∀ j, s.drives j → j = i

theorem Sound.driving (h : Sound W loose s) (hdrives : s.drives i) : Driving W loose i s :=
  { toServed := h.toServed
    fresh := hdrives.2
    slot := h.slot i hdrives
    alone := by
      intro j hj
      have hsame := (h.slot j hj).symm.trans (h.slot i hdrives)
      exact Option.some.inj hsame }

namespace Driving

theorem put (h : Driving W loose i s) {load : Load} (hstage : StageOk W s load.stage) : Sound W loose (s.put i load) := by
  have hdrives : ∀ j, (s.put i load).drives j → j = i := by
    intro j hj
    by_cases hji : j = i
    · exact hji
    · have hload : (s.put i load).loads j = s.loads j := s.put_loads_of_ne hji load
      exact h.alone j ⟨by simpa [hload] using hj.1, by simpa [Label.abandoned, hload] using hj.2⟩
  exact {
    served := h.served
    past := h.past
    clean := h.clean
    slot := fun j hj => by
      rw [hdrives j hj]
      exact h.slot
    stage := fun j hj => by
      rw [hdrives j hj, Label.put_loads_self]
      exact hstage }

theorem goto (h : Driving W loose i s) {stage : Stage} (hstage : StageOk W s stage) :
    Sound W loose (s.goto i stage) := h.put hstage

theorem done (h : Driving W loose i s) : Sound W loose (s.goto i .done) := h.goto trivial

theorem ret (h : Driving W loose i s) : Sound W loose (s.ret i) := h.put trivial

theorem touch (h : Driving W loose i s) (touch : Touch) : Driving W loose i (s.touch i touch) :=
  { served := h.served, past := h.past, fresh := h.fresh, slot := h.slot, alone := h.alone
    clean := by
      apply h.clean.imp_right
      intro hclean t ht
      rcases List.mem_append.mp ht with ht | ht
      · exact hclean t ht
      · obtain rfl := List.mem_singleton.mp ht
        exact h.fresh }

theorem withLoading (h : Driving W loose i s) (loading : Option (List β)) : Driving W loose i (s.withLoading loading) :=
  { served := h.served, past := h.past, fresh := h.fresh, slot := h.slot, alone := h.alone
    clean := h.clean }

theorem withStore (h : Driving W loose i s) (hlive : s.liveCurrent = none) (store : Option (List β)) :
    Driving W loose i (s.withStore store) :=
  { served := by
      intro c hc
      have hnone : (s.withStore store).liveCurrent = none := hlive
      rw [hnone] at hc
      exact absurd hc (by simp)
    past := h.past, fresh := h.fresh, slot := h.slot, alone := h.alone, clean := h.clean }

theorem durable (h : Driving W loose i s) (record : Option StoreManifest) (held : String → Bool) :
    Driving W loose i { s with record := record, held := held } :=
  { served := h.served, past := h.past, fresh := h.fresh, slot := h.slot, alone := h.alone
    clean := h.clean }

theorem unloadCurrent (h : Driving W loose i s) :
    Driving W loose i (unloadCurrent i s) ∧ (StoreLoad.unloadCurrent i s).liveCurrent = none := by
  unfold StoreLoad.unloadCurrent
  cases hlive : s.liveCurrent with
  | none => exact ⟨h, hlive⟩
  | some c =>
    have htouched := (h.touch .clear).touch .engine
    exact ⟨
      { served := by
          intro c hc
          simp [Label.liveCurrent] at hc
        past := by
          intro c hc
          simp at hc
        fresh := htouched.fresh, slot := htouched.slot, alone := htouched.alone
        clean := htouched.clean }, rfl⟩

theorem begin_store_load (h : Driving W loose i s) : Driving W loose i (s.begin_store_load i) :=
  (h.touch .engine).withLoading (some [])

theorem discard (h : Driving W loose i s) (job : Job) : Driving W loose i (discard i job s) := by
  unfold StoreLoad.discard
  split
  · exact (h.touch .invalidate).durable _ _
  · exact h

theorem dropOlderBuilds (h : Driving W loose i s) (job : Job) : Driving W loose i (dropOlderBuilds W i job s) := by
  unfold StoreLoad.dropOlderBuilds
  split
  · exact h
  · exact (h.touch .drop).durable _ _

theorem commit (h : Driving W loose i s) (job : Job) : Driving W loose i (commit W i job s) := by
  unfold StoreLoad.commit
  split
  · exact h
  · exact (h.touch .commit).durable _ _

/-- What a failed load must make of any label it is left with. -/
def FailsWell (W : World β) (loose : Prop) (i : ℕ) (failed : Job → Label β → Label β) : Prop :=
  ∀ job s, Driving W loose i s → s.liveCurrent = none → Sound W loose (failed job s)

theorem install {failed : Job → Label β → Label β} (h : Driving W loose i s)
    (hfailed : FailsWell W loose i failed) (hlive : s.liveCurrent = none) (job : Job)
    (hbuffered : s.Buffered (W.archive job.source.storeKey)) :
    Sound W loose (install W failed i job s) := by
  apply install_cases
  · intro _
    exact h.done
  · intro _ _
    exact hfailed job _ (h.touch .engine) hlive
  · intro _
    exact hfailed job _ ((h.touch .engine).withLoading none) hlive
  · intro bytes s' _ hloading hs'
    have hbytes : bytes = W.archive job.source.storeKey := hbuffered bytes hloading
    have hs : Driving W loose i s' := by
      rw [hs']
      exact ((h.touch .engine).withLoading none).withStore hlive _
    have hlive' : (StoreLoad.commit W i job s').liveCurrent = none := by
      rw [liveCurrent_commit, hs']
      exact hlive
    have hstore : (StoreLoad.commit W i job s').inst.store = some (W.archive job.source.storeKey) := by
      rw [inst_commit, hs', ← hbytes]
      rfl
    refine (hs.commit job).goto ⟨hlive', ?_, fun _ => hstore, .inl hstore⟩
    rw [generation_commit, hs']
    exact Nat.le_refl _

theorem loadManifest {failed : Job → Label β → Label β} {manifest : StoreManifest}
    {fallback : Option StoreManifest} {early : Option EarlyFeed} (h : Driving W loose i s)
    (hfailed : FailsWell W loose i failed)
    (hearly : ∀ fed, early = some fed → fed.failed = false → s.Buffered (W.archive fed.storeKey)) :
    Sound W loose (loadManifest W failed i manifest fallback early s) := by
  obtain ⟨hunloaded, hcold⟩ := h.unloadCurrent
  apply loadManifest_cases
  · intro _
    exact h.done
  · intro _ _ _
    exact h.ret
  · intro source fed _ _ _ _ _ _
    exact hfailed _ _ hunloaded hcold
  · intro source fed _ _ _ hfed hkey hok
    apply hunloaded.install hfailed hcold
    rw [← hkey]
    intro bytes hbytes
    rw [inst_loading_unloadCurrent] at hbytes
    exact hearly fed hfed hok bytes hbytes
  · intro source job s' _ _ _ _ _ hs'
    obtain ⟨hdropped, hcold'⟩ := (h.dropOlderBuilds job).unloadCurrent
    rw [← hs'] at hdropped hcold'
    rw [if_neg (by simp [hdropped.fresh])]
    refine hdropped.begin_store_load.goto ⟨hcold', ?_⟩
    intro bytes hbytes
    simpa [Label.begin_store_load, Label.withLoading, eq_comm] using hbytes

theorem last_failsWell : FailsWell W loose i (fun job s => (StoreLoad.discard i job s).goto i .done) := by
  intro job s h _
  exact (h.discard job).done

theorem loadFailed_failsWell : FailsWell W loose i (loadFailed W i) := by
  intro job s h hlive
  unfold loadFailed
  cases job.fallback with
  | none => exact (h.discard job).done
  | some truth =>
    apply ((h.discard job).durable _ _).loadManifest last_failsWell
    intro fed hfed
    simp at hfed

theorem loadSettled {settled : Settled} {early : Option EarlyFeed} (h : Driving W loose i s)
    (hearly : ∀ fed, early = some fed → fed.failed = false → s.Buffered (W.archive fed.storeKey)) :
    Sound W loose (loadSettled W i settled early s) := by
  unfold StoreLoad.loadSettled
  cases settled.correction with
  | none => exact h.loadManifest loadFailed_failsWell hearly
  | some truth => exact (h.durable _ _).loadManifest loadFailed_failsWell hearly

/-- What a block crossed by the driving load leaves. -/
structure Crossed (W : World β) (loose : Prop) (i : ℕ) (key : String) (fed : ℕ) (s : Label β)
    (out : Cross × Label β) : Prop where
  driving : Driving W loose i out.2
  live : out.2.liveCurrent = s.liveCurrent
  unfenced : out.1 ≠ .fenced
  fed : out.1 = .fed → out.2.Buffered ((W.archive key).take (fed + 1))
  ended : out.1 = .ended → out.2.Buffered (W.archive key)

theorem feedBlock {key : String} {fed : ℕ} {read : Read} (h : Driving W loose i s)
    (hbuffered : s.Buffered ((W.archive key).take fed)) :
    Crossed W loose i key fed s (feedBlock W i key fed read s) := by
  apply feedBlock_cases
  · intro _
    exact ⟨h, rfl, by simp, by simp, by simp⟩
  · intro habandoned
    simp [h.fresh] at habandoned
  · intro _
    exact ⟨(h.touch .engine).withLoading none, rfl, by simp, by simp, by simp⟩
  · intro hend
    refine ⟨h, rfl, by simp, by simp, ?_⟩
    intro _ bytes hbytes
    rw [hbuffered bytes hbytes]
    exact List.take_of_length_le (List.getElem?_eq_none_iff.mp hend)
  · intro _ _
    exact ⟨h.touch .engine, rfl, by simp, by simp, by simp⟩
  · intro block bytes _ hblock hbytes
    refine ⟨(h.touch .engine).withLoading _, rfl, by simp, ?_, by simp⟩
    intro _ more hmore
    obtain rfl : bytes ++ [block] = more := Option.some.inj hmore
    rw [hbuffered bytes hbytes, List.take_add_one, hblock]
    rfl

theorem serve (h : Driving W loose i s) {job : Job} (serial : ℕ)
    (hstore : s.Holds W loose job.source.storeKey) :
    Sound W loose { (s.touch i .set).ret i with
      nextSerial := serial + 1
      current := some
        { serial, storeKey := job.source.storeKey, manifest := job.manifest
          generation := s.generation } } := by
  have hdone := (h.touch .set).ret
  exact {
    served := by
      intro c hc
      have hcurrent := (Option.filter_eq_some_iff.mp hc).1
      rw [← Option.some.inj hcurrent]
      exact hstore
    past := by
      intro c hc
      rw [← Option.some.inj hc]
      exact Nat.le_refl _
    clean := hdone.clean
    slot := hdone.slot
    stage := by
      intro j hj
      exfalso
      have hji : j = i := Option.some.inj ((hdone.slot j hj).symm.trans h.slot)
      subst hji
      exact hj.1 (by simp [Label.ret]) }

theorem resume (h : Driving W loose i s) (hstage : StageOk W s (s.loads i).stage) {answer : Answer}
    (hlost : ¬ loose → ¬ Lost s i answer) (hsame : Sound W loose s) : Sound W loose (resume W i answer s) := by
  unfold StoreLoad.resume
  split
  case h_1 pushed source hat =>
      unfold StoreLoad.speculativeLocalFeed
      split
      · rw [if_neg (by simp [h.fresh])]
        refine h.begin_store_load.goto ?_
        intro bytes hbytes
        simpa [Label.begin_store_load, Label.withLoading, eq_comm] using hbytes
      · exact h.goto trivial
  case h_2 pushed source fed read hat =>
      rw [hat] at hstage
      have hcrossed : Crossed W loose i source.storeKey fed s
          (StoreLoad.feedBlock W i source.storeKey fed read s) := h.feedBlock hstage
      generalize StoreLoad.feedBlock W i source.storeKey fed read s = out at hcrossed
      obtain ⟨cross, s'⟩ := out
      cases cross with
      | fenced => exact absurd rfl hcrossed.unfenced
      | fed => exact hcrossed.driving.goto (hcrossed.fed rfl)
      | ended => exact hcrossed.driving.goto fun _ => hcrossed.ended rfl
      | failed =>
        have hdropped := (hcrossed.driving.touch .invalidate).durable s'.record
          (Function.update s'.held source.storeKey false)
        exact hdropped.goto fun hfailed => absurd hfailed (by simp)
  case h_3 pushed source early truth hat =>
      rw [hat] at hstage
      apply h.loadSettled
      rintro fed rfl
      exact hstage
  case h_4 pushed source early hat =>
      rw [hat] at hstage
      apply h.loadSettled
      rintro fed rfl
      exact hstage
  case h_5 truth hat =>
      split
      · exact h.loadSettled (by simp)
      · exact h.goto trivial
  case h_6 => exact h.done
  case h_7 => exact h.loadSettled (by simp)
  case h_8 => exact h.done
  case h_9 => exact h.done
  case h_10 job fed read hat =>
      rw [hat] at hstage
      have hcrossed : Crossed W loose i job.source.storeKey fed s
          (StoreLoad.feedBlock W i job.source.storeKey fed read s) := h.feedBlock hstage.2
      generalize StoreLoad.feedBlock W i job.source.storeKey fed read s = out at hcrossed
      obtain ⟨cross, s'⟩ := out
      have hcold : s'.liveCurrent = none := hcrossed.live.trans hstage.1
      cases cross with
      | fenced => exact absurd rfl hcrossed.unfenced
      | fed => exact hcrossed.driving.goto ⟨hcold, hcrossed.fed rfl⟩
      | ended => exact hcrossed.driving.install loadFailed_failsWell hcold job (hcrossed.ended rfl)
      | failed => exact loadFailed_failsWell job s' hcrossed.driving hcold
  case h_11 job since hat =>
      rw [hat] at hstage
      rw [if_neg (by simp [h.fresh])]
      apply h.serve s.nextSerial
      by_cases hloose : loose
      · exact hstage.2.2.2.imp_right fun hnone => ⟨hloose, hnone.2⟩
      · refine .inl (hstage.2.2.1 ?_)
        by_contra hne
        exact hlost hloose ⟨h.fresh, rfl, job, since, hat, hne⟩
  case h_12 => exact hsame

end Driving

/-! ## An abandoned load -/

/-- The label but for load `i` itself and what the record names. -/
def Label.leave (s : Label β) (i : ℕ) (load : Load) (record : Option StoreManifest) : Label β :=
  { s.put i load with record }

/-- All a step did was move load `i` on and, it may be, correct the record. -/
def Left (s : Label β) (i : ℕ) (s' : Label β) : Prop :=
  ∃ load record, load.abandoned = s.abandoned i ∧ s' = s.leave i load record

namespace Left

theorem same : Left s i s := ⟨s.loads i, s.record, rfl, by simp [Label.leave, Label.put_self]⟩

theorem goto (stage : Stage) : Left s i (s.goto i stage) :=
  ⟨{ s.loads i with stage }, s.record, rfl, rfl⟩

theorem ret : Left s i (s.ret i) :=
  ⟨{ s.loads i with stage := .done, returned := true }, s.record, rfl, rfl⟩

theorem corrected {record : Option StoreManifest} {s' : Label β}
    (h : Left { s with record } i s') : Left s i s' := by
  obtain ⟨load, record', hfence, rfl⟩ := h
  exact ⟨load, record', hfence, rfl⟩

theorem install {failed : Job → Label β → Label β} (habandoned : s.abandoned i = true) (job : Job) :
    Left s i (StoreLoad.install W failed i job s) := by
  unfold StoreLoad.install
  rw [if_pos habandoned]
  exact goto .done

theorem loadManifest {failed : Job → Label β → Label β} {manifest : StoreManifest}
    {fallback : Option StoreManifest} {early : Option EarlyFeed} (habandoned : s.abandoned i = true)
    (hfenced : ¬ Unfenced W s manifest early) :
    Left s i (StoreLoad.loadManifest W failed i manifest fallback early s) := by
  have hcold : ∀ source, rawFormat manifest = true → archiveOfManifest W manifest = some source →
      s.liveKey ≠ some source.storeKey → unloadCurrent i s = s := by
    intro source hraw harchive hkey
    cases hlive : s.liveCurrent with
    | none => simp [unloadCurrent, hlive]
    | some c => exact absurd ⟨hraw, source, harchive, hkey, .inl (by simp [hlive])⟩ hfenced
  apply loadManifest_cases
  · intro _
    exact goto .done
  · intro _ _ _
    exact ret
  · intro source fed hraw harchive hkey hfed hsame hfailed
    refine absurd ⟨hraw, source, harchive, hkey, .inr ?_⟩ hfenced
    have hsome : early.filter (·.storeKey = source.storeKey) = some fed := by
      simp [hfed, hsame]
    rw [hsome]
    exact hfailed
  · intro source fed hraw harchive hkey _ _ _
    rw [hcold source hraw harchive hkey]
    exact install habandoned _
  · intro source job s' hraw harchive hkey hearly hjob hs'
    have hheld : s.held source.storeKey = true := by
      by_contra hmiss
      refine hfenced ⟨hraw, source, harchive, hkey, .inr ?_⟩
      have hnone : early.filter (·.storeKey = source.storeKey) = none := by
        cases early with
        | none => rfl
        | some fed => simp [hearly fed rfl]
      rw [hnone]
      simpa using hmiss
    have hsame : s' = s := by
      rw [hs', hjob]
      simp only [dropOlderBuilds, hheld, if_true]
      exact hcold source hraw harchive hkey
    rw [hsame, if_pos habandoned]
    exact goto .done

theorem loadSettled {settled : Settled} {early : Option EarlyFeed}
    (habandoned : s.abandoned i = true) (hfenced : ¬ Unfenced W s settled.manifest early) :
    Left s i (StoreLoad.loadSettled W i settled early s) := by
  unfold StoreLoad.loadSettled
  cases settled.correction with
  | none => exact loadManifest habandoned hfenced
  | some truth => exact corrected (loadManifest (s := s.recordLiveManifest truth) habandoned hfenced)

theorem feedBlock (habandoned : s.abandoned i = true) (key : String) (fed : ℕ) (read : Read) :
    ∃ cross, StoreLoad.feedBlock W i key fed read s = (cross, s) ∧ (cross = .failed → read = .unreadable) := by
  apply feedBlock_cases (P := fun out => ∃ cross, out = (cross, s) ∧ (cross = .failed → read = .unreadable))
  · intro hread
    exact ⟨_, rfl, fun _ => hread⟩
  · intro _
    exact ⟨_, rfl, by simp⟩
  · intro hfresh
    simp [habandoned] at hfresh
  · intro _
    exact ⟨_, rfl, by simp⟩
  · intro hfresh
    simp [habandoned] at hfresh
  · intro _ _ hfresh
    simp [habandoned] at hfresh

theorem loadFailed (habandoned : s.abandoned i = true) {job : Job}
    (hkept : (job.source.gzipped && job.cached) = false)
    (hfenced : ∀ truth, job.fallback = some truth → ¬ Unfenced W s truth none) :
    Left s i (StoreLoad.loadFailed W i job s) := by
  unfold StoreLoad.loadFailed discard
  simp only [hkept, Bool.false_eq_true, if_false]
  cases hfallback : job.fallback with
  | none => exact goto .done
  | some truth =>
    exact corrected
      (loadManifest (s := s.recordLiveManifest truth) habandoned (hfenced truth hfallback))

theorem resume (habandoned : s.abandoned i = true) {answer : Answer}
    (hstray : ¬ Strays W s i answer) : Left s i (StoreLoad.resume W i answer s) := by
  have hstray' := fun h => hstray ⟨habandoned, h⟩
  unfold StoreLoad.resume
  split
  case h_1 pushed source hat =>
      unfold StoreLoad.speculativeLocalFeed
      split
      · exact goto .done
      · exact goto _
  case h_2 pushed source fed read hat =>
      obtain ⟨cross, hcross, hfailed⟩ := feedBlock (W := W) habandoned source.storeKey fed read
      rw [hcross]
      cases cross with
      | fenced => exact goto _
      | fed => exact goto _
      | ended => exact goto _
      | failed =>
        rw [hat, hfailed rfl] at hstray'
        exact absurd trivial hstray'
  case h_3 pushed source early truth hat =>
      rw [hat] at hstray'
      exact loadSettled habandoned hstray'
  case h_4 pushed source early hat =>
      rw [hat] at hstray'
      exact loadSettled habandoned hstray'
  case h_5 truth hat =>
      rw [hat] at hstray'
      split
      case h_1 manifest htruth =>
          exact loadSettled habandoned fun hunfenced => hstray' ⟨manifest, htruth, hunfenced⟩
      case h_2 => exact goto _
  case h_6 => exact goto _
  case h_7 manifest hat =>
      rw [hat] at hstray'
      exact loadSettled habandoned hstray'
  case h_8 => exact goto _
  case h_9 => exact goto _
  case h_10 job fed read hat =>
      obtain ⟨cross, hcross, hfailed⟩ :=
        feedBlock (W := W) habandoned job.source.storeKey fed read
      rw [hcross]
      cases cross with
      | fenced => exact goto _
      | fed => exact goto _
      | ended => exact install habandoned job
      | failed =>
        rw [hat, hfailed rfl] at hstray'
        refine loadFailed habandoned ?_ ?_
        · simpa using fun h => hstray' (.inl h)
        · intro truth hfallback hunfenced
          exact hstray' (.inr ⟨truth, hfallback, hunfenced⟩)
  case h_11 job since hat =>
      rw [if_pos habandoned]
      exact goto .done
  case h_12 => exact same

end Left

theorem Sound.fewer (h : Sound W loose s) {loads : ℕ → Load} (record : Option StoreManifest)
    (hloads : ∀ j, (loads j).stage ≠ .done → (loads j).abandoned = false → loads j = s.loads j) :
    Sound W loose { s with loads, record } := by
  have hdrives : ∀ j, ({ s with loads, record } : Label β).drives j → s.drives j ∧ loads j = s.loads j := by
    intro j hj
    have hsame := hloads j hj.1 hj.2
    refine ⟨⟨?_, ?_⟩, hsame⟩
    · rw [← hsame]
      exact hj.1
    · rw [Label.abandoned, ← hsame]
      exact hj.2
  exact {
    served := h.served
    past := h.past
    clean := h.clean
    slot := fun j hj => h.slot j (hdrives j hj).1
    stage := by
      intro j hj
      obtain ⟨hold, hsame⟩ := hdrives j hj
      show StageOk W s (loads j).stage
      rw [hsame]
      exact h.stage j hold }

theorem Sound.left (h : Sound W loose s) (habandoned : s.abandoned i = true) {s' : Label β}
    (hleft : Left s i s') : Sound W loose s' := by
  obtain ⟨load, record, hfence, rfl⟩ := hleft
  apply h.fewer
  intro j _ hfresh
  by_cases hji : j = i
  · subst hji
    rw [Label.put_loads_self, hfence, habandoned] at hfresh
    simp at hfresh
  · exact Label.put_loads_of_ne s hji load

/-- Where loads may stray, what one of them leaves behind is still sound: the load buffer is not
its to change, and a store it unloads is no longer current. -/
theorem Sound.strayed (h : Sound W loose s) (hloose : loose) (habandoned : s.abandoned i = true)
    {s' : Label β} (hmoves : Moves i s s') : Sound W loose s' := by
  obtain ⟨hloading, hstore⟩ := hmoves.fenced habandoned
  have hdrives : ∀ j, s'.drives j → s.drives j ∧ s'.loads j = s.loads j := by
    intro j hj
    have hji : j ≠ i := by
      rintro rfl
      have hfresh := hmoves.fence.symm.trans hj.2
      simp [habandoned] at hfresh
    have hload := hmoves.others j hji
    exact ⟨⟨by simpa [hload] using hj.1, by simpa [Label.abandoned, hload] using hj.2⟩, hload⟩
  have hbuffered : ∀ bytes, s.Buffered bytes → s'.Buffered bytes := by
    intro bytes hold fed hfed
    exact hold fed (hloading ▸ hfed)
  -- a driving load that has unloaded the store left nothing for this one to unload
  have hcold : s.liveCurrent = none → s'.liveCurrent = none ∧ s'.inst.store = s.inst.store := by
    intro hnone
    rcases hstore with ⟨hcurrent, hsame⟩ | ⟨hlive, _⟩
    · exact ⟨(hmoves.liveCurrent hcurrent).trans hnone, hsame⟩
    · exact absurd hnone hlive
  exact {
    served := by
      intro c hc
      rcases hstore with ⟨hcurrent, hsame⟩ | ⟨_, hcurrent, _⟩
      · rw [hmoves.liveCurrent hcurrent] at hc
        exact (h.served c hc).imp hsame.trans fun hnone => ⟨hloose, hsame.trans hnone.2⟩
      · simp [Label.liveCurrent, hcurrent] at hc
    past := by
      intro c hc
      rw [hmoves.generation]
      rcases hmoves.current with hcurrent | hcurrent
      · exact h.past c (hcurrent ▸ hc)
      · simp [hcurrent] at hc
    clean := .inl hloose
    slot := by
      intro j hj
      rw [hmoves.loading]
      exact h.slot j (hdrives j hj).1
    stage := by
      intro j hj
      obtain ⟨hold, hload⟩ := hdrives j hj
      have hstage := h.stage j hold
      rw [hload]
      revert hstage
      cases (s.loads j).stage with
      | earlyFeed pushed source fed => exact hbuffered _
      | truthRead pushed source early =>
        cases early with
        | none => exact id
        | some early => exact fun hstage hok => hbuffered _ (hstage hok)
      | feed job fed => exact fun hstage => ⟨(hcold hstage.1).1, hbuffered _ hstage.2⟩
      | announced job since =>
        intro hstage
        obtain ⟨hnone, hsame⟩ := hcold hstage.1
        refine ⟨hnone, hmoves.generation ▸ hstage.2.1, ?_, ?_⟩
        · intro hsince
          rw [hsame]
          exact hstage.2.2.1 (hsince.trans hmoves.generation)
        · rw [Label.Holds, hsame]
          exact hstage.2.2.2
      | sendIssuedIo | correctionRead | manifestRead | done => exact id }

/-! ## Runs -/

theorem Sound.resume (h : Sound W loose s) {answer : Answer}
    (hfenced : ¬ loose → ¬ Strays W s i answer ∧ ¬ Lost s i answer) :
    Sound W loose (resume W i answer s) := by
  cases habandoned : s.abandoned i with
  | true =>
    by_cases hloose : loose
    · rcases resume_moves (W := W) i answer s with hmoves | hserves
      · exact h.strayed hloose habandoned hmoves
      · simp [hserves.fresh] at habandoned
    · exact h.left habandoned (Left.resume habandoned (hfenced hloose).1)
  | false =>
    by_cases hdone : (s.loads i).stage = .done
    · have hsame : StoreLoad.resume W i answer s = s := by simp [StoreLoad.resume, hdone]
      rw [hsame]
      exact h
    · have hdrives : s.drives i := ⟨hdone, habandoned⟩
      exact (h.driving hdrives).resume (h.stage i hdrives) (fun hloose => (hfenced hloose).2) h

theorem Sound.started (h : Sound W loose s) (hfree : s.loading = none) : Driving W loose s.nextLoad s.started :=
  { served := h.served, past := h.past, clean := h.clean, slot := rfl
    fresh := by simp [Label.abandoned, Label.started]
    alone := by
      intro j hj
      by_contra hne
      have hload : s.started.loads j = s.loads j := s.put_loads_of_ne hne _
      have hold : s.drives j :=
        ⟨by simpa [hload] using hj.1, by simpa [Label.abandoned, hload] using hj.2⟩
      have hslot := h.slot j hold
      simp [hfree] at hslot }

theorem Sound.startLoad (h : Sound W loose s) (hfree : s.loading = none) (known : Option StoreManifest) :
    Sound W loose (startLoad W known s) := by
  have hstarted := h.started hfree
  unfold StoreLoad.startLoad loadStore
  cases known with
  | some manifest => exact hstarted.loadSettled (by simp)
  | none =>
    dsimp only
    split
    · exact hstarted.goto trivial
    · split
      · split
        · exact hstarted.goto trivial
        · exact hstarted.goto trivial
      · exact hstarted.goto trivial

theorem Sound.swapNow (h : Sound W loose s) (hfree : s.loading = none) (manifest : StoreManifest)
    (source : PartitionRecord) : Sound W loose (swapNow W manifest source s) := by
  unfold StoreLoad.swapNow
  split
  · exact h
  · exact h.startLoad hfree _

theorem Sound.aside (h : Sound W loose s) (waiting : List StoreManifest) (refreshing : Option Refresh)
    (record : Option StoreManifest) (held : String → Bool) :
    Sound W loose { s with waiting, refreshing, record, held } :=
  { served := h.served, past := h.past, clean := h.clean, slot := h.slot, stage := h.stage }

theorem Sound.swapToStore (h : Sound W loose s) (manifest : StoreManifest) : Sound W loose (swapToStore W manifest s) := by
  unfold StoreLoad.swapToStore
  split
  · exact h
  · split
    · exact h
    · split
      · exact h.aside _ _ _ _
      · rename_i hfree
        exact h.swapNow (by simpa using hfree) manifest _

theorem Sound.trap (h : Sound W loose s) : Sound W loose { s with inst := {}, generation := s.generation + 1 } := by
  have hdead : ({ s with inst := {}, generation := s.generation + 1 } : Label β).liveCurrent = none := by
    cases hcurrent : s.current with
    | none => simp [Label.liveCurrent]
    | some c =>
      have hpast := h.past c hcurrent
      have hother : c.generation ≠ s.generation + 1 := by omega
      simp [Label.liveCurrent, hother]
  exact {
    served := by simp [hdead]
    past := fun c hc => Nat.le_succ_of_le (h.past c hc)
    clean := h.clean
    slot := h.slot
    stage := by
      intro j hj
      have hold := h.stage j hj
      revert hold
      cases (s.loads j).stage with
      | earlyFeed pushed source fed => exact fun _ => by simp [StageOk, Label.Buffered]
      | truthRead pushed source early =>
        cases early with
        | none => exact id
        | some early => exact fun _ => by simp [StageOk, Label.Buffered]
      | feed job fed => exact fun _ => ⟨hdead, by simp [Label.Buffered]⟩
      | announced job since =>
        intro hold
        refine ⟨hdead, Nat.le_succ_of_le hold.2.1, ?_, .inr ⟨trivial, rfl⟩⟩
        intro hsame
        have hsince : since ≤ s.generation := hold.2.1
        exact absurd hsame (by simp only; omega)
      | sendIssuedIo | correctionRead | manifestRead | done => exact id }

theorem Sound.deadline (h : Sound W loose s) (i : ℕ) :
    Sound W loose { s with loads := Function.update s.loads i { s.loads i with abandoned := true } } := by
  apply h.fewer s.record
  intro j _ hfresh
  by_cases hji : j = i
  · subst hji
    simp at hfresh
  · simp [hji]

theorem Sound.settled (h : Sound W loose s) (hslot : s.loading = some i)
    (hended : (s.loads i).stage = .done ∨ s.abandoned i = true) :
    Sound W loose { s with loading := none } := by
  have hnone : ∀ j, ¬ s.drives j := by
    intro j hj
    obtain rfl : j = i := Option.some.inj ((h.slot j hj).symm.trans hslot)
    rcases hended with hdone | habandoned
    · exact hj.1 hdone
    · simp [hj.2] at habandoned
  exact {
    served := h.served
    past := h.past
    clean := h.clean
    slot := fun j hj => absurd hj (hnone j)
    stage := fun j hj => absurd hj (hnone j) }

theorem Sound.step (h : Sound W loose s) {event : Event} (hfenced : ¬ loose → Fenced W s event) :
    Sound W loose (step W s event) := by
  cases event with
  | getEngine backedOff =>
    simp only [StoreLoad.step, getEngine]
    split
    · exact h
    · rename_i hfree
      simp only [Bool.or_eq_true, not_or, Option.not_isSome_iff_eq_none] at hfree
      exact h.startLoad hfree.1.2 none
  | swapToStore manifest => exact h.swapToStore manifest
  | swapResumes manifest =>
    simp only [StoreLoad.step, swapResumes]
    split
    · exact h
    · split
      · rename_i hwaits
        exact (h.aside (s.waiting.erase manifest) s.refreshing s.record s.held).swapNow hwaits.2 manifest _
      · exact h
  | refreshNow known =>
    simp only [StoreLoad.step]
    split
    · exact h
    · exact h.aside _ _ _ _
  | refreshRead manifest =>
    simp only [StoreLoad.step]
    split
    · exact h.aside _ _ _ _
    · exact h
  | refreshPrefetched =>
    simp only [StoreLoad.step]
    split
    · exact (h.aside s.waiting (some .swapping) s.record s.held).swapToStore _
    · exact h
  | refreshSettled =>
    simp only [StoreLoad.step]
    split
    · exact h.aside _ _ _ _
    · exact h
  | resumes i answer => exact h.resume hfenced
  | deadline i =>
    simp only [StoreLoad.step]
    split
    · exact h.deadline i
    · exact h
  | settled i =>
    simp only [StoreLoad.step]
    split
    · rename_i hslot
      exact h.settled hslot.1 hslot.2
    · exact h
  | trap => exact h.trap
  | copies key held => exact h.aside _ _ _ _
  | told manifest => exact h.aside _ _ _ _

/-- A label nothing has been loaded into, with what the object's storage holds. -/
def cold (record : Option StoreManifest) (held : String → Bool) : Label β := { record, held }

theorem Sound.cold (record : Option StoreManifest) (held : String → Bool) : Sound W loose (cold record held) :=
  { served := by simp [StoreLoad.cold, Label.liveCurrent]
    past := by simp [StoreLoad.cold]
    clean := by simp [StoreLoad.cold]
    slot := by simp [StoreLoad.cold, Label.drives]
    stage := by simp [StoreLoad.cold, Label.drives] }

/-- The number a `built_at` of digits spells. -/
def number (builtAt : String) : ℕ := builtAt.toList.foldl (fun n c => 10 * n + (c.toNat - 48)) 0

def nights : World ℕ where
  partition := some 0
  ARCHIVE_FORMAT_VERSION := 2026101004
  PARTITION_HASH_ALGO := "fnv1a64/oracle_id/v1"
  newer a b := decide (number b < number a)
  archive key :=
    if key = "store:1-p0.store" then [1] else if key = "store:2-p0.store" then [2] else [3]
  accepts _ := true
  droppable _ _ := false

def firstNight : StoreManifest where
  storeKey := "store:1.store"
  storeBytes := 1
  formatVersion := 2026101004
  builtAt := "1"
  partitionCount := some 1
  partitionHash := "fnv1a64/oracle_id/v1"
  partitions := [{ storeKey := "store:1-p0.store" }]

def secondNight : StoreManifest where
  storeKey := "store:2.store"
  storeBytes := 1
  formatVersion := 2026101004
  builtAt := "2"
  partitionCount := some 1
  partitionHash := "fnv1a64/oracle_id/v1"
  partitions := [{ storeKey := "store:2-p0.store" }]

/-- A load reads the manifest, feeds the one block there is and ends the body. -/
def fed (i : ℕ) (manifest : StoreManifest) : List Event :=
  [.resumes i (.manifest (some manifest)), .resumes i (.read .block), .resumes i (.read .block)]

def ran (events : List Event) : Label ℕ :=
  events.foldl (step nights) (cold none fun _ => false)

/-- The first load's manifest read stalls past its deadline; the second serves the second night. -/
def stalled : Label ℕ :=
  ran ([.getEngine false, .deadline 0, .settled 0, .getEngine false] ++ fed 1 secondNight ++
    [.resumes 1 .announced, .settled 1])

def late : Label ℕ := step nights stalled (.resumes 0 (.manifest (some firstNight)))

/-- The instance is lost between a load's install and its announcement. -/
def trapped : Label ℕ :=
  ran ([.getEngine false] ++ fed 0 firstNight ++ [.trap, .resumes 0 .announced])

end StoreLoad
