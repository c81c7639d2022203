-- SUMMARY: Runs of a two-step publish: once committed, the object's record names the manifest and only its archive is served, as long as no load records another.
import Sylvan.Engine.StoreLoadRun
import Sylvan.Engine.PublishSwap

/-!
# A committed publish

Three things carry a publish through. The record names its manifest from `preparePublish` on.
No load is in flight once `preparePublish` has settled, so every load that can still become
the object's store was started from that record. And once `commitPublish` has read the
record, the only store the object serves is the manifest's.

Loads write the record too, from what KV's manifest told them: a stale record is corrected, an
unservable one replaced, a newer one withdrawn when its archive fails. A load that read the
record before the publish can do each of these after it.
-/

namespace StoreLoad

open Label (abandoned goto put ret)

variable {β : Type} {W : World β} {i : ℕ} {s : Label β}

/-! ## What a step records -/

/-- The store is fed and the engine does not take it. -/
def installFails (W : World β) (i : ℕ) (s : Label β) : Bool :=
  !s.abandoned i && !(finish_store_load W i s).1

/-- What a load that goes on from `manifest` records before its next await: the fallback, when
the early feed of its archive failed. -/
def fallsBack (W : World β) (i : ℕ) (manifest : StoreManifest) (fallback : Option StoreManifest)
    (early : Option EarlyFeed) (s : Label β) : Option StoreManifest :=
  if rawFormat manifest = false then none
  else
    match archiveOfManifest W manifest with
    | none => none
    | some source =>
      if s.liveKey = some source.storeKey then none
      else
        match early.filter (·.storeKey = source.storeKey) with
        | none => none
        | some fed => if fed.failed || installFails W i s then fallback else none

/-- What a settled load records before its next await. -/
def settledRecords (W : World β) (i : ℕ) (settled : Settled) (early : Option EarlyFeed)
    (s : Label β) : Option StoreManifest :=
  (fallsBack W i settled.manifest settled.fallback early s).or settled.correction

/-- The manifest load `i` records, if any, when its await comes back with `answer`. -/
def records (W : World β) (s : Label β) (i : ℕ) (answer : Answer) : Option StoreManifest :=
  match (s.loads i).stage, answer with
  | .truthRead pushed source early, .manifest truth =>
    settledRecords W i (tiebreak W pushed source truth) early s
  | .truthRead pushed source early, .unreadable =>
    settledRecords W i (tiebreak W pushed source none) early s
  | .correctionRead, .manifest truth => truth.filter (servable W)
  | .feed job fed, .read read =>
    match feedBlock W i job.source.storeKey fed read s with
    | (.failed, _) => job.fallback
    | (.ended, s) => if installFails W i s then job.fallback else none
    | _ => none
  | _, _ => none

theorem record_unloadCurrent : (unloadCurrent i s).record = s.record := by
  unfold unloadCurrent
  split <;> rfl

theorem record_discard (job : Job) : (discard i job s).record = s.record := by
  unfold discard
  split <;> rfl

theorem record_dropOlderBuilds (job : Job) : (dropOlderBuilds W i job s).record = s.record := by
  unfold dropOlderBuilds
  split <;> rfl

theorem record_commit (job : Job) : (commit W i job s).record = s.record := by
  unfold commit
  split <;> rfl

theorem finish_accepts : (finish_store_load W i s).1 = s.inst.loading.any W.accepts := by
  unfold finish_store_load
  cases s.inst.loading with
  | none => rfl
  | some bytes => by_cases h : W.accepts bytes = true <;> simp [h]

theorem installFails_unloadCurrent : installFails W i (unloadCurrent i s) = installFails W i s := by
  rw [installFails, installFails, finish_accepts, finish_accepts, inst_loading_unloadCurrent, Moves.unloadCurrent.fence]

variable {fallback : Option StoreManifest} {early : Option EarlyFeed}

theorem fallsBack_record {manifest truth : StoreManifest} :
    fallsBack W i manifest fallback early (s.recordLiveManifest truth) = fallsBack W i manifest fallback early s := by
  have hfails : installFails W i (s.recordLiveManifest truth) = installFails W i s := by
    rw [installFails, installFails, finish_accepts, finish_accepts]
    rfl
  unfold fallsBack
  rw [hfails]
  rfl

theorem record_finish : (finish_store_load W i s).2.record = s.record := by
  unfold finish_store_load
  split
  · rfl
  · dsimp only
    split <;> rfl

variable {failed : Job → Label β → Label β}

theorem record_install {job : Job} (hfailed : ∀ s : Label β, (failed job s).record = fallback.or s.record) :
    (install W failed i job s).record = (if installFails W i s then fallback else none).or s.record := by
  unfold install installFails
  cases habandoned : s.abandoned i with
  | true => rfl
  | false =>
    have hrecord := record_finish (W := W) (i := i) (s := s)
    cases hfinish : finish_store_load W i s with
    | mk installed s' =>
      rw [hfinish] at hrecord
      cases installed with
      | true => simpa [goto, put, record_commit] using hrecord
      | false => simpa [hfailed] using congrArg fallback.or hrecord

variable {manifest : StoreManifest}

theorem record_loadManifest (hfailed : ∀ job (s : Label β), job.fallback = fallback →
      (failed job s).record = fallback.or s.record) :
    (loadManifest W failed i manifest fallback early s).record = (fallsBack W i manifest fallback early s).or s.record := by
  unfold loadManifest fallsBack
  by_cases hraw : rawFormat manifest = false
  · rw [if_pos hraw, if_pos hraw]
    rfl
  rw [if_neg hraw, if_neg hraw]
  cases archiveOfManifest W manifest with
  | none => rfl
  | some source =>
    dsimp only
    by_cases hlive : s.liveKey = some source.storeKey
    · rw [if_pos hlive, if_pos hlive]
      rfl
    rw [if_neg hlive, if_neg hlive]
    cases early.filter (·.storeKey = source.storeKey) with
    | none =>
      dsimp only
      split <;> exact record_unloadCurrent.trans (record_dropOlderBuilds _)
    | some fed =>
      cases hfed : fed.failed with
      | true => simp [hfed, hfailed, record_unloadCurrent]
      | false =>
        have hjob : ∀ s' : Label β, (failed ⟨manifest, source, fallback, true⟩ s').record = fallback.or s'.record :=
          fun s' => hfailed _ s' rfl
        have hinstall := record_install (W := W) (i := i) (s := unloadCurrent i s) hjob
        rw [installFails_unloadCurrent, record_unloadCurrent] at hinstall
        simpa [hfed] using hinstall

theorem fallsBack_none : fallsBack W i manifest fallback none s = none := by
  unfold fallsBack
  split
  · rfl
  · split
    · rfl
    · split <;> rfl

theorem fallsBack_last : fallsBack W i manifest none early s = none := by
  unfold fallsBack
  split
  · rfl
  · split
    · rfl
    · split
      · rfl
      · split
        · rfl
        · split <;> rfl

theorem record_loadFailed (job : Job) (s : Label β) : (loadFailed W i job s).record = job.fallback.or s.record := by
  unfold loadFailed
  cases job.fallback with
  | none => exact record_discard job
  | some truth =>
    have hlast : ∀ (job : Job) (s : Label β), job.fallback = none →
        ((discard i job s).goto i .done).record = (none : Option StoreManifest).or s.record :=
      fun job s _ => record_discard job
    dsimp only
    rw [record_loadManifest hlast, fallsBack_none]
    rfl

theorem record_loadSettled (settled : Settled) (early : Option EarlyFeed) :
    (loadSettled W i settled early s).record = (settledRecords W i settled early s).or s.record := by
  unfold loadSettled settledRecords
  have hfailed : ∀ job (s : Label β), job.fallback = settled.fallback →
      (loadFailed W i job s).record = settled.fallback.or s.record := by
    intro job s hjob
    rw [record_loadFailed, hjob]
  rw [record_loadManifest hfailed, Option.or_assoc]
  cases settled.correction with
  | none => rfl
  | some truth =>
    rw [Option.elim_some, fallsBack_record]
    rfl

theorem record_feedBlock (key : String) (fed : ℕ) (read : Read) : (feedBlock W i key fed read s).2.record = s.record := by
  apply feedBlock_cases (P := fun out => out.2.record = s.record) <;> intros <;> rfl

/-- **What each step of a load leaves in the record.** -/
theorem record_resume (answer : Answer) : (resume W i answer s).record = (records W s i answer).or s.record := by
  unfold resume records
  split
  case h_1 pushed source hat =>
      simp only [hat]
      unfold speculativeLocalFeed
      split
      · split <;> rfl
      · rfl
  case h_2 pushed source fed read hat =>
      simp only [hat]
      have hrecord := record_feedBlock (W := W) (i := i) (s := s) source.storeKey fed read
      generalize feedBlock W i source.storeKey fed read s = out at hrecord
      obtain ⟨cross, s'⟩ := out
      cases cross <;> exact hrecord
  case h_3 hat =>
      simp only [hat]
      exact record_loadSettled _ _
  case h_4 hat =>
      simp only [hat]
      exact record_loadSettled _ _
  case h_5 truth hat =>
      simp only [hat]
      cases truth.filter (servable W) with
      | none => rfl
      | some truth =>
        dsimp only
        rw [record_loadSettled, settledRecords, fallsBack_none]
        rfl
  case h_6 hat =>
      simp only [hat]
      rfl
  case h_7 manifest hat =>
      simp only [hat]
      rw [record_loadSettled, settledRecords, fallsBack_none]
      rfl
  case h_8 hat =>
      simp only [hat]
      rfl
  case h_9 hat =>
      simp only [hat]
      rfl
  case h_10 job fed read hat =>
      simp only [hat]
      have hrecord := record_feedBlock (W := W) (i := i) (s := s) job.source.storeKey fed read
      generalize feedBlock W i job.source.storeKey fed read s = out at hrecord
      obtain ⟨cross, s'⟩ := out
      replace hrecord : s'.record = s.record := hrecord
      rw [← hrecord]
      cases cross with
      | fenced => rfl
      | fed => rfl
      | ended => exact record_install (record_loadFailed job)
      | failed => exact record_loadFailed job s'
  case h_11 job since hat =>
      simp only [hat]
      split <;> rfl
  case h_12 =>
      -- an answer the await does not take: none of the branches of `records` is reached either
      split
      all_goals first | rfl | (exfalso; grind)

theorem record_startLoad (known : Option StoreManifest) : (startLoad W known s).record = s.record := by
  unfold startLoad loadStore
  cases known with
  | some manifest =>
    dsimp only
    rw [record_loadSettled, settledRecords, fallsBack_none]
    rfl
  | none =>
    dsimp only
    split
    · rfl
    · split
      · split <;> rfl
      · rfl

/-! ## Loads of one archive -/

/-- The load is for the archive `source` of `m`, and read `m` from the record. -/
def LoadsOf (m : StoreManifest) (source : PartitionRecord) : Stage → Prop
  | .sendIssuedIo pushed src => pushed = m ∧ src = source
  | .earlyFeed pushed src _ => pushed = m ∧ src = source
  | .truthRead pushed src _ => pushed = m ∧ src = source
  | .feed job _ => job.source = source
  | .announced job _ => job.source = source
  | .correctionRead => False
  | .manifestRead => False
  | .done => True

section

variable {m : StoreManifest} {source : PartitionRecord}

theorem loadsOf_install {job : Job} (hjob : job.source = source)
    (hfailed : ∀ s : Label β, (failed job s).record = some m →
      LoadsOf m source ((failed job s).loads i).stage) (hrecord : (install W failed i job s).record = some m) :
    LoadsOf m source ((install W failed i job s).loads i).stage := by
  revert hrecord
  apply install_cases (P := fun s' => s'.record = some m → LoadsOf m source (s'.loads i).stage)
  · intro _ _
    simp [goto, LoadsOf]
  · intro _ _
    exact hfailed _
  · intro _
    exact hfailed _
  · intro bytes s' _ _ _ _
    simpa [goto, LoadsOf] using hjob

/-- A load from `m`'s own manifest is for `m`'s archive, if its `catch` is. -/
theorem loadsOf_loadManifest (harchive : ∀ other, archiveOfManifest W manifest = some other → other = source)
    (hfailed : ∀ job (s : Label β), job.source = source → job.fallback = fallback →
      (failed job s).record = some m → LoadsOf m source ((failed job s).loads i).stage)
    (hrecord : (loadManifest W failed i manifest fallback early s).record = some m) :
    LoadsOf m source ((loadManifest W failed i manifest fallback early s).loads i).stage := by
  revert hrecord
  apply loadManifest_cases (P := fun s' => s'.record = some m → LoadsOf m source (s'.loads i).stage)
  · intro _ _
    simp [goto, LoadsOf]
  · intro _ _ _ _
    simp [ret, LoadsOf]
  · intro other fed _ hother _ _ _ _
    exact hfailed _ _ (harchive other hother) rfl
  · intro other fed _ hother _ _ _ _
    exact loadsOf_install (harchive other hother)
      fun s => hfailed _ s (harchive other hother) rfl
  · intro other job s' _ hother _ _ hjob _ _
    split
    · simp [goto, LoadsOf]
    · rw [hjob]
      simpa [goto, LoadsOf] using harchive other hother

theorem loadsOf_loadFailed (hsource : archiveOfManifest W m = some source) (job : Job) (s : Label β)
    (hrecord : (loadFailed W i job s).record = some m) :
    LoadsOf m source ((loadFailed W i job s).loads i).stage := by
  have hfallback := hrecord
  rw [record_loadFailed] at hfallback
  revert hrecord
  unfold loadFailed
  cases hjob : job.fallback with
  | none =>
    intro _
    simp [goto, LoadsOf]
  | some truth =>
    rw [hjob] at hfallback
    obtain rfl : truth = m := by simpa using hfallback
    apply loadsOf_loadManifest
    · intro other hother
      exact Option.some.inj (hother.symm.trans hsource)
    · intro job s _ _ _
      simp [goto, LoadsOf]

/-- A load settled on `m`, or on the manifest it corrects the record to. -/
theorem loadsOf_loadSettled (hsource : archiveOfManifest W m = some source) {settled : Settled}
    (hsettled : settled.manifest = m ∨ settled.fallback = none ∧ settled.correction = some settled.manifest)
    (hrecord : (loadSettled W i settled early s).record = some m) :
    LoadsOf m source ((loadSettled W i settled early s).loads i).stage := by
  have hmanifest : settled.manifest = m := by
    rcases hsettled with hm | ⟨hfallback, hcorrection⟩
    · exact hm
    · rw [record_loadSettled, settledRecords, hfallback, fallsBack_last, hcorrection] at hrecord
      simpa using hrecord
  revert hrecord
  unfold loadSettled
  apply loadsOf_loadManifest
  · intro other hother
    rw [hmanifest] at hother
    exact Option.some.inj (hother.symm.trans hsource)
  · intro job s _ _
    exact loadsOf_loadFailed hsource job s

theorem tiebreak_settles (pushed : StoreManifest) (src : PartitionRecord)
    (truth : Option StoreManifest) :
    (tiebreak W pushed src truth).manifest = pushed ∨ (tiebreak W pushed src truth).fallback = none ∧
        (tiebreak W pushed src truth).correction = some (tiebreak W pushed src truth).manifest := by
  unfold tiebreak
  split
  · exact .inl rfl
  · split
    · exact .inl rfl
    · split
      · exact .inl rfl
      · split
        · exact .inl rfl
        · exact .inr ⟨rfl, rfl⟩

/-- A load of `m`'s archive goes on as one, as long as the record names `m` after its step. -/
theorem loadsOf_resume (hsource : archiveOfManifest W m = some source) {answer : Answer}
    (hloads : LoadsOf m source (s.loads i).stage)
    (hrecord : (resume W i answer s).record = some m) :
    LoadsOf m source ((resume W i answer s).loads i).stage := by
  revert hrecord
  unfold resume
  split
  case h_1 pushed src hat =>
      rw [hat] at hloads
      unfold speculativeLocalFeed
      intro _
      split
      · split
        · simp [goto, LoadsOf]
        · simpa [goto, LoadsOf] using hloads
      · simpa [goto, LoadsOf] using hloads
  case h_2 pushed src fed read hat =>
      rw [hat] at hloads
      generalize feedBlock W i src.storeKey fed read s = out
      obtain ⟨cross, s'⟩ := out
      intro _
      cases cross with
      | fenced => simp [goto, LoadsOf]
      | fed => simpa [goto, LoadsOf] using hloads
      | ended => simpa [goto, LoadsOf] using hloads
      | failed => simpa [goto, LoadsOf] using hloads
  case h_3 pushed src early truth hat =>
      rw [hat] at hloads
      obtain ⟨rfl, rfl⟩ := hloads
      exact loadsOf_loadSettled hsource (tiebreak_settles _ _ _)
  case h_4 pushed src early hat =>
      rw [hat] at hloads
      obtain ⟨rfl, rfl⟩ := hloads
      exact loadsOf_loadSettled hsource (tiebreak_settles _ _ _)
  case h_5 hat =>
      rw [hat] at hloads
      exact hloads.elim
  case h_6 hat =>
      rw [hat] at hloads
      exact hloads.elim
  case h_7 hat =>
      rw [hat] at hloads
      exact hloads.elim
  case h_8 hat =>
      rw [hat] at hloads
      exact hloads.elim
  case h_9 hat =>
      rw [hat] at hloads
      exact hloads.elim
  case h_10 job fed read hat =>
      rw [hat] at hloads
      generalize feedBlock W i job.source.storeKey fed read s = out
      obtain ⟨cross, s'⟩ := out
      cases cross with
      | fenced => simp [goto, LoadsOf]
      | fed => simpa [goto, LoadsOf] using fun _ => hloads
      | ended => exact loadsOf_install hloads fun s => loadsOf_loadFailed hsource job s
      | failed => exact loadsOf_loadFailed hsource job s'
  case h_11 job since hat =>
      intro _
      split
      · simp [goto, LoadsOf]
      · simp [ret, LoadsOf]
  case h_12 =>
      intro _
      exact hloads

/-! ## The label from the record on -/

/-- What the object's own name and build make of the manifest it is told of. -/
structure CanServe (W : World β) (m : StoreManifest) (source : PartitionRecord) : Prop where
  archive : archiveOfManifest W m = some source
  raw : rawFormat m = true
  format : m.formatVersion = W.ARCHIVE_FORMAT_VERSION

/-- From the settled `preparePublish` on: the record names `m`, and the load in flight is of it. -/
structure Bound (W : World β) (m : StoreManifest) (source : PartitionRecord) (s : Label β) :
    Prop where
  sound : Sound W True s
  record : s.record = some m
  loads : ∀ i, s.drives i → LoadsOf m source (s.loads i).stage

/-- From the settled `commitPublish` on: no other store is live, either. -/
structure Swapped (W : World β) (m : StoreManifest) (source : PartitionRecord) (s : Label β) :
    Prop extends Bound W m source s where
  live : ∀ c, s.liveCurrent = some c → c.storeKey = source.storeKey

/-- The step records no other manifest and swaps to no other archive. -/
def Kept (W : World β) (m : StoreManifest) (source : PartitionRecord) (s : Label β) : Event → Prop
  | .resumes i answer => records W s i answer = none ∨ records W s i answer = some m
  | .told x => x = m
  | .swapToStore x => ∀ other ∈ archiveOfManifest W x, other = source
  | .swapResumes x => ∀ other ∈ archiveOfManifest W x, other = source
  | .refreshPrefetched =>
    match s.refreshing with
    | some (.prefetching x) => ∀ other ∈ archiveOfManifest W x, other = source
    | _ => True
  | _ => True

instance (event : Event) : Decidable (Kept W m source s event) :=
  match event with
  | .resumes i answer =>
    inferInstanceAs (Decidable (records W s i answer = none ∨ records W s i answer = some m))
  | .told x => inferInstanceAs (Decidable (x = m))
  | .swapToStore x =>
    inferInstanceAs (Decidable (∀ other ∈ archiveOfManifest W x, other = source))
  | .swapResumes x =>
    inferInstanceAs (Decidable (∀ other ∈ archiveOfManifest W x, other = source))
  | .refreshPrefetched =>
    match h : s.refreshing with
    | some (.prefetching x) =>
      decidable_of_iff (∀ other ∈ archiveOfManifest W x, other = source) (by simp [Kept, h])
    | some .reading => .isTrue (by simp [Kept, h])
    | some .swapping => .isTrue (by simp [Kept, h])
    | none => .isTrue (by simp [Kept, h])
  | .getEngine _ | .refreshNow _ | .refreshRead _ | .refreshSettled | .deadline _ | .settled _
  | .trap | .copies _ _ => .isTrue trivial

theorem sound_step (h : Sound W True s) (event : Event) : Sound W True (step W s event) :=
  h.step fun hloose => absurd trivial hloose

theorem record_kept {answer : Answer} (hrecord : s.record = some m)
    (hkept : records W s i answer = none ∨ records W s i answer = some m) :
    (resume W i answer s).record = some m := by
  rw [record_resume]
  rcases hkept with hnone | hm
  · rw [hnone]
    exact hrecord
  · rw [hm, Option.some_or]

theorem CanServe.recorded (hm : CanServe W m source) (hrecord : s.record = some m) :
    s.record.filter (·.storeBytes ≠ 0) = some m := by
  have hbytes : m.storeBytes ≠ 0 := by
    have hraw := hm.raw
    unfold rawFormat at hraw
    simpa using (Bool.and_eq_true_iff.mp hraw).1
  rw [hrecord, Option.filter_some_pos]
  simpa using hbytes

/-- A load that finds `m` recorded starts with it. -/
theorem loadStore_recorded (hm : CanServe W m source) (hrecord : s.record = some m) :
    loadStore W i none s = s.goto i (.sendIssuedIo m source) := by
  have hpushed := hm.recorded hrecord
  unfold loadStore
  simp only [hpushed, hm.format, if_true, hm.archive]

namespace Bound

theorem resume (h : Bound W m source s) (hm : CanServe W m source) {answer : Answer}
    (hkept : records W s i answer = none ∨ records W s i answer = some m) :
    Bound W m source (resume W i answer s) := by
  have hrecord := record_kept h.record hkept
  refine ⟨sound_step h.sound (.resumes i answer), hrecord, ?_⟩
  intro j hj
  by_cases hji : j = i
  · subst hji
    apply loadsOf_resume hm.archive ?_ hrecord
    by_cases hdone : (s.loads j).stage = .done
    · rw [hdone]
      exact trivial
    · exact h.loads j ⟨hdone, (resume_fence answer).symm.trans hj.2⟩
  · have hload := resume_others (W := W) (s := s) answer hji
    rw [hload]
    exact h.loads j ⟨by simpa [hload] using hj.1, by simpa [abandoned, hload] using hj.2⟩

/-- A load is started of `m`'s archive: from the record, or by a swap to it. -/
theorem startLoad (h : Bound W m source s) (hm : CanServe W m source) (hfree : s.loading = none)
    {known : Option StoreManifest}
    (hknown : ∀ x ∈ known, ∀ other ∈ archiveOfManifest W x, other = source) :
    Bound W m source (startLoad W known s) := by
  have hsound := h.sound.startLoad hfree known
  have hrecord := (record_startLoad (W := W) known).trans h.record
  refine ⟨hsound, hrecord, ?_⟩
  intro j hj
  have hslot : (StoreLoad.startLoad W known s).loading = some s.nextLoad :=
    (Moves.loadStore (W := W) known).loading
  obtain rfl : j = s.nextLoad := Option.some.inj ((hsound.slot j hj).symm.trans hslot)
  revert hrecord
  unfold StoreLoad.startLoad loadStore
  cases known with
  | some x =>
    apply loadsOf_loadManifest
    · exact hknown x rfl
    · intro job s _ _
      exact loadsOf_loadFailed hm.archive job s
  | none =>
    intro _
    have hstart := loadStore_recorded hm (i := s.nextLoad) (s := s.started) h.record
    unfold loadStore at hstart
    dsimp only at hstart ⊢
    rw [hstart]
    simp [goto, LoadsOf]

theorem other (h : Bound W m source s) {s' : Label β} (hsound : Sound W True s')
    (hrecord : s'.record = s.record)
    (hloads : ∀ j, s'.drives j → s'.loads j = s.loads j) : Bound W m source s' := by
  refine ⟨hsound, hrecord.trans h.record, ?_⟩
  intro j hj
  have hload := hloads j hj
  rw [hload]
  exact h.loads j ⟨by simpa [hload] using hj.1, by simpa [abandoned, hload] using hj.2⟩

theorem swapNow (h : Bound W m source s) (hm : CanServe W m source) (hfree : s.loading = none)
    {src : PartitionRecord}
    (hknown : ∀ other ∈ archiveOfManifest W manifest, other = source) :
    Bound W m source (swapNow W manifest src s) := by
  unfold StoreLoad.swapNow
  split
  · exact h
  · apply h.startLoad hm hfree
    intro x hx
    rw [← Option.some.inj hx]
    exact hknown

theorem swapToStore (h : Bound W m source s) (hm : CanServe W m source)
    (hknown : ∀ other ∈ archiveOfManifest W manifest, other = source) :
    Bound W m source (swapToStore W manifest s) := by
  have hsound := h.sound.swapToStore manifest
  revert hsound
  unfold StoreLoad.swapToStore
  split
  · exact fun _ => h
  · split
    · exact fun _ => h
    · split
      · exact fun hsound => h.other hsound rfl fun _ _ => rfl
      · rename_i hfree
        exact fun _ => h.swapNow hm (by simpa using hfree) hknown

theorem step (h : Bound W m source s) (hm : CanServe W m source) {event : Event}
    (hkept : Kept W m source s event) : Bound W m source (step W s event) := by
  have hsound := sound_step h.sound event
  revert hsound
  cases event with
  | getEngine backedOff =>
    simp only [StoreLoad.step, getEngine]
    split
    · exact fun _ => h
    · rename_i hfree
      simp only [Bool.or_eq_true, not_or, Option.not_isSome_iff_eq_none] at hfree
      exact fun _ => h.startLoad hm hfree.1.2 (by simp)
  | swapToStore manifest => exact fun _ => h.swapToStore hm hkept
  | swapResumes manifest =>
    simp only [StoreLoad.step, swapResumes]
    split
    · exact fun _ => h
    · split
      · rename_i hwaits
        intro _
        have hother : Bound W m source { s with waiting := s.waiting.erase manifest } :=
          h.other (h.sound.aside _ _ _ _) rfl fun _ _ => rfl
        exact hother.swapNow hm hwaits.2 hkept
      · exact fun _ => h
  | refreshNow known =>
    simp only [StoreLoad.step]
    split
    · exact fun _ => h
    · exact fun hsound => h.other hsound rfl fun _ _ => rfl
  | refreshRead manifest =>
    simp only [StoreLoad.step]
    split
    · exact fun hsound => h.other hsound rfl fun _ _ => rfl
    · exact fun _ => h
  | refreshPrefetched =>
    simp only [StoreLoad.step]
    split
    · rename_i manifest hrefreshing
      intro _
      have hother : Bound W m source { s with refreshing := some .swapping } :=
        h.other (h.sound.aside _ _ _ _) rfl fun _ _ => rfl
      simp only [Kept, hrefreshing] at hkept
      exact hother.swapToStore hm hkept
    · exact fun _ => h
  | refreshSettled =>
    simp only [StoreLoad.step]
    split
    · exact fun hsound => h.other hsound rfl fun _ _ => rfl
    · exact fun _ => h
  | resumes i answer => exact fun _ => h.resume hm hkept
  | deadline i =>
    simp only [StoreLoad.step]
    split
    · intro hsound
      apply h.other hsound rfl
      intro j hj
      have hji : j ≠ i := by
        rintro rfl
        simpa [abandoned] using hj.2
      exact Function.update_of_ne hji _ _
    · exact fun _ => h
  | settled i =>
    simp only [StoreLoad.step]
    split
    · exact fun hsound => h.other hsound rfl fun _ _ => rfl
    · exact fun _ => h
  | trap => exact fun hsound => h.other hsound rfl fun _ _ => rfl
  | copies key held => exact fun hsound => h.other hsound rfl fun _ _ => rfl
  | told manifest =>
    intro hsound
    exact ⟨hsound, congrArg some hkept, h.loads⟩

end Bound

theorem record_swapNow {src : PartitionRecord} : (swapNow W manifest src s).record = s.record := by
  unfold swapNow
  split
  · rfl
  · exact record_startLoad _

theorem record_swapToStore : (swapToStore W manifest s).record = s.record := by
  unfold swapToStore
  split
  · rfl
  · split
    · rfl
    · split
      · rfl
      · exact record_swapNow

theorem record_step {event : Event} (hrecord : s.record = some m)
    (hkept : Kept W m source s event) : (step W s event).record = some m := by
  cases event with
  | getEngine backedOff =>
    simp only [step, getEngine]
    split
    · exact hrecord
    · exact (record_startLoad _).trans hrecord
  | swapToStore manifest => exact record_swapToStore.trans hrecord
  | swapResumes manifest =>
    simp only [step, swapResumes]
    split
    · exact hrecord
    · split
      · exact record_swapNow.trans hrecord
      · exact hrecord
  | refreshPrefetched =>
    simp only [step]
    split
    · exact record_swapToStore.trans hrecord
    · exact hrecord
  | resumes i answer => exact record_kept hrecord hkept
  | told manifest => exact congrArg some hkept
  | trap | copies => exact hrecord
  | refreshNow | refreshRead | refreshSettled | deadline | settled =>
    simp only [step]
    split <;> exact hrecord

/-! ## What becomes live -/

variable {c : Current}

theorem live_startLoad (known : Option StoreManifest)
    (hc : (startLoad W known s).liveCurrent = some c) : s.liveCurrent = some c :=
  (Moves.loadStore (W := W) (s := s.started) known).live hc

theorem live_swapNow {src : PartitionRecord}
    (hc : (swapNow W manifest src s).liveCurrent = some c) : s.liveCurrent = some c := by
  revert hc
  unfold swapNow
  split
  · exact id
  · exact live_startLoad _

theorem live_swapToStore (hc : (swapToStore W manifest s).liveCurrent = some c) : s.liveCurrent = some c := by
  revert hc
  unfold swapToStore
  split
  · exact id
  · split
    · exact id
    · split
      · exact id
      · exact live_swapNow

theorem live_step (h : Sound W True s) {event : Event}
    (hc : (step W s event).liveCurrent = some c) :
    s.liveCurrent = some c ∨ ∃ i job since, s.drives i ∧ (s.loads i).stage = .announced job since ∧
        c.storeKey = job.source.storeKey := by
  revert hc
  cases event with
  | getEngine backedOff =>
    simp only [step, getEngine]
    split
    · exact .inl
    · exact fun hc => .inl (live_startLoad _ hc)
  | swapToStore manifest => exact fun hc => .inl (live_swapToStore hc)
  | swapResumes manifest =>
    simp only [step, swapResumes]
    split
    · exact .inl
    · split
      · intro hc
        have hlive := live_swapNow hc
        exact .inl hlive
      · exact .inl
  | refreshNow known =>
    simp only [step]
    split <;> exact .inl
  | refreshRead manifest =>
    simp only [step]
    split <;> exact .inl
  | refreshPrefetched =>
    simp only [step]
    split
    · intro hc
      have hlive := live_swapToStore hc
      exact .inl hlive
    · exact .inl
  | refreshSettled =>
    simp only [step]
    split <;> exact .inl
  | resumes i answer =>
    intro hc
    rcases resume_moves (W := W) i answer s with hmoves | hserves
    · exact .inl (hmoves.live hc)
    · right
      obtain ⟨job, since, hat, hs'⟩ := hserves.stage
      refine ⟨i, job, since, ⟨by simp [hat], hserves.fresh⟩, hat, ?_⟩
      replace hc : (resume W i answer s).liveCurrent = some c := hc
      rw [hs'] at hc
      have hcurrent := (Option.filter_eq_some_iff.mp hc).1
      rw [← Option.some.inj hcurrent]
  | deadline i =>
    simp only [step]
    split <;> exact .inl
  | settled i =>
    simp only [step]
    split <;> exact .inl
  | trap =>
    intro hc
    obtain ⟨hcurrent, hgeneration⟩ := Option.filter_eq_some_iff.mp hc
    have hpast := h.past c hcurrent
    replace hgeneration : c.generation = s.generation + 1 := of_decide_eq_true hgeneration
    omega
  | copies key held => exact .inl
  | told manifest => exact .inl

theorem Swapped.step (h : Swapped W m source s) (hm : CanServe W m source) {event : Event}
    (hkept : Kept W m source s event) : Swapped W m source (step W s event) := by
  refine ⟨h.toBound.step hm hkept, ?_⟩
  intro c hc
  rcases live_step h.sound hc with hlive | ⟨i, job, since, hdrives, hat, hkey⟩
  · exact h.live c hlive
  · have hloads := h.loads i hdrives
    rw [hat] at hloads
    rw [hkey]
    exact congrArg PartitionRecord.storeKey hloads

/-- A load known to be of `m` unloads whatever else the object serves. -/
theorem live_loadManifest (hm : CanServe W m source) (failed : Job → Label β → Label β)
    (hc : (loadManifest W failed i m none none s).liveCurrent = some c) :
    c.storeKey = source.storeKey := by
  revert hc
  apply loadManifest_cases (P := fun s' => s'.liveCurrent = some c → c.storeKey = source.storeKey)
  · rintro (hraw | harchive)
    · simp [hm.raw] at hraw
    · simp [hm.archive] at harchive
  · intro other hother hkey hc
    obtain rfl : source = other := Option.some.inj (hm.archive.symm.trans hother)
    replace hc : s.liveCurrent = some c := hc
    simpa [Label.liveKey, hc] using hkey
  · intro _ fed _ _ _ hfed
    simp at hfed
  · intro _ fed _ _ _ hfed
    simp at hfed
  · intro other job s' _ _ _ _ _ hs' hc
    have hnone : s'.liveCurrent = none := by
      rw [hs']
      exact liveCurrent_unloadCurrent
    split at hc
    · exact absurd (hnone.symm.trans hc) (by simp)
    · exact absurd (hnone.symm.trans hc) (by simp)

/-- A swap to `m` unloads whatever else the object serves. -/
theorem Bound.swap (h : Bound W m source s) (hm : CanServe W m source) (hfree : s.loading = none) :
    Swapped W m source (StoreLoad.startLoad W (some m) s) := by
  refine ⟨h.startLoad hm hfree ?_, ?_⟩
  · intro x hx other hother
    rw [← Option.some.inj hx] at hother
    exact Option.some.inj (hother.symm.trans hm.archive)
  · intro c hc
    exact live_loadManifest hm (s := s.started) (loadFailed W s.nextLoad) hc

end

end StoreLoad

namespace PublishSwap

open StoreLoad

variable {β : Type} {W : World β} {m : StoreManifest} {source : PartitionRecord} {o : Object β}

/-! ## Runs of a publish -/

/-- **The invariant**, by the await the publish stands at. -/
def Stands (W : World β) (m : StoreManifest) (source : PartitionRecord) (o : Object β) : Prop :=
  match o.phase with
  | .idle => Sound W True o.label
  | .preparing => Sound W True o.label ∧ o.label.record = some m
  | .prefetching | .prepared | .settling => Bound W m source o.label
  | .swapping _ | .committed | .failed => Swapped W m source o.label

/-- The record's write goes through; and from then on no step records another manifest, or swaps
to another archive. -/
def Keeps (W : World β) (m : StoreManifest) (source : PartitionRecord) (o : Object β) : Event → Prop
  | .preparePublish recorded => recorded = true
  | .label event => o.phase ≠ .idle → Kept W m source o.label event
  | _ => True

theorem servableBy (hm : CanServe W m source) : manifestServableBy W m = true := by
  have harchive := hm.archive
  unfold archiveOfManifest at harchive
  unfold manifestServableBy
  cases hcount : m.partitionCount with
  | none => simp [hcount] at harchive
  | some n =>
    cases hpartition : W.partition with
    | none => simp [hpartition] at harchive
    | some k => simp [hm.format]

instance (event : Event) : Decidable (Keeps W m source o event) :=
  match event with
  | .preparePublish recorded => inferInstanceAs (Decidable (recorded = true))
  | .label event => inferInstanceAs (Decidable (o.phase ≠ .idle → Kept W m source o.label event))
  | .prepareSettled | .prefetched | .commitPublish | .commitSettled | .swapSettled =>
    .isTrue trivial

theorem Stands.sound (h : Stands W m source o) : Sound W True o.label := by
  revert h
  unfold Stands
  cases o.phase with
  | idle => exact id
  | preparing => exact fun h => h.1
  | prefetching | prepared | settling => exact fun h => h.sound
  | swapping | committed | failed => exact fun h => h.sound

theorem Stands.record (h : Stands W m source o) (hphase : o.phase ≠ .idle) : o.label.record = some m := by
  revert h
  unfold Stands
  cases hat : o.phase with
  | idle => exact absurd hat hphase
  | preparing => exact fun h => h.2
  | prefetching | prepared | settling => exact fun h => h.record
  | swapping | committed | failed => exact fun h => h.record

theorem bound_of_free {s : Label β} (hsound : Sound W True s) (hrecord : s.record = some m)
    (hfree : s.loading = none) : Bound W m source s := by
  refine ⟨hsound, hrecord, ?_⟩
  intro i hi
  have hslot := hsound.slot i hi
  simp [hfree] at hslot

theorem Stands.label (h : Stands W m source o) (hm : CanServe W m source) {event : StoreLoad.Event}
    (hkept : o.phase ≠ .idle → Kept W m source o.label event) :
    Stands W m source { o with label := StoreLoad.step W o.label event } := by
  revert h
  unfold Stands
  cases hat : o.phase with
  | idle => exact fun hsound => sound_step hsound event
  | preparing =>
    rintro ⟨hsound, hrecord⟩
    exact ⟨sound_step hsound event, record_step hrecord (hkept (by simp [hat]))⟩
  | prefetching | prepared | settling =>
    intro h
    exact h.step hm (hkept (by simp [hat]))
  | swapping | committed | failed =>
    intro h
    exact h.step hm (hkept (by simp [hat]))

theorem Stands.commitSettled (h : Bound W m source o.label) (hm : CanServe W m source)
    (hfree : o.label.loading = none) : Stands W m source (commitSettled W o) := by
  have hcommitted : (∀ c, o.label.liveCurrent = some c → c.storeKey = source.storeKey) →
      Stands W m source { o with phase := .committed } := fun hlive => ⟨h, hlive⟩
  have hpushed : o.label.record.filter (·.storeBytes ≠ 0) = some m := hm.recorded h.record
  unfold PublishSwap.commitSettled
  split
  · rename_i hcold
    apply hcommitted
    intro c hc
    simp [hc] at hcold
  · simp only [hpushed, hm.archive]
    split
    · rename_i hkey
      apply hcommitted
      intro c hc
      simpa [Label.liveKey, hc] using hkey
    · exact h.swap hm hfree

theorem Stands.step (h : Stands W m source o) (hm : CanServe W m source) {event : Event}
    (hkept : Keeps W m source o event) : Stands W m source (step W m o event) := by
  have hservable : manifestServableBy W m = true := servableBy hm
  cases event with
  | label event => exact h.label hm hkept
  | preparePublish recorded =>
    obtain rfl : recorded = true := hkept
    have hprepared : preparePublish W m true o =
        { label := o.label.recordLiveManifest m, phase := .preparing } := by
      simp [preparePublish, hservable]
    simp only [PublishSwap.step, hprepared]
    split
    · exact ⟨h.sound.aside _ _ _ _, rfl⟩
    · exact h
  | prepareSettled =>
    simp only [PublishSwap.step]
    split
    · rename_i hsettled
      have hbound : Bound W m source o.label :=
        bound_of_free h.sound (h.record (by simp [hsettled.1])) hsettled.2
      unfold prepareSettled
      split
      · unfold pruneToManifest
        rw [hm.archive]
        exact hbound.other (hbound.sound.aside _ _ _ _) rfl fun _ _ => rfl
      · exact hbound
    · exact h
  | prefetched =>
    simp only [PublishSwap.step]
    split
    · rename_i hat
      unfold Stands at h
      rw [hat] at h
      exact h
    · exact h
  | commitPublish =>
    simp only [PublishSwap.step]
    split
    · rename_i hat
      unfold Stands at h
      rcases hat with hat | hat | hat <;> rw [hat] at h
      · exact h
      · exact h.toBound
      · exact h.toBound
    · exact h
  | commitSettled =>
    simp only [PublishSwap.step]
    split
    · rename_i hat
      unfold Stands at h
      rw [hat.1] at h
      exact Stands.commitSettled h hm hat.2
    · exact h
  | swapSettled =>
    simp only [PublishSwap.step]
    split
    · rename_i i hat
      have hswapped : Swapped W m source o.label := by
        unfold Stands at h
        rw [hat] at h
        exact h
      unfold swapSettled
      split
      · exact hswapped
      · split
        · exact h
        · split
          · exact hswapped
          · exact hswapped
    · exact h

def thirdNight : StoreManifest where
  storeKey := "store:3.store"
  storeBytes := 1
  formatVersion := 2026101004
  builtAt := "3"
  partitionCount := some 1
  partitionHash := "fnv1a64/oracle_id/v1"
  partitions := [{ storeKey := "store:3-p0.store" }]

/-- A request starts a load from the recorded manifest; the third night is pushed while it waits
for KV's, which is `truth`; it loads, and the publish goes on up to its commit. -/
def publish (truth : StoreManifest) : List Event :=
  [.label (.getEngine false), .label (.resumes 0 .sent), .preparePublish true] ++ (fed 0 truth).map .label ++
    [.label (.resumes 0 .announced), .label (.settled 0), .prepareSettled, .prefetched, .commitPublish, .commitSettled]

def published (record truth : StoreManifest) (events : List Event) : Object ℕ :=
  (publish truth ++ events).foldl (PublishSwap.step nights thirdNight)
    { label := cold (some record) fun _ => false }

def swapped : List Event :=
  [.label (.resumes 1 (.read .block)), .label (.resumes 1 (.read .block)),
    .label (.resumes 1 .announced), .label (.settled 1), .swapSettled]

end PublishSwap
