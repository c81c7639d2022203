-- SUMMARY: What one step of a load can do: the ways it goes on, and what of the label it leaves alone.
import Sylvan.Engine.StoreLoad

/-!
# Steps of a load

The branches of a load's steps, once each, so that a fact about a step is shown branch by
branch without unfolding it; and the part of the label no step of a load changes but by
making its store current. An abandoned load, wherever its fence is looked at or not, never
changes the load buffer, and the store only by unloading a live one.
-/

namespace StoreLoad

variable {β : Type} {W : World β} {i j : ℕ} {s : Label β}

/-! ## One step, case by case -/

variable {failed : Job → Label β → Label β}

theorem loadManifest_cases {P : Label β → Prop}
    {manifest : StoreManifest} {fallback : Option StoreManifest} {early : Option EarlyFeed}
    (done : rawFormat manifest = false ∨ archiveOfManifest W manifest = none → P (s.goto i .done))
    (returned : ∀ source, archiveOfManifest W manifest = some source → s.liveKey = some source.storeKey → P (s.ret i))
    (early_failed : ∀ source fed, rawFormat manifest = true → archiveOfManifest W manifest = some source →
      s.liveKey ≠ some source.storeKey → early = some fed → fed.storeKey = source.storeKey →
      fed.failed = true → P (failed ⟨manifest, source, fallback, true⟩ (unloadCurrent i s)))
    (early_fed : ∀ source fed, rawFormat manifest = true → archiveOfManifest W manifest = some source →
      s.liveKey ≠ some source.storeKey → early = some fed → fed.storeKey = source.storeKey →
      fed.failed = false →
      P (install W failed i ⟨manifest, source, fallback, true⟩ (unloadCurrent i s)))
    (feed : ∀ source job s', rawFormat manifest = true → archiveOfManifest W manifest = some source →
      s.liveKey ≠ some source.storeKey →
      (∀ fed, early = some fed → fed.storeKey ≠ source.storeKey) → job = ⟨manifest, source, fallback, s.held source.storeKey⟩ →
      s' = unloadCurrent i (dropOlderBuilds W i job s) →
      P (if s'.abandoned i then s'.goto i .done
        else (s'.begin_store_load i).goto i (.feed job 0))) :
    P (loadManifest W failed i manifest fallback early s) := by
  unfold loadManifest
  by_cases hraw : rawFormat manifest = false
  · rw [if_pos hraw]
    exact done (.inl hraw)
  rw [if_neg hraw]
  replace hraw : rawFormat manifest = true := by simpa using hraw
  cases harchive : archiveOfManifest W manifest with
  | none => exact done (.inr harchive)
  | some source =>
    by_cases hlive : s.liveKey = some source.storeKey
    · simpa only [if_pos hlive] using returned source harchive hlive
    simp only [if_neg hlive]
    cases hearly : early.filter (·.storeKey = source.storeKey) with
    | none =>
      refine feed source _ _ hraw harchive hlive ?_ rfl rfl
      intro fed hfed
      simpa [hfed] using hearly
    | some fed =>
      obtain ⟨hfed, hkey⟩ := Option.filter_eq_some_iff.mp hearly
      replace hkey : fed.storeKey = source.storeKey := of_decide_eq_true hkey
      cases hfailed : fed.failed with
      | true =>
        simpa only [hfailed, if_true] using
          early_failed source fed hraw harchive hlive hfed hkey hfailed
      | false =>
        simpa only [hfailed, Bool.false_eq_true, if_false] using
          early_fed source fed hraw harchive hlive hfed hkey hfailed

theorem feedBlock_cases {P : Cross × Label β → Prop} {key : String} {fed : ℕ} {read : Read}
    (unreadable : read = .unreadable → P (.failed, s))
    (fenced : s.abandoned i = true → P (.fenced, s))
    (refused : s.abandoned i = false → P (.failed, (s.touch i .engine).withLoading none))
    (ended : (W.archive key)[fed]? = none → P (.ended, s))
    (unbegun : s.abandoned i = false → s.inst.loading = none → P (.failed, s.touch i .engine))
    (crossed : ∀ block bytes, s.abandoned i = false → (W.archive key)[fed]? = some block → s.inst.loading = some bytes →
      P (.fed, (s.touch i .engine).withLoading (some (bytes ++ [block])))) :
    P (feedBlock W i key fed read s) := by
  cases read with
  | unreadable => exact unreadable rfl
  | refused =>
    cases habandoned : s.abandoned i with
    | true => simpa [feedBlock, habandoned] using fenced habandoned
    | false => simpa [feedBlock, habandoned] using refused habandoned
  | block =>
    cases hblock : (W.archive key)[fed]? with
    | none => simpa [feedBlock, hblock] using ended hblock
    | some block =>
      cases habandoned : s.abandoned i with
      | true => simpa [feedBlock, hblock, habandoned] using fenced habandoned
      | false =>
        cases hloading : s.inst.loading with
        | none =>
          simpa [feedBlock, hblock, habandoned, hloading] using unbegun habandoned hloading
        | some bytes =>
          simpa [feedBlock, hblock, habandoned, hloading] using
            crossed block bytes habandoned hblock hloading

theorem install_cases {P : Label β → Prop} {job : Job}
    (fenced : s.abandoned i = true → P (s.goto i .done))
    (unbegun : s.abandoned i = false → s.inst.loading = none → P (failed job (s.touch i .engine)))
    (refused : s.abandoned i = false → P (failed job ((s.touch i .engine).withLoading none)))
    (installed : ∀ bytes s', s.abandoned i = false → s.inst.loading = some bytes →
      s' = ((s.touch i .engine).withLoading none).withStore (some bytes) →
      P ((commit W i job s').goto i (.announced job s.generation))) :
    P (install W failed i job s) := by
  unfold install
  cases habandoned : s.abandoned i with
  | true => simpa only [if_true] using fenced habandoned
  | false =>
    simp only [Bool.false_eq_true, if_false]
    cases hloading : s.inst.loading with
    | none => simpa [finish_store_load, hloading] using unbegun habandoned hloading
    | some bytes =>
      by_cases haccepts : W.accepts bytes = true
      · simpa [finish_store_load, hloading, haccepts] using
          installed bytes _ habandoned hloading rfl
      · simpa [finish_store_load, hloading, haccepts] using refused habandoned

/-! ## What a step leaves alone -/

theorem inst_commit (job : Job) : (commit W i job s).inst = s.inst := by
  unfold commit
  split <;> rfl

theorem liveCurrent_commit (job : Job) : (commit W i job s).liveCurrent = s.liveCurrent := by
  unfold commit
  split <;> rfl

theorem generation_commit (job : Job) : (commit W i job s).generation = s.generation := by
  unfold commit
  split <;> rfl

theorem inst_loading_unloadCurrent : (unloadCurrent i s).inst.loading = s.inst.loading := by
  unfold unloadCurrent
  split <;> rfl

theorem liveCurrent_unloadCurrent : (unloadCurrent i s).liveCurrent = none := by
  unfold unloadCurrent
  cases hlive : s.liveCurrent with
  | none => exact hlive
  | some c => rfl

/-! ## Moves -/

/-- What every step of load `i` leaves alone, but the one that makes its store current. -/
structure Moves (i : ℕ) (s s' : Label β) : Prop where
  loading : s'.loading = s.loading
  others : ∀ j, j ≠ i → s'.loads j = s.loads j
  fence : s'.abandoned i = s.abandoned i
  generation : s'.generation = s.generation
  serial : s'.nextSerial = s.nextSerial
  names : s'.inst.names = s.inst.names
  printed : s'.inst.printed = s.inst.printed
  current : s'.current = s.current ∨ s'.current = none
  fenced : s.abandoned i = true → s'.inst.loading = s.inst.loading ∧ (s'.current = s.current ∧ s'.inst.store = s.inst.store ∨
      s.liveCurrent ≠ none ∧ s'.current = none ∧ s'.inst.store = none)

namespace Moves

variable {s' s'' : Label β}

theorem refl : Moves i s s :=
  { loading := rfl, others := fun _ _ => rfl, fence := rfl, generation := rfl, serial := rfl
    names := rfl, printed := rfl, current := .inl rfl
    fenced := fun _ => ⟨rfl, .inl ⟨rfl, rfl⟩⟩ }

theorem liveCurrent (h : Moves i s s') (hcurrent : s'.current = s.current) : s'.liveCurrent = s.liveCurrent := by
  simp [Label.liveCurrent, hcurrent, h.generation]

theorem live (h : Moves i s s') {c : Current} (hc : s'.liveCurrent = some c) : s.liveCurrent = some c := by
  rcases h.current with hsame | hnone
  · exact (h.liveCurrent hsame).symm.trans hc
  · simp [Label.liveCurrent, hnone] at hc

theorem trans (h : Moves i s s') (h' : Moves i s' s'') : Moves i s s'' :=
  { loading := h'.loading.trans h.loading
    others := fun j hj => (h'.others j hj).trans (h.others j hj)
    fence := h'.fence.trans h.fence
    generation := h'.generation.trans h.generation
    serial := h'.serial.trans h.serial
    names := h'.names.trans h.names
    printed := h'.printed.trans h.printed
    current := by
      rcases h'.current with hsame | hnone
      · rw [hsame]
        exact h.current
      · exact .inr hnone
    fenced := by
      intro habandoned
      obtain ⟨hloading, hstore⟩ := h.fenced habandoned
      obtain ⟨hloading', hstore'⟩ := h'.fenced (h.fence.trans habandoned)
      refine ⟨hloading'.trans hloading, ?_⟩
      rcases hstore with ⟨hcurrent, hstore⟩ | ⟨hlive, hcurrent, hstore⟩
      · rw [← h.liveCurrent hcurrent, ← hcurrent, ← hstore]
        exact hstore'
      · refine .inr ⟨hlive, ?_⟩
        rcases hstore' with ⟨hcurrent', hstore'⟩ | ⟨_, hcurrent', hstore'⟩
        · exact ⟨hcurrent'.trans hcurrent, hstore'.trans hstore⟩
        · exact ⟨hcurrent', hstore'⟩ }

theorem aside (touched : List Touched) (record : Option StoreManifest) (held : String → Bool) :
    Moves i s { s with touched, record, held } :=
  { refl with }

theorem put {load : Load} (hfence : load.abandoned = s.abandoned i) : Moves i s (s.put i load) :=
  { refl (s := s) (i := i) with
    others := fun _ hj => s.put_loads_of_ne hj load
    fence := by simpa [Label.abandoned] using hfence }

theorem goto (stage : Stage) : Moves i s (s.goto i stage) := put rfl

theorem ret : Moves i s (s.ret i) := put rfl

theorem touch (touch : Touch) : Moves i s (s.touch i touch) := aside _ _ _

theorem withLoading (hfresh : s.abandoned i = false) (loading : Option (List β)) : Moves i s (s.withLoading loading) :=
  { refl (s := s) (i := i) with
    names := rfl, printed := rfl
    fenced := fun habandoned => by simp [hfresh] at habandoned }

theorem withStore (hfresh : s.abandoned i = false) (store : Option (List β)) : Moves i s (s.withStore store) :=
  { refl (s := s) (i := i) with
    names := rfl, printed := rfl
    fenced := fun habandoned => by simp [hfresh] at habandoned }

theorem unloadCurrent : Moves i s (unloadCurrent i s) := by
  unfold StoreLoad.unloadCurrent
  cases hlive : s.liveCurrent with
  | none => exact refl
  | some c =>
    exact { refl (s := s) (i := i) with
      names := rfl, printed := rfl, current := .inr rfl
      fenced := fun _ => ⟨rfl, .inr ⟨by simp [hlive], rfl, rfl⟩⟩ }

theorem discard (job : Job) : Moves i s (discard i job s) := by
  unfold StoreLoad.discard
  split
  · exact aside _ _ _
  · exact refl

theorem dropOlderBuilds (job : Job) : Moves i s (dropOlderBuilds W i job s) := by
  unfold StoreLoad.dropOlderBuilds
  split
  · exact refl
  · exact aside _ _ _

theorem commit (job : Job) : Moves i s (commit W i job s) := by
  unfold StoreLoad.commit
  split
  · exact refl
  · exact aside _ _ _

theorem feed (hfresh : s.abandoned i = false) (loading : Option (List β)) :
    Moves i s ((s.touch i .engine).withLoading loading) :=
  (touch .engine).trans (withLoading (s := s.touch i .engine) hfresh loading)

theorem begin_store_load (hfresh : s.abandoned i = false) : Moves i s (s.begin_store_load i) :=
  feed hfresh _

theorem install (hfailed : ∀ job s, Moves i s (failed job s))
    (job : Job) : Moves i s (install W failed i job s) := by
  apply install_cases
  · intro _
    exact goto _
  · intro _ _
    exact (touch .engine).trans (hfailed _ _)
  · intro hfresh
    exact (feed hfresh none).trans (hfailed _ _)
  · intro bytes s' hfresh _ hs'
    have hinstalled : Moves i s s' := by
      rw [hs']
      have hfed := feed hfresh none
      exact hfed.trans (withStore (hfed.fence.trans hfresh) _)
    exact (hinstalled.trans (commit job)).trans (goto _)

theorem loadManifest (hfailed : ∀ job s, Moves i s (failed job s)) (manifest : StoreManifest)
    (fallback : Option StoreManifest) (early : Option EarlyFeed) :
    Moves i s (loadManifest W failed i manifest fallback early s) := by
  apply loadManifest_cases
  · intro _
    exact goto _
  · intro _ _ _
    exact ret
  · intro source fed _ _ _ _ _ _
    exact unloadCurrent.trans (hfailed _ _)
  · intro source fed _ _ _ _ _ _
    exact unloadCurrent.trans (install hfailed _)
  · intro source job s' _ _ _ _ _ hs'
    have hunloaded : Moves i s s' := by
      rw [hs']
      exact (dropOlderBuilds job).trans unloadCurrent
    cases habandoned : s'.abandoned i with
    | true => exact hunloaded.trans (goto _)
    | false => exact (hunloaded.trans (begin_store_load habandoned)).trans (goto _)

theorem loadFailed (job : Job) (s : Label β) : Moves i s (loadFailed W i job s) := by
  unfold StoreLoad.loadFailed
  cases job.fallback with
  | none => exact (discard job).trans (goto _)
  | some truth =>
    refine ((discard job).trans (aside _ _ _)).trans (loadManifest ?_ truth none none)
    intro job s
    exact (discard job).trans (goto _)

theorem loadSettled (settled : Settled) (early : Option EarlyFeed) : Moves i s (loadSettled W i settled early s) := by
  unfold StoreLoad.loadSettled
  cases settled.correction with
  | none => exact loadManifest loadFailed _ _ _
  | some truth => exact (aside s.touched (some truth) s.held).trans (loadManifest loadFailed _ _ _)

theorem loadStore (known : Option StoreManifest) : Moves i s (loadStore W i known s) := by
  unfold StoreLoad.loadStore
  cases known with
  | some manifest => exact loadSettled _ _
  | none =>
    dsimp only
    split
    · exact goto _
    · split
      · split
        · exact goto _
        · exact goto _
      · exact goto _

theorem feedBlock (key : String) (fed : ℕ) (read : Read) : Moves i s (feedBlock W i key fed read s).2 := by
  apply feedBlock_cases (P := fun out => Moves i s out.2)
  · intro _
    exact refl
  · intro _
    exact refl
  · intro hfresh
    exact feed hfresh none
  · intro _
    exact refl
  · intro _ _
    exact touch .engine
  · intro block bytes hfresh _ _
    exact feed hfresh _

end Moves

/-- The step that makes a load's store current. -/
structure Serves (i : ℕ) (s s' : Label β) : Prop where
  fresh : s.abandoned i = false
  stage : ∃ job since, (s.loads i).stage = .announced job since ∧ s' = { (s.touch i .set).ret i with
      nextSerial := s.nextSerial + 1
      current := some
        { serial := s.nextSerial, storeKey := job.source.storeKey, manifest := job.manifest
          generation := s.generation } }

theorem resume_moves (i : ℕ) (answer : Answer) (s : Label β) :
    Moves i s (resume W i answer s) ∨ Serves i s (resume W i answer s) := by
  unfold resume
  split
  case h_1 pushed source hat =>
      unfold speculativeLocalFeed
      left
      split
      · cases habandoned : s.abandoned i with
        | true => exact Moves.goto _
        | false => exact (Moves.begin_store_load habandoned).trans (Moves.goto _)
      · exact Moves.goto _
  case h_2 pushed source fed read hat =>
      left
      have hfed := Moves.feedBlock (W := W) (i := i) (s := s) source.storeKey fed read
      generalize feedBlock W i source.storeKey fed read s = out at hfed
      obtain ⟨cross, s'⟩ := out
      cases cross with
      | fenced => exact hfed.trans (Moves.goto _)
      | fed => exact hfed.trans (Moves.goto _)
      | ended => exact hfed.trans (Moves.goto _)
      | failed => exact (hfed.trans (Moves.aside _ _ _)).trans (Moves.goto _)
  case h_3 => exact .inl (Moves.loadSettled _ _)
  case h_4 => exact .inl (Moves.loadSettled _ _)
  case h_5 truth hat =>
      left
      split
      · exact Moves.loadSettled _ _
      · exact Moves.goto _
  case h_6 => exact .inl (Moves.goto _)
  case h_7 => exact .inl (Moves.loadSettled _ _)
  case h_8 => exact .inl (Moves.goto _)
  case h_9 => exact .inl (Moves.goto _)
  case h_10 job fed read hat =>
      left
      have hfed := Moves.feedBlock (W := W) (i := i) (s := s) job.source.storeKey fed read
      generalize feedBlock W i job.source.storeKey fed read s = out at hfed
      obtain ⟨cross, s'⟩ := out
      cases cross with
      | fenced => exact hfed.trans (Moves.goto _)
      | fed => exact hfed.trans (Moves.goto _)
      | ended => exact hfed.trans (Moves.install Moves.loadFailed job)
      | failed => exact hfed.trans (Moves.loadFailed job s')
  case h_11 job since hat =>
      cases habandoned : s.abandoned i with
      | true => exact .inl (Moves.goto _)
      | false => exact .inr ⟨habandoned, job, since, hat, rfl⟩
  case h_12 => exact .inl Moves.refl

theorem resume_fence (answer : Answer) : (resume W i answer s).abandoned i = s.abandoned i := by
  rcases resume_moves (W := W) i answer s with hmoves | hserves
  · exact hmoves.fence
  · obtain ⟨job, since, _, hs'⟩ := hserves.stage
    rw [hs']
    simp [Label.abandoned, Label.ret, Label.touch]

theorem resume_others (answer : Answer) (hji : j ≠ i) : (resume W i answer s).loads j = s.loads j := by
  rcases resume_moves (W := W) i answer s with hmoves | hserves
  · exact hmoves.others j hji
  · obtain ⟨job, since, _, hs'⟩ := hserves.stage
    rw [hs']
    exact Label.put_loads_of_ne _ hji _

end StoreLoad
