-- SUMMARY: Loading a store into one label's engine instance: loadStore between its awaits, the load deadline's fence, and the callers that start a load.
import Mathlib.Logic.Function.Basic
import Mathlib.Data.List.Basic

/-!
# Store loads

Each engine object keeps, under its label, the store it serves and the one load in flight.
A load is a long asynchronous function: it reads a manifest, reads the archive block by
block into the label's wasm instance, installs it, announces the object and only then makes
the store current. What it does between two awaits is one step here; between two steps of
one load, anything else may happen, a newer load's steps among it.

A load that outlives its deadline is abandoned: its fence is raised and the slot is free
for the next one, while the load itself goes on once the read it waits for comes back.
-/

namespace StoreLoad

/-! ## Manifests -/

/-- One partition's record in a manifest. -/
structure PartitionRecord where
  storeKey : String
  /-- `store_gzip_bytes` is there: the chunks are compressed. -/
  gzipped : Bool := true
deriving Repr, DecidableEq

structure StoreManifest where
  storeKey : String
  storeBytes : ℕ
  formatVersion : ℕ
  builtAt : String
  partitionCount : Option ℕ
  partitionHash : String
  partitions : List PartitionRecord
  /-- `cardNamesOf`: the card-names blob, if the build published one. -/
  names : Option String := none
  /-- `printedNamesOf`: the printed-names blob, likewise. -/
  printed : Option String := none
deriving Repr, DecidableEq

/-- What the object and its build are, and what is stored where. -/
structure World (β : Type) where
  /-- The partition in the object's own name. -/
  partition : Option ℕ
  ARCHIVE_FORMAT_VERSION : ℕ
  PARTITION_HASH_ALGO : String
  /-- `Number(a) > Number(b)` of two `built_at` values; false where either is no number. -/
  newer : String → String → Bool
  /-- The archive stored under a chunk-family key, block by block. -/
  archive : String → List β
  /-- Whether the engine's checks pass a finished load buffer. -/
  accepts : List β → Bool
  /-- `droppable key k`: filling `key` drops a copy held under `k`, a build no newer. -/
  droppable : String → String → Bool

variable {β : Type} (W : World β)

/-- The archive of a manifest this object loads. Every refusal is an `EngineUnavailableError`. -/
def archiveOfManifest (manifest : StoreManifest) : Option PartitionRecord :=
  if manifest.partitionCount = none then none
  else if manifest.partitionHash ≠ W.PARTITION_HASH_ALGO then none
  else W.partition.bind (manifest.partitions[·]?)

/-- `manifest.store_bytes` and the raw store format's key. -/
def rawFormat (manifest : StoreManifest) : Bool :=
  manifest.storeBytes ≠ 0 && ".store".toList.isSuffixOf manifest.storeKey.toList

/-! ## The label's state -/

structure Instance (β : Type) where
  /-- The active store. -/
  store : Option (List β) := none
  /-- The buffer of the load that has begun and not finished. -/
  loading : Option (List β) := none
  /-- Which card-names and printed-names blobs it holds. -/
  names : Option String := none
  printed : Option String := none

structure Current where
  /-- Which of the label's `current` objects this one is. -/
  serial : ℕ
  storeKey : String
  manifest : StoreManifest
  generation : ℕ
  /-- The names blob, and the printed-names blob, marked as loaded for this store. -/
  names : Option String := none
  printed : Option String := none
  printedFailed : Option String := none
deriving DecidableEq

/-- The record's store, fed from the object's own cache before KV's manifest was read. -/
structure EarlyFeed where
  storeKey : String
  failed : Bool
deriving DecidableEq

structure Job where
  manifest : StoreManifest
  source : PartitionRecord
  fallback : Option StoreManifest
  /-- The bytes come from the object's own committed copy. -/
  cached : Bool
deriving DecidableEq

/-- The await a load stands at, with what it still needs. -/
inductive Stage where
  | sendIssuedIo (pushed : StoreManifest) (source : PartitionRecord)
  | earlyFeed (pushed : StoreManifest) (source : PartitionRecord) (fed : ℕ)
  | truthRead (pushed : StoreManifest) (source : PartitionRecord) (early : Option EarlyFeed)
  | correctionRead
  | manifestRead
  | feed (job : Job) (fed : ℕ)
  /-- `since` is the generation the store was installed in, which the code does not keep. -/
  | announced (job : Job) (since : ℕ)
  | done
deriving DecidableEq

structure Load where
  stage : Stage := .done
  /-- The fence. -/
  abandoned : Bool := false
  /-- It ended with an engine, not with an error. -/
  returned : Bool := false
deriving DecidableEq

/-- What a load does to what it shares with the label's other loads. -/
inductive Touch where
  | engine
  | clear
  | set
  | commit
  | invalidate
  /-- Older builds' copies are dropped before a fill. -/
  | drop
deriving DecidableEq

/-- A touch, by which load, and whether that load was abandoned when it made it. -/
structure Touched where
  load : ℕ
  abandoned : Bool
  touch : Touch
deriving DecidableEq

inductive Refresh where
  | reading
  | prefetching (manifest : StoreManifest)
  | swapping
deriving DecidableEq

structure Label (β : Type) where
  inst : Instance β := {}
  /-- How many of the label's instances were dropped after a trap. -/
  generation : ℕ := 0
  current : Option Current := none
  loading : Option ℕ := none
  refreshing : Option Refresh := none
  /-- The swaps that wait for the load in flight. -/
  waiting : List StoreManifest := []
  loads : ℕ → Load := fun _ => {}
  nextLoad : ℕ := 0
  nextSerial : ℕ := 0
  /-- `live_manifest`: the manifest the object was told is live. -/
  record : Option StoreManifest := none
  /-- Whether the object's SQLite holds a committed copy under a key. -/
  held : String → Bool := fun _ => false
  touched : List Touched := []

namespace Label

variable (s : Label β) {i : ℕ}

/-- The loaded store, if the instance it was loaded into is still the live one. A store a trap
took away is dropped from `current` here; nothing reads it there again. -/
def liveCurrent : Option Current := s.current.filter (·.generation = s.generation)

def liveKey : Option String := s.liveCurrent.map (·.storeKey)

def abandoned (i : ℕ) : Bool := (s.loads i).abandoned

def put (i : ℕ) (load : Load) : Label β := { s with loads := Function.update s.loads i load }

def goto (i : ℕ) (stage : Stage) : Label β := s.put i { s.loads i with stage }

def ret (i : ℕ) : Label β := s.put i { s.loads i with stage := .done, returned := true }

def touch (i : ℕ) (touch : Touch) : Label β :=
  { s with touched := s.touched ++ [⟨i, s.abandoned i, touch⟩] }

def withStore (store : Option (List β)) : Label β := { s with inst := { s.inst with store } }

def withLoading (loading : Option (List β)) : Label β :=
  { s with inst := { s.inst with loading } }

def unload_store (i : ℕ) : Label β := (s.touch i .engine).withStore none

/-- `begin_store_load`, or one of its compressed twins: any load begun before is given up. -/
def begin_store_load (i : ℕ) : Label β := (s.touch i .engine).withLoading (some [])

def dropCached (key : String) : Label β := { s with held := Function.update s.held key false }

/-- `pruneCacheOlderThan` for the archive under `key`. -/
def prune (W : World β) (key : String) : Label β :=
  { s with held := fun k => s.held k && !W.droppable key k }

def recordLiveManifest (manifest : StoreManifest) : Label β := { s with record := some manifest }

@[simp] theorem put_loads_self (load : Load) : (s.put i load).loads i = load := by
  simp [put]

theorem put_loads_of_ne {i j : ℕ} (h : j ≠ i) (load : Load) : (s.put i load).loads j = s.loads j := by
  simp [put, h]

theorem put_self (i : ℕ) : s.put i (s.loads i) = s := by
  simp [put]

@[simp] theorem generation_touch (touch : Touch) : (s.touch i touch).generation = s.generation := rfl

@[simp] theorem generation_withStore (store : Option (List β)) : (s.withStore store).generation = s.generation := rfl

@[simp] theorem generation_withLoading (loading : Option (List β)) : (s.withLoading loading).generation = s.generation := rfl

end Label

/-! ## Feeding the instance -/

/-- What the next read of an archive's body gives. -/
inductive Read where
  | block
  /-- A block the engine refuses: corrupt bytes, or more of them than were declared. -/
  | refused
  | unreadable
deriving DecidableEq

inductive Cross where
  /-- The fence threw. -/
  | fenced
  | failed
  | fed
  | ended
deriving DecidableEq

/-- One block of the body, crossed into the instance. A read that fails throws before the fence
is looked at. -/
def feedBlock (i : ℕ) (key : String) (fed : ℕ) (read : Read) (s : Label β) : Cross × Label β :=
  match read with
  | .unreadable => (.failed, s)
  | .refused =>
    if s.abandoned i then (.fenced, s)
    else (.failed, (s.touch i .engine).withLoading none)
  | .block =>
    match (W.archive key)[fed]? with
    | none => (.ended, s)
    | some block =>
      if s.abandoned i then (.fenced, s)
      else
        match s.inst.loading with
        | none => (.failed, s.touch i .engine)  -- no load has begun in this instance
        | some bytes =>
          (.fed, (s.touch i .engine).withLoading (some (bytes ++ [block])))

/-- `finish_store_load`: the buffer becomes the active store, or is given up. -/
def finish_store_load (i : ℕ) (s : Label β) : Bool × Label β :=
  match s.inst.loading with
  | none => (false, s.touch i .engine)
  | some bytes =>
    let s := (s.touch i .engine).withLoading none
    if W.accepts bytes then (true, s.withStore (some bytes)) else (false, s)

/-- Publish a copy written beside the load. A copy that was read back has nothing to publish. -/
def commit (i : ℕ) (job : Job) (s : Label β) : Label β :=
  if job.cached then s
  else
    let s := (s.touch i .commit).prune W job.source.storeKey
    { s with held := Function.update s.held job.source.storeKey true }

def invalidate (i : ℕ) (key : String) (s : Label β) : Label β :=
  (s.touch i .invalidate).dropCached key

/-! ## loadStore -/

/-- The archive is fed: install it, keep its copy and wait for the announcement. -/
def install (failed : Job → Label β → Label β) (i : ℕ) (job : Job) (s : Label β) : Label β :=
  if s.abandoned i then s.goto i .done
  else
    match finish_store_load W i s with
    | (false, s) => failed job s
    | (true, s) => (commit W i job s).goto i (.announced job s.generation)

def unloadCurrent (i : ℕ) (s : Label β) : Label β :=
  match s.liveCurrent with
  | none => s
  | some _ => { (s.touch i .clear).unload_store i with current := none }

/-- Where the object holds no copy of the archive, older builds' go before it is fetched. -/
def dropOlderBuilds (i : ℕ) (job : Job) (s : Label β) : Label β :=
  if job.cached then s else (s.touch i .drop).prune W job.source.storeKey

/-- The load from its manifest on. `failed` is the `catch` around the feed. -/
def loadManifest (failed : Job → Label β → Label β) (i : ℕ) (manifest : StoreManifest)
    (fallback : Option StoreManifest) (early : Option EarlyFeed) (s : Label β) : Label β :=
  if rawFormat manifest = false then s.goto i .done
  else
    match archiveOfManifest W manifest with
    | none => s.goto i .done
    | some source =>
      if s.liveKey = some source.storeKey then s.ret i
      else
        match early.filter (·.storeKey = source.storeKey) with
        | some fed =>
          let job : Job := ⟨manifest, source, fallback, true⟩
          if fed.failed then failed job (unloadCurrent i s)
          else install W failed i job (unloadCurrent i s)
        | none =>
          let job : Job := ⟨manifest, source, fallback, s.held source.storeKey⟩
          let s := unloadCurrent i (dropOlderBuilds W i job s)
          -- the fence of `feedUninstalled`, the first the load meets since its manifest read
          if s.abandoned i then s.goto i .done
          else (s.begin_store_load i).goto i (.feed job 0)

/-- The cleanup of a feed that failed, whatever the load does next. -/
def discard (i : ℕ) (job : Job) (s : Label β) : Label β :=
  if job.source.gzipped && job.cached then invalidate i job.source.storeKey s else s

/-- The `catch` of a load that has KV's manifest to fall back to, and of one that has not. The
fallback is loaded as a known manifest, so it has no other behind it. -/
def loadFailed (i : ℕ) (job : Job) (s : Label β) : Label β :=
  match job.fallback with
  | none => (discard i job s).goto i .done
  | some truth =>
    loadManifest W (fun job s => (discard i job s).goto i .done) i truth none none
      ((discard i job s).recordLiveManifest truth)

/-- What reading KV's manifest settles: what to load, what to fall back to, and what the record
is corrected to. -/
structure Settled where
  manifest : StoreManifest
  fallback : Option StoreManifest := none
  correction : Option StoreManifest := none
deriving DecidableEq

/-- The record against KV's manifest. A record newer than KV's is loaded on its own authority;
any other that KV contradicts is corrected. -/
def tiebreak (pushed : StoreManifest) (source : PartitionRecord) (truth : Option StoreManifest) : Settled :=
  match truth.filter (·.storeBytes ≠ 0) with
  | none => { manifest := pushed }
  | some truth =>
    match archiveOfManifest W truth with
    | none => { manifest := pushed }
    | some truthSource =>
      if truthSource.storeKey = source.storeKey then { manifest := pushed }
      else if W.newer pushed.builtAt truth.builtAt then
        { manifest := pushed, fallback := some truth }
      else { manifest := truth, correction := some truth }

def loadSettled (i : ℕ) (settled : Settled) (early : Option EarlyFeed) (s : Label β) : Label β :=
  loadManifest W (loadFailed W i) i settled.manifest settled.fallback early
    (settled.correction.elim s s.recordLiveManifest)

/-- `speculativeLocalFeed`: only on a cold object, and only from the object's own copy. -/
def speculativeLocalFeed (i : ℕ) (pushed : StoreManifest) (source : PartitionRecord)
    (s : Label β) : Label β :=
  if source.gzipped && s.liveCurrent.isNone && s.held source.storeKey then
    if s.abandoned i then s.goto i .done
    else (s.begin_store_load i).goto i (.earlyFeed pushed source 0)
  else s.goto i (.truthRead pushed source none)

/-- A manifest of this build's format that this object's own name can serve. -/
def servable (manifest : StoreManifest) : Bool :=
  manifest.formatVersion = W.ARCHIVE_FORMAT_VERSION && (archiveOfManifest W manifest).isSome

def loadStore (i : ℕ) (known : Option StoreManifest) (s : Label β) : Label β :=
  match known with
  | some manifest => loadSettled W i { manifest } none s
  | none =>
    match s.record.filter (·.storeBytes ≠ 0) with
    | none => s.goto i .manifestRead
    | some pushed =>
      if pushed.formatVersion = W.ARCHIVE_FORMAT_VERSION then
        match archiveOfManifest W pushed with
        | some source => s.goto i (.sendIssuedIo pushed source)
        | none => s.goto i .correctionRead
      else s.goto i .correctionRead

/-- What the await a load stands at comes back with. -/
inductive Answer where
  | sent
  | read (read : Read)
  /-- KV's manifest, `none` where KV has none. -/
  | manifest (manifest : Option StoreManifest)
  | unreadable
  | announced
deriving DecidableEq

def resume (i : ℕ) (answer : Answer) (s : Label β) : Label β :=
  match (s.loads i).stage, answer with
  | .sendIssuedIo pushed source, .sent => speculativeLocalFeed i pushed source s
  | .earlyFeed pushed source fed, .read read =>
    match feedBlock W i source.storeKey fed read s with
    | (.fenced, s) => s.goto i .done
    | (.fed, s) => s.goto i (.earlyFeed pushed source (fed + 1))
    | (.ended, s) => s.goto i (.truthRead pushed source (some ⟨source.storeKey, false⟩))
    | (.failed, s) =>
      (invalidate i source.storeKey s).goto i
        (.truthRead pushed source (some ⟨source.storeKey, true⟩))
  | .truthRead pushed source early, .manifest truth =>
    loadSettled W i (tiebreak W pushed source truth) early s
  | .truthRead pushed source early, .unreadable =>
    loadSettled W i (tiebreak W pushed source none) early s
  | .correctionRead, .manifest truth =>
    match truth.filter (servable W) with
    | some truth => loadSettled W i { manifest := truth, correction := some truth } none s
    | none => s.goto i .manifestRead
  | .correctionRead, .unreadable => s.goto i .done
  | .manifestRead, .manifest (some manifest) => loadSettled W i { manifest } none s
  | .manifestRead, .manifest none => s.goto i .done
  | .manifestRead, .unreadable => s.goto i .done
  | .feed job fed, .read read =>
    match feedBlock W i job.source.storeKey fed read s with
    | (.fenced, s) => s.goto i .done
    | (.fed, s) => s.goto i (.feed job (fed + 1))
    | (.ended, s) => install W (loadFailed W i) i job s
    | (.failed, s) => loadFailed W i job s
  | .announced job _, .announced =>
    if s.abandoned i then s.goto i .done
    else
      { (s.touch i .set).ret i with
        nextSerial := s.nextSerial + 1
        current := some
          { serial := s.nextSerial, storeKey := job.source.storeKey, manifest := job.manifest
            generation := s.generation } }
  | _, _ => s

/-! ## The callers -/

def Label.started (s : Label β) : Label β :=
  { s.put s.nextLoad {} with loading := some s.nextLoad, nextLoad := s.nextLoad + 1 }

def startLoad (known : Option StoreManifest) (s : Label β) : Label β :=
  loadStore W s.nextLoad known s.started

/-- `backedOff`: a load failed so lately that no other is started yet. -/
def getEngine (backedOff : Bool) (s : Label β) : Label β :=
  if s.liveCurrent.isSome || s.loading.isSome || backedOff then s
  else startLoad W none s

/-- The rest of `swapToStore` once no load is in flight. -/
def swapNow (manifest : StoreManifest) (source : PartitionRecord) (s : Label β) : Label β :=
  if s.liveKey = some source.storeKey then s else startLoad W (some manifest) s

def swapToStore (manifest : StoreManifest) (s : Label β) : Label β :=
  match archiveOfManifest W manifest with
  | none => s
  | some source =>
    if s.liveKey = some source.storeKey then s
    else if s.loading.isSome then { s with waiting := s.waiting ++ [manifest] }
    else swapNow W manifest source s

/-- A swap that waited goes on once the load it waited for has settled. -/
def swapResumes (manifest : StoreManifest) (s : Label β) : Label β :=
  match archiveOfManifest W manifest with
  | none => s
  | some source =>
    if manifest ∈ s.waiting ∧ s.loading = none then
      swapNow W manifest source { s with waiting := s.waiting.erase manifest }
    else s

inductive Event where
  | getEngine (backedOff : Bool)
  | swapToStore (manifest : StoreManifest)
  | swapResumes (manifest : StoreManifest)
  | refreshNow (known : Option StoreManifest)
  /-- The refresh's own read of KV's manifest. -/
  | refreshRead (manifest : Option StoreManifest)
  | refreshPrefetched
  | refreshSettled
  | resumes (i : ℕ) (answer : Answer)
  | deadline (i : ℕ)
  /-- The slot's promise settles: its load returned or threw, or its deadline passed. -/
  | settled (i : ℕ)
  /-- A call into the instance traps, and the instance is dropped. -/
  | trap
  /-- What else writes the object's own copies: a prefetch, a prune, an LZ4 fill. -/
  | copies (key : String) (held : Bool)
  /-- The publisher tells the object what is live. -/
  | told (manifest : StoreManifest)

def Refresh.of (manifest : Option StoreManifest) : Option Refresh :=
  (manifest.filter (·.storeBytes ≠ 0)).map .prefetching

def step (s : Label β) : Event → Label β
  | .getEngine backedOff => getEngine W backedOff s
  | .swapToStore manifest => swapToStore W manifest s
  | .swapResumes manifest => swapResumes W manifest s
  | .refreshNow known =>
    if s.refreshing.isSome then s
    else { s with refreshing := known.elim (some .reading) (Refresh.of ∘ some) }
  | .refreshRead manifest =>
    if s.refreshing = some .reading then { s with refreshing := Refresh.of manifest } else s
  | .refreshPrefetched =>
    match s.refreshing with
    | some (.prefetching manifest) =>
      swapToStore W manifest { s with refreshing := some .swapping }
    | _ => s
  | .refreshSettled => if s.refreshing = some .swapping then { s with refreshing := none } else s
  | .resumes i answer => resume W i answer s
  | .deadline i =>
    if s.loading = some i ∧ (s.loads i).stage ≠ .done then
      { s with loads := Function.update s.loads i { s.loads i with abandoned := true } }
    else s
  | .settled i =>
    if s.loading = some i ∧ ((s.loads i).stage = .done ∨ s.abandoned i = true) then
      { s with loading := none }
    else s
  | .trap => { s with inst := {}, generation := s.generation + 1 }
  | .copies key held => { s with held := Function.update s.held key held }
  | .told manifest => s.recordLiveManifest manifest

end StoreLoad
