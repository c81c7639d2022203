-- SUMMARY: The two-step publish on one engine object: preparePublish and commitPublish beside the label's loads, step by step.
import Sylvan.Engine.StoreLoad

/-!
# Prepare, then commit

The publisher tells an object of a new manifest in two calls. `preparePublish` records it in
the object's own storage, waits for the load in flight and, on a warm object, fetches the
new archive beside the store that still serves. `commitPublish` waits for the load in flight,
reads the record and swaps to what it names; a cold object acknowledges and loads it with its
next request.
-/

namespace PublishSwap

open StoreLoad

variable {β : Type} (W : World β) (manifest : StoreManifest)

inductive Phase where
  | idle
  /-- `preparePublish` has recorded the manifest and waits for the load in flight. -/
  | preparing
  | prefetching
  | prepared
  /-- `commitPublish` waits for the load in flight. -/
  | settling
  /-- `commitPublish` waits for the load it started. -/
  | swapping (i : ℕ)
  | committed
  /-- The swap threw; the publisher retries the commit. -/
  | failed
deriving DecidableEq

structure Object (β : Type) where
  label : Label β
  phase : Phase := .idle

def manifestServableBy : Bool :=
  W.partition.isSome && manifest.partitionCount.isSome &&
    manifest.formatVersion = W.ARCHIVE_FORMAT_VERSION

inductive Event where
  | label (event : StoreLoad.Event)
  /-- `recorded`: the write of the record went through; a failed one is only logged. -/
  | preparePublish (recorded : Bool)
  | prepareSettled
  | prefetched
  | commitPublish
  | commitSettled
  | swapSettled

def pruneToManifest (s : Label β) : Label β :=
  match archiveOfManifest W manifest with
  | none => s
  | some source => s.prune W source.storeKey

def preparePublish (recorded : Bool) (o : Object β) : Object β :=
  if manifestServableBy W manifest then
    { label := if recorded then o.label.recordLiveManifest manifest else o.label
      phase := .preparing }
  else { o with phase := .prepared }

def prepareSettled (o : Object β) : Object β :=
  if o.label.liveCurrent.isNone then
    { label := pruneToManifest W manifest o.label, phase := .prepared }
  else { o with phase := .prefetching }

/-- `commitPublish` once no load is in flight, `swapToStore` up to its await with it. -/
def commitSettled (o : Object β) : Object β :=
  if o.label.liveCurrent.isNone then { o with phase := .committed }
  else
    match o.label.record.filter (·.storeBytes ≠ 0) with
    | none => { o with phase := .committed }
    | some recorded =>
      match archiveOfManifest W recorded with
      | none => { o with phase := .committed }
      | some source =>
        if o.label.liveKey = some source.storeKey then { o with phase := .committed }
        else
          { label := startLoad W (some recorded) o.label, phase := .swapping o.label.nextLoad }

/-- The swap's promise settles: with the load's engine, its error or the deadline's. -/
def swapSettled (i : ℕ) (o : Object β) : Object β :=
  if o.label.abandoned i then { o with phase := .failed }
  else if (o.label.loads i).stage ≠ .done then o
  else if (o.label.loads i).returned then { o with phase := .committed }
  else { o with phase := .failed }

def step (o : Object β) : Event → Object β
  | .label event => { o with label := StoreLoad.step W o.label event }
  | .preparePublish recorded =>
    if o.phase = .idle ∨ o.phase = .prepared then preparePublish W manifest recorded o else o
  | .prepareSettled =>
    if o.phase = .preparing ∧ o.label.loading = none then prepareSettled W manifest o else o
  | .prefetched => if o.phase = .prefetching then { o with phase := .prepared } else o
  | .commitPublish =>
    if o.phase = .prepared ∨ o.phase = .committed ∨ o.phase = .failed then
      { o with phase := .settling }
    else o
  | .commitSettled =>
    if o.phase = .settling ∧ o.label.loading = none then commitSettled W o else o
  | .swapSettled =>
    match o.phase with
    | .swapping i => swapSettled i o
    | _ => o

end PublishSwap
