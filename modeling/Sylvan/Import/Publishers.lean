-- SUMMARY: The publishers of one key-value namespace: import coordinators and deploys, call by call, with their fences, the upload lease and their sweeps.
import Mathlib.Algebra.Ring.Nat
import Sylvan.Data.Shared
import Sylvan.Engine.PublishHistory

/-!
# Publishers

Coordinators and deploys share one namespace. Each reads the pointer, the fence, the lease
and the manifests in calls of its own, and writes and deletes in others: between two calls
of one publisher, any number of another's may land. A read sees the latest write.

`enter` and `leave` touch no key. They mark where a publisher reads what it then deletes by,
or names in a manifest, so that a run can say whether two of them were at it at once.
-/

namespace Publishers

open KvRetention PublishHistory

/-! ## The upload lease -/

structure UploadLease where
  built_at : BuiltAt
  owner : String
  epoch : ℤ
  deriving DecidableEq

def DEPLOY_LEASE_OWNER : String := "deploy"

inductive LeaseDecision where
  | take
  | yield (holder : UploadLease)

/-- May `claim` take the upload lease from `held`? -/
def decideUploadLease (held : Option UploadLease) (claim : UploadLease) : LeaseDecision :=
  match held with
  | none => .take
  | some held =>
    if held.built_at = claim.built_at then .take
    else if claim.owner = DEPLOY_LEASE_OWNER then .take
    else if held.owner = DEPLOY_LEASE_OWNER then .yield held
    else if held.owner ≠ "" ∧ held.owner = claim.owner then .take
    else if held.epoch < claim.epoch then .take
    else .yield held

/-! ## Families -/

/-- One partition's record once its archive is cut. -/
structure Cut where
  store_bytes : ℕ
  gzip_bytes : ℕ
  chunk_count : ℕ

/-- A build and the keys it is stored under. -/
structure StoreFamily where
  built_at : BuiltAt
  numbered : built_at ≠ "" ∧ built_at.toList.all Text.isDigit = true
  format : ℕ
  cuts : List Cut
  /-- The kinds of the values put beside the archives, before the manifest. -/
  kinds : List String
  /-- Whether the routing filter could be built. -/
  routed : Bool
  /-- The size of the value put under each key. -/
  size : String → ℤ

def partitionStoreKey (formatVersion : ℕ) (builtAt : BuiltAt) (partition : ℕ) : String :=
  "card-store-v" ++ formatVersion.repr ++ "-" ++ builtAt ++ "-p" ++ partition.repr ++ ".store"

def chunkKey (storeKey : String) (seq : ℕ) : String := "store:" ++ storeKey ++ ":" ++ seq.repr

def partitionFamilyPrefix (formatVersion : ℕ) (builtAt : BuiltAt) : String :=
  "store:card-store-v" ++ formatVersion.repr ++ "-" ++ builtAt ++ "-"

def GENERATION_KEY_PREFIX : String := "store:card-"

/-- A one-value per-generation key of `kind`. -/
def generationKey (kind : String) (formatVersion : ℕ) (builtAt : BuiltAt) : String :=
  GENERATION_KEY_PREFIX ++ kind ++ "-v" ++ formatVersion.repr ++ "-" ++ builtAt ++ ".store:0"

def chunkKeys (storeKey : String) (chunkCount : ℕ) : List String :=
  (List.range chunkCount).map (chunkKey storeKey)

/-- Every chunk key of every partition a manifest names. -/
def manifestChunkKeys (m : StoreManifest) : List String :=
  m.partitions.flatMap fun p => chunkKeys p.store_key p.chunk_count

/-- The chunk keys a manifest names that are not among `present`. -/
def missingManifestChunks (m : StoreManifest) (present : List String) : List String :=
  (manifestChunkKeys m).filter fun key => key ∉ present

namespace StoreFamily

variable (f : StoreFamily)

def partitionKey (k : ℕ) : String := partitionStoreKey f.format f.built_at k

def partitions : List ManifestPartition :=
  f.cuts.mapIdx fun k cut =>
    { store_key := f.partitionKey k, store_bytes := cut.store_bytes
      store_gzip_bytes := some cut.gzip_bytes, chunk_count := cut.chunk_count }

def manifest : StoreManifest :=
  { built_at := f.built_at, partitions := f.partitions, format_version := some f.format }

def routingFilterKey : String := generationKey "routing" f.format f.built_at

def besideKeys : List String := f.kinds.map fun kind => generationKey kind f.format f.built_at

end StoreFamily

/-! ## The namespace -/

abbrev OtherKey : Type := { key : ListedKey // generationOfKey key.name = none }

structure Namespace where
  manifests : PublishHistory.Kv
  /-- The generation keys, each with the size its put carried. -/
  generations : JsMap String ℤ
  lease : Option UploadLease
  /-- When the newest deploy fence was written. -/
  fence : Option ℕ
  /-- The epoch of the coordinator the watchdog designated; zero before any. -/
  pointer : ℕ
  /-- What else a list of the namespace shows. -/
  others : List OtherKey
  clock : ℕ

def Namespace.empty : Namespace :=
  { manifests := .empty, generations := .empty, lease := none, fence := none, pointer := 0
    others := [], clock := 0 }

/-- A listing of every key that starts with `start`, in the keys' order. -/
def Namespace.list (kv : Namespace) (start : String) : List ListedKey :=
  let generations := kv.generations.entries.map fun e => ListedKey.mk e.1 (some e.2)
  let keys := (generations ++ kv.others.map Subtype.val).insertionSort fun a b => a.name ≤ b.name
  keys.filter fun key => start.toList.isPrefixOf key.name.toList

/-- The manifest keys under the per-format names, in order. -/
def Namespace.listManifests (kv : Namespace) : List String :=
  ((kv.manifests.entries.insertionSort fun a b => a.1 ≤ b.1).map Prod.fst).filter
    fun key => FORMAT_MANIFEST_PREFIX.toList.isPrefixOf key.toList

/-- The namespace, what each coordinator's own storage says of its lease, and who is inside a
marked stretch. -/
structure World (Id : Type) where
  kv : Namespace
  leased : Id → Bool
  inside : Id → Bool

inductive Op where
  | getManifest (key : String)
  | listManifests
  | putManifest (key : String) (m : StoreManifest)
  | deleteManifest (key : String)
  | getLease
  | putLease (lease : UploadLease)
  | deleteLease
  | getFence
  | putFence (time : ℕ)
  | getPointer
  | list (start : String)
  /-- Whether a direct read of a generation key finds a value. -/
  | has (key : String)
  | put (key : String) (bytes : ℤ)
  | delete (key : String)
  | now
  /-- The run's own `upload_lease`, read and set. -/
  | leased
  | setLeased
  | enter
  | leave

abbrev Answer : Op → Type
  | .getManifest _ => Option StoreManifest
  | .listManifests => List String
  | .getLease => Option UploadLease
  | .getFence => Option ℕ
  | .getPointer => ℕ
  | .list _ => List ListedKey
  | .has _ => Bool
  | .now => ℕ
  | .leased => Bool
  | _ => Unit

section

variable {Id : Type} [DecidableEq Id]

def World.set (w : World Id) (kv : Namespace) : World Id := { w with kv }

def exec (i : Id) : (op : Op) → World Id → Answer op × World Id
  | .getManifest key, w => ((w.kv.manifests.get key).filter usable, w)
  | .listManifests, w => (w.kv.listManifests, w)
  | .putManifest key m, w => ((), w.set { w.kv with manifests := w.kv.manifests.set key m })
  | .deleteManifest key, w =>
    ((), w.set { w.kv with manifests := w.kv.manifests.filter fun k _ => k ≠ key })
  | .getLease, w => (w.kv.lease, w)
  | .putLease lease, w => ((), w.set { w.kv with lease := some lease })
  | .deleteLease, w => ((), w.set { w.kv with lease := none })
  | .getFence, w => (w.kv.fence, w)
  | .putFence time, w => ((), w.set { w.kv with fence := some time })
  | .getPointer, w => (w.kv.pointer, w)
  | .list start, w => (w.kv.list start, w)
  | .has key, w => ((w.kv.generations.get key).isSome, w)
  | .put key bytes, w => ((), w.set { w.kv with generations := w.kv.generations.set key bytes })
  | .delete key, w =>
    ((), w.set { w.kv with generations := w.kv.generations.filter fun k _ => k ≠ key })
  | .now, w => (w.kv.clock, w)
  | .leased, w => (w.leased i, w)
  | .setLeased, w => ((), { w with leased := Function.update w.leased i true })
  | .enter, w => ((), { w with inside := Function.update w.inside i true })
  | .leave, w => ((), { w with inside := Function.update w.inside i false })

def drop (i : Id) (w : World Id) : World Id := { w with inside := Function.update w.inside i false }

end

/-! ## Reading and deleting -/

abbrev Calls : Type → Type := Prog Op Answer

abbrev perform (op : Op) : Calls (Answer op) := Prog.perform op

def readEach : List String → Calls (List PublishedManifest)
  | [] => return []
  | key :: keys => do
    let manifest ← perform (.getManifest key)
    let published ← readEach keys
    return (manifest.map fun m => ⟨key, false, m⟩).toList ++ published

/-- Every live manifest: the legacy mirror, and each a list of the per-format keys shows. -/
def readPublishedManifests : Calls (List PublishedManifest) := do
  let legacy ← perform (.getManifest MANIFEST_KEY)
  let keys ← perform .listManifests
  let published ← readEach (keys.filter fun key => (formatOfManifestKey key).isSome)
  return (legacy.map fun m => ⟨MANIFEST_KEY, true, m⟩).toList ++ published

def deleteKeys : List String → Calls Unit
  | [] => return
  | key :: keys => do
    perform (.delete key)
    deleteKeys keys

def deleteManifests : List String → Calls Unit
  | [] => return
  | key :: keys => do
    perform (.deleteManifest key)
    deleteManifests keys

def putManifests (m : StoreManifest) : List String → Calls Unit
  | [] => return
  | key :: keys => do
    perform (.putManifest key m)
    putManifests m keys

def readMissing : List String → Calls (List String)
  | [] => return []
  | key :: keys => do
    let found ← perform (.has key)
    let missing ← readMissing keys
    return if found then missing else key :: missing

def putKeys (f : StoreFamily) : List String → Calls Unit
  | [] => return
  | key :: keys => do
    perform (.put key (f.size key))
    putKeys f keys

/-- Delete the lease while it names `builtAt`. -/
def releaseLease (builtAt : BuiltAt) : Calls Unit := do
  let held ← perform .getLease
  if held.map (·.built_at) = some builtAt then perform .deleteLease else return

/-- The published manifests with `manifest` as the entry at `key`. -/
def withOwnManifest (published : List PublishedManifest) (key : String) (manifest : StoreManifest) :
    List PublishedManifest :=
  published.filter (fun p => p.key ≠ key) ++ [⟨key, false, manifest⟩]

/-- The mirror is put and the older formats' keys go; what then stands is returned. -/
def retireOlderFormats (format : ℕ) (published : List PublishedManifest) : Calls (List PublishedManifest) := do
  let retirement := planFormatRetirement published format
  if retirement.retireKeys = [] ∧ retirement.legacyTo.isNone then return published
  match retirement.legacyTo with
  | some m => perform (.putManifest MANIFEST_KEY m)
  | none => pure ()
  deleteManifests retirement.retireKeys
  return afterFormatRetirement published retirement MANIFEST_KEY

/-- The roles of some published manifests, beside the family in flight. -/
def rolesOf (published : List PublishedManifest) (inFlight : Option BuiltAt)
    (incoming limit : Option ℤ) : RetentionOpts :=
  let roles := liveManifestRoles published
  { live := roles.primary.map fun p => p.manifest.toManifestRoles
    otherLive := roles.others.map fun p => p.manifest.toManifestRoles
    inFlight, incomingBytes := incoming, limit }

/-- The lease's holder, unless a live manifest names its build. -/
def inFlightOf (published : List PublishedManifest) (held : Option UploadLease) : Option BuiltAt :=
  let roles := liveManifestRoles published
  (held.map (·.built_at)).filter fun at' =>
    at' ∉ (roles.primary.toList ++ roles.others).map fun p => p.manifest.built_at

/-! ## Coordinators -/

inductive Stop where
  | superseded
  | fatal

structure Coordinator where
  name : String
  epoch : ℕ
  run_started_ms : ℕ
  family : StoreFamily
  /-- `Math.ceil(bytes * NEW_FAMILY_ALLOWANCE)`, in doubles. -/
  allowance : ℕ → ℤ

namespace Coordinator

variable (c : Coordinator)

def myLease : UploadLease := ⟨c.family.built_at, c.name, c.epoch⟩

/-- Whether a newer coordinator, a later deploy or, with `lease`, another holder replaced this run. -/
def supersededBy (lease : Bool) : Calls Bool := do
  let pointer ← perform .getPointer
  if c.epoch < pointer then return true
  let fence ← perform .getFence
  if (fence.map fun time => decide (c.run_started_ms < time)).getD false then return true
  if !lease then return false
  let held ← perform .getLease
  match decideUploadLease held c.myLease with
  | .yield _ => return true
  | .take => return false

/-- The write-time fence, right before every chunk put and before the manifest write. -/
def fenceBeforeWrite : ExceptT Stop Calls Unit := do
  if ← c.supersededBy true then throw .superseded

/-- `store_gzip_bytes`, the total every publisher writes over its partitions' own. -/
def storeGzipBytes (m : StoreManifest) : ℕ :=
  (m.partitions.map fun p => p.store_gzip_bytes.getD 0).sum

/-- The first-key pass: under the lease, every family of no role is deleted. -/
def sweepBeforeUpload : Calls Decision := do
  let read ← readPublishedManifests
  let live ← retireOlderFormats c.family.format read
  let own := replacedManifest live c.family.format
  let incoming := own.map fun p => c.allowance (storeGzipBytes p.manifest)
  let keys ← perform (.list "")
  let plan := planRetention keys (rolesOf live (some c.family.built_at) incoming none)
  deleteKeys plan.retire
  return plan.decision

/-- Before the family's first key: the lease, the sweep and the byte guard. No answer means to
wait for a deploy's lease. -/
def beginFamilyUpload : ExceptT Stop Calls Bool := do
  if ← perform .leased then
    c.fenceBeforeWrite
    perform (.putLease c.myLease)
    return true
  if ← c.supersededBy false then throw .superseded
  let held ← perform .getLease
  match decideUploadLease held c.myLease with
  | .yield holder =>
    if holder.owner = DEPLOY_LEASE_OWNER then return false else throw .superseded
  | .take =>
    perform .enter
    perform (.putLease c.myLease)
    let decision ← c.sweepBeforeUpload
    if decision = .refuse then throw .fatal
    perform .setLeased
    perform .leave
    return true

/-- One value to put. The routing filter and a partition's first chunk begin, or renew, the upload. -/
inductive Put where
  | routing
  | chunk (partition seq : ℕ)

def puts : List Put :=
  .routing :: (c.family.cuts.mapIdx fun k cut =>
    (List.range cut.chunk_count).map fun seq => Put.chunk k seq).flatten

/-- One slice of the upload: whether its value was put. -/
def putSlice : Put → ExceptT Stop Calls Bool
  | .routing => do
    if !(← c.beginFamilyUpload) then return false
    if c.family.routed then
      perform (.put c.family.routingFilterKey (c.family.size c.family.routingFilterKey))
    return true
  | .chunk k seq => do
    if seq = 0 then
      if !(← c.beginFamilyUpload) then return false
    let key := chunkKey (c.family.partitionKey k) seq
    c.fenceBeforeWrite
    perform (.put key (c.family.size key))
    return true

/-- The manifest's own format's key, then the mirror when it follows. -/
def writeManifest (m : StoreManifest) : Calls Unit := do
  let legacy ← perform (.getManifest MANIFEST_KEY)
  putManifests m (manifestKeysToWrite c.family.format legacy)

def sweepByRole (live : StoreManifest) : Calls Unit := do
  let read ← readPublishedManifests
  let withOwn := withOwnManifest read (formatManifestKey c.family.format) live
  let published ← retireOlderFormats c.family.format withOwn
  let keys ← perform (.list GENERATION_KEY_PREFIX)
  let held ← perform .getLease
  let plan := planRetention keys (rolesOf published (inFlightOf published held) none none)
  deleteKeys plan.retire

/-- The chunks named by a manifest that KV holds no more: unlisted, and not found by a read. -/
def missingChunks (m : StoreManifest) : Calls (List String) := do
  let present ← perform (.list (partitionFamilyPrefix c.family.format c.family.built_at))
  readMissing (missingManifestChunks m (present.map ListedKey.name))

def stepManifest : ExceptT Stop Calls Unit := do
  c.fenceBeforeWrite
  putKeys c.family c.family.besideKeys
  let read ← readPublishedManifests
  let previous := (replacedManifest read c.family.format).map (·.manifest)
  let published := withPreviousBuiltAt c.family.manifest previous
  perform .enter
  let missing ← c.missingChunks published
  if missing ≠ [] then throw .fatal
  c.fenceBeforeWrite
  c.writeManifest published
  releaseLease c.family.built_at
  c.sweepByRole published

/-- What a run keeps between its alarms: the values still to put, and whether it has ended. -/
structure Progress where
  left : List Put
  ended : Bool := false

def slice (p : Progress) : ExceptT Stop Calls Progress := do
  match p.left with
  | [] =>
    c.stepManifest
    return { p with ended := true }
  | put :: left =>
    if ← c.putSlice put then return { p with left } else return p

/-- One alarm behind its own fence: a replaced run retires, a failed one lets go of its lease. -/
def alarm (p : Progress) : Calls Progress := do
  if p.ended then return p
  if ← c.supersededBy false then return { p with ended := true }
  match ← (c.slice p).run with
  | .ok p' => return p'
  | .error .superseded => return { p with ended := true }
  | .error .fatal => do
    releaseLease c.family.built_at
    return { p with ended := true }

end Coordinator

/-! ## Deploys -/

def DEPLOY_FENCE_FRESH_MS : ℕ := 10 * 60000

structure Deploy where
  family : StoreFamily
  incomingBytes : ℤ
  limit : Option ℤ

namespace Deploy

variable (d : Deploy)

def ensureFence : Calls ℕ := do
  let read ← perform .getFence
  let time ← perform .now
  match read with
  | some written =>
    if time - written ≤ DEPLOY_FENCE_FRESH_MS then return written
    let again ← perform .now
    perform (.putFence again)
    return again
  | none =>
    let again ← perform .now
    perform (.putFence again)
    return again

/-- Before the deploy's first key: the fence, the lease, the sweep and the byte guard. -/
def beginDeployUpload : Calls Bool := do
  let fence ← ensureFence
  let _ ← perform .getLease
  perform .enter
  perform (.putLease ⟨d.family.built_at, DEPLOY_LEASE_OWNER, fence⟩)
  let published ← readPublishedManifests
  let keys ← perform (.list "")
  let plan := planRetention keys
    (rolesOf published (some d.family.built_at) (some d.incomingBytes) d.limit)
  deleteKeys plan.retire
  if plan.decision = .refuse then
    releaseLease d.family.built_at
    return false
  perform .leave
  return true

/-- The family's chunk keys, in the order they are put. -/
def chunkPuts : List String := manifestChunkKeys d.family.manifest

def deployStillHoldsLease : Calls Bool := do
  let held ← perform .getLease
  return held.map (·.built_at) = some d.family.built_at

def sweepGenerationsByRole (live : StoreManifest) : Calls Unit := do
  let read ← readPublishedManifests
  let published := withOwnManifest read (formatManifestKey d.family.format) live
  let held ← perform .getLease
  let keys ← perform (.list GENERATION_KEY_PREFIX)
  let plan := planRetention keys (rolesOf published (inFlightOf published held) none none)
  deleteKeys plan.retire

/-- After the deploy's manifest: release the lease, then sweep with the new roles. -/
def finishDeployUpload (published : StoreManifest) : Calls Unit := do
  releaseLease d.family.built_at
  d.sweepGenerationsByRole published

/-- The manifest, only while this deploy still holds the lease, and the sweep after it. -/
def commit : Calls Unit := do
  let live ← readPublishedManifests
  let replaced := (replacedManifest live d.family.format).map (·.manifest)
  let published := withPreviousBuiltAt d.family.manifest replaced
  perform .enter
  if !(← d.deployStillHoldsLease) then return
  let legacy := (live.find? (·.legacy)).map (·.manifest)
  putManifests published (manifestKeysToWrite d.family.format legacy)
  d.finishDeployUpload published

def upload : Calls Unit := do
  if !(← d.beginDeployUpload) then return
  putKeys d.family d.chunkPuts
  putKeys d.family (if d.family.routed then [d.family.routingFilterKey] else [])
  putKeys d.family d.family.besideKeys
  d.commit

end Deploy

/-- Before the switch to code of `format`: a legacy manifest of that format is copied to the
format's own key when that has none. -/
def ensureFormatManifest (format : ℕ) : Calls Unit := do
  perform .enter
  let own ← perform (.getManifest (formatManifestKey format))
  if own.isSome then return
  let legacy ← perform (.getManifest MANIFEST_KEY)
  match legacy with
  | none => return
  | some m =>
    if m.format_version ≠ some format then return
    perform (.putManifest (formatManifestKey format) m)

/-! ## The publishers together -/

inductive Publisher where
  | coordinator (c : Coordinator)
  | deploy (d : Deploy)
  | migration (format : ℕ)

/-- What a publisher does when it wakes. A deploy has only the one program, and no progress. -/
def Publisher.wake (kept : Coordinator.Progress) : Publisher → Calls Coordinator.Progress
  | .coordinator c => c.alarm kept
  | .deploy d => do
    d.upload
    return kept
  | .migration format => do
    ensureFormatManifest format
    return kept

def Publisher.start : Publisher → Coordinator.Progress
  | .coordinator c => { left := c.puts }
  | .deploy _ => { left := [] }
  | .migration _ => { left := [] }

/-- What changes the namespace besides its publishers. -/
inductive Outside where
  /-- The watchdog designates a coordinator of another epoch. -/
  | failOver (epoch : ℕ)
  | expire
  /-- A deploy writes its fence before it builds. -/
  | fence
  | tick (ms : ℕ)
  | others (keys : List OtherKey)

section

variable {Id : Type} [DecidableEq Id] (who : Id → Publisher)

def outside : Outside → World Id → World Id
  | .failOver epoch, w => w.set { w.kv with pointer := epoch }
  | .expire, w => w.set { w.kv with lease := none }
  | .fence, w => w.set { w.kv with fence := some w.kv.clock }
  | .tick ms, w => w.set { w.kv with clock := w.kv.clock + ms }
  | .others keys, w => w.set { w.kv with others := keys }

def machine : Shared.Machine Id Op Answer Coordinator.Progress (World Id) where
  exec := exec
  wake i kept := (who i).wake kept
  drop := drop

abbrev Event (Id : Type) : Type := Shared.Event Id Outside

def start : Shared.Sys Id Op Answer Coordinator.Progress (World Id) where
  shared := { kv := .empty, leased := fun _ => false, inside := fun _ => false }
  worker i := { kept := (who i).start }

def run (events : List (Event Id)) : World Id :=
  (events.foldl (Shared.step (machine who) outside) (start who)).shared

end

end Publishers
