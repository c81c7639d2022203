-- SUMMARY: The manifests a namespace holds over its publishes: one for each archive format, what each replaced, and which are retired.
import Mathlib.Data.List.Sort
import Sylvan.Data.Runs
import Sylvan.Engine.KvRetention

/-!
# Publish history

A build is published under its archive format's own key, and under the legacy key when that
holds the same format or nothing. A manifest records the build it replaced. Code of a format
that is running retires the manifests of older formats.
-/

namespace PublishHistory

open Text KvRetention

/-! ## Keys -/

def MANIFEST_KEY : String := "store:manifest"

def FORMAT_MANIFEST_PREFIX : String := "store:manifest:v"

def formatManifestKey (format : ℕ) : String := FORMAT_MANIFEST_PREFIX ++ format.repr

def formatOfManifestKey (name : String) : Option ℕ :=
  (stripLit FORMAT_MANIFEST_PREFIX.toList name.toList).bind fun rest =>
    if rest ≠ [] ∧ rest.all isDigit then some (Nat.ofDigitChars 10 rest 0) else none

/-! ## Manifests -/

/-- What publishing and retirement read of a manifest. -/
structure StoreManifest extends ManifestRoles where
  /-- None in a manifest that does not say. -/
  format_version : Option ℕ

/-- A manifest as found in the namespace. -/
structure PublishedManifest where
  key : String
  /-- Whether the key is the legacy mirror. -/
  legacy : Bool
  manifest : StoreManifest

abbrev Kv : Type := JsMap String StoreManifest

def usable (m : StoreManifest) : Bool := m.built_at ≠ ""

/-- The legacy mirror, then each per-format manifest in the order a list gives the keys. -/
def readPublishedManifests (kv : Kv) : List PublishedManifest :=
  (((kv.get MANIFEST_KEY).filter usable).map fun m => ⟨MANIFEST_KEY, true, m⟩).toList ++
    ((kv.entries.insertionSort fun a b => a.1 ≤ b.1).filter fun e =>
      (formatOfManifestKey e.1).isSome && usable e.2).map fun e => ⟨e.1, false, e.2⟩

/-- The manifest a reader of archive `format` reads. One of another format under its key is refused. -/
def readManifest (kv : Kv) (format : ℕ) : Option StoreManifest :=
  match kv.get (formatManifestKey format) with
  | some m => if m.format_version = some format then some m else none
  | none => (kv.get MANIFEST_KEY).filter fun m => m.format_version = some format

/-! ## Roles -/

/-- `a` comes no later than `b`: a newer format first, then the per-format key, then the newer build. -/
def precedes (a b : PublishedManifest) : Bool :=
  let fmt (p : PublishedManifest) := p.manifest.format_version.getD 0
  fmt b < fmt a ||
    (fmt a = fmt b && ((!a.legacy && b.legacy) ||
      (a.legacy = b.legacy && !older a.manifest.built_at b.manifest.built_at)))

def sortedLive (published : List PublishedManifest) : List PublishedManifest :=
  (published.filter fun p => usable p.manifest).insertionSort fun a b => precedes a b

structure LiveRoles where
  primary : Option PublishedManifest
  others : List PublishedManifest

/-- The newest format's manifest, and each other family a live manifest names, once. -/
def liveManifestRoles (published : List PublishedManifest) : LiveRoles :=
  let sorted := sortedLive published
  { primary := sorted.head?
    others := (sorted.tail.foldl
      (fun (seen : List String × List PublishedManifest) p =>
        if p.manifest.built_at ∈ seen.1 then seen
        else (seen.1 ++ [p.manifest.built_at], seen.2 ++ [p]))
      ((sorted.head?.map fun p => p.manifest.built_at).toList, [])).2 }

/-- The per-format manifest of `format`. -/
def ownManifest (published : List PublishedManifest) (format : ℕ) : Option PublishedManifest :=
  published.find? fun p => !p.legacy && p.manifest.format_version = some format

/-- The manifest a publish of `format` replaces: its own format's, else the newest live one. -/
def replacedManifest (published : List PublishedManifest) (format : ℕ) : Option PublishedManifest :=
  match ownManifest published format with
  | some own => some own
  | none => (liveManifestRoles published).primary

/-- `next` stamped with the build of the manifest it replaces; the same build again keeps the
record there was. -/
def withPreviousBuiltAt (next : StoreManifest) (live : Option StoreManifest) : StoreManifest :=
  let liveAt := (live.map fun m => m.built_at).getD ""
  let previous :=
    if liveAt = "" then none
    else if liveAt ≠ next.built_at then some liveAt
    else truthy (live.bind fun m => m.previous_built_at)
  { next with previous_built_at := previous }

/-! ## Retirement -/

structure FormatRetirement where
  /-- Per-format keys of older formats, to delete. -/
  retireKeys : List String
  /-- What the legacy mirror should hold now, none to leave it. -/
  legacyTo : Option StoreManifest

def lower (format : ℕ) (p : PublishedManifest) : Bool := p.manifest.format_version.getD 0 < format

/-- What code of `format` that is running retires. -/
def planFormatRetirement (published : List PublishedManifest) (format : ℕ) : FormatRetirement :=
  match ownManifest published format with
  | none => ⟨[], none⟩
  | some own =>
    { retireKeys := (published.filter fun p => !p.legacy && lower format p).map (·.key)
      legacyTo :=
        match published.find? (·.legacy) with
        | none => some own.manifest
        | some legacy => if lower format legacy then some own.manifest else none }

def afterFormatRetirement (published : List PublishedManifest) (retirement : FormatRetirement)
    (legacyKey : String) : List PublishedManifest :=
  (published.filter fun p => !p.legacy && p.key ∉ retirement.retireKeys) ++
    ((retirement.legacyTo.map fun m => ⟨legacyKey, true, m⟩).or (published.find? (·.legacy))).toList

/-! ## Publishing -/

/-- Whether a publish of `format` writes the legacy key too. -/
def legacyManifestFollows (legacy : Option StoreManifest) (format : ℕ) : Bool :=
  match legacy.bind fun m => m.format_version with
  | none => true
  | some held => held = format

def manifestKeysToWrite (format : ℕ) (legacy : Option StoreManifest) : List String :=
  formatManifestKey format :: if legacyManifestFollows legacy format then [MANIFEST_KEY] else []

structure Build where
  built_at : BuiltAt
  named : built_at ≠ ""
  format : ℕ
  partitions : List ManifestPartition

def Build.manifest (build : Build) : StoreManifest :=
  { built_at := build.built_at, partitions := build.partitions, format_version := some build.format }

def publishedManifest (kv : Kv) (build : Build) : StoreManifest :=
  withPreviousBuiltAt build.manifest
    ((replacedManifest (readPublishedManifests kv) build.format).map (·.manifest))

def keysWritten (kv : Kv) (build : Build) : List String :=
  manifestKeysToWrite build.format (kv.get MANIFEST_KEY)

def publish (kv : Kv) (build : Build) : Kv :=
  (keysWritten kv build).foldl (fun kv' key => kv'.set key (publishedManifest kv build)) kv

def putMirror (kv : Kv) : Option StoreManifest → Kv
  | some m => kv.set MANIFEST_KEY m
  | none => kv

/-- The retirement running code of `format` carries out: the mirror is put, then the keys go. -/
def retireOlderFormats (kv : Kv) (format : ℕ) : Kv :=
  let retirement := planFormatRetirement (readPublishedManifests kv) format
  (putMirror kv retirement.legacyTo).filter fun key _ => key ∉ retirement.retireKeys

inductive Event where
  | publish (build : Build)
  | retire (format : ℕ)

def apply (kv : Kv) : Event → Kv
  | .publish build => publish kv build
  | .retire format => retireOlderFormats kv format

/-! ## What was replaced

Beside the namespace, the builds each key's manifest has replaced, oldest first: a publish goes
on from the manifest it replaces, and a mirror put by a retirement repeats its manifest's. -/

abbrev Lineage : Type := String → List BuiltAt

/-- The builds of the manifest a publish replaces, and then that manifest's own. -/
def extend (lineage : Lineage) : Option PublishedManifest → List BuiltAt
  | none => []
  | some replaced => lineage replaced.key ++ [replaced.manifest.built_at]

def traceLineage (kv : Kv) (lineage : Lineage) : Event → Lineage
  | .publish build => fun key =>
    if key ∈ keysWritten kv build then
      extend lineage (replacedManifest (readPublishedManifests kv) build.format)
    else lineage key
  | .retire format => fun key =>
    if key = MANIFEST_KEY ∧ (planFormatRetirement (readPublishedManifests kv) format).legacyTo.isSome then
      lineage (formatManifestKey format)
    else lineage key

def step (s : Kv × Lineage) (event : Event) : Kv × Lineage :=
  (apply s.1 event, traceLineage s.1 s.2 event)

/-- The namespace and the lineages after some events, from an empty namespace. -/
def history (events : List Event) : Kv × Lineage := events.foldl step (.empty, fun _ => [])

/-- The last build of a lineage that is another one than `builtAt`. -/
def lastOther (builtAt : BuiltAt) (lineage : List BuiltAt) : Option BuiltAt :=
  (lineage.filter (· ≠ builtAt)).getLast?

end PublishHistory
