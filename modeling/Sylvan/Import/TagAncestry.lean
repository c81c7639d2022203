-- SUMMARY: The fold of a tag dump's records and its finish, which gives every tagged id its slugs and their ancestors.
import Sylvan.Data.Worklist
import Sylvan.Import.FinalizeRows
import Sylvan.Import.TagSlugs

/-!
# Tag dumps

A dump's records are folded one at a time into maps. At the finish every tagged id gets
the slugs that tag it and, along the parents of their ids, every ancestor of those. The
maps are hash maps, whose order is a parameter.
-/

namespace Tags

open Corpus Worklist

/-! ## Records -/

structure TagTagging where
  oracleId : Option Text
  illustrationId : Option Text

structure TagRecord where
  id : Option Text
  slug : Option Text
  parentIds : List Text
  aliases : List Text
  taggings : List TagTagging

/-- Which id field a dump's taggings are keyed by. -/
inductive TagKind where
  | oracle
  | art
deriving DecidableEq

/-- Index of `slug` in a table, adding it if new. -/
def intern (slugs : List Text) (slug : Text) : List Text × ℕ :=
  if slug ∈ slugs then (slugs, slugs.idxOf slug) else (slugs ++ [slug], slugs.length)

def internAll (slugs : List Text) : List Text → List Text × List ℕ
  | [] => (slugs, [])
  | slug :: rest =>
    let one := intern slugs slug
    let more := internAll one.1 rest
    (more.1, one.2 :: more.2)

/-! ## The fold -/

structure TagAccumulator where
  uuidToSlug : JsMap Text Text := .empty
  /-- Unresolved until the finish: a parent may come later in the dump. -/
  parentUuids : JsMap Text (List Text) := .empty
  slugs : List Text := []
  /-- Tagged id to the indices of the slugs that tag it. -/
  oracle : JsMap Text (List ℕ) := .empty
  art : JsMap Text (List ℕ) := .empty
  aliasClaimants : JsMap Text (JsSet Text) := .empty
  declaredSlugs : JsSet Text := []

/-- `alias_claimants.entry(slugified).or_default().insert(slug)`, of an alias that slugifies to something. -/
def claim (slug : Text) (claimants : JsMap Text (JsSet Text)) (alias_ : Text) : JsMap Text (JsSet Text) :=
  let slugified := (TagSlugs.Builder.slugifyTag (String.ofList alias_)).toList
  if slugified.isEmpty then claimants else claimants.update slugified fun owners => (owners.getD []).add slug

/-- `map.entry(id).or_default().push(si)`, of an id that is there and not empty. -/
def tagId (si : ℕ) (tagged : JsMap Text (List ℕ)) (id : Option Text) : JsMap Text (List ℕ) :=
  match id with
  | none => tagged
  | some id => if id.isEmpty then tagged else tagged.update id fun sis => sis.getD [] ++ [si]

namespace TagAccumulator

/-- The id of a record that has both an id and a slug: the last record of an id wins. -/
def declare (acc : TagAccumulator) (rec : TagRecord) : TagAccumulator :=
  match rec.id, rec.slug with
  | some id, some slug =>
    { acc with uuidToSlug := acc.uuidToSlug.set id slug, parentUuids := acc.parentUuids.set id rec.parentIds }
  | _, _ => acc

def fold (acc : TagAccumulator) (rec : TagRecord) : TagAccumulator :=
  let acc := acc.declare rec
  match rec.slug with
  | none => acc
  | some slug =>
    let acc := { acc with
      declaredSlugs := acc.declaredSlugs.add slug
      aliasClaimants := rec.aliases.foldl (claim slug) acc.aliasClaimants }
    if rec.taggings.isEmpty then acc
    else
      let interned := intern acc.slugs slug
      { acc with
        slugs := interned.1
        oracle := (rec.taggings.map TagTagging.oracleId).foldl (tagId interned.2) acc.oracle
        art := (rec.taggings.map TagTagging.illustrationId).foldl (tagId interned.2) acc.art }

def ofRecords (recs : List TagRecord) : TagAccumulator := recs.foldl fold {}

def direct (acc : TagAccumulator) : TagKind → JsMap Text (List ℕ)
  | .oracle => acc.oracle
  | .art => acc.art

end TagAccumulator

/-! ## The finish -/

/-- The orders the hash maps of a finish are iterated in. -/
structure HashOrder where
  parents : List (Text × List Text) → List (Text × List Text)
  aliases : List (Text × JsSet Text) → List (Text × JsSet Text)
  direct : List (Text × List ℕ) → List (Text × List ℕ)
  /-- The order of one id's scratch set. -/
  scratch : Text → List ℕ → List ℕ
  parents_perm : ∀ es, (parents es).Perm es
  aliases_perm : ∀ es, (aliases es).Perm es
  direct_perm : ∀ es, (direct es).Perm es
  scratch_perm : ∀ id es, (scratch id es).Perm es

/-- The tag dumps' tables with the aliases; no slug is in the table twice. -/
structure TagData (ω : Type) extends Corpus.TagData ω where
  oracleAliases : JsMap Text Text
  artAliases : JsMap Text Text
  nodup : slugs.Nodup

def TagData.empty {ω : Type} : TagData ω :=
  { toTagData := Corpus.TagData.empty, oracleAliases := .empty, artAliases := .empty, nodup := List.nodup_nil }

/-- One id's parents: `slug_parents.insert(si, parents)`, under the index of its slug. -/
def linkParents (uuidToSlug : JsMap Text Text) (state : List Text × JsMap ℕ (List ℕ)) (entry : Text × List Text) :
    List Text × JsMap ℕ (List ℕ) :=
  match uuidToSlug.get entry.1 with
  | none => state
  | some slug =>
    let one := intern state.1 slug
    let parents := internAll one.1 (entry.2.filterMap uuidToSlug.get)
    (parents.1, state.2.set one.2 parents.2)

def ownAlias (declaredSlugs : JsSet Text) (aliases : JsMap Text Text) (entry : Text × JsSet Text) : JsMap Text Text :=
  if entry.1 ∈ declaredSlugs ∨ entry.2.length > 1 then aliases
  else
    match entry.2.head? with
    | none => aliases
    | some owner => aliases.set entry.1 owner

def graphOf (slugParents : JsMap ℕ (List ℕ)) : Graph ℕ where
  next si := (slugParents.get si).getD []
  ends := slugParents.entries.flatMap Prod.snd
  mem_ends si pi h := by
    cases hget : slugParents.get si with
    | none =>
      rw [hget] at h
      cases h
    | some parents =>
      rw [hget] at h
      exact List.mem_flatMap.mpr ⟨(si, parents), JsMap.mem_entries.mpr hget, h⟩

def expanded (slugParents : JsMap ℕ (List ℕ)) (dataIdx : List ℕ) (si : ℕ) : List ℕ :=
  (si :: (graphOf slugParents).walk [si] ((graphOf slugParents).next si).reverse).map (dataIdx.getD · 0)

def attach (order : HashOrder) (slugs : List Text) (expand : ℕ → List ℕ) (built : JsMap Text (List ℕ))
    (entry : Text × List ℕ) : JsMap Text (List ℕ) :=
  let scratch : JsSet ℕ := JsSet.of (entry.2.flatMap expand)
  built.set entry.1
    ((order.scratch entry.1 scratch).insertionSort fun a b => slugs.getD a [] ≤ slugs.getD b [])

theorem nodup_intern {slugs : List Text} (h : slugs.Nodup) (slug : Text) : (intern slugs slug).1.Nodup := by
  unfold intern
  split
  · exact h
  · rename_i hnew
    exact List.nodup_append.mpr ⟨h, List.nodup_singleton _, fun a ha b hb heq => hnew (by simp_all)⟩

theorem nodup_internAll {slugs : List Text} (h : slugs.Nodup) (more : List Text) : (internAll slugs more).1.Nodup := by
  induction more generalizing slugs with
  | nil => exact h
  | cons slug more ih => exact ih (nodup_intern h slug)

/-- Resolve ancestors and replace this dump's half of `data`. -/
def TagAccumulator.finishInto {ω : Type} (order : HashOrder) (acc : TagAccumulator) (kind : TagKind) (data : TagData ω) :
    TagData ω :=
  let linked := (order.parents acc.parentUuids.entries).foldl (linkParents acc.uuidToSlug) (acc.slugs, .empty)
  let aliases := (order.aliases acc.aliasClaimants.entries).foldl (ownAlias acc.declaredSlugs) .empty
  let shared := internAll data.slugs linked.1
  let built := (order.direct (acc.direct kind).entries).foldl
    (attach order shared.1 (expanded linked.2 shared.2)) .empty
  { data with
    slugs := shared.1
    oracle := if kind = .oracle then built else data.oracle
    art := if kind = .art then built else data.art
    oracleAliases := if kind = .oracle then aliases else data.oracleAliases
    artAliases := if kind = .art then aliases else data.artAliases
    nodup := nodup_internAll data.nodup _ }

def TagData.slugsOf {ω : Type} (data : TagData ω) (kind : TagKind) (key : Text) : Option (List Text) :=
  ((if kind = .oracle then data.oracle else data.art).get key).map data.toTagData.resolve

end Tags
