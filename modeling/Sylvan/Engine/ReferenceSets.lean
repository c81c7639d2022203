-- SUMMARY: The by-key index of sets: each lookup key answers with the first set that claims it.
import Sylvan.Engine.KeyedBlobExact

/-!
# Reference sets

A set is addressed by its code, its id and its TCGplayer group id. The keys are spread over
sixteen keyed blobs by a hash, and the first set in the list takes a key that two derive.
-/

namespace ReferenceKv

open KeyedBlob Text Throws

def SETS_BUCKET_COUNT : ℕ := 16
def SET_KEY_WIDTH : ℕ := 48

/-- What is read of a set: its strings, and a finite number as a template literal writes it; and its own text. -/
structure SetEntry where
  id : Option (List Char)
  code : Option (List Char)
  tcgplayer_id : Option (List Char)
  stringified : List Char

/-- `toLowerCase`, and what a buffer can be. -/
structure Host where
  lower : List Char → List Char
  isolate : Buffers.Isolate

variable (host : Host)

def filled (value : Option (List Char)) : Option (List Char) := value.filter (· ≠ [])

def setLookupKeys (set : SetEntry) : List (List Char) :=
  ((filled set.code).map fun code => "code:".toList ++ host.lower code).toList ++
    ((filled set.id).map fun id => "id:".toList ++ host.lower id).toList ++
    (set.tcgplayer_id.map fun id => "tcgplayer:".toList ++ id).toList

def setsBucketOf (key : List Char) : ℕ :=
  (key.flatMap units).foldl (fun hash unit => (hash ^^^ unit) * 0x01000193 % 0x100000000) 0x811c9dc5 % SETS_BUCKET_COUNT

/-- The keys taken, and the entries of each bucket. -/
structure Claiming where
  claimed : JsSet (List Char) := []
  perBucket : List (List KeyedEntry) := List.replicate SETS_BUCKET_COUNT []

abbrev Claim : Type := List Char × List Char

def Claiming.claim (st : Claiming) (claim : Claim) : Claiming :=
  if claim.1 ∈ st.claimed then st
  else ⟨st.claimed.add claim.1, st.perBucket.modify (setsBucketOf claim.1) (· ++ [⟨claim.1, claim.2⟩])⟩

def usable (sets : List SetEntry) (raw : List (List Char)) : List (SetEntry × List Char) :=
  (sets.zipIdx.map fun set => (set.1, (raw[set.2]?).getD set.1.stringified)).filter fun set =>
    (filled set.1.id).isSome && (filled set.1.code).isSome

structure Rendered where
  list : List Char
  buckets : List Bytes
  setCount : ℕ

def renderSets (sets : List SetEntry) (raw : List (List Char)) : Checked Rendered := do
  let usable := usable sets raw
  let st := usable.foldl (fun st set =>
    (setLookupKeys host set.1).foldl (fun st key => st.claim (key, set.2)) st) ({} : Claiming)
  let buckets ← st.perBucket.mapM fun entries => encodeKeyedBlob host.isolate entries SET_KEY_WIDTH
  pure ⟨['['] ++ [','].intercalate (usable.map Prod.snd) ++ [']'], buckets, usable.length⟩

/-! ## The claims -/

def claimsOf (sets : List SetEntry) (raw : List (List Char)) : List Claim :=
  (usable sets raw).flatMap fun set => (setLookupKeys host set.1).map fun key => (key, set.2)

def firstClaim (claims : List Claim) (key : List Char) : Option (List Char) :=
  (claims.find? fun claim => claim.1 = key).map Prod.snd

theorem firstClaim_concat (claims : List Claim) (claim : Claim) (key : List Char) : firstClaim (claims ++ [claim]) key =
      (firstClaim claims key).or (if claim.1 = key then some claim.2 else none) := by
  rw [firstClaim, List.find?_append, Option.map_or]
  by_cases h : claim.1 = key
  · simp [firstClaim, h]
  · simp [firstClaim, h]

theorem firstClaim_isSome {claims : List Claim} {key : List Char} :
    (firstClaim claims key).isSome = true ↔ key ∈ claims.map Prod.fst := by
  rw [firstClaim, Option.isSome_map, List.find?_isSome]
  simp

/-- Each bucket holds the keys it hashes, each with its first claim. -/
structure Claimed (claims : List Claim) (st : Claiming) : Prop where
  claimed : ∀ key, key ∈ st.claimed ↔ key ∈ claims.map Prod.fst
  count : st.perBucket.length = SETS_BUCKET_COUNT
  entries : ∀ {b : ℕ} {entries : List KeyedEntry}, st.perBucket[b]? = some entries → ∀ key json,
    ⟨key, json⟩ ∈ entries ↔ setsBucketOf key = b ∧ firstClaim claims key = some json

theorem Claimed.claim {claims : List Claim} {st : Claiming} (h : Claimed claims st) (claim : Claim) :
    Claimed (claims ++ [claim]) (st.claim claim) := by
  unfold Claiming.claim
  split
  · rename_i hold
    -- the key's first claim stands
    have hsame : ∀ key, firstClaim (claims ++ [claim]) key = firstClaim claims key := by
      intro key
      rw [firstClaim_concat]
      by_cases hkey : claim.1 = key
      · subst hkey
        obtain ⟨json, hjson⟩ := Option.isSome_iff_exists.mp (firstClaim_isSome.mpr ((h.claimed _).mp hold))
        rw [hjson, Option.some_or]
      · rw [if_neg hkey, Option.or_none]
    refine ⟨fun key => ?_, h.count, fun hb key json => ?_⟩
    · rw [h.claimed, List.map_append, List.mem_append, List.map_singleton, List.mem_singleton]
      refine (or_iff_left_of_imp ?_).symm
      rintro rfl
      exact (h.claimed _).mp hold
    · rw [hsame, h.entries hb]
  · rename_i hnew
    have hnone : firstClaim claims claim.1 = none := by
      rw [← Option.not_isSome_iff_eq_none, firstClaim_isSome, ← h.claimed]
      exact hnew
    refine ⟨fun key => ?_, ?_, fun {b entries} hb key json => ?_⟩
    · rw [JsSet.mem_add, h.claimed, List.map_append, List.mem_append, List.map_singleton, List.mem_singleton]
    · rw [List.length_modify, h.count]
    · dsimp only at hb
      rw [List.getElem?_modify] at hb
      obtain ⟨before, hbefore, rfl⟩ := Option.map_eq_some_iff.mp hb
      have hin := h.entries hbefore key json
      rw [firstClaim_concat]
      by_cases hkey : claim.1 = key
      · subst hkey
        rw [hnone] at hin ⊢
        rw [if_pos rfl, Option.none_or]
        by_cases hbucket : setsBucketOf claim.1 = b
        · rw [if_pos hbucket, List.mem_append, hin, List.mem_singleton, KeyedEntry.mk.injEq, Option.some.injEq]
          simp [hbucket, eq_comm]
        · rw [if_neg hbucket, hin]
          simp [hbucket]
      · have hother : ∀ {entry : KeyedEntry}, entry = ⟨claim.1, claim.2⟩ → entry.key ≠ key := by
          rintro _ rfl
          exact hkey
        rw [if_neg hkey, Option.or_none, ← hin]
        by_cases hbucket : setsBucketOf claim.1 = b
        · rw [if_pos hbucket, List.mem_append, List.mem_singleton]
          exact or_iff_left fun heq => hother heq rfl
        · rw [if_neg hbucket]

theorem claimed_foldl {claims more : List Claim} {st : Claiming} (h : Claimed claims st) :
    Claimed (claims ++ more) (more.foldl Claiming.claim st) := by
  induction more generalizing claims st with
  | nil => rwa [List.append_nil]
  | cons claim more ih =>
    have hrest := ih (h.claim claim)
    rwa [List.append_assoc, List.singleton_append] at hrest

theorem setsBucketOf_lt (key : List Char) : setsBucketOf key < SETS_BUCKET_COUNT := Nat.mod_lt _ (by decide)

/-- **A set's key answers with the first set to claim it**, and a key no set claims with nothing, where the keys are
ASCII and none ends in a space. -/
theorem renderSets_answers {sets : List SetEntry} {raw : List (List Char)} {rendered : Rendered}
    (h : renderSets host sets raw = .ok rendered) (hkeys : ∀ claim ∈ claimsOf host sets raw, Ascii claim.1 ∧ Unspaced claim.1)
    {key : List Char} (hascii : Ascii key) (hunspaced : Unspaced key) :
    ∃ bucket, rendered.buckets[setsBucketOf key]? = some bucket ∧
      keyedBlobLookup bucket key = .ok ((firstClaim (claimsOf host sets raw) key).map RustStr.utf8) := by
  obtain ⟨buckets, hbuckets, h⟩ := ok_of_bind h
  obtain rfl := Except.ok.inj h
  have hfold : ∀ (sets : List (SetEntry × List Char)) (st : Claiming), sets.foldl (fun st set =>
      (setLookupKeys host set.1).foldl (fun st key => st.claim (key, set.2)) st) st =
      (sets.flatMap fun set => (setLookupKeys host set.1).map fun key => (key, set.2)).foldl Claiming.claim st := by
    intro sets st
    rw [List.foldl_flatMap]
    simp only [List.foldl_map]
  have hstart : Claimed [] {} := by
    refine ⟨by simp, List.length_replicate, fun {b entries} hb key json => ?_⟩
    rw [List.eq_of_mem_replicate (List.mem_of_getElem? hb)]
    simp [firstClaim]
  have hclaimed := @claimed_foldl _ (claimsOf host sets raw) _ hstart
  rw [List.nil_append, claimsOf, ← hfold] at hclaimed
  have hat : setsBucketOf key < _ := hclaimed.count.symm ▸ setsBucketOf_lt key
  have hall := forall₂_of_mapM hbuckets
  have hentries := List.getElem?_eq_getElem hat
  have hencode := hall.get hat (hall.length_eq ▸ hat)
  refine ⟨_, List.getElem?_eq_getElem (hall.length_eq ▸ hat), ?_⟩
  have hmem := hclaimed.entries hentries
  obtain ⟨hfound, hmissed⟩ := lookup_encoded (by decide) (fun e he => by
    obtain ⟨_, hfirst⟩ := (hmem e.key e.json).mp he
    refine hkeys (e.key, e.json) ?_
    obtain ⟨claim, hclaim, hjson⟩ := Option.map_eq_some_iff.mp hfirst
    have hkey : claim.1 = e.key := by simpa using List.find?_some hclaim
    rw [← hkey, ← hjson]
    exact List.mem_of_find?_eq_some hclaim) hencode hascii hunspaced
  cases hfirst : firstClaim (claimsOf host sets raw) key with
  | some json => exact hfound json ((hmem key json).mpr ⟨rfl, hfirst⟩)
  | none =>
    refine hmissed fun e he hkey => ?_
    obtain ⟨_, hjson⟩ := (hmem e.key e.json).mp he
    rw [hkey] at hjson
    cases hfirst.symm.trans hjson

/-- ASCII letters in lower case, and a buffer of at most 128 MiB. -/
def plainHost : Host := ⟨List.map Char.toLower, ⟨134217728, by decide⟩⟩

def setNamed (id code tcgplayer_id json : String) : SetEntry :=
  ⟨some id.toList, some code.toList, some tcgplayer_id.toList, json.toList⟩

/-- Two sets of one group: the first takes its key. -/
theorem group_answers_first : ∃ rendered bucket,
    renderSets plainHost [setNamed "i" "G01" "62" "1", setNamed "j" "G02" "62" "2"] [] = .ok rendered ∧
      rendered.buckets[setsBucketOf "tcgplayer:62".toList]? = some bucket ∧
      keyedBlobLookup bucket "tcgplayer:62".toList = .ok (some (RustStr.utf8 "1".toList)) := by
  have hrendered := ok_getD ⟨[], [], 0⟩ (show (renderSets plainHost [setNamed "i" "G01" "62" "1", setNamed "j" "G02" "62" "2"]
    []).toOption.isSome = true by decide +kernel)
  obtain ⟨bucket, hbucket, hlookup⟩ := @renderSets_answers plainHost _ _ _ hrendered
    (by unfold Ascii Unspaced; decide +kernel) "tcgplayer:62".toList (by unfold Ascii; decide) (by unfold Unspaced; decide)
  exact ⟨_, bucket, hrendered, hbucket, hlookup.trans (congrArg Except.ok (by decide +kernel))⟩

/-- A code that ends in a space takes the key of the code without it. -/
theorem spaced_code_taken :
    firstClaim (claimsOf plainHost [setNamed "i" "aa " "1" "1", setNamed "j" "aa" "2" "2"] []) "code:aa".toList = some ['2'] ∧
      ((renderSets plainHost [setNamed "i" "aa " "1" "1", setNamed "j" "aa" "2" "2"] []).toOption.bind fun rendered =>
        (rendered.buckets[setsBucketOf "code:aa".toList]?).bind fun bucket =>
          (keyedBlobLookup bucket "code:aa".toList).toOption) = some (some (RustStr.utf8 ['1'])) := by decide +kernel

end ReferenceKv
