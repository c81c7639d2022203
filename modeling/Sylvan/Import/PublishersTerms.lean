-- SUMMARY: What each publisher relies on while the others take turns, and what each call keeps of it.
import Sylvan.Import.PublishersRoles

/-!
# The publishers' terms

Inside its stretch a publisher relies on the manifests staying as they are, on no key going
and on no deploy taking the lease. A deploy relies, inside or not, on its keys staying while
the lease names its build, and on nobody else giving the lease to that build.
-/

namespace Publishers

open KvRetention PublishHistory Shared

/-! ## The invariant -/

namespace Namespace

variable (kv : Namespace)

def Holds (builtAt : BuiltAt) : Prop := kv.lease.map (·.built_at) = some builtAt

def Has (key : String) : Prop := (kv.generations.get key).isSome = true

/-- Every chunk a manifest names is there, under a key of the manifest's own generation. -/
def Whole (m : StoreManifest) : Prop :=
  ∀ key ∈ manifestChunkKeys m, generationOfKey key = some m.built_at ∧ kv.Has key

end Namespace

theorem Namespace.Whole.of_has {kv kv' : Namespace} {m : StoreManifest} (h : kv.Whole m)
    (hhas : ∀ key ∈ manifestChunkKeys m, kv.Has key → kv'.Has key) : kv'.Whole m :=
  fun key hkey => ⟨(h key hkey).1, hhas key hkey (h key hkey).2⟩

def Publisher.builtAt : Publisher → Option BuiltAt
  | .coordinator c => some c.family.built_at
  | .deploy d => some d.family.built_at
  | .migration _ => none

section

variable {Id : Type} (who : Id → Publisher)

def IsDeploy (builtAt : BuiltAt) : Prop :=
  ∃ i d, who i = .deploy d ∧ d.family.built_at = builtAt

/-- No deploy publishes under another publisher's build number. -/
def NumberedApart : Prop :=
  ∀ i j d, i ≠ j → who i = .deploy d → (who j).builtAt ≠ some d.family.built_at

structure Inv (w : World Id) : Prop where
  alone : ∀ i j, w.inside i = true → w.inside j = true → i = j
  keyed : Keyed w.kv.manifests
  whole : ∀ key m, w.kv.manifests.get key = some m → w.kv.Whole m

/-! ## The relies -/

/-- Nothing a publisher inside its stretch has seen is gone. -/
structure Calm (kv kv' : Namespace) : Prop where
  manifests : kv'.manifests = kv.manifests
  has : ∀ key, kv.Has key → kv'.Has key
  lease : ∀ builtAt, IsDeploy who builtAt → kv'.Holds builtAt → kv.Holds builtAt

/-- While the lease names the build it always did, and the build's keys are still there. -/
structure Undisturbed (builtAt : BuiltAt) (kv kv' : Namespace) : Prop where
  lease : kv'.Holds builtAt → kv.Holds builtAt
  has : kv'.Holds builtAt → ∀ key, generationOfKey key = some builtAt → kv.Has key → kv'.Has key

structure Relies (i : Id) (w w' : World Id) : Prop where
  inside : w'.inside i = w.inside i
  calm : w.inside i = true → Calm who w.kv w'.kv
  deploy : ∀ d, who i = .deploy d → Undisturbed d.family.built_at w.kv w'.kv

theorem Calm.refl (kv : Namespace) : Calm who kv kv := ⟨rfl, fun _ h => h, fun _ _ h => h⟩

theorem Undisturbed.refl (builtAt : BuiltAt) (kv : Namespace) : Undisturbed builtAt kv kv :=
  ⟨id, fun _ _ _ h => h⟩

variable {who}

theorem Calm.trans {kv kv' kv'' : Namespace} (h : Calm who kv kv') (h' : Calm who kv' kv'') : Calm who kv kv'' where
  manifests := h'.manifests.trans h.manifests
  has key hkey := h'.has key (h.has key hkey)
  lease b hb hholds := h.lease b hb (h'.lease b hb hholds)

theorem Undisturbed.trans {b : BuiltAt} {kv kv' kv'' : Namespace} (h : Undisturbed b kv kv')
    (h' : Undisturbed b kv' kv'') : Undisturbed b kv kv'' where
  lease hholds := h.lease (h'.lease hholds)
  has hholds key hgen hkey := h'.has hholds key hgen (h.has (h'.lease hholds) key hgen hkey)

variable (who)

def terms : Terms Id Op (World Id) where
  inv := Inv
  rely := Relies who
  may _ op w := op = .enter → ∀ j, w.inside j = false
  refl _ w := ⟨rfl, fun _ => Calm.refl who w.kv, fun _ _ => Undisturbed.refl _ _⟩
  trans h h' :=
    { inside := h'.inside.trans h.inside
      calm := fun hin => (h.calm hin).trans (h'.calm (h.inside.trans hin))
      deploy := fun d hd => (h.deploy d hd).trans (h'.deploy d hd) }

variable {who} {i : Id}

/-! ## Assertions -/

/-- An assertion about the namespace that calm keeps. -/
def Calmed (who : Id → Publisher) (P : Namespace → Prop) : Prop :=
  ∀ {kv kv'}, Calm who kv kv' → P kv → P kv'

def Within (i : Id) (P : Namespace → Prop) (w : World Id) : Prop := w.inside i = true ∧ P w.kv

theorem stable_within {P : Namespace → Prop} (h : Calmed who P) : (terms who).Stable i (Within i P) :=
  fun hs hrely _ => ⟨hrely.inside.trans hs.1, h (hrely.calm hs.1) hs.2⟩

theorem stable_true : (terms who).Stable i fun _ => True := fun _ _ _ => trivial

def Knows (P : World Id → Prop) (manifests : PublishHistory.Kv) : Prop :=
  ∀ w, P w → w.kv.manifests = manifests

/-- The manifests as they stand, and the deploys that do not hold the lease. -/
def Seen (who : Id → Publisher) (manifests : PublishHistory.Kv) (gone : BuiltAt → Prop)
    (kv : Namespace) : Prop :=
  kv.manifests = manifests ∧ ∀ b, IsDeploy who b → gone b → ¬kv.Holds b

/-- A key a sweep may delete: of a generation that no manifest names, and whose deploy, if
another publisher is one, has lost the lease. -/
def Sweepable (who : Id → Publisher) (i : Id) (manifests : PublishHistory.Kv) (gone : BuiltAt → Prop)
    (name : String) : Prop :=
  ∃ g, generationOfKey name = some g ∧ (∀ key m, manifests.get key = some m → m.built_at ≠ g) ∧
    ∀ j, j ≠ i → ∀ d, who j = .deploy d → d.family.built_at = g → gone g

variable {manifests : PublishHistory.Kv} {gone : BuiltAt → Prop}

theorem calmed_seen : Calmed who (Seen who manifests gone) := fun hcalm hkv =>
  ⟨hcalm.manifests.trans hkv.1, fun b hb hgone hholds => hkv.2 b hb hgone (hcalm.lease b hb hholds)⟩

theorem knows_seen : Knows (Within i (Seen who manifests gone)) manifests := fun _ hw => hw.2.1

theorem sweepable_of_retire {published : List PublishedManifest} (hlists : Lists published manifests)
    (hkeyed : Keyed manifests) {name : String} {g : BuiltAt} (hgen : generationOfKey name = some g)
    (hrole : g ∉ roleBuilds published)
    (hgone : ∀ j, j ≠ i → ∀ d, who j = .deploy d → d.family.built_at = g → gone g) :
    Sweepable who i manifests gone name :=
  ⟨g, hgen, fun _ _ hget heq => hrole (heq ▸ hlists.mem_roleBuilds hkeyed hget), hgone⟩

variable {w : World Id}

theorem seen_lease (h : Within i (Seen who manifests gone) w) :
    Within i (Seen who manifests fun b => w.kv.lease.map (·.built_at) ≠ some b) w :=
  ⟨h.1, h.2.1, fun _ _ hgone => hgone⟩

theorem calmed_whole {m : StoreManifest} : Calmed who fun kv => Seen who manifests gone kv ∧ kv.Whole m :=
  fun hcalm hkv => ⟨calmed_seen hcalm hkv.1, hkv.2.of_has fun key _ => hcalm.has key⟩

/-! ## What a call keeps -/

/-- A change of the namespace that keeps the invariant, keeps calm unless its publisher is inside,
and disturbs no other deploy. -/
theorem keeps_set (hinv : Inv w) {kv : Namespace} (hkeyed : Keyed kv.manifests)
    (hwhole : ∀ key m, kv.manifests.get key = some m → kv.Whole m)
    (hcalm : w.inside i = false → Calm who w.kv kv)
    (hdeploy : ∀ j, j ≠ i → ∀ d, who j = .deploy d → Undisturbed d.family.built_at w.kv kv) :
    (terms who).Keeps i w (w.set kv) := by
  refine ⟨⟨hinv.alone, hkeyed, hwhole⟩, fun j hj => ⟨rfl, fun hin => hcalm ?_, hdeploy j hj⟩⟩
  cases hi : w.inside i with
  | false => rfl
  | true => exact absurd (hinv.alone j i hin hi) hj

theorem keeps_quiet (hinv : Inv w) {kv : Namespace}
    (hmanifests : kv.manifests = w.kv.manifests) (hkeys : kv.generations = w.kv.generations)
    (hlease : ∀ builtAt, IsDeploy who builtAt → kv.Holds builtAt → w.kv.Holds builtAt) :
    (terms who).Keeps i w (w.set kv) := by
  have hhas : ∀ key, w.kv.Has key → kv.Has key := by
    intro key h
    rw [Namespace.Has, hkeys]
    exact h
  refine keeps_set hinv (hmanifests ▸ hinv.keyed) ?_ (fun _ => ⟨hmanifests, hhas, hlease⟩) ?_
  · intro key m hget
    rw [hmanifests] at hget
    exact (hinv.whole key m hget).of_has fun key _ => hhas key
  · intro j _ d hd
    exact ⟨hlease _ ⟨j, d, hd, rfl⟩, fun _ key _ => hhas key⟩

theorem keeps_self (hinv : Inv w) : (terms who).Keeps i w w :=
  ⟨hinv, fun j _ => (terms who).refl j w⟩

variable [DecidableEq Id]

theorem keeps_put (hinv : Inv w) (key : String) (bytes : ℤ) : (terms who).Keeps i w (exec i (.put key bytes) w).2 := by
  have hhas : ∀ key', w.kv.Has key' →
      ({ w.kv with generations := w.kv.generations.set key bytes } : Namespace).Has key' := by
    intro key' h
    rw [Namespace.Has, JsMap.get_set]
    split
    · rfl
    · exact h
  refine keeps_set hinv hinv.keyed ?_ (fun _ => ⟨rfl, hhas, fun _ _ h => h⟩) ?_
  · exact fun key' m hget => (hinv.whole key' m hget).of_has fun k _ => hhas k
  · exact fun j _ d _ => ⟨id, fun _ k _ => hhas k⟩

theorem keeps_putLease (hinv : Inv w) (happart : NumberedApart who)
    {lease : UploadLease} (hown : (who i).builtAt = some lease.built_at)
    (hin : w.inside i = true ∨ ∀ d, who i ≠ .deploy d) :
    (terms who).Keeps i w (exec i (.putLease lease) w).2 := by
  have hother : ∀ j, j ≠ i → ∀ d, who j = .deploy d → d.family.built_at ≠ lease.built_at := by
    intro j hj d hd heq
    exact happart j i d hj hd (by rw [hown, heq])
  refine keeps_set hinv hinv.keyed hinv.whole ?_ ?_
  · intro hout
    refine ⟨rfl, fun _ h => h, ?_⟩
    rintro b ⟨j, d, hd, rfl⟩ hholds
    obtain hbuilt : lease.built_at = d.family.built_at := Option.some.inj hholds
    by_cases hj : j = i
    · subst hj
      rcases hin with hin | hnot
      · rw [hin] at hout
        cases hout
      · exact absurd hd (hnot d)
    · exact absurd hbuilt.symm (hother j hj d hd)
  · intro j hj d hd
    have hnot : ¬({ w.kv with lease := some lease } : Namespace).Holds d.family.built_at :=
      fun hholds => hother j hj d hd (Option.some.inj hholds).symm
    exact ⟨fun h => absurd h hnot, fun h => absurd h hnot⟩

theorem keeps_deleteLease (hinv : Inv w) : (terms who).Keeps i w (exec i .deleteLease w).2 :=
  keeps_quiet hinv rfl rfl fun _ _ h => by cases h

/-- A key deleted inside: of a generation no manifest names, and not of another deploy's that
still holds the lease. -/
theorem keeps_delete (hinv : Inv w) (hin : w.inside i = true) {key : String}
    {g : BuiltAt} (hgen : generationOfKey key = some g)
    (hfree : ∀ key' m, w.kv.manifests.get key' = some m → m.built_at ≠ g)
    (hdeploy : ∀ j, j ≠ i → ∀ d, who j = .deploy d → d.family.built_at = g → ¬w.kv.Holds g) :
    (terms who).Keeps i w (exec i (.delete key) w).2 := by
  have hhas : ∀ key', key' ≠ key → w.kv.Has key' →
      ({ w.kv with generations := w.kv.generations.filter fun k _ => k ≠ key } : Namespace).Has key' := by
    intro key' hne h
    rw [Namespace.Has, JsMap.get_filter]
    simp only [hne, ne_eq, not_false_eq_true, decide_true]
    obtain ⟨size, hsize⟩ := Option.isSome_iff_exists.mp h
    simp [hsize]
  refine keeps_set hinv hinv.keyed ?_ (fun hout => by simp [hin] at hout) ?_
  · intro key' m hget k hk
    obtain ⟨hkgen, hkhas⟩ := hinv.whole key' m hget k hk
    refine ⟨hkgen, hhas k ?_ hkhas⟩
    rintro rfl
    rw [hgen] at hkgen
    exact hfree key' m hget (Option.some.inj hkgen).symm
  · intro j hj d hd
    refine ⟨id, fun hholds k hk hkhas => hhas k ?_ hkhas⟩
    rintro rfl
    rw [hgen] at hk
    obtain rfl := Option.some.inj hk
    exact hdeploy j hj d hd rfl hholds

theorem keeps_putManifest (hinv : Inv w) (hin : w.inside i = true) {key : String}
    {m : StoreManifest} (hwhole : w.kv.Whole m) (husable : usable m = true) {format : ℕ}
    (hformat : m.format_version = some format)
    (hkey : key = MANIFEST_KEY ∨ key = formatManifestKey format) :
    (terms who).Keeps i w (exec i (.putManifest key m) w).2 := by
  have hget : ∀ key' m', (w.kv.manifests.set key m).get key' = some m' →
      (key' = key ∧ m' = m) ∨ w.kv.manifests.get key' = some m' := by
    intro key' m' h
    rw [JsMap.get_set] at h
    split at h
    · rename_i heq
      exact .inl ⟨heq.symm, (Option.some.inj h).symm⟩
    · exact .inr h
  refine keeps_set hinv ?_ ?_ (fun hout => by simp [hin] at hout) fun j _ d _ => ⟨id, fun _ _ _ h => h⟩
  · intro key' m' h
    rcases hget key' m' h with ⟨rfl, rfl⟩ | hold
    · exact ⟨husable, format, hformat, hkey⟩
    · exact hinv.keyed key' m' hold
  · intro key' m' h
    rcases hget key' m' h with ⟨rfl, rfl⟩ | hold
    · exact hwhole
    · exact hinv.whole key' m' hold

theorem keeps_deleteManifest (hinv : Inv w) (hin : w.inside i = true) (key : String) :
    (terms who).Keeps i w (exec i (.deleteManifest key) w).2 := by
  have hget : ∀ key' m, (w.kv.manifests.filter fun k _ => k ≠ key).get key' = some m → w.kv.manifests.get key' = some m := by
    intro key' m h
    rw [JsMap.get_filter, Option.filter_eq_some_iff] at h
    exact h.1
  refine keeps_set hinv ?_ ?_ (fun hout => by simp [hin] at hout) fun j _ d _ => ⟨id, fun _ _ _ h => h⟩
  · exact fun key' m h => hinv.keyed key' m (hget key' m h)
  · exact fun key' m h => hinv.whole key' m (hget key' m h)

theorem keeps_enter (hinv : Inv w) (hmay : ∀ j, w.inside j = false) : (terms who).Keeps i w (exec i .enter w).2 := by
  have hinside : ∀ j, j ≠ i → (exec i .enter w).2.inside j = w.inside j := by
    intro j hj
    simp [exec, hj]
  refine ⟨⟨?_, hinv.keyed, hinv.whole⟩, fun j hj => ⟨hinside j hj, fun hin => ?_, fun d _ => .refl _ _⟩⟩
  · intro j k hj hk
    have hself : ∀ l, (exec i .enter w).2.inside l = true → l = i := by
      intro l hl
      by_contra hne
      rw [hinside l hne, hmay l] at hl
      cases hl
    rw [hself j hj, hself k hk]
  · rw [hmay j] at hin
    cases hin

theorem keeps_setLeased (hinv : Inv w) : (terms who).Keeps i w (exec i .setLeased w).2 :=
  ⟨⟨hinv.alone, hinv.keyed, hinv.whole⟩, fun _ _ => ⟨rfl, fun _ => .refl who _, fun _ _ => .refl _ _⟩⟩

theorem keeps_drop (hinv : Inv w) : (terms who).Keeps i w (drop i w) := by
  have hinside : ∀ j, j ≠ i → (drop i w).inside j = w.inside j := by
    intro j hj
    simp [drop, hj]
  have hown : (drop i w).inside i = false := by simp [drop]
  refine ⟨⟨?_, hinv.keyed, hinv.whole⟩, fun j hj => ⟨hinside j hj, fun _ => .refl who _, fun d _ => .refl _ _⟩⟩
  intro j k hj hk
  have hne : ∀ l, (drop i w).inside l = true → l ≠ i := by
    rintro l hl rfl
    rw [hown] at hl
    cases hl
  refine hinv.alone j k ?_ ?_
  · rwa [← hinside j (hne j hj)]
  · rwa [← hinside k (hne k hk)]

end

end Publishers
