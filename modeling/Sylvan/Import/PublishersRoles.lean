-- SUMMARY: What a publisher's sweep spares: every family a manifest it read names, its own and the lease holder's; and retirement from a list in any order.
import Mathlib.Data.Option.Basic
import Sylvan.Engine.PublishHistoryRun
import Sylvan.Import.Publishers

/-!
# What sweeps spare

A publisher decides from the manifests it has read, in whatever order it holds them. A plan
made from them retires no key of a family one of them names.
-/

namespace Publishers

open KvRetention PublishHistory Text

/-! ## Families -/

theorem generationKeyRe_eq {kind format builtAt rest : List Char}
    (hkind : kind ≠ [] ∧ (∀ c ∈ kind, isLowerOrDigit c = true) ∧ (kind.head?.map isLower).getD false = true)
    (hformat : format ≠ [] ∧ ∀ c ∈ format, isDigit c = true)
    (hbuilt : builtAt ≠ [] ∧ ∀ c ∈ builtAt, isDigit c = true)
    (hrest : ∀ c ∈ rest.head?, isDigit c = false)
    (hext : matchExtension (stripPartition rest) = true) :
    generationKeyRe ("store:card-".toList ++ (kind ++ ("-v".toList ++ (format ++ ("-".toList ++
      (builtAt ++ rest)))))) = some builtAt := by
  have hkindRun : ∀ s, stripRun isLowerOrDigit (kind ++ ("-v".toList ++ s)) =
      some (kind, "-v".toList ++ s) := fun s => stripRun_append hkind.1 hkind.2.1 (by simp; decide)
  have hformatRun : ∀ s, stripRun isDigit (format ++ ("-".toList ++ s)) =
      some (format, "-".toList ++ s) := fun s => stripRun_append hformat.1 hformat.2 (by simp; decide)
  have hbuiltRun := stripRun_append hbuilt.1 hbuilt.2 hrest
  have hsplit : ∀ {γ δ : Type} {x : Option γ} {a : γ} {f : γ → Option δ}, x = some a → (x >>= f) = f a := by
    rintro γ δ x a f rfl
    rfl
  have hguard : ∀ {b : Bool}, b = true → guard (b = true) = some () := by
    rintro b rfl
    rfl
  refine (hsplit stripLit_append).trans ?_
  refine (hsplit (hkindRun _)).trans ?_
  refine (hsplit (hguard hkind.2.2)).trans ?_
  refine (hsplit stripLit_append).trans ?_
  refine (hsplit (hformatRun _)).trans ?_
  refine (hsplit stripLit_append).trans ?_
  refine (hsplit hbuiltRun).trans ?_
  exact hsplit (hguard hext)

theorem generationOfKey_chunkKey {builtAt : BuiltAt}
    (hnum : builtAt ≠ "" ∧ builtAt.toList.all isDigit = true) (format partition seq : ℕ) :
    generationOfKey (chunkKey (partitionStoreKey format builtAt partition) seq) = some builtAt := by
  have hkey : (chunkKey (partitionStoreKey format builtAt partition) seq).toList =
      "store:card-".toList ++ ("store".toList ++ ("-v".toList ++ (Nat.toDigits 10 format ++
        ("-".toList ++ (builtAt.toList ++ ("-p".toList ++ (Nat.toDigits 10 partition ++
          (".store".toList ++ (":".toList ++ Nat.toDigits 10 seq))))))))) := by
    have hlead : "store:".toList ++ "card-store-v".toList =
        "store:card-".toList ++ ("store".toList ++ "-v".toList) := by decide
    have hassoc : ∀ a b c d e f g h i j : List Char, a ++ (b ++ c ++ d ++ e ++ f ++ g ++ h) ++ i ++ j =
          (a ++ b) ++ (c ++ (d ++ (e ++ (f ++ (g ++ (h ++ (i ++ j))))))) := by
      intros
      simp only [List.append_assoc]
    unfold chunkKey partitionStoreKey
    iterate 9 rw [String.toList_append]
    rw [Nat.toList_repr, Nat.toList_repr, Nat.toList_repr, hassoc, hlead, List.append_assoc, List.append_assoc]
  have hdigit : ∀ n, Nat.toDigits 10 n ≠ [] ∧ ∀ c ∈ Nat.toDigits 10 n, isDigit c = true :=
    fun n => ⟨Nat.toDigits_ne_nil, fun c => isDigit_of_mem_toDigits⟩
  have hpart : stripPartition ("-p".toList ++ (Nat.toDigits 10 partition ++
      (".store".toList ++ (":".toList ++ Nat.toDigits 10 seq)))) =
        ".store".toList ++ (":".toList ++ Nat.toDigits 10 seq) := by
    rw [stripPartition, stripLit_append]
    dsimp only
    rw [stripRun_append (hdigit partition).1 (hdigit partition).2 (by simp; decide)]
  have hext : matchExtension (".store".toList ++ (":".toList ++ Nat.toDigits 10 seq)) = true := by
    have hname : stripRun isLowerOrDigit ("store".toList ++ (":".toList ++ Nat.toDigits 10 seq)) =
        some ("store".toList, ':' :: Nat.toDigits 10 seq) :=
      stripRun_append (by decide) (by decide) (by simp; decide)
    have hseq : stripRun isDigit (Nat.toDigits 10 seq) = some (Nat.toDigits 10 seq, []) := by
      have hlast : ∀ c ∈ ([] : List Char).head?, isDigit c = false := by simp
      simpa using stripRun_append (hdigit seq).1 (hdigit seq).2 hlast
    change matchExtension ('.' :: ("store".toList ++ (":".toList ++ Nat.toDigits 10 seq))) = true
    rw [matchExtension, if_pos rfl, hname]
    dsimp only
    rw [hseq]
    rfl
  have hbuilt : builtAt.toList ≠ [] ∧ ∀ c ∈ builtAt.toList, isDigit c = true :=
    ⟨by simpa using hnum.1, by simpa using hnum.2⟩
  rw [generationOfKey, hkey, generationKeyRe_eq (by decide) (hdigit format) hbuilt (by simp; decide)
    (by rw [hpart, hext])]
  simp

theorem StoreFamily.generationOfKey_mem (f : StoreFamily) {m : StoreManifest}
    (hparts : m.partitions = f.partitions) {key : String} (h : key ∈ manifestChunkKeys m) :
    generationOfKey key = some f.built_at := by
  simp only [manifestChunkKeys, hparts, StoreFamily.partitions, List.mem_flatMap,
    List.mem_mapIdx, chunkKeys, List.mem_map] at h
  obtain ⟨p, ⟨k, -, rfl⟩, seq, -, rfl⟩ := h
  exact generationOfKey_chunkKey f.numbered f.format k seq

/-! ## Roles -/

section

variable {published : List PublishedManifest} {p : PublishedManifest}

theorem mem_sortedLive : p ∈ sortedLive published ↔ p ∈ published ∧ usable p.manifest = true := by
  rw [sortedLive, (List.perm_insertionSort _ _).mem_iff, List.mem_filter]

def roleBuilds (published : List PublishedManifest) : List BuiltAt :=
  let roles := liveManifestRoles published
  (roles.primary.toList ++ roles.others).map fun p => p.manifest.built_at

theorem mem_foldl_others (base : List BuiltAt) (rest : List PublishedManifest)
    {seen : List BuiltAt × List PublishedManifest} (hseen : ∀ b, b ∈ seen.1 → b ∈ base ++ seen.2.map fun p => p.manifest.built_at)
    {b : BuiltAt} (h : b ∈ seen.1 ∨ b ∈ rest.map fun p => p.manifest.built_at) :
    b ∈ base ++ (rest.foldl (fun seen p =>
      if p.manifest.built_at ∈ seen.1 then seen
      else (seen.1 ++ [p.manifest.built_at], seen.2 ++ [p])) seen).2.map
        fun p => p.manifest.built_at := by
  induction rest generalizing seen with
  | nil => exact hseen b (h.resolve_right (by simp))
  | cons p rest ih =>
    rw [List.foldl_cons]
    split
    · rename_i hp
      refine ih hseen ?_
      rcases h with h | h
      · exact .inl h
      · rcases List.mem_cons.mp h with rfl | h
        · exact .inl hp
        · exact .inr h
    · refine ih (fun b' hb' => ?_) ?_
      · rw [List.map_append, ← List.append_assoc, List.mem_append]
        rcases List.mem_append.mp hb' with hb' | hb'
        · exact .inl (hseen b' hb')
        · exact .inr (by simpa using hb')
      · rcases h with h | h
        · exact .inl (List.mem_append_left _ h)
        · rcases List.mem_cons.mp h with rfl | h
          · exact .inl (by simp)
          · exact .inr h

theorem mem_roleBuilds (hp : p ∈ published) (husable : usable p.manifest = true) :
    p.manifest.built_at ∈ roleBuilds published := by
  have hsorted := mem_sortedLive.mpr ⟨hp, husable⟩
  simp only [roleBuilds, liveManifestRoles, List.map_append]
  cases hlist : sortedLive published with
  | nil =>
    rw [hlist] at hsorted
    cases hsorted
  | cons first rest =>
    rw [hlist] at hsorted
    refine mem_foldl_others [first.manifest.built_at] rest (fun b hb => by simpa using hb) ?_
    rcases List.mem_cons.mp hsorted with rfl | hmem
    · exact .inl (by simp)
    · exact .inr (List.mem_map_of_mem hmem)

end

/-! ## Plans -/

theorem retire_spares {keys : List ListedKey} {published : List PublishedManifest}
    {inFlight : Option BuiltAt} {incoming limit : Option ℤ} {name : String}
    (h : name ∈ (planRetention keys (rolesOf published inFlight incoming limit)).retire) :
    ∃ g, generationOfKey name = some g ∧ g ∉ roleBuilds published ∧ inFlight ≠ some g := by
  obtain ⟨-, g, hgen, hfree⟩ := (planRetention_by_role keys _).1 name h
  refine ⟨g, hgen, fun hmem => hfree ?_, fun hfly => hfree (.inr (.inr hfly))⟩
  simp only [roleBuilds, List.map_append, List.mem_append, List.mem_map, Option.mem_toList] at hmem
  simp only [RetentionOpts.Protects, rolesOf, Option.map_map, List.map_map, List.mem_map]
  rcases hmem with ⟨p, hp, rfl⟩ | ⟨p, hp, rfl⟩
  · exact .inl (by rw [hp]; rfl)
  · exact .inr (.inl ⟨p, hp, rfl⟩)

theorem retire_spares_holder {keys : List ListedKey} {published : List PublishedManifest}
    {held : Option UploadLease} {name : String}
    (h : name ∈ (planRetention keys
      (rolesOf published (inFlightOf published held) none none)).retire) :
    ∃ g, generationOfKey name = some g ∧ g ∉ roleBuilds published ∧ held.map (·.built_at) ≠ some g := by
  obtain ⟨g, hgen, hrole, hfly⟩ := retire_spares h
  refine ⟨g, hgen, hrole, fun hheld => hfly ?_⟩
  rw [inFlightOf, hheld, Option.filter_eq_some_iff]
  exact ⟨rfl, by simpa [roleBuilds] using hrole⟩

/-! ## Lists of the published manifests -/

/-- The published manifests of a namespace, in some order. -/
def Lists (published : List PublishedManifest) (manifests : PublishHistory.Kv) : Prop :=
  ∀ p, p ∈ published ↔ p ∈ PublishHistory.readPublishedManifests manifests

namespace Lists

variable {published : List PublishedManifest} {manifests : PublishHistory.Kv}

theorem mem_roleBuilds (h : Lists published manifests) (hkeyed : Keyed manifests) {key : String}
    {m : StoreManifest} (hget : manifests.get key = some m) : m.built_at ∈ roleBuilds published := by
  obtain ⟨husable, format, -, hkey⟩ := hkeyed key m hget
  rcases hkey with rfl | rfl
  · exact Publishers.mem_roleBuilds (p := ⟨MANIFEST_KEY, true, m⟩)
      ((h _).mpr (mem_readPublishedManifests.mpr ⟨hget, husable, .inl ⟨rfl, rfl⟩⟩)) husable
  · refine Publishers.mem_roleBuilds (p := ⟨formatManifestKey format, false, m⟩)
      ((h _).mpr (mem_readPublishedManifests.mpr ⟨hget, husable, .inr ⟨rfl, ?_⟩⟩)) husable
    rw [formatOfManifestKey_formatManifestKey]
    rfl

theorem withOwn (h : Lists published manifests) (hkeyed : Keyed manifests) {format : ℕ}
    {m : StoreManifest} (hget : manifests.get (formatManifestKey format) = some m) :
    Lists (withOwnManifest published (formatManifestKey format) m) manifests := by
  have husable := (hkeyed _ _ hget).1
  have hformat : (formatOfManifestKey (formatManifestKey format)).isSome = true := by
    rw [formatOfManifestKey_formatManifestKey]
    rfl
  rintro ⟨key, legacy, m'⟩
  rw [withOwnManifest, List.mem_append, List.mem_filter, h, List.mem_singleton]
  by_cases hkey : key = formatManifestKey format
  · subst hkey
    simp only [ne_eq, not_true_eq_false, decide_false, Bool.false_eq_true, and_false, false_or,
      mem_readPublishedManifests, PublishedManifest.mk.injEq, true_and]
    constructor
    · rintro ⟨rfl, rfl⟩
      exact ⟨hget, husable, .inr ⟨rfl, hformat⟩⟩
    · rintro ⟨hget', -, ⟨-, hlegacy⟩ | ⟨hlegacy, -⟩⟩
      · exact absurd hlegacy (formatManifestKey_ne_legacy format)
      · exact ⟨hlegacy, Option.some.inj (hget'.symm.trans hget)⟩
  · simp [hkey]

theorem find?_eq (h : Lists published manifests) {q : PublishedManifest → Bool}
    (hone : ∀ a ∈ PublishHistory.readPublishedManifests manifests,
      ∀ b ∈ PublishHistory.readPublishedManifests manifests, q a = true → q b = true → a = b) :
    published.find? q = (PublishHistory.readPublishedManifests manifests).find? q := by
  cases hfind : published.find? q with
  | none =>
    symm
    rw [List.find?_eq_none] at hfind ⊢
    exact fun a ha => hfind a ((h a).mpr ha)
  | some a =>
    have ha := (h a).mp (List.mem_of_find?_eq_some hfind)
    cases hother : (PublishHistory.readPublishedManifests manifests).find? q with
    | none => exact absurd (List.find?_some hfind) (List.find?_eq_none.mp hother a ha)
    | some b =>
      rw [hone a ha b (List.mem_of_find?_eq_some hother) (List.find?_some hfind)
        (List.find?_some hother)]

theorem ownManifest_eq (h : Lists published manifests) (hkeyed : Keyed manifests) (format : ℕ) :
    ownManifest published format = ownManifest (PublishHistory.readPublishedManifests manifests) format := by
  refine h.find?_eq fun a ha b hb hqa hqb => ?_
  have hentry : ∀ c ∈ PublishHistory.readPublishedManifests manifests,
      (!c.legacy && c.manifest.format_version = some format) = true →
        c.key = formatManifestKey format ∧ c.legacy = false := by
    intro c hc hq
    simp only [Bool.and_eq_true, Bool.not_eq_true', decide_eq_true_eq] at hq
    obtain ⟨hget, -, ⟨hlegacy, -⟩ | ⟨hlegacy, hformat⟩⟩ := mem_readPublishedManifests.mp hc
    · rw [hq.1] at hlegacy
      cases hlegacy
    · obtain ⟨-, f, hf, hkey⟩ := hkeyed _ _ hget
      obtain rfl : format = f := Option.some.inj (hq.2.symm.trans hf)
      refine ⟨hkey.resolve_left fun hmirror => ?_, hlegacy⟩
      rw [hmirror, formatOfManifestKey_legacy] at hformat
      cases hformat
  obtain ⟨hka, hla⟩ := hentry a ha hqa
  obtain ⟨hkb, hlb⟩ := hentry b hb hqb
  have hga := (mem_readPublishedManifests.mp ha).1
  have hgb := (mem_readPublishedManifests.mp hb).1
  rw [hka] at hga
  rw [hkb] at hgb
  obtain ⟨ka, la, ma⟩ := a
  obtain ⟨kb, lb, mb⟩ := b
  simp_all

theorem find_legacy_eq (h : Lists published manifests) : published.find? (·.legacy) =
      (PublishHistory.readPublishedManifests manifests).find? (·.legacy) := by
  refine h.find?_eq fun a ha b hb hqa hqb => ?_
  obtain ⟨hga, -, ⟨-, hka⟩ | ⟨hla, -⟩⟩ := mem_readPublishedManifests.mp ha
  · obtain ⟨hgb, -, ⟨-, hkb⟩ | ⟨hlb, -⟩⟩ := mem_readPublishedManifests.mp hb
    · obtain ⟨ka, la, ma⟩ := a
      obtain ⟨kb, lb, mb⟩ := b
      simp_all
    · rw [hlb] at hqb
      cases hqb
  · rw [hla] at hqa
    cases hqa

/-! ## Retirement -/

theorem legacyTo_eq (h : Lists published manifests) (hkeyed : Keyed manifests) (format : ℕ) :
    (planFormatRetirement published format).legacyTo =
      (planFormatRetirement (PublishHistory.readPublishedManifests manifests) format).legacyTo := by
  unfold planFormatRetirement
  rw [h.ownManifest_eq hkeyed, h.find_legacy_eq]
  cases ownManifest (PublishHistory.readPublishedManifests manifests) format <;> rfl

theorem mem_retireKeys_iff (h : Lists published manifests) (hkeyed : Keyed manifests) {format : ℕ}
    {key : String} : key ∈ (planFormatRetirement published format).retireKeys ↔ key ∈ (planFormatRetirement
        (PublishHistory.readPublishedManifests manifests) format).retireKeys := by
  unfold planFormatRetirement
  rw [h.ownManifest_eq hkeyed]
  cases ownManifest (PublishHistory.readPublishedManifests manifests) format with
  | none => rfl
  | some own =>
    simp only [List.mem_map, List.mem_filter]
    exact exists_congr fun p => by rw [h p]

/-- The manifests once the retirement decided from a list has been carried out. -/
def retired (published : List PublishedManifest) (manifests : PublishHistory.Kv) (format : ℕ) : PublishHistory.Kv :=
  (putMirror manifests (planFormatRetirement published format).legacyTo).filter
    fun key _ => key ∉ (planFormatRetirement published format).retireKeys

theorem retired_eq (h : Lists published manifests) (hkeyed : Keyed manifests) (format : ℕ) :
    retired published manifests format = PublishHistory.retireOlderFormats manifests format := by
  unfold retired PublishHistory.retireOlderFormats
  rw [h.legacyTo_eq hkeyed]
  congr 1
  funext key _
  rw [Bool.eq_iff_iff, decide_eq_true_eq, decide_eq_true_eq, h.mem_retireKeys_iff hkeyed]

theorem after (h : Lists published manifests) (hkeyed : Keyed manifests) (format : ℕ) :
    Lists (afterFormatRetirement published (planFormatRetirement published format) MANIFEST_KEY)
      (retired published manifests format) := by
  intro p
  rw [h.retired_eq hkeyed, ← mem_afterFormatRetirement hkeyed]
  simp only [afterFormatRetirement, List.mem_append, List.mem_filter, h p, h.legacyTo_eq hkeyed,
    h.find_legacy_eq, Bool.and_eq_true, decide_eq_true_eq, h.mem_retireKeys_iff hkeyed]

theorem unretired (h : Lists published manifests) {format : ℕ}
    (hkeys : (planFormatRetirement published format).retireKeys = [])
    (hmirror : (planFormatRetirement published format).legacyTo = none) :
    Lists published (retired published manifests format) := by
  intro p
  rw [h p, mem_readPublishedManifests, mem_readPublishedManifests, retired, hkeys, hmirror, JsMap.get_filter]
  cases hget : (putMirror manifests none).get p.key <;> simp_all [putMirror]

end Lists

end Publishers
