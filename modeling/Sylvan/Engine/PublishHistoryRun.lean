-- SUMMARY: What holds of every publish history: the rollback a manifest names, and the readers no publish or retirement disturbs.
import Sylvan.Engine.PublishHistory

/-!
# Runs of publishes and retirements

Every manifest lies under its own format's key or under the mirror, and names the last other
build of its lineage. What code of one format does leaves the readers of newer formats alone.
-/

namespace PublishHistory

open Text KvRetention

/-! ## Keys -/

theorem formatOfManifestKey_formatManifestKey (format : ℕ) :
    formatOfManifestKey (formatManifestKey format) = some format := by
  have htext : (formatManifestKey format).toList = FORMAT_MANIFEST_PREFIX.toList ++ Nat.toDigits 10 format := by
    simp [formatManifestKey]
  have hdigits : (Nat.toDigits 10 format).all isDigit = true :=
    List.all_eq_true.mpr fun c hc => isDigit_of_mem_toDigits hc
  rw [formatOfManifestKey, htext, stripLit_append, Option.bind_some,
    if_pos ⟨Nat.toDigits_ne_nil, hdigits⟩, Nat.ofDigitChars_ten_toDigits]

theorem formatManifestKey_injective {f g : ℕ} (h : formatManifestKey f = formatManifestKey g) : f = g := by
  have hsome := congrArg formatOfManifestKey h
  rw [formatOfManifestKey_formatManifestKey, formatOfManifestKey_formatManifestKey] at hsome
  exact Option.some.inj hsome

theorem formatOfManifestKey_legacy : formatOfManifestKey MANIFEST_KEY = none := by decide +kernel

theorem formatManifestKey_ne_legacy (format : ℕ) : formatManifestKey format ≠ MANIFEST_KEY := by
  intro h
  have hsome := formatOfManifestKey_formatManifestKey format
  rw [h, formatOfManifestKey_legacy] at hsome
  cases hsome

/-! ## A keyed namespace -/

/-- Every manifest is usable, says its format, and lies under the mirror or its format's key. -/
def Keyed (kv : Kv) : Prop :=
  ∀ key m, kv.get key = some m → usable m = true ∧
    ∃ format, m.format_version = some format ∧ (key = MANIFEST_KEY ∨ key = formatManifestKey format)

variable {kv : Kv}

theorem mem_readPublishedManifests {p : PublishedManifest} :
    p ∈ readPublishedManifests kv ↔ kv.get p.key = some p.manifest ∧ usable p.manifest = true ∧
      ((p.legacy = true ∧ p.key = MANIFEST_KEY) ∨ (p.legacy = false ∧ (formatOfManifestKey p.key).isSome = true)) := by
  obtain ⟨key, legacy, m⟩ := p
  simp only [readPublishedManifests, List.mem_append, Option.mem_toList, Option.map_eq_some_iff,
    Option.filter_eq_some_iff, List.mem_map, List.mem_filter, (List.perm_insertionSort _ _).mem_iff,
    PublishedManifest.mk.injEq, Prod.exists, JsMap.mem_entries, Bool.and_eq_true]
  constructor
  · rintro (⟨m', ⟨hget, husable⟩, rfl, rfl, rfl⟩ | ⟨key', m', ⟨hget, hformat, husable⟩, rfl, rfl, rfl⟩)
    · exact ⟨hget, husable, .inl ⟨rfl, rfl⟩⟩
    · exact ⟨hget, husable, .inr ⟨rfl, hformat⟩⟩
  · rintro ⟨hget, husable, ⟨rfl, rfl⟩ | ⟨rfl, hformat⟩⟩
    · exact .inl ⟨m, ⟨hget, husable⟩, rfl, rfl, rfl⟩
    · exact .inr ⟨key, m, ⟨hget, hformat, husable⟩, rfl, rfl, rfl⟩

theorem find_legacy (hkeyed : Keyed kv) : (readPublishedManifests kv).find? (·.legacy) =
      (kv.get MANIFEST_KEY).map fun m => ⟨MANIFEST_KEY, true, m⟩ := by
  cases hfind : (readPublishedManifests kv).find? (·.legacy) with
  | none =>
    cases hget : kv.get MANIFEST_KEY with
    | none => rfl
    | some m =>
      have hmem : (⟨MANIFEST_KEY, true, m⟩ : PublishedManifest) ∈ readPublishedManifests kv :=
        mem_readPublishedManifests.mpr ⟨hget, (hkeyed _ _ hget).1, .inl ⟨rfl, rfl⟩⟩
      exact absurd rfl (List.find?_eq_none.mp hfind _ hmem)
  | some p =>
    obtain ⟨key, legacy, m⟩ := p
    have hlegacy : legacy = true := List.find?_some hfind
    obtain ⟨hget, -, ⟨-, rfl⟩ | ⟨hnot, -⟩⟩ := mem_readPublishedManifests.mp (List.mem_of_find?_eq_some hfind)
    · rw [hget, hlegacy]
      rfl
    · simp only [hlegacy] at hnot
      cases hnot

theorem ownManifest_eq (hkeyed : Keyed kv) (format : ℕ) : ownManifest (readPublishedManifests kv) format =
      (kv.get (formatManifestKey format)).map fun m => ⟨formatManifestKey format, false, m⟩ := by
  cases hfind : ownManifest (readPublishedManifests kv) format with
  | none =>
    cases hget : kv.get (formatManifestKey format) with
    | none => rfl
    | some m =>
      obtain ⟨husable, f, hversion, hkey⟩ := hkeyed _ _ hget
      obtain rfl : format = f :=
        formatManifestKey_injective (hkey.resolve_left (formatManifestKey_ne_legacy format))
      have hmem : (⟨formatManifestKey format, false, m⟩ : PublishedManifest) ∈ readPublishedManifests kv :=
        mem_readPublishedManifests.mpr ⟨hget, husable, .inr ⟨rfl, by rw [formatOfManifestKey_formatManifestKey]; rfl⟩⟩
      exact absurd (by simp [hversion]) (List.find?_eq_none.mp hfind _ hmem)
  | some p =>
    obtain ⟨key, legacy, m⟩ := p
    have hpred := List.find?_some hfind
    simp only [Bool.and_eq_true, Bool.not_eq_true', decide_eq_true_eq] at hpred
    obtain ⟨rfl, hversion⟩ := hpred
    obtain ⟨hget, -, ⟨hnot, -⟩ | ⟨-, hformat⟩⟩ :=
      mem_readPublishedManifests.mp (List.mem_of_find?_eq_some hfind)
    · cases hnot
    · obtain ⟨-, f, hf, hkey⟩ := hkeyed _ _ hget
      obtain rfl : format = f := Option.some.inj (hversion.symm.trans hf)
      rcases hkey with rfl | rfl
      · rw [formatOfManifestKey_legacy] at hformat
        cases hformat
      · rw [hget]
        rfl

variable {format : ℕ}

theorem replacedManifest_mem {p : PublishedManifest}
    (h : replacedManifest (readPublishedManifests kv) format = some p) : p ∈ readPublishedManifests kv := by
  unfold replacedManifest at h
  split at h
  · rename_i own hown
    obtain rfl := Option.some.inj h
    exact List.mem_of_find?_eq_some hown
  · have hmem := List.mem_of_head? h
    exact (List.mem_filter.mp ((List.perm_insertionSort _ _).mem_iff.mp hmem)).1

/-! ## Publishing -/

variable {key : String}

theorem get_publish {build : Build} : (publish kv build).get key =
      if key ∈ keysWritten kv build then some (publishedManifest kv build) else kv.get key := by
  rw [publish, JsMap.get_foldl_set_const]

theorem mem_keysWritten {build : Build} : key ∈ keysWritten kv build ↔ key = formatManifestKey build.format ∨
      (key = MANIFEST_KEY ∧ legacyManifestFollows (kv.get MANIFEST_KEY) build.format = true) := by
  unfold keysWritten manifestKeysToWrite
  split <;> simp_all

theorem publishedManifest_fields {build : Build} : (publishedManifest kv build).built_at = build.built_at ∧
      (publishedManifest kv build).format_version = some build.format := ⟨rfl, rfl⟩

theorem Keyed.publish (hkeyed : Keyed kv) (build : Build) : Keyed (publish kv build) := by
  intro key m hget
  rw [get_publish] at hget
  split at hget
  · rename_i hkey
    obtain rfl := Option.some.inj hget
    have husable : usable (publishedManifest kv build) = true := by
      rw [usable, publishedManifest_fields.1]
      simpa using build.named
    refine ⟨husable, build.format, rfl, ?_⟩
    rcases mem_keysWritten.mp hkey with hown | ⟨hlegacy, -⟩
    · exact .inr hown
    · exact .inl hlegacy
  · exact hkeyed key m hget

/-! ## Retirement -/

abbrev retirementOf (kv : Kv) (format : ℕ) : FormatRetirement := planFormatRetirement (readPublishedManifests kv) format

theorem mem_retireKeys (hkeyed : Keyed kv)
    (h : key ∈ (retirementOf kv format).retireKeys) :
    ∃ older < format, key = formatManifestKey older := by
  unfold retirementOf planFormatRetirement at h
  split at h
  · cases h
  · obtain ⟨p, hp, rfl⟩ := List.mem_map.mp h
    obtain ⟨hmem, hpred⟩ := List.mem_filter.mp hp
    simp only [Bool.and_eq_true, Bool.not_eq_true', lower, decide_eq_true_eq] at hpred
    obtain ⟨hget, -, ⟨hlegacy, -⟩ | ⟨-, hformat⟩⟩ := mem_readPublishedManifests.mp hmem
    · rw [hpred.1] at hlegacy
      cases hlegacy
    · obtain ⟨-, f, hf, hkey⟩ := hkeyed _ _ hget
      rw [hf] at hpred
      refine ⟨f, hpred.2, hkey.resolve_left fun hlegacy => ?_⟩
      rw [hlegacy, formatOfManifestKey_legacy] at hformat
      cases hformat

theorem legacyTo_spec (hkeyed : Keyed kv) {m : StoreManifest}
    (h : (retirementOf kv format).legacyTo = some m) :
    kv.get (formatManifestKey format) = some m ∧
      ∀ old, kv.get MANIFEST_KEY = some old → ∃ f < format, old.format_version = some f := by
  unfold retirementOf planFormatRetirement at h
  rw [ownManifest_eq hkeyed, find_legacy hkeyed] at h
  cases hown : kv.get (formatManifestKey format) with
  | none =>
    rw [hown] at h
    cases h
  | some own =>
    rw [hown] at h
    cases hlegacy : kv.get MANIFEST_KEY with
    | none =>
      rw [hlegacy] at h
      exact ⟨h, by simp⟩
    | some old =>
      rw [hlegacy] at h
      obtain ⟨-, f, hf, -⟩ := hkeyed _ _ hlegacy
      have hlowerEq : lower format ⟨MANIFEST_KEY, true, old⟩ = decide (f < format) := by simp [lower, hf]
      simp only [Option.map_some, hlowerEq] at h
      by_cases hlower : f < format
      · refine ⟨by simpa [hlower] using h, fun old' heq => ?_⟩
        obtain rfl := Option.some.inj heq
        exact ⟨f, hlower, hf⟩
      · simp [hlower] at h

theorem get_putMirror {legacyTo : Option StoreManifest} :
    (putMirror kv legacyTo).get key = if key = MANIFEST_KEY then legacyTo.or (kv.get key) else kv.get key := by
  cases legacyTo with
  | none => simp [putMirror]
  | some m =>
    rw [putMirror, JsMap.get_set]
    by_cases hkey : key = MANIFEST_KEY
    · simp [hkey]
    · simp [hkey, Ne.symm hkey]

theorem get_retire : (retireOlderFormats kv format).get key = if key ∈ (retirementOf kv format).retireKeys then none
      else if key = MANIFEST_KEY then
        (retirementOf kv format).legacyTo.or (kv.get key)
      else kv.get key := by
  rw [retireOlderFormats, JsMap.get_filter, ← get_putMirror]
  by_cases hretired : key ∈ (retirementOf kv format).retireKeys
  · rw [if_pos hretired, Option.filter_eq_none_iff]
    intro m _
    simpa using hretired
  · rw [if_neg hretired]
    simp only [hretired, not_false_eq_true, decide_true]
    cases (putMirror kv (retirementOf kv format).legacyTo).get key <;> rfl

theorem get_retire_some (hkeyed : Keyed kv) {m : StoreManifest}
    (h : (retireOlderFormats kv format).get key = some m) :
    (kv.get key = some m ∧ ¬ (key = MANIFEST_KEY ∧ (retirementOf kv format).legacyTo.isSome = true)) ∨
      (key = MANIFEST_KEY ∧ (retirementOf kv format).legacyTo = some m ∧ kv.get (formatManifestKey format) = some m) := by
  rw [get_retire] at h
  split at h
  · cases h
  · split at h
    · rename_i hkey
      cases hto : (retirementOf kv format).legacyTo with
      | none =>
        rw [hto] at h
        exact .inl ⟨h, by simp⟩
      | some own =>
        rw [hto] at h
        obtain rfl : own = m := Option.some.inj h
        exact .inr ⟨hkey, rfl, (legacyTo_spec hkeyed hto).1⟩
    · rename_i hkey
      exact .inl ⟨h, fun hboth => hkey hboth.1⟩

theorem Keyed.retire (hkeyed : Keyed kv) (format : ℕ) : Keyed (retireOlderFormats kv format) := by
  intro key m hget
  rcases get_retire_some hkeyed hget with ⟨hold, -⟩ | ⟨hkey, -, hown⟩
  · exact hkeyed key m hold
  · obtain ⟨husable, f, hf, -⟩ := hkeyed _ _ hown
    exact ⟨husable, f, hf, .inl hkey⟩

/-! ## Readers -/

theorem readManifest_eq (hkeyed : Keyed kv) (format : ℕ) : readManifest kv format = (kv.get (formatManifestKey format)).or
      ((kv.get MANIFEST_KEY).filter fun m => m.format_version = some format) := by
  unfold readManifest
  cases hget : kv.get (formatManifestKey format) with
  | none => rfl
  | some m =>
    obtain ⟨-, f, hf, hkey⟩ := hkeyed _ _ hget
    obtain rfl : format = f :=
      formatManifestKey_injective (hkey.resolve_left (formatManifestKey_ne_legacy format))
    simp [hf]

theorem readManifest_retire (hkeyed : Keyed kv) {format reader : ℕ} (h : format ≤ reader) :
    readManifest (retireOlderFormats kv format) reader = readManifest kv reader := by
  have hkept : ∀ key, (∀ older < format, key ≠ formatManifestKey older) → key ∉ (retirementOf kv format).retireKeys := by
    intro key hnot hmem
    obtain ⟨older, holder, rfl⟩ := mem_retireKeys hkeyed hmem
    exact hnot older holder rfl
  have hown : (retireOlderFormats kv format).get (formatManifestKey reader) = kv.get (formatManifestKey reader) := by
    have hnot := hkept (formatManifestKey reader) fun older holder heq => by
      have := formatManifestKey_injective heq
      omega
    rw [get_retire, if_neg hnot, if_neg (formatManifestKey_ne_legacy reader)]
  have hmirror : (retireOlderFormats kv format).get MANIFEST_KEY =
      (retirementOf kv format).legacyTo.or (kv.get MANIFEST_KEY) := by
    have hnot := hkept MANIFEST_KEY fun older _ heq => formatManifestKey_ne_legacy older heq.symm
    rw [get_retire, if_neg hnot, if_pos rfl]
  rw [readManifest_eq (hkeyed.retire format), readManifest_eq hkeyed, hown, hmirror]
  cases hreader : kv.get (formatManifestKey reader) with
  | some m => rfl
  | none =>
    cases hto : (retirementOf kv format).legacyTo with
    | none => rfl
    | some own =>
      -- the mirror moves from an older format to this one, and the reader reads neither
      obtain ⟨hget, hold⟩ := legacyTo_spec hkeyed hto
      obtain ⟨-, f, hf, hkey⟩ := hkeyed _ _ hget
      obtain rfl : format = f :=
        formatManifestKey_injective (hkey.resolve_left (formatManifestKey_ne_legacy format))
      have hne : format ≠ reader := by
        rintro rfl
        rw [hreader] at hget
        cases hget
      have hnew : (some own).filter (fun m => decide (m.format_version = some reader)) = none := by
        simp [Option.filter_some, hf, hne]
      have hgone : (kv.get MANIFEST_KEY).filter (fun m => decide (m.format_version = some reader)) = none := by
        rw [Option.filter_eq_none_iff]
        intro old hlegacy
        obtain ⟨g, hg, hversion⟩ := hold old hlegacy
        simp only [hversion, Option.some.injEq, decide_eq_true_eq]
        omega
      rw [Option.none_or, Option.none_or, Option.some_or, hnew, hgone]

theorem readManifest_publish_other (hkeyed : Keyed kv) {build : Build} {reader : ℕ}
    (h : build.format ≠ reader) : readManifest (publish kv build) reader = readManifest kv reader := by
  have hown : (publish kv build).get (formatManifestKey reader) = kv.get (formatManifestKey reader) := by
    rw [get_publish, if_neg]
    rw [mem_keysWritten, not_or]
    exact ⟨fun heq => h (formatManifestKey_injective heq).symm, fun hlegacy => formatManifestKey_ne_legacy reader hlegacy.1⟩
  rw [readManifest_eq (hkeyed.publish build), readManifest_eq hkeyed, hown, get_publish]
  split
  · rename_i hwritten
    -- the mirror followed: it held this build's format or nothing
    have hfollows := (mem_keysWritten.mp hwritten).resolve_left (formatManifestKey_ne_legacy build.format).symm
    have hnew : (some (publishedManifest kv build)).filter
        (fun m => decide (m.format_version = some reader)) = none := by
      simp [Option.filter_some, publishedManifest_fields.2, h]
    have hgone : (kv.get MANIFEST_KEY).filter (fun m => decide (m.format_version = some reader)) = none := by
      rw [Option.filter_eq_none_iff]
      intro old hlegacy
      obtain ⟨-, g, hg, -⟩ := hkeyed _ _ hlegacy
      have hheld := hfollows.2
      simp only [legacyManifestFollows, hlegacy, Option.bind_some, hg, decide_eq_true_eq] at hheld
      simp only [hg, hheld, Option.some.injEq, decide_eq_true_eq]
      exact h
    rw [hnew, hgone]
  · rfl

theorem readManifest_publish_own (hkeyed : Keyed kv) (build : Build) :
    readManifest (publish kv build) build.format = some (publishedManifest kv build) := by
  have hwritten : formatManifestKey build.format ∈ keysWritten kv build := mem_keysWritten.mpr (.inl rfl)
  rw [readManifest_eq (hkeyed.publish build), get_publish, if_pos hwritten, Option.some_or]

/-! ## Rollbacks -/

/-- Every manifest names the last other build of its lineage. -/
structure RollbacksKept (s : Kv × Lineage) : Prop where
  keyed : Keyed s.1
  named : ∀ key, ∀ b ∈ s.2 key, b ≠ ""
  rollback : ∀ key m, s.1.get key = some m → m.previous_built_at = lastOther m.built_at (s.2 key)

theorem lastOther_append_other {b b' : BuiltAt} {lineage : List BuiltAt} (h : b' ≠ b) :
    lastOther b (lineage ++ [b']) = some b' := by
  simp [lastOther, List.filter_append, h]

theorem lastOther_append_same {b : BuiltAt} {lineage : List BuiltAt} :
    lastOther b (lineage ++ [b]) = lastOther b lineage := by
  simp [lastOther, List.filter_append]

theorem truthy_lastOther {b : BuiltAt} {lineage : List BuiltAt} (h : ∀ x ∈ lineage, x ≠ "") :
    truthy (lastOther b lineage) = lastOther b lineage := by
  cases hlast : lastOther b lineage with
  | none => rfl
  | some x =>
    have hmem : x ∈ lineage := (List.mem_filter.mp (List.mem_of_getLast? hlast)).1
    simp [truthy, Option.filter_some, h x hmem]

theorem previous_publishedManifest {s : Kv × Lineage} (h : RollbacksKept s) (build : Build) :
    (publishedManifest s.1 build).previous_built_at =
      lastOther build.built_at (extend s.2 (replacedManifest (readPublishedManifests s.1) build.format)) := by
  cases hreplaced : replacedManifest (readPublishedManifests s.1) build.format with
  | none => simp [publishedManifest, hreplaced, withPreviousBuiltAt, extend, lastOther]
  | some p =>
    obtain ⟨hget, husable, -⟩ := mem_readPublishedManifests.mp (replacedManifest_mem hreplaced)
    have hnamed : p.manifest.built_at ≠ "" := by simpa [usable] using husable
    have hrollback := h.rollback p.key p.manifest hget
    by_cases hsame : p.manifest.built_at = build.built_at
    · -- the same build again: its record stands
      have hprevious : (publishedManifest s.1 build).previous_built_at = truthy p.manifest.previous_built_at := by
        simp [publishedManifest, hreplaced, withPreviousBuiltAt, Build.manifest, hsame, build.named]
      rw [hprevious, hrollback, truthy_lastOther (h.named p.key), extend, hsame, lastOther_append_same]
    · have hprevious : (publishedManifest s.1 build).previous_built_at = some p.manifest.built_at := by
        simp [publishedManifest, hreplaced, withPreviousBuiltAt, hnamed, Build.manifest, hsame]
      rw [hprevious, extend, lastOther_append_other hsame]

theorem RollbacksKept.publish {s : Kv × Lineage} (h : RollbacksKept s) (build : Build) :
    RollbacksKept (step s (.publish build)) := by
  refine ⟨h.keyed.publish build, fun key b hb => ?_, fun key m hget => ?_⟩
  · simp only [step, traceLineage] at hb
    split at hb
    · cases hreplaced : replacedManifest (readPublishedManifests s.1) build.format with
      | none =>
        rw [hreplaced] at hb
        cases hb
      | some p =>
        rw [hreplaced, extend, List.mem_append, List.mem_singleton] at hb
        obtain ⟨-, husable, -⟩ := mem_readPublishedManifests.mp (replacedManifest_mem hreplaced)
        rcases hb with hb | rfl
        · exact h.named p.key b hb
        · simpa [usable] using husable
    · exact h.named key b hb
  · have hget' : (PublishHistory.publish s.1 build).get key = some m := hget
    rw [get_publish] at hget'
    simp only [step, traceLineage]
    split at hget'
    · rename_i hwritten
      obtain rfl := Option.some.inj hget'
      rw [if_pos hwritten, publishedManifest_fields.1]
      exact previous_publishedManifest h build
    · rename_i hwritten
      rw [if_neg hwritten]
      exact h.rollback key m hget'

theorem RollbacksKept.retire {s : Kv × Lineage} (h : RollbacksKept s) (format : ℕ) :
    RollbacksKept (step s (.retire format)) := by
  refine ⟨h.keyed.retire format, fun key b hb => ?_, fun key m hget => ?_⟩
  · simp only [step, traceLineage] at hb
    split at hb
    · exact h.named _ b hb
    · exact h.named key b hb
  · simp only [step, traceLineage]
    rcases get_retire_some h.keyed hget with ⟨hold, hnot⟩ | ⟨hkey, hto, hown⟩
    · rw [if_neg hnot]
      exact h.rollback key m hold
    · rw [if_pos ⟨hkey, by simp [hto]⟩]
      exact h.rollback _ m hown

theorem rollbacksKept_history (events : List Event) : RollbacksKept (history events) := by
  refine Runs.foldl_invariant (P := fun _ s => RollbacksKept s) ?_ ?_ events
  · exact ⟨fun key m hget => (by cases hget), by simp, fun key m hget => (by cases hget)⟩
  · intro events event h
    cases event with
    | publish build => exact h.publish build
    | retire format => exact h.retire format

/-! ## Every history -/

theorem mem_afterFormatRetirement (hkeyed : Keyed kv) {p : PublishedManifest} :
    p ∈ afterFormatRetirement (readPublishedManifests kv)
        (retirementOf kv format) MANIFEST_KEY ↔
      p ∈ readPublishedManifests (retireOlderFormats kv format) := by
  obtain ⟨key, legacy, m⟩ := p
  have hmirrorKept : MANIFEST_KEY ∉ (retirementOf kv format).retireKeys := by
    intro hmem
    obtain ⟨older, -, heq⟩ := mem_retireKeys hkeyed hmem
    exact formatManifestKey_ne_legacy older heq.symm
  rw [afterFormatRetirement, List.mem_append, mem_readPublishedManifests, find_legacy hkeyed]
  cases legacy with
  | false =>
    have hnotMirror : (⟨key, false, m⟩ : PublishedManifest) ∉
        (((retirementOf kv format).legacyTo.map fun m =>
          (⟨MANIFEST_KEY, true, m⟩ : PublishedManifest)).or
            ((kv.get MANIFEST_KEY).map fun m => ⟨MANIFEST_KEY, true, m⟩)).toList := by
      cases (retirementOf kv format).legacyTo <;> simp
    rw [or_iff_left hnotMirror, List.mem_filter, mem_readPublishedManifests, get_retire]
    constructor
    · rintro ⟨⟨hget, husable, ⟨hnot, -⟩ | ⟨-, hformat⟩⟩, hkept⟩
      · cases hnot
      · have hkey : key ≠ MANIFEST_KEY := by
          rintro rfl
          rw [formatOfManifestKey_legacy] at hformat
          cases hformat
        have hnot : key ∉ (retirementOf kv format).retireKeys := by
          simpa using hkept
        rw [if_neg hnot, if_neg hkey]
        exact ⟨hget, husable, .inr ⟨rfl, hformat⟩⟩
    · rintro ⟨hget, husable, ⟨hnot, -⟩ | ⟨-, hformat⟩⟩
      · cases hnot
      · have hkey : key ≠ MANIFEST_KEY := by
          rintro rfl
          rw [formatOfManifestKey_legacy] at hformat
          cases hformat
        have hnot : key ∉ (retirementOf kv format).retireKeys := by
          intro hmem
          rw [if_pos hmem] at hget
          cases hget
        rw [if_neg hnot, if_neg hkey] at hget
        exact ⟨⟨hget, husable, .inr ⟨rfl, hformat⟩⟩, by simpa using hnot⟩
  | true =>
    have hnotOwn : (⟨key, true, m⟩ : PublishedManifest) ∉ (readPublishedManifests kv).filter fun p =>
        !p.legacy && p.key ∉ (retirementOf kv format).retireKeys := by
      simp
    have hmirror : (retireOlderFormats kv format).get MANIFEST_KEY =
        (retirementOf kv format).legacyTo.or (kv.get MANIFEST_KEY) := by
      rw [get_retire, if_neg hmirrorKept, if_pos rfl]
    rw [or_iff_right hnotOwn, ← Option.map_or, ← hmirror, Option.mem_toList, Option.map_eq_some_iff]
    constructor
    · rintro ⟨m', hget, heq⟩
      obtain ⟨rfl, -, rfl⟩ := PublishedManifest.mk.inj heq
      exact ⟨hget, (hkeyed.retire format _ _ hget).1, .inl ⟨rfl, rfl⟩⟩
    · rintro ⟨hget, husable, ⟨-, hkey⟩ | ⟨hnot, -⟩⟩
      · obtain rfl : key = MANIFEST_KEY := hkey
        exact ⟨m, hget, rfl⟩
      · cases hnot

theorem readManifest_isSome_after (hkeyed : Keyed kv) {reader : ℕ} {event : Event}
    (hevent : ∀ format, event = .retire format → format ≤ reader) (h : (readManifest kv reader).isSome = true) :
    (readManifest (apply kv event) reader).isSome = true := by
  cases event with
  | publish build =>
    by_cases hformat : build.format = reader
    · rw [apply, ← hformat, readManifest_publish_own hkeyed build]
      rfl
    · rw [apply, readManifest_publish_other hkeyed hformat]
      exact h
  | retire format =>
    rw [apply, readManifest_retire hkeyed (hevent format rfl)]
    exact h

theorem readManifest_isSome_history {events later : List Event} {reader : ℕ}
    (hlater : ∀ format, .retire format ∈ later → format ≤ reader)
    (h : (readManifest (history events).1 reader).isSome = true) :
    (readManifest (history (events ++ later)).1 reader).isSome = true := by
  induction later using List.reverseRecOn with
  | nil => simpa using h
  | append_singleton later event ih =>
    have hbefore := ih fun format hmem => hlater format (List.mem_append_left _ hmem)
    have hstep : history (events ++ (later ++ [event])) = step (history (events ++ later)) event := by
      simp [history, List.foldl_append]
    rw [hstep]
    refine readManifest_isSome_after (rollbacksKept_history _).keyed (fun format heq => ?_) hbefore
    exact hlater format (heq ▸ by simp)

/-- **Every publish history**: the rollbacks its manifests name, and the readers it leaves alone. -/
theorem publish_history (events : List Event) :
    let kv := (history events).1
    let lineage := (history events).2
    -- a manifest names the last other build among those it has replaced
    (∀ key m, kv.get key = some m → m.previous_built_at = lastOther m.built_at (lineage key)) ∧
      -- the same build published again keeps the record
      (∀ build m, kv.get (formatManifestKey build.format) = some m → m.built_at = build.built_at →
        (publishedManifest kv build).previous_built_at = m.previous_built_at) ∧
      -- a publish is what its own format's readers read, and no other's
      (∀ build, readManifest (publish kv build) build.format = some (publishedManifest kv build)) ∧
      (∀ build reader, build.format ≠ reader →
        readManifest (publish kv build) reader = readManifest kv reader) ∧
      -- code of a format retires nothing that readers of that format or a newer one read
      (∀ format reader, format ≤ reader →
        readManifest (retireOlderFormats kv format) reader = readManifest kv reader) ∧
      (∀ format p, p ∈ afterFormatRetirement (readPublishedManifests kv)
          (planFormatRetirement (readPublishedManifests kv) format) MANIFEST_KEY ↔
        p ∈ readPublishedManifests (retireOlderFormats kv format)) ∧
      -- so a reader keeps a manifest as long as no code of a newer format retires
      (∀ later reader, (∀ format, .retire format ∈ later → format ≤ reader) →
        (readManifest kv reader).isSome = true →
        (readManifest (history (events ++ later)).1 reader).isSome = true) := by
  intro kv lineage
  have h := rollbacksKept_history events
  refine ⟨h.rollback, fun build m hget hsame => ?_, readManifest_publish_own h.keyed,
    fun build reader hne => readManifest_publish_other h.keyed hne,
    fun format reader hle => readManifest_retire h.keyed hle, fun format p => mem_afterFormatRetirement h.keyed,
    fun later reader hlater hsome => readManifest_isSome_history hlater hsome⟩
  have hreplaced : replacedManifest (readPublishedManifests kv) build.format =
      some ⟨formatManifestKey build.format, false, m⟩ := by
    simp [replacedManifest, ownManifest_eq h.keyed, kv, hget]
  rw [previous_publishedManifest h build, hreplaced, extend, hsame, lastOther_append_same,
    h.rollback _ m hget, hsame]

end PublishHistory
