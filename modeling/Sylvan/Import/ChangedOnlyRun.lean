-- SUMMARY: Nights of changed-only publishing: when what is recorded as published or unchanged is what KV holds.
import Sylvan.Data.Runs
import Sylvan.Import.ChangedOnly

/-!
# Nights of changed-only publishing

A hash on record vouches for the bytes under its key, as long as no later put of the key took
effect. A put that took effect without being recorded leaves the older hash standing: the
next night repairs it, unless its bytes are the older ones again.
-/

namespace ChangedOnly

open Act

/-! ## Keys -/

/-- A value whose hash the steps may have on record, or one of the two records of a set. -/
def Value.Owned : Value → Prop
  | .bucket n => n < RULINGS_BUCKET_COUNT
  | .reference name => startsWith name referenceCurrentPrefix = true
  | .rulingsMeta | .referenceMeta => True

def Value.hashed : Value → Bool
  | .bucket _ | .reference _ => true
  | .rulingsMeta | .referenceMeta => false

variable {v : Value}

theorem hashed_of_hashOf {w : World} {hash : String} (h : w.hashOf v = some hash) : v.hashed = true := by
  cases v with
  | bucket n => rfl
  | reference name => rfl
  | rulingsMeta => cases h
  | referenceMeta => cases h

def valueOf (key : String) : Value :=
  if startsWith key referenceCurrentPrefix then .reference key
  else if key = RULINGS_META_KEY then .rulingsMeta
  else if key = REFERENCE_META_KEY then .referenceMeta
  else .bucket <| (key.toList.drop rulingsCurrentPrefix.length).foldl
    (fun n c => 16 * n + (if c.isDigit then c.toNat - '0'.toNat else c.toNat - 'a'.toNat + 10)) 0

theorem valueOf_rulingsBucketKey : ∀ n < RULINGS_BUCKET_COUNT, valueOf (rulingsBucketKey n) = .bucket n := by decide +kernel

theorem Value.Owned.valueOf_key (h : v.Owned) : valueOf v.key = v := by
  cases v with
  | bucket n => exact valueOf_rulingsBucketKey n h
  | reference name => exact if_pos h
  | rulingsMeta => decide
  | referenceMeta => decide

theorem Value.Owned.key_injective {v v' : Value} (h : v.Owned) (h' : v'.Owned) (hkey : v.key = v'.key) : v = v' := by
  rw [← h.valueOf_key, hkey, h'.valueOf_key]

theorem startsWith_append (lead s : String) : startsWith (lead ++ s) lead = true := by
  simp [startsWith]

/-- A key that starts with one of two texts, neither of which starts the other, does not start with the other. -/
theorem not_startsWith {key lead other : String} (h : startsWith key lead = true)
    (hl : startsWith other lead = false) (ho : startsWith lead other = false) : startsWith key other = false := by
  rw [Bool.eq_false_iff]
  intro hkey
  simp only [startsWith, List.isPrefixOf_iff_prefix, Bool.eq_false_iff, ne_eq] at h hkey hl ho
  rcases List.prefix_or_prefix_of_prefix h hkey with hlead | hlead
  · exact hl hlead
  · exact ho hlead

theorem Value.Owned.not_stale (h : v.Owned) {all : List String} :
    v.key ∉ staleKeys all RULINGS_KEY_PREFIX rulingsCurrentPrefix ∧
      v.key ∉ staleKeys all REFERENCE_KEY_PREFIX referenceCurrentPrefix := by
  simp only [staleKeys, List.mem_filter, Bool.and_eq_true, Bool.not_eq_true', not_and, Bool.not_eq_false]
  cases v with
  | bucket n =>
    have hbucket : startsWith (rulingsBucketKey n) rulingsCurrentPrefix = true := startsWith_append _ _
    have hother : startsWith (rulingsBucketKey n) REFERENCE_KEY_PREFIX = false :=
      not_startsWith hbucket (by decide) (by decide)
    refine ⟨fun _ _ => hbucket, fun _ hkey => ?_⟩
    rw [Value.key, hother] at hkey
    cases hkey
  | reference name =>
    have hother : startsWith name RULINGS_KEY_PREFIX = false := not_startsWith h (by decide) (by decide)
    refine ⟨fun _ hkey => ?_, fun _ _ => h⟩
    rw [Value.key, hother] at hkey
    cases hkey
  | rulingsMeta => exact ⟨fun _ => by decide, fun _ => by decide⟩
  | referenceMeta => exact ⟨fun _ => by decide, fun _ => by decide⟩

/-! ## The invariant -/

/-- A hash on record is of the bytes KV holds, unless a later put took effect and was not recorded; then KV holds
    what that put brought. -/
structure Sound (host : Host) (w : World) : Prop where
  owned : ∀ v hash, w.hashOf v = some hash → v.Owned
  landed : ∀ v bytes, w.unrecorded v = some bytes → v.Owned ∧ w.kv v.key = some bytes
  recorded : ∀ v hash, w.hashOf v = some hash → w.unrecorded v = none →
    ∃ bytes, w.kv v.key = some bytes ∧ host.sha256Hex bytes = hash
  notes : ∀ note ∈ w.notes, note.held = some note.bytes

/-- None of these values comes back to the bytes on record after a put of other bytes took effect unrecorded. -/
def Fits (host : Host) (a : Alarm) (values : List Value) (w : World) : Prop :=
  ∀ v ∈ values, ∀ bytes, w.unrecorded v = some bytes → w.hashOf v = some (host.sha256Hex (a.bytes v)) → bytes = a.bytes v

section

variable {host : Host} {a : Alarm} {values : List Value} {w : World}

theorem sound_fresh (kv : String → Option Bytes) : Sound host (fresh kv) where
  owned v hash h := by cases v <;> cases h
  landed v bytes h := by cases h
  recorded v hash h := by cases v <;> cases h
  notes note h := by cases h

@[simp] theorem hashOf_took (v v' : Value) (bytes : Bytes) : (w.took v bytes).hashOf v' = w.hashOf v' := by
  cases v' <;> rfl

@[simp] theorem hashOf_note (v v' : Value) (bytes : Bytes) : (w.note v bytes).hashOf v' = w.hashOf v' := by
  cases v' <;> rfl

theorem hashOf_recordBucket (n : ℕ) (hash : String) (rulings : ℕ) (v : Value) :
    (w.recordBucket n hash rulings).hashOf v = if v = .bucket n then some hash else w.hashOf v := by
  cases v with
  | bucket m =>
    by_cases h : m = n
    · subst h
      simp [World.recordBucket, World.hashOf]
    · simp [World.recordBucket, World.hashOf, h]
  | reference name => rfl
  | rulingsMeta => rfl
  | referenceMeta => rfl

theorem hashOf_recordReference (name hash : String) (v : Value) :
    (w.recordReference name hash).hashOf v = if v = .reference name then some hash else w.hashOf v := by
  cases v with
  | bucket m => rfl
  | reference other =>
    by_cases h : other = name
    · subst h
      simp [World.recordReference, World.hashOf]
    · simp [World.recordReference, World.hashOf, h]
  | rulingsMeta => rfl
  | referenceMeta => rfl

theorem Sound.took (h : Sound host w) (hv : v.Owned) (bytes : Bytes) : Sound host (w.took v bytes) where
  owned v' hash hhash := h.owned v' hash (by simpa using hhash)
  landed v' bytes' hlanded := by
    by_cases heq : v' = v
    · subst heq
      obtain rfl : bytes = bytes' := by simpa [World.took] using hlanded
      exact ⟨hv, by simp [World.took]⟩
    · obtain ⟨hv', hkv⟩ := h.landed v' bytes' (by simpa [World.took, heq] using hlanded)
      have hne : v'.key ≠ v.key := fun hkey => heq (hv'.key_injective hv hkey)
      exact ⟨hv', by simpa [World.took, hne] using hkv⟩
  recorded v' hash hhash hnone := by
    by_cases heq : v' = v
    · subst heq
      simp [World.took] at hnone
    · rw [hashOf_took] at hhash
      obtain ⟨bytes', hkv, hsha⟩ := h.recorded v' hash hhash (by simpa [World.took, heq] using hnone)
      have hne : v'.key ≠ v.key := fun hkey => heq ((h.owned v' hash hhash).key_injective hv hkey)
      exact ⟨bytes', by simpa [World.took, hne] using hkv, hsha⟩
  notes := h.notes

variable {bytes : Bytes} {w' : World}

theorem Sound.record (h : Sound host w) (hlast : w.unrecorded v = some bytes)
    (hkv : w'.kv = w.kv) (hnotes : w'.notes = w.notes) (hunrecorded : w'.unrecorded = Function.update w.unrecorded v none)
    (hhash : ∀ v', w'.hashOf v' = if v' = v then some (host.sha256Hex bytes) else w.hashOf v') : Sound host w' where
  owned v' hash hrecord := by
    rw [hhash] at hrecord
    by_cases heq : v' = v
    · exact heq ▸ (h.landed v bytes hlast).1
    · exact h.owned v' hash (by simpa [heq] using hrecord)
  landed v' bytes' hlanded := by
    rw [hunrecorded] at hlanded
    rw [hkv]
    by_cases heq : v' = v
    · simp [heq] at hlanded
    · exact h.landed v' bytes' (by simpa [heq] using hlanded)
  recorded v' hash hrecord hnone := by
    rw [hhash] at hrecord
    rw [hkv]
    by_cases heq : v' = v
    · subst heq
      exact ⟨bytes, (h.landed v' bytes hlast).2, by simpa using hrecord⟩
    · rw [hunrecorded] at hnone
      exact h.recorded v' hash (by simpa [heq] using hrecord) (by simpa [heq] using hnone)
  notes := hnotes ▸ h.notes

theorem Sound.note (h : Sound host w) (hkv : w.kv v.key = some bytes) : Sound host (w.note v bytes) where
  owned v' hash hhash := h.owned v' hash (by simpa using hhash)
  landed := h.landed
  recorded v' hash hhash := h.recorded v' hash (by simpa using hhash)
  notes note hnote := by
    rcases List.mem_cons.mp hnote with rfl | hold
    · exact hkv
    · exact h.notes note hold

/-! ## What a slice keeps -/

/-- The invariant of a slice that works on `values`. -/
structure Standing (host : Host) (a : Alarm) (values : List Value) (w : World) : Prop where
  sound : Sound host w
  fits : Fits host a values w

theorem Fits.took (h : Fits host a values w) (hv : v.hashed = true → bytes = a.bytes v) :
    Fits host a values (w.took v bytes) := by
  intro v' hv' bytes' hlanded hhash
  by_cases heq : v' = v
  · subst heq
    obtain rfl : bytes = bytes' := by simpa [World.took] using hlanded
    exact hv (hashed_of_hashOf hhash)
  · exact h v' hv' bytes' (by simpa [World.took, heq] using hlanded) (by simpa using hhash)

theorem Fits.record (h : Fits host a values w) {hash : String}
    (hunrecorded : w'.unrecorded = Function.update w.unrecorded v none)
    (hhash : ∀ v', w'.hashOf v' = if v' = v then some hash else w.hashOf v') : Fits host a values w' := by
  intro v' hv' bytes' hlanded hrecord
  rw [hunrecorded] at hlanded
  rw [hhash] at hrecord
  by_cases heq : v' = v
  · simp [heq] at hlanded
  · exact h v' hv' bytes' (by simpa [heq] using hlanded) (by simpa [heq] using hrecord)

theorem Standing.took (h : Standing host a values w) (howned : v.Owned)
    (hv : v.hashed = true → bytes = a.bytes v) : Standing host a values (w.took v bytes) :=
  ⟨h.sound.took howned bytes, h.fits.took hv⟩

theorem Standing.note (h : Standing host a values w) (hkv : w.kv v.key = some bytes) :
    Standing host a values (w.note v bytes) :=
  ⟨h.sound.note hkv, fun v' hv' bytes' hlanded hhash => h.fits v' hv' bytes' hlanded (by simpa using hhash)⟩

theorem Standing.held (h : Standing host a values w) (hsha : Function.Injective host.sha256Hex)
    (hv : v ∈ values) (hhash : w.hashOf v = some (host.sha256Hex (a.bytes v))) : w.kv v.key = some (a.bytes v) := by
  cases hlast : w.unrecorded v with
  | none =>
    obtain ⟨bytes, hkv, heq⟩ := h.sound.recorded v _ hhash hlast
    rw [hkv, hsha heq]
  | some bytes =>
    rw [(h.sound.landed v bytes hlast).2, h.fits v hv bytes hlast hhash]

theorem keeps_stop {I : World → Prop} (h : ∀ w, I w → I { w with alive := false }) {α : Type} :
    Keeps I (stop : Act World α) :=
  Keeps.bind (Keeps.modify h) fun _ => Keeps.throw

theorem Standing.unalive (h : Standing host a values w) : Standing host a values { w with alive := false } :=
  ⟨⟨h.sound.owned, h.sound.landed, h.sound.recorded, h.sound.notes⟩, h.fits⟩

theorem keeps_await {α : Type} (reply : Reply α) : Keeps (Standing host a values) (await reply) := by
  cases reply with
  | answered value => exact Keeps.ret
  | threw message => exact Keeps.throw
  | killed => exact keeps_stop fun _ => Standing.unalive

theorem keeps_rescue {I : World → Prop} {α : Type} {x : Act World α} {handler : String → Act World α} (hx : Keeps I x)
    (hhandler : ∀ message, Keeps I (handler message)) : Keeps I (rescue x handler) := by
  refine Keeps.bind (Keeps.attempt hx) fun outcome => ?_
  cases outcome with
  | ok value => exact Keeps.ret
  | error message =>
    refine Keeps.read_bind fun w hw => ?_
    cases halive : w.alive with
    | true => simpa [halive] using hhandler message w hw
    | false => simpa [halive] using Keeps.throw w hw

theorem keeps_kvPut (howned : v.Owned) (hv : v.hashed = true → bytes = a.bytes v) :
    Keeps (Standing host a values) (kvPut a v bytes) := by
  have htook : ∀ took : Bool, ∀ w, Standing host a values w →
      Standing host a values (if took then w.took v bytes else w) := by
    intro took w hw
    cases took with
    | true => exact hw.took howned hv
    | false => exact hw
  unfold kvPut
  cases a.put v with
  | done => exact Keeps.modify fun w hw => hw.took howned hv
  | threw took message => exact Keeps.bind (Keeps.modify (htook took)) fun _ => Keeps.throw
  | killed took => exact Keeps.bind (Keeps.modify (htook took)) fun _ => keeps_stop fun _ => Standing.unalive

theorem kvPut_ok (h : kvPut a v bytes w = (.ok (), w')) : w' = w.took v bytes := by
  unfold kvPut at h
  cases hput : a.put v with
  | done =>
    rw [hput] at h
    exact (congrArg Prod.snd h).symm
  | threw took message =>
    rw [hput] at h
    cases h
  | killed took =>
    rw [hput] at h
    cases h

theorem keeps_kvPut_bind {α : Type} {f : Unit → Act World α} (howned : v.Owned)
    (hv : v.hashed = true → bytes = a.bytes v)
    (hnext : ∀ w : World, Standing host a values (w.took v bytes) → Standing host a values (f () (w.took v bytes)).2) :
    Keeps (Standing host a values) (kvPut a v bytes >>= f) := by
  intro w hw
  have hkeep := keeps_kvPut howned hv w hw
  rw [bind_apply]
  cases hrun : kvPut a v bytes w with
  | mk result w' =>
    rw [hrun] at hkeep
    cases result with
    | error message => exact hkeep
    | ok done =>
      obtain rfl := kvPut_ok hrun
      exact hnext w hkeep

theorem Standing.recordBucket (h : Standing host a values w) {n : ℕ} {rulings : ℕ}
    (hlast : w.unrecorded (.bucket n) = some bytes) :
    Standing host a values ((w.recordBucket n (host.sha256Hex bytes) rulings).note (.bucket n) bytes) := by
  have hrecord : Standing host a values (w.recordBucket n (host.sha256Hex bytes) rulings) :=
    ⟨h.sound.record hlast rfl rfl rfl (hashOf_recordBucket n _ _), h.fits.record rfl (hashOf_recordBucket n _ _)⟩
  exact hrecord.note (h.sound.landed _ _ hlast).2

theorem Standing.recordReference (h : Standing host a values w) {name : String}
    (hlast : w.unrecorded (.reference name) = some bytes) :
    Standing host a values ((w.recordReference name (host.sha256Hex bytes)).note (.reference name) bytes) := by
  have hrecord : Standing host a values (w.recordReference name (host.sha256Hex bytes)) :=
    ⟨h.sound.record hlast rfl rfl rfl (hashOf_recordReference name _), h.fits.record rfl (hashOf_recordReference name _)⟩
  exact hrecord.note (h.sound.landed _ _ hlast).2

theorem unrecorded_took (v : Value) (bytes : Bytes) : (w.took v bytes).unrecorded v = some bytes := by
  simp [World.took]

theorem keeps_putBucket {n : ℕ} (hn : n < RULINGS_BUCKET_COUNT) : Keeps (Standing host a values) (putBucket host a n) :=
  keeps_kvPut_bind hn (fun _ => rfl) fun _ hw => hw.recordBucket (unrecorded_took _ _)

theorem keeps_bucketChanged (hsha : Function.Injective host.sha256Hex) {n : ℕ} (hn : .bucket n ∈ values) :
    Keeps (Standing host a values) (bucketChanged host a n) := by
  refine Keeps.read_bind fun w hw => ?_
  split_ifs with hknown
  · exact hw.note (hw.held hsha hn hknown)
  · exact hw

theorem keeps_putReferenceValue (hsha : Function.Injective host.sha256Hex) {name : String}
    (hname : .reference name ∈ values) (howned : (Value.reference name).Owned) :
    Keeps (Standing host a values) (putReferenceValue host a name) := by
  refine Keeps.read_bind fun w hw => ?_
  split_ifs with hknown
  · exact hw.note (hw.held hsha hname hknown)
  · exact keeps_kvPut_bind (f := fun _ => _) howned (fun _ => rfl)
      (fun w hw => hw.recordReference (unrecorded_took _ _)) w hw

theorem keeps_rows {f : World → World} (hkv : ∀ w, (f w).kv = w.kv) (hhash : ∀ w v, (f w).hashOf v = w.hashOf v)
    (hlast : ∀ w, (f w).unrecorded = w.unrecorded) (hnotes : ∀ w, (f w).notes = w.notes) :
    Keeps (Standing host a values) (modify f) := by
  refine Keeps.modify fun w hw => ⟨⟨?_, ?_, ?_, ?_⟩, ?_⟩
  · simpa only [hhash] using hw.sound.owned
  · simpa only [hkv, hlast] using hw.sound.landed
  · simpa only [hkv, hhash, hlast] using hw.sound.recorded
  · simpa only [hnotes] using hw.sound.notes
  · intro v hv bytes
    rw [hlast, hhash]
    exact hw.fits v hv bytes

theorem keeps_pruneOldKeys {lead current : String}
    (hstale : ∀ v : Value, v.Owned → v.key ∉ staleKeys a.listed lead current) :
    Keeps (Standing host a values) (pruneOldKeys a lead current) := by
  refine keeps_rescue (Keeps.bind (Keeps.modify fun w hw => ⟨⟨?_, ?_, ?_, ?_⟩, hw.fits⟩) fun _ => keeps_await _)
    fun _ => Keeps.ret
  · exact hw.sound.owned
  · intro v bytes hlanded
    obtain ⟨howned, hkv⟩ := hw.sound.landed v bytes hlanded
    exact ⟨howned, (if_neg (hstale v howned)).trans hkv⟩
  · intro v hash hhash hnone
    obtain ⟨bytes, hkv, hsum⟩ := hw.sound.recorded v hash hhash hnone
    exact ⟨bytes, (if_neg (hstale v (hw.sound.owned v hash hhash))).trans hkv, hsum⟩
  · exact hw.sound.notes

theorem keeps_putGroup {group : List ℕ} (hgroup : ∀ n ∈ group, n < RULINGS_BUCKET_COUNT) :
    Keeps (Standing host a values) (putGroup host a group) := by
  refine Keeps.bind (Keeps.mapM fun n hn => Keeps.attempt (keeps_putBucket (hgroup n hn))) fun outcomes => ?_
  split
  · exact Keeps.throw
  · exact Keeps.ret

theorem sliceBuckets_lt {first n : ℕ} (h : n ∈ sliceBuckets first) : n < RULINGS_BUCKET_COUNT := by
  have hrange := List.mem_range'_1.mp h
  have hend : sliceEnd first ≤ RULINGS_BUCKET_COUNT := min_le_right _ _
  omega

theorem mem_of_mem_putGroups {pending group : List ℕ} (h : group ∈ putGroups pending) {n : ℕ} (hn : n ∈ group) :
    n ∈ pending := by
  obtain ⟨i, -, rfl⟩ := List.mem_map.mp h
  exact List.mem_of_mem_drop (List.mem_of_mem_take hn)

/-! ## What a step keeps -/

theorem keeps_finishRulings : Keeps (Standing host a values) (finishRulings host a) := by
  refine Keeps.read_bind fun w hw => Keeps.bind (keeps_kvPut (by trivial) fun h => by cases h) (fun _ => ?_) w hw
  refine Keeps.bind (keeps_pruneOldKeys fun v howned => howned.not_stale.1) fun _ => ?_
  exact keeps_rows (fun _ => rfl) (fun _ v => by cases v <;> rfl) (fun _ => rfl) (fun _ => rfl)

theorem keeps_publishBuckets (hsha : Function.Injective host.sha256Hex) {first : ℕ}
    (hvalues : ∀ n ∈ sliceBuckets first, .bucket n ∈ values) :
    Keeps (Standing host a values) (publishBuckets host a first) := by
  have hcoverage : Keeps (Standing host a values) (checkCoverage a) := by
    unfold checkCoverage
    split_ifs
    · exact Keeps.throw
    · exact Keeps.ret
  refine Keeps.bind hcoverage fun _ => Keeps.bind (Keeps.mapM fun n hn => keeps_bucketChanged hsha (hvalues n hn)) fun changed => ?_
  have hpending : ∀ n ∈ ((sliceBuckets first).zip changed).filterMap fun bucket => if bucket.2 then some bucket.1 else none,
      n < RULINGS_BUCKET_COUNT := by
    intro n hn
    obtain ⟨⟨m, flag⟩, hzip, hsome⟩ := List.mem_filterMap.mp hn
    cases flag with
    | false => cases hsome
    | true =>
      obtain rfl : m = n := by simpa using hsome
      exact sliceBuckets_lt (List.of_mem_zip hzip).1
  refine Keeps.bind (Keeps.mapM fun group hgroup =>
    keeps_putGroup fun n hn => hpending n (mem_of_mem_putGroups hgroup hn)) fun _ => ?_
  split_ifs
  · exact keeps_rows (fun _ => rfl) (fun _ v => by cases v <;> rfl) (fun _ => rfl) (fun _ => rfl)
  · exact keeps_finishRulings

/-- Whether the slice starts the set over, or ends at the look at the published one. -/
def startsOver (a : Alarm) : Bool :=
  match a.published with
  | .answered published => !describesCurrentSet published
  | .threw _ | .killed => true

def compared (a : Alarm) (w : World) : Value → Option String
  | .bucket n => if w.rulings_bucket_cursor = 0 ∧ startsOver a = true then none else w.hashOf (.bucket n)
  | v => w.hashOf v

def slice (w : World) : List Value :=
  match w.phase with
  | .rulings => (sliceBuckets w.rulings_bucket_cursor).map .bucket
  | .reference =>
    match w.reference_step with
    | .sets => setsKeys.map .reference
    | .catalogs => CATALOG_NAMES.map fun name => .reference (catalogKey name)
    | .symbology => [.reference symbologyKey]
  | .purge | .elsewhere => []

/-- No value the alarm works on comes back to the bytes on record while the last of its puts to take effect, of other
    bytes, went unrecorded. -/
def NoReturn (host : Host) (w : World) : Event → Prop
  | .alarm a => ∀ v ∈ slice w, ∀ bytes, w.unrecorded v = some bytes →
      compared a w v = some (host.sha256Hex (a.bytes v)) → bytes = a.bytes v
  | .live _ | .released => True

theorem Sound.resetRulings (h : Sound host w) : Sound host { w with rulings_buckets := fun _ => none } := by
  have hhash : ∀ v hash, World.hashOf { w with rulings_buckets := fun _ => none } v = some hash →
      w.hashOf v = some hash := by
    intro v hash hhash
    cases v with
    | bucket n => cases hhash
    | reference name => exact hhash
    | rulingsMeta => cases hhash
    | referenceMeta => cases hhash
  exact ⟨fun v hash hv => h.owned v hash (hhash v hash hv), h.landed,
    fun v hash hv => h.recorded v hash (hhash v hash hv), h.notes⟩

theorem sound_rulingsSlice (hsha : Function.Injective host.sha256Hex) (h : Sound host w)
    (hreturn : ∀ v ∈ (sliceBuckets w.rulings_bucket_cursor).map Value.bucket, ∀ bytes, w.unrecorded v = some bytes →
      compared a w v = some (host.sha256Hex (a.bytes v)) → bytes = a.bytes v) :
    Sound host (rulingsSlice host a w).2 := by
  have hrest : ∀ w' : World, Standing host a ((sliceBuckets w.rulings_bucket_cursor).map Value.bucket) w' →
      Sound host (publishBuckets host a w.rulings_bucket_cursor w').2 := fun w' hw' =>
    (keeps_publishBuckets hsha (fun n hn => List.mem_map_of_mem hn) w' hw').sound
  -- Where the hashes are kept, the alarm compares with the ones on record.
  have hkept : ¬ (w.rulings_bucket_cursor = 0 ∧ startsOver a = true) →
      Fits host a ((sliceBuckets w.rulings_bucket_cursor).map Value.bucket) w := by
    intro hcompared v hv bytes hlanded hhash
    obtain ⟨n, hn, rfl⟩ := List.mem_map.mp hv
    exact hreturn _ hv bytes hlanded ((if_neg hcompared).trans hhash)
  change Sound host ((if w.rulings_bucket_cursor = 0 then (resetRulingsIfUnpublished a >>= fun _ =>
    publishBuckets host a w.rulings_bucket_cursor) else publishBuckets host a w.rulings_bucket_cursor) w).2
  by_cases hfirst : w.rulings_bucket_cursor = 0
  · rw [if_pos hfirst, bind_apply, resetRulingsIfUnpublished]
    cases hpublished : a.published with
    | answered published =>
      simp only [await, pure_bind]
      by_cases hcurrent : describesCurrentSet published = true
      · rw [if_pos hcurrent]
        refine hrest w ⟨h, hkept fun hboth => ?_⟩
        rw [startsOver, hpublished] at hboth
        simp [hcurrent] at hboth
      · rw [if_neg hcurrent]
        refine hrest _ ⟨h.resetRulings, fun v hv bytes _ hhash => ?_⟩
        obtain ⟨n, hn, rfl⟩ := List.mem_map.mp hv
        cases hhash
    | threw message => exact h
    | killed => exact ⟨h.owned, h.landed, h.recorded, h.notes⟩
  · rw [if_neg hfirst]
    exact hrest w ⟨h, hkept fun hboth => hfirst hboth.1⟩

theorem owned_of_append (s : String) : (Value.reference (referenceCurrentPrefix ++ s)).Owned := startsWith_append _ s

theorem keeps_advanceReference (step : ReferenceStep) : Keeps (Standing host a values) (advanceReference step) := by
  cases step <;> exact keeps_rows (fun _ => rfl) (fun _ v => by cases v <;> rfl) (fun _ => rfl) (fun _ => rfl)

theorem keeps_referenceSets (hsha : Function.Injective host.sha256Hex) :
    Keeps (Standing host a (setsKeys.map .reference)) (referenceSets host a) := by
  have howned : ∀ key ∈ setsKeys, (Value.reference key).Owned := by
    intro key hkey
    rcases List.mem_cons.mp hkey with rfl | hbucket
    · exact owned_of_append _
    · obtain ⟨n, -, rfl⟩ := List.mem_map.mp hbucket
      rw [setsBucketKey, String.append_assoc]
      exact owned_of_append _
  refine Keeps.bind (keeps_await _) fun data => ?_
  split_ifs
  · exact Keeps.throw
  · refine Keeps.bind (Keeps.mapM fun key hkey =>
      keeps_putReferenceValue hsha (List.mem_map_of_mem hkey) (howned key hkey)) fun _ => ?_
    refine Keeps.bind (keeps_rows (fun _ => rfl) (fun _ v => by cases v <;> rfl) (fun _ => rfl) (fun _ => rfl)) fun _ => ?_
    exact keeps_advanceReference _

theorem keeps_referenceCatalogs (hsha : Function.Injective host.sha256Hex) :
    Keeps (Standing host a (CATALOG_NAMES.map fun name => .reference (catalogKey name))) (referenceCatalogs host a) := by
  have hcatalog : ∀ counts, ∀ name ∈ CATALOG_NAMES,
      Keeps (Standing host a (CATALOG_NAMES.map fun name => .reference (catalogKey name)))
        (referenceCatalog host a counts name) := by
    intro counts name hname
    refine keeps_rescue (Keeps.bind (keeps_await _) fun data => ?_) fun _ => Keeps.ret
    split_ifs
    · exact Keeps.throw
    · refine Keeps.bind (keeps_putReferenceValue hsha (List.mem_map.mpr ⟨name, hname, rfl⟩) ?_) fun _ => Keeps.ret
      rw [catalogKey, String.append_assoc]
      exact owned_of_append _
  refine Keeps.read_bind fun w hw => Keeps.bind (Keeps.foldlM hcatalog) (fun counts => ?_) w hw
  refine Keeps.bind (keeps_rows (fun _ => rfl) (fun _ v => by cases v <;> rfl) (fun _ => rfl) (fun _ => rfl)) fun _ => ?_
  exact keeps_advanceReference _

theorem keeps_referenceSymbology (hsha : Function.Injective host.sha256Hex) :
    Keeps (Standing host a [.reference symbologyKey]) (referenceSymbology host a) := by
  refine Keeps.bind (keeps_await _) fun data => ?_
  split_ifs
  · exact Keeps.throw
  · refine Keeps.bind (keeps_putReferenceValue hsha (List.mem_singleton_self _) (owned_of_append _)) fun _ => ?_
    refine Keeps.read_bind fun w hw => Keeps.bind (keeps_kvPut (by trivial) fun h => by cases h) (fun _ => ?_) w hw
    refine Keeps.bind (keeps_pruneOldKeys fun v howned => howned.not_stale.2) fun _ => ?_
    exact keeps_rows (fun _ => rfl) (fun _ v => by cases v <;> rfl) (fun _ => rfl) (fun _ => rfl)

/-! ## Every event -/

theorem Sound.rows (h : Sound host w) (hkv : w'.kv = w.kv) (hhash : ∀ v, w'.hashOf v = w.hashOf v)
    (hlast : w'.unrecorded = w.unrecorded) (hnotes : w'.notes = w.notes) : Sound host w' := by
  refine ⟨?_, ?_, ?_, ?_⟩
  · simpa only [hhash] using h.owned
  · simpa only [hkv, hlast] using h.landed
  · simpa only [hkv, hhash, hlast] using h.recorded
  · simpa only [hnotes] using h.notes

theorem sound_rescue {x : Act World Unit} {handler : String → Act World Unit} (hx : Sound host (x w).2)
    (hhandler : ∀ message w, Sound host w → Sound host (handler message w).2) : Sound host (rescue x handler w).2 := by
  rw [rescue, bind_apply, attempt]
  dsimp only
  cases (x w).1 with
  | ok value => exact hx
  | error message =>
    change Sound host ((if (x w).2.alive then handler message else Act.throw message) (x w).2).2
    split_ifs
    · exact hhandler message _ hx
    · exact hx

theorem sound_stepRulings (hsha : Function.Injective host.sha256Hex) (h : Sound host w)
    (hreturn : ∀ v ∈ (sliceBuckets w.rulings_bucket_cursor).map Value.bucket, ∀ bytes, w.unrecorded v = some bytes →
      compared a w v = some (host.sha256Hex (a.bytes v)) → bytes = a.bytes v) :
    Sound host (stepRulings host a w).2 := by
  refine sound_rescue (sound_rulingsSlice hsha h hreturn) fun message w hw => ?_
  change Sound host ((if w.rulings_attempts + 1 < RULINGS_MAX_ATTEMPTS ∧ isQuotaError message = false then throw message
    else modify fun w => { w with phase := .reference } : Act World Unit)
      { w with rulings_attempts := w.rulings_attempts + 1 }).2
  split_ifs
  · exact hw.rows rfl (fun v => by cases v <;> rfl) rfl rfl
  · exact hw.rows rfl (fun v => by cases v <;> rfl) rfl rfl

theorem sound_stepReference (hsha : Function.Injective host.sha256Hex) (h : Sound host w) (hphase : w.phase = .reference)
    (hfits : Fits host a (slice w) w) : Sound host (stepReference host a w).2 := by
  rw [slice, hphase] at hfits
  have hadvance : ∀ step w, Sound host w → Sound host (advanceReference step w).2 := by
    intro step w hw
    cases step <;> exact hw.rows rfl (fun v => by cases v <;> rfl) rfl rfl
  change Sound host (rescue (match w.reference_step with
    | .sets => referenceSets host a
    | .catalogs => referenceCatalogs host a
    | .symbology => referenceSymbology host a) (fun _ => advanceReference w.reference_step) w).2
  refine sound_rescue ?_ fun _ => hadvance _
  cases hstep : w.reference_step with
  | sets =>
    rw [hstep] at hfits
    exact (keeps_referenceSets hsha w ⟨h, hfits⟩).sound
  | catalogs =>
    rw [hstep] at hfits
    exact (keeps_referenceCatalogs hsha w ⟨h, hfits⟩).sound
  | symbology =>
    rw [hstep] at hfits
    exact (keeps_referenceSymbology hsha w ⟨h, hfits⟩).sound

theorem mem_slice_reference (hphase : w.phase = .reference) (hv : v ∈ slice w) : ∃ name, v = .reference name := by
  rw [slice, hphase] at hv
  cases hstep : w.reference_step with
  | sets =>
    rw [hstep] at hv
    obtain ⟨name, -, rfl⟩ := List.mem_map.mp hv
    exact ⟨name, rfl⟩
  | catalogs =>
    rw [hstep] at hv
    obtain ⟨name, -, rfl⟩ := List.mem_map.mp hv
    exact ⟨_, rfl⟩
  | symbology =>
    rw [hstep] at hv
    exact ⟨_, List.mem_singleton.mp hv⟩

theorem Sound.alarm (hsha : Function.Injective host.sha256Hex) (h : Sound host w) (hreturn : NoReturn host w (.alarm a)) :
    (w.phase = .rulings → Sound host (stepRulings host a w).2) ∧
      (w.phase = .reference → Sound host (stepReference host a w).2) := by
  constructor
  · intro hphase
    rw [NoReturn, slice, hphase] at hreturn
    exact sound_stepRulings hsha h hreturn
  · intro hphase
    refine sound_stepReference hsha h hphase fun v hv bytes hlanded hhash => hreturn v hv bytes hlanded ?_
    obtain ⟨name, rfl⟩ := mem_slice_reference hphase hv
    exact hhash

theorem Sound.step (hsha : Function.Injective host.sha256Hex) (h : Sound host w) {event : Event}
    (hreturn : NoReturn host w event) (hstep : step host w event = some w') : Sound host w' := by
  cases event with
  | live built_at =>
    obtain rfl := Option.some.inj hstep
    exact h.rows rfl (fun v => by cases v <;> rfl) rfl rfl
  | released =>
    obtain rfl := Option.some.inj hstep
    refine ⟨fun v hash hv => ?_, h.landed, fun v hash hv => ?_, h.notes⟩ <;> cases v <;> cases hv
  | alarm a =>
    have hawake : Sound host { w with alive := true } := h.rows rfl (fun v => by cases v <;> rfl) rfl rfl
    have hcompared : ∀ v, compared a { w with alive := true } v = compared a w v := fun v => by cases v <;> rfl
    obtain ⟨hrulings, hreference⟩ := hawake.alarm (a := a) hsha fun v hv bytes hlanded hhash =>
      hreturn v hv bytes hlanded ((hcompared v).symm.trans hhash)
    simp only [ChangedOnly.step] at hstep
    split at hstep
    · obtain rfl := Option.some.inj hstep
      exact hrulings ‹_›
    · obtain rfl := Option.some.inj hstep
      exact hreference ‹_›
    · cases hstep
    · cases hstep

/-! ## Runs -/

/-- **What a step records as published or as unchanged is what KV holds**, in every run in which no value comes back to
    the bytes on record while the last of its puts to take effect, of other bytes, went unrecorded. -/
theorem recorded_is_in_kv (hsha : Function.Injective host.sha256Hex) {kv : String → Option Bytes} {events : List Event}
    (hreach : Runs.Reaches (step host) (fresh kv) events w)
    (hreturn : ∀ before event after mid, events = before ++ event :: after →
      Runs.Reaches (step host) (fresh kv) before mid → NoReturn host mid event) :
    ∀ note ∈ w.notes, note.held = some note.bytes := by
  have hsound : (∀ before event after mid, events = before ++ event :: after →
      Runs.Reaches (step host) (fresh kv) before mid → NoReturn host mid event) → Sound host w := by
    refine hreach.invariant (P := fun events w => (∀ before event after mid, events = before ++ event :: after →
      Runs.Reaches (step host) (fresh kv) before mid → NoReturn host mid event) → Sound host w) ?_ ?_
    · exact fun _ => sound_fresh kv
    · intro events s s' event hreach' ih hstep hall
      refine (ih fun before event' after mid hsplit => hall before event' (after ++ [event]) mid ?_).step hsha
        (hall events event [] s rfl hreach') hstep
      rw [hsplit, List.append_assoc, List.cons_append]
  exact (hsound hreturn).notes

end

/-! ## Concrete nights -/

/-- A hash that cannot collide: the bytes as characters. -/
def plainHost : Host where
  sha256Hex bytes := String.ofList (bytes.map fun byte => Char.ofNat byte.toNat)
  rulingsMetaJson _ := []
  referenceMetaJson _ := []

theorem plainHost_injective : Function.Injective plainHost.sha256Hex := by
  have hbyte : ∀ n < 256, (Char.ofNat n).toNat = n := by decide +kernel
  have hchar : Function.Injective fun byte : UInt8 => Char.ofNat byte.toNat := by
    intro x y h
    have hnat := congrArg Char.toNat h
    rw [hbyte _ x.toNat_lt, hbyte _ y.toNat_lt] at hnat
    exact UInt8.toNat_inj.mp hnat
  exact fun x y h => List.map_injective_iff.mpr hchar (String.ofList_injective h)

/-- An alarm that renders `bytes` everywhere, of a night whose rulings dump is as `usable` says and whose API answers
    for the symbols alone. -/
def nightAlarm (bytes : Bytes) (usable : Bool) (put : Put) : Alarm where
  bytes _ := bytes
  lines := 1
  valid := if usable then 1 else 0
  rulingCount _ := 1
  setCount := 0
  symbolCount := 84
  catalogCount _ := 0
  published := .answered none
  fetch path := if path = "symbology" then .answered (some 84) else .threw "503"
  put value := if value = .reference symbologyKey then put else .done
  listed := []
  pruned := .answered ()

/-- The first slice of a first night puts and records its buckets. -/
theorem recorded_is_in_kv_firstNight :
    ∃ w, Runs.Reaches (step plainHost) (fresh fun _ => none) [.live "100", .alarm (nightAlarm [65] true .done)] w ∧
      w.notes.length = 64 ∧ ∀ note ∈ w.notes, note.held = some note.bytes := by
  have hreach : Runs.Reaches (step plainHost) (fresh fun _ => none) [.live "100", .alarm (nightAlarm [65] true .done)]
      (stepRulings plainHost (nightAlarm [65] true .done)
        { fresh fun _ => none with phase := .rulings, built_at := "100" }).2 := Runs.reaches_iff.mpr rfl
  refine ⟨_, hreach, by decide +kernel, recorded_is_in_kv plainHost_injective hreach fun before event after mid hsplit hmid => ?_⟩
  have hnone : mid.unrecorded = fun _ => none := by
    rw [Runs.reaches_iff] at hmid
    cases before with
    | nil => exact congrArg World.unrecorded (Option.some.inj hmid).symm
    | cons first rest =>
      obtain ⟨rfl, hrest⟩ := List.cons.inj hsplit
      cases rest with
      | nil => exact congrArg World.unrecorded (Option.some.inj hmid).symm
      | cons second rest => simp at hrest
  cases event with
  | live built_at => trivial
  | released => trivial
  | alarm a =>
    intro v hv bytes hlanded
    rw [hnone] at hlanded
    cases hlanded

/-- A night of symbols alone: the rulings are given up after three attempts, the sets and catalogs cannot be fetched. -/
def symbolsNight (bytes : Bytes) (put : Put) : List Event :=
  .live "100" :: List.replicate 6 (.alarm (nightAlarm bytes false put))

/-- The symbols change, in a put that takes effect and throws, and change back. -/
def changeAndBack : List Event :=
  symbolsNight [65] .done ++ symbolsNight [66] (.threw true "KV PUT failed: 500") ++ symbolsNight [65] .done

/-- The change back is recorded as unchanged while KV holds the change. -/
theorem recorded_not_in_kv :
    ¬ ∀ host : Host, Function.Injective host.sha256Hex → ∀ kv events w,
      Runs.Reaches (step host) (fresh kv) events w → ∀ note ∈ w.notes, note.held = some note.bytes := by
  intro hall
  have hnotes : (Runs.run (step plainHost) (fresh fun _ => none) changeAndBack).map World.notes =
      some [⟨.reference symbologyKey, [65], some [66]⟩, ⟨.reference symbologyKey, [65], some [65]⟩] := by
    decide +kernel
  obtain ⟨w, hrun, hw⟩ := Option.map_eq_some_iff.mp hnotes
  have hheld := hall plainHost plainHost_injective _ _ w (Runs.reaches_iff.mpr hrun)
    ⟨.reference symbologyKey, [65], some [66]⟩ (by rw [hw]; exact List.mem_cons_self)
  revert hheld
  decide

end ChangedOnly
