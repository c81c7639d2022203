-- SUMMARY: The publishers' programs keep their terms: reads, sweeps, retirements and manifest writes, and then each whole program.
import Sylvan.Import.PublishersTerms

/-!
# Safe publishers

Each program is proved safe from the assertion it starts under to the one it returns with.
Inside a stretch the assertion names the manifests as they stand; a deploy's upload carries
with it that its keys are there as long as the lease is its own.
-/

namespace Publishers

open KvRetention PublishHistory Shared

variable {Id : Type} [DecidableEq Id] {who : Id → Publisher} {i : Id} {α β : Type}

/-- Safety of a program of publisher `i`. -/
abbrev Safe (who : Id → Publisher) (i : Id) (Q : α → World Id → Prop) (p : Calls α) (w : World Id) : Prop :=
  Shared.Safe (machine who) (terms who) i Q p w

/-! ## Rules -/

variable {w : World Id} {P : World Id → Prop}

theorem safe_ret {Q : α → World Id → Prop} {a : α}
    (hP : (terms who).Stable i P) (h : P w) (himp : ∀ w', Inv w' → P w' → Q a w') :
    Safe who i Q (pure a) w :=
  Shared.Safe.ret hP h himp

theorem safe_bind {Q : β → World Id → Prop} {p : Calls α} {f : α → Calls β}
    (hinv : Inv w) (h : Safe who i (fun a w' => Safe who i Q (f a) w') p w) :
    Safe who i Q (p >>= f) w :=
  Shared.Safe.bind hinv h

variable {op : Op}

theorem safe_call {Q : β → World Id → Prop}
    {next : Answer op → Calls β} (hP : (terms who).Stable i P) (h : P w)
    (hkeeps : ∀ w', Inv w' → (terms who).may i op w' → P w' → (terms who).Keeps i w' (exec i op w').2)
    (hnext : ∀ w', P w' → Inv (exec i op w').2 → Safe who i Q (next (exec i op w').1) (exec i op w').2) :
    Safe who i Q (perform op >>= next) w :=
  Shared.Safe.call hP h fun w' hinv hmay hw' =>
    ⟨hkeeps w' hinv hmay hw', hnext w' hw' (hkeeps w' hinv hmay hw').1⟩

theorem safe_read {Q : β → World Id → Prop}
    {next : Answer op → Calls β} (hop : ∀ w : World Id, (exec i op w).2 = w)
    (hP : (terms who).Stable i P) (h : P w)
    (hnext : ∀ w', Inv w' → P w' → Safe who i Q (next (exec i op w').1) w') :
    Safe who i Q (perform op >>= next) w := by
  refine safe_call hP h (fun w' hinv _ _ => ?_) fun w' hw' hinv => ?_
  · rw [hop]
    exact keeps_self hinv
  · rw [hop] at hinv ⊢
    exact hnext w' hinv hw'

section

variable {Q : Except Stop β → World Id → Prop} {w : World Id}

theorem safe_bindStop {x : ExceptT Stop Calls α} {f : α → ExceptT Stop Calls β} (hinv : Inv w)
    (h : Safe who i (fun r w' => match r with
      | .ok a => Safe who i Q (f a).run w'
      | .error stop => Safe who i Q (pure (.error stop)) w') x.run w) :
    Safe who i Q (x >>= f).run w := by
  refine safe_bind hinv (h.mono fun r w' _ hr => ?_)
  cases r <;> exact hr

theorem safe_bindLift {p : Calls α} {f : α → ExceptT Stop Calls β} (hinv : Inv w)
    (h : Safe who i (fun a w' => Safe who i Q (f a).run w') p w) :
    Safe who i Q ((liftM p : ExceptT Stop Calls α) >>= f).run w := by
  change Safe who i Q ((p >>= pure ∘ Except.ok) >>= ExceptT.bindCont f) w
  rw [bind_assoc]
  exact safe_bind hinv (h.mono fun a w' _ ha => ha)

theorem safe_liftCall {f : Answer op → ExceptT Stop Calls β}
    (hP : (terms who).Stable i P) (h : P w)
    (hkeeps : ∀ w', Inv w' → (terms who).may i op w' → P w' → (terms who).Keeps i w' (exec i op w').2)
    (hnext : ∀ w', P w' → Inv (exec i op w').2 → Safe who i Q (f (exec i op w').1).run (exec i op w').2) :
    Safe who i Q ((liftM (perform op) : ExceptT Stop Calls (Answer op)) >>= f).run w :=
  safe_call hP h hkeeps hnext

theorem safe_liftRead {f : Answer op → ExceptT Stop Calls β}
    (hop : ∀ w : World Id, (exec i op w).2 = w) (hP : (terms who).Stable i P) (h : P w)
    (hnext : ∀ w', Inv w' → P w' → Safe who i Q (f (exec i op w').1).run w') :
    Safe who i Q ((liftM (perform op) : ExceptT Stop Calls (Answer op)) >>= f).run w :=
  safe_read hop hP h hnext

theorem safe_end (a : α) : Safe who i (fun _ _ => True) (pure a : Calls α) w :=
  safe_ret stable_true trivial fun _ _ _ => trivial

theorem safe_lift {p : Calls α} (hinv : Inv w) (h : Safe who i (fun _ _ => True) p w) :
    Safe who i (fun _ _ => True) (liftM p : ExceptT Stop Calls α).run w :=
  safe_bind hinv (h.mono fun _ _ _ _ => safe_end _)

end

/-! ## Reads -/

variable {keys : List String}

theorem readEach_safe (hP : (terms who).Stable i P)
    (hinv : Inv w) (h : P w) :
    Safe who i (fun published w' => P w' ∧ ∀ manifests, Knows P manifests →
      ∀ p, p ∈ published ↔ p.legacy = false ∧ p.key ∈ keys ∧
        (manifests.get p.key).filter usable = some p.manifest) (readEach keys) w := by
  induction keys generalizing w with
  | nil => exact safe_ret hP h fun w' _ hw' => ⟨hw', fun _ _ p => by simp⟩
  | cons key keys ih =>
    refine safe_read (fun _ => rfl) hP h fun w' hinv' hw' => ?_
    refine safe_bind hinv' ((ih hinv' hw').mono fun published w'' _ hpub => ?_)
    refine safe_ret hP hpub.1 fun w₃ _ hw₃ => ⟨hw₃, fun manifests hknows p => ?_⟩
    have hget : (exec i (.getManifest key) w').1 = (manifests.get key).filter usable := by
      rw [← hknows w' hw']
      rfl
    obtain ⟨pkey, legacy, m⟩ := p
    simp only [List.mem_append, Option.mem_toList, Option.map_eq_some_iff, hget,
      PublishedManifest.mk.injEq, hpub.2 manifests hknows, List.mem_cons]
    constructor
    · rintro (⟨m', hm', rfl, rfl, rfl⟩ | ⟨hlegacy, hmem, hm⟩)
      · exact ⟨rfl, .inl rfl, hm'⟩
      · exact ⟨hlegacy, .inr hmem, hm⟩
    · rintro ⟨rfl, rfl | hmem, hm⟩
      · exact .inl ⟨m, hm, rfl, rfl, rfl⟩
      · exact .inr ⟨rfl, hmem, hm⟩

theorem mem_listManifests {kv : Namespace} {key : String}
    (hformat : (formatOfManifestKey key).isSome = true) :
    key ∈ kv.listManifests ↔ ∃ m, kv.manifests.get key = some m := by
  have hstart : FORMAT_MANIFEST_PREFIX.toList.isPrefixOf key.toList = true := by
    unfold formatOfManifestKey at hformat
    cases hrest : Text.stripLit FORMAT_MANIFEST_PREFIX.toList key.toList with
    | none => simp [hrest] at hformat
    | some rest =>
      rw [List.isPrefixOf_iff_prefix, Text.eq_append_of_stripLit hrest]
      exact List.prefix_append _ _
  simp [Namespace.listManifests, hstart, (List.perm_insertionSort _ _).mem_iff, JsMap.mem_entries]

theorem readPublishedManifests_safe (hP : (terms who).Stable i P)
    (h : P w) :
    Safe who i (fun published w' => P w' ∧ ∀ manifests, Knows P manifests → Lists published manifests)
      readPublishedManifests w := by
  refine safe_read (fun _ => rfl) hP h fun w₁ _ hw₁ => ?_
  refine safe_read (fun _ => rfl) hP hw₁ fun w₂ hinv₂ hw₂ => ?_
  refine safe_bind hinv₂ ((readEach_safe hP hinv₂ hw₂).mono fun published w₃ _ hpub => ?_)
  refine safe_ret hP hpub.1 fun w₄ _ hw₄ => ⟨hw₄, fun manifests hknows p => ?_⟩
  have hlegacy : (exec i (.getManifest MANIFEST_KEY) w₁).1 = (manifests.get MANIFEST_KEY).filter usable := by
    rw [← hknows w₁ hw₁]
    rfl
  have hkeys : (exec i .listManifests w₂).1 = w₂.kv.listManifests := rfl
  obtain ⟨key, legacy, m⟩ := p
  simp only [List.mem_append, Option.mem_toList, Option.map_eq_some_iff, hlegacy, hkeys,
    PublishedManifest.mk.injEq, hpub.2 manifests hknows, List.mem_filter, mem_readPublishedManifests,
    Option.filter_eq_some_iff]
  constructor
  · rintro (⟨m', ⟨hget, husable⟩, rfl, rfl, rfl⟩ | ⟨rfl, ⟨-, hformat⟩, hget, husable⟩)
    · exact ⟨hget, husable, .inl ⟨rfl, rfl⟩⟩
    · exact ⟨hget, husable, .inr ⟨rfl, hformat⟩⟩
  · rintro ⟨hget, husable, ⟨rfl, rfl⟩ | ⟨rfl, hformat⟩⟩
    · exact .inl ⟨m, ⟨hget, husable⟩, rfl, rfl, rfl⟩
    · have hlisted : key ∈ w₂.kv.listManifests := by
        rw [mem_listManifests hformat, hknows w₂ hw₂]
        exact ⟨m, hget⟩
      exact .inr ⟨rfl, ⟨hlisted, hformat⟩, hget, husable⟩

variable {c : Coordinator}

theorem supersededBy_safe (hP : (terms who).Stable i P)
    {lease : Bool} (h : P w) :
    Safe who i (fun _ w' => P w') (c.supersededBy lease) w := by
  have hret : ∀ (b : Bool) w', P w' → Safe who i (fun _ w'' => P w'') (pure b : Calls Bool) w' :=
    fun b w' hw' => safe_ret hP hw' fun _ _ h => h
  unfold Coordinator.supersededBy
  refine safe_read (fun _ => rfl) hP h fun w₁ _ hw₁ => ?_
  split
  · exact hret _ _ hw₁
  · refine safe_read (fun _ => rfl) hP hw₁ fun w₂ _ hw₂ => ?_
    split
    · exact hret _ _ hw₂
    · split
      · exact hret _ _ hw₂
      · refine safe_read (fun _ => rfl) hP hw₂ fun w₃ _ hw₃ => ?_
        split <;> exact hret _ _ hw₃

theorem fenceBeforeWrite_safe (hP : (terms who).Stable i P)
    (hinv : Inv w) (h : P w) :
    Safe who i (fun _ w' => P w') c.fenceBeforeWrite.run w := by
  refine safe_bindLift hinv ((supersededBy_safe hP h).mono fun b w' _ hw' => ?_)
  cases b <;> exact safe_ret hP hw' fun _ _ h => h

theorem readMissing_safe {P : Namespace → Prop} (hP : Calmed who P)
    (hinv : Inv w) (h : Within i P w) :
    Safe who i (fun missing w' => Within i
      (fun kv => P kv ∧ ∀ key ∈ keys, key ∉ missing → kv.Has key) w') (readMissing keys) w := by
  have hHas : ∀ {P' : Namespace → Prop} {keys' : String → Prop}, Calmed who P' →
      Calmed who fun kv => P' kv ∧ ∀ key, keys' key → kv.Has key :=
    fun hP' _ _ hcalm hkv => ⟨hP' hcalm hkv.1, fun key hkey => hcalm.has key (hkv.2 key hkey)⟩
  induction keys generalizing w P with
  | nil => exact safe_ret (stable_within hP) h fun w' _ hw' => ⟨hw'.1, hw'.2, by simp⟩
  | cons key keys ih =>
    refine safe_read (fun _ => rfl) (stable_within hP) h fun w₁ hinv₁ hw₁ => ?_
    have hfound : (exec i (.has key) w₁).1 = true → w₁.kv.Has key := id
    generalize (exec i (.has key) w₁).1 = found at hfound
    cases found with
    | true =>
      have hwith : Within i (fun kv => P kv ∧ ∀ key', key' = key → kv.Has key') w₁ :=
        ⟨hw₁.1, hw₁.2, by rintro _ rfl; exact hfound rfl⟩
      refine safe_bind hinv₁ ((ih (hHas hP) hinv₁ hwith).mono fun missing w₂ _ hw₂ => ?_)
      refine safe_ret (P := Within i fun kv => P kv ∧ ∀ key',
        (key' = key ∨ key' ∈ keys ∧ key' ∉ missing) → kv.Has key') (stable_within (hHas hP))
        ⟨hw₂.1, hw₂.2.1.1, ?_⟩ fun w₃ _ hw₃ => ⟨hw₃.1, hw₃.2.1, ?_⟩
      · rintro key' (rfl | ⟨hkey', hnot⟩)
        · exact hw₂.2.1.2 _ rfl
        · exact hw₂.2.2 key' hkey' hnot
      · intro key' hkey' hnot
        rcases List.mem_cons.mp hkey' with rfl | hkey'
        · exact hw₃.2.2 _ (.inl rfl)
        · exact hw₃.2.2 key' (.inr ⟨hkey', hnot⟩)
    | false =>
      refine safe_bind hinv₁ ((ih hP hinv₁ hw₁).mono fun missing w₂ _ hw₂ => ?_)
      refine safe_ret (P := Within i fun kv => P kv ∧ ∀ key',
        (key' ∈ keys ∧ key' ∉ missing) → kv.Has key') (stable_within (hHas hP))
        ⟨hw₂.1, hw₂.2.1, fun key' hkey' => hw₂.2.2 key' hkey'.1 hkey'.2⟩
        fun w₃ _ hw₃ => ⟨hw₃.1, hw₃.2.1, ?_⟩
      intro key' hkey' hnot
      simp only [Bool.false_eq_true, if_false, List.mem_cons, not_or] at hnot
      exact hw₃.2.2 key' ⟨(List.mem_cons.mp hkey').resolve_left hnot.1, hnot.2⟩

/-! ## Sweeps -/

variable {manifests : PublishHistory.Kv} {gone : BuiltAt → Prop}

theorem deleteKeys_safe {names : List String} (hnames : ∀ name ∈ names, Sweepable who i manifests gone name)
    (h : Within i (Seen who manifests gone) w) :
    Safe who i (fun _ w' => Within i (Seen who manifests gone) w') (deleteKeys names) w := by
  induction names generalizing w with
  | nil => exact safe_ret (stable_within calmed_seen) h fun _ _ hw => hw
  | cons name names ih =>
    obtain ⟨g, hgen, hfree, hdeploy⟩ := hnames name (by simp)
    refine safe_call (stable_within calmed_seen) h (fun w' hinv _ hw' => ?_) fun w' hw' hinv =>
      ih (fun name' hname' => hnames name' (List.mem_cons_of_mem _ hname')) ⟨hw'.1, hw'.2.1, hw'.2.2⟩
    refine keeps_delete hinv hw'.1 hgen ?_ fun j hj d hd hbuilt => ?_
    · rw [hw'.2.1]
      exact hfree
    · exact hw'.2.2 g ⟨j, d, hd, hbuilt⟩ (hdeploy j hj d hd hbuilt)

theorem deleteManifests_safe (h : Within i (Seen who manifests gone) w) :
    Safe who i (fun _ w' => Within i (Seen who (manifests.filter fun key _ => key ∉ keys) gone) w')
      (deleteManifests keys) w := by
  induction keys generalizing w manifests with
  | nil =>
    refine safe_ret (stable_within calmed_seen) h fun _ _ hw => ⟨hw.1, hw.2.1.trans ?_, hw.2.2⟩
    simp [JsMap.filter]
  | cons key keys ih =>
    refine safe_call (stable_within calmed_seen) h
      (fun w' hinv _ hw' => keeps_deleteManifest hinv hw'.1 key) fun w' hw' hinv => ?_
    have hseen : Within i (Seen who (manifests.filter fun k _ => k ≠ key) gone)
        (exec i (.deleteManifest key) w').2 := by
      refine ⟨hw'.1, ?_, hw'.2.2⟩
      rw [← hw'.2.1]
      rfl
    refine (ih hseen).mono fun _ w'' _ hw'' => ⟨hw''.1, hw''.2.1.trans ?_, hw''.2.2⟩
    simp [JsMap.filter, List.filter_filter, Bool.and_comm]

variable {format : ℕ}

theorem retireOlderFormats_safe {published : List PublishedManifest}
    (hlists : Lists published manifests) (hinv : Inv w)
    (h : Within i (Seen who manifests gone) w) :
    Safe who i (fun published' w' =>
      Within i (Seen who (Lists.retired published manifests format) gone) w' ∧
        Lists published' (Lists.retired published manifests format))
      (retireOlderFormats format published) w := by
  have hkeyed : Keyed manifests := h.2.1 ▸ hinv.keyed
  have hdelete : ∀ w', Inv w' → Within i (Seen who
      (putMirror manifests (planFormatRetirement published format).legacyTo) gone) w' →
      Safe who i (fun published' w'' =>
        Within i (Seen who (Lists.retired published manifests format) gone) w'' ∧
          Lists published' (Lists.retired published manifests format))
        (do
          deleteManifests (planFormatRetirement published format).retireKeys
          return afterFormatRetirement published (planFormatRetirement published format) MANIFEST_KEY)
        w' := by
    intro w' hinv' hw'
    refine safe_bind hinv' ((deleteManifests_safe hw').mono fun _ w'' _ hw'' => ?_)
    exact safe_ret (stable_within calmed_seen) hw'' fun _ _ hw => ⟨hw, hlists.after hkeyed format⟩
  unfold retireOlderFormats
  dsimp only
  split
  · rename_i hnothing
    have hmirror := Option.isNone_iff_eq_none.mp hnothing.2
    refine safe_ret (stable_within calmed_seen) h fun w' _ hw' =>
      ⟨⟨hw'.1, hw'.2.1.trans ?_, hw'.2.2⟩, hlists.unretired hnothing.1 hmirror⟩
    simp [Lists.retired, hnothing.1, hmirror, putMirror, JsMap.filter]
  · cases hmirror : (planFormatRetirement published format).legacyTo with
    | none =>
      rw [hmirror] at hdelete
      exact hdelete w hinv h
    | some m =>
      rw [hmirror] at hdelete
      have hown : manifests.get (formatManifestKey format) = some m :=
        (legacyTo_spec hkeyed ((hlists.legacyTo_eq hkeyed format).symm.trans hmirror)).1
      refine safe_call (stable_within calmed_seen) h (fun w' hinv' _ hw' => ?_) fun w' hw' hinv' =>
        hdelete _ hinv' ⟨hw'.1, ?_, hw'.2.2⟩
      · have hget : w'.kv.manifests.get (formatManifestKey format) = some m := by
          rw [hw'.2.1, hown]
        obtain ⟨husable, f, hf, -⟩ := hinv'.keyed _ _ hget
        exact keeps_putManifest hinv' hw'.1 (hinv'.whole _ _ hget) husable hf (.inl rfl)
      · rw [← hw'.2.1]
        rfl

theorem sweepBeforeUpload_safe (hinv : Inv w)
    (h : Within i (Seen who manifests fun b => b ≠ c.family.built_at) w) :
    Safe who i (fun _ _ => True) c.sweepBeforeUpload w := by
  refine safe_bind hinv ((readPublishedManifests_safe (stable_within calmed_seen) h).mono
    fun read w₁ hinv₁ hread => ?_)
  obtain ⟨hw₁, hlists⟩ := hread
  refine safe_bind hinv₁ ((retireOlderFormats_safe (hlists _ knows_seen) hinv₁ hw₁).mono
    fun live w₂ _ hlive => ?_)
  refine safe_read (fun _ => rfl) (stable_within calmed_seen) hlive.1 fun w₃ hinv₃ hw₃ => ?_
  have hkeyed := hw₃.2.1 ▸ hinv₃.keyed
  refine safe_bind hinv₃ ((deleteKeys_safe (fun name hname => ?_) hw₃).mono fun _ w₄ _ _ =>
    safe_ret stable_true trivial fun _ _ _ => trivial)
  obtain ⟨g, hgen, hrole, hfly⟩ := retire_spares hname
  refine sweepable_of_retire hlive.2 hkeyed hgen hrole fun j _ d _ _ heq => hfly ?_
  rw [heq]

theorem sweepHeld_safe {published : List PublishedManifest} {held : Option UploadLease}
    {keys : List ListedKey} (hlists : Lists published manifests) (hinv : Inv w)
    (h : Within i (Seen who manifests fun b => held.map (·.built_at) ≠ some b) w) :
    Safe who i (fun _ _ => True)
      (deleteKeys (planRetention keys (rolesOf published (inFlightOf published held) none none)).retire)
      w := by
  have hkeyed := h.2.1 ▸ hinv.keyed
  refine (deleteKeys_safe (fun name hname => ?_) h).mono fun _ _ _ _ => trivial
  obtain ⟨g, hgen, hrole, hheld⟩ := retire_spares_holder hname
  exact sweepable_of_retire hlists hkeyed hgen hrole fun _ _ _ _ _ => hheld

theorem sweepByRole_safe {live : StoreManifest} (hinv : Inv w)
    (h : Within i (Seen who manifests gone) w)
    (hown : manifests.get (formatManifestKey c.family.format) = some live) :
    Safe who i (fun _ _ => True) (c.sweepByRole live) w := by
  refine safe_bind hinv ((readPublishedManifests_safe (stable_within calmed_seen) h).mono
    fun read w₁ hinv₁ hread => ?_)
  obtain ⟨hw₁, hlists⟩ := hread
  have hkeyed := hw₁.2.1 ▸ hinv₁.keyed
  have hwithOwn := (hlists _ knows_seen).withOwn hkeyed hown
  refine safe_bind hinv₁ ((retireOlderFormats_safe hwithOwn hinv₁ hw₁).mono
    fun published w₂ _ hpublished => ?_)
  refine safe_read (fun _ => rfl) (stable_within calmed_seen) hpublished.1 fun w₃ _ hw₃ => ?_
  refine safe_read (fun _ => rfl) (stable_within calmed_seen) hw₃ fun w₄ hinv₄ hw₄ => ?_
  exact sweepHeld_safe hpublished.2 hinv₄ (seen_lease hw₄)

theorem sweepGenerationsByRole_safe {d : Deploy} {live : StoreManifest} (hinv : Inv w)
    (h : Within i (Seen who manifests gone) w)
    (hown : manifests.get (formatManifestKey d.family.format) = some live) :
    Safe who i (fun _ _ => True) (d.sweepGenerationsByRole live) w := by
  refine safe_bind hinv ((readPublishedManifests_safe (stable_within calmed_seen) h).mono
    fun read w₁ hinv₁ hread => ?_)
  obtain ⟨hw₁, hlists⟩ := hread
  have hkeyed := hw₁.2.1 ▸ hinv₁.keyed
  have hwithOwn := (hlists _ knows_seen).withOwn hkeyed hown
  refine safe_read (fun _ => rfl) (stable_within calmed_seen) hw₁ fun w₂ _ hw₂ => ?_
  refine safe_read (fun _ => rfl) (stable_within calmed_seen) (seen_lease hw₂) fun w₃ hinv₃ hw₃ => ?_
  exact sweepHeld_safe hwithOwn hinv₃ hw₃

/-! ## Writes -/

theorem putManifests_safe {m : StoreManifest} (husable : usable m = true)
    (hformat : m.format_version = some format)
    (hkeys : ∀ key ∈ keys, key = MANIFEST_KEY ∨ key = formatManifestKey format)
    (h : Within i (fun kv => Seen who manifests gone kv ∧ kv.Whole m) w) :
    Safe who i (fun _ w' => Within i
      (Seen who (keys.foldl (fun manifests key => manifests.set key m) manifests) gone) w')
      (putManifests m keys) w := by
  induction keys generalizing w manifests with
  | nil => exact safe_ret (stable_within calmed_whole) h fun _ _ hw => ⟨hw.1, hw.2.1⟩
  | cons key keys ih =>
    refine safe_call (stable_within calmed_whole) h
      (fun w' hinv _ hw' => keeps_putManifest hinv hw'.1 hw'.2.2 husable hformat (hkeys key (by simp)))
      fun w' hw' hinv => ih (fun key' hkey' => hkeys key' (List.mem_cons_of_mem _ hkey')) ?_
    refine ⟨hw'.1, ⟨?_, hw'.2.1.2⟩, hw'.2.2⟩
    rw [← hw'.2.1.1]
    rfl

theorem putKeys_safe (hP : (terms who).Stable i P)
    (hput : ∀ key bytes w, P w → P (exec i (.put key bytes) w).2) {f : StoreFamily}
    (h : P w) :
    Safe who i (fun _ w' => P w') (putKeys f keys) w := by
  induction keys generalizing w with
  | nil => exact safe_ret hP h fun _ _ hw => hw
  | cons key keys ih =>
    exact safe_call hP h (fun w' hinv _ _ => keeps_put hinv key _)
      fun w' hw' _ => ih (hput key _ w' hw')

theorem releaseLease_safe (hP : (terms who).Stable i P)
    (hdelete : ∀ w, P w → P (exec i .deleteLease w).2) {builtAt : BuiltAt} (h : P w) :
    Safe who i (fun _ w' => P w') (releaseLease builtAt) w := by
  refine safe_read (fun _ => rfl) hP h fun w₁ _ hw₁ => ?_
  split
  · rw [← bind_pure (perform .deleteLease)]
    exact safe_call hP hw₁ (fun w₂ hinv _ _ => keeps_deleteLease hinv)
      fun w₂ hw₂ _ => safe_ret hP (hdelete w₂ hw₂) fun _ _ hw => hw
  · exact safe_ret hP hw₁ fun _ _ hw => hw

theorem seen_deleteLease (h : Within i (Seen who manifests gone) w) :
    Within i (Seen who manifests gone) (exec i .deleteLease w).2 :=
  ⟨h.1, h.2.1, fun _ _ _ hholds => by cases hholds⟩

/-! ## Coordinators -/

theorem has_of_listed {kv : Namespace} {start key : String} (hgen : (generationOfKey key).isSome = true)
    (h : key ∈ (kv.list start).map ListedKey.name) : kv.Has key := by
  obtain ⟨k, hk, rfl⟩ := List.mem_map.mp h
  have hmem := (List.mem_filter.mp hk).1
  rw [(List.perm_insertionSort _ _).mem_iff, List.mem_append] at hmem
  rcases hmem with hmem | hmem
  · obtain ⟨⟨name, size⟩, hentry, rfl⟩ := List.mem_map.mp hmem
    rw [Namespace.Has, JsMap.mem_entries.mp hentry]
    rfl
  · obtain ⟨other, -, rfl⟩ := List.mem_map.mp hmem
    rw [other.2] at hgen
    cases hgen

theorem missingChunks_safe {m : StoreManifest}
    (hgen : ∀ key ∈ manifestChunkKeys m, (generationOfKey key).isSome = true)
    (h : Within i (Seen who manifests gone) w) :
    Safe who i (fun missing w' => Within i (fun kv => Seen who manifests gone kv ∧
      ∀ key ∈ manifestChunkKeys m, key ∉ missing → kv.Has key) w') (c.missingChunks m) w := by
  refine safe_read (fun _ => rfl) (stable_within calmed_seen) h fun w₁ hinv₁ hw₁ => ?_
  generalize hpresent : ((exec i (.list (partitionFamilyPrefix c.family.format c.family.built_at)) w₁).1).map
    ListedKey.name = present
  have hlisted : Within i (fun kv => Seen who manifests gone kv ∧
      ∀ key ∈ manifestChunkKeys m, key ∈ present → kv.Has key) w₁ := by
    refine ⟨hw₁.1, hw₁.2, fun key hkey hin => ?_⟩
    rw [← hpresent] at hin
    exact has_of_listed (hgen key hkey) hin
  have hcalmed : Calmed who fun kv => Seen who manifests gone kv ∧ ∀ key ∈ manifestChunkKeys m, key ∈ present → kv.Has key :=
    fun hcalm hkv => ⟨calmed_seen hcalm hkv.1, fun key hkey hin => hcalm.has key (hkv.2 key hkey hin)⟩
  refine (readMissing_safe hcalmed hinv₁ hlisted).mono fun missing w₂ _ hw₂ =>
    ⟨hw₂.1, hw₂.2.1.1, fun key hkey hnot => ?_⟩
  by_cases hin : key ∈ present
  · exact hw₂.2.1.2 key hkey hin
  · exact hw₂.2.2 key (List.mem_filter.mpr ⟨hkey, by simpa using hin⟩) hnot

theorem mem_manifestKeysToWrite {legacy : Option StoreManifest} {key : String}
    (h : key ∈ manifestKeysToWrite format legacy) :
    key = MANIFEST_KEY ∨ key = formatManifestKey format := by
  unfold manifestKeysToWrite at h
  rcases List.mem_cons.mp h with rfl | h
  · exact .inr rfl
  · split at h
    · exact .inl (List.mem_singleton.mp h)
    · cases h

theorem published_fields (f : StoreFamily) (previous : Option StoreManifest) :
    usable (withPreviousBuiltAt f.manifest previous) = true ∧
      (withPreviousBuiltAt f.manifest previous).format_version = some f.format ∧
      (withPreviousBuiltAt f.manifest previous).built_at = f.built_at ∧
      (withPreviousBuiltAt f.manifest previous).partitions = f.partitions :=
  ⟨decide_eq_true f.numbered.1, rfl, rfl, rfl⟩

theorem whole_of_has (f : StoreFamily) {previous : Option StoreManifest} {kv : Namespace}
    (h : ∀ key ∈ manifestChunkKeys (withPreviousBuiltAt f.manifest previous), kv.Has key) :
    kv.Whole (withPreviousBuiltAt f.manifest previous) :=
  fun key hkey => ⟨f.generationOfKey_mem (published_fields f previous).2.2.2 hkey, h key hkey⟩

theorem stepManifest_safe (hinv : Inv w) : Safe who i (fun _ _ => True) c.stepManifest.run w := by
  refine safe_bindStop hinv ((fenceBeforeWrite_safe stable_true hinv trivial).mono
    fun r w₁ hinv₁ _ => ?_)
  cases r with
  | error stop => exact safe_end _
  | ok _ =>
    refine safe_bindLift hinv₁ ((putKeys_safe stable_true (fun _ _ _ _ => trivial) trivial).mono
      fun _ w₂ hinv₂ _ => ?_)
    refine safe_bindLift hinv₂ ((readPublishedManifests_safe stable_true trivial).mono
      fun read w₃ _ _ => ?_)
    generalize (replacedManifest read c.family.format).map (·.manifest) = previous
    refine safe_liftCall stable_true trivial (fun w' hinv' hmay _ => keeps_enter hinv' (hmay rfl))
      fun w' _ hinv₄ => ?_
    have hin : Within i (Seen who w'.kv.manifests fun _ => False) (exec i .enter w').2 :=
      ⟨by simp [exec], rfl, fun _ _ hgone => hgone.elim⟩
    obtain ⟨husable, hformat, -, hparts⟩ := published_fields c.family previous
    have hgen : ∀ key ∈ manifestChunkKeys (withPreviousBuiltAt c.family.manifest previous),
        (generationOfKey key).isSome = true := fun key hkey => by
      rw [c.family.generationOfKey_mem hparts hkey]
      rfl
    refine safe_bindLift hinv₄ ((missingChunks_safe hgen hin).mono fun missing w₅ hinv₅ hw₅ => ?_)
    dsimp only
    split
    · exact safe_end (Except.error Stop.fatal)
    · rename_i hnone
      have hwhole : Within i (fun kv => Seen who w'.kv.manifests (fun _ => False) kv ∧
          kv.Whole (withPreviousBuiltAt c.family.manifest previous)) w₅ := by
        refine ⟨hw₅.1, hw₅.2.1, whole_of_has c.family fun key hkey => hw₅.2.2 key hkey ?_⟩
        rw [not_not.mp hnone]
        exact List.not_mem_nil
      refine safe_bindStop hinv₅ ((fenceBeforeWrite_safe (stable_within calmed_whole) hinv₅ hwhole).mono
        fun r w₆ hinv₆ hw₆ => ?_)
      cases r with
      | error stop => exact safe_end _
      | ok _ =>
        refine safe_bindLift hinv₆ ?_
        refine safe_read (fun _ => rfl) (stable_within calmed_whole) hw₆ fun w₇ hinv₇ hw₇ => ?_
        generalize hkeys : manifestKeysToWrite c.family.format (exec i (.getManifest MANIFEST_KEY) w₇).1 = keys
        refine (putManifests_safe husable hformat (fun key hkey => ?_) hw₇).mono
          fun _ w₈ hinv₈ hw₈ => ?_
        · exact mem_manifestKeysToWrite (hkeys ▸ hkey)
        refine safe_bindLift hinv₈ ((releaseLease_safe (stable_within calmed_seen)
          (fun _ => seen_deleteLease) hw₈).mono fun _ w₉ hinv₉ hw₉ => safe_lift hinv₉ ?_)
        refine sweepByRole_safe hinv₉ hw₉ ?_
        rw [JsMap.get_foldl_set_const, if_pos]
        rw [← hkeys]
        exact List.mem_cons_self

section

variable {c : Coordinator} (happart : NumberedApart who) (hwho : who i = .coordinator c)

include happart hwho in
theorem keeps_myLease (hinv : Inv w) : (terms who).Keeps i w (exec i (.putLease c.myLease) w).2 := by
  refine keeps_putLease hinv happart (by rw [hwho]; rfl) (.inr fun d hd => ?_)
  rw [hwho] at hd
  cases hd

include happart hwho in
theorem beginFamilyUpload_safe : Safe who i (fun _ _ => True) c.beginFamilyUpload.run w := by
  refine safe_liftRead (fun _ => rfl) stable_true trivial fun w₁ hinv₁ _ => ?_
  split
  · refine safe_bindStop hinv₁ ((fenceBeforeWrite_safe stable_true hinv₁ trivial).mono
      fun r w₂ _ _ => ?_)
    cases r with
    | error stop => exact safe_end _
    | ok _ =>
      exact safe_liftCall stable_true trivial (fun w' hinv' _ _ => keeps_myLease happart hwho hinv')
        fun _ _ _ => safe_end (Except.ok true)
  · refine safe_bindLift hinv₁ ((supersededBy_safe stable_true trivial).mono fun replaced w₂ _ _ => ?_)
    cases replaced with
    | true => exact safe_end (Except.error Stop.superseded)
    | false =>
      refine safe_liftRead (fun _ => rfl) stable_true trivial fun w₃ hinv₃ _ => ?_
      split
      · split
        · exact safe_end (Except.ok false)
        · exact safe_end (Except.error Stop.superseded)
      · refine safe_liftCall stable_true trivial (fun w' hinv' hmay _ => keeps_enter hinv' (hmay rfl))
          fun w₄ _ hinv₄ => ?_
        have hin : Within i (Seen who w₄.kv.manifests fun _ => False) (exec i .enter w₄).2 :=
          ⟨by simp [exec], rfl, fun _ _ hgone => hgone.elim⟩
        refine safe_liftCall (stable_within calmed_seen) hin
          (fun w' hinv' _ _ => keeps_myLease happart hwho hinv') fun w₅ hw₅ hinv₅ => ?_
        have hmine : Within i (Seen who w₄.kv.manifests fun b => b ≠ c.family.built_at)
            (exec i (.putLease c.myLease) w₅).2 :=
          ⟨hw₅.1, hw₅.2.1, fun b _ hne hholds => hne (Option.some.inj hholds).symm⟩
        refine safe_bindLift hinv₅ ((sweepBeforeUpload_safe hinv₅ hmine).mono fun decision w₆ hinv₆ _ => ?_)
        dsimp only
        split
        · exact safe_end (Except.error Stop.fatal)
        · refine safe_liftCall stable_true trivial (fun w' hinv' _ _ => keeps_setLeased hinv')
            fun w₇ _ _ => ?_
          exact safe_liftCall stable_true trivial (fun w' hinv' _ _ => keeps_drop hinv')
            fun _ _ _ => safe_end (Except.ok true)

include happart hwho in
theorem putSlice_safe {put : Coordinator.Put} (hinv : Inv w) : Safe who i (fun _ _ => True) (c.putSlice put).run w := by
  have hput : ∀ (key : String) (bytes : ℤ) (w' : World Id), Inv w' → Safe who i (fun _ _ => True)
        ((liftM (perform (.put key bytes)) : ExceptT Stop Calls Unit) >>= fun _ => pure true).run w' :=
    fun key bytes _ _ => safe_liftCall stable_true trivial (fun _ hinv' _ _ => keeps_put hinv' key bytes)
      fun _ _ _ => safe_end (Except.ok true)
  cases put with
  | routing =>
    refine safe_bindStop hinv ((beginFamilyUpload_safe happart hwho).mono fun r w₁ hinv₁ _ => ?_)
    cases r with
    | error stop => exact safe_end _
    | ok begun =>
      cases begun with
      | false => exact safe_end (Except.ok false)
      | true =>
        dsimp only
        rw [if_neg (by decide)]
        split
        · exact hput _ _ w₁ hinv₁
        · exact safe_end (Except.ok true)
  | chunk k seq =>
    have hfenced : ∀ w', Inv w' → Safe who i (fun _ _ => True) (do
        c.fenceBeforeWrite
        liftM (perform (.put (chunkKey (c.family.partitionKey k) seq)
          (c.family.size (chunkKey (c.family.partitionKey k) seq))))
        return true : ExceptT Stop Calls Bool).run w' := by
      intro w' hinv'
      refine safe_bindStop hinv' ((fenceBeforeWrite_safe stable_true hinv' trivial).mono
        fun r w₁ hinv₁ _ => ?_)
      cases r with
      | error stop => exact safe_end _
      | ok _ => exact hput _ _ w₁ hinv₁
    unfold Coordinator.putSlice
    dsimp only
    split
    · refine safe_bindStop hinv ((beginFamilyUpload_safe happart hwho).mono fun r w₁ hinv₁ _ => ?_)
      cases r with
      | error stop => exact safe_end _
      | ok begun =>
        cases begun with
        | false => exact safe_end (Except.ok false)
        | true => exact hfenced w₁ hinv₁
    · exact hfenced w hinv

include happart hwho in
theorem alarm_safe {kept : Coordinator.Progress} (hinv : Inv w) : Safe who i (fun _ _ => True) (c.alarm kept) w := by
  unfold Coordinator.alarm
  split
  · exact safe_end _
  · refine safe_bind hinv ((supersededBy_safe stable_true trivial).mono fun replaced w₁ hinv₁ _ => ?_)
    cases replaced with
    | true => exact safe_end _
    | false =>
      have hslice : Safe who i (fun _ _ => True) (c.slice kept).run w₁ := by
        unfold Coordinator.slice
        split
        · refine safe_bindStop hinv₁ ((stepManifest_safe hinv₁).mono fun r w₂ _ _ => ?_)
          cases r <;> exact safe_end _
        · refine safe_bindStop hinv₁ ((putSlice_safe happart hwho hinv₁).mono fun r w₂ _ _ => ?_)
          cases r with
          | error stop => exact safe_end _
          | ok done =>
            cases done with
            | true => exact safe_end (Except.ok _)
            | false => exact safe_end (Except.ok kept)
      refine safe_bind hinv₁ (hslice.mono fun r w₂ hinv₂ _ => ?_)
      cases r with
      | ok kept' => exact safe_end _
      | error stop =>
        cases stop with
        | superseded => exact safe_end _
        | fatal =>
          exact safe_bind hinv₂ ((releaseLease_safe stable_true (fun _ _ => trivial) trivial).mono
            fun _ _ _ _ => safe_end _)

end

/-! ## Deploys -/

/-- The chunks a deploy has put are there while the lease is its own. -/
def Uploaded (builtAt : BuiltAt) (done : List String) (kv : Namespace) : Prop :=
  kv.Holds builtAt → ∀ key ∈ done, generationOfKey key = some builtAt ∧ kv.Has key

section

variable {d : Deploy} (happart : NumberedApart who) (hwho : who i = .deploy d)

omit [DecidableEq Id] in
include hwho in
theorem stable_uploaded {done : List String} : (terms who).Stable i fun w => Uploaded d.family.built_at done w.kv := by
  intro w w' hw hrely _ hholds key hkey
  have hrelied := hrely.deploy d hwho
  obtain ⟨hgen, hhas⟩ := hw (hrelied.lease hholds) key hkey
  exact ⟨hgen, hrelied.has hholds key hgen hhas⟩

theorem uploaded_put {builtAt : BuiltAt} {done : List String} {key : String} {bytes : ℤ}
    (h : Uploaded builtAt done w.kv) : Uploaded builtAt done (exec i (.put key bytes) w).2.kv := by
  intro hholds key' hkey'
  obtain ⟨hgen, hhas⟩ := h hholds key' hkey'
  refine ⟨hgen, ?_⟩
  change ((w.kv.generations.set key bytes).get key').isSome = true
  rw [JsMap.get_set]
  split
  · rfl
  · exact hhas

include hwho in
theorem putChunks_safe {keys done : List String}
    (hkeys : ∀ key ∈ keys, generationOfKey key = some d.family.built_at)
    (h : Uploaded d.family.built_at done w.kv) :
    Safe who i (fun _ w' => Uploaded d.family.built_at (done ++ keys) w'.kv) (putKeys d.family keys) w := by
  induction keys generalizing w done with
  | nil =>
    refine safe_ret (stable_uploaded hwho) h fun _ _ hw => ?_
    rwa [List.append_nil]
  | cons key keys ih =>
    refine safe_call (stable_uploaded hwho) h (fun w' hinv _ _ => keeps_put hinv key _)
      fun w' hw' _ => ?_
    have hone : Uploaded d.family.built_at (done ++ [key])
        (exec i (.put key (d.family.size key)) w').2.kv := by
      intro hholds key' hkey'
      rcases List.mem_append.mp hkey' with hkey' | hkey'
      · exact uploaded_put hw' hholds key' hkey'
      · obtain rfl := List.mem_singleton.mp hkey'
        refine ⟨hkeys key' (by simp), ?_⟩
        change ((w'.kv.generations.set key' _).get key').isSome = true
        rw [JsMap.get_set, if_pos rfl]
        rfl
    refine (ih (fun key' hkey' => hkeys key' (List.mem_cons_of_mem _ hkey')) hone).mono fun _ _ _ hw => ?_
    rwa [List.append_assoc] at hw

theorem ensureFence_safe : Safe who i (fun _ _ => True) Deploy.ensureFence w := by
  have hwrite : ∀ w : World Id, Safe who i (fun _ _ => True) (do
      let again ← perform .now
      perform (.putFence again)
      return again : Calls ℕ) w := fun w =>
    safe_read (fun _ => rfl) stable_true trivial fun w₁ _ _ =>
      safe_call stable_true trivial (fun w' hinv' _ _ => keeps_quiet hinv' rfl rfl fun _ _ h => h)
        fun _ _ _ => safe_end _
  refine safe_read (fun _ => rfl) stable_true trivial fun w₁ _ _ => ?_
  refine safe_read (fun _ => rfl) stable_true trivial fun w₂ _ _ => ?_
  split
  · split
    · exact safe_end _
    · exact hwrite w₂
  · exact hwrite w₂

include happart hwho in
theorem beginDeployUpload_safe (hinv : Inv w) : Safe who i (fun _ _ => True) d.beginDeployUpload w := by
  refine safe_bind hinv (ensureFence_safe.mono fun fence w₁ _ _ => ?_)
  refine safe_read (fun _ => rfl) stable_true trivial fun w₂ _ _ => ?_
  refine safe_call stable_true trivial (fun w' hinv' hmay _ => keeps_enter hinv' (hmay rfl))
    fun w₃ _ _ => ?_
  have hin : Within i (Seen who w₃.kv.manifests fun _ => False) (exec i .enter w₃).2 :=
    ⟨by simp [exec], rfl, fun _ _ hgone => hgone.elim⟩
  refine safe_call (stable_within calmed_seen) hin
    (fun w' hinv' _ hw' => keeps_putLease hinv' happart (by rw [hwho]; rfl) (.inl hw'.1)) fun w₄ hw₄ hinv₄ => ?_
  have hmine : Within i (Seen who w₃.kv.manifests fun b => b ≠ d.family.built_at)
      (exec i (.putLease ⟨d.family.built_at, DEPLOY_LEASE_OWNER, fence⟩) w₄).2 :=
    ⟨hw₄.1, hw₄.2.1, fun b _ hne hholds => hne (Option.some.inj hholds).symm⟩
  refine safe_bind hinv₄ ((readPublishedManifests_safe (stable_within calmed_seen) hmine).mono
    fun published w₅ _ hread => ?_)
  refine safe_read (fun _ => rfl) (stable_within calmed_seen) hread.1 fun w₆ hinv₆ hw₆ => ?_
  have hkeyed := hw₆.2.1 ▸ hinv₆.keyed
  refine safe_bind hinv₆ ((deleteKeys_safe (fun name hname => ?_) hw₆).mono fun _ w₇ hinv₇ _ => ?_)
  · obtain ⟨g, hgen, hrole, hfly⟩ := retire_spares hname
    refine sweepable_of_retire (hread.2 _ knows_seen) hkeyed hgen hrole fun j _ d' _ _ heq => hfly ?_
    rw [heq]
  · split
    · exact safe_bind hinv₇ ((releaseLease_safe stable_true (fun _ _ => trivial) trivial).mono
        fun _ _ _ _ => safe_end _)
    · exact safe_call stable_true trivial (fun w' hinv' _ _ => keeps_drop hinv') fun _ _ _ => safe_end _

include hwho in
theorem commit_safe (h : Uploaded d.family.built_at d.chunkPuts w.kv) (hinv : Inv w) :
    Safe who i (fun _ _ => True) d.commit w := by
  refine safe_bind hinv ((readPublishedManifests_safe (stable_uploaded hwho) h).mono
    fun live w₁ _ hlive => ?_)
  generalize (replacedManifest live d.family.format).map (·.manifest) = replaced
  refine safe_call (stable_uploaded hwho) hlive.1
    (fun w' hinv' hmay _ => keeps_enter hinv' (hmay rfl)) fun w₂ hw₂ _ => ?_
  have hin : Within i (Seen who w₂.kv.manifests fun _ => False) (exec i .enter w₂).2 :=
    ⟨by simp [exec], rfl, fun _ _ hgone => hgone.elim⟩
  have hboth : (terms who).Stable i fun w => Within i (Seen who w₂.kv.manifests fun _ => False) w ∧
      Uploaded d.family.built_at d.chunkPuts w.kv :=
    Terms.Stable.and (stable_within calmed_seen) (stable_uploaded hwho)
  refine safe_read (fun _ => rfl) hboth ⟨hin, hw₂⟩ fun w₃ hinv₃ hw₃ => ?_
  dsimp only
  split
  · exact safe_end _
  · rename_i hholds
    obtain ⟨husable, hformat, -, hparts⟩ := published_fields d.family replaced
    have hheld : w₃.kv.Holds d.family.built_at := by simpa [exec, Namespace.Holds] using hholds
    have hwhole : Within i (fun kv => Seen who w₂.kv.manifests (fun _ => False) kv ∧
        kv.Whole (withPreviousBuiltAt d.family.manifest replaced)) w₃ :=
      ⟨hw₃.1.1, hw₃.1.2, whole_of_has d.family fun key hkey => (hw₃.2 hheld key hkey).2⟩
    generalize hkeys : manifestKeysToWrite d.family.format ((live.find? (·.legacy)).map (·.manifest)) = keys
    refine safe_bind hinv₃ ((putManifests_safe husable hformat (fun key hkey => ?_) hwhole).mono
      fun _ w₄ hinv₄ hw₄ => ?_)
    · exact mem_manifestKeysToWrite (hkeys ▸ hkey)
    · refine safe_bind hinv₄ ((releaseLease_safe (stable_within calmed_seen)
        (fun _ => seen_deleteLease) hw₄).mono fun _ w₅ hinv₅ hw₅ => ?_)
      refine sweepGenerationsByRole_safe hinv₅ hw₅ ?_
      rw [JsMap.get_foldl_set_const, if_pos]
      rw [← hkeys]
      exact List.mem_cons_self

include happart hwho in
theorem upload_safe (hinv : Inv w) : Safe who i (fun _ _ => True) d.upload w := by
  refine safe_bind hinv ((beginDeployUpload_safe happart hwho hinv).mono fun begun w₁ hinv₁ _ => ?_)
  cases begun with
  | false => exact safe_end _
  | true =>
    have hnone : Uploaded d.family.built_at [] w₁.kv := fun _ key hkey => by cases hkey
    have hgen : ∀ key ∈ d.chunkPuts, generationOfKey key = some d.family.built_at :=
      fun key hkey => d.family.generationOfKey_mem rfl hkey
    refine safe_bind hinv₁ ((putChunks_safe hwho hgen hnone).mono fun _ w₂ hinv₂ hw₂ => ?_)
    rw [List.nil_append] at hw₂
    refine safe_bind hinv₂ ((putKeys_safe (stable_uploaded hwho) (fun _ _ _ => uploaded_put) hw₂).mono
      fun _ w₃ hinv₃ hw₃ => ?_)
    exact safe_bind hinv₃ ((putKeys_safe (stable_uploaded hwho) (fun _ _ _ => uploaded_put) hw₃).mono
      fun _ w₄ hinv₄ hw₄ => commit_safe hwho hw₄ hinv₄)

end

/-! ## Every publisher -/

theorem ensureFormatManifest_safe : Safe who i (fun _ _ => True) (ensureFormatManifest format) w := by
  refine safe_call stable_true trivial (fun w' hinv' hmay _ => keeps_enter hinv' (hmay rfl))
    fun w₁ _ _ => ?_
  have hin : Within i (Seen who w₁.kv.manifests fun _ => False) (exec i .enter w₁).2 :=
    ⟨by simp [exec], rfl, fun _ _ hgone => hgone.elim⟩
  refine safe_read (fun _ => rfl) (stable_within calmed_seen) hin fun w₂ _ hw₂ => ?_
  split
  · exact safe_end _
  · refine safe_read (fun _ => rfl) (stable_within calmed_seen) hw₂ fun w₃ hinv₃ hw₃ => ?_
    split
    · exact safe_end _
    · rename_i m hlegacy
      have hget : w₃.kv.manifests.get MANIFEST_KEY = some m := (Option.filter_eq_some_iff.mp hlegacy).1
      split
      · exact safe_end _
      · rename_i hformat
        have hwhole : Within i (fun kv => Seen who w₁.kv.manifests (fun _ => False) kv ∧ kv.Whole m) w₃ :=
          ⟨hw₃.1, hw₃.2, hinv₃.whole _ _ hget⟩
        have husable := (hinv₃.keyed _ _ hget).1
        rw [← bind_pure (perform (.putManifest (formatManifestKey format) m))]
        exact safe_call (stable_within calmed_whole) hwhole (fun w' hinv' _ hw' =>
          keeps_putManifest hinv' hw'.1 hw'.2.2 husable (not_not.mp hformat) (.inr rfl))
          fun _ _ _ => safe_end _

theorem publishers_sound (happart : NumberedApart who) :
    Shared.Sound (machine who) (terms who) (outside : Outside → World Id → World Id) where
  wake i kept w hinv := by
    change Safe who i (fun _ _ => True) ((who i).wake kept) w
    cases hwho : who i with
    | coordinator c => exact alarm_safe happart hwho hinv
    | deploy d =>
      exact safe_bind hinv ((upload_safe happart hwho hinv).mono fun _ _ _ _ => safe_end _)
    | migration format =>
      exact safe_bind hinv (ensureFormatManifest_safe.mono fun _ _ _ _ => safe_end _)
  drop i w hinv := keeps_drop hinv
  env e w hinv := by
    have hquiet : ∀ kv : Namespace, kv.manifests = w.kv.manifests →
        kv.generations = w.kv.generations → (∀ b, kv.Holds b → w.kv.Holds b) →
        Inv (w.set kv) ∧ ∀ i, (terms who).rely i w (w.set kv) := by
      intro kv hmanifests hkeys hlease
      have hhas : ∀ key, w.kv.Has key → kv.Has key := by
        intro key h
        rw [Namespace.Has, hkeys]
        exact h
      refine ⟨⟨hinv.alone, hmanifests ▸ hinv.keyed, fun key m hget => ?_⟩, fun i => ⟨rfl, fun _ =>
        ⟨hmanifests, hhas, fun b _ => hlease b⟩, fun d _ => ⟨hlease _, fun _ key _ => hhas key⟩⟩⟩
      change kv.manifests.get key = some m at hget
      rw [hmanifests] at hget
      exact (hinv.whole key m hget).of_has fun key _ => hhas key
    cases e with
    | failOver epoch => exact hquiet _ rfl rfl fun _ h => h
    | expire => exact hquiet _ rfl rfl fun _ h => by cases h
    | fence => exact hquiet _ rfl rfl fun _ h => h
    | tick ms => exact hquiet _ rfl rfl fun _ h => h
    | others keys => exact hquiet _ rfl rfl fun _ h => h

end Publishers
