-- SUMMARY: What a cached archive's stream gives, however writers, prunes and readers interleave.
import Sylvan.Data.Runs
import Sylvan.Engine.StoreCache
import Mathlib.Logic.Function.Basic

/-!
# Streams of one writer's copy

The rows a key holds are the pieces its newest writer has cut, some of them perhaps
deleted. A record is of the pieces its writer had cut when it committed; later ones
come behind them, and a later writer's deletions come before any row of its own.
-/

namespace StoreCache

open Function (update update_of_ne update_self)

/-! ## Tables that lose rows, or gain some -/

/-- Every record of `s'` is one of `s`, and every row that is not is one of `fresh`. -/
structure Moves (fresh : String × ℕ → Prop) (s s' : ArchiveCacheStorage) : Prop where
  rows : ∀ place bytes, s'.rows.get place = some bytes → s.rows.get place = some bytes ∨ fresh place
  metas : ∀ key record, s'.metas.get key = some record → s.metas.get key = some record

abbrev Thins : ArchiveCacheStorage → ArchiveCacheStorage → Prop := Moves fun _ => False

theorem Moves.refl {fresh : String × ℕ → Prop} (s : ArchiveCacheStorage) : Moves fresh s s :=
  ⟨fun _ _ => .inl, fun _ _ => id⟩

theorem Moves.trans {fresh : String × ℕ → Prop} {s₁ s₂ s₃ : ArchiveCacheStorage} (h : Moves fresh s₁ s₂)
    (h' : Moves fresh s₂ s₃) : Moves fresh s₁ s₃ where
  rows place bytes hget := by
    obtain hold | hfresh := h'.rows place bytes hget
    · exact h.rows place bytes hold
    · exact .inr hfresh
  metas key record hget := h.metas key record (h'.metas key record hget)

theorem thins_deleteRows (s : ArchiveCacheStorage) (key : String) : Thins s (s.deleteRows key) := by
  refine ⟨fun place bytes hget => .inl ?_, fun _ _ => id⟩
  simp only [ArchiveCacheStorage.deleteRows, JsMap.get_filter, Option.filter_eq_some_iff] at hget
  exact hget.1

theorem thins_deleteMeta (s : ArchiveCacheStorage) (key : String) : Thins s (s.deleteMeta key) := by
  refine ⟨fun _ _ => .inl, fun key' record hget => ?_⟩
  simp only [ArchiveCacheStorage.deleteMeta, JsMap.get_filter, Option.filter_eq_some_iff] at hget
  exact hget.1

theorem thins_dropCached (s : ArchiveCacheStorage) (key : String) : Thins s (dropCached s key) :=
  (thins_deleteMeta s key).trans (thins_deleteRows _ key)

theorem thins_foldl {delete : ArchiveCacheStorage → String → ArchiveCacheStorage}
    (hdelete : ∀ s key, Thins s (delete s key)) (s : ArchiveCacheStorage) (keys : List String) :
    Thins s (keys.foldl delete s) := by
  induction keys generalizing s with
  | nil => exact .refl s
  | cons key keys ih => exact (hdelete s key).trans (ih (delete s key))

theorem thins_pruneWhere (s : ArchiveCacheStorage) (keep : List String) (droppable : String → Bool) :
    Thins s (pruneWhere s keep droppable) :=
  (thins_foldl (fun s key => (thins_deleteRows s key).trans (thins_deleteMeta _ key)) s _).trans
    (thins_foldl thins_deleteRows _ _)

variable {s : ArchiveCacheStorage}

theorem get_dropCached {key : String} :
    (∀ seq, (dropCached s key).rows.get (key, seq) = none) ∧ (dropCached s key).metas.get key = none := by
  constructor
  · intro seq
    simp [dropCached, ArchiveCacheStorage.deleteRows, ArchiveCacheStorage.deleteMeta, JsMap.get_filter]
  · simp [dropCached, ArchiveCacheStorage.deleteRows, ArchiveCacheStorage.deleteMeta, JsMap.get_filter]

/-! ## What a writer has written -/

/-- A writer's bytes are the pieces it has cut and the group it is filling; its key holds no other rows. -/
structure Wrote (s : ArchiveCacheStorage) (given : Bytes) (writer : CacheWriter) (pieces : List Bytes) : Prop where
  given_eq : given = pieces.flatten ++ writer.group
  seq_eq : writer.seq = pieces.length
  written_eq : writer.written = pieces.flatten.length
  rows : ∀ seq bytes, s.rows.get (writer.key, seq) = some bytes → pieces[seq]? = some bytes

abbrev Past (key : String) (seq : ℕ) (place : String × ℕ) : Prop := place.1 = key ∧ seq ≤ place.2

section

variable {s : ArchiveCacheStorage} {given : Bytes} {writer : CacheWriter} {pieces : List Bytes}

theorem Wrote.insertRow (h : Wrote s given writer pieces) : ∃ s', s.insertRow writer.key writer.seq writer.group = some s' ∧
      Wrote s' given writer.next (pieces ++ [writer.group]) ∧ Moves (Past writer.key writer.seq) s s' ∧
      s'.metas = s.metas := by
  have hfree : s.rows.get (writer.key, writer.seq) = none := by
    refine Option.eq_none_iff_forall_ne_some.mpr fun bytes hget => ?_
    have hpiece := h.rows writer.seq bytes hget
    rw [h.seq_eq, List.getElem?_eq_none le_rfl] at hpiece
    cases hpiece
  refine ⟨{ s with rows := s.rows.set (writer.key, writer.seq) writer.group }, ?_, ⟨?_, ?_, ?_, ?_⟩, ⟨?_, ?_⟩, rfl⟩
  · simp [ArchiveCacheStorage.insertRow, hfree]
  · simp [CacheWriter.next, h.given_eq]
  · simp [CacheWriter.next, h.seq_eq]
  · simp [CacheWriter.next, h.written_eq]
  · intro seq bytes hget
    simp only [CacheWriter.next, JsMap.get_set, Prod.mk.injEq, true_and] at hget
    split_ifs at hget with hseq
    · rw [← hseq, h.seq_eq, List.getElem?_concat_length]
      exact hget
    · exact List.getElem?_append_left (List.getElem?_eq_some_iff.mp (h.rows seq bytes hget)).1 ▸ h.rows seq bytes hget
  · intro place bytes hget
    rw [JsMap.get_set] at hget
    split_ifs at hget with hplace
    · exact .inr ⟨hplace ▸ rfl, hplace ▸ le_rfl⟩
    · exact .inl hget
  · exact fun _ _ => id

theorem Wrote.fill (h : Wrote s given writer pieces) (bytes : Bytes) :
    Wrote s (given ++ bytes.take (ImportSpill.BLOB_GROUP_BYTES - writer.group.length)) (writer.fill bytes) pieces :=
  ⟨by rw [h.given_eq, List.append_assoc]; rfl, h.seq_eq, h.written_eq, h.rows⟩

/-- What a writer's call leaves: more rows of its own, past those it had, and no record. -/
structure Extends (s s' : ArchiveCacheStorage) (given : Bytes) (writer writer' : CacheWriter) : Prop where
  key_eq : writer'.key = writer.key
  seq_le : writer.seq ≤ writer'.seq
  wrote : ∃ pieces, Wrote s' given writer' pieces
  moves : Moves (Past writer.key writer.seq) s s'

theorem Wrote.write (h : Wrote s given writer pieces) (bytes : Bytes) : (writer.write s bytes).2.2 = true ∧
      Extends s (writer.write s bytes).1 (given ++ bytes) writer (writer.write s bytes).2.1 := by
  induction writer, s, bytes using CacheWriter.write.induct generalizing given pieces with
  | case1 writer s =>
    rw [CacheWriter.write, if_pos rfl, List.append_nil]
    exact ⟨rfl, rfl, le_rfl, ⟨pieces, h⟩, .refl s⟩
  | case2 writer s bytes hbytes hfull hnone =>
    obtain ⟨s', hinsert, -⟩ := (h.fill bytes).insertRow
    exact absurd (hnone.symm.trans hinsert) (by simp)
  | case3 writer s bytes hbytes hfull s' hinsert ih =>
    obtain ⟨s'', hinsert', hwrote, hmoves, -⟩ := (h.fill bytes).insertRow
    obtain rfl := Option.some.inj (hinsert.symm.trans hinsert')
    obtain ⟨hreturns, hextends⟩ := ih hwrote
    rw [CacheWriter.write, if_neg hbytes, if_pos hfull, hinsert]
    rw [List.append_assoc, List.take_append_drop] at hextends
    refine ⟨hreturns, hextends.key_eq, (Nat.le_succ _).trans hextends.seq_le, hextends.wrote, hmoves.trans ?_⟩
    exact ⟨fun place bytes hget => (hextends.moves.rows place bytes hget).imp_right
      fun hpast => ⟨hpast.1, (Nat.le_succ _).trans hpast.2⟩, hextends.moves.metas⟩
  | case4 writer s bytes hbytes hroom ih =>
    obtain ⟨hreturns, hextends⟩ := ih (h.fill bytes)
    rw [CacheWriter.write, if_neg hbytes, if_neg hroom]
    rw [List.append_assoc, List.take_append_drop] at hextends
    exact ⟨hreturns, hextends.key_eq, hextends.seq_le, hextends.wrote, hextends.moves⟩

theorem Wrote.commit (h : Wrote s given writer pieces) :
    ∃ s' writer', writer.commit s = writer'.publish s' ∧ writer'.group = [] ∧
      Extends s s' given writer writer' ∧ s'.metas = s.metas := by
  by_cases htail : writer.group = []
  · refine ⟨s, writer, ?_, htail, ⟨rfl, le_rfl, ⟨pieces, h⟩, .refl s⟩, rfl⟩
    rw [CacheWriter.commit, if_pos htail]
  · obtain ⟨s', hinsert, hwrote, hmoves, hmetas⟩ := h.insertRow
    refine ⟨s', writer.next, ?_, rfl, ⟨rfl, Nat.le_succ _, ⟨_, hwrote⟩, hmoves⟩, hmetas⟩
    rw [CacheWriter.commit, if_neg htail, hinsert]

end

/-! ## Copies -/

/-- A key's rows, as far as a copy's pieces go, are those pieces; some may be gone. -/
def Holds (s : ArchiveCacheStorage) (key : String) (pieces : List Bytes) : Prop :=
  ∀ seq bytes, s.rows.get (key, seq) = some bytes → seq < pieces.length → pieces[seq]? = some bytes

theorem Holds.moves {s s' : ArchiveCacheStorage} {key : String} {pieces : List Bytes} {fresh : String × ℕ → Prop}
    (h : Holds s key pieces) (hmoves : Moves fresh s s') (hfresh : ∀ seq < pieces.length, ¬fresh (key, seq)) :
    Holds s' key pieces :=
  fun seq bytes hget hlt => h seq bytes ((hmoves.rows _ _ hget).resolve_right (hfresh seq hlt)) hlt

/-- The pieces a commit's record is of. -/
structure Copied (c : Commit) (record : CacheMeta) (pieces : List Bytes) : Prop where
  record_eq : c.record = record
  bytes_eq : c.bytes = pieces.flatten
  count_eq : record.rowCount = pieces.length
  total_eq : record.totalBytes = c.bytes.length

/-- Under `key`, the copy's writer is still the newest, and has cut the copy's pieces. -/
structure Current (w : CacheWorld) (key : String) (i : ℕ) (pieces : List Bytes) : Prop where
  holds : Holds w.storage key pieces
  cut : ∀ writer, w.writers i = some writer → pieces.length ≤ writer.seq

/-! ## Runs -/

/-- A writer is used only while its key has no newer one, and no stream takes a row once its key
    has had a new writer. -/
def CacheWorld.Single (w : CacheWorld) : CacheCall → Prop
  | .write i _ => ∀ writer ∈ w.writers i, w.newest writer.key = some i
  | .commit i => ∀ writer ∈ w.writers i, w.newest writer.key = some i
  | .pull j => ∀ opened ∈ w.streams j, opened.stream.state = .open →
      opened.stream.seq < opened.stream.record.rowCount → w.newest opened.stream.key = opened.newest
  | _ => True

instance (w : CacheWorld) (call : CacheCall) : Decidable (w.Single call) := by
  cases call <;> unfold CacheWorld.Single <;> infer_instance

def CacheWorld.singleStep (w : CacheWorld) (call : CacheCall) : Option CacheWorld :=
  if w.Single call then w.step call else none

/-- What a stream has given: the first pieces of the commit it saw, all of them once it has closed. -/
structure Streamed (w : CacheWorld) (opened : Opened) (c : Commit) (pieces : List Bytes) : Prop where
  saw_eq : opened.saw = some c
  copied : Copied c opened.stream.record pieces
  enqueued_eq : opened.stream.enqueued = pieces.take opened.stream.seq
  closed : opened.stream.state = .closed → pieces.length ≤ opened.stream.seq
  current : ∃ i writer, opened.newest = some i ∧ w.writers i = some writer ∧
    (w.newest opened.stream.key = some i → Current w opened.stream.key i pieces)

structure CacheWorld.Sound (w : CacheWorld) : Prop where
  unused : ∀ i, w.writers i = none → w.given i = []
  newest : ∀ key i, w.newest key = some i → ∃ writer, w.writers i = some writer ∧ writer.key = key
  wrote : ∀ i writer, w.writers i = some writer → w.newest writer.key = some i →
    ∃ pieces, Wrote w.storage (w.given i) writer pieces
  recorded : ∀ key record, w.storage.metas.get key = some record →
    ∃ i c pieces, w.newest key = some i ∧ w.published key = some c ∧ Copied c record pieces ∧ Current w key i pieces
  streamed : ∀ j opened, w.streams j = some opened → ∃ c pieces, Streamed w opened c pieces

theorem CacheWorld.Sound.start : CacheWorld.start.Sound where
  unused _ _ := rfl
  newest _ _ h := nomatch h
  wrote _ _ h := nomatch h
  recorded _ _ h := nomatch h
  streamed _ _ h := nomatch h

variable {w : CacheWorld}

theorem CacheWorld.Sound.thins (h : w.Sound) (hthins : Thins w.storage s) :
    ({ w with storage := s } : CacheWorld).Sound := by
  have hcurrent {key : String} {i : ℕ} {pieces : List Bytes} (hc : Current w key i pieces) :
      Current { w with storage := s } key i pieces :=
    ⟨hc.holds.moves hthins fun _ _ => id, hc.cut⟩
  refine ⟨h.unused, h.newest, fun i writer hi hnewest => ?_, fun key record hget => ?_, fun j opened hj => ?_⟩
  · obtain ⟨pieces, hwrote⟩ := h.wrote i writer hi hnewest
    exact ⟨pieces, hwrote.given_eq, hwrote.seq_eq, hwrote.written_eq,
      fun seq bytes hget => hwrote.rows seq bytes ((hthins.rows _ _ hget).resolve_right id)⟩
  · obtain ⟨i, c, pieces, hnewest, hpublished, hcopied, hc⟩ := h.recorded key record (hthins.metas key record hget)
    exact ⟨i, c, pieces, hnewest, hpublished, hcopied, hcurrent hc⟩
  · obtain ⟨c, pieces, hsaw, hcopied, henqueued, hclosed, i, writer, hopened, hi, hc⟩ := h.streamed j opened hj
    exact ⟨c, pieces, hsaw, hcopied, henqueued, hclosed, i, writer, hopened, hi, fun hnewest => hcurrent (hc hnewest)⟩

theorem CacheWorld.Sound.extends (h : w.Sound) {i : ℕ} {writer writer' : CacheWriter}
    {given : Bytes} (hi : w.writers i = some writer) (hnewest : w.newest writer.key = some i)
    (hextends : Extends w.storage s given writer writer') :
    ({ w with
      storage := s
      writers := update w.writers i (some writer')
      given := update w.given i given } : CacheWorld).Sound := by
  have hwriters (j : ℕ) (other : CacheWriter) (hj : w.writers j = some other) :
      ∃ other', update w.writers i (some writer') j = some other' ∧ other'.key = other.key := by
    obtain rfl | hne := eq_or_ne j i
    · obtain rfl := Option.some.inj (hj.symm.trans hi)
      exact ⟨writer', by rw [update_self], hextends.key_eq⟩
    · exact ⟨other, by rw [update_of_ne hne, hj], rfl⟩
  have hcurrent {key : String} {j : ℕ} {pieces : List Bytes} (hc : Current w key j pieces)
      (hj : w.newest key = some j) : Current
        { w with
          storage := s
          writers := update w.writers i (some writer')
          given := update w.given i given } key j pieces := by
    refine ⟨hc.holds.moves hextends.moves ?_, ?_⟩
    · rintro seq hlt ⟨hkey, hle⟩
      have hsame : j = i := by
        rw [show key = writer.key from hkey, hnewest] at hj
        exact (Option.some.inj hj).symm
      have hcut := hc.cut writer (hsame ▸ hi)
      omega
    · intro other hother
      obtain rfl | hne := eq_or_ne j i
      · simp only [update_self, Option.some.injEq] at hother
        exact hother ▸ (hc.cut writer hi).trans hextends.seq_le
      · simp only [update_of_ne hne] at hother
        exact hc.cut other hother
  refine ⟨fun j hj => ?_, fun key j hj => ?_, fun j other hother hj => ?_, fun key record hget => ?_, fun j opened hj => ?_⟩
  · obtain rfl | hne := eq_or_ne j i
    · simp at hj
    · simp only [update_of_ne hne] at hj ⊢
      exact h.unused j hj
  · obtain ⟨other, hother, hkey⟩ := h.newest key j hj
    obtain ⟨other', hother', hkey'⟩ := hwriters j other hother
    exact ⟨other', hother', hkey'.trans hkey⟩
  · obtain rfl | hne := eq_or_ne j i
    · simp only [update_self, Option.some.injEq] at hother ⊢
      exact hother ▸ hextends.wrote
    · simp only [update_of_ne hne] at hother ⊢
      obtain ⟨pieces, hwrote⟩ := h.wrote j other hother hj
      refine ⟨pieces, hwrote.given_eq, hwrote.seq_eq, hwrote.written_eq, fun seq bytes hget => ?_⟩
      refine hwrote.rows seq bytes ((hextends.moves.rows _ _ hget).resolve_right ?_)
      rintro ⟨hkey, -⟩
      rw [show other.key = writer.key from hkey, hnewest] at hj
      exact hne (Option.some.inj hj).symm
  · obtain ⟨j, c, pieces, hj, hpublished, hcopied, hc⟩ := h.recorded key record (hextends.moves.metas key record hget)
    exact ⟨j, c, pieces, hj, hpublished, hcopied, hcurrent hc hj⟩
  · obtain ⟨c, pieces, hsaw, hcopied, henqueued, hclosed, k, other, hopened, hk, hc⟩ := h.streamed j opened hj
    obtain ⟨other', hother', -⟩ := hwriters k other hk
    exact ⟨c, pieces, hsaw, hcopied, henqueued, hclosed, k, other', hopened, hother',
      fun hnewer => hcurrent (hc hnewer) hnewer⟩

theorem CacheWorld.Sound.publish (h : w.Sound) {i : ℕ} {writer : CacheWriter}
    (hi : w.writers i = some writer) (hnewest : w.newest writer.key = some i)
    (hflushed : writer.group = [])
    (hinsert : w.storage.insertMeta writer.key ⟨writer.written, writer.seq⟩ = some s) :
    ({ w with
      storage := s
      published := update w.published writer.key
        (some ⟨i, ⟨writer.written, writer.seq⟩, w.given i⟩) } : CacheWorld).Sound := by
  rw [ArchiveCacheStorage.insertMeta] at hinsert
  split_ifs at hinsert with hnew
  obtain rfl := Option.some.inj hinsert
  refine ⟨h.unused, h.newest, fun j other hj hother => ?_, fun key record hget => ?_, fun j opened hj => ?_⟩
  · obtain ⟨pieces, hwrote⟩ := h.wrote j other hj hother
    exact ⟨pieces, hwrote.given_eq, hwrote.seq_eq, hwrote.written_eq, hwrote.rows⟩
  · simp only [JsMap.get_set] at hget
    split_ifs at hget with hkey
    · obtain rfl := Option.some.inj hget
      obtain ⟨pieces, hwrote⟩ := h.wrote i writer hi hnewest
      have hgiven : w.given i = pieces.flatten := by rw [hwrote.given_eq, hflushed, List.append_nil]
      have htotal : writer.written = (w.given i).length := by rw [hgiven, hwrote.written_eq]
      refine ⟨i, ⟨i, ⟨writer.written, writer.seq⟩, w.given i⟩, pieces, hkey ▸ hnewest, ?_,
        ⟨rfl, hgiven, hwrote.seq_eq, htotal⟩,
        fun seq bytes hrow _ => hwrote.rows seq bytes (hkey ▸ hrow), fun other hother => ?_⟩
      · simp only [← hkey, update_self]
      obtain rfl := Option.some.inj (hi.symm.trans hother)
      exact hwrote.seq_eq.ge
    · obtain ⟨j, c, pieces, hj, hpublished, hcopied, hc⟩ := h.recorded key record hget
      refine ⟨j, c, pieces, hj, ?_, hcopied, hc.holds, hc.cut⟩
      simp only [update_of_ne (Ne.symm hkey), hpublished]
  · obtain ⟨c, pieces, hsaw, hcopied, henqueued, hclosed, k, other, hopened, hk, hc⟩ := h.streamed j opened hj
    exact ⟨c, pieces, hsaw, hcopied, henqueued, hclosed, k, other, hopened, hk,
      fun hnewer => ⟨(hc hnewer).holds, (hc hnewer).cut⟩⟩

theorem CacheWorld.Sound.create (h : w.Sound) {i : ℕ} (hi : w.writers i = none) (key : String)
    (expectedBytes : Option ℕ) :
    ({ w with
      storage := dropCached w.storage key
      writers := update w.writers i (some (cacheWriter w.storage key expectedBytes).2)
      newest := update w.newest key (some i) } : CacheWorld).Sound := by
  have hthins := thins_dropCached w.storage key
  have hne {j : ℕ} {other : CacheWriter} (hj : w.writers j = some other) : j ≠ i := by
    rintro rfl
    cases hi.symm.trans hj
  have hcurrent {key' : String} {j : ℕ} {pieces : List Bytes} (hc : Current w key' j pieces) (hj : j ≠ i) : Current
      { w with
        storage := dropCached w.storage key
        writers := update w.writers i (some (cacheWriter w.storage key expectedBytes).2)
        newest := update w.newest key (some i) } key' j pieces := by
    refine ⟨hc.holds.moves hthins fun _ _ => id, fun other hother => hc.cut other ?_⟩
    simpa only [update_of_ne hj] using hother
  refine ⟨fun j hj => ?_, fun key' j hj => ?_, fun j other hother hj => ?_, fun key' record hget => ?_,
    fun j opened hj => ?_⟩
  · obtain rfl | hji := eq_or_ne j i
    · exact h.unused j hi
    · simp only [update_of_ne hji] at hj
      exact h.unused j hj
  · obtain rfl | hkey := eq_or_ne key' key
    · simp only [update_self, Option.some.injEq] at hj
      subst hj
      exact ⟨(cacheWriter w.storage key' expectedBytes).2, by simp only [update_self], rfl⟩
    · simp only [update_of_ne hkey] at hj
      obtain ⟨other, hother, hkey'⟩ := h.newest key' j hj
      exact ⟨other, by simp only [update_of_ne (hne hother), hother], hkey'⟩
  · obtain rfl | hji := eq_or_ne j i
    · simp only [update_self, Option.some.injEq] at hother
      subst hother
      refine ⟨[], by simp [h.unused j hi, cacheWriter], rfl, rfl, fun seq bytes hget => ?_⟩
      rw [show (cacheWriter w.storage key expectedBytes).2.key = key from rfl, get_dropCached.1 seq] at hget
      cases hget
    · simp only [update_of_ne hji] at hother
      have hkey : other.key ≠ key := by
        rintro heq
        simp only [heq, update_self, Option.some.injEq] at hj
        exact hji hj.symm
      simp only [update_of_ne hkey] at hj
      obtain ⟨pieces, hwrote⟩ := h.wrote j other hother hj
      exact ⟨pieces, hwrote.given_eq, hwrote.seq_eq, hwrote.written_eq,
        fun seq bytes hget => hwrote.rows seq bytes ((hthins.rows _ _ hget).resolve_right id)⟩
  · obtain rfl | hkey := eq_or_ne key' key
    · rw [get_dropCached.2] at hget
      cases hget
    · obtain ⟨j, c, pieces, hj, hpublished, hcopied, hc⟩ := h.recorded key' record (hthins.metas _ _ hget)
      obtain ⟨other, hother, -⟩ := h.newest key' j hj
      exact ⟨j, c, pieces, by simp only [update_of_ne hkey, hj], hpublished, hcopied, hcurrent hc (hne hother)⟩
  · obtain ⟨c, pieces, hsaw, hcopied, henqueued, hclosed, k, other, hopened, hk, hc⟩ := h.streamed j opened hj
    refine ⟨c, pieces, hsaw, hcopied, henqueued, hclosed, k, other, hopened,
      by simp only [update_of_ne (hne hk), hk], fun hnewer => ?_⟩
    obtain heq | hkey := eq_or_ne opened.stream.key key
    · simp only [heq, update_self, Option.some.injEq] at hnewer
      exact absurd hnewer.symm (hne hk)
    · simp only [update_of_ne hkey] at hnewer
      exact hcurrent (hc hnewer) (hne hk)

theorem CacheWorld.Sound.stream (h : w.Sound) {j : ℕ} {opened : Opened} {c : Commit}
    {pieces : List Bytes} (hstreamed : Streamed w opened c pieces) :
    ({ w with streams := update w.streams j (some opened) } : CacheWorld).Sound := by
  have hsame {opened' : Opened} {c : Commit} {pieces : List Bytes} (hs : Streamed w opened' c pieces) :
      Streamed { w with streams := update w.streams j (some opened) } opened' c pieces := by
    obtain ⟨hsaw, hcopied, henqueued, hclosed, k, other, hopened, hk, hc⟩ := hs
    exact ⟨hsaw, hcopied, henqueued, hclosed, k, other, hopened, hk, fun hnewer => ⟨(hc hnewer).holds, (hc hnewer).cut⟩⟩
  refine ⟨h.unused, h.newest, fun i other hi hother => ?_, fun key record hget => ?_, fun j' opened' hj => ?_⟩
  · obtain ⟨pieces, hwrote⟩ := h.wrote i other hi hother
    exact ⟨pieces, hwrote⟩
  · obtain ⟨i, c, pieces, hi, hpublished, hcopied, hc⟩ := h.recorded key record hget
    exact ⟨i, c, pieces, hi, hpublished, hcopied, hc.holds, hc.cut⟩
  · obtain rfl | hne := eq_or_ne j' j
    · simp only [update_self, Option.some.injEq] at hj
      exact hj ▸ ⟨c, pieces, hsame hstreamed⟩
    · simp only [update_of_ne hne] at hj
      obtain ⟨c, pieces, hs⟩ := h.streamed j' opened' hj
      exact ⟨c, pieces, hsame hs⟩

theorem Streamed.pull {opened : Opened} {c : Commit} {pieces : List Bytes}
    (h : Streamed w opened c pieces)
    (hsingle : opened.stream.state = .open → opened.stream.seq < opened.stream.record.rowCount →
      w.newest opened.stream.key = opened.newest) :
    Streamed w { opened with stream := opened.stream.pull w.storage } c pieces := by
  obtain ⟨hsaw, hcopied, henqueued, hclosed, i, writer, hopened, hi, hc⟩ := h
  have hcount := hcopied.count_eq
  cases hstate : opened.stream.state with
  | closed =>
    have hpull : opened.stream.pull w.storage = opened.stream := by simp [CachedStream.pull, hstate]
    rw [hpull]
    exact ⟨hsaw, hcopied, henqueued, hclosed, i, writer, hopened, hi, hc⟩
  | errored =>
    have hpull : opened.stream.pull w.storage = opened.stream := by simp [CachedStream.pull, hstate]
    rw [hpull]
    exact ⟨hsaw, hcopied, henqueued, hclosed, i, writer, hopened, hi, hc⟩
  | «open» =>
    by_cases hend : opened.stream.seq ≥ opened.stream.record.rowCount
    · have hpull : opened.stream.pull w.storage = { opened.stream with state := .closed } := by
        simp [CachedStream.pull, hstate, hend]
      rw [hpull]
      exact ⟨hsaw, hcopied, henqueued, fun _ => hcount ▸ hend, i, writer, hopened, hi, hc⟩
    · have hlt := Nat.lt_of_not_le hend
      cases hget : w.storage.rows.get (opened.stream.key, opened.stream.seq) with
      | none =>
        have hpull : opened.stream.pull w.storage = { opened.stream with state := .errored } := by
          simp [CachedStream.pull, hstate, hlt, hget]
        rw [hpull]
        exact ⟨hsaw, hcopied, henqueued, (fun hs => by cases hs), i, writer, hopened, hi, hc⟩
      | some bytes =>
        have hpull : opened.stream.pull w.storage = { opened.stream with
            seq := opened.stream.seq + 1, enqueued := opened.stream.enqueued ++ [bytes] } := by
          simp [CachedStream.pull, hstate, hlt, hget]
        have hpiece := (hc ((hsingle hstate hlt).trans hopened)).holds _ bytes hget (hcount ▸ hlt)
        rw [hpull]
        refine ⟨hsaw, hcopied, ?_, fun hs => ?_, i, writer, hopened, hi, hc⟩
        · rw [henqueued, List.take_add_one, hpiece]
          rfl
        · exact absurd (hstate.symm.trans hs) (by decide)

theorem CacheWorld.Sound.step {w w' : CacheWorld} {call : CacheCall} (h : w.Sound)
    (hstep : w.singleStep call = some w') : w'.Sound := by
  rw [CacheWorld.singleStep] at hstep
  split_ifs at hstep with hsingle
  cases call with
  | create i key expectedBytes =>
    cases hi : w.writers i with
    | some writer => simp [CacheWorld.step, hi] at hstep
    | none =>
      simp only [CacheWorld.step, hi, Option.some.injEq] at hstep
      exact hstep ▸ h.create hi key expectedBytes
  | write i bytes =>
    obtain ⟨writer, hi, rfl⟩ := Option.map_eq_some_iff.mp hstep
    have hnewest := hsingle writer hi
    obtain ⟨pieces, hwrote⟩ := h.wrote i writer hi hnewest
    exact h.extends hi hnewest (hwrote.write bytes).2
  | commit i =>
    obtain ⟨writer, hi, rfl⟩ := Option.map_eq_some_iff.mp hstep
    have hnewest := hsingle writer hi
    obtain ⟨pieces, hwrote⟩ := h.wrote i writer hi hnewest
    obtain ⟨s, writer', hcommit, hflushed, hextends, -⟩ := hwrote.commit
    have hsound := h.extends hi hnewest hextends
    rw [Function.update_eq_self] at hsound
    have hi' : update w.writers i (some writer') i = some writer' := update_self ..
    have hnewest' : w.newest writer'.key = some i := hextends.key_eq ▸ hnewest
    simp only [hcommit, CacheWriter.publish]
    split_ifs with hrefused
    · exact hsound.thins (thins_deleteRows s writer'.key)
    · cases hinsert : s.insertMeta writer'.key ⟨writer'.written, writer'.seq⟩ with
      | none => exact hsound
      | some s' => exact hsound.publish hi' hnewest' hflushed hinsert
  | abort i =>
    obtain ⟨writer, -, rfl⟩ := Option.map_eq_some_iff.mp hstep
    exact h.thins (thins_dropCached _ _)
  | drop key =>
    obtain rfl := Option.some.inj hstep
    exact h.thins (thins_dropCached _ _)
  | prune keep droppable =>
    obtain rfl := Option.some.inj hstep
    exact h.thins (thins_pruneWhere _ _ _)
  | «open» j key expectedBytes =>
    cases hj : w.streams j with
    | some opened => simp [CacheWorld.step, hj] at hstep
    | none =>
      simp only [CacheWorld.step, hj] at hstep
      obtain ⟨stream, hopen, rfl⟩ := Option.map_eq_some_iff.mp hstep
      obtain ⟨record, hmeta, rfl⟩ := Option.map_eq_some_iff.mp hopen
      obtain ⟨hget, -⟩ := Option.filter_eq_some_iff.mp hmeta
      obtain ⟨i, c, pieces, hnewest, hpublished, hcopied, hc⟩ := h.recorded key record hget
      obtain ⟨writer, hi, -⟩ := h.newest key i hnewest
      exact h.stream ⟨hpublished, hcopied, by simp, (fun hs => by cases hs), i, writer, hnewest, hi, fun _ => hc⟩
  | pull j =>
    obtain ⟨opened, hj, rfl⟩ := Option.map_eq_some_iff.mp hstep
    obtain ⟨c, pieces, hstreamed⟩ := h.streamed j opened hj
    exact h.stream (hstreamed.pull (hsingle opened hj))

/-- **A stream gives one writer's copy.** However calls on any keys interleave, prunes, drops and aborts at any
    moment among them: while a key's writer writes and commits only as its newest, and a stream takes rows
    only until its key has a new writer, every stream opened on a record has given the first bytes of what
    that record's one writer was given, and one that has closed has given them all. -/
theorem stream_gives_commit {calls : List CacheCall} {w : CacheWorld}
    (h : Runs.Reaches CacheWorld.singleStep CacheWorld.start calls w) {j : ℕ} {opened : Opened}
    (hj : w.streams j = some opened) :
    ∃ c, opened.saw = some c ∧ c.record = opened.stream.record ∧
      opened.stream.record.totalBytes = c.bytes.length ∧
      opened.stream.enqueued.flatten <+: c.bytes ∧
      (opened.stream.state = .closed → opened.stream.enqueued.flatten = c.bytes) := by
  have hsound : w.Sound := h.stateInvariant .start fun hw hstep => hw.step hstep
  obtain ⟨c, pieces, hs⟩ := hsound.streamed j opened hj
  refine ⟨c, hs.saw_eq, hs.copied.record_eq, hs.copied.total_eq, ?_, fun hclosed => ?_⟩
  · rw [hs.enqueued_eq, hs.copied.bytes_eq]
    exact ⟨(pieces.drop opened.stream.seq).flatten, by rw [← List.flatten_append, List.take_append_drop]⟩
  · rw [hs.enqueued_eq, hs.copied.bytes_eq, List.take_of_length_le (hs.closed hclosed)]

/-! ## Overlapping fills -/

/-- A fill that is alone, a prune that keeps it, and a stream of it. -/
def filledAlone : List CacheCall :=
  [.create 0 "store" (some 3), .write 0 [1, 2], .write 0 [3], .commit 0, .open 0 "store" 3,
    .prune ["store"] fun _ => true, .pull 0, .pull 0]

theorem stream_gives_commit_alone :
    ∃ w, Runs.Reaches CacheWorld.singleStep CacheWorld.start filledAlone w ∧ ∃ opened,
      w.streams 0 = some opened ∧ opened.stream.state = .closed ∧
      ∃ c, opened.saw = some c ∧ opened.stream.enqueued.flatten = c.bytes := by
  have hrun : ((Runs.run CacheWorld.singleStep CacheWorld.start filledAlone).bind fun w =>
      (w.streams 0).map fun opened => opened.stream.state) = some .closed := by
    decide +kernel
  obtain ⟨w, hw, hrest⟩ := Option.bind_eq_some_iff.mp hrun
  obtain ⟨opened, hopened, hclosed⟩ := Option.map_eq_some_iff.mp hrest
  obtain ⟨c, hsaw, -, -, -, hall⟩ := stream_gives_commit (Runs.reaches_iff.mpr hw) hopened
  exact ⟨w, Runs.reaches_iff.mpr hw, opened, hopened, hclosed, c, hsaw, hall hclosed⟩

/-- The key is filled again while a stream of it is open. -/
def refilledUnderStream : List CacheCall :=
  [.create 0 "store" (some 1), .write 0 [1], .commit 0, .open 0 "store" 1,
    .create 1 "store" none, .write 1 [7, 8], .commit 1, .pull 0, .pull 0]

/-- Two earlier writers go on after the third has committed: one deletes its row, one inserts another. -/
def filledByThree : List CacheCall :=
  [.create 0 "store" (some 5), .create 1 "store" none, .create 2 "store" (some 2), .write 2 [7, 8], .commit 2,
    .commit 0, .write 1 [9], .commit 1, .open 0 "store" 2, .pull 0, .pull 0]

/-- A stream closes on the rows of a writer that is not the one whose record it saw, when a fill starts under
    it, and also when it is opened after all the writers are done. -/
theorem stream_mixes_writers :
    (∃ w, Runs.Reaches CacheWorld.step CacheWorld.start refilledUnderStream w ∧ ∃ opened,
      w.streams 0 = some opened ∧ opened.stream.state = .closed ∧
      opened.saw = some ⟨0, ⟨1, 1⟩, [1]⟩ ∧ opened.stream.enqueued = [[7, 8]]) ∧
    ∃ w, Runs.Reaches CacheWorld.step CacheWorld.start filledByThree w ∧ ∃ opened,
      w.streams 0 = some opened ∧ opened.stream.state = .closed ∧
      opened.saw = some ⟨2, ⟨2, 1⟩, [7, 8]⟩ ∧ opened.stream.enqueued = [[9]] := by
  have hends {calls : List CacheCall} {saw : Option Commit} {enqueued : List Bytes}
      (hrun : ((Runs.run CacheWorld.step CacheWorld.start calls).bind fun w => (w.streams 0).map fun opened =>
        (opened.stream.state, opened.saw, opened.stream.enqueued)) = some (.closed, saw, enqueued)) :
      ∃ w, Runs.Reaches CacheWorld.step CacheWorld.start calls w ∧ ∃ opened,
        w.streams 0 = some opened ∧ opened.stream.state = .closed ∧ opened.saw = saw ∧
        opened.stream.enqueued = enqueued := by
    obtain ⟨w, hw, hrest⟩ := Option.bind_eq_some_iff.mp hrun
    obtain ⟨opened, hopened, hends⟩ := Option.map_eq_some_iff.mp hrest
    simp only [Prod.mk.injEq] at hends
    exact ⟨w, Runs.reaches_iff.mpr hw, opened, hopened, hends⟩
  exact ⟨hends (by decide +kernel), hends (by decide +kernel)⟩

end StoreCache
