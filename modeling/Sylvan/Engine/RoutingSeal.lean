-- SUMMARY: Sealing: the sorted rows folded run by run, and what each added hash is sealed to.
import Sylvan.Data.Throws
import Sylvan.Engine.RoutingFilter

/-!
# Sealing

The rows of one hash lie together once they are sorted, and are folded into one. What
a run is sealed to does not depend on the order of its rows, so it is what all rows
added with its hash come to.
-/

namespace RoutingFilter

/-! ## Runs -/

/-- What a run of one hash's rows is sealed to: the value of its name, or where no row
is of a name, the lowest partition. -/
def SealsTo (options : SealOptions) (run : List HashedEntry) (value : UInt8) : Prop :=
  if run.any fun e => isNameFlag e.flags then
    ∃ n, options.partitionCount = some n ∧ value = UInt8.ofInt
      ((NameRun.of (run.map fun e => ((e.value.toNat : ℤ), e.flags))).value n options.tiers options.pairs)
  else (∃ e ∈ run, e.value = value) ∧ ∀ e ∈ run, value ≤ e.value

section Runs

variable {options : SealOptions} {run run' : List HashedEntry} {value : UInt8}

theorem SealsTo.of_perm (h : SealsTo options run value) (hperm : run.Perm run') : SealsTo options run' value := by
  have hany : run'.any (fun e => isNameFlag e.flags) = run.any fun e => isNameFlag e.flags :=
    Bool.eq_iff_iff.mpr (by simp [List.any_eq_true, hperm.mem_iff])
  unfold SealsTo at h ⊢
  rw [hany]
  split_ifs at h ⊢
  · obtain ⟨n, hn, hvalue⟩ := h
    exact ⟨n, hn, hvalue.trans (congrArg UInt8.ofInt (NameRun.value_perm (hperm.map _) _ _ _))⟩
  · obtain ⟨⟨e, he, hvalue⟩, hlow⟩ := h
    exact ⟨⟨e, hperm.subset he, hvalue⟩, fun e' he' => hlow e' (hperm.symm.subset he')⟩

theorem hash64_inj {a b : HashedEntry} : HashSort.hash64 a = HashSort.hash64 b ↔ a.lo = b.lo ∧ a.hi = b.hi := by
  have ha := a.lo.toNat_lt
  have hb := b.lo.toNat_lt
  rw [HashSort.hash64, HashSort.hash64, ← UInt32.toNat_inj, ← UInt32.toNat_inj]
  omega

/-- The row a run is folded into while it is open. -/
structure Open (s : Sealing) (run : List HashedEntry) (row : SealedKey) : Prop where
  current : s.current = some row
  nonempty : run ≠ []
  hash : ∀ e ∈ run, row.lo = e.lo ∧ row.hi = e.hi
  lowest : (∃ e ∈ run, e.value = row.value) ∧ ∀ e ∈ run, row.value ≤ e.value
  runName : s.runName = run.any fun e => isNameFlag e.flags
  run : s.run = NameRun.of (run.map fun e => ((e.value.toNat : ℤ), e.flags))

/-- Every run of the rows `done` is closed. -/
def Closed (options : SealOptions) (s : Sealing) (done : List HashedEntry) : Prop :=
  ∀ e ∈ done, ∃ row ∈ s.closed, row.lo = e.lo ∧ row.hi = e.hi ∧
    SealsTo options (done.filter fun e' => HashSort.hash64 e' = HashSort.hash64 e) row.value

/-- Sorted rows folded so far: those of closed runs, and those of the run still open. -/
structure Folding (options : SealOptions) (s : Sealing) (done run : List HashedEntry) : Prop where
  closed : Closed options s done
  apart : ∀ e ∈ done, ∀ e' ∈ run, HashSort.hash64 e ≠ HashSort.hash64 e'
  opened : s.current = none ∧ done = [] ∧ run = [] ∨ ∃ row, Open s run row

variable {done run : List HashedEntry} {e : HashedEntry}

theorem filter_of_run (hapart : ∀ d ∈ done, ∀ r ∈ run, HashSort.hash64 d ≠ HashSort.hash64 r)
    (hsame : ∀ r ∈ run, ∀ r' ∈ run, HashSort.hash64 r = HashSort.hash64 r') (he : e ∈ run) :
    (done ++ run).filter (fun e' => HashSort.hash64 e' = HashSort.hash64 e) = run := by
  have hnone : done.filter (fun e' => HashSort.hash64 e' = HashSort.hash64 e) = [] :=
    List.filter_eq_nil_iff.mpr fun d hd => by simpa using hapart d hd e he
  have hall : run.filter (fun e' => HashSort.hash64 e' = HashSort.hash64 e) = run :=
    List.filter_eq_self.mpr fun r hr => by simpa using hsame r hr e he
  rw [List.filter_append, hnone, hall, List.nil_append]

theorem filter_of_done (hapart : ∀ d ∈ done, ∀ r ∈ run, HashSort.hash64 d ≠ HashSort.hash64 r) (he : e ∈ done) :
    (done ++ run).filter (fun e' => HashSort.hash64 e' = HashSort.hash64 e) =
      done.filter fun e' => HashSort.hash64 e' = HashSort.hash64 e := by
  have hnone : run.filter (fun e' => HashSort.hash64 e' = HashSort.hash64 e) = [] :=
    List.filter_eq_nil_iff.mpr fun r hr => by simpa using Ne.symm (hapart e he r hr)
  rw [List.filter_append, hnone, List.append_nil]

theorem Folding.closeRun {s s' : Sealing}
    (h : Folding options s done run) (hclose : s.closeRun options = .ok s') :
    Closed options s' (done ++ run) := by
  rcases h.opened with ⟨hnone, rfl, rfl⟩ | ⟨row, hopen⟩
  · exact fun _ he => nomatch he
  · have hsame : ∀ r ∈ run, ∀ r' ∈ run, HashSort.hash64 r = HashSort.hash64 r' := by
      intro r hr r' hr'
      obtain ⟨hlo, hhi⟩ := hopen.hash r hr
      obtain ⟨hlo', hhi'⟩ := hopen.hash r' hr'
      exact hash64_inj.mpr ⟨hlo ▸ hlo', hhi ▸ hhi'⟩
    -- The rows closed before stay, and one is added for the run.
    have hclosed : ∃ value, s'.closed = s.closed ++ [{ row with value := value }] ∧ SealsTo options run value := by
      unfold Sealing.closeRun at hclose
      rw [hopen.current] at hclose
      simp only [hopen.runName, hopen.run] at hclose
      split_ifs at hclose with hname
      · cases hcount : options.partitionCount with
        | none =>
          rw [hcount] at hclose
          cases hclose
        | some n =>
          rw [hcount] at hclose
          cases hclose
          refine ⟨_, rfl, ?_⟩
          rw [SealsTo, if_pos hname]
          exact ⟨n, hcount, rfl⟩
      · cases hclose
        refine ⟨row.value, rfl, ?_⟩
        rw [SealsTo, if_neg hname]
        exact hopen.lowest
    obtain ⟨value, hrows, hvalue⟩ := hclosed
    intro e he
    rcases List.mem_append.mp he with he | he
    · obtain ⟨row', hrow', hlo, hhi, hseals⟩ := h.closed e he
      refine ⟨row', hrows ▸ List.mem_append_left _ hrow', hlo, hhi, ?_⟩
      rw [filter_of_done h.apart he]
      exact hseals
    · obtain ⟨hlo, hhi⟩ := hopen.hash e he
      refine ⟨{ row with value := value }, hrows ▸ List.mem_append_right _ List.mem_cons_self, hlo, hhi, ?_⟩
      rw [filter_of_run h.apart hsame he]
      exact hvalue

theorem open_single (s : Sealing) (e : HashedEntry) : Open { s with
      current := some ⟨e.lo, e.hi, e.value⟩
      runName := isNameFlag e.flags
      run := NameRun.note {} e.value.toNat e.flags } [e] ⟨e.lo, e.hi, e.value⟩ where
  current := rfl
  nonempty := List.cons_ne_nil _ _
  hash e' he' := by
    cases List.mem_singleton.mp he'
    exact ⟨rfl, rfl⟩
  lowest := ⟨⟨e, List.mem_cons_self, rfl⟩, fun e' he' => by
    cases List.mem_singleton.mp he'
    exact UInt8.le_refl _⟩
  runName := by simp
  run := rfl

theorem Open.note {s : Sealing} {row : SealedKey} (h : Open s run row)
    (hhash : row.lo = e.lo ∧ row.hi = e.hi) :
    Open { s with
      current := some (if e.value < row.value then { row with value := e.value } else row)
      runName := s.runName || isNameFlag e.flags
      run := s.run.note e.value.toNat e.flags } (run ++ [e])
      (if e.value < row.value then { row with value := e.value } else row) where
  current := rfl
  nonempty := by simp
  hash e' he' := by
    have hrow : row.lo = e'.lo ∧ row.hi = e'.hi := by
      rcases List.mem_append.mp he' with he' | he'
      · exact h.hash e' he'
      · cases List.mem_singleton.mp he'
        exact hhash
    split_ifs
    · exact hrow
    · exact hrow
  lowest := by
    obtain ⟨⟨low, hlow, hvalue⟩, hle⟩ := h.lowest
    split_ifs with hlt
    · refine ⟨⟨e, by simp, rfl⟩, fun e' he' => ?_⟩
      rcases List.mem_append.mp he' with he' | he'
      · exact UInt8.le_trans (UInt8.le_of_lt hlt) (hle e' he')
      · cases List.mem_singleton.mp he'
        exact UInt8.le_refl _
    · refine ⟨⟨low, List.mem_append_left _ hlow, hvalue⟩, fun e' he' => ?_⟩
      rcases List.mem_append.mp he' with he' | he'
      · exact hle e' he'
      · cases List.mem_singleton.mp he'
        exact UInt8.not_lt.mp hlt
  runName := by
    rw [List.any_append, ← h.runName, List.any_cons, List.any_nil, Bool.or_false]
  run := by
    rw [List.map_append, List.map_singleton, NameRun.of_append, ← h.run]

theorem Folding.fold {s s' : Sealing}
    (h : Folding options s done run)
    (hsorted : (done ++ run).Pairwise fun a b => HashSort.hash64 a ≤ HashSort.hash64 b)
    (hlast : ∀ e' ∈ done ++ run, HashSort.hash64 e' ≤ HashSort.hash64 e)
    (hfold : Sealing.fold options s e = .ok s') :
    ∃ done' run', Folding options s' done' run' ∧ done' ++ run' = done ++ run ++ [e] := by
  have hopens : (∀ e' ∈ done ++ run, HashSort.hash64 e' ≠ HashSort.hash64 e) → (do
        let s ← s.closeRun options
        return { s with
          current := some ⟨e.lo, e.hi, e.value⟩
          runName := isNameFlag e.flags
          run := NameRun.note {} e.value.toNat e.flags }) = Except.ok s' →
      ∃ done' run', Folding options s' done' run' ∧ done' ++ run' = done ++ run ++ [e] := by
    intro hapart hbind
    obtain ⟨closed, hclose, hrow⟩ := Throws.ok_of_bind hbind
    cases hrow
    have hclosed := h.closeRun hclose
    refine ⟨done ++ run, [e], ⟨hclosed, fun d hd r hr => ?_, Or.inr ⟨_, open_single closed e⟩⟩, rfl⟩
    rw [List.mem_singleton.mp hr]
    exact hapart d hd
  unfold Sealing.fold at hfold
  simp only at hfold
  rcases h.opened with ⟨hnone, rfl, rfl⟩ | ⟨row, hopen⟩
  · rw [hnone] at hfold
    exact hopens (fun _ he => nomatch he) hfold
  · rw [hopen.current] at hfold
    simp only at hfold
    by_cases hhash : row.lo = e.lo ∧ row.hi = e.hi
    · rw [if_pos hhash] at hfold
      cases hfold
      refine ⟨done, run ++ [e], ⟨h.closed, fun d hd r hr => ?_, Or.inr ⟨_, hopen.note hhash⟩⟩, (List.append_assoc ..).symm⟩
      rcases List.mem_append.mp hr with hr | hr
      · exact h.apart d hd r hr
      · -- The row has the hash of the run it joins.
        obtain ⟨r', hr'⟩ := List.exists_mem_of_ne_nil run hopen.nonempty
        obtain ⟨hlo, hhi⟩ := hopen.hash r' hr'
        rw [List.mem_singleton.mp hr, ← hash64_inj.mpr ⟨hlo.symm.trans hhash.1, hhi.symm.trans hhash.2⟩]
        exact h.apart d hd r' hr'
    · rw [if_neg hhash] at hfold
      refine hopens (fun e' he' heq => ?_) hfold
      obtain ⟨r, hr⟩ := List.exists_mem_of_ne_nil run hopen.nonempty
      have hrow : ∀ r ∈ run, HashSort.hash64 r ≠ HashSort.hash64 e := by
        intro r hr hre
        obtain ⟨hlo, hhi⟩ := hopen.hash r hr
        obtain ⟨hlo', hhi'⟩ := hash64_inj.mp hre
        exact hhash ⟨hlo.trans hlo', hhi.trans hhi'⟩
      rcases List.mem_append.mp he' with he' | he'
      · have hbelow := (List.pairwise_append.mp hsorted).2.2 e' he' r hr
        have habove := hlast r (List.mem_append_right _ hr)
        rw [heq] at hbelow
        exact hrow r hr (le_antisymm habove hbelow)
      · exact hrow e' he' heq

theorem Folding.foldlM {rest : List HashedEntry} {s s' : Sealing}
    (h : Folding options s done run)
    (hsorted : (done ++ run ++ rest).Pairwise fun a b => HashSort.hash64 a ≤ HashSort.hash64 b)
    (hfold : rest.foldlM (Sealing.fold options) s = .ok s') :
    ∃ done' run', Folding options s' done' run' ∧ done' ++ run' = done ++ run ++ rest := by
  induction rest generalizing s done run with
  | nil =>
    cases hfold
    exact ⟨done, run, h, (List.append_nil _).symm⟩
  | cons e rest ih =>
    rw [List.foldlM_cons] at hfold
    obtain ⟨s₁, hstep, hfold⟩ := Throws.ok_of_bind hfold
    obtain ⟨hbefore, -, hacross⟩ := List.pairwise_append.mp hsorted
    obtain ⟨done₁, run₁, h₁, heq⟩ := h.fold hbefore
      (fun e' he' => hacross e' he' e List.mem_cons_self) hstep
    have hsplit : done ++ run ++ e :: rest = done₁ ++ run₁ ++ rest := by
      rw [heq, List.append_assoc _ [e]]
      rfl
    rw [hsplit] at hsorted ⊢
    exact ih h₁ hsorted hfold

/-- **Every added hash is sealed to what all rows added with it come to.** -/
theorem seal_spec {acc acc' : RoutingKeyAccumulator} {host : Host} {keys : SealedRoutingKeys}
    (h : acc.seal host options = .ok (keys, acc')) :
    ∀ e ∈ acc.rows, ∃ row ∈ keys.keys, row.lo = e.lo ∧ row.hi = e.hi ∧
      SealsTo options (acc.rows.filter fun e' => HashSort.hash64 e' = HashSort.hash64 e)
        row.value := by
  unfold RoutingKeyAccumulator.seal at h
  simp only at h
  split at h
  · cases h
  split at h
  · cases h
  obtain ⟨folded, hfolded, h⟩ := Throws.ok_of_bind h
  obtain ⟨closed, hclosed, h⟩ := Throws.ok_of_bind h
  obtain ⟨u, -, h⟩ := Throws.ok_of_bind h
  cases h
  obtain ⟨hmoved, hsorted⟩ := HashSort.sortByHash_spec (le_refl acc.rows.length)
  have hperm := hmoved.perm le_rfl
  have hpairwise : (HashSort.sortByHash acc.rows acc.rows.length).Pairwise
      fun a b => HashSort.hash64 a ≤ HashSort.hash64 b := by
    refine List.pairwise_iff_getElem.mpr fun i j hi hj hij => ?_
    have hle := hsorted i j (Nat.zero_le i) hij (hmoved.length ▸ hj)
    simpa [TypedArray.read, hi, hj] using hle
  have hstart : Folding options {} [] [] :=
    ⟨(fun _ he => by cases he), (fun _ he => by cases he), Or.inl ⟨rfl, rfl, rfl⟩⟩
  obtain ⟨done, run, hfold, heq⟩ := hstart.foldlM hpairwise hfolded
  have hall := hfold.closeRun hclosed
  rw [heq] at hall
  intro e he
  obtain ⟨row, hrow, hlo, hhi, hseals⟩ := hall e (hperm.symm.subset he)
  exact ⟨row, hrow, hlo, hhi, hseals.of_perm (hperm.filter _)⟩

end Runs

end RoutingFilter