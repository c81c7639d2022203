-- SUMMARY: How a loaded list's spans follow one another in its strings.
import Sylvan.Data.Throws
import Sylvan.Engine.NamesBlob

/-!
# The tables of a load

A load writes its strings entry by entry, so that where an entry's span ends the next
one's starts. What a list says of its entries is read through these spans.
-/

namespace NamesBlob

open RustStr Throws

/-! ## Entry by entry -/

section

variable {σ α β : Type} {step : σ → α → σ → Prop} {s m t : σ} {as bs : List α} {a : α}

def Follow (step : σ → α → σ → Prop) (s : σ) : List α → σ → Prop
  | [], t => s = t
  | a :: as, t => ∃ m, step s a m ∧ Follow step m as t

theorem Follow.concat (h : Follow step s as m) (ha : step m a t) : Follow step s (as ++ [a]) t := by
  induction as generalizing s with
  | nil =>
    obtain rfl : s = m := h
    exact ⟨t, ha, rfl⟩
  | cons b as ih =>
    obtain ⟨n, hb, hrest⟩ := h
    exact ⟨n, hb, ih hrest⟩

theorem Follow.congr {step' : σ → β → σ → Prop} {R : α → β → Prop} {bs : List β}
    (hR : List.Forall₂ R as bs) (hstep : ∀ {s t a b}, R a b → step s a t → step' s b t)
    (h : Follow step s as t) : Follow step' s bs t := by
  induction hR generalizing s with
  | nil => exact h
  | cons hab _ ih =>
    obtain ⟨m, ha, hrest⟩ := h
    exact ⟨m, hstep hab ha, ih hrest⟩

end

/-! ## The steps of a load -/

variable {host : Host}

/-- An entry's derived names stand one behind the other, or are one. -/
def DerivedStep (start : UInt32) (e : Entry) (stop : UInt32) : Prop :=
  e.lower.1 = start ∧ (e.folded = e.lower ∧ e.lower.2 = stop ∨ e.folded.1 = e.lower.2 ∧ e.folded.2 = stop)

/-- An entry's flavor keys stand one behind the other. -/
def FlavorStep (start : ℕ) (e : Entry) (stop : ℕ) : Prop :=
  start ≤ stop ∧ e.flavorFrom = UInt32.ofNat start ∧ e.flavorLen = UInt32.ofNat stop - UInt32.ofNat start

/-- An entry's collated name is a line of the haystack. -/
def CollatedStep (front : List Char) (e : Entry) (next : List Char) : Prop :=
  ∃ name, '\n' ∉ name ∧ e.collated = (push front name).2 ∧ next = front ++ name ++ ['\n']

theorem parseKeys_length {n : ℕ} {keys : ℕ × List Char}
    {flavor flavor' : List (UInt32 × UInt32 × UInt8)}
    (h : parseKeys host n keys flavor = .ok flavor') : flavor.length ≤ flavor'.length := by
  rw [parseKeys] at h
  split at h
  · cases h
    exact Nat.le_refl _
  · generalize pieces ',' keys.1 keys.2 = ps at h
    induction ps generalizing flavor with
    | nil =>
      cases h
      exact Nat.le_refl _
    | cons p ps ih =>
      rw [List.foldlM_cons] at h
      obtain ⟨next, hnext, hrest⟩ := ok_of_bind h
      have hle := ih hrest
      split at hnext
      · cases hnext
      · obtain ⟨bits, -, hbits⟩ := ok_of_bind hnext
        cases hbits
        simp only [List.length_append, List.length_singleton] at hle
        omega

theorem refuse_ok {c : Prop} [Decidable c] {message : String} {u : Unit}
    (h : refuse c message = .ok u) : ¬ c := by
  rw [refuse] at h
  split at h
  · cases h
  · assumption

theorem orPanic_ok {α : Type} {x : Option α} {a : α} (h : orPanic x = .ok a) : x = some a := by
  cases x with
  | none => cases h
  | some b =>
    obtain rfl := Except.ok.inj h
    rfl

theorem pushNames_step (derived printed lower folded : List Char) {e : Entry}
    (hlower : e.lower = (pushNames host derived printed lower folded).2.1)
    (hfolded : e.folded = (pushNames host derived printed lower folded).2.2) :
    DerivedStep (UInt32.ofNat (len derived)) e
      (UInt32.ofNat (len (pushNames host derived printed lower folded).1)) := by
  rw [pushNames] at hlower hfolded ⊢
  by_cases hempty : folded.isEmpty
  · simp only [hempty, if_true] at hlower hfolded ⊢
    rw [DerivedStep, hfolded, hlower]
    exact ⟨rfl, .inl ⟨rfl, rfl⟩⟩
  · simp only [hempty] at hlower hfolded ⊢
    rw [DerivedStep, hfolded, hlower]
    exact ⟨rfl, .inr ⟨rfl, rfl⟩⟩

theorem parseRecord_ok {records records' : Records} {line : ℕ × List Char}
    (h : parseRecord host records line = .ok records') :
    ∃ e, records'.entries = records.entries ++ [e] ∧
      DerivedStep (UInt32.ofNat (len records.derived)) e (UInt32.ofNat (len records'.derived)) ∧
      FlavorStep records.flavor.length e records'.flavor.length := by
  unfold parseRecord at h
  simp only at h
  split at h
  · obtain ⟨part, -, h⟩ := ok_of_bind h
    obtain ⟨⟨classes, best⟩, -, h⟩ := ok_of_bind h
    obtain ⟨flavor, hflavor, h⟩ := ok_of_bind h
    obtain rfl := Except.ok.inj h
    exact ⟨_, rfl, pushNames_step _ _ _ _ rfl rfl, parseKeys_length hflavor, rfl, rfl⟩
  · cases h

/-- Where the records of format 2 stand in what was read. -/
def RecordsLaid (records : Records) : Prop :=
  Follow DerivedStep 0 records.entries (UInt32.ofNat (len records.derived)) ∧
    Follow FlavorStep 0 records.entries records.flavor.length

theorem recordsLaid_nil : RecordsLaid ⟨[], [], []⟩ := ⟨rfl, rfl⟩

theorem recordsLaid_foldlM {lines : List (ℕ × List Char)} {records records' : Records}
    (hrecords : RecordsLaid records) (h : lines.foldlM (parseRecord host) records = .ok records') :
    RecordsLaid records' := by
  induction lines generalizing records with
  | nil =>
    obtain rfl := Except.ok.inj h
    exact hrecords
  | cons line lines ih =>
    rw [List.foldlM_cons] at h
    obtain ⟨next, hnext, hrest⟩ := ok_of_bind h
    obtain ⟨e, hentries, hderived, hflavor⟩ := parseRecord_ok hnext
    refine ih ⟨?_, ?_⟩ hrest
    · rw [hentries]
      exact hrecords.1.concat hderived
    · rw [hentries]
      exact hrecords.2.concat hflavor

/-! ## The haystack -/

/-- An entry but for where its collated name stands. -/
def SameRecord (e e' : Entry) : Prop := e' = { e with collated := e'.collated }

/-- What the entries `done` so far hold in the haystack. -/
structure JoinedLaid (done : List Entry) (joined : Joined) : Prop where
  same : List.Forall₂ SameRecord done joined.entries
  collated : Follow CollatedStep [] joined.entries joined.collated
  starts : joined.starts = joined.entries.map (·.collated.1)
  counts : joined.counts.length = joined.entries.length

theorem joinedLaid_nil : JoinedLaid [] ⟨[], [], [], []⟩ where
  same := .nil
  collated := rfl
  starts := rfl
  counts := rfl

theorem joinEntry_laid {text : List Char} {done : List Entry} {joined joined' : Joined} {e : Entry}
    (hjoined : JoinedLaid done joined) (h : joinEntry text joined e = .ok joined') :
    JoinedLaid (done ++ [e]) joined' := by
  obtain ⟨name, -, h⟩ := ok_of_bind h
  obtain ⟨_, hbreak, h⟩ := ok_of_bind h
  have hbreak := refuse_ok hbreak
  obtain rfl := Except.ok.inj h
  exact {
    same := List.rel_append hjoined.same (.cons rfl .nil)
    collated := hjoined.collated.concat ⟨name, by simpa using hbreak, rfl, rfl⟩
    starts := by simp [hjoined.starts]
    counts := by simp [hjoined.counts] }

theorem joinedLaid_foldlM {text : List Char} {entries done : List Entry} {joined joined' : Joined}
    (hjoined : JoinedLaid done joined)
    (h : entries.foldlM (joinEntry text) joined = .ok joined') :
    JoinedLaid (done ++ entries) joined' := by
  induction entries generalizing done joined with
  | nil =>
    obtain rfl := Except.ok.inj h
    simpa using hjoined
  | cons e entries ih =>
    rw [List.foldlM_cons] at h
    obtain ⟨next, hnext, hrest⟩ := ok_of_bind h
    have := ih (joinEntry_laid hjoined hnext) hrest
    simpa using this

/-! ## A loaded list -/

/-- How the tables of a format-2 load hang together. -/
structure Laid (host : Host) (list : NameList host.Bits) : Prop where
  derived : Follow DerivedStep 0 list.entries (UInt32.ofNat (len list.derived))
  flavor : Follow FlavorStep 0 list.entries list.flavor.length
  collated : Follow CollatedStep [] list.entries list.collated
  starts : list.collatedStarts = list.entries.map (·.collated.1)
  counts : list.trigramCounts.length = list.entries.length
  signatures : signaturesOf host 2 list.derived list.entries = .ok list.signatures

variable {list : NameList host.Bits}

theorem parseLines_laid {header text : List Char}
    (h : parseLines host 2 header text = .ok list) : Laid host list := by
  obtain ⟨_, -, h⟩ := ok_of_bind h
  obtain ⟨_, -, h⟩ := ok_of_bind h
  obtain ⟨records, hrecords, h⟩ := ok_of_bind h
  obtain ⟨joined, hjoined, h⟩ := ok_of_bind h
  obtain ⟨signatures, hsignatures, h⟩ := ok_of_bind h
  obtain rfl := Except.ok.inj h
  have hlaid := recordsLaid_foldlM recordsLaid_nil hrecords
  have hjoin := joinedLaid_foldlM joinedLaid_nil hjoined
  exact {
    derived := hlaid.1.congr hjoin.same fun {s t e e'} hsame hstep => by
      rw [hsame]
      exact hstep
    flavor := hlaid.2.congr hjoin.same fun {s t e e'} hsame hstep => by
      rw [hsame]
      exact hstep
    collated := hjoin.collated
    starts := hjoin.starts
    counts := hjoin.counts
    signatures := hsignatures }

theorem parseLines_format {format : UInt8} {header text : List Char}
    (h : parseLines host format header text = .ok list) : list.format = format := by
  obtain ⟨_, -, h⟩ := ok_of_bind h
  obtain ⟨_, -, h⟩ := ok_of_bind h
  obtain ⟨_, -, h⟩ := ok_of_bind h
  obtain ⟨_, -, h⟩ := ok_of_bind h
  obtain ⟨_, -, h⟩ := ok_of_bind h
  obtain rfl := Except.ok.inj h
  rfl

theorem parseV3_format {raw : Bytes}
    (h : parseV3 host raw = .ok list) : list.format = 3 := by
  unfold parseV3 at h
  iterate 16 obtain ⟨⟨_, _⟩, -, h⟩ := ok_of_bind h
  obtain ⟨_, -, h⟩ := ok_of_bind h
  obtain ⟨_, -, h⟩ := ok_of_bind h
  obtain ⟨_, -, h⟩ := ok_of_bind h
  obtain ⟨_, -, h⟩ := ok_of_bind h
  obtain rfl := Except.ok.inj h
  rfl

theorem parse_laid {raw : Bytes} (h : parse host raw = .ok list)
    (hformat : list.format = 2) : Laid host list := by
  rw [parse] at h
  split at h
  · rw [parseV3_format h] at hformat
    cases hformat
  split at h
  · cases h
  split at h
  · rw [parseLines_format h] at hformat
    cases hformat
  split at h
  · exact parseLines_laid h
  · cases h

end NamesBlob
