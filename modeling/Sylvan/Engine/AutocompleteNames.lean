-- SUMMARY: The rows a loaded names list answers autocomplete from, whatever format it was read from.
import Mathlib.Algebra.Order.BigOperators.Group.List
import Mathlib.Algebra.Order.Group.Nat
import Sylvan.Engine.Autocomplete
import Sylvan.Engine.NamesBlobUpgrade

/-!
# The rows of a names list

A load joins the collated names, a line each, and notes where each line starts. Formats 1 and
2 cut the names out of the text and join them anew; format 3 holds the joined names, and reads
them line by line.
-/

namespace Autocomplete

open NamesBlob RustStr Throws

variable {host : Host}

def lines (rows : List Row) : List Char := rows.flatMap fun row => row.collated ++ ['\n']

/-- The entry reads as the row, its spans read in these texts. -/
def ReadsRow (host : Host) (collated text : List Char) (e : Entry) (row : Row) : Prop :=
  sliceAt collated e.collated = .ok row.collated ∧ sliceAt text e.printed = .ok row.printed ∧ served host e = row.served

structure Holds (list : NameList host.Bits) (rows : List Row) : Prop where
  reads : List.Forall₂ (ReadsRow host list.collated list.text) list.entries rows
  collated : list.collated = lines rows
  breaks : ∀ row ∈ rows, '\n' ∉ row.collated
  starts : list.collatedStarts = startsFrom 0 (rows.map (·.collated))
  size : len list.collated < 2 ^ 32
  counts : list.trigramCounts.length = rows.length

def countsOf (rows : List Row) : List UInt32 := rows.map fun row => UInt32.ofNat (windowCount row.collated)

theorem lines_cons (row : Row) (rows : List Row) : lines (row :: rows) = row.collated ++ '\n' :: lines rows := by
  simp [lines]

theorem lines_concat (rows : List Row) (row : Row) : lines (rows ++ [row]) = lines rows ++ (row.collated ++ ['\n']) := by
  simp [lines]

variable {list : NameList host.Bits} {rows : List Row}

theorem Holds.rowsOf (h : Holds list rows) : rowsOf host list = .ok rows := by
  refine mapM_of_forall₂ (h.reads.imp fun e row hread => ?_)
  obtain ⟨hcollated, hprinted, hserved⟩ := hread
  rw [NameList.atCollated, NameList.atText, bind_ok hcollated, bind_ok hprinted, hserved]
  rfl

/-! ## Formats 1 and 2 -/

section

variable {header body text : List Char}

theorem sliceAt_field {line field : ℕ × List Char} (hlen : len (header ++ body) < 2 ^ 32)
    (hline : line ∈ pieces '\n' (len header) body) (hfield : field ∈ pieces '\t' line.1 line.2) :
    sliceAt (header ++ body) (fieldSpan field) = .ok field.2 ∧ len field.2 ≤ len line.2 := by
  obtain ⟨x, y, hbody, hat⟩ := pieces_at rfl hline
  obtain ⟨x', y', hwhole, hat'⟩ := pieces_at rfl hfield
  have htext : header ++ body = header ++ x ++ x' ++ (field.2 ++ (y' ++ y)) := by
    rw [hbody, hwhole]
    simp only [List.append_assoc]
  have hplace : field.1 = len (header ++ x ++ x') := by
    rw [hat', hat, len_append, len_append]
  constructor
  · rw [htext, fieldSpan, hplace]
    refine sliceAt_eq ?_ _
    rw [htext] at hlen
    simp only [len_append] at hlen ⊢
    omega
  · rw [hwhole, len_append, len_append]
    omega

def EntryOf (parse : Records → ℕ × List Char → Checked Records) : Prop :=
  ∀ {records line records'}, parse records line = .ok records' →
    ∃ (e : Entry) (collated printed : ℕ × List Char), records'.entries = records.entries ++ [e] ∧
      collated ∈ pieces '\t' line.1 line.2 ∧ printed ∈ pieces '\t' line.1 line.2 ∧
      e.collated = fieldSpan collated ∧ e.printed = fieldSpan printed

theorem parsePair_entry : EntryOf (parsePair host) := by
  intro records line records' h
  unfold parsePair at h
  simp only at h
  split at h
  · next collated printed hpieces =>
      obtain rfl := Except.ok.inj h
      refine ⟨_, collated, printed, rfl, ?_, ?_, rfl, rfl⟩ <;> simp [hpieces]
  · cases h

theorem parseRecord_entry : EntryOf (parseRecord host) := by
  intro records line records' h
  unfold parseRecord at h
  simp only at h
  split at h
  · next part flags collated printed lower folded keys hpieces =>
      obtain ⟨_, -, h⟩ := ok_of_bind h
      obtain ⟨⟨_, _⟩, -, h⟩ := ok_of_bind h
      obtain ⟨_, -, h⟩ := ok_of_bind h
      obtain rfl := Except.ok.inj h
      refine ⟨_, collated, printed, rfl, ?_, ?_, rfl, rfl⟩ <;> simp [hpieces]
  · cases h

theorem entries_read {parse : Records → ℕ × List Char → Checked Records} (hparse : EntryOf parse)
    (hlen : len (header ++ body) < 2 ^ 32) {todo : List (ℕ × List Char)}
    (htodo : ∀ line ∈ todo, line ∈ pieces '\n' (len header) body) {records records' : Records}
    (h : todo.foldlM parse records = .ok records') :
    ∃ (new : List Entry) (rows : List Row), records'.entries = records.entries ++ new ∧
      List.Forall₂ (ReadsRow host (header ++ body) (header ++ body)) new rows ∧
      len (lines rows) ≤ (todo.map fun line => len line.2 + 1).sum := by
  induction todo generalizing records with
  | nil =>
    obtain rfl := Except.ok.inj h
    exact ⟨[], [], (List.append_nil _).symm, .nil, Nat.le_refl _⟩
  | cons line todo ih =>
    rw [List.foldlM_cons] at h
    obtain ⟨next, hnext, hrest⟩ := ok_of_bind h
    obtain ⟨e, collated, printed, hentries, hcollated, hprinted, hspan, hspan'⟩ := hparse hnext
    obtain ⟨new, rows, hall, hreads, hsum⟩ := ih (fun line hline => htodo line (List.mem_cons_of_mem _ hline)) hrest
    obtain ⟨hslice, hshort⟩ := sliceAt_field hlen (htodo line List.mem_cons_self) hcollated
    obtain ⟨hslice', -⟩ := sliceAt_field hlen (htodo line List.mem_cons_self) hprinted
    refine ⟨e :: new, ⟨collated.2, printed.2, served host e⟩ :: rows, ?_, ?_, ?_⟩
    · rw [hall, hentries, List.append_assoc]
      rfl
    · refine .cons ⟨?_, ?_, rfl⟩ hreads
      · rw [hspan, hslice]
      · rw [hspan', hslice']
    · rw [lines_cons, len_append, len_cons, List.map_cons, List.sum_cons]
      have hone : (Utf8.encodeChar '\n').length = 1 := rfl
      simp only
      omega

theorem joinEntries_ok {entries : List Entry} {joined joined' : Joined}
    (hreads : List.Forall₂ (ReadsRow host text text) entries rows)
    (h : entries.foldlM (joinEntry text) joined = .ok joined') :
    (∀ row ∈ rows, '\n' ∉ row.collated) ∧ joined'.collated = joined.collated ++ lines rows ∧
      joined'.counts = joined.counts ++ countsOf rows ∧
      joined'.starts = joined.starts ++ startsFrom (len joined.collated) (rows.map (·.collated)) ∧
      ∃ new, joined'.entries = joined.entries ++ new ∧ (len joined'.collated < 2 ^ 32 →
        List.Forall₂ (ReadsRow host joined'.collated text) new rows) := by
  induction hreads generalizing joined with
  | nil =>
    obtain rfl := Except.ok.inj h
    refine ⟨by simp, ?_, ?_, ?_, [], ?_, fun _ => .nil⟩ <;> simp [lines, countsOf, startsFrom]
  | @cons e row entries rows hread _ ih =>
    obtain ⟨hcollated, hprinted, hserved⟩ := hread
    rw [List.foldlM_cons] at h
    obtain ⟨next, hnext, hrest⟩ := ok_of_bind h
    rw [joinEntry, bind_ok hcollated] at hnext
    obtain ⟨_, hbreak, hnext⟩ := ok_of_bind hnext
    have hbreak : '\n' ∉ row.collated := by simpa using refuse_ok hbreak
    obtain rfl := Except.ok.inj hnext
    obtain ⟨hbreaks, hall, hcounts, hstarts, new, hentries, hnew⟩ := ih hrest
    simp only at hall hcounts hstarts hentries
    have hline : len (joined.collated ++ row.collated ++ ['\n']) = len joined.collated + len row.collated + 1 := by
      simp only [len_append, len_newline]
    have hwhole : joined'.collated = joined.collated ++ (row.collated ++ '\n' :: lines rows) := by
      rw [hall]
      simp
    refine ⟨?_, ?_, ?_, ?_, { e with collated := (push joined.collated row.collated).2 } :: new, ?_, fun hlen => .cons ⟨?_, hprinted, hserved⟩ (hnew hlen)⟩
    · intro row' hrow'
      cases List.mem_cons.mp hrow' with
      | inl hfirst => rw [hfirst]; exact hbreak
      | inr hlater => exact hbreaks row' hlater
    · rw [hwhole, lines_cons]
    · rw [hcounts, countsOf, countsOf, List.map_cons, List.append_assoc]
      rfl
    · rw [hstarts, hline, List.map_cons, startsFrom, List.append_assoc]
      rfl
    · rw [hentries, List.append_assoc]
      rfl
    · -- The name stands behind those joined before it, and what is joined later stands behind it.
      rw [hwhole]
      rw [hwhole, len_append, len_append] at hlen
      exact sliceAt_push (by rw [len_append]; omega) _

theorem parseLines_holds {format : UInt8} (hheader : header ≠ [])
    (h : parseLines host format header (header ++ body) = .ok list) :
    ∃ rows, Holds list rows ∧ list.trigramCounts = countsOf rows := by
  obtain ⟨_, hsize, h⟩ := ok_of_bind h
  have hsize : len (header ++ body) < 2 ^ 32 := Nat.lt_of_not_le (refuse_ok hsize)
  obtain ⟨_, -, h⟩ := ok_of_bind h
  obtain ⟨records, hrecords, h⟩ := ok_of_bind h
  obtain ⟨joined, hjoined, h⟩ := ok_of_bind h
  obtain ⟨signatures, -, h⟩ := ok_of_bind h
  obtain rfl := Except.ok.inj h
  rw [List.drop_left] at hrecords
  have hparse : EntryOf (if format = 1 then parsePair host else parseRecord host) := by
    split
    · exact parsePair_entry
    · exact parseRecord_entry
  have hsub := piecesTerminated_sublist '\n' (len header) body
  obtain ⟨new, rows, hentries, hreads, hsum⟩ := @entries_read host _ _ _ hparse hsize _ (fun line hline => hsub.subset hline) _ _ hrecords
  rw [List.nil_append] at hentries
  rw [hentries] at hjoined
  obtain ⟨hbreaks, hcollated, hcounts, hstarts, entries, hjoin, hnew⟩ := joinEntries_ok hreads hjoined
  simp only [List.nil_append] at hcollated hcounts hstarts hjoin
  have hlen : len joined.collated < 2 ^ 32 := by
    have hlines := pieces_len (show (Utf8.encodeChar '\n').length = 1 from rfl) (len header) body
    have hle := (hsub.map fun p => len p.2 + 1).sum_le_sum (by simp)
    have hpos := Nat.pos_of_ne_zero fun hzero => hheader (eq_nil_of_len hzero)
    rw [len_append] at hsize
    rw [hcollated]
    omega
  refine ⟨rows, ⟨?_, hcollated, hbreaks, hstarts, hlen, ?_⟩, hcounts⟩
  · rw [hjoin]
    exact hnew hlen
  · rw [hcounts, countsOf, List.length_map]

end

/-! ## Format 3 -/

section

variable {s collated text stored : List Char} {keyBits : List UInt8}

theorem nextLine_ok {start next : ℕ} {what : String} {span : Span} (hlen : len s < 2 ^ 32)
    (h : nextLine s start what = .ok (span, next)) :
    ∃ x w y, s = x ++ (w ++ '\n' :: y) ∧ len x = start ∧ '\n' ∉ w ∧ sliceAt s span = .ok w ∧
      span.1 = UInt32.ofNat start ∧ next = start + len w + 1 := by
  rw [nextLine] at h
  cases hfrom : sliceFrom s start with
  | none =>
    rw [hfrom] at h
    cases h
  | some rest =>
    rw [hfrom] at h
    simp only at h
    obtain ⟨x, rfl, rfl⟩ := sliceFrom_eq_some hfrom
    by_cases hbreak : rest.contains '\n' = true
    · rw [if_pos hbreak] at h
      obtain ⟨hspan, rfl⟩ := Prod.mk.inj (Except.ok.inj h)
      have hin : '\n' ∈ rest := List.contains_iff_mem.mp hbreak
      obtain ⟨w, y, hrest, hw⟩ := List.eq_append_cons_of_mem hin
      have htake : rest.takeWhile (· != '\n') = w := by
        rw [hrest, List.takeWhile_append_of_pos]
        · simp
        · intro c hc
          simp only [bne_iff_ne, ne_eq]
          rintro rfl
          exact hw hc
      rw [htake] at hspan ⊢
      refine ⟨x, w, y, by rw [hrest], rfl, hw, ?_, by rw [← hspan], rfl⟩
      rw [hrest, ← hspan]
      refine sliceAt_eq ?_ _
      rw [hrest] at hlen
      simp only [len_append] at hlen ⊢
      omega
    · rw [if_neg hbreak] at h
      cases h

structure Loaded (host : Host) (collated text : List Char) (reading : Reading host.Bits) (rows : List Row) : Prop where
  reads : List.Forall₂ (ReadsRow host collated text) reading.entries rows
  front : lines rows <+: collated
  stands : reading.atCollated = len (lines rows)
  breaks : ∀ row ∈ rows, '\n' ∉ row.collated
  starts : reading.collatedStarts = startsFrom 0 (rows.map (·.collated))
  counts : reading.trigramCounts.length = rows.length

theorem readRow_loaded {reading reading' : Reading host.Bits} {columns : NamesBlob.Row}
    (hcollated : len collated < 2 ^ 32) (htext : len text < 2 ^ 32) (hloaded : Loaded host collated text reading rows)
    (h : readRow host collated text stored keyBits reading columns = .ok reading') :
    ∃ row, Loaded host collated text reading' (rows ++ [row]) := by
  obtain ⟨⟨name, atCollated⟩, hname, h⟩ := ok_of_bind h
  obtain ⟨collatedName, hcut, h⟩ := ok_of_bind h
  obtain ⟨⟨printed, atText⟩, hprinted, h⟩ := ok_of_bind h
  obtain ⟨⟨_, flavor⟩, -, h⟩ := ok_of_bind h
  obtain ⟨⟨lowerName, atStored⟩, -, h⟩ := ok_of_bind h
  obtain ⟨⟨folded, atStored'⟩, -, h⟩ := ok_of_bind h
  obtain ⟨foldedName, -, h⟩ := ok_of_bind h
  obtain rfl := Except.ok.inj h
  obtain ⟨x, w, y, hsplit, hx, hbreak, hw, hstart, rfl⟩ := nextLine_ok hcollated hname
  obtain ⟨_, printedName, _, -, -, -, hprintedName, -, -⟩ := nextLine_ok htext hprinted
  obtain ⟨rest, hfront⟩ := hloaded.front
  -- The line read stands where the lines before it end.
  obtain rfl : x = lines rows := by
    have hsame : lines rows ++ rest = x ++ (w ++ '\n' :: y) := hfront.trans hsplit
    have hfrom := sliceFrom_append (lines rows) rest
    rw [hsame, ← hloaded.stands, ← hx, sliceFrom_append] at hfrom
    rw [← Option.some.inj hfrom] at hsame
    exact (List.append_cancel_right hsame).symm
  refine ⟨⟨w, printedName, columns.classes &&& host.CLASS_EXTRA_GATE ≠ 0⟩, ?_, ?_, ?_, ?_, ?_, ?_⟩
  · exact List.rel_append hloaded.reads (.cons ⟨hw, hprintedName, rfl⟩ .nil)
  · rw [lines_concat, hsplit]
    exact ⟨y, by simp⟩
  · simp only [lines_concat, hloaded.stands, len_append, len_newline, Nat.add_assoc]
  · intro row hrow
    cases List.mem_append.mp hrow with
    | inl hbefore => exact hloaded.breaks row hbefore
    | inr hlast => rw [List.mem_singleton.mp hlast]; exact hbreak
  · simp only [hloaded.starts, List.map_append, List.map_cons, List.map_nil, startsFrom_concat, Nat.zero_add, hstart,
      hloaded.stands]
    rw [lines, List.flatMap_map]
  · simp only [List.length_append, hloaded.counts, List.length_singleton]

theorem readRows_loaded {reading reading' : Reading host.Bits} {columns : List NamesBlob.Row}
    (hcollated : len collated < 2 ^ 32) (htext : len text < 2 ^ 32) (hloaded : Loaded host collated text reading rows)
    (h : columns.foldlM (readRow host collated text stored keyBits) reading = .ok reading') :
    ∃ rows', Loaded host collated text reading' rows' := by
  induction columns generalizing reading rows with
  | nil =>
    obtain rfl := Except.ok.inj h
    exact ⟨rows, hloaded⟩
  | cons column columns ih =>
    rw [List.foldlM_cons] at h
    obtain ⟨next, hnext, hrest⟩ := ok_of_bind h
    obtain ⟨row, hnext⟩ := readRow_loaded hcollated htext hloaded hnext
    exact ih hnext hrest

theorem takeU32_lt {what : String} {bytes rest : Bytes} {n : ℕ} (h : takeU32 what bytes = .ok (n, rest)) : n < 2 ^ 32 := by
  obtain ⟨⟨b, _⟩, htake, h⟩ := ok_of_bind h
  obtain ⟨rfl, -⟩ := Prod.mk.inj (Except.ok.inj h)
  rw [takeBytes] at htake
  split at htake
  · next hle =>
      obtain ⟨rfl, -⟩ := Prod.mk.inj (Except.ok.inj htake)
      have hlt := Bytes.toNatLE_lt (bytes.take 4)
      rw [List.length_take, Nat.min_eq_left hle] at hlt
      exact hlt
  · cases htake

theorem takeString_len {n : ℕ} {what : String} {bytes rest : Bytes} (h : takeString host n what bytes = .ok (s, rest)) :
    len s = n := by
  obtain ⟨⟨b, _⟩, htake, h⟩ := ok_of_bind h
  rw [takeBytes] at htake
  split at htake
  · next hle =>
      obtain ⟨rfl, -⟩ := Prod.mk.inj (Except.ok.inj htake)
      cases hutf8 : fromUtf8 (bytes.take n) with
      | none =>
        simp only [hutf8] at h
        cases h
      | some t =>
        simp only [hutf8] at h
        obtain ⟨rfl, -⟩ := Prod.mk.inj (Except.ok.inj h)
        rw [len, utf8_of_fromUtf8 hutf8, List.length_take, Nat.min_eq_left hle]
  · cases htake

theorem parseV3_holds {raw : Bytes} (h : parseV3 host raw = .ok list) : ∃ rows, Holds list rows := by
  unfold parseV3 at h
  obtain ⟨⟨_, _⟩, -, h⟩ := ok_of_bind h
  obtain ⟨⟨_, _⟩, -, h⟩ := ok_of_bind h
  obtain ⟨⟨collatedLen, _⟩, hcollatedLen, h⟩ := ok_of_bind h
  obtain ⟨⟨textLen, _⟩, htextLen, h⟩ := ok_of_bind h
  obtain ⟨⟨_, _⟩, -, h⟩ := ok_of_bind h
  obtain ⟨⟨collated, _⟩, hcollated, h⟩ := ok_of_bind h
  obtain ⟨⟨text, _⟩, htext, h⟩ := ok_of_bind h
  iterate 9 obtain ⟨⟨_, _⟩, -, h⟩ := ok_of_bind h
  obtain ⟨_, -, h⟩ := ok_of_bind h
  obtain ⟨reading, hreading, h⟩ := ok_of_bind h
  obtain ⟨_, hends, h⟩ := ok_of_bind h
  obtain ⟨_, -, h⟩ := ok_of_bind h
  obtain rfl := Except.ok.inj h
  have hsize : len collated < 2 ^ 32 := by
    rw [takeString_len hcollated]
    exact takeU32_lt hcollatedLen
  have hsize' : len text < 2 ^ 32 := by
    rw [takeString_len htext]
    exact takeU32_lt htextLen
  have hnil : Loaded host collated text ⟨0, 0, 0, [], [], [], [], [], []⟩ [] :=
    ⟨.nil, List.nil_prefix, rfl, by simp, rfl, rfl⟩
  obtain ⟨rows, hloaded⟩ := readRows_loaded hsize hsize' hnil hreading
  have hends := refuse_ok hends
  obtain ⟨rest, hrest⟩ := hloaded.front
  have hall : collated = lines rows := by
    have hstop : reading.atCollated = len collated := by
      by_contra hne
      exact hends (.inl hne)
    rw [hloaded.stands, ← hrest, len_append] at hstop
    have hnone : rest = [] := eq_nil_of_len (by omega)
    rw [← hrest, hnone, List.append_nil]
  exact ⟨rows, hloaded.reads, hall, hloaded.breaks, hloaded.starts, hsize, hloaded.counts⟩

end

/-- **Whatever its format, a list that parses holds rows**, and formats 1 and 2 count their windows. -/
theorem parse_holds {raw : Bytes} (h : parse host raw = .ok list) :
    ∃ rows, Holds list rows ∧ (list.format ≠ 3 → list.trigramCounts = countsOf rows) := by
  rw [parse] at h
  split at h
  · obtain ⟨rows, hrows⟩ := parseV3_holds h
    exact ⟨rows, hrows, fun hformat => absurd (parseV3_format h) hformat⟩
  split at h
  · cases h
  split at h
  · next hheader =>
      obtain ⟨body, rfl⟩ := hheader
      obtain ⟨rows, hrows, hcounts⟩ := parseLines_holds (by decide) h
      exact ⟨rows, hrows, fun _ => hcounts⟩
  split at h
  · next hheader =>
      obtain ⟨body, rfl⟩ := hheader
      obtain ⟨rows, hrows, hcounts⟩ := parseLines_holds (by decide) h
      exact ⟨rows, hrows, fun _ => hcounts⟩
  · cases h

/-! ## What the encoder writes -/

def Counted (host : Host) (list : NameList host.Bits) : Prop :=
  ∀ rows, rowsOf host list = .ok rows → list.trigramCounts = countsOf rows

end Autocomplete
