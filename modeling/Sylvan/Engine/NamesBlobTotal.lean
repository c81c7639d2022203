-- SUMMARY: When the card-names parser panics: on a flags field cut inside a character, and on nothing else.
import Mathlib.Algebra.Order.BigOperators.Group.List
import Mathlib.Algebra.Order.Ring.Nat
import Sylvan.Engine.NamesBlobUpgrade

/-!
# The parser's panics

The parser slices its text by byte offsets it found in the text itself, or by lengths the
blob declares and it checks. One slice is at a fixed offset: the flags field, checked to be
three bytes and then cut after two.
-/

namespace NamesBlob

open RustStr Throws

variable {host : Host}

/-- The step returns what `P` holds of, or an error; it does not panic. -/
abbrev Steady {α : Type} (P : α → Prop) (x : Checked α) : Prop := Ends (fun fault => fault ≠ .panic) P x

theorem refuse_steady (c : Prop) [Decidable c] (message : String) : Steady (fun _ => True) (refuse c message) := by
  unfold refuse
  split
  · nofun
  · trivial

/-! ## Lines -/

def Hex (field : List Char) : Prop := (fromStrRadix 16 0xffffffff field).isSome

def GoodFlags (flags : List Char) : Prop :=
  len flags = 3 ∧ ∃ front back, sliceTo flags 2 = some front ∧ sliceFrom flags 2 = some back ∧ Hex front ∧ Hex back

def GoodKeys (keys : ℕ × List Char) : Prop :=
  keys.2 = [] ∨ ∀ key ∈ pieces ',' keys.1 keys.2, ∃ name bits, rsplitOnce ':' key.2 = some (name, bits) ∧ Hex bits

/-- The seven fields of a line, of which the first is a partition. -/
structure Fields where
  partition : ℕ × List Char
  flags : ℕ × List Char
  collated : ℕ × List Char
  printed : ℕ × List Char
  lower : ℕ × List Char
  folded : ℕ × List Char
  keys : ℕ × List Char
  good : (fromStrRadix 10 0xffff partition.2).isSome

def Fields.list (f : Fields) : List (ℕ × List Char) :=
  [f.partition, f.flags, f.collated, f.printed, f.lower, f.folded, f.keys]

def Accepted (line : ℕ × List Char) : Prop :=
  ∃ f : Fields, pieces '\t' line.1 line.2 = f.list ∧ GoodFlags f.flags.2 ∧ GoodKeys f.keys

/-- A line whose flags are three bytes, the second of which does not end a character. -/
def CutsFlags (line : ℕ × List Char) : Prop :=
  ∃ f : Fields, pieces '\t' line.1 line.2 = f.list ∧ len f.flags.2 = 3 ∧ sliceTo f.flags.2 2 = none

theorem not_ok_of_error {α : Type} {fault : Fault} : ¬ ∃ a : α, (.error fault : Checked α) = .ok a := by
  rintro ⟨_, h⟩
  cases h

theorem hex_ok {field : List Char} {n : ℕ} : (∃ v, hex host field n = .ok v) ↔ Hex field := by
  unfold hex Hex
  cases fromStrRadix 16 0xffffffff field with
  | none => exact ⟨fun h => absurd h not_ok_of_error, nofun⟩
  | some v => exact ⟨fun _ => rfl, fun _ => ⟨_, rfl⟩⟩

theorem hex_steady (field : List Char) (n : ℕ) : Steady (fun _ => True) (hex host field n) := by
  unfold hex
  cases fromStrRadix 16 0xffffffff field with
  | none => nofun
  | some v => trivial

theorem parseKeys_steady (host : Host) (n : ℕ) (keys : ℕ × List Char) (flavor : List (UInt32 × UInt32 × UInt8)) :
    Steady (fun _ => True) (parseKeys host n keys flavor) := by
  unfold parseKeys
  split
  · trivial
  · apply Ends.foldlM (I := fun _ _ => True)
    · intro key rest flavor _
      split
      · nofun
      · exact (hex_steady _ n).bind fun _ _ => trivial
    · trivial

theorem parseKeys_ok {n : ℕ} {keys : ℕ × List Char} {flavor : List (UInt32 × UInt32 × UInt8)} :
    (∃ flavor', parseKeys host n keys flavor = .ok flavor') ↔ GoodKeys keys := by
  unfold parseKeys GoodKeys
  by_cases hempty : keys.2 = []
  · simp [hempty]
  · rw [if_neg (by simpa using hempty), or_iff_right hempty]
    generalize pieces ',' keys.1 keys.2 = parts
    induction parts generalizing flavor with
    | nil => exact ⟨fun _ => nofun, fun _ => ⟨flavor, rfl⟩⟩
    | cons key parts ih =>
      rw [List.foldlM_cons, List.forall_mem_cons]
      cases hsplit : rsplitOnce ':' key.2 with
      | none =>
        constructor
        · rintro ⟨_, h⟩
          cases h
        · rintro ⟨⟨_, _, h, _⟩, _⟩
          cases h
      | some pair =>
        obtain ⟨name, bits⟩ := pair
        dsimp only
        constructor
        · rintro ⟨flavor', h⟩
          obtain ⟨next, hnext, hrest⟩ := ok_of_bind h
          obtain ⟨v, hv, _⟩ := ok_of_bind hnext
          exact ⟨⟨name, bits, rfl, hex_ok.mp ⟨v, hv⟩⟩, ih.mp ⟨flavor', hrest⟩⟩
        · rintro ⟨⟨name', bits', hpair, hbits⟩, hparts⟩
          cases hpair
          obtain ⟨v, hv⟩ := (@hex_ok host bits n).mpr hbits
          obtain ⟨flavor', hrest⟩ := ih.mpr hparts
          exact ⟨flavor', by rw [bind_ok hv]; exact hrest⟩

theorem sliceFrom_of_sliceTo {s front : List Char} {n : ℕ} (h : sliceTo s n = some front) :
    ∃ back, sliceFrom s n = some back := by
  obtain ⟨back, rfl, rfl⟩ := sliceTo_eq_some h
  exact ⟨back, sliceFrom_append front back⟩

theorem parseFlags_ends (host : Host) (n : ℕ) (flags : List Char) :
    (len flags ≠ 3 ∧ ∃ message, parseFlags host n flags = .error (.error message)) ∨
    (len flags = 3 ∧ sliceTo flags 2 = none ∧ parseFlags host n flags = .error .panic) ∨
    (len flags = 3 ∧ sliceTo flags 2 ≠ none ∧ Steady (fun _ => True) (parseFlags host n flags) ∧
      ((∃ bits, parseFlags host n flags = .ok bits) ↔ GoodFlags flags)) := by
  by_cases hlen : len flags = 3
  · right
    have hpass : refuse (len flags ≠ 3) s!"card names line {n}: bad flags {host.debug flags}" = .ok () :=
      refuse_of_not (not_not.mpr hlen)
    cases hfront : sliceTo flags 2 with
    | none =>
      left
      refine ⟨hlen, rfl, ?_⟩
      rw [parseFlags, bind_ok hpass, hfront]
      rfl
    | some front =>
      right
      obtain ⟨back, hback⟩ := sliceFrom_of_sliceTo hfront
      have hsteps : parseFlags host n flags =
          (hex host front n >>= fun classes => hex host back n >>= fun best => pure (classes.toUInt8, best.toUInt8)) := by
        rw [parseFlags, bind_ok hpass, hfront, hback]
        rfl
      refine ⟨hlen, Option.some_ne_none front, ?_, ?_⟩
      · rw [hsteps]
        exact (hex_steady front n).bind fun _ _ => (hex_steady back n).bind fun _ _ => trivial
      · rw [hsteps]
        constructor
        · rintro ⟨bits, h⟩
          obtain ⟨classes, hclasses, h⟩ := ok_of_bind h
          obtain ⟨best, hbest, _⟩ := ok_of_bind h
          exact ⟨hlen, front, back, hfront, hback, hex_ok.mp ⟨classes, hclasses⟩, hex_ok.mp ⟨best, hbest⟩⟩
        · rintro ⟨_, front', back', hfront', hback', hclasses, hbest⟩
          obtain rfl := Option.some.inj (hfront.symm.trans hfront')
          obtain rfl := Option.some.inj (hback.symm.trans hback')
          obtain ⟨classes, hclasses⟩ := hex_ok.mpr hclasses
          obtain ⟨best, hbest⟩ := hex_ok.mpr hbest
          exact ⟨_, by rw [bind_ok hclasses, bind_ok hbest]; rfl⟩
  · left
    refine ⟨hlen, s!"card names line {n}: bad flags {host.debug flags}", ?_⟩
    rw [parseFlags, refuse, if_pos hlen]
    rfl

def recordOf (host : Host) (records : Records) (f : Fields) (partition : UInt16) (flags : UInt8 × UInt8)
    (flavor : List (UInt32 × UInt32 × UInt8)) : Records :=
  let names := pushNames host records.derived f.printed.2 f.lower.2 f.folded.2
  { entries := records.entries ++ [{
      collated := fieldSpan f.collated, printed := fieldSpan f.printed, lower := names.2.1, folded := names.2.2,
      partition := partition, classes := flags.1, best := flags.2,
      flavorFrom := UInt32.ofNat records.flavor.length,
      flavorLen := UInt32.ofNat flavor.length - UInt32.ofNat records.flavor.length }]
    flavor := flavor
    derived := names.1 }

theorem parseRecord_fields (host : Host) (records : Records) {line : ℕ × List Char} (f : Fields)
    (h : pieces '\t' line.1 line.2 = f.list) : ∃ partition, parseRecord host records line =
      parseFlags host (records.entries.length + 1) f.flags.2 >>= fun flags =>
        parseKeys host (records.entries.length + 1) f.keys records.flavor >>= fun flavor =>
          .ok (recordOf host records f partition flags flavor) := by
  obtain ⟨v, hv⟩ := Option.isSome_iff_exists.mp f.good
  have hpartition : parsePartition host (records.entries.length + 1) f.partition.2 = .ok (UInt16.ofNat v) := by
    rw [parsePartition, hv]
  refine ⟨UInt16.ofNat v, ?_⟩
  unfold parseRecord
  rw [h, Fields.list]
  dsimp only
  rw [bind_ok hpartition]
  rfl

theorem parseRecord_refused (host : Host) (records : Records) {line : ℕ × List Char}
    (h : ∀ f : Fields, pieces '\t' line.1 line.2 ≠ f.list) :
    ∃ message, parseRecord host records line = .error (.error message) := by
  unfold parseRecord
  dsimp only
  split
  · rename_i partition flags collated printed lower folded keys hpieces
    have hbad : fromStrRadix 10 0xffff partition.2 = none := by
      by_contra hgood
      exact h ⟨partition, flags, collated, printed, lower, folded, keys, Option.isSome_iff_ne_none.mpr hgood⟩ hpieces
    refine ⟨s!"card names line {records.entries.length + 1}: bad partition {host.debug partition.2}", ?_⟩
    rw [parsePartition, hbad]
    rfl
  · exact ⟨_, rfl⟩

theorem parseRecord_panics {records : Records} {line : ℕ × List Char} :
    parseRecord host records line = .error .panic ↔ CutsFlags line := by
  by_cases hfields : ∃ f : Fields, pieces '\t' line.1 line.2 = f.list
  · obtain ⟨f, hf⟩ := hfields
    obtain ⟨partition, hsteps⟩ := parseRecord_fields host records f hf
    have hflags : CutsFlags line ↔ len f.flags.2 = 3 ∧ sliceTo f.flags.2 2 = none := by
      constructor
      · rintro ⟨f', hf', hcut⟩
        rw [hf] at hf'
        simp only [Fields.list, List.cons.injEq] at hf'
        rwa [hf'.2.1]
      · exact fun hcut => ⟨f, hf, hcut⟩
    rw [hflags, hsteps]
    rcases parseFlags_ends host (records.entries.length + 1) f.flags.2 with ⟨hlen, message, h⟩ | ⟨hlen, hcut, h⟩ | ⟨hlen, hcut, h, _⟩
    · rw [h]
      exact ⟨nofun, fun h => absurd h.1 hlen⟩
    · rw [h]
      exact ⟨fun _ => ⟨hlen, hcut⟩, fun _ => rfl⟩
    · refine ⟨fun hpanic => ?_, fun h => absurd h.2 hcut⟩
      have hall := h.bind (Q := fun _ => True) fun flags _ =>
        (parseKeys_steady host (records.entries.length + 1) f.keys records.flavor).bind
          fun flavor _ => show Steady (fun _ => True) (.ok (recordOf host records f partition flags flavor)) from trivial
      rw [hpanic] at hall
      exact absurd rfl hall
  · obtain ⟨message, h⟩ := parseRecord_refused host records (not_exists.mp hfields)
    rw [h]
    refine ⟨nofun, ?_⟩
    rintro ⟨f, hf, _⟩
    exact absurd ⟨f, hf⟩ hfields

theorem parseRecord_accepts {records : Records} {line : ℕ × List Char} :
    (∃ records', parseRecord host records line = .ok records') ↔ Accepted line := by
  by_cases hfields : ∃ f : Fields, pieces '\t' line.1 line.2 = f.list
  · obtain ⟨f, hf⟩ := hfields
    obtain ⟨partition, hsteps⟩ := parseRecord_fields host records f hf
    have haccepted : Accepted line ↔ GoodFlags f.flags.2 ∧ GoodKeys f.keys := by
      constructor
      · rintro ⟨f', hf', hgood⟩
        rw [hf] at hf'
        simp only [Fields.list, List.cons.injEq] at hf'
        obtain ⟨_, hflags, _, _, _, _, hkeys, _⟩ := hf'
        rwa [hflags, hkeys]
      · exact fun hgood => ⟨f, hf, hgood⟩
    rw [haccepted, hsteps]
    have hkeys := @parseKeys_ok host (records.entries.length + 1) f.keys records.flavor
    rcases parseFlags_ends host (records.entries.length + 1) f.flags.2 with ⟨hlen, message, h⟩ | ⟨hlen, hcut, h⟩ | ⟨_, _, _, hflags⟩
    · rw [h]
      exact ⟨fun h => absurd h not_ok_of_error, fun h => absurd h.1.1 hlen⟩
    · rw [h]
      refine ⟨fun h => absurd h not_ok_of_error, ?_⟩
      rintro ⟨⟨_, front, back, hfront, _⟩, _⟩
      rw [hcut] at hfront
      cases hfront
    · constructor
      · rintro ⟨records', h⟩
        obtain ⟨bits, hbits, h⟩ := ok_of_bind h
        obtain ⟨flavor, hflavor, _⟩ := ok_of_bind h
        exact ⟨hflags.mp ⟨bits, hbits⟩, hkeys.mp ⟨flavor, hflavor⟩⟩
      · rintro ⟨hgood, hgoodKeys⟩
        obtain ⟨bits, hbits⟩ := hflags.mpr hgood
        obtain ⟨flavor, hflavor⟩ := hkeys.mpr hgoodKeys
        exact ⟨_, by rw [bind_ok hbits, bind_ok hflavor]⟩
  · obtain ⟨message, h⟩ := parseRecord_refused host records (not_exists.mp hfields)
    rw [h]
    refine ⟨fun h => absurd h not_ok_of_error, ?_⟩
    rintro ⟨f, hf, _⟩
    exact absurd ⟨f, hf⟩ hfields

/-! ## Where the spans of a record stand -/

def Slices (s : List Char) (span : Span) : Prop := ∃ w, sliceAt s span = .ok w

theorem Slices.append_right {s : List Char} {span : Span} (h : Slices s span) (t : List Char) : Slices (s ++ t) span := by
  obtain ⟨w, hw⟩ := h
  exact ⟨w, sliceAt_append_right hw t⟩

theorem slices_origin (s : List Char) : Slices s (0, 0) := by
  refine ⟨[], ?_⟩
  have hslice : slice s 0 0 = some [] := slice_eq_some.mpr ⟨[], s, rfl, rfl, rfl⟩
  rw [sliceAt, show (0 : UInt32).toNat = 0 from rfl, hslice]
  rfl

def LineAt (text : List Char) (line : ℕ × List Char) : Prop := ∃ x y, text = x ++ (line.2 ++ y) ∧ line.1 = len x

/-- The spans of the records are slices, and the derived names no more than twice the lines read. -/
structure Rooted (text : List Char) (read : ℕ) (records : Records) : Prop where
  collated : ∀ e ∈ records.entries, Slices text e.collated
  folded : ∀ e ∈ records.entries, Slices records.derived e.folded
  derived : len records.derived ≤ 2 * read

variable {text : List Char}

theorem slices_field {line field : ℕ × List Char} (hline : LineAt text line) (htext : len text < 2 ^ 32)
    (hfield : field ∈ pieces '\t' line.1 line.2) : Slices text (fieldSpan field) := by
  obtain ⟨x, y, rfl, hat⟩ := hline
  obtain ⟨x', y', hsplit, hat'⟩ := pieces_at rfl hfield
  have hwhole : x ++ (line.2 ++ y) = (x ++ x') ++ (field.2 ++ (y' ++ y)) := by
    rw [hsplit]
    simp
  have hstart : field.1 = len (x ++ x') := by rw [hat', hat, len_append]
  refine ⟨field.2, ?_⟩
  rw [hwhole, fieldSpan, hstart]
  apply sliceAt_eq
  rw [hwhole] at htext
  simp only [len_append] at htext ⊢
  omega

def Doubles (host : Host) : Prop := ∀ s, len (host.toLowercase s) ≤ 2 * len s

theorem len_fields (f : Fields) {line : ℕ × List Char} (h : pieces '\t' line.1 line.2 = f.list) :
    len f.printed.2 + len f.lower.2 + len f.folded.2 ≤ len line.2 := by
  have hsum := pieces_len (show (Utf8.encodeChar '\t').length = 1 from rfl) line.1 line.2
  rw [h, Fields.list] at hsum
  simp only [List.map_cons, List.map_nil, List.sum_cons, List.sum_nil] at hsum
  omega

/-- The names pushed: the derived names grown by no more than twice their fields, and the folded name a slice of them. -/
theorem pushNames_spec (hlower : Doubles host) {derived printed lower folded : List Char}
    (hsize : len derived + 2 * (len printed + len lower + len folded) < 2 ^ 32) :
    ∃ more, (pushNames host derived printed lower folded).1 = derived ++ more ∧
      len more ≤ 2 * (len printed + len lower + len folded) ∧
      Slices (derived ++ more) (pushNames host derived printed lower folded).2.2 := by
  have hname : len (if lower.isEmpty then host.toLowercase printed else lower) ≤ 2 * (len printed + len lower) := by
    have hdouble := hlower printed
    split <;> omega
  unfold pushNames
  generalize (if lower.isEmpty then host.toLowercase printed else lower) = name at hname
  dsimp only
  split
  · refine ⟨name, rfl, by omega, name, ?_⟩
    have hat := @sliceAt_push derived name (by rw [len_append]; omega) []
    rwa [List.append_nil] at hat
  · refine ⟨name ++ folded, by simp [push], by rw [len_append]; omega, folded, ?_⟩
    have hat := @sliceAt_push (derived ++ name) folded (by simp only [len_append]; omega) []
    rw [List.append_nil, List.append_assoc] at hat
    exact hat

variable {read : ℕ}

theorem Rooted.parseRecord (hlower : Doubles host) {records records' : Records}
    {line : ℕ × List Char} (h : Rooted text read records) (htext : len text < 2 ^ 32) (hline : LineAt text line)
    (hsize : 2 * (read + len line.2) < 2 ^ 32) (hok : parseRecord host records line = .ok records') :
    Rooted text (read + len line.2) records' := by
  obtain ⟨f, hf, _⟩ := parseRecord_accepts.mp ⟨records', hok⟩
  obtain ⟨partition, hsteps⟩ := parseRecord_fields host records f hf
  rw [hsteps] at hok
  obtain ⟨flags, _, hok⟩ := ok_of_bind hok
  obtain ⟨flavor, _, hok⟩ := ok_of_bind hok
  obtain rfl := Except.ok.inj hok
  have hfields := len_fields f hf
  have hderived := h.derived
  obtain ⟨more, hmore, hlen, hfolded⟩ := pushNames_spec hlower
    (show len records.derived + 2 * (len f.printed.2 + len f.lower.2 + len f.folded.2) < 2 ^ 32 by omega)
  have hnames : (recordOf host records f partition flags flavor).derived = records.derived ++ more := hmore
  constructor
  · intro e he
    rcases List.mem_append.mp he with he | he
    · exact h.collated e he
    · rw [List.mem_singleton.mp he]
      refine slices_field hline htext ?_
      rw [hf]
      simp [Fields.list]
  · intro e he
    rw [hnames]
    rcases List.mem_append.mp he with he | he
    · exact (h.folded e he).append_right more
    · rw [List.mem_singleton.mp he]
      exact hfolded
  · rw [hnames, len_append]
    omega

theorem Rooted.parsePair {records records' : Records} {line : ℕ × List Char}
    (h : Rooted text read records) (htext : len text < 2 ^ 32) (hline : LineAt text line)
    (hok : NamesBlob.parsePair host records line = .ok records') : Rooted text (read + len line.2) records' := by
  unfold NamesBlob.parsePair at hok
  dsimp only at hok
  split at hok
  · rename_i collated printed hpieces
    obtain rfl := Except.ok.inj hok
    constructor
    · intro e he
      rcases List.mem_append.mp he with he | he
      · exact h.collated e he
      · rw [List.mem_singleton.mp he]
        refine slices_field hline htext ?_
        rw [hpieces]
        simp
    · intro e he
      rcases List.mem_append.mp he with he | he
      · exact h.folded e he
      · rw [List.mem_singleton.mp he]
        exact slices_origin _
    · have hderived := h.derived
      simp only
      omega
  · cases hok

/-! ## Formats 1 and 2 -/

theorem mapM_steady {α β : Type} {f : α → Checked β} {l : List α} (h : ∀ a ∈ l, Steady (fun _ => True) (f a)) :
    Steady (fun _ => True) (l.mapM f) := by
  induction l with
  | nil => trivial
  | cons a l ih =>
    rw [List.mapM_cons]
    refine (h a List.mem_cons_self).bind fun b _ => ?_
    exact (ih fun a ha => h a (List.mem_cons_of_mem _ ha)).bind fun bs _ => trivial

theorem lines_at {header text : List Char} (hheader : header <+: text) {line : ℕ × List Char}
    (hline : line ∈ piecesTerminated '\n' (len header) (text.drop header.length)) : LineAt text line := by
  obtain ⟨body, rfl⟩ := hheader
  rw [List.drop_left] at hline
  obtain ⟨x, y, hsplit, hat⟩ := pieces_at rfl ((piecesTerminated_sublist _ _ _).subset hline)
  refine ⟨header ++ x, y, ?_, ?_⟩
  · rw [hsplit, List.append_assoc]
  · rw [hat, len_append]

def lensOf (lines : List (ℕ × List Char)) : ℕ := (lines.map fun line => len line.2).sum

theorem lensOf_le {header text : List Char} (hheader : header <+: text) :
    lensOf (piecesTerminated '\n' (len header) (text.drop header.length)) ≤ len text := by
  obtain ⟨body, rfl⟩ := hheader
  rw [List.drop_left, len_append]
  have hsum := pieces_len (show (Utf8.encodeChar '\n').length = 1 from rfl) (len header) body
  have hpieces : lensOf (pieces '\n' (len header) body) + (pieces '\n' (len header) body).length = len body + 1 := by
    rw [← hsum, lensOf]
    induction pieces '\n' (len header) body with
    | nil => rfl
    | cons p ps ih =>
      simp only [List.map_cons, List.sum_cons, List.length_cons]
      omega
  have hpos : 0 < (pieces '\n' (len header) body).length := by
    obtain ⟨w, rest, h, _⟩ := pieces_cons '\n' (len header) body
    rw [h]
    exact Nat.succ_pos _
  have hle : lensOf (piecesTerminated '\n' (len header) body) ≤ lensOf (pieces '\n' (len header) body) :=
    ((piecesTerminated_sublist _ _ _).map _).sum_le_sum fun _ _ => Nat.zero_le _
  omega

/-- Records rooted in the text, with the lines to come. -/
structure Lined (text : List Char) (total : ℕ) (rest : List (ℕ × List Char)) (records : Records) : Prop where
  rooted : ∃ read, Rooted text read records ∧ read + lensOf rest = total
  rest : ∀ line ∈ rest, LineAt text line

theorem lines_rooted {lines : List (ℕ × List Char)} {records : Records}
    {step : Records → ℕ × List Char → Checked Records}
    (hstep : ∀ read records records' line, Rooted text read records → LineAt text line →
      read + len line.2 ≤ lensOf lines → step records line = .ok records' → Rooted text (read + len line.2) records')
    (hlines : ∀ line ∈ lines, LineAt text line) (hok : lines.foldlM step ⟨[], [], []⟩ = .ok records) :
    ∃ read, Rooted text read records := by
  have hrun : Ends (fun _ => True) (Lined text (lensOf lines) []) (lines.foldlM step ⟨[], [], []⟩) := by
    apply Ends.foldlM (I := Lined text (lensOf lines))
    · rintro line rest records ⟨⟨read, hrooted, hread⟩, hrest⟩
      rw [lensOf, List.map_cons, List.sum_cons, ← lensOf] at hread
      cases hnext : step records line with
      | error fault => trivial
      | ok records' =>
        have hgrown := hstep _ _ _ _ hrooted (hrest line List.mem_cons_self) (by omega) hnext
        exact ⟨⟨read + len line.2, hgrown, by omega⟩, fun l hl => hrest l (List.mem_cons_of_mem _ hl)⟩
    · exact ⟨⟨0, ⟨nofun, nofun, Nat.zero_le _⟩, Nat.zero_add _⟩, hlines⟩
  obtain ⟨read, hrooted, _⟩ := (hrun.of_ok hok).rooted
  exact ⟨read, hrooted⟩

/-- Entries joined, with those to come: each is read from the text, and signed by a slice of the derived names. -/
structure Joining (text derived : List Char) (rest : List Entry) (joined : Joined) : Prop where
  rest : ∀ e ∈ rest, Slices text e.collated ∧ Slices derived e.folded
  joined : ∀ e ∈ joined.entries, Slices derived e.folded

theorem join_steady {records : Records} (h : Rooted text read records) :
    Steady (Joining text records.derived []) (records.entries.foldlM (joinEntry text) ⟨[], [], [], []⟩) := by
  apply Ends.foldlM (I := Joining text records.derived)
  · rintro e rest joined ⟨hrest, hjoined⟩
    obtain ⟨⟨name, hname⟩, hfolded⟩ := hrest e List.mem_cons_self
    unfold joinEntry
    rw [bind_ok hname]
    unfold refuse
    split
    · nofun
    · refine ⟨fun e he => hrest e (List.mem_cons_of_mem _ he), ?_⟩
      intro e' he'
      rcases List.mem_append.mp he' with he' | he'
      · exact hjoined e' he'
      · rw [List.mem_singleton.mp he']
        exact hfolded
  · exact ⟨fun e he => ⟨h.collated e he, h.folded e he⟩, nofun⟩

theorem signaturesOf_steady {format : UInt8} {derived : List Char} {entries : List Entry}
    (h : ∀ e ∈ entries, Slices derived e.folded) : Steady (fun _ => True) (signaturesOf host format derived entries) := by
  unfold signaturesOf
  split
  · apply mapM_steady
    intro e he
    obtain ⟨folded, hfolded⟩ := h e he
    rw [bind_ok hfolded]
    trivial
  · trivial

theorem rest_steady {records : Records} (h : Rooted text read records) (format : UInt8) :
    Steady (fun _ => True) (records.entries.foldlM (joinEntry text) ⟨[], [], [], []⟩ >>= fun joined =>
      signaturesOf host format records.derived joined.entries >>= fun signatures =>
        (pure {
          format := format, text := text, derived := records.derived, entries := joined.entries,
          flavor := records.flavor, trigramCounts := joined.counts, collated := joined.collated,
          collatedStarts := joined.starts, signatures := signatures } : Checked (NameList host.Bits))) := by
  refine (join_steady h).bind fun joined hjoined => ?_
  exact (signaturesOf_steady hjoined.joined).bind fun signatures _ => trivial

def linesOf (header text : List Char) : List (ℕ × List Char) := piecesTerminated '\n' (len header) (text.drop header.length)

/-- The text is empty after its header, or ends in a line break. -/
def Terminated (header text : List Char) : Prop := text.drop header.length = [] ∨ (text.drop header.length).getLast? = some '\n'

theorem parseLines_pair_steady (hheader : NAMES_BLOB_HEADER <+: text) :
    Steady (fun _ => True) (parseLines host 1 NAMES_BLOB_HEADER text) := by
  unfold parseLines refuse
  split
  · nofun
  · rename_i htext
    rw [bind_ok rfl]
    dsimp only
    split
    · nofun
    · rw [bind_ok rfl, if_pos rfl]
      cases hrecords : (piecesTerminated '\n' (len NAMES_BLOB_HEADER) (text.drop NAMES_BLOB_HEADER.length)).foldlM
          (parsePair host) ⟨[], [], []⟩ with
      | error fault =>
        obtain ⟨before, line, after, records, _, _, hline⟩ := foldlM_eq_error.mp hrecords
        unfold parsePair at hline
        dsimp only at hline
        split at hline
        · cases hline
        · obtain rfl := Except.error.inj hline
          nofun
      | ok records =>
        have hstep : ∀ read records records' line, Rooted text read records → LineAt text line →
            read + len line.2 ≤ lensOf (linesOf NAMES_BLOB_HEADER text) → parsePair host records line = .ok records' →
            Rooted text (read + len line.2) records' :=
          fun read records records' line h hline _ hok => h.parsePair (not_le.mp htext) hline hok
        obtain ⟨read, hrooted⟩ := lines_rooted hstep (fun line => lines_at hheader) hrecords
        exact rest_steady hrooted 1

theorem records_accepted {lines : List (ℕ × List Char)} {records : Records} :
    (∃ records', lines.foldlM (parseRecord host) records = .ok records') ↔ ∀ line ∈ lines, Accepted line := by
  induction lines generalizing records with
  | nil => exact ⟨fun _ => nofun, fun _ => ⟨records, rfl⟩⟩
  | cons line lines ih =>
    rw [List.foldlM_cons, List.forall_mem_cons]
    constructor
    · rintro ⟨records', h⟩
      obtain ⟨next, hnext, hrest⟩ := ok_of_bind h
      exact ⟨parseRecord_accepts.mp ⟨next, hnext⟩, ih.mp ⟨records', hrest⟩⟩
    · rintro ⟨hline, hlines⟩
      obtain ⟨next, hnext⟩ := (@parseRecord_accepts host records line).mpr hline
      rw [bind_ok hnext]
      exact ih.mpr hlines

/-- Some line cuts its flags, after lines that are all accepted. -/
def Cut (lines : List (ℕ × List Char)) : Prop :=
  ∃ before line after, lines = before ++ line :: after ∧ (∀ accepted ∈ before, Accepted accepted) ∧ CutsFlags line

theorem records_panic {lines : List (ℕ × List Char)} {records : Records} :
    lines.foldlM (parseRecord host) records = .error .panic ↔ Cut lines := by
  rw [foldlM_eq_error]
  constructor
  · rintro ⟨before, line, after, records', hlines, hbefore, hline⟩
    exact ⟨before, line, after, hlines, records_accepted.mp ⟨records', hbefore⟩, parseRecord_panics.mp hline⟩
  · rintro ⟨before, line, after, hlines, hbefore, hline⟩
    obtain ⟨records', hrecords⟩ := records_accepted.mpr hbefore
    exact ⟨before, line, after, records', hlines, hrecords, parseRecord_panics.mpr hline⟩

/-- The lines of format 2 panic on the first that is not accepted, and only where that one cuts its flags. -/
theorem parseLines_panics (hlower : Doubles host) (htext : len text < 2 ^ 31)
    (hheader : NAMES_BLOB_HEADER_V2 <+: text) : parseLines host 2 NAMES_BLOB_HEADER_V2 text = .error .panic ↔
      Terminated NAMES_BLOB_HEADER_V2 text ∧ Cut (linesOf NAMES_BLOB_HEADER_V2 text) := by
  unfold parseLines
  rw [bind_ok (refuse_of_not (by omega : ¬ 2 ^ 32 ≤ len text))]
  dsimp only
  by_cases hend : Terminated NAMES_BLOB_HEADER_V2 text
  · have hpass : ¬ (text.drop NAMES_BLOB_HEADER_V2.length ≠ [] ∧
        (text.drop NAMES_BLOB_HEADER_V2.length).getLast? ≠ some '\n') := by
      rintro ⟨hempty, hlast⟩
      exact hend.elim hempty hlast
    rw [bind_ok (refuse_of_not hpass), if_neg (by decide : ¬ (2 : UInt8) = 1), and_iff_right hend, linesOf,
      ← @records_panic host _ ⟨[], [], []⟩]
    cases hrecords : (piecesTerminated '\n' (len NAMES_BLOB_HEADER_V2) (text.drop NAMES_BLOB_HEADER_V2.length)).foldlM
        (parseRecord host) ⟨[], [], []⟩ with
    | error fault => exact ⟨fun h => congrArg Except.error (Except.error.inj h), fun h => congrArg Except.error (Except.error.inj h)⟩
    | ok records =>
      have hstep : ∀ read records records' line, Rooted text read records → LineAt text line →
          read + len line.2 ≤ lensOf (linesOf NAMES_BLOB_HEADER_V2 text) → parseRecord host records line = .ok records' →
          Rooted text (read + len line.2) records' := by
        intro read records records' line h hline hread hok
        have hlens := lensOf_le hheader
        rw [← linesOf] at hlens
        exact h.parseRecord hlower (by omega) hline (by omega) hok
      obtain ⟨read, hrooted⟩ := lines_rooted hstep (fun line => lines_at hheader) hrecords
      have hsteady := @rest_steady host _ _ _ hrooted 2
      refine ⟨fun h => ?_, nofun⟩
      rw [bind_ok rfl] at h
      rw [h] at hsteady
      exact absurd rfl hsteady
  · refine ⟨fun h => ?_, fun h => absurd h.1 hend⟩
    have hrefused : text.drop NAMES_BLOB_HEADER_V2.length ≠ [] ∧
        (text.drop NAMES_BLOB_HEADER_V2.length).getLast? ≠ some '\n' := not_or.mp hend
    rw [refuse, if_pos hrefused] at h
    cases h

/-! ## Format 3 -/

theorem takeBytes_steady (n : ℕ) (what : String) (bytes : Bytes) :
    Steady (fun r => r.1.length + r.2.length = bytes.length) (takeBytes n what bytes) := by
  unfold takeBytes
  split
  · show (bytes.take n).length + (bytes.drop n).length = bytes.length
    rw [← List.length_append, List.take_append_drop]
  · nofun

theorem takeU32_steady (what : String) (bytes : Bytes) :
    Steady (fun r => r.2.length ≤ bytes.length) (takeU32 what bytes) := by
  refine (takeBytes_steady 4 what bytes).bind fun r hr => ?_
  show r.2.length ≤ bytes.length
  omega

theorem takeU16s_steady (n : ℕ) (what : String) (bytes : Bytes) : Steady (fun _ => True) (takeU16s n what bytes) :=
  (takeBytes_steady (n * 2) what bytes).bind fun _ _ => trivial

theorem takeString_steady (n : ℕ) (what : String) (bytes : Bytes) :
    Steady (fun r => len r.1 + r.2.length ≤ bytes.length) (takeString host n what bytes) := by
  refine (takeBytes_steady n what bytes).bind fun r hr => ?_
  dsimp only
  cases hs : fromUtf8 r.1 with
  | none => nofun
  | some s =>
    show len s + r.2.length ≤ bytes.length
    rw [len, utf8_of_fromUtf8 hs, hr]

theorem nextLine_steady {s : List Char} (hs : len s < 2 ^ 32) (start : ℕ) (what : String) :
    Steady (fun r => ∃ w, sliceAt s r.1 = .ok w ∧ r.2 = start + len w + 1 ∧ r.2 ≤ len s) (nextLine s start what) := by
  cases hrest : sliceFrom s start with
  | none =>
    rw [nextLine, hrest]
    intro h
    cases h
  | some rest =>
    by_cases hbreak : '\n' ∈ rest
    · obtain ⟨x, rfl, rfl⟩ := sliceFrom_eq_some hrest
      obtain ⟨w, y, rfl, hw⟩ := List.eq_append_cons_of_mem hbreak
      rw [nextLine_eq hw x y what]
      have hwidth : (Utf8.encodeChar '\n').length = 1 := rfl
      simp only [len_append, len_cons] at hs
      refine ⟨w, sliceAt_eq (by rw [len_append]; omega) ('\n' :: y), rfl, ?_⟩
      simp only [len_append, len_cons]
      omega
    · rw [nextLine, hrest]
      simp only [List.contains_iff_mem, if_neg hbreak]
      intro h
      cases h

/-- Where the sections are read on, and the derived names so far no more than twice what was read of them. -/
structure Sectioned (text stored : List Char) (atText atStored : ℕ) (derived : List Char) : Prop where
  text : atText ≤ len text
  stored : atStored ≤ len stored
  derived : len derived ≤ 2 * (atText + atStored)

theorem readKeys_steady (htext : len text < 2 ^ 32) (keyBits : List UInt8) (count : ℕ)
    {state : ℕ × List (UInt32 × UInt32 × UInt8)} (hat : state.1 ≤ len text) :
    Steady (fun r => state.1 ≤ r.1 ∧ r.1 ≤ len text) (readKeys text keyBits count state) := by
  induction count generalizing state with
  | zero => exact ⟨le_rfl, hat⟩
  | succ count ih =>
    have hkey : Steady (fun r => state.1 ≤ r.1 ∧ r.1 ≤ len text) (readKey text keyBits state) := by
      unfold readKey
      split
      · nofun
      · refine (nextLine_steady htext state.1 "flavor key").bind ?_
        rintro r ⟨w, _, hnext, hle⟩
        exact ⟨by dsimp only; omega, hle⟩
    refine hkey.bind fun next ⟨hfrom, hto⟩ => ?_
    exact (ih hto).mono fun r ⟨hnext, hle⟩ => ⟨hfrom.trans hnext, hle⟩

theorem readLower_steady (hlower : Doubles host) {text stored printed : List Char} (hstored : len stored < 2 ^ 32)
    (shape : UInt8) {span : Span} (hprinted : sliceAt text span = .ok printed) {atStored : ℕ} (hat : atStored ≤ len stored) :
    Steady (fun r => atStored ≤ r.2 ∧ r.2 ≤ len stored ∧ len r.1 ≤ 2 * (len printed + (r.2 - atStored)))
      (readLower host text stored shape span atStored) := by
  unfold readLower
  split
  · rw [bind_ok hprinted]
    refine ⟨le_rfl, hat, ?_⟩
    have hdouble := hlower printed
    dsimp only
    omega
  · refine (nextLine_steady hstored atStored "lower name").bind ?_
    rintro r ⟨w, hw, hnext, hle⟩
    dsimp only
    rw [bind_ok hw]
    refine ⟨?_, hle, ?_⟩ <;> dsimp only <;> omega

theorem readFolded_steady {stored : List Char} (hstored : len stored < 2 ^ 32) (shape : UInt8) {derived : List Char}
    {lower : Span} (hlower : Slices derived lower) {atStored : ℕ} (hat : atStored ≤ len stored)
    (hsize : len derived + (len stored - atStored) < 2 ^ 32) :
    Steady (fun r => atStored ≤ r.2 ∧ r.2 ≤ len stored ∧ len r.1.1 ≤ len derived + (r.2 - atStored) ∧ Slices r.1.1 r.1.2)
      (readFolded stored shape derived lower atStored) := by
  unfold readFolded
  split
  · exact ⟨le_rfl, hat, Nat.le_add_right _ _, hlower⟩
  · refine (nextLine_steady hstored atStored "folded name").bind ?_
    rintro r ⟨w, hw, hnext, hle⟩
    dsimp only
    rw [bind_ok hw]
    have hslice := @sliceAt_push derived w (by rw [len_append]; omega) []
    rw [List.append_nil] at hslice
    have hlen : len (push derived w).1 ≤ len derived + (r.2 - atStored) := by
      rw [push, len_append]
      omega
    exact ⟨by dsimp only; omega, hle, hlen, w, hslice⟩

theorem readRow_steady (hlower : Doubles host) {collated text stored : List Char} (keyBits : List UInt8)
    {reading : Reading host.Bits} (row : Row) (hcollated : len collated < 2 ^ 32)
    (hsize : 2 * (len text + len stored) < 2 ^ 32)
    (h : Sectioned text stored reading.atText reading.atStored reading.derived) :
    Steady (fun r => Sectioned text stored r.atText r.atStored r.derived)
      (readRow host collated text stored keyBits reading row) := by
  have htext : len text < 2 ^ 32 := by omega
  have hstored : len stored < 2 ^ 32 := by omega
  obtain ⟨hatText, hatStored, hderived⟩ := h
  unfold readRow
  refine (nextLine_steady hcollated _ "collated name").bind ?_
  rintro ⟨name, atCollated⟩ ⟨collatedName, hname, _, _⟩
  dsimp only at hname ⊢
  rw [bind_ok hname]
  refine (nextLine_steady htext _ "printed name").bind ?_
  rintro ⟨span, atPrinted⟩ ⟨printed, hprinted, hnext, hle⟩
  dsimp only at hprinted hnext hle ⊢
  refine (readKeys_steady htext keyBits row.keys.toNat hle).bind ?_
  rintro ⟨atText, flavor⟩ ⟨hfrom, hto⟩
  dsimp only at hfrom hto ⊢
  refine (readLower_steady hlower hstored row.shape hprinted hatStored).bind ?_
  rintro ⟨lowerName, atLower⟩ ⟨hfromLower, htoLower, hlenLower⟩
  dsimp only at hfromLower htoLower hlenLower ⊢
  have hpushed : len (reading.derived ++ lowerName) ≤ 2 * (atText + atLower) := by
    rw [len_append]
    omega
  have hslice := @sliceAt_push reading.derived lowerName (by omega) []
  rw [List.append_nil] at hslice
  refine (readFolded_steady hstored row.shape ⟨lowerName, hslice⟩ htoLower (by omega)).bind ?_
  rintro ⟨⟨derived, folded⟩, atFolded⟩ ⟨hfromFolded, htoFolded, hlenFolded, foldedName, hfolded⟩
  dsimp only at hfromFolded htoFolded hlenFolded hfolded ⊢
  rw [bind_ok hfolded]
  exact ⟨hto, htoFolded, by dsimp only; omega⟩

theorem parseV3_steady (hlower : Doubles host) {raw : Bytes} (hraw : raw.length < 2 ^ 31) :
    Steady (fun _ => True) (parseV3 host raw) := by
  have hbytes : (raw.drop (utf8 NAMES_BLOB_HEADER_V3).length).length ≤ raw.length := by
    rw [List.length_drop]
    exact Nat.sub_le _ _
  unfold parseV3
  dsimp only
  refine (takeU32_steady "entry count" _).bind fun ⟨n, bytes₁⟩ h₁ => ?_
  refine (takeU32_steady "flavor key count" _).bind fun ⟨nf, bytes₂⟩ h₂ => ?_
  refine (takeU32_steady "collated section" _).bind fun ⟨collatedLen, bytes₃⟩ h₃ => ?_
  refine (takeU32_steady "text section" _).bind fun ⟨textLen, bytes₄⟩ h₄ => ?_
  refine (takeU32_steady "derived section" _).bind fun ⟨derivedLen, bytes₅⟩ h₅ => ?_
  refine (takeString_steady collatedLen "collated section" _).bind fun ⟨collated, bytes₆⟩ h₆ => ?_
  refine (takeString_steady textLen "text section" _).bind fun ⟨text, bytes₇⟩ h₇ => ?_
  refine (takeString_steady derivedLen "derived section" _).bind fun ⟨stored, bytes₈⟩ h₈ => ?_
  dsimp only at h₁ h₂ h₃ h₄ h₅ h₆ h₇ h₈
  have hcollated : len collated < 2 ^ 32 := by omega
  have hsize : 2 * (len text + len stored) < 2 ^ 32 := by omega
  refine (takeU16s_steady n "partitions" _).bind fun ⟨partition, bytes₉⟩ _ => ?_
  refine (takeBytes_steady n "classes" _).bind fun ⟨classes, bytes₁₀⟩ _ => ?_
  refine (takeBytes_steady n "best flags" _).bind fun ⟨best, bytes₁₁⟩ _ => ?_
  refine (takeBytes_steady n "shapes" _).bind fun ⟨shape, bytes₁₂⟩ _ => ?_
  refine (takeU16s_steady n "flavor key counts" _).bind fun ⟨keys, bytes₁₃⟩ _ => ?_
  refine (takeBytes_steady nf "flavor key bits" _).bind fun ⟨keyBits, bytes₁₄⟩ _ => ?_
  refine (takeU16s_steady n "trigram counts" _).bind fun ⟨trigramSlack, bytes₁₅⟩ _ => ?_
  refine (takeU16s_steady n "signature window counts" _).bind fun ⟨signatureSlack, bytes₁₆⟩ _ => ?_
  refine (refuse_steady _ _).bind fun _ _ => ?_
  have hrows : Steady (fun r => Sectioned text stored r.atText r.atStored r.derived)
      ((rows partition classes best shape keys trigramSlack signatureSlack).foldlM
        (readRow host collated text stored keyBits) ⟨0, 0, 0, [], [], [], [], [], []⟩) := by
    apply Ends.foldlM (I := fun _ (r : Reading host.Bits) => Sectioned text stored r.atText r.atStored r.derived)
    · exact fun row rest reading h => readRow_steady hlower keyBits row hcollated hsize h
    · exact ⟨Nat.zero_le _, Nat.zero_le _, Nat.zero_le _⟩
  refine hrows.bind fun reading _ => ?_
  refine (refuse_steady _ _).bind fun _ _ => ?_
  exact (refuse_steady _ _).bind fun _ _ => trivial

/-! ## Every byte string -/

/-- Text of format 2 that is not cut short, one of whose lines cuts its flags. -/
def CutsBlob (raw : Bytes) : Prop :=
  ∃ text, fromUtf8 raw = some text ∧ NAMES_BLOB_HEADER_V2 <+: text ∧ Terminated NAMES_BLOB_HEADER_V2 text ∧
    Cut (linesOf NAMES_BLOB_HEADER_V2 text)

theorem header_unique {α : Type} {a b s : List α} (ha : a <+: s) (hb : b <+: s) (h : a.length = b.length) : a = b := by
  rw [List.prefix_iff_eq_take.mp ha, List.prefix_iff_eq_take.mp hb, h]

theorem not_v3_of_text {raw : Bytes} (hutf8 : fromUtf8 raw = some text)
    (hheader : NAMES_BLOB_HEADER_V2 <+: text) : ¬ utf8 NAMES_BLOB_HEADER_V3 <+: raw := by
  intro hv3
  have hraw := utf8_of_fromUtf8 hutf8
  obtain ⟨body, rfl⟩ := hheader
  have hv2 : utf8 NAMES_BLOB_HEADER_V2 <+: raw := ⟨utf8 body, by rw [← hraw, utf8, utf8, utf8, List.flatMap_append]⟩
  exact absurd (header_unique hv2 hv3 (by decide)) (by decide)

theorem plainHost_doubles : Doubles plainHost := by
  intro s
  induction s with
  | nil => exact Nat.zero_le _
  | cons c s ih =>
    have hchar : (Utf8.encodeChar c.toLower).length ≤ 2 * (Utf8.encodeChar c).length := by
      unfold Char.toLower
      split
      · rename_i hupper
        have hpos := length_encodeChar_pos c
        have hlow : c.val.toNat ≤ 90 := hupper.2
        have hlower : (c.val + ('a'.val - 'A'.val)).toNat < 0x80 := by
          rw [UInt32.toNat_add, show ('a'.val - 'A'.val).toNat = 32 from rfl]
          omega
        generalize (Utf8.encodeChar c).length = width at hpos
        unfold Utf8.encodeChar
        dsimp only
        split
        · show 1 ≤ 2 * width
          omega
        · rename_i hwide
          exact absurd hlower hwide
      · omega
    have hcons : len (plainHost.toLowercase (c :: s)) =
        (Utf8.encodeChar c.toLower).length + len (plainHost.toLowercase s) := len_cons _ _
    rw [hcons, len_cons]
    omega

def euroLine : Bytes := utf8 (NAMES_BLOB_HEADER_V2 ++ "0\t€\ta\tA\t\t\t\n".toList)

theorem parse_euroLine : parse plainHost euroLine = .error .panic := by
  have hpanic : (match parse plainHost euroLine with | .error .panic => true | _ => false) = true := by decide +kernel
  cases hparse : parse plainHost euroLine with
  | ok list =>
    rw [hparse] at hpanic
    cases hpanic
  | error fault =>
    rw [hparse] at hpanic
    cases fault with
    | error message => cases hpanic
    | panic => rfl

end NamesBlob
