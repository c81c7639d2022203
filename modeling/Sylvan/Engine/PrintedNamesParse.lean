-- SUMMARY: What the printed-names parser accepts: the header and whole lines, and the tables it builds from them.
import Sylvan.Data.Throws
import Sylvan.Engine.PrintedNames

/-!
# Reading the printed names

The parser's state after some fields is a function of the lines that are complete and of the
fields of the line under way. One separator takes it to the state of one field more, so the
pass reads exactly the texts made of whole lines.
-/

namespace PrintedNames

open RustStr NamesBlob
open RustStr (len)

/-! ## Lines -/

structure Line where
  partition : List Char
  oracle : List Char
  forms : List (List Char)
deriving DecidableEq

namespace Line

def cells (l : Line) : List (List Char) := l.partition :: l.oracle :: l.forms

/-- The partition as `u16` reads it. -/
def number (l : Line) : ℕ := (fromStrRadix 10 0xffff l.partition).getD 0

end Line

/-- Cells with a tab between each two, and a line break behind. -/
def cellsText : List (List Char) → List Char
  | [] => []
  | [v] => v ++ ['\n']
  | v :: vs => v ++ '\t' :: cellsText vs

def linesText (lines : List Line) : List Char := lines.flatMap fun l => cellsText l.cells

def isSeparator (c : Char) : Prop := c = '\t' ∨ c = '\n'

instance : DecidablePred isSeparator := fun c => inferInstanceAs (Decidable (c = '\t' ∨ c = '\n'))

/-- A printed form: ASCII letters, digits and spaces, one at least. -/
def IsForm (f : List Char) : Prop := f ≠ [] ∧ ∀ c ∈ f, c = ' ' ∨ c.isAlphanum = true

structure Line.Valid (l : Line) : Prop where
  partition : (fromStrRadix 10 0xffff l.partition).isSome = true
  oracle : ∀ c ∈ l.oracle, ¬ isSeparator c
  some : l.forms ≠ []
  forms : ∀ f ∈ l.forms, IsForm f
  short : ∀ v ∈ l.cells, len v ≤ 65535

/-! ## Characters -/

theorem form_bytes_iff {f : List Char} : (utf8 f).all FORM_BYTE = true ↔ ∀ c ∈ f, c = ' ' ∨ c.isAlphanum = true := by
  have hchar : ∀ c : Char, (Utf8.encodeChar c).all FORM_BYTE = true ↔ c = ' ' ∨ c.isAlphanum = true := by
    intro c
    have hspace : c = ' ' ↔ c.toNat = 0x20 := by
      constructor
      · rintro rfl
        rfl
      · intro h
        exact Char.toNat_inj.mp h
    have halnum : c.isAlphanum = true ↔ isAsciiAlphanumeric c.toNat = true := by
      unfold Char.isAlphanum Char.isAlpha Char.isUpper Char.isLower Char.isDigit
      simp only [isAsciiAlphanumeric, Bool.or_eq_true, Bool.and_eq_true, decide_eq_true_eq, UInt32.le_iff_toNat_le, ge_iff_le]
      change ((65 ≤ c.toNat ∧ c.toNat ≤ 90) ∨ (97 ≤ c.toNat ∧ c.toNat ≤ 122)) ∨ (48 ≤ c.toNat ∧ c.toNat ≤ 57) ↔ _
      omega
    have hform : FORM_BYTE (UInt8.ofNat c.toNat) = true ∧ c.toNat < 0x80 ↔ c = ' ' ∨ c.isAlphanum = true := by
      rw [hspace, halnum]
      constructor
      · rintro ⟨hbyte, hascii⟩
        simpa [FORM_BYTE, Utf8.toNat_ofNat_of_lt (show c.toNat < 256 by omega)] using hbyte
      · intro h
        have hascii : c.toNat < 0x80 := by
          simp only [isAsciiAlphanumeric, Bool.or_eq_true, Bool.and_eq_true, decide_eq_true_eq] at h
          omega
        exact ⟨by simpa [FORM_BYTE, Utf8.toNat_ofNat_of_lt (show c.toNat < 256 by omega)] using h, hascii⟩
    rw [← hform]
    by_cases hascii : c.toNat < 0x80
    · have hone : Utf8.encodeChar c = [UInt8.ofNat c.toNat] := by simp [Utf8.encodeChar, hascii]
      simp [hone, hascii]
    · -- The first of several bytes is past ASCII.
      obtain ⟨b, rest, hlead, hb, -⟩ := Search.encodeChar_lead c
      have hhigh := hb.resolve_left fun hboth => hascii hboth.1
      have hbyte : FORM_BYTE b = false := by
        simp only [FORM_BYTE, isAsciiAlphanumeric, Bool.or_eq_false_iff, Bool.and_eq_false_iff, decide_eq_false_iff_not]
        omega
      simp [hlead, hbyte, hascii]
  induction f with
  | nil => simp [utf8]
  | cons c f ih =>
    rw [Search.utf8_cons, List.all_append, Bool.and_eq_true, hchar]
    simp only [ih, List.mem_cons, forall_eq_or_imp]

theorem digit_not_separator {radix limit : ℕ} {s : List Char} {n : ℕ}
    (h : fromStrRadix radix limit s = some n) : ∀ c ∈ s, ¬ isSeparator c := by
  have hdigits : ∀ (digits : List Char) (start : ℕ), (digits.foldlM (fun n c =>
      (toDigit radix c).bind fun d => if n * radix + d ≤ limit then some (n * radix + d) else none) start) = some n →
      ∀ c ∈ digits, ¬ isSeparator c := by
    intro digits
    induction digits with
    | nil => exact fun _ _ c hc => absurd hc List.not_mem_nil
    | cons d digits ih =>
      intro start hfold c hc
      rw [List.foldlM_cons] at hfold
      obtain ⟨next, hnext, hrest⟩ := Option.bind_eq_some_iff.mp hfold
      rcases List.mem_cons.mp hc with rfl | hlater
      · obtain ⟨v, hv, -⟩ := Option.bind_eq_some_iff.mp hnext
        rintro (rfl | rfl)
        · simp [toDigit] at hv
        · simp [toDigit] at hv
      · exact ih next hrest c hlater
  unfold fromStrRadix at h
  dsimp only at h
  split_ifs at h with hplus _ _
  · cases s with
    | nil => simp at hplus
    | cons d s =>
      obtain rfl : d = '+' := by simpa using hplus
      intro c hc
      rcases List.mem_cons.mp hc with rfl | hlater
      · rintro (hsame | hsame) <;> cases hsame
      · exact hdigits _ 0 h c hlater
  · exact hdigits _ 0 h

/-! ## The state after some fields -/

/-- The fields of a line, from its `i`-th cell on. -/
def fieldsFrom (start card : ℕ) : ℕ → List (List Char) → List Field
  | _, [] => []
  | 0, v :: vs => fieldsFrom (start + len v + 1) card 1 vs
  | i + 1, v :: vs => ⟨start, card, decide (i = 0), len v⟩ :: fieldsFrom (start + len v + 1) card (i + 2) vs

def linesFields (start card : ℕ) : List Line → List Field
  | [] => []
  | l :: lines => fieldsFrom start card 0 l.cells ++ linesFields (start + len (cellsText l.cells)) (card + 1) lines

def openText (cells : List (List Char)) : List Char := cells.flatMap (· ++ ['\t'])

def linesEnd (lines : List Line) : ℕ := len (PRINTED_BLOB_HEADER ++ linesText lines)

def lastPartition (lines : List Line) : List (List Char) → ℕ
  | [] => (lines.getLast?.map Line.number).getD 0
  | v :: _ => (fromStrRadix 10 0xffff v).getD 0

/-- The parser's state past whole lines and the cells of one more. -/
def stateOf (lines : List Line) (cells : List (List Char)) : Parsing where
  fields := linesFields (len PRINTED_BLOB_HEADER) 0 lines ++ fieldsFrom (linesEnd lines) lines.length 0 cells
  partitions := lines.map Line.number
  printed := (lines.map fun l => l.forms.length).sum
  start := linesEnd lines + len (openText cells)
  field := cells.length
  partition := lastPartition lines cells

theorem fieldsFrom_concat (start card i : ℕ) (cells : List (List Char)) (v : List Char) :
    fieldsFrom start card i (cells ++ [v]) = fieldsFrom start card i cells ++ (if i + cells.length = 0 then []
        else [⟨start + len (openText cells), card, decide (i + cells.length = 1), len v⟩]) := by
  induction cells generalizing start i with
  | nil =>
    cases i with
    | zero => simp [fieldsFrom]
    | succ i => simp [fieldsFrom, openText]
  | cons w cells ih =>
    have htext : len (openText (w :: cells)) = len w + 1 + len (openText cells) := by
      simp only [openText, List.flatMap_cons, len_append, len_cons, len_nil, show (Utf8.encodeChar '\t').length = 1 from rfl]
    cases i with
    | zero =>
      rw [List.cons_append, fieldsFrom, fieldsFrom, ih, htext]
      simp [Nat.add_assoc, Nat.add_comm 1]
    | succ i =>
      have hindex : i + 1 + (w :: cells).length = i + 2 + cells.length := by
        rw [List.length_cons]
        omega
      rw [List.cons_append, fieldsFrom, fieldsFrom, ih, htext, hindex, List.cons_append]
      simp only [Nat.add_assoc]

theorem linesFields_concat (start card : ℕ) (lines : List Line) (l : Line) :
    linesFields start card (lines ++ [l]) = linesFields start card lines ++
      fieldsFrom (start + len (linesText lines)) (card + lines.length) 0 l.cells := by
  induction lines generalizing start card with
  | nil => simp [linesFields, linesText]
  | cons m lines ih =>
    rw [List.cons_append, linesFields, linesFields, ih]
    simp [linesText, Nat.add_assoc, Nat.add_comm 1]

theorem cellsText_append (cells vs : List (List Char)) (hvs : vs ≠ []) : cellsText (cells ++ vs) = openText cells ++ cellsText vs := by
  induction cells with
  | nil => rfl
  | cons v cells ih =>
    have hne : cells ++ vs ≠ [] := by simp [hvs]
    obtain ⟨w, rest, hrest⟩ := List.exists_cons_of_ne_nil hne
    rw [List.cons_append, hrest, cellsText, ← hrest, ih]
    · simp [openText]
    · intro hnil
      cases hnil

theorem linesEnd_concat (lines : List Line) (l : Line) : linesEnd (lines ++ [l]) = linesEnd lines + len (cellsText l.cells) := by
  simp [linesEnd, linesText, Nat.add_assoc]

/-! ## One separator -/

variable {host : Host} {lines : List Line} {cells : List (List Char)} {value : List Char} {s : Parsing}

/-- A cell the parser takes, behind those of its line. -/
structure CellOk (lines : List Line) (cells : List (List Char)) (value : List Char) : Prop where
  short : len value ≤ 65535
  room : lines.length < 2 ^ 31
  number : cells = [] → (fromStrRadix 10 0xffff value).isSome = true
  form : 2 ≤ cells.length → IsForm value

theorem openText_concat (cells : List (List Char)) (value : List Char) :
    len (openText (cells ++ [value])) = len (openText cells) + len value + 1 := by
  simp only [openText, List.flatMap_append, List.flatMap_cons, List.flatMap_nil, List.append_nil, len_append, len_cons,
    len_nil, show (Utf8.encodeChar '\t').length = 1 from rfl]
  omega

theorem readField_eq {n stop : ℕ} (hstop : stop = (stateOf lines cells).start + len value) (hok : CellOk lines cells value) :
    readField host (stateOf lines cells) n stop value = .ok { stateOf lines (cells ++ [value]) with field := cells.length } := by
  have hshort : ¬ 0xffff < len value := not_lt.mpr hok.short
  have hroom : ¬ 2 ^ 31 ≤ (stateOf lines cells).partitions.length := by
    simpa [stateOf] using hok.room
  have hstart : stop + 1 = (stateOf lines (cells ++ [value])).start := by
    rw [hstop]
    simp only [stateOf, openText_concat]
    omega
  rw [readField, if_neg hshort, if_neg hroom]
  cases cells with
  | nil =>
    obtain ⟨partition, hpartition⟩ := Option.isSome_iff_exists.mp (hok.number rfl)
    simp only [stateOf, List.length_nil, List.nil_append, hpartition] at hstart ⊢
    rw [hstart]
    simp [fieldsFrom, lastPartition, hpartition]
  | cons first cells =>
    cases cells with
    | nil =>
      simp only [stateOf, List.length_cons, List.length_nil] at hstart ⊢
      rw [hstart, fieldsFrom_concat]
      simp [lastPartition]
    | cons second cells =>
      obtain ⟨hne, hform⟩ := hok.form (by simp)
      have hvalue : ¬ (value = [] ∨ (utf8 value).all FORM_BYTE = false) := by
        rintro (hnil | hbad)
        · exact hne hnil
        · rw [form_bytes_iff.mpr hform] at hbad
          cases hbad
      simp only [stateOf, List.length_cons] at hstart ⊢
      rw [if_neg hvalue, hstart, fieldsFrom_concat]
      simp [lastPartition]

theorem cellOk_of_readField {n stop : ℕ} (h : readField host (stateOf lines cells) n stop value = .ok s) :
    CellOk lines cells value := by
  rw [readField] at h
  have hshort : ¬ 0xffff < len value := by
    intro hlong
    rw [if_pos hlong] at h
    cases h
  rw [if_neg hshort] at h
  have hroom : ¬ 2 ^ 31 ≤ (stateOf lines cells).partitions.length := by
    intro hfull
    rw [if_pos hfull] at h
    cases h
  rw [if_neg hroom] at h
  refine ⟨not_lt.mp hshort, by simpa [stateOf] using hroom, fun hnil => ?_, fun hforms => ?_⟩
  · subst hnil
    cases hnumber : fromStrRadix 10 0xffff value with
    | none =>
      simp only [stateOf, List.length_nil, hnumber] at h
      cases h
    | some partition => rfl
  · obtain ⟨k, hk⟩ := Nat.exists_eq_add_of_le' hforms
    have hfield : (stateOf lines cells).field = k + 2 := hk
    rw [hfield] at h
    by_cases hbad : value = [] ∨ (utf8 value).all FORM_BYTE = false
    · rw [if_pos hbad] at h
      cases h
    · push Not at hbad
      exact ⟨hbad.1, form_bytes_iff.mp (Bool.of_not_eq_false hbad.2)⟩

theorem endLine_eq {l : Line} {n : ℕ} (hl : l.cells = cells ++ [value]) (hforms : l.forms ≠ []) :
    endField { stateOf lines (cells ++ [value]) with field := cells.length } n '\n' = .ok (stateOf (lines ++ [l]) []) := by
  obtain ⟨partition, oracle, forms⟩ := l
  obtain ⟨form, forms, rfl⟩ := List.exists_cons_of_ne_nil hforms
  rw [endField, if_neg (by decide)]
  cases cells with
  | nil => cases hl
  | cons first cells =>
    cases cells with
    | nil => cases hl
    | cons second cells =>
      have htail : form :: forms = cells ++ [value] := by
        simp only [Line.cells, List.cons_append, List.cons.injEq] at hl
        exact hl.2.2
      have hlength : cells.length = forms.length := by
        have := congrArg List.length htail
        simpa using this.symm
      have hend : linesEnd lines + len (openText (first :: second :: cells ++ [value])) =
          linesEnd (lines ++ [⟨partition, oracle, form :: forms⟩]) := by
        rw [linesEnd_concat, hl, cellsText_append _ _ (by simp), openText_concat]
        simp [cellsText, show (Utf8.encodeChar '\n').length = 1 from rfl, Nat.add_assoc]
      dsimp only [stateOf, List.length_cons]
      rw [hend, linesFields_concat, ← hl]
      simp [lastPartition, Line.number, openText, hlength, fieldsFrom, linesEnd]
      rfl

/-- What a separator leads to from `stateOf lines cells`, where the cell before it is `value`. -/
inductive Next (lines : List Line) (cells : List (List Char)) (value : List Char) : Char → Parsing → Prop
  | cell : Next lines cells value '\t' (stateOf lines (cells ++ [value]))
  | line {l : Line} : l.cells = cells ++ [value] → l.forms ≠ [] → Next lines cells value '\n' (stateOf (lines ++ [l]) [])

theorem slice_value {text front rest : List Char} {sep : Char} (htext : text = front ++ (value ++ sep :: rest)) :
    slice text (len front) (len front + len value) = some value :=
  slice_eq_some.mpr ⟨front, sep :: rest, htext, rfl, rfl⟩

/-- **One separator goes through exactly when its cell is one the parser takes, and the line it ends is whole.** -/
theorem parseStep_iff {text front rest : List Char} {sep : Char} (hsep : isSeparator sep)
    (htext : text = front ++ (value ++ sep :: rest)) (hfront : len front = (stateOf lines cells).start) :
    parseStep host text (stateOf lines cells) (len front + len value, sep) = .ok s ↔
      CellOk lines cells value ∧ Next lines cells value sep s := by
  have hslice := slice_value htext
  rw [hfront] at hslice
  rw [parseStep, hfront, hslice]
  dsimp only
  constructor
  · intro h
    obtain ⟨read, hread, hend⟩ := Throws.ok_of_bind h
    have hok := cellOk_of_readField hread
    rw [readField_eq rfl hok] at hread
    obtain rfl := Except.ok.inj hread
    refine ⟨hok, ?_⟩
    rcases hsep with rfl | rfl
    · obtain rfl := Except.ok.inj hend
      have hnext : { stateOf lines (cells ++ [value]) with field := cells.length + 1 } = stateOf lines (cells ++ [value]) := by
        simp [stateOf]
      change Next lines cells value '\t' { stateOf lines (cells ++ [value]) with field := cells.length + 1 }
      rw [hnext]
      exact .cell
    · cases cells with
      | nil => cases hend
      | cons first cells =>
        cases cells with
        | nil => cases hend
        | cons second cells =>
          obtain ⟨form, forms, hforms⟩ := List.exists_cons_of_ne_nil (show cells ++ [value] ≠ [] by simp)
          have hl : (⟨first, second, form :: forms⟩ : Line).cells = first :: second :: cells ++ [value] := by
            rw [Line.cells, List.cons_append, List.cons_append, hforms]
          rw [endLine_eq hl (List.cons_ne_nil _ _)] at hend
          obtain rfl := Except.ok.inj hend
          exact .line hl (List.cons_ne_nil _ _)
  · rintro ⟨hok, hnext⟩
    refine Throws.bind_ok (readField_eq rfl hok) |>.trans ?_
    cases hnext with
    | cell => simp [endField, stateOf]
    | line hl hforms => exact endLine_eq hl hforms

/-! ## Whole texts -/

theorem separators_append {sep : Char} (hsep : isSeparator sep) (hvalue : ∀ c ∈ value, ¬ isSeparator c) (start : ℕ)
    (rest : List Char) :
    separators start (value ++ sep :: rest) = (start + len value, sep) :: separators (start + len value + 1) rest := by
  induction value generalizing start with
  | nil =>
    rw [List.nil_append, separators, if_pos (show sep = '\t' ∨ sep = '\n' from hsep)]
    rfl
  | cons c value ih =>
    have hc : ¬ (c = '\t' ∨ c = '\n') := hvalue c (by simp)
    rw [List.cons_append, separators, if_neg hc, ih fun d hd => hvalue d (List.mem_cons_of_mem _ hd), len_cons]
    simp only [Nat.add_assoc]

theorem exists_cell {body : List Char} (hlast : body.getLast? = some '\n') :
    ∃ value sep rest, body = value ++ sep :: rest ∧ (∀ c ∈ value, ¬ isSeparator c) ∧ isSeparator sep ∧
      (rest = [] → sep = '\n') ∧ (rest ≠ [] → rest.getLast? = some '\n') := by
  induction body with
  | nil => cases hlast
  | cons c body ih =>
    by_cases hc : isSeparator c
    · refine ⟨[], c, body, rfl, by simp, hc, fun hnil => ?_, fun hne => ?_⟩
      · subst hnil
        simpa using hlast
      · rwa [List.getLast?_cons_of_ne_nil hne] at hlast
    · have hne : body ≠ [] := by
        rintro rfl
        exact hc (.inr (by simpa using hlast))
      rw [List.getLast?_cons_of_ne_nil hne] at hlast
      obtain ⟨value, sep, rest, rfl, hvalue, hsep, hend, hrest⟩ := ih hlast
      exact ⟨c :: value, sep, rest, rfl, List.forall_mem_cons.mpr ⟨hc, hvalue⟩, hsep, hend, hrest⟩

structure OpenOk (cells : List (List Char)) : Prop where
  short : ∀ v ∈ cells, len v ≤ 65535
  number : ∀ v, cells.head? = some v → (fromStrRadix 10 0xffff v).isSome = true
  forms : ∀ v ∈ cells.drop 2, IsForm v
  clean : ∀ v ∈ cells, ∀ c ∈ v, ¬ isSeparator c

theorem openOk_nil : OpenOk [] := ⟨by simp, by simp, by simp, by simp⟩

theorem OpenOk.concat (h : OpenOk cells) (hok : CellOk lines cells value) (hclean : ∀ c ∈ value, ¬ isSeparator c) :
    OpenOk (cells ++ [value]) where
  short v hv := by
    rcases List.mem_append.mp hv with hv | hv
    · exact h.short v hv
    · rw [List.mem_singleton.mp hv]
      exact hok.short
  number v hv := by
    cases cells with
    | nil =>
      obtain rfl : value = v := by simpa using hv
      exact hok.number rfl
    | cons first cells => exact h.number v hv
  forms v hv := by
    rw [List.drop_append, List.mem_append] at hv
    rcases hv with hv | hv
    · exact h.forms v hv
    · by_cases htwo : 2 ≤ cells.length
      · rw [Nat.sub_eq_zero_of_le htwo, List.drop_zero, List.mem_singleton] at hv
        rw [hv]
        exact hok.form htwo
      · rw [List.drop_eq_nil_of_le (by simp; omega)] at hv
        cases hv
  clean v hv := by
    rcases List.mem_append.mp hv with hv | hv
    · exact h.clean v hv
    · rw [List.mem_singleton.mp hv]
      exact hclean

theorem OpenOk.line {l : Line} (h : OpenOk l.cells) (hforms : l.forms ≠ []) : l.Valid where
  partition := h.number l.partition rfl
  oracle := h.clean l.oracle (by simp [Line.cells])
  some := hforms
  forms := h.forms
  short := h.short

theorem openOk_of_valid {l : Line} (h : l.Valid) : OpenOk l.cells where
  short := h.short
  number v hv := by
    obtain rfl : l.partition = v := by simpa [Line.cells] using hv
    exact h.partition
  forms := h.forms
  clean v hv := by
    rcases List.mem_cons.mp hv with rfl | hv
    · obtain ⟨n, hn⟩ := Option.isSome_iff_exists.mp h.partition
      exact digit_not_separator hn
    · rcases List.mem_cons.mp hv with rfl | hv
      · exact h.oracle
      · rintro c hc (rfl | rfl)
        · rcases (h.forms v hv).2 _ hc with hsame | hsame <;> revert hsame <;> decide
        · rcases (h.forms v hv).2 _ hc with hsame | hsame <;> revert hsame <;> decide

theorem lines_of_run {text body : List Char} (htext : text = PRINTED_BLOB_HEADER ++ linesText lines ++ openText cells ++ body)
    (hlast : body ≠ [] → body.getLast? = some '\n') (hopen : body = [] → cells = []) (hlines : ∀ l ∈ lines, l.Valid)
    (hcount : lines.length ≤ 2 ^ 31) (hcells : OpenOk cells)
    (hrun : (separators (stateOf lines cells).start body).foldlM (parseStep host text) (stateOf lines cells) = .ok s) :
    ∃ lines', (∀ l ∈ lines', l.Valid) ∧ lines'.length ≤ 2 ^ 31 ∧ text = PRINTED_BLOB_HEADER ++ linesText lines' ∧
      s = stateOf lines' [] := by
  induction hlen : body.length using Nat.strong_induction_on generalizing lines cells body with
  | _ n ih =>
    by_cases hbody : body = []
    · subst hbody
      obtain rfl := hopen rfl
      obtain rfl := Except.ok.inj hrun
      exact ⟨lines, hlines, hcount, by simpa [openText] using htext, rfl⟩
    · obtain ⟨value, sep, rest, rfl, hclean, hsep, hend, hrest⟩ := exists_cell (hlast hbody)
      have hfront : len (PRINTED_BLOB_HEADER ++ linesText lines ++ openText cells) = (stateOf lines cells).start := by
        rw [len_append]
        rfl
      rw [separators_append hsep hclean, List.foldlM_cons, ← hfront] at hrun
      obtain ⟨next, hstep, hrest'⟩ := Throws.ok_of_bind hrun
      obtain ⟨hok, hnext⟩ := (parseStep_iff hsep htext hfront).mp hstep
      have hcells' := hcells.concat hok hclean
      cases hnext with
      | cell =>
        refine ih rest.length (by rw [← hlen]; simp; omega) ?_ hrest (fun hnil => ?_) hlines hcount hcells' ?_ rfl
        · rw [htext]
          simp [openText]
        · cases hend hnil
        · have hstart : len (PRINTED_BLOB_HEADER ++ linesText lines ++ openText cells) + len value + 1 =
              (stateOf lines (cells ++ [value])).start := by
            rw [hfront]
            simp only [stateOf, openText_concat]
            omega
          rwa [hstart] at hrest'
      | @line l hl hforms =>
        have hvalid : l.Valid := OpenOk.line (hl ▸ hcells') hforms
        have hstart : len (PRINTED_BLOB_HEADER ++ linesText lines ++ openText cells) + len value + 1 =
            (stateOf (lines ++ [l]) []).start := by
          rw [hfront]
          simp only [stateOf, linesEnd_concat, hl, cellsText_append cells [value] (by simp), cellsText, openText,
            List.flatMap_nil, len_append, len_cons, len_nil, show (Utf8.encodeChar '\n').length = 1 from rfl]
          omega
        rw [hstart] at hrest'
        refine ih rest.length (by rw [← hlen]; simp; omega) ?_ hrest (fun _ => rfl) ?_ ?_ openOk_nil hrest' rfl
        · rw [htext, linesText, linesText, List.flatMap_append, List.flatMap_singleton, hl,
            cellsText_append cells [value] (by simp)]
          simp [cellsText, openText]
        · intro m hm
          rcases List.mem_append.mp hm with hm | hm
          · exact hlines m hm
          · rw [List.mem_singleton.mp hm]
            exact hvalid
        · rw [List.length_append, List.length_singleton]
          exact hok.room

theorem CellOk.of_valid {l : Line} {more : List (List Char)} (h : l.Valid) (hcells : l.cells = cells ++ value :: more)
    (hroom : lines.length < 2 ^ 31) : CellOk lines cells value where
  short := h.short value (by simp [hcells])
  room := hroom
  number hnil := by
    subst hnil
    obtain rfl : l.partition = value := (List.cons.inj hcells).1
    exact h.partition
  form htwo := by
    obtain ⟨first, cells, rfl⟩ := List.exists_cons_of_length_pos (show 0 < cells.length by omega)
    obtain ⟨second, cells, rfl⟩ := List.exists_cons_of_length_pos (show 0 < cells.length by simp only [List.length_cons] at htwo; omega)
    simp only [Line.cells, List.cons_append, List.cons.injEq] at hcells
    exact h.forms value (by simp [hcells.2.2])

theorem run_line {text rest : List Char} {l : Line} {vs : List (List Char)} (hvs : vs ≠ []) (hvalid : l.Valid)
    (hcells : l.cells = cells ++ vs) (hroom : lines.length < 2 ^ 31)
    (htext : text = PRINTED_BLOB_HEADER ++ linesText lines ++ openText cells ++ (cellsText vs ++ rest)) :
    (separators (stateOf lines cells).start (cellsText vs ++ rest)).foldlM (parseStep host text) (stateOf lines cells) =
      (separators (linesEnd (lines ++ [l])) rest).foldlM (parseStep host text) (stateOf (lines ++ [l]) []) := by
  induction vs generalizing cells with
  | nil => exact absurd rfl hvs
  | cons v vs ih =>
    have hfront : len (PRINTED_BLOB_HEADER ++ linesText lines ++ openText cells) = (stateOf lines cells).start := by
      rw [len_append]
      rfl
    have hok : CellOk lines cells v := .of_valid hvalid hcells hroom
    have hclean : ∀ c ∈ v, ¬ isSeparator c := (openOk_of_valid hvalid).clean v (by simp [hcells])
    cases vs with
    | nil =>
      have hsplit : cellsText [v] ++ rest = v ++ '\n' :: rest := by simp [cellsText]
      rw [hsplit] at htext ⊢
      have hnext : Next lines cells v '\n' (stateOf (lines ++ [l]) []) := .line hcells hvalid.some
      have hstep := (@parseStep_iff host _ _ _ _ _ _ _ _ (.inr rfl) htext hfront).mpr ⟨hok, hnext⟩
      rw [separators_append (.inr rfl) hclean, List.foldlM_cons, ← hfront, hstep]
      have hstart : len (PRINTED_BLOB_HEADER ++ linesText lines ++ openText cells) + len v + 1 =
          linesEnd (lines ++ [l]) := by
        rw [hfront, linesEnd_concat, hcells, cellsText_append cells [v] (by simp)]
        simp only [stateOf, cellsText, len_append, len_cons, len_nil, show (Utf8.encodeChar '\n').length = 1 from rfl]
        omega
      rw [hstart]
      rfl
    | cons w vs =>
      have hsplit : cellsText (v :: w :: vs) ++ rest = v ++ '\t' :: (cellsText (w :: vs) ++ rest) := by
        rw [cellsText, List.append_assoc, List.cons_append]
        intro hnil
        cases hnil
      rw [hsplit] at htext ⊢
      have hstep := (@parseStep_iff host _ _ _ _ _ _ _ _ (.inl rfl) htext hfront).mpr ⟨hok, .cell⟩
      rw [separators_append (.inl rfl) hclean, List.foldlM_cons, ← hfront, hstep]
      have hstart : len (PRINTED_BLOB_HEADER ++ linesText lines ++ openText cells) + len v + 1 =
          (stateOf lines (cells ++ [v])).start := by
        rw [hfront]
        simp only [stateOf, openText_concat]
        omega
      rw [hstart]
      refine ih (List.cons_ne_nil _ _) (by rw [hcells]; simp) ?_
      rw [htext]
      simp [openText]

theorem run_lines {text : List Char} {more : List Line} (hmore : ∀ l ∈ more, l.Valid)
    (hroom : lines.length + more.length ≤ 2 ^ 31) (htext : text = PRINTED_BLOB_HEADER ++ linesText lines ++ linesText more) :
    (separators (linesEnd lines) (linesText more)).foldlM (parseStep host text) (stateOf lines []) =
      .ok (stateOf (lines ++ more) []) := by
  induction more generalizing lines with
  | nil =>
    rw [List.append_nil]
    rfl
  | cons l more ih =>
    rw [List.length_cons] at hroom
    have hline : text = PRINTED_BLOB_HEADER ++ linesText lines ++ openText [] ++ (cellsText l.cells ++ linesText more) := by
      rw [htext]
      simp [openText, linesText]
    have hrun := @run_line host _ _ _ _ _ _ (List.cons_ne_nil _ _) (hmore l (by simp)) (List.nil_append l.cells).symm
      (by omega) hline
    have hstart : (stateOf lines []).start = linesEnd lines := rfl
    rw [hstart] at hrun
    rw [linesText, List.flatMap_cons]
    refine hrun.trans ((ih (fun m hm => hmore m (List.mem_cons_of_mem _ hm)) ?_ ?_).trans ?_)
    · rw [List.length_append, List.length_singleton]
      omega
    · rw [htext]
      simp [linesText]
    · rw [List.append_assoc, List.singleton_append]

def listOf (lines : List Line) : PrintedList where
  text := PRINTED_BLOB_HEADER ++ linesText lines
  fields := linesFields (len PRINTED_BLOB_HEADER) 0 lines
  partitions := lines.map Line.number
  printed := (lines.map fun l => l.forms.length).sum

/-- The bytes of a blob: the header and whole lines, within what the offsets address. -/
structure BlobOf (lines : List Line) (raw : Bytes) : Prop where
  bytes : raw = utf8 (PRINTED_BLOB_HEADER ++ linesText lines)
  valid : ∀ l ∈ lines, l.Valid
  size : raw.length < 2 ^ 32
  count : lines.length ≤ 2 ^ 31

theorem getLast?_linesText (lines : List Line) (h : linesText lines ≠ []) : (linesText lines).getLast? = some '\n' := by
  have hcells : ∀ cells : List (List Char), cells ≠ [] → ∃ front, cellsText cells = front ++ ['\n'] := by
    intro cells hne
    obtain ⟨front, last, rfl⟩ := (List.eq_nil_or_concat cells).resolve_left hne
    rw [List.concat_eq_append]
    exact ⟨openText front ++ last, by rw [cellsText_append front [last] (by simp), cellsText, List.append_assoc]⟩
  rcases List.eq_nil_or_concat lines with rfl | ⟨front, l, rfl⟩
  · exact absurd rfl h
  · obtain ⟨text, htext⟩ := hcells l.cells (List.cons_ne_nil _ _)
    rw [List.concat_eq_append, linesText, List.flatMap_append, List.flatMap_singleton, htext, ← List.append_assoc,
      List.getLast?_concat]

/-- **The parser accepts exactly the blobs of whole lines.** -/
theorem parse_iff {raw : Bytes} {list : PrintedList} :
    parse host raw = .ok list ↔ ∃ lines, BlobOf lines raw ∧ list = listOf lines := by
  constructor
  · intro h
    unfold parse at h
    cases htext : fromUtf8 raw with
    | none =>
      rw [htext] at h
      cases h
    | some text =>
      rw [htext] at h
      dsimp only at h
      by_cases hheader : PRINTED_BLOB_HEADER <+: text
      · rw [if_neg (not_not.mpr hheader)] at h
        have hsize : ¬ 2 ^ 32 ≤ len text := by
          intro hlong
          rw [if_pos hlong] at h
          cases h
        rw [if_neg hsize] at h
        obtain ⟨body, rfl⟩ := hheader
        rw [List.drop_left] at h
        have hend : ¬ (body ≠ [] ∧ body.getLast? ≠ some '\n') := by
          intro hbad
          rw [if_pos hbad] at h
          cases h
        rw [if_neg hend] at h
        obtain ⟨s, hrun, hlist⟩ := Throws.ok_of_bind h
        have hlast : body ≠ [] → body.getLast? = some '\n' := by
          intro hne
          by_contra hbad
          exact hend ⟨hne, hbad⟩
        have hempty : linesEnd [] = len PRINTED_BLOB_HEADER := by simp [linesEnd, linesText]
        have hstart : stateOf [] [] = ⟨[], [], 0, len PRINTED_BLOB_HEADER, 0, 0⟩ := by
          simp [stateOf, linesFields, fieldsFrom, hempty, openText, lastPartition]
        rw [← hstart] at hrun
        have hat : len PRINTED_BLOB_HEADER = (stateOf [] []).start := by rw [hstart]
        rw [hat] at hrun
        obtain ⟨lines, hvalid, hcount, hbody, rfl⟩ := lines_of_run (by simp [linesText, openText]) hlast (fun _ => rfl)
          (by simp) (by simp) openOk_nil hrun
        have hraw := utf8_of_fromUtf8 htext
        refine ⟨lines, ⟨by rw [← hraw, hbody], hvalid, ?_, hcount⟩, ?_⟩
        · rw [← hraw]
          exact not_le.mp hsize
        · rw [← Except.ok.inj hlist, hbody]
          simp [listOf, stateOf, fieldsFrom]
      · rw [if_pos hheader] at h
        cases h
  · rintro ⟨lines, ⟨rfl, hvalid, hsize, hcount⟩, rfl⟩
    have hempty : linesEnd [] = len PRINTED_BLOB_HEADER := by simp [linesEnd, linesText]
    have hrun := @run_lines host [] (PRINTED_BLOB_HEADER ++ linesText lines) lines hvalid (by simpa using hcount)
      (by simp [linesText])
    have hstart : stateOf [] [] = ⟨[], [], 0, len PRINTED_BLOB_HEADER, 0, 0⟩ := by
      simp [stateOf, linesFields, fieldsFrom, hempty, openText, lastPartition]
    rw [hempty, hstart, List.nil_append] at hrun
    unfold parse
    rw [fromUtf8_utf8]
    dsimp only
    have hlen : ¬ 2 ^ 32 ≤ len (PRINTED_BLOB_HEADER ++ linesText lines) := not_le.mpr hsize
    rw [if_neg (not_not.mpr (List.prefix_append _ _)), if_neg hlen, List.drop_left, if_neg, hrun]
    · simp [listOf, stateOf, fieldsFrom, pure, Except.pure, bind, Except.bind]
    · rintro ⟨hne, hlast⟩
      exact hlast (getLast?_linesText lines hne)

end PrintedNames
