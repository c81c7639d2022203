-- SUMMARY: The partitions a search of the printed names answers: those of the cards whose printed name completes the words.
import Sylvan.Engine.PrintedNamesParse

/-!
# Carriers

A word is searched for in the text as a whole. A hit is credited to the last field that starts
no later, and only where it ends within it, so a partition number is no name and a hit belongs
to one field; past a hit the search goes on behind that field.
-/

namespace PrintedNames

open RustStr Search
open RustStr (len)

/-! ## Fields and places -/

/-- A hit at `p` lies within the field. -/
def Field.Holds (f : Field) (word : Bytes) (p : ℕ) : Prop := f.start ≤ p ∧ p + word.length ≤ f.start + f.len

def Apart (fields : List Field) : Prop := fields.Pairwise fun f g => f.start + f.len < g.start

section

variable {fields : List Field} {hay word : Bytes}

theorem lt_partitionPoint_iff (h : Apart fields) {j : ℕ} (hj : j < fields.length) (p : ℕ) :
    j < partitionPoint fields p ↔ fields[j].start ≤ p := by
  induction fields generalizing j with
  | nil => cases hj
  | cons f fields ih =>
    obtain ⟨hfirst, hrest⟩ := List.pairwise_cons.mp h
    unfold partitionPoint Search.partitionPoint
    rw [List.takeWhile_cons]
    by_cases hstart : f.start ≤ p
    · rw [if_pos (by simpa using hstart), List.length_cons]
      cases j with
      | zero => simpa using hstart
      | succ j =>
        have := ih hrest (Nat.lt_of_succ_lt_succ hj)
        rw [Nat.succ_lt_succ_iff]
        exact this
    · rw [if_neg (by simpa using hstart), List.length_nil]
      refine ⟨fun hlt => absurd hlt (Nat.not_lt_zero j), fun hle => absurd ?_ hstart⟩
      cases j with
      | zero => exact hle
      | succ j =>
        have hbound : j < fields.length := Nat.lt_of_succ_lt_succ hj
        have hlater := hfirst _ (List.getElem_mem hbound)
        have hsame : fields[j].start ≤ p := hle
        omega

theorem partitionPoint_of_holds (h : Apart fields) (hword : word ≠ []) {j p : ℕ} (hj : j < fields.length)
    (hholds : fields[j].Holds word p) : partitionPoint fields p = j + 1 := by
  have hpos := List.length_pos_of_ne_nil hword
  have hlt : j < partitionPoint fields p := (lt_partitionPoint_iff h hj p).mpr hholds.1
  by_contra hne
  have hnext : j + 1 < partitionPoint fields p := by omega
  have hbound : j + 1 < fields.length := lt_of_lt_of_le hnext (List.takeWhile_prefix _).length_le
  have hstart := (lt_partitionPoint_iff h hbound p).mp hnext
  have hgap := List.pairwise_iff_getElem.mp h j (j + 1) hj hbound (Nat.lt_succ_self j)
  have hstop := hholds.2
  omega

theorem eq_of_within (h : Apart fields) {j k p : ℕ} (hj : j < fields.length) (hk : k < fields.length)
    (hpj : fields[j].start ≤ p ∧ p < fields[j].start + fields[j].len)
    (hpk : fields[k].start ≤ p ∧ p < fields[k].start + fields[k].len) : j = k := by
  rcases Nat.lt_trichotomy j k with hlt | heq | hgt
  · have := List.pairwise_iff_getElem.mp h j k hj hk hlt
    omega
  · exact heq
  · have := List.pairwise_iff_getElem.mp h k j hk hj hgt
    omega

/-! ## One word -/

/-- What the loop knows at `pos`: every mark is a hit's, and every hit before `pos` is marked. -/
structure Marked (fields : List Field) (hay word : Bytes) (pos : ℕ) (marks : List Bool) : Prop where
  length : marks.length = fields.length
  sound : ∀ j (hj : j < fields.length), marks[j]? = some true → ∃ p, fields[j].Holds word p ∧ At word hay p
  complete : ∀ j (hj : j < fields.length) p, p < pos → fields[j].Holds word p → At word hay p → marks[j]? = some true

theorem at_drop {pos off : ℕ} : At word (hay.drop pos) off ↔ At word hay (pos + off) := by
  rw [At, At, List.drop_drop]

theorem Marked.hit {pos at_ i : ℕ} {marks : List Bool} (h : Marked fields hay word pos marks) (hapart : Apart fields)
    (hword : word ≠ []) (hat : At word hay at_) (hfirst : ∀ p, pos ≤ p → p < at_ → ¬ At word hay p) (hi : i < fields.length)
    (hholds : fields[i].Holds word at_) :
    Marked fields hay word (fields[i].start + fields[i].len) (marks.set i true) where
  length := by rw [List.length_set, h.length]
  sound j hj hmark := by
    rw [List.getElem?_set] at hmark
    split_ifs at hmark with hsame hlength
    · subst hsame
      exact ⟨at_, hholds, hat⟩
    · exact h.sound j hj hmark
  complete j hj p hp hin hit := by
    have hpos := List.length_pos_of_ne_nil hword
    rw [List.getElem?_set]
    by_cases hsame : i = j
    · rw [if_pos hsame, if_pos (by rw [h.length]; exact hi)]
    · rw [if_neg hsame]
      refine h.complete j hj p ?_ hin hit
      -- A later hit short of the field's end lies in the field.
      by_contra hlater
      have hge : at_ ≤ p := by
        by_contra hbefore
        exact hfirst p (Nat.not_lt.mp hlater) (Nat.not_le.mp hbefore) hit
      have hstart := hholds.1
      have hstop := hin.2
      exact hsame (eq_of_within hapart hi hj ⟨by omega, hp⟩ ⟨hin.1, by omega⟩)

theorem Marked.miss {pos at_ : ℕ} {marks : List Bool} (h : Marked fields hay word pos marks)
    (hfirst : ∀ p, pos ≤ p → p < at_ → ¬ At word hay p)
    (hnone : ∀ j (hj : j < fields.length), ¬ fields[j].Holds word at_) : Marked fields hay word (at_ + 1) marks where
  length := h.length
  sound := h.sound
  complete j hj p hp hin hit := by
    refine h.complete j hj p ?_ hin hit
    by_contra hlater
    by_cases heq : p = at_
    · exact hnone j hj (heq ▸ hin)
    · exact hfirst p (Nat.not_lt.mp hlater) (by omega) hit

theorem markFields_spec (hapart : Apart fields) (hword : word ≠ []) {left pos : ℕ} {marks : List Bool}
    (hleft : hay.length ≤ pos + left) (h : Marked fields hay word pos marks) :
    ∃ pos', (∀ p, pos' ≤ p → ¬ At word hay p) ∧ Marked fields hay word pos' (markFields fields hay word left pos marks) := by
  have hpast : ∀ p, hay.length ≤ p → ¬ At word hay p := by
    intro p hp hit
    have hbound := hit.length_le hword
    have hpos := List.length_pos_of_ne_nil hword
    omega
  induction left generalizing pos marks with
  | zero => exact ⟨pos, fun p hp => hpast p (by omega), h⟩
  | succ left ih =>
    rw [markFields]
    by_cases hmore : pos < hay.length
    · rw [if_pos hmore]
      cases hfind : find word (hay.drop pos) with
      | none =>
        refine ⟨pos, fun p hp hit => find_eq_none hfind (p - pos) ?_, h⟩
        rw [at_drop, Nat.add_sub_cancel' hp]
        exact hit
      | some off =>
        obtain ⟨hat, hbefore⟩ := find_eq_some hfind
        rw [at_drop] at hat
        have hfirst : ∀ p, pos ≤ p → p < pos + off → ¬ At word hay p := by
          intro p hp hlt hit
          refine hbefore (p - pos) (by omega) ?_
          rw [at_drop, Nat.add_sub_cancel' hp]
          exact hit
        have hpos := List.length_pos_of_ne_nil hword
        dsimp only
        by_cases hcredit : ∃ j, ∃ hj : j < fields.length, fields[j].Holds word (pos + off)
        · obtain ⟨j, hj, hholds⟩ := hcredit
          have hpoint := partitionPoint_of_holds hapart hword hj hholds
          have hend : fieldEnd fields word (pos + off) = some (fields[j].start + fields[j].len) := by
            rw [fieldEnd, hpoint, Nat.add_sub_cancel, List.getElem?_eq_getElem hj]
            exact if_pos ⟨Nat.succ_pos j, hholds.2⟩
          rw [hend, hpoint, Nat.add_sub_cancel]
          have hstop := hholds.2
          exact ih (by omega) (h.hit hapart hword hat hfirst hj hholds)
        · push Not at hcredit
          have hend : fieldEnd fields word (pos + off) = none := by
            rw [fieldEnd]
            cases hfield : fields[partitionPoint fields (pos + off) - 1]? with
            | none => rfl
            | some f =>
              obtain ⟨hi, rfl⟩ := List.getElem?_eq_some_iff.mp hfield
              refine if_neg fun hboth => hcredit _ hi ⟨?_, hboth.2⟩
              exact (lt_partitionPoint_iff hapart hi _).mp (by omega)
          rw [hend]
          exact ih (by omega) (h.miss hfirst hcredit)
    · rw [if_neg hmore]
      exact ⟨pos, fun p hp => hpast p (by omega), h⟩

end

/-! ## The fields of a text -/

def Stands (hay : Bytes) (f : Field) (v : List Char) : Prop :=
  f.len = len v ∧ f.start + f.len ≤ hay.length ∧ (hay.drop f.start).take f.len = utf8 v

/-- Fields apart from each other, between two places. -/
structure Between (start stop : ℕ) (fields : List Field) : Prop where
  apart : Apart fields
  within : ∀ f ∈ fields, start ≤ f.start ∧ f.start + f.len < stop

theorem Between.append {a b c : ℕ} {fields more : List Field} (h : Between a b fields) (h' : Between b c more) (hab : a ≤ b)
    (hbc : b ≤ c) : Between a c (fields ++ more) where
  apart := by
    refine List.pairwise_append.mpr ⟨h.apart, h'.apart, fun f hf g hg => ?_⟩
    exact lt_of_lt_of_le (h.within f hf).2 (h'.within g hg).1
  within f hf := by
    rcases List.mem_append.mp hf with hf | hf
    · exact ⟨(h.within f hf).1, lt_of_lt_of_le (h.within f hf).2 hbc⟩
    · exact ⟨le_trans hab (h'.within f hf).1, (h'.within f hf).2⟩

theorem cellsText_cons (v : List Char) (vs : List (List Char)) :
    ∃ sep rest, cellsText (v :: vs) = v ++ sep :: rest ∧ isSeparator sep ∧ (vs = [] ∧ rest = [] ∨ rest = cellsText vs) := by
  cases vs with
  | nil => exact ⟨'\n', [], rfl, .inr rfl, .inl ⟨rfl, rfl⟩⟩
  | cons w vs => exact ⟨'\t', cellsText (w :: vs), rfl, .inl rfl, .inr rfl⟩

theorem separator_bytes {sep : Char} (h : isSeparator sep) : ∃ b, Utf8.encodeChar sep = [b] := by
  rcases h with rfl | rfl
  · exact ⟨9, rfl⟩
  · exact ⟨10, rfl⟩

theorem fieldsFrom_stands {hay front back : Bytes} {start card i : ℕ} {cells : List (List Char)}
    (hhay : hay = front ++ (utf8 (cellsText cells) ++ back)) (hstart : front.length = start) :
    List.Forall₂ (Stands hay) (fieldsFrom start card (i + 1) cells) cells ∧
      Between start (start + len (cellsText cells)) (fieldsFrom start card (i + 1) cells) := by
  induction cells generalizing front start i with
  | nil => exact ⟨.nil, List.Pairwise.nil, by simp [fieldsFrom]⟩
  | cons v vs ih =>
    obtain ⟨sep, rest, htext, hsep, hrest⟩ := cellsText_cons v vs
    obtain ⟨b, hb⟩ := separator_bytes hsep
    have hbytes : utf8 (cellsText (v :: vs)) = utf8 v ++ b :: utf8 rest := by
      rw [htext, utf8_append, utf8_cons, hb, List.singleton_append]
    have hlen : len (cellsText (v :: vs)) = len v + 1 + len rest := by
      rw [len, hbytes, List.length_append, List.length_cons]
      simp only [len]
      omega
    have hrestEq : rest = cellsText vs := by
      rcases hrest with ⟨rfl, rfl⟩ | hrest
      · rfl
      · exact hrest
    have hnext : hay = (front ++ utf8 v ++ [b]) ++ (utf8 (cellsText vs) ++ back) := by
      rw [hhay, hbytes, hrestEq]
      simp
    have hnextStart : (front ++ utf8 v ++ [b]).length = start + len v + 1 := by
      rw [List.length_append, List.length_append, hstart]
      rfl
    obtain ⟨hstands, hbetween⟩ := @ih _ _ (i + 1) hnext hnextStart
    rw [fieldsFrom, hlen, hrestEq]
    have hfield : Stands hay ⟨start, card, decide (i = 0), len v⟩ v := by
      refine ⟨rfl, ?_, ?_⟩
      · rw [hhay, hbytes]
        simp only [List.length_append, List.length_cons, len, hstart]
        omega
      · rw [hhay, hbytes]
        dsimp only
        rw [← hstart, List.drop_left, List.append_assoc, len, List.take_left]
    refine ⟨.cons hfield hstands, ?_⟩
    have hone : Between start (start + len v + 1) [⟨start, card, decide (i = 0), len v⟩] :=
      ⟨List.pairwise_singleton _ _, by simp⟩
    have hall := hone.append hbetween (by omega) (by omega)
    rwa [List.singleton_append, Nat.add_assoc start, Nat.add_assoc start] at hall

def valuesOf (lines : List Line) : List (List Char) := lines.flatMap fun l => l.oracle :: l.forms

theorem linesFields_stands {hay front back : Bytes} {start card : ℕ} {lines : List Line}
    (hhay : hay = front ++ (utf8 (linesText lines) ++ back)) (hstart : front.length = start) :
    List.Forall₂ (Stands hay) (linesFields start card lines) (valuesOf lines) ∧
      Between start (start + len (linesText lines)) (linesFields start card lines) := by
  induction lines generalizing front start card with
  | nil => exact ⟨.nil, List.Pairwise.nil, by simp [linesFields]⟩
  | cons l lines ih =>
    have hline : cellsText l.cells = l.partition ++ '\t' :: cellsText (l.oracle :: l.forms) := rfl
    have hcells : hay = (front ++ utf8 l.partition ++ [9]) ++
        (utf8 (cellsText (l.oracle :: l.forms)) ++ (utf8 (linesText lines) ++ back)) := by
      rw [hhay, linesText, List.flatMap_cons, utf8_append, hline, utf8_append, utf8_cons]
      simp [linesText, show Utf8.encodeChar '\t' = [9] from rfl]
    have hcellsStart : (front ++ utf8 l.partition ++ [9]).length = start + len l.partition + 1 := by
      rw [List.length_append, List.length_append, hstart]
      rfl
    have hmore : hay = (front ++ utf8 (cellsText l.cells)) ++ (utf8 (linesText lines) ++ back) := by
      rw [hhay, linesText, List.flatMap_cons, utf8_append]
      simp [linesText]
    have hmoreStart : (front ++ utf8 (cellsText l.cells)).length = start + len (cellsText l.cells) := by
      rw [List.length_append, hstart]
      rfl
    obtain ⟨hstands, hbetween⟩ := @fieldsFrom_stands _ _ _ _ card 0 _ hcells hcellsStart
    obtain ⟨hstands', hbetween'⟩ := @ih _ _ (card + 1) hmore hmoreStart
    have hlen : len (cellsText l.cells) = len l.partition + 1 + len (cellsText (l.oracle :: l.forms)) := by
      rw [hline]
      simp only [len_append, len_cons, show (Utf8.encodeChar '\t').length = 1 from rfl]
      omega
    have hfields : fieldsFrom start card 0 l.cells =
        fieldsFrom (start + len l.partition + 1) card 1 (l.oracle :: l.forms) := rfl
    have htotal : len (linesText (l :: lines)) = len (cellsText l.cells) + len (linesText lines) := by
      rw [linesText, List.flatMap_cons, len_append]
      rfl
    rw [linesFields, hfields, htotal, valuesOf, List.flatMap_cons, ← Nat.add_assoc]
    refine ⟨List.rel_append hstands hstands', ?_⟩
    have hfirst : Between start (start + len (cellsText l.cells))
        (fieldsFrom (start + len l.partition + 1) card 1 (l.oracle :: l.forms)) := by
      refine ⟨hbetween.apart, fun f hf => ?_⟩
      have hwithin := hbetween.within f hf
      omega
    exact hfirst.append hbetween' (by omega) (by omega)

/-! ## Every word -/

def holds (values : List (List Char)) (word : List Char) : List Bool := values.map fun v => decide (word <:+: v)

theorem holds_getD {values : List (List Char)} {word v : List Char} {i : ℕ} (h : values[i]? = some v) :
    (holds values word).getD i false = decide (word <:+: v) := by
  rw [holds, List.getD_eq_getElem?_getD, List.getElem?_map, h]
  rfl

theorem exists_holds_iff {hay : Bytes} {f : Field} {v word : List Char} (h : Stands hay f v) (hword : word ≠ []) :
    (∃ p, f.Holds (utf8 word) p ∧ At (utf8 word) hay p) ↔ word <:+: v := by
  obtain ⟨-, hfits, hwindow⟩ := h
  have hne : utf8 word ≠ [] := by
    obtain ⟨c, cs, rfl⟩ := List.exists_cons_of_ne_nil hword
    rw [utf8_cons]
    exact List.append_ne_nil_of_left_ne_nil (encodeChar_ne_nil c) _
  rw [← infix_utf8_iff, ← hwindow, infix_window_iff hfits hne]
  simp only [Field.Holds, and_assoc]

theorem markFields_eq {fields : List Field} {values : List (List Char)} {hay : Bytes} {start : ℕ} {word : List Char}
    (hstands : List.Forall₂ (Stands hay) fields values) (hapart : Apart fields) (hstart : ∀ f ∈ fields, start ≤ f.start)
    (hword : word ≠ []) :
    markFields fields hay (utf8 word) hay.length start (List.replicate fields.length false) = holds values word := by
  have hne : utf8 word ≠ [] := by
    obtain ⟨c, cs, rfl⟩ := List.exists_cons_of_ne_nil hword
    rw [utf8_cons]
    exact List.append_ne_nil_of_left_ne_nil (encodeChar_ne_nil c) _
  have hunmarked : Marked fields hay (utf8 word) start (List.replicate fields.length false) := by
    refine ⟨List.length_replicate, fun j hj hmark => ?_, fun j hj p hp hin _ => ?_⟩
    · simp [hj] at hmark
    · have := hstart _ (List.getElem_mem hj)
      have := hin.1
      omega
  obtain ⟨pos, hnone, hmarked⟩ := markFields_spec hapart hne (Nat.le_add_left _ _) hunmarked
  have hlength := hstands.length_eq
  refine List.ext_getElem (by rw [hmarked.length, holds, List.length_map, hlength]) fun j hj hj' => ?_
  rw [hmarked.length] at hj
  have hvalue : j < values.length := hlength ▸ hj
  have hiff : (markFields fields hay (utf8 word) hay.length start (List.replicate fields.length false))[j]? = some true ↔
      word <:+: values[j] := by
    have hstand : Stands hay fields[j] values[j] := hstands.get hj hvalue
    rw [← exists_holds_iff hstand hword]
    constructor
    · exact hmarked.sound j hj
    · rintro ⟨p, hin, hit⟩
      refine hmarked.complete j hj p ?_ hin hit
      by_contra hpast
      exact hnone p (Nat.not_lt.mp hpast) hit
  simp only [holds, List.getElem_map]
  rw [List.getElem?_eq_getElem (by rw [hmarked.length]; exact hj), Option.some.injEq] at hiff
  by_cases hin : word <:+: values[j]
  · rw [hiff.mpr hin, decide_eq_true hin]
  · rw [decide_eq_false hin]
    exact Bool.eq_false_of_not_eq_true fun hmark => hin (hiff.mp hmark)

theorem hits_eq {fields : List Field} {values : List (List Char)} {hay : Bytes} {words : List (List Char)}
    (hstands : List.Forall₂ (Stands hay) fields values) (hapart : Apart fields)
    (hstart : ∀ f ∈ fields, len PRINTED_BLOB_HEADER ≤ f.start) (hwords : ∀ w ∈ words, w ≠ []) :
    hits fields hay (words.map utf8) =
      if ∀ w ∈ words, ∃ v ∈ values, w <:+: v then some (words.map (holds values)) else none := by
  induction words with
  | nil => simp [hits]
  | cons w words ih =>
    have hfirst := markFields_eq hstands hapart hstart (hwords w (by simp))
    have hany : (holds values w).any id = true ↔ ∃ v ∈ values, w <:+: v := by
      simp [holds]
    rw [List.map_cons, hits, hfirst, ih fun u hu => hwords u (List.mem_cons_of_mem _ hu)]
    by_cases hfound : ∃ v ∈ values, w <:+: v
    · rw [if_pos (hany.mpr hfound)]
      by_cases hrest : ∀ u ∈ words, ∃ v ∈ values, u <:+: v
      · rw [if_pos hrest, if_pos (List.forall_mem_cons.mpr ⟨hfound, hrest⟩ : ∀ u ∈ w :: words, ∃ v ∈ values, u <:+: v)]
        rfl
      · rw [if_neg hrest, if_neg fun hall => hrest fun u hu => hall u (List.mem_cons_of_mem _ hu)]
        rfl
    · rw [if_neg fun hmark => hfound (hany.mp hmark), if_neg fun hall => hfound (hall w (by simp))]

/-! ## The partitions -/

/-- A form completes the words with its oracle name, and carries one of them itself. -/
def FormCarries (words : List (List Char)) (oracle form : List Char) : Prop :=
  (∀ w ∈ words, w <:+: form ∨ w <:+: oracle) ∧ ∃ w ∈ words, w <:+: form

instance (words : List (List Char)) (oracle : List Char) : DecidablePred (FormCarries words oracle) :=
  fun form => inferInstanceAs (Decidable ((∀ w ∈ words, w <:+: form ∨ w <:+: oracle) ∧ ∃ w ∈ words, w <:+: form))

def LineCarries (words : List (List Char)) (l : Line) : Prop := ∃ form ∈ l.forms, FormCarries words l.oracle form

instance (words : List (List Char)) : DecidablePred (LineCarries words) :=
  fun l => inferInstanceAs (Decidable (∃ form ∈ l.forms, FormCarries words l.oracle form))

theorem carried_eq {values words : List (List Char)} {i oracleAt : ℕ} {own : Bool} {form oracle : List Char}
    (hform : values[i]? = some form) (horacle : values[oracleAt]? = some oracle) :
    ((carried i oracleAt own (words.map (holds values))).1 && (carried i oracleAt own (words.map (holds values))).2) =
      decide ((∀ w ∈ words, w <:+: form ∨ w <:+: oracle) ∧ (own = true ∨ ∃ w ∈ words, w <:+: form)) := by
  induction words generalizing own with
  | nil => simp [carried]
  | cons w words ih =>
    rw [List.map_cons, carried, holds_getD hform, holds_getD horacle]
    by_cases hw : w <:+: form ∨ w <:+: oracle
    · rw [if_pos (by simpa using hw), ih]
      simp [hw, or_assoc]
    · rw [if_neg (by simpa using hw)]
      simp [hw]

theorem insertSet_of_mem {p : ℕ} {found : List ℕ} (h : p ∈ found) : insertSet p found = found := if_pos h

theorem mem_insertSet {p q : ℕ} {found : List ℕ} : q ∈ insertSet p found ↔ q = p ∨ q ∈ found := by
  rw [insertSet]
  split_ifs with hmem
  · constructor
    · exact .inr
    · rintro (rfl | hq)
      · exact hmem
      · exact hq
  · exact List.mem_orderedInsert _

theorem insertSet_ascending {p : ℕ} {found : List ℕ} (h : found.Pairwise (· < ·)) : (insertSet p found).Pairwise (· < ·) := by
  rw [insertSet]
  split_ifs with hmem
  · exact h
  · have hsorted : (found.orderedInsert (· ≤ ·) p).Pairwise (· ≤ ·) := (h.imp fun hlt => hlt.le).orderedInsert p found
    have hnodup : (found.orderedInsert (· ≤ ·) p).Nodup :=
      (List.perm_orderedInsert (· ≤ ·) p found).nodup_iff.mpr (List.nodup_cons.mpr ⟨hmem, h.imp fun hlt => hlt.ne⟩)
    exact (hsorted.and hnodup).imp fun hboth => lt_of_le_of_ne hboth.1 hboth.2

section

variable {words values : List (List Char)} {partitions : List ℕ} {start card n : ℕ} {found : List ℕ}

theorem fold_forms {p i oracleAt : ℕ} {oracle : List Char} {forms : List (List Char)}
    (hpartition : partitions.getD card 0 = p) (horacle : values[oracleAt]? = some oracle)
    (hforms : ∀ k form, forms[k]? = some form → values[n + k]? = some form) :
    ((fieldsFrom start card (i + 2) forms).zipIdx n).foldl (foundStep partitions (words.map (holds values))) (found, oracleAt) =
      (if ∃ form ∈ forms, FormCarries words oracle form then insertSet p found else found, oracleAt) := by
  induction forms generalizing start i n found with
  | nil => simp [fieldsFrom]
  | cons form forms ih =>
    have hvalue : values[n]? = some form := hforms 0 form rfl
    have hrest : ∀ k f, forms[k]? = some f → values[n + 1 + k]? = some f := by
      intro k f hk
      rw [Nat.add_assoc, Nat.add_comm 1]
      exact hforms (k + 1) f hk
    have hstep : foundStep partitions (words.map (holds values)) (found, oracleAt)
        (⟨start, card, decide (i + 1 = 0), len form⟩, n) =
        (if FormCarries words oracle form then insertSet p found else found, oracleAt) := by
      have hcarried := @carried_eq values words n oracleAt false form oracle hvalue horacle
      rw [foundStep, if_neg (by simp)]
      dsimp only
      rw [hpartition]
      by_cases hmem : p ∈ found
      · rw [if_pos hmem]
        split_ifs
        · rw [insertSet_of_mem hmem]
        · rfl
      · rw [if_neg hmem]
        by_cases hform : FormCarries words oracle form
        · rw [if_pos hform, if_pos]
          rw [hcarried]
          simpa [FormCarries] using hform
        · rw [if_neg hform, if_neg]
          rw [hcarried]
          simpa [FormCarries] using hform
    rw [fieldsFrom, List.zipIdx_cons, List.foldl_cons, hstep, ih hrest]
    by_cases hform : FormCarries words oracle form
    · rw [if_pos hform, if_pos (⟨form, by simp, hform⟩ : ∃ f ∈ form :: forms, FormCarries words oracle f)]
      split_ifs
      · rw [insertSet_of_mem (mem_insertSet.mpr (.inl rfl))]
      · rfl
    · rw [if_neg hform]
      simp only [List.mem_cons, exists_eq_or_imp, hform, false_or]

def addLine (words : List (List Char)) (found : List ℕ) (l : Line) : List ℕ :=
  if LineCarries words l then insertSet l.number found else found

theorem length_fieldsFrom_succ (start card i : ℕ) (cells : List (List Char)) :
    (fieldsFrom start card (i + 1) cells).length = cells.length := by
  induction cells generalizing start i with
  | nil => rfl
  | cons v cells ih => rw [fieldsFrom, List.length_cons, ih, List.length_cons]

theorem fold_lines {lines done : List Line} {oracleAt : ℕ} (hpartitions : partitions = (done ++ lines).map Line.number)
    (hvalues : values = valuesOf (done ++ lines)) :
    (((linesFields start done.length lines).zipIdx (valuesOf done).length).foldl
      (foundStep partitions (words.map (holds values))) (found, oracleAt)).1 = lines.foldl (addLine words) found := by
  induction lines generalizing done start found oracleAt with
  | nil => rfl
  | cons l lines ih =>
    have hsplit : values = valuesOf done ++ (l.oracle :: l.forms ++ valuesOf lines) := by
      rw [hvalues]
      simp [valuesOf]
    have horacle : values[(valuesOf done).length]? = some l.oracle := by
      rw [hsplit, List.getElem?_append_right le_rfl, Nat.sub_self]
      rfl
    have hforms : ∀ k form, l.forms[k]? = some form → values[(valuesOf done).length + 1 + k]? = some form := by
      intro k form hk
      rw [hsplit, List.getElem?_append_right (by omega), List.cons_append, Nat.add_assoc, Nat.add_sub_cancel_left,
        Nat.add_comm 1, List.getElem?_cons_succ, List.getElem?_append_left (List.getElem?_eq_some_iff.mp hk).1]
      exact hk
    have hpartition : partitions.getD done.length 0 = l.number := by
      rw [hpartitions, List.getD_eq_getElem?_getD, List.map_append, List.getElem?_append_right (by simp)]
      simp
    have hfields : fieldsFrom start done.length 0 l.cells = ⟨start + len l.partition + 1, done.length, true, len l.oracle⟩ ::
          fieldsFrom (start + len l.partition + 1 + len l.oracle + 1) done.length 2 l.forms := rfl
    have hlength : (fieldsFrom start done.length 0 l.cells).length = (l.oracle :: l.forms).length := by
      rw [hfields, List.length_cons, length_fieldsFrom_succ, List.length_cons]
    have hdone : (valuesOf done).length + (fieldsFrom start done.length 0 l.cells).length = (valuesOf (done ++ [l])).length := by
      rw [hlength]
      simp [valuesOf]
    have hline := @fold_forms words values partitions (start + len l.partition + 1 + len l.oracle + 1)
      done.length _ found _ 0 _ _ _ hpartition horacle hforms
    have hcount : (done ++ [l]).length = done.length + 1 := by simp
    rw [linesFields, List.zipIdx_append, List.foldl_append, hdone, hfields, List.zipIdx_cons, List.foldl_cons,
      List.foldl_cons]
    have horacleStep : foundStep partitions (words.map (holds values)) (found, oracleAt)
        (⟨start + len l.partition + 1, done.length, true, len l.oracle⟩, (valuesOf done).length) =
        (found, (valuesOf done).length) := rfl
    rw [horacleStep, hline, ← hcount]
    exact ih (by rw [hpartitions]; simp) (by rw [hvalues]; simp)

theorem foldl_addLine {lines : List Line} (h : found.Pairwise (· < ·)) :
    (lines.foldl (addLine words) found).Pairwise (· < ·) ∧
      ∀ p, p ∈ lines.foldl (addLine words) found ↔ p ∈ found ∨ ∃ l ∈ lines, l.number = p ∧ LineCarries words l := by
  induction lines generalizing found with
  | nil => exact ⟨h, by simp⟩
  | cons l lines ih =>
    rw [List.foldl_cons, addLine]
    split_ifs with hcarries
    · obtain ⟨hsorted, hmem⟩ := ih (insertSet_ascending h (p := l.number))
      refine ⟨hsorted, fun p => ?_⟩
      rw [hmem, mem_insertSet]
      simp only [List.mem_cons, exists_eq_or_imp, hcarries, and_true, eq_comm (a := p)]
      tauto
    · obtain ⟨hsorted, hmem⟩ := ih h
      refine ⟨hsorted, fun p => ?_⟩
      rw [hmem]
      simp only [List.mem_cons, exists_eq_or_imp, hcarries, and_false, false_or]

end

/-! ## The answer -/

theorem carriers_eq {host : Host} {lines : List Line} {words : List (List Char)}
    (hascii : ∀ w ∈ words, isAscii (w.filter host.isAlphanumeric) = true) :
    ∃ found, carriers host (listOf lines) words = some found ∧ found.Pairwise (· < ·) ∧
      ∀ p, p ∈ found ↔ ∃ l ∈ lines, l.number = p ∧ LineCarries (needles host words) l := by
  have hcut : (needles host words).any (fun w => !isAscii w) = false := by
    refine List.any_eq_false.mpr fun w hw => ?_
    obtain ⟨word, hword, rfl⟩ := List.mem_map.mp (List.mem_filter.mp hw).1
    simp [hascii word hword]
  rw [carriers, hcut, if_neg Bool.false_ne_true]
  by_cases hnone : needles host words = []
  · rw [if_pos hnone, hnone]
    exact ⟨[], rfl, List.Pairwise.nil, by simp [LineCarries, FormCarries]⟩
  · rw [if_neg hnone]
    have hne : ∀ w ∈ needles host words, w ≠ [] := fun w hw => by simpa using (List.mem_filter.mp hw).2
    have htext : utf8 (listOf lines).text = utf8 PRINTED_BLOB_HEADER ++ (utf8 (linesText lines) ++ []) := by
      rw [List.append_nil, ← utf8_append]
      rfl
    obtain ⟨hstands, hbetween⟩ := @linesFields_stands _ _ _ _ 0 lines htext rfl
    have hhits := hits_eq hstands hbetween.apart (fun f hf => (hbetween.within f hf).1) hne
    have hfields : (listOf lines).fields = linesFields (len PRINTED_BLOB_HEADER) 0 lines := rfl
    rw [← show len PRINTED_BLOB_HEADER = (utf8 PRINTED_BLOB_HEADER).length from rfl, ← hfields] at hhits
    rw [hhits]
    split_ifs with hall
    · refine ⟨_, rfl, ?_⟩
      have hfold := @fold_lines (needles host words) (valuesOf lines) (lines.map Line.number)
        (len PRINTED_BLOB_HEADER) [] lines [] 0 rfl rfl
      have hanswer : ((listOf lines).fields.zipIdx.foldl
          (foundStep (listOf lines).partitions ((needles host words).map (holds (valuesOf lines)))) ([], 0)).1 =
          lines.foldl (addLine (needles host words)) [] := hfold
      rw [hanswer]
      obtain ⟨hsorted, hmem⟩ := @foldl_addLine (needles host words) [] lines List.Pairwise.nil
      exact ⟨hsorted, fun p => by rw [hmem]; simp⟩
    · -- A word nothing holds completes nothing.
      refine ⟨[], rfl, List.Pairwise.nil, fun p => ⟨fun hp => absurd hp List.not_mem_nil, ?_⟩⟩
      rintro ⟨l, hl, -, form, hform, hwords, -⟩
      refine absurd (fun w hw => ?_) hall
      rcases hwords w hw with hin | hin
      · exact ⟨form, List.mem_flatMap.mpr ⟨l, hl, List.mem_cons_of_mem _ hform⟩, hin⟩
      · exact ⟨l.oracle, List.mem_flatMap.mpr ⟨l, hl, by simp⟩, hin⟩

/-- **The blob accepts exactly whole lines, and a search answers exactly the partitions of the lines that complete its
    words**, ascending and once each. -/
theorem printed_names_carriers (host : Host) :
    (∀ raw, (∃ list, parse host raw = .ok list) ↔ ∃ lines, BlobOf lines raw) ∧
      ∀ raw list lines words, parse host raw = .ok list → BlobOf lines raw →
        (∀ w ∈ words, isAscii (w.filter host.isAlphanumeric) = true) →
        ∃ found, carriers host list words = some found ∧ found.Pairwise (· < ·) ∧
          ∀ p, p ∈ found ↔ ∃ l ∈ lines, l.number = p ∧ ∃ form ∈ l.forms,
            (∀ w ∈ needles host words, w <:+: form ∨ w <:+: l.oracle) ∧ ∃ w ∈ needles host words, w <:+: form := by
  refine ⟨fun raw => ⟨fun ⟨list, hparse⟩ => ?_, fun ⟨lines, hblob⟩ => ?_⟩, fun raw list lines words hparse hblob hascii => ?_⟩
  · obtain ⟨lines, hblob, -⟩ := parse_iff.mp hparse
    exact ⟨lines, hblob⟩
  · exact ⟨listOf lines, parse_iff.mpr ⟨lines, hblob, rfl⟩⟩
  · have hlist : parse host raw = .ok (listOf lines) := parse_iff.mpr ⟨lines, hblob, rfl⟩
    rw [hparse] at hlist
    rw [Except.ok.inj hlist]
    exact carriers_eq hascii

def asciiHost : Host where
  isAlphanumeric := Char.isAlphanum
  debug := String.ofList
  utf8Error _ := ""

def unmooredEgo : Line := ⟨"3".toList, "unmooredego".toList, ["egoaderiva".toList, "egoalladeriva".toList]⟩

/-- `red goad` is carried by a Portuguese name and its card's oracle name. -/
theorem printed_names_carriers_red_goad :
    ∃ found, carriers asciiHost (listOf [unmooredEgo]) ["red".toList, "goad".toList] = some found ∧ 3 ∈ found := by
  have hvalid : ∀ l ∈ [unmooredEgo], l.Valid := by
    intro l hl
    rw [List.mem_singleton.mp hl]
    refine ⟨by decide, by decide, by decide, ?_, by decide⟩
    intro f hf
    exact ⟨by revert f; decide, by revert f; decide⟩
  have hblob : BlobOf [unmooredEgo] (utf8 (PRINTED_BLOB_HEADER ++ linesText [unmooredEgo])) :=
    ⟨rfl, hvalid, by decide, by decide⟩
  obtain ⟨found, hfound, -, hmem⟩ := (printed_names_carriers asciiHost).2 _ _ _ ["red".toList, "goad".toList]
    (parse_iff.mpr ⟨_, hblob, rfl⟩) hblob (by decide)
  refine ⟨found, hfound, (hmem 3).mpr ⟨unmooredEgo, by simp, by decide, "egoaderiva".toList, by decide, ?_, ?_⟩⟩
  · decide
  · decide

end PrintedNames
