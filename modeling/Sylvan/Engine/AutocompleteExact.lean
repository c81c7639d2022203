-- SUMMARY: Autocomplete's one search and partial selection answer what sorting every name that holds the needle does.
import Mathlib.Algebra.Order.Field.Basic
import Mathlib.Data.Nat.Cast.Order.Field
import Sylvan.Engine.AutocompleteNames

/-!
# Autocomplete is exact

The search of the joined names hits a row where its name holds the needle, and the shared windows
counted at a hit are those of the two sets. What is counted there ranks hits as the similarity does,
so that the sort is the plain one, and its head decides the answer where it holds enough names.
-/

namespace Autocomplete

open NamesBlob RustStr Throws Search

/-! ## Windows -/

theorem windowsFrom_length (b c : Char) (s : List Char) : (windowsFrom b c s).length = s.length := by
  induction s generalizing b c with
  | nil => rfl
  | cons d s ih => rw [windowsFrom, List.length_cons, List.length_cons, ih]

theorem windows_ne_nil (collated : List Char) : windows collated ≠ [] := by
  apply List.ne_nil_of_length_pos
  rw [windows, windowsFrom_length, List.length_append, List.length_singleton]
  omega

theorem foldl_pushWindow (l : List Window) {out : List Window} (hout : out.Nodup) :
    (l.foldl pushWindow out).Nodup ∧ ∀ w, w ∈ l.foldl pushWindow out ↔ w ∈ out ∨ w ∈ l := by
  induction l generalizing out with
  | nil => simp [hout]
  | cons first l ih =>
    rw [List.foldl_cons, pushWindow]
    by_cases hin : first ∈ out
    · rw [if_pos hin]
      refine ⟨(ih hout).1, fun w => ?_⟩
      rw [(ih hout).2, List.mem_cons]
      constructor
      · rintro (hold | hnew)
        · exact .inl hold
        · exact .inr (.inr hnew)
      · rintro (hold | rfl | hnew)
        · exact .inl hold
        · exact .inl hin
        · exact .inr hnew
    · rw [if_neg hin]
      have hnext : (out ++ [first]).Nodup := by
        rw [List.nodup_append]
        refine ⟨hout, List.nodup_singleton first, fun w hw w' hw' => ?_⟩
        rw [List.mem_singleton.mp hw']
        rintro rfl
        exact hin hw
      refine ⟨(ih hnext).1, fun w => ?_⟩
      rw [(ih hnext).2, List.mem_append, List.mem_singleton, List.mem_cons, or_assoc]

variable {needle collated : List Char}

theorem collatedTrigrams_nodup (collated : List Char) : (collatedTrigrams collated).Nodup := by
  rw [collatedTrigrams]
  split
  · exact List.nodup_nil
  · exact (foldl_pushWindow _ List.nodup_nil).1

theorem toFinset_collatedTrigrams (h : collated ≠ []) : (collatedTrigrams collated).toFinset = (windows collated).toFinset := by
  have hne : collated.isEmpty = false := by simpa using h
  ext w
  rw [List.mem_toFinset, List.mem_toFinset, collatedTrigrams, hne, if_neg Bool.false_ne_true,
    (foldl_pushWindow _ List.nodup_nil).2]
  simp

theorem length_collatedTrigrams (h : collated ≠ []) : (collatedTrigrams collated).length = (windows collated).toFinset.card := by
  rw [← toFinset_collatedTrigrams h, List.toFinset_card_of_nodup (collatedTrigrams_nodup collated)]

theorem windowCount_eq (h : collated ≠ []) : windowCount collated = (windows collated).toFinset.card := by
  have hne : collated.isEmpty = false := by simpa using h
  rw [windowCount, hne, if_neg Bool.false_ne_true, List.card_toFinset]
  rfl

theorem windowCount_le (collated : List Char) : windowCount collated ≤ collated.length + 1 := by
  rw [windowCount]
  split
  · exact Nat.zero_le _
  · refine (List.Sublist.length_le (List.dedup_sublist _)).trans ?_
    rw [windowsFrom_length, List.length_append, List.length_singleton]

theorem foldl_seeWindow {tg : List Window} (htg : tg.Nodup) (read todo : List Window) :
    todo.foldl (seeWindow tg) (tg.map fun t => decide (t ∈ read)) = tg.map fun t => decide (t ∈ read ++ todo) := by
  induction todo generalizing read with
  | nil => simp
  | cons w todo ih =>
    have hstep : seeWindow tg (tg.map fun t => decide (t ∈ read)) w = tg.map fun t => decide (t ∈ read ++ [w]) := by
      rw [seeWindow]
      cases hidx : tg.idxOf? w with
      | none =>
        have hout : w ∉ tg := List.idxOf?_eq_none_iff.mp hidx
        refine List.map_congr_left fun t ht => ?_
        have hne : t ≠ w := fun heq => hout (heq ▸ ht)
        simp [hne]
      | some j =>
        obtain ⟨hj, hw, -⟩ := List.findIdx?_eq_some_iff_getElem.mp hidx
        have hw : tg[j] = w := by simpa using hw
        refine List.ext_getElem (by simp) fun k hk hk' => ?_
        have hlt : k < tg.length := by simpa using hk'
        rw [List.getElem_set, List.getElem_map, List.getElem_map]
        by_cases hsame : j = k
        · subst hsame
          simp [hw]
        · have hne : tg[k] ≠ w := by
            rw [← hw]
            exact fun heq => hsame ((htg.getElem_inj_iff).mp heq).symm
          simp [hsame, hne]
    rw [List.foldl_cons, hstep, ih, List.append_assoc]
    rfl

/-- **The windows counted are those both names have.** -/
theorem sharedWindows_eq (h : needle ≠ []) :
    sharedWindows (collatedTrigrams needle) collated = ((windows needle).toFinset ∩ (windows collated).toFinset).card := by
  have hnodup := collatedTrigrams_nodup needle
  have hstart : List.replicate (collatedTrigrams needle).length false =
      (collatedTrigrams needle).map fun t => decide (t ∈ ([] : List Window)) := by
    simp
  rw [sharedWindows, hstart, foldl_seeWindow hnodup, List.nil_append, List.countP_map, List.countP_eq_length_filter,
    ← toFinset_collatedTrigrams h, ← List.toFinset_card_of_nodup (hnodup.filter _)]
  congr 1
  ext w
  simp

/-! ## The order of hits -/

def hitKey (qn : ℕ) (h : Hit) : ℕ ×ₗ ℚ ×ₗ List Char ×ₗ ℕ :=
  toLex (h.rank, toLex (-((h.inter : ℚ) / unionOf qn h.inter h.total), toLex (h.printed, h.index)))

section

variable {α : Type} [LinearOrder α] [DecidableLT α]

theorem then_ne_gt (a b : α) (o : Ordering) : (cmp a b).then o ≠ .gt ↔ a < b ∨ a = b ∧ o ≠ .gt := by
  rw [cmp, cmpUsing]
  rcases lt_trichotomy a b with hlt | rfl | hgt
  · simp [hlt]
  · simp
  · simp [hgt, hgt.not_gt, hgt.ne']

theorem cmp_ne_gt (a b : α) : cmp a b ≠ .gt ↔ a ≤ b := by
  rw [cmp, cmpUsing]
  rcases lt_trichotomy a b with hlt | rfl | hgt
  · simp [hlt, hlt.le]
  · simp
  · simp [hgt, hgt.not_gt]

end

theorem order_iff {qn : ℕ} {a b : Hit} (ha : 0 < unionOf qn a.inter a.total) (hb : 0 < unionOf qn b.inter b.total) :
    order qn a b ≠ .gt ↔ hitKey qn a ≤ hitKey qn b := by
  have ha' : (0 : ℚ) < unionOf qn a.inter a.total := by exact_mod_cast ha
  have hb' : (0 : ℚ) < unionOf qn b.inter b.total := by exact_mod_cast hb
  have hlt : b.inter * unionOf qn a.inter a.total < a.inter * unionOf qn b.inter b.total ↔
      -((a.inter : ℚ) / unionOf qn a.inter a.total) < -((b.inter : ℚ) / unionOf qn b.inter b.total) := by
    rw [neg_lt_neg_iff, div_lt_div_iff₀ hb' ha']
    exact_mod_cast Iff.rfl
  have heq : b.inter * unionOf qn a.inter a.total = a.inter * unionOf qn b.inter b.total ↔
      -((a.inter : ℚ) / unionOf qn a.inter a.total) = -((b.inter : ℚ) / unionOf qn b.inter b.total) := by
    rw [neg_inj, div_eq_div_iff ha'.ne' hb'.ne', eq_comm]
    exact_mod_cast Iff.rfl
  rw [order, then_ne_gt, then_ne_gt, then_ne_gt, cmp_ne_gt, hlt, heq, hitKey, hitKey, Prod.Lex.toLex_le_toLex,
    Prod.Lex.toLex_le_toLex, Prod.Lex.toLex_le_toLex]

/-! ## The scan -/

def hitOf (needle : List Char) (row : Row × ℕ) : Hit where
  rank := if needle <+: row.1.collated then 0 else 1
  inter := sharedWindows (collatedTrigrams needle) row.1.collated
  total := windowCount row.1.collated
  printed := row.1.printed
  index := row.2

/-- The row is offered, and its name holds the needle. -/
def offered (needle : List Char) (includeExtras : Bool) (row : Row × ℕ) : Bool :=
  (includeExtras || row.1.served) && decide (needle <:+: row.1.collated)

theorem length_startsFrom (start : ℕ) (names : List (List Char)) : (startsFrom start names).length = names.length := by
  induction names generalizing start with
  | nil => rfl
  | cons name names ih => rw [startsFrom, List.length_cons, List.length_cons, ih]

theorem startsFrom_append (start : ℕ) (rows more : List Row) : startsFrom start ((rows ++ more).map (·.collated)) =
      startsFrom start (rows.map (·.collated)) ++ startsFrom (start + len (lines rows)) (more.map (·.collated)) := by
  induction rows generalizing start with
  | nil => rfl
  | cons row rows ih =>
    have hnext : start + len row.collated + 1 + len (lines rows) = start + len (lines (row :: rows)) := by
      rw [lines_cons, len_append, len_cons]
      have hone : (Utf8.encodeChar '\n').length = 1 := rfl
      omega
    rw [List.cons_append, List.map_cons, List.map_cons, startsFrom, startsFrom, ih, hnext, List.cons_append]

theorem startsFrom_le {start : ℕ} {rows : List Row} {v : UInt32} (h : v ∈ startsFrom start (rows.map (·.collated))) :
    v.toNat ≤ start + len (lines rows) := by
  induction rows generalizing start with
  | nil => cases h
  | cons row rows ih =>
    have hone : (Utf8.encodeChar '\n').length = 1 := rfl
    rw [lines_cons, len_append, len_cons]
    rw [List.map_cons, startsFrom] at h
    cases List.mem_cons.mp h with
    | inl hfirst =>
      rw [hfirst, UInt32.toNat_ofNat']
      exact (Nat.mod_le _ _).trans (Nat.le_add_right _ _)
    | inr hlater =>
      have := ih hlater
      omega

theorem partitionPoint_starts {before after : List Row} {row : Row} {p : ℕ}
    (hsize : len (lines (before ++ row :: after)) < 2 ^ 32) (hfrom : len (lines before) ≤ p)
    (hto : p ≤ len (lines before) + len row.collated) :
    partitionPoint (fun start : UInt32 => decide (start.toNat ≤ p))
      (startsFrom 0 ((before ++ row :: after).map (·.collated))) = before.length + 1 := by
  have hsplit : before ++ row :: after = (before ++ [row]) ++ after := by simp
  have hlines : len (lines (before ++ [row])) = len (lines before) + len row.collated + 1 := by
    simp only [lines_concat, len_append, len_newline, Nat.add_assoc]
  rw [hsplit] at hsize ⊢
  rw [startsFrom_append, partitionPoint_append]
  · rw [length_startsFrom, List.length_map, List.length_append, List.length_singleton]
  · intro v hv
    rw [startsFrom_append, List.map_cons, List.map_nil, startsFrom, startsFrom] at hv
    apply decide_eq_true
    cases List.mem_append.mp hv with
    | inl hbefore =>
      have := startsFrom_le hbefore
      omega
    | inr hlast =>
      rw [List.mem_singleton.mp hlast, UInt32.toNat_ofNat', Nat.zero_add]
      exact (Nat.mod_le _ _).trans hfrom
  · intro v hv
    cases after with
    | nil => cases hv
    | cons next after =>
      rw [List.map_cons, startsFrom, Nat.zero_add, hlines] at hv
      obtain rfl := Option.some.inj hv
      simp only [lines, List.flatMap_append, len_append] at hsize hlines
      rw [NamesBlob.toNat_ofNat (by simp only [lines]; omega)]
      simp only [decide_eq_false_iff_not, not_le]
      omega

section

variable {host : Host} {list : NameList host.Bits} {rows : List Row} {includeExtras : Bool}

def afterLine (needle : List Char) (includeExtras : Bool) (s : Scan) (row : Row × ℕ) : Scan where
  last := some row.2
  hits := s.hits ++ if includeExtras || row.1.served then [hitOf needle row] else []

/-- What the scan reads of entry `i`. -/
structure At (list : NameList host.Bits) (row : Row × ℕ) (p : ℕ) : Prop where
  point : partitionPoint (fun start : UInt32 => decide (start.toNat ≤ p)) list.collatedStarts = row.2 + 1
  read : ∃ e, list.entries[row.2]? = some e ∧ ReadsRow host list.collated list.text e row.1
  count : ∃ count, list.trigramCounts[row.2]? = some count ∧ count.toNat = windowCount row.1.collated

theorem scanStep_again {row : Row × ℕ} {p : ℕ} {s : Scan} (hat : At list row p) (hlast : s.last = some row.2) :
    scanStep host list needle (collatedTrigrams needle) includeExtras s p = .ok s := by
  simp only [scanStep, hat.point, hlast, if_true]

theorem scanStep_new {row : Row × ℕ} {p : ℕ} {s : Scan} (hat : At list row p) (hlast : s.last ≠ some row.2) :
    scanStep host list needle (collatedTrigrams needle) includeExtras s p = .ok (afterLine needle includeExtras s row) := by
  obtain ⟨e, he, hcollated, hprinted, hserved⟩ := hat.read
  obtain ⟨count, hcount, hvalue⟩ := hat.count
  simp only [scanStep, hat.point, if_neg hlast]
  rw [bind_ok (orPanic_some he), hserved]
  by_cases hskip : !includeExtras && !row.1.served
  · have hnot : (includeExtras || row.1.served) = false := by
      rw [← Bool.not_or] at hskip
      simpa using hskip
    rw [if_pos hskip, afterLine, hnot, if_neg Bool.false_ne_true, List.append_nil]
  · have htaken : (includeExtras || row.1.served) = true := by
      cases includeExtras with
      | false => simpa using hskip
      | true => rfl
    rw [if_neg hskip, NameList.atCollated, bind_ok hcollated, NameList.atText, bind_ok hprinted,
      bind_ok (orPanic_some hcount), afterLine, htaken, if_pos rfl, hvalue]
    rfl

theorem scan_line {row : Row × ℕ} {ps : List ℕ} (hat : ∀ p ∈ ps, At list row p) {s : Scan} (hlast : s.last ≠ some row.2) :
    ps.foldlM (scanStep host list needle (collatedTrigrams needle) includeExtras) s =
      .ok (if ps = [] then s else afterLine needle includeExtras s row) := by
  cases ps with
  | nil => rfl
  | cons p ps =>
    have hrest : ∀ ps : List ℕ, (∀ p ∈ ps, At list row p) →
        ps.foldlM (scanStep host list needle (collatedTrigrams needle) includeExtras)
          (afterLine needle includeExtras s row) = .ok (afterLine needle includeExtras s row) := by
      intro ps
      induction ps with
      | nil => exact fun _ => rfl
      | cons q ps ih =>
        intro hps
        rw [List.foldlM_cons, bind_ok (scanStep_again (hps q (by simp)) rfl)]
        exact ih fun p hp => hps p (List.mem_cons_of_mem _ hp)
    rw [List.foldlM_cons, bind_ok (scanStep_new (hat p (by simp)) hlast), if_neg (by simp)]
    exact hrest ps fun q hq => hat q (List.mem_cons_of_mem _ hq)

theorem newline_not_mem_utf8 {s : List Char} (h : '\n' ∉ s) : (10 : UInt8) ∉ utf8 s := fun hin =>
  h (mem_of_byte_mem_utf8 (by decide) hin)

theorem utf8_lines_cons (row : Row) (rows : List Row) : utf8 (lines (row :: rows)) = utf8 row.collated ++ 10 :: utf8 (lines rows) := by
  rw [lines_cons, utf8_append, utf8_cons]
  rfl

/-- **The scan hits the rows that are offered and hold the needle, each once and in order.** -/
theorem scan_rows (hholds : Holds list rows) (hcounts : list.trigramCounts = countsOf rows)
    (hneedle : needle ≠ []) (hbreak : '\n' ∉ needle) {before after : List Row} (hrows : rows = before ++ after) {s : Scan}
    (hlast : ∀ k, before.length ≤ k → s.last ≠ some k) :
    ∃ last, (findIterFrom (utf8 needle) 0 (len (lines before)) (utf8 (lines after))).foldlM
        (scanStep host list needle (collatedTrigrams needle) includeExtras) s =
      .ok ⟨last, s.hits ++ ((after.zipIdx before.length).filter (offered needle includeExtras)).map (hitOf needle)⟩ := by
  induction after generalizing before s with
  | nil =>
    refine ⟨s.last, ?_⟩
    simp only [lines, utf8, List.flatMap_nil, findIterFrom, List.zipIdx_nil, List.filter_nil, List.map_nil, List.append_nil]
    rfl
  | cons row after ih =>
    have hne : utf8 needle ≠ [] := by
      cases needle with
      | nil => exact absurd rfl hneedle
      | cons c needle =>
        rw [utf8_cons]
        exact List.append_ne_nil_of_left_ne_nil (encodeChar_ne_nil c) _
    have hsize : len (lines (before ++ row :: after)) < 2 ^ 32 := by
      rw [← hrows, ← hholds.collated]
      exact hholds.size
    have hindex : before.length < rows.length := by
      rw [hrows, List.length_append, List.length_cons]
      omega
    have hget : rows[before.length] = row := by
      simp [hrows]
    have hwindows : windowCount row.collated < 2 ^ 32 := by
      have hle := windowCount_le row.collated
      have hlen := length_le_len row.collated
      simp only [lines, List.flatMap_append, List.flatMap_cons, len_append, len_newline] at hsize
      omega
    have hat : ∀ p ∈ findIterFrom (utf8 needle) 0 (len (lines before)) (utf8 row.collated),
        At list (row, before.length) p := by
      intro p hp
      obtain ⟨hfrom, hto⟩ := findIterFrom_within hp
      refine ⟨?_, ?_, UInt32.ofNat (windowCount row.collated), ?_, ?_⟩
      · rw [hholds.starts, hrows]
        refine partitionPoint_starts hsize hfrom ?_
        change p ≤ len (lines before) + (utf8 row.collated).length
        omega
      · have hreads := List.forall₂_iff_get.mp hholds.reads
        have hentry : before.length < list.entries.length := by rw [hreads.1]; exact hindex
        have hread := hreads.2 before.length hentry hindex
        rw [List.get_eq_getElem, List.get_eq_getElem, hget] at hread
        exact ⟨_, List.getElem?_eq_getElem hentry, hread⟩
      · rw [hcounts, countsOf, List.getElem?_map, List.getElem?_eq_getElem hindex, hget]
        rfl
      · exact NamesBlob.toNat_ofNat hwindows
    have hnext : len (lines before) + (utf8 row.collated).length + 1 = len (lines (before ++ [row])) := by
      simp only [lines_concat, len_append, len_newline, Nat.add_assoc]
      rfl
    have hplaces : (before ++ [row]).length = before.length + 1 := by simp
    have hrows' : rows = before ++ [row] ++ after := by
      rw [hrows]
      simp
    rw [utf8_lines_cons, findIterFrom_line (newline_not_mem_utf8 hbreak) hne _ _ (Nat.zero_le _), hnext,
      List.foldlM_append, bind_ok (scan_line hat (hlast _ (Nat.le_refl _))), List.zipIdx_cons]
    by_cases hhit : needle <:+: row.collated
    · have hfound : findIterFrom (utf8 needle) 0 (len (lines before)) (utf8 row.collated) ≠ [] := by
        rw [Ne, findIterFrom_eq_nil hne, not_not]
        exact infix_utf8_iff.mpr hhit
      obtain ⟨last, hlast'⟩ := ih hrows' (s := afterLine needle includeExtras s (row, before.length)) (by
          intro k hk heq
          rw [hplaces] at hk
          have := Option.some.inj heq
          omega)
      refine ⟨last, ?_⟩
      rw [if_neg hfound, hlast', hplaces, afterLine, List.filter_cons]
      by_cases hserved : (includeExtras || row.served) = true
      · simp [offered, hserved, hhit]
      · simp [offered, hserved]
    · have hfound : findIterFrom (utf8 needle) 0 (len (lines before)) (utf8 row.collated) = [] := by
        rw [findIterFrom_eq_nil hne]
        exact fun h => hhit (infix_utf8_iff.mp h)
      obtain ⟨last, hlast'⟩ := ih hrows' (s := s) (by
          intro k hk
          rw [hplaces] at hk
          exact hlast k (by omega))
      refine ⟨last, ?_⟩
      rw [if_pos hfound, hlast', hplaces, List.filter_cons]
      simp [offered, hhit]

end

/-! ## The ranking -/

section

variable {qn limit : ℕ} {hits : List Hit}

instance (qn : ℕ) : Std.Total fun a b : Hit => hitKey qn a ≤ hitKey qn b := ⟨fun _ _ => le_total _ _⟩

instance (qn : ℕ) : IsTrans Hit fun a b => hitKey qn a ≤ hitKey qn b := ⟨fun _ _ _ => le_trans⟩

def sorted (qn : ℕ) (hits : List Hit) : List Hit := hits.insertionSort fun a b => hitKey qn a ≤ hitKey qn b

theorem sortHits_eq (hpos : ∀ h ∈ hits, 0 < unionOf qn h.inter h.total) : sortHits qn hits = sorted qn hits :=
  HeadSort.insertionSort_congr fun a ha b hb => order_iff (hpos a ha) (hpos b hb)

/-- **A head of the sort decides the answer, or is not taken.** -/
theorem rankHits_exact (selection : Selection Hit) (hlimit : 1 ≤ limit) (hpos : ∀ h ∈ hits, 0 < unionOf qn h.inter h.total)
    (hindex : ∀ a ∈ hits, ∀ b ∈ hits, a.index = b.index → a = b) :
    HeadSort.takeDistinct limit [] ((rankHits selection qn limit hits).map Hit.printed) =
      HeadSort.takeDistinct limit [] ((sorted qn hits).map Hit.printed) := by
  rw [rankHits]
  simp only
  generalize hhead : max (limit * 4) (limit + 16) = head
  by_cases hlong : head < hits.length
  · rw [if_pos hlong]
    have hpred : head - 1 + 1 = head := by omega
    have hanti : ∀ a ∈ hits, ∀ b ∈ hits, hitKey qn a ≤ hitKey qn b → hitKey qn b ≤ hitKey qn a → a = b := by
      intro a ha b hb hab hba
      have hkeys := toLex_inj.mp (le_antisymm hab hba)
      have hrest := toLex_inj.mp (Prod.mk.inj hkeys).2
      have hlast := toLex_inj.mp (Prod.mk.inj hrest).2
      exact hindex a ha b hb (Prod.mk.inj hlast).2
    have hselects := selection.selects (order qn) (head - 1) hits (by omega)
      (fun a ha b hb => by
        rw [order_iff (hpos a ha) (hpos b hb), order_iff (hpos b hb) (hpos a ha)]
        exact le_total _ _)
      (fun a ha b hb c hc => by
        rw [order_iff (hpos a ha) (hpos b hb), order_iff (hpos b hb) (hpos c hc), order_iff (hpos a ha) (hpos c hc)]
        exact le_trans)
    rw [hpred] at hselects
    generalize selection.select (order qn) (head - 1) hits = selected at hselects
    have hin : ∀ {h}, h ∈ selected.take head → h ∈ hits := fun hh => hselects.perm.mem_iff.mp (List.mem_of_mem_take hh)
    have hout : ∀ {h}, h ∈ selected.drop head → h ∈ hits := fun hh => hselects.perm.mem_iff.mp (List.mem_of_mem_drop hh)
    have hselected : HeadSort.Selects (fun a b => hitKey qn a ≤ hitKey qn b) head hits selected :=
      ⟨hselects.perm, fun a ha b hb => (order_iff (hpos a (hin ha)) (hpos b (hout hb))).mp (hselects.least a ha b hb)⟩
    have htop : sortHits qn (selected.take head) = sorted qn (selected.take head) :=
      sortHits_eq fun h hh => hpos h (hin hh)
    by_cases hfull : (HeadSort.takeDistinct limit [] ((sortHits qn (selected.take head)).map Hit.printed)).length = limit
    · rw [if_pos hfull]
      obtain ⟨rest, hrest⟩ := hselected.sort_take hanti
      have hrest : sorted qn hits = sorted qn (selected.take head) ++ rest := hrest
      rw [htop] at hfull ⊢
      rw [hrest, List.map_append]
      exact (HeadSort.takeDistinct_append hlimit _ hfull).symm
    · rw [if_neg hfull, htop]
      -- The sorted head and the rest are the hits in another order.
      have hperm : (sorted qn (selected.take head) ++ selected.drop head).Perm hits := by
        refine ((List.perm_insertionSort _ _).append_right _).trans ?_
        rw [List.take_append_drop]
        exact hselected.perm
      have hsort : sorted qn (sorted qn (selected.take head) ++ selected.drop head) = sorted qn hits :=
        HeadSort.insertionSort_perm hperm hanti
      rw [sortHits_eq fun h hh => hpos h (hperm.mem_iff.mp hh), hsort]
  · rw [if_neg hlong, sortHits_eq hpos]

end

/-! ## The answer -/

theorem collated_ne_nil {row : Row × ℕ} {includeExtras : Bool} (hneedle : needle ≠ [])
    (h : offered needle includeExtras row = true) : row.1.collated ≠ [] := by
  intro hnil
  simp only [offered, Bool.and_eq_true, decide_eq_true_eq, hnil] at h
  exact hneedle (List.infix_nil.mp h.2)

theorem unionOf_hitOf {row : Row × ℕ} (hneedle : needle ≠ []) (hrow : row.1.collated ≠ []) :
    unionOf (collatedTrigrams needle).length (hitOf needle row).inter (hitOf needle row).total =
      ((windows needle).toFinset ∪ (windows row.1.collated).toFinset).card := by
  rw [unionOf, hitOf, length_collatedTrigrams hneedle, sharedWindows_eq hneedle, windowCount_eq hrow, Finset.card_union]

theorem unionOf_pos {row : Row × ℕ} (hneedle : needle ≠ []) (hrow : row.1.collated ≠ []) :
    0 < unionOf (collatedTrigrams needle).length (hitOf needle row).inter (hitOf needle row).total := by
  rw [unionOf_hitOf hneedle hrow, Finset.card_pos]
  obtain ⟨w, hw⟩ := List.exists_mem_of_ne_nil _ (windows_ne_nil needle)
  exact ⟨w, Finset.mem_union_left _ (List.mem_toFinset.mpr hw)⟩

theorem hitKey_hitOf {row : Row × ℕ} (hneedle : needle ≠ []) (hrow : row.1.collated ≠ []) :
    hitKey (collatedTrigrams needle).length (hitOf needle row) = rankKey needle row := by
  rw [hitKey, unionOf_hitOf hneedle hrow, hitOf, rankKey, similarity, sharedWindows_eq hneedle]

theorem newline_not_mem_collateName (letters : Letters) (folded : List Char) : '\n' ∉ collateName letters folded := by
  intro h
  have := (List.mem_filter.mp h).2
  rw [letters.newline] at this
  cases this

def asciiLetters : Letters where
  isAlphanumeric := Char.isAlphanum
  newline := rfl

def sortSelection (α : Type) : Selection α where
  select order _ l := l.insertionSort fun a b => order a b ≠ .gt
  selects _ k _ _ htotal htrans := HeadSort.selects_insertionSort (k + 1) htotal htrans

def threeLines : Bytes := utf8 (NAMES_BLOB_HEADER ++ "embergob\tEmber\ngoblin\tGoblin\ngobling\tGoblin\n".toList)

/-- A blob of format 3 of two names, `abc` printed `B` and `abd` printed `A`; the window count of the first is one short. -/
def shortCount : Bytes :=
  utf8 NAMES_BLOB_HEADER_V3 ++ [2, 0, 0, 0, 0, 0, 0, 0, 8, 0, 0, 0, 4, 0, 0, 0, 0, 0, 0, 0] ++ utf8 "abc\nabd\nB\nA\n".toList ++
    [0, 0, 0, 0] ++ [1, 1] ++ [0, 0] ++ [3, 3] ++ [0, 0, 0, 0] ++ [1, 0, 0, 0] ++ [0, 0, 0, 0]

/-- What autocomplete and the plain sort answer of a blob. -/
def bothAnswers (raw : Bytes) (pfx : List Char) (limit : ℕ) : Checked (List (List Char) × List (List Char)) := do
  let list ← parse plainHost raw
  let rows ← rowsOf plainHost list
  let answer ← autocomplete plainHost asciiLetters (sortSelection Hit) list pfx limit false
  .ok (answer, plain (collateName asciiLetters (plainHost.toLowercase pfx)) limit false rows)

end Autocomplete
