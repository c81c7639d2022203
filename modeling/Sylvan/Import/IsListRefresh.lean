-- SUMMARY: What a stored state records of the units read, and the override composed over it: accepted, and what it says of each row.
import Sylvan.Import.IsListVerdicts

/-!
# Readings and the override

A stored state is lines; what was read to write them is a reading. The override composed
over a state that records a reading answers from the reading wherever a unit was read.
-/

namespace IsLists

/-! ## Readings -/

structure SetReading where
  covered : List Got
  uncovered : List Got
  related : List Got

def SetReading.rows (s : SetReading) : List Got := s.covered ++ s.uncovered ++ s.related

/-- What the nights read: the rows of each unit as last applied. -/
structure Readings where
  lists : SmallList → Option (List Got)
  foreign : Option (List Got)
  sets : List Char → Option SetReading
  art : Option (List Got)

/-- What a small list's rows were when it was applied. -/
structure ListRead (list : SmallList) (rows : List Got) : Prop where
  proper : ∀ g ∈ rows, g.Proper
  named : list ∈ CARD_LISTS → ∀ g ∈ rows, g.Named

/-- What a set's rows were when it was applied. -/
structure SetRead (code : List Char) (s : SetReading) : Prop where
  word : code ≠ [] ∧ ∀ c ∈ code, (Text.isLowerOrDigit c || ('A' ≤ c && c ≤ 'Z')) = true
  proper : ∀ g ∈ s.rows, g.Proper
  named : ∀ g ∈ s.rows, g.Named
  here : ∀ g ∈ s.rows, lowerCase g.s = lowerCase code
  apart : ∀ g ∈ s.covered, ∀ g' ∈ s.uncovered, keyOf g ≠ keyOf g'

/-- A state whose lines are those written for the readings. -/
structure Records (base : CompiledBase) (r : Readings) (state : IsListsState) : Prop where
  checked : ∀ day ∈ state.checked, isDay day = true
  lists : ∀ list, (state.lists.get list).map (·.lines) = (r.lists list).map (listLines base.keep list)
  foreign : state.foreign.map (·.lines) = r.foreign.map foreignLines
  sets : ∀ code, (state.sets.get code).bind (·.lines) =
    (r.sets code).map fun s => setLines code s.covered s.uncovered s.related
  art : state.art.map (·.lines) = r.art.map artLines
  listRead : ∀ list, ∀ rows ∈ r.lists list, ListRead list rows
  foreignRead : ∀ rows ∈ r.foreign, ∀ g ∈ rows, g.Proper ∧ g.l ≠ "en".toList
  setRead : ∀ code, ∀ s ∈ r.sets code, SetRead code s
  artRead : ∀ rows ∈ r.art, ∀ g ∈ rows, g.Proper

/-! ## Lines of a value -/

/-- A line of a value, as both programs take it. -/
structure LineOf (tag : ListTag) (text : List Char) : Prop where
  reads : (lineOf text).isSome = true
  value : valueOf text = some tag
  plain : Plain text

variable {text : List Char}

theorem reads_of_value {tag : ListTag} (h : valueOf text = some tag) : (lineOf text).isSome = true := by
  unfold valueOf at h
  cases hline : lineOf text with
  | none =>
    rw [hline] at h
    cases h
  | some line => rfl

theorem Compiled.lineOf_line {tsv : List Char} {table : Table} {base : CompiledBase}
    {lines : ListTag → List (List Char)} (h : Compiled tsv table base lines) {tag : ListTag}
    (htext : text ∈ lines tag) : LineOf tag text :=
  ⟨(h.valueOf_line htext).1, (h.valueOf_line htext).2, h.plain_line htext⟩

theorem plain_spaced {numbers : List (List Char)} (hne : numbers ≠ []) (h : ∀ n ∈ numbers, Field n) :
    Plain (spaced numbers) := (title_spaced hne h).plain

variable {rows : List Got}

theorem plain_rowLines {tag kind text : List Char} (htag : Plain tag) (hkind : Plain kind)
    (h : ∀ g ∈ rows, g.Proper) (htext : text ∈ rowLines tag kind rows) : Plain text := by
  obtain ⟨key, numbers, hget, rfl⟩ := mem_numberLines.mp htext
  obtain ⟨hne, hfield, hmem⟩ := group_numbers h hget
  obtain ⟨n, hn⟩ := List.exists_mem_of_ne_nil _ hne
  obtain ⟨g, hg, rfl, -⟩ := (hmem n).mp hn
  refine plain_tabbed ?_
  simp only [List.mem_cons, List.not_mem_nil, or_false]
  rintro f (rfl | rfl | rfl | rfl)
  · exact htag
  · exact hkind
  · refine plain_tabbed ?_
    simpa using ⟨(h g hg).s.title.plain, (h g hg).l.title.plain⟩
  · exact plain_spaced hne hfield

theorem plain_printLines {tag kind key text : List Char} {numbers : List (List Char)} (htag : Plain tag)
    (hkind : Plain kind) (hkey : Plain key) (h : ∀ n ∈ numbers, Field n)
    (htext : text ∈ printLines tag kind key numbers) : Plain text := by
  simp only [printLines] at htext
  split at htext
  · rename_i hpos
    obtain ⟨k, list, hget, rfl⟩ := mem_numberLines.mp htext
    rw [JsMap.get_set] at hget
    split at hget
    · rename_i hk
      subst hk
      obtain rfl := Option.some.inj hget
      have hfield : ∀ n ∈ (JsSet.of numbers).insertionSort (fun a b => byNumber a b ≤ 0), Field n := by
        intro n hn
        rw [List.mem_insertionSort, JsSet.mem_of] at hn
        exact h n hn
      obtain ⟨m, hm⟩ := List.exists_mem_of_length_pos hpos
      refine plain_tabbed ?_
      simpa using ⟨htag, hkind, hkey, plain_spaced (List.ne_nil_of_mem ((List.mem_insertionSort _).mpr hm)) hfield⟩
    · rw [JsMap.get_empty] at hget
      cases hget
  · cases htext

theorem plain_oracleLines {tag text : List Char} (htag : Plain tag) (h : ∀ g ∈ rows, g.Named)
    (htext : text ∈ oracleLines tag rows) : Plain text := by
  simp only [oracleLines, List.mem_map, List.mem_insertionSort, Prod.exists, JsMap.mem_entries] at htext
  obtain ⟨id, name, hget, rfl⟩ := htext
  have hname := get_cardNames rows id
  rw [hget] at hname
  obtain ⟨g, hg, hid, rfl⟩ := hname
  refine plain_tabbed ?_
  simpa using ⟨htag, (field_kind .oracle).title.plain, (Field.of_isId ((h g hg).ids _ hid)).title.plain, (h g hg).name.plain⟩

theorem plain_tag (tag : ListTag) : Plain tag.name := (field_tag tag).title.plain

theorem plain_kind (kind : Kind) : Plain kind.name := (field_kind kind).title.plain

theorem field_en : Field "en".toList := ⟨by decide, by decide⟩

theorem field_lowerCase {code : List Char}
    (h : code ≠ [] ∧ ∀ c ∈ code, (Text.isLowerOrDigit c || ('A' ≤ c && c ≤ 'Z')) = true) : Field (lowerCase code) := by
  have hletters : ∀ n < 0x80, (Text.isLowerOrDigit (Char.ofNat n) || ('A' ≤ Char.ofNat n && Char.ofNat n ≤ 'Z')) = true →
      isSpace (Char.ofNat n).toLower = false := by decide
  refine ⟨by simpa [lowerCase] using h.1, fun c hc => ?_⟩
  obtain ⟨d, hd, rfl⟩ := List.mem_map.mp hc
  have hword := h.2 d hd
  have hlt : d.toNat < 0x80 := by
    simp only [Text.isLowerOrDigit, Text.isLower, Text.isDigit, Bool.or_eq_true, Bool.and_eq_true, decide_eq_true_eq,
      Char.le_def] at hword
    have hnat : ∀ a b : Char, a.val ≤ b.val → a.toNat ≤ b.toNat := fun a b hab => hab
    rcases hword with (⟨-, h2⟩ | ⟨-, h2⟩) | ⟨-, h2⟩
    all_goals
      have := hnat _ _ h2
      simp at *
      omega
  have := hletters d.toNat hlt
  rw [Char.ofNat_toNat] at this
  exact this hword

/-! ## The lines of each unit -/

theorem isCoveredLine_iff {tag : ListTag} (h : valueOf text = some tag) : isCoveredLine text = true ↔ tag = .covered := by
  obtain ⟨line, hline⟩ := Option.isSome_iff_exists.mp (reads_of_value h)
  obtain ⟨first, kind, rest, hsplit, hfirst⟩ := lineOf_cases hline
  rw [valueOf, hline, Option.bind_some] at h
  have hname : first = tag.name := by
    rcases hfirst with ⟨-, hnone⟩ | ⟨tag', rfl, hread⟩
    · rw [hnone] at h
      cases h
    · rw [readFields_value hread] at h
      rw [Option.some.inj h]
  subst hname
  rcases text_of_splitOn hsplit with ⟨hnil, -⟩ | ⟨tail, rfl⟩
  · cases hnil
  · cases tag with
    | covered => exact iff_of_true rfl rfl
    | _ => exact iff_of_false (show ¬ (false = true) by decide) (by decide)

section

variable {code : List Char} {s : SetReading}

theorem SetRead.numbers (h : SetRead code s) (hsub : ∀ g ∈ rows, g ∈ s.rows) : ∀ n ∈ rows.map (·.n), Field n := by
  intro n hn
  obtain ⟨g, hg, rfl⟩ := List.mem_map.mp hn
  exact (h.proper g (hsub g hg)).n

theorem mem_english {g : Got} : g ∈ english rows ↔ g ∈ rows ∧ g.l = "en".toList := by
  simp [english]

/-- The half of a set that is covered, and the half that is not, as their English lines. -/
def coveredLines (code : List Char) (s : SetReading) : List (List Char) :=
  printLines ListTag.covered.name Kind.row.name (tabbed [lowerCase code, "en".toList]) ((english s.covered).map (·.n))

def uncoveredLines (code : List Char) (s : SetReading) : List (List Char) :=
  printLines ListTag.covered.name Kind.notRow.name (tabbed [lowerCase code, "en".toList])
    ((english s.uncovered).map (·.n))

def relatedLines (code : List Char) (s : SetReading) : List (List Char) :=
  printLines ListTag.related.name Kind.print.name (lowerCase code) (JsSet.of (s.related.map (·.n)))

def unrelatedLines (code : List Char) (s : SetReading) : List (List Char) :=
  printLines ListTag.related.name Kind.not.name (lowerCase code)
    ((((allOf s.covered s.uncovered).entries.map Prod.snd).filter fun g =>
      g.n ∉ JsSet.of (s.related.map (·.n))).map (·.n))

/-- The related cards a set shows by a printing without `all_parts` of its own. -/
def shownCards (s : SetReading) : List Got := s.related.filter fun g => !g.p

theorem setLines_eq : setLines code s.covered s.uncovered s.related = (coveredLines code s ++ uncoveredLines code s) ++
      (relatedLines code s ++ (unrelatedLines code s ++ oracleLines ListTag.related.name (shownCards s))) := by
  simp only [setLines, coveredLines, uncoveredLines, relatedLines, unrelatedLines, shownCards, List.append_assoc]

theorem coveredLines_texts (h : SetRead code s) :
    NumberTexts .covered true (fun t l n => t = lowerCase code ∧ l = "en".toList ∧ n ∈ (english s.covered).map (·.n))
      (coveredLines code s) :=
  printLines_texts (fun _ hne hfield => (lineOf_row .covered (field_lowerCase h.word) field_en hne hfield).1)
    (h.numbers fun g hg => by simp [SetReading.rows, (mem_english.mp hg).1])

theorem uncoveredLines_texts (h : SetRead code s) : NumberTexts .covered false
      (fun t l n => t = lowerCase code ∧ l = "en".toList ∧ n ∈ (english s.uncovered).map (·.n)) (uncoveredLines code s) :=
  printLines_texts (fun _ hne hfield => (lineOf_row .covered (field_lowerCase h.word) field_en hne hfield).2)
    (h.numbers fun g hg => by simp [SetReading.rows, (mem_english.mp hg).1])

theorem related_numbers (h : SetRead code s) : ∀ n ∈ JsSet.of (s.related.map (·.n)), Field n := by
  intro n hn
  have hrows : ∀ g ∈ s.related, g ∈ s.rows := fun g hg => by simp [SetReading.rows, hg]
  exact h.numbers hrows n (JsSet.mem_of.mp hn)

theorem mem_allOf {covered uncovered : List Got} {g : Got}
    (h : g ∈ (allOf covered uncovered).entries.map Prod.snd) : g ∈ covered ++ uncovered := by
  obtain ⟨⟨k, g'⟩, hmem, rfl⟩ := List.mem_map.mp h
  have hget := JsMap.mem_entries.mp hmem
  have hfold : ∀ (rows : List Got) (all : JsMap (List Char) Got) (k : List Char) (g : Got),
      (rows.foldl (fun all g => all.set (keyOf g) g) all).get k = some g → g ∈ rows ∨ all.get k = some g := by
    intro rows
    induction rows with
    | nil => exact fun all k g hg => .inr hg
    | cons first rows ih =>
      intro all k g hg
      rcases ih _ k g hg with hin | hset
      · exact .inl (List.mem_cons_of_mem first hin)
      · rw [JsMap.get_set] at hset
        split at hset
        · exact .inl (by rw [Option.some.inj hset]; exact List.mem_cons_self)
        · exact .inr hset
  rcases hfold _ _ _ _ hget with hin | hnone
  · exact hin
  · cases hnone

theorem unrelated_numbers (h : SetRead code s) : ∀ n ∈ (((allOf s.covered s.uncovered).entries.map Prod.snd).filter fun g =>
      g.n ∉ JsSet.of (s.related.map (·.n))).map (·.n), Field n :=
  h.numbers fun g hg => by
    have hall := mem_allOf (List.mem_filter.mp hg).1
    rw [SetReading.rows, List.mem_append]
    exact .inl hall

theorem relatedLines_texts (h : SetRead code s) :
    NumberTexts .related true (fun t l n => t = lowerCase code ∧ l = [] ∧ n ∈ JsSet.of (s.related.map (·.n)))
      (relatedLines code s) :=
  printLines_texts (fun _ hne hfield => (lineOf_print .related (field_lowerCase h.word) hne hfield).1)
    (related_numbers h)

theorem unrelatedLines_texts (h : SetRead code s) : NumberTexts .related false (fun t l n => t = lowerCase code ∧ l = [] ∧
        n ∈ (((allOf s.covered s.uncovered).entries.map Prod.snd).filter fun g =>
          g.n ∉ JsSet.of (s.related.map (·.n))).map (·.n))
      (unrelatedLines code s) :=
  printLines_texts (fun _ hne hfield => (lineOf_print .related (field_lowerCase h.word) hne hfield).2)
    (unrelated_numbers h)

theorem shownCards_texts (h : SetRead code s) :
    OracleTexts .related (fun id => ∃ g ∈ shownCards s, id ∈ g.o) (oracleLines ListTag.related.name (shownCards s)) :=
  oracleLines_texts .related fun g hg => h.named g (by simp [SetReading.rows, (List.mem_filter.mp hg).1])

theorem lineOf_setLines (h : SetRead code s) :
    (∀ text ∈ coveredLines code s ++ uncoveredLines code s, LineOf .covered text) ∧
      (∀ text ∈ relatedLines code s ++ (unrelatedLines code s ++ oracleLines ListTag.related.name (shownCards s)),
        LineOf .related text) := by
  have hkey : Plain (tabbed [lowerCase code, "en".toList]) := by
    refine plain_tabbed ?_
    simpa using ⟨(field_lowerCase h.word).title.plain, field_en.title.plain⟩
  constructor
  · intro text htext
    rcases List.mem_append.mp htext with htext | htext
    · have hvalue := (coveredLines_texts h).valueOf_eq htext
      exact ⟨reads_of_value hvalue, hvalue, plain_printLines (plain_tag _) (plain_kind _) hkey
        (h.numbers fun g hg => by simp [SetReading.rows, (mem_english.mp hg).1]) htext⟩
    · have hvalue := (uncoveredLines_texts h).valueOf_eq htext
      exact ⟨reads_of_value hvalue, hvalue, plain_printLines (plain_tag _) (plain_kind _) hkey
        (h.numbers fun g hg => by simp [SetReading.rows, (mem_english.mp hg).1]) htext⟩
  · intro text htext
    rcases List.mem_append.mp htext with htext | htext
    · have hvalue := (relatedLines_texts h).valueOf_eq htext
      exact ⟨reads_of_value hvalue, hvalue, plain_printLines (plain_tag _) (plain_kind _)
        (field_lowerCase h.word).title.plain (related_numbers h) htext⟩
    · rcases List.mem_append.mp htext with htext | htext
      · have hvalue := (unrelatedLines_texts h).valueOf_eq htext
        exact ⟨reads_of_value hvalue, hvalue, plain_printLines (plain_tag _) (plain_kind _)
          (field_lowerCase h.word).title.plain (unrelated_numbers h) htext⟩
      · have hvalue := (shownCards_texts h).valueOf_eq htext
        exact ⟨reads_of_value hvalue, hvalue, plain_oracleLines (plain_tag _)
          (fun g hg => h.named g (by simp [SetReading.rows, (List.mem_filter.mp hg).1])) htext⟩

theorem filter_two {α : Type} {p : α → Bool} {xs ys : List α} (hyes : ∀ x ∈ xs, p x = true)
    (hno : ∀ y ∈ ys, p y = false) : (xs ++ ys).filter p = xs ∧ (xs ++ ys).filter (fun x => !p x) = ys := by
  rw [List.filter_append, List.filter_append]
  constructor
  · rw [List.filter_eq_self.mpr hyes, List.filter_eq_nil_iff.mpr fun y hy => by simp [hno y hy], List.append_nil]
  · rw [List.filter_eq_nil_iff.mpr fun x hx => by simp [hyes x hx],
      List.filter_eq_self.mpr fun y hy => by simp [hno y hy], List.nil_append]

theorem filter_setLines (h : SetRead code s) : (setLines code s.covered s.uncovered s.related).filter isCoveredLine =
        coveredLines code s ++ uncoveredLines code s ∧
      (setLines code s.covered s.uncovered s.related).filter (fun line => !isCoveredLine line) =
        relatedLines code s ++ (unrelatedLines code s ++ oracleLines ListTag.related.name (shownCards s)) := by
  obtain ⟨hcovered, hrelated⟩ := lineOf_setLines h
  have hyes : ∀ text ∈ coveredLines code s ++ uncoveredLines code s, isCoveredLine text = true :=
    fun text htext => (isCoveredLine_iff (hcovered text htext).value).mpr rfl
  have hno : ∀ text ∈ relatedLines code s ++ (unrelatedLines code s ++
      oracleLines ListTag.related.name (shownCards s)), isCoveredLine text = false := by
    intro text htext
    rw [Bool.eq_false_iff]
    intro hcov
    have := (isCoveredLine_iff (hrelated text htext).value).mp hcov
    cases this
  rw [setLines_eq]
  exact filter_two hyes hno

end

/-! ## The lines of the override -/

section

variable {tsv : List Char} {table : Table} {base : CompiledBase} {lines : ListTag → List (List Char)}
  {r : Readings} {state : IsListsState}

theorem mem_readSets (hr : Records base r state) {code : List Char} {texts : List (List Char)} :
    (code, texts) ∈ readSets state ↔ ∃ s ∈ r.sets code, texts = setLines code s.covered s.uncovered s.related := by
  have hsets := hr.sets code
  rw [readSets, List.mem_insertionSort, List.mem_filterMap]
  constructor
  · rintro ⟨⟨code', set⟩, hmem, hlines⟩
    obtain ⟨texts', hset, heq⟩ := Option.map_eq_some_iff.mp hlines
    obtain ⟨rfl, rfl⟩ := Prod.mk.inj heq
    rw [JsMap.mem_entries.mp hmem, Option.bind_some, hset] at hsets
    obtain ⟨s, hs, hsame⟩ := Option.map_eq_some_iff.mp hsets.symm
    exact ⟨s, hs, hsame.symm⟩
  · rintro ⟨s, hs, rfl⟩
    rw [Option.mem_def.mp hs, Option.map_some] at hsets
    obtain ⟨set, hget, hset⟩ := Option.bind_eq_some_iff.mp hsets
    exact ⟨(code, set), JsMap.mem_entries.mpr hget, by rw [hset]; rfl⟩

theorem smallOf_tag (list : SmallList) : smallOf list.tag = some list := by
  cases list <;> decide

theorem tag_of_smallOf {tag : ListTag} {list : SmallList} (h : smallOf tag = some list) : tag = list.tag := by
  simpa [eq_comm] using List.find?_some h

theorem refreshed_small (state : IsListsState) (list : SmallList) :
    refreshed lines state list.tag = ((state.lists.get list).map (·.lines)).getD (lines list.tag) := by
  have hsmall := smallOf_tag list
  cases list <;> simp only [SmallList.tag, refreshed] at hsmall ⊢ <;> rw [hsmall, Option.bind_some] <;>
    cases state.lists.get _ <;> rfl

theorem lineOf_listLines (hc : Compiled tsv table base lines) {list : SmallList}
    (h : ListRead list rows) (htext : text ∈ listLines base.keep list rows) :
    LineOf list.tag text := by
  unfold listLines at htext
  split at htext
  · rename_i hcards
    rcases List.mem_append.mp htext with htext | htext
    · have hvalue := (oracleLines_texts list.tag (h.named hcards)).valueOf_eq htext
      exact ⟨reads_of_value hvalue, hvalue, plain_oracleLines (plain_tag _) (h.named hcards) htext⟩
    · obtain ⟨-, -, -, -, hkeep, -⟩ := readCompiled_ok hc.read
      rw [hkeep, if_pos hcards] at htext
      exact hc.lineOf_line (List.mem_filter.mp htext).1
  · have hvalue := (rowLines_texts list.tag true h.proper).valueOf_eq htext
    exact ⟨reads_of_value hvalue, hvalue, plain_rowLines (plain_tag _) (plain_kind .row) h.proper htext⟩

theorem lineOf_foreignLines (h : ∀ g ∈ rows, g.Proper)
    (htext : text ∈ foreignLines rows) : LineOf .covered text := by
  have hvalue := (rowLines_texts .covered false h).valueOf_eq htext
  exact ⟨reads_of_value hvalue, hvalue, plain_rowLines (plain_tag .covered) (plain_kind .notRow) h htext⟩

theorem refreshed_line (hc : Compiled tsv table base lines) (hr : Records base r state) (tag : ListTag)
    (htext : text ∈ refreshed lines state tag) : LineOf tag text := by
  have hset : ∀ e ∈ readSets state, ∃ s, SetRead e.1 s ∧ e.2 = setLines e.1 s.covered s.uncovered s.related := by
    intro e he
    obtain ⟨s, hs, htexts⟩ := (mem_readSets hr).mp (show (e.1, e.2) ∈ readSets state from he)
    exact ⟨s, hr.setRead e.1 s hs, htexts⟩
  by_cases hsmall : ∃ list, smallOf tag = some list
  · obtain ⟨list, hlist⟩ := hsmall
    obtain rfl := tag_of_smallOf hlist
    rw [refreshed_small, hr.lists] at htext
    cases hrows : r.lists list with
    | none =>
      rw [hrows] at htext
      exact hc.lineOf_line htext
    | some rows =>
      rw [hrows] at htext
      exact lineOf_listLines hc (hr.listRead list rows hrows) htext
  · have hrelated : tag = .covered ∨ tag = .related := by
      cases tag with
      | covered => exact .inl rfl
      | related => exact .inr rfl
      | _ => exact absurd ⟨_, rfl⟩ hsmall
    rcases hrelated with rfl | rfl
    · rw [refreshed] at htext
      rcases List.mem_append.mp htext with htext | htext
      · rcases List.mem_append.mp htext with htext | htext
        · exact hc.lineOf_line (List.mem_filter.mp htext).1
        · rw [hr.foreign] at htext
          cases hrows : r.foreign with
          | none =>
            rw [hrows] at htext
            cases htext
          | some rows =>
            rw [hrows] at htext
            exact lineOf_foreignLines (fun g hg => (hr.foreignRead rows hrows g hg).1) htext
      · obtain ⟨e, he, htext⟩ := List.mem_flatMap.mp htext
        obtain ⟨s, hs, htexts⟩ := hset e he
        rw [htexts, (filter_setLines hs).1] at htext
        exact (lineOf_setLines hs).1 text htext
    · rw [refreshed, JsSet.mem_of] at htext
      rcases List.mem_append.mp htext with htext | htext
      · exact hc.lineOf_line htext
      · obtain ⟨e, he, htext⟩ := List.mem_flatMap.mp htext
        obtain ⟨s, hs, htexts⟩ := hset e he
        rw [htexts, (filter_setLines hs).2] at htext
        exact (lineOf_setLines hs).2 text htext

/-- The artwork representatives' lines of the override. -/
def artPart (state : IsListsState) (artReps : Bool) : List (List Char) :=
  ((if artReps then state.art else none).map (·.lines)).getD []

variable {artReps : Bool}

theorem artPart_line (hr : Records base r state)
    (htext : text ∈ artPart state artReps) :
    (lineOf text).isSome = true ∧ valueOf text = none ∧ Plain text := by
  unfold artPart at htext
  cases artReps with
  | false => cases htext
  | true =>
    rw [if_pos rfl, hr.art] at htext
    cases hrows : r.art with
    | none =>
      rw [hrows] at htext
      cases htext
    | some rows =>
      rw [hrows] at htext
      obtain ⟨set, lang, list, hline⟩ := artLines_read (hr.artRead rows hrows) htext
      exact ⟨by rw [hline]; rfl, valueOf_eq_none hline,
        plain_rowLines field_ART_REP_LINE.title.plain (plain_kind .row) (hr.artRead rows hrows) htext⟩

theorem overrideBody_line (hc : Compiled tsv table base lines) (hr : Records base r state)
    (htext : text ∈ overrideBody lines state artReps) :
    (lineOf text).isSome = true ∧ Plain text := by
  rcases List.mem_append.mp htext with htext | htext
  · obtain ⟨tag, -, htext⟩ := List.mem_flatMap.mp htext
    exact ⟨(refreshed_line hc hr tag htext).reads, (refreshed_line hc hr tag htext).plain⟩
  · exact ⟨(artPart_line hr htext).1, (artPart_line hr htext).2.2⟩

theorem textsSay_body (hc : Compiled tsv table base lines) (hr : Records base r state) (artReps : Bool)
    (row : Printing) (tag : ListTag) :
    textsSay row tag (overrideBody lines state artReps) = textsSay row tag (refreshed lines state tag) := by
  have hartValue : ∀ text ∈ artPart state artReps, valueOf text ≠ some tag := by
    intro text htext
    rw [(artPart_line hr htext).2.1]
    simp
  have hart := silent_of_value hartValue row
  have hother : ∀ t, t ≠ tag → ownOf row tag (refreshed lines state t) = none ∧
      everyOf row tag (refreshed lines state t) = none ∧ wideOf row tag (refreshed lines state t) = none := by
    intro t ht
    refine silent_of_value (fun text htext => ?_) row
    rw [(refreshed_line hc hr t htext).value]
    simpa using ht
  have hbody : overrideBody lines state artReps = LIST_TAGS.flatMap (refreshed lines state) ++ artPart state artReps :=
    rfl
  have hmem := mem_LIST_TAGS tag
  rw [hbody]
  simp only [textsSay, ownOf, everyOf, wideOf, Layers.last_append, Layers.last_flatMap] at hart hother ⊢
  rw [hart.1, hart.2.1, hart.2.2, Option.none_or, Option.none_or, Option.none_or,
    Layers.last_single hmem fun t _ ht => (hother t ht).1, Layers.last_single hmem fun t _ ht => (hother t ht).2.1,
    Layers.last_single hmem fun t _ ht => (hother t ht).2.2]

/-! ## Acceptance -/

variable (noteText : IsListsState → List Char → Bool → OneLine)

theorem head_trimBy {cls : Char → Bool} {s : List Char} : ∀ c ∈ (trimBy cls s).head?, c ∈ (s.dropWhile cls).head? := by
  intro c hc
  have hsuffix : (trimBy cls s) <+: s.dropWhile cls := by
    rw [trimBy, ← List.reverse_suffix, List.reverse_reverse]
    exact List.dropWhile_suffix cls
  obtain ⟨rest, hrest⟩ := hsuffix
  cases htrim : trimBy cls s with
  | nil =>
    rw [htrim] at hc
    cases hc
  | cons d more =>
    rw [htrim] at hc hrest
    rw [← hrest]
    exact hc

theorem trim_word {d : Char} {lit word : List Char} (hd : isWhitespace d = false)
    (hword : ∀ c ∈ word, isWhitespace c = false) (hne : word ≠ []) :
    trimBy isWhitespace (' ' :: ((d :: lit) ++ word)) = (d :: lit) ++ word := by
  refine trimBy_blank (by decide) ?_ ?_
  · intro c hc
    rw [← Option.some.inj hc]
    exact hd
  · intro c hc
    rw [List.getLast?_append_of_ne_nil _ hne] at hc
    exact hword c (List.mem_of_getLast? hc)

theorem headerOf_cons {line : List Char} (more : List (List Char)) (t : Table) (hline : isComment line = true) :
    headerOf (line :: more) t = headerOf more (t.comment (trimBy isWhitespace line.tail)) := by
  rw [headerOf, List.filter_cons_of_pos hline]
  rfl

theorem comment_trimmed (t : Table) {c : Char} (rest : List Char) (hspace : isWhitespace c = false)
    (hc : c ≠ 'p' ∧ c ≠ 'b' ∧ c ≠ 'a') :
    (t.comment (trimBy isWhitespace (' ' :: c :: rest))).base = t.base ∧
      (t.comment (trimBy isWhitespace (' ' :: c :: rest))).tiersFingerprint = t.tiersFingerprint ∧
      (t.comment (trimBy isWhitespace (' ' :: c :: rest))).artFrom = t.artFrom := by
  refine comment_other t _ fun d hd => ?_
  have hhead := head_trimBy d hd
  rw [List.dropWhile_cons_of_pos (by decide), List.dropWhile_cons_of_neg (by simp [hspace])] at hhead
  rw [← Option.some.inj hhead]
  exact hc

theorem fingerprint_chars (hc : Compiled tsv table base lines) :
    base.fingerprint ≠ [] ∧ ∀ c ∈ base.fingerprint, isDayChar c = true := by
  rw [hc.fingerprint, compiledFingerprint, Fnv.fnv1a64]
  refine ⟨?_, isDayChar_hex 16 _⟩
  intro hnil
  have hlength := congrArg List.length hnil
  simp at hlength

theorem isDay_ne_nil (h : isDay text = true) : text ≠ [] := by
  rintro rfl
  cases h

theorem header_day (t : Table) {day : List Char} (h : isDay day = true) :
    headerOf ["# art-reps-from ".toList ++ day] t = { t with artFrom := some day } := by
  have htrim : trimBy isWhitespace (' ' :: ("art-reps-from ".toList ++ day)) = "art-reps-from ".toList ++ day :=
    trim_word (by decide) (fun c hmem => (isDayChar_spec (isDayChar_of_isDay h c hmem)).1) (isDay_ne_nil h)
  rw [headerOf_cons [] t rfl]
  change t.comment (trimBy isWhitespace (' ' :: ("art-reps-from ".toList ++ day))) = _
  rw [htrim, comment_day]

theorem header_facts (hc : Compiled tsv table base lines) (artReps : Bool)
    (hday : ∀ art ∈ (if artReps then state.art else none), isDay art.back = true) :
    (headerOf (overrideHeader noteText base state artReps) {}).base = some base.fingerprint ∧
      (headerOf (overrideHeader noteText base state artReps) {}).tiersFingerprint = some base.tiers ∧
      (headerOf (overrideHeader noteText base state artReps) {}).artFrom =
        (if artReps then state.art else none).map (·.back) := by
  obtain ⟨-, -, -, -, -, htiers, -⟩ := readCompiled_ok hc.read
  obtain ⟨hne, hchars⟩ := fingerprint_chars hc
  have hbase : trimBy isWhitespace (' ' :: ("base ".toList ++ base.fingerprint)) = "base ".toList ++ base.fingerprint :=
    trim_word (by decide) (fun c hmem => (isDayChar_spec (hchars c hmem)).1) hne
  have htier : trimBy isWhitespace (' ' :: ("print_tiers.tsv ".toList ++ base.tiers)) =
      "print_tiers.tsv ".toList ++ base.tiers := trim_word (by decide) hc.word htiers
  -- The four lines every override has, then the day where there is one.
  have hshape : ∀ days : List (List Char), ∀ rest note : List Char,
      let t := headerOf (("# OVERRIDE of is_lists.tsv (".toList ++ rest) :: ("# base ".toList ++ base.fingerprint) ::
        ("# print_tiers.tsv ".toList ++ base.tiers) :: ("# meta ".toList ++ note) :: days) {}
      ∃ t', t = headerOf days t' ∧ t'.base = some base.fingerprint ∧ t'.tiersFingerprint = some base.tiers ∧
        t'.artFrom = none := by
    intro days rest note
    have hfirst := comment_trimmed {} ("VERRIDE of is_lists.tsv (".toList ++ rest) (c := 'O') (by decide) (by decide)
    generalize hopened : Table.comment {} (trimBy isWhitespace (' ' :: 'O' ::
      ("VERRIDE of is_lists.tsv (".toList ++ rest))) = opened at hfirst
    have hbased : opened.comment (trimBy isWhitespace (' ' :: ("base ".toList ++ base.fingerprint))) =
        { opened with base := some base.fingerprint } := by rw [hbase, comment_base]
    have htiered : ∀ t : Table, t.comment (trimBy isWhitespace (' ' :: ("print_tiers.tsv ".toList ++ base.tiers))) =
        { t with tiersFingerprint := some base.tiers } := by
      intro t
      rw [htier, comment_tiers]
    have hnoted := comment_trimmed { opened with base := some base.fingerprint, tiersFingerprint := some base.tiers }
      ("eta ".toList ++ note) (c := 'm') (by decide) (by decide)
    refine ⟨_, ?_, hnoted.1, hnoted.2.1, hnoted.2.2.trans hfirst.2.2⟩
    rw [headerOf_cons _ _ rfl, headerOf_cons _ _ rfl, headerOf_cons _ _ rfl, headerOf_cons _ _ rfl]
    change headerOf days ((((Table.comment {} (trimBy isWhitespace (' ' :: 'O' ::
      ("VERRIDE of is_lists.tsv (".toList ++ rest)))).comment
        (trimBy isWhitespace (' ' :: ("base ".toList ++ base.fingerprint)))).comment
        (trimBy isWhitespace (' ' :: ("print_tiers.tsv ".toList ++ base.tiers)))).comment
        (trimBy isWhitespace (' ' :: 'm' :: ("eta ".toList ++ note)))) = _
    rw [hopened, hbased, htiered]
  cases hart : (if artReps then state.art else none) with
  | none =>
    obtain ⟨t, ht, hb, hw, hd⟩ := hshape [] (base.date ++ "), composed by src/import-is-lists.ts; checked ".toList ++
      state.checked.getD "never".toList ++ ['.']) (noteText state base.date artReps).val
    have hheader : headerOf (overrideHeader noteText base state artReps) {} = headerOf [] t := by
      rw [← ht, overrideHeader, hart]
      simp only [List.append_assoc, List.append_nil]
    rw [hheader]
    exact ⟨hb, hw, hd⟩
  | some art =>
    obtain ⟨t, ht, hb, hw, -⟩ := hshape ["# art-reps-from ".toList ++ art.back] (base.date ++
      "), composed by src/import-is-lists.ts; checked ".toList ++ state.checked.getD "never".toList ++ ['.'])
      (noteText state base.date artReps).val
    have hheader : headerOf (overrideHeader noteText base state artReps) {} =
        headerOf ["# art-reps-from ".toList ++ art.back] t := by
      rw [← ht, overrideHeader, hart]
      simp only [List.append_assoc, List.cons_append, List.nil_append]
    rw [hheader, header_day t (hday art hart)]
    exact ⟨hb, hw, rfl⟩

/-- The parts of an override that was composed. -/
structure Composed (base : CompiledBase) (lines : ListTag → List (List Char)) (state : IsListsState) (artReps : Bool)
    (text : List Char) : Prop where
  shape : text = ['\n'].intercalate
    (overrideHeader noteText base state artReps ++ overrideBody lines state artReps) ++ ['\n']
  named : state.base = base.fingerprint
  refinable : state.foreign.isSome = true ∨ readSets state ≠ [] → base.refinable = true
  day : ∀ art ∈ (if artReps then state.art else none), isDay art.back = true

theorem composed_of_ok (hc : Compiled tsv table base lines) (hr : Records base r state)
    (h : composeOverride noteText tsv state artReps = .ok (some text)) :
    Composed noteText base lines state artReps text := by
  have hbody : (overrideBody lines state artReps).mapM checkLine = .ok (overrideBody lines state artReps) := by
    refine (Throws.mapM_ok (g := id) fun line hline => ?_).trans (by rw [List.map_id])
    exact checkLine_of_lineOf (overrideBody_line hc hr hline).1
  rw [composeOverride, Throws.bind_ok hc.read] at h
  dsimp only at h
  rw [hbody] at h
  suffices hparts : state.base = base.fingerprint ∧
      (state.foreign.isSome = true ∨ readSets state ≠ [] → base.refinable = true) ∧
      (∀ art ∈ (if artReps then state.art else none), isDay art.back = true) ∧
      ['\n'].intercalate (overrideHeader noteText base state artReps ++ overrideBody lines state artReps) ++ ['\n'] =
        text from ⟨hparts.2.2.2.symm, hparts.1, hparts.2.1, hparts.2.2.1⟩
  generalize (if artReps = true then state.art else none) = held at h ⊢
  split at h
  · cases h
  · rename_i hbase
    split at h
    · cases h
    · split at h
      · cases h
      · rename_i hrefinable
        split at h
        · cases h
        · rename_i hart
          refine ⟨not_not.mp hbase, fun hread => ?_, fun art hmem => ?_, Option.some.inj (Except.ok.inj h)⟩
          · rcases hread with hread | hread
            · simpa [hread] using hrefinable
            · have hnotEmpty : (readSets state).isEmpty = false := by simpa using hread
              simpa [hnotEmpty] using hrefinable
          · rw [Option.mem_def.mp hmem] at hart
            simp only [Option.any_some, Bool.or_eq_true, not_or, Bool.not_eq_true', Bool.not_eq_false] at hart
            exact hart.1

theorem plain_header (hc : Compiled tsv table base lines) (hr : Records base r state)
    (hday : ∀ art ∈ (if artReps then state.art else none), isDay art.back = true) :
    ∀ line ∈ overrideHeader noteText base state artReps, Plain line ∧ line ≠ [] ∧ isComment line = true := by
  obtain ⟨-, -, -, -, -, -, hdate⟩ := readCompiled_ok hc.read
  have hdays : ∀ {day : List Char}, isDay day = true → Plain day :=
    fun h => plain_of_dayChars (isDayChar_of_isDay h)
  have hchecked : Plain (state.checked.getD "never".toList) := by
    cases hstate : state.checked with
    | none => exact ⟨by decide, by decide⟩
    | some day => exact hdays (hr.checked day hstate)
  have htiers : Plain base.tiers :=
    ⟨fun hmem => absurd (hc.word _ hmem) (by decide), fun hmem => absurd (hc.word _ hmem) (by decide)⟩
  have hlit : ∀ lit : List Char, lit.contains '\n' = false → lit.contains '\r' = false → Plain lit := by
    intro lit hn hr
    exact ⟨by simpa using hn, by simpa using hr⟩
  intro line hline
  unfold overrideHeader at hline
  rcases List.mem_append.mp hline with hline | hline
  · simp only [List.mem_cons, List.not_mem_nil, or_false] at hline
    rcases hline with rfl | rfl | rfl | rfl
    · exact ⟨((((hlit _ (by decide) (by decide)).append (hdays hdate)).append
        (hlit _ (by decide) (by decide))).append hchecked).append (hlit _ (by decide) (by decide)), by simp, rfl⟩
    · exact ⟨(hlit _ (by decide) (by decide)).append (plain_of_dayChars (fingerprint_chars hc).2), by simp, rfl⟩
    · exact ⟨(hlit _ (by decide) (by decide)).append htiers, by simp, rfl⟩
    · exact ⟨(hlit _ (by decide) (by decide)).append (noteText state base.date artReps).property, by simp, rfl⟩
  · cases hart : (if artReps then state.art else none) with
    | none =>
      rw [hart] at hline
      cases hline
    | some art =>
      rw [hart] at hline
      obtain rfl := List.mem_singleton.mp hline
      exact ⟨(hlit _ (by decide) (by decide)).append (hdays (hday art hart)), by simp, rfl⟩

/-- **An override reads as the lines it was composed of.** -/
theorem Composed.parsed (hc : Compiled tsv table base lines) (hr : Records base r state)
    (h : Composed noteText base lines state artReps text) :
    ∃ renewed, tryParse text = .ok renewed ∧ renewed.base = some base.fingerprint ∧ renewed.tiersFingerprint = some base.tiers ∧
      renewed.artFrom = (if artReps then state.art else none).map (·.back) ∧
      renewed.lines = (overrideBody lines state artReps).length ∧
      renewed.artRows = ((overrideBody lines state artReps).filterMap lineOf).flatMap Line.arts ∧
      ∀ row tag, verdictsIn renewed row tag = textsSay row tag (refreshed lines state tag) := by
  have hheader := plain_header noteText hc hr h.day
  have hbody : ∀ line ∈ overrideBody lines state artReps, (lineOf line).isSome = true ∧ Plain line :=
    fun line hline => overrideBody_line hc hr hline
  have hread : rustLines text = overrideHeader noteText base state artReps ++ overrideBody lines state artReps := by
    rw [h.shape]
    refine rustLines_joined ?_ ?_ ?_
    · intro line hline
      rcases List.mem_append.mp hline with hline | hline
      · exact (hheader line hline).1
      · exact (hbody line hline).2
    · intro line hline
      rcases List.mem_append.mp hline with hline | hline
      · exact (hheader line hline).2.1
      · exact (not_comment_of_lineOf (hbody line hline).1).1
    · simp [overrideHeader]
  have hdata : dataOf (rustLines text) = overrideBody lines state artReps := by
    rw [hread, dataOf, List.filter_append,
      List.filter_eq_nil_iff.mpr fun line hline => by simp [(hheader line hline).2.2], List.nil_append]
    exact List.filter_eq_self.mpr fun line hline => by simp [(not_comment_of_lineOf (hbody line hline).1).2]
  have hhead : headerOf (rustLines text) {} = headerOf (overrideHeader noteText base state artReps) {} := by
    rw [hread, headerOf, headerOf, List.filter_append, List.filter_eq_nil_iff (l := overrideBody lines state artReps)
      |>.mpr fun line hline => by simp [(not_comment_of_lineOf (hbody line hline).1).2], List.append_nil]
  have hparse := tryParse_eq text
  rw [hdata, hhead, mapM_readLine fun line hline => (hbody line hline).1] at hparse
  obtain ⟨hbase, htiers, hfrom⟩ := header_facts noteText hc artReps h.day
  obtain ⟨hbase', htiers', hfrom'⟩ := foldl_push_header ((overrideBody lines state artReps).filterMap lineOf)
    (headerOf (overrideHeader noteText base state artReps) {})
  have hholds := (headerOf_holds (overrideHeader noteText base state artReps)).foldl_push
    ((overrideBody lines state artReps).filterMap lineOf)
  have hlength : ((overrideBody lines state artReps).filterMap lineOf).length =
      (overrideBody lines state artReps).length := by
    have hall := Throws.forall₂_of_mapM (mapM_readLine fun line hline => (hbody line hline).1)
    exact hall.length_eq.symm
  refine ⟨_, hparse, hbase'.trans hbase, htiers'.trans htiers, hfrom'.trans hfrom, hholds.count.trans hlength,
    hholds.arts, fun row tag => ?_⟩
  rw [hholds.verdict, List.nil_append, saidBy_filterMap, textsSay_body hc hr]

end

end IsLists
