-- SUMMARY: What a refreshed table answers for every row, unit by unit, read or not.
import Sylvan.Import.IsListRefresh

/-!
# The answers of a refreshed table

Value by value: where a unit was read the override answers from the reading, elsewhere as
the compiled table.
-/

namespace IsLists

open Layers
open Line (every own)

def Got.isOf (row : Printing) (g : Got) : Bool := g.s = row.set && g.l = row.lang && g.n = row.number

theorem Got.isOf_iff {row : Printing} {g : Got} : g.isOf row = true ↔ g.s = row.set ∧ g.l = row.lang ∧ g.n = row.number := by
  simp [Got.isOf, and_assoc]

def Got.isCardOf (row : Printing) (g : Got) : Bool := g.o.any fun id => id ∈ row.oracles

def Readings.LowerCase (r : Readings) : Prop :=
  ∀ code, ∀ s ∈ r.sets code, lowerCase code = code ∧ ∀ g ∈ s.rows, lowerCase g.s = g.s

/-- A card some set's reading found related by a printing without `all_parts` of its own. -/
def Readings.Shows (r : Readings) (row : Printing) : Prop :=
  ∃ code, ∃ s ∈ r.sets code, ∃ g ∈ shownCards s, g.isCardOf row = true

section

variable {tsv : List Char} {table : Table} {base : CompiledBase} {lines : ListTag → List (List Char)}
  {r : Readings} {state : IsListsState}

/-! ## Small lists -/

variable {rows : List Got}

theorem rowLines_say (tag : ListTag) (isIn : Bool) (h : ∀ g ∈ rows, g.Proper) (row : Printing) :
    textsSay row tag (rowLines tag.name (if isIn then Kind.row else Kind.notRow).name rows) =
      if rows.any (Got.isOf row) then some isIn else none := by
  have htexts := rowLines_texts tag isIn h
  have hevery : everyOf row tag (rowLines tag.name (if isIn then Kind.row else Kind.notRow).name rows) = none := by
    refine htexts.every_none ?_
    rintro ⟨-, g, hg, -, hempty, -⟩
    exact (h g hg).l.nonempty hempty
  rw [textsSay, htexts.wide, hevery, Option.or_none, Option.or_none]
  by_cases hrow : rows.any (Got.isOf row) = true
  · obtain ⟨g, hg, hof⟩ := List.any_eq_true.mp hrow
    obtain ⟨hs, hl, hn⟩ := Got.isOf_iff.mp hof
    rw [if_pos hrow]
    exact htexts.own_some (by rw [← hl]; exact (h g hg).l.nonempty) ⟨g, hg, hs, hl, hn⟩
  · rw [if_neg hrow]
    refine htexts.own_none ?_
    rintro ⟨-, -, g, hg, hs, hl, hn⟩
    exact hrow (List.any_eq_true.mpr ⟨g, hg, Got.isOf_iff.mpr ⟨hs, hl, hn⟩⟩)

theorem oracleLines_say (tag : ListTag) (h : ∀ g ∈ rows, g.Named) (row : Printing) :
    ownOf row tag (oracleLines tag.name rows) = none ∧ everyOf row tag (oracleLines tag.name rows) = none ∧
      wideOf row tag (oracleLines tag.name rows) = if rows.any (Got.isCardOf row) then some true else none := by
  have htexts := oracleLines_texts tag h
  refine ⟨htexts.own row tag, htexts.every row tag, ?_⟩
  have hiff : rows.any (Got.isCardOf row) = true ↔ ∃ id ∈ row.oracles, ∃ g ∈ rows, id ∈ g.o := by
    rw [List.any_eq_true]
    constructor
    · rintro ⟨g, hg, hcard⟩
      obtain ⟨id, hid, hmem⟩ := List.any_eq_true.mp hcard
      exact ⟨id, of_decide_eq_true hmem, g, hg, hid⟩
    · rintro ⟨id, hid, g, hg, hmem⟩
      exact ⟨g, hg, List.any_eq_true.mpr ⟨id, hmem, decide_eq_true hid⟩⟩
  by_cases hrow : rows.any (Got.isCardOf row) = true
  · rw [if_pos hrow]
    exact htexts.wide_some (hiff.mp hrow)
  · rw [if_neg hrow]
    refine htexts.wide_none ?_
    rintro ⟨-, hcard⟩
    exact hrow (hiff.mpr hcard)

variable {text : List Char}

variable {tag : ListTag}

theorem readFields_not {rest : List (List Char)} {line : Line}
    (h : readFields text tag (some .not) rest = .ok line) :
    ∃ set list numbers, rest = [set, list] ∧ line = .numbers tag set [] numbers false :=
  readFields_print h

theorem readFields_notRow {rest : List (List Char)} {line : Line}
    (h : readFields text tag (some .notRow) rest = .ok line) :
    ∃ set lang list numbers, rest = [set, lang, list] ∧ line = .numbers tag set lang numbers false :=
  readFields_row h

variable {list : SmallList}

theorem keep_line (hc : Compiled tsv table base lines)
    (htext : text ∈ base.keep list) :
    ∃ set lang numbers, lineOf text = some (.numbers list.tag set lang numbers false) := by
  obtain ⟨-, -, -, -, hkeep, -⟩ := readCompiled_ok hc.read
  rw [hkeep] at htext
  split at htext
  · obtain ⟨htext, hkind⟩ := List.mem_filter.mp htext
    obtain ⟨hreads, hvalue⟩ := hc.valueOf_line htext
    obtain ⟨line, hline⟩ := Option.isSome_iff_exists.mp hreads
    rw [valueOf, hline, Option.bind_some] at hvalue
    obtain ⟨rest, -, hread⟩ := line_fields hline hvalue
    rw [Bool.or_eq_true, decide_eq_true_eq, decide_eq_true_eq] at hkind
    rcases hkind with hkind | hkind
    · rw [hkind, kindOf_name] at hread
      obtain ⟨set, _, numbers, -, rfl⟩ := readFields_not hread
      exact ⟨set, [], numbers, hline⟩
    · rw [hkind, kindOf_name] at hread
      obtain ⟨set, lang, _, numbers, -, rfl⟩ := readFields_notRow hread
      exact ⟨set, lang, numbers, hline⟩
  · cases htext

theorem keep_out (hc : Compiled tsv table base lines) (list : SmallList) (row : Printing) :
    wideOf row list.tag (base.keep list) = none ∧ ∀ b ∈ textsSay row list.tag (base.keep list), b = false := by
  have hwide : wideOf row list.tag (base.keep list) = none := by
    refine last_eq_none fun text htext => ?_
    obtain ⟨set, lang, numbers, hline⟩ := keep_line hc htext
    rw [hline]
    rfl
  refine ⟨hwide, fun b hb => ?_⟩
  rw [textsSay, hwide, Option.or_none, Option.mem_def, Option.or_eq_some_iff] at hb
  rcases hb with hb | ⟨-, hb⟩ <;>
  · obtain ⟨text, htext, hsaid⟩ := mem_of_last hb
    obtain ⟨set, lang, numbers, hline⟩ := keep_line hc htext
    rw [hline, Option.bind_some] at hsaid
    simp only [own, every] at hsaid
    split at hsaid
    · exact (Option.some.inj hsaid).symm
    · cases hsaid

theorem small_read (hr : Records base r state)
    (hrows : rows ∈ r.lists list) (row : Printing) :
    textsSay row list.tag (refreshed lines state list.tag) = textsSay row list.tag (listLines base.keep list rows) := by
  rw [refreshed_small, hr.lists, Option.mem_def.mp hrows]
  rfl

theorem small_unread (hr : Records base r state) (hrows : r.lists list = none) (row : Printing) :
    textsSay row list.tag (refreshed lines state list.tag) = textsSay row list.tag (lines list.tag) := by
  rw [refreshed_small, hr.lists, hrows]
  rfl

/-- A card list: the compiled table's own exceptions are out, and every other printing of a card read is in. -/
theorem cards_say (hc : Compiled tsv table base lines) (hcards : list ∈ CARD_LISTS)
    (h : ∀ g ∈ rows, g.Named) (row : Printing) :
    textsSay row list.tag (listLines base.keep list rows) =
      if textsSay row list.tag (base.keep list) = some false then some false
      else if rows.any (Got.isCardOf row) then some true else none := by
  obtain ⟨hwide, hout⟩ := keep_out hc list row
  obtain ⟨hown, hevery, hcard⟩ := oracleLines_say list.tag h row
  have hnarrow : textsSay row list.tag (listLines base.keep list rows) =
      (textsSay row list.tag (base.keep list)).or (if rows.any (Got.isCardOf row) then some true else none) := by
    rw [listLines, if_pos hcards]
    simp only [textsSay, ownOf, everyOf, wideOf, last_append] at hwide hown hevery hcard ⊢
    rw [hwide, hown, hevery, hcard]
    simp only [Option.or_none, Option.none_or, Option.or_assoc]
  rw [hnarrow]
  cases hkept : textsSay row list.tag (base.keep list) with
  | none => rfl
  | some b =>
    obtain rfl := hout b hkept
    rfl

/-! ## Covered -/

theorem refinable_line (hc : Compiled tsv table base lines) (href : base.refinable = true)
    (htext : text ∈ lines .covered) :
    fieldAt text 3 ≠ [] ∧
      ∃ numbers isIn, lineOf text = some (.numbers .covered (fieldAt text 2) (fieldAt text 3) numbers isIn) := by
  obtain ⟨-, -, -, hrefinable, -⟩ := readCompiled_ok hc.read
  rw [href, eq_comm, Bool.and_eq_true] at hrefinable
  have hline := List.all_eq_true.mp hrefinable.1 text htext
  simp only [coveredRefinable, Bool.and_eq_true, Bool.or_eq_true, decide_eq_true_eq, Bool.not_eq_true',
    List.isEmpty_eq_false_iff] at hline
  obtain ⟨⟨⟨hkind, hlang⟩, -⟩, -⟩ := hline
  obtain ⟨hreads, hvalue⟩ := hc.valueOf_line htext
  obtain ⟨line, hread⟩ := Option.isSome_iff_exists.mp hreads
  rw [valueOf, hread, Option.bind_some] at hvalue
  obtain ⟨rest, hsplit, hfields⟩ := line_fields hread hvalue
  have hrow : ∃ isIn : Bool, kindOf (fieldAt text 1) = some (if isIn then .row else .notRow) := by
    rcases hkind with hkind | hkind
    · exact ⟨true, by rw [hkind, kindOf_name]; rfl⟩
    · exact ⟨false, by rw [hkind, kindOf_name]; rfl⟩
  obtain ⟨isIn, hrow⟩ := hrow
  rw [hrow] at hfields
  obtain ⟨set, lang, list, numbers, rfl, rfl⟩ := readFields_row hfields
  have h2 : fieldAt text 2 = set := by rw [fieldAt, hsplit]; rfl
  have h3 : fieldAt text 3 = lang := by rw [fieldAt, hsplit]; rfl
  exact ⟨hlang, numbers, isIn, by rw [h2, h3]; exact hread⟩

def staying (lines : ListTag → List (List Char)) (state : IsListsState) : List (List Char) :=
  (lines .covered).filter fun line =>
    if fieldAt line 3 ≠ "en".toList then state.foreign.isNone
    else fieldAt line 2 ∉ (readSets state).map Prod.fst

def setPart (state : IsListsState) : List (List Char) := (readSets state).flatMap fun e => e.2.filter isCoveredLine

def foreignPart (state : IsListsState) : List (List Char) := (state.foreign.map (·.lines)).getD []

theorem refreshed_covered (lines : ListTag → List (List Char)) (state : IsListsState) :
    refreshed lines state .covered = (staying lines state ++ foreignPart state) ++ setPart state := rfl

theorem covered_as_compiled (hforeign : state.foreign = none) (hsets : readSets state = []) :
    refreshed lines state .covered = lines .covered := by
  rw [refreshed_covered, staying, setPart, foreignPart, hforeign, hsets]
  simp

theorem staying_narrow (state : IsListsState) (hc : Compiled tsv table base lines) (href : base.refinable = true) (row : Printing) :
    everyOf row .covered (staying lines state) = none ∧ wideOf row .covered (staying lines state) = none := by
  constructor <;>
  · refine last_eq_none fun text htext => ?_
    obtain ⟨hlang, numbers, isIn, hline⟩ := refinable_line hc href (List.mem_filter.mp htext).1
    rw [hline, Option.bind_some]
    simp [every, Line.wide, hlang]

theorem foreign_answer (hr : Records base r state) (row : Printing) :
    everyOf row .covered (foreignPart state) = none ∧ wideOf row .covered (foreignPart state) = none ∧
      ownOf row .covered (foreignPart state) = if (r.foreign.getD []).any (Got.isOf row) then some false else none := by
  rw [foreignPart, hr.foreign]
  cases hrows : r.foreign with
  | none => exact ⟨rfl, rfl, rfl⟩
  | some rows =>
    have hproper : ∀ g ∈ rows, g.Proper := fun g hg => (hr.foreignRead rows hrows g hg).1
    have htexts := rowLines_texts .covered false hproper
    have hevery : everyOf row .covered (foreignLines rows) = none := by
      refine htexts.every_none ?_
      rintro ⟨-, g, hg, -, hempty, -⟩
      exact (hproper g hg).l.nonempty hempty
    have hwide : wideOf row .covered (foreignLines rows) = none := htexts.wide row .covered
    have hsay := rowLines_say .covered false hproper row
    change textsSay row .covered (foreignLines rows) = _ at hsay
    rw [textsSay, hevery, hwide, Option.or_none, Option.or_none] at hsay
    exact ⟨hevery, hwide, hsay⟩

theorem set_answer {code : List Char} {s : SetReading} (h : SetRead code s) (row : Printing) :
    everyOf row .covered (coveredLines code s ++ uncoveredLines code s) = none ∧
      wideOf row .covered (coveredLines code s ++ uncoveredLines code s) = none ∧
      ownOf row .covered (coveredLines code s ++ uncoveredLines code s) =
        if row.set = lowerCase code ∧ row.lang = "en".toList then
          if row.number ∈ (english s.uncovered).map (·.n) then some false
          else if row.number ∈ (english s.covered).map (·.n) then some true else none
        else none := by
  have hin := coveredLines_texts h
  have hout := uncoveredLines_texts h
  have hen : "en".toList ≠ [] := by decide
  simp only [everyOf, wideOf, ownOf, last_append]
  refine ⟨?_, ?_, ?_⟩
  · have h1 : everyOf row .covered (coveredLines code s) = none :=
            hin.every_none (by rintro ⟨-, -, hnil, -⟩; exact hen hnil.symm)
    have h2 : everyOf row .covered (uncoveredLines code s) = none :=
            hout.every_none (by rintro ⟨-, -, hnil, -⟩; exact hen hnil.symm)
    rw [everyOf] at h1 h2
    rw [h1, h2, Option.none_or]
  · have h1 := hin.wide row .covered
    have h2 := hout.wide row .covered
    rw [wideOf] at h1 h2
    rw [h1, h2, Option.none_or]
  · by_cases hkey : row.set = lowerCase code ∧ row.lang = "en".toList
    · have hlang : row.lang ≠ [] := by rw [hkey.2]; exact hen
      rw [if_pos hkey]
      by_cases hun : row.number ∈ (english s.uncovered).map (·.n)
      · have h2 := hout.own_some hlang ⟨hkey.1, hkey.2, hun⟩
        rw [ownOf] at h2
        rw [if_pos hun, h2, Option.some_or]
      · have h2 : ownOf row .covered (uncoveredLines code s) = none :=
            hout.own_none (by rintro ⟨-, -, -, -, hmem⟩; exact hun hmem)
        rw [ownOf] at h2
        rw [if_neg hun, h2, Option.none_or]
        by_cases hcov : row.number ∈ (english s.covered).map (·.n)
        · have h1 := hin.own_some hlang ⟨hkey.1, hkey.2, hcov⟩
          rw [ownOf] at h1
          rw [if_pos hcov, h1]
        · have h1 : ownOf row .covered (coveredLines code s) = none :=
            hin.own_none (by rintro ⟨-, -, -, -, hmem⟩; exact hcov hmem)
          rw [ownOf] at h1
          rw [if_neg hcov, h1]
    · have h1 : ownOf row .covered (coveredLines code s) = none :=
            hin.own_none (by rintro ⟨-, -, hs, hl, -⟩; exact hkey ⟨hs, hl⟩)
      have h2 : ownOf row .covered (uncoveredLines code s) = none :=
            hout.own_none (by rintro ⟨-, -, hs, hl, -⟩; exact hkey ⟨hs, hl⟩)
      rw [ownOf] at h1 h2
      rw [if_neg hkey, h1, h2, Option.none_or]

theorem setPart_eq (hr : Records base r state) {e : List Char × List (List Char)} (he : e ∈ readSets state) :
    ∃ s ∈ r.sets e.1, SetRead e.1 s ∧ e.2.filter isCoveredLine = coveredLines e.1 s ++ uncoveredLines e.1 s ∧
      (e.2.filter fun line => !isCoveredLine line) =
        relatedLines e.1 s ++ (unrelatedLines e.1 s ++ oracleLines ListTag.related.name (shownCards s)) := by
  obtain ⟨s, hs, htexts⟩ := (mem_readSets hr).mp (show (e.1, e.2) ∈ readSets state from he)
  have hread := hr.setRead e.1 s hs
  rw [htexts]
  exact ⟨s, hs, hread, (filter_setLines hread).1, (filter_setLines hread).2⟩

theorem mem_half {code : List Char} (h : ∀ g ∈ rows, g.s = code) (row : Printing)
    (hset : row.set = code) (hlang : row.lang = "en".toList) :
    row.number ∈ (english rows).map (·.n) ↔ rows.any (Got.isOf row) = true := by
  rw [List.any_eq_true, List.mem_map]
  constructor
  · rintro ⟨g, hg, hn⟩
    obtain ⟨hmem, hl⟩ := mem_english.mp hg
    exact ⟨g, hmem, Got.isOf_iff.mpr ⟨(h g hmem).trans hset.symm, hl.trans hlang.symm, hn⟩⟩
  · rintro ⟨g, hg, hof⟩
    obtain ⟨-, hl, hn⟩ := Got.isOf_iff.mp hof
    exact ⟨g, mem_english.mpr ⟨hg, hl.trans hlang⟩, hn⟩

theorem setPart_answer (hr : Records base r state) (hlower : r.LowerCase) (row : Printing) :
    everyOf row .covered (setPart state) = none ∧ wideOf row .covered (setPart state) = none ∧
      ownOf row .covered (setPart state) = if row.lang = "en".toList then
          match r.sets row.set with
          | some s => if s.covered.any (Got.isOf row) then some true
            else if s.uncovered.any (Got.isOf row) then some false else none
          | none => none
        else none := by
  have hpart : ∀ e ∈ readSets state, ∃ s ∈ r.sets e.1, SetRead e.1 s ∧
      e.2.filter isCoveredLine = coveredLines e.1 s ++ uncoveredLines e.1 s := by
    intro e he
    obtain ⟨s, hs, hread, heq, -⟩ := setPart_eq hr he
    exact ⟨s, hs, hread, heq⟩
  refine ⟨?_, ?_, ?_⟩
  · rw [everyOf, setPart, last_flatMap]
    refine last_eq_none fun e he => ?_
    obtain ⟨s, -, hread, heq⟩ := hpart e he
    rw [heq]
    exact (set_answer hread row).1
  · rw [wideOf, setPart, last_flatMap]
    refine last_eq_none fun e he => ?_
    obtain ⟨s, -, hread, heq⟩ := hpart e he
    rw [heq]
    exact (set_answer hread row).2.1
  · rw [ownOf, setPart, last_flatMap]
    by_cases hen : row.lang = "en".toList
    · rw [if_pos hen]
      have hother : ∀ e ∈ readSets state, e.1 ≠ row.set →
          last (fun text => (lineOf text).bind (own row .covered)) (e.2.filter isCoveredLine) = none := by
        intro e he hne
        obtain ⟨s, hs, hread, heq⟩ := hpart e he
        have htold := (set_answer hread row).2.2
        rw [(hlower e.1 s hs).1, if_neg (fun h => hne h.1.symm), ownOf, ← heq] at htold
        exact htold
      cases hs : r.sets row.set with
      | none =>
        refine last_eq_none fun e he => hother e he ?_
        intro heq
        obtain ⟨s, hs', -⟩ := hpart e he
        rw [heq, hs] at hs'
        cases hs'
      | some s =>
        have hmem : (row.set, setLines row.set s.covered s.uncovered s.related) ∈ readSets state :=
          (mem_readSets hr).mpr ⟨s, hs, rfl⟩
        have hread := hr.setRead row.set s hs
        obtain ⟨hcode, hrows⟩ := hlower row.set s hs
        have hhere : ∀ g ∈ s.rows, g.s = row.set := by
          intro g hg
          rw [← hrows g hg, hread.here g hg, hcode]
        have hcovered : ∀ g ∈ s.covered, g.s = row.set := fun g hg => hhere g (by simp [SetReading.rows, hg])
        have huncovered : ∀ g ∈ s.uncovered, g.s = row.set := fun g hg => hhere g (by simp [SetReading.rows, hg])
        have hcov := mem_half hcovered row rfl hen
        have hunc := mem_half huncovered row rfl hen
        rw [last_single hmem]
        · have htold := (set_answer hread row).2.2
          rw [hcode, if_pos ⟨rfl, hen⟩, ownOf, ← (filter_setLines hread).1] at htold
          refine htold.trans ?_
          dsimp only
          by_cases hc : s.covered.any (Got.isOf row) = true
          · -- A row of one half is not of the other.
            have hnot : row.number ∉ (english s.uncovered).map (·.n) := by
              intro hmem'
              obtain ⟨g, hg, hof⟩ := List.any_eq_true.mp hc
              obtain ⟨g', hg', hof'⟩ := List.any_eq_true.mp (hunc.mp hmem')
              obtain ⟨h1, h2, h3⟩ := Got.isOf_iff.mp hof
              obtain ⟨h1', h2', h3'⟩ := Got.isOf_iff.mp hof'
              exact hread.apart g hg g' hg' (by rw [keyOf, keyOf, h1, h2, h3, h1', h2', h3'])
            rw [if_neg hnot, if_pos (hcov.mpr hc), if_pos hc]
          · rw [if_neg hc]
            by_cases hu : s.uncovered.any (Got.isOf row) = true
            · rw [if_pos (hunc.mpr hu), if_pos hu]
            · rw [if_neg (fun h => hu (hunc.mp h)), if_neg (fun h => hc (hcov.mp h)), if_neg hu]
        · intro e he hne
          refine hother e he fun heq => hne ?_
          obtain ⟨s', hs', htexts⟩ := (mem_readSets hr).mp (show (e.1, e.2) ∈ readSets state from he)
          rw [heq, hs] at hs'
          obtain rfl := Option.some.inj hs'
          rw [heq] at htexts
          exact Prod.ext heq htexts
    · rw [if_neg hen]
      refine last_eq_none fun e he => ?_
      obtain ⟨s, -, hread, heq⟩ := hpart e he
      have htold := (set_answer hread row).2.2
      rw [if_neg (fun h => hen h.2), ownOf, ← heq] at htold
      exact htold

/-- What stays of the compiled lines: of a set read no English line, and no foreign line where those were read. -/
theorem staying_answer (hc : Compiled tsv table base lines) (hr : Records base r state) (href : base.refinable = true)
    (row : Printing) :
    ownOf row .covered (staying lines state) =
      if row.lang = "en".toList then (if (r.sets row.set).isSome then none else ownOf row .covered (lines .covered))
      else if r.foreign.isSome then none else ownOf row .covered (lines .covered) := by
  have hforeign : state.foreign.isNone = !r.foreign.isSome := by
    have h := congrArg Option.isSome hr.foreign
    rw [Option.isSome_map, Option.isSome_map] at h
    cases hs : state.foreign <;> cases hf : r.foreign <;> simp_all
  have hsets : row.set ∈ (readSets state).map Prod.fst ↔ (r.sets row.set).isSome = true := by
    rw [List.mem_map]
    constructor
    · rintro ⟨e, he, heq⟩
      obtain ⟨s, hs, -⟩ := setPart_eq hr he
      rw [← heq, Option.mem_def.mp hs]
      rfl
    · intro hsome
      obtain ⟨s, hs⟩ := Option.isSome_iff_exists.mp hsome
      exact ⟨_, (mem_readSets hr).mpr ⟨s, hs, rfl⟩, rfl⟩
  have hline : ∀ text ∈ lines .covered, ∀ b, (lineOf text).bind (own row .covered) = some b →
      fieldAt text 2 = row.set ∧ fieldAt text 3 = row.lang := by
    intro text htext b hb
    obtain ⟨-, numbers, isIn, hread⟩ := refinable_line hc href htext
    rw [hread, Option.bind_some, own] at hb
    split at hb
    · rename_i hkey
      exact ⟨hkey.2.2.2.1, hkey.2.2.1⟩
    · cases hb
  -- A line that stays, or that says nothing of the row, may be put back.
  have hback : (∀ text ∈ lines .covered, fieldAt text 2 = row.set → fieldAt text 3 = row.lang →
      text ∈ staying lines state) → ownOf row .covered (staying lines state) = ownOf row .covered (lines .covered) := by
    intro hstay
    refine last_filter fun text htext hdrop => ?_
    cases hsaid : (lineOf text).bind (own row .covered) with
    | none => rfl
    | some b =>
      obtain ⟨hset, hlang⟩ := hline text htext b hsaid
      have hin := (List.mem_filter.mp (hstay text htext hset hlang)).2
      rw [hdrop] at hin
      cases hin
  have hgone : (∀ text ∈ staying lines state, ¬ (fieldAt text 2 = row.set ∧ fieldAt text 3 = row.lang)) →
      ownOf row .covered (staying lines state) = none := by
    intro hall
    refine last_eq_none fun text htext => ?_
    cases hsaid : (lineOf text).bind (own row .covered) with
    | none => rfl
    | some b => exact absurd (hline text (List.mem_filter.mp htext).1 b hsaid) (hall text htext)
  by_cases hen : row.lang = "en".toList
  · rw [if_pos hen]
    by_cases hset : (r.sets row.set).isSome = true
    · rw [if_pos hset]
      refine hgone fun text htext hkey => ?_
      have hkept := (List.mem_filter.mp htext).2
      rw [if_neg (by simp [hkey.2, hen]), decide_eq_true_eq, hkey.1] at hkept
      exact hkept (hsets.mpr hset)
    · rw [if_neg hset]
      refine hback fun text htext hkey hlang => List.mem_filter.mpr ⟨htext, ?_⟩
      rw [if_neg (by simp [hlang, hen]), decide_eq_true_eq, hkey]
      exact fun hin => hset (hsets.mp hin)
  · rw [if_neg hen]
    by_cases hread : r.foreign.isSome = true
    · rw [if_pos hread]
      refine hgone fun text htext hkey => ?_
      have hkept := (List.mem_filter.mp htext).2
      rw [if_pos (by rw [hkey.2]; exact hen), hforeign, hread] at hkept
      cases hkept
    · rw [if_neg hread]
      refine hback fun text htext hkey hlang => List.mem_filter.mpr ⟨htext, ?_⟩
      rw [if_pos (by rw [hlang]; exact hen), hforeign, Bool.eq_false_of_not_eq_true hread]
      rfl

/-- **A row's cover: as the set's reading has it in English, as the foreign reading has it elsewhere, and where
neither was read as the compiled table has it.** -/
theorem covered_answer (hc : Compiled tsv table base lines) (hr : Records base r state) (hlower : r.LowerCase)
    (href : state.foreign.isSome = true ∨ readSets state ≠ [] → base.refinable = true) (row : Printing) :
    textsSay row .covered (refreshed lines state .covered) = if row.lang = "en".toList then
        match r.sets row.set with
        | some s => if s.covered.any (Got.isOf row) then some true
          else if s.uncovered.any (Got.isOf row) then some false else none
        | none => textsSay row .covered (lines .covered)
      else match r.foreign with
        | some rows => if rows.any (Got.isOf row) then some false else none
        | none => textsSay row .covered (lines .covered) := by
  by_cases hread : state.foreign.isSome = true ∨ readSets state ≠ []
  · have hrefinable := href hread
    obtain ⟨hse, hsw⟩ := staying_narrow state hc hrefinable row
    obtain ⟨hfe, hfw, hfo⟩ := foreign_answer hr row
    obtain ⟨hpe, hpw, hpo⟩ := setPart_answer hr hlower row
    have hso := staying_answer hc hr hrefinable row
    -- Where sets or foreign rows can be read, every compiled covered line is a line of one language.
    have hcompiled : textsSay row .covered (lines .covered) = ownOf row .covered (lines .covered) := by
      have hnone : everyOf row .covered (lines .covered) = none ∧ wideOf row .covered (lines .covered) = none := by
        constructor <;>
        · refine last_eq_none fun text htext => ?_
          obtain ⟨hlang, numbers, isIn, hline⟩ := refinable_line hc hrefinable htext
          rw [hline, Option.bind_some]
          simp [every, Line.wide, hlang]
      rw [textsSay, hnone.1, hnone.2, Option.or_none, Option.or_none]
    have hparts : textsSay row .covered (refreshed lines state .covered) =
        (ownOf row .covered (setPart state)).or ((ownOf row .covered (foreignPart state)).or
          (ownOf row .covered (staying lines state))) := by
      rw [refreshed_covered]
      simp only [textsSay, ownOf, everyOf, wideOf, last_append] at hse hsw hfe hfw hpe hpw ⊢
      rw [hse, hsw, hfe, hfw, hpe, hpw]
      simp only [Option.or_none]
    rw [hparts, hpo, hfo, hso, hcompiled]
    by_cases hen : row.lang = "en".toList
    · have hnoForeign : ((r.foreign.getD []).any (Got.isOf row)) = false := by
        rw [Bool.eq_false_iff]
        intro hany
        obtain ⟨g, hg, hof⟩ := List.any_eq_true.mp hany
        cases hrows : r.foreign with
        | none =>
          rw [hrows] at hg
          cases hg
        | some rows =>
          rw [hrows] at hg
          exact (hr.foreignRead rows hrows g hg).2 ((Got.isOf_iff.mp hof).2.1.trans hen)
      simp only [if_pos hen, hnoForeign, Bool.false_eq_true, if_false, Option.none_or]
      cases r.sets row.set with
      | none => rfl
      | some s => simp
    · simp only [if_neg hen, Option.none_or]
      cases r.foreign with
      | none => simp
      | some rows => simp
  · rw [not_or, Bool.not_eq_true, Option.isSome_eq_false_iff, Option.isNone_iff_eq_none, not_not] at hread
    rw [covered_as_compiled hread.1 hread.2]
    have hnoForeign : r.foreign = none := by
      have h := hr.foreign
      rw [hread.1] at h
      simpa using h.symm
    have hnoSet : r.sets row.set = none := by
      cases hs : r.sets row.set with
      | none => rfl
      | some s =>
        have hmem := (mem_readSets hr).mpr ⟨s, hs, rfl⟩
        rw [hread.2] at hmem
        cases hmem
    rw [hnoForeign, hnoSet]
    simp

/-! ## Related -/

theorem NumberTexts.silent {isIn : Bool} {mentions : List Char → List Char → List Char → Prop}
    {texts : List (List Char)} (h : NumberTexts tag isIn mentions texts) {row : Printing}
    (hrow : ∀ lang, ¬ mentions row.set lang row.number) (t : ListTag) (htext : text ∈ texts) :
    (lineOf text).bind (own row t) = none ∧ (lineOf text).bind (every row t) = none ∧
      (lineOf text).bind (Line.wide row t) = none := by
  obtain ⟨set, lang, list, hread, hall⟩ := h.reads text htext
  rw [hread]
  refine ⟨?_, ?_, rfl⟩
  · rw [Option.bind_some, own, if_neg]
    rintro ⟨-, -, -, rfl, hmem⟩
    exact hrow lang (hall _ hmem)
  · rw [Option.bind_some, every, if_neg]
    rintro ⟨-, -, rfl, hmem⟩
    exact hrow lang (hall _ hmem)

theorem wide_true {row : Printing} {b : Bool}
    (h : (lineOf text).bind (Line.wide row tag) = some b) : b = true := by
  obtain ⟨line, -, hline⟩ := Option.bind_eq_some_iff.mp h
  cases line with
  | set t code =>
    rw [Line.wide] at hline
    split at hline
    · exact (Option.some.inj hline).symm
    · cases hline
  | oracle t id =>
    rw [Line.wide] at hline
    split at hline
    · exact (Option.some.inj hline).symm
    · cases hline
  | numbers t code lang list isIn => cases hline
  | art code lang list => cases hline

def relatedPart (state : IsListsState) : List (List Char) :=
  (readSets state).flatMap fun e => e.2.filter fun line => !isCoveredLine line

/-- The related lines of the sets read say of another set's row only that its card was shown to be related. -/
theorem relatedPart_answer (hr : Records base r state) (hlower : r.LowerCase) {row : Printing}
    (hset : r.sets row.set = none) :
    (∀ text ∈ relatedPart state, (lineOf text).bind (own row .related) = none ∧
        (lineOf text).bind (every row .related) = none) ∧
      (r.Shows row ↔ ∃ text ∈ relatedPart state, (lineOf text).bind (Line.wide row .related) = some true) := by
  have hpart : ∀ text ∈ relatedPart state, ∃ e, ∃ s ∈ r.sets e, SetRead e s ∧ lowerCase e ≠ row.set ∧
      text ∈ relatedLines e s ++ (unrelatedLines e s ++ oracleLines ListTag.related.name (shownCards s)) := by
    intro text htext
    obtain ⟨e, he, hin⟩ := List.mem_flatMap.mp htext
    obtain ⟨s, hs, hread, -, heq⟩ := setPart_eq hr he
    rw [heq] at hin
    refine ⟨e.1, s, hs, hread, fun hsame => ?_, hin⟩
    rw [(hlower e.1 s hs).1] at hsame
    rw [hsame, hset] at hs
    cases hs
  have hcard : ∀ {s : SetReading} {id : List Char}, (∃ g ∈ shownCards s, id ∈ g.o) → id ∈ row.oracles →
      ∃ g ∈ shownCards s, g.isCardOf row = true := by
    rintro s id ⟨g, hg, hid⟩ hrow
    exact ⟨g, hg, List.any_eq_true.mpr ⟨id, hid, decide_eq_true hrow⟩⟩
  constructor
  · intro text htext
    obtain ⟨e, s, hs, hread, hne, hin⟩ := hpart text htext
    rcases List.mem_append.mp hin with hin | hin
    · have hsilent := (relatedLines_texts hread).silent (fun lang hm => hne hm.1.symm) .related hin
      exact ⟨hsilent.1, hsilent.2.1⟩
    · rcases List.mem_append.mp hin with hin | hin
      · have hsilent := (unrelatedLines_texts hread).silent (fun lang hm => hne hm.1.symm) .related hin
        exact ⟨hsilent.1, hsilent.2.1⟩
      · obtain ⟨id, hline, -⟩ := (shownCards_texts hread).reads text hin
        rw [hline]
        exact ⟨rfl, rfl⟩
  · constructor
    · rintro ⟨e, s, hs, g, hg, hof⟩
      obtain ⟨id, hid, hrow⟩ := List.any_eq_true.mp hof
      have hread := hr.setRead e s hs
      obtain ⟨text, htext, hline⟩ := (shownCards_texts hread).found id ⟨g, hg, hid⟩
      refine ⟨text, ?_, ?_⟩
      · refine List.mem_flatMap.mpr ⟨_, (mem_readSets hr).mpr ⟨s, hs, rfl⟩, ?_⟩
        rw [(filter_setLines hread).2]
        exact List.mem_append_right _ (List.mem_append_right _ htext)
      · rw [hline, Option.bind_some, Line.wide, if_pos ⟨rfl, of_decide_eq_true hrow⟩]
    · rintro ⟨text, htext, hwide⟩
      obtain ⟨e, s, hs, hread, hne, hin⟩ := hpart text htext
      refine ⟨e, s, hs, ?_⟩
      rcases List.mem_append.mp hin with hin | hin
      · rw [((relatedLines_texts hread).silent (fun lang hm => hne hm.1.symm) .related hin).2.2] at hwide
        cases hwide
      · rcases List.mem_append.mp hin with hin | hin
        · rw [((unrelatedLines_texts hread).silent (fun lang hm => hne hm.1.symm) .related hin).2.2] at hwide
          cases hwide
        · obtain ⟨id, hline, hid⟩ := (shownCards_texts hread).reads text hin
          rw [hline, Option.bind_some, Line.wide] at hwide
          split at hwide
          · rename_i hkey
            exact hcard hid hkey.2
          · cases hwide

theorem related_wide_none (hc : Compiled tsv table base lines) (href : base.refinable = true) {row : Printing}
    (hrow : row.oracles = []) : wideOf row .related (lines .related) = none := by
  obtain ⟨-, -, -, hrefinable, -⟩ := readCompiled_ok hc.read
  rw [href, eq_comm, Bool.and_eq_true] at hrefinable
  refine last_eq_none fun text htext => ?_
  have hkind := List.all_eq_true.mp hrefinable.2 text htext
  obtain ⟨hreads, hvalue⟩ := hc.valueOf_line htext
  obtain ⟨line, hline⟩ := Option.isSome_iff_exists.mp hreads
  rw [valueOf, hline, Option.bind_some] at hvalue
  obtain ⟨rest, -, hread⟩ := line_fields hline hvalue
  rw [hline, Option.bind_some]
  cases line with
  | set t code =>
    -- A line of a whole set is of none of the three kinds.
    simp only [relatedRefinable, Bool.or_eq_true, decide_eq_true_eq] at hkind
    have hset := kind_of_set hread
    rcases hkind with (hkind | hkind) | hkind <;> rw [hkind, kindOf_name] at hset <;> cases hset
  | oracle t id => rw [Line.wide, if_neg (by simp [hrow])]
  | numbers t code lang list isIn => rfl
  | art code lang list => rfl

/-- **A row of a set not read is related as the compiled table has it, or because its card was shown to be.** -/
theorem related_answer (hc : Compiled tsv table base lines) (hr : Records base r state) (hlower : r.LowerCase)
    (href : readSets state ≠ [] → base.refinable = true) {row : Printing} (hset : r.sets row.set = none) :
    (¬ r.Shows row → textsSay row .related (refreshed lines state .related) = textsSay row .related (lines .related)) ∧
      (r.Shows row → textsSay row .related (refreshed lines state .related) =
        (textsSay { row with oracles := [] } .related (lines .related)).or (some true)) := by
  obtain ⟨hsilent, hshows⟩ := relatedPart_answer hr hlower hset
  obtain ⟨more, hmore, hsub, hall⟩ := JsSet.of_append (relatedPart state) hc.distinct
  have hrefreshed : refreshed lines state .related = lines .related ++ more := hmore
  have hown : ownOf row .related more = none := last_eq_none fun text htext => (hsilent text (hsub text htext)).1
  have hevery : everyOf row .related more = none :=
    last_eq_none fun text htext => (hsilent text (hsub text htext)).2
  rw [hrefreshed]
  constructor
  · intro hnot
    have hwide : wideOf row .related more = none := by
      refine last_eq_none fun text htext => ?_
      cases hsaid : (lineOf text).bind (Line.wide row .related) with
      | none => rfl
      | some b =>
        obtain rfl := wide_true hsaid
        exact absurd (hshows.mpr ⟨text, hsub text htext, hsaid⟩) hnot
    simp only [textsSay, ownOf, everyOf, wideOf, last_append] at hown hevery hwide ⊢
    rw [hown, hevery, hwide, Option.none_or, Option.none_or, Option.none_or]
  · intro hshown
    obtain ⟨text, htext, hsaid⟩ := hshows.mp hshown
    have hwide : wideOf row .related (lines .related ++ more) = some true := by
      refine (last_uniform fun t _ b hb => wide_true hb).mpr ⟨text, ?_, hsaid⟩
      rcases hall text htext with hin | hin
      · exact List.mem_append_left _ hin
      · exact List.mem_append_right _ hin
    have hread : readSets state ≠ [] := by
      obtain ⟨e, he, -⟩ := List.mem_flatMap.mp htext
      exact List.ne_nil_of_mem he
    have hbare : wideOf { row with oracles := [] } .related (lines .related) = none :=
      related_wide_none hc (href hread) rfl
    have hsameOwn : ownOf { row with oracles := [] } .related (lines .related) = ownOf row .related (lines .related) :=
      last_congr fun t _ => by cases lineOf t with
        | none => rfl
        | some line => cases line <;> rfl
    have hsameEvery : everyOf { row with oracles := [] } .related (lines .related) = everyOf row .related (lines .related) :=
      last_congr fun t _ => by cases lineOf t with
        | none => rfl
        | some line => cases line <;> rfl
    rw [textsSay, textsSay, hwide, hbare, hsameOwn, hsameEvery]
    simp only [ownOf, everyOf, last_append] at hown hevery ⊢
    rw [hown, hevery, Option.none_or, Option.none_or, Option.or_none, Option.or_assoc]

/-! ## The whole table -/

/-- What an override answers, `table` being the compiled one. -/
structure Refreshes (table renewed : Table) (base : CompiledBase) (r : Readings) : Prop where
  /-- An English row of a set read is covered, not covered or neither, as it was read. -/
  set_read : ∀ row : Printing, row.lang = "en".toList → ∀ s ∈ r.sets row.set, verdictsIn renewed row .covered =
    if s.covered.any (Got.isOf row) then some true
    else if s.uncovered.any (Got.isOf row) then some false else none
  /-- A list of rows read holds exactly the rows read. -/
  row_list : ∀ list ∈ ROW_LISTS, ∀ rows ∈ r.lists list, ∀ row : Printing, verdictsIn renewed row list.tag =
    if rows.any (Got.isOf row) then some true else none
  /-- A list of cards read holds the printings of the cards read, less the compiled table's own exceptions. -/
  card_list : ∀ list ∈ CARD_LISTS, ∀ rows ∈ r.lists list, ∀ row : Printing, verdictsIn renewed row list.tag =
    if textsSay row list.tag (base.keep list) = some false then some false
    else if rows.any (Got.isCardOf row) then some true else none
  /-- Of the rows in another language the ones read are not covered, and the rule decides the rest. -/
  foreign_read : ∀ rows ∈ r.foreign, ∀ row : Printing, row.lang ≠ "en".toList → verdictsIn renewed row .covered =
    if rows.any (Got.isOf row) then some false else none
  list_unread : ∀ list, r.lists list = none → ∀ row, verdictsIn renewed row list.tag = verdictsIn table row list.tag
  set_unread : ∀ row : Printing, row.lang = "en".toList → r.sets row.set = none →
    verdictsIn renewed row .covered = verdictsIn table row .covered
  foreign_unread : r.foreign = none → ∀ row : Printing, row.lang ≠ "en".toList →
    verdictsIn renewed row .covered = verdictsIn table row .covered
  /-- A row of a set not read is related as before, unless a set read showed its card to be. -/
  related_unread : ∀ row : Printing, r.sets row.set = none → ¬ r.Shows row →
    verdictsIn renewed row .related = verdictsIn table row .related
  /-- Then it is related, but where the compiled table names the printing itself. -/
  related_shown : ∀ row : Printing, r.sets row.set = none → r.Shows row →
    verdictsIn renewed row .related = (verdictsIn table { row with oracles := [] } .related).or (some true)

variable (noteText : IsListsState → List Char → Bool → OneLine)

theorem tableLines_composed (hc : Compiled tsv table base lines) (hr : Records base r state) {artReps : Bool}
    (h : Composed noteText base lines state artReps text) :
    tableLines text = (overrideBody lines state artReps).length := by
  have hheader := plain_header noteText hc hr h.day
  have hbody : ∀ line ∈ overrideBody lines state artReps, (lineOf line).isSome = true ∧ Plain line :=
    fun line hline => overrideBody_line hc hr hline
  have hplain : ∀ line ∈ overrideHeader noteText base state artReps ++ overrideBody lines state artReps, '\n' ∉ line := by
    intro line hline
    rcases List.mem_append.mp hline with hline | hline
    · exact (hheader line hline).1.1
    · exact (hbody line hline).2.1
  rw [tableLines, h.shape, List.splitOn_append_cons_self,
    List.splitOn_intercalate '\n' hplain (by simp [overrideHeader]), List.filter_append, List.filter_append,
    List.filter_eq_nil_iff.mpr fun line hline => by simp [(hheader line hline).2.2], List.nil_append,
    List.filter_eq_self.mpr fun line hline => by
      have hnot := not_comment_of_lineOf (hbody line hline).1
      simp [hnot.1, hnot.2]]
  simp

/-- **The override is taken by the builder as soon as it names a line, and refreshes exactly the units read.** -/
theorem override_refreshes (hc : Compiled tsv table base lines) (hr : Records base r state) (hlower : r.LowerCase)
    {artReps : Bool} {text : List Char} (h : composeOverride noteText tsv state artReps = .ok (some text)) :
    (tableLines text = 0 ∧ checkedOverride tsv table text = .error "the override holds no line") ∨
      ∃ renewed, checkedOverride tsv table text = .ok renewed ∧ Refreshes table renewed base r := by
  have hcomposed := composed_of_ok noteText hc hr h
  obtain ⟨renewed, hparse, hbase, htiers, hfrom, hlines, harts, hverdict⟩ := hcomposed.parsed noteText hc hr
  have hnamed : renewed.base = some (compiledFingerprint tsv) := by rw [hbase, hc.fingerprint]
  have hsame : renewed.tiersFingerprint = table.tiersFingerprint := by rw [htiers, hc.tiers]
  rw [tableLines_composed noteText hc hr hcomposed, checkedOverride, Throws.bind_ok hparse, if_neg (not_not.mpr hnamed), if_neg (not_not.mpr hsame), hlines]
  by_cases hempty : (overrideBody lines state artReps).length = 0
  · rw [if_pos hempty]
    exact .inl ⟨hempty, rfl⟩
  · rw [if_neg hempty]
    refine .inr ⟨renewed, ?_, ?_⟩
    · cases hart : (if artReps then state.art else none) with
      | none =>
        rw [hart] at hfrom
        have hnoArt : renewed.artRows = [] := by
          have hbody : overrideBody lines state artReps = LIST_TAGS.flatMap (refreshed lines state) := by
            rw [overrideBody, hart]
            exact List.append_nil _
          rw [harts, hbody, List.flatMap_eq_nil_iff]
          intro line hline
          obtain ⟨t, ht, hread⟩ := List.mem_filterMap.mp hline
          obtain ⟨tag, -, ht⟩ := List.mem_flatMap.mp ht
          have hvalue := (refreshed_line hc hr tag ht).value
          rw [valueOf, hread, Option.bind_some] at hvalue
          cases line with
          | art code lang list => cases hvalue
          | set t code => rfl
          | oracle t id => rfl
          | numbers t code lang list isIn => rfl
        rw [hfrom]
        simp [hnoArt]
      | some art =>
        rw [hart] at hfrom
        rw [hfrom]
        exact if_pos (hcomposed.day art hart)
    · have hcov := covered_answer hc hr hlower hcomposed.refinable
      constructor
      · intro row hen s hs
        rw [hverdict, hcov, if_pos hen, Option.mem_def.mp hs]
      · intro list hlist rows hrows row
        have hnotCards : list ∉ CARD_LISTS := by
          revert hlist
          cases list <;> decide
        rw [hverdict, small_read hr hrows, listLines, if_neg hnotCards]
        exact rowLines_say list.tag true (hr.listRead list rows hrows).proper row
      · intro list hlist rows hrows row
        rw [hverdict, small_read hr hrows]
        exact cards_say hc hlist ((hr.listRead list rows hrows).named hlist) row
      · intro rows hrows row hlang
        rw [hverdict, hcov, if_neg hlang, Option.mem_def.mp hrows]
      · intro list hlist row
        rw [hverdict, small_unread hr hlist, hc.verdict]
      · intro row hen hset
        rw [hverdict, hcov, if_pos hen, hset, hc.verdict]
      · intro hforeign row hlang
        rw [hverdict, hcov, if_neg hlang, hforeign, hc.verdict]
      · intro row hset hnot
        rw [hverdict, hc.verdict]
        exact (related_answer hc hr hlower (fun hread => hcomposed.refinable (.inr hread)) hset).1 hnot
      · intro row hset hshown
        rw [hverdict, hc.verdict]
        exact (related_answer hc hr hlower (fun hread => hcomposed.refinable (.inr hread)) hset).2 hshown

end

/-! ## A night over a small table -/

namespace Sample

def tsv : List Char :=
  ("# from api.scryfall.com, 2026-10-09.\n# print_tiers.tsv 30ff0dad\n" ++
    "covered\trow\told\ten\t1\nspikey\tnot\told\t3\n").toList

def id (c : Char) : List Char := List.replicate 36 c

def note : IsListsState → List Char → Bool → OneLine := fun _ _ _ => ⟨"{}".toList, by decide⟩

def row (set number : String) (c : Char) : Got :=
  { s := set.toList, n := number.toList, l := "en".toList, p := false, o := [id c], m := "A card".toList, d := none }

/-- A set of two rows, one of them covered; the other is related and carries no `all_parts`. -/
def reading : SetReading :=
  { covered := [row "new" "1" 'a'], uncovered := [row "new" "2" 'b'], related := [row "new" "2" 'b'] }

def readings : Readings :=
  { lists := fun list => if list = .spikey then some [row "new" "1" 'a'] else none
    foreign := none
    sets := fun code => if code = "new".toList then some reading else none
    art := none }

def noBase : CompiledBase :=
  { fingerprint := [], date := [], tiers := [], totals := fun _ => none, foreignRows := 0, refinable := false,
    keep := fun _ => [] }

def base : CompiledBase × (ListTag → List (List Char)) :=
  (readCompiled tsv).toOption.getD (noBase, fun _ => [])

def table : Table := (tryParse tsv).toOption.getD {}

def state : IsListsState :=
  { freshState base.1 with
    lists := JsMap.empty.set .spikey
      { total := 1, fetched := "2026-10-10".toList, lines := listLines base.1.keep .spikey [row "new" "1" 'a'] }
    sets := JsMap.empty.set "new".toList
      { count := some 2, lines := some (setLines "new".toList reading.covered reading.uncovered reading.related) } }

def installed (tsv : List Char) (table : Table) (state : IsListsState) : Except String Table := do
  match ← composeOverride note tsv state true with
  | some text => checkedOverride tsv table text
  | none => .ok table

theorem compiled : Compiled tsv table base.1 base.2 where
  parsed := Throws.ok_getD {} (by decide +kernel)
  read := Throws.ok_getD (noBase, fun _ => []) (by decide +kernel)
  feeds := by decide +kernel
  tiers := by decide +kernel
  word := by decide +kernel
  distinct := by decide +kernel

theorem first_row : (row "new" "1" 'a').Proper ∧ (row "new" "1" 'a').Named :=
  ⟨⟨⟨by decide, by decide⟩, ⟨by decide, by decide⟩, field_en⟩, ⟨by decide, ⟨by decide, by decide, by decide, by decide⟩⟩⟩

theorem second_row : (row "new" "2" 'b').Proper ∧ (row "new" "2" 'b').Named :=
  ⟨⟨⟨by decide, by decide⟩, ⟨by decide, by decide⟩, field_en⟩, ⟨by decide, ⟨by decide, by decide, by decide, by decide⟩⟩⟩

theorem records : Records base.1 readings state where
  checked := by simp [state, freshState]
  lists := by
    intro list
    change ((JsMap.empty.set SmallList.spikey _).get list).map _ = _
    rw [JsMap.get_set]
    dsimp only [readings]
    by_cases h : list = .spikey
    · subst h
      rfl
    · rw [if_neg (Ne.symm h), if_neg h]
      rfl
  foreign := rfl
  sets := by
    intro code
    change ((JsMap.empty.set "new".toList _).get code).bind _ = _
    rw [JsMap.get_set]
    dsimp only [readings]
    by_cases h : code = "new".toList
    · subst h
      rfl
    · rw [if_neg (Ne.symm h), if_neg h]
      rfl
  art := rfl
  listRead := by
    intro list rows hrows
    dsimp only [readings] at hrows
    split at hrows
    · obtain rfl := Option.some.inj hrows
      exact ⟨by simpa using first_row.1, fun _ => by simpa using first_row.2⟩
    · cases hrows
  foreignRead := by simp [readings]
  setRead := by
    intro code s hs
    dsimp only [readings] at hs
    split at hs
    · rename_i hcode
      obtain rfl := Option.some.inj hs
      subst hcode
      refine ⟨⟨by decide, by decide⟩, ?_, ?_, by decide, by decide⟩
      · simpa [reading, SetReading.rows] using ⟨first_row.1, second_row.1⟩
      · simpa [reading, SetReading.rows] using ⟨first_row.2, second_row.2⟩
    · cases hs
  artRead := by simp [readings]

theorem lowerCase_readings : readings.LowerCase := by
  intro code s hs
  dsimp only [readings] at hs
  split at hs
  · rename_i hcode
    obtain rfl := Option.some.inj hs
    subst hcode
    exact ⟨by decide, by decide⟩
  · cases hs

end Sample

/-- The small table's override: installed, and refreshed by what was read. -/
theorem override_refreshes_small : ∃ text renewed,
    composeOverride Sample.note Sample.tsv Sample.state true = .ok (some text) ∧
      checkedOverride Sample.tsv Sample.table text = .ok renewed ∧
      Refreshes Sample.table renewed Sample.base.1 Sample.readings := by
  have hcomposes : (composeOverride Sample.note Sample.tsv Sample.state true).toOption.any
      (fun composed => composed.any fun text => tableLines text ≠ 0) = true := by decide +kernel
  obtain ⟨text, htext, hlines⟩ : ∃ text, composeOverride Sample.note Sample.tsv Sample.state true = .ok (some text) ∧
      tableLines text ≠ 0 := by
    revert hcomposes
    cases composeOverride Sample.note Sample.tsv Sample.state true with
    | error _ => simp [Except.toOption]
    | ok composed =>
      cases composed with
      | none => simp [Except.toOption]
      | some text => simp [Except.toOption]
  rcases override_refreshes Sample.note Sample.compiled Sample.records Sample.lowerCase_readings htext with hnone | hover
  · exact absurd hnone.1 hlines
  · obtain ⟨renewed, hover, hrefreshes⟩ := hover
    exact ⟨text, renewed, htext, hover, hrefreshes⟩

namespace Sample

/-- A compiled table without a data line, and a state over it that has read the foreign rows and found none. -/
def bare : List Char := "# from api.scryfall.com, 2026-10-09.\n# print_tiers.tsv 30ff0dad\n".toList

def bareState : IsListsState :=
  { state with
    base := compiledFingerprint bare, lists := .empty, sets := .empty,
    foreign := some { total := 0, fetched := "2026-10-10".toList, lines := foreignLines [] } }

def twice : List Char :=
  bare ++ "related\tprint\told\t9\nrelated\tnot\told\t9\nrelated\tprint\told\t9\n".toList

/-- One set under two spellings of its code, the halves exchanged. -/
def spelledTwice : IsListsState :=
  { state with
    sets := (JsMap.empty.set "NEW".toList
      { count := some 2, lines := some (setLines "NEW".toList reading.covered reading.uncovered []) }).set "new".toList
      { count := some 2, lines := some (setLines "new".toList reading.uncovered reading.covered []) } }

end Sample

/-- Units not read change all the same, and not every override is taken. A card shown to be related in the set
read is related in the set not read, where the compiled table says nothing; a card list holds a printing that
was not read; an override that names no line is refused; a compiled line that stands twice is read once; and of
two spellings of a set's code the later wins. -/
theorem refresh_reaches_further :
    let shown : Printing := { set := "old".toList, lang := "en".toList, number := "9".toList, oracles := [Sample.id 'b'] }
    let listed : Printing := { shown with oracles := [Sample.id 'a'] }
    let first : Printing := { listed with set := "new".toList, number := "1".toList }
    (Sample.readings.sets shown.set = none ∧
      verdictsIn Sample.table shown .related = none ∧
      (Sample.installed Sample.tsv Sample.table Sample.state).toOption.map (fun renewed => verdictsIn renewed shown .related) =
        some (some true)) ∧
      (((Sample.readings.lists .spikey).getD []).any (Got.isOf listed) = false ∧
        (Sample.installed Sample.tsv Sample.table Sample.state).toOption.map (fun renewed => verdictsIn renewed listed .spikey) =
          some (some true)) ∧
      (Sample.installed Sample.bare {} Sample.bareState).toOption.isNone = true ∧
      ((tryParse Sample.twice).toOption.map fun table => verdictsIn table shown .related) = some (some true) ∧
      ((Sample.installed Sample.twice ((tryParse Sample.twice).toOption.getD {})
        { Sample.bareState with base := compiledFingerprint Sample.twice }).toOption.map
          fun renewed => verdictsIn renewed shown .related) = some (some false) ∧
      (Sample.reading.covered.any (Got.isOf first) = true ∧
        (Sample.installed Sample.tsv Sample.table Sample.spelledTwice).toOption.map
          (fun renewed => verdictsIn renewed first .covered) = some (some false)) := by
  decide +kernel

end IsLists
