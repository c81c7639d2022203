-- SUMMARY: What the builder reads in the lines written for rows: one verdict for the rows' keys, silence for every other row.
import Sylvan.Import.IsLists

/-!
# What written lines say

The lines of a unit read whole are read back as exactly its rows.
-/

namespace IsLists

/-! ## Fields that can be written -/

/-- A key a line can hold: what a checked page's row has for its set, number and language. -/
structure Field (f : List Char) : Prop where
  nonempty : f ≠ []
  solid : ∀ c ∈ f, isSpace c = false

theorem Field.notMem {f : List Char} (h : Field f) {c : Char} (hc : isSpace c = true) : c ∉ f := by
  intro hmem
  rw [h.solid c hmem] at hc
  cases hc

structure Got.Proper (g : Got) : Prop where
  s : Field g.s
  n : Field g.n
  l : Field g.l

/-- A text a line can end in: a card's name. -/
structure Title (m : List Char) : Prop where
  nonempty : m ≠ []
  noTab : '\t' ∉ m
  noFeed : '\n' ∉ m
  noReturn : '\r' ∉ m

/-- `/^[0-9a-f-]{36}$/` -/
def isId (id : List Char) : Bool :=
  id.length = 36 && id.all fun c => Text.isDigit c || ('a' ≤ c && c ≤ 'f') || c = '-'

structure Got.Named (g : Got) : Prop where
  ids : ∀ id ∈ g.o, isId id = true
  name : Title g.m

theorem isSpace_of_idChar {c : Char} (h : (Text.isDigit c || ('a' ≤ c && c ≤ 'f') || c = '-') = true) :
    isSpace c = false := by
  have hrange : 0x2d ≤ c.toNat ∧ c.toNat ≤ 0x66 ∧ c.toNat ≠ 0x85 := by
    simp only [Text.isDigit, Bool.or_eq_true, Bool.and_eq_true, decide_eq_true_eq, Char.le_def] at h
    have hnat : ∀ a b : Char, a.val ≤ b.val → a.toNat ≤ b.toNat := fun a b hab => hab
    rcases h with (⟨h1, h2⟩ | ⟨h1, h2⟩) | rfl
    · have := hnat _ _ h1; have := hnat _ _ h2; simp at *; omega
    · have := hnat _ _ h1; have := hnat _ _ h2; simp at *; omega
    · decide
  simp [isSpace]
  omega

theorem Field.of_isId {id : List Char} (h : isId id = true) : Field id := by
  simp only [isId, Bool.and_eq_true, decide_eq_true_eq, List.all_eq_true] at h
  refine ⟨?_, fun c hc => isSpace_of_idChar (h.2 c hc)⟩
  rintro rfl
  simp at h

theorem Field.title {f : List Char} (h : Field f) : Title f :=
  ⟨h.nonempty, h.notMem (by decide), h.notMem (by decide), h.notMem (by decide)⟩

theorem field_tag (tag : ListTag) : Field tag.name := by
  cases tag <;> exact ⟨by decide, by decide⟩

theorem field_kind (kind : Kind) : Field kind.name := by
  cases kind <;> exact ⟨by decide, by decide⟩

theorem field_ART_REP_LINE : Field ART_REP_LINE := ⟨by decide, by decide⟩

theorem intercalate_ne_nil {sep : Char} {pieces : List (List Char)} (hne : pieces ≠ [])
    (h : ∀ piece ∈ pieces, piece ≠ []) : [sep].intercalate pieces ≠ [] := by
  cases pieces with
  | nil => exact absurd rfl hne
  | cons piece pieces =>
    cases pieces with
    | nil => simpa using h piece (by simp)
    | cons next pieces =>
      rw [List.intercalate_cons_cons]
      simp

variable {numbers : List (List Char)}

theorem title_spaced (hne : numbers ≠ []) (h : ∀ n ∈ numbers, Field n) : Title (spaced numbers) := by
  have hnot : ∀ c, isSpace c = true → c ≠ ' ' → c ∉ spaced numbers := by
    intro c hspace hblank hmem
    rcases Text.mem_intercalate hmem with rfl | ⟨n, hn, hc⟩
    · exact hblank rfl
    · exact (h n hn).notMem hspace hc
  exact ⟨intercalate_ne_nil hne fun n hn => (h n hn).nonempty, hnot _ (by decide) (by decide),
    hnot _ (by decide) (by decide), hnot _ (by decide) (by decide)⟩

/-! ## Reading one line -/

theorem numbersIn_spaced {line : List Char} (hne : numbers ≠ [])
    (h : ∀ n ∈ numbers, Field n) : numbersIn line (spaced numbers) = .ok numbers := by
  have hsplit : (spaced numbers).splitOn ' ' = numbers :=
    splitOn_spaced hne fun n hn => (h n hn).notMem (by decide)
  have hany : numbers.any List.isEmpty = false := by
    rw [List.any_eq_false]
    intro n hn
    simpa using (h n hn).nonempty
  simp only [numbersIn, hsplit, hany]
  rfl

theorem readLine_tabbed (tag : ListTag) (kind : Kind) {rest : List (List Char)} (h : ∀ f ∈ rest, Title f) :
    readLine (tabbed (tag.name :: kind.name :: rest)) =
      readFields (tabbed (tag.name :: kind.name :: rest)) tag (some kind) rest := by
  have htitles : ∀ f ∈ tag.name :: kind.name :: rest, Title f := by
    intro f hf
    rcases List.mem_cons.mp hf with rfl | hf
    · exact (field_tag tag).title
    · rcases List.mem_cons.mp hf with rfl | hf
      · exact (field_kind kind).title
      · exact h f hf
  have hsplit := splitOn_tabbed (by simp) fun f hf => (htitles f hf).noTab
  have hany : (tag.name :: kind.name :: rest).any List.isEmpty = false := by
    rw [List.any_eq_false]
    intro f hf
    simpa using (htitles f hf).nonempty
  have hart : tag.name ≠ ART_REP_LINE := by
    intro heq
    have := tagOf_name tag
    rw [heq, tagOf_ART_REP_LINE] at this
    cases this
  simp only [readLine, hsplit, hany, Bool.false_eq_true, if_false, if_neg hart, tagOf_name, kindOf_name]

theorem tabbed_key (tag kind set lang list : List Char) :
    tabbed [tag, kind, tabbed [set, lang], list] = tabbed [tag, kind, set, lang, list] := by
  simp [tabbed, List.intercalate_cons_cons]

theorem lineOf_row (tag : ListTag) {set lang : List Char} (hset : Field set)
    (hlang : Field lang) (hne : numbers ≠ []) (h : ∀ n ∈ numbers, Field n) :
    lineOf (tabbed [tag.name, Kind.row.name, tabbed [set, lang], spaced numbers]) =
        some (.numbers tag set lang numbers true) ∧
      lineOf (tabbed [tag.name, Kind.notRow.name, tabbed [set, lang], spaced numbers]) =
        some (.numbers tag set lang numbers false) := by
  have hrest : ∀ f ∈ [set, lang, spaced numbers], Title f := by
    simpa using ⟨hset.title, hlang.title, title_spaced hne h⟩
  constructor <;>
    rw [tabbed_key, lineOf, readLine_tabbed tag _ hrest, readFields, numbersIn_spaced hne h] <;> rfl

theorem lineOf_print (tag : ListTag) {set : List Char} (hset : Field set)
    (hne : numbers ≠ []) (h : ∀ n ∈ numbers, Field n) :
    lineOf (tabbed [tag.name, Kind.print.name, set, spaced numbers]) = some (.numbers tag set [] numbers true) ∧
      lineOf (tabbed [tag.name, Kind.not.name, set, spaced numbers]) = some (.numbers tag set [] numbers false) := by
  have hrest : ∀ f ∈ [set, spaced numbers], Title f := by
    simpa using ⟨hset.title, title_spaced hne h⟩
  constructor <;>
    rw [lineOf, readLine_tabbed tag _ hrest, readFields, numbersIn_spaced hne h] <;> rfl

theorem lineOf_oracle (tag : ListTag) {id name : List Char} (hid : Field id) (hname : Title name) :
    lineOf (tabbed [tag.name, Kind.oracle.name, id, name]) = some (.oracle tag id) := by
  have hrest : ∀ f ∈ [id, name], Title f := by
    simpa using ⟨hid.title, hname⟩
  rw [lineOf, readLine_tabbed tag _ hrest, readFields]
  rfl

theorem lineOf_art {set lang : List Char} (hset : Field set)
    (hlang : Field lang) (hne : numbers ≠ []) (h : ∀ n ∈ numbers, Field n) :
    lineOf (tabbed [ART_REP_LINE, Kind.row.name, tabbed [set, lang], spaced numbers]) = some (.art set lang numbers) := by
  have htitles : ∀ f ∈ [ART_REP_LINE, Kind.row.name, set, lang, spaced numbers], Title f := by
    simpa using ⟨field_ART_REP_LINE.title, (field_kind .row).title, hset.title, hlang.title, title_spaced hne h⟩
  have hsplit := splitOn_tabbed (by simp) fun f hf => (htitles f hf).noTab
  have hany : [ART_REP_LINE, Kind.row.name, set, lang, spaced numbers].any List.isEmpty = false := by
    rw [List.any_eq_false]
    intro f hf
    simpa using (htitles f hf).nonempty
  rw [tabbed_key, lineOf]
  simp only [readLine, hsplit, hany, Bool.false_eq_true, if_false, if_true, numbersIn_spaced hne h]
  rfl

/-! ## Texts of one verdict -/

/-- Texts that each read as numbers of one value and one verdict, and together mention what `mentions` says. -/
structure NumberTexts (tag : ListTag) (isIn : Bool) (mentions : List Char → List Char → List Char → Prop)
    (texts : List (List Char)) : Prop where
  reads : ∀ text ∈ texts, ∃ set lang list, lineOf text = some (.numbers tag set lang list isIn) ∧
    ∀ number ∈ list, mentions set lang number
  found : ∀ set lang number, mentions set lang number →
    ∃ text ∈ texts, ∃ list, lineOf text = some (.numbers tag set lang list isIn) ∧ number ∈ list

namespace NumberTexts

variable {tag : ListTag} {isIn : Bool} {mentions : List Char → List Char → List Char → Prop}
  {texts : List (List Char)}

theorem wide (h : NumberTexts tag isIn mentions texts) (row : Printing) (t : ListTag) : wideOf row t texts = none := by
  refine Layers.last_eq_none fun text htext => ?_
  obtain ⟨set, lang, list, hread, -⟩ := h.reads text htext
  rw [hread]
  rfl

theorem own_some (h : NumberTexts tag isIn mentions texts) {row : Printing} (hlang : row.lang ≠ [])
    (hrow : mentions row.set row.lang row.number) : ownOf row tag texts = some isIn := by
  refine (Layers.last_uniform ?_).mpr ?_
  · intro text htext b hb
    obtain ⟨set, lang, list, hread, -⟩ := h.reads text htext
    rw [hread, Option.bind_some, Line.own] at hb
    split at hb <;> simp_all
  · obtain ⟨text, htext, list, hread, hmem⟩ := h.found _ _ _ hrow
    refine ⟨text, htext, ?_⟩
    rw [hread, Option.bind_some, Line.own, if_pos ⟨rfl, hlang, rfl, rfl, hmem⟩]

theorem own_none (h : NumberTexts tag isIn mentions texts) {row : Printing} {t : ListTag}
    (hrow : ¬ (t = tag ∧ row.lang ≠ [] ∧ mentions row.set row.lang row.number)) : ownOf row t texts = none := by
  refine Layers.last_eq_none fun text htext => ?_
  obtain ⟨set, lang, list, hread, hall⟩ := h.reads text htext
  rw [hread, Option.bind_some, Line.own, if_neg]
  rintro ⟨rfl, hlang, rfl, rfl, hmem⟩
  exact hrow ⟨rfl, hlang, hall _ hmem⟩

theorem every_none (h : NumberTexts tag isIn mentions texts) {row : Printing} {t : ListTag}
    (hrow : ¬ (t = tag ∧ mentions row.set [] row.number)) : everyOf row t texts = none := by
  refine Layers.last_eq_none fun text htext => ?_
  obtain ⟨set, lang, list, hread, hall⟩ := h.reads text htext
  rw [hread, Option.bind_some, Line.every, if_neg]
  rintro ⟨rfl, rfl, rfl, hmem⟩
  exact hrow ⟨rfl, hall _ hmem⟩

end NumberTexts

/-- Texts that each read as a card of one value. -/
structure OracleTexts (tag : ListTag) (ids : List Char → Prop) (texts : List (List Char)) : Prop where
  reads : ∀ text ∈ texts, ∃ id, lineOf text = some (.oracle tag id) ∧ ids id
  found : ∀ id, ids id → ∃ text ∈ texts, lineOf text = some (.oracle tag id)

namespace OracleTexts

variable {tag : ListTag} {ids : List Char → Prop} {texts : List (List Char)}

theorem own (h : OracleTexts tag ids texts) (row : Printing) (t : ListTag) : ownOf row t texts = none := by
  refine Layers.last_eq_none fun text htext => ?_
  obtain ⟨id, hread, -⟩ := h.reads text htext
  rw [hread]
  rfl

theorem every (h : OracleTexts tag ids texts) (row : Printing) (t : ListTag) : everyOf row t texts = none := by
  refine Layers.last_eq_none fun text htext => ?_
  obtain ⟨id, hread, -⟩ := h.reads text htext
  rw [hread]
  rfl

theorem wide_some (h : OracleTexts tag ids texts) {row : Printing} (hrow : ∃ id ∈ row.oracles, ids id) :
    wideOf row tag texts = some true := by
  refine (Layers.last_uniform ?_).mpr ?_
  · intro text htext b hb
    obtain ⟨id, hread, -⟩ := h.reads text htext
    rw [hread, Option.bind_some, Line.wide] at hb
    split at hb <;> simp_all
  · obtain ⟨id, hid, hin⟩ := hrow
    obtain ⟨text, htext, hread⟩ := h.found id hin
    refine ⟨text, htext, ?_⟩
    rw [hread, Option.bind_some, Line.wide, if_pos ⟨rfl, hid⟩]

theorem wide_none (h : OracleTexts tag ids texts) {row : Printing} {t : ListTag}
    (hrow : ¬ (t = tag ∧ ∃ id ∈ row.oracles, ids id)) : wideOf row t texts = none := by
  refine Layers.last_eq_none fun text htext => ?_
  obtain ⟨id, hread, hid⟩ := h.reads text htext
  rw [hread, Option.bind_some, Line.wide, if_neg]
  rintro ⟨rfl, hmem⟩
  exact hrow ⟨rfl, id, hmem, hid⟩

end OracleTexts

/-! ## Lines of rows -/

theorem get_grouped (key : Got → List Char) (rows : List Got) (k : List Char) : match (grouped key rows).get k with
    | none => ∀ g ∈ rows, key g ≠ k
    | some numbers => numbers ≠ [] ∧ ∀ n, n ∈ numbers ↔ ∃ g ∈ rows, key g = k ∧ g.n = n := by
  induction rows using List.reverseRecOn with
  | nil => simp [grouped]
  | append_singleton rows g ih =>
    rw [grouped, List.foldl_append, List.foldl_cons, List.foldl_nil, JsMap.get_update]
    rw [grouped] at ih
    by_cases hk : key g = k
    · rw [if_pos hk, hk]
      cases hget : (rows.foldl (fun byKey g => byKey.update (key g) fun numbers =>
        JsSet.add (numbers.getD []) g.n) JsMap.empty).get k with
      | none =>
        rw [hget] at ih
        refine ⟨by simp [JsSet.add], fun n => ?_⟩
        rw [Option.getD_none, JsSet.mem_add]
        constructor
        · rintro (h | rfl)
          · cases h
          · exact ⟨g, by simp, hk, rfl⟩
        · rintro ⟨g', hg', hk', rfl⟩
          rcases List.mem_append.mp hg' with hg' | hg'
          · exact absurd hk' (ih g' hg')
          · exact .inr (by rw [List.mem_singleton.mp hg'])
      | some numbers =>
        rw [hget] at ih
        refine ⟨?_, fun n => ?_⟩
        · obtain ⟨n, hn⟩ := List.exists_mem_of_ne_nil numbers ih.1
          exact List.ne_nil_of_mem (JsSet.mem_add.mpr (.inl hn))
        · rw [Option.getD_some, JsSet.mem_add, ih.2]
          constructor
          · rintro (⟨g', hg', hrest⟩ | rfl)
            · exact ⟨g', by simp [hg'], hrest⟩
            · exact ⟨g, by simp, hk, rfl⟩
          · rintro ⟨g', hg', hk', rfl⟩
            rcases List.mem_append.mp hg' with hg' | hg'
            · exact .inl ⟨g', hg', hk', rfl⟩
            · exact .inr (by rw [List.mem_singleton.mp hg'])
    · rw [if_neg hk]
      split <;> rename_i hget <;> rw [hget] at ih
      · intro g' hg'
        rcases List.mem_append.mp hg' with hg' | hg'
        · exact ih g' hg'
        · rw [List.mem_singleton.mp hg']
          exact hk
      · refine ⟨ih.1, fun n => (ih.2 n).trans ⟨?_, ?_⟩⟩
        · rintro ⟨g', hg', hrest⟩
          exact ⟨g', by simp [hg'], hrest⟩
        · rintro ⟨g', hg', hk', hn⟩
          rcases List.mem_append.mp hg' with hg' | hg'
          · exact ⟨g', hg', hk', hn⟩
          · rw [List.mem_singleton.mp hg'] at hk'
            exact absurd hk' hk

theorem mem_numberLines {tag kind text : List Char} {byKey : JsMap (List Char) (JsSet (List Char))} :
    text ∈ numberLines tag kind byKey ↔ ∃ key numbers, byKey.get key = some numbers ∧
      text = tabbed [tag, kind, key, spaced (numbers.insertionSort fun a b => byNumber a b ≤ 0)] := by
  simp only [numberLines, List.mem_map, List.mem_insertionSort, Prod.exists, JsMap.mem_entries]
  constructor
  · rintro ⟨key, numbers, hget, rfl⟩
    exact ⟨key, numbers, hget, rfl⟩
  · rintro ⟨key, numbers, hget, rfl⟩
    exact ⟨key, numbers, hget, rfl⟩

theorem rowKey_inj {s l s' l' : List Char} (hs : Field s) (hl : Field l) (hs' : Field s') (hl' : Field l')
    (h : tabbed [s, l] = tabbed [s', l']) : s = s' ∧ l = l' := by
  have htab : ∀ {a b : List Char}, Field a → Field b → (tabbed [a, b]).splitOn '\t' = [a, b] := by
    intro a b ha hb
    refine splitOn_tabbed (by simp) fun f hf => ?_
    simp only [List.mem_cons, List.not_mem_nil, or_false] at hf
    rcases hf with rfl | rfl
    · exact ha.notMem (by decide)
    · exact hb.notMem (by decide)
  have hsplit := htab hs hl
  rw [h, htab hs' hl'] at hsplit
  simp only [List.cons.injEq, and_true] at hsplit
  exact ⟨hsplit.1.symm, hsplit.2.symm⟩

variable {rows : List Got}

theorem group_numbers (h : ∀ g ∈ rows, g.Proper) {key : Got → List Char} {k : List Char}
    (hget : (grouped key rows).get k = some numbers) :
    let sorted := numbers.insertionSort fun a b => byNumber a b ≤ 0
    sorted ≠ [] ∧ (∀ n ∈ sorted, Field n) ∧ (∀ n, n ∈ sorted ↔ ∃ g ∈ rows, key g = k ∧ g.n = n) := by
  have hgroup := get_grouped key rows k
  rw [hget] at hgroup
  have hmem : ∀ n, n ∈ numbers.insertionSort (fun a b => byNumber a b ≤ 0) ↔ ∃ g ∈ rows, key g = k ∧ g.n = n := by
    intro n
    rw [List.mem_insertionSort]
    exact hgroup.2 n
  refine ⟨?_, ?_, hmem⟩
  · obtain ⟨n, hn⟩ := List.exists_mem_of_ne_nil numbers hgroup.1
    exact List.ne_nil_of_mem ((List.mem_insertionSort _).mpr hn)
  · intro n hn
    obtain ⟨g, hg, -, rfl⟩ := (hmem n).mp hn
    exact (h g hg).n

theorem exists_group {g : Got} (hg : g ∈ rows) (key : Got → List Char) :
    ∃ numbers, (grouped key rows).get (key g) = some numbers := by
  have hgroup := get_grouped key rows (key g)
  cases hget : (grouped key rows).get (key g) with
  | none =>
    rw [hget] at hgroup
    exact absurd rfl (hgroup g hg)
  | some numbers => exact ⟨numbers, rfl⟩

/-- **Lines by row name exactly the rows they were written for.** -/
theorem rowLines_texts (tag : ListTag) (isIn : Bool) (h : ∀ g ∈ rows, g.Proper) :
    NumberTexts tag isIn (fun s l n => ∃ g ∈ rows, g.s = s ∧ g.l = l ∧ g.n = n)
      (rowLines tag.name (if isIn then Kind.row else Kind.notRow).name rows) := by
  have hread : ∀ g ∈ rows, ∀ numbers, numbers ≠ [] → (∀ n ∈ numbers, Field n) →
      lineOf (tabbed [tag.name, (if isIn then Kind.row else Kind.notRow).name, tabbed [g.s, g.l], spaced numbers]) =
        some (.numbers tag g.s g.l numbers isIn) := by
    intro g hg numbers hne hfield
    have hline := lineOf_row tag (h g hg).s (h g hg).l hne hfield
    cases isIn with
    | true => exact hline.1
    | false => exact hline.2
  constructor
  · intro text htext
    obtain ⟨key, numbers, hget, rfl⟩ := mem_numberLines.mp htext
    obtain ⟨hne, hfield, hmem⟩ := group_numbers h hget
    obtain ⟨n, hn⟩ := List.exists_mem_of_ne_nil _ hne
    obtain ⟨g, hg, rfl, -⟩ := (hmem n).mp hn
    refine ⟨g.s, g.l, _, hread g hg _ hne hfield, fun number hnumber => ?_⟩
    obtain ⟨g', hg', hkey, rfl⟩ := (hmem number).mp hnumber
    obtain ⟨hs, hl⟩ := rowKey_inj (h g' hg').s (h g' hg').l (h g hg).s (h g hg).l hkey
    exact ⟨g', hg', hs, hl, rfl⟩
  · rintro set lang number ⟨g, hg, rfl, rfl, rfl⟩
    obtain ⟨numbers, hget⟩ := exists_group hg (fun g => tabbed [g.s, g.l])
    obtain ⟨hne, hfield, hmem⟩ := group_numbers h hget
    exact ⟨_, mem_numberLines.mpr ⟨_, numbers, hget, rfl⟩, _, hread g hg _ hne hfield, (hmem g.n).mpr ⟨g, hg, rfl, rfl⟩⟩

theorem printLines_texts {tag : ListTag} {isIn : Bool} {kind key set lang : List Char}
    (hread : ∀ list : List (List Char), list ≠ [] → (∀ n ∈ list, Field n) →
      lineOf (tabbed [tag.name, kind, key, spaced list]) = some (.numbers tag set lang list isIn))
    (h : ∀ n ∈ numbers, Field n) :
    NumberTexts tag isIn (fun s l n => s = set ∧ l = lang ∧ n ∈ numbers) (printLines tag.name kind key numbers) := by
  by_cases hempty : numbers = []
  · subst hempty
    exact ⟨by simp [printLines, JsSet.of], by simp⟩
  · obtain ⟨m, hm⟩ := List.exists_mem_of_ne_nil numbers hempty
    have hpos : (JsSet.of numbers).length > 0 := List.length_pos_of_mem (JsSet.mem_of.mpr hm)
    have hmem : ∀ n, n ∈ (JsSet.of numbers).insertionSort (fun a b => byNumber a b ≤ 0) ↔ n ∈ numbers := by
      intro n
      rw [List.mem_insertionSort, JsSet.mem_of]
    have hline := hread ((JsSet.of numbers).insertionSort fun a b => byNumber a b ≤ 0)
      (List.ne_nil_of_mem ((hmem m).mpr hm)) fun n hn => h n ((hmem n).mp hn)
    have hlines : printLines tag.name kind key numbers =
        [tabbed [tag.name, kind, key, spaced ((JsSet.of numbers).insertionSort fun a b => byNumber a b ≤ 0)]] := by
      simp only [printLines, if_pos hpos]
      rfl
    rw [hlines]
    constructor
    · intro text htext
      rw [List.mem_singleton.mp htext]
      exact ⟨set, lang, _, hline, fun number hnumber => ⟨rfl, rfl, (hmem number).mp hnumber⟩⟩
    · rintro s l n ⟨rfl, rfl, hn⟩
      exact ⟨_, List.mem_singleton_self _, _, hline, (hmem n).mpr hn⟩

theorem get_foldl_names (g : Got) (ids : List (List Char)) (names : JsMap (List Char) (List Char)) (k : List Char) :
    (ids.foldl (fun names id => names.update id fun name => name.getD g.m) names).get k =
      if k ∈ ids then some ((names.get k).getD g.m) else names.get k := by
  induction ids generalizing names with
  | nil => rfl
  | cons first ids ih =>
    rw [List.foldl_cons, ih, JsMap.get_update]
    by_cases hfirst : first = k
    · subst hfirst
      cases names.get first <;> simp
    · simp [hfirst, Ne.symm hfirst]

theorem get_cardNames (rows : List Got) (id : List Char) : match (cardNames rows).get id with
    | none => ∀ g ∈ rows, id ∉ g.o
    | some name => ∃ g ∈ rows, id ∈ g.o ∧ g.m = name := by
  induction rows using List.reverseRecOn with
  | nil => simp [cardNames]
  | append_singleton rows g ih =>
    have hlast : (cardNames (rows ++ [g])).get id =
        if id ∈ g.o then some (((cardNames rows).get id).getD g.m) else (cardNames rows).get id := by
      rw [cardNames, List.foldl_append, List.foldl_cons, List.foldl_nil, get_foldl_names]
      rfl
    rw [hlast]
    cases hget : (cardNames rows).get id with
    | none =>
      rw [hget] at ih
      by_cases hid : id ∈ g.o
      · rw [if_pos hid]
        exact ⟨g, by simp, hid, rfl⟩
      · rw [if_neg hid]
        intro g' hg'
        rcases List.mem_append.mp hg' with hg' | hg'
        · exact ih g' hg'
        · rwa [List.mem_singleton.mp hg']
    | some name =>
      rw [hget] at ih
      obtain ⟨g', hg', hid', hname⟩ := ih
      rw [Option.getD_some, ite_self]
      exact ⟨g', by simp [hg'], hid', hname⟩

/-- **Lines by card name exactly the cards of their rows.** -/
theorem oracleLines_texts (tag : ListTag) (h : ∀ g ∈ rows, g.Named) :
    OracleTexts tag (fun id => ∃ g ∈ rows, id ∈ g.o) (oracleLines tag.name rows) := by
  have hread : ∀ id name, (cardNames rows).get id = some name →
      lineOf (tabbed [tag.name, Kind.oracle.name, id, name]) = some (.oracle tag id) ∧ ∃ g ∈ rows, id ∈ g.o := by
    intro id name hget
    have hname := get_cardNames rows id
    rw [hget] at hname
    obtain ⟨g, hg, hid, rfl⟩ := hname
    exact ⟨lineOf_oracle tag (Field.of_isId ((h g hg).ids id hid)) (h g hg).name, g, hg, hid⟩
  have hmem : ∀ text, text ∈ oracleLines tag.name rows ↔
      ∃ id name, (cardNames rows).get id = some name ∧ text = tabbed [tag.name, Kind.oracle.name, id, name] := by
    intro text
    simp only [oracleLines, List.mem_map, List.mem_insertionSort, Prod.exists, JsMap.mem_entries]
    constructor
    · rintro ⟨id, name, hget, rfl⟩
      exact ⟨id, name, hget, rfl⟩
    · rintro ⟨id, name, hget, rfl⟩
      exact ⟨id, name, hget, rfl⟩
  constructor
  · intro text htext
    obtain ⟨id, name, hget, rfl⟩ := (hmem text).mp htext
    exact ⟨id, (hread id name hget).1, (hread id name hget).2⟩
  · rintro id ⟨g, hg, hid⟩
    have hname := get_cardNames rows id
    cases hget : (cardNames rows).get id with
    | none =>
      rw [hget] at hname
      exact absurd hid (hname g hg)
    | some name => exact ⟨_, (hmem _).mpr ⟨id, name, hget, rfl⟩, (hread id name hget).1⟩

variable {text : List Char}

theorem artLines_read (h : ∀ g ∈ rows, g.Proper) (htext : text ∈ artLines rows) :
    ∃ set lang list, lineOf text = some (.art set lang list) := by
  obtain ⟨key, numbers, hget, rfl⟩ := mem_numberLines.mp htext
  obtain ⟨hne, hfield, hmem⟩ := group_numbers h hget
  obtain ⟨n, hn⟩ := List.exists_mem_of_ne_nil _ hne
  obtain ⟨g, hg, rfl, -⟩ := (hmem n).mp hn
  exact ⟨g.s, g.l, _, lineOf_art (h g hg).s (h g hg).l hne hfield⟩

/-! ## A text's value -/

def valueOf (text : List Char) : Option ListTag := (lineOf text).bind Line.value

theorem silent_of_value {texts : List (List Char)} {tag : ListTag} (h : ∀ text ∈ texts, valueOf text ≠ some tag)
    (row : Printing) : ownOf row tag texts = none ∧ everyOf row tag texts = none ∧ wideOf row tag texts = none := by
  have hline : ∀ text ∈ texts, ∀ line, lineOf text = some line → line.value ≠ some tag := by
    intro text htext line hline hvalue
    apply h text htext
    rw [valueOf, hline]
    exact hvalue
  refine ⟨?_, ?_, ?_⟩ <;> refine Layers.last_eq_none fun text htext => ?_ <;>
    cases hread : lineOf text with
    | none => rfl
    | some line =>
      have hne := hline text htext line hread
      cases line <;> simp_all [Line.value, Line.own, Line.every, Line.wide]

theorem valueOf_eq_none {set lang : List Char} {list : List (List Char)}
    (h : lineOf text = some (.art set lang list)) : valueOf text = none := by
  rw [valueOf, h]
  rfl

theorem NumberTexts.valueOf_eq {tag : ListTag} {isIn : Bool} {mentions : List Char → List Char → List Char → Prop}
    {texts : List (List Char)} (h : NumberTexts tag isIn mentions texts) (htext : text ∈ texts) :
    valueOf text = some tag := by
  obtain ⟨set, lang, list, hread, -⟩ := h.reads text htext
  rw [valueOf, hread]
  rfl

theorem OracleTexts.valueOf_eq {tag : ListTag} {ids : List Char → Prop} {texts : List (List Char)}
    (h : OracleTexts tag ids texts) (htext : text ∈ texts) : valueOf text = some tag := by
  obtain ⟨id, hread, -⟩ := h.reads text htext
  rw [valueOf, hread]
  rfl

theorem checkLine_of_lineOf (h : (lineOf text).isSome = true) : checkLine text = .ok text := by
  unfold lineOf readLine at h
  unfold checkLine
  split
  · rename_i hany
    simp only [hany, if_true] at h
    cases h
  · rfl

end IsLists
