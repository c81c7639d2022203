-- SUMMARY: The composed override is taken by the builder, and says of every row what the units read say, else what the compiled table says.
import Sylvan.Import.IsListReads

/-!
# The verdicts of a refreshed table

Readings are what the nights read: the rows of each small list, of the foreign list and of
each set. A stored state records them as lines. The table composed over it answers every
row of a unit read from the reading, and every other row as the compiled table does, but
for the cards a set's reading found related: they are related wherever they are printed.
-/

namespace IsLists

/-! ## Pieces of a text -/

theorem splitOn_pieces {c sep : Char} {s piece : List Char} (h : piece ∈ s.splitOn sep) :
    sep ∉ piece ∧ (c ∈ piece → c ∈ s) := by
  induction s generalizing piece with
  | nil =>
    rw [List.splitOn_nil, List.mem_singleton] at h
    subst h
    simp
  | cons x s ih =>
    rw [List.splitOn_cons_eq_if_modifyHead] at h
    split at h
    · rcases List.mem_cons.mp h with rfl | h
      · simp
      · exact ⟨(ih h).1, fun hc => List.mem_cons_of_mem x ((ih h).2 hc)⟩
    · rename_i hx
      cases hs : s.splitOn sep with
      | nil => exact absurd hs (List.splitOn_ne_nil sep s)
      | cons first rest =>
        rw [hs] at h ih
        rcases List.mem_cons.mp h with rfl | h
        · obtain ⟨hsep, hmem⟩ := ih List.mem_cons_self
          refine ⟨?_, ?_⟩
          · rintro (_ | ⟨_, hin⟩)
            · exact hx (by simp)
            · exact hsep hin
          · rintro (_ | ⟨_, hin⟩)
            · exact List.mem_cons_self
            · exact List.mem_cons_of_mem x (hmem hin)
        · obtain ⟨hsep, hmem⟩ := ih (List.mem_cons_of_mem first h)
          exact ⟨hsep, fun hc => List.mem_cons_of_mem x (hmem hc)⟩

def Plain (text : List Char) : Prop := '\n' ∉ text ∧ '\r' ∉ text

theorem Title.plain {m : List Char} (h : Title m) : Plain m := ⟨h.noFeed, h.noReturn⟩

theorem Plain.append {a b : List Char} (ha : Plain a) (hb : Plain b) : Plain (a ++ b) :=
  ⟨by simp [ha.1, hb.1], by simp [ha.2, hb.2]⟩

theorem plain_tabbed {fields : List (List Char)} (h : ∀ f ∈ fields, Plain f) : Plain (tabbed fields) := by
  constructor
  · intro hmem
    rcases Text.mem_intercalate hmem with heq | ⟨f, hf, hc⟩
    · cases heq
    · exact (h f hf).1 hc
  · intro hmem
    rcases Text.mem_intercalate hmem with heq | ⟨f, hf, hc⟩
    · cases heq
    · exact (h f hf).2 hc

theorem stripCr_of_plain {line : List Char} (h : Plain line) : stripCr line = line := by
  unfold stripCr
  split
  · rename_i hlast
    exact absurd (List.mem_of_getLast? hlast) h.2
  · rfl

theorem rustLines_of_noReturn {tsv : List Char} (h : '\r' ∉ tsv) :
    rustLines tsv = (tsv.splitOn '\n').filter fun line => !line.isEmpty := by
  have hne := List.splitOn_ne_nil '\n' tsv
  have hplain : ∀ piece ∈ tsv.splitOn '\n', Plain piece := by
    intro piece hpiece
    exact ⟨(splitOn_pieces (c := '\r') hpiece).1, fun hc => h ((splitOn_pieces hpiece).2 hc)⟩
  have hstrip : (tsv.splitOn '\n').dropLast.map stripCr = (tsv.splitOn '\n').dropLast := by
    refine (List.map_congr_left fun piece hpiece => ?_).trans (List.map_id _)
    exact stripCr_of_plain (hplain piece (List.dropLast_subset _ hpiece))
  rw [rustLines, hstrip, List.getLast?_eq_some_getLast hne, Option.toList_some, List.dropLast_append_getLast hne]

theorem rustLines_joined {lines : List (List Char)} (hplain : ∀ line ∈ lines, Plain line)
    (hne : ∀ line ∈ lines, line ≠ []) (h : lines ≠ []) :
    rustLines (['\n'].intercalate lines ++ ['\n']) = lines := by
  have hsplit : (['\n'].intercalate lines ++ ['\n']).splitOn '\n' = lines ++ [[]] := by
    rw [List.splitOn_append_cons_self, List.splitOn_intercalate '\n' (fun l hl => (hplain l hl).1) h]
    rfl
  have hstrip : lines.map stripCr = lines := by
    refine (List.map_congr_left fun line hline => ?_).trans (List.map_id _)
    exact stripCr_of_plain (hplain line hline)
  simp only [rustLines, hsplit, List.dropLast_concat, hstrip, List.getLast?_concat, Option.toList_some, List.filter_append]
  rw [List.filter_eq_self.mpr fun line hline => by simpa using hne line hline]
  simp

/-! ## What a line that reads looks like -/

variable {text : List Char} {tag : ListTag} {line : Line}

theorem readFields_value {kind : Option Kind} {fields : List (List Char)}
    (h : readFields text tag kind fields = .ok line) : line.value = some tag := by
  unfold readFields at h
  split at h
  · cases h; rfl
  · cases h; rfl
  all_goals first
    | (obtain ⟨numbers, -, hline⟩ := Throws.ok_of_bind h; cases hline; rfl)
    | cases h

theorem lineOf_cases (h : lineOf text = some line) : ∃ first kind rest, text.splitOn '\t' = first :: kind :: rest ∧
      ((first = ART_REP_LINE ∧ line.value = none) ∨
        ∃ tag : ListTag, first = tag.name ∧ readFields text tag (kindOf kind) rest = .ok line) := by
  have hread : readLine text = .ok line := by
    unfold lineOf at h
    cases hline : readLine text with
    | error e => rw [hline] at h; cases h
    | ok line' => rw [hline] at h; rw [Option.some.inj h]
  clear h
  simp only [readLine] at hread
  split at hread
  · cases hread
  · split at hread
    · rename_i first kind rest hfields
      refine ⟨first, kind, rest, hfields, ?_⟩
      split at hread
      · rename_i hart
        refine .inl ⟨hart, ?_⟩
        split at hread
        · split at hread
          · obtain ⟨numbers, -, hline⟩ := Throws.ok_of_bind hread
            cases hline
            rfl
          · cases hread
        · cases hread
      · split at hread
        · rename_i tag htag
          exact .inr ⟨tag, tagOf_eq_some htag, hread⟩
        · cases hread
    · cases hread

theorem line_fields (h : lineOf text = some line)
    (hvalue : line.value = some tag) :
    ∃ rest, text.splitOn '\t' = tag.name :: fieldAt text 1 :: rest ∧
      readFields text tag (kindOf (fieldAt text 1)) rest = .ok line := by
  obtain ⟨first, kind, rest, hsplit, hfirst⟩ := lineOf_cases h
  have hkind : fieldAt text 1 = kind := by rw [fieldAt, hsplit]; rfl
  rcases hfirst with ⟨-, hnone⟩ | ⟨tag', rfl, hread⟩
  · rw [hnone] at hvalue
    cases hvalue
  · obtain rfl : tag' = tag := Option.some.inj ((readFields_value hread).symm.trans hvalue)
    rw [hkind]
    exact ⟨rest, hsplit, hread⟩

variable {rest : List (List Char)}

theorem readFields_row {isIn : Bool}
    (h : readFields text tag (some (if isIn then .row else .notRow)) rest = .ok line) :
    ∃ set lang list numbers, rest = [set, lang, list] ∧ line = .numbers tag set lang numbers isIn := by
  cases isIn <;> unfold readFields at h <;> split at h <;> try cases h
  all_goals
    rename_i hkind
    first
      | (cases hkind; obtain ⟨numbers, -, hline⟩ := Throws.ok_of_bind h; cases hline; exact ⟨_, _, _, _, rfl, rfl⟩)
      | cases hkind

theorem readFields_print {isIn : Bool}
    (h : readFields text tag (some (if isIn then .print else .not)) rest = .ok line) :
    ∃ set list numbers, rest = [set, list] ∧ line = .numbers tag set [] numbers isIn := by
  cases isIn <;> unfold readFields at h <;> split at h <;> try cases h
  all_goals
    rename_i hkind
    first
      | (cases hkind; obtain ⟨numbers, -, hline⟩ := Throws.ok_of_bind h; cases hline; exact ⟨_, _, _, rfl, rfl⟩)
      | cases hkind

theorem kind_of_set {tag t : ListTag} {kind : Option Kind}
    {code : List Char} (h : readFields text tag kind rest = .ok (.set t code)) : kind = some .set := by
  unfold readFields at h
  split at h
  · rfl
  · cases h
  all_goals first
    | (obtain ⟨numbers, -, hline⟩ := Throws.ok_of_bind h; cases hline)
    | cases h

theorem text_of_splitOn {text first : List Char} {sep : Char}
    (h : text.splitOn sep = first :: rest) : rest = [] ∧ text = first ∨ ∃ tail, text = first ++ sep :: tail := by
  have hjoin : [sep].intercalate (text.splitOn sep) = text := List.intercalate_splitOn sep
  rw [h] at hjoin
  cases rest with
  | nil => exact .inl ⟨rfl, by simpa using hjoin.symm⟩
  | cons next rest =>
    rw [List.intercalate_cons_cons] at hjoin
    exact .inr ⟨[sep].intercalate (next :: rest), by simpa using hjoin.symm⟩

theorem firstField_of_splitOn {text first next : List Char}
    (h : text.splitOn '\t' = first :: next :: rest) : firstField text = first := by
  have hfirst : '\t' ∉ first := (splitOn_pieces (c := '\t') (h ▸ List.mem_cons_self)).1
  rcases text_of_splitOn h with ⟨hnil, -⟩ | ⟨tail, rfl⟩
  · cases hnil
  · unfold firstField
    rw [if_pos (by simp), List.takeWhile_append_of_pos (by
      intro c hc
      simp only [ne_eq, decide_not, Bool.not_eq_true', decide_eq_false_iff_not]
      rintro rfl
      exact hfirst hc)]
    simp

theorem not_comment_of_lineOf (h : (lineOf text).isSome = true) : text ≠ [] ∧ isComment text = false := by
  obtain ⟨line, hline⟩ := Option.isSome_iff_exists.mp h
  obtain ⟨first, kind, rest, hsplit, hfirst⟩ := lineOf_cases hline
  have hhead : ∃ c tail, first = c :: tail ∧ c ≠ '#' := by
    rcases hfirst with ⟨rfl, -⟩ | ⟨tag, rfl, -⟩
    · exact ⟨'a', "rt_rep".toList, by decide, by decide⟩
    · cases tag <;> exact ⟨_, _, rfl, by decide⟩
  obtain ⟨c, tail, rfl, hc⟩ := hhead
  rcases text_of_splitOn hsplit with ⟨hnil, -⟩ | ⟨more, rfl⟩
  · cases hnil
  · exact ⟨by simp, by simp [isComment, hc]⟩

theorem valueOf_of_firstField (h : (lineOf text).isSome = true) : valueOf text = tagOf (firstField text) := by
  obtain ⟨line, hline⟩ := Option.isSome_iff_exists.mp h
  obtain ⟨first, kind, rest, hsplit, hfirst⟩ := lineOf_cases hline
  rw [firstField_of_splitOn hsplit, valueOf, hline, Option.bind_some]
  rcases hfirst with ⟨rfl, hvalue⟩ | ⟨tag, rfl, hread⟩
  · rw [hvalue, tagOf_ART_REP_LINE]
  · rw [readFields_value hread, tagOf_name]

/-! ## The compiled table -/

/-- A compiled table: the builder's own reader takes it, the night reads it, and it is written as
`bun run is-lists` writes it, with line feeds alone, one fingerprint of the tier table that both readers
find and no blank is in, and no line twice. -/
structure Compiled (tsv : List Char) (table : Table) (base : CompiledBase) (lines : ListTag → List (List Char)) :
    Prop where
  parsed : tryParse tsv = .ok table
  read : readCompiled tsv = .ok (base, lines)
  feeds : '\r' ∉ tsv
  tiers : table.tiersFingerprint = some base.tiers
  word : ∀ c ∈ base.tiers, isWhitespace c = false
  distinct : (lines .related).Nodup

theorem isDay_of_dayNamed {comment day : List Char} (h : dayNamed comment = some day) : isDay day = true := by
  unfold dayNamed at h
  obtain ⟨rest, -, hrest⟩ := Option.bind_eq_some_iff.mp h
  split at hrest
  · rename_i hday
    rw [← Option.some.inj hrest]
    exact hday.2
  · cases hrest

/-- What `readCompiled` returns, of the table's own lines. -/
theorem readCompiled_ok {tsv : List Char} {base : CompiledBase} {lines : ListTag → List (List Char)}
    (h : readCompiled tsv = .ok (base, lines)) :
    let data := dataOf ((tsv.splitOn '\n').filter fun line => !line.isEmpty)
    (∀ text ∈ data, (tagOf (firstField text)).isSome = true) ∧
      (∀ tag, lines tag = data.filter fun text => tagOf (firstField text) = some tag) ∧
      base.fingerprint = Fnv.fnv1a64Halves (RustStr.utf8 tsv) ∧
      base.refinable = ((lines .covered).all coveredRefinable && (lines .related).all relatedRefinable) ∧
      (∀ list, base.keep list = if list ∈ CARD_LISTS then (lines list.tag).filter fun text =>
        fieldAt text 1 = Kind.not.name || fieldAt text 1 = Kind.notRow.name else []) ∧
      base.tiers ≠ [] ∧ isDay base.date = true := by
  have hday : ∀ (comments : List (List Char)) (facts : HeaderFacts), (facts.date = [] ∨ isDay facts.date = true) →
      (comments.foldl (fun facts line => facts.take (trimBy isSpace line.tail)) facts).date = [] ∨
        isDay (comments.foldl (fun facts line => facts.take (trimBy isSpace line.tail)) facts).date = true := by
    intro comments
    induction comments with
    | nil => exact fun facts hfacts => hfacts
    | cons comment comments ih =>
      intro facts hfacts
      refine ih _ ?_
      dsimp only [HeaderFacts.take]
      split
      · cases hnamed : dayNamed (trimBy isSpace comment.tail) with
        | none => exact .inl rfl
        | some day => exact .inr (isDay_of_dayNamed hnamed)
      · exact hfacts
  unfold readCompiled at h
  dsimp only at h
  split at h
  · cases h
  · rename_i hfind
    split at h
    · cases h
    · rename_i hfacts
      simp only [Bool.or_eq_true, decide_eq_true_eq, not_or] at hfacts
      cases h
      refine ⟨fun text htext => ?_, fun tag => rfl, rfl, rfl, fun list => rfl, hfacts.2,
        (hday _ {} (.inl rfl)).resolve_left hfacts.1⟩
      have hnone := List.find?_eq_none.mp hfind text htext
      cases htag : tagOf (firstField text) with
      | none =>
        rw [htag] at hnone
        exact absurd rfl hnone
      | some tag => rfl

namespace Compiled

variable {tsv : List Char} {table : Table} {base : CompiledBase} {lines : ListTag → List (List Char)}

theorem valueOf_line (h : Compiled tsv table base lines)
    (htext : text ∈ lines tag) : (lineOf text).isSome = true ∧ valueOf text = some tag := by
  obtain ⟨-, hlines, -⟩ := readCompiled_ok h.read
  obtain ⟨hreads, -⟩ := verdict_of_tryParse h.parsed
  rw [rustLines_of_noReturn h.feeds] at hreads
  rw [hlines, List.mem_filter, decide_eq_true_eq] at htext
  have hread := hreads text htext.1
  exact ⟨hread, (valueOf_of_firstField hread).trans htext.2⟩

theorem verdict (h : Compiled tsv table base lines) (row : Printing) (tag : ListTag) :
    verdictsIn table row tag = textsSay row tag (lines tag) := by
  obtain ⟨-, hlines, -⟩ := readCompiled_ok h.read
  obtain ⟨hreads, hverdict⟩ := verdict_of_tryParse h.parsed
  rw [hverdict, rustLines_of_noReturn h.feeds, hlines]
  rw [rustLines_of_noReturn h.feeds] at hreads
  have hsilent : ∀ text ∈ dataOf ((tsv.splitOn '\n').filter fun line => !line.isEmpty),
      decide (tagOf (firstField text) = some tag) = false → ∀ say : Printing → ListTag → Line → Option Bool,
        (∀ line : Line, line.value ≠ some tag → say row tag line = none) → (lineOf text).bind (say row tag) = none := by
    intro text htext hother say hsay
    have hvalue := valueOf_of_firstField (hreads text htext)
    cases hline : lineOf text with
    | none => rfl
    | some line =>
      rw [valueOf, hline, Option.bind_some] at hvalue
      rw [Option.bind_some]
      apply hsay
      rw [hvalue]
      exact of_decide_eq_false hother
  rw [textsSay, textsSay, ownOf, ownOf, everyOf, everyOf, wideOf, wideOf, Layers.last_filter, Layers.last_filter,
    Layers.last_filter]
  · intro text htext hother
    refine hsilent text htext hother Line.wide fun line hline => ?_
    cases line <;> simp_all [Line.value, Line.wide]
  · intro text htext hother
    refine hsilent text htext hother Line.every fun line hline => ?_
    cases line <;> simp_all [Line.value, Line.every]
  · intro text htext hother
    refine hsilent text htext hother Line.own fun line hline => ?_
    cases line <;> simp_all [Line.value, Line.own]

theorem plain_line (h : Compiled tsv table base lines)
    (htext : text ∈ lines tag) : Plain text := by
  obtain ⟨-, hlines, -⟩ := readCompiled_ok h.read
  rw [hlines] at htext
  have hpiece := (List.mem_filter.mp (List.mem_filter.mp (List.mem_filter.mp htext).1).1).1
  exact ⟨(splitOn_pieces (c := '\r') hpiece).1, fun hc => h.feeds ((splitOn_pieces hpiece).2 hc)⟩

theorem fingerprint (h : Compiled tsv table base lines) : base.fingerprint = compiledFingerprint tsv := by
  obtain ⟨-, -, hfingerprint, -⟩ := readCompiled_ok h.read
  rw [hfingerprint, Fnv.fnv1a64Halves_eq]
  rfl

end Compiled

/-! ## The header of an override -/

def isDayChar (c : Char) : Bool := Text.isDigit c || ('a' ≤ c && c ≤ 'f') || c = '-'

theorem isDayChar_spec {c : Char} (h : isDayChar c = true) : isWhitespace c = false ∧ c ≠ '\n' ∧ c ≠ '\r' := by
  have hspace : isSpace c = false := isSpace_of_idChar h
  refine ⟨?_, ?_, ?_⟩
  · have h85 : c.toNat ≠ 0x85 := by
      simp only [isDayChar, Text.isDigit, Bool.or_eq_true, Bool.and_eq_true, decide_eq_true_eq, Char.le_def] at h
      have hnat : ∀ a b : Char, a.val ≤ b.val → a.toNat ≤ b.toNat := fun a b hab => hab
      rcases h with (⟨-, h2⟩ | ⟨-, h2⟩) | rfl
      · have := hnat _ _ h2; simp at *; omega
      · have := hnat _ _ h2; simp at *; omega
      · decide
    simp only [isSpace, List.mem_cons, List.not_mem_nil, or_false, Bool.or_eq_false_iff, Bool.and_eq_false_iff,
      decide_eq_false_iff_not, not_or] at hspace
    simp [isWhitespace, h85]
    omega
  · rintro rfl
    cases hspace
  · rintro rfl
    cases hspace

theorem isDayChar_of_isDay (h : isDay text = true) : ∀ c ∈ text, isDayChar c = true := by
  intro c hc
  simp only [isDay, Bool.and_eq_true, List.all_eq_true] at h
  have hfst : c ∈ text.zipIdx.map Prod.fst := by rwa [List.zipIdx_map_fst]
  obtain ⟨p, hp, rfl⟩ := List.mem_map.mp hfst
  have hall := h.2 p hp
  simp only [isDayChar, Bool.or_eq_true, decide_eq_true_eq]
  split at hall
  · exact .inr (by simpa using hall)
  · exact .inl (.inl hall)

theorem isDayChar_hex (width n : ℕ) : ∀ c ∈ Fnv.hex width n, isDayChar c = true := by
  have hdigit : ∀ d < 16, isDayChar (Nat.digitChar d) = true := by decide
  induction width generalizing n with
  | zero => simp [Fnv.hex]
  | succ width ih =>
    intro c hc
    rcases List.mem_append.mp hc with hc | hc
    · exact ih _ c hc
    · rw [List.mem_singleton.mp hc]
      exact hdigit _ (Nat.mod_lt _ (by omega))

theorem plain_of_dayChars (h : ∀ c ∈ text, isDayChar c = true) : Plain text := by
  constructor
  · intro hmem
    exact (isDayChar_spec (h _ hmem)).2.1 rfl
  · intro hmem
    exact (isDayChar_spec (h _ hmem)).2.2 rfl

theorem trimBy_blank {cls : Char → Bool} {s : List Char} (hblank : cls ' ' = true) (hhead : ∀ c ∈ s.head?, cls c = false)
    (hlast : ∀ c ∈ s.getLast?, cls c = false) : trimBy cls (' ' :: s) = s := by
  have hfront : (' ' :: s).dropWhile cls = s := by
    rw [List.dropWhile_cons_of_pos hblank]
    cases s with
    | nil => rfl
    | cons c s => rw [List.dropWhile_cons_of_neg (by simp [hhead c rfl])]
  have hback : s.reverse.dropWhile cls = s.reverse := by
    cases hs : s.reverse with
    | nil => rfl
    | cons c r =>
      have hc : s.getLast? = some c := by rw [List.getLast?_eq_head?_reverse, hs]; rfl
      rw [List.dropWhile_cons_of_neg (by simp [hlast c (by rw [hc]; rfl)])]
  rw [trimBy, hfront, hback, List.reverse_reverse]

theorem comment_tiers (table : Table) (fingerprint : List Char) :
    table.comment ("print_tiers.tsv ".toList ++ fingerprint) = { table with tiersFingerprint := some fingerprint } := by
  rw [Table.comment, Text.stripLit_append]

theorem comment_base (table : Table) (base : List Char) :
    table.comment ("base ".toList ++ base) = { table with base := some base } := by
  rw [Table.comment, Text.stripLit_append, Text.stripLit_append_of_clash (by decide) (by decide)]

theorem comment_day (table : Table) (day : List Char) :
    table.comment ("art-reps-from ".toList ++ day) = { table with artFrom := some day } := by
  rw [Table.comment, Text.stripLit_append, Text.stripLit_append_of_clash (by decide) (by decide),
    Text.stripLit_append_of_clash (by decide) (by decide), Text.stripLit_append_of_clash (by decide) (by decide)]

theorem comment_other (table : Table) (comment : List Char) (h : ∀ c ∈ comment.head?, c ≠ 'p' ∧ c ≠ 'b' ∧ c ≠ 'a') :
    (table.comment comment).base = table.base ∧ (table.comment comment).tiersFingerprint = table.tiersFingerprint ∧
      (table.comment comment).artFrom = table.artFrom := by
  have hstrip : ∀ (c : Char) (lit : List Char), c = 'p' ∨ c = 'b' ∨ c = 'a' → Text.stripLit (c :: lit) comment = none := by
    intro c lit hc
    cases comment with
    | nil => rfl
    | cons d comment =>
      have hd := h d rfl
      rw [Text.stripLit, if_neg]
      rintro rfl
      rcases hc with hc | hc | hc
      · exact hd.1 hc
      · exact hd.2.1 hc
      · exact hd.2.2 hc
  unfold Table.comment
  rw [show Text.stripLit "print_tiers.tsv ".toList comment = none from hstrip 'p' _ (by simp),
    show Text.stripLit "base ".toList comment = none from hstrip 'b' _ (by simp),
    show Text.stripLit "art-reps-from ".toList comment = none from hstrip 'a' _ (by simp)]
  cases Text.stripLit "meta ".toList comment <;> exact ⟨rfl, rfl, rfl⟩

end IsLists
