-- SUMMARY: A tag's slug as the import stores it and as a query asks for it, and the two letters they part at.
import Sylvan.Data.Words
import Sylvan.Parser.PyStr

/-!
# Tag slugs

A tag is stored under a slug that the builder makes, and looked up under one that the
parser makes. The builder lowers ASCII letters; the parser lowers all of Unicode. Two
letters outside ASCII have ASCII letters in lower case, and there the slugs differ.
-/

namespace TagSlugs

open Words

/-! ## The query side -/

/-- The Kelvin sign, a `k` in lower case. -/
def KELVIN_SIGN : Char := Char.ofNat 0x212a

/-- The capital I with a dot above, an `i` and a combining dot in lower case. -/
def CAPITAL_I_WITH_DOT : Char := Char.ofNat 0x130

/-- Unicode's case tables as the parser asks them; what is fixed of them is where lower
case is ASCII. -/
structure CaseTables where
  isCased : Char → Bool
  isCaseIgnorable : Char → Bool
  /-- `String.fromCodePoint(cp).toLowerCase()`. -/
  toLowerCase : Char → List Char
  ascii : ∀ c, c.toNat < 0x80 → toLowerCase c = [c.toLower]
  kelvinSign : toLowerCase KELVIN_SIGN = ['k']
  capitalIWithDot : toLowerCase CAPITAL_I_WITH_DOT = ['i', Char.ofNat 0x307]
  wide : ∀ c, 0x80 ≤ c.toNat → c ≠ KELVIN_SIGN → c ≠ CAPITAL_I_WITH_DOT →
    toLowerCase c ≠ [] ∧ ∀ d ∈ toLowerCase c, 0x80 ≤ d.toNat

def CAPITAL_SIGMA : Char := Char.ofNat 0x3a3
def SMALL_SIGMA : Char := Char.ofNat 0x3c3
def FINAL_SIGMA : Char := Char.ofNat 0x3c2

def LOWER_EXCEPTIONS : List ℕ :=
  [0x1c89, 0xa7cb, 0xa7cc, 0xa7ce, 0xa7d2, 0xa7d4, 0xa7da, 0xa7dc] ++ List.range' 0x10d50 0x16 ++ List.range' 0x16ea0 0x19

variable (tables : CaseTables)

/-- The Final_Sigma rule; `before` is what precedes, nearest first. -/
def lowerSigma (before after : List Char) : Char :=
  let preceded := (before.dropWhile tables.isCaseIgnorable).head?.any tables.isCased
  let followed := (after.dropWhile tables.isCaseIgnorable).head?.any tables.isCased
  if preceded && !followed then FINAL_SIGMA else SMALL_SIGMA

def lowerCp (before : List Char) (c : Char) (after : List Char) : List Char :=
  if c = CAPITAL_SIGMA then [lowerSigma tables before after]
  else if c.toNat ∈ LOWER_EXCEPTIONS then [c]
  else tables.toLowerCase c

def pyLowerFrom (before : List Char) : List Char → List Char
  | [] => []
  | c :: after => lowerCp tables before c after ++ pyLowerFrom (c :: before) after

def pyLower (s : String) : String := String.ofList (pyLowerFrom tables [] s.toList)

/-- `[a-z0-9]`. -/
def isSlugChar (c : Char) : Bool := 'a' ≤ c && c ≤ 'z' || '0' ≤ c && c ≤ '9'

def slugifyTag (val : String) : String :=
  -- `replace(/[^a-z0-9]+/g, "-")`, then `replace(/^-+|-+$/g, "")`
  String.ofList (trim '-' (collapsed isSlugChar '-' false (pyLower tables (pyStrip val)).toList))

/-! ## The import side -/

/-- Rust's `char::is_whitespace`. -/
def isWhitespace (c : Char) : Bool :=
  (0x09 ≤ c.toNat && c.toNat ≤ 0x0d) || [0x20, 0x85, 0xa0, 0x1680].contains c.toNat ||
    (0x2000 ≤ c.toNat && c.toNat ≤ 0x200a) || [0x2028, 0x2029, 0x202f, 0x205f, 0x3000].contains c.toNat

def rustTrim (s : List Char) : List Char := (s.dropWhile isWhitespace).rdropWhile isWhitespace

/-- The body of `slugify_tag`'s loop: what is out, and whether a hyphen is pending. -/
def slugStep (state : List Char × Bool) (ch : Char) : List Char × Bool :=
  let lowered := ch.toLower
  if lowered.isAlphanum then
    ((if state.2 && !state.1.isEmpty then state.1 ++ ['-'] else state.1) ++ [lowered], false)
  else (state.1, true)

/-- `slugify_tag`. -/
def Builder.slugifyTag (val : String) : String := String.ofList ((rustTrim val.toList).foldl slugStep ([], false)).1

/-! ## The builder's loop -/

theorem isSlugChar_sep : isSlugChar '-' = false := by decide

theorem isSlugChar_iff (c : Char) :
    isSlugChar c = true ↔ (0x61 ≤ c.toNat ∧ c.toNat ≤ 0x7a) ∨ (0x30 ≤ c.toNat ∧ c.toNat ≤ 0x39) := by
  have hle : ∀ a b : Char, (decide (a ≤ b) = true) ↔ a.toNat ≤ b.toNat := fun a b => by
    rw [decide_eq_true_eq]
    exact Iff.rfl
  simp only [isSlugChar, Bool.or_eq_true, Bool.and_eq_true, hle]
  exact Iff.rfl

variable {c : Char}

theorem isSlugChar_of_wide (h : 0x80 ≤ c.toNat) : isSlugChar c = false := by
  rw [Bool.eq_false_iff, Ne, isSlugChar_iff]
  omega

theorem toLower_cases (c : Char) : (0x41 ≤ c.toNat ∧ c.toNat ≤ 0x5a ∧ c.toLower.toNat = c.toNat + 32) ∨
      (¬ (0x41 ≤ c.toNat ∧ c.toNat ≤ 0x5a) ∧ c.toLower = c) := by
  have hrange : (c.val ≥ 'A'.val ∧ c.val ≤ 'Z'.val) ↔ (0x41 ≤ c.toNat ∧ c.toNat ≤ 0x5a) := by
    rw [ge_iff_le, UInt32.le_iff_toNat_le, UInt32.le_iff_toNat_le]
    exact Iff.rfl
  by_cases h : c.val ≥ 'A'.val ∧ c.val ≤ 'Z'.val
  · obtain ⟨hlow, hhigh⟩ := hrange.mp h
    have hval : c.toLower.val = c.val + ('a'.val - 'A'.val) := by unfold Char.toLower; rw [dif_pos h]
    have hnat : c.toLower.toNat = c.toNat + 32 := by
      have hadd : c.toLower.val.toNat = (c.val.toNat + 32) % 2 ^ 32 := by
        rw [hval, UInt32.toNat_add]
        rfl
      have hlt : c.val.toNat ≤ 0x5a := hhigh
      exact hadd.trans (Nat.mod_eq_of_lt (by omega))
    exact .inl ⟨hlow, hhigh, hnat⟩
  · exact .inr ⟨fun hin => h (hrange.mpr hin), dif_neg h⟩

theorem toLower_of_wide (h : 0x80 ≤ c.toNat) : c.toLower = c := by
  rcases toLower_cases c with ⟨-, hhigh, -⟩ | ⟨-, hsame⟩
  · omega
  · exact hsame

theorem isAlphanum_toLower (c : Char) : c.toLower.isAlphanum = isSlugChar c.toLower := by
  have hbound : ¬ (0x41 ≤ c.toLower.toNat ∧ c.toLower.toNat ≤ 0x5a) := by
    rcases toLower_cases c with ⟨hlow, hhigh, hnat⟩ | ⟨hout, hsame⟩
    · omega
    · rwa [hsame]
  have hspec : c.toLower.isAlphanum = true ↔ (0x41 ≤ c.toLower.toNat ∧ c.toLower.toNat ≤ 0x5a) ∨
      (0x61 ≤ c.toLower.toNat ∧ c.toLower.toNat ≤ 0x7a) ∨ (0x30 ≤ c.toLower.toNat ∧ c.toLower.toNat ≤ 0x39) := by
    unfold Char.isAlphanum Char.isAlpha Char.isUpper Char.isLower Char.isDigit
    simp only [Bool.or_eq_true, Bool.and_eq_true, decide_eq_true_eq, ge_iff_le, UInt32.le_iff_toNat_le, or_assoc]
    exact Iff.rfl
  rw [Bool.eq_iff_iff, hspec, isSlugChar_iff]
  omega

/-- The loop collects the joined words of what it lowers. Induction on what is left. -/
theorem foldl_slugStep (s out : List Char) (pending : Bool) :
    (s.foldl slugStep (out, pending)).1 = out ++ joined isSlugChar '-' (!out.isEmpty) pending (s.map Char.toLower) := by
  induction s generalizing out pending with
  | nil => exact (List.append_nil out).symm
  | cons c s ih =>
    rw [List.foldl_cons, List.map_cons, slugStep]
    simp only [isAlphanum_toLower]
    rw [joined]
    by_cases hc : isSlugChar c.toLower = true
    · rw [if_pos hc, if_pos hc, ih]
      have hne : (!((if pending && !out.isEmpty then out ++ ['-'] else out) ++ [c.toLower]).isEmpty) = true := by simp
      rw [hne]
      split
      · simp
      · simp
    · rw [if_neg hc, if_neg hc, ih]

theorem isSlugChar_toLower_of_space (h : isWhitespace c = true) : isSlugChar c.toLower = false := by
  rw [Bool.eq_false_iff, Ne, isSlugChar_iff]
  simp only [isWhitespace, Bool.or_eq_true, Bool.and_eq_true, decide_eq_true_eq, List.contains_eq_mem, List.mem_cons,
    List.not_mem_nil, or_false] at h
  rcases toLower_cases c with ⟨hlow, hhigh, -⟩ | ⟨-, hsame⟩
  · omega
  · rw [hsame]
    omega

theorem isSlugChar_toLower_of_pySpace (h : pySpace c = true) : isSlugChar c.toLower = false := by
  rw [Bool.eq_false_iff, Ne, isSlugChar_iff]
  simp only [pySpace, List.contains_eq_mem, decide_eq_true_eq, List.mem_cons, List.not_mem_nil, or_false] at h
  rcases toLower_cases c with ⟨hlow, hhigh, -⟩ | ⟨-, hsame⟩
  · omega
  · rw [hsame]
    omega

theorem slugifyTag_builder (val : String) :
    Builder.slugifyTag val = String.ofList (joined isSlugChar '-' false false (val.toList.map Char.toLower)) := by
  rw [Builder.slugifyTag, foldl_slugStep, List.nil_append, rustTrim]
  congr 1
  exact joined_strip (fun c hc => isSlugChar_toLower_of_space hc) val.toList

theorem pyStrip_toList (val : String) : (pyStrip val).toList = (val.toList.dropWhile pySpace).rdropWhile pySpace := by
  rw [pyStrip, String.toList_ofList]
  rfl

/-! ## The parser's -/

variable {tables}

/-- The two letters whose lower case has an ASCII letter. -/
def Parting (c : Char) : Bool := c = KELVIN_SIGN || c = CAPITAL_I_WITH_DOT

theorem lowerCp_ascii (h : c.toNat < 0x80) (before after : List Char) : lowerCp tables before c after = [c.toLower] := by
  have hsigma : c ≠ CAPITAL_SIGMA := by
    rintro rfl
    exact absurd h (by decide)
  have hexception : c.toNat ∉ LOWER_EXCEPTIONS := by
    intro hmem
    have hall : ∀ cp ∈ LOWER_EXCEPTIONS, 0x80 ≤ cp := by decide
    have hle := hall _ hmem
    omega
  rw [lowerCp, if_neg hsigma, if_neg hexception, tables.ascii c h]

theorem lowerCp_wide (h : 0x80 ≤ c.toNat) (hparting : Parting c = false) (before after : List Char) :
    lowerCp tables before c after ≠ [] ∧ ∀ d ∈ lowerCp tables before c after, isSlugChar d = false := by
  simp only [Parting, Bool.or_eq_false_iff, decide_eq_false_iff_not] at hparting
  rw [lowerCp]
  by_cases hsigma : c = CAPITAL_SIGMA
  · rw [if_pos hsigma]
    refine ⟨List.cons_ne_nil _ _, ?_⟩
    intro d hd
    obtain rfl := List.mem_singleton.mp hd
    apply isSlugChar_of_wide
    rw [lowerSigma]
    split <;> decide
  · rw [if_neg hsigma]
    by_cases hexception : c.toNat ∈ LOWER_EXCEPTIONS
    · rw [if_pos hexception]
      refine ⟨List.cons_ne_nil _ _, ?_⟩
      intro d hd
      obtain rfl := List.mem_singleton.mp hd
      exact isSlugChar_of_wide h
    · rw [if_neg hexception]
      obtain ⟨hne, hwide⟩ := tables.wide c h hparting.1 hparting.2
      exact ⟨hne, fun d hd => isSlugChar_of_wide (hwide d hd)⟩

theorem lowerCp_parting (h : Parting c = true) (before after : List Char) :
    ((lowerCp tables before c after).filter isSlugChar).length = 1 := by
  simp only [Parting, Bool.or_eq_true, decide_eq_true_eq] at h
  rcases h with rfl | rfl
  · rw [lowerCp, if_neg (by decide), if_neg (by decide), tables.kelvinSign]
    decide
  · rw [lowerCp, if_neg (by decide), if_neg (by decide), tables.capitalIWithDot]
    decide

theorem wide_of_parting (h : Parting c = true) : 0x80 ≤ c.toNat := by
  simp only [Parting, Bool.or_eq_true, decide_eq_true_eq] at h
  rcases h with rfl | rfl <;> decide

/-- Without the two letters both sides lower to the same words. Induction on the text. -/
theorem joined_pyLowerFrom {s : List Char} (h : ∀ c ∈ s, Parting c = false) (before : List Char) (started pending : Bool) :
    joined isSlugChar '-' started pending (pyLowerFrom tables before s) =
      joined isSlugChar '-' started pending (s.map Char.toLower) := by
  induction s generalizing before started pending with
  | nil => rfl
  | cons c s ih =>
    have hrest := fun before => ih (fun c hc => h c (List.mem_cons_of_mem _ hc)) before
    rw [pyLowerFrom, List.map_cons]
    by_cases hascii : c.toNat < 0x80
    · rw [lowerCp_ascii hascii, List.singleton_append, joined, joined, hrest, hrest]
    · obtain ⟨hne, hothers⟩ := @lowerCp_wide tables c (by omega) (h c (by simp)) before s
      have hc : ¬ isSlugChar c.toLower = true := by
        rw [toLower_of_wide (by omega), isSlugChar_of_wide (by omega)]
        exact Bool.false_ne_true
      rw [joined_others hothers hne, hrest, joined, if_neg hc]

/-- Lowering adds one slug character for each of the two letters. Induction on the text. -/
theorem length_filter_pyLowerFrom (s before : List Char) : ((pyLowerFrom tables before s).filter isSlugChar).length =
      ((s.map Char.toLower).filter isSlugChar).length + s.countP Parting := by
  induction s generalizing before with
  | nil => rfl
  | cons c s ih =>
    rw [pyLowerFrom, List.filter_append, List.length_append, ih, List.map_cons, List.filter_cons, List.countP_cons]
    by_cases hascii : c.toNat < 0x80
    · have hparting : ¬ Parting c = true := by
        intro hc
        have hwide := wide_of_parting hc
        omega
      rw [lowerCp_ascii hascii, if_neg hparting]
      by_cases hslug : isSlugChar c.toLower = true
      · rw [if_pos hslug, List.filter_cons_of_pos hslug, List.filter_nil, List.length_singleton, List.length_cons]
        omega
      · rw [if_neg hslug, List.filter_cons_of_neg hslug, List.filter_nil, List.length_nil]
        omega
    · have hc : ¬ isSlugChar c.toLower = true := by
        rw [toLower_of_wide (by omega), isSlugChar_of_wide (by omega)]
        exact Bool.false_ne_true
      rw [if_neg hc]
      by_cases hparting : Parting c = true
      · rw [lowerCp_parting hparting, if_pos hparting]
        omega
      · obtain ⟨-, hothers⟩ := @lowerCp_wide tables c (by omega) (Bool.eq_false_iff.mpr hparting) before s
        have hnone : (lowerCp tables before c s).filter isSlugChar = [] := by
          rw [List.filter_eq_nil_iff]
          intro d hd
          rw [hothers d hd]
          exact Bool.false_ne_true
        rw [hnone, if_neg hparting, List.length_nil]
        omega

theorem parser_slugifyTag (val : String) : slugifyTag tables val =
      String.ofList (joined isSlugChar '-' false false (pyLowerFrom tables [] (pyStrip val).toList)) := by
  rw [slugifyTag, trim_collapsed isSlugChar_sep, pyLower, String.toList_ofList]

theorem countP_pyStrip (val : String) : (pyStrip val).toList.countP Parting = val.toList.countP Parting := by
  have hspace : ∀ c, pySpace c = true → ¬ Parting c = true := by
    intro c hc hparting
    simp only [Parting, Bool.or_eq_true, decide_eq_true_eq] at hparting
    rcases hparting with rfl | rfl <;> exact absurd hc (by decide)
  have hend : ∀ s : List Char, (s.rdropWhile pySpace).countP Parting = s.countP Parting := by
    intro s
    have hsplit : s.rdropWhile pySpace ++ s.rtakeWhile pySpace = s := by
      rw [List.rdropWhile, List.rtakeWhile, ← List.reverse_append, List.takeWhile_append_dropWhile, List.reverse_reverse]
    have hzero : (s.rtakeWhile pySpace).countP Parting = 0 :=
      List.countP_eq_zero.mpr fun c hc => hspace c (List.mem_rtakeWhile_imp hc)
    conv_rhs => rw [← hsplit]
    rw [List.countP_append, hzero, Nat.add_zero]
  have hzero : (val.toList.takeWhile pySpace).countP Parting = 0 :=
    List.countP_eq_zero.mpr fun c hc => hspace c (List.mem_takeWhile_imp hc)
  have hsplit := congrArg (List.countP Parting) (@List.takeWhile_append_dropWhile _ pySpace val.toList)
  rw [List.countP_append, hzero, Nat.zero_add] at hsplit
  rw [pyStrip_toList, hend, hsplit]

theorem slugifyTag_builder_pyStrip (val : String) : Builder.slugifyTag val =
    String.ofList (joined isSlugChar '-' false false ((pyStrip val).toList.map Char.toLower)) := by
  rw [slugifyTag_builder, pyStrip_toList, joined_strip fun c hc => isSlugChar_toLower_of_pySpace hc]

/-- **The slugs agree exactly without the two letters.** -/
theorem slugs_agree_iff (tables : CaseTables) (val : String) :
    slugifyTag tables val = Builder.slugifyTag val ↔
      KELVIN_SIGN ∉ val.toList ∧ CAPITAL_I_WITH_DOT ∉ val.toList := by
  have hcount : val.toList.countP Parting = 0 ↔ KELVIN_SIGN ∉ val.toList ∧ CAPITAL_I_WITH_DOT ∉ val.toList := by
    rw [List.countP_eq_zero]
    constructor
    · intro h
      exact ⟨fun hmem => h _ hmem (by decide), fun hmem => h _ hmem (by decide)⟩
    · rintro ⟨hkelvin, hdot⟩ c hc hparting
      simp only [Parting, Bool.or_eq_true, decide_eq_true_eq] at hparting
      rcases hparting with rfl | rfl
      · exact hkelvin hc
      · exact hdot hc
  rw [← hcount, parser_slugifyTag, slugifyTag_builder_pyStrip, String.ofList_inj, ← countP_pyStrip]
  constructor
  · intro heq
    -- the slug characters of equal slugs are as many
    have hlen := congrArg (fun slug => (slug.filter isSlugChar).length) heq
    simp only [filter_joined isSlugChar_sep, length_filter_pyLowerFrom] at hlen
    omega
  · intro hzero
    apply joined_pyLowerFrom
    intro c hc
    exact Bool.eq_false_iff.mpr (List.countP_eq_zero.mp hzero c hc)

def asciiTables : CaseTables where
  isCased c := c.isAlpha
  isCaseIgnorable _ := false
  toLowerCase c := if c = KELVIN_SIGN then ['k'] else if c = CAPITAL_I_WITH_DOT then ['i', Char.ofNat 0x307] else [c.toLower]
  ascii c h := by
    have hkelvin : c ≠ KELVIN_SIGN := by
      rintro rfl
      exact absurd h (by decide)
    have hdot : c ≠ CAPITAL_I_WITH_DOT := by
      rintro rfl
      exact absurd h (by decide)
    rw [if_neg hkelvin, if_neg hdot]
  kelvinSign := rfl
  capitalIWithDot := rfl
  wide c h hkelvin hdot := by
    rw [if_neg hkelvin, if_neg hdot, toLower_of_wide h]
    exact ⟨List.cons_ne_nil _ _, fun d hd => by rwa [List.mem_singleton.mp hd]⟩

/-- **A Kelvin sign is stored under no slug and asked for as `k`.** -/
theorem slugs_part_at_kelvin_sign :
    slugifyTag asciiTables (String.ofList [KELVIN_SIGN]) ≠ Builder.slugifyTag (String.ofList [KELVIN_SIGN]) ∧
      slugifyTag asciiTables (String.ofList [KELVIN_SIGN]) = "k" ∧ Builder.slugifyTag (String.ofList [KELVIN_SIGN]) = "" := by
  decide +kernel

end TagSlugs
