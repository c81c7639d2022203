-- SUMMARY: Where a quoted, regex or mana span starts and where it ends.
import Sylvan.Parser.PyStr

/-!
# Spans

The rules on characters that the lexer and the balancer share. A query is read from
the left; what is left of it stands for the index into it.
-/

namespace Spans

def BACKSLASH : Char := Char.ofNat 0x5c
def APOSTROPHE : Char := Char.ofNat 0x27
def QUOTE : Char := Char.ofNat 0x22

/-- `QUOTE_CHARS.has(c)`. -/
def isQuote (c : Char) : Bool := c = APOSTROPHE || c = QUOTE

/-- The last character of every comparison operator. -/
def isComparisonTail (c : Char) : Bool := c = ':' || c = '=' || c = '>' || c = '<'

/-- Whether a `/` opens a regex, the characters before it read back from it. -/
def opensRegex (before : List Char) : Bool :=
  ((before.dropWhile pySpace).head?.map isComparisonTail).getD false

/-- The content up to the next closing brace, and what follows the brace. -/
def braceClose : List Char → Option (List Char × List Char)
  | [] => none
  | c :: cs => if c = '}' then some ([], cs) else (braceClose cs).map fun (s, rest) => (c :: s, rest)

structure CloseSearch where
  /-- The content up to the next unescaped closer, and what follows it. -/
  close : Option (List Char × List Char)
  /-- The walk ran to the end of the query on a backslash. -/
  danglingEscape : Bool
  sawEscape : Bool

def CloseSearch.over (s : List Char) (found : CloseSearch) : CloseSearch :=
  { found with close := found.close.map fun (content, rest) => (s ++ content, rest) }

/-- The walk stepped over the escape `s`. -/
def CloseSearch.escaped (s : List Char) (found : CloseSearch) : CloseSearch :=
  { found.over s with sawEscape := true }

/-- The next `closer` outside a backslash escape. -/
def findClose (closer : Char) : List Char → CloseSearch
  | [] => { close := none, danglingEscape := false, sawEscape := false }
  | c :: cs =>
    if c = BACKSLASH then
      match cs with
      | [] => { close := none, danglingEscape := true, sawEscape := true }
      | d :: ds => (findClose closer ds).escaped [c, d]
    else if c = closer then { close := some ([], cs), danglingEscape := false, sawEscape := false }
    else (findClose closer cs).over [c]

def unescapeSpan : List Char → List Char
  | [] => []
  | [c] => [c]
  | c :: d :: cs => if c = BACKSLASH then d :: unescapeSpan cs else c :: unescapeSpan (d :: cs)

/-- `content.replaceAll("\\/", "/")`. -/
def unescapeSlashes : List Char → List Char
  | [] => []
  | [c] => [c]
  | c :: d :: cs =>
    if c = BACKSLASH ∧ d = '/' then d :: unescapeSlashes cs else c :: unescapeSlashes (d :: cs)

/-! ## What a span's end splits -/

attribute [local simp] braceClose findClose

variable {cs content rest : List Char}

theorem braceClose_eq_some : braceClose cs = some (content, rest) ↔ cs = content ++ '}' :: rest ∧ '}' ∉ content := by
  induction cs generalizing content with
  | nil => simp
  | cons c cs ih =>
    rw [braceClose]
    cases content with
    | nil => by_cases hc : c = '}' <;> simp [Option.map_eq_some_iff, hc]
    | cons d content =>
      split
      · next hc => simp +contextual [hc, eq_comm]
      · next hc =>
        simp only [Option.map_eq_some_iff, Prod.exists, Prod.mk.injEq, List.cons.injEq, List.cons_append, List.mem_cons, not_or]
        constructor
        · rintro ⟨s, r, hs, ⟨rfl, rfl⟩, rfl⟩
          exact ⟨⟨rfl, (ih.mp hs).1⟩, Ne.symm hc, (ih.mp hs).2⟩
        · rintro ⟨⟨rfl, hcs⟩, -, hcontent⟩
          exact ⟨_, _, ih.mpr ⟨hcs, hcontent⟩, ⟨rfl, rfl⟩, rfl⟩

theorem braceClose_eq (h : braceClose cs = some (content, rest)) : cs = content ++ '}' :: rest :=
  (braceClose_eq_some.mp h).1

theorem CloseSearch.over_close {s content rest : List Char} {found : CloseSearch}
    (h : (found.over s).close = some (content, rest)) :
    ∃ inner, found.close = some (inner, rest) ∧ content = s ++ inner := by
  obtain ⟨⟨inner, r⟩, hinner, heq⟩ := Option.map_eq_some_iff.mp h
  obtain ⟨rfl, rfl⟩ := Prod.mk.inj heq
  exact ⟨inner, hinner, rfl⟩

variable {closer : Char}

theorem findClose_eq (h : (findClose closer cs).close = some (content, rest)) : cs = content ++ closer :: rest := by
  fun_induction findClose closer cs generalizing content with
  | case1 => cases h
  | case2 => cases h
  | case3 d ds ih =>
    obtain ⟨inner, hinner, rfl⟩ := CloseSearch.over_close h
    rw [ih hinner]
    rfl
  | case4 cs hc =>
    obtain ⟨rfl, rfl⟩ := Prod.mk.inj (Option.some.inj h)
    rfl
  | case5 c cs hc hcloser ih =>
    obtain ⟨inner, hinner, rfl⟩ := CloseSearch.over_close h
    rw [ih hinner]
    rfl

/-! ## A span before another text, and a span cut short -/

theorem braceClose_append (h : braceClose cs = some (content, rest))
    (x : List Char) : braceClose (content ++ '}' :: x) = some (content, x) :=
  braceClose_eq_some.mpr ⟨rfl, (braceClose_eq_some.mp h).2⟩

theorem braceClose_cut {cs content rest g : List Char} (h : braceClose cs = some (content, rest))
    (hg : g <+: content) :
    braceClose g = none ∧ ∀ x, braceClose (g ++ '}' :: x) = some (g, x) := by
  have hmem : '}' ∉ g := fun hmem => (braceClose_eq_some.mp h).2 (hg.subset hmem)
  refine ⟨?_, fun x => braceClose_eq_some.mpr ⟨rfl, hmem⟩⟩
  cases hclose : braceClose g with
  | none => rfl
  | some close => exact absurd (braceClose_eq hclose ▸ by simp) hmem

theorem findClose_closer (hcloser : closer ≠ BACKSLASH) (x : List Char) : findClose closer (closer :: x) =
      { close := some ([], x), danglingEscape := false, sawEscape := false } := by
  cases x <;> exact (if_neg hcloser).trans (if_pos rfl)

theorem findClose_escape (closer d : Char) (x : List Char) :
    findClose closer (BACKSLASH :: d :: x) = (findClose closer x).escaped [BACKSLASH, d] :=
  if_pos rfl

theorem findClose_over {closer c : Char} (hc : c ≠ BACKSLASH) (hne : c ≠ closer) (x : List Char) :
    findClose closer (c :: x) = (findClose closer x).over [c] := by
  cases x <;> exact (if_neg hc).trans (if_neg hne)

theorem findClose_append (h : (findClose closer cs).close = some (content, rest)) (x : List Char) :
    findClose closer (content ++ closer :: x) =
      { findClose closer cs with close := some (content, x) } := by
  fun_induction findClose closer cs generalizing content with
  | case1 => cases h
  | case2 => cases h
  | case3 d ds ih =>
    obtain ⟨inner, hinner, rfl⟩ := CloseSearch.over_close h
    simp only [List.cons_append, List.nil_append]
    rw [findClose_escape, ih hinner]
    rfl
  | case4 cs hc =>
    obtain ⟨rfl, rfl⟩ := Prod.mk.inj (Option.some.inj h)
    exact findClose_closer hc x
  | case5 c cs hc hcloser ih =>
    obtain ⟨inner, hinner, rfl⟩ := CloseSearch.over_close h
    simp only [List.cons_append, List.nil_append]
    rw [findClose_over hc hcloser, ih hinner]
    rfl

theorem findClose_cut (hcloser : closer ≠ BACKSLASH) {cs content rest g : List Char}
    (h : (findClose closer cs).close = some (content, rest)) (hg : g <+: content) :
    (findClose closer g).close = none ∧ ∀ x, ∃ inner, (findClose closer (g ++ ((if (findClose closer g).danglingEscape then
        [BACKSLASH] else []) ++ closer :: x))).close = some (inner, x) := by
  have hnil : (findClose closer []).close = none ∧
      ∀ x, ∃ inner, (findClose closer ([] ++ ((if (findClose closer []).danglingEscape then
        [BACKSLASH] else []) ++ closer :: x))).close = some (inner, x) :=
    ⟨rfl, fun x => ⟨[], congrArg CloseSearch.close (findClose_closer hcloser x)⟩⟩
  fun_induction findClose closer cs generalizing content g with
  | case1 => cases h
  | case2 => cases h
  | case3 d ds ih =>
    obtain ⟨inner, hinner, rfl⟩ := CloseSearch.over_close h
    match g, hg with
    | [], _ => exact hnil
    | [c], hg =>
      obtain ⟨rfl, -⟩ := List.cons_prefix_cons.mp hg
      refine ⟨rfl, fun x => ⟨[BACKSLASH, BACKSLASH], ?_⟩⟩
      have hdangling : (findClose closer [BACKSLASH]).danglingEscape = true := rfl
      rw [hdangling, if_pos rfl]
      simp only [List.cons_append, List.nil_append]
      rw [findClose_escape, findClose_closer hcloser]
      rfl
    | c :: e :: g, hg =>
      obtain ⟨rfl, htail⟩ := List.cons_prefix_cons.mp hg
      obtain ⟨rfl, hinnerPrefix⟩ := List.cons_prefix_cons.mp htail
      obtain ⟨hnone, hsome⟩ := ih hinner hinnerPrefix
      rw [findClose_escape]
      refine ⟨by simp [CloseSearch.escaped, CloseSearch.over, hnone], fun x => ?_⟩
      obtain ⟨content, hcontent⟩ := hsome x
      refine ⟨[BACKSLASH, e] ++ content, ?_⟩
      simp only [List.cons_append]
      rw [findClose_escape]
      exact congrArg (Option.map fun (p : List Char × List Char) => ([BACKSLASH, e] ++ p.1, p.2))
        hcontent
  | case4 cs hc =>
    obtain ⟨rfl, rfl⟩ := Prod.mk.inj (Option.some.inj h)
    obtain rfl := List.prefix_nil.mp hg
    exact hnil
  | case5 c cs hc hne ih =>
    obtain ⟨inner, hinner, rfl⟩ := CloseSearch.over_close h
    match g, hg with
    | [], _ => exact hnil
    | e :: g, hg =>
      obtain ⟨rfl, htail⟩ := List.cons_prefix_cons.mp hg
      obtain ⟨hnone, hsome⟩ := ih hinner htail
      rw [findClose_over hc hne]
      refine ⟨by simp [CloseSearch.over, hnone], fun x => ?_⟩
      obtain ⟨content, hcontent⟩ := hsome x
      refine ⟨e :: content, ?_⟩
      rw [List.cons_append, findClose_over hc hne]
      exact congrArg (Option.map fun (p : List Char × List Char) => ([e] ++ p.1, p.2)) hcontent

end Spans
