-- SUMMARY: The grammar of the patterns PostgreSQL compiles, and the scan's answer against it.
import Mathlib.Data.List.TakeWhile
import Sylvan.Data.Members
import Sylvan.Compat.RegexSyntax

/-!
# Regex grammar

What may stand in a pattern, said of texts; then what the scan reads of one, and last the
scan against the grammar. A pattern that ends in a lone backslash is the scan's own.
-/

namespace RegexSyntax

/-! ## Escapes and bracket expressions -/

inductive Escape : List Char → Prop where
  | plain {c : Char} (hc : c.isAlpha = false) : Escape [c]
  | letter {c : Char} (hc : c.toLower ∈ VALID_ESCAPE_LETTERS) : Escape [c]
  | hex {c : Char} {ds : List Char} (hc : c.toLower = 'x') (hne : ds ≠ [])
      (hds : ∀ d ∈ ds, isHexDigit d = true) : Escape (c :: ds)
  | unicode {c : Char} {ds : List Char} (hc : c.toLower = 'u') (hlen : ds.length = 4)
      (hds : ∀ d ∈ ds, isHexDigit d = true) : Escape (c :: ds)
  | control {c d : Char} (hc : c.toLower = 'c') : Escape [c, d]

def NoEscape (cs : List Char) : Prop :=
  cs ≠ [] ∧ ∀ used rest, cs = used ++ rest → ¬ Escape used

/-- The items of a bracket expression from here, up to where `stop` holds. -/
inductive Items (stop : List Char → Prop) : List Char → Prop where
  | stop {cs : List Char} (h : stop cs) : Items stop cs
  | escape {used cs : List Char} (he : Escape used) (h : Items stop cs) :
      Items stop (BACKSLASH :: (used ++ cs))
  /-- `[:…:]`, `[.….]` or `[=…=]`. -/
  | named {d : Char} {name cs : List Char} (hd : d = ':' ∨ d = '.' ∨ d = '=')
      (hname : ¬ [d, ']'] <:+: name ++ [d]) (h : Items stop cs) :
      Items stop ('[' :: d :: (name ++ d :: ']' :: cs))
  | char {c : Char} {cs : List Char} (hb : c ≠ BACKSLASH) (hc : c ≠ ']')
      (hn : opensClass c cs = false) (h : Items stop cs) : Items stop (c :: cs)

def BadEscape (cs : List Char) : Prop := ∃ tail, cs = BACKSLASH :: tail ∧ NoEscape tail

/-- The pattern's end, or a `[:`, `[.` or `[=` that nothing closes. -/
def Unclosed (cs : List Char) : Prop :=
  cs = [] ∨ cs = [BACKSLASH] ∨ ∃ d ds, cs = '[' :: d :: ds ∧ (d = ':' ∨ d = '.' ∨ d = '=') ∧ ¬ [d, ']'] <:+: ds

def Bracket (cs rest : List Char) : Prop :=
  ∃ body, cs = '[' :: body ∧ Items (· = ']' :: rest) (bracketHead body)

/-! ## Quantifiers and comments -/

def Digits (ds : List Char) : Prop := ds ≠ [] ∧ ∀ d ∈ ds, d.isDigit = true

def count (ds : List Char) : ℕ := Nat.ofDigitChars 10 ds 0

/-- `{m}`, `{m,}` or `{m,n}`; `none` is no upper bound. -/
inductive Bound : List Char → ℕ → Option ℕ → Prop where
  | exactly {m : List Char} (hm : Digits m) : Bound ('{' :: (m ++ ['}'])) (count m) (some (count m))
  | atLeast {m : List Char} (hm : Digits m) : Bound ('{' :: (m ++ [',', '}'])) (count m) none
  | between {m n : List Char} (hm : Digits m) (hn : Digits n) :
      Bound ('{' :: (m ++ ',' :: (n ++ ['}']))) (count m) (some (count n))

inductive Quantifier : List Char → Prop where
  | star : Quantifier ['*']
  | plus : Quantifier ['+']
  | question : Quantifier ['?']
  /-- `m ≤ n ≤ 255`. -/
  | bound {q : List Char} {low : ℕ} {high : Option ℕ} (hq : Bound q low high)
      (hlow : low ≤ MAX_REPETITION_COUNT)
      (hhigh : ∀ n ∈ high, n ≤ MAX_REPETITION_COUNT ∧ low ≤ n) : Quantifier q

/-- `(?#…)`. -/
inductive Comment : List Char → Prop where
  | mk {text : List Char} (h : ')' ∉ text) : Comment ('(' :: '?' :: '#' :: (text ++ [')']))

inductive Comments : List Char → Prop where
  | nil : Comments []
  | cons {c cs : List Char} (hc : Comment c) (h : Comments cs) : Comments (c ++ cs)

/-- What may follow an atom: one quantifier, and one lazy `?`. -/
inductive Quantified : List Char → Prop where
  | once : Quantified []
  | greedy {cs q : List Char} (hcs : Comments cs) (hq : Quantifier q) : Quantified (cs ++ q)
  | lazy {cs q ds : List Char} (hcs : Comments cs) (hq : Quantifier q) (hds : Comments ds) :
      Quantified (cs ++ (q ++ (ds ++ ['?'])))

/-! ## Patterns -/

/-- A character that stands for itself wherever it is. -/
def isLiteral (c : Char) : Bool :=
  !(c = BACKSLASH || c = '[' || c = '(' || c = ')' || c = '|' || c = '^' || c = '$' || c = '*'
    || c = '+' || c = '?' || c = '{')

def openers (lookaround : Bool) : List (List Char) :=
  if lookaround then [['(', '?', '='], ['(', '?', '!'], ['(', '?', '<', '='], ['(', '?', '<', '!']]
  else [['('], ['(', '?', ':']]

inductive Part where
  | alternation
  | branch
  | atom
  | constraint

/-- The grammar: alternations of branches of atoms and constraints. -/
inductive Derives : Part → List Char → Prop where
  | single {b : List Char} (hb : Derives .branch b) : Derives .alternation b
  | bar {b a : List Char} (hb : Derives .branch b) (ha : Derives .alternation a) :
      Derives .alternation (b ++ '|' :: a)
  | nil : Derives .branch []
  | quantified {a q b : List Char} (ha : Derives .atom a) (hq : Quantified q)
      (hb : Derives .branch b) : Derives .branch (a ++ (q ++ b))
  /-- A `{` with no digit behind it is a literal. -/
  | brace {q b : List Char} (hq : Quantified q) (hb : Derives .branch b)
      (hnext : (q ++ b).head?.any Char.isDigit = false) : Derives .branch ('{' :: (q ++ b))
  | constraint {c b : List Char} (hc : Derives .constraint c) (hb : Derives .branch b) :
      Derives .branch (c ++ b)
  | comment {c b : List Char} (hc : Comment c) (hb : Derives .branch b) : Derives .branch (c ++ b)
  | literal {c : Char} (hc : isLiteral c = true) : Derives .atom [c]
  | escape {e : List Char} (he : Escape e) (hc : isConstraint e = false) :
      Derives .atom (BACKSLASH :: e)
  | bracket {b : List Char} (hb : Bracket b []) : Derives .atom b
  | group {o a : List Char} (ho : o ∈ openers false) (ha : Derives .alternation a) :
      Derives .atom (o ++ (a ++ [')']))
  | anchor {c : Char} (hc : c = '^' ∨ c = '$') : Derives .constraint [c]
  | constraintEscape {e : List Char} (he : Escape e) (hc : isConstraint e = true) :
      Derives .constraint (BACKSLASH :: e)
  | lookaround {o a : List Char} (ho : o ∈ openers true) (ha : Derives .alternation a) :
      Derives .constraint (o ++ (a ++ [')']))

/-! ## What is read of escapes -/

variable {c : Char}

theorem isAlpha_of_toLower (h : c.toLower.isAlpha = true) : c.isAlpha = true := by
  by_contra hc
  have hupper : ¬ (c.val ≥ 'A'.val ∧ c.val ≤ 'Z'.val) := fun hu => hc (by
    unfold Char.isAlpha Char.isUpper
    simp [show c.val ≥ 65 from hu.1, show c.val ≤ 90 from hu.2])
  unfold Char.toLower at h
  rw [dif_neg hupper] at h
  exact hc h

theorem escape_of {used : List Char} (cs : List Char) (he : Escape used) :
    ∃ more rest, cs = more ++ rest ∧ (∀ d ∈ more, isHexDigit d = true) ∧ escape (used ++ cs) = some (used ++ more, rest) ∧
      isConstraint (used ++ more) = isConstraint used := by
  cases he with
  | @plain c hc => exact ⟨[], cs, rfl, nofun, by simp [escape, hc], rfl⟩
  | @letter c hc =>
    refine ⟨[], cs, rfl, nofun, ?_, rfl⟩
    have hletters : ∀ d ∈ VALID_ESCAPE_LETTERS, d.isAlpha = true ∧ d ≠ 'x' ∧ d ≠ 'u' ∧ d ≠ 'c' := by decide
    obtain ⟨halpha, hx, hu, hcc⟩ := hletters _ hc
    simp [escape, isAlpha_of_toLower halpha, hx, hu, hcc, hc]
  | @hex c ds hc hne hds =>
    refine ⟨cs.takeWhile isHexDigit, cs.dropWhile isHexDigit,
      List.takeWhile_append_dropWhile.symm, fun d hd => List.mem_takeWhile_imp hd, ?_, ?_⟩
    · have halpha : c.isAlpha = true := isAlpha_of_toLower (by rw [hc]; decide)
      have hhead : (ds ++ cs).head?.any isHexDigit = true := by
        cases ds with
        | nil => exact absurd rfl hne
        | cons d ds => simpa using hds d List.mem_cons_self
      rw [List.cons_append, escape.eq_def]
      simp only [halpha, hc, hhead, List.takeWhile_append_of_pos hds,
        List.dropWhile_append_of_pos hds, Bool.not_true, Bool.false_eq_true, if_false, if_true,
        List.cons_append]
    · cases ds with
      | nil => exact absurd rfl hne
      | cons d ds => rfl
  | @unicode c ds hc hlen hds =>
    refine ⟨[], cs, rfl, nofun, ?_, by simp⟩
    have halpha : c.isAlpha = true := isAlpha_of_toLower (by rw [hc]; decide)
    have htake : (ds ++ cs).take 4 = ds := by rw [← hlen, List.take_left]
    have hdrop : (ds ++ cs).drop 4 = cs := by rw [← hlen, List.drop_left]
    have hall : ds.all isHexDigit = true := List.all_eq_true.mpr hds
    simp [escape, halpha, hc, htake, hdrop, hlen, hall]
  | @control c d hc =>
    refine ⟨[], cs, rfl, nofun, ?_, rfl⟩
    have halpha : c.isAlpha = true := isAlpha_of_toLower (by rw [hc]; decide)
    simp [escape, halpha, hc]

theorem escape_spec {cs used rest : List Char} (h : escape cs = some (used, rest)) (hne : cs ≠ []) : Escape used := by
  cases cs with
  | nil => exact absurd rfl hne
  | cons c cs =>
    simp only [escape] at h
    split at h
    · next hc =>
        cases h
        exact .plain (by simpa using hc)
    split at h
    · next hx =>
        split at h
        · next hhead =>
            cases h
            refine .hex hx ?_ fun d hd => List.mem_takeWhile_imp hd
            cases cs with
            | nil => simp at hhead
            | cons d ds => simp [show isHexDigit d = true by simpa using hhead]
        · cases h
    split at h
    · next hu =>
        split at h
        · next hfour =>
            cases h
            obtain ⟨hlen, hall⟩ := (Bool.and_eq_true _ _).mp hfour
            exact .unicode hu (by simpa using hlen) (by simpa using hall)
        · cases h
    split at h
    · next hcc =>
        split at h
        · cases h
        · cases h
          exact .control hcc
    split at h
    · next hl =>
        cases h
        exact .letter (by simpa using hl)
    · cases h

theorem escape_eq_none {cs : List Char} : escape cs = none ↔ NoEscape cs := by
  constructor
  · intro h
    refine ⟨?_, ?_⟩
    · rintro rfl
      cases h
    rintro used rest rfl he
    obtain ⟨more, tail, -, -, hsome, -⟩ := escape_of rest he
    cases h.symm.trans hsome
  · rintro ⟨hne, hno⟩
    cases h : escape cs with
    | none => rfl
    | some read => exact absurd (escape_spec h hne) (hno _ _ (escape_append h).symm)

/-! ## What is read of bracket expressions -/

variable {d : Char}

theorem afterClose_of {name rest : List Char} (h : ¬ [d, ']'] <:+: name ++ [d]) :
    afterClose d (name ++ d :: ']' :: rest) = some rest := by
  induction name with
  | nil => simp [afterClose]
  | cons a name ih =>
    have hname : ¬ [d, ']'] <:+: name ++ [d] := fun hin =>
      h (hin.trans (List.suffix_cons a _).isInfix)
    -- the two characters at the front are no closer, or the name would hold one
    have hfront : ¬ (a = d ∧ (name ++ d :: ']' :: rest).head? = some ']') := by
      rintro ⟨rfl, hb⟩
      cases name with
      | nil =>
        refine h ?_
        simp only [List.nil_append, List.head?_cons, Option.some.injEq] at hb
        subst hb
        exact List.infix_rfl
      | cons b name =>
        simp only [List.cons_append, List.head?_cons, Option.some.injEq] at hb
        subst hb
        exact h ⟨[], name ++ [a], by simp⟩
    have htail := ih hname
    cases hcs : name ++ d :: ']' :: rest with
    | nil => simp at hcs
    | cons b cs =>
      rw [hcs] at hfront htail
      rw [List.cons_append, hcs, afterClose, if_neg (by simpa using hfront), htail]

theorem afterClose_spec {cs rest : List Char} (h : afterClose d cs = some rest) :
    ∃ name, cs = name ++ d :: ']' :: rest ∧ ¬ [d, ']'] <:+: name ++ [d] := by
  induction cs with
  | nil => cases h
  | cons a cs ih =>
    cases cs with
    | nil => cases h
    | cons b cs =>
      rw [afterClose] at h
      split at h
      · next hb =>
          obtain ⟨rfl, rfl⟩ := hb
          cases h
          exact ⟨[], rfl, fun hin => by simpa using hin.length_le⟩
      · next hne =>
          obtain ⟨name, hcs, hname⟩ := ih h
          refine ⟨a :: name, by rw [hcs]; rfl, fun hin => ?_⟩
          rcases List.infix_cons_iff.mp hin with ⟨t, ht⟩ | hin
          · obtain ⟨hd, ht⟩ := List.cons.inj ht
            have hhead : (name ++ [d]).head? = (b :: cs).head? := by
              rw [hcs]
              cases name <;> rfl
            rw [← show _ = name ++ [d] from ht] at hhead
            exact hne ⟨hd.symm, (Option.some.inj hhead).symm⟩
          · exact hname hin

theorem afterClose_eq_none {cs : List Char} : afterClose d cs = none ↔ ¬ [d, ']'] <:+: cs := by
  constructor
  · intro h hin
    induction cs with
    | nil => simpa using hin.length_le
    | cons a cs ih =>
      cases cs with
      | nil => simpa using hin.length_le
      | cons b cs =>
        rw [afterClose] at h
        split at h
        · cases h
        · next hne =>
            rcases List.infix_cons_iff.mp hin with ⟨t, ht⟩ | hin
            · obtain ⟨hd, ht⟩ := List.cons.inj ht
              exact hne ⟨hd.symm, (List.cons.inj ht).1.symm⟩
            · exact ih h hin
  · intro hno
    cases h : afterClose d cs with
    | none => rfl
    | some rest =>
      obtain ⟨name, rfl, -⟩ := afterClose_spec h
      exact absurd ⟨name, rest, by simp⟩ hno

/-- Where a bracket expression's reading ends, for each way it can end. -/
def Ends : Except Reason (List Char) → List Char → Prop
  | .ok rest, cs => cs = ']' :: rest
  | .error .invalidEscape, cs => BadEscape cs
  | .error _, cs => Unclosed cs

theorem ends_bracketItem {cs : List Char} {reason : Reason}
    (h : bracketItem c cs = .error reason) : Ends (.error reason) (c :: cs) := by
  unfold bracketItem at h
  split at h
  · next hb =>
      split at h
      · next he =>
          cases h
          exact ⟨cs, by rw [hb], escape_eq_none.mp he⟩
      · cases h
  split at h
  · next ho =>
      split at h
      · next ha =>
          cases h
          obtain ⟨hopen, hd⟩ := (Bool.and_eq_true _ _).mp ho
          cases cs with
          | nil => simp at hd
          | cons d ds =>
            refine .inr (.inr ⟨d, ds, by rw [of_decide_eq_true hopen], by simpa [or_assoc] using hd,
              afterClose_eq_none.mp ha⟩)
      · cases h
  · cases h

theorem items_bracketItem {stop : List Char → Prop} {cs rest : List Char} (hc : c ≠ ']')
    (h : bracketItem c cs = .ok rest) (hrest : Items stop rest)
    (hend : stop [] → stop [BACKSLASH]) : Items stop (c :: cs) := by
  unfold bracketItem at h
  split at h
  · next hb =>
      subst hb
      split at h
      · cases h
      · next used tail he =>
          cases h
          cases cs with
          | nil =>
            cases he
            cases hrest with
            | stop hstop => exact .stop (hend hstop)
          | cons d ds =>
            rw [← escape_append he]
            exact .escape (escape_spec he (List.cons_ne_nil d ds)) hrest
  split at h
  · next ho =>
      split at h
      · cases h
      · next tail ha =>
          cases h
          obtain ⟨hopen, hd⟩ := (Bool.and_eq_true _ _).mp ho
          obtain rfl : c = '[' := of_decide_eq_true hopen
          cases cs with
          | nil => simp at hd
          | cons d ds =>
            obtain ⟨name, hds, hname⟩ := afterClose_spec (show afterClose d ds = some rest from ha)
            subst hds
            exact .named (by simpa [or_assoc] using hd) hname hrest
  · next hb ho =>
      cases h
      exact .char hb hc (by simpa using ho) hrest

theorem items_of_bracketRest (cs : List Char) : Items (Ends (bracketRest cs)) cs := by
  induction hn : cs.length using Nat.strong_induction_on generalizing cs with
  | _ n ih =>
    cases cs with
    | nil =>
      rw [bracketRest]
      exact .stop (.inl rfl)
    | cons c cs =>
      by_cases hc : c = ']'
      · subst hc
        rw [bracketRest_close]
        exact .stop rfl
      rw [bracketRest_cons hc]
      cases hitem : bracketItem c cs with
      | error reason => exact .stop (ends_bracketItem hitem)
      | ok rest =>
        have hlt : rest.length < n := by
          have := (bracketItem_suffix hitem).length_le
          simp only [← hn, List.length_cons]
          omega
        have hrest := ih rest.length hlt rest rfl
        refine items_bracketItem hc hitem hrest ?_
        -- nothing but an unclosed expression ends at the pattern's end
        change Ends (bracketRest rest) [] → Ends (bracketRest rest) [BACKSLASH]
        cases bracketRest rest with
        | ok tail =>
          intro h
          cases h
        | error reason =>
          cases reason with
          | invalidEscape =>
            rintro ⟨tail, htail, -⟩
            cases htail
          | _ => exact fun _ => .inr (.inl rfl)

theorem isHexDigit_plain (hd : isHexDigit d = true) : d ≠ ']' ∧ d ≠ '[' ∧ d ≠ BACKSLASH := by
  refine ⟨?_, ?_, ?_⟩ <;> rintro rfl <;> revert hd <;> decide

theorem bracketRest_hex {ds cs : List Char} (hds : ∀ d ∈ ds, isHexDigit d = true) :
    bracketRest (ds ++ cs) = bracketRest cs := by
  induction ds with
  | nil => rfl
  | cons d ds ih =>
    obtain ⟨hclose, hopen, hback⟩ := isHexDigit_plain (hds d List.mem_cons_self)
    have hitem : bracketItem d (ds ++ cs) = .ok (ds ++ cs) := by
      simp [bracketItem, opensClass, hback, hopen]
    rw [List.cons_append, bracketRest_cons hclose, hitem]
    exact ih fun e he => hds e (List.mem_cons_of_mem _ he)

theorem bracketRest_of_items {stop : List Char → Prop} {answer : Except Reason (List Char)}
    {cs : List Char} (h : Items stop cs) (hstop : ∀ cs, stop cs → bracketRest cs = answer) :
    bracketRest cs = answer := by
  induction h with
  | stop h => exact hstop _ h
  | @escape used cs he _ ih =>
    obtain ⟨more, rest, rfl, hmore, hescape, -⟩ := escape_of cs he
    have hitem : bracketItem BACKSLASH (used ++ (more ++ rest)) = .ok rest := by
      simp [bracketItem, hescape]
    rw [bracketRest_cons (by decide), hitem, ← ih, bracketRest_hex hmore]
    rfl
  | @named d name cs hd hname _ ih =>
    have hopens : opensClass '[' (d :: (name ++ d :: ']' :: cs)) = true := by
      simpa [opensClass, or_assoc] using hd
    have hitem : bracketItem '[' (d :: (name ++ d :: ']' :: cs)) = .ok cs := by
      have hback : '[' ≠ BACKSLASH := by decide
      simp [bracketItem, hback, hopens, afterClose_of hname]
    rw [bracketRest_cons (by decide), hitem]
    exact ih
  | @char c cs hb hc hn _ ih =>
    have hitem : bracketItem c cs = .ok cs := by simp [bracketItem, hb, hn]
    rw [bracketRest_cons hc, hitem]
    exact ih

theorem bracketRest_of_ends {answer : Except Reason (List Char)} {cs : List Char}
    (h : Ends answer cs) (hanswer : ∀ reason, answer = .error reason →
      reason = .invalidEscape ∨ reason = .brackets) : bracketRest cs = answer := by
  cases answer with
  | ok rest =>
    cases h
    exact bracketRest_close rest
  | error reason =>
    rcases hanswer reason rfl with rfl | rfl
    · obtain ⟨tail, rfl, hno⟩ := h
      have hitem : bracketItem BACKSLASH tail = .error .invalidEscape := by
        simp [bracketItem, escape_eq_none.mpr hno]
      rw [bracketRest_cons (by decide), hitem]
      rfl
    · rcases h with rfl | rfl | ⟨d, ds, rfl, hd, hno⟩
      · rw [bracketRest]
      · have hitem : bracketItem BACKSLASH [] = .ok [] := rfl
        rw [bracketRest_cons (by decide), hitem]
        exact bracketRest.eq_1
      · have hopens : opensClass '[' (d :: ds) = true := by
          simpa [opensClass, or_assoc] using hd
        have hitem : bracketItem '[' (d :: ds) = .error .brackets := by
          have hback : '[' ≠ BACKSLASH := by decide
          simp [bracketItem, hback, hopens, afterClose_eq_none.mpr hno]
        rw [bracketRest_cons (by decide), hitem]
        rfl

theorem bracketRest_error {cs : List Char} {reason : Reason} (h : bracketRest cs = .error reason) :
    reason = .invalidEscape ∨ reason = .brackets := by
  have hitems := items_of_bracketRest cs
  rw [h] at hitems
  by_contra hno
  cases reason with
  | invalidEscape => exact hno (.inl rfl)
  | brackets => exact hno (.inr rfl)
  | _ =>
    have : bracketRest cs = .error .brackets := bracketRest_of_items hitems fun cs hcs =>
      @bracketRest_of_ends (.error .brackets) _ hcs (by simp)
    cases h.symm.trans this

/-- **A bracket expression is read** up to the bracket that closes it, to its first bad escape,
or to its end. -/
theorem bracketRest_eq {answer : Except Reason (List Char)} {cs : List Char}
    (hanswer : ∀ reason, answer = .error reason → reason = .invalidEscape ∨ reason = .brackets) :
    bracketRest cs = answer ↔ Items (Ends answer) cs := by
  constructor
  · rintro rfl
    exact items_of_bracketRest cs
  · intro h
    exact bracketRest_of_items h fun _ hcs => bracketRest_of_ends hcs hanswer

/-! ## What is read of bounds -/

theorem takeWhile_digits {m rest : List Char} (hm : ∀ d ∈ m, d.isDigit = true)
    (hc : c.isDigit = false) : (m ++ c :: rest).takeWhile Char.isDigit = m := by
  rw [List.takeWhile_append_of_pos hm, List.takeWhile_cons_of_neg (by simp [hc]), List.append_nil]

theorem dropWhile_digits {m rest : List Char} (hm : ∀ d ∈ m, d.isDigit = true)
    (hc : c.isDigit = false) : (m ++ c :: rest).dropWhile Char.isDigit = c :: rest := by
  rw [List.dropWhile_append_of_pos hm, List.dropWhile_cons_of_neg (by simp [hc])]

theorem badCounts_eq_false {low : ℕ} {high : Option ℕ} : badCounts low high = false ↔
      low ≤ MAX_REPETITION_COUNT ∧ ∀ n ∈ high, n ≤ MAX_REPETITION_COUNT ∧ low ≤ n := by
  cases high <;> simp [badCounts]

theorem boundCounts_of {q : List Char} {low : ℕ} {high : Option ℕ} (rest : List Char)
    (hq : Bound q low high) :
    ∃ cs, q ++ rest = '{' :: cs ∧ cs.head?.any Char.isDigit = true ∧ boundCounts cs = ((low, high), '}' :: rest) := by
  have hhead {m tail : List Char} (hm : Digits m) : (m ++ tail).head?.any Char.isDigit = true := by
    obtain ⟨hne, hdigits⟩ := hm
    cases m with
    | nil => exact absurd rfl hne
    | cons d m => simpa using hdigits d List.mem_cons_self
  have hcomma : ','.isDigit = false := rfl
  have hclose : '}'.isDigit = false := rfl
  cases hq with
  | @exactly m hm =>
    refine ⟨m ++ '}' :: rest, by simp, hhead hm, ?_⟩
    simp only [boundCounts, takeWhile_digits hm.2 hclose, dropWhile_digits hm.2 hclose, count]
    rfl
  | @atLeast m hm =>
    refine ⟨m ++ ',' :: '}' :: rest, by simp, hhead hm, ?_⟩
    simp only [boundCounts, takeWhile_digits hm.2 hcomma, dropWhile_digits hm.2 hcomma, count]
    rfl
  | @between m n hm hn =>
    refine ⟨m ++ ',' :: (n ++ '}' :: rest), by simp, hhead hm, ?_⟩
    simp only [boundCounts, takeWhile_digits hm.2 hcomma, dropWhile_digits hm.2 hcomma,
      takeWhile_digits hn.2 hclose, dropWhile_digits hn.2 hclose, hhead hn, if_true, count]

theorem bound_of_boundCounts {cs rest : List Char} {low : ℕ} {high : Option ℕ}
    (hcs : cs.head?.any Char.isDigit = true) (h : boundCounts cs = ((low, high), '}' :: rest)) :
    ∃ q, '{' :: cs = q ++ rest ∧ Bound q low high := by
  have hdigits {ds : List Char} (hds : ds.head?.any Char.isDigit = true) : Digits (ds.takeWhile Char.isDigit) := by
    refine ⟨?_, fun d hd => List.mem_takeWhile_imp hd⟩
    cases ds with
    | nil => simp at hds
    | cons d ds => simp [show d.isDigit = true by simpa using hds]
  have hsplit (ds : List Char) : ds = ds.takeWhile Char.isDigit ++ ds.dropWhile Char.isDigit :=
    List.takeWhile_append_dropWhile.symm
  unfold boundCounts at h
  split at h
  · next tail htail =>
      obtain ⟨hcounts, hrest⟩ := Prod.mk.inj h
      obtain ⟨rfl, hhigh⟩ := Prod.mk.inj hcounts
      have htext : cs = cs.takeWhile Char.isDigit ++ ',' :: tail := htail ▸ hsplit cs
      split at hhigh
      · next hn =>
          subst hhigh
          refine ⟨_, ?_, .between (hdigits hcs) (hdigits hn)⟩
          rw [hsplit tail, hrest] at htext
          simpa using htext
      · next hn =>
          subst hhigh
          refine ⟨_, ?_, .atLeast (hdigits hcs)⟩
          -- no digit follows the comma, so the brace does
          have hnone : tail.takeWhile Char.isDigit = [] := by
            cases tail with
            | nil => rfl
            | cons d ds => simpa using hn
          rw [hsplit tail, hrest, hnone] at htext
          simpa using htext
  · obtain ⟨hcounts, hrest⟩ := Prod.mk.inj h
    obtain ⟨rfl, rfl⟩ := Prod.mk.inj hcounts
    refine ⟨_, ?_, .exactly (hdigits hcs)⟩
    have htext := hsplit cs
    rw [hrest] at htext
    simpa using htext

end RegexSyntax
