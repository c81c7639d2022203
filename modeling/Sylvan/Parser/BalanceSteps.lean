-- SUMMARY: What the lexer accepts and what the balancer steps over, piece by piece.
import Sylvan.Parser.Balance
import Sylvan.Parser.TokenRuns

/-!
# Pieces of a query

One rule for each kind of token: a text is accepted if what follows its first token is,
and the balancer passes the same characters.
-/

namespace Balance

open Spans Tokenizer

variable {py : PyHost}

/-! ## Characters -/

/-- The characters that are a token of their own, or open or close one. -/
def PUNCTUATION : List Char :=
  [APOSTROPHE, QUOTE, '/', '{', '}', '(', ')', ':', '=', '>', '<', '!', '+', '-', '*']

variable {c : Char}

theorem isWordCont_ascii (h : c.toNat < 0x80) : isWordCont py c = (c.isAlphanum || c = '_' || c = '.' || c = '~') := by
  rw [isWordCont, py.isAlphaCp_ascii c h, Char.isAlphanum]
  cases c.isAlpha <;> simp

variable {cs : List Char}

theorem isWordCont_of_mem (hcs : cs.all (fun c => decide (c.toNat < 0x80) &&
      !(c.isAlphanum || c = '_' || c = '.' || c = '~')) = true) (h : c ∈ cs) :
    isWordCont py c = false := by
  have hc := List.all_eq_true.mp hcs c h
  simp only [Bool.and_eq_true, decide_eq_true_eq, Bool.not_eq_true'] at hc
  exact (isWordCont_ascii hc.1).trans hc.2

theorem isWordCont_punctuation (h : c ∈ PUNCTUATION) : isWordCont py c = false :=
  isWordCont_of_mem (by decide) h

theorem not_mem_punctuation (h : isWordCont py c = true) : c ∉ PUNCTUATION := by
  intro hmem
  rw [isWordCont_punctuation hmem] at h
  cases h

theorem not_isWordCont_of_isSkipped (h : isSkipped c = true) : isWordCont py c = false := by
  have hmem : c ∈ [' ', '\t', '\r', '\n', ','] := by
    simp only [isSkipped, isSpace, Bool.or_eq_true, decide_eq_true_eq] at h
    simp only [List.mem_cons, List.not_mem_nil, or_false]
    tauto
  exact isWordCont_of_mem (by decide) hmem

theorem isWordCont_of_isWordStart (h : isWordStart py c = true) : isWordCont py c = true := by
  simp only [isWordStart, isWordCont, Char.isAlphanum, Bool.or_eq_true] at h ⊢
  tauto

theorem isWordCont_of_isDigit (h : c.isDigit = true) : isWordCont py c = true := by
  simp [isWordCont, Char.isAlphanum, h]

theorem pySpace_of_isWordCont (h : isWordCont py c = true) : pySpace c = false := by
  by_cases halpha : py.isAlphaCp c = true
  · exact py.pySpace_of_isAlphaCp c halpha
  simp only [isWordCont, Char.isAlphanum, Bool.or_eq_true, decide_eq_true_eq] at h
  rcases h with ((((h | h) | rfl) | rfl) | rfl) | h
  · exact pySpace_of_isAlpha h
  · have hrange := isDigit_range h
    exact pySpace_of_lt (by omega) (by omega)
  · rfl
  · rfl
  · rfl
  · exact absurd h halpha

/-! ## What the lexer accepts -/

/-- The lexer reads the text, after a comparison operator or not, and the parentheses
of its tokens close what is open before it. -/
def Accepts (py : PyHost) (afterOp : Bool) (openParens : ℕ) (cs : List Char) : Prop :=
  ∀ previous : Option (Lexeme py.Double), previous.any isOp = afterOp → ∀ spaceBefore pos,
    ∃ tokens, tokenizeFrom py {} previous spaceBefore pos cs = .ok tokens ∧ nesting openParens tokens = some 0

theorem nesting_cons {F : Type} (n : ℕ) (t : Token F) (ts : List (Token F)) :
    nesting n (t :: ts) = (afterLexeme n t.lexeme).bind (nesting · ts) := rfl

variable {afterOp : Bool}

theorem accepts_nil : Accepts py afterOp 0 [] := by
  intro previous _ spaceBefore pos
  exact ⟨_, by rw [tokenizeFrom], rfl⟩

theorem accepts_skip {k : ℕ}
    (hc : isSkipped c = true) (h : Accepts py afterOp k cs) : Accepts py afterOp k (c :: cs) := by
  intro previous hprevious spaceBefore pos
  rw [tokenizeFrom, if_pos hc]
  exact h previous hprevious true (pos + 1)

theorem accepts_token {afterOp next : Bool} {k k' : ℕ} {cs rest : List Char}
    (hc : isSkipped c = false)
    (hlex : ∀ previous : Option (Lexeme py.Double), previous.any isOp = afterOp → ∀ pos,
      ∃ lx, lexeme py {} previous pos c cs = .ok (lx, rest) ∧ isOp lx = next ∧ afterLexeme k lx = some k')
    (h : Accepts py next k' rest) : Accepts py afterOp k (c :: cs) := by
  intro previous hprevious spaceBefore pos
  obtain ⟨lx, hlx, hop, hk⟩ := hlex previous hprevious pos
  obtain ⟨tokens, htokens, hnest⟩ := h (some lx) hop false (pos + 1 + (cs.length - rest.length))
  exact ⟨_, (tokenizeFrom_ok hc).mpr ⟨lx, rest, tokens, hlx, htokens, rfl⟩, by rw [nesting_cons, hk]; exact hnest⟩

theorem accepts_symbol {k k' : ℕ}
    {lx : Lexeme py.Double} (hc : isSkipped c = false)
    (hlex : ∀ previous pos, lexeme py {} previous pos c cs = .ok (lx, cs))
    (hk : afterLexeme k lx = some k') (h : Accepts py (isOp lx) k' cs) :
    Accepts py afterOp k (c :: cs) :=
  accepts_token hc (fun previous _ pos => ⟨lx, hlex previous pos, rfl, hk⟩) h

theorem accepts_closeParens (k : ℕ) : Accepts py afterOp k (closeParens k) := by
  induction k generalizing afterOp with
  | zero => exact accepts_nil
  | succ k ih =>
    have hlex (previous : Option (Lexeme py.Double)) (pos : ℕ) :
        lexeme py {} previous pos ')' (closeParens k) = .ok (.rparen, closeParens k) := rfl
    exact accepts_symbol rfl hlex rfl ih

/-! ## Words and numbers -/

/-- Every decimal fraction in the text is within the range of a double. -/
def InRange (py : PyHost) (text : List Char) : Prop :=
  ∀ a b : List Char, a ++ '.' :: b <:+: text → a ≠ [] → b ≠ [] →
    (∀ d ∈ a ++ b, d.isDigit = true) → (py.number (String.ofList (a ++ '.' :: b))).isSome = true

theorem lexeme_of_isWordCont (h : isWordCont py c = true)
    (previous : Option (Lexeme py.Double)) (pos : ℕ) (cs : List Char) :
    lexeme py {} previous pos c cs = if c.isDigit then lexNumber py {} pos c cs
      else if isWordStart py c then .ok (lexWord py {} [c] cs)
      else .error s!"Unexpected character {String.ofList (Json.quote c.toString)} at position {pos}" := by
  have hmem := not_mem_punctuation h
  simp only [PUNCTUATION, List.mem_cons, List.not_mem_nil, or_false, not_or] at hmem
  obtain ⟨h1, h2, h3, h4, -, h6, h7, h8, h9, h10, h11, h12, h13, h14, h15⟩ := hmem
  have hequals : orEquals (F := py.Double) c = none := by simp [orEquals, h10, h11, h12]
  have hsymbol : symbol (F := py.Double) c = none := by
    simp [symbol, h6, h7, h8, h9, h13, h14, h15]
  have hquote : isQuote c = false := by simp [isQuote, h1, h2]
  have hstart : startsScryfallWord {} c cs = false := rfl
  rw [lexeme, hstart, if_neg (by decide), if_neg h4, hquote, if_neg (by decide), if_neg h3, hequals, hsymbol]

/-- What a word or a number that starts with `c` is read as. -/
theorem lexeme_run {cs rest : List Char} {lx : Lexeme py.Double}
    {previous : Option (Lexeme py.Double)} {pos : ℕ} (h : isWordCont py c = true)
    (hlex : lexeme py {} previous pos c cs = .ok (lx, rest)) :
    rest = (runEnd py c cs).2 ∧ (c.isDigit = true ∨ isWordStart py c = true) ∧
      (IsWordRun py c cs ∧ lx = .word (String.ofList (c :: (runEnd py c cs).1)) ∨
        c.isDigit = true ∧ (numberEnd cs).2.head?.any (isWordCont py) = false ∧
          ∃ value, lx = .number value (String.ofList (c :: (runEnd py c cs).1))) := by
  rw [lexeme_of_isWordCont h] at hlex
  split at hlex
  · next hd =>
      simp only [lexNumber, wordCont_default] at hlex
      split at hlex
      · next hword =>
          cases hlex
          rw [runEnd_word hd hword]
          exact ⟨rfl, .inl hd, .inl ⟨fun _ => hword, rfl⟩⟩
      · next hword =>
          have hword : (numberEnd cs).2.head?.any (isWordCont py) = false := by simpa using hword
          rw [runEnd_number hd hword]
          split at hlex
          · split at hlex
            · cases hlex
            · cases hlex
              exact ⟨rfl, .inl hd, .inr ⟨hd, hword, _, rfl⟩⟩
          · cases hlex
            exact ⟨rfl, .inl hd, .inr ⟨hd, hword, _, rfl⟩⟩
  split at hlex
  · next hd hstart =>
      cases hlex
      rw [runEnd_of_not_digit hd]
      exact ⟨rfl, .inr hstart, .inl ⟨fun hdigit => absurd hdigit hd, rfl⟩⟩
  · cases hlex

theorem accepts_run {k : ℕ} {cs w rest : List Char}
    (hc : c.isDigit = true ∨ isWordStart py c = true) (hrun : runEnd py c cs = (w, rest))
    (hrange : InRange py (c :: w)) (h : Accepts py false k rest) :
    Accepts py afterOp k (c :: cs) := by
  have hcont : isWordCont py c = true :=
    hc.elim isWordCont_of_isDigit isWordCont_of_isWordStart
  have hskip : isSkipped c = false := by
    by_contra hs
    rw [not_isWordCont_of_isSkipped (by simpa using hs)] at hcont
    cases hcont
  have hread (previous : Option (Lexeme py.Double)) (pos : ℕ) : ∃ r, lexeme py {} previous pos c cs = .ok r := by
    rw [lexeme_of_isWordCont hcont]
    by_cases hd : c.isDigit = true
    · rw [if_pos hd]
      simp only [lexNumber, wordCont_default]
      split
      · exact ⟨_, rfl⟩
      · next hword =>
          have hend : numberEnd cs = (w, rest) := by
            rw [← hrun, runEnd_number hd (by simpa using hword)]
          split
          · next hpoint =>
              have hsome : (py.number (String.ofList (c :: (numberEnd cs).1))).isSome = true := by
                obtain ⟨a, b, heq, ha, hb, hall⟩ :=
                  numberEnd_point hd (by simpa using hpoint)
                rw [heq]
                refine hrange a b ?_ ha hb hall
                rw [← heq, hend]
              obtain ⟨value, hvalue⟩ := Option.isSome_iff_exists.mp hsome
              rw [hvalue]
              exact ⟨_, rfl⟩
          · exact ⟨_, rfl⟩
    · rw [if_neg hd, if_pos (hc.resolve_left hd)]
      exact ⟨_, rfl⟩
  refine accepts_token hskip (fun previous _ pos => ?_) h
  obtain ⟨⟨lx, rest'⟩, hlx⟩ := hread previous pos
  obtain ⟨hrest, -, hkind⟩ := lexeme_run hcont hlx
  rw [hrun] at hrest
  obtain rfl : rest' = rest := hrest
  rcases hkind with ⟨-, rfl⟩ | ⟨-, -, value, rfl⟩
  · exact ⟨_, hlx, rfl, rfl⟩
  · exact ⟨_, hlx, rfl, rfl⟩

/-! ## Spans and symbols -/

theorem not_isSkipped_of_mem (h : c ∈ PUNCTUATION) : isSkipped c = false := by
  have hall : PUNCTUATION.all (fun c => !isSkipped c) = true := by decide
  simpa using List.all_eq_true.mp hall c h

theorem mem_punctuation_of_isQuote (h : isQuote c = true) : c ∈ PUNCTUATION := by
  simp only [isQuote, Bool.or_eq_true, decide_eq_true_eq] at h
  rcases h with rfl | rfl <;> decide

theorem lexeme_quoted (hc : isQuote c = true) (previous : Option (Lexeme py.Double))
    (pos : ℕ) (cs : List Char) : lexeme py {} previous pos c cs = lexQuoted pos c cs := by
  have hbrace : ¬ c = '{' := by
    rintro rfl
    cases hc
  have hstart : startsScryfallWord {} c cs = false := rfl
  rw [lexeme, hstart, if_neg (by decide), if_neg hbrace, if_pos hc]

theorem accepts_quoted {k : ℕ} {cs content rest : List Char}
    (hc : isQuote c = true) (hclose : (findClose c cs).close = some (content, rest))
    (h : Accepts py false k rest) : Accepts py afterOp k (c :: cs) := by
  refine accepts_token (not_isSkipped_of_mem (mem_punctuation_of_isQuote hc))
    (fun previous _ pos => ?_) h
  rw [lexeme_quoted hc, lexQuoted, hclose]
  exact ⟨_, rfl, rfl, rfl⟩

theorem accepts_mana {k : ℕ} {cs content rest : List Char}
    (hclose : braceClose cs = some (content, rest)) (h : Accepts py false k rest) :
    Accepts py afterOp k ('{' :: cs) := by
  have hstart : startsScryfallWord {} '{' cs = false := rfl
  refine accepts_token rfl (fun previous _ pos => ?_) h
  rw [lexeme, hstart, if_neg (by decide), if_pos rfl, lexMana, hclose]
  exact ⟨_, rfl, rfl, rfl⟩

theorem lexeme_slash (previous : Option (Lexeme py.Double)) (pos : ℕ) (cs : List Char) :
    lexeme py {} previous pos '/' cs = .ok (lexSlash previous cs) := by
  have hstart : startsScryfallWord {} '/' cs = false := rfl
  rw [lexeme, hstart, if_neg (by decide), if_neg (by decide), if_neg (by decide), if_pos rfl]

theorem accepts_regex {k : ℕ} {cs content rest : List Char}
    (hclose : (findClose '/' cs).close = some (content, rest)) (h : Accepts py false k rest) :
    Accepts py true k ('/' :: cs) := by
  refine accepts_token rfl (fun previous hprevious pos => ?_) h
  rw [lexeme_slash, lexSlash, hclose]
  simp only [hprevious, if_true]
  exact ⟨_, rfl, rfl, rfl⟩

theorem accepts_slash {k : ℕ} (h : Accepts py false k cs) : Accepts py false k ('/' :: cs) := by
  refine accepts_token rfl (fun previous hprevious pos => ?_) h
  have hslash : lexSlash previous cs = (.slash, cs) := by
    rw [lexSlash]
    split
    · rfl
    · rw [hprevious, if_neg (by decide)]
  rw [lexeme_slash, hslash]
  exact ⟨_, rfl, rfl, rfl⟩

/-! ## The balancer's steps -/

-- makes the equations of this recursion once, for every step below to rewrite with
attribute [local simp] balanceFrom

theorem balanceFrom_other {c : Char} (hc : c ∉ [APOSTROPHE, QUOTE, '/', '{', '(', ')'])
    (before : List Char) (k : ℕ) (cs : List Char) :
    balanceFrom py before k (c :: cs) = balanceFrom py (c :: before) k cs := by
  simp only [List.mem_cons, List.not_mem_nil, or_false, not_or] at hc
  obtain ⟨h1, h2, h3, h4, h5, h6⟩ := hc
  have hquote : isQuote c = false := by simp [isQuote, h1, h2]
  rw [balanceFrom, if_neg (by simp [h1]), if_neg (by simp [hquote, h3]), if_neg h4, if_neg h5, if_neg h6]

theorem balanceFrom_cont (hc : isWordCont py c = true) (before : List Char) (k : ℕ)
    (cs : List Char) : balanceFrom py before k (c :: cs) = balanceFrom py (c :: before) k cs := by
  refine balanceFrom_other (fun hmem => not_mem_punctuation hc ?_) before k cs
  simp only [List.mem_cons, List.not_mem_nil, or_false] at hmem
  simp only [PUNCTUATION, List.mem_cons, List.not_mem_nil, or_false]
  tauto

theorem balanceFrom_apostrophe {before cs : List Char} (h : apostropheInWord py before cs = true)
    (k : ℕ) :
    balanceFrom py before k (APOSTROPHE :: cs) = balanceFrom py (APOSTROPHE :: before) k cs := by
  rw [balanceFrom, if_pos (by simp [h])]

/-- An opener of a string or a regex, for the balancer. -/
def OpensSpan (py : PyHost) (before : List Char) (c : Char) (cs : List Char) : Prop :=
  ¬ (c = APOSTROPHE ∧ apostropheInWord py before cs = true) ∧ (isQuote c = true ∨ c = '/' ∧ opensRegex before = true)

theorem balanceFrom_closed {before cs content rest : List Char}
    (hopens : OpensSpan py before c cs) (hclose : (findClose c cs).close = some (content, rest))
    (k : ℕ) : balanceFrom py before k (c :: cs) = balanceFrom py (c :: (content.reverse ++ c :: before)) k rest := by
  rw [balanceFrom, if_neg (by simpa using hopens.1), if_pos (by simpa using hopens.2)]
  split
  · next hnone => cases hnone.symm.trans hclose
  · next hsome =>
      obtain ⟨rfl, rfl⟩ := Prod.mk.inj (Option.some.inj (hclose.symm.trans hsome))
      rfl

theorem balanceFrom_open {before cs : List Char} (hopens : OpensSpan py before c cs)
    (hclose : (findClose c cs).close = none) (k : ℕ) : balanceFrom py before k (c :: cs) =
      .ok (closerForPartialSpan (findClose c cs).danglingEscape c ++ closeParens k) := by
  rw [balanceFrom, if_neg (by simpa using hopens.1), if_pos (by simpa using hopens.2)]
  split
  · rfl
  · next hsome => cases hclose.symm.trans hsome

theorem balanceFrom_mana {before cs content rest : List Char}
    (hclose : braceClose cs = some (content, rest)) (k : ℕ) :
    balanceFrom py before k ('{' :: cs) = balanceFrom py ('}' :: (content.reverse ++ '{' :: before)) k rest := by
  rw [balanceFrom, if_neg (by simp [APOSTROPHE]), if_neg (by simp [isQuote, APOSTROPHE, QUOTE]), if_pos rfl]
  split
  · next hnone => cases hnone.symm.trans hclose
  · next hsome =>
      obtain ⟨rfl, rfl⟩ := Prod.mk.inj (Option.some.inj (hclose.symm.trans hsome))
      rfl

theorem balanceFrom_openMana {before cs : List Char} (hclose : braceClose cs = none) (k : ℕ) :
    balanceFrom py before k ('{' :: cs) = .ok ('}' :: closeParens k) := by
  rw [balanceFrom, if_neg (by simp [APOSTROPHE]), if_neg (by simp [isQuote, APOSTROPHE, QUOTE]), if_pos rfl]
  split
  · rfl
  · next hsome => cases hclose.symm.trans hsome

/-! ## The balancer over words and numbers -/

theorem balanceFrom_conts {w : List Char} (hw : ∀ a ∈ w, isWordCont py a = true)
    (before : List Char) (k : ℕ) (q : List Char) :
    balanceFrom py before k (w ++ q) = balanceFrom py (w.reverse ++ before) k q := by
  induction w generalizing before with
  | nil => rfl
  | cons a w ih =>
    rw [List.cons_append, balanceFrom_cont (hw a List.mem_cons_self),
      ih fun b hb => hw b (List.mem_cons_of_mem a hb), List.reverse_cons, List.append_assoc]
    rfl

theorem balanceFrom_word {prev : Char} {w y q : List Char}
    (hprev : isWordCont py prev = true ∨ prev = ',' ∨ prev = APOSTROPHE ∧ y.head?.all (isWordCont py) = true)
    (hw : w <+: (scanWordEnd (isWordCont py) y).1)
    (hcomma : ¬ [',', APOSTROPHE] <:+: prev :: w)
    (hlast : w.getLast? = some APOSTROPHE → q = []) (before : List Char) (k : ℕ) :
    balanceFrom py (prev :: before) k (w ++ q) = balanceFrom py (w.reverse ++ prev :: before) k q := by
  induction w generalizing prev y before with
  | nil => rfl
  | cons a w ih =>
    cases y with
    | nil => simp [scanWordEnd] at hw
    | cons b y =>
      rw [scanWordEnd] at hw
      split at hw
      case isFalse => simp at hw
      case isTrue h =>
      obtain ⟨rfl, hrun⟩ := List.cons_prefix_cons.mp hw
      have htail : ¬ [',', APOSTROPHE] <:+: a :: w := fun hin => hcomma (List.infix_cons hin)
      have hend : w.getLast? = some APOSTROPHE → q = [] := fun hl => hlast (by
        rw [List.getLast?_cons, hl]
        rfl)
      have hgo (ha : isWordCont py a = true ∨ a = ',' ∨ a = APOSTROPHE ∧ y.head?.all (isWordCont py) = true) :
          balanceFrom py (a :: prev :: before) k (w ++ q) = balanceFrom py ((a :: w).reverse ++ prev :: before) k q := by
        rw [ih ha hrun htail hend, List.reverse_cons, List.append_assoc]
        rfl
      simp only [Bool.or_eq_true, Bool.and_eq_true, decide_eq_true_eq, or_assoc] at h
      rw [List.cons_append, ← hgo h]
      rcases h with ha | rfl | ⟨rfl, hall⟩
      · exact balanceFrom_cont ha _ k _
      · exact balanceFrom_other (by decide) _ k _
      · have hnext : (w ++ q).head?.all (isWordCont py) = true := by
          cases w with
          | nil => simp [hlast rfl]
          | cons d w =>
            have hprefix : d :: w <+: y := hrun.trans ⟨_, scanWordEnd_append _ y⟩
            obtain ⟨tail, rfl⟩ := hprefix
            exact hall
        have hin : apostropheInWord py (prev :: before) (w ++ q) = true := by
          rcases hprev with hprev | rfl | ⟨-, hcont⟩
          · rw [apostropheInWord, hnext, Bool.and_true]
            exact hprev
          · exact absurd (List.prefix_append [',', APOSTROPHE] w).isInfix hcomma
          · have hcont : isWordCont py APOSTROPHE = true := by simpa using hcont
            exact absurd (by decide) (not_mem_punctuation hcont)
        exact balanceFrom_apostrophe hin k

theorem isWordCont_of_mem_numberEnd {a : Char} (h : a ∈ (numberEnd cs).1) : isWordCont py a = true := by
  rcases List.mem_append.mp h with h | h
  · exact isWordCont_of_isDigit (isDigit_of_mem_digits h)
  rcases fraction_cases (digits cs).2 with ⟨-, heq⟩ | ⟨d, rest, -, hd, heq⟩
  · rw [heq] at h
    cases h
  · rw [heq] at h
    rcases List.mem_cons.mp h with rfl | h
    · simp [isWordCont]
    rcases List.mem_cons.mp h with rfl | h
    · exact isWordCont_of_isDigit hd
    · exact isWordCont_of_isDigit (isDigit_of_mem_digits h)

/-- **The balancer passes part of a run as it stands.** -/
theorem balanceFrom_run {w y q : List Char} (hc : isWordCont py c = true)
    (hw : w <+: (runEnd py c y).1) (hcomma : ¬ [',', APOSTROPHE] <:+: c :: w)
    (hlast : w.getLast? = some APOSTROPHE → q = []) (before : List Char) (k : ℕ) :
    balanceFrom py before k (c :: (w ++ q)) = balanceFrom py ((c :: w).reverse ++ before) k q := by
  have hreverse : (c :: w).reverse ++ before = w.reverse ++ c :: before := by simp
  rw [balanceFrom_cont hc, hreverse]
  by_cases hd : c.isDigit = true
  · have hnumber (hw : w <+: (numberEnd y).1) :
        balanceFrom py (c :: before) k (w ++ q) = balanceFrom py (w.reverse ++ c :: before) k q :=
      balanceFrom_conts (fun a ha => isWordCont_of_mem_numberEnd (hw.subset ha)) _ k q
    rw [runEnd, if_pos hd] at hw
    split at hw
    · rcases isPrefix_append_cases hw with hw | ⟨m, rfl, hm⟩
      · exact hnumber hw
      by_cases hne : m = []
      · subst hne
        exact hnumber (by simp)
      -- the last character of the number stands before the word
      have hall : ∀ a ∈ (c :: (numberEnd y).1).reverse, isWordCont py a = true := by
        intro a ha
        rcases List.mem_cons.mp (List.mem_reverse.mp ha) with rfl | ha
        · exact hc
        · exact isWordCont_of_mem_numberEnd ha
      have hfront : (numberEnd y).1.reverse ++ c :: before = (c :: (numberEnd y).1).reverse ++ before := by simp
      rw [List.append_assoc, balanceFrom_conts (fun a ha => isWordCont_of_mem_numberEnd ha), hfront,
        List.reverse_append, List.append_assoc, hfront]
      obtain ⟨prev, front, heq⟩ :=
        List.exists_cons_of_ne_nil (l := (c :: (numberEnd y).1).reverse) (by simp)
      rw [heq] at hall ⊢
      refine balanceFrom_word (.inl (hall prev List.mem_cons_self)) hm (fun hin => hcomma ?_)
        (fun hl => hlast (by rw [List.getLast?_append, hl]; rfl)) (front ++ before) k
      have hsplit : c :: ((numberEnd y).1 ++ m) = front.reverse ++ prev :: m := by
        have := congrArg List.reverse heq
        rw [List.reverse_reverse] at this
        rw [← List.cons_append, this]
        simp
      rw [hsplit]
      exact hin.trans (List.suffix_append _ _).isInfix
    · exact hnumber hw
  · rw [runEnd_of_not_digit hd] at hw
    exact balanceFrom_word (.inl hc) hw hcomma hlast before k

end Balance
