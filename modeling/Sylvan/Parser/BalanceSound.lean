-- SUMMARY: A query the lexer accepts is balanced already, and each of its prefixes balances into one.
import Mathlib.Data.List.Chain
import Sylvan.Parser.BalanceSteps

/-!
# Balancer and lexer agree

The lexer reads a token where the balancer reads its characters. Token by token, both
stand at the same place of an accepted query, and of every prefix of one.
-/

namespace Balance

open Spans Tokenizer

variable {py : PyHost}

/-! ## Where they agree -/

/-- What the two read alike: no regex is left open, a slash that opens one has no comma
before it, and an apostrophe follows neither a comma in its word nor a number. -/
structure Plain (py : PyHost) (source : List Char) (tokens : List (Token py.Double)) : Prop where
  closed : tokens.IsChain fun t u => isOp t.lexeme = true → u.lexeme ≠ .slash
  opened : ∀ t ∈ tokens, ∀ value, t.lexeme = .regex value → opensRegex (source.take t.pos).reverse = true
  words : ∀ t ∈ tokens, ∀ value, t.lexeme = .word value → ¬ [',', APOSTROPHE] <:+: value.toList
  numbers : ∀ t ∈ tokens, ∀ value raw, t.lexeme = .number value raw →
    (source.drop (t.pos + raw.toList.length)).head? ≠ some APOSTROPHE

/-- The first `n` characters end on an apostrophe in a word, or on one that opens a string
glued to a word. -/
def MidWord (py : PyHost) (source : List Char) (tokens : List (Token py.Double)) (n : ℕ) : Prop :=
  (source.take n).getLast? = some APOSTROPHE ∧ ∃ t, (tokens.takeWhile (·.pos < n)).getLast? = some t ∧
      ((∃ value, t.lexeme = .word value) ∨ t.pos + 1 = n ∧ (source.take t.pos).getLast?.any (isWordCont py) = true)

/-- Lexer and balancer stand at the same place of an accepted query. -/
structure At (py : PyHost) (source : List Char) (previous : Option (Lexeme py.Double))
    (before : List Char) (k : ℕ) (rest : List Char) (tokens : List (Token py.Double)) : Prop where
  source_eq : source = before.reverse ++ rest
  lexed : ∃ spaceBefore, tokenizeFrom py {} previous spaceBefore before.length rest = .ok tokens
  balanced : nesting k tokens = some 0
  plain : Plain py source tokens
  first : ∀ t ∈ tokens.head?, previous.any isOp = true → t.lexeme ≠ .slash
  opens : opensRegex before = true → previous.any isOp = true
  glued : before.head?.any (isWordCont py) = true → ∀ cs, rest = APOSTROPHE :: cs → cs.head?.all (isWordCont py) = false

/-- A part `q` of what is left does not end mid-word with a parenthesis open. -/
def Cut (py : PyHost) (source : List Char) (before : List Char) (k : ℕ)
    (tokens : List (Token py.Double)) (q : List Char) : Prop :=
  q.getLast? = some APOSTROPHE → ∀ t, (tokens.takeWhile (·.pos < before.length + q.length)).getLast? = some t →
    ((∃ value, t.lexeme = .word value) ∨ t.pos + 1 = before.length + q.length ∧
      (source.take t.pos).getLast?.any (isWordCont py) = true) →
    nesting k (tokens.takeWhile (·.pos < before.length + q.length)) = some 0

/-- The balancer passes `q`, and what it makes of it is accepted; if `q` is all that was
left, nothing is added. -/
def Follows (py : PyHost) (source : List Char) (afterOp : Bool) (before : List Char) (k : ℕ)
    (tokens : List (Token py.Double)) (rest q : List Char) : Prop :=
  ∃ added, balanceFrom py before k q = .ok added ∧
    (InRange py q → Cut py source before k tokens q → Accepts py afterOp k (q ++ added)) ∧
    (q = rest → added = [])

/-! ## From one place to the next -/

variable {source before cs rest q : List Char} {previous : Option (Lexeme py.Double)} {k k' : ℕ}
  {tokens tail : List (Token py.Double)} {c : Char}

theorem opensRegex_cons_space (hc : pySpace c = true) : opensRegex (c :: before) = opensRegex before := by
  rw [opensRegex, List.dropWhile_cons, if_pos hc, opensRegex]

theorem opensRegex_cons (hc : pySpace c = false) : opensRegex (c :: before) = isComparisonTail c := by
  rw [opensRegex, List.dropWhile_cons, if_neg (by simp [hc])]
  rfl

theorem Plain.of_cons {t : Token py.Double} (h : Plain py source (t :: tail)) : Plain py source tail where
  closed := h.closed.tail
  opened u hu := h.opened u (List.mem_cons_of_mem t hu)
  words u hu := h.words u (List.mem_cons_of_mem t hu)
  numbers u hu := h.numbers u (List.mem_cons_of_mem t hu)

theorem At.skip (h : At py source previous before k (c :: cs) tokens) (hc : isSkipped c = true) :
    At py source previous (c :: before) k cs tokens where
  source_eq := by simp [h.source_eq]
  lexed := by
    obtain ⟨spaceBefore, hlex⟩ := h.lexed
    rw [tokenizeFrom_skip hc] at hlex
    exact ⟨true, hlex⟩
  balanced := h.balanced
  plain := h.plain
  first := h.first
  opens := by
    by_cases hcomma : c = ','
    · subst hcomma
      rw [opensRegex_cons (by decide)]
      exact fun hfalse => absurd hfalse (by decide)
    · have hspace : pySpace c = true := by
        simp only [isSkipped, isSpace, Bool.or_eq_true, decide_eq_true_eq] at hc
        rcases hc with ((((rfl | rfl) | rfl) | rfl)) | hc
        · rfl
        · rfl
        · rfl
        · rfl
        · exact absurd hc hcomma
      rw [opensRegex_cons_space hspace]
      exact h.opens
  glued hcont := by
    have hcont : isWordCont py c = true := hcont
    rw [not_isWordCont_of_isSkipped hc] at hcont
    cases hcont

theorem At.token (h : At py source previous before k (c :: cs) tokens) (hc : isSkipped c = false) :
    ∃ lx w rest spaceBefore tail k', lexeme py {} previous before.length c cs = .ok (lx, rest) ∧ cs = w ++ rest ∧
      tokens = { lexeme := lx, pos := before.length, spaceBefore := spaceBefore } :: tail ∧
      afterLexeme k lx = some k' ∧
      (∀ t ∈ tail, before.length + (w.length + 1) ≤ t.pos) ∧
      ((opensRegex ((c :: w).reverse ++ before) = true → isOp lx = true) →
        (((c :: w).reverse ++ before).head?.any (isWordCont py) = true → ∀ ds,
          rest = APOSTROPHE :: ds → ds.head?.all (isWordCont py) = false) →
        At py source (some lx) ((c :: w).reverse ++ before) k' rest tail) := by
  obtain ⟨spaceBefore, hlexed⟩ := h.lexed
  obtain ⟨lx, rest, tail, hlex, htail, rfl⟩ := (tokenizeFrom_ok hc).mp hlexed
  obtain ⟨w, rfl⟩ := lexeme_suffix hlex
  have hbalanced := h.balanced
  rw [nesting_cons] at hbalanced
  obtain ⟨k', hk, hnest⟩ := Option.bind_eq_some_iff.mp hbalanced
  have hpos : before.length + 1 + ((w ++ rest).length - rest.length) = ((c :: w).reverse ++ before).length := by
    simp only [List.length_append, List.length_reverse, List.length_cons]
    omega
  rw [hpos] at htail
  refine ⟨lx, w, rest, spaceBefore, tail, k', hlex, rfl, rfl, hk, fun t ht => ?_, fun hopens hglued => ?_⟩
  · have := le_pos htail t ht
    simp only [List.length_append, List.length_reverse, List.length_cons] at this
    omega
  · exact {
      source_eq := by simp [h.source_eq]
      lexed := ⟨false, htail⟩
      balanced := hnest
      plain := h.plain.of_cons
      first := fun t ht hop => by
        obtain ⟨us, rfl⟩ : ∃ us, tail = t :: us := by
          cases tail with
          | nil => cases ht
          | cons u us =>
            obtain rfl : u = t := Option.some.inj ht
            exact ⟨us, rfl⟩
        exact (List.isChain_cons_cons.mp h.plain.closed).1 hop
      opens := hopens
      glued := hglued }

theorem Cut.skip (h : Cut py source before k tokens (c :: q)) : Cut py source (c :: before) k tokens q := by
  intro hq t ht hmid
  have hlen : (c :: before).length + q.length = before.length + (c :: q).length := by
    simp only [List.length_cons]
    omega
  rw [hlen] at ht hmid ⊢
  exact h (by rw [List.getLast?_cons, hq]; rfl) t ht hmid

variable {lx : Lexeme py.Double} {spaceBefore : Bool}

theorem Cut.next {u : List Char} (hu : u ≠ [])
    (hk : afterLexeme k lx = some k')
    (h : Cut py source before k
      ({ lexeme := lx, pos := before.length, spaceBefore := spaceBefore } :: tail) (u ++ q)) :
    Cut py source (u.reverse ++ before) k' tail q := by
  intro hq t ht hmid
  have hlen : (u.reverse ++ before).length + q.length = before.length + (u ++ q).length := by
    simp only [List.length_append, List.length_reverse]
    omega
  have hpos : before.length < before.length + (u ++ q).length := by
    have := List.length_pos_of_ne_nil hu
    simp only [List.length_append]
    omega
  rw [hlen] at ht hmid ⊢
  have htake := List.takeWhile_cons_of_pos (p := fun t : Token py.Double =>
    decide (t.pos < before.length + (u ++ q).length))
    (a := { lexeme := lx, pos := before.length, spaceBefore := spaceBefore }) (l := tail)
    (by simpa using hpos)
  have hall := h (by rw [List.getLast?_append, hq]; rfl) t
    (by rw [htake, List.getLast?_cons, ht]; rfl) hmid
  rw [htake, nesting_cons, hk] at hall
  exact hall

/-! ## One token -/

/-- From every place before `rest`, each part of it is balanced into what the lexer accepts. -/
def Continues (py : PyHost) (source rest : List Char) : Prop :=
  ∀ {previous before k tokens q}, At py source previous before k rest tokens → q <+: rest →
    ¬ (before.head?.any (isWordCont py) = true ∧ q = [APOSTROPHE]) →
    Follows py source (previous.any isOp) before k tokens rest q

theorem InRange.of_infix {text part : List Char} (h : InRange py text) (hpart : part <:+: text) :
    InRange py part := fun a b hab => h a b (hab.trans hpart)

theorem Follows.whole {afterOp next : Bool} {w : List Char}
    (hk : afterLexeme k lx = some k')
    (hbalance : balanceFrom py before k (c :: (w ++ q)) = balanceFrom py ((c :: w).reverse ++ before) k' q)
    (haccepts : ∀ added, balanceFrom py ((c :: w).reverse ++ before) k' q = .ok added →
      InRange py (c :: w) → Accepts py next k' (q ++ added) →
      Accepts py afterOp k (c :: (w ++ (q ++ added))))
    (h : Follows py source next ((c :: w).reverse ++ before) k' tail rest q) :
    Follows py source afterOp before k
      ({ lexeme := lx, pos := before.length, spaceBefore := spaceBefore } :: tail)
      (c :: (w ++ rest)) (c :: (w ++ q)) := by
  obtain ⟨added, hadded, hacc, hfull⟩ := h
  refine ⟨added, hbalance.trans hadded, fun hrange hcut => ?_, fun heq => hfull ?_⟩
  · have hsplit : c :: (w ++ q) = (c :: w) ++ q := rfl
    rw [hsplit] at hrange hcut
    have := haccepts added hadded (hrange.of_infix (List.prefix_append _ q).isInfix)
      (hacc (hrange.of_infix (List.suffix_append _ q).isInfix) (hcut.next (by simp) hk))
    simpa using this
  · exact List.append_cancel_left (List.cons.inj heq).2

theorem isPrefix_append_ne {α : Type} {w a b : List α} (h : w <+: a ++ b) : w <+: a ∧ w ≠ a ∨ ∃ t, w = a ++ t ∧ t <+: b := by
  rcases isPrefix_append_cases h with h | h
  · by_cases hne : w = a
    · exact .inr ⟨[], by simp [hne], List.nil_prefix⟩
    · exact .inl ⟨h, hne⟩
  · exact .inr h

theorem isPrefix_of_concat {α : Type} {w a : List α} {b : α} (h : w <+: a ++ [b])
    (hne : w ≠ a ++ [b]) : w <+: a := by
  rcases List.prefix_concat_iff.mp h with h | h
  · exact absurd h hne
  · exact h

/-- A token whose last character is neither of a word, a space nor a comparison: what comes
behind it does not matter. -/
theorem At.next {w : List Char} {d : Char}
    (hd : ((c :: w).reverse ++ before).head? = some d) (hcont : isWordCont py d = false)
    (hop : isOp lx = true ∨ pySpace d = false ∧ isComparisonTail d = false)
    (hat : (opensRegex ((c :: w).reverse ++ before) = true → isOp lx = true) →
        (((c :: w).reverse ++ before).head?.any (isWordCont py) = true → ∀ ds,
          rest = APOSTROPHE :: ds → ds.head?.all (isWordCont py) = false) →
        At py source (some lx) ((c :: w).reverse ++ before) k' rest tail)
    (hnext : Continues py source rest) (hq : q <+: rest) :
    Follows py source (isOp lx) ((c :: w).reverse ++ before) k' tail rest q := by
  have hopens : opensRegex ((c :: w).reverse ++ before) = true → isOp lx = true := by
    intro hregex
    rcases hop with hop | ⟨hspace, htail⟩
    · exact hop
    · obtain ⟨front, hfront⟩ := List.head?_eq_some_iff.mp hd
      rw [hfront, opensRegex_cons hspace, htail] at hregex
      cases hregex
  have hnot : ¬ ((c :: w).reverse ++ before).head?.any (isWordCont py) = true := by
    rw [hd]
    simp [hcont]
  have := hnext (hat hopens fun h => absurd h hnot) hq fun h => hnot h.1
  simpa using this

/-! ## Spans -/

variable {g : List Char}

theorem Follows.cut {afterOp : Bool} {w added : List Char}
    (hbalance : balanceFrom py before k (c :: g) = .ok added)
    (haccepts : InRange py (c :: g) → Cut py source before k tokens (c :: g) →
      Accepts py afterOp k (c :: g ++ added)) (hlt : g.length < w.length) :
    Follows py source afterOp before k tokens (c :: (w ++ rest)) (c :: g) := by
  refine ⟨added, hbalance, haccepts, fun heq => ?_⟩
  have := congrArg List.length heq
  simp only [List.length_cons, List.length_append] at this
  omega

theorem length_lt_of_cut {α : Type} {w a : List α} (h : w <+: a) (hne : w ≠ a) : w.length < a.length :=
  lt_of_le_of_ne h.length_le fun heq => hne (h.eq_of_length heq)

theorem At.mana {g : List Char} (h : At py source previous before k ('{' :: cs) tokens)
    (ih : ∀ rest, rest <:+ cs → Continues py source rest) (hg : g <+: cs) :
    Follows py source (previous.any isOp) before k tokens ('{' :: cs) ('{' :: g) := by
  obtain ⟨lx, w, rest, spaceBefore, tail, k', hlex, rfl, rfl, hk, -, hat⟩ := h.token rfl
  have hstart : startsScryfallWord {} '{' (w ++ rest) = false := rfl
  rw [lexeme, hstart, if_neg (by decide), if_pos rfl, lexMana] at hlex
  split at hlex
  · cases hlex
  next content rest' hclose =>
  obtain ⟨rfl, rfl⟩ := Prod.mk.inj (Except.ok.inj hlex)
  obtain rfl : w = content ++ ['}'] :=
    List.append_cancel_right ((braceClose_eq hclose).trans (by simp))
  obtain rfl : k = k' := Option.some.inj hk
  rcases isPrefix_append_ne hg with ⟨hg, hne⟩ | ⟨q, rfl, hq⟩
  · obtain ⟨hnone, hsome⟩ := braceClose_cut hclose (isPrefix_of_concat hg hne)
    refine Follows.cut (balanceFrom_openMana hnone k) (fun _ _ => ?_) (length_lt_of_cut hg hne)
    exact accepts_mana (hsome (closeParens k)) (accepts_closeParens k)
  · have hbalance : balanceFrom py before k ('{' :: (content ++ '}' :: q)) = _ :=
      balanceFrom_mana (braceClose_append hclose q) k
    have hnext := At.next (d := '}') (by simp) (isWordCont_punctuation (by decide))
      (.inr ⟨rfl, rfl⟩) hat (ih rest' (List.suffix_append _ _)) hq
    refine Follows.whole hk ?_ ?_ hnext
    · simpa using hbalance
    · intro added _ _ hacc
      have : Accepts py (previous.any isOp) k _ :=
        accepts_mana (braceClose_append hclose (q ++ added)) hacc
      simpa using this

theorem At.span {content g w rest : List Char}
    {tail : List (Token py.Double)} (hcont : isWordCont py c = false) (hspace : pySpace c = false)
    (htail : isComparisonTail c = false) (hescape : c ≠ BACKSLASH) (hlx : isOp lx = false)
    (hw : w = content ++ [c]) (hk : afterLexeme k lx = some k)
    (hclose : (findClose c (w ++ rest)).close = some (content, rest))
    (hopens : OpensSpan py before c g)
    (haccepts : ∀ {x inner ds : List Char}, (findClose c x).close = some (inner, ds) →
      Accepts py false k ds → Accepts py (previous.any isOp) k (c :: x))
    (hat : (opensRegex ((c :: w).reverse ++ before) = true → isOp lx = true) →
        (((c :: w).reverse ++ before).head?.any (isWordCont py) = true → ∀ ds,
          rest = APOSTROPHE :: ds → ds.head?.all (isWordCont py) = false) →
        At py source (some lx) ((c :: w).reverse ++ before) k rest tail)
    (hnext : Continues py source rest) (hg : g <+: w ++ rest) :
    Follows py source (previous.any isOp) before k
      ({ lexeme := lx, pos := before.length, spaceBefore := spaceBefore } :: tail)
      (c :: (w ++ rest)) (c :: g) := by
  subst hw
  rcases isPrefix_append_ne hg with ⟨hg, hne⟩ | ⟨q, rfl, hq⟩
  · obtain ⟨hnone, hsome⟩ := findClose_cut hescape hclose (isPrefix_of_concat hg hne)
    obtain ⟨inner, hinner⟩ := hsome (closeParens k)
    refine Follows.cut (balanceFrom_open hopens hnone k) (fun _ _ => ?_) (length_lt_of_cut hg hne)
    have := haccepts hinner (accepts_closeParens k)
    simpa [closerForPartialSpan] using this
  · have hbalance := balanceFrom_closed (by simpa using hopens)
      (congrArg CloseSearch.close (findClose_append hclose q)) k
    have hnext := At.next (by simp) hcont (.inr ⟨hspace, htail⟩) hat hnext hq
    rw [hlx] at hnext
    refine Follows.whole hk ?_ ?_ hnext
    · simpa using hbalance
    · intro added _ _ hacc
      have := haccepts (congrArg CloseSearch.close (findClose_append hclose (q ++ added))) hacc
      simpa using this

theorem At.quoted (hc : isQuote c = true)
    (h : At py source previous before k (c :: cs) tokens)
    (ih : ∀ rest, rest <:+ cs → Continues py source rest) (hg : g <+: cs)
    (halone : ¬ (before.head?.any (isWordCont py) = true ∧ c :: g = [APOSTROPHE])) :
    Follows py source (previous.any isOp) before k tokens (c :: cs) (c :: g) := by
  have hmem := mem_punctuation_of_isQuote hc
  obtain ⟨lx, w, rest, spaceBefore, tail, k', hlex, rfl, rfl, hk, -, hat⟩ :=
    h.token (not_isSkipped_of_mem hmem)
  rw [lexeme_quoted hc, lexQuoted] at hlex
  split at hlex
  · cases hlex
  next content rest' hclose =>
  obtain ⟨rfl, rfl⟩ := Prod.mk.inj (Except.ok.inj hlex)
  obtain rfl : k = k' := Option.some.inj hk
  have hw : w = content ++ [c] :=
    List.append_cancel_right ((findClose_eq hclose).trans (by simp))
  have hopens : OpensSpan py before c g := by
    refine ⟨?_, .inl hc⟩
    rintro ⟨hapostrophe, hin⟩
    subst hapostrophe
    simp only [apostropheInWord, Bool.and_eq_true] at hin
    have hglued := h.glued hin.1 _ rfl
    -- the character behind it is cut off only if nothing is left but the apostrophe
    cases g with
    | nil => exact halone ⟨hin.1, rfl⟩
    | cons d g =>
      obtain ⟨front, hfront⟩ := hg
      rw [← hfront] at hglued
      cases hglued.symm.trans hin.2
  have hquote : c = APOSTROPHE ∨ c = QUOTE := by simpa [isQuote] using hc
  have hspace : pySpace c = false := by rcases hquote with rfl | rfl <;> rfl
  have htail : isComparisonTail c = false := by rcases hquote with rfl | rfl <;> rfl
  have hescape : c ≠ BACKSLASH := by rcases hquote with rfl | rfl <;> decide
  exact At.span (isWordCont_punctuation hmem) hspace htail hescape rfl hw rfl hclose hopens
    (fun hinner => accepts_quoted hc hinner) hat (ih rest' (List.suffix_append _ _)) hg

theorem balanceFrom_slash (hregex : opensRegex before = false) (g : List Char) :
    balanceFrom py before k ('/' :: g) = balanceFrom py ('/' :: before) k g := by
  rw [balanceFrom, if_neg (by simp [APOSTROPHE]), if_neg (by simp [hregex, isQuote, APOSTROPHE, QUOTE]), if_neg (by decide),
    if_neg (by decide), if_neg (by decide)]

theorem At.slash (h : At py source previous before k ('/' :: cs) tokens)
    (ih : ∀ rest, rest <:+ cs → Continues py source rest) (hg : g <+: cs) :
    Follows py source (previous.any isOp) before k tokens ('/' :: cs) ('/' :: g) := by
  obtain ⟨lx, w, rest, spaceBefore, tail, k', hlex, rfl, rfl, hk, -, hat⟩ := h.token rfl
  have hcont : isWordCont py '/' = false := isWordCont_punctuation (by decide)
  have hdivision (hslash : lexSlash previous (w ++ rest) = (.slash, w ++ rest)) :
      Follows py source (previous.any isOp) before k
        ({ lexeme := lx, pos := before.length, spaceBefore := spaceBefore } :: tail)
        ('/' :: (w ++ rest)) ('/' :: g) := by
    rw [lexeme_slash, hslash] at hlex
    obtain ⟨rfl, hrest⟩ := Prod.mk.inj (Except.ok.inj hlex)
    obtain rfl : w = [] := List.append_left_eq_self.mp hrest
    obtain rfl : k = k' := Option.some.inj hk
    have hop : previous.any isOp = false := by
      by_contra hop
      exact h.first _ rfl (by simpa using hop) rfl
    have hregex : opensRegex before = false := by
      by_contra hopen
      cases hop.symm.trans (h.opens (by simpa using hopen))
    have hnext := At.next (d := '/') rfl hcont (.inr ⟨rfl, rfl⟩) hat (ih rest List.suffix_rfl) hg
    exact Follows.whole (w := []) hk (balanceFrom_slash hregex g)
      (fun added _ _ hacc => by rw [hop]; exact accepts_slash hacc) hnext
  cases hclose : (findClose '/' (w ++ rest)).close with
  | none => exact hdivision (by rw [lexSlash, hclose])
  | some span =>
    obtain ⟨content, rest'⟩ := span
    by_cases hop : previous.any isOp = true
    · rw [lexeme_slash, lexSlash, hclose] at hlex
      simp only [hop, if_true] at hlex
      obtain ⟨rfl, rfl⟩ := Prod.mk.inj (Except.ok.inj hlex)
      obtain rfl : k = k' := Option.some.inj hk
      have hw : w = content ++ ['/'] :=
        List.append_cancel_right ((findClose_eq hclose).trans (by simp))
      have hregex := h.plain.opened _ List.mem_cons_self _ rfl
      have htake : source.take before.length = before.reverse := by
        rw [h.source_eq, ← List.length_reverse, List.take_left]
      rw [htake, List.reverse_reverse] at hregex
      have hopens : OpensSpan py before '/' g :=
        ⟨fun hapostrophe => absurd hapostrophe.1 (by decide), .inr ⟨rfl, hregex⟩⟩
      refine At.span hcont rfl rfl (by decide) rfl hw rfl hclose hopens (fun hinner hacc => ?_)
        hat (ih rest' (List.suffix_append _ _)) hg
      rw [hop]
      exact accepts_regex hinner hacc
    · refine hdivision ?_
      rw [lexSlash, hclose]
      simp only [hop]
      rfl

/-! ## Operators and symbols -/

theorem head_closeParens_ne_equals (k : ℕ) : (closeParens k).head? ≠ some '=' := by
  cases k with
  | zero => exact nofun
  | succ k => exact fun h => absurd (Option.some.inj h) (by decide)

/-- `>`, `<` and `!`, each alone or with a `=` behind it. -/
theorem orEquals_cases {two one : Lexeme py.Double} (hc : orEquals c = some (two, one)) :
    (c = '>' ∧ two = .op .ge ∧ one = .op .gt) ∨ (c = '<' ∧ two = .op .le ∧ one = .op .lt) ∨
      c = '!' ∧ two = .op .ne ∧ one = .bang := by
  unfold orEquals at hc
  split at hc
  · cases hc
    exact .inl ⟨‹_›, rfl, rfl⟩
  split at hc
  · cases hc
    exact .inr (.inl ⟨‹_›, rfl, rfl⟩)
  split at hc
  · cases hc
    exact .inr (.inr ⟨‹_›, rfl, rfl⟩)
  · cases hc

theorem lexeme_orEquals {two one : Lexeme py.Double} (hc : orEquals c = some (two, one))
    (previous : Option (Lexeme py.Double)) (pos : ℕ) (cs : List Char) :
    lexeme py {} previous pos c cs = .ok (if cs.head? = some '=' then (two, cs.tail) else (one, cs)) := by
  have hstart : startsScryfallWord {} c cs = false := rfl
  rw [lexeme, hstart, hc]
  rcases orEquals_cases hc with ⟨rfl, -⟩ | ⟨rfl, -⟩ | ⟨rfl, -⟩ <;> rfl

theorem At.operator {two one : Lexeme py.Double}
    (hc : orEquals c = some (two, one)) (h : At py source previous before k (c :: cs) tokens)
    (ih : ∀ rest, rest <:+ cs → Continues py source rest) (hg : g <+: cs) :
    Follows py source (previous.any isOp) before k tokens (c :: cs) (c :: g) := by
  have hskip : isSkipped c = false := by
    rcases orEquals_cases hc with ⟨rfl, -⟩ | ⟨rfl, -⟩ | ⟨rfl, -⟩ <;> rfl
  have hcont : isWordCont py c = false := by
    rcases orEquals_cases hc with ⟨rfl, -⟩ | ⟨rfl, -⟩ | ⟨rfl, -⟩ <;>
      exact isWordCont_punctuation (by decide)
  have hbalance (before g : List Char) : balanceFrom py before k (c :: g) = balanceFrom py (c :: before) k g :=
    balanceFrom_other (by
      rcases orEquals_cases hc with ⟨rfl, -⟩ | ⟨rfl, -⟩ | ⟨rfl, -⟩ <;> decide) before k g
  have hafter : afterLexeme k one = some k ∧ afterLexeme k two = some k := by
    rcases orEquals_cases hc with ⟨-, rfl, rfl⟩ | ⟨-, rfl, rfl⟩ | ⟨-, rfl, rfl⟩ <;> exact ⟨rfl, rfl⟩
  obtain ⟨lx, w, rest, spaceBefore, tail, k', hlex, rfl, rfl, hk, -, hat⟩ := h.token hskip
  rw [lexeme_orEquals hc] at hlex
  have haccepts {x : List Char} (hx : x.head? ≠ some '=') (hacc : Accepts py (isOp one) k x) :
      Accepts py (previous.any isOp) k (c :: x) := by
    refine accepts_symbol hskip (fun previous pos => ?_) hafter.1 hacc
    rw [lexeme_orEquals hc, if_neg hx]
  by_cases hequals : (w ++ rest).head? = some '='
  · rw [if_pos hequals] at hlex
    obtain ⟨rfl, htail⟩ := Prod.mk.inj (Except.ok.inj hlex)
    obtain rfl : k = k' := Option.some.inj (hafter.2.symm.trans hk)
    have hw : w ++ rest = ['='] ++ rest := by
      obtain ⟨front, hfront⟩ := List.head?_eq_some_iff.mp hequals
      rw [hfront] at htail ⊢
      rw [← htail]
      rfl
    obtain rfl := List.append_cancel_right hw
    rcases isPrefix_append_ne hg with ⟨hg, hne⟩ | ⟨q, rfl, hq⟩
    · -- the operator is cut to its first character
      obtain rfl := List.prefix_nil.mp (isPrefix_of_concat (a := []) hg hne)
      have hclosed : balanceFrom py before k [c] = .ok (closeParens k) := by
        rw [hbalance, balanceFrom]
      exact Follows.cut hclosed (fun _ _ => haccepts (head_closeParens_ne_equals k)
        (accepts_closeParens k)) (length_lt_of_cut hg hne)
    · have hop : isOp two = true := by
        rcases orEquals_cases hc with ⟨-, rfl, -⟩ | ⟨-, rfl, -⟩ | ⟨-, rfl, -⟩ <;> rfl
      have hnext := At.next (d := '=') rfl
        (isWordCont_punctuation (by decide)) (.inl hop) hat
        (ih rest (List.suffix_append _ _)) hq
      refine Follows.whole (w := ['=']) hk ?_ (fun added _ _ hacc => ?_) hnext
      · exact (hbalance before _).trans (balanceFrom_other (by decide) _ k q)
      · refine accepts_token hskip (fun previous _ pos => ⟨two, ?_, rfl, hk⟩) hacc
        exact lexeme_orEquals hc previous pos _
  · rw [if_neg hequals] at hlex
    obtain ⟨rfl, hrest⟩ := Prod.mk.inj (Except.ok.inj hlex)
    obtain rfl : w = [] := List.append_left_eq_self.mp hrest
    obtain rfl : k = k' := Option.some.inj (hafter.1.symm.trans hk)
    have hop : isOp one = true ∨ pySpace c = false ∧ isComparisonTail c = false := by
      rcases orEquals_cases hc with ⟨-, -, rfl⟩ | ⟨-, -, rfl⟩ | ⟨rfl, -, -⟩
      · exact .inl rfl
      · exact .inl rfl
      · exact .inr ⟨rfl, rfl⟩
    have hnext := At.next (d := c) rfl hcont hop hat (ih rest List.suffix_rfl) hg
    refine Follows.whole (w := []) hk (hbalance before g) (fun added hadded _ hacc => ?_) hnext
    refine haccepts ?_ hacc
    cases g with
    | nil =>
      rw [balanceFrom] at hadded
      obtain rfl := Except.ok.inj hadded
      exact head_closeParens_ne_equals k
    | cons d g =>
      obtain ⟨front, hfront⟩ := hg
      rw [← hfront] at hequals
      exact hequals

theorem mem_of_symbol (hc : symbol c = some lx) : c ∈ [':', '=', '+', '-', '*', '(', ')'] := by
  by_contra hmem
  simp only [List.mem_cons, List.not_mem_nil, or_false, not_or] at hmem
  simp [Tokenizer.symbol, hmem] at hc

theorem lexeme_symbol (hc : symbol c = some lx)
    (previous : Option (Lexeme py.Double)) (pos : ℕ) (cs : List Char) :
    lexeme py {} previous pos c cs = .ok (lx, cs) := by
  have hmem := mem_of_symbol hc
  have hstart : startsScryfallWord {} c cs = false := rfl
  rw [lexeme, hstart, hc]
  simp only [List.mem_cons, List.not_mem_nil, or_false] at hmem
  rcases hmem with rfl | rfl | rfl | rfl | rfl | rfl | rfl <;> rfl

theorem balanceFrom_lparen (g : List Char) :
    balanceFrom py before k ('(' :: g) = balanceFrom py ('(' :: before) (k + 1) g := by
  rw [balanceFrom, if_neg (by simp [APOSTROPHE]), if_neg (by simp [isQuote, APOSTROPHE, QUOTE]),
    if_neg (by decide), if_pos rfl]

theorem balanceFrom_rparen (hk : afterLexeme k (.rparen : Lexeme py.Double) = some k')
    (g : List Char) :
    balanceFrom py before k (')' :: g) = balanceFrom py (')' :: before) k' g := by
  have hopen : ¬ k = 0 := by
    rintro rfl
    cases hk
  rw [afterLexeme, if_neg hopen] at hk
  rw [balanceFrom, if_neg (by simp [APOSTROPHE]), if_neg (by simp [isQuote, APOSTROPHE, QUOTE]),
    if_neg (by decide), if_neg (by decide), if_pos rfl, if_neg hopen, Option.some.inj hk]

theorem At.symbol (hc : symbol c = some lx)
    (h : At py source previous before k (c :: cs) tokens)
    (ih : ∀ rest, rest <:+ cs → Continues py source rest) (hg : g <+: cs) :
    Follows py source (previous.any isOp) before k tokens (c :: cs) (c :: g) := by
  have hmem := mem_of_symbol hc
  have hall {p : Char → Bool} (hp : [':', '=', '+', '-', '*', '(', ')'].all p = true) : p c = true :=
    List.all_eq_true.mp hp c hmem
  have hskip : isSkipped c = false := by simpa using hall (p := fun c => !isSkipped c) (by decide)
  have hspace : pySpace c = false := by simpa using hall (p := fun c => !pySpace c) (by decide)
  have hcont : isWordCont py c = false := isWordCont_of_mem (by decide) hmem
  obtain ⟨lx', w, rest, spaceBefore, tail, k', hlex, rfl, rfl, hk, -, hat⟩ := h.token hskip
  rw [lexeme_symbol hc] at hlex
  obtain ⟨rfl, hrest⟩ := Prod.mk.inj (Except.ok.inj hlex)
  obtain rfl : w = [] := List.append_left_eq_self.mp hrest
  have hop : isOp lx = true ∨ pySpace c = false ∧ isComparisonTail c = false := by
    simp only [List.mem_cons, List.not_mem_nil, or_false] at hmem
    rcases hmem with rfl | rfl | rfl | rfl | rfl | rfl | rfl
    · exact .inl (by cases hc; rfl)
    · exact .inl (by cases hc; rfl)
    all_goals exact .inr ⟨rfl, rfl⟩
  have hbalance : balanceFrom py before k (c :: g) = balanceFrom py (c :: before) k' g := by
    simp only [List.mem_cons, List.not_mem_nil, or_false] at hmem
    rcases hmem with rfl | rfl | rfl | rfl | rfl | rfl | rfl
    case inr.inr.inr.inr.inr.inl =>
      cases hc
      cases hk
      exact balanceFrom_lparen g
    case inr.inr.inr.inr.inr.inr =>
      cases hc
      exact balanceFrom_rparen hk g
    all_goals
      cases hc
      cases hk
      exact balanceFrom_other (by decide) before k g
  have hnext := At.next (d := c) rfl hcont hop hat (ih rest List.suffix_rfl) hg
  exact Follows.whole (w := []) hk hbalance
    (fun added _ _ hacc => accepts_symbol hskip (fun previous pos => lexeme_symbol hc previous pos _)
      hk hacc) hnext

/-! ## Runs -/

theorem isWordCont_apostrophe : isWordCont py APOSTROPHE = false :=
  isWordCont_punctuation (by decide)

theorem apostrophe_not_mem_numberEnd (cs : List Char) : APOSTROPHE ∉ (numberEnd cs).1 := by
  intro h
  have hcont : isWordCont asciiHost APOSTROPHE = true := isWordCont_of_mem_numberEnd h
  cases isWordCont_apostrophe.symm.trans hcont

theorem mem_runEnd {a : Char} (h : a ∈ (runEnd py c cs).1) : isWordCont py a = true ∨ a = ',' ∨ a = APOSTROPHE := by
  by_cases hc : c.isDigit = true
  · by_cases hword : (numberEnd cs).2.head?.any (isWordCont py) = true
    · rw [runEnd_word hc hword] at h
      rcases List.mem_append.mp h with h | h
      · exact .inl (isWordCont_of_mem_numberEnd h)
      · exact mem_scanWordEnd h
    · rw [runEnd_number hc (by simpa using hword)] at h
      exact .inl (isWordCont_of_mem_numberEnd h)
  · rw [runEnd_of_not_digit hc] at h
    exact mem_scanWordEnd h

theorem not_opensRegex_run {d : Char} (h : isWordCont py d = true ∨ d = ',' ∨ d = APOSTROPHE)
    (before : List Char) : opensRegex (d :: before) = false := by
  rcases h with h | rfl | rfl
  · rw [opensRegex_cons (pySpace_of_isWordCont h), Bool.eq_false_iff]
    intro htail
    simp only [isComparisonTail, Bool.or_eq_true, decide_eq_true_eq] at htail
    have hmem := not_mem_punctuation h
    rcases htail with ((rfl | rfl) | rfl) | rfl <;> exact hmem (by decide)
  · exact opensRegex_cons (by decide)
  · exact opensRegex_cons (by decide)

theorem runEnd_last (h : (runEnd py c cs).1.getLast? = some APOSTROPHE) : IsWordRun py c cs ∧ (runEnd py c cs).2 = [] := by
  by_cases hc : c.isDigit = true
  · by_cases hword : (numberEnd cs).2.head?.any (isWordCont py) = true
    · refine ⟨fun _ => hword, ?_⟩
      rw [runEnd_word hc hword] at h ⊢
      cases hlast : (scanWordEnd (isWordCont py) (numberEnd cs).2).1.getLast? with
      | none =>
        rw [List.getLast?_append, hlast] at h
        exact absurd (List.mem_of_getLast? h) (apostrophe_not_mem_numberEnd cs)
      | some d =>
        rw [List.getLast?_append, hlast] at h
        obtain rfl : d = APOSTROPHE := Option.some.inj h
        exact eq_nil_of_scanWordEnd isWordCont_apostrophe hlast
    · rw [runEnd_number hc (by simpa using hword)] at h
      exact absurd (List.mem_of_getLast? h) (apostrophe_not_mem_numberEnd cs)
  · rw [runEnd_of_not_digit hc] at h ⊢
    exact ⟨fun hd => absurd hd hc, eq_nil_of_scanWordEnd isWordCont_apostrophe h⟩

theorem takeWhile_pos {F : Type} {tokens : List (Token F)} {n : ℕ} (h : ∀ t ∈ tokens, n ≤ t.pos) :
    tokens.takeWhile (fun t => decide (t.pos < n)) = [] := by
  cases tokens with
  | nil => rfl
  | cons t tokens =>
    have ht := h t List.mem_cons_self
    rw [List.takeWhile_cons_of_neg]
    simpa using ht

theorem stops_closeParens (k : ℕ) : Stops py (closeParens k) := by
  cases k with
  | zero => exact stops_nil
  | succ k =>
    exact stops_cons.mpr ⟨isWordCont_punctuation (by decide), by decide, fun h => absurd h (by decide)⟩

/-- What stands behind a run in part of the query is no more of a word than what stands
behind it in the query. -/
theorem stops_append {added : List Char} (hstops : Stops py rest) (hq : q <+: rest)
    (hadded : balanceFrom py before k q = .ok added)
    (hlast : q = [APOSTROPHE] → before.head?.any (isWordCont py) = false) :
    Stops py (q ++ added) := by
  cases q with
  | nil =>
    rw [balanceFrom] at hadded
    obtain rfl := Except.ok.inj hadded
    exact stops_closeParens k
  | cons d q =>
    obtain ⟨front, rfl⟩ := hq
    obtain ⟨hcont, hcomma, hnext⟩ := stops_cons.mp hstops
    refine stops_cons.mpr ⟨hcont, hcomma, fun hd => ?_⟩
    subst hd
    cases q with
    | cons e q => exact hnext rfl
    | nil =>
      -- the string the apostrophe opens is closed at once
      have hopens : OpensSpan py before APOSTROPHE [] := by
        refine ⟨fun hin => ?_, .inl rfl⟩
        have hword := hin.2
        rw [apostropheInWord, hlast rfl] at hword
        cases hword
      rw [balanceFrom_open hopens rfl] at hadded
      obtain rfl := Except.ok.inj hadded
      exact isWordCont_apostrophe

theorem head_append_not_cont {added : List Char}
    (hrest : rest.head?.any (isWordCont py) = false) (hq : q <+: rest)
    (hadded : balanceFrom py before k q = .ok added) :
    (q ++ added).head?.any (isWordCont py) = false := by
  cases q with
  | nil =>
    rw [balanceFrom] at hadded
    obtain rfl := Except.ok.inj hadded
    exact (stops_closeParens k).head_not_cont
  | cons d q =>
    obtain ⟨front, rfl⟩ := hq
    exact hrest

theorem At.nil (h : At py source previous before k [] tokens) : k = 0 := by
  obtain ⟨spaceBefore, hlexed⟩ := h.lexed
  have hbalanced := h.balanced
  rw [tokenizeFrom] at hlexed
  obtain rfl := Except.ok.inj hlexed
  exact Option.some.inj hbalanced

theorem follows_glued {w : List Char}
    (hc : isWordCont py c = true) (hstart : c.isDigit = true ∨ isWordStart py c = true)
    (hword : IsWordRun py c (w ++ rest)) (hw : (runEnd py c (w ++ rest)).1 = w)
    (hcomma : ¬ [',', APOSTROPHE] <:+: c :: w)
    (hk : afterLexeme k lx = some k)
    (hat : At py source (some lx) ((c :: w).reverse ++ before) k rest tail)
    (hhead : ((c :: w).reverse ++ before).head?.any (isWordCont py) = true)
    (hq : [APOSTROPHE] <+: rest) :
    Follows py source (previous.any isOp) before k
      ({ lexeme := lx, pos := before.length, spaceBefore := spaceBefore } :: tail)
      (c :: (w ++ rest)) (c :: (w ++ [APOSTROPHE])) := by
  obtain ⟨ds, rfl⟩ := hq
  obtain ⟨lx', w', rest', spaceBefore', tail', k', hlex, -, rfl, hk', hpos, -⟩ := hat.token rfl
  rw [lexeme_quoted rfl, lexQuoted] at hlex
  split at hlex
  · cases hlex
  next hclose =>
  obtain ⟨rfl, -⟩ := Prod.mk.inj (Except.ok.inj hlex)
  have hlen : before.length + (c :: (w ++ [APOSTROPHE])).length = ((c :: w).reverse ++ before).length + 1 := by
    simp only [List.length_append, List.length_reverse, List.length_cons, List.length_nil]
    omega
  have hlast : w.getLast? ≠ some APOSTROPHE := by
    intro hl
    have := (runEnd_last (by rw [hw]; exact hl)).2
    have happend : (runEnd py c _).1 ++ _ = _ := runEnd_append c (w ++ ([APOSTROPHE] ++ ds))
    rw [hw, this, List.append_nil] at happend
    simp at happend
  have hin : apostropheInWord py ((c :: w).reverse ++ before) [] = true := by
    rw [apostropheInWord, hhead]
    rfl
  refine ⟨closeParens k, ?_, fun hrange hcut => ?_, fun heq => ?_⟩
  · have hrun := balanceFrom_run (q := [APOSTROPHE]) hc (by rw [hw]) hcomma
      (fun hl => absurd hl hlast) before k
    rw [hrun, balanceFrom_apostrophe hin, balanceFrom]
  · -- both the word and the string stand before the cut
    have htake := takeWhile_pos fun t ht =>
      (Nat.add_le_add_left (Nat.le_add_left 1 w'.length) _).trans (hpos t ht)
    rw [Cut, hlen, List.takeWhile_cons_of_pos (by simp; omega), List.takeWhile_cons_of_pos (by simp), htake] at hcut
    have hglued : (source.take ((c :: w).reverse ++ before).length).getLast?.any (isWordCont py) = true := by
      rw [hat.source_eq, ← List.length_reverse, List.take_left, List.getLast?_reverse]
      exact hhead
    have hall := hcut (by simp [List.getLast?_cons]) _ rfl (.inr ⟨rfl, hglued⟩)
    rw [nesting_cons, hk] at hall
    obtain rfl : k = 0 := Option.some.inj hall
    have hrun := runEnd_apostrophe isWordCont_apostrophe hword (by rw [hw]; exact hlast)
    rw [hw] at hrun
    exact accepts_run hstart (by simpa [closeParens] using hrun) hrange accepts_nil
  · -- a string of nothing but its opener is not accepted
    have hdrop := List.append_cancel_left (List.cons.inj heq).2
    obtain rfl : ds = [] := by simpa using hdrop.symm
    cases hclose

theorem At.run (hc : isWordCont py c = true)
    (h : At py source previous before k (c :: cs) tokens)
    (ih : ∀ rest, rest <:+ cs → Continues py source rest) (hg : g <+: cs) :
    Follows py source (previous.any isOp) before k tokens (c :: cs) (c :: g) := by
  have hskip : isSkipped c = false := by
    by_contra hs
    cases (not_isWordCont_of_isSkipped (by simpa using hs)).symm.trans hc
  obtain ⟨lx, w, rest, spaceBefore, tail, k', hlex, rfl, rfl, hk, hpos, hat⟩ := h.token hskip
  obtain ⟨hrest, hstart, hkind⟩ := lexeme_run hc hlex
  have happend : (runEnd py c _).1 ++ _ = _ := runEnd_append c (w ++ rest)
  have hw : (runEnd py c (w ++ rest)).1 = w := by
    rw [← hrest] at happend
    exact List.append_cancel_right happend
  have hlx : isOp lx = false ∧ afterLexeme k lx = some k := by
    rcases hkind with ⟨-, rfl⟩ | ⟨-, -, value, rfl⟩ <;> exact ⟨rfl, rfl⟩
  obtain rfl : k = k' := Option.some.inj (hlx.2.symm.trans hk)
  have hcomma : ¬ [',', APOSTROPHE] <:+: c :: w := by
    rcases hkind with ⟨-, rfl⟩ | ⟨hd, hnumber, -⟩
    · have hwords := h.plain.words _ List.mem_cons_self _ rfl
      rwa [hw, String.toList_ofList] at hwords
    · intro hin
      have hmem : APOSTROPHE ∈ c :: w := hin.subset (by simp)
      rw [runEnd_number hd hnumber] at hw
      rcases List.mem_cons.mp hmem with rfl | hmem
      · cases isWordCont_apostrophe.symm.trans hc
      · exact apostrophe_not_mem_numberEnd _ (by rwa [hw])
  rcases isPrefix_append_ne hg with ⟨hshort, hne⟩ | ⟨q, rfl, hq⟩
  · have hfront : g <+: (runEnd py c (w ++ rest)).1 := by rwa [hw]
    have hclosed : balanceFrom py before k (c :: g) = .ok (closeParens k) := by
      have hrun := balanceFrom_run (q := []) hc hfront
        (fun hin => hcomma (hin.trans ((List.prefix_cons_inj c).mpr hshort).isInfix))
        (fun _ => rfl) before k
      rw [List.append_nil] at hrun
      rw [hrun, balanceFrom]
    refine Follows.cut hclosed (fun hrange hcut => ?_) (length_lt_of_cut hshort hne)
    have hlast : g.getLast? = some APOSTROPHE → closeParens k = [] := by
      intro hl
      obtain ⟨value, hvalue⟩ : ∃ value, lx = .word value := by
        rcases hkind with ⟨-, hword⟩ | ⟨hd, hnumber, -⟩
        · exact ⟨_, hword⟩
        · rw [runEnd_number hd hnumber] at hfront
          exact absurd (hfront.subset (List.mem_of_getLast? hl)) (apostrophe_not_mem_numberEnd _)
      have hlt := length_lt_of_cut hshort hne
      have hbehind : ∀ t ∈ tail, before.length + (c :: g).length ≤ t.pos := fun t ht =>
        le_trans (by simp only [List.length_cons]; omega) (hpos t ht)
      have hnest := hcut (by rw [List.getLast?_cons, hl]; rfl)
      rw [List.takeWhile_cons_of_pos (by simp), takeWhile_pos hbehind] at hnest
      have hall := hnest _ rfl (.inl ⟨value, hvalue⟩)
      rw [nesting_cons, hk] at hall
      obtain rfl : k = 0 := Option.some.inj hall
      rfl
    exact accepts_run hstart (runEnd_of_isPrefix hfront (stops_closeParens k) hlast) hrange
      (accepts_closeParens k)
  have hopens : opensRegex ((c :: w).reverse ++ before) = true → isOp lx = true := by
    obtain ⟨d, front, hfront⟩ := List.exists_cons_of_ne_nil (l := (c :: w).reverse) (by simp)
    have hmem : d ∈ c :: w := List.mem_reverse.mp (by rw [hfront]; exact List.mem_cons_self)
    have hd : isWordCont py d = true ∨ d = ',' ∨ d = APOSTROPHE := by
      rcases List.mem_cons.mp hmem with rfl | hmem
      · exact .inl hc
      · exact mem_runEnd (by rw [hw]; exact hmem)
    intro hregex
    rw [hfront, List.cons_append, not_opensRegex_run hd] at hregex
    cases hregex
  have hstops (hword : IsWordRun py c (w ++ rest)) : Stops py rest := by
    have := stops_runEnd hword
    rwa [← hrest] at this
  have hnumbers (value : PyNumber py.Double)
      (hlx : lx = .number value (String.ofList (c :: (runEnd py c (w ++ rest)).1))) :
      rest.head? ≠ some APOSTROPHE := by
    have hplain := h.plain.numbers _ List.mem_cons_self _ _ hlx
    have hdrop : source.drop (before.length + (c :: w).length) = rest := by
      have hsource : source = (before.reverse ++ c :: w) ++ rest := by simp [h.source_eq]
      have hlen : before.length + (c :: w).length = (before.reverse ++ c :: w).length := by simp
      rw [hsource, hlen, List.drop_left]
    rwa [hw, String.toList_ofList, hdrop] at hplain
  have hglued : ((c :: w).reverse ++ before).head?.any (isWordCont py) = true → ∀ ds,
      rest = APOSTROPHE :: ds → ds.head?.all (isWordCont py) = false := by
    rintro - ds rfl
    rcases hkind with ⟨hword, -⟩ | ⟨-, -, value, hlx⟩
    · exact (stops_cons.mp (hstops hword)).2.2 rfl
    · exact absurd rfl (hnumbers value hlx)
  have hat := hat hopens hglued
  by_cases hglue : ((c :: w).reverse ++ before).head?.any (isWordCont py) = true ∧ q = [APOSTROPHE]
  · obtain ⟨hhead, rfl⟩ := hglue
    rcases hkind with ⟨hword, -⟩ | ⟨-, -, value, hlx⟩
    · exact follows_glued hc hstart hword hw hcomma hk hat hhead hq
    · obtain ⟨ds, rfl⟩ := hq
      exact absurd rfl (hnumbers value hlx)
  have hnext := ih rest (List.suffix_append _ _) hat hq hglue
  have hend (hl : w.getLast? = some APOSTROPHE) : rest = [] := by
    rw [hrest]
    exact (runEnd_last (by rw [hw]; exact hl)).2
  have hlast (hl : w.getLast? = some APOSTROPHE) : q = [] :=
    List.prefix_nil.mp (by rw [← hend hl]; exact hq)
  have hfront : w <+: (runEnd py c (w ++ rest)).1 := by rw [hw]
  refine Follows.whole hk (balanceFrom_run hc hfront hcomma hlast before k)
    (fun added hadded hrange hacc => ?_) hnext
  have hacc : Accepts py false k (q ++ added) := by
    rwa [Option.any_some, hlx.1] at hacc
  refine accepts_run hstart ?_ hrange hacc
  rcases hkind with ⟨hword, -⟩ | ⟨hd, hnumber, -⟩
  · refine runEnd_of_isPrefix hfront (stops_append (hstops hword) hq hadded fun hq => ?_)
      fun hl => ?_
    · by_contra hhead
      exact hglue ⟨by simpa using hhead, hq⟩
    · obtain rfl := hend hl
      obtain rfl := hlast hl
      obtain rfl := hat.nil
      rw [balanceFrom] at hadded
      obtain rfl := Except.ok.inj hadded
      rfl
  · have hnum := runEnd_of_number (x := q ++ added) hd hnumber
      (head_append_not_cont (by rw [hrest, runEnd_number hd hnumber]; exact hnumber) hq hadded)
    rwa [hw] at hnum

/-! ## The query -/

theorem At.read (hc : isSkipped c = false)
    (h : At py source previous before k (c :: cs) tokens)
    (ih : ∀ rest, rest <:+ cs → Continues py source rest) (hg : g <+: cs)
    (halone : ¬ (before.head?.any (isWordCont py) = true ∧ c :: g = [APOSTROPHE])) :
    Follows py source (previous.any isOp) before k tokens (c :: cs) (c :: g) := by
  by_cases hbrace : c = '{'
  · subst hbrace
    exact h.mana ih hg
  by_cases hquote : isQuote c = true
  · exact h.quoted hquote ih hg halone
  by_cases hslash : c = '/'
  · subst hslash
    exact h.slash ih hg
  cases hequals : orEquals (F := py.Double) c with
  | some pair => exact h.operator hequals ih hg
  | none =>
    cases hsymbol : Tokenizer.symbol (F := py.Double) c with
    | some lx => exact h.symbol hsymbol ih hg
    | none =>
      refine h.run ?_ ih hg
      obtain ⟨lx, w, rest, -, -, -, hlex, -⟩ := h.token hc
      have hstart : startsScryfallWord {} c cs = false := rfl
      rw [lexeme, hstart, if_neg (by decide), if_neg hbrace, if_neg hquote, if_neg hslash, hequals, hsymbol] at hlex
      simp only at hlex
      split at hlex
      · next hdigit => exact isWordCont_of_isDigit hdigit
      split at hlex
      · next hword => exact isWordCont_of_isWordStart hword
      · cases hlex

theorem continues (source rest : List Char) : Continues py source rest := by
  induction hn : rest.length using Nat.strong_induction_on generalizing rest with
  | _ n ih =>
    intro previous before k tokens q h hq halone
    cases q with
    | nil =>
      refine ⟨closeParens k, by rw [balanceFrom], fun _ _ => accepts_closeParens k, ?_⟩
      rintro rfl
      rw [h.nil]
      rfl
    | cons c g =>
      cases rest with
      | nil => simp at hq
      | cons d cs =>
        obtain ⟨rfl, hg⟩ := List.cons_prefix_cons.mp hq
        have hshorter (rest : List Char) (hrest : rest <:+ cs) : Continues py source rest :=
          ih rest.length (by
            have := hrest.length_le
            simp only [← hn, List.length_cons]
            omega) rest rfl
        by_cases hc : isSkipped c = true
        · have hnot : ¬ (c :: before).head?.any (isWordCont py) = true := by
            simp [not_isWordCont_of_isSkipped hc]
          obtain ⟨added, hadded, hacc, hfull⟩ :=
            hshorter cs List.suffix_rfl (h.skip hc) hg fun hin => hnot hin.1
          have hpass : c ∉ [APOSTROPHE, QUOTE, '/', '{', '(', ')'] := by
            simp only [isSkipped, isSpace, Bool.or_eq_true, decide_eq_true_eq] at hc
            rcases hc with (((rfl | rfl) | rfl) | rfl) | rfl <;> decide
          refine ⟨added, (balanceFrom_other hpass before k g).trans hadded,
            fun hrange hcut => ?_, fun heq => hfull (List.cons.inj heq).2⟩
          exact accepts_skip hc (hacc (hrange.of_infix (List.suffix_cons c g).isInfix) hcut.skip)
        · exact h.read (by simpa using hc) hshorter hg halone

theorem At.start {tokens : List (Token py.Double)} (hlex : tokenize py source {} = .ok tokens)
    (hbalanced : Balanced tokens) (hplain : Plain py source tokens) :
    At py source none [] 0 source tokens where
  source_eq := rfl
  lexed := ⟨false, hlex⟩
  balanced := hbalanced
  plain := hplain
  first := fun _ _ hop => by cases hop
  opens := fun hregex => by cases hregex
  glued := fun hhead => by cases hhead

/-- **Balancer and lexer agree on a plain query**: accepted with balanced parentheses, it is
left as it is, and no prefix of it fails. A prefix becomes a query that is accepted with
balanced parentheses, unless it leaves the range of the numbers or ends mid-word inside a
parenthesis. -/
theorem balancePartialQuery_agrees {query : List Char} {tokens : List (Token py.Double)}
    (hlex : tokenize py (foldTypographicQuotes query) {} = .ok tokens)
    (hbalanced : Balanced tokens) (hplain : Plain py (foldTypographicQuotes query) tokens) :
    balancePartialQuery py query = .ok (foldTypographicQuotes query) ∧
      ∀ n, ∃ result, balancePartialQuery py (query.take n) = .ok result ∧
        (InRange py (foldTypographicQuotes (query.take n)) →
          (MidWord py (foldTypographicQuotes query) tokens n →
            nesting 0 (tokens.takeWhile (·.pos < n)) = some 0) →
          ∃ tokens', tokenize py result {} = .ok tokens' ∧ Balanced tokens') := by
  have hstart := At.start hlex hbalanced hplain
  have hwhole : balancePartialQuery py query = .ok (foldTypographicQuotes query) := by
    obtain ⟨added, hadded, -, hfull⟩ :=
      continues _ _ hstart List.prefix_rfl fun hin => by cases hin.1
    obtain rfl := hfull rfl
    rw [balancePartialQuery, hadded]
    simp [Except.map]
  refine ⟨hwhole, fun n => ?_⟩
  by_cases hn : query.length ≤ n
  · rw [List.take_of_length_le hn]
    exact ⟨_, hwhole, fun _ _ => ⟨tokens, hlex, hbalanced⟩⟩
  have htake : foldTypographicQuotes (query.take n) = (foldTypographicQuotes query).take n := by
    simp [foldTypographicQuotes, List.map_take]
  obtain ⟨added, hadded, hacc, -⟩ :=
    continues _ _ hstart (List.take_prefix n _) fun hin => by cases hin.1
  refine ⟨(foldTypographicQuotes query).take n ++ added, ?_, fun hrange hmid => ?_⟩
  · rw [balancePartialQuery, htake, hadded]
    rfl
  · rw [htake] at hrange
    have hlen : ((foldTypographicQuotes query).take n).length = n := by
      simp [foldTypographicQuotes]
      omega
    refine hacc hrange ?_ none rfl false 0
    intro hlast t ht hglued
    simp only [List.length_nil, Nat.zero_add, hlen] at ht hglued ⊢
    exact hmid ⟨hlast, t, ht, hglued⟩

/-- Of a query with a regex and an apostrophe in it, and of that query cut in the regex. -/
theorem balancePartialQuery_agrees_cut :
    balancePartialQuery asciiHost "(o:/[(]/ or urza's)".toList = .ok "(o:/[(]/ or urza's)".toList ∧
      ∃ result, balancePartialQuery asciiHost "(o:/[(".toList = .ok result ∧
        ∃ tokens, tokenize asciiHost result {} = .ok tokens ∧ Balanced tokens := by
  have hplain : Plain asciiHost (foldTypographicQuotes "(o:/[(]/ or urza's)".toList)
      [⟨.lparen, 0, false⟩, ⟨.word "o", 1, false⟩, ⟨.op .colon, 2, false⟩, ⟨.regex "[(]", 3, false⟩,
        ⟨.word "or", 9, true⟩, ⟨.word "urza's", 12, true⟩, ⟨.rparen, 18, false⟩,
        ⟨.eof, 19, false⟩] := by
    refine ⟨by decide, fun t ht value hv => ?_, fun t ht value hv => ?_,
      fun t ht value raw hv => ?_⟩
    all_goals
      simp only [List.mem_cons, List.not_mem_nil, or_false] at ht
      rcases ht with rfl | rfl | rfl | rfl | rfl | rfl | rfl | rfl
      all_goals cases hv
      all_goals decide
  have hagrees := fun hlex hbalanced => balancePartialQuery_agrees hlex hbalanced hplain
  obtain ⟨hwhole, hcut⟩ := hagrees (by decide +kernel) rfl
  obtain ⟨result, hresult, haccepts⟩ := hcut 6
  refine ⟨hwhole, result, hresult, haccepts (fun a b hin => ?_) fun hmid => ?_⟩
  · have hpoint : '.' ∈ foldTypographicQuotes ("(o:/[(]/ or urza's)".toList.take 6) :=
      hin.subset (List.mem_append_right a List.mem_cons_self)
    exact absurd hpoint (by decide)
  · exact absurd hmid.1 (by decide)

/-- A slash behind a comparison is the lexer's division if no slash closes it; the balancer
takes it for a regex still being typed. -/
theorem balancePartialQuery_open_regex :
    ∃ tokens, tokenize asciiHost (foldTypographicQuotes "o:/a".toList) {} = .ok tokens ∧
      Balanced tokens ∧ balancePartialQuery asciiHost "o:/a".toList = .ok "o:/a/".toList ∧
      balancePartialQuery asciiHost "o:/a".toList ≠ .ok (foldTypographicQuotes "o:/a".toList) :=
  ⟨[⟨.word "o", 0, false⟩, ⟨.op .colon, 1, false⟩, ⟨.slash, 2, false⟩, ⟨.word "a", 3, false⟩,
    ⟨.eof, 4, false⟩], by decide +kernel, rfl, by decide +kernel, by decide +kernel⟩

end Balance
