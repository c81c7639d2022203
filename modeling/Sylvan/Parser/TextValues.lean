-- SUMMARY: A bare text value is kept verbatim, however the lexer cuts it.
import Mathlib.Data.List.TakeWhile
import Mathlib.Data.Rat.Floor
import Sylvan.Parser.Parser

/-!
# Bare text values

The lexer cuts a value at its hyphens, and reads a piece as a number or as a word. A number
keeps its spelling, so that the parser glues the pieces to what was typed.
-/

namespace TextValues

open Tokenizer Parser Loops

/-! ## Values -/

def isPieceStart (c : Char) : Bool := c.isAlphanum || c = '_' || c = '~'

def isPieceCont (c : Char) : Bool := isPieceStart c || c = '.'

/-- What stands between two hyphens of a value. -/
structure Piece where
  first : Char
  rest : List Char
  starts : isPieceStart first = true
  goesOn : rest.all isPieceCont = true

def Piece.text (p : Piece) : List Char := p.first :: p.rest

def joined : List Piece → List Char
  | [] => []
  | [p] => p.text
  | p :: ps => p.text ++ '-' :: joined ps

def joinedBehind (ps : List Piece) : List Char := ps.flatMap fun p => '-' :: p.text

theorem joined_cons (p : Piece) (ps : List Piece) : joined (p :: ps) = p.text ++ joinedBehind ps := by
  induction ps generalizing p with
  | nil => simp [joined, joinedBehind]
  | cons q ps ih =>
    rw [joined, ih q]
    · simp [joinedBehind]
    · nofun

/-- A decimal number of the piece is within the range of doubles. -/
def InRange (py : PyHost) (text : List Char) : Prop :=
  ∀ front back, text = front ++ '.' :: back → front ≠ [] → front.all Char.isDigit = true → back ≠ [] →
    back.all Char.isDigit = true → (py.number (String.ofList text)).isSome = true

/-- `str.lower()` of ASCII. -/
def LowersAscii (py : PyHost) : Prop :=
  ∀ s : String, (∀ c ∈ s.toList, c.toNat < 0x80) → py.pyLower s = String.ofList (s.toList.map Char.toLower)

/-! ## Lexing a piece -/

variable {py : PyHost}

variable {c : Char}

theorem toNat_of_pieceCont (h : isPieceCont c = true) : c.isAlphanum = true ∨ c = '_' ∨ c = '~' ∨ c = '.' := by
  simp only [isPieceCont, isPieceStart, Bool.or_eq_true, decide_eq_true_eq] at h
  tauto

theorem isWordCont_of_piece (h : isPieceCont c = true) : isWordCont py c = true := by
  rcases toNat_of_pieceCont h with h | rfl | rfl | rfl
  · simp [isWordCont, h]
  all_goals rfl

def EndsWord (rest : List Char) : Prop := ∀ c ∈ rest.head?, c = ':' ∨ c = '-'

theorem endsWord_nil : EndsWord [] := nofun

theorem endsWord_colon (rest : List Char) : EndsWord (':' :: rest) :=
  fun _ hc => .inl (Option.some.inj hc).symm

theorem endsWord_joinedBehind (ps : List Piece) : EndsWord (joinedBehind ps) := by
  cases ps with
  | nil => exact endsWord_nil
  | cons p ps => exact fun _ hc => .inr (Option.some.inj hc).symm

theorem isWordCont_of_ends (hc : c = ':' ∨ c = '-') : isWordCont py c = false := by
  rcases hc with rfl | rfl
  · simp [isWordCont, py.isAlphaCp_ascii ':' (by decide)]
  · simp [isWordCont, py.isAlphaCp_ascii '-' (by decide)]

theorem isScryfallWordCont_of_ends (hc : c = ':' ∨ c = '-') : isScryfallWordCont py c = false := by
  rw [isScryfallWordCont, isWordCont_of_ends hc]
  rcases hc with rfl | rfl
  · rfl
  · rfl

variable {cs rest : List Char}

theorem scanWordEnd_append_piece (hcs : cs.all isPieceCont = true) (hrest : EndsWord rest) :
    scanWordEnd (isWordCont py) (cs ++ rest) = (cs, rest) := by
  induction cs with
  | nil =>
    cases rest with
    | nil => rfl
    | cons c rest =>
      have hends := hrest c rfl
      have hplain : c ≠ ',' ∧ c ≠ Spans.APOSTROPHE := by
        rcases hends with rfl | rfl
        · decide
        · decide
      rw [List.nil_append, scanWordEnd, if_neg (by simp [isWordCont_of_ends hends, hplain])]
  | cons c cs ih =>
    rw [List.all_cons] at hcs
    obtain ⟨hc, hcs⟩ := Bool.and_eq_true_iff.mp hcs
    rw [List.cons_append, scanWordEnd, if_pos (by simp [isWordCont_of_piece hc]), ih hcs]

theorem scanScryfallWordEnd_append_piece (hcs : cs.all isPieceCont = true)
    (hrest : EndsWord rest) : scanScryfallWordEnd py (cs ++ rest) = (cs, rest) := by
  induction cs with
  | nil =>
    cases rest with
    | nil => rfl
    | cons c rest =>
      have hends := hrest c rfl
      have hplain : c ≠ ',' ∧ Spans.isQuote c = false ∧ c ≠ '{' ∧ c ≠ '!' := by
        rcases hends with rfl | rfl
        · decide
        · decide
      rw [List.nil_append, scanScryfallWordEnd, if_neg (by simp [isScryfallWordCont_of_ends hends, hplain])]
  | cons c cs ih =>
    rw [List.all_cons] at hcs
    obtain ⟨hc, hcs⟩ := Bool.and_eq_true_iff.mp hcs
    rw [List.cons_append, scanScryfallWordEnd, if_pos (by simp [isScryfallWordCont, isWordCont_of_piece hc]), ih hcs]

theorem wordEnd_append_piece (options : LexOptions) (hcs : cs.all isPieceCont = true)
    (hrest : EndsWord rest) : wordEnd py options (cs ++ rest) = (cs, rest) := by
  rw [wordEnd]
  split
  · exact scanScryfallWordEnd_append_piece hcs hrest
  · exact scanWordEnd_append_piece hcs hrest

theorem wordCont_of_piece (options : LexOptions) (h : isPieceCont c = true) : wordCont py options c = true := by
  rw [wordCont]
  split
  · rw [isScryfallWordCont, isWordCont_of_piece h, Bool.or_true]
  · exact isWordCont_of_piece h

theorem wordCont_of_ends (options : LexOptions) (hc : c = ':' ∨ c = '-') : wordCont py options c = false := by
  rw [wordCont]
  split
  · exact isScryfallWordCont_of_ends hc
  · exact isWordCont_of_ends hc

/-! ### Numbers -/

variable {rest : List Char}

theorem head_of_ends (hrest : EndsWord rest) : ∀ c ∈ rest.head?, c.isDigit = false ∧ c ≠ '.' := by
  intro c hc
  rcases hrest c hc with rfl | rfl
  · decide
  · decide

theorem digits_append_piece (cs : List Char) (hrest : EndsWord rest) :
    digits (cs ++ rest) = ((digits cs).1, (digits cs).2 ++ rest) := by
  simp only [digits, List.span_eq_takeWhile_dropWhile]
  induction cs with
  | nil =>
    cases rest with
    | nil => rfl
    | cons c rest => simp [(head_of_ends hrest c rfl).1]
  | cons c cs ih =>
    obtain ⟨htake, hdrop⟩ := Prod.mk.inj ih
    by_cases hc : c.isDigit = true
    · simp [hc, htake, hdrop]
    · simp [hc]

theorem fraction_append_piece (cs : List Char) (hrest : EndsWord rest) :
    fraction (cs ++ rest) = ((fraction cs).1, (fraction cs).2 ++ rest) := by
  have hhead := head_of_ends hrest
  match cs with
  | [] =>
    match rest with
    | [] => rfl
    | [c] => rfl
    | c :: d :: rest => simp [fraction, (hhead c rfl).2]
  | [c] =>
    match rest with
    | [] => rfl
    | d :: rest => simp [fraction, (hhead d rfl).1]
  | c :: d :: cs =>
    simp only [List.cons_append, fraction]
    split
    · rw [digits_append_piece cs hrest]
    · rfl

theorem numberEnd_append_piece (cs : List Char) (hrest : EndsWord rest) :
    numberEnd (cs ++ rest) = ((numberEnd cs).1, (numberEnd cs).2 ++ rest) := by
  simp only [numberEnd, digits_append_piece cs hrest, fraction_append_piece _ hrest]

theorem decimal_of_contains {cs : List Char} (hc : c.isDigit = true)
    (hpoint : (c :: (numberEnd cs).1).contains '.' = true) :
    ∃ front back, c :: (numberEnd cs).1 = front ++ '.' :: back ∧ front ≠ [] ∧ front.all Char.isDigit = true ∧
      back ≠ [] ∧ back.all Char.isDigit = true := by
  have hall (ds : List Char) : (digits ds).1.all Char.isDigit = true := by
    simp [digits, List.span_eq_takeWhile_dropWhile]
  have hno {ds : List Char} (hds : ds.all Char.isDigit = true) : '.' ∉ ds :=
    fun hin => absurd (List.all_eq_true.mp hds _ hin) (by decide)
  have hfront : (c :: (digits cs).1).all Char.isDigit = true := by rw [List.all_cons, hc, hall cs]; rfl
  rw [numberEnd] at hpoint ⊢
  generalize hfrac : fraction (digits cs).2 = frac at hpoint ⊢
  unfold fraction at hfrac
  split at hfrac
  · next p d ds heq =>
      split at hfrac
      · next hp =>
          obtain ⟨hp, hd⟩ := Bool.and_eq_true_iff.mp hp
          obtain rfl := of_decide_eq_true hp
          subst hfrac
          refine ⟨c :: (digits cs).1, d :: (digits ds).1, rfl, by simp, hfront, by simp, ?_⟩
          rw [List.all_cons, hd, hall ds]
          rfl
      · subst hfrac
        simp only [List.append_nil, List.contains_eq_mem, decide_eq_true_eq] at hpoint
        exact absurd hpoint (hno hfront)
  · subst hfrac
    simp only [List.append_nil, List.contains_eq_mem, decide_eq_true_eq] at hpoint
    exact absurd hpoint (hno hfront)

/-! ### Pieces -/

def IsText (lx : Lexeme py.Double) (text : List Char) : Prop :=
  lx = .word (String.ofList text) ∨ ∃ value, lx = .number value (String.ofList text)

theorem lexNumber_piece (options : LexOptions) (pos : ℕ) (hc : c.isDigit = true)
    (hcs : cs.all isPieceCont = true) (hrange : InRange py (c :: cs)) (hrest : EndsWord rest) :
    ∃ lx, lexNumber py options pos c (cs ++ rest) = .ok (lx, rest) ∧ IsText lx (c :: cs) := by
  have happ := numberEnd_append cs
  rw [lexNumber, numberEnd_append_piece cs hrest]
  cases hsnd : (numberEnd cs).2 with
  | cons d ds =>
    have hds : (d :: ds).all isPieceCont = true := by
      rw [← happ, hsnd, List.all_append] at hcs
      exact (Bool.and_eq_true_iff.mp hcs).2
    have hd : wordCont py options d = true := wordCont_of_piece options (List.all_eq_true.mp hds d (by simp))
    rw [hsnd] at happ
    refine ⟨.word (String.ofList (c :: cs)), ?_, .inl rfl⟩
    have hend : wordEnd py options (d :: ds ++ rest) = (d :: ds, rest) := wordEnd_append_piece options hds hrest
    rw [List.cons_append] at hend
    simp only [List.cons_append, List.head?_cons, Option.any_some, hd, if_true, lexWord, hend, happ]
  | nil =>
    rw [hsnd, List.append_nil] at happ
    have hends : rest.head?.any (wordCont py options) = false := by
      cases rest with
      | nil => rfl
      | cons d rest => exact wordCont_of_ends options (hrest d rfl)
    simp only [List.nil_append, hends, Bool.false_eq_true, if_false]
    rw [happ]
    by_cases hpoint : (c :: cs).contains '.' = true
    · rw [if_pos hpoint]
      rw [← happ] at hpoint
      obtain ⟨front, back, heq, hdecimal⟩ := decimal_of_contains hc hpoint
      rw [happ] at heq
      obtain ⟨value, hvalue⟩ := Option.isSome_iff_exists.mp (hrange front back heq hdecimal.1 hdecimal.2.1
        hdecimal.2.2.1 hdecimal.2.2.2)
      rw [hvalue]
      exact ⟨_, rfl, .inr ⟨_, rfl⟩⟩
    · rw [if_neg hpoint]
      exact ⟨_, rfl, .inr ⟨_, rfl⟩⟩

theorem ne_of_starts {c x : Char} (hc : isPieceStart c = true) (hx : isPieceStart x = false) : c ≠ x := by
  intro heq
  rw [heq, hx] at hc
  cases hc

theorem lexeme_piece (options : LexOptions) (previous : Option (Lexeme py.Double)) (pos : ℕ)
    (cs : List Char) (hc : isPieceStart c = true) :
    lexeme py options previous pos c cs =
      if c.isDigit then lexNumber py options pos c cs else .ok (lexWord py options [c] cs) := by
  have hne {x : Char} (hx : isPieceStart x = false) : c ≠ x := ne_of_starts hc hx
  have hpunctuation : isScryfallPunctuation c = false := by
    simp only [isScryfallPunctuation, List.contains_eq_mem, decide_eq_false_iff_not]
    intro hin
    have hnone : ∀ x ∈ ['[', ']', '?', ';', '&', '|', '@', '$', '%', Char.ofNat 0x60, '#', '^', '+', '*',
      Spans.BACKSLASH, '}', '.'], isPieceStart x = false := by decide
    exact hne (hnone c hin) rfl
  have hquote : Spans.isQuote c = false := by simp [Spans.isQuote, hne (x := Spans.QUOTE) rfl, hne (x := Spans.APOSTROPHE) rfl]
  have hequals : (orEquals c : Option (Lexeme py.Double × Lexeme py.Double)) = none := by
    simp [orEquals, hne (x := '>') rfl, hne (x := '<') rfl, hne (x := '!') rfl]
  have hsymbol : (symbol c : Option (Lexeme py.Double)) = none := by
    simp [symbol, hne (x := ':') rfl, hne (x := '=') rfl, hne (x := '+') rfl, hne (x := '-') rfl, hne (x := '*') rfl,
      hne (x := '(') rfl, hne (x := ')') rfl]
  have hstarts : startsScryfallWord options c cs = false := by
    simp [startsScryfallWord, hpunctuation, hquote, hne (x := '{') rfl, hne (x := '!') rfl]
  rw [lexeme, if_neg (by simp [hstarts]), if_neg (hne rfl), if_neg (by simp [hquote]), if_neg (hne rfl), hequals, hsymbol]
  by_cases hdigit : c.isDigit = true
  · simp [hdigit]
  · have hword : isWordStart py c = true := by
      simp only [isPieceStart, Char.isAlphanum, Bool.or_eq_true, decide_eq_true_eq, hdigit, Bool.false_eq_true,
        or_false] at hc
      simp only [isWordStart, Bool.or_eq_true, decide_eq_true_eq]
      tauto
    simp [hdigit, hword]

theorem lexes_word (options : LexOptions) (previous : Option (Lexeme py.Double)) (pos : ℕ)
    (hc : isPieceStart c = true) (hdigit : c.isDigit = false) (hcs : cs.all isPieceCont = true)
    (hrest : EndsWord rest) :
    lexeme py options previous pos c (cs ++ rest) = .ok (.word (String.ofList (c :: cs)), rest) := by
  rw [lexeme_piece options previous pos _ hc, if_neg (by simp [hdigit]), lexWord, wordEnd_append_piece options hcs hrest]
  rfl

theorem lexes (options : LexOptions) (previous : Option (Lexeme py.Double)) (pos : ℕ) (p : Piece)
    (hrange : InRange py p.text) (hrest : EndsWord rest) :
    ∃ lx, lexeme py options previous pos p.first (p.rest ++ rest) = .ok (lx, rest) ∧ IsText lx p.text := by
  rw [lexeme_piece options previous pos _ p.starts]
  split
  · next hdigit => exact lexNumber_piece options pos hdigit p.goesOn hrange hrest
  · refine ⟨_, ?_, .inl rfl⟩
    rw [lexWord, wordEnd_append_piece options p.goesOn hrest]
    rfl

theorem isSkipped_piece (p : Piece) : isSkipped p.first = false := by
  have hne {x : Char} (hx : isPieceStart x = false) : p.first ≠ x := ne_of_starts p.starts hx
  simp [isSkipped, isSpace, hne (x := ' ') rfl, hne (x := '\t') rfl, hne (x := '\r') rfl, hne (x := '\n') rfl,
    hne (x := ',') rfl]

/-! ## The tokens of a value -/

theorem tokenizes_cons {options : LexOptions} {previous : Option (Lexeme py.Double)} {pos : ℕ}
    {lx : Lexeme py.Double} {P : List (Token py.Double) → Prop} (hc : isSkipped c = false)
    (hlex : lexeme py options previous pos c cs = .ok (lx, rest))
    (hrest : ∀ previous pos, ∃ ts, tokenizeFrom py options previous false pos rest = .ok ts ∧ P ts) :
    ∃ tail, tokenizeFrom py options previous false pos (c :: cs) = .ok (⟨lx, pos, false⟩ :: tail) ∧ P tail := by
  obtain ⟨tail, htail, hP⟩ := hrest (some lx) (pos + 1 + (cs.length - rest.length))
  exact ⟨tail, (tokenizeFrom_ok hc).mpr ⟨lx, rest, tail, hlex, htail, rfl⟩, hP⟩

mutual

/-- The tokens of a value: its first piece, and what stands behind it. -/
inductive Value : Piece → List Piece → List (Token py.Double) → Prop where
  | piece {p ps lx tail} (pos : ℕ) (text : IsText lx p.text) (behind : Behind ps tail) :
      Value p ps (⟨lx, pos, false⟩ :: tail)

/-- The tokens behind a piece: a minus and a value, or the end. -/
inductive Behind : List Piece → List (Token py.Double) → Prop where
  | ended (pos : ℕ) : Behind [] [⟨.eof, pos, false⟩]
  | hyphen {p ps tail} (pos : ℕ) (value : Value p ps tail) : Behind (p :: ps) (⟨.minus, pos, false⟩ :: tail)

end

theorem lexeme_minus (options : LexOptions) (previous : Option (Lexeme py.Double)) (pos : ℕ) (cs : List Char) :
    lexeme py options previous pos '-' cs = .ok (.minus, cs) := by
  have hstarts : startsScryfallWord options '-' cs = false := by
    simp [startsScryfallWord, show isScryfallPunctuation '-' = false from rfl, show Spans.isQuote '-' = false from rfl]
  rw [lexeme, if_neg (by simp [hstarts])]
  rfl

theorem lexeme_colon (options : LexOptions) (previous : Option (Lexeme py.Double)) (pos : ℕ) (cs : List Char) :
    lexeme py options previous pos ':' cs = .ok (.op .colon, cs) := by
  have hstarts : startsScryfallWord options ':' cs = false := by
    simp [startsScryfallWord, show isScryfallPunctuation ':' = false from rfl, show Spans.isQuote ':' = false from rfl]
  rw [lexeme, if_neg (by simp [hstarts])]
  rfl

theorem tokenizes_value (options : LexOptions) {p : Piece} {ps : List Piece} (hrange : ∀ q ∈ p :: ps, InRange py q.text)
    (previous : Option (Lexeme py.Double)) (pos : ℕ) :
    ∃ ts, tokenizeFrom py options previous false pos (p.text ++ joinedBehind ps) = .ok ts ∧ Value p ps ts := by
  obtain ⟨lx, hlex, htext⟩ := lexes options previous pos p (hrange p (by simp)) (endsWord_joinedBehind ps)
  have hbehind : ∀ previous pos,
      ∃ ts, tokenizeFrom py options previous false pos (joinedBehind ps) = .ok ts ∧ Behind ps ts := by
    intro previous pos
    cases ps with
    | nil =>
      refine ⟨_, ?_, .ended pos⟩
      rw [joinedBehind, List.flatMap_nil, tokenizeFrom]
    | cons q qs =>
      obtain ⟨tail, htail, hvalue⟩ := tokenizes_cons (by decide) (lexeme_minus options previous pos _)
        (tokenizes_value options (fun r hr => hrange r (List.mem_cons_of_mem _ hr)))
      exact ⟨_, htail, .hyphen pos hvalue⟩
  obtain ⟨tail, htail, hps⟩ := tokenizes_cons (isSkipped_piece p) hlex hbehind
  exact ⟨_, htail, .piece pos htext hps⟩

/-! ## Reading the value -/

variable {host : ParserHost}

variable {text : List Char}

theorem textOf_isText {lx : Lexeme host.Double} (h : IsText lx text) : textOf lx = String.ofList text := by
  rcases h with rfl | ⟨value, rfl⟩
  · rfl
  · rfl

theorem gluedText_isText {lx : Lexeme host.Double} (h : IsText lx text) (pos : ℕ) :
    gluedText (⟨lx, pos, false⟩ : Token host.Double) = true := by
  rcases h with rfl | ⟨value, rfl⟩
  · rfl
  · rfl

def ended (pos : ℕ) : Tokens host := [⟨.eof, pos, false⟩]

theorem next_cons (tok : Token host.Double) (ts : Tokens host) : next (tok :: ts) = tok := rfl

theorem peek_one (tok tok' : Token host.Double) (ts : Tokens host) : peek (tok :: tok' :: ts) 1 = tok' := rfl

variable {ts : Tokens host}

theorem textStep_end (h : Behind [] ts) (word : String) : textStep word ts = .ok (.stop (word, ts)) := by
  cases h
  rfl

theorem textStep_piece {p : Piece} {ps : List Piece} (h : Behind (p :: ps) ts) (word : String) :
    ∃ tail, Behind ps tail ∧ ts.length = tail.length + 2 ∧
      textStep word ts = .ok (.go (word ++ "-" ++ String.ofList p.text, tail)) := by
  cases h with
  | hyphen pos value =>
    obtain ⟨pos', htext, hbehind⟩ := value
    refine ⟨_, hbehind, rfl, ?_⟩
    simp only [textStep, next_cons, peek_one, gluedText_isText htext, textOf_isText htext, Bool.false_eq_true, if_false,
      if_true, List.tail_cons]

theorem loop_behind {ps : List Piece} (h : Behind ps ts) (word : String) {fuel : ℕ}
    (hfuel : ts.length < fuel) :
    ∃ pos, loop (fun (word, ts) => textStep word ts) fuel (word, ts) =
      .ok (String.ofList (word.toList ++ joinedBehind ps), ended pos) := by
  induction ps generalizing ts word fuel with
  | nil =>
    obtain ⟨fuel, rfl⟩ := Nat.exists_eq_succ_of_ne_zero (Nat.ne_zero_of_lt hfuel)
    have hstep := textStep_end h word
    obtain ⟨pos⟩ := h
    refine ⟨pos, ?_⟩
    rw [loop_stop hstep]
    simp [joinedBehind, ended]
  | cons p ps ih =>
    obtain ⟨fuel, rfl⟩ := Nat.exists_eq_succ_of_ne_zero (Nat.ne_zero_of_lt hfuel)
    obtain ⟨tail, hbehind, hlen, hstep⟩ := textStep_piece h word
    obtain ⟨pos, hloop⟩ := ih hbehind (word ++ "-" ++ String.ofList p.text) (by omega : tail.length < fuel)
    refine ⟨pos, ?_⟩
    rw [loop_go hstep, hloop]
    simp [joinedBehind]

theorem glueSlashes_behind {ps : List Piece} (h : Behind ps ts) : glueSlashes ts = .ok ("", ts) := by
  rw [glueSlashes, scan, loop_stop]
  cases h with
  | ended pos => rfl
  | hyphen pos value => rfl

theorem textTail_behind {ps : List Piece} (h : Behind ps ts) (word : String) : ∃ pos, textTail word ts =
      .ok (.string (String.ofList (word.toList ++ joinedBehind ps)) false false, ended pos) := by
  obtain ⟨pos, hloop⟩ := loop_behind h (word ++ "") (Nat.lt_succ_self _)
  refine ⟨pos, ?_⟩
  rw [textTail, Throws.bind_ok (glueSlashes_behind h)]
  simp only [scan]
  rw [Throws.bind_ok hloop, String.append_empty]

theorem parseTextValue_value (attr : String) {p : Piece} {ps : List Piece} (h : Value p ps ts) :
    ∃ pos, parseTextValue attr ts = .ok (.string (String.ofList (joined (p :: ps))) false false, ended pos) := by
  obtain ⟨pos, htext, hbehind⟩ := h
  obtain ⟨pos', hvalue⟩ := textTail_behind hbehind (String.ofList p.text)
  refine ⟨pos', ?_⟩
  rw [String.toList_ofList] at hvalue
  rw [joined_cons, ← hvalue]
  rcases htext with rfl | ⟨value, rfl⟩
  · rfl
  · rfl

/-! ## The whole query -/

def isTextAlias (a : String) : Bool :=
  (aliasToFieldInfos a).any (·.parserClass = .text) && !(aliasToFieldInfos a).any (·.parserClass = .numeric)

/-- The table has one text column for the alias, and no other meaning; it is a word. -/
def Plain (a : String) (fi : FieldInfo) : Prop :=
  (fieldInfosOf a .text = [fi] ∧ aliasToPC a = some .text ∧ isDualNumText a = false)
    ∧ (a ≠ "and" ∧ a ≠ "or" ∧ DIRECTIVE_NAMES.contains a = false)
    ∧ Vocabulary.COLOR_COUNT_ATTRIBUTES.contains fi.dbColumnName = false
    ∧ (a.toList ≠ [] ∧ a.toList.all (fun c => c = '_' || c.isLower) = true)
    ∧ fi.dbColumnName.toList.all (fun c => c = '_' || c.isLower) = true

instance (a : String) (fi : FieldInfo) : Decidable (Plain a fi) :=
  inferInstanceAs (Decidable ((_ ∧ _ ∧ _) ∧ (_ ∧ _ ∧ _) ∧ _ ∧ (_ ∧ _) ∧ _))

theorem plain_table : ∀ fi ∈ DB_COLUMNS, ∀ a ∈ fi.searchAliases, isTextAlias a = true → Plain a fi := by
  decide +kernel

theorem aliasLetter (hc : (c = '_' || c.isLower) = true) :
    isPieceStart c = true ∧ c.isDigit = false ∧ c.toLower = c ∧ 0x20 < c.toNat ∧ c.toNat < 0x80 := by
  rcases Bool.or_eq_true_iff.mp hc with hc | hc
  · rw [of_decide_eq_true hc]
    decide
  · have hrange : 97 ≤ c.toNat ∧ c.toNat ≤ 122 := by
      unfold Char.isLower at hc
      simpa [UInt32.le_iff_toNat_le] using hc
    have hdigit : c.isDigit = false := by
      simp only [Char.isDigit, Bool.and_eq_false_iff, decide_eq_false_iff_not, ge_iff_le, UInt32.le_iff_toNat_le]
      exact .inr (by simp; omega)
    have hlower : c.toLower = c := by
      unfold Char.toLower
      rw [dif_neg]
      simp only [UInt32.le_iff_toNat_le, ge_iff_le]
      simp
      omega
    have hstart : isPieceStart c = true := by
      unfold isPieceStart Char.isAlphanum Char.isAlpha
      simp [hc]
    exact ⟨hstart, hdigit, hlower, by omega, by omega⟩

theorem pyLower_of_letters {py : PyHost} (hlower : LowersAscii py) {s : String}
    (hs : s.toList.all (fun c => c = '_' || c.isLower) = true) : py.pyLower s = s := by
  have hletter {c : Char} (hc : c ∈ s.toList) := aliasLetter (List.all_eq_true.mp hs c hc)
  rw [hlower s fun c hc => (hletter hc).2.2.2.2, List.map_congr_left fun c hc => (hletter hc).2.2.1, List.map_id',
    String.ofList_toList]

theorem lexes_alias (options : LexOptions) {a : String} (hne : a.toList ≠ [])
    (ha : a.toList.all (fun c => c = '_' || c.isLower) = true) (rest : List Char) :
    ∃ c cs, a.toList = c :: cs ∧ isSkipped c = false ∧
      lexeme py options none 0 c (cs ++ ':' :: rest) = .ok (.word a, ':' :: rest) := by
  obtain ⟨c, cs, hcs⟩ := List.exists_cons_of_ne_nil hne
  rw [hcs, List.all_cons] at ha
  obtain ⟨hc, hall⟩ := Bool.and_eq_true_iff.mp ha
  obtain ⟨hstart, hdigit, -⟩ := aliasLetter hc
  have hgoesOn : cs.all isPieceCont = true := List.all_eq_true.mpr fun d hd => by
    rw [isPieceCont, (aliasLetter (List.all_eq_true.mp hall d hd)).1, Bool.true_or]
  have hword : lexeme py options none 0 c (cs ++ ':' :: rest) = .ok (.word (String.ofList (c :: cs)), ':' :: rest) :=
    lexes_word options none 0 hstart hdigit hgoesOn (endsWord_colon rest)
  rw [← hcs, String.ofList_toList] at hword
  exact ⟨c, cs, hcs, isSkipped_piece ⟨c, cs, hstart, hgoesOn⟩, hword⟩

theorem tokenizes_query (options : LexOptions) {a : String} {p : Piece} {ps : List Piece} (hne : a.toList ≠ [])
    (ha : a.toList.all (fun c => c = '_' || c.isLower) = true) (hrange : ∀ q ∈ p :: ps, InRange py q.text) :
    ∃ pos tail, tokenize py (a.toList ++ ':' :: joined (p :: ps)) options =
      .ok (⟨.word a, 0, false⟩ :: ⟨.op .colon, pos, false⟩ :: tail) ∧ Value p ps tail := by
  obtain ⟨c, cs, hcs, hskip, hword⟩ := @lexes_alias py options a hne ha (joined (p :: ps))
  have hcolon : ∀ previous pos, ∃ ts, tokenizeFrom py options previous false pos (':' :: joined (p :: ps)) = .ok ts ∧
      ∃ pos tail, ts = ⟨.op .colon, pos, false⟩ :: tail ∧ Value p ps tail := by
    intro previous pos
    rw [joined_cons]
    obtain ⟨tail, htail, hvalue⟩ := tokenizes_cons (by decide) (lexeme_colon options previous pos _)
      (tokenizes_value options hrange)
    exact ⟨_, htail, pos, tail, rfl, hvalue⟩
  obtain ⟨_, htokens, pos, tail, rfl, hvalue⟩ := tokenizes_cons hskip hword hcolon
  rw [hcs]
  exact ⟨pos, tail, htokens, hvalue⟩

theorem parsePrimary_value (group : Tokens host → Except Fail (Node host × Tokens host)) {a : String} {fi : FieldInfo}
    (hlower : LowersAscii host.toPyHost) (hplain : Plain a fi) {p : Piece} {ps : List Piece} {tail : Tokens host}
    (hvalue : Value p ps tail) (pos : ℕ) :
    ∃ pos', parsePrimary group (⟨.word a, 0, false⟩ :: ⟨.op .colon, pos, false⟩ :: tail) =
      .ok (.binary (.attr a fi) .colon (.string (String.ofList (joined (p :: ps))) false false), ended pos') := by
  obtain ⟨⟨hfi, hpc, hdual⟩, ⟨hand, hor, hdirective⟩, hcolor, ⟨-, ha⟩, hcolumn⟩ := hplain
  have hwl := pyLower_of_letters hlower ha
  have hwl' := pyLower_of_letters hlower hcolumn
  obtain ⟨pos', hparse⟩ := parseTextValue_value a hvalue
  refine ⟨pos', ?_⟩
  have hattr : Vocabulary.attributeNode host.toPyHost a .text = .ok (.attr a fi) := by
    rw [Vocabulary.attributeNode, hwl, hfi]
  have hbinary : Vocabulary.binaryNode (.attr a fi) .colon (.string (String.ofList (joined (p :: ps))) false false) =
      (.binary (.attr a fi) .colon (.string (String.ofList (joined (p :: ps))) false false) : Node host) := by
    simp only [Vocabulary.binaryNode, hwl', hcolor, Bool.false_eq_true, if_false]
  simp only [parsePrimary, next_cons, List.tail_cons, parseWordPrimary, hwl, hand, hor, or_self, if_false, hdirective,
    Bool.false_and, Bool.false_eq_true, hdual, hpc, wordOperator, opOf, show BANG_ALIAS_CLASSES.contains .text = false from rfl]
  rw [attributeComparison, Throws.bind_ok hattr]
  simp only [parseValueForClass]
  rw [Throws.bind_ok hparse, hbinary]

theorem skipStraySlashes_word {word : String} {pos : ℕ} {spaceBefore : Bool} {tail : Tokens host} :
    skipStraySlashes ((⟨.word word, pos, spaceBefore⟩ :: tail : Tokens host)) = ⟨.word word, pos, spaceBefore⟩ :: tail := rfl

theorem parseExpr_single {group : Tokens host → Except Fail (Node host × Tokens host)} {word : String} {pos pos' : ℕ}
    {tail : Tokens host} {node : Node host}
    (h : parsePrimary group (⟨.word word, pos, false⟩ :: tail) = .ok (node, ended pos')) :
    parseExpr group (⟨.word word, pos, false⟩ :: tail) = .ok (node, ended pos') := by
  have hfactor : parseFactor group (⟨.word word, pos, false⟩ :: tail) = .ok (node, ended pos') := h
  have hand : parseAndExpr group (⟨.word word, pos, false⟩ :: tail) = .ok (node, ended pos') := by
    rw [parseAndExpr, skipStraySlashes_word, Throws.bind_ok hfactor]
    rfl
  rw [parseExpr, Throws.bind_ok hand]
  rfl

theorem pyStrip_nonempty {cs : List Char} (hc : pySpace c = false) :
    (pyStrip (String.ofList (c :: cs))).isEmpty = false := by
  have hdrop : ((c :: cs).reverse.dropWhile pySpace) ≠ [] := by
    intro hnil
    have hspace := List.dropWhile_eq_nil_iff.mp hnil c (by simp)
    rw [hc] at hspace
    cases hspace
  rw [pyStrip, String.toList_ofList, List.dropWhile_cons_of_neg (by simp [hc]), Bool.eq_false_iff]
  intro hempty
  have hlist := congrArg String.toList (String.isEmpty_iff.mp hempty)
  rw [String.toList_ofList] at hlist
  exact hdrop (List.reverse_eq_nil_iff.mp hlist)

theorem plain_of_isTextAlias {a : String} (ha : isTextAlias a = true) : ∃ fi, Plain a fi := by
  obtain ⟨hany, -⟩ := Bool.and_eq_true_iff.mp ha
  obtain ⟨fi, hfi, -⟩ := List.any_eq_true.mp hany
  obtain ⟨hcolumn, hname⟩ := List.mem_filter.mp hfi
  exact ⟨fi, plain_table fi hcolumn a (by simpa using hname) ha⟩

theorem foldQuote_of_piece (hc : isPieceCont c = true ∨ c = ':' ∨ c = '-') : foldQuote c = c := by
  have hne {x : Char} (hx : isPieceCont x = false ∧ x ≠ ':' ∧ x ≠ '-') : c ≠ x := by
    rintro rfl
    rw [hx.1] at hc
    simp [hx.2] at hc
  rw [foldQuote, if_neg, if_neg]
  · exact not_or.mpr ⟨hne (by decide), hne (by decide)⟩
  · exact not_or.mpr ⟨hne (by decide), hne (by decide)⟩

theorem piece_text_all (p : Piece) : p.text.all isPieceCont = true := by
  rw [Piece.text, List.all_cons, p.goesOn, isPieceCont, p.starts]
  rfl

theorem mem_joined {ps : List Piece} (hc : c ∈ joined ps) : isPieceCont c = true ∨ c = ':' ∨ c = '-' := by
  cases ps with
  | nil => cases hc
  | cons p ps =>
    rw [joined_cons] at hc
    rcases List.mem_append.mp hc with hc | hc
    · exact .inl (List.all_eq_true.mp (piece_text_all p) c hc)
    · obtain ⟨q, -, hq⟩ := List.mem_flatMap.mp hc
      rcases List.mem_cons.mp hq with rfl | hq
      · exact .inr (.inr rfl)
      · exact .inl (List.all_eq_true.mp (piece_text_all q) c hq)

theorem foldTypographicQuotes_query {a : String} (ha : a.toList.all (fun c => c = '_' || c.isLower) = true)
    (ps : List Piece) : foldTypographicQuotes (a.toList ++ ':' :: joined ps) = a.toList ++ ':' :: joined ps := by
  rw [foldTypographicQuotes]
  refine (List.map_congr_left fun c hc => ?_).trans (List.map_id' _)
  apply foldQuote_of_piece
  rcases List.mem_append.mp hc with hc | hc
  · exact .inl (by rw [isPieceCont, (aliasLetter (List.all_eq_true.mp ha c hc)).1, Bool.true_or])
  · rcases List.mem_cons.mp hc with rfl | hc
    · exact .inr (.inl rfl)
    · exact mem_joined hc

theorem pyStrip_query {a : String} (hne : a.toList ≠ []) (ha : a.toList.all (fun c => c = '_' || c.isLower) = true)
    (rest : List Char) : (pyStrip (String.ofList (a.toList ++ rest))).isEmpty = false := by
  obtain ⟨c, cs, hcs⟩ := List.exists_cons_of_ne_nil hne
  rw [hcs, List.all_cons] at ha
  have hrange := (aliasLetter (Bool.and_eq_true_iff.mp ha).1).2.2.2
  rw [hcs, List.cons_append]
  exact pyStrip_nonempty (pySpace_of_lt hrange.1 (by omega))

/-- **A bare text value is kept verbatim, unless a decimal number among its pieces is out of range.** -/
theorem parseQuery_bare_text (hlower : LowersAscii host.toPyHost) {a : String} (ha : isTextAlias a = true)
    {pieces : List Piece} (hne : pieces ≠ []) (hrange : ∀ p ∈ pieces, InRange host.toPyHost p.text)
    (options : LexOptions) :
    ∃ fi, fieldInfosOf a .text = [fi] ∧
      parseQuery host (String.ofList (a.toList ++ ':' :: joined pieces)) options =
        .ok (.of (.binary (.attr a fi) .colon (.string (String.ofList (joined pieces)) false false))) := by
  obtain ⟨fi, hplain⟩ := plain_of_isTextAlias ha
  refine ⟨fi, hplain.1.1, ?_⟩
  obtain ⟨p, ps, rfl⟩ := List.exists_cons_of_ne_nil hne
  obtain ⟨hnil, hletters⟩ := hplain.2.2.2.1
  obtain ⟨pos, tail, htokens, hvalue⟩ := tokenizes_query options hnil hletters hrange
  obtain ⟨pos', hprimary⟩ := parsePrimary_value (parseGroup MAX_GROUP_DEPTH) hlower hplain hvalue pos
  have hparse : parse (⟨.word a, 0, false⟩ :: ⟨.op .colon, pos, false⟩ :: tail) =
      .ok (.of (.binary (.attr a fi) .colon (.string (String.ofList (joined (p :: ps))) false false))) := by
    rw [parse, skipStraySlashes_word]
    simp only [next_cons, isEof, Bool.false_eq_true, if_false]
    rw [Throws.bind_ok (parseExpr_single hprimary)]
    rfl
  have hfold := foldTypographicQuotes_query hletters (p :: ps)
  have hstrip := pyStrip_query hnil hletters (':' :: joined (p :: ps))
  simp only [parseQuery, hstrip, Bool.false_eq_true, if_false, String.toList_ofList, hfold, htokens, hparse]
  rfl

/-! ## Out of range -/

theorem digits_digits {front rest : List Char} (hfront : front.all Char.isDigit = true)
    (hrest : ∀ c ∈ rest.head?, c.isDigit = false) : digits (front ++ rest) = (front, rest) := by
  rw [List.all_eq_true] at hfront
  rw [digits, List.span_eq_takeWhile_dropWhile, List.takeWhile_append_of_pos hfront, List.dropWhile_append_of_pos hfront]
  cases rest with
  | nil => simp
  | cons c rest => simp [hrest c rfl]

theorem numberEnd_decimal {front back : List Char} (hfront : front.all Char.isDigit = true) (hne : back ≠ [])
    (hback : back.all Char.isDigit = true) : numberEnd (front ++ '.' :: back) = (front ++ '.' :: back, []) := by
  obtain ⟨d, ds, rfl⟩ := List.exists_cons_of_ne_nil hne
  rw [List.all_cons] at hback
  obtain ⟨hd, hds⟩ := Bool.and_eq_true_iff.mp hback
  have hdigits : digits (ds ++ []) = (ds, []) := digits_digits hds nofun
  rw [List.append_nil] at hdigits
  have hfrac : fraction ('.' :: d :: ds) = ('.' :: d :: ds, []) := by simp [fraction, hd, hdigits]
  rw [numberEnd, digits_digits hfront (by simp)]
  simp only [hfrac]

theorem lexeme_out_of_range {options : LexOptions} {previous : Option (Lexeme py.Double)} {pos : ℕ}
    {front back rest : List Char} (hc : c.isDigit = true) (hfront : front.all Char.isDigit = true) (hne : back ≠ [])
    (hback : back.all Char.isDigit = true) (hrest : EndsWord rest)
    (hnone : py.number (String.ofList (c :: (front ++ '.' :: back))) = none) :
    lexeme py options previous pos c (front ++ '.' :: back ++ rest) = .error s!"Number out of range at position {pos}" := by
  have hends : rest.head?.any (wordCont py options) = false := by
    cases rest with
    | nil => rfl
    | cons d rest => exact wordCont_of_ends options (hrest d rfl)
  have hpoint : (c :: (front ++ '.' :: back)).contains '.' = true := by simp
  have hstart : isPieceStart c = true := by simp [isPieceStart, Char.isAlphanum, hc]
  rw [lexeme_piece options previous pos _ hstart, if_pos hc, lexNumber, numberEnd_append_piece _ hrest,
    numberEnd_decimal hfront hne hback]
  simp only [List.nil_append, hends, Bool.false_eq_true, if_false]
  rw [if_pos hpoint, hnone]

theorem parseQuery_out_of_range {a : String} (ha : isTextAlias a = true) {p : Piece} {ps : List Piece}
    {front back : List Char} (hp : p.rest = front ++ '.' :: back) (hfirst : p.first.isDigit = true)
    (hfront : front.all Char.isDigit = true) (hne : back ≠ []) (hback : back.all Char.isDigit = true)
    (hnone : host.number (String.ofList p.text) = none) (options : LexOptions) (q : Query host.Double) :
    parseQuery host (String.ofList (a.toList ++ ':' :: joined (p :: ps))) options ≠ .ok q := by
  obtain ⟨fi, hplain⟩ := plain_of_isTextAlias ha
  obtain ⟨hnil, hletters⟩ := hplain.2.2.2.1
  obtain ⟨c, cs, hcs, hskip, hword⟩ := @lexes_alias host.toPyHost options a hnil hletters (joined (p :: ps))
  intro hquery
  rw [parseQuery, pyStrip_query hnil hletters, if_neg Bool.false_ne_true, String.toList_ofList,
    foldTypographicQuotes_query hletters] at hquery
  cases htokens : tokenize host.toPyHost (a.toList ++ ':' :: joined (p :: ps)) options with
  | error e =>
    simp only [htokens] at hquery
    cases hquery
  | ok tokens =>
    rw [tokenize, hcs, List.cons_append] at htokens
    obtain ⟨lx, rest, tail, hlex, htail, -⟩ := (tokenizeFrom_ok hskip).mp htokens
    obtain ⟨-, rfl⟩ := Prod.mk.inj (Except.ok.inj (hlex.symm.trans hword))
    obtain ⟨lx', rest, tail', hlex', htail', -⟩ := (tokenizeFrom_ok (by decide)).mp htail
    obtain ⟨-, rfl⟩ := Prod.mk.inj (Except.ok.inj (hlex'.symm.trans (lexeme_colon _ _ _ _)))
    rw [joined_cons, Piece.text, List.cons_append] at htail'
    obtain ⟨lx'', rest, tail'', hlex'', -, -⟩ := (tokenizeFrom_ok (isSkipped_piece p)).mp htail'
    rw [Piece.text, hp] at hnone
    rw [hp, lexeme_out_of_range hfirst hfront hne hback (endsWord_joinedBehind ps) hnone] at hlex''
    cases hlex''

/-- The digits of a decimal as a natural number, and how many stand behind the point. -/
def decimalDigits (text : List Char) : ℕ × ℕ :=
  (bigInt ((digits text).1 ++ (digits text).2.tail), (digits text).2.tail.length)

/-- `2 ^ 1024 - 2 ^ 970`: from here on a decimal rounds to infinity. -/
def OVERFLOW : ℕ := (2 ^ 54 - 1) * (2 ^ 97) ^ 10

/-- A host that knows ASCII alone and no set, and reads a decimal exactly. -/
def exactHost : ParserHost where
  toPyHost :=
    { asciiHost with
      Double := ℚ
      number := fun text =>
        let (digits, places) := decimalDigits text.toList
        if digits < OVERFLOW * 10 ^ places then some (digits / 10 ^ places) else none
      negate := fun x => -x
      truncated := fun x => if 0 ≤ x then ⌊x⌋ else ⌈x⌉
      repr := toString }
  setReleaseDate _ := none

theorem exactHost_lowersAscii : LowersAscii exactHost.toPyHost := fun _ _ => rfl

theorem inRange_of_number (h : (py.number (String.ofList text)).isSome = true) : InRange py text :=
  fun _ _ _ _ _ _ _ => h

theorem inRange_of_no_point (h : '.' ∉ text) : InRange py text := by
  rintro front back rfl
  exact absurd (by simp) h

def powerOfTen (n : ℕ) : Piece :=
  ⟨'1', List.replicate n '0' ++ ['.', '5'], rfl, by simp [isPieceCont, isPieceStart, List.all_replicate]⟩

theorem zeros_digits (n : ℕ) : (List.replicate n '0').all Char.isDigit = true := by simp [List.all_replicate]

theorem thousand_pow_le {k n : ℕ} (h : 3 * k ≤ n) : (10 ^ 3) ^ k ≤ 10 ^ n := by
  rw [← Nat.pow_mul]
  exact Nat.pow_le_pow_right (by decide) h

theorem exactHost_powerOfTen {n : ℕ} (hn : 309 ≤ n) : exactHost.number (String.ofList (powerOfTen n).text) = none := by
  have hdigits : digits (powerOfTen n).text = ('1' :: List.replicate n '0', ['.', '5']) := by
    have hfront : ('1' :: List.replicate n '0').all Char.isDigit = true := by simp [List.all_replicate]
    have hpoint : ∀ c ∈ ['.', '5'].head?, c.isDigit = false := by simp
    exact digits_digits hfront hpoint
  have hvalue : bigInt ('1' :: List.replicate n '0' ++ ['5']) = 10 ^ n * 10 + 5 := by
    rw [bigInt, List.cons_append, Nat.ofDigitChars_cons, Nat.ofDigitChars_append, Nat.ofDigitChars_replicate_zero]
    simp [Nat.ofDigitChars_cons, Nat.mul_comm]
  have hlarge : OVERFLOW ≤ 10 ^ n := by
    have hoverflow : OVERFLOW ≤ (10 ^ 3) ^ 103 := by decide +kernel
    exact hoverflow.trans (thousand_pow_le hn)
  have hfinite : exactHost.number (String.ofList (powerOfTen n).text) =
      if 10 ^ n * 10 + 5 < OVERFLOW * 10 then some ((10 ^ n * 10 + 5 : ℕ) / 10 ^ 1 : ℚ) else none := by
    simp only [exactHost, String.toList_ofList, decimalDigits, hdigits, List.tail_cons, hvalue]
    rfl
  have hmuch : ¬ 10 ^ n * 10 + 5 < OVERFLOW * 10 := by
    rw [not_lt]
    exact (Nat.mul_le_mul_right 10 hlarge).trans (Nat.le_add_right _ _)
  exact hfinite.trans (if_neg hmuch)

/-- The range is needed: an artist cannot be this number. -/
theorem parseQuery_bare_text_overflow :
    ¬ ∀ pieces : List Piece, pieces ≠ [] → ∃ fi, fieldInfosOf "a" .text = [fi] ∧
      parseQuery exactHost (String.ofList ("a".toList ++ ':' :: joined pieces)) {} =
        .ok (.of (.binary (.attr "a" fi) .colon (.string (String.ofList (joined pieces)) false false))) := by
  intro h
  obtain ⟨fi, -, hquery⟩ := h [powerOfTen 309] (by simp)
  exact parseQuery_out_of_range (by decide) (p := powerOfTen 309) rfl rfl (zeros_digits 309) (by simp) rfl
    (exactHost_powerOfTen le_rfl) {} _ hquery

/-- `1.50-07e3-x`. -/
def versioned : List Piece :=
  [⟨'1', ['.', '5', '0'], rfl, rfl⟩, ⟨'0', ['7', 'e', '3'], rfl, rfl⟩, ⟨'x', [], rfl, rfl⟩]

theorem parseQuery_bare_text_versioned :
    ∃ fi, fieldInfosOf "a" .text = [fi] ∧
      parseQuery exactHost (String.ofList ("a".toList ++ ':' :: joined versioned)) {} =
        .ok (.of (.binary (.attr "a" fi) .colon (.string (String.ofList (joined versioned)) false false))) := by
  refine parseQuery_bare_text exactHost_lowersAscii (by decide) (by simp [versioned]) ?_ {}
  intro p hp
  simp only [versioned, List.mem_cons, List.not_mem_nil, or_false] at hp
  rcases hp with rfl | rfl | rfl
  · exact inRange_of_number (by decide +kernel)
  · exact inRange_of_no_point (by decide)
  · exact inRange_of_no_point (by decide)

end TextValues
