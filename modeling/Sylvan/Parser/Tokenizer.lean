-- SUMMARY: The lexer of search queries.
import Mathlib.Data.Nat.Init
import Sylvan.Data.Json
import Sylvan.Parser.Spans

/-!
# Tokens

A query is read by code points into tokens, each with where it stood and whether a
space came before it. A token's type and its value are one.
-/

/-! ## Tokens -/

/-- What `BinaryOperatorNode` takes; the lexer makes the comparisons among them. -/
inductive BinOp where
  | sub
  | ne
  | mul
  | div
  | mod
  | add
  | lt
  | le
  | eq
  | gt
  | ge
  | colon
deriving DecidableEq, Repr

def BinOp.text : BinOp → String
  | .sub => "-"
  | .ne => "!="
  | .mul => "*"
  | .div => "/"
  | .mod => "%"
  | .add => "+"
  | .lt => "<"
  | .le => "<="
  | .eq => "="
  | .gt => ">"
  | .ge => ">="
  | .colon => ":"

inductive Lexeme (F : Type) where
  | word (value : String)
  /-- The number, and its spelling in the query. -/
  | number (value : PyNumber F) (raw : String)
  | quoted (value : String)
  | regex (value : String)
  | mana (value : String)
  | op (op : BinOp)
  | plus
  | minus
  | star
  | slash
  | lparen
  | rparen
  | bang
  | eof
deriving DecidableEq, Repr

structure Token (F : Type) where
  lexeme : Lexeme F
  pos : ℕ
  spaceBefore : Bool
deriving DecidableEq, Repr

structure LexOptions where
  /-- Read every character as api.scryfall.com reads it. -/
  scryfallWords : Bool := false

namespace Tokenizer

open Spans

variable (py : PyHost)

/-! ## Characters -/

def isSpace (c : Char) : Bool := c = ' ' || c = '\t' || c = '\r' || c = '\n'

def isSkipped (c : Char) : Bool := isSpace c || c = ','

def isWordStart (c : Char) : Bool := c.isAlpha || c = '_' || c = '~' || py.isAlphaCp c

def isWordCont (c : Char) : Bool :=
  c.isAlphanum || c = '_' || c = '.' || c = '~' || py.isAlphaCp c

def foldQuote (c : Char) : Char :=
  if c = '‘' ∨ c = '’' then APOSTROPHE else if c = '“' ∨ c = '”' then QUOTE else c

def foldTypographicQuotes (query : List Char) : List Char := query.map foldQuote

/-! ## Words -/

/-- A word's characters from here, and what follows them: a comma belongs to the word,
and an apostrophe with more of the word, or nothing, behind it. -/
def scanWordEnd (cont : Char → Bool) : List Char → List Char × List Char
  | [] => ([], [])
  | c :: cs =>
    if cont c || c = ',' || (c = APOSTROPHE && cs.head?.all cont) then
      (c :: (scanWordEnd cont cs).1, (scanWordEnd cont cs).2)
    else ([], c :: cs)

def isScryfallPunctuation (c : Char) : Bool :=
  ['[', ']', '?', ';', '&', '|', '@', '$', '%', Char.ofNat 0x60, '#', '^', '+', '*', BACKSLASH, '}', '.'].contains c

def isScryfallWordCont (c : Char) : Bool := isScryfallPunctuation c || isWordCont py c

/-- Whether nothing closes the quote or brace `c`, with `cs` behind it. -/
def isUnclosedOpener (c : Char) (cs : List Char) : Bool :=
  if c = '{' then (braceClose cs).isNone else (findClose c cs).close.isNone

/-- Whether a `!` has nothing glued behind it. -/
def bangStandsAlone (cs : List Char) : Bool := cs.head?.all fun c => isSkipped c || c = ')'

def scanScryfallWordEnd : List Char → List Char × List Char
  | [] => ([], [])
  | c :: cs =>
    if isScryfallWordCont py c || c = ',' || isQuote c || (c = '{' && isUnclosedOpener c cs)
        || (c = '!' && bangStandsAlone cs) then
      (c :: (scanScryfallWordEnd cs).1, (scanScryfallWordEnd cs).2)
    else ([], c :: cs)

def wordEnd (options : LexOptions) (cs : List Char) : List Char × List Char :=
  if options.scryfallWords then scanScryfallWordEnd py cs else scanWordEnd (isWordCont py) cs

def wordCont (options : LexOptions) (c : Char) : Bool :=
  if options.scryfallWords then isScryfallWordCont py c else isWordCont py c

theorem wordCont_default : wordCont py {} = isWordCont py := funext fun _ => rfl

/-- The word `front` goes on as far as it does. -/
def lexWord {F : Type} (options : LexOptions) (front cs : List Char) : Lexeme F × List Char :=
  (.word (String.ofList (front ++ (wordEnd py options cs).1)), (wordEnd py options cs).2)

/-! ## Numbers -/

def digits (cs : List Char) : List Char × List Char := cs.span Char.isDigit

/-- A point with a digit behind it, and the digits from there. -/
def fraction : List Char → List Char × List Char
  | c :: d :: cs =>
    if c = '.' && d.isDigit then (c :: d :: (digits cs).1, (digits cs).2) else ([], c :: d :: cs)
  | cs => ([], cs)

/-- The digits behind a number's first, and its fraction. -/
def numberEnd (cs : List Char) : List Char × List Char :=
  ((digits cs).1 ++ (fraction (digits cs).2).1, (fraction (digits cs).2).2)

/-- `BigInt(text)` of decimal digits. -/
def bigInt (text : List Char) : ℕ := Nat.ofDigitChars 10 text 0

/-- The number that starts with `c`; a word, if the characters of one follow at once. -/
def lexNumber (options : LexOptions) (pos : ℕ) (c : Char) (cs : List Char) : Except String (Lexeme py.Double × List Char) :=
  let text := c :: (numberEnd cs).1
  let rest := (numberEnd cs).2
  if rest.head?.any (wordCont py options) then .ok (lexWord py options text rest)
  else if text.contains '.' then
    match py.number (String.ofList text) with
    | none => .error s!"Number out of range at position {pos}"
    | some value => .ok (.number (.float value) (String.ofList text), rest)
  else .ok (.number (.int (bigInt text)) (String.ofList text), rest)

/-! ## One token -/

/-- What `c` makes with a `=` behind it, and alone. -/
def orEquals {F : Type} (c : Char) : Option (Lexeme F × Lexeme F) :=
  if c = '>' then some (.op .ge, .op .gt)
  else if c = '<' then some (.op .le, .op .lt)
  else if c = '!' then some (.op .ne, .bang)
  else none

def symbol {F : Type} (c : Char) : Option (Lexeme F) :=
  if c = ':' then some (.op .colon)
  else if c = '=' then some (.op .eq)
  else if c = '+' then some .plus
  else if c = '-' then some .minus
  else if c = '*' then some .star
  else if c = '(' then some .lparen
  else if c = ')' then some .rparen
  else none

def lexMana {F : Type} (pos : ℕ) (c : Char) (cs : List Char) : Except String (Lexeme F × List Char) :=
  match braceClose cs with
  | none => .error s!"Unclosed '\x7b' at position {pos}"
  | some (content, rest) => .ok (.mana (String.ofList (c :: content ++ ['}'])), rest)

def lexQuoted {F : Type} (pos : ℕ) (c : Char) (cs : List Char) : Except String (Lexeme F × List Char) :=
  match (findClose c cs).close with
  | none => .error s!"Unclosed quote at position {pos}"
  | some (content, rest) =>
    .ok (.quoted (String.ofList
      (if (findClose c cs).sawEscape then unescapeSpan content else content)), rest)

def isOp {F : Type} : Lexeme F → Bool
  | .op _ => true
  | _ => false

/-- A slash: only behind a comparison does a regex open, and only if it closes. -/
def lexSlash {F : Type} (previous : Option (Lexeme F)) (cs : List Char) : Lexeme F × List Char :=
  match (findClose '/' cs).close with
  | none => (.slash, cs)
  | some (content, rest) =>
    if previous.any isOp then
      (.regex (String.ofList
        (if (findClose '/' cs).sawEscape then unescapeSlashes content else content)), rest)
    else (.slash, cs)

/-- Whether `c` belongs to a word that api.scryfall.com reads and the grammar does not. -/
def startsScryfallWord (options : LexOptions) (c : Char) (cs : List Char) : Bool :=
  options.scryfallWords && (isScryfallPunctuation c
    || ((isQuote c || c = '{') && isUnclosedOpener c cs) || (c = '!' && bangStandsAlone cs))

/-- The token that starts with `c` and goes on in `cs`, and what follows it; `previous`
is the token before. -/
def lexeme (options : LexOptions) (previous : Option (Lexeme py.Double)) (pos : ℕ) (c : Char)
    (cs : List Char) : Except String (Lexeme py.Double × List Char) :=
  if startsScryfallWord options c cs then .ok (lexWord py options [c] cs)
  else if c = '{' then lexMana pos c cs
  else if isQuote c then lexQuoted pos c cs
  else if c = '/' then .ok (lexSlash previous cs)
  else
    match orEquals c, symbol c with
    | some (two, one), _ => .ok (if cs.head? = some '=' then (two, cs.tail) else (one, cs))
    | none, some lx => .ok (lx, cs)
    | none, none =>
      if c.isDigit then lexNumber py options pos c cs
      else if isWordStart py c then .ok (lexWord py options [c] cs)
      else .error s!"Unexpected character {String.ofList (Json.quote c.toString)} at position {pos}"

/-! ## What a token leaves -/

variable {py}

theorem scanWordEnd_append (cont : Char → Bool) (cs : List Char) :
    (scanWordEnd cont cs).1 ++ (scanWordEnd cont cs).2 = cs := by
  induction cs with
  | nil => rfl
  | cons c cs ih =>
    rw [scanWordEnd]
    split
    · exact congrArg (c :: ·) ih
    · rfl

theorem scanScryfallWordEnd_append (cs : List Char) :
    (scanScryfallWordEnd py cs).1 ++ (scanScryfallWordEnd py cs).2 = cs := by
  induction cs with
  | nil => rfl
  | cons c cs ih =>
    rw [scanScryfallWordEnd]
    split
    · exact congrArg (c :: ·) ih
    · rfl

theorem wordEnd_suffix (options : LexOptions) (cs : List Char) : (wordEnd py options cs).2 <:+ cs := by
  unfold wordEnd
  split
  · exact ⟨_, scanScryfallWordEnd_append cs⟩
  · exact ⟨_, scanWordEnd_append _ cs⟩

theorem digits_append (cs : List Char) : (digits cs).1 ++ (digits cs).2 = cs := by
  simp [digits, List.span_eq_takeWhile_dropWhile]

theorem fraction_append (cs : List Char) : (fraction cs).1 ++ (fraction cs).2 = cs := by
  unfold fraction
  split
  · split
    · simp [digits_append]
    · rfl
  · rfl

theorem numberEnd_append (cs : List Char) : (numberEnd cs).1 ++ (numberEnd cs).2 = cs := by
  rw [numberEnd, List.append_assoc, fraction_append, digits_append]

variable {options : LexOptions}

variable {pos : ℕ} {c : Char}

theorem lexNumber_suffix {cs rest : List Char}
    {lx : Lexeme py.Double} (h : lexNumber py options pos c cs = .ok (lx, rest)) :
    rest <:+ cs := by
  have hpart : (numberEnd cs).2 <:+ cs := ⟨_, numberEnd_append cs⟩
  simp only [lexNumber] at h
  split at h
  · obtain ⟨-, rfl⟩ := Prod.mk.inj (Except.ok.inj h)
    exact (wordEnd_suffix _ _).trans hpart
  · split at h
    · split at h
      · cases h
      · obtain ⟨-, rfl⟩ := Prod.mk.inj (Except.ok.inj h)
        exact hpart
    · obtain ⟨-, rfl⟩ := Prod.mk.inj (Except.ok.inj h)
      exact hpart

variable {previous : Option (Lexeme py.Double)}

theorem lexeme_suffix {cs rest : List Char} {lx : Lexeme py.Double}
    (h : lexeme py options previous pos c cs = .ok (lx, rest)) : rest <:+ cs := by
  have hclose {closer : Char} {content tail : List Char}
      (hf : (findClose closer cs).close = some (content, tail)) : tail <:+ cs :=
    ⟨content ++ [closer], by simp [findClose_eq hf]⟩
  unfold lexeme at h
  split at h
  · cases h
    exact wordEnd_suffix _ _
  split at h
  · unfold lexMana at h
    split at h
    · cases h
    · next content tail hb =>
        cases h
        exact ⟨content ++ ['}'], by simp [braceClose_eq hb]⟩
  split at h
  · unfold lexQuoted at h
    split at h
    · cases h
    · next hf =>
        cases h
        exact hclose hf
  split at h
  · unfold lexSlash at h
    split at h
    · cases h
      exact List.suffix_rfl
    · next hf =>
        split at h
        · cases h
          exact hclose hf
        · cases h
          exact List.suffix_rfl
  split at h
  · split at h
    · cases h
      exact List.tail_suffix cs
    · cases h
      exact List.suffix_rfl
  · cases h
    exact List.suffix_rfl
  · split at h
    · exact lexNumber_suffix h
    split at h
    · cases h
      exact wordEnd_suffix _ _
    · cases h

variable (py)

/-! ## The query -/

def tokenizeFrom (options : LexOptions) (previous : Option (Lexeme py.Double)) (spaceBefore : Bool)
    (pos : ℕ) : List Char → Except String (List (Token py.Double))
  | [] => .ok [{ lexeme := .eof, pos := pos, spaceBefore := spaceBefore }]
  | c :: cs =>
    if isSkipped c then tokenizeFrom options previous true (pos + 1) cs
    else
      match h : lexeme py options previous pos c cs with
      | .error e => .error e
      | .ok (lx, rest) =>
        (tokenizeFrom options (some lx) false (pos + 1 + (cs.length - rest.length)) rest).map
          ({ lexeme := lx, pos := pos, spaceBefore := spaceBefore } :: ·)
termination_by cs => cs.length
decreasing_by
  · simp
  · have := (lexeme_suffix h).length_le
    simp only [List.length_cons]
    omega

def tokenize (source : List Char) (options : LexOptions) : Except String (List (Token py.Double)) :=
  tokenizeFrom py options none false 0 source

variable {py}

theorem tokenizeFrom_skip {spaceBefore : Bool} {cs : List Char} (hc : isSkipped c = true) :
    tokenizeFrom py options previous spaceBefore pos (c :: cs) = tokenizeFrom py options previous true (pos + 1) cs := by
  rw [tokenizeFrom, if_pos hc]

theorem tokenizeFrom_ok {spaceBefore : Bool} {cs : List Char} {tokens : List (Token py.Double)}
    (hc : isSkipped c = false) :
    tokenizeFrom py options previous spaceBefore pos (c :: cs) = .ok tokens ↔
      ∃ lx rest tail, lexeme py options previous pos c cs = .ok (lx, rest) ∧
        tokenizeFrom py options (some lx) false (pos + 1 + (cs.length - rest.length)) rest = .ok tail ∧
        tokens = { lexeme := lx, pos := pos, spaceBefore := spaceBefore } :: tail := by
  rw [tokenizeFrom, if_neg (by simp [hc])]
  split
  · next e he => simp [he]
  · next lx rest heq =>
      constructor
      · intro h
        cases htail : tokenizeFrom py options (some lx) false (pos + 1 + (cs.length - rest.length))
          rest with
        | error e =>
          rw [htail] at h
          cases h
        | ok tail =>
          rw [htail] at h
          exact ⟨lx, rest, tail, heq, htail, (Except.ok.inj h).symm⟩
      · rintro ⟨lx', rest', tail, heq', htail, rfl⟩
        obtain ⟨rfl, rfl⟩ := Prod.mk.inj (Except.ok.inj (heq.symm.trans heq'))
        rw [htail]
        rfl

theorem le_pos {spaceBefore : Bool}
    {cs : List Char} {tokens : List (Token py.Double)}
    (h : tokenizeFrom py options previous spaceBefore pos cs = .ok tokens) :
    ∀ t ∈ tokens, pos ≤ t.pos := by
  induction hn : cs.length using Nat.strong_induction_on
    generalizing previous spaceBefore pos cs tokens with
  | _ n ih =>
    match cs, hn with
    | [], _ =>
      rw [tokenizeFrom] at h
      cases h
      simp
    | c :: cs, hn =>
      by_cases hc : isSkipped c = true
      · rw [tokenizeFrom_skip hc] at h
        exact fun t ht => (Nat.le_succ pos).trans (ih cs.length (by simp [← hn]) h rfl t ht)
      obtain ⟨lx, rest, tail, hlex, htail, rfl⟩ := (tokenizeFrom_ok (by simpa using hc)).mp h
      intro t ht
      rcases List.mem_cons.mp ht with rfl | ht
      · exact le_rfl
      · have hlen := (lexeme_suffix hlex).length_le
        have := ih rest.length (by simp [← hn]; omega) htail rfl t ht
        omega

end Tokenizer
