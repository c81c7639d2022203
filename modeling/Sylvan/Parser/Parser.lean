-- SUMMARY: The recursive-descent parser of search queries.
import Sylvan.Data.Loops
import Sylvan.Parser.Vocabulary

/-!
# The parser

Each function reads a node off the tokens that are left, the last of which is the end of the
query. A group is read by a parser one level down, so that the nesting is bounded; every loop
takes a token a turn, and is allowed more turns than there are tokens.
-/

namespace Parser

open Vocabulary Loops

variable (host : ParserHost)

abbrev Node : Type := QueryNode host.Double

abbrev Tokens : Type := List (Token host.Double)

def MAX_GROUP_DEPTH : ℕ := 10
def MAX_ARITH_CHAIN : ℕ := 32

variable {host}

def internal {α : Type} (message : String) : Except Fail α := .error (.internal message)

/-! ## Tokens -/

def endToken : Token host.Double := ⟨.eof, 0, false⟩

def peek (ts : Tokens host) (offset : ℕ) : Token host.Double := (ts[offset]?).getD (ts.getLast?.getD endToken)

def next (ts : Tokens host) : Token host.Double := peek ts 0

def strOf : Lexeme host.Double → String
  | .word value => value
  | .number value _ => value.toString
  | .quoted value => value
  | .regex value => value
  | .mana value => value
  | .op op => op.text
  | .plus => "+"
  | .minus => "-"
  | .star => "*"
  | .slash => "/"
  | .lparen => "("
  | .rparen => ")"
  | .bang => "!"
  | .eof => ""

def textOf : Lexeme host.Double → String
  | .number _ raw => raw
  | lx => strOf lx

def isEof (lx : Lexeme host.Double) : Bool := match lx with | .eof => true | _ => false
def isRparen (lx : Lexeme host.Double) : Bool := match lx with | .rparen => true | _ => false
def isSlash (lx : Lexeme host.Double) : Bool := match lx with | .slash => true | _ => false
def isMinus (lx : Lexeme host.Double) : Bool := match lx with | .minus => true | _ => false
def isBang (lx : Lexeme host.Double) : Bool := match lx with | .bang => true | _ => false
def isWord (lx : Lexeme host.Double) : Bool := match lx with | .word _ => true | _ => false
def isNumber (lx : Lexeme host.Double) : Bool := match lx with | .number _ _ => true | _ => false
def isQuoted (lx : Lexeme host.Double) : Bool := match lx with | .quoted _ => true | _ => false

def opOf : Lexeme host.Double → Option BinOp
  | .op op => some op
  | _ => none

def arithOf : Lexeme host.Double → Option BinOp
  | .plus => some .add
  | .minus => some .sub
  | .star => some .mul
  | .slash => some .div
  | _ => none

def isKeyword (keyword : String) : Lexeme host.Double → Bool
  | .word value => host.pyUpper value = keyword
  | _ => false

/-- Whether the token `k` further on is a word or a number glued to what stands before it. -/
def gluedText (tok : Token host.Double) : Bool := !tok.spaceBefore && (isWord tok.lexeme || isNumber tok.lexeme)

def skipStraySlashes (ts : Tokens host) : Tokens host := ts.dropWhile fun tok => isSlash tok.lexeme

def scan {α : Type} (step : α × Tokens host → Except Fail (Turn (α × Tokens host))) (a : α) (ts : Tokens host) :
    Except Fail (α × Tokens host) :=
  loop step (ts.length + 1) (a, ts)

/-! ## Arithmetic -/

def chainLength : Node host → ℕ
  | .binary lhs _ _ => chainLength lhs + 1
  | _ => 0

def checkArithChain (lhs : Node host) : Except Fail Unit :=
  if MAX_ARITH_CHAIN ≤ chainLength lhs then .error (.refused .depth) else .ok ()

def numTermStart (tok : Token host.Double) : Bool :=
  match tok.lexeme with
  | .number _ _ => true
  | .lparen => true
  | .word value => isNumericAlias (host.pyLower value)
  | _ => false

section

-- The parser of a group one level down.
variable (group : Tokens host → Except Fail (Node host × Tokens host))

def parseNumTerm (ts : Tokens host) : Except Fail (Node host × Tokens host) :=
  let tok := next ts
  match tok.lexeme with
  | .number value _ => .ok (.numeric value, ts.tail)
  | .word value =>
    if isNumericAlias (host.pyLower value) then do
      let node ← attributeNode host.toPyHost (host.pyLower value) .numeric
      .ok (node, ts.tail)
    else internal s!"Expected numeric term, got {value} at position {tok.pos}"
  | .lparen => group ts
  | lx => internal s!"Expected numeric term, got {strOf lx} at position {tok.pos}"

def arithStep (op : BinOp) (lhs : Node host) (ts : Tokens host) : Except Fail (Turn (Node host × Tokens host)) := do
  checkArithChain lhs
  let (rhs, ts) ← parseNumTerm group ts.tail
  .ok (.go (binaryNode lhs op rhs, ts))

/-- Operators with a space before them; a minus with none behind it negates the next factor. -/
def spacedArithTail (lhs : Node host) (ts : Tokens host) : Except Fail (Node host × Tokens host) :=
  scan (fun (lhs, ts) =>
    match arithOf (next ts).lexeme with
    | none => .ok (.stop (lhs, ts))
    | some op =>
      if !(next ts).spaceBefore || (isMinus (next ts).lexeme && !(peek ts 1).spaceBefore)
          || !numTermStart (peek ts 1) then .ok (.stop (lhs, ts))
      else arithStep group op lhs ts) lhs ts

def arithTail (lhs : Node host) (ts : Tokens host) : Except Fail (Node host × Tokens host) :=
  scan (fun (lhs, ts) =>
    match arithOf (next ts).lexeme with
    | none => .ok (.stop (lhs, ts))
    | some op =>
      if (next ts).spaceBefore || !numTermStart (peek ts 1) then .ok (.stop (lhs, ts))
      else arithStep group op lhs ts) lhs ts

def valueStartsNumber (ts : Tokens host) : Bool :=
  isNumber (next ts).lexeme || (isMinus (next ts).lexeme && isNumber (peek ts 1).lexeme)

def parseSignedNumTerm (ts : Tokens host) : Except Fail (Node host × Tokens host) :=
  match (next ts).lexeme, (peek ts 1).lexeme with
  | .minus, .number value _ => .ok (.numeric value.negate, ts.tail.tail)
  | _, _ => parseNumTerm group ts

def parseNumExprValue (ts : Tokens host) : Except Fail (Node host × Tokens host) := do
  let (lhs, ts) ← parseSignedNumTerm group ts
  scan (fun (lhs, ts) =>
    match arithOf (next ts).lexeme with
    | none => .ok (.stop (lhs, ts))
    | some op =>
      if !numTermStart (peek ts 1)
          || (isMinus (next ts).lexeme && (next ts).spaceBefore && !(peek ts 1).spaceBefore) then
        .ok (.stop (lhs, ts))
      else arithStep group op lhs ts) lhs ts

/-- A comparison of what was read with a numeric value, if an operator follows. -/
def comparisonTail (lhs : Node host) (ts : Tokens host) : Except Fail (Node host × Tokens host) :=
  match opOf (next ts).lexeme with
  | none => .ok (lhs, ts)
  | some op => do
    let (rhs, ts) ← parseNumExprValue group ts.tail
    .ok (binaryNode lhs op rhs, ts)

end

/-! ## Names -/

def nameNode (value : String) (literal : Bool) : Except Fail (Node host) := do
  let attr ← attributeNode host.toPyHost "name" .text
  .ok (binaryNode attr .colon (.string value literal false))

def bareNameNode (value : String) : Except Fail (Node host) :=
  nameNode (String.ofList (value.toList.reverse.dropWhile (· = ',')).reverse) false

/-- The slashes glued to what was just read, and the words glued behind them. -/
def glueSlashes (ts : Tokens host) : Except Fail (String × Tokens host) :=
  scan (fun (glued, ts) =>
    if isSlash (next ts).lexeme && !(next ts).spaceBefore then
      if gluedText (next ts.tail) then .ok (.go (glued ++ "/" ++ textOf (next ts.tail).lexeme, ts.tail.tail))
      else .ok (.go (glued ++ "/", ts.tail))
    else .ok (.stop (glued, ts))) "" ts

/-- How many minus signs stand here, glued to one another behind the first. -/
def hyphensAt (ts : Tokens host) : ℕ :=
  1 + (ts.tail.takeWhile fun tok => isMinus tok.lexeme && !tok.spaceBefore).length

/-- A name goes on over stars, glued words, and hyphens; a slash ends it. -/
def hyphenStep (word : String) (ts : Tokens host) : Except Fail (Turn (String × Tokens host)) :=
  let tok := next ts
  if tok.spaceBefore then .ok (.stop (word, ts))
  else
    match tok.lexeme with
    | .star => .ok (.go (word ++ "*", ts.tail))
    | .word _ => .ok (.go (word ++ textOf tok.lexeme, ts.tail))
    | .number _ _ => .ok (.go (word ++ textOf tok.lexeme, ts.tail))
    | .minus =>
      let hyphens := hyphensAt ts
      let after := peek ts hyphens
      let glued := !after.spaceBefore && (isWord after.lexeme || isNumber after.lexeme || isQuoted after.lexeme)
      let trailing := after.spaceBefore || isEof after.lexeme || isRparen after.lexeme
      if !glued && !trailing then .ok (.stop (word, ts))
      else if !glued then .ok (.stop (word, ts.drop hyphens))
      else .ok (.go (word ++ String.ofList (List.replicate hyphens '-') ++ textOf after.lexeme, ts.drop (hyphens + 1)))
    | .slash =>
      .ok (.stop (word, ts.dropWhile fun tok => isSlash tok.lexeme && !tok.spaceBefore))
    | _ => .ok (.stop (word, ts))

def parseHyphenatedName (first : String) (ts : Tokens host) : Except Fail (Node host × Tokens host) := do
  let (word, ts) ← scan (fun (word, ts) => hyphenStep word ts) first ts
  let node ← bareNameNode word
  .ok (node, ts)

def parseExactName (ts : Tokens host) : Except Fail (Node host × Tokens host) :=
  let ts := ts.tail
  let tok := next ts
  match tok.lexeme with
  | .quoted value => .ok (.exactName value, ts.tail)
  | .word value => do
    let (glued, ts) ← glueSlashes ts.tail
    .ok (.exactName (value ++ glued), ts)
  | .slash => do
    let (glued, ts) ← glueSlashes ts
    .ok (.exactName glued, ts)
  | _ => internal s!"Expected word or quoted string after '!' at position {tok.pos}"

/-! ## Values -/

/-- A text value goes on over stars, glued words, slashes, and a hyphen with a word behind it. -/
def textStep (word : String) (ts : Tokens host) : Except Fail (Turn (String × Tokens host)) :=
  let tok := next ts
  if tok.spaceBefore then .ok (.stop (word, ts))
  else
    match tok.lexeme with
    | .star => .ok (.go (word ++ "*", ts.tail))
    | .word _ => .ok (.go (word ++ textOf tok.lexeme, ts.tail))
    | .number _ _ => .ok (.go (word ++ textOf tok.lexeme, ts.tail))
    | .slash => do
      let (glued, ts) ← glueSlashes ts
      .ok (.go (word ++ glued, ts))
    | .minus =>
      if gluedText (peek ts 1) then .ok (.go (word ++ "-" ++ textOf (peek ts 1).lexeme, ts.tail.tail))
      else .ok (.stop (word, ts))
    | _ => .ok (.stop (word, ts))

/-- The value that starts with `word`. -/
def textTail (word : String) (ts : Tokens host) : Except Fail (Node host × Tokens host) := do
  let (glued, ts) ← glueSlashes ts
  let (word, ts) ← scan (fun (word, ts) => textStep word ts) (word ++ glued) ts
  .ok (.string word false false, ts)

def parseTextValue (attr : String) (ts : Tokens host) : Except Fail (Node host × Tokens host) :=
  let tok := next ts
  match tok.lexeme with
  | .quoted value => .ok (.string value true false, ts.tail)
  | .regex value => .ok (.regex value, ts.tail)
  | .word value => textTail value ts.tail
  | .number _ raw => textTail raw ts.tail
  | .star => textTail "*" ts.tail
  | .slash => textTail "" ts
  | lx => internal s!"Expected value for {attr}, got {strOf lx} at position {tok.pos}"

def manaStep (parts : List String) (ts : Tokens host) : Except Fail (Turn (List String × Tokens host)) :=
  let tok := next ts
  match tok.lexeme with
  | .mana _ | .word _ | .number _ _ =>
    if !parts.isEmpty && tok.spaceBefore then .ok (.stop (parts, ts))
    else .ok (.go (parts ++ [strOf tok.lexeme], ts.tail))
  | _ => .ok (.stop (parts, ts))

def pyRepr (s : String) : String :=
  let quote := if s.toList.contains '\'' && !s.toList.contains '"' then '"' else '\''
  let body := s.toList.flatMap fun ch =>
    if ch = Spans.BACKSLASH then [Spans.BACKSLASH, Spans.BACKSLASH]
    else if ch = quote then [Spans.BACKSLASH, quote]
    else if ch = '\n' then [Spans.BACKSLASH, 'n']
    else if ch = '\r' then [Spans.BACKSLASH, 'r']
    else if ch = '\t' then [Spans.BACKSLASH, 't']
    else [ch]
  String.ofList (quote :: body ++ [quote])

/-- A mana value, if a cost can hold every symbol of it. -/
def manaNode (value : String) (pos : ℕ) (ts : Tokens host) : Except Fail (Node host × Tokens host) :=
  match firstInvalidManaSymbol value.toList.length value.toList with
  | some invalid => internal s!"Invalid mana symbol {pyRepr (String.ofList invalid)} at position {pos}"
  | none => .ok (.mana value, ts)

def MANA_REGEX_ALIASES : List String := ["mana", "m"]

def parseManaValue (attr : String) (op : BinOp) (ts : Tokens host) : Except Fail (Node host × Tokens host) :=
  let tok := next ts
  let parts : Except Fail (Node host × Tokens host) := do
    let (parts, ts) ← scan (fun (parts, ts) => manaStep parts ts) [] ts
    if parts.isEmpty then internal s!"Expected mana value at position {(next ts).pos}"
    else manaNode (host.pyUpper (String.join parts)) tok.pos ts
  match tok.lexeme with
  | .regex value =>
    if MANA_REGEX_ALIASES.contains (host.pyLower attr) && (op = .colon || op = .eq) then .ok (.regex value, ts.tail)
    else parts
  | .quoted value => manaNode (host.pyUpper value) tok.pos ts.tail
  | _ => parts

def parseStringValue (ts : Tokens host) : Except Fail (Node host × Tokens host) :=
  let tok := next ts
  match tok.lexeme with
  | .quoted value => .ok (.string value false false, ts.tail)
  | .word value => .ok (.string value false false, ts.tail)
  | lx => internal s!"Expected string value, got {strOf lx} at position {tok.pos}"

def isColorValue (py : PyHost) (validNames : List String) (text : String) : Bool :=
  validNames.contains (py.pyLower text) || text.toList.all COLOR_LETTERS.contains

def colorValueFromText (text : String) (pos : ℕ) (validNames : List String) : Except Fail (Node host) :=
  if !text.toList.isEmpty && text.toList.all Char.isDigit then .ok (.numeric (.int (Tokenizer.bigInt text.toList)))
  else if isColorValue host.toPyHost validNames text then .ok (.string text false false)
  else internal s!"Invalid color value {text} at position {pos}"

/-- The hyphenated name that stands here, if the column has it. -/
def hyphenatedColor (validNames : List String) (value : String) (ts : Tokens host) : Option String :=
  match (peek ts 1).lexeme, (peek ts 2).lexeme with
  | .minus, .word tail =>
    if !(peek ts 1).spaceBefore && !(peek ts 2).spaceBefore && validNames.contains (host.pyLower s!"{value}-{tail}") then
      some s!"{value}-{tail}"
    else none
  | _, _ => none

def parseColorValue (attr : String) (ts : Tokens host) : Except Fail (Node host × Tokens host) :=
  let validNames := validColorNamesFor host.toPyHost attr
  let tok := next ts
  match tok.lexeme with
  | .regex value => do
    let node ← colorValueFromText value tok.pos validNames
    .ok (node, ts.tail)
  | .number (.float value) _ =>
    internal s!"Expected integer color count, got {PyNumber.toString (.float value)} at position {tok.pos}"
  | .number value _ => .ok (.numeric value, ts.tail)
  | .quoted value => .ok (.string value false false, ts.tail)
  | .word value =>
    match hyphenatedColor validNames value ts with
    | some name => .ok (.string name false false, ts.tail.tail.tail)
    | none =>
      if isColorValue host.toPyHost validNames value then .ok (.string value false false, ts.tail)
      else internal s!"Invalid color value {value} at position {tok.pos}"
  | lx => internal s!"Expected color value, got {strOf lx} at position {tok.pos}"

/-! ## Dates -/

def MIN_MTG_YEAR : ℤ := 1992
def MAX_YEAR : ℤ := 2040

def validateMtgYear (value : PyNumber host.Double) (pos : ℕ) : Except Fail ℤ :=
  match value with
  | .float _ => internal s!"Expected integer year, got {value.toString} at position {pos}"
  | .int year =>
    if MIN_MTG_YEAR ≤ year ∧ year ≤ MAX_YEAR then .ok year
    else internal s!"Year must be between {MIN_MTG_YEAR} and {MAX_YEAR}, got {year} at position {pos}"

def isLeap (year : ℤ) : Bool := year % 4 = 0 && (year % 100 ≠ 0 || year % 400 = 0)

def daysInMonth (year : ℤ) : List ℤ := [31, if isLeap year then 29 else 28, 31, 30, 31, 30, 31, 31, 30, 31, 30, 31]

def isValidDate (year month day : ℤ) : Bool :=
  1 ≤ month && month ≤ 12 && 1 ≤ day && day ≤ ((daysInMonth year)[(month - 1).toNat]?).getD 0

def pad2 (v : ℤ) : String := if (toString v).length < 2 then s!"0{v}" else toString v

/-- The number of a minus and a number that stand here, glued to what stands before them. -/
def hyphenNumber (ts : Tokens host) : Option ℤ :=
  match (next ts).lexeme, (peek ts 1).lexeme with
  | .minus, .number value _ =>
    if !(next ts).spaceBefore && !(peek ts 1).spaceBefore then some value.toBigIntTruncated else none
  | _, _ => none

/-- A set's release date, or `YYYY`, `YYYY-MM` or `YYYY-MM-DD`. -/
def parseDateValue (ts : Tokens host) : Except Fail (Node host × Tokens host) :=
  let tok := next ts
  let released (code : String) : Except Fail (Node host × Tokens host) :=
    match host.setReleaseDate code with
    | none => internal s!"Invalid date or unknown set code {code} at position {tok.pos}"
    | some date => .ok (.string date false false, ts.tail)
  match tok.lexeme with
  | .word code => released code
  | .quoted code => released code
  | .number value _ => do
    let year ← validateMtgYear value tok.pos
    match hyphenNumber ts.tail with
    | none => .ok (.string (toString year) false false, ts.tail)
    | some month =>
      let rest := ts.tail.tail.tail
      match hyphenNumber rest with
      | some day =>
        if isValidDate year month day then
          .ok (.string s!"{year}-{pad2 month}-{pad2 day}" false false, rest.tail.tail)
        else internal s!"Invalid date {year}-{pad2 month}-{pad2 day} at position {tok.pos}"
      | none =>
        if month < 1 ∨ 12 < month then internal s!"Invalid date {year}-{pad2 month} at position {tok.pos}"
        else .ok (.string s!"{year}-{pad2 month}" false false, rest)
  | lx => internal s!"Expected date, got {strOf lx} at position {tok.pos}"

def parseYearValue (ts : Tokens host) : Except Fail (Node host × Tokens host) :=
  let tok := next ts
  match tok.lexeme with
  | .number value _ => do
    let year ← validateMtgYear value tok.pos
    .ok (.string (toString year) false false, ts.tail)
  | lx => internal s!"Expected year, got {strOf lx} at position {tok.pos}"

/-! ## Words -/

def DIRECTIVE_NAMES : List String := ["unique", "sort", "order", "direction", "dir", "prefer"]

/-- The value of a directive, behind its `:`. -/
def directiveValue (name word : String) (ts : Tokens host) : Except Fail (Node host × Tokens host) :=
  let tok := next ts
  let node (value : String) : Node host := .directive name (host.pyLower value)
  let glued (value : String) : Except Fail (Node host × Tokens host) := do
    let (value, ts) ← scan (fun (value, ts) =>
      if isMinus (next ts).lexeme && !(next ts).spaceBefore && gluedText (peek ts 1) then
        .ok (.go (value ++ "-" ++ strOf (peek ts 1).lexeme, ts.tail.tail))
      else .ok (.stop (value, ts))) value ts.tail
    .ok (node value, ts)
  match tok.lexeme with
  | .quoted value => .ok (node value, ts.tail)
  | .word _ | .number _ _ => glued (strOf tok.lexeme)
  | _ => internal s!"Expected value after '{word}:' at position {tok.pos}"

def isManaValueAlias (py : PyHost) (name : String) : Bool :=
  (aliasToFieldInfos name).any fun fi => fi.parserClass = .numeric && py.pyLower fi.dbColumnName = "cmc"

def MANA_VALUE_PARITY : List (String × ℤ) := [("even", 0), ("odd", 1)]

/-- The parity a mana value is asked for, if `even` or `odd` stands here. -/
def manaValueParity (name : String) (op : BinOp) (ts : Tokens host) : Option ℤ :=
  if (op = .colon || op = .eq) && isManaValueAlias host.toPyHost name then
    match (next ts).lexeme with
    | .word value => MANA_VALUE_PARITY.lookup (host.pyLower value)
    | .quoted value => MANA_VALUE_PARITY.lookup (host.pyLower value)
    | _ => none
  else none

/-- Where `!` reads as `=`, glued on both sides. -/
def isBangAlias (ts : Tokens host) : Bool :=
  isBang (next ts).lexeme && !(next ts).spaceBefore && !(peek ts 1).spaceBefore

def BANG_ALIAS_CLASSES : List ParserClass := [.color, .mana, .rarity, .year, .date]

/-- The operator behind a word, a glued `!` among them where it is one. -/
def wordOperator (bang : Bool) (ts : Tokens host) : Option BinOp :=
  if bang && isBangAlias ts then some .eq else opOf (next ts).lexeme

section

-- The parser of a group one level down.
variable (group : Tokens host → Except Fail (Node host × Tokens host))

def parseValueForClass (pc : ParserClass) (attr : String) (op : BinOp) (ts : Tokens host) :
    Except Fail (Node host × Tokens host) :=
  match pc with
  | .text => parseTextValue attr ts
  | .numeric => parseNumExprValue group ts
  | .color => parseColorValue attr ts
  | .mana => parseManaValue attr op ts
  | .rarity | .legality => parseStringValue ts
  | .date => parseDateValue ts
  | .year => parseYearValue ts

/-- `alias op value`, the operator consumed. -/
def attributeComparison (name : String) (pc : ParserClass) (op : BinOp) (ts : Tokens host)
    (value : Tokens host → Except Fail (Node host × Tokens host)) : Except Fail (Node host × Tokens host) := do
  let attr ← attributeNode host.toPyHost name pc
  let (rhs, ts) ← value ts
  .ok (binaryNode attr op rhs, ts)

/-- A word that names a numeric column; `ts` are the tokens behind it. -/
def parseNumericWord (word name : String) (ts : Tokens host) : Except Fail (Node host × Tokens host) :=
  match wordOperator true ts with
  | some op =>
    match manaValueParity name op ts.tail with
    | some remainder => do
      let attr ← attributeNode host.toPyHost name .numeric
      .ok (binaryNode (binaryNode attr .mod (.numeric (.int 2))) .eq (.numeric (.int remainder)), ts.tail.tail)
    | none => attributeComparison name .numeric op ts.tail (parseNumExprValue group)
  | none => do
    let attr ← attributeNode host.toPyHost name .numeric
    if (arithOf (next ts).lexeme).isSome && !(next ts).spaceBefore then
      let (lhs, ts') ← arithTail group attr ts
      match lhs with
      -- No numeric term stands behind the operator: the word is a name.
      | .attr _ _ => parseHyphenatedName word ts'
      | _ =>
        let (lhs, ts) ← spacedArithTail group lhs ts'
        comparisonTail group lhs ts
    else
      let (lhs, ts) ← spacedArithTail group attr ts
      match lhs with
      | .attr _ _ =>
        let node ← bareNameNode word
        .ok (node, ts)
      | _ => comparisonTail group lhs ts

def parseWordPrimary (word : String) (ts : Tokens host) : Except Fail (Node host × Tokens host) :=
  let wl := host.pyLower word
  if wl = "and" ∨ wl = "or" then internal s!"Unexpected keyword {word}"
  else if DIRECTIVE_NAMES.contains wl && opOf (next ts).lexeme = some .colon then directiveValue wl word ts.tail
  else
    match isDualNumText wl, opOf (next ts).lexeme with
    | true, some op =>
      if valueStartsNumber ts.tail then attributeComparison wl .numeric op ts.tail (parseNumExprValue group)
      else attributeComparison wl .text op ts.tail (parseTextValue wl)
    | _, _ =>
      match aliasToPC wl with
      | some .numeric => parseNumericWord group word wl ts
      | some pc =>
        match wordOperator (BANG_ALIAS_CLASSES.contains pc) ts with
        | some op => attributeComparison wl pc op ts.tail (parseValueForClass group pc wl op)
        | none => parseHyphenatedName word ts
      | none => parseHyphenatedName word ts

def parseNumberPrimary (value : PyNumber host.Double) (ts : Tokens host) : Except Fail (Node host × Tokens host) := do
  let (lhs, ts) ←
    if (arithOf (next ts).lexeme).isSome && !(next ts).spaceBefore && numTermStart (peek ts 1) then
      arithTail group (.numeric value) ts
    else .ok (.numeric value, ts)
  let (lhs, ts) ← spacedArithTail group lhs ts
  comparisonTail group lhs ts

def parsePrimary (ts : Tokens host) : Except Fail (Node host × Tokens host) :=
  let tok := next ts
  match tok.lexeme with
  | .lparen => do
    let (lhs, ts) ← group ts
    let (lhs, ts) ←
      if (arithOf (next ts).lexeme).isSome && !(next ts).spaceBefore then arithTail group lhs ts else .ok (lhs, ts)
    let (lhs, ts) ← spacedArithTail group lhs ts
    comparisonTail group lhs ts
  | .bang => parseExactName ts
  | .quoted value => do
    let node ← nameNode value true
    .ok (node, ts.tail)
  | .word value => parseWordPrimary group value ts.tail
  | .number value _ => parseNumberPrimary group value ts.tail
  | .mana value => do
    let node ← nameNode value false
    .ok (node, ts.tail)
  | .star => parseHyphenatedName "*" ts.tail
  | lx => internal s!"Unexpected {strOf lx} at position {tok.pos}"

/-! ## Factors, conjunctions and disjunctions -/

def isArithmetic : Node host → Bool
  | .binary _ op _ => op = .add || op = .sub || op = .mul || op = .div
  | _ => false

def parseFactor (ts : Tokens host) : Except Fail (Node host × Tokens host) :=
  if isMinus (next ts).lexeme then do
    let (operand, ts) ← parsePrimary group ts.tail
    if isArithmetic operand then internal "Cannot negate an arithmetic expression"
    else .ok (.not operand, ts)
  else parsePrimary group ts

def canStartFactor (ts : Tokens host) : Bool :=
  match (next ts).lexeme with
  | .word value => host.pyUpper value ≠ "OR"
  | .minus => (next ts).spaceBefore
  | .number _ _ | .quoted _ | .regex _ | .mana _ | .lparen | .bang => true
  | _ => false

/-- The node of a chain: a single operand stands for itself. -/
def chainNode (op : NaryOp) : List (Node host) → Node host
  | [single] => single
  | operands => .nary op operands

def andStep (operands : List (Node host)) (ts : Tokens host) : Except Fail (Turn (List (Node host) × Tokens host)) :=
  if canStartFactor ts then do
    let ts := if isKeyword "AND" (next ts).lexeme then skipStraySlashes ts.tail else ts
    let (operand, ts) ← parseFactor group ts
    .ok (.go (operands ++ [operand], skipStraySlashes ts))
  else .ok (.stop (operands, ts))

def parseAndExpr (ts : Tokens host) : Except Fail (Node host × Tokens host) := do
  let (first, ts) ← parseFactor group (skipStraySlashes ts)
  let (operands, ts) ← scan (fun (operands, ts) => andStep group operands ts) [first] (skipStraySlashes ts)
  .ok (chainNode .and operands, ts)

def orStep (operands : List (Node host)) (ts : Tokens host) : Except Fail (Turn (List (Node host) × Tokens host)) :=
  if isKeyword "OR" (next ts).lexeme then do
    let (operand, ts) ← parseAndExpr group ts.tail
    .ok (.go (operands ++ [operand], ts))
  else .ok (.stop (operands, ts))

def parseExpr (ts : Tokens host) : Except Fail (Node host × Tokens host) := do
  let (first, ts) ← parseAndExpr group ts
  let (operands, ts) ← scan (fun (operands, ts) => orStep group operands ts) [first] ts
  .ok (chainNode .or operands, ts)

end

/-! ## Groups and queries -/

/-- A group with `depth` levels left for it and those inside. -/
def parseGroup : (depth : ℕ) → Tokens host → Except Fail (Node host × Tokens host)
  | 0, _ => .error (.refused .depth)
  | depth + 1, ts =>
    if isRparen (next ts.tail).lexeme then internal "Empty parentheses are not allowed"
    else do
      let (inner, ts) ← parseExpr (parseGroup depth) ts.tail
      if isRparen (next ts).lexeme then .ok (inner, ts.tail)
      else internal s!"Expected RPAREN, got {strOf (next ts).lexeme} at position {(next ts).pos}"

def parse (ts : Tokens host) : Except Fail (Query host.Double) :=
  let ts := skipStraySlashes ts
  if isEof (next ts).lexeme then .ok (.of .always)
  else do
    let (node, ts) ← parseExpr (parseGroup MAX_GROUP_DEPTH) ts
    if isEof (next ts).lexeme then .ok (.of node)
    else internal s!"Unexpected {strOf (next ts).lexeme} at position {(next ts).pos}"

variable (host)

def parseQuery (src : String) (options : LexOptions) : Except Fail (Query host.Double) :=
  if (pyStrip src).isEmpty then .ok (.of .always)
  else
    let folded := Tokenizer.foldTypographicQuotes src.toList
    match Tokenizer.tokenize host.toPyHost folded options with
    | .error _ => .error (.parse s!"Failed to lex query: \"{String.ofList folded}\"")
    | .ok tokens =>
      match parse tokens with
      | .error (.internal _) => .error (.parse s!"Failed to parse query: \"{String.ofList folded}\"")
      | .error fail => .error fail
      | .ok query => .ok (.of query.root.flatten)

end Parser
