-- SUMMARY: The words a value can be, and the nodes of an attribute and of a comparison.
import Mathlib.Data.List.Basic
import Sylvan.Parser.Nodes
import Sylvan.Parser.RegexBudget

/-!
# The vocabulary

A color is a name or letters; a name may be a count of colors, and is one before its node
exists. A mana cost holds certain symbols.
-/

inductive Fail where
  /-- An `InternalParseError`. -/
  | internal (message : String)
  /-- A `ParseError`. -/
  | parse (message : String)
  /-- A `QueryBudgetExceeded`, or an `InvalidRegexPatternError`. -/
  | refused (refusal : RegexBudget.Refusal)
deriving DecidableEq

/-- The language, and the dates its sets were released on. -/
structure ParserHost extends PyHost where
  setReleaseDate : String → Option String

namespace Vocabulary

/-! ## Colors -/

def COLOR_ALIAS_TO_CODES : List (String × String) :=
  [("white", "w"), ("blue", "u"), ("black", "b"), ("red", "r"), ("green", "g"),
    ("colorless", "c"), ("colourless", "c"), ("brown", "c"),
    ("azorius", "wu"), ("dimir", "ub"), ("rakdos", "br"), ("gruul", "rg"), ("selesnya", "gw"),
    ("orzhov", "wb"), ("izzet", "ur"), ("golgari", "bg"), ("boros", "rw"), ("simic", "gu"),
    ("lorehold", "rw"), ("prismari", "ur"), ("quandrix", "gu"), ("silverquill", "wb"), ("witherbloom", "bg"),
    ("bant", "gwu"), ("esper", "wub"), ("grixis", "ubr"), ("jund", "brg"), ("naya", "rgw"),
    ("abzan", "wbg"), ("jeskai", "urw"), ("sultai", "bgu"), ("mardu", "rwb"), ("temur", "gur"),
    ("yore-tiller", "wubr"), ("glint-eye", "ubrg"), ("dune-brood", "brgw"), ("ink-treader", "rgwu"),
    ("witch-maw", "gwub"), ("artifice", "wubr"), ("chaos", "ubrg"), ("aggression", "brgw"),
    ("altruism", "rgwu"), ("growth", "gwub"), ("rainbow", "wubrg"), ("all", "wubrgc")]

def COLOR_COUNT_NAMES : List String :=
  ["m", "gold", "multicolor", "multicolour", "multicolored", "multicoloured"]

def COLOR_SPREAD_COUNT_NAMES : List String := ["rainbow", "all"]

def COLUMN_SCOPED_COUNT_NAMES : List (String × List String) := [("produced_mana", ["any"])]

def VALID_COLOR_NAMES : List String := COLOR_ALIAS_TO_CODES.map (·.1) ++ COLOR_COUNT_NAMES

def COLOR_COUNT_ATTRIBUTES : List String := ["card_colors", "card_color_identity", "produced_mana"]

def COLORLESS_SPELLINGS : List String := "c" :: (COLOR_ALIAS_TO_CODES.filter (·.2 = "c")).map (·.1)

def COLOR_COUNT_BY_OPERATOR : BinOp → Option (BinOp × ℤ)
  | .colon | .eq | .gt | .ge => some (.ge, 2)
  | .lt | .ne => some (.lt, 2)
  | .le => some (.ge, 0)
  | _ => none

def PRODUCED_COUNT_BY_OPERATOR : BinOp → Option (BinOp × ℤ)
  | .colon | .eq | .gt | .ge => some (.ge, 2)
  | .lt | .ne => some (.eq, 1)
  | .le => some (.ge, 1)
  | _ => none

def PRODUCED_ANY_BY_OPERATOR : BinOp → Option (BinOp × ℤ)
  | .colon | .eq | .gt | .ge | .ne => some (.ge, 1)
  | .lt => some (.eq, 0)
  | .le => some (.le, 1)
  | _ => none

def SPREAD_BY_OPERATOR : BinOp → Option BinOp
  | .colon => some .eq
  | .eq => some .eq
  | .ne => some .ne
  | .lt => some .lt
  | .le => some .le
  | .gt => some .gt
  | .ge => some .ge
  | _ => none

def COLORLESS_BY_OPERATOR : BinOp → Option (BinOp × ℤ)
  | .ge => some (.ge, 0)
  | _ => none

def COLOR_COLUMN_WIDTH : List (String × ℤ) :=
  [("card_colors", 5), ("card_color_identity", 5), ("produced_mana", 6)]

/-- The comparison a color value is on a column; none of one compared as letters. -/
def loweredCount (column value : String) (operator : BinOp) : Option (BinOp × ℤ) :=
  if ((COLUMN_SCOPED_COUNT_NAMES.lookup column).getD []).contains value then
    if value = "any" then PRODUCED_ANY_BY_OPERATOR operator else none
  else if COLOR_COUNT_NAMES.contains value then
    (if column = "produced_mana" then PRODUCED_COUNT_BY_OPERATOR else COLOR_COUNT_BY_OPERATOR) operator
  else if COLOR_SPREAD_COUNT_NAMES.contains value then
    match SPREAD_BY_OPERATOR operator, COLOR_COLUMN_WIDTH.lookup column with
    | some op, some width => some (op, if value = "all" then width else 5)
    | _, _ => none
  else if column ≠ "produced_mana" && COLORLESS_SPELLINGS.contains value then COLORLESS_BY_OPERATOR operator
  else none

def COLOR_LETTERS : List Char := "wubrgcWUBRGC".toList

variable (py : PyHost)

/-- The color names one alias takes: the column's own besides those of every column. -/
def validColorNamesFor (attr : String) : List String :=
  match (aliasToFieldInfos (py.pyLower attr)).find? (·.parserClass = .color) with
  | none => VALID_COLOR_NAMES
  | some fi => VALID_COLOR_NAMES ++ (COLUMN_SCOPED_COUNT_NAMES.lookup (py.pyLower fi.dbColumnName)).getD []

/-! ## Mana symbols -/

def BARE_MANA_ATOMS : List Char := "WUBRGCXS".toList

def COLORS : List Char := BARE_MANA_ATOMS.filter fun c => c ≠ 'C' && c ≠ 'X'

def UN_SET_ATOMS : List String := ["Y", "Z", "L", "H", "HW", "HR"]

def ATOMS : List String := COLORS.map Char.toString ++ ["C", "S", "X"] ++ UN_SET_ATOMS

def permutations2 (items : List Char) : List (Char × Char) :=
  items.flatMap fun a => (items.filter (· ≠ a)).map fun b => (a, b)

def PART_SHAPES : List String :=
  (permutations2 (COLORS ++ ['C'])).map (fun p => String.ofList [p.1, '/', p.2])
    ++ COLORS.map (fun c => String.ofList ['2', '/', c])
    ++ COLORS.map (fun c => String.ofList [c, '/', 'P'])
    ++ (permutations2 COLORS).map (fun p => String.ofList [p.1, '/', p.2, '/', 'P'])
    ++ ["C/P"]

def isAtom (part : List Char) : Bool :=
  (!part.isEmpty && part.all Char.isDigit) || ATOMS.contains (String.ofList part)

def isValidManaSymbol (symbol : List Char) : Bool :=
  if symbol.isEmpty then false
  else if symbol.contains '/' then PART_SHAPES.contains (String.ofList symbol)
  else isAtom symbol

/-- `firstInvalidManaSymbol(value)`: a braced symbol is read whole, what stands outside by characters. -/
def firstInvalidManaSymbol : ℕ → List Char → Option (List Char)
  | 0, _ => none
  | _, [] => none
  | fuel + 1, c :: cs =>
    match (if c = '{' then Spans.braceClose cs else none) with
    | some (symbol, rest) =>
      if isValidManaSymbol symbol then firstInvalidManaSymbol fuel rest else some (c :: symbol ++ ['}'])
    | none =>
      if c.isDigit || BARE_MANA_ATOMS.contains c then firstInvalidManaSymbol fuel cs else some [c]

/-! ## Nodes -/

variable {py}

/-- `new CardAttributeNode(attributeName, matchedParserClass)`. -/
def attributeNode (py : PyHost) (attributeName : String) (matchedParserClass : ParserClass) :
    Except Fail (QueryNode py.Double) :=
  match fieldInfosOf (py.pyLower attributeName) matchedParserClass with
  | [fi] => .ok (.attr (py.pyLower attributeName) fi)
  | [] => .error (.parse "not enough values to unpack (expected 1, got 0)")
  | _ => .error (.parse "too many values to unpack (expected 1)")

/-- `new CardBinaryOperatorNode(lhs, operator, rhs)`. -/
def binaryNode (lhs : QueryNode py.Double) (operator : BinOp) (rhs : QueryNode py.Double) : QueryNode py.Double :=
  match lhs, rhs with
  | .attr _ fi, .string value _ _ =>
    if COLOR_COUNT_ATTRIBUTES.contains (py.pyLower fi.dbColumnName) then
      match loweredCount (py.pyLower fi.dbColumnName) (py.pyLower (pyStrip value)) operator with
      | some (op, count) => .binary lhs op (.numeric (.int count))
      | none => .binary lhs operator rhs
    else .binary lhs operator rhs
  | _, _ => .binary lhs operator rhs

end Vocabulary
