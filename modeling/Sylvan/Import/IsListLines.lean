-- SUMMARY: The `is:` lists: their values, a row of an answer, and the table lines written for rows.
import Mathlib.Data.List.Sort
import Sylvan.Data.JsMap
import Sylvan.Data.Text

/-!
# The lines of the `is:` lists

A list that is Scryfall's own record is kept as lines of a table: a value, a kind of key,
the key, and the collector numbers under it. One program writes lines from the rows of an
answer, another reads them back.
-/

namespace IsLists

/-! ## Values and kinds -/

inductive ListTag where
  | covered
  | intro
  | invitational
  | jumpstart
  | misprint
  | related
  | spellbook
  | spikey
  | oldArtist
deriving DecidableEq, Repr

def ListTag.name : ListTag → List Char
  | .covered => "covered".toList
  | .intro => "intro".toList
  | .invitational => "invitational".toList
  | .jumpstart => "jumpstart".toList
  | .misprint => "misprint".toList
  | .related => "related".toList
  | .spellbook => "spellbook".toList
  | .spikey => "spikey".toList
  | .oldArtist => "old_artist".toList

def LIST_TAGS : List ListTag :=
  [.covered, .intro, .invitational, .jumpstart, .misprint, .related, .spellbook, .spikey, .oldArtist]

theorem mem_LIST_TAGS (tag : ListTag) : tag ∈ LIST_TAGS := by
  cases tag <;> decide

/-- `LIST_TAGS.iter().position(|x| x == t)`. -/
def tagOf (field : List Char) : Option ListTag := LIST_TAGS.find? fun tag => tag.name = field

@[simp] theorem tagOf_name (tag : ListTag) : tagOf tag.name = some tag := by
  cases tag <;> decide

theorem tagOf_eq_some {field : List Char} {tag : ListTag} (h : tagOf field = some tag) : field = tag.name := by
  simpa [eq_comm] using List.find?_some h

/-- A list the night reads whole: five lists of rows, two of cards. -/
inductive SmallList where
  | intro
  | invitational
  | jumpstart
  | misprint
  | oldArtist
  | spellbook
  | spikey
deriving DecidableEq, Repr

def SmallList.tag : SmallList → ListTag
  | .intro => .intro
  | .invitational => .invitational
  | .jumpstart => .jumpstart
  | .misprint => .misprint
  | .oldArtist => .oldArtist
  | .spellbook => .spellbook
  | .spikey => .spikey

def ROW_LISTS : List SmallList := [.intro, .invitational, .jumpstart, .misprint, .oldArtist]

def CARD_LISTS : List SmallList := [.spellbook, .spikey]

inductive Kind where
  | set
  | oracle
  | print
  | row
  | not
  | notRow
deriving DecidableEq, Repr

def Kind.name : Kind → List Char
  | .set => "set".toList
  | .oracle => "oracle".toList
  | .print => "print".toList
  | .row => "row".toList
  | .not => "not".toList
  | .notRow => "not-row".toList

def KIND_ORDER : List Kind := [.set, .oracle, .print, .row, .not, .notRow]

def kindOf (field : List Char) : Option Kind := KIND_ORDER.find? fun kind => kind.name = field

@[simp] theorem kindOf_name (kind : Kind) : kindOf kind.name = some kind := by
  cases kind <;> decide

def ART_REP_LINE : List Char := "art_rep".toList

theorem tagOf_ART_REP_LINE : tagOf ART_REP_LINE = none := by decide

/-! ## Fields and numbers -/

def tabbed (fields : List (List Char)) : List Char := ['\t'].intercalate fields

theorem splitOn_tabbed {fields : List (List Char)} (hne : fields ≠ [])
    (htab : ∀ field ∈ fields, '\t' ∉ field) : (tabbed fields).splitOn '\t' = fields :=
  List.splitOn_intercalate '\t' htab hne

def spaced (numbers : List (List Char)) : List Char := [' '].intercalate numbers

theorem splitOn_spaced {numbers : List (List Char)} (hne : numbers ≠ [])
    (hblank : ∀ number ∈ numbers, ' ' ∉ number) : (spaced numbers).splitOn ' ' = numbers :=
  List.splitOn_intercalate ' ' hblank hne

/-- `\s`. -/
def isSpace (c : Char) : Bool :=
  c.toNat ∈ [0x09, 0x0a, 0x0b, 0x0c, 0x0d, 0x20, 0xa0, 0x1680, 0x2028, 0x2029, 0x202f, 0x205f, 0x3000, 0xfeff] ||
    (0x2000 ≤ c.toNat && c.toNat ≤ 0x200a)

/-- `Number.parseInt(text, 10)`, `none` where that is not a number. -/
def parseInt (text : List Char) : Option ℤ :=
  let digits (s : List Char) : Option ℤ :=
    (Text.stripRun Text.isDigit s).map fun run => (Text.decimal (String.ofList run.1) : ℤ)
  match text.dropWhile isSpace with
  | '-' :: s => (digits s).map fun n => -n
  | '+' :: s => digits s
  | s => digits s

/-- `a < b` of two strings: by their UTF-16 code units. -/
def textBefore (a b : List Char) : Bool := a.flatMap Text.units < b.flatMap Text.units

def byNumber (a b : List Char) : ℤ :=
  let byText : ℤ := if textBefore a b then -1 else if textBefore b a then 1 else 0
  match parseInt a, parseInt b with
  | some x, some y => if x ≠ y then x - y else byText
  | none, some _ => 1
  | some _, none => -1
  | none, none => byText

/-- `<tag> <kind> <key…> <numbers>` lines for numbers grouped under a key, keys and numbers in order. -/
def numberLines (tag kind : List Char) (byKey : JsMap (List Char) (JsSet (List Char))) : List (List Char) :=
  (byKey.entries.insertionSort fun a b => !textBefore b.1 a.1).map fun e =>
    tabbed [tag, kind, e.1, spaced (e.2.insertionSort fun a b => byNumber a b ≤ 0)]

/-- Refuse a table line with an empty field: the builder reads fields by position. -/
def checkLine (line : List Char) : Except String (List Char) :=
  if (line.splitOn '\t').any List.isEmpty then .error s!"an empty field: {String.ofList line}" else .ok line

/-! ## Rows -/

/-- A row of an answer, as little of it as a line is made from. -/
structure Got where
  s : List Char
  n : List Char
  l : List Char
  /-- The card carries `all_parts`. -/
  p : Bool
  /-- Its oracle ids, the front's first, and its name, where a line names the card. -/
  o : List (List Char)
  m : List Char
  /-- Its release day, in a read that ends at one. -/
  d : Option (List Char)
deriving DecidableEq, Repr

def keyOf (g : Got) : List Char := tabbed [g.s, g.n, g.l]

def grouped (key : Got → List Char) (rows : List Got) : JsMap (List Char) (JsSet (List Char)) :=
  rows.foldl (fun byKey g => byKey.update (key g) fun numbers => JsSet.add (numbers.getD []) g.n) .empty

def rowLines (tag kind : List Char) (rows : List Got) : List (List Char) :=
  numberLines tag kind (grouped (fun g => tabbed [g.s, g.l]) rows)

def printLines (tag kind set : List Char) (numbers : List (List Char)) : List (List Char) :=
  let all := JsSet.of numbers
  if all.length > 0 then numberLines tag kind (JsMap.empty.set set all) else []

def cardNames (rows : List Got) : JsMap (List Char) (List Char) :=
  rows.foldl (fun names g => g.o.foldl (fun names id => names.update id fun name => name.getD g.m) names) .empty

def oracleLines (tag : List Char) (rows : List Got) : List (List Char) :=
  ((cardNames rows).entries.insertionSort fun a b =>
      textBefore a.2 b.2 || (!textBefore b.2 a.2 && textBefore a.1 b.1)).map fun e =>
    tabbed [tag, "oracle".toList, e.1, e.2]

end IsLists
