-- SUMMARY: The rewrites of a parsed query: directives, `game:` and `not:` terms, derived terms, plain regexes.
import Sylvan.Parser.Compounds
import Sylvan.Parser.DerivedTerms
import Sylvan.Parser.Parser

/-!
# Query rewrites

Each pass walks `And`, `Or` and `Not` to the leaves, and puts something else in the place of some
of them. A comparison is a leaf: what stands under it no pass sees.
-/

/-- The language, and what is read of patterns and of nodes without a key of their own. -/
structure QueryHost extends ParserHost where
  toLowerCase : String → String
  /-- Why `new RegExp` throws on a pattern. -/
  malformed : List Char → Option (List Char)
  keys : Compounds.KeyHost toPyHost

namespace Rewrite

open DerivedTerms Parser Vocabulary

/-! ## Leaves -/

section Leaves

variable {F T : Type}

mutual

def leaves : QueryNode F → List (QueryNode F)
  | .nary _ operands => leavesAll operands
  | .not operand => leaves operand
  | node => [node]

def leavesAll : List (QueryNode F) → List (QueryNode F)
  | [] => []
  | o :: os => leaves o ++ leavesAll os

end

/-- What a pass makes of a leaf, with what it records; `none` leaves it alone. -/
abbrev LeafPass (F T : Type) : Type := QueryNode F → Except Fail (Option (QueryNode F × List T))

variable (pass : LeafPass F T)

mutual

/-- The tree with its leaves rewritten, whether any was, and the records in order. -/
def mapLeaves : QueryNode F → Except Fail (QueryNode F × Bool × List T)
  | .nary op operands => do
    let (rewritten, changed, found) ← mapLeavesAll operands
    .ok (if changed then .nary op rewritten else .nary op operands, changed, found)
  | .not operand => do
    let (rewritten, changed, found) ← mapLeaves operand
    .ok (if changed then .not rewritten else .not operand, changed, found)
  | node => do
    match ← pass node with
    | some (rewritten, found) => .ok (rewritten, true, found)
    | none => .ok (node, false, [])

def mapLeavesAll : List (QueryNode F) → Except Fail (List (QueryNode F) × Bool × List T)
  | [] => .ok ([], false, [])
  | o :: os => do
    let (o, changed, found) ← mapLeaves o
    let (os, changedOs, foundOs) ← mapLeavesAll os
    .ok (o :: os, changed || changedOs, found ++ foundOs)

end

/-- A pass over the whole query: flattened again, if any leaf was rewritten. -/
def overQuery (query : Query F) : Except Fail (Query F × List T) := do
  let (root, changed, found) ← mapLeaves pass query.root
  .ok (if changed then .of root.flatten else query, found)

end Leaves

/-! ## Directives -/

section Directives

variable {F : Type}

mutual

/-- The tree without its directives, and those in order; `nested` is under an `Or` or a negation. -/
def stripDirectives (nested : Bool) : QueryNode F → Option (QueryNode F) × List DirectiveFound
  | .directive name value => (none, [⟨name, value, nested⟩])
  | .nary op operands =>
    let (kept, found) := stripDirectivesAll (nested || op = .or) operands
    (match kept with
      | [] => none
      | [single] => some single
      | _ => some (.nary op kept), found)
  | .not operand =>
    let (inner, found) := stripDirectives true operand
    (inner.map .not, found)
  | node => (some node, [])

def stripDirectivesAll (nested : Bool) : List (QueryNode F) → List (QueryNode F) × List DirectiveFound
  | [] => ([], [])
  | o :: os =>
    let (o, found) := stripDirectives nested o
    let (os, foundOs) := stripDirectivesAll nested os
    (o.toList ++ os, found ++ foundOs)

end

def extractDirectives (query : Query F) : Query F × List DirectiveFound :=
  let (root, found) := stripDirectives false query.root
  if found.isEmpty then (query, []) else (.of (root.getD .always), found)

end Directives

/-! ## Terms -/

/-- The `value` of a node that has one, and a string. -/
def textValue {F : Type} : QueryNode F → Option String
  | .string value _ _ => some value
  | .mana value => some value
  | .regex value => some value
  | .exactName value => some value
  | .directive _ value => some value
  | _ => none

variable (host : QueryHost)

abbrev QNode : Type := QueryNode host.Double

def leafKey : QNode host → Option (String × String)
  | .binary (.attr alias_ _) .colon rhs => (textValue rhs).map fun value => (alias_, host.pyLower value)
  | _ => none

/-! ## Unsupported values -/

/-- The values an alias takes, of the aliases that take certain ones. -/
def supportedValues (alias_ : String) : Option (List String) :=
  if alias_ = "is" ∨ alias_ = "not" then some SUPPORTED_IS_VALUES
  else if alias_ = "has" then some SUPPORTED_HAS_VALUES
  else if alias_ = "game" then some (GAME_IS_TAGS.map (·.1))
  else none

def unsupportedIs (node : QNode host) : List String :=
  match leafKey host node with
  | none => []
  | some (alias_, value) =>
    if ((supportedValues alias_).getD [value]).contains value then []
    else [s!"Unsupported term “{alias_}:{value}”: this server has no data for that predicate, so it matched no cards."]

def unsupportedIsWarnings (query : Query host.Double) : List String :=
  (leaves query.root).flatMap (unsupportedIs host)

/-! ## `game:` and `not:` -/

/-- The leaf a `game:` term is. -/
def swapGameLeaf : LeafPass host.Double Empty
  | .binary (.attr "game" fi) op rhs =>
    match textValue rhs with
    | none => .ok none
    | some value => do
      let isLhs ← attributeNode host.toPyHost "is" fi.parserClass
      .ok (some (binaryNode isLhs op (.string (gameTagKey (host.pyLower value)) false false), []))
  | _ => .ok none

/-- The negated leaf a `not:` term is. -/
def swapNotLeaf : LeafPass host.Double Empty
  | .binary (.attr "not" fi) op rhs => do
    let isLhs ← attributeNode host.toPyHost "is" fi.parserClass
    .ok (some (.not (binaryNode isLhs op rhs), []))
  | _ => .ok none

def prefixGameValues (query : Query host.Double) : Except Fail (Query host.Double) := do
  let (query, _) ← overQuery (swapGameLeaf host) query
  .ok query

def negateNotPrefix (query : Query host.Double) : Except Fail (Query host.Double) := do
  let (query, _) ← overQuery (swapNotLeaf host) query
  .ok query

/-! ## Derived terms -/

abbrev Expansion : Type := (String × String) × String

def others (key : String × String) (rows : List Expansion) : List Expansion := rows.filter (·.1 ≠ key)

theorem others_lt {key : String × String} {rows : List Expansion} {dsl : String} (h : rows.lookup key = some dsl) :
    (others key rows).length < rows.length := by
  apply List.length_filter_lt_length_iff_exists.mpr
  induction rows with
  | nil => cases h
  | cons row rows ih =>
    by_cases hkey : key = row.1
    · exact ⟨row, by simp, by simp [hkey]⟩
    · rw [List.lookup_cons, beq_eq_false_iff_ne.mpr hkey] at h
      obtain ⟨row', hin, hrow⟩ := ih h
      exact ⟨row', List.mem_cons_of_mem _ hin, hrow⟩

/-- What a derived term is short for, its own derived terms expanded with the rows that are left. -/
def expandLeaf (rows : List Expansion) (node : QNode host) : Except Fail (Option (QNode host × List Empty)) :=
  match leafKey host node with
  | none => .ok none
  | some key =>
    match _h : rows.lookup key with
    | none => .ok none
    | some dsl => do
      let expansion ← parseQuery host.toParserHost dsl {}
      let (subtree, _, _) ← mapLeaves (expandLeaf (others key rows)) expansion.root
      .ok (some (subtree, []))
termination_by rows.length
decreasing_by exact others_lt ‹_›

def termOf (key : String × String) : String := s!"{key.1}:{key.2}"

def expandedLeaf : QNode host → List QueryTerm
  | .binary (.attr _ fi) _ rhs =>
    ((textValue rhs).map fun value => ⟨host.pyLower fi.dbColumnName, host.toLowerCase value⟩).toList
  | _ => []

def collectExpandedLeaves (node : QNode host) : List QueryTerm := (leaves node).flatMap (expandedLeaf host)

/-- A term of the query that is derived, with what its expansion left. -/
def expandTerm (node : QNode host) : Except Fail (Option (QNode host × List ExpandedDerivedTerm)) := do
  match leafKey host node, ← expandLeaf host DERIVED_EXPANSIONS node with
  | some key, some (subtree, _) => .ok (some (subtree, [⟨termOf key, collectExpandedLeaves host subtree⟩]))
  | _, _ => .ok none

def expandDerivedPredicates (query : Query host.Double) : Except Fail (Query host.Double) := do
  let (out, expanded) ← overQuery (expandTerm host) query
  .ok { out with expandedDerivedTerms := expanded }

/-! ## Plain regexes -/

def REGEX_METACHARS : List Char := ".*+?()[]\x7b\x7d|^$~".toList

/-- The characters a pattern without metacharacters stands for. -/
def plainChars : List Char → Option (List Char)
  | [] => some []
  | [c] => if c = Spans.BACKSLASH || REGEX_METACHARS.contains c then none else some [c]
  | c :: d :: cs =>
    if c = Spans.BACKSLASH then
      if d.isAlphanum || d = '~' then none else (plainChars cs).map (d :: ·)
    else if REGEX_METACHARS.contains c then none
    else (plainChars (d :: cs)).map (c :: ·)

def regexPlainLiteral (pattern : String) : Option String :=
  match plainChars pattern.toList with
  | none => none
  | some [] => none
  | some chars => some (String.ofList chars)

/-- Whether a bare value of the column is a substring test. -/
def isTextColumn {F : Type} : QueryNode F → Bool
  | .attr _ fi => fi.parserClass = .text
  | _ => true

def loweredTerm (literal : String) : QNode host → List QueryTerm
  | .attr _ fi => [⟨host.pyLower fi.dbColumnName, host.toLowerCase literal⟩]
  | _ => []

def lowerRegexLeaf : LeafPass host.Double QueryTerm
  | .binary lhs .colon (.regex pattern) =>
    match regexPlainLiteral pattern with
    | none => .ok none
    | some literal =>
      if isTextColumn lhs then
        .ok (some (.binary lhs .colon (.string literal true true), loweredTerm host literal lhs))
      else .ok none
  | _ => .ok none

def lowerLiteralRegexes (query : Query host.Double) : Except Fail (Query host.Double) := do
  let (root, _, lowered) ← mapLeaves (lowerRegexLeaf host) query.root
  .ok { query with root := root, loweredRegexTerms := lowered }

/-! ## The pipeline -/

/-- `REWRITE_PASSES`, one after another. -/
def rewritePasses (query : Query host.Double) : Except Fail (Query host.Double) := do
  let query ← prefixGameValues host query
  let query ← negateNotPrefix host query
  let query ← expandDerivedPredicates host query
  lowerLiteralRegexes host query

def rewriteQuery (query : Query host.Double) : Except Fail (Query host.Double) := do
  let (stripped, directives) := extractDirectives query
  let out ← rewritePasses host stripped
  .ok { out with directives := directives, warnings := unsupportedIsWarnings host query }

mutual

def collectRegexPatterns {F : Type} : QueryNode F → List String
  | .nary _ operands => collectRegexPatternsAll operands
  | .not operand => collectRegexPatterns operand
  | .binary _ _ (.regex value) => [value]
  | _ => []

def collectRegexPatternsAll {F : Type} : List (QueryNode F) → List String
  | [] => []
  | o :: os => collectRegexPatterns o ++ collectRegexPatternsAll os

end

/-- `enforcePatternLimits(pattern, options)`. -/
def enforce (openRepeats : Bool) (pattern : String) : Except RegexBudget.Refusal Unit :=
  RegexBudget.enforcePatternLimits host.malformed openRepeats pattern.toList

def validateRegexPatterns (openRepeats : Bool) (query : Query host.Double) : Except RegexBudget.Refusal Unit :=
  let patterns := collectRegexPatterns query.root
  if RegexBudget.MAX_REGEX_LEAVES_PER_QUERY < patterns.length then .error .regexLeaves
  else patterns.forM (enforce host openRepeats)

def finalizeQuery (openRepeats : Bool) (query : Query host.Double) : Except Fail (Query host.Double) := do
  let query ← rewriteQuery host query
  (validateRegexPatterns host openRepeats query).mapError .refused
  (Compounds.flattenAndDeduplicateCompounds host.keys query).mapError .parse

end Rewrite
