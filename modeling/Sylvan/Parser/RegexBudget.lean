-- SUMMARY: The static limits of a regex pattern: one pass that counts its constructs, and what the limits refuse.
import Sylvan.Data.RustStr
import Sylvan.Data.Text

/-!
# Regex budget

A pattern is read construct by construct; classes and escapes are opaque. What the limits
read of it is counted as the constructs go by. A pattern is a list of characters.
-/

namespace RegexBudget

def MAX_REGEX_LEAVES_PER_QUERY : ℕ := 10
def MAX_PATTERN_UTF8_BYTES : ℕ := 256
def MAX_LOOKAROUNDS_PER_PATTERN : ℕ := 4
def MAX_ALTERNATIONS_PER_PATTERN : ℕ := 32
def MAX_REGEX_CONSTRUCTS : ℕ := 64
def MAX_REGEX_PARSE_DEPTH : ℕ := 16
def MAX_QUANTIFIER_BOUND : ℕ := 1024

def BACKSLASH : Char := Char.ofNat 0x5c

/-! ## Constructs -/

/-- What the characters after a `(` make of the group. -/
inductive GroupKind where
  | conditional
  | lookaround
  | backreference
  | plain
deriving DecidableEq

inductive Construct where
  /-- A backslash and the character after it, `none` at the end of the pattern. -/
  | escape (next : Option Char)
  | charClass
  | open (kind : GroupKind)
  | close
  | bar
  /-- `{m}`, `{m,}` or `{m,n}`. -/
  | bound (lower : ℕ) (upper : Option ℕ)
  | brace
  /-- `*`, `+` or `?`. -/
  | loop
  /-- `.`, `^` or `$`. -/
  | mark
  | literal
deriving DecidableEq

/-- What is left after the `]` that closes a class. -/
def classTail : List Char → List Char
  | [] => []
  | c :: cs =>
    if c = ']' then cs
    else if c = BACKSLASH then match cs with
      | [] => []
      | _ :: ds => classTail ds
    else classTail cs

/-- What is left of a class after its `[`: a leading `^` and then a leading `]` are literal. -/
def skipClass (rest : List Char) : List Char :=
  let rest := match rest with
    | '^' :: cs => cs
    | cs => cs
  match rest with
  | ']' :: cs => classTail cs
  | cs => classTail cs

def groupKind (rest : List Char) : GroupKind :=
  if rest.take 2 = "?(".toList then .conditional
  else if rest.take 2 = "?=".toList || rest.take 2 = "?!".toList || rest.take 3 = "?<=".toList || rest.take 3 = "?<!".toList then
    .lookaround
  else if rest.take 3 = "?P=".toList then .backreference
  else .plain

def parseInt (digits : List Char) : ℕ := Text.decimal (String.ofList digits)

/-- The bounds after a `{`, and what follows the `}`; none of a literal brace. -/
def readQuantifier (rest : List Char) : Option ((ℕ × Option ℕ) × List Char) :=
  if '}' ∉ rest then none
  else
    let body := rest.takeWhile (· ≠ '}')
    let lo := body.takeWhile Text.isDigit
    let (comma, hi) := match body.dropWhile Text.isDigit with
      | ',' :: hi => (true, hi)
      | hi => (false, hi)
    if !hi.all Text.isDigit || (!comma && !hi.isEmpty) then none
    else if lo.isEmpty then none
    else
      let upper := if !comma then some (parseInt lo) else if hi.isEmpty then none else some (parseInt hi)
      some ((parseInt lo, upper), (rest.dropWhile (· ≠ '}')).tail)

/-- The construct a pattern starts with, and what is left after it. -/
def readConstruct (c : Char) (rest : List Char) : Construct × List Char :=
  if c = BACKSLASH then match rest with
    | [] => (.escape none, [])
    | next :: rest => (.escape (some next), rest)
  else if c = '[' then (.charClass, skipClass rest)
  else if c = '(' then (.open (groupKind rest), rest)
  else if c = ')' then (.close, rest)
  else if c = '|' then (.bar, rest)
  else if c = '{' then match readQuantifier rest with
    | some ((lower, upper), rest) => (.bound lower upper, rest)
    | none => (.brace, rest)
  else if c = '*' || c = '+' || c = '?' then (.loop, rest)
  else if c = '.' || c = '^' || c = '$' then (.mark, rest)
  else (.literal, rest)

/-- A pattern's constructs; each takes a character at least. -/
def constructsFrom : ℕ → List Char → List Construct
  | 0, _ => []
  | _, [] => []
  | fuel + 1, c :: rest =>
    let (construct, rest) := readConstruct c rest
    construct :: constructsFrom fuel rest

def constructs (pattern : List Char) : List Construct := constructsFrom pattern.length pattern

/-! ## The scan -/

structure PatternMetrics where
  constructs : ℕ
  depth : ℕ
  lookarounds : ℕ
  alternations : ℕ
  backreferences : ℕ
  conditionals : ℕ
  maxExplicitRepeat : ℕ
  quantifierOverBound : Bool
deriving DecidableEq

structure Scan where
  metrics : PatternMetrics
  depth : ℕ
  /-- The factor of each open group, innermost first, the whole pattern's last. -/
  repeatStack : List ℕ
  /-- The factor of what a quantifier would apply to. -/
  lastAtomRepeat : ℕ

def Scan.init : Scan :=
  { metrics :=
      { constructs := 0, depth := 0, lookarounds := 0, alternations := 0, backreferences := 0, conditionals := 0
        maxExplicitRepeat := 1, quantifierOverBound := false }
    depth := 0
    repeatStack := [1]
    lastAtomRepeat := 1 }

def isBackreference (c : Char) : Bool := ('1' ≤ c && c ≤ '9') || c ∈ ['g', 'G', 'k', 'K']

def counted (m : PatternMetrics) : PatternMetrics := { m with constructs := m.constructs + 1 }

def raiseTop (applied : ℕ) : List ℕ → List ℕ
  | [] => []
  | top :: below => max top applied :: below

def Scan.step (openRepeats : Bool) (s : Scan) : Construct → Scan
  | .escape none => { s with metrics := counted s.metrics }
  | .escape (some next) =>
    let m := counted s.metrics
    { s with
      metrics := if isBackreference next then { m with backreferences := m.backreferences + 1 } else m
      lastAtomRepeat := 1 }
  | .charClass => { s with metrics := counted s.metrics, lastAtomRepeat := 1 }
  | .open kind =>
    let m := counted s.metrics
    let m := match kind with
      | .conditional => { m with conditionals := m.conditionals + 1 }
      | .lookaround => { m with lookarounds := m.lookarounds + 1 }
      | .backreference => { m with backreferences := m.backreferences + 1 }
      | .plain => m
    { s with
      metrics := { m with depth := max m.depth (s.depth + 1) }
      depth := s.depth + 1
      repeatStack := 1 :: s.repeatStack }
  | .close =>
    -- The group's own factor becomes what a following quantifier multiplies.
    match s.repeatStack with
    | top :: below :: rest => { s with repeatStack := below :: rest, lastAtomRepeat := top, depth := s.depth - 1 }
    | _ => { s with lastAtomRepeat := 1, depth := s.depth - 1 }
  | .bar =>
    let m := counted s.metrics
    { s with metrics := { m with alternations := m.alternations + 1 }, lastAtomRepeat := 1 }
  | .bound lower upper =>
    let m := counted s.metrics
    let tooWide := match upper with
      | none => lower > 1 && !openRepeats
      | some upper => lower > MAX_QUANTIFIER_BOUND || upper > MAX_QUANTIFIER_BOUND
    let applied := upper.getD lower * s.lastAtomRepeat
    { s with
      metrics :=
        { m with
          quantifierOverBound := m.quantifierOverBound || tooWide
          maxExplicitRepeat := max m.maxExplicitRepeat applied }
      repeatStack := raiseTop applied s.repeatStack
      lastAtomRepeat := applied }
  | .brace => { s with lastAtomRepeat := 1 }
  | .loop => { s with metrics := counted s.metrics }
  | .mark => { s with metrics := counted s.metrics }
  | .literal => { s with lastAtomRepeat := 1 }

def analyzePattern (pattern : List Char) (openRepeats : Bool) : PatternMetrics :=
  ((constructs pattern).foldl (Scan.step openRepeats) .init).metrics

/-! ## The limits -/

inductive Refusal where
  | length
  | depth
  | regexLeaves
  | regexPattern
  /-- The pattern is no regex, with the parser's reason. -/
  | invalid (reason : List Char)
deriving DecidableEq

/-- The limits of one pattern; `malformed` is the reason the host's regex parser gives against one. -/
def enforcePatternLimits (malformed : List Char → Option (List Char)) (openRepeats : Bool) (pattern : List Char) :
    Except Refusal Unit :=
  if (RustStr.utf8 pattern).length > MAX_PATTERN_UTF8_BYTES then throw .regexPattern
  else
    let metrics := analyzePattern pattern openRepeats
    -- Before well-formedness: the host's parser knows no conditionals.
    if metrics.backreferences > 0 || metrics.conditionals > 0 then throw .regexPattern
    else match malformed pattern with
      | some reason => throw (.invalid reason)
      | none =>
        if metrics.quantifierOverBound || metrics.maxExplicitRepeat > MAX_QUANTIFIER_BOUND then throw .regexPattern
        else if metrics.lookarounds > MAX_LOOKAROUNDS_PER_PATTERN then throw .regexPattern
        else if metrics.alternations > MAX_ALTERNATIONS_PER_PATTERN then throw .regexPattern
        else if metrics.constructs > MAX_REGEX_CONSTRUCTS || metrics.depth > MAX_REGEX_PARSE_DEPTH then throw .regexPattern
        else pure ()

theorem maxExplicitRepeat_le_of_ok {malformed : List Char → Option (List Char)} {openRepeats : Bool} {pattern : List Char}
    (h : enforcePatternLimits malformed openRepeats pattern = .ok ()) :
    (analyzePattern pattern openRepeats).maxExplicitRepeat ≤ MAX_QUANTIFIER_BOUND := by
  unfold enforcePatternLimits at h
  by_cases hbytes : (RustStr.utf8 pattern).length > MAX_PATTERN_UTF8_BYTES
  · rw [if_pos hbytes] at h
    cases h
  · rw [if_neg hbytes] at h
    dsimp only at h
    by_cases hback : ((analyzePattern pattern openRepeats).backreferences > 0 ||
        (analyzePattern pattern openRepeats).conditionals > 0) = true
    · rw [if_pos hback] at h
      cases h
    · rw [if_neg hback] at h
      cases hmal : malformed pattern with
      | some reason =>
        rw [hmal] at h
        cases h
      | none =>
        rw [hmal] at h
        dsimp only at h
        by_contra hover
        rw [if_pos (by simp [Nat.lt_of_not_le hover])] at h
        cases h

end RegexBudget
