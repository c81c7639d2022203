-- SUMMARY: The first thing PostgreSQL's compiler would refuse in a pattern, as api.scryfall.com words it.
import Mathlib.Data.Char
import Mathlib.Data.List.Infix
import Mathlib.Data.Nat.Init
import Sylvan.Data.Throws

/-!
# Regex syntax

One scan, left to right, item by item. A pattern is a list of characters.
-/

namespace RegexSyntax

inductive Reason where
  | quantifierOperand
  | invalidEscape
  | parens
  | brackets
  | braces
  | repetitionCount
deriving DecidableEq, Repr

def Reason.text : Reason → String
  | .quantifierOperand => "Invalid regular expression: quantifier operand invalid."
  | .invalidEscape => "Invalid regular expression: invalid escape \\ sequence."
  | .parens => "Invalid regular expression: parentheses () not balanced."
  | .brackets => "Invalid regular expression: brackets [] not balanced."
  | .braces => "Invalid regular expression: braces \x7b\x7d not balanced."
  | .repetitionCount => "Invalid regular expression: invalid repetition count(s)."

def MAX_REPETITION_COUNT : ℕ := 255

def VALID_ESCAPE_LETTERS : List Char := "abdefmnrstvwy".toList

def CONSTRAINT_ESCAPE_LETTERS : List Char := "bmy".toList

def BACKSLASH : Char := Char.ofNat 0x5c

def isHexDigit (c : Char) : Bool :=
  c.isDigit || ('a' ≤ c && c ≤ 'f') || ('A' ≤ c && c ≤ 'F')

/-! ## Items -/

/-- What belongs to an escape after its backslash, and what follows; `none` where PostgreSQL
refuses it. A backslash that ends the pattern is let through. -/
def escape : List Char → Option (List Char × List Char)
  | [] => some ([], [])
  | c :: cs =>
    if !c.isAlpha then some ([c], cs)
    else if c.toLower = 'x' then
      if cs.head?.any isHexDigit then
        some (c :: cs.takeWhile isHexDigit, cs.dropWhile isHexDigit)
      else none
    else if c.toLower = 'u' then
      if (cs.take 4).length = 4 && (cs.take 4).all isHexDigit then
        some (c :: cs.take 4, cs.drop 4)
      else none
    else if c.toLower = 'c' then
      match cs with
      | [] => none
      | d :: ds => some ([c, d], ds)
    else if VALID_ESCAPE_LETTERS.contains c.toLower then some ([c], cs)
    else none

/-- Whether an escape's letters make it a constraint. -/
def isConstraint : List Char → Bool
  | [c] => CONSTRAINT_ESCAPE_LETTERS.contains c.toLower
  | _ => false

/-- What follows the first `d]`. -/
def afterClose (d : Char) : List Char → Option (List Char)
  | a :: b :: cs => if a = d ∧ b = ']' then some cs else afterClose d (b :: cs)
  | _ => none

theorem escape_append {cs used rest : List Char} (h : escape cs = some (used, rest)) : used ++ rest = cs := by
  unfold escape at h
  split at h
  · cases h
    rfl
  split at h
  · cases h
    rfl
  split at h
  · split at h
    · cases h
      exact congrArg (_ :: ·) List.takeWhile_append_dropWhile
    · cases h
  split at h
  · split at h
    · cases h
      exact congrArg (_ :: ·) (List.take_append_drop 4 _)
    · cases h
  split at h
  · split at h
    · cases h
    · cases h
      rfl
  split at h
  · cases h
    rfl
  · cases h

theorem escape_suffix {cs used rest : List Char} (h : escape cs = some (used, rest)) : rest <:+ cs := ⟨used, escape_append h⟩

variable {cs rest : List Char}

theorem afterClose_suffix {d : Char} (h : afterClose d cs = some rest) : rest <:+ cs := by
  induction cs using afterClose.induct d with
  | case1 b cs _ =>
    rw [afterClose, if_pos (by assumption)] at h
    cases h
    exact ⟨[_, _], rfl⟩
  | case2 a b cs hne ih =>
    rw [afterClose, if_neg hne] at h
    exact (ih h).trans (List.suffix_cons a _)
  | case3 cs hcs =>
    unfold afterClose at h
    split at h
    · exact absurd rfl (hcs _ _ _)
    · cases h

/-- Whether `c` and what follows open a `[:`, `[.` or `[=` item. -/
def opensClass (c : Char) (cs : List Char) : Bool :=
  c = '[' && cs.head?.any fun d => d = ':' || d = '.' || d = '='

/-- What follows one item of a bracket expression; it starts with `c`, which is no `]`. -/
def bracketItem (c : Char) (cs : List Char) : Except Reason (List Char) :=
  if c = BACKSLASH then
    match escape cs with
    | none => .error .invalidEscape
    | some (_, rest) => .ok rest
  else if opensClass c cs then
    match afterClose (cs.headD c) cs.tail with
    | none => .error .brackets
    | some rest => .ok rest
  else .ok cs

theorem bracketItem_suffix {c : Char} (h : bracketItem c cs = .ok rest) : rest <:+ cs := by
  unfold bracketItem at h
  split at h
  · split at h
    · cases h
    · next he =>
        cases h
        exact escape_suffix he
  split at h
  · split at h
    · cases h
    · next ha =>
        cases h
        exact (afterClose_suffix ha).trans (List.tail_suffix cs)
  · cases h
    exact List.suffix_rfl

/-- What follows the `]` that closes a bracket expression. -/
def bracketRest : List Char → Except Reason (List Char)
  | [] => .error .brackets
  | c :: cs =>
    if c = ']' then .ok cs
    else
      match _h : bracketItem c cs with
      | .error reason => .error reason
      | .ok rest => bracketRest rest
termination_by cs => cs.length
decreasing_by
  have := (bracketItem_suffix _h).length_le
  simp only [List.length_cons]
  omega

theorem bracketRest_close (cs : List Char) : bracketRest (']' :: cs) = .ok cs := by
  rw [bracketRest, if_pos rfl]

theorem bracketRest_cons {c : Char} {cs : List Char} (hc : c ≠ ']') :
    bracketRest (c :: cs) = bracketItem c cs >>= bracketRest := by
  rw [bracketRest, if_neg hc]
  split <;> next heq => rw [heq]; rfl

theorem bracketRest_suffix (h : bracketRest cs = .ok rest) : rest <:+ cs := by
  induction hn : cs.length using Nat.strong_induction_on generalizing cs with
  | _ n ih =>
    cases cs with
    | nil =>
      rw [bracketRest] at h
      cases h
    | cons c cs =>
      by_cases hc : c = ']'
      · subst hc
        cases (bracketRest_close cs).symm.trans h
        exact List.suffix_cons _ _
      · rw [bracketRest_cons hc] at h
        obtain ⟨tail, htail, h⟩ := Throws.ok_of_bind h
        have hsuffix := bracketItem_suffix htail
        have hlt : tail.length < n := by
          have := hsuffix.length_le
          simp only [← hn, List.length_cons]
          omega
        exact ((ih tail.length hlt h rfl).trans hsuffix).trans (List.suffix_cons _ _)

/-- A leading `^`, and a `]` that comes first, are of the bracket expression. -/
def bracketHead (cs : List Char) : List Char :=
  let cs := if cs.head? = some '^' then cs.tail else cs
  if cs.head? = some ']' then cs.tail else cs

/-- `(\d+)(?:(,)(\d*))?`: the bound's low and high count, and what follows. -/
def boundCounts (cs : List Char) : (ℕ × Option ℕ) × List Char :=
  let low := Nat.ofDigitChars 10 (cs.takeWhile Char.isDigit) 0
  match cs.dropWhile Char.isDigit with
  | ',' :: rest =>
    ((low, if rest.head?.any Char.isDigit then
      some (Nat.ofDigitChars 10 (rest.takeWhile Char.isDigit) 0) else none),
      rest.dropWhile Char.isDigit)
  | rest => ((low, some low), rest)

def badCounts (low : ℕ) (high : Option ℕ) : Bool :=
  low > MAX_REPETITION_COUNT || high.any fun n => n > MAX_REPETITION_COUNT || n < low

/-- What follows a bound, from behind its `{`. -/
def boundRest (cs : List Char) : Except Reason (List Char) :=
  match boundCounts cs with
  | ((low, high), '}' :: rest) => if badCounts low high then .error .repetitionCount else .ok rest
  | _ => .error .braces

inductive Item where
  | atom
  | constraint
  | comment
  | «open» (lookaround : Bool)
  | close
  | bar
  /-- `*`, `+` or a bound. -/
  | loop
  | question
deriving DecidableEq, Repr

/-- A group's opening, from behind its `(`. -/
def readGroup (cs : List Char) : Except Reason (Item × List Char) :=
  match cs with
  | '?' :: '#' :: rest =>
    if rest.contains ')' then .ok (.comment, (rest.dropWhile (· ≠ ')')).tail)
    else .error .parens
  | '?' :: ':' :: rest => .ok (.open false, rest)
  | '?' :: '=' :: rest => .ok (.open true, rest)
  | '?' :: '!' :: rest => .ok (.open true, rest)
  | '?' :: '<' :: '=' :: rest => .ok (.open true, rest)
  | '?' :: '<' :: '!' :: rest => .ok (.open true, rest)
  | '?' :: _ => .error .quantifierOperand
  | rest => .ok (.open false, rest)

/-- The item that starts with `c` and goes on in `cs`, and what follows it. -/
def readItem (c : Char) (cs : List Char) : Except Reason (Item × List Char) :=
  if c = BACKSLASH then
    match escape cs with
    | none => .error .invalidEscape
    | some (used, rest) => .ok (if isConstraint used then .constraint else .atom, rest)
  else if c = '[' then (bracketRest (bracketHead cs)).map (Item.atom, ·)
  else if c = '(' then readGroup cs
  else if c = ')' then .ok (.close, cs)
  else if c = '|' then .ok (.bar, cs)
  else if c = '^' || c = '$' then .ok (.constraint, cs)
  else if c = '*' || c = '+' then .ok (.loop, cs)
  else if c = '?' then .ok (.question, cs)
  else if c = '{' && cs.head?.any Char.isDigit then (boundRest cs).map (Item.loop, ·)
  else .ok (.atom, cs)

/-! ## The scan -/

inductive Kind where
  | none
  | atom
  | quantifier
  | lazy
  | constraint
deriving DecidableEq, Repr

def closed (lookaround : Bool) : Kind := if lookaround then .constraint else .atom

/-- What an item makes of the kind and of the open groups, each a lookaround or not. -/
def step (kind : Kind) (groups : List Bool) : Item → Except Reason (Kind × List Bool)
  | .atom => .ok (.atom, groups)
  | .constraint => .ok (.constraint, groups)
  | .comment => .ok (kind, groups)
  | .open lookaround => .ok (.none, lookaround :: groups)
  | .close =>
    match groups with
    | [] => .error .parens
    | lookaround :: groups => .ok (closed lookaround, groups)
  | .bar => .ok (.none, groups)
  | .loop => if kind = .atom then .ok (.quantifier, groups) else .error .quantifierOperand
  | .question =>
    if kind = .quantifier then .ok (.lazy, groups)
    else if kind = .atom then .ok (.quantifier, groups)
    else .error .quantifierOperand

/-! ## What an item leaves -/

theorem bracketHead_suffix (cs : List Char) : bracketHead cs <:+ cs := by
  have htail (cs : List Char) (c : Char) : (if cs.head? = some c then cs.tail else cs) <:+ cs := by
    split
    · exact List.tail_suffix cs
    · exact List.suffix_rfl
  exact (htail _ ']').trans (htail cs '^')

theorem boundRest_suffix (h : boundRest cs = .ok rest) : rest <:+ cs := by
  have hcounts : (boundCounts cs).2 <:+ cs := by
    unfold boundCounts
    have hdrop := List.dropWhile_suffix Char.isDigit (l := cs)
    split
    · next heq =>
        exact (List.dropWhile_suffix _).trans ((List.suffix_cons _ _).trans (heq ▸ hdrop))
    · exact hdrop
  unfold boundRest at h
  split at h
  · next heq =>
      split at h
      · cases h
      · cases h
        rw [heq] at hcounts
        exact (List.suffix_cons _ _).trans hcounts
  · cases h

theorem readGroup_suffix {item : Item} (h : readGroup cs = .ok (item, rest)) : rest <:+ cs := by
  unfold readGroup at h
  split at h
  · next tail =>
      split at h
      · cases h
        exact ((List.tail_suffix _).trans (List.dropWhile_suffix _)).trans ⟨['?', '#'], rfl⟩
      · cases h
  · cases h
    exact ⟨['?', ':'], rfl⟩
  · cases h
    exact ⟨['?', '='], rfl⟩
  · cases h
    exact ⟨['?', '!'], rfl⟩
  · cases h
    exact ⟨['?', '<', '='], rfl⟩
  · cases h
    exact ⟨['?', '<', '!'], rfl⟩
  · cases h
  · cases h
    exact List.suffix_rfl

theorem readItem_suffix {c : Char} {item : Item}
    (h : readItem c cs = .ok (item, rest)) : rest <:+ cs := by
  have hmap {x : Except Reason (List Char)} {made : Item}
      (hx : ∀ tail, x = .ok tail → tail <:+ cs) (hm : x.map (made, ·) = .ok (item, rest)) :
      rest <:+ cs := by
    cases x with
    | error e => cases hm
    | ok tail =>
      cases hm
      exact hx _ rfl
  unfold readItem at h
  split at h
  · split at h
    · cases h
    · next he =>
        cases h
        exact escape_suffix he
  split at h
  · exact hmap (fun _ ht => (bracketRest_suffix ht).trans (bracketHead_suffix cs)) h
  split at h
  · exact readGroup_suffix h
  split at h
  · cases h
    exact List.suffix_rfl
  split at h
  · cases h
    exact List.suffix_rfl
  split at h
  · cases h
    exact List.suffix_rfl
  split at h
  · cases h
    exact List.suffix_rfl
  split at h
  · cases h
    exact List.suffix_rfl
  split at h
  · exact hmap (fun _ ht => boundRest_suffix ht) h
  · cases h
    exact List.suffix_rfl

def scan (kind : Kind) (groups : List Bool) : List Char → Option Reason
  | [] => if groups = [] then none else some .parens
  | c :: cs =>
    match _h : readItem c cs with
    | .error reason => some reason
    | .ok (item, rest) =>
      match step kind groups item with
      | .error reason => some reason
      | .ok (kind, groups) => scan kind groups rest
termination_by cs => cs.length
decreasing_by
  have := (readItem_suffix _h).length_le
  simp only [List.length_cons]
  omega

def postgresSyntaxReason (pattern : List Char) : Option Reason := scan .none [] pattern

theorem scan_nil (kind : Kind) (groups : List Bool) : scan kind groups [] = if groups = [] then none else some .parens := by
  rw [scan]

theorem scan_error {kind : Kind} {groups : List Bool} {c : Char} {cs : List Char} {reason : Reason}
    (h : readItem c cs = .error reason) : scan kind groups (c :: cs) = some reason := by
  rw [scan]
  split <;> next heq => cases h.symm.trans heq <;> rfl

theorem scan_item {kind : Kind} {groups : List Bool} {c : Char} {item : Item}
    (h : readItem c cs = .ok (item, rest)) :
    scan kind groups (c :: cs) = match step kind groups item with
      | .error reason => some reason
      | .ok (kind, groups) => scan kind groups rest := by
  rw [scan]
  split
  · next heq => cases h.symm.trans heq
  · next heq =>
      cases h.symm.trans heq
      rfl

end RegexSyntax
