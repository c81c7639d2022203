-- SUMMARY: The balancer of half-typed queries.
import Sylvan.Parser.Tokenizer

/-!
# Balancing a query

A query is balanced while it is typed: an open string, regex or mana symbol is closed,
and every open parenthesis after it. The balancer reads characters where the lexer
reads tokens, and keeps what it has read, last character first.
-/

namespace Balance

open Spans Tokenizer

variable (py : PyHost)

/-! ## The balancer -/

def closeParens (openParens : ℕ) : List Char := List.replicate openParens ')'

def closerForPartialSpan (danglingEscape : Bool) (closer : Char) : List Char :=
  (if danglingEscape then [BACKSLASH] else []) ++ [closer]

/-- Whether the apostrophe after `before` stands inside a word, or at its end mid-type. -/
def apostropheInWord (before cs : List Char) : Bool :=
  before.head?.any (isWordCont py) && cs.head?.all (isWordCont py)

/-- What is appended to the query, of which `before` is read and the list is left. -/
def balanceFrom (before : List Char) (openParens : ℕ) : List Char → Except String (List Char)
  | [] => .ok (closeParens openParens)
  | c :: cs =>
    if c = APOSTROPHE && apostropheInWord py before cs then
      balanceFrom (c :: before) openParens cs
    else if isQuote c || (c = '/' && opensRegex before) then
      match _h : (findClose c cs).close with
      | none =>
        .ok (closerForPartialSpan (findClose c cs).danglingEscape c ++ closeParens openParens)
      | some (content, rest) =>
        balanceFrom (c :: (content.reverse ++ c :: before)) openParens rest
    else if c = '{' then
      match _h : braceClose cs with
      | none => .ok ('}' :: closeParens openParens)
      | some (content, rest) => balanceFrom ('}' :: (content.reverse ++ c :: before)) openParens rest
    else if c = '(' then balanceFrom (c :: before) (openParens + 1) cs
    else if c = ')' then
      if openParens = 0 then .error "Unbalanced closing character ')' cannot be balanced"
      else balanceFrom (c :: before) (openParens - 1) cs
    else balanceFrom (c :: before) openParens cs
termination_by cs => cs.length
decreasing_by
  · simp
  · simp [findClose_eq _h]
    omega
  · simp [braceClose_eq _h]
    omega
  all_goals simp

def balancePartialQuery (queryIn : List Char) : Except String (List Char) :=
  (balanceFrom py [] 0 (foldTypographicQuotes queryIn)).map (foldTypographicQuotes queryIn ++ ·)

/-! ## Parentheses of a token stream -/

def afterLexeme {F : Type} (openParens : ℕ) : Lexeme F → Option ℕ
  | .lparen => some (openParens + 1)
  | .rparen => if openParens = 0 then none else some (openParens - 1)
  | _ => some openParens

/-- The parentheses open after the tokens, or `none` where one closes that none opened. -/
def nesting {F : Type} (openParens : ℕ) (tokens : List (Token F)) : Option ℕ :=
  tokens.foldlM (fun n t => afterLexeme n t.lexeme) openParens

def Balanced {F : Type} (tokens : List (Token F)) : Prop := nesting 0 tokens = some 0

end Balance
