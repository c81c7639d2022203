-- SUMMARY: The query tree, and the parser's flattening of nested chains.
import Sylvan.Parser.DbInfo
import Sylvan.Parser.Tokenizer

/-!
# Query nodes

Only the card classes are ever built: a `BinaryOperatorNode` is a
`CardBinaryOperatorNode`, whose constructor may lower a color count (`Vocabulary`).
-/

inductive NaryOp where
  | and
  | or
deriving DecidableEq, Repr

/-- A node; `F` is the type of the doubles in it. -/
inductive QueryNode (F : Type) where
  /-- The alias as written, lowercased, and the one column it names. -/
  | attr (originalAttribute : String) (fieldInfo : FieldInfo)
  | string (value : String) (literal regexDerived : Bool)
  | numeric (value : PyNumber F)
  | mana (value : String)
  | regex (value : String)
  | exactName (value : String)
  /-- `TrueNode`. -/
  | always
  | directive (name value : String)
  | binary (lhs : QueryNode F) (op : BinOp) (rhs : QueryNode F)
  | nary (op : NaryOp) (operands : List (QueryNode F))
  | not (operand : QueryNode F)

structure DirectiveFound where
  name : String
  value : String
  nested : Bool
deriving DecidableEq, Repr

/-- One `column:value` leaf. -/
structure QueryTerm where
  attributeName : String
  value : String
deriving DecidableEq, Repr

structure ExpandedDerivedTerm where
  term : String
  leaves : List QueryTerm
deriving DecidableEq, Repr

structure Query (F : Type) where
  root : QueryNode F
  directives : List DirectiveFound := []
  warnings : List String := []
  loweredRegexTerms : List QueryTerm := []
  expandedDerivedTerms : List ExpandedDerivedTerm := []

def Query.of {F : Type} (root : QueryNode F) : Query F := { root := root }

namespace QueryNode

variable {F : Type}

/-- Induction on a node; a compound has the hypothesis for each of its operands. -/
@[elab_as_elim, induction_eliminator]
theorem induct {motive : QueryNode F → Prop}
    (attr : ∀ name fi, motive (.attr name fi))
    (string : ∀ value literal derived, motive (.string value literal derived))
    (numeric : ∀ value, motive (.numeric value))
    (mana : ∀ value, motive (.mana value))
    (regex : ∀ value, motive (.regex value))
    (exactName : ∀ value, motive (.exactName value))
    (always : motive .always)
    (directive : ∀ name value, motive (.directive name value))
    (binary : ∀ lhs op rhs, motive lhs → motive rhs → motive (.binary lhs op rhs))
    (nary : ∀ op operands, (∀ o ∈ operands, motive o) → motive (.nary op operands))
    (not : ∀ operand, motive operand → motive (.not operand)) (node : QueryNode F) :
    motive node :=
  QueryNode.rec (motive_1 := motive) (motive_2 := fun os => ∀ o ∈ os, motive o)
    attr string numeric mana regex exactName always directive
    binary nary not (by simp) (fun _ _ h hs => by simpa using And.intro h hs) node

def operandsOf (op : NaryOp) : QueryNode F → Option (List (QueryNode F))
  | .nary op' operands => if op' = op then some operands else none
  | _ => none

def isLeaf : QueryNode F → Bool
  | .nary _ _ => false
  | .not _ => false
  | _ => true

mutual

/-- The nodes at every position, the node itself first. -/
def nodes : QueryNode F → List (QueryNode F)
  | .binary lhs op rhs => .binary lhs op rhs :: (nodes lhs ++ nodes rhs)
  | .nary op operands => .nary op operands :: nodesAll operands
  | .not operand => .not operand :: nodes operand
  | node => [node]

def nodesAll : List (QueryNode F) → List (QueryNode F)
  | [] => []
  | o :: os => nodes o ++ nodesAll os

end

theorem eq_of_operandsOf {op : NaryOp} {node : QueryNode F} {inner : List (QueryNode F)}
    (h : node.operandsOf op = some inner) : node = .nary op inner := by
  cases node with
  | nary op' operands =>
    simp only [operandsOf, Option.ite_none_right_eq_some, Option.some.injEq] at h
    rw [h.1, h.2]
  | _ => cases h

mutual

/-- `flattenNestedOperations(node)`; a comparison's operands stay as they are. -/
def flatten : QueryNode F → QueryNode F
  | .nary op operands => .nary op (flattenInto op operands)
  | .not operand => .not (flatten operand)
  | node => node

/-- The operands flattened, those of the same operator merged in. -/
def flattenInto (op : NaryOp) : List (QueryNode F) → List (QueryNode F)
  | [] => []
  | o :: os => ((flatten o).operandsOf op).getD [flatten o] ++ flattenInto op os

end

end QueryNode
