-- SUMMARY: Which partitions a query's matches can live in, read off its filter tree.
import Sylvan.Data.Json
import Sylvan.Data.Text
import Sylvan.Engine.Partition

/-!
# Card restrictions

A query whose answer comes from an explicit list of cards need only ask the
partitions those cards live in. `cardRestrictionOf` walks the filter tree and
gives each node a set of partitions every matching row lives in, or nothing when
it knows none; an AND intersects its operands' sets and an OR unites them.
-/

namespace Restriction

open Partition
open Json (arr between isStr isStr_eq_true)

/-! ## The filter tree -/

/-- The text of a filter tree and what `JSON.parse` makes of it, `none` when it
throws. A tree's text is its canonical one. -/
structure FilterTreeJson where
  text : List Char
  parsed : Option Json
  wire : ∀ tree, parsed = some tree → text = tree.canonicalStringify

def FilterTreeJson.ofTree (tree : Json) : FilterTreeJson where
  text := tree.canonicalStringify
  parsed := some tree
  wire _ h := by rw [Option.some.inj h]

def MAX_DEPTH : ℕ := 32

/-- The words of `WIDENING`, sought between quotes. -/
def WIDENING : List String := ["card_lang", "localizedname", "printedtext", "fwb"]

def widening (text : List Char) : Bool :=
  WIDENING.any fun word => Text.includes text (between word.toList)

def isHex (c : Char) : Bool :=
  c.isDigit || ('a' ≤ c && c ≤ 'f') || ('A' ≤ c && c ≤ 'F')

/-- `UUID.test(value)`. -/
def isUUID (value : String) : Bool :=
  let parts := value.toList.splitOn '-'
  parts.map List.length == [8, 4, 4, 4, 12] && parts.all (·.all isHex)

def CONTAINING_OPS : List String := [":", "=", ">=", ">"]

def isExtrasGate (node : Json) : Bool :=
  let inner := Json.get (node.prop "kwargs") "operand"
  let kwargs := Json.get inner "kwargs"
  let lhs := Json.get kwargs "lhs"
  isStr (node.prop "node_type") "NotNode" &&
    isStr (Json.get inner "node_type") "CardBinaryOperatorNode" &&
    isStr (Json.get kwargs "op") ":" &&
    isStr (Json.get lhs "node_type") "CardAttributeNode" &&
    isStr (Json.get (Json.get lhs "kwargs") "attribute_name") "card_is_tags" &&
    match Json.get kwargs "rhs" with
    | some (.arr [tag]) => isStr (some tag) "extra"
    | _ => false

/-- The root's conjuncts, nested ANDs flattened; `remaining` is how much deeper
than here an AND is still flattened. -/
def rootConjuncts : ℕ → Json → List Json
  | 0, node => [node]
  | remaining + 1, node =>
    match Json.get (node.prop "kwargs") "operands" with
    | some (.arr operands) =>
      if isStr (node.prop "node_type") "AndNode" then
        operands.flatMap (rootConjuncts remaining)
      else [node]
    | _ => [node]

/-! ## The walk -/

/-- The modulus and the sources a restriction is read from: the routing filter's
word on a collated name, and the oracle-tags blob's on a slug, when there is one. -/
structure Sources where
  n : ℕ
  nameHint : String → Option NamePlacement
  tagPartitions : Option (String → List ℤ)

/-- A subtree's partition set and the list members it was derived from. -/
structure Restricted where
  set : JsSet ℤ
  members : ℕ
  names : ℕ
  tags : ℕ

structure CardRestriction where
  partitions : List ℤ
  members : ℕ
  names : ℕ
  tags : ℕ
  deriving DecidableEq

section Walk

variable (src : Sources) (servedExact : Bool)

def Sources.holds (p : ℤ) : Bool := 0 ≤ p && p < src.n

def nameSet (value : Option Json) : Option (JsSet ℤ) :=
  match value with
  | some (.str value) =>
    if value = "" then none
    else
      match src.nameHint value with
      | none => none
      | some (.hint (.sole p)) => if src.holds p then some [p] else none
      | some (.servedPair a b) =>
        if !servedExact then none
        else if src.holds a && src.holds b then some (JsSet.add [a] b) else none
      | some (.hint (.served p _ _)) =>
        if !servedExact then none else if src.holds p then some [p] else none
  | _ => none

/-- The slug's partitions; one outside the modulus means another build's blob. -/
def tagSet (op rhs : Option Json) : Option (JsSet ℤ) :=
  match src.tagPartitions, op, rhs with
  | some tagPartitions, some (.str op), some (.arr [.str slug]) =>
    if op ∈ CONTAINING_OPS then
      (tagPartitions slug).foldlM
        (fun set p => if src.holds p then some (JsSet.add set p) else none) []
    else none
  | _, _, _ => none

/-- The branch of a `CardBinaryOperatorNode`. -/
def walkBinary (kwargs : Json) : Option Restricted :=
  let lhs := kwargs.prop "lhs"
  let op := kwargs.prop "op"
  let rhs := kwargs.prop "rhs"
  let attributeName := Json.get (Json.get lhs "kwargs") "attribute_name"
  if !isStr (Json.get lhs "node_type") "CardAttributeNode" then none
  else if isStr attributeName "card_oracle_tags" then
    (tagSet src op rhs).map fun set => { set, members := 1, names := 0, tags := 1 }
  else if !(isStr op ":" || isStr op "=") then none
  else if !isStr attributeName "oracle_id" then none
  else if !isStr (Json.get rhs "node_type") "StringValueNode" then none
  else
    match Json.get (Json.get rhs "kwargs") "value" with
    | some (.str value) =>
      if isUUID value then
        some {
          set := [(partitionOfOracleId (toLowerCase value) src.n : ℤ)]
          members := 1
          names := 0
          tags := 0 }
      else none
    | _ => none

def Restricted.meet : Option Restricted → Option Restricted → Option Restricted
  | acc, none => acc
  | none, some r => some r
  | some acc, some r =>
    some {
      set := acc.set.filter (· ∈ r.set)
      members := acc.members + r.members
      names := acc.names + r.names
      tags := acc.tags + r.tags }

/-- One operand of an OR: with an unrestricted one it can match anything. -/
def Restricted.join (acc : Restricted) (r : Option Restricted) : Option Restricted :=
  r.map fun r => {
    set := r.set.foldl JsSet.add acc.set
    members := acc.members + r.members
    names := acc.names + r.names
    tags := acc.tags + r.tags }

/-- `walk(node, depth)`, with `remaining` for `MAX_DEPTH + 1 - depth`. A `kwargs`
that is no object has no properties and ends in the same `null` as a missing one. -/
def walk : ℕ → Json → Option Restricted
  | 0, _ => none
  | remaining + 1, node =>
    match node.prop "kwargs" with
    | none => none
    | some kwargs =>
      if isStr (node.prop "node_type") "ExactNameNode" then
        (nameSet src servedExact (kwargs.prop "value")).map fun set =>
          { set, members := 1, names := 1, tags := 0 }
      else if isStr (node.prop "node_type") "CardBinaryOperatorNode" then
        walkBinary src kwargs
      else
        match kwargs.prop "operands" with
        | some (.arr operands) =>
          if operands.length = 0 then none
          else if isStr (node.prop "node_type") "AndNode" then
            (operands.map (walk remaining)).foldl Restricted.meet none
          else if isStr (node.prop "node_type") "OrNode" then
            (operands.map (walk remaining)).foldlM Restricted.join
              { set := [], members := 0, names := 0, tags := 0 }
          else none
        | _ => none

end Walk

/-- The card restriction a wire filter tree carries, or `none` when it has none. -/
def cardRestrictionOf (filterTreeJson : FilterTreeJson) (src : Sources) (multilingual : Bool) : Option CardRestriction :=
  match filterTreeJson.parsed with
  | none => none
  | some tree =>
    if src.n < 1 then none
    else
      let servedExact := (rootConjuncts MAX_DEPTH tree).any isExtrasGate && !multilingual &&
        !widening filterTreeJson.text
      (walk src servedExact (MAX_DEPTH + 1) tree).map fun r => {
        partitions := r.set.insertionSort (· ≤ ·)
        members := r.members
        names := r.names
        tags := r.tags }

/-! ## What a query matches -/

inductive Tri where
  | tru
  | fls
  | nul
  deriving DecidableEq

def Tri.and (ts : List Tri) : Tri :=
  if .fls ∈ ts then .fls else if .nul ∈ ts then .nul else .tru

def Tri.or (ts : List Tri) : Tri :=
  if .tru ∈ ts then .tru else if .nul ∈ ts then .nul else .fls

def Tri.not : Tri → Tri
  | .tru => .fls
  | .fls => .tru
  | .nul => .nul

theorem Tri.and_eq_tru {ts : List Tri} : Tri.and ts = .tru ↔ ∀ t ∈ ts, t = .tru := by
  unfold Tri.and
  constructor
  · intro h t ht
    cases t with
    | tru => rfl
    | fls => simp [ht] at h
    | nul =>
      rw [if_pos ht] at h
      split at h <;> cases h
  · intro h
    have hfls : Tri.fls ∉ ts := fun hmem => nomatch h _ hmem
    have hnul : Tri.nul ∉ ts := fun hmem => nomatch h _ hmem
    simp [hfls, hnul]

theorem Tri.or_eq_tru {ts : List Tri} : Tri.or ts = .tru ↔ .tru ∈ ts := by
  unfold Tri.or
  split
  · simp_all
  · rename_i hnot
    refine ⟨fun h => ?_, fun h => (hnot h).elim⟩
    split at h <;> cases h

theorem Tri.not_eq_tru {t : Tri} : t.not = .tru ↔ t = .fls := by
  cases t <;> simp [Tri.not]

def operandsOf (nodeType : String) (node : Json) : Option (List Json) :=
  if isStr (node.prop "node_type") nodeType then
    match Json.get (node.prop "kwargs") "operands" with
    | some (.arr operands) => some operands
    | _ => none
  else none

/-- The operand of a `NotNode`. -/
def operandOf (node : Json) : Option Json :=
  if isStr (node.prop "node_type") "NotNode" then
    Json.get (node.prop "kwargs") "operand"
  else none

theorem sizeOf_lt_of_get {node value : Json} {key : String}
    (h : Json.get (node.prop "kwargs") key = some value) : sizeOf value < sizeOf node := by
  obtain ⟨kwargs, hkwargs, hvalue⟩ := Option.bind_eq_some_iff.mp h
  exact (Json.sizeOf_lt_of_prop hvalue).trans (Json.sizeOf_lt_of_prop hkwargs)

variable {operands : List Json} {nodeType : String} {node : Json}

theorem get_of_operandsOf (h : operandsOf nodeType node = some operands) :
    Json.get (node.prop "kwargs") "operands" = some (.arr operands) := by
  unfold operandsOf at h
  split at h
  · split at h
    · rename_i hget
      rw [hget, Option.some.inj h]
    · cases h
  · cases h

theorem sizeOf_lt_of_operandsOf {node operand : Json}
    (h : operandsOf nodeType node = some operands) (hmem : operand ∈ operands) :
    sizeOf operand < sizeOf node := by
  have hitems := List.sizeOf_lt_of_mem hmem
  have harr := sizeOf_lt_of_get (get_of_operandsOf h)
  simp only [arr.sizeOf_spec] at harr
  omega

theorem sizeOf_lt_of_operandOf {node operand : Json} (h : operandOf node = some operand) : sizeOf operand < sizeOf node := by
  unfold operandOf at h
  split at h
  · exact sizeOf_lt_of_get h
  · cases h

/-- The truth value of a filter tree at a row, over a reading of its leaves. What
is not an AND, an OR or a NOT with its operands is a leaf. -/
def eval {Row : Type} (leaf : Json → Row → Tri) (row : Row) (node : Json) : Tri :=
  match _hand : operandsOf "AndNode" node with
  | some operands => Tri.and (operands.attach.map fun o => eval leaf row o.1)
  | none =>
    match _hor : operandsOf "OrNode" node with
    | some operands => Tri.or (operands.attach.map fun o => eval leaf row o.1)
    | none =>
      match _hnot : operandOf node with
      | some operand => (eval leaf row operand).not
      | none => leaf node row
termination_by sizeOf node
decreasing_by
  · exact sizeOf_lt_of_operandsOf _hand o.2
  · exact sizeOf_lt_of_operandsOf _hor o.2
  · exact sizeOf_lt_of_operandOf _hnot

theorem isStr_of_operandsOf (h : operandsOf nodeType node = some operands) :
    isStr (node.prop "node_type") nodeType = true := by
  unfold operandsOf at h
  split at h
  · assumption
  · cases h

theorem operandsOf_of_isStr {nodeType other : String} (hne : nodeType ≠ other)
    (h : isStr (node.prop "node_type") nodeType = true) : operandsOf other node = none := by
  unfold operandsOf
  rw [if_neg]
  rw [isStr_eq_true] at h ⊢
  rw [h]
  simpa using hne

theorem operandOf_of_isStr (hne : nodeType ≠ "NotNode")
    (h : isStr (node.prop "node_type") nodeType = true) : operandOf node = none := by
  unfold operandOf
  rw [if_neg]
  rw [isStr_eq_true] at h ⊢
  rw [h]
  simpa using hne

section Eval

private theorem map_attach_val {α β : Type} (l : List α) (f : α → β) : (l.attach.map fun a => f a.1) = l.map f := by
  simp

variable {Row : Type} {leaf : Json → Row → Tri} {row : Row} {node : Json}

theorem eval_and (h : operandsOf "AndNode" node = some operands) :
    eval leaf row node = Tri.and (operands.map (eval leaf row)) := by
  rw [eval]
  split
  · rename_i operands' hand
    obtain rfl := Option.some.inj (h.symm.trans hand)
    rw [map_attach_val operands (eval leaf row)]
  · simp_all

theorem eval_or (h : operandsOf "OrNode" node = some operands) :
    eval leaf row node = Tri.or (operands.map (eval leaf row)) := by
  have hand : operandsOf "AndNode" node = none :=
    operandsOf_of_isStr (by decide) (isStr_of_operandsOf h)
  rw [eval]
  split
  · simp_all
  · split
    · rename_i operands' hor
      obtain rfl := Option.some.inj (h.symm.trans hor)
      rw [map_attach_val operands (eval leaf row)]
    · simp_all

theorem eval_not {operand : Json} (h : operandOf node = some operand) :
    eval leaf row node = (eval leaf row operand).not := by
  have hstr : isStr (node.prop "node_type") "NotNode" = true := by
    unfold operandOf at h
    split at h
    · assumption
    · cases h
  have hand : operandsOf "AndNode" node = none := operandsOf_of_isStr (by decide) hstr
  have hor : operandsOf "OrNode" node = none := operandsOf_of_isStr (by decide) hstr
  rw [eval]
  split
  · simp_all
  · split
    · simp_all
    · split
      · rename_i operand' hnot
        rw [Option.some.inj (h.symm.trans hnot)]
      · simp_all

theorem eval_leaf (hleaf : nodeType ∉ ["AndNode", "OrNode", "NotNode"])
    (h : isStr (node.prop "node_type") nodeType = true) :
    eval leaf row node = leaf node row := by
  simp only [List.mem_cons, List.not_mem_nil, or_false, not_or] at hleaf
  have hand : operandsOf "AndNode" node = none := operandsOf_of_isStr hleaf.1 h
  have hor : operandsOf "OrNode" node = none := operandsOf_of_isStr hleaf.2.1 h
  have hnot : operandOf node = none := operandOf_of_isStr hleaf.2.2 h
  rw [eval]
  split
  · simp_all
  · split
    · simp_all
    · split <;> simp_all

end Eval

/-- A comparison of a card's attribute, with its arguments. -/
structure Compares (node kwargs : Json) (attributeName : String) : Prop where
  nodeType : isStr (node.prop "node_type") "CardBinaryOperatorNode" = true
  arguments : node.prop "kwargs" = some kwargs
  lhs : isStr (Json.get (kwargs.prop "lhs") "node_type") "CardAttributeNode" = true
  name : isStr (Json.get (Json.get (kwargs.prop "lhs") "kwargs") "attribute_name")
    attributeName = true

/-- A leaf the engine widens a query for: a language, or one of three `is:` tags. -/
def WideningLeaf (leaf : Json) : Prop :=
  ∃ kwargs, Compares leaf kwargs "card_lang" ∨ (Compares leaf kwargs "card_is_tags" ∧
      ∃ tag ∈ ["localizedname", "printedtext", "fwb"], ∃ more, kwargs.prop "rhs" = some (.arr (.str tag :: more)))

/-- A widening leaf stands somewhere in the tree, under whatever polarity. -/
def Widens (tree : Json) : Prop := ∃ leaf, Json.Within leaf tree ∧ WideningLeaf leaf

/-- A store cut into `n` partitions by its cards' oracle ids, as far as the engine
answers from it: what its rows are named and tagged, which of them are extras or
foreign printings, and how the leaves of a filter tree read at a row. -/
structure Store (Row : Type) (n : ℕ) where
  partition : Row → ℕ
  oracleId : Row → String
  annex : Row → Prop
  extra : Row → Prop
  named : Row → String → Prop
  tagged : Row → String → Prop
  leaf : Json → Row → Tri
  owned : ∀ r, partition r = partitionOfOracleId (oracleId r) n
  leaf_name : ∀ node r value, isStr (node.prop "node_type") "ExactNameNode" = true →
    Json.get (node.prop "kwargs") "value" = some (.str value) → leaf node r = .tru →
    named r value
  leaf_oracleId : ∀ node kwargs r value, Compares node kwargs "oracle_id" →
    (isStr (kwargs.prop "op") ":" || isStr (kwargs.prop "op") "=") = true →
    isStr (Json.get (kwargs.prop "rhs") "node_type") "StringValueNode" = true →
    Json.get (Json.get (kwargs.prop "rhs") "kwargs") "value" = some (.str value) →
    isUUID value = true → leaf node r = .tru → toLowerCase (oracleId r) = toLowerCase value
  leaf_tag : ∀ node kwargs r op slug, Compares node kwargs "card_oracle_tags" →
    kwargs.prop "op" = some (.str op) → op ∈ CONTAINING_OPS →
    kwargs.prop "rhs" = some (.arr [.str slug]) → leaf node r = .tru → tagged r slug
  leaf_extra : ∀ node kwargs r, Compares node kwargs "card_is_tags" →
    kwargs.prop "op" = some (.str ":") → kwargs.prop "rhs" = some (.arr [.str "extra"]) →
    leaf node r = .fls → ¬extra r

namespace Store

variable {Row : Type} {n : ℕ}

/-- The rows a query returns: those its tree is true at, the foreign annex among
them only when the query is widened to it. -/
def Matches (store : Store Row n) (filterTreeJson : FilterTreeJson) (multilingual : Bool)
    (r : Row) : Prop :=
  ∃ tree, filterTreeJson.parsed = some tree ∧ eval store.leaf r tree = .tru ∧
    (store.annex r → multilingual = true ∨ Widens tree)

/-- Hints that tell the truth: a sole partition holds every row the name can match,
the served ones every such row that is neither an extra nor in the annex, and a
slug's partitions every row that carries it. -/
structure Sound (store : Store Row n) (src : Sources) : Prop where
  sole : ∀ value p, src.nameHint value = some (.hint (.sole p)) → ∀ r, store.named r value → (store.partition r : ℤ) = p
  served : ∀ value p rival needle, src.nameHint value = some (.hint (.served p rival needle)) →
    ∀ r, store.named r value → ¬store.annex r → ¬store.extra r → (store.partition r : ℤ) = p
  pair : ∀ value a b, src.nameHint value = some (.servedPair a b) → ∀ r, store.named r value →
    ¬store.annex r → ¬store.extra r → (store.partition r : ℤ) = a ∨ (store.partition r : ℤ) = b
  tags : ∀ tagPartitions, src.tagPartitions = some tagPartitions → ∀ slug r,
    store.tagged r slug → (store.partition r : ℤ) ∈ tagPartitions slug

end Store

/-! ## Widened queries are seen in the text -/

theorem WIDENING_plain : ∀ word ∈ WIDENING, word.toList.flatMap Json.escape = word.toList := by
  decide

theorem widening_of_within {word : String} {tree : Json} (hword : word ∈ WIDENING)
    (h : Json.Within (.str word) tree) : widening tree.canonicalStringify = true := by
  refine List.any_eq_true.mpr ⟨word, hword, Text.includes_of_infix ?_⟩
  have hquote : Json.canonicalStringify (.str word) = between word.toList := by
    rw [Json.canonicalStringify, Json.quote_plain (WIDENING_plain word hword)]
  exact hquote ▸ h.infix

theorem Compares.within_kwargs {node kwargs : Json} {attributeName : String}
    (h : Compares node kwargs attributeName) : Json.Within kwargs node :=
  Json.within_of_prop h.arguments

theorem Compares.within_name {node kwargs : Json} {attributeName : String}
    (h : Compares node kwargs attributeName) : Json.Within (.str attributeName) node := by
  have hlhs : ∀ j, kwargs.prop "lhs" = some j → Json.Within j node := fun j hj =>
    (Json.within_of_prop hj).trans h.within_kwargs
  have hinner : ∀ j, Json.get (kwargs.prop "lhs") "kwargs" = some j → Json.Within j node :=
    fun j hj => Json.within_of_get hlhs hj
  exact Json.within_of_get hinner (isStr_eq_true.mp h.name)

theorem widening_of_widens {tree : Json} (h : Widens tree) : widening tree.canonicalStringify = true := by
  obtain ⟨leaf, hleaf, kwargs, hlang | ⟨htags, tag, htag, more, hrhs⟩⟩ := h
  · exact widening_of_within (by decide) (hlang.within_name.trans hleaf)
  · have hword : tag ∈ WIDENING := by
      revert htag
      simp only [WIDENING, List.mem_cons]
      tauto
    have hstr : Json.Within (.str tag) (.arr (.str tag :: more)) :=
      .item List.mem_cons_self .refl
    exact widening_of_within hword
      (hstr.trans ((Json.within_of_prop hrhs).trans (htags.within_kwargs.trans hleaf)))

/-! ## Soundness -/

section Soundness

variable {Row : Type} {src : Sources} {store : Store Row src.n} {r : Row}

/-- What a row that matches a query must be for a served hint to speak of it. -/
def ServedRow (store : Store Row src.n) (servedExact : Bool) (r : Row) : Prop :=
  servedExact = true → ¬store.annex r ∧ ¬store.extra r

theorem nameSet_sound (hsound : store.Sound src) {servedExact : Bool} {value : Option Json}
    {set : JsSet ℤ} (hserved : ServedRow store servedExact r)
    (h : nameSet src servedExact value = some set) :
    ∃ name, value = some (.str name) ∧ (store.named r name → (store.partition r : ℤ) ∈ set) := by
  unfold nameSet at h
  split at h
  · rename_i name
    refine ⟨name, rfl, fun hnamed => ?_⟩
    split at h
    · cases h
    split at h
    · cases h
    · rename_i p hhint
      split at h <;> cases h
      rw [hsound.sole _ _ hhint r hnamed]
      exact List.mem_singleton_self _
    · rename_i a b hhint
      split at h
      · cases h
      · rename_i hexact
        obtain ⟨hannex, hextra⟩ := hserved (by simpa using hexact)
        split at h <;> cases h
        rw [JsSet.mem_add, List.mem_singleton]
        exact hsound.pair _ _ _ hhint r hnamed hannex hextra
    · rename_i p rival needle hhint
      split at h
      · cases h
      · rename_i hexact
        obtain ⟨hannex, hextra⟩ := hserved (by simpa using hexact)
        split at h <;> cases h
        rw [hsound.served _ _ _ _ hhint r hnamed hannex hextra]
        exact List.mem_singleton_self _
  · cases h

theorem foldlM_add_mem {partitions : List ℤ} {set set' : JsSet ℤ}
    (h : partitions.foldlM (fun set p => if src.holds p then some (JsSet.add set p) else none)
      set = some set') {p : ℤ} (hp : p ∈ set ∨ p ∈ partitions) : p ∈ set' := by
  induction partitions generalizing set with
  | nil =>
    cases h
    simpa using hp
  | cons q partitions ih =>
    rw [List.foldlM_cons] at h
    by_cases hq : src.holds q
    · rw [if_pos hq] at h
      refine ih h ?_
      rw [JsSet.mem_add]
      rcases hp with hp | hp
      · exact .inl (.inl hp)
      · rcases List.mem_cons.mp hp with rfl | hp
        · exact .inl (.inr rfl)
        · exact .inr hp
    · rw [if_neg hq] at h
      cases h

theorem walkBinary_sound (hsound : store.Sound src) {node kwargs : Json} {res : Restricted}
    (hnode : isStr (node.prop "node_type") "CardBinaryOperatorNode" = true)
    (hkwargs : node.prop "kwargs" = some kwargs) (h : walkBinary src kwargs = some res)
    (htrue : store.leaf node r = .tru) : (store.partition r : ℤ) ∈ res.set := by
  unfold walkBinary at h
  dsimp only at h
  split at h
  · cases h
  rename_i hlhs
  have hlhs : isStr (Json.get (kwargs.prop "lhs") "node_type") "CardAttributeNode" = true := by
    simpa using hlhs
  split at h
  · rename_i hname
    have hcompares : Compares node kwargs "card_oracle_tags" := ⟨hnode, hkwargs, hlhs, hname⟩
    obtain ⟨set, hset, rfl⟩ := Option.map_eq_some_iff.mp h
    unfold tagSet at hset
    split at hset
    · rename_i tagPartitions op slug htags hop hrhs
      split at hset
      · rename_i hcontains
        have htagged := store.leaf_tag node kwargs r op slug hcompares hop hcontains hrhs htrue
        exact foldlM_add_mem hset (.inr (hsound.tags _ htags slug r htagged))
      · cases hset
    · cases hset
  · split at h
    · cases h
    rename_i hop
    split at h
    · cases h
    rename_i hname
    have hcompares : Compares node kwargs "oracle_id" := ⟨hnode, hkwargs, hlhs, by simpa using hname⟩
    split at h
    · cases h
    rename_i hrhs
    split at h
    · rename_i value hvalue
      split at h
      · rename_i huuid
        cases h
        have hid := store.leaf_oracleId node kwargs r value hcompares
          (by simpa only [Bool.not_eq_true', Bool.not_eq_false] using hop)
          (by simpa using hrhs) hvalue huuid htrue
        have hpartition : store.partition r = partitionOfOracleId (toLowerCase value) src.n := by
          rw [store.owned]
          exact partitionOfOracleId_congr _ (hid.trans (toLowerCase_toLowerCase value).symm)
        rw [hpartition]
        exact List.mem_singleton_self _
      · cases h
    · cases h

theorem meet_sound {p : ℤ} {results : List (Option Restricted)} {acc : Option Restricted}
    {res : Restricted} (hresults : ∀ res', some res' ∈ results → p ∈ res'.set)
    (hacc : ∀ res', acc = some res' → p ∈ res'.set)
    (h : results.foldl Restricted.meet acc = some res) : p ∈ res.set := by
  induction results generalizing acc with
  | nil => exact hacc res h
  | cons result results ih =>
    rw [List.foldl_cons] at h
    refine ih (fun res' hres' => hresults res' (by simp [hres'])) ?_ h
    intro res' hmeet
    cases result with
    | none =>
      rw [Restricted.meet] at hmeet
      exact hacc res' hmeet
    | some new =>
      have hnew := hresults new (by simp)
      cases acc with
      | none =>
        rw [Restricted.meet] at hmeet
        exact Option.some.inj hmeet ▸ hnew
      | some old =>
        rw [Restricted.meet] at hmeet
        obtain rfl := Option.some.inj hmeet
        simpa using ⟨hacc old rfl, hnew⟩

theorem join_sound {p : ℤ} {results : List (Option Restricted)} {acc res : Restricted}
    (hp : p ∈ acc.set ∨ ∃ result ∈ results, ∀ res', result = some res' → p ∈ res'.set)
    (h : results.foldlM Restricted.join acc = some res) : p ∈ res.set := by
  induction results generalizing acc with
  | nil =>
    cases h
    simpa using hp
  | cons result results ih =>
    rw [List.foldlM_cons] at h
    cases result with
    | none => cases h
    | some new =>
      refine ih ?_ h
      rw [JsSet.mem_foldl_add]
      rcases hp with hp | ⟨result, hmem, hresult⟩
      · exact .inl (.inl hp)
      · rcases List.mem_cons.mp hmem with rfl | hmem
        · exact .inl (.inr (hresult new rfl))
        · exact .inr ⟨result, hmem, hresult⟩

/-- **The walk**: a row a node is true at lives in the node's partitions. -/
theorem walk_sound (hsound : store.Sound src) {servedExact : Bool}
    (hserved : ServedRow store servedExact r) {remaining : ℕ} {res : Restricted}
    (h : walk src servedExact remaining node = some res)
    (htrue : eval store.leaf r node = .tru) : (store.partition r : ℤ) ∈ res.set := by
  induction remaining generalizing node res with
  | zero => cases h
  | succ remaining ih =>
    rw [walk] at h
    split at h
    · cases h
    rename_i kwargs hkwargs
    split at h
    · rename_i hnode
      obtain ⟨set, hset, rfl⟩ := Option.map_eq_some_iff.mp h
      obtain ⟨name, hvalue, hname⟩ := nameSet_sound hsound hserved hset
      rw [eval_leaf (by decide) hnode] at htrue
      exact hname (store.leaf_name node r name hnode (by simp [Json.get, hkwargs, hvalue]) htrue)
    split at h
    · rename_i hnode
      rw [eval_leaf (by decide) hnode] at htrue
      exact walkBinary_sound hsound hnode hkwargs h htrue
    split at h
    · rename_i operands hoperands
      have hget : Json.get (node.prop "kwargs") "operands" = some (.arr operands) := by
        simp [Json.get, hkwargs, hoperands]
      split at h
      · cases h
      split at h
      · rename_i hand
        have hop : operandsOf "AndNode" node = some operands := by simp [operandsOf, hand, hget]
        rw [eval_and hop, Tri.and_eq_tru] at htrue
        refine meet_sound (fun res' hres' => ?_) (by simp) h
        obtain ⟨operand, hmem, hwalk⟩ := List.mem_map.mp hres'
        exact ih hwalk (htrue _ (List.mem_map_of_mem hmem))
      split at h
      · rename_i hor
        have hop : operandsOf "OrNode" node = some operands := by simp [operandsOf, hor, hget]
        rw [eval_or hop, Tri.or_eq_tru] at htrue
        obtain ⟨operand, hmem, hoperand⟩ := List.mem_map.mp htrue
        exact join_sound (.inr ⟨_, List.mem_map_of_mem hmem, fun res' hres' =>
          ih hres' hoperand⟩) h
      · cases h
    · cases h

theorem rootConjuncts_true {remaining : ℕ} {node conjunct : Json}
    (hmem : conjunct ∈ rootConjuncts remaining node) (htrue : eval store.leaf r node = .tru) :
    eval store.leaf r conjunct = .tru := by
  induction remaining generalizing node with
  | zero =>
    rw [rootConjuncts, List.mem_singleton] at hmem
    rwa [hmem]
  | succ remaining ih =>
    rw [rootConjuncts] at hmem
    split at hmem
    · rename_i operands hoperands
      split at hmem
      · rename_i hand
        have hop : operandsOf "AndNode" node = some operands := by
          simp [operandsOf, hand, hoperands]
        rw [eval_and hop, Tri.and_eq_tru] at htrue
        obtain ⟨operand, hin, hconj⟩ := List.mem_flatMap.mp hmem
        exact ih hconj (htrue _ (List.mem_map_of_mem hin))
      · rwa [List.mem_singleton.mp hmem]
    · rwa [List.mem_singleton.mp hmem]

theorem isExtrasGate_sound (hgate : isExtrasGate node = true)
    (htrue : eval store.leaf r node = .tru) : ¬store.extra r := by
  simp only [isExtrasGate, Bool.and_eq_true] at hgate
  obtain ⟨⟨⟨⟨⟨hnot, hbinary⟩, hop⟩, hlhs⟩, hname⟩, hrhs⟩ := hgate
  obtain ⟨inner, hinner, htype⟩ := Option.bind_eq_some_iff.mp (isStr_eq_true.mp hbinary)
  have hoperand : operandOf node = some inner := by simp [operandOf, hnot, hinner]
  have hbinary : isStr (inner.prop "node_type") "CardBinaryOperatorNode" = true :=
    isStr_eq_true.mpr htype
  rw [eval_not hoperand, Tri.not_eq_tru, eval_leaf (by decide) hbinary] at htrue
  rw [hinner] at hop hlhs hname hrhs
  obtain ⟨kwargs, hkwargs, hop⟩ := Option.bind_eq_some_iff.mp (isStr_eq_true.mp hop)
  have hkwargs : inner.prop "kwargs" = some kwargs := hkwargs
  have hget : ∀ key, Json.get (Json.get (some inner) "kwargs") key = kwargs.prop key :=
    fun key => by simp [Json.get, hkwargs]
  rw [hget] at hlhs hname hrhs
  refine store.leaf_extra inner kwargs r ⟨hbinary, hkwargs, hlhs, hname⟩ hop ?_ htrue
  split at hrhs
  · rename_i tag htag
    rw [htag, Option.some.inj (isStr_eq_true.mp hrhs)]
  · cases hrhs

end Soundness

/-- **Card restriction soundness.** Under sound sources, every row of the store a
query matches lives in a partition its restriction names. -/
theorem cardRestrictionOf_sound {Row : Type} (src : Sources) (store : Store Row src.n)
    (hsound : store.Sound src) (filterTreeJson : FilterTreeJson) (multilingual : Bool)
    (restriction : CardRestriction)
    (h : cardRestrictionOf filterTreeJson src multilingual = some restriction) (r : Row)
    (hmatch : store.Matches filterTreeJson multilingual r) :
    (store.partition r : ℤ) ∈ restriction.partitions := by
  obtain ⟨tree, htree, htrue, hannex⟩ := hmatch
  unfold cardRestrictionOf at h
  rw [htree] at h
  dsimp only at h
  split at h
  · cases h
  obtain ⟨res, hwalk, rfl⟩ := Option.map_eq_some_iff.mp h
  rw [List.mem_insertionSort]
  refine walk_sound hsound (fun hexact => ?_) hwalk htrue
  simp only [Bool.and_eq_true, List.any_eq_true, Bool.not_eq_true'] at hexact
  obtain ⟨⟨⟨gate, hmem, hgate⟩, hmulti⟩, hwide⟩ := hexact
  refine ⟨fun hrow => ?_, isExtrasGate_sound hgate (rootConjuncts_true hmem htrue)⟩
  rcases hannex hrow with hlang | hwidens
  · simp [hmulti] at hlang
  · rw [filterTreeJson.wire tree htree, widening_of_widens hwidens] at hwide
    cases hwide

/-- `!"bolt"` under the extras gate, over a store of one card that is served alone. -/
private def boltTree : Json :=
  .obj [("node_type", .str "AndNode"), ("kwargs", .obj [("operands", .arr [
    .obj [("node_type", .str "ExactNameNode"), ("kwargs", .obj [("value", .str "bolt")])],
    .obj [("node_type", .str "NotNode"), ("kwargs", .obj [("operand",
      .obj [("node_type", .str "CardBinaryOperatorNode"), ("kwargs", .obj [
        ("lhs", .obj [("node_type", .str "CardAttributeNode"), ("kwargs", .obj [("attribute_name", .str "card_is_tags")])]),
        ("op", .str ":"), ("rhs", .arr [.str "extra"])])])])]])])]

private def boltStore : Store Unit 10 where
  partition _ := partitionOfOracleId "4457ed35-7c10-48c8-9776-456485fdf070" 10
  oracleId _ := "4457ed35-7c10-48c8-9776-456485fdf070"
  annex _ := False
  extra _ := False
  named _ name := name = "bolt"
  tagged _ _ := False
  leaf node _ :=
    if isStr (node.prop "node_type") "ExactNameNode" &&
      isStr (Json.get (node.prop "kwargs") "value") "bolt" then .tru else .fls
  owned _ := rfl
  leaf_name node _ value _ hvalue htrue := by
    split at htrue
    · rename_i hbolt
      simp only [Bool.and_eq_true, isStr_eq_true, hvalue] at hbolt
      simpa using hbolt.2
    · cases htrue
  leaf_oracleId node kwargs _ _ hcompares _ _ _ _ htrue := by
    have := isStr_eq_true.mp hcompares.nodeType
    simp [this, isStr] at htrue
  leaf_tag node kwargs _ _ _ hcompares _ _ _ htrue := by
    have := isStr_eq_true.mp hcompares.nodeType
    simp [this, isStr] at htrue
  leaf_extra _ _ _ _ _ _ _ := id

private def boltSources : Sources where
  n := 10
  nameHint name :=
    if name = "bolt" then some (.hint (.served 0 (some 0) (some "bolt"))) else none
  tagPartitions := none

theorem cardRestrictionOf_sound_bolt :
    (boltStore.partition () : ℤ) ∈ [(0 : ℤ)] :=
  cardRestrictionOf_sound boltSources boltStore
    { sole := fun value p h => by simp only [boltSources] at h; split at h <;> cases h
      served := fun value p rival needle h r _ _ _ => by
        simp only [boltSources] at h
        split at h <;> cases h
        exact (by decide +kernel : (boltStore.partition () : ℤ) = 0)
      pair := fun value a b h => by simp only [boltSources] at h; split at h <;> cases h
      tags := fun tagPartitions h => by cases h }
    (.ofTree boltTree) false { partitions := [0], members := 1, names := 1, tags := 0 }
    (by decide +kernel) () ⟨boltTree, rfl, by decide +kernel, False.elim⟩

end Restriction
