-- SUMMARY: The last pass over a query tree: chains flattened, duplicates dropped, single operands unwrapped.
import Mathlib.Data.List.Nodup
import Mathlib.Data.List.Sort
import Sylvan.Data.Text
import Sylvan.Data.Throws
import Sylvan.Parser.Nodes

/-!
# Compound nodes

The pass walks `And`, `Or` and `Not`; what stands under a comparison it does not see.
-/

namespace Compounds

open QueryNode
open Throws (ok_of_bind)

/-! ## Keys -/

/-- What a key reads of numbers and of nodes that have no key of their own. -/
structure KeyHost (py : PyHost) where
  /-- `Number.isInteger(x)`. -/
  isInteger : py.Double → Bool
  /-- `String(x)`. -/
  numberText : py.Double → String
  /-- `canonicalStringify(nodeToJson(node))`, which throws on a value its column does not
  take. -/
  wire : QueryNode py.Double → Except String String

variable {py : PyHost} (host : KeyHost py)

def NaryOp.nodeType : NaryOp → String
  | .and => "AndNode"
  | .or => "OrNode"

def stringify (s : String) : String := String.ofList (Json.quote s)

def numberKey : PyNumber py.Double → String
  | .int value => toString value
  | .float value =>
    if host.isInteger value then toString (py.truncated value) else host.numberText value

/-- `leafHashKey(node)`: the fields as typed, and neither the alias nor the quotes. -/
def leafHashKey : QueryNode py.Double → Except String String
  | .binary lhs op rhs => do
    let l ← leafHashKey lhs
    let r ← leafHashKey rhs
    .ok s!"CardBinaryOperatorNode({l},{stringify op.text},{r})"
  | .attr _ fi => .ok s!"CardAttributeNode({stringify (py.pyLower fi.dbColumnName)})"
  | .numeric value => .ok s!"NumericValueNode({numberKey host value})"
  | .string value _ _ => .ok s!"StringValueNode({stringify value})"
  | .mana value => .ok s!"ManaValueNode({stringify value})"
  | .regex value => .ok s!"RegexValueNode({stringify value})"
  | .exactName value => .ok s!"ExactNameNode({stringify value})"
  | .always => .ok "TrueNode"
  | node => do .ok ("json:" ++ (← host.wire node))

/-- The keys of a compound's operands as a set: sorted, each once, joined. -/
def keySet (keys : List String) : String :=
  ",".intercalate (keys.insertionSort (fun a b => !Text.before b a)).dedup

mutual

def operandDedupKey : QueryNode py.Double → Except String String
  | .nary op operands => do
    let inner ← operandKeys operands
    .ok s!"{NaryOp.nodeType op}({keySet inner})"
  | .not operand => do
    let key ← operandDedupKey operand
    .ok s!"NotNode({key})"
  | node => do
    let key ← leafHashKey host node
    .ok s!"leaf:{key}"

def operandKeys : List (QueryNode py.Double) → Except String (List String)
  | [] => .ok []
  | o :: os => do
    let key ← operandDedupKey o
    let keys ← operandKeys os
    .ok (key :: keys)

end

/-! ## The pass -/

variable {F : Type} (key : QueryNode F → Except String String)

/-- The operands whose key is none of `seen`, the first of each. -/
def keepUnseen (seen : List String) : List (QueryNode F) → Except String (List (QueryNode F))
  | [] => .ok []
  | o :: os => do
    let k ← key o
    if seen.contains k then keepUnseen seen os
    else
      let kept ← keepUnseen (k :: seen) os
      .ok (o :: kept)

def deduplicateOperandList (operands : List (QueryNode F)) : Except String (List (QueryNode F)) :=
  keepUnseen key [] operands

/-- A compound `node` whose operands, gathered, are `operands`: what the pass makes of it,
and whether that is something else. -/
def rebuild (op : NaryOp) (node : QueryNode F) (operands : List (QueryNode F)) (changed : Bool) :
    Except String (QueryNode F × Bool) := do
  let deduped ← deduplicateOperandList key operands
  let changed := changed || deduped.length != operands.length
  match deduped with
  | [] => .ok (node, changed)
  | [single] => .ok (single, true)
  | _ => .ok (if changed then (.nary op deduped, true) else (node, false))

mutual

def normalizeCompoundOperands : QueryNode F → Except String (QueryNode F × Bool)
  | .nary op operands => do
    let (gathered, changed) ← gatherOperands op operands
    rebuild key op (.nary op operands) gathered changed
  | .not operand => do
    let (inner, changed) ← normalizeCompoundOperands operand
    .ok (if changed then (.not inner, true) else (.not operand, false))
  | node => .ok (node, false)

/-- The operands normalized, those that became of the compound's own kind merged in. -/
def gatherOperands (op : NaryOp) : List (QueryNode F) → Except String (List (QueryNode F) × Bool)
  | [] => .ok ([], false)
  | o :: os => do
    let (node, changed) ← normalizeCompoundOperands o
    let (rest, changedRest) ← gatherOperands op os
    match node.operandsOf op with
    | some inner => .ok (inner ++ rest, true)
    | none => .ok (node :: rest, changed || changedRest)

end

/-- `flattenAndDeduplicateCompounds(query)`, with the key left open. -/
def flattenAndDeduplicateBy (query : Query F) : Except String (Query F) := do
  let (root, changed) ← normalizeCompoundOperands key query.root
  .ok (if changed then { query with root := root } else query)

def flattenAndDeduplicateCompounds (query : Query py.Double) : Except String (Query py.Double) :=
  flattenAndDeduplicateBy (operandDedupKey host) query

/-! ## Duplicates -/

section Pass

variable {key}

theorem keepUnseen_sublist {seen : List String} {operands out : List (QueryNode F)}
    (h : keepUnseen key seen operands = .ok out) : out.Sublist operands := by
  induction operands generalizing seen out with
  | nil =>
    cases h
    exact .slnil
  | cons o os ih =>
    obtain ⟨k, -, h⟩ := ok_of_bind h
    split at h
    · exact (ih h).cons o
    · obtain ⟨kept, hkept, h⟩ := ok_of_bind h
      cases h
      exact (ih hkept).cons_cons o

theorem keepUnseen_distinct {seen : List String} {operands out : List (QueryNode F)}
    (h : keepUnseen key seen operands = .ok out) :
    ∃ ks : List String, out.map key = ks.map .ok ∧ ks.Nodup ∧ ∀ k ∈ ks, k ∉ seen := by
  induction operands generalizing seen out with
  | nil =>
    cases h
    exact ⟨[], rfl, List.nodup_nil, by simp⟩
  | cons o os ih =>
    obtain ⟨k, hk, h⟩ := ok_of_bind h
    split at h
    · exact ih h
    · next hseen =>
        obtain ⟨kept, hkept, h⟩ := ok_of_bind h
        cases h
        obtain ⟨ks, hmap, hnodup, hfresh⟩ := ih hkept
        refine ⟨k :: ks, by simp [hk, hmap], ?_, ?_⟩
        · exact List.nodup_cons.mpr ⟨fun hmem => hfresh k hmem List.mem_cons_self, hnodup⟩
        · intro k' hk'
          rcases List.mem_cons.mp hk' with rfl | hk'
          · simpa using hseen
          · exact fun hmem => hfresh k' hk' (List.mem_cons_of_mem _ hmem)

variable {operands : List (QueryNode F)}

theorem keepUnseen_of_distinct {seen ks : List String}
    (hmap : operands.map key = ks.map .ok) (hnodup : ks.Nodup) (hfresh : ∀ k ∈ ks, k ∉ seen) :
    keepUnseen key seen operands = .ok operands := by
  induction operands generalizing seen ks with
  | nil => rfl
  | cons o os ih =>
    cases ks with
    | nil => cases hmap
    | cons k ks =>
      obtain ⟨hk, hmap⟩ := List.cons.inj hmap
      obtain ⟨hout, hnodup⟩ := List.nodup_cons.mp hnodup
      have hseen : seen.contains k = false := by simpa using hfresh k List.mem_cons_self
      have hrest : keepUnseen key (k :: seen) os = .ok os := by
        refine ih hmap hnodup fun k' hk' hmem => ?_
        rcases List.mem_cons.mp hmem with rfl | hmem
        · exact hout hk'
        · exact hfresh k' (List.mem_cons_of_mem _ hk') hmem
      simp only [keepUnseen, hk, bind, Except.bind, hseen, hrest, Bool.false_eq_true, if_false]

theorem keepUnseen_ne_nil {operands out : List (QueryNode F)} (hne : operands ≠ [])
    (h : keepUnseen key [] operands = .ok out) : out ≠ [] := by
  cases operands with
  | nil => exact absurd rfl hne
  | cons o os =>
    obtain ⟨k, -, h⟩ := ok_of_bind h
    obtain ⟨kept, -, h⟩ := ok_of_bind (by simpa using h)
    cases h
    exact List.cons_ne_nil o kept

/-! ## Normal form -/

/-- No compound is empty; what stands under a comparison may be anything. -/
inductive Filled : QueryNode F → Prop where
  | nary {op : NaryOp} {operands : List (QueryNode F)} (hne : operands ≠ [])
      (hoperands : ∀ o ∈ operands, Filled o) : Filled (.nary op operands)
  | not {operand : QueryNode F} (h : Filled operand) : Filled (.not operand)
  | leaf {node : QueryNode F} (h : node.isLeaf = true) : Filled node

variable (key) in
/-- Every compound has two operands or more, none of its own kind and no two with one key;
what stands under a comparison may be anything. -/
inductive Normal : QueryNode F → Prop where
  | nary {op : NaryOp} {operands : List (QueryNode F)} {ks : List String}
      (two : 2 ≤ operands.length) (keys : operands.map key = ks.map .ok) (distinct : ks.Nodup)
      (hoperands : ∀ o ∈ operands, Normal o) (kinds : ∀ o ∈ operands, o.operandsOf op = none) :
      Normal (.nary op operands)
  | not {operand : QueryNode F} (h : Normal operand) : Normal (.not operand)
  | leaf {node : QueryNode F} (h : node.isLeaf = true) : Normal node

/-- What the operands of a compound of kind `op` become is normal and of other kinds. -/
def Flat (key : QueryNode F → Except String String) (op : NaryOp)
    (operands : List (QueryNode F)) : Prop :=
  ∀ o ∈ operands, Normal key o ∧ o.operandsOf op = none

variable {op : NaryOp}

theorem Normal.flat (h : Normal key (.nary op operands)) : operands ≠ [] ∧ Flat key op operands := by
  cases h with
  | nary two _ _ hoperands kinds =>
    exact ⟨by rintro rfl; simp at two, fun o ho => ⟨hoperands o ho, kinds o ho⟩⟩
  | leaf h => cases h

theorem gatherOperands_flat {operands gathered : List (QueryNode F)}
    {changed : Bool}
    (ih : ∀ o ∈ operands, ∀ node changed, normalizeCompoundOperands key o = .ok (node, changed) →
      Normal key node ∧ (changed = false → node = o))
    (h : gatherOperands key op operands = .ok (gathered, changed)) :
    (operands ≠ [] → gathered ≠ []) ∧ Flat key op gathered ∧ (changed = false → gathered = operands) := by
  induction operands generalizing gathered changed with
  | nil =>
    cases h
    exact ⟨id, nofun, fun _ => rfl⟩
  | cons o os ihs =>
    obtain ⟨⟨node, c⟩, hnode, h⟩ := ok_of_bind h
    obtain ⟨⟨rest, cr⟩, hrest, h⟩ := ok_of_bind h
    obtain ⟨hnormal, hsame⟩ := ih o List.mem_cons_self node c hnode
    obtain ⟨-, hflat, hrestSame⟩ := ihs (fun o' ho' => ih o' (List.mem_cons_of_mem _ ho')) hrest
    cases hkind : node.operandsOf op with
    | some inner =>
      rw [eq_of_operandsOf hkind] at hnormal
      obtain ⟨hne, hinner⟩ := hnormal.flat
      simp only [hkind, Except.ok.injEq, Prod.mk.injEq] at h
      obtain ⟨rfl, rfl⟩ := h
      refine ⟨fun _ hnil => hne (List.append_eq_nil_iff.mp hnil).1, ?_, nofun⟩
      intro o' ho'
      exact (List.mem_append.mp ho').elim (hinner o') (hflat o')
    | none =>
      simp only [hkind, Except.ok.injEq, Prod.mk.injEq] at h
      obtain ⟨rfl, rfl⟩ := h
      refine ⟨fun _ => List.cons_ne_nil _ _, ?_, ?_⟩
      · intro o' ho'
        rcases List.mem_cons.mp ho' with rfl | ho'
        · exact ⟨hnormal, hkind⟩
        · exact hflat o' ho'
      · intro hc
        obtain ⟨hc, hcr⟩ := Bool.or_eq_false_iff.mp hc
        rw [hsame hc, hrestSame hcr]

theorem rebuild_normal {node out : QueryNode F}
    {changed changed' : Bool} (hne : operands ≠ []) (hflat : Flat key op operands)
    (hnode : changed = false → node = .nary op operands)
    (h : rebuild key op node operands changed = .ok (out, changed')) :
    Normal key out ∧ (changed' = false → out = node) := by
  obtain ⟨deduped, hdeduped, h⟩ := ok_of_bind h
  have hsub := keepUnseen_sublist hdeduped
  obtain ⟨ks, hkeys, hdistinct, -⟩ := keepUnseen_distinct hdeduped
  have hflat' : Flat key op deduped := fun o ho => hflat o (hsub.subset ho)
  match deduped, keepUnseen_ne_nil hne hdeduped with
  | [single], _ =>
    have hsingle := (hflat' single List.mem_cons_self).1
    cases h
    exact ⟨hsingle, nofun⟩
  | a :: b :: rest, _ =>
    have hnary : Normal key (.nary op (a :: b :: rest)) :=
      .nary (by simp) hkeys hdistinct (fun o ho => (hflat' o ho).1) fun o ho => (hflat' o ho).2
    simp only [Except.ok.injEq] at h
    split at h
    · obtain ⟨rfl, rfl⟩ := Prod.mk.inj h
      exact ⟨hnary, nofun⟩
    · next hsame =>
        obtain ⟨rfl, rfl⟩ := Prod.mk.inj h
        -- nothing merged and nothing dropped: the operands are the deduplicated ones
        obtain ⟨hc, hlen⟩ := Bool.or_eq_false_iff.mp (Bool.not_eq_true _ ▸ hsame)
        have heq : a :: b :: rest = operands := hsub.eq_of_length (by simpa using hlen)
        rw [hnode hc, ← heq]
        exact ⟨hnary, fun _ => rfl⟩

theorem normalizeCompoundOperands_normal {node : QueryNode F} (hf : Filled node) :
    ∀ out changed, normalizeCompoundOperands key node = .ok (out, changed) →
      Normal key out ∧ (changed = false → out = node) := by
  induction hf with
  | @nary op operands hne _ ih =>
    intro out changed h
    obtain ⟨⟨gathered, c⟩, hgather, h⟩ := ok_of_bind h
    obtain ⟨hne', hflat, hsame⟩ := gatherOperands_flat ih hgather
    exact rebuild_normal (hne' hne) hflat (fun hc => by rw [hsame hc]) h
  | @not operand _ ih =>
    intro out changed h
    obtain ⟨⟨inner, c⟩, hinner, h⟩ := ok_of_bind h
    obtain ⟨hnormal, hsame⟩ := ih inner c hinner
    cases c with
    | true =>
      cases h
      exact ⟨.not hnormal, nofun⟩
    | false =>
      cases h
      exact ⟨.not (hsame rfl ▸ hnormal), fun _ => rfl⟩
  | @leaf node hleaf =>
    intro out changed h
    have : normalizeCompoundOperands key node = .ok (node, false) := by
      cases node <;> first | rfl | cases hleaf
    cases this.symm.trans h
    exact ⟨.leaf hleaf, fun _ => rfl⟩

/-! ## A second pass -/

theorem gatherOperands_of_flat (ih : ∀ o ∈ operands, normalizeCompoundOperands key o = .ok (o, false))
    (kinds : ∀ o ∈ operands, o.operandsOf op = none) :
    gatherOperands key op operands = .ok (operands, false) := by
  induction operands with
  | nil => rfl
  | cons o os ihs =>
    have hos := ihs (fun o' ho' => ih o' (List.mem_cons_of_mem _ ho')) fun o' ho' =>
      kinds o' (List.mem_cons_of_mem _ ho')
    simp only [gatherOperands, ih o List.mem_cons_self, hos, bind, Except.bind, kinds o List.mem_cons_self, Bool.or_self]

theorem rebuild_of_distinct {ks : List String}
    (two : 2 ≤ operands.length) (keys : operands.map key = ks.map .ok) (distinct : ks.Nodup) :
    rebuild key op (.nary op operands) operands false = .ok (.nary op operands, false) := by
  have hsame : keepUnseen key [] operands = .ok operands :=
    keepUnseen_of_distinct keys distinct (by simp)
  match operands, two with
  | a :: b :: rest, _ =>
    simp only [rebuild, deduplicateOperandList, hsame, bind, Except.bind]
    simp

theorem normalizeCompoundOperands_of_normal {node : QueryNode F} (h : Normal key node) :
    normalizeCompoundOperands key node = .ok (node, false) := by
  induction h with
  | @nary op operands ks two keys distinct _ kinds ih =>
    simp only [normalizeCompoundOperands, gatherOperands_of_flat ih kinds, bind, Except.bind]
    exact rebuild_of_distinct two keys distinct
  | not _ ih => simp [normalizeCompoundOperands, ih, bind, Except.bind]
  | @leaf node hleaf => cases node <;> first | rfl | cases hleaf

def SameLists (a b : Query F) : Prop :=
  a.directives = b.directives ∧ a.warnings = b.warnings ∧
    a.loweredRegexTerms = b.loweredRegexTerms ∧ a.expandedDerivedTerms = b.expandedDerivedTerms

theorem flattenAndDeduplicateBy_normal {query out : Query F} (hf : Filled query.root)
    (h : flattenAndDeduplicateBy key query = .ok out) :
    Normal key out.root ∧ flattenAndDeduplicateBy key out = .ok out ∧ SameLists out query := by
  obtain ⟨⟨root, changed⟩, hroot, h⟩ := ok_of_bind h
  obtain ⟨hnormal, hsame⟩ := normalizeCompoundOperands_normal hf root changed hroot
  have hout : Normal key out.root ∧ SameLists out query := by
    cases changed with
    | true =>
      cases h
      exact ⟨hnormal, rfl, rfl, rfl, rfl⟩
    | false =>
      cases h
      exact ⟨hsame rfl ▸ hnormal, rfl, rfl, rfl, rfl⟩
  refine ⟨hout.1, ?_, hout.2⟩
  simp [flattenAndDeduplicateBy, normalizeCompoundOperands_of_normal hout.1, bind, Except.bind]

end Pass

/-- **One pass reaches the normal form**: of a tree without empty compounds, the result has, at
every position outside comparisons, compounds of two operands or more, none under one of its
kind and no two operands with one key; a second pass changes nothing; the lists ride along. -/
theorem flattenAndDeduplicateCompounds_normal {query out : Query py.Double}
    (hf : Filled query.root) (h : flattenAndDeduplicateCompounds host query = .ok out) :
    Normal (operandDedupKey host) out.root ∧
      flattenAndDeduplicateCompounds host out = .ok out ∧ SameLists out query :=
  flattenAndDeduplicateBy_normal hf h

/-! ## What it leaves -/

def asciiKeys : KeyHost asciiHost where
  isInteger := nofun
  numberText := nofun
  wire _ := .error ""

def typeTerm (value : String) : QueryNode asciiHost.Double :=
  .binary (.attr "t" ⟨"card_types", .jsonbArray, ["type", "types", "t"], .text⟩) .colon
    (.string value false false)

/-- A repeated term leaves a disjunction of one, which then repeats a sibling. -/
def elfOrElf : QueryNode asciiHost.Double :=
  .nary .and [typeTerm "elf", .nary .or [typeTerm "elf", typeTerm "elf"], typeTerm "ally"]

theorem flattenAndDeduplicateCompounds_normal_elf :
    ∃ out, flattenAndDeduplicateCompounds asciiKeys (.of elfOrElf) = .ok out ∧
      out.root = .nary .and [typeTerm "elf", typeTerm "ally"] ∧
      flattenAndDeduplicateCompounds asciiKeys out = .ok out := by
  have hleaf (value : String) : Filled (typeTerm value) := .leaf rfl
  have hfilled : Filled elfOrElf := by
    refine .nary (by simp) ?_
    simp only [List.mem_cons, List.not_mem_nil, or_false, forall_eq_or_imp, forall_eq]
    exact ⟨hleaf _, .nary (by simp) (by simp [hleaf]), hleaf _⟩
  have hout : flattenAndDeduplicateCompounds asciiKeys (.of elfOrElf) =
      .ok (.of (.nary .and [typeTerm "elf", typeTerm "ally"])) := rfl
  exact ⟨_, hout, rfl,
    (@flattenAndDeduplicateCompounds_normal _ asciiKeys (.of elfOrElf) _ hfilled hout).2.1⟩

/-- `(t:a (t:b t:c))=1`. -/
def nestedUnderEq : QueryNode asciiHost.Double :=
  .binary (.nary .and [typeTerm "a", .nary .and [typeTerm "b", typeTerm "c"]]) .eq
    (.numeric (.int 1))

/-- What stands under a comparison keeps its nesting, and so may what has empty compounds. -/
theorem nesting_survives :
    (∃ out inner outer, flattenAndDeduplicateCompounds asciiKeys (.of nestedUnderEq) = .ok out ∧
      .nary .and outer ∈ out.root.nodes ∧ .nary .and inner ∈ outer) ∧
    ∃ out inner, flattenAndDeduplicateCompounds asciiKeys
        (.of (.nary .and [.nary .and [.nary .and []], typeTerm "a"])) = .ok out ∧
      out.root = .nary .and [.nary .and inner, typeTerm "a"] :=
  ⟨⟨_, _, _, rfl, .tail _ (.head _), .tail _ (.head _)⟩, _, _, rfl, rfl⟩

end Compounds
