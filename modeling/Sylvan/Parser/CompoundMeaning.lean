-- SUMMARY: What a query tree says of a card, and that the last pass over it says the same.
import Mathlib.Data.List.Dedup
import Sylvan.Data.Delimited
import Sylvan.Parser.Compounds

/-!
# The meaning of compounds

Operands are dropped by their keys, which are texts. The keys are delimited, so that two operands
of one key have the same operands but for order and repeats, down to leaves of one key.
-/

namespace Compounds

open QueryNode Delimited
open Throws (ok_of_bind)

variable {F : Type}

/-! ## Truth -/

/-- What an operator makes of two truths; a part that has none is not there. -/
def NaryOp.join (op : NaryOp) : Option Bool → Option Bool → Option Bool :=
  Option.merge fun a b => match op with
    | .and => a && b
    | .or => a || b

variable (v : QueryNode F → Option Bool)

mutual

/-- The truth of a tree, of those of its leaves; a leaf that is no filter has none, and a tree of such leaves neither. -/
def meaning : QueryNode F → Option Bool
  | .nary op operands => meaningAll op operands
  | .not operand => (meaning operand).map (!·)
  | node => v node

def meaningAll (op : NaryOp) : List (QueryNode F) → Option Bool
  | [] => none
  | o :: os => NaryOp.join op (meaning o) (meaningAll op os)

end

variable {v} {op : NaryOp}

theorem meaning_nary (operands : List (QueryNode F)) : meaning v (.nary op operands) = meaningAll v op operands := rfl

theorem meaning_not (operand : QueryNode F) : meaning v (.not operand) = (meaning v operand).map (!·) := rfl

theorem meaningAll_nil : meaningAll v op [] = none := rfl

theorem meaningAll_cons (o : QueryNode F) (os : List (QueryNode F)) :
    meaningAll v op (o :: os) = NaryOp.join op (meaning v o) (meaningAll v op os) := rfl

theorem join_none (a : Option Bool) : NaryOp.join op a none = a := by cases a <;> rfl

theorem join_assoc (a b c : Option Bool) : NaryOp.join op (NaryOp.join op a b) c = NaryOp.join op a (NaryOp.join op b c) := by
  cases op <;> rcases a with _ | _ | _ <;> rcases b with _ | _ | _ <;> rcases c with _ | _ | _ <;> rfl

theorem join_comm (a b : Option Bool) : NaryOp.join op a b = NaryOp.join op b a := by
  cases op <;> rcases a with _ | _ | _ <;> rcases b with _ | _ | _ <;> rfl

theorem join_self (a : Option Bool) : NaryOp.join op a a = a := by
  cases op <;> rcases a with _ | _ | _ <;> rfl

theorem meaning_leaf {node : QueryNode F} (h : node.isLeaf = true) : meaning v node = v node := by
  cases node with
  | nary op operands => cases h
  | not operand => cases h
  | _ => rfl

theorem meaningAll_append (l r : List (QueryNode F)) :
    meaningAll v op (l ++ r) = NaryOp.join op (meaningAll v op l) (meaningAll v op r) := by
  induction l with
  | nil => rw [List.nil_append, meaningAll_nil, join_comm, join_none]
  | cons o os ih => rw [List.cons_append, meaningAll_cons, ih, meaningAll_cons, join_assoc]

theorem meaningAll_absorbs {operands : List (QueryNode F)} {o : QueryNode F} (ho : o ∈ operands) :
    NaryOp.join op (meaning v o) (meaningAll v op operands) = meaningAll v op operands := by
  induction operands with
  | nil => cases ho
  | cons o' os ih =>
    rw [meaningAll_cons]
    rcases List.mem_cons.mp ho with rfl | ho
    · rw [← join_assoc, join_self]
    · rw [← join_assoc, join_comm (meaning v o), join_assoc, ih ho]

theorem meaningAll_congr {l r : List (QueryNode F)} (hl : ∀ o ∈ l, ∃ o' ∈ r, meaning v o = meaning v o')
    (hr : ∀ o ∈ r, ∃ o' ∈ l, meaning v o = meaning v o') : meaningAll v op l = meaningAll v op r := by
  have hall : ∀ l r : List (QueryNode F), (∀ o ∈ l, ∃ o' ∈ r, meaning v o = meaning v o') →
      NaryOp.join op (meaningAll v op l) (meaningAll v op r) = meaningAll v op r := by
    intro l r h
    induction l with
    | nil => rw [meaningAll_nil, join_comm, join_none]
    | cons o os ih =>
      obtain ⟨o', ho', heq⟩ := h o List.mem_cons_self
      rw [meaningAll_cons, join_assoc, ih fun o ho => h o (List.mem_cons_of_mem _ ho), heq, meaningAll_absorbs ho']
  rw [← hall r l hr, join_comm, hall l r hl]

/-! ## The pass -/

section Pass

variable {key : QueryNode F → Except String String}

theorem gatherOperands_meaning {operands gathered : List (QueryNode F)} {changed : Bool}
    (ih : ∀ o ∈ operands, ∀ out changed, normalizeCompoundOperands key o = .ok (out, changed) → meaning v out = meaning v o)
    (h : gatherOperands key op operands = .ok (gathered, changed)) :
    meaningAll v op gathered = meaningAll v op operands := by
  induction operands generalizing gathered changed with
  | nil =>
    cases h
    rfl
  | cons o os ihs =>
    rw [gatherOperands] at h
    obtain ⟨⟨node, c⟩, hnode, h⟩ := ok_of_bind h
    obtain ⟨⟨rest, cs⟩, hrest, h⟩ := ok_of_bind h
    rw [meaningAll_cons, ← ih o List.mem_cons_self node c hnode, ← ihs (fun o ho => ih o (List.mem_cons_of_mem _ ho)) hrest]
    dsimp only at h
    cases hkind : node.operandsOf op with
    | some inner =>
      rw [hkind] at h
      cases h
      rw [meaningAll_append, eq_of_operandsOf hkind, meaning_nary]
    | none =>
      rw [hkind] at h
      cases h
      rfl

variable (hkey : ∀ a b k, key a = .ok k → key b = .ok k → meaning v a = meaning v b)

include hkey

/-- The operands kept say what all do, with what those of the keys seen have said. Induction on the operands. -/
theorem keepUnseen_meaning {operands out : List (QueryNode F)} {seen : List String} {said : Option Bool}
    (hsaid : ∀ o k, key o = .ok k → k ∈ seen → NaryOp.join op said (meaning v o) = said)
    (h : keepUnseen key seen operands = .ok out) :
    NaryOp.join op said (meaningAll v op out) = NaryOp.join op said (meaningAll v op operands) := by
  induction operands generalizing seen said out with
  | nil =>
    cases h
    rfl
  | cons o os ih =>
    obtain ⟨k, hk, h⟩ := ok_of_bind h
    rw [meaningAll_cons, ← join_assoc]
    by_cases hseen : seen.contains k = true
    · rw [if_pos hseen] at h
      rw [hsaid o k hk (List.contains_iff_mem.mp hseen)]
      exact ih hsaid h
    · rw [if_neg hseen] at h
      obtain ⟨kept, hkept, h⟩ := ok_of_bind h
      cases h
      rw [meaningAll_cons, ← join_assoc]
      refine ih (fun o' k' hk' hmem => ?_) hkept
      rcases List.mem_cons.mp hmem with rfl | hmem
      · rw [hkey o' o k' hk' hk, join_assoc, join_self]
      · rw [join_assoc, join_comm (meaning v o), ← join_assoc, hsaid o' k' hk' hmem]

theorem rebuild_meaning {node out : QueryNode F} {operands : List (QueryNode F)} {changed changed' : Bool}
    (hnode : meaning v node = meaningAll v op operands) (h : rebuild key op node operands changed = .ok (out, changed')) :
    meaning v out = meaningAll v op operands := by
  obtain ⟨deduped, hdeduped, h⟩ := ok_of_bind h
  have hsame : meaningAll v op deduped = meaningAll v op operands := by
    have hkept : NaryOp.join op none (meaningAll v op deduped) = NaryOp.join op none (meaningAll v op operands) :=
      keepUnseen_meaning hkey (fun _ _ _ hmem => by cases hmem) hdeduped
    rwa [join_comm, join_none, join_comm, join_none] at hkept
  match deduped with
  | [] =>
    cases h
    exact hnode
  | [single] =>
    cases h
    rwa [meaningAll_cons, meaningAll_nil, join_none] at hsame
  | a :: b :: rest =>
    simp only [Except.ok.injEq] at h
    split at h
    · cases h
      exact hsame
    · cases h
      exact hnode

/-- Where operands of one key say the same, the pass changes nothing that is said. Induction on the tree. -/
theorem normalizeCompoundOperands_meaning {node out : QueryNode F} {changed : Bool}
    (h : normalizeCompoundOperands key node = .ok (out, changed)) : meaning v out = meaning v node := by
  induction node generalizing out changed with
  | nary op operands ih =>
    rw [normalizeCompoundOperands] at h
    obtain ⟨⟨gathered, c⟩, hgathered, h⟩ := ok_of_bind h
    have hsame : meaningAll v op gathered = meaning v (.nary op operands) :=
      gatherOperands_meaning (fun o ho _ _ => ih o ho) hgathered
    exact (rebuild_meaning hkey hsame.symm h).trans hsame
  | not operand ih =>
    rw [normalizeCompoundOperands] at h
    obtain ⟨⟨inner, c⟩, hinner, h⟩ := ok_of_bind h
    cases c with
    | true =>
      cases h
      rw [meaning_not, ih hinner, meaning_not]
    | false =>
      cases h
      rfl
  | _ =>
    cases h
    rfl

end Pass

/-! ## Keys -/

section Keys

variable {py : PyHost} {host : KeyHost py}

/-- What the key of a leaf takes from outside is delimited: the text of a number, and JSON. -/
structure KeyHost.Delimited (host : KeyHost py) : Prop where
  number : ∀ x, Closed (host.numberText x).toList
  wire : ∀ node text, host.wire node = .ok text → Closed text.toList

theorem closed_stringify (s : String) : Closed (stringify s).toList := by
  rw [stringify, String.toList_ofList]
  exact closed_quote s

theorem closed_numberKey (hhost : host.Delimited) (value : PyNumber py.Double) : Closed (numberKey host value).toList := by
  have hnat : ∀ n : ℕ, Closed (toString n).toList := by
    intro n
    refine closed_of_plain fun c hc => ?_
    have hdigit := Text.isDigit_of_mem_toDigits (show c ∈ Nat.toDigits 10 n by simpa [Nat.repr] using hc)
    have hne : ∀ x, Text.isDigit x = false → c ≠ x := by
      rintro x hx rfl
      rw [hx] at hdigit
      cases hdigit
    exact ⟨hne _ rfl, by simp [isOpen, hne '(' rfl, hne '[' rfl, hne '\x7b' rfl],
      by simp [isClose, hne ')' rfl, hne ']' rfl, hne '\x7d' rfl], hne _ rfl⟩
  have hint : ∀ i : ℤ, Closed (toString i).toList := by
    rintro (n | n)
    · exact hnat n
    · rw [show toString (Int.negSucc n) = "-" ++ toString (n + 1) from rfl, String.toList_append]
      exact Closed.append (by decide +kernel) (hnat (n + 1))
  cases value with
  | int value => exact hint value
  | float value =>
    rw [numberKey]
    split
    · exact hint _
    · exact hhost.number value

theorem closed_call {opening : String} (hopening : opening.toList.foldlM step (0, .plain) = some (1, .plain)) {inner : String}
    (h : Inside inner.toList) : Closed (toString opening ++ toString inner ++ toString ")").toList := by
  simpa [toString] using h.closed hopening

theorem closed_leafHashKey (hhost : host.Delimited) {node : QueryNode py.Double} {k : String}
    (h : leafHashKey host node = .ok k) : Closed k.toList := by
  have hjson : ∀ {node : QueryNode py.Double} {k : String},
      (do .ok ("json:" ++ (← host.wire node))) = Except.ok k → Closed k.toList := by
    intro node k h
    obtain ⟨text, htext, h⟩ := ok_of_bind h
    cases h
    rw [String.toList_append]
    exact Closed.append (by decide +kernel) (hhost.wire node text htext)
  induction node generalizing k with
  | binary lhs op rhs ihl ihr =>
    rw [leafHashKey] at h
    obtain ⟨l, hl, h⟩ := ok_of_bind h
    obtain ⟨r, hr, h⟩ := ok_of_bind h
    cases h
    have hinside := (ihl hl).inside.append (inside_comma.append ((closed_stringify op.text).inside.append
      (inside_comma.append (ihr hr).inside)))
    have hclosed := hinside.closed (show "CardBinaryOperatorNode(".toList.foldlM step _ = _ by decide +kernel)
    simpa [toString] using hclosed
  | numeric value =>
    cases h
    exact closed_call (by decide +kernel) (closed_numberKey hhost value).inside
  | always =>
    cases h
    decide +kernel
  | directive name value => exact hjson h
  | nary op operands _ => exact hjson h
  | not operand _ => exact hjson h
  | _ =>
    cases h
    exact closed_call (by decide +kernel) (closed_stringify _).inside

theorem operandKeys_spec {operands : List (QueryNode py.Double)} {keys : List String}
    (h : operandKeys host operands = .ok keys) :
    (∀ o ∈ operands, ∃ k ∈ keys, operandDedupKey host o = .ok k) ∧
      ∀ k ∈ keys, ∃ o ∈ operands, operandDedupKey host o = .ok k := by
  induction operands generalizing keys with
  | nil =>
    cases h
    exact ⟨nofun, nofun⟩
  | cons o os ih =>
    rw [operandKeys] at h
    obtain ⟨k, hk, h⟩ := ok_of_bind h
    obtain ⟨ks, hks, h⟩ := ok_of_bind h
    cases h
    have hrest := ih hks
    grind

theorem operandDedupKey_leaf {node : QueryNode py.Double} (h : node.isLeaf = true) :
    operandDedupKey host node = (leafHashKey host node).bind fun key => .ok ("leaf:" ++ key) := by
  cases node with
  | nary op operands => cases h
  | not operand => cases h
  | _ => rfl

def keyHead : QueryNode F → Char
  | .nary .and _ => 'A'
  | .nary .or _ => 'O'
  | .not _ => 'N'
  | _ => 'l'

theorem kinds (node : QueryNode F) :
    node.isLeaf = true ∧ keyHead node = 'l' ∨ (∃ op operands, node = .nary op operands) ∨ ∃ operand, node = .not operand := by
  cases node with
  | nary op operands => exact .inr (.inl ⟨op, operands, rfl⟩)
  | not operand => exact .inr (.inr ⟨operand, rfl⟩)
  | _ => exact .inl ⟨rfl, rfl⟩

theorem operandDedupKey_spec (hhost : host.Delimited) {node : QueryNode py.Double} {k : String}
    (h : operandDedupKey host node = .ok k) : Closed k.toList ∧ k.toList.head? = some (keyHead node) := by
  induction node generalizing k with
  | nary op operands ih =>
    rw [operandDedupKey] at h
    obtain ⟨inner, hinner, h⟩ := ok_of_bind h
    cases h
    have hparts : ∀ part ∈ ((inner.insertionSort fun a b => !Text.before b a).dedup).map String.toList, Closed part := by
      intro part hpart
      obtain ⟨key, hkey, rfl⟩ := List.mem_map.mp hpart
      obtain ⟨o, ho, hok⟩ := (operandKeys_spec hinner).2 key ((List.mem_insertionSort _).mp (List.mem_dedup.mp hkey))
      exact (ih o ho hok).1
    have hinside := inside_intercalate hparts
    rw [← show ",".toList = [','] from rfl, ← String.toList_intercalate] at hinside
    have hopening : (NaryOp.nodeType op ++ "(").toList.foldlM step (0, .plain) = some (1, .plain) := by
      cases op <;> decide +kernel
    exact ⟨closed_call hopening hinside, by cases op <;> simp [toString, NaryOp.nodeType, keyHead]⟩
  | not operand ih =>
    rw [operandDedupKey] at h
    obtain ⟨key, hkey, h⟩ := ok_of_bind h
    cases h
    exact ⟨closed_call (by decide +kernel) (ih hkey).1.inside, by simp [toString, keyHead]⟩
  | _ =>
    rw [operandDedupKey_leaf rfl] at h
    obtain ⟨key, hkey, h⟩ := ok_of_bind h
    cases h
    rw [String.toList_append]
    exact ⟨Closed.append (by decide +kernel) (closed_leafHashKey hhost hkey), by simp [keyHead]⟩

theorem keys_of_keySet (hhost : host.Delimited) {l r : List (QueryNode py.Double)} {ks ks' : List String}
    (hl : operandKeys host l = .ok ks) (hr : operandKeys host r = .ok ks') (h : keySet ks = keySet ks') :
    ∀ o ∈ l, ∃ o' ∈ r, ∃ k, operandDedupKey host o = .ok k ∧ operandDedupKey host o' = .ok k := by
  have hparts : ∀ {l : List (QueryNode py.Double)} {ks : List String}, operandKeys host l = .ok ks →
      ∀ part ∈ ((ks.insertionSort fun a b => !Text.before b a).dedup).map String.toList, Closed part ∧ part ≠ [] := by
    intro l ks hl part hpart
    obtain ⟨key, hkey, rfl⟩ := List.mem_map.mp hpart
    obtain ⟨o, -, hok⟩ := (operandKeys_spec hl).2 key ((List.mem_insertionSort _).mp (List.mem_dedup.mp hkey))
    obtain ⟨hclosed, hhead⟩ := operandDedupKey_spec hhost hok
    exact ⟨hclosed, fun hnil => by simp [hnil] at hhead⟩
  have hlists := congrArg String.toList h
  rw [keySet, keySet, String.toList_intercalate, String.toList_intercalate] at hlists
  have hsorted := List.map_injective_iff.mpr (fun a b => String.toList_inj.mp) (intercalate_inj (hparts hl) (hparts hr) hlists)
  have hmem : ∀ k, k ∈ ks ↔ k ∈ ks' := by
    intro k
    rw [← List.mem_insertionSort (fun a b : String => !Text.before b a), ← List.mem_dedup, hsorted, List.mem_dedup,
      List.mem_insertionSort]
  intro o ho
  obtain ⟨k, hk, hok⟩ := (operandKeys_spec hl).1 o ho
  obtain ⟨o', ho', hok'⟩ := (operandKeys_spec hr).2 k ((hmem k).mp hk)
  exact ⟨o', ho', k, hok, hok'⟩

variable (v : QueryNode py.Double → Option Bool)

def Respects (host : KeyHost py) (v : QueryNode py.Double → Option Bool) : Prop :=
  ∀ a b k, a.isLeaf = true → b.isLeaf = true → leafHashKey host a = .ok k → leafHashKey host b = .ok k → v a = v b

variable {v : QueryNode py.Double → Option Bool}

theorem keyHead_eq (hhost : host.Delimited) {a b : QueryNode py.Double} {k : String} (ha : operandDedupKey host a = .ok k)
    (hb : operandDedupKey host b = .ok k) : keyHead a = keyHead b :=
  Option.some.inj ((operandDedupKey_spec hhost ha).2.symm.trans (operandDedupKey_spec hhost hb).2)

theorem meaning_of_leafKey (hhost : host.Delimited) (hv : Respects host v) {a b : QueryNode py.Double} {k : String}
    (hleaf : a.isLeaf = true) (hhead : keyHead a = 'l') (ha : operandDedupKey host a = .ok k)
    (hb : operandDedupKey host b = .ok k) : meaning v a = meaning v b := by
  have hb' := hhead.symm.trans (keyHead_eq hhost ha hb)
  rcases kinds b with ⟨hleaf', -⟩ | ⟨op, operands, rfl⟩ | ⟨operand, rfl⟩
  · rw [operandDedupKey_leaf hleaf] at ha
    rw [operandDedupKey_leaf hleaf'] at hb
    obtain ⟨key, hkey, ha⟩ := ok_of_bind ha
    obtain ⟨key', hkey', hb⟩ := ok_of_bind hb
    cases ha
    have hsame : key' = key := by simpa using hb
    rw [meaning_leaf hleaf, meaning_leaf hleaf']
    exact hv a b key hleaf hleaf' hkey (hsame ▸ hkey')
  · cases op <;> simp [keyHead] at hb'
  · simp [keyHead] at hb'

/-- Nodes of one key say the same. Induction on one of them; the letter the key begins with is the kind of the other. -/
theorem meaning_of_key (hhost : host.Delimited) (hv : Respects host v) {a b : QueryNode py.Double} {k : String}
    (ha : operandDedupKey host a = .ok k) (hb : operandDedupKey host b = .ok k) : meaning v a = meaning v b := by
  induction a generalizing b k with
  | nary op operands ih =>
    have hb' := keyHead_eq hhost ha hb
    rcases kinds b with ⟨-, hhead⟩ | ⟨op', operands', rfl⟩ | ⟨operand, rfl⟩
    · rw [hhead] at hb'
      cases op <;> simp [keyHead] at hb'
    · obtain rfl : op = op' := by cases op <;> cases op' <;> simp [keyHead] at hb' ⊢
      rw [operandDedupKey] at ha hb
      obtain ⟨ks, hks, ha⟩ := ok_of_bind ha
      obtain ⟨ks', hks', hb⟩ := ok_of_bind hb
      cases ha
      have hset : keySet ks' = keySet ks := by simpa [toString] using hb
      rw [meaning_nary, meaning_nary]
      refine meaningAll_congr (fun o ho => ?_) fun o' ho' => ?_
      · obtain ⟨o', ho', key, hkey, hkey'⟩ := keys_of_keySet hhost hks hks' hset.symm o ho
        exact ⟨o', ho', ih o ho hkey hkey'⟩
      · obtain ⟨o, ho, key, hkey', hkey⟩ := keys_of_keySet hhost hks' hks hset o' ho'
        exact ⟨o, ho, (ih o ho hkey hkey').symm⟩
    · cases op <;> simp [keyHead] at hb'
  | not operand ih =>
    have hb' := keyHead_eq hhost ha hb
    rcases kinds b with ⟨-, hhead⟩ | ⟨op', operands', rfl⟩ | ⟨operand', rfl⟩
    · rw [hhead] at hb'
      simp [keyHead] at hb'
    · cases op' <;> simp [keyHead] at hb'
    · rw [operandDedupKey] at ha hb
      obtain ⟨key, hkey, ha⟩ := ok_of_bind ha
      obtain ⟨key', hkey', hb⟩ := ok_of_bind hb
      cases ha
      have hsame : key' = key := by simpa [toString] using hb
      rw [meaning_not, meaning_not, ih hkey (hsame ▸ hkey')]
  | _ => exact meaning_of_leafKey hhost hv rfl rfl ha hb

/-- **The last pass keeps the meaning.** Where leaves of one key have one truth, the tree says the same of a card. -/
theorem flattenAndDeduplicateCompounds_meaning (hhost : host.Delimited) (hv : Respects host v) {query out : Query py.Double}
    (h : flattenAndDeduplicateCompounds host query = .ok out) : meaning v out.root = meaning v query.root := by
  obtain ⟨⟨root, changed⟩, hroot, h⟩ := ok_of_bind h
  have hsame := normalizeCompoundOperands_meaning (fun a b k => meaning_of_key hhost hv) hroot
  cases changed with
  | true =>
    cases h
    exact hsame
  | false =>
    cases h
    rfl

end Keys

end Compounds
