-- SUMMARY: What the rewrites and the last pass leave of a query's meaning: its connectives, over its leaves rewritten.
import Sylvan.Parser.CompoundMeaning
import Sylvan.Parser.RegexCharge

/-!
# The meaning of a rewritten query

A pass rewrites a leaf by the leaf alone. So the whole pipeline reads a query as its connectives
say, each leaf as what becomes of it alone, and a directive as nothing.
-/

namespace RewriteMeaning

open Compounds Rewrite DerivedTerms Throws RegexCharge

variable {F T : Type} {v : QueryNode F → Option Bool}

/-! ## Flattening -/

theorem meaning_flatten (node : QueryNode F) : meaning v node.flatten = meaning v node := by
  have hall : ∀ (op : NaryOp) (operands : List (QueryNode F)), (∀ o ∈ operands, meaning v o.flatten = meaning v o) →
      meaningAll v op (QueryNode.flattenInto op operands) = meaningAll v op operands := by
    intro op operands ih
    induction operands with
    | nil => rfl
    | cons o os ihs =>
      rw [QueryNode.flattenInto, meaningAll_append, meaningAll_cons, ihs fun o' ho' => ih o' (List.mem_cons_of_mem _ ho'),
        ← ih o List.mem_cons_self]
      congr 1
      cases hkind : o.flatten.operandsOf op with
      | none => rw [Option.getD_none, meaningAll_cons, meaningAll_nil, join_none]
      | some inner => rw [Option.getD_some, QueryNode.eq_of_operandsOf hkind, meaning_nary]
  induction node with
  | nary op operands ih => exact hall op operands ih
  | not operand ih => exact congrArg (Option.map (!·)) ih
  | _ => rfl

/-! ## Leaves -/

def through (pass : LeafPass F T) (v : QueryNode F → Option Bool) (leaf : QueryNode F) : Option Bool :=
  meaning v (after pass leaf)

variable {pass : LeafPass F T}

theorem meaning_pass {leaf out : QueryNode F} {changed : Bool} {found : List T} (hleaf : leaf.isLeaf = true)
    (h : mapLeaves pass leaf = .ok (out, changed, found)) : meaning v out = meaning (through pass v) leaf := by
  rw [meaning_leaf hleaf, through, after]
  rw [mapLeaves] at h
  · obtain ⟨rewritten, hpass, h⟩ := ok_of_bind h
    rw [hpass]
    cases rewritten with
    | none =>
      cases h
      rfl
    | some r =>
      cases h
      rfl
  · rintro op operands rfl
    cases hleaf
  · rintro operand rfl
    cases hleaf

theorem meaningAll_mapLeavesAll {op : NaryOp} {operands outs : List (QueryNode F)} {changed : Bool} {found : List T}
    (ih : ∀ o ∈ operands, ∀ out changed found, mapLeaves pass o = .ok (out, changed, found) →
      meaning v out = meaning (through pass v) o) (h : mapLeavesAll pass operands = .ok (outs, changed, found)) :
    meaningAll v op outs = meaningAll (through pass v) op operands := by
  induction operands generalizing outs changed found with
  | nil =>
    cases h
    rfl
  | cons o os ihs =>
    rw [mapLeavesAll] at h
    obtain ⟨⟨out, c, fd⟩, hout, h⟩ := ok_of_bind h
    obtain ⟨⟨rest, cs, fds⟩, hrest, h⟩ := ok_of_bind h
    cases h
    rw [meaningAll_cons, meaningAll_cons, ih o List.mem_cons_self out c fd hout,
      ihs (fun o' ho' => ih o' (List.mem_cons_of_mem _ ho')) hrest]

/-- A pass leaves the connectives. Induction on the tree. -/
theorem meaning_mapLeaves {node out : QueryNode F} {changed : Bool} {found : List T}
    (h : mapLeaves pass node = .ok (out, changed, found)) : meaning v out = meaning (through pass v) node := by
  induction node generalizing out changed found with
  | nary op operands ih =>
    rw [mapLeaves] at h
    obtain ⟨⟨outs, c, fd⟩, houts, h⟩ := ok_of_bind h
    have hsame := (leaves_mapLeavesAll (fun o _ _ _ _ => leaves_mapLeaves) houts).2
    have hmeaning : meaningAll v op outs = meaning (through pass v) (.nary op operands) :=
      meaningAll_mapLeavesAll (fun o ho _ _ _ => ih o ho) houts
    cases c with
    | true =>
      cases h
      exact hmeaning
    | false =>
      cases h
      rw [hsame rfl] at hmeaning
      exact hmeaning
  | not operand ih =>
    rw [mapLeaves] at h
    obtain ⟨⟨out', c, fd⟩, hout, h⟩ := ok_of_bind h
    have hsame := (leaves_mapLeaves hout).2
    have hmeaning : (meaning v out').map (!·) = meaning (through pass v) (.not operand) := congrArg (Option.map (!·)) (ih hout)
    cases c with
    | true =>
      cases h
      exact hmeaning
    | false =>
      cases h
      rw [hsame rfl] at hmeaning
      exact hmeaning
  | _ => exact meaning_pass rfl h

theorem meaning_overQuery {query out : Query F} {found : List T} (h : overQuery pass query = .ok (out, found)) :
    meaning v out.root = meaning (through pass v) query.root := by
  obtain ⟨⟨root, changed, fd⟩, hroot, h⟩ := ok_of_bind h
  have hmeaning := meaning_mapLeaves (v := v) hroot
  have hsame := (leaves_mapLeaves hroot).2
  cases changed with
  | true =>
    cases h
    exact (meaning_flatten root).trans hmeaning
  | false =>
    cases h
    rw [hsame rfl] at hmeaning
    exact hmeaning

/-! ## Directives -/

/-- Stripping leaves what a tree says, of leaves that say nothing where they are directives. Induction on the tree. -/
theorem meaning_stripDirectives (hdirective : ∀ name value, v (.directive name value) = none) (nested : Bool)
    (node : QueryNode F) : (stripDirectives nested node).1.bind (meaning v) = meaning v node := by
  have hall : ∀ (op : NaryOp) (operands : List (QueryNode F)) (nested : Bool),
      (∀ o ∈ operands, ∀ nested, (stripDirectives nested o).1.bind (meaning v) = meaning v o) →
      meaningAll v op (stripDirectivesAll nested operands).1 = meaningAll v op operands := by
    intro op operands nested ih
    induction operands with
    | nil => rfl
    | cons o os ihs =>
      rw [stripDirectivesAll, meaningAll_cons, ← ihs fun o' ho' => ih o' (List.mem_cons_of_mem _ ho'),
        ← ih o List.mem_cons_self nested]
      dsimp only
      rw [meaningAll_append]
      congr 1
      cases (stripDirectives nested o).1 with
      | none => rfl
      | some kept => exact join_none _
  induction node generalizing nested with
  | nary op operands ih =>
    rw [meaning_nary, ← hall op operands (nested || op = .or) fun o ho nested => ih o ho nested, stripDirectives]
    dsimp only
    rcases (stripDirectivesAll (nested || op = .or) operands).1 with _ | ⟨single, _ | ⟨b, rest⟩⟩
    · rfl
    · exact (join_none _).symm
    · rfl
  | not operand ih =>
    rw [meaning_not, ← ih true, stripDirectives]
    dsimp only
    cases (stripDirectives true operand).1 with
    | none => rfl
    | some inner => rfl
  | directive name value => exact (hdirective name value).symm
  | _ => rfl

theorem meaning_extractDirectives (hdirective : ∀ name value, v (.directive name value) = none)
    (halways : v .always = some true) (query : Query F) :
    (meaning v (extractDirectives query).1.root).getD true = (meaning v query.root).getD true := by
  have hstrip := meaning_stripDirectives hdirective false query.root
  rw [extractDirectives]
  split
  next root found heq =>
    rw [heq] at hstrip
    by_cases hfound : found.isEmpty = true
    · rw [if_pos hfound]
    · rw [if_neg hfound, ← hstrip]
      cases root with
      | none => simp [Query.of, meaning, halways]
      | some root => rfl

/-! ## The pipeline -/

variable {host : QueryHost}

/-- What becomes of a leaf alone, read by the truth of the leaves that the engine gets. -/
def alone (host : QueryHost) (v : QNode host → Option Bool) : QNode host → Option Bool :=
  through (swapGameLeaf host) (through (swapNotLeaf host) (through (expandTerm host) (through (lowerRegexLeaf host) v)))

theorem meaning_rewritePasses {v : QNode host → Option Bool} {query out : Query host.Double}
    (h : rewritePasses host query = .ok out) : meaning v out.root = meaning (alone host v) query.root := by
  obtain ⟨games, hgames, h⟩ := ok_of_bind h
  obtain ⟨⟨games', fd⟩, hgames', hg⟩ := ok_of_bind hgames
  obtain ⟨nots, hnots, h⟩ := ok_of_bind h
  obtain ⟨⟨nots', fd'⟩, hnots', hn⟩ := ok_of_bind hnots
  obtain ⟨expanded, hexpanded, h⟩ := ok_of_bind h
  obtain ⟨⟨expanded', fd''⟩, hexpanded', he⟩ := ok_of_bind hexpanded
  obtain ⟨⟨root, changed, lowered⟩, hroot, h⟩ := ok_of_bind h
  cases hg
  cases hn
  cases he
  cases h
  exact (meaning_mapLeaves hroot).trans ((meaning_overQuery hexpanded').trans ((meaning_overQuery hnots').trans
    (meaning_overQuery hgames')))

theorem alone_plain {v : QNode host → Option Bool} {leaf : QNode host} (hleaf : leaf.isLeaf = true)
    (hbinary : ∀ lhs op rhs, leaf ≠ .binary lhs op rhs) : alone host v leaf = v leaf := by
  have hexpand (hkey : leafKey host leaf = none) : expandTerm host leaf = .ok none := by
    rw [expandTerm, expandLeaf_of_leafKey hkey, hkey]
    rfl
  cases leaf with
  | binary lhs op rhs => exact absurd rfl (hbinary lhs op rhs)
  | nary op operands => cases hleaf
  | not operand => cases hleaf
  | _ => simp [alone, through, after, swapGameLeaf, swapNotLeaf, lowerRegexLeaf, hexpand rfl, meaning]

/-- **The pipeline keeps the connectives of a query.** Of a card that each leaf is true or false of, the tree the engine
gets says what the parsed one does, each leaf read as what becomes of it alone. -/
theorem finalizeQuery_meaning (hkeys : host.keys.Delimited) {v : QNode host → Option Bool} (hv : Respects host.keys v)
    (hdirective : ∀ name value, v (.directive name value) = none) (halways : v .always = some true) {openRepeats : Bool}
    {query out : Query host.Double} (h : finalizeQuery host openRepeats query = .ok out) :
    (meaning v out.root).getD true = (meaning (alone host v) query.root).getD true := by
  obtain ⟨tree, htree, h⟩ := ok_of_bind h
  obtain ⟨-, -, h⟩ := ok_of_bind h
  obtain ⟨passed, hroot, hpassed⟩ : ∃ passed, tree.root = passed.root ∧
      rewritePasses host (extractDirectives query).1 = .ok passed := by
    obtain ⟨passed, hpassed, htree⟩ := ok_of_bind htree
    cases htree
    exact ⟨passed, rfl, hpassed⟩
  have hflat : flattenAndDeduplicateCompounds host.keys tree = .ok out := by
    cases hflat : flattenAndDeduplicateCompounds host.keys tree with
    | error e =>
      rw [hflat] at h
      cases h
    | ok out' =>
      rw [hflat] at h
      exact congrArg Except.ok (Except.ok.inj h)
  rw [flattenAndDeduplicateCompounds_meaning hkeys hv hflat, hroot, meaning_rewritePasses hpassed]
  exact meaning_extractDirectives (fun name value => (alone_plain rfl (by simp)).trans (hdirective name value))
    ((alone_plain rfl (by simp)).trans halways) query

def noTerm (leaf : QNode plainHost) : Option Bool := (leafHashKey plainHost.keys leaf).toOption.map (· == "TrueNode")

theorem delimited_asciiKeys : asciiKeys.Delimited where
  number := nofun
  wire _ _ h := by cases h

/-- `-t:elf sort:cmc -t:elf`. -/
theorem finalizeQuery_meaning_elf :
    ∃ query out, Parser.parseQuery plainHost.toParserHost "-t:elf sort:cmc -t:elf" {} = .ok query ∧
      finalizeQuery plainHost false query = .ok out ∧
      (meaning noTerm out.root).getD true = (meaning (alone plainHost noTerm) query.root).getD true := by
  have hread : (answered "-t:elf sort:cmc -t:elf").toOption.isSome = true := by decide +kernel
  obtain ⟨⟨query, tree, out⟩, hanswered⟩ : ∃ r, answered "-t:elf sort:cmc -t:elf" = .ok r := by
    cases hanswered : answered "-t:elf sort:cmc -t:elf" with
    | error e =>
      rw [hanswered] at hread
      cases hread
    | ok r => exact ⟨r, rfl⟩
  obtain ⟨hquery, -, hout⟩ := answered_ok hanswered
  have hrespects : Respects plainHost.keys noTerm := by
    intro a b k _ _ ha hb
    rw [noTerm, noTerm, ha, hb]
  exact ⟨query, out, hquery, hout, finalizeQuery_meaning delimited_asciiKeys hrespects (fun _ _ => rfl) rfl hout⟩

end RewriteMeaning
