-- SUMMARY: Which of a query's regexes the budget is charged for.
import Sylvan.Parser.Rewrite

/-!
# Charged regexes

The budget is checked on the rewritten tree, by a walk that reads a regex only where it is the
value of a comparison under `And`, `Or` and `Not`. A group that is itself an operand of a
comparison, or of arithmetic, is not walked, and may hold any regex.
-/

namespace RegexCharge

open Rewrite Parser DerivedTerms Throws

variable {F T : Type}

/-! ## Regexes of a tree -/

def patternOf : QueryNode F → Option String
  | .regex value => some value
  | _ => none

def patterns (node : QueryNode F) : List String := node.nodes.filterMap patternOf

mutual

/-- The regexes that `collectRegexPatterns` does not come to. -/
def hidden : QueryNode F → List String
  | .nary _ operands => hiddenAll operands
  | .not operand => hidden operand
  | .regex value => [value]
  | .binary lhs _ (.regex _) => patterns lhs
  | .binary lhs _ rhs => patterns lhs ++ patterns rhs
  | _ => []

def hiddenAll : List (QueryNode F) → List String
  | [] => []
  | o :: os => hidden o ++ hiddenAll os

end

/-- What a walk over `And`, `Or` and `Not` gathers from the leaves. -/
structure Gathers (g : QueryNode F → List String) : Prop where
  nary : ∀ op operands, g (.nary op operands) = operands.flatMap g
  not : ∀ operand, g (.not operand) = g operand
  always : g .always = []
  directive : ∀ name value, g (.directive name value) = []

theorem gathers_collect : Gathers (collectRegexPatterns (F := F)) where
  nary op operands := by
    rw [collectRegexPatterns]
    induction operands with
    | nil => rfl
    | cons o os ih => rw [collectRegexPatternsAll, ih, List.flatMap_cons]
  not _ := by rw [collectRegexPatterns]
  always := rfl
  directive _ _ := rfl

theorem gathers_hidden : Gathers (hidden (F := F)) where
  nary op operands := by
    rw [hidden]
    induction operands with
    | nil => rfl
    | cons o os ih => rw [hiddenAll, ih, List.flatMap_cons]
  not _ := by rw [hidden]
  always := rfl
  directive _ _ := rfl

theorem nodesAll_eq (operands : List (QueryNode F)) : QueryNode.nodesAll operands = operands.flatMap QueryNode.nodes := by
  induction operands with
  | nil => rfl
  | cons o os ih => rw [QueryNode.nodesAll, ih, List.flatMap_cons]

theorem patterns_nary (op : NaryOp) (operands : List (QueryNode F)) :
    patterns (.nary op operands) = operands.flatMap patterns := by
  rw [patterns, QueryNode.nodes, nodesAll_eq, List.filterMap_cons_none rfl, List.filterMap_flatMap]
  rfl

theorem patterns_binary (lhs : QueryNode F) (op : BinOp) (rhs : QueryNode F) :
    patterns (.binary lhs op rhs) = patterns lhs ++ patterns rhs := by
  rw [patterns, QueryNode.nodes, List.filterMap_cons_none rfl, List.filterMap_append]
  rfl

theorem binary_cases (lhs : QueryNode F) (op : BinOp) (rhs : QueryNode F) :
    (∃ value, rhs = .regex value ∧ collectRegexPatterns (.binary lhs op rhs) = [value] ∧
        hidden (.binary lhs op rhs) = patterns lhs) ∨
      collectRegexPatterns (.binary lhs op rhs) = [] ∧ hidden (.binary lhs op rhs) = patterns lhs ++ patterns rhs := by
  cases rhs with
  | regex value => exact .inl ⟨value, rfl, rfl, rfl⟩
  | _ => exact .inr ⟨rfl, rfl⟩

theorem patterns_perm (node : QueryNode F) : (patterns node).Perm (collectRegexPatterns node ++ hidden node) := by
  induction node with
  | nary op operands ih =>
    rw [gathers_collect.nary, gathers_hidden.nary, patterns_nary]
    exact (List.Perm.flatMap_left operands ih).trans (List.flatMap_append_perm operands _ _).symm
  | not operand ih =>
    rw [gathers_collect.not, gathers_hidden.not]
    exact ih
  | binary lhs op rhs _ _ =>
    rw [patterns_binary]
    rcases binary_cases lhs op rhs with ⟨value, rfl, hcollect, hhidden⟩ | ⟨hcollect, hhidden⟩
    · rw [hcollect, hhidden]
      exact List.perm_append_comm
    · rw [hcollect, hhidden, List.nil_append]
  | _ => exact List.Perm.refl _

/-! ## What a pass leaves -/

theorem leavesAll_eq (operands : List (QueryNode F)) : leavesAll operands = operands.flatMap leaves := by
  induction operands with
  | nil => rfl
  | cons o os ih => rw [leavesAll, ih, List.flatMap_cons]

variable {g : QueryNode F → List String}

theorem Gathers.leaves (hg : Gathers g) (node : QueryNode F) : g node = (Rewrite.leaves node).flatMap g := by
  induction node with
  | nary op operands ih =>
    rw [hg.nary, Rewrite.leaves, leavesAll_eq, List.flatMap_assoc]
    exact List.flatMap_congr ih
  | not operand ih => rw [hg.not, Rewrite.leaves, ih]
  | _ => exact (List.flatMap_singleton g _).symm

theorem flattenInto_leaves {op : NaryOp} {operands : List (QueryNode F)}
    (ih : ∀ o ∈ operands, leaves o.flatten = leaves o) :
    (QueryNode.flattenInto op operands).flatMap leaves = operands.flatMap leaves := by
  induction operands with
  | nil => rfl
  | cons o os ihs =>
    have hos := ihs fun o' ho' => ih o' (List.mem_cons_of_mem _ ho')
    have ho := ih o List.mem_cons_self
    rw [QueryNode.flattenInto, List.flatMap_append, List.flatMap_cons, hos, ← ho]
    congr 1
    cases hkind : o.flatten.operandsOf op with
    | none => exact List.flatMap_singleton _ _
    | some inner =>
      rw [QueryNode.eq_of_operandsOf hkind, leaves, leavesAll_eq]
      rfl

theorem leaves_flatten (node : QueryNode F) : leaves node.flatten = leaves node := by
  induction node with
  | nary op operands ih =>
    rw [QueryNode.flatten, leaves, leaves, leavesAll_eq, leavesAll_eq]
    exact flattenInto_leaves ih
  | not operand ih => exact ih
  | _ => rfl

def after (pass : LeafPass F T) (leaf : QueryNode F) : QueryNode F :=
  match pass leaf with
  | .ok (some (rewritten, _)) => rewritten
  | _ => leaf

def rewriteLeaves (pass : LeafPass F T) (nodes : List (QueryNode F)) : List (QueryNode F) :=
  nodes.flatMap fun leaf => leaves (after pass leaf)

variable {pass : LeafPass F T}

theorem rewriteLeaves_append (l r : List (QueryNode F)) :
    rewriteLeaves pass (l ++ r) = rewriteLeaves pass l ++ rewriteLeaves pass r := List.flatMap_append

theorem leaves_mapLeavesAll {operands outs : List (QueryNode F)} {changed : Bool} {found : List T}
    (ih : ∀ o ∈ operands, ∀ out changed found, mapLeaves pass o = .ok (out, changed, found) →
      leaves out = rewriteLeaves pass (leaves o) ∧ (changed = false → out = o))
    (h : mapLeavesAll pass operands = .ok (outs, changed, found)) :
    outs.flatMap leaves = rewriteLeaves pass (operands.flatMap leaves) ∧ (changed = false → outs = operands) := by
  induction operands generalizing outs changed found with
  | nil =>
    cases h
    exact ⟨rfl, fun _ => rfl⟩
  | cons o os ihs =>
    rw [mapLeavesAll] at h
    obtain ⟨⟨out, c, fd⟩, hout, h⟩ := ok_of_bind h
    obtain ⟨⟨rest, cs, fds⟩, hrest, h⟩ := ok_of_bind h
    obtain ⟨hleaves, hsame⟩ := ih o List.mem_cons_self out c fd hout
    obtain ⟨hleavesRest, hsameRest⟩ := ihs (fun o' ho' => ih o' (List.mem_cons_of_mem _ ho')) hrest
    cases h
    refine ⟨by rw [List.flatMap_cons, List.flatMap_cons, rewriteLeaves_append, hleaves, hleavesRest], fun hc => ?_⟩
    obtain ⟨hc, hcs⟩ := Bool.or_eq_false_iff.mp hc
    rw [hsame hc, hsameRest hcs]

theorem leaves_leaf {leaf : QueryNode F} (hleaf : leaf.isLeaf = true) : leaves leaf = [leaf] := by
  cases leaf with
  | nary op operands => cases hleaf
  | not operand => cases hleaf
  | _ => rfl

theorem leaves_pass {leaf out : QueryNode F} {changed : Bool} {found : List T} (hleaf : leaf.isLeaf = true)
    (h : mapLeaves pass leaf = .ok (out, changed, found)) :
    leaves out = rewriteLeaves pass (leaves leaf) ∧ (changed = false → out = leaf) := by
  rw [leaves_leaf hleaf, rewriteLeaves, List.flatMap_singleton, after]
  rw [mapLeaves] at h
  · obtain ⟨rewritten, hpass, h⟩ := ok_of_bind h
    rw [hpass]
    cases rewritten with
    | none =>
      cases h
      exact ⟨rfl, fun _ => rfl⟩
    | some r =>
      cases h
      exact ⟨rfl, nofun⟩
  · rintro op operands rfl
    cases hleaf
  · rintro operand rfl
    cases hleaf

theorem leaves_mapLeaves {node out : QueryNode F} {changed : Bool} {found : List T}
    (h : mapLeaves pass node = .ok (out, changed, found)) :
    leaves out = rewriteLeaves pass (leaves node) ∧ (changed = false → out = node) := by
  induction node generalizing out changed found with
  | nary op operands ih =>
    rw [mapLeaves] at h
    obtain ⟨⟨outs, c, fd⟩, houts, h⟩ := ok_of_bind h
    obtain ⟨hleaves, hsame⟩ := leaves_mapLeavesAll (fun o ho _ _ _ => ih o ho) houts
    rw [leaves, leavesAll_eq]
    cases c with
    | true =>
      cases h
      exact ⟨by rw [if_pos rfl, leaves, leavesAll_eq, hleaves], nofun⟩
    | false =>
      cases h
      rw [hsame rfl] at hleaves
      rw [if_neg Bool.false_ne_true, leaves, leavesAll_eq]
      exact ⟨hleaves, fun _ => rfl⟩
  | not operand ih =>
    rw [mapLeaves] at h
    obtain ⟨⟨out', c, fd⟩, hout, h⟩ := ok_of_bind h
    obtain ⟨hleaves, hsame⟩ := ih hout
    cases c with
    | true =>
      cases h
      exact ⟨hleaves, nofun⟩
    | false =>
      cases h
      rw [hsame rfl] at hleaves
      exact ⟨hleaves, fun _ => rfl⟩
  | _ => exact leaves_pass rfl h

theorem leaves_overQuery {query out : Query F} {found : List T} (h : overQuery pass query = .ok (out, found)) :
    leaves out.root = rewriteLeaves pass (leaves query.root) := by
  obtain ⟨⟨root, changed, fd⟩, hroot, h⟩ := ok_of_bind h
  obtain ⟨hleaves, hsame⟩ := leaves_mapLeaves hroot
  cases changed with
  | true =>
    cases h
    exact (leaves_flatten root).trans hleaves
  | false =>
    cases h
    rw [hsame rfl] at hleaves
    exact hleaves

/-! ## The leaves of the rewritten query -/

/-- The leaves that a leaf of the query is rewritten to, pass by pass. -/
def rewritten (host : QueryHost) (leaf : QNode host) : List (QNode host) :=
  rewriteLeaves (lowerRegexLeaf host) (rewriteLeaves (expandTerm host)
    (rewriteLeaves (swapNotLeaf host) (rewriteLeaves (swapGameLeaf host) [leaf])))

variable {host : QueryHost}

theorem rewriteLeaves_flatMap (f : QueryNode F → List (QueryNode F)) (nodes : List (QueryNode F)) :
    rewriteLeaves pass (nodes.flatMap f) = nodes.flatMap fun leaf => rewriteLeaves pass (f leaf) := List.flatMap_assoc

theorem leaves_rewritePasses {query out : Query host.Double} (h : rewritePasses host query = .ok out) :
    leaves out.root = (leaves query.root).flatMap (rewritten host) := by
  obtain ⟨games, hgames, h⟩ := ok_of_bind h
  obtain ⟨⟨games', fd⟩, hgames', hg⟩ := ok_of_bind hgames
  obtain ⟨nots, hnots, h⟩ := ok_of_bind h
  obtain ⟨⟨nots', fd'⟩, hnots', hn⟩ := ok_of_bind hnots
  obtain ⟨expanded, hexpanded, h⟩ := ok_of_bind h
  obtain ⟨⟨expanded', fd''⟩, hexpanded', he⟩ := ok_of_bind hexpanded
  obtain ⟨⟨root, changed, lowered⟩, hroot, h⟩ := ok_of_bind h
  cases hg
  cases hn
  cases he
  cases h
  rw [(leaves_mapLeaves hroot).1, leaves_overQuery hexpanded', leaves_overQuery hnots', leaves_overQuery hgames',
    ← List.flatMap_singleton' (leaves query.root), rewriteLeaves_flatMap, rewriteLeaves_flatMap, rewriteLeaves_flatMap,
    rewriteLeaves_flatMap, List.flatMap_singleton']
  rfl

theorem expandLeaf_of_leafKey {rows : List Expansion} {leaf : QNode host} (h : leafKey host leaf = none) :
    expandLeaf host rows leaf = .ok none := by
  rw [expandLeaf, h]

theorem rewriteLeaves_same {leaf : QueryNode F} (hleaf : leaf.isLeaf = true) (h : pass leaf = .ok none) :
    rewriteLeaves pass [leaf] = [leaf] := by
  rw [rewriteLeaves, List.flatMap_singleton, after, h]
  exact leaves_leaf hleaf

theorem rewritten_directive (name value : String) : rewritten host (.directive name value) = [.directive name value] := by
  have hexpand : expandTerm host (.directive name value) = .ok none := by
    rw [expandTerm, expandLeaf_of_leafKey rfl]
    rfl
  rw [rewritten, rewriteLeaves_same rfl rfl, rewriteLeaves_same rfl rfl, rewriteLeaves_same rfl hexpand,
    rewriteLeaves_same rfl rfl]

theorem rewritten_always : rewritten host .always = [.always] := by
  have hexpand : expandTerm host .always = .ok none := by
    rw [expandTerm, expandLeaf_of_leafKey rfl]
    rfl
  rw [rewritten, rewriteLeaves_same rfl rfl, rewriteLeaves_same rfl rfl, rewriteLeaves_same rfl hexpand,
    rewriteLeaves_same rfl rfl]

/-! ## Directives -/

theorem stripDirectivesAll_gathers {operands : List (QueryNode F)} {nested : Bool}
    (ih : ∀ o ∈ operands, ∀ nested, (stripDirectives nested o).1.toList.flatMap g = g o) :
    (stripDirectivesAll nested operands).1.flatMap g = operands.flatMap g := by
  induction operands with
  | nil => rfl
  | cons o os ihs =>
    have hos := ihs fun o' ho' => ih o' (List.mem_cons_of_mem _ ho')
    rw [stripDirectivesAll, List.flatMap_cons, ← ih o List.mem_cons_self nested, ← hos]
    exact List.flatMap_append

theorem stripDirectives_gathers (hg : Gathers g) (nested : Bool) (node : QueryNode F) :
    (stripDirectives nested node).1.toList.flatMap g = g node := by
  induction node generalizing nested with
  | nary op operands ih =>
    have hall : (stripDirectivesAll (nested || op = .or) operands).1.flatMap g = operands.flatMap g :=
      stripDirectivesAll_gathers fun o ho nested => ih o ho nested
    rw [hg.nary, ← hall, stripDirectives]
    simp only
    match (stripDirectivesAll (nested || op = .or) operands).1 with
    | [] => rfl
    | [single] => rfl
    | a :: b :: rest =>
      simp only [Option.toList_some, List.flatMap_singleton]
      exact hg.nary _ _
  | not operand ih =>
    rw [hg.not, ← ih true, stripDirectives]
    simp only
    cases (stripDirectives true operand).1 with
    | none => rfl
    | some inner => simp [hg.not]
  | directive name value => exact (hg.directive name value).symm
  | _ => exact List.flatMap_singleton _ _

theorem extractDirectives_gathers (hg : Gathers g) (query : Query F) : g (extractDirectives query).1.root = g query.root := by
  have hstrip := stripDirectives_gathers hg false query.root
  rw [extractDirectives]
  split
  next root found heq =>
    rw [heq] at hstrip
    by_cases hfound : found.isEmpty = true
    · rw [if_pos hfound]
    · rw [if_neg hfound, ← hstrip]
      cases root with
      | none => exact hg.always
      | some root => exact (List.flatMap_singleton _ _).symm

def gathered (host : QueryHost) (g : QNode host → List String) (node : QNode host) : List String :=
  (leaves node).flatMap fun leaf => (rewritten host leaf).flatMap g

theorem gathers_gathered {g : QNode host → List String} (hg : Gathers g) : Gathers (gathered host g) where
  nary op operands := by
    rw [gathered, leaves, leavesAll_eq, List.flatMap_assoc]
    rfl
  not operand := rfl
  always := by
    rw [gathered, leaves_leaf rfl, List.flatMap_singleton, rewritten_always, List.flatMap_singleton]
    exact hg.always
  directive name value := by
    rw [gathered, leaves_leaf rfl, List.flatMap_singleton, rewritten_directive, List.flatMap_singleton]
    exact hg.directive name value

theorem rewriteQuery_gathers {g : QNode host → List String} (hg : Gathers g) {query out : Query host.Double}
    (h : rewriteQuery host query = .ok out) : g out.root = gathered host g query.root := by
  obtain ⟨passed, hroot, hpassed⟩ : ∃ passed, out.root = passed.root ∧
      rewritePasses host (extractDirectives query).1 = .ok passed := by
    obtain ⟨passed, hpassed, h⟩ := ok_of_bind h
    cases h
    exact ⟨passed, rfl, hpassed⟩
  rw [← extractDirectives_gathers (gathers_gathered hg) query, gathered, ← List.flatMap_assoc,
    ← leaves_rewritePasses hpassed, hroot]
  exact hg.leaves passed.root

/-! ## The budget -/

def charged (host : QueryHost) (query : Query host.Double) : List String :=
  gathered host collectRegexPatterns query.root

def missed (host : QueryHost) (query : Query host.Double) : List String := gathered host hidden query.root

/-- Every regex of the tree is within the limits of one, and they are not too many. -/
def Within (host : QueryHost) (openRepeats : Bool) (root : QNode host) : Prop :=
  (patterns root).length ≤ RegexBudget.MAX_REGEX_LEAVES_PER_QUERY ∧
    ∀ pattern ∈ patterns root, enforce host openRepeats pattern = .ok ()

/-- What is missed is within the limits all the same. -/
def MissedWithin (host : QueryHost) (openRepeats : Bool) (query : Query host.Double) : Prop :=
  (charged host query).length + (missed host query).length ≤ RegexBudget.MAX_REGEX_LEAVES_PER_QUERY ∧
    ∀ pattern ∈ missed host query, enforce host openRepeats pattern = .ok ()

theorem validate_ok {openRepeats : Bool} {query : Query host.Double}
    (h : validateRegexPatterns host openRepeats query = .ok ()) :
    ∀ pattern ∈ collectRegexPatterns query.root, enforce host openRepeats pattern = .ok () := by
  rw [validateRegexPatterns] at h
  split at h
  · cases h
  · exact ok_of_forM h

/-- **A query that is accepted is within the budget exactly when what is missed of it is.** -/
theorem finalizeQuery_within_iff {openRepeats : Bool} {query out : Query host.Double}
    (h : finalizeQuery host openRepeats query = .ok out) :
    ∃ tree, rewriteQuery host query = .ok tree ∧
      (Within host openRepeats tree.root ↔ MissedWithin host openRepeats query) := by
  obtain ⟨tree, htree, h⟩ := ok_of_bind h
  obtain ⟨⟨⟩, hvalid, -⟩ := ok_of_bind h
  have hvalid : validateRegexPatterns host openRepeats tree = .ok () := by
    cases hv : validateRegexPatterns host openRepeats tree with
    | ok _ => rfl
    | error e =>
      rw [hv] at hvalid
      cases hvalid
  have hcharged : collectRegexPatterns tree.root = charged host query := rewriteQuery_gathers gathers_collect htree
  have hmissed : hidden tree.root = missed host query := rewriteQuery_gathers gathers_hidden htree
  have hperm := patterns_perm tree.root
  rw [hcharged, hmissed] at hperm
  refine ⟨tree, htree, ?_⟩
  rw [Within, MissedWithin, hperm.length_eq, List.length_append]
  refine and_congr_right fun _ => ⟨fun hall pattern hp => ?_, fun hall pattern hp => ?_⟩
  · exact hall pattern (hperm.mem_iff.mpr (List.mem_append_right _ hp))
  · rcases List.mem_append.mp (hperm.mem_iff.mp hp) with hp | hp
    · exact validate_ok hvalid pattern (hcharged ▸ hp)
    · exact hall pattern hp

/-! ## A group that hides a regex -/

def plainHost : QueryHost where
  toPyHost := asciiHost
  setReleaseDate _ := none
  toLowerCase := asciiHost.pyLower
  malformed _ := none
  keys := Compounds.asciiKeys

def answered (src : String) : Except Fail (Query plainHost.Double × Query plainHost.Double × Query plainHost.Double) := do
  let query ← parseQuery plainHost.toParserHost src {}
  let tree ← rewriteQuery plainHost query
  let out ← finalizeQuery plainHost false query
  .ok (query, tree, out)

theorem answered_ok {src : String} {query tree out : Query plainHost.Double} (h : answered src = .ok (query, tree, out)) :
    parseQuery plainHost.toParserHost src {} = .ok query ∧ rewriteQuery plainHost query = .ok tree ∧
      finalizeQuery plainHost false query = .ok out := by
  obtain ⟨query', hquery, h⟩ := ok_of_bind h
  obtain ⟨tree', htree, h⟩ := ok_of_bind h
  obtain ⟨out', hout, h⟩ := ok_of_bind h
  cases h
  exact ⟨hquery, htree, hout⟩

/-- `(o:/(a|b){2000}/)=1` is accepted, and runs a pattern that is refused. -/
theorem finalizeQuery_hides :
    ∃ query tree out, parseQuery plainHost.toParserHost "(o:/(a|b)\x7b2000\x7d/)=1" {} = .ok query ∧
      finalizeQuery plainHost false query = .ok out ∧ rewriteQuery plainHost query = .ok tree ∧
      ¬ Within plainHost false tree.root := by
  have hread : (answered "(o:/(a|b)\x7b2000\x7d/)=1").map (fun r => patterns r.2.1.root) =
      .ok ["(a|b)\x7b2000\x7d"] := by
    decide +kernel
  cases hanswered : answered "(o:/(a|b)\x7b2000\x7d/)=1" with
  | error e =>
    rw [hanswered] at hread
    cases hread
  | ok r =>
    obtain ⟨query, tree, out⟩ := r
    obtain ⟨hquery, htree, hout⟩ := answered_ok hanswered
    rw [hanswered] at hread
    have hpatterns : patterns tree.root = ["(a|b)\x7b2000\x7d"] := Except.ok.inj hread
    refine ⟨query, tree, out, hquery, hout, htree, fun hwithin => ?_⟩
    have hrefused : enforce plainHost false "(a|b)\x7b2000\x7d" ≠ .ok () := by decide +kernel
    exact hrefused (hwithin.2 _ (hpatterns ▸ List.mem_singleton_self _))

/-- `o:/a.c/`. -/
theorem finalizeQuery_within_iff_bare :
    ∃ query tree, parseQuery plainHost.toParserHost "o:/a.c/" {} = .ok query ∧ rewriteQuery plainHost query = .ok tree ∧
      (Within plainHost false tree.root ↔ MissedWithin plainHost false query) := by
  have hread : (answered "o:/a.c/").toOption.isSome = true := by decide +kernel
  obtain ⟨⟨query, tree, out⟩, hanswered⟩ : ∃ r, answered "o:/a.c/" = .ok r := by
    cases hanswered : answered "o:/a.c/" with
    | error e =>
      rw [hanswered] at hread
      cases hread
    | ok r => exact ⟨r, rfl⟩
  obtain ⟨hquery, -, hout⟩ := answered_ok hanswered
  obtain ⟨tree, htree, hiff⟩ := finalizeQuery_within_iff hout
  exact ⟨query, tree, hquery, htree, hiff⟩

end RegexCharge
