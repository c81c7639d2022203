-- SUMMARY: The scan of a pattern answers the grammar: no reason for what it derives, else the leftmost offence's.
import Sylvan.Compat.RegexGrammar

/-!
# The scan against the grammar

Items are read as the grammar has them; the patterns let through are the grammar's, and
what is said of another is said of the first item the grammar has no place for.
-/

namespace RegexSyntax

/-! ## Items -/

/-- An item, its text, and what follows it. -/
inductive Reads : Item → List Char → List Char → Prop where
  | literal {c : Char} {rest : List Char} (hc : isLiteral c = true) : Reads .atom [c] rest
  | brace {rest : List Char} (hnext : rest.head?.any Char.isDigit = false) : Reads .atom ['{'] rest
  | escape {e rest : List Char} (he : Escape e) :
      Reads (if isConstraint e then .constraint else .atom) (BACKSLASH :: e) rest
  /-- A backslash that ends the pattern is let through. -/
  | final : Reads .atom [BACKSLASH] []
  | bracket {b rest : List Char} (hb : Bracket b []) : Reads .atom b rest
  | anchor {c : Char} {rest : List Char} (hc : c = '^' ∨ c = '$') : Reads .constraint [c] rest
  | comment {c rest : List Char} (hc : Comment c) : Reads .comment c rest
  | opener {lookaround : Bool} {o rest : List Char} (ho : o ∈ openers lookaround)
      (hplain : o = ['('] → rest.head? ≠ some '?') : Reads (.open lookaround) o rest
  | close {rest : List Char} : Reads .close [')'] rest
  | bar {rest : List Char} : Reads .bar ['|'] rest
  | loop {q rest : List Char} (hq : Quantifier q) (hne : q ≠ ['?']) : Reads .loop q rest
  | question {rest : List Char} : Reads .question ['?'] rest

def after (kind : Kind) (groups : List Bool) (item : Item) (rest : List Char) : Option Reason :=
  match step kind groups item with
  | .error reason => some reason
  | .ok (kind, groups) => scan kind groups rest

variable {groups : List Bool} {kind : Kind} {item : Item} {cs rest : List Char}

variable {c : Char}

theorem scan_readItem (h : readItem c cs = .ok (item, rest)) :
    scan kind groups (c :: cs) = after kind groups item rest := scan_item h

theorem readItem_literal {cs : List Char} (hc : isLiteral c = true) : readItem c cs = .ok (.atom, cs) := by
  simp only [isLiteral, Bool.not_eq_true', Bool.or_eq_false_iff, decide_eq_false_iff_not] at hc
  simp [readItem, hc]

theorem scan_hex {ds rest : List Char}
    (hds : ∀ d ∈ ds, isHexDigit d = true) :
    scan .atom groups (ds ++ rest) = scan .atom groups rest := by
  induction ds with
  | nil => rfl
  | cons d ds ih =>
    have hd := hds d List.mem_cons_self
    have hliteral : isLiteral d = true := by
      by_contra hno
      simp only [isLiteral, Bool.not_eq_true', Bool.not_eq_false, Bool.or_eq_true, decide_eq_true_eq, or_assoc] at hno
      rcases hno with rfl | rfl | rfl | rfl | rfl | rfl | rfl | rfl | rfl | rfl | rfl <;>
        revert hd <;> decide
    rw [List.cons_append, scan_readItem (readItem_literal hliteral)]
    exact ih fun e he => hds e (List.mem_cons_of_mem _ he)

theorem scan_escape {e rest : List Char} (he : Escape e) : scan kind groups (BACKSLASH :: (e ++ rest)) =
      after kind groups (if isConstraint e then .constraint else .atom) rest := by
  obtain ⟨more, tail, rfl, hmore, hescape, hsame⟩ := escape_of rest he
  have hitem : readItem BACKSLASH (e ++ (more ++ tail)) = .ok (if isConstraint e then .constraint else .atom, tail) := by
    simp only [readItem, if_true, hescape, hsame]
  rw [scan_readItem hitem]
  cases hc : isConstraint e with
  | false => exact (scan_hex hmore).symm
  | true =>
    -- a constraint escape is one letter, and nothing more was read
    rw [hc] at hsame
    obtain rfl : more = [] := by
      cases e with
      | nil => cases he
      | cons c cs =>
        cases hrest : cs ++ more with
        | nil => exact (List.append_eq_nil_iff.mp hrest).2
        | cons d ds =>
          rw [List.cons_append, hrest] at hsame
          cases hsame
    rfl

theorem items_append {cs : List Char} (rest : List Char) (h : Items (· = [']']) cs) :
    cs ≠ [] ∧ Items (· = ']' :: rest) (cs ++ rest) := by
  induction h with
  | stop h =>
    subst h
    exact ⟨List.cons_ne_nil _ _, .stop rfl⟩
  | @escape used cs he _ ih =>
    refine ⟨List.cons_ne_nil _ _, ?_⟩
    rw [List.cons_append, List.append_assoc]
    exact .escape he ih.2
  | @named d name cs hd hname _ ih =>
    refine ⟨List.cons_ne_nil _ _, ?_⟩
    have := Items.named hd hname ih.2
    simpa using this
  | @char c cs hb hc hn _ ih =>
    refine ⟨List.cons_ne_nil _ _, .char hb hc ?_ ih.2⟩
    cases cs with
    | nil => exact absurd rfl ih.1
    | cons d ds => exact hn

theorem bracketHead_append {body rest : List Char} (h : bracketHead body ≠ []) :
    bracketHead (body ++ rest) = bracketHead body ++ rest := by
  have htail {cs : List Char} (c : Char) (hne : cs ≠ []) :
      (if (cs ++ rest).head? = some c then (cs ++ rest).tail else cs ++ rest) =
        (if cs.head? = some c then cs.tail else cs) ++ rest := by
    cases cs with
    | nil => exact absurd rfl hne
    | cons d ds =>
      by_cases hd : d = c
      · simp [hd]
      · simp [hd]
  have hbody : body ≠ [] := by
    rintro rfl
    exact h rfl
  have hinner : (if body.head? = some '^' then body.tail else body) ≠ [] := by
    intro hnil
    exact h (by simp only [bracketHead, hnil]; rfl)
  simp only [bracketHead]
  rw [htail '^' hbody, htail ']' hinner]

theorem readItem_bracket {b : List Char} (rest : List Char) (hb : Bracket b []) :
    ∃ cs, b ++ rest = '[' :: cs ∧ readItem '[' cs = .ok (.atom, rest) := by
  obtain ⟨body, rfl, hitems⟩ := hb
  obtain ⟨hne, happend⟩ := items_append rest hitems
  have hread : bracketRest (bracketHead (body ++ rest)) = .ok rest := by
    rw [bracketHead_append hne]
    exact (@bracketRest_eq (.ok rest) _ nofun).mpr happend
  refine ⟨body ++ rest, rfl, ?_⟩
  have hback : '[' ≠ BACKSLASH := by decide
  simp only [readItem, hback, if_false, if_true, hread]
  rfl

theorem readItem_comment {c : List Char} (rest : List Char) (hc : Comment c) :
    ∃ cs, c ++ rest = '(' :: cs ∧ readItem '(' cs = .ok (.comment, rest) := by
  cases hc with
  | @mk text h =>
    refine ⟨'?' :: '#' :: (text ++ ')' :: rest), by simp, ?_⟩
    have hpos : ∀ a ∈ text, decide (a ≠ ')') = true := fun a ha =>
      decide_eq_true fun hclose => h (hclose ▸ ha)
    have hdrop : (text ++ ')' :: rest).dropWhile (· ≠ ')') = ')' :: rest := by
      rw [List.dropWhile_append_of_pos hpos, List.dropWhile_cons_of_neg (by simp)]
    have hread : readGroup ('?' :: '#' :: (text ++ ')' :: rest)) = .ok (.comment, rest) := by
      simp only [readGroup, hdrop, List.contains_eq_mem, List.mem_append, List.mem_cons, true_or,
        or_true, decide_true, if_true, List.tail_cons]
    exact hread

theorem readItem_opener {lookaround : Bool} {o rest : List Char} (ho : o ∈ openers lookaround)
    (hplain : o = ['('] → rest.head? ≠ some '?') :
    ∃ cs, o ++ rest = '(' :: cs ∧ readItem '(' cs = .ok (.open lookaround, rest) := by
  cases lookaround with
  | true =>
    simp only [openers, if_true, List.mem_cons, List.not_mem_nil, or_false] at ho
    rcases ho with rfl | rfl | rfl | rfl <;> exact ⟨_, rfl, rfl⟩
  | false =>
    simp only [openers, Bool.false_eq_true, if_false, List.mem_cons, List.not_mem_nil, or_false] at ho
    rcases ho with rfl | rfl
    · refine ⟨rest, rfl, ?_⟩
      change readGroup rest = _
      unfold readGroup
      split <;> first | rfl | exact absurd rfl (hplain rfl)
    · exact ⟨_, rfl, rfl⟩

theorem readItem_loop {q : List Char} (rest : List Char) (hq : Quantifier q) (hne : q ≠ ['?']) :
    ∃ c cs, q ++ rest = c :: cs ∧ readItem c cs = .ok (.loop, rest) := by
  cases hq with
  | star => exact ⟨'*', rest, rfl, rfl⟩
  | plus => exact ⟨'+', rest, rfl, rfl⟩
  | question => exact absurd rfl hne
  | bound hq hlow hhigh =>
    obtain ⟨cs, htext, hdigit, hcounts⟩ := boundCounts_of rest hq
    have hgood := badCounts_eq_false.mpr ⟨hlow, hhigh⟩
    have hread : boundRest cs = .ok rest := by
      simp only [boundRest, hcounts, hgood, Bool.false_eq_true, if_false]
    have hback : '{' ≠ BACKSLASH := by decide
    exact ⟨'{', cs, htext, by simp [readItem, hback, hdigit, hread]; rfl⟩

theorem scan_reads {t rest : List Char}
    (h : Reads item t rest) : scan kind groups (t ++ rest) = after kind groups item rest := by
  cases h with
  | literal hc => exact scan_readItem (readItem_literal hc)
  | brace hnext =>
    refine scan_readItem ?_
    have hback : '{' ≠ BACKSLASH := by decide
    simp [readItem, hback, hnext]
  | escape he => exact scan_escape he
  | final => exact scan_readItem rfl
  | bracket hb =>
    obtain ⟨cs, htext, hread⟩ := readItem_bracket rest hb
    rw [htext, scan_readItem hread]
  | anchor hc =>
    refine scan_readItem ?_
    rcases hc with rfl | rfl <;> rfl
  | comment hc =>
    obtain ⟨cs, htext, hread⟩ := readItem_comment rest hc
    rw [htext, scan_readItem hread]
  | opener ho hplain =>
    obtain ⟨cs, htext, hread⟩ := readItem_opener ho hplain
    rw [htext, scan_readItem hread]
  | close => exact scan_readItem rfl
  | bar => exact scan_readItem rfl
  | loop hq hne =>
    obtain ⟨c, cs, htext, hread⟩ := readItem_loop rest hq hne
    rw [htext, scan_readItem hread]
  | question => exact scan_readItem rfl

theorem items_split (h : Items (· = ']' :: rest) cs) : ∃ b, cs = b ++ rest ∧ Items (· = [']']) b := by
  induction h with
  | stop h =>
    subst h
    exact ⟨[']'], rfl, .stop rfl⟩
  | @escape used cs he _ ih =>
    obtain ⟨b, rfl, hb⟩ := ih
    exact ⟨BACKSLASH :: (used ++ b), by simp, .escape he hb⟩
  | @named d name cs hd hname _ ih =>
    obtain ⟨b, rfl, hb⟩ := ih
    exact ⟨_, by simp, .named hd hname hb⟩
  | @char c cs hb hc hn _ ih =>
    obtain ⟨b, rfl, hitems⟩ := ih
    refine ⟨c :: b, rfl, .char hb hc ?_ hitems⟩
    cases b with
    | nil => exact absurd rfl (items_append [] hitems).1
    | cons d ds => exact hn

theorem bracket_of_bracketRest
    (h : bracketRest (bracketHead cs) = .ok rest) : ∃ b, '[' :: cs = b ++ rest ∧ Bracket b [] := by
  obtain ⟨b, hb, hitems⟩ := items_split ((@bracketRest_eq (.ok rest) _ nofun).mp h)
  -- what `bracketHead` takes off the front is taken off it again
  have hfront (c : Char) {cs b : List Char} (hne : b ≠ [])
      (hb : (if cs.head? = some c then cs.tail else cs) = b ++ rest) :
      ∃ b', cs = b' ++ rest ∧ b' ≠ [] ∧ (if b'.head? = some c then b'.tail else b') = b := by
    split at hb
    · next hc =>
        cases cs with
        | nil => cases hc
        | cons d ds =>
          obtain rfl : d = c := Option.some.inj hc
          exact ⟨d :: b, by rw [List.cons_append, ← hb]; rfl, List.cons_ne_nil _ _, by simp⟩
    · next hc =>
        refine ⟨b, hb, hne, if_neg ?_⟩
        cases b with
        | nil => exact absurd rfl hne
        | cons d ds => simpa [hb] using hc
  obtain ⟨b₁, hb₁, hne₁, hhead₁⟩ := hfront ']' (items_append [] hitems).1 hb
  obtain ⟨b₂, hb₂, -, hhead₂⟩ := hfront '^' hne₁ hb₁
  refine ⟨'[' :: b₂, by rw [hb₂]; rfl, b₂, rfl, ?_⟩
  have hhead : bracketHead b₂ = b := by simp only [bracketHead, hhead₂, hhead₁]
  rw [hhead]
  exact hitems

theorem reads_of_readGroup
    (h : readGroup cs = .ok (item, rest)) : ∃ t, '(' :: cs = t ++ rest ∧ Reads item t rest := by
  have hlook {o : List Char} (ho : o ∈ openers true) : Reads (.open true) o rest :=
    .opener ho fun hplain => absurd (hplain ▸ ho) (by decide)
  unfold readGroup at h
  split at h
  · next text =>
      split at h
      · next hclose =>
          cases h
          have hmem : ')' ∈ text := by simpa using hclose
          have hne : text.dropWhile (· ≠ ')') ≠ [] := by
            intro hnil
            simpa using List.dropWhile_eq_nil_iff.mp hnil ')' hmem
          obtain ⟨d, ds, hcons⟩ := List.exists_cons_of_ne_nil hne
          have hd : d = ')' := by
            have hhead := List.head_dropWhile_not (· ≠ ')') hne
            rw [show (text.dropWhile (· ≠ ')')).head hne = d by simp only [hcons, List.head_cons]]
              at hhead
            simpa using hhead
          subst hd
          have htext := (List.takeWhile_append_dropWhile (p := (· ≠ ')')) (l := text)).symm
          rw [hcons] at htext
          refine ⟨_, ?_, .comment (@Comment.mk (text.takeWhile (· ≠ ')')) fun hin => ?_)⟩
          · rw [hcons, List.tail_cons]
            conv_lhs => rw [htext]
            simp
          · simpa using List.mem_takeWhile_imp hin
      · cases h
  · cases h
    exact ⟨['(', '?', ':'], rfl, .opener (by decide) (by simp)⟩
  · cases h
    exact ⟨['(', '?', '='], rfl, hlook (by decide)⟩
  · cases h
    exact ⟨['(', '?', '!'], rfl, hlook (by decide)⟩
  · cases h
    exact ⟨['(', '?', '<', '='], rfl, hlook (by decide)⟩
  · cases h
    exact ⟨['(', '?', '<', '!'], rfl, hlook (by decide)⟩
  · cases h
  · next hno =>
      cases h
      refine ⟨['('], rfl, .opener (by decide) fun _ hq => ?_⟩
      cases cs with
      | nil => cases hq
      | cons c cs =>
        obtain rfl : c = '?' := Option.some.inj hq
        exact hno _ rfl

theorem reads_of_readItem
    (h : readItem c cs = .ok (item, rest)) : ∃ t, c :: cs = t ++ rest ∧ Reads item t rest := by
  unfold readItem at h
  split at h
  · next hb =>
      subst hb
      split at h
      · cases h
      · next used tail he =>
          cases h
          cases cs with
          | nil =>
            cases he
            exact ⟨[BACKSLASH], rfl, .final⟩
          | cons d ds =>
            refine ⟨BACKSLASH :: used, by rw [← escape_append he]; rfl, ?_⟩
            exact .escape (escape_spec he (List.cons_ne_nil d ds))
  split at h
  · next hc =>
      subst hc
      cases hread : bracketRest (bracketHead cs) with
      | error reason =>
        rw [hread] at h
        cases h
      | ok tail =>
        rw [hread] at h
        cases h
        obtain ⟨b, hb, hbracket⟩ := bracket_of_bracketRest hread
        exact ⟨b, hb, .bracket hbracket⟩
  split at h
  · next hc =>
      subst hc
      exact reads_of_readGroup h
  split at h
  · next hc =>
      subst hc
      cases h
      exact ⟨[')'], rfl, .close⟩
  split at h
  · next hc =>
      subst hc
      cases h
      exact ⟨['|'], rfl, .bar⟩
  split at h
  · next hc =>
      cases h
      exact ⟨[c], rfl, .anchor (by simpa using hc)⟩
  split at h
  · next hc =>
      cases h
      rcases (show c = '*' ∨ c = '+' by simpa using hc) with rfl | rfl
      · exact ⟨['*'], rfl, .loop .star (by decide)⟩
      · exact ⟨['+'], rfl, .loop .plus (by decide)⟩
  split at h
  · next hc =>
      subst hc
      cases h
      exact ⟨['?'], rfl, .question⟩
  split at h
  · next hc =>
      obtain ⟨hbrace, hdigit⟩ := (Bool.and_eq_true _ _).mp hc
      obtain rfl : c = '{' := of_decide_eq_true hbrace
      cases hread : boundRest cs with
      | error reason =>
        rw [hread] at h
        cases h
      | ok tail =>
        rw [hread] at h
        cases h
        unfold boundRest at hread
        split at hread
        · next low high tail' hcounts =>
            split at hread
            · cases hread
            · next hgood =>
                cases hread
                obtain ⟨q, hq, hbound⟩ := bound_of_boundCounts hdigit hcounts
                obtain ⟨hlow, hhigh⟩ := badCounts_eq_false.mp (Bool.not_eq_true _ ▸ hgood)
                refine ⟨q, hq, .loop (.bound hbound hlow hhigh) ?_⟩
                rintro rfl
                cases hq
        · cases hread
  · next hb hbr hp hcl hbar hanchor hloop hq hbrace =>
      cases h
      by_cases hc : c = '{'
      · subst hc
        exact ⟨['{'], rfl, .brace (by simpa using hbrace)⟩
      · refine ⟨[c], rfl, .literal ?_⟩
        simp_all [isLiteral]

/-! ## What the grammar derives is let through -/

/-- What may stand behind a branch: nothing before it matters to the scan from there. -/
def Closes (rest : List Char) : Prop :=
  (∀ kind kind' groups, scan kind groups rest = scan kind' groups rest) ∧ rest.head?.any Char.isDigit = false

theorem closes_nil : Closes [] := ⟨fun _ _ _ => by rw [scan_nil, scan_nil], rfl⟩

theorem scan_bar (kind : Kind) (groups : List Bool) (cs : List Char) :
    scan kind groups ('|' :: cs) = scan .none groups cs := scan_reads .bar

theorem scan_close (kind : Kind) (groups : List Bool) (cs : List Char) :
    scan kind groups (')' :: cs) = after .none groups .close cs := scan_reads .close

theorem scan_final (kind : Kind) (groups : List Bool) :
    scan kind groups [BACKSLASH] = scan .atom groups [] := scan_reads .final

theorem closes_bar (cs : List Char) : Closes ('|' :: cs) :=
  ⟨fun kind kind' groups => (scan_bar kind groups cs).trans (scan_bar kind' groups cs).symm, rfl⟩

theorem closes_close (cs : List Char) : Closes (')' :: cs) :=
  ⟨fun kind kind' groups => (scan_close kind groups cs).trans (scan_close kind' groups cs).symm, rfl⟩

theorem closes_final : Closes [BACKSLASH] :=
  ⟨fun kind kind' groups => (scan_final kind groups).trans (scan_final kind' groups).symm, rfl⟩

theorem scan_comments (h : Comments cs) : scan kind groups (cs ++ rest) = scan kind groups rest := by
  induction h with
  | nil => rfl
  | cons hc _ ih =>
    rw [List.append_assoc, scan_reads (.comment hc)]
    exact ih

theorem scan_quantifier {q rest : List Char} (hq : Quantifier q) :
    scan .atom groups (q ++ rest) = scan .quantifier groups rest := by
  by_cases hne : q = ['?']
  · subst hne
    exact scan_reads .question
  · exact scan_reads (.loop hq hne)

theorem scan_quantified {q : List Char} (groups : List Bool) (hq : Quantified q) :
    ∃ kind, ∀ rest, scan .atom groups (q ++ rest) = scan kind groups rest := by
  cases hq with
  | once => exact ⟨.atom, fun _ => rfl⟩
  | greedy hcs hq =>
    refine ⟨.quantifier, fun rest => ?_⟩
    rw [List.append_assoc, scan_comments hcs, scan_quantifier hq]
  | lazy hcs hq hds =>
    refine ⟨.lazy, fun rest => ?_⟩
    rw [List.append_assoc, scan_comments hcs, List.append_assoc, scan_quantifier hq, List.append_assoc, scan_comments hds]
    exact scan_reads .question

def Scans : Part → List Char → Prop
  | .alternation, w => ∀ kind groups rest, Closes rest →
      scan kind groups (w ++ rest) = scan .none groups rest
  | .branch, w => ∀ kind groups rest, Closes rest →
      scan kind groups (w ++ rest) = scan .none groups rest
  | .atom, w => ∀ kind groups rest, scan kind groups (w ++ rest) = scan .atom groups rest
  | .constraint, w => ∀ kind groups rest,
      scan kind groups (w ++ rest) = scan .constraint groups rest

theorem scans_group {lookaround : Bool} {o a : List Char} (ho : o ∈ openers lookaround)
    (ha : Scans .alternation a) (kind : Kind) (groups : List Bool) (rest : List Char) :
    scan kind groups (o ++ (a ++ [')']) ++ rest) = scan (closed lookaround) groups rest := by
  have hplain : (a ++ ')' :: rest).head? ≠ some '?' := by
    intro hq
    cases a with
    | nil => cases hq
    | cons c cs =>
      obtain rfl : c = '?' := Option.some.inj hq
      -- an alternation is let through, and a `?` at its front would not be
      have hsome : scan .none [] ('?' :: (cs ++ [])) = some .quantifierOperand :=
        scan_reads .question
      have hnone : scan .none [] ('?' :: cs ++ []) = scan .none [] [] := ha .none [] [] closes_nil
      rw [scan_nil] at hnone
      cases hsome.symm.trans hnone
  have htext : o ++ (a ++ [')']) ++ rest = o ++ (a ++ ')' :: rest) := by simp
  rw [htext, scan_reads (.opener ho fun _ => hplain)]
  exact (ha .none (lookaround :: groups) (')' :: rest) (closes_close rest)).trans
    (scan_close .none (lookaround :: groups) rest)

theorem scans_of_derives {part : Part} {w : List Char} (h : Derives part w) : Scans part w := by
  induction h with
  | single _ ih => exact ih
  | @bar b a _ _ ihb iha =>
    intro kind groups rest hrest
    have htext : b ++ '|' :: a ++ rest = b ++ '|' :: (a ++ rest) := by simp
    rw [htext, ihb kind groups _ (closes_bar _)]
    exact (scan_bar .none groups _).trans (iha .none groups rest hrest)
  | nil =>
    intro kind groups rest hrest
    exact hrest.1 kind .none groups
  | @quantified a q b _ hq _ iha ihb =>
    intro kind groups rest hrest
    obtain ⟨kind', hkind⟩ := scan_quantified groups hq
    rw [List.append_assoc, List.append_assoc, iha, hkind]
    exact ihb kind' groups rest hrest
  | @brace q b hq _ hnext ihb =>
    intro kind groups rest hrest
    obtain ⟨kind', hkind⟩ := scan_quantified groups hq
    have hdigit : (q ++ b ++ rest).head?.any Char.isDigit = false := by
      cases htext : q ++ b with
      | nil => exact hrest.2
      | cons c cs => simpa [htext] using hnext
    refine (scan_reads (.brace hdigit)).trans ?_
    rw [List.append_assoc]
    exact (hkind _).trans (ihb kind' groups rest hrest)
  | constraint _ _ ihc ihb =>
    intro kind groups rest hrest
    rw [List.append_assoc, ihc]
    exact ihb .constraint groups rest hrest
  | comment hc _ ihb =>
    intro kind groups rest hrest
    rw [List.append_assoc, scan_reads (.comment hc)]
    exact ihb kind groups rest hrest
  | literal hc => exact fun kind groups rest => scan_reads (.literal hc)
  | escape he hc =>
    intro kind groups rest
    refine (scan_reads (.escape he)).trans ?_
    rw [hc]
    rfl
  | bracket hb => exact fun kind groups rest => scan_reads (.bracket hb)
  | group ho _ iha => exact scans_group ho iha
  | anchor hc => exact fun kind groups rest => scan_reads (.anchor hc)
  | constraintEscape he hc =>
    intro kind groups rest
    refine (scan_reads (.escape he)).trans ?_
    rw [hc]
    rfl
  | lookaround ho _ iha => exact scans_group ho iha

/-! ## What is let through, the grammar derives -/

/-- What follows in a branch and its alternation, by what it follows. -/
def Cont : Kind → List Char → Prop
  | .atom, w => ∃ q v, w = q ++ v ∧ Quantified q ∧ Derives .alternation v
  | .quantifier, w => Derives .alternation w ∨
      ∃ cs v, w = cs ++ '?' :: v ∧ Comments cs ∧ Derives .alternation v
  | _, w => Derives .alternation w

/-- The same with groups open, the innermost first: each is closed in turn. -/
def Completes : Kind → List Bool → List Char → Prop
  | kind, [], s => Cont kind s
  | kind, lookaround :: groups, s =>
    ∃ u v, s = u ++ ')' :: v ∧ Cont kind u ∧ Completes (closed lookaround) groups v

theorem cont_of_alternation {w : List Char} (h : Derives .alternation w) : Cont kind w := by
  cases kind with
  | atom => exact ⟨[], w, rfl, .once, h⟩
  | quantifier => exact .inl h
  | _ => exact h

theorem cont_nil (kind : Kind) : Cont kind [] := cont_of_alternation (.single .nil)

theorem alternation_prepend {x v : List Char}
    (h : ∀ b, b <+: v → Derives .branch b → Derives .branch (x ++ b))
    (hv : Derives .alternation v) : Derives .alternation (x ++ v) := by
  cases hv with
  | single hb => exact .single (h v List.prefix_rfl hb)
  | @bar b a hb ha =>
    rw [← List.append_assoc]
    exact .bar (h b (List.prefix_append b _) hb) ha

theorem alternation_atom {a w : List Char} (ha : Derives .atom a) (h : Cont .atom w) : Derives .alternation (a ++ w) := by
  obtain ⟨q, v, rfl, hq, hv⟩ := h
  rw [← List.append_assoc]
  refine alternation_prepend (fun b _ hb => ?_) hv
  rw [List.append_assoc]
  exact .quantified ha hq hb

theorem alternation_brace {w : List Char} (hnext : w.head?.any Char.isDigit = false)
    (h : Cont .atom w) : Derives .alternation ('{' :: w) := by
  obtain ⟨q, v, rfl, hq, hv⟩ := h
  have := alternation_prepend (x := '{' :: q) (fun b hpre hb => ?_) hv
  · exact this
  refine .brace hq hb ?_
  obtain ⟨more, rfl⟩ := hpre
  cases htext : q ++ b with
  | nil => rfl
  | cons c cs =>
    rw [← List.append_assoc, htext] at hnext
    exact hnext

theorem alternation_constraint {c w : List Char} (hc : Derives .constraint c)
    (h : Cont .constraint w) : Derives .alternation (c ++ w) :=
  alternation_prepend (fun _ _ hb => .constraint hc hb) h

theorem cont_comment {c w : List Char} (hc : Comment c) (h : Cont kind w) : Cont kind (c ++ w) := by
  have halt {v : List Char} (hv : Derives .alternation v) : Derives .alternation (c ++ v) :=
    alternation_prepend (fun _ _ hb => .comment hc hb) hv
  cases kind with
  | atom =>
    obtain ⟨q, v, rfl, hq, hv⟩ := h
    cases hq with
    | once => exact cont_of_alternation (halt hv)
    | greedy hcs hq => exact ⟨_, v, by simp, .greedy (.cons hc hcs) hq, hv⟩
    | lazy hcs hq hds => exact ⟨_, v, by simp, .lazy (.cons hc hcs) hq hds, hv⟩
  | quantifier =>
    rcases h with hv | ⟨cs, v, rfl, hcs, hv⟩
    · exact .inl (halt hv)
    · exact .inr ⟨c ++ cs, v, by simp, .cons hc hcs, hv⟩
  | none => exact halt h
  | lazy => exact halt h
  | constraint => exact halt h

theorem cont_quantifier {q w : List Char} (hq : Quantifier q) (h : Cont .quantifier w) : Cont .atom (q ++ w) := by
  rcases h with hv | ⟨cs, v, rfl, hcs, hv⟩
  · exact ⟨q, w, rfl, .greedy .nil hq, hv⟩
  · exact ⟨_, v, by simp, .lazy .nil hq hcs, hv⟩

theorem completes_prepend {kind kind' : Kind} {t s : List Char}
    (h : ∀ u, u <+: s → Cont kind' u → Cont kind (t ++ u)) (hs : Completes kind' groups s) :
    Completes kind groups (t ++ s) := by
  cases groups with
  | nil => exact h s List.prefix_rfl hs
  | cons lookaround groups =>
    obtain ⟨u, v, rfl, hu, hv⟩ := hs
    exact ⟨t ++ u, v, by simp, h u (List.prefix_append u _) hu, hv⟩

theorem completes_item {t s : List Char} {kind kind' : Kind}
    {groups groups' : List Bool} (hr : Reads item t s) (hfinal : t ≠ [BACKSLASH])
    (hstep : step kind groups item = .ok (kind', groups')) (hs : Completes kind' groups' s) :
    Completes kind groups (t ++ s) := by
  have hatom {a : List Char} (ha : Derives .atom a) {v : List Char}
      (hv : Completes .atom groups v) : Completes kind groups (a ++ v) :=
    completes_prepend (fun _ _ hu => cont_of_alternation (alternation_atom ha hu)) hv
  have hconstraint {c : List Char} (hc : Derives .constraint c) {v : List Char}
      (hv : Completes .constraint groups v) : Completes kind groups (c ++ v) :=
    completes_prepend (fun _ _ hu => cont_of_alternation (alternation_constraint hc hu)) hv
  cases hr with
  | literal hc =>
    cases hstep
    exact hatom (.literal hc) hs
  | brace hnext =>
    cases hstep
    refine completes_prepend (fun u hpre hu => cont_of_alternation (alternation_brace ?_ hu)) hs
    obtain ⟨more, rfl⟩ := hpre
    cases u with
    | nil => rfl
    | cons c cs => exact hnext
  | escape he =>
    split at hstep
    · next hc =>
        cases hstep
        exact hconstraint (.constraintEscape he hc) hs
    · next hc =>
        cases hstep
        exact hatom (.escape he (by simpa using hc)) hs
  | final => exact absurd rfl hfinal
  | bracket hb =>
    cases hstep
    exact hatom (.bracket hb) hs
  | anchor hc =>
    cases hstep
    exact hconstraint (.anchor hc) hs
  | comment hc =>
    cases hstep
    exact completes_prepend (fun _ _ hu => cont_comment hc hu) hs
  | @opener lookaround o _ ho _ =>
    cases hstep
    obtain ⟨u, v, rfl, hu, hv⟩ := hs
    have htext : t ++ (u ++ ')' :: v) = t ++ (u ++ [')']) ++ v := by simp
    rw [htext]
    cases lookaround with
    | true => exact hconstraint (.lookaround ho hu) hv
    | false => exact hatom (.group ho hu) hv
  | close =>
    cases groups with
    | nil => cases hstep
    | cons lookaround groups =>
      cases hstep
      exact ⟨[], s, rfl, cont_nil kind, hs⟩
  | bar =>
    cases hstep
    have hbar {u : List Char} (hu : Cont .none u) : Derives .alternation ('|' :: u) :=
      .bar .nil hu
    exact completes_prepend (fun _ _ hu => cont_of_alternation (hbar hu)) hs
  | loop hq _ =>
    simp only [step] at hstep
    split at hstep
    · next hk =>
        subst hk
        cases hstep
        exact completes_prepend (fun _ _ hu => cont_quantifier hq hu) hs
    · cases hstep
  | question =>
    simp only [step] at hstep
    split at hstep
    · next hk =>
        subst hk
        cases hstep
        have hlazy {u : List Char} (hu : Cont .lazy u) : Cont .quantifier ('?' :: u) :=
          .inr ⟨[], u, rfl, .nil, hu⟩
        exact completes_prepend (fun _ _ hu => hlazy hu) hs
    split at hstep
    · next hk =>
        subst hk
        cases hstep
        exact completes_prepend (fun _ _ hu => cont_quantifier .question hu) hs
    · cases hstep

/-- A lone backslash at the pattern's end, or nothing. -/
def Final (tail : List Char) : Prop := tail = [] ∨ tail = [BACKSLASH]

theorem final_of_reads {rest : List Char} (h : Reads item [BACKSLASH] rest) : item = .atom ∧ rest = [] := by
  generalize ht : [BACKSLASH] = t at h
  cases h with
  | literal hc =>
    obtain rfl := (List.cons.inj ht).1
    cases hc
  | brace => exact absurd ht (by decide)
  | escape he =>
    obtain rfl := (List.cons.inj ht).2
    cases he
  | final => exact ⟨rfl, rfl⟩
  | bracket hb =>
    obtain ⟨body, rfl, -⟩ := hb
    exact absurd (List.cons.inj ht).1 (by decide)
  | anchor hc =>
    obtain rfl := (List.cons.inj ht).1
    exact absurd hc (by decide)
  | comment hc =>
    cases hc
    exact absurd (List.cons.inj ht).1 (by decide)
  | @opener lookaround _ _ ho _ =>
    subst ht
    cases lookaround <;> exact absurd ho (by decide)
  | close => exact absurd ht (by decide)
  | bar => exact absurd ht (by decide)
  | loop hq _ =>
    have hhead : ∃ c cs, t = c :: cs ∧ c ≠ BACKSLASH := by
      cases hq with
      | bound hq _ _ => cases hq <;> exact ⟨'{', _, rfl, by decide⟩
      | star => exact ⟨'*', [], rfl, by decide⟩
      | plus => exact ⟨'+', [], rfl, by decide⟩
      | question => exact ⟨'?', [], rfl, by decide⟩
    obtain ⟨c, cs, rfl, hc⟩ := hhead
    exact absurd (List.cons.inj ht).1.symm hc
  | question => exact absurd ht (by decide)

theorem Reads.before {t s u : List Char} (h : Reads item t s) (hfinal : t ≠ [BACKSLASH])
    (hhead : ∀ c, u.head? = some c → s.head? = some c ∨ c.isDigit = false ∧ c ≠ '?') : Reads item t u := by
  cases h with
  | literal hc => exact .literal hc
  | brace hnext =>
    refine .brace ?_
    cases hu : u.head? with
    | none => rfl
    | some c =>
      rcases hhead c hu with hs | ⟨hdigit, -⟩
      · rwa [hs] at hnext
      · exact hdigit
  | escape he => exact .escape he
  | final => exact absurd rfl hfinal
  | bracket hb => exact .bracket hb
  | anchor hc => exact .anchor hc
  | comment hc => exact .comment hc
  | opener ho hplain =>
    refine .opener ho fun ht hu => ?_
    rcases hhead '?' hu with hs | ⟨-, hne⟩
    · exact hplain ht hs
    · exact hne rfl
  | close => exact .close
  | bar => exact .bar
  | loop hq hne => exact .loop hq hne
  | question => exact .question

theorem reads_of_append {t u tail : List Char}
    (h : Reads item t (u ++ tail)) (hfinal : t ≠ [BACKSLASH]) : Reads item t u :=
  h.before hfinal fun c hc => .inl (by rw [List.head?_append, hc]; rfl)

theorem completes_of_scan {s : List Char}
    (h : scan kind groups s = none) :
    ∃ u tail, s = u ++ tail ∧ Final tail ∧ Completes kind groups u := by
  induction hn : s.length using Nat.strong_induction_on generalizing kind groups s with
  | _ n ih =>
    cases s with
    | nil =>
      rw [scan_nil] at h
      split at h
      · next hg =>
          subst hg
          exact ⟨[], [], rfl, .inl rfl, cont_nil kind⟩
      · cases h
    | cons c cs =>
      cases hitem : readItem c cs with
      | error reason => cases (scan_error hitem).symm.trans h
      | ok read =>
        obtain ⟨item, rest⟩ := read
        obtain ⟨t, htext, hreads⟩ := reads_of_readItem hitem
        rw [scan_readItem hitem, after] at h
        cases hstep : step kind groups item with
        | error reason =>
          rw [hstep] at h
          cases h
        | ok next =>
          obtain ⟨kind', groups'⟩ := next
          rw [hstep] at h
          have hlt : rest.length < n := by
            have := (readItem_suffix hitem).length_le
            simp only [← hn, List.length_cons]
            omega
          obtain ⟨u, tail, rfl, htail, hu⟩ := ih rest.length hlt h rfl
          by_cases hfinal : t = [BACKSLASH]
          · -- the pattern ends in the backslash read here
            subst hfinal
            obtain ⟨rfl, hnil⟩ := final_of_reads hreads
            cases hstep
            obtain ⟨rfl, rfl⟩ := List.append_eq_nil_iff.mp hnil
            refine ⟨[], [BACKSLASH], htext, .inr rfl, ?_⟩
            cases groups with
            | nil => exact cont_nil kind
            | cons lookaround groups =>
              obtain ⟨u, v, huv, -⟩ := hu
              cases (List.append_eq_nil_iff.mp huv.symm).2
          · refine ⟨t ++ u, tail, by rw [htext, List.append_assoc], htail, ?_⟩
            exact completes_item (reads_of_append hreads hfinal) hfinal hstep hu

theorem scan_eq_none {pattern : List Char} : postgresSyntaxReason pattern = none ↔
      ∃ u tail, pattern = u ++ tail ∧ Final tail ∧ Derives .alternation u := by
  constructor
  · exact completes_of_scan
  · rintro ⟨u, tail, rfl, htail, hu⟩
    have hscan : scan .none [] (u ++ tail) = scan .none [] tail := by
      refine scans_of_derives hu .none [] tail ?_
      rcases htail with rfl | rfl
      · exact closes_nil
      · exact closes_final
    refine hscan.trans ?_
    rcases htail with rfl | rfl
    · rw [scan_nil, if_pos rfl]
    · rw [scan_final, scan_nil, if_pos rfl]

/-! ## Offences -/

/-- What the grammar has no place for at the front of the rest, behind what is of a kind and
with groups open, and what is said of it. -/
inductive Offence : Kind → List Bool → List Char → Reason → Prop where
  | escape {kind : Kind} {groups : List Bool} {cs : List Char} (h : NoEscape cs) :
      Offence kind groups (BACKSLASH :: cs) .invalidEscape
  /-- In a bracket expression, before anything closes it. -/
  | bracketEscape {kind : Kind} {groups : List Bool} {cs : List Char}
      (h : Items BadEscape (bracketHead cs)) : Offence kind groups ('[' :: cs) .invalidEscape
  | bracket {kind : Kind} {groups : List Bool} {cs : List Char}
      (h : Items Unclosed (bracketHead cs)) : Offence kind groups ('[' :: cs) .brackets
  | comment {kind : Kind} {groups : List Bool} {cs : List Char} (h : ')' ∉ cs) :
      Offence kind groups ('(' :: '?' :: '#' :: cs) .parens
  | group {kind : Kind} {groups : List Bool} {cs : List Char}
      (hopener : ∀ lookaround, ∀ o ∈ openers lookaround, o ≠ ['('] → ¬ o <+: '(' :: '?' :: cs)
      (hcomment : cs.head? ≠ some '#') : Offence kind groups ('(' :: '?' :: cs) .quantifierOperand
  | close {kind : Kind} {cs : List Char} : Offence kind [] (')' :: cs) .parens
  | quantifier {kind : Kind} {groups : List Bool} {q rest : List Char} (hq : Quantifier q)
      (hkind : kind ≠ .atom) (hlazy : q = ['?'] → kind ≠ .quantifier) :
      Offence kind groups (q ++ rest) .quantifierOperand
  | braces {kind : Kind} {groups : List Bool} {cs : List Char}
      (hdigit : cs.head?.any Char.isDigit = true)
      (h : ∀ q rest low high, '{' :: cs = q ++ rest → ¬ Bound q low high) :
      Offence kind groups ('{' :: cs) .braces
  | counts {kind : Kind} {groups : List Bool} {q rest : List Char} {low : ℕ} {high : Option ℕ}
      (hq : Bound q low high)
      (h : ¬ (low ≤ MAX_REPETITION_COUNT ∧ ∀ n ∈ high, n ≤ MAX_REPETITION_COUNT ∧ low ≤ n)) :
      Offence kind groups (q ++ rest) .repetitionCount
  | unbalanced {kind : Kind} {groups : List Bool} (h : groups ≠ []) :
      Offence kind groups [] .parens

/-- What is read of a pattern, item by item, before the rest. -/
inductive Beginning : List Char → List Char → Kind → List Bool → Prop where
  | start {rest : List Char} : Beginning [] rest .none []
  | item {pre t rest : List Char} {kind kind' : Kind} {groups groups' : List Bool} {item : Item}
      (h : Beginning pre (t ++ rest) kind groups) (hr : Reads item t rest)
      (hstep : step kind groups item = .ok (kind', groups')) :
      Beginning (pre ++ t) rest kind' groups'

/-- The first item the grammar has no place for, and what is said of it. -/
def LeftmostOffence (pattern : List Char) (reason : Reason) : Prop :=
  ∃ pre rest kind groups, pattern = pre ++ rest ∧ Beginning pre rest kind groups ∧ Offence kind groups rest reason

theorem readItem_brace {cs : List Char} (hdigit : cs.head?.any Char.isDigit = true) :
    readItem '{' cs = (boundRest cs).map (Item.loop, ·) := by
  have hback : '{' ≠ BACKSLASH := by decide
  simp [readItem, hback, hdigit]

variable {reason : Reason}

theorem readItem_bracket_error {cs : List Char}
    (h : bracketRest (bracketHead cs) = .error reason) : readItem '[' cs = .error reason := by
  have hback : '[' ≠ BACKSLASH := by decide
  simp only [readItem, hback, if_false, if_true, h]
  rfl

theorem readGroup_error {cs : List Char}
    (hopener : ∀ lookaround, ∀ o ∈ openers lookaround, o ≠ ['('] → ¬ o <+: '(' :: '?' :: cs)
    (hcomment : cs.head? ≠ some '#') : readGroup ('?' :: cs) = .error .quantifierOperand := by
  unfold readGroup
  split
  · next tail heq =>
      obtain rfl := (List.cons.inj heq).2
      exact absurd rfl hcomment
  · next tail heq =>
      exact (hopener false ['(', '?', ':'] (by decide) (by decide)
        ⟨tail, congrArg ('(' :: ·) heq.symm⟩).elim
  · next tail heq =>
      exact (hopener true ['(', '?', '='] (by decide) (by decide)
        ⟨tail, congrArg ('(' :: ·) heq.symm⟩).elim
  · next tail heq =>
      exact (hopener true ['(', '?', '!'] (by decide) (by decide)
        ⟨tail, congrArg ('(' :: ·) heq.symm⟩).elim
  · next tail heq =>
      exact (hopener true ['(', '?', '<', '='] (by decide) (by decide)
        ⟨tail, congrArg ('(' :: ·) heq.symm⟩).elim
  · next tail heq =>
      exact (hopener true ['(', '?', '<', '!'] (by decide) (by decide)
        ⟨tail, congrArg ('(' :: ·) heq.symm⟩).elim
  · rfl
  · next hno => exact absurd rfl (hno cs)

theorem scan_offence {rest : List Char}
    (h : Offence kind groups rest reason) : scan kind groups rest = some reason := by
  cases h with
  | escape h =>
    refine scan_error ?_
    simp [readItem, escape_eq_none.mpr h]
  | bracketEscape h =>
    exact scan_error (readItem_bracket_error
      ((@bracketRest_eq (.error .invalidEscape) _ (by simp)).mpr h))
  | bracket h =>
    exact scan_error (readItem_bracket_error
      ((@bracketRest_eq (.error .brackets) _ (by simp)).mpr h))
  | @comment _ cs h =>
    refine scan_error ?_
    have hread : readGroup ('?' :: '#' :: cs) = .error .parens := by simp [readGroup, h]
    exact hread
  | group hopener hcomment => exact scan_error (readGroup_error hopener hcomment)
  | close => exact scan_close kind [] _
  | @quantifier _ q tail hq hkind hlazy =>
    by_cases hne : q = ['?']
    · subst hne
      refine (scan_reads .question).trans ?_
      simp [after, step, hkind, hlazy rfl]
    · rw [scan_reads (.loop hq hne)]
      simp [after, step, hkind]
  | @braces _ cs hdigit h =>
    refine scan_error ?_
    rw [readItem_brace hdigit]
    unfold boundRest
    split
    · next low high tail hcounts =>
        obtain ⟨q, hq, hbound⟩ := bound_of_boundCounts hdigit hcounts
        exact absurd hbound (h q tail low high hq)
    · rfl
  | @counts _ q tail low high hq h =>
    obtain ⟨cs, htext, hdigit, hcounts⟩ := boundCounts_of tail hq
    have hbad : badCounts low high = true := by
      by_contra hno
      exact h (badCounts_eq_false.mp (by simpa using hno))
    rw [htext]
    refine scan_error ?_
    rw [readItem_brace hdigit]
    simp only [boundRest, hcounts, hbad, if_true]
    rfl
  | unbalanced h => rw [scan_nil, if_neg h]

theorem offence_of_readItem {cs : List Char}
    (h : readItem c cs = .error reason) :
    Offence kind groups (c :: cs) reason := by
  unfold readItem at h
  split at h
  · next hb =>
      subst hb
      split at h
      · next he =>
          cases h
          exact .escape (escape_eq_none.mp he)
      · cases h
  split at h
  · next hc =>
      subst hc
      cases hread : bracketRest (bracketHead cs) with
      | ok tail =>
        rw [hread] at h
        cases h
      | error reason' =>
        rw [hread] at h
        cases h
        have hitems := items_of_bracketRest (bracketHead cs)
        rw [hread] at hitems
        rcases bracketRest_error hread with rfl | rfl
        · exact .bracketEscape hitems
        · exact .bracket hitems
  split at h
  · next hc =>
      subst hc
      unfold readGroup at h
      split at h
      · split at h
        · cases h
        · next hclose =>
            cases h
            exact .comment (by simpa using hclose)
      · cases h
      · cases h
      · cases h
      · cases h
      · cases h
      · next tail hcomment hplain hpos hneg hbpos hbneg =>
          cases h
          refine .group ?_ ?_
          · intro lookaround o ho hne hpre
            obtain ⟨more, htext⟩ := hpre
            have htail {c : Char} {ds : List Char} (h : '(' :: '?' :: c :: ds = '(' :: '?' :: tail) :
                tail = c :: ds := (List.cons.inj (List.cons.inj h).2).2.symm
            cases lookaround with
            | true =>
              simp only [openers, if_true, List.mem_cons, List.not_mem_nil, or_false] at ho
              rcases ho with rfl | rfl | rfl | rfl
              · exact hpos more (htail htext)
              · exact hneg more (htail htext)
              · exact hbpos more (htail htext)
              · exact hbneg more (htail htext)
            | false =>
              simp only [openers, Bool.false_eq_true, if_false, List.mem_cons, List.not_mem_nil, or_false] at ho
              rcases ho with rfl | rfl
              · exact hne rfl
              · exact hplain more (htail htext)
          · intro hhash
            cases tail with
            | nil => cases hhash
            | cons d ds =>
              obtain rfl : d = '#' := Option.some.inj hhash
              exact hcomment ds rfl
      · cases h
  split at h
  · cases h
  split at h
  · cases h
  split at h
  · cases h
  split at h
  · cases h
  split at h
  · cases h
  split at h
  · next hc =>
      obtain ⟨hbrace, hdigit⟩ := (Bool.and_eq_true _ _).mp hc
      obtain rfl : c = '{' := of_decide_eq_true hbrace
      cases hread : boundRest cs with
      | ok tail =>
        rw [hread] at h
        cases h
      | error reason' =>
        rw [hread] at h
        cases h
        unfold boundRest at hread
        split at hread
        · next low high tail hcounts =>
            split at hread
            · next hbad =>
                cases hread
                obtain ⟨q, hq, hbound⟩ := bound_of_boundCounts hdigit hcounts
                rw [hq]
                refine .counts hbound fun hgood => ?_
                rw [badCounts_eq_false.mpr hgood] at hbad
                cases hbad
            · cases hread
        · next hno =>
            cases hread
            refine .braces hdigit fun q rest low high hq hbound => ?_
            obtain ⟨cs', htext, -, hcounts⟩ := boundCounts_of rest hbound
            obtain rfl := (List.cons.inj (hq.trans htext)).2
            exact hno low high rest hcounts
  · cases h

/-! ## The leftmost offence -/

theorem scan_beginning {pre rest : List Char}
    (h : Beginning pre rest kind groups) :
    scan .none [] (pre ++ rest) = scan kind groups rest := by
  induction h with
  | start => rfl
  | item _ hr hstep ih =>
    rw [List.append_assoc, ih, scan_reads hr, after, hstep]

theorem offence_of_scan {pre rest : List Char}
    (hpre : Beginning pre rest kind groups)
    (h : scan kind groups rest = some reason) : LeftmostOffence (pre ++ rest) reason := by
  induction hn : rest.length using Nat.strong_induction_on generalizing pre rest kind groups with
  | _ n ih =>
    cases rest with
    | nil =>
      rw [scan_nil] at h
      split at h
      · cases h
      · next hg =>
          cases h
          exact ⟨pre, [], kind, groups, rfl, hpre, .unbalanced hg⟩
    | cons c cs =>
      cases hitem : readItem c cs with
      | error reason' =>
        cases (scan_error hitem).symm.trans h
        exact ⟨pre, c :: cs, kind, groups, rfl, hpre, offence_of_readItem hitem⟩
      | ok read =>
        obtain ⟨item, rest⟩ := read
        obtain ⟨t, htext, hreads⟩ := reads_of_readItem hitem
        rw [scan_readItem hitem, after] at h
        rw [htext] at hpre ⊢
        cases hstep : step kind groups item with
        | ok next =>
          obtain ⟨kind', groups'⟩ := next
          rw [hstep] at h
          have hlt : rest.length < n := by
            have := (readItem_suffix hitem).length_le
            simp only [← hn, List.length_cons]
            omega
          rw [← List.append_assoc]
          exact ih rest.length hlt (.item hpre hreads hstep) h rfl
        | error reason' =>
          rw [hstep] at h
          cases h
          refine ⟨pre, t ++ rest, kind, groups, rfl, hpre, ?_⟩
          cases hreads with
          | close =>
            cases groups with
            | nil =>
              cases hstep
              exact .close
            | cons lookaround groups => cases hstep
          | loop hq hne =>
            simp only [step] at hstep
            split at hstep
            · cases hstep
            · next hk =>
                cases hstep
                exact .quantifier hq hk fun heq => absurd heq hne
          | question =>
            simp only [step] at hstep
            split at hstep
            · cases hstep
            split at hstep
            · cases hstep
            · next hlazy hatom =>
                cases hstep
                exact .quantifier .question hatom fun _ => hlazy
          | escape =>
            split at hstep
            · cases hstep
            · cases hstep
          | _ => cases hstep

/-! ## What comes before an offence can be completed -/

theorem reads_ne_nil {t rest : List Char} (h : Reads item t rest) : t ≠ [] := by
  cases h with
  | bracket hb =>
    obtain ⟨body, rfl, -⟩ := hb
    exact List.cons_ne_nil _ _
  | comment hc =>
    cases hc
    exact List.cons_ne_nil _ _
  | @opener lookaround o _ ho _ =>
    rintro rfl
    cases lookaround <;> exact absurd ho (by decide)
  | loop hq _ =>
    cases hq with
    | bound hq _ _ => cases hq <;> exact List.cons_ne_nil _ _
    | _ => exact List.cons_ne_nil _ _
  | _ => exact List.cons_ne_nil _ _

/-- What can take the place of the rest behind an item. -/
def Replaces (s rest : List Char) : Prop :=
  s.head? = rest.head? ∨ s.head? = none ∨ s.head? = some ')'

theorem reads_replace {t rest s : List Char} (h : Reads item t rest)
    (hfinal : t ≠ [BACKSLASH]) (hs : Replaces s rest) : Reads item t s := by
  refine h.before hfinal fun c hc => ?_
  rcases hs with h | h | h <;> rw [h] at hc
  · exact .inl hc
  · cases hc
  · obtain rfl := Option.some.inj hc
    exact .inr (by decide)

theorem derives_of_beginning {pre rest s : List Char}
    (h : Beginning pre rest kind groups) (hne : rest ≠ []) (hs : Replaces s rest)
    (hcomplete : Completes kind groups s) : Derives .alternation (pre ++ s) := by
  induction h generalizing s with
  | start => exact hcomplete
  | @item pre t rest kind kind' groups groups' item _ hr hstep ih =>
    have hfinal : t ≠ [BACKSLASH] := by
      rintro rfl
      exact hne (final_of_reads hr).2
    have ht := reads_ne_nil hr
    rw [List.append_assoc]
    refine ih (by simp [ht]) (.inl ?_)
      (completes_item (reads_replace hr hfinal hs) hfinal hstep hcomplete)
    cases t with
    | nil => exact absurd rfl ht
    | cons c cs => rfl

theorem completes_closes (kind : Kind) (groups : List Bool) : Completes kind groups (List.replicate groups.length ')') := by
  induction groups generalizing kind with
  | nil => exact cont_nil kind
  | cons lookaround groups ih => exact ⟨[], _, rfl, cont_nil kind, ih (closed lookaround)⟩

theorem beginning_viable {pre rest : List Char}
    (h : Beginning pre rest kind groups) : ∃ tail, Derives .alternation (pre ++ tail) := by
  cases h with
  | start => exact ⟨[], .single .nil⟩
  | @item pre t _ kind' _ groups' _ item h hr hstep =>
    have ht := reads_ne_nil hr
    have hcloses := completes_closes kind groups
    have hreplaces : Replaces (List.replicate groups.length ')') rest := by
      cases groups with
      | nil => exact .inr (.inl rfl)
      | cons lookaround groups => exact .inr (.inr rfl)
    by_cases hfinal : t = [BACKSLASH]
    · -- the backslash escapes what is put behind it
      subst hfinal
      obtain ⟨rfl, rfl⟩ := final_of_reads hr
      cases hstep
      have hescape : Completes kind' groups
          (BACKSLASH :: '.' :: List.replicate groups.length ')') :=
        completes_item (.escape (.plain rfl)) (by decide) rfl hcloses
      refine ⟨'.' :: List.replicate groups.length ')', ?_⟩
      rw [List.append_assoc]
      exact derives_of_beginning h (List.cons_ne_nil _ _) (.inl rfl) hescape
    · refine ⟨List.replicate groups.length ')', ?_⟩
      rw [List.append_assoc]
      refine derives_of_beginning h (by simp [ht]) (.inl ?_)
        (completes_item (reads_replace hr hfinal hreplaces) hfinal hstep hcloses)
      cases t with
      | nil => exact absurd rfl ht
      | cons c cs => rfl

/-- **The scan answers the grammar**: it has no reason exactly for what the grammar derives, with
or without a backslash that ends it; any other reason is the leftmost offence's, and what comes
before an offence begins a pattern of the grammar. -/
theorem postgresSyntaxReason_spec (pattern : List Char) :
    (postgresSyntaxReason pattern = none ↔
      ∃ u tail, pattern = u ++ tail ∧ Final tail ∧ Derives .alternation u) ∧
    (∀ reason, postgresSyntaxReason pattern = some reason ↔ LeftmostOffence pattern reason) ∧
    ∀ pre rest kind groups, Beginning pre rest kind groups →
      ∃ tail, Derives .alternation (pre ++ tail) := by
  refine ⟨scan_eq_none, fun reason => ⟨?_, ?_⟩, fun _ _ _ _ => beginning_viable⟩
  · exact offence_of_scan .start
  · rintro ⟨pre, rest, kind, groups, rfl, hpre, hoffence⟩
    exact (scan_beginning hpre).trans (scan_offence hoffence)

/-- A lone backslash is let through, and the grammar has none. -/
theorem final_backslash :
    postgresSyntaxReason [BACKSLASH] = none ∧ ¬ Derives .alternation [BACKSLASH] := by
  refine ⟨?_, fun h => ?_⟩
  · exact (scan_final .none []).trans (by rw [scan_nil, if_pos rfl])
  · -- in a group it would escape what closes it
    have hclosed : scan .none [false] [BACKSLASH, ')'] = scan .none [false] [')'] :=
      scans_of_derives h .none [false] [')'] (closes_close [])
    have hescaped : scan .none [false] [BACKSLASH, ')'] = scan .atom [false] [] :=
      scan_reads (.escape (.plain rfl))
    have hopen : scan .none [false] [')'] = scan .atom [] [] := scan_close .none [false] []
    rw [hescaped, hopen, scan_nil, scan_nil] at hclosed
    cases hclosed

end RegexSyntax
