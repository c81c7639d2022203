-- SUMMARY: Words of kept elements joined by one separator: collected in one pass, or by collapsing runs and trimming.
import Mathlib.Data.List.DropRight

/-!
# Joined words

The words of a list are its runs of kept elements. Joined by a separator, they are what
one pass collects that puts a separator off until the next kept element, and what is left
of the list when runs of other elements become a separator and the ends are trimmed.
-/

namespace Words

variable {α : Type*} {keep : α → Bool} {sep : α}

/-- The joined words, `started` once an element was kept, `pending` when others came since. -/
def joined (keep : α → Bool) (sep : α) : (started pending : Bool) → List α → List α
  | _, _, [] => []
  | started, pending, c :: s =>
    if keep c then (if pending && started then [sep] else []) ++ c :: joined keep sep true false s
    else joined keep sep started true s

/-- Every run of other elements replaced by one separator; `inRun` behind one of them. -/
def collapsed (keep : α → Bool) (sep : α) : (inRun : Bool) → List α → List α
  | _, [] => []
  | inRun, c :: s =>
    if keep c then c :: collapsed keep sep false s
    else (if inRun then [] else [sep]) ++ collapsed keep sep true s

attribute [local simp] joined collapsed

theorem rdropWhile_cons (p : α → Bool) (a : α) (s : List α) :
    (a :: s).rdropWhile p = if s.rdropWhile p = [] ∧ p a = true then [] else a :: s.rdropWhile p := by
  induction s using List.reverseRecOn with
  | nil =>
    have hone : [a] = [] ++ [a] := rfl
    rw [hone, List.rdropWhile_concat, List.rdropWhile_nil]
    by_cases ha : p a = true
    · rw [if_pos ha, if_pos ⟨rfl, ha⟩]
    · rw [if_neg ha, if_neg fun h => ha h.2]
      rfl
  | append_singleton s b ih =>
    rw [← List.cons_append, List.rdropWhile_concat, List.rdropWhile_concat]
    by_cases hb : p b = true
    · rw [if_pos hb, if_pos hb, ih]
    · rw [if_neg hb, if_neg hb, if_neg (by simp)]
      rfl

section Trim

variable [DecidableEq α]

def trim (sep : α) (s : List α) : List α := (s.dropWhile (· = sep)).rdropWhile (· = sep)

theorem rdropWhile_collapsed (hsep : keep sep = false) (s : List α) :
    (sep :: collapsed keep sep true s).rdropWhile (· = sep) = joined keep sep true true s ∧
      (collapsed keep sep false s).rdropWhile (· = sep) = joined keep sep true false s := by
  induction s with
  | nil => exact ⟨by simp [List.rdropWhile], rfl⟩
  | cons c s ih =>
    obtain ⟨hrun, hword⟩ := ih
    rw [collapsed, collapsed, joined, joined]
    by_cases hc : keep c = true
    · have hne : ¬ (decide (c = sep) = true) := by
        rw [decide_eq_true_eq]
        rintro rfl
        rw [hsep] at hc
        cases hc
      have hkept : (c :: collapsed keep sep false s).rdropWhile (· = sep) = c :: joined keep sep true false s := by
        rw [rdropWhile_cons, if_neg fun h => hne h.2, hword]
      rw [if_pos hc, if_pos hc, if_pos hc, if_pos hc]
      refine ⟨?_, hkept⟩
      rw [rdropWhile_cons, hkept, if_neg (by simp)]
      rfl
    · rw [if_neg hc, if_neg hc, if_neg hc, if_neg hc]
      exact ⟨hrun, hrun⟩

theorem dropWhile_collapsed (hsep : keep sep = false) (inRun pending : Bool) (s : List α) :
    ((collapsed keep sep inRun s).dropWhile (· = sep)).rdropWhile (· = sep) = joined keep sep false pending s := by
  induction s generalizing inRun pending with
  | nil => rfl
  | cons c s ih =>
    rw [collapsed, joined]
    by_cases hc : keep c = true
    · have hne : ¬ (decide (c = sep) = true) := by
        rw [decide_eq_true_eq]
        rintro rfl
        rw [hsep] at hc
        cases hc
      rw [if_pos hc, if_pos hc, @List.dropWhile_cons_of_neg α (· = sep) c _ hne, rdropWhile_cons, if_neg fun h => hne h.2,
        (rdropWhile_collapsed hsep s).2, Bool.and_false]
      rfl
    · rw [if_neg hc, if_neg hc]
      cases inRun with
      | true => exact ih true true
      | false =>
        rw [if_neg Bool.false_ne_true, List.singleton_append, List.dropWhile_cons_of_pos (by simp)]
        exact ih true true

/-- **Collapsing and trimming collects the joined words.** -/
theorem trim_collapsed (hsep : keep sep = false) (s : List α) :
    trim sep (collapsed keep sep false s) = joined keep sep false false s :=
  dropWhile_collapsed hsep false false s

end Trim

/-! ## What the words do not depend on -/

theorem joined_pending (pending pending' : Bool) (s : List α) :
    joined keep sep false pending s = joined keep sep false pending' s := by
  cases s with
  | nil => rfl
  | cons c s => rw [joined, joined, Bool.and_false, Bool.and_false]

theorem joined_others {others : List α} (h : ∀ c ∈ others, keep c = false) (hne : others ≠ []) (started pending : Bool)
    (s : List α) : joined keep sep started pending (others ++ s) = joined keep sep started true s := by
  induction others generalizing pending with
  | nil => exact absurd rfl hne
  | cons c others ih =>
    have hc : ¬ keep c = true := by
      rw [h c (by simp)]
      exact Bool.false_ne_true
    rw [List.cons_append, joined, if_neg hc]
    cases others with
    | nil => rfl
    | cons d others => exact ih (fun c hc => h c (List.mem_cons_of_mem _ hc)) (by simp) true

theorem joined_append_others {others : List α} (h : ∀ c ∈ others, keep c = false) (started pending : Bool) (s : List α) :
    joined keep sep started pending (s ++ others) = joined keep sep started pending s := by
  induction s generalizing started pending with
  | nil =>
    cases hothers : others with
    | nil => rfl
    | cons c rest =>
      have hall := @joined_others α keep sep _ h (by simp [hothers]) started pending []
      rwa [List.append_nil, hothers] at hall
  | cons c s ih =>
    rw [List.cons_append, joined, joined, ih, ih]

theorem joined_strip {β : Type*} {f : β → α} {p : β → Bool} (h : ∀ c, p c = true → keep (f c) = false) (s : List β) :
    joined keep sep false false (((s.dropWhile p).rdropWhile p).map f) = joined keep sep false false (s.map f) := by
  have hend : ∀ s : List β, joined keep sep false false ((s.rdropWhile p).map f) = joined keep sep false false (s.map f) := by
    intro s
    have hsplit : s.rdropWhile p ++ s.rtakeWhile p = s := by
      rw [List.rdropWhile, List.rtakeWhile, ← List.reverse_append, List.takeWhile_append_dropWhile, List.reverse_reverse]
    have hothers : ∀ c ∈ (s.rtakeWhile p).map f, keep c = false := by
      intro c hc
      obtain ⟨d, hd, rfl⟩ := List.mem_map.mp hc
      exact h d (List.mem_rtakeWhile_imp hd)
    conv_rhs => rw [← hsplit]
    rw [List.map_append, joined_append_others hothers]
  rw [hend]
  induction s with
  | nil => rfl
  | cons c s ih =>
    by_cases hc : p c = true
    · rw [List.dropWhile_cons_of_pos hc, ih, List.map_cons, joined, if_neg (by rw [h c hc]; exact Bool.false_ne_true)]
      exact joined_pending _ _ _
    · rw [List.dropWhile_cons_of_neg hc]

theorem filter_joined (hsep : keep sep = false) (started pending : Bool) (s : List α) :
    (joined keep sep started pending s).filter keep = s.filter keep := by
  induction s generalizing started pending with
  | nil => rfl
  | cons c s ih =>
    rw [joined]
    by_cases hc : keep c = true
    · rw [if_pos hc, List.filter_append, List.filter_cons_of_pos hc, ih, List.filter_cons_of_pos hc]
      split
      · rw [List.filter_cons_of_neg (by rw [hsep]; exact Bool.false_ne_true)]
        rfl
      · rfl
    · rw [if_neg hc, List.filter_cons_of_neg hc, ih]

end Words
