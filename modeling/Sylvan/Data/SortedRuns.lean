-- SUMMARY: Lists sorted strictly by a key, and the best of a sort that drops only what cannot be among them.
import Mathlib.Data.List.Induction
import Mathlib.Data.List.Sort
import Mathlib.Order.Basic

/-!
# Sorted runs

A list in strictly ascending order of a key is determined by its elements. A
sort whose input leaves out elements that have `k` better ones each still has the
same first `k`. The elements of a sorted list that share a key stand side by side, and
one walk groups them.
-/

namespace SortedRuns

variable {α β κ : Type*} [LinearOrder κ] {key : α → κ}

/-- Strictly ascending by `key`. -/
def SortedBy (key : α → κ) (l : List α) : Prop := l.Pairwise fun a b => key a < key b

instance (key : α → κ) (l : List α) : Decidable (SortedBy key l) :=
  inferInstanceAs (Decidable (l.Pairwise fun a b => key a < key b))

def sortBy (key : α → κ) (l : List α) : List α := l.insertionSort fun a b => key a ≤ key b

theorem perm_sortBy (key : α → κ) (l : List α) : (sortBy key l).Perm l :=
  List.perm_insertionSort _ l

instance total_le_key (key : α → κ) : Std.Total fun a b => key a ≤ key b := ⟨fun a b => le_total (key a) (key b)⟩

instance trans_le_key (key : α → κ) : IsTrans α fun a b => key a ≤ key b := ⟨fun _ _ _ => le_trans⟩

theorem pairwise_sortBy (key : α → κ) (l : List α) : (sortBy key l).Pairwise fun a b => key a ≤ key b :=
  List.pairwise_insertionSort _ l

variable {l : List α}

omit [LinearOrder κ] in
theorem pairwise_ne_of_nodup (h : (l.map key).Nodup) : l.Pairwise fun a b => key a ≠ key b := List.pairwise_map.mp h

theorem sortedBy_of_le (hle : l.Pairwise fun a b => key a ≤ key b)
    (h : (l.map key).Nodup) : SortedBy key l :=
  (hle.and (pairwise_ne_of_nodup h)).imp fun hab => lt_of_le_of_ne hab.1 hab.2

theorem sortedBy_sortBy (h : (l.map key).Nodup) : SortedBy key (sortBy key l) :=
  sortedBy_of_le (pairwise_sortBy key l)
    (((perm_sortBy key l).map key).nodup_iff.mpr h)

theorem SortedBy.nodup_keys (h : SortedBy key l) : (l.map key).Nodup :=
  List.pairwise_map.mpr (h.imp fun hab => hab.ne)

theorem SortedBy.eq_of_perm {l l' : List α} (h : SortedBy key l) (h' : SortedBy key l')
    (hperm : l.Perm l') : l = l' :=
  List.Perm.eq_of_pairwise (fun _ _ _ _ hab hba => (lt_asymm hab hba).elim) h h' hperm

theorem SortedBy.eq_sortBy {l l' : List α} (h : SortedBy key l) (hperm : l.Perm l') : l = sortBy key l' := by
  have hnodup : (l'.map key).Nodup := ((hperm.map key).nodup_iff.mp h.nodup_keys)
  exact h.eq_of_perm (sortedBy_sortBy hnodup) (hperm.trans (perm_sortBy key l').symm)

theorem sortBy_map (f : α → β) (key : β → κ) (l : List α) : sortBy key (l.map f) = (sortBy (key ∘ f) l).map f :=
  (List.map_insertionSort _ _ f l fun _ _ _ _ => Iff.rfl).symm

theorem SortedBy.countP_lt {l before after : List α} {x : α} (h : SortedBy key l)
    (hl : l = before ++ x :: after) :
    l.countP (fun a => key a < key x) = before.length := by
  subst hl
  obtain ⟨-, hafter, hbefore⟩ := List.pairwise_append.mp h
  have hbelow : before.countP (fun a => key a < key x) = before.length := by
    rw [List.countP_eq_length]
    intro a ha
    simpa using hbefore a ha x (by simp)
  have habove : after.countP (fun a => key a < key x) = 0 := by
    rw [List.countP_eq_zero]
    intro a ha
    simpa using ((List.pairwise_cons.mp hafter).1 a ha).le
  rw [List.countP_append, List.countP_cons, hbelow, habove]
  simp

/-- Sorting only the elements `p` keeps finds the same best `k`, when every
element left out has `k` better ones. -/
theorem take_sortBy_filter {p : α → Bool} {k : ℕ} (hnodup : (l.map key).Nodup)
    (hdropped : ∀ x ∈ l, p x = false → k ≤ l.countP fun a => key a < key x) :
    (sortBy key (l.filter p)).take k = (sortBy key l).take k := by
  set s := sortBy key l
  have hs : SortedBy key s := sortedBy_sortBy hnodup
  have hperm : s.Perm l := perm_sortBy key l
  have hsorted : SortedBy key (s.filter p) := hs.filter p
  have hfilter : sortBy key (l.filter p) = s.filter p := (hsorted.eq_sortBy (hperm.filter p)).symm
  have hkept : ∀ x ∈ s.take k, p x = true := by
    intro x hx
    by_contra hp
    obtain ⟨before, after, hsplit⟩ := List.append_of_mem hx
    have hlen : before.length < k := by
      have hle := congrArg List.length hsplit
      simp only [List.length_take, List.length_append, List.length_cons] at hle
      omega
    have hwhole : s = before ++ x :: (after ++ s.drop k) :=
      (List.take_append_drop k s).symm.trans (by rw [hsplit]; simp)
    have hcount := hs.countP_lt hwhole
    have hmem : x ∈ l := hperm.mem_iff.mp (List.mem_of_mem_take hx)
    have hbetter := hdropped x hmem (by simpa using hp)
    rw [← hperm.countP_eq, hcount] at hbetter
    omega
  rw [hfilter]
  conv_lhs => rw [← List.take_append_drop k s]
  rw [List.filter_append, List.filter_eq_self.mpr hkept, List.take_append, List.take_take, Nat.min_self]
  by_cases hlen : k ≤ s.length
  · have hzero : k - (s.take k).length = 0 := by
      rw [List.length_take]
      omega
    rw [hzero, List.take_zero, List.append_nil]
  · have hdrop : s.drop k = [] := List.drop_of_length_le (by omega)
    simp [hdrop]

theorem while_eq_filter {p : α → Bool} {k : κ} (h : l.Pairwise fun a b => key a ≤ key b)
    (hk : ∀ a ∈ l, k ≤ key a) (hp : ∀ a ∈ l, p a = true ↔ key a = k) :
    l.takeWhile p = l.filter p ∧ l.dropWhile p = l.filter fun a => !p a := by
  induction l with
  | nil => exact ⟨rfl, rfl⟩
  | cons a l ih =>
    obtain ⟨hle, hrest⟩ := List.pairwise_cons.mp h
    by_cases ha : p a = true
    · obtain ⟨htake, hdrop⟩ := ih hrest (fun b hb => hk b (List.mem_cons_of_mem a hb))
        fun b hb => hp b (List.mem_cons_of_mem a hb)
      simp [ha, htake, hdrop]
    · -- every key behind it is greater
      have hne : ∀ b ∈ a :: l, p b = false := by
        intro b hb
        rw [Bool.eq_false_iff]
        intro hpb
        have hkey := (hp b hb).mp hpb
        have hle : key a ≤ key b := by
          rcases List.mem_cons.mp hb with rfl | hb
          · exact le_rfl
          · exact hle b hb
        exact ha ((hp a List.mem_cons_self).mpr (le_antisymm (hkey ▸ hle) (hk a List.mem_cons_self)))
      constructor
      · rw [List.takeWhile_cons_of_neg ha, List.filter_eq_nil_iff.mpr fun b hb => by simp [hne b hb]]
      · rw [List.dropWhile_cons_of_neg ha, List.filter_eq_self.mpr fun b hb => by simp [hne b hb]]

/-! ## Grouping a sorted list -/

/-- One more element: it joins the last row when the keys agree, else starts a row. -/
def join (key : α → κ) (put : Option β → α → β) (rows : List (κ × β)) (a : α) : List (κ × β) :=
  match rows.getLast? with
  | some row => if row.1 = key a then rows.dropLast ++ [(row.1, put (some row.2) a)]
      else rows ++ [(key a, put none a)]
  | none => rows ++ [(key a, put none a)]

def group (key : α → κ) (put : Option β → α → β) (l : List α) : List (κ × β) := l.foldl (join key put) []

def gathered (key : α → κ) (put : Option β → α → β) (l : List α) (k : κ) : Option β :=
  (l.filter fun a => key a = k).foldl (fun held a => some (put held a)) none

/-- Rows hold each key of the list once, in ascending order, with what its elements put. -/
structure Grouped (key : α → κ) (put : Option β → α → β) (l : List α) (rows : List (κ × β)) : Prop where
  sorted : SortedBy Prod.fst rows
  keys : ∀ k, k ∈ rows.map Prod.fst ↔ k ∈ l.map key
  values : ∀ row ∈ rows, gathered key put l row.1 = some row.2

theorem gathered_concat (put : Option β → α → β) (l : List α) (a : α) (k : κ) : gathered key put (l ++ [a]) k =
      if key a = k then some (put (gathered key put l k) a) else gathered key put l k := by
  rw [gathered, List.filter_append, List.foldl_append]
  by_cases h : key a = k
  · simp [h, gathered]
  · simp [h, gathered]

theorem gathered_eq_none {put : Option β → α → β} {k : κ} (h : k ∉ l.map key) : gathered key put l k = none := by
  have hnil : l.filter (fun a => key a = k) = [] := by
    rw [List.filter_eq_nil_iff]
    intro a ha hk
    exact h (List.mem_map.mpr ⟨a, ha, by simpa using hk⟩)
  rw [gathered, hnil, List.foldl_nil]

theorem Grouped.join {put : Option β → α → β} {rows : List (κ × β)} {a : α}
    (h : Grouped key put l rows) (hle : ∀ b ∈ l, key b ≤ key a) :
    Grouped key put (l ++ [a]) (join key put rows a) := by
  have hbelow : ∀ row ∈ rows, row.1 ≤ key a := by
    intro row hrow
    obtain ⟨b, hb, hkey⟩ := List.mem_map.mp ((h.keys _).mp (List.mem_map_of_mem hrow))
    exact hkey ▸ hle b hb
  by_cases hlast : ∃ row, rows.getLast? = some row ∧ row.1 = key a
  · -- the last row takes the element
    obtain ⟨row, hrow, hkey⟩ := hlast
    have hsplit : rows = rows.dropLast ++ [row] := (List.dropLast_append_getLast? row hrow).symm
    generalize rows.dropLast = front at hsplit
    subst hsplit
    have hrows : SortedRuns.join key put (front ++ [row]) a = front ++ [(row.1, put (some row.2) a)] := by
      simp [SortedRuns.join, hkey]
    have hfront : ∀ r ∈ front, r.1 < row.1 := by
      intro r hr
      exact (List.pairwise_append.mp h.sorted).2.2 r hr row (by simp)
    rw [hrows]
    refine ⟨?_, ?_, ?_⟩
    · refine List.pairwise_append.mpr ⟨(List.pairwise_append.mp h.sorted).1, List.pairwise_singleton _ _, ?_⟩
      simpa using fun k b hr => hfront (k, b) hr
    · intro k
      have hk := h.keys k
      simp only [List.map_append, List.map_cons, List.map_nil, List.mem_append, List.mem_singleton] at hk ⊢
      rw [hk]
      constructor
      · exact .inl
      · rintro (hmem | rfl)
        · exact hmem
        · exact (h.keys _).mp (by simp [hkey])
    · intro r hr
      rw [gathered_concat]
      rcases List.mem_append.mp hr with hr | hr
      · rw [if_neg fun heq => (hfront r hr).ne (heq.symm.trans hkey.symm)]
        exact h.values r (by simp [hr])
      · rw [List.mem_singleton.mp hr, if_pos hkey.symm, h.values row (by simp)]
  · -- every row's key is below the element's
    have hrows : SortedRuns.join key put rows a = rows ++ [(key a, put none a)] := by
      unfold SortedRuns.join
      cases hget : rows.getLast? with
      | none => rfl
      | some row =>
        simp only
        rw [if_neg fun hkey => hlast ⟨row, hget, hkey⟩]
    have hlt : ∀ row ∈ rows, row.1 < key a := by
      intro row hrow
      refine lt_of_le_of_ne (hbelow row hrow) fun heq => hlast ?_
      obtain ⟨front, last, hsplit⟩ := List.eq_nil_or_concat' rows |>.resolve_left (List.ne_nil_of_mem hrow)
      refine ⟨last, by simp [hsplit], ?_⟩
      subst hsplit
      rcases List.mem_append.mp hrow with hfront | hend
      · have hrowLast : row.1 < last.1 := (List.pairwise_append.mp h.sorted).2.2 row hfront last (by simp)
        exact absurd (hbelow last (by simp)) (not_le.mpr (heq ▸ hrowLast))
      · rw [← List.mem_singleton.mp hend]
        exact heq
    have hnew : key a ∉ l.map key := by
      intro hmem
      obtain ⟨row, hrow, hkey⟩ := List.mem_map.mp ((h.keys _).mpr hmem)
      exact (hlt row hrow).ne hkey
    rw [hrows]
    refine ⟨?_, ?_, ?_⟩
    · refine List.pairwise_append.mpr ⟨h.sorted, List.pairwise_singleton _ _, ?_⟩
      simpa using fun k b hr => hlt (k, b) hr
    · intro k
      simp only [List.map_append, List.map_cons, List.map_nil, List.mem_append, List.mem_singleton]
      rw [h.keys]
    · intro r hr
      rw [gathered_concat]
      rcases List.mem_append.mp hr with hr | hr
      · rw [if_neg fun heq => (hlt r hr).ne heq.symm]
        exact h.values r hr
      · rw [List.mem_singleton.mp hr, if_pos rfl, gathered_eq_none hnew]

/-- **The rows of a sorted list are its keys' groups.** -/
theorem grouped_group (put : Option β → α → β) (hl : l.Pairwise fun a b => key a ≤ key b) :
    Grouped key put l (group key put l) := by
  induction l using List.reverseRecOn with
  | nil => exact ⟨List.Pairwise.nil, by simp [group], by simp [group]⟩
  | append_singleton l a ih =>
    obtain ⟨hl, -, hle⟩ := List.pairwise_append.mp hl
    have hgroup : group key put (l ++ [a]) = join key put (group key put l) a := by simp [group]
    rw [hgroup]
    exact (ih hl).join fun b hb => hle b hb a (by simp)

end SortedRuns
