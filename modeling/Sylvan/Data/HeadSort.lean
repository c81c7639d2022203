-- SUMMARY: Sorting the head of a list by a partial selection, and the first distinct values of a sorted list.
import Mathlib.Data.List.Sort
import Mathlib.Data.List.Dedup

/-!
# The head of a sort

A partial selection puts the `k` least elements first, in any order. Sorted, they are the head
of the full sort, and where the head alone holds enough distinct values the rest of the sort
is not needed.
-/

namespace HeadSort

section

variable {α β : Type*} {r s : α → α → Prop} [DecidableRel r] [DecidableRel s]

theorem insertionSort_congr {l : List α} (h : ∀ a ∈ l, ∀ b ∈ l, r a b ↔ s a b) : l.insertionSort r = l.insertionSort s := by
  have hinsert : ∀ (a : α) (l : List α), (∀ b ∈ l, r a b ↔ s a b) → l.orderedInsert r a = l.orderedInsert s a := by
    intro a l
    induction l with
    | nil => exact fun _ => rfl
    | cons b l ih =>
      intro hagree
      rw [List.orderedInsert, List.orderedInsert, ih fun c hc => hagree c (List.mem_cons_of_mem _ hc)]
      exact if_congr (hagree b (by simp)) rfl rfl
  induction l with
  | nil => rfl
  | cons a l ih =>
    rw [List.insertionSort_cons, List.insertionSort_cons,
      ih fun b hb c hc => h b (List.mem_cons_of_mem _ hb) c (List.mem_cons_of_mem _ hc)]
    exact hinsert a _ fun b hb => h a (by simp) b (List.mem_cons_of_mem _ ((List.mem_insertionSort s).mp hb))

/-! ## Partial selection -/

/-- `l'` is `l` with its `k` least elements first. -/
structure Selects (r : α → α → Prop) (k : ℕ) (l l' : List α) : Prop where
  perm : l'.Perm l
  least : ∀ a ∈ l'.take k, ∀ b ∈ l'.drop k, r a b

theorem pairwise_insertionSort {l : List α} (htotal : ∀ a ∈ l, ∀ b ∈ l, r a b ∨ r b a)
    (htrans : ∀ a ∈ l, ∀ b ∈ l, ∀ c ∈ l, r a b → r b c → r a c) : (l.insertionSort r).Pairwise r := by
  have : Std.Total fun a b : { a // a ∈ l } => r a.1 b.1 := ⟨fun a b => htotal a.1 a.2 b.1 b.2⟩
  have : IsTrans { a // a ∈ l } fun a b => r a.1 b.1 := ⟨fun a b c => htrans a.1 a.2 b.1 b.2 c.1 c.2⟩
  have hsorted := List.pairwise_insertionSort (fun a b : { a // a ∈ l } => r a.1 b.1) l.attach
  have hmap := List.map_insertionSort (fun a b : { a // a ∈ l } => r a.1 b.1) r Subtype.val l.attach fun _ _ _ _ => Iff.rfl
  rw [List.attach_map_subtype_val] at hmap
  rw [← hmap]
  exact List.pairwise_map.mpr hsorted

theorem selects_insertionSort {l : List α} (k : ℕ) (htotal : ∀ a ∈ l, ∀ b ∈ l, r a b ∨ r b a)
    (htrans : ∀ a ∈ l, ∀ b ∈ l, ∀ c ∈ l, r a b → r b c → r a c) : Selects r k l (l.insertionSort r) where
  perm := List.perm_insertionSort r l
  least a ha b hb := by
    have hsorted := pairwise_insertionSort htotal htrans
    rw [← List.take_append_drop k (l.insertionSort r)] at hsorted
    exact (List.pairwise_append.mp hsorted).2.2 a ha b hb

variable [Std.Total r] [IsTrans α r]

theorem insertionSort_perm {l l' : List α} (hperm : l'.Perm l) (hanti : ∀ a ∈ l, ∀ b ∈ l, r a b → r b a → a = b) :
    l'.insertionSort r = l.insertionSort r := by
  refine List.Perm.eq_of_pairwise (fun a b ha hb => ?_) (List.pairwise_insertionSort r l') (List.pairwise_insertionSort r l)
    (((List.perm_insertionSort r l').trans hperm).trans (List.perm_insertionSort r l).symm)
  exact hanti a (hperm.mem_iff.mp ((List.mem_insertionSort r).mp ha)) b ((List.mem_insertionSort r).mp hb)

/-- **The selected head, sorted, is the head of the sort.** -/
theorem Selects.sort_take {k : ℕ} {l l' : List α} (h : Selects r k l l') (hanti : ∀ a ∈ l, ∀ b ∈ l, r a b → r b a → a = b) :
    ∃ rest, l.insertionSort r = (l'.take k).insertionSort r ++ rest := by
  refine ⟨(l'.drop k).insertionSort r, ?_⟩
  have hperm : ((l'.take k).insertionSort r ++ (l'.drop k).insertionSort r).Perm l := by
    refine ((List.perm_insertionSort r _).append (List.perm_insertionSort r _)).trans ?_
    rw [List.take_append_drop]
    exact h.perm
  refine List.Perm.eq_of_pairwise (fun a b ha hb => ?_) (List.pairwise_insertionSort r l) ?_
    ((List.perm_insertionSort r l).trans hperm.symm)
  · exact hanti a ((List.mem_insertionSort r).mp ha) b (hperm.mem_iff.mp hb)
  · refine List.pairwise_append.mpr ⟨List.pairwise_insertionSort r _, List.pairwise_insertionSort r _, fun a ha b hb => ?_⟩
    exact h.least a ((List.mem_insertionSort r).mp ha) b ((List.mem_insertionSort r).mp hb)

end

/-! ## Distinct values -/

section

variable {β : Type*} [DecidableEq β]

/-- The values not seen yet, each where it first stands. -/
def distinctFrom (seen : List β) : List β → List β
  | [] => []
  | b :: l => if b ∈ seen then distinctFrom seen l else b :: distinctFrom (seen ++ [b]) l

def distinct (l : List β) : List β := distinctFrom [] l

/-- The loop that stops at `limit` distinct values. -/
def takeDistinct (limit : ℕ) : (out : List β) → List β → List β
  | out, [] => out
  | out, b :: l =>
    if b ∈ out then takeDistinct limit out l
    else if (out ++ [b]).length = limit then out ++ [b] else takeDistinct limit (out ++ [b]) l

theorem takeDistinct_eq {limit : ℕ} {out : List β} (hout : out.length < limit) (l : List β) :
    takeDistinct limit out l = out ++ (distinctFrom out l).take (limit - out.length) := by
  induction l generalizing out with
  | nil => simp [takeDistinct, distinctFrom]
  | cons b l ih =>
    rw [takeDistinct, distinctFrom]
    by_cases hseen : b ∈ out
    · rw [if_pos hseen, if_pos hseen, ih hout]
    · rw [if_neg hseen, if_neg hseen]
      obtain ⟨left, hleft⟩ : ∃ left, limit - out.length = left + 1 := ⟨limit - out.length - 1, by omega⟩
      by_cases hfull : (out ++ [b]).length = limit
      · rw [if_pos hfull]
        have hzero : left = 0 := by
          rw [List.length_append, List.length_singleton] at hfull
          omega
        rw [hleft, hzero]
        rfl
      · rw [if_neg hfull]
        rw [List.length_append, List.length_singleton] at hfull
        rw [ih (by rw [List.length_append, List.length_singleton]; omega), hleft, List.take_succ_cons, List.append_assoc,
          List.length_append, List.length_singleton]
        have hsub : limit - (out.length + 1) = left := by omega
        rw [hsub]
        rfl

theorem takeDistinct_nil {limit : ℕ} (hlimit : 1 ≤ limit) (l : List β) :
    takeDistinct limit [] l = (distinct l).take limit := by
  rw [takeDistinct_eq (Nat.lt_of_lt_of_le Nat.zero_lt_one hlimit), List.nil_append, List.length_nil, Nat.sub_zero]
  rfl

theorem distinctFrom_append (seen l more : List β) :
    ∃ rest, distinctFrom seen (l ++ more) = distinctFrom seen l ++ rest := by
  induction l generalizing seen with
  | nil => exact ⟨distinctFrom seen more, rfl⟩
  | cons b l ih =>
    rw [List.cons_append, distinctFrom, distinctFrom]
    split_ifs
    · exact ih seen
    · obtain ⟨rest, hrest⟩ := ih (seen ++ [b])
      exact ⟨rest, by rw [hrest, List.cons_append]⟩

theorem takeDistinct_append {limit : ℕ} (hlimit : 1 ≤ limit) {l : List β} (more : List β)
    (hfull : (takeDistinct limit [] l).length = limit) : takeDistinct limit [] (l ++ more) = takeDistinct limit [] l := by
  rw [takeDistinct_nil hlimit] at hfull ⊢
  rw [takeDistinct_nil hlimit, distinct]
  obtain ⟨rest, hrest⟩ := distinctFrom_append [] l more
  rw [hrest]
  have hlen : limit ≤ (distinctFrom [] l).length := by
    rw [List.length_take, distinct] at hfull
    omega
  exact List.take_append_of_le_length hlen

end

end HeadSort
