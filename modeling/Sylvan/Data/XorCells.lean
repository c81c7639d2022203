-- SUMMARY: Keys stored as the xor of the cells they touch: folds of an xor, peeling orders, and the assignment that solves them.
import Mathlib.Data.List.Perm.Basic
import Mathlib.Data.List.Nodup
import Sylvan.Data.TypedArray

/-!
# Xor cells

Each key touches a few cells, and a retrieval structure stores a key's value as
the xor of its cells. A peeling order gives every key a cell of its own, touched
by no key after it; writing the cells from the last key back to the first then
leaves every key's xor equal to its value.
-/

/-- An operation behaving as exclusive or does, with `e` for zero. -/
structure IsXor {α : Type} (op : α → α → α) (e : α) : Prop where
  assoc : ∀ a b c, op (op a b) c = op a (op b c)
  comm : ∀ a b, op a b = op b a
  zero : ∀ a, op e a = a
  self : ∀ a, op a a = e

theorem Nat.isXor : IsXor (· ^^^ · : ℕ → ℕ → ℕ) 0 where
  assoc := Nat.xor_assoc
  comm := Nat.xor_comm
  zero := Nat.zero_xor
  self := Nat.xor_self

theorem UInt8.isXor : IsXor (· ^^^ · : UInt8 → UInt8 → UInt8) 0 where
  assoc := UInt8.xor_assoc
  comm := UInt8.xor_comm
  zero _ := UInt8.zero_xor
  self _ := UInt8.xor_self

namespace IsXor

variable {α : Type} {op : α → α → α} {e : α} {l l' : List α}

section folds

variable (hx : IsXor op e)
include hx

theorem left_comm (a b c : α) : op a (op b c) = op b (op a c) := by
  rw [← hx.assoc, hx.comm a b, hx.assoc]

theorem cancel (a b : α) : op a (op a b) = b := by
  rw [← hx.assoc, hx.self, hx.zero]

theorem foldr_perm (h : l.Perm l') : l.foldr op e = l'.foldr op e := by
  induction h with
  | nil => rfl
  | cons a _ ih => rw [List.foldr_cons, List.foldr_cons, ih]
  | swap a b l => exact hx.left_comm b a _
  | trans _ _ ih ih' => exact ih.trans ih'

theorem op_foldr_cons (a : α) (l : List α) : op ((a :: l).foldr op e) a = l.foldr op e := by
  rw [List.foldr_cons, hx.comm, hx.cancel]

end folds

end IsXor

namespace XorCells

variable {κ : Type} {slots : κ → List ℕ} {value : κ → UInt8}

/-- What a key reads: the xor of the cells it touches. -/
def xorAt (cells : TypedArray UInt8) (touched : List ℕ) : UInt8 :=
  (touched.map cells.read).foldr (· ^^^ ·) 0

/-- The value `own` must hold for the cells `touched` to xor to `v`. -/
def absorbed (cells : TypedArray UInt8) (touched : List ℕ) (own : ℕ) (v : UInt8) : UInt8 :=
  touched.foldl (fun v r => if r = own then v else v ^^^ cells.read r) v

theorem absorbed_eq (cells : TypedArray UInt8) (touched : List ℕ) (own : ℕ) (v : UInt8) :
    absorbed cells touched own v = v ^^^ xorAt cells (touched.filter (· ≠ own)) := by
  induction touched generalizing v with
  | nil => simp [absorbed, xorAt]
  | cons r touched ih =>
    rw [absorbed, List.foldl_cons]
    by_cases hr : r = own
    · rw [if_pos hr, List.filter_cons_of_neg (by simpa using hr)]
      exact ih v
    · rw [if_neg hr, List.filter_cons_of_pos (by simpa using hr)]
      refine (ih _).trans ?_
      rw [UInt8.xor_assoc]
      rfl

theorem xorAt_write_of_notMem (cells : TypedArray UInt8) {touched : List ℕ} {own : ℕ}
    (h : own ∉ touched) (v : UInt8) : xorAt (cells.write own v) touched = xorAt cells touched := by
  have hmap : touched.map (TypedArray.read (cells.write own v)) = touched.map cells.read :=
    List.map_congr_left fun r hr => TypedArray.read_write_of_ne (ne_of_mem_of_not_mem hr h).symm v
  rw [xorAt, hmap, xorAt]

theorem xorAt_write_absorbed {cells : TypedArray UInt8} {touched : List ℕ} {own : ℕ}
    (hnodup : touched.Nodup) (hown : own ∈ touched) (hlt : own < cells.length) (v : UInt8) :
    xorAt (cells.write own (absorbed cells touched own v)) touched = v := by
  have hothers : own ∉ touched.filter (· ≠ own) := by simp
  have hsplit : touched.Perm (own :: touched.filter (· ≠ own)) := by
    have herase : touched.erase own = touched.filter (· ≠ own) := by
      rw [hnodup.erase_eq_filter own]
      exact List.filter_congr fun r _ => by simp [bne, beq_eq_decide]
    exact herase ▸ List.perm_cons_erase hown
  have hread := UInt8.isXor.foldr_perm
    (hsplit.map (TypedArray.read (cells.write own (absorbed cells touched own v))))
  rw [xorAt, hread, List.map_cons, List.foldr_cons, TypedArray.read_write_self hlt, absorbed_eq]
  have hrest := xorAt_write_of_notMem cells hothers
    (v ^^^ xorAt cells (touched.filter (· ≠ own)))
  rw [xorAt] at hrest
  rw [hrest, UInt8.xor_assoc, UInt8.xor_self, UInt8.xor_zero]

/-! ## Peeling orders -/

/-- An order in which keys were peeled, the last first, each with its own cell: a
key touches no cell owned by a key peeled before it. -/
structure Peels (slots : κ → List ℕ) (order : List (ℕ × κ)) : Prop where
  own_mem : ∀ e ∈ order, e.1 ∈ slots e.2
  disjoint : order.Pairwise fun later earlier => earlier.1 ∉ slots later.2

/-- The cells after each key of `order` in turn has had its own cell written. -/
def assign (slots : κ → List ℕ) (value : κ → UInt8) (order : List (ℕ × κ))
    (cells : TypedArray UInt8) : TypedArray UInt8 :=
  order.foldl (fun cells e => cells.write e.1 (absorbed cells (slots e.2) e.1 (value e.2))) cells

theorem xorAt_assign_of_notMem (slots : κ → List ℕ) (value : κ → UInt8) {order : List (ℕ × κ)} {touched : List ℕ}
    (h : ∀ e ∈ order, e.1 ∉ touched) (cells : TypedArray UInt8) :
    xorAt (assign slots value order cells) touched = xorAt cells touched := by
  induction order generalizing cells with
  | nil => rfl
  | cons e order ih =>
    have hrest := ih (fun e' he' => h e' (by simp [he']))
      (cells.write e.1 (absorbed cells (slots e.2) e.1 (value e.2)))
    exact hrest.trans (xorAt_write_of_notMem cells (h e (by simp)) _)

/-- **Every key of a peeling order reads its value.** A key's cells are complete once
its own is written, and the keys after it in the replay own none of them. -/
theorem xorAt_assign {order : List (ℕ × κ)} (horder : Peels slots order)
    (hnodup : ∀ e ∈ order, (slots e.2).Nodup) {cells : TypedArray UInt8}
    (hlt : ∀ e ∈ order, e.1 < cells.length) :
    ∀ e ∈ order, xorAt (assign slots value order cells) (slots e.2) = value e.2 := by
  induction order generalizing cells with
  | nil => simp
  | cons e order ih =>
    intro e' he'
    obtain ⟨hhead, htail⟩ := List.pairwise_cons.mp horder.disjoint
    have hpeels : Peels slots order :=
      ⟨fun e he => horder.own_mem e (by simp [he]), htail⟩
    rcases List.mem_cons.mp he' with rfl | he'
    · have hkeep := xorAt_assign_of_notMem slots value hhead
        (cells.write e'.1 (absorbed cells (slots e'.2) e'.1 (value e'.2)))
      exact hkeep.trans (xorAt_write_absorbed (hnodup e' (by simp))
        (horder.own_mem e' (by simp)) (hlt e' (by simp)) _)
    · exact ih hpeels (fun e he => hnodup e (by simp [he]))
        (fun e he => by simpa using hlt e (by simp [he])) e' he'

end XorCells
