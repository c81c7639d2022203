-- SUMMARY: Peeling: what the counters say of the keys not yet peeled, and why the queue read backwards solves every key's cells.
import Sylvan.Engine.RoutingFilter

/-!
# Peeling

A cell holds the keys still to be peeled that touch it, and the key it was given to.
The counters and the xors of indices are kept in step with that, so a cell whose
count is one knows its key, and the queue of such cells is a peeling order.
-/

namespace RoutingFilter

/-! ## Tallies -/

/-- The counters of cells that hold the keys `held`. -/
structure Tallies (cells : ℕ) (s : Scratch) (held : ℕ → List ℕ) : Prop where
  count_length : s.count.length = cells
  xorIdx_length : s.xorIdx.length = cells
  count : ∀ r < cells, s.count.read r = (held r).length
  xorIdx : ∀ r < cells, s.xorIdx.read r = (held r).foldr (· ^^^ ·) 0

namespace Tallies

variable {cells : ℕ} {s : Scratch} {held held' : ℕ → List ℕ} {i r : ℕ}

theorem zeros : Tallies cells ⟨List.replicate cells 0, List.replicate cells 0⟩ fun _ => [] where
  count_length := List.length_replicate
  xorIdx_length := List.length_replicate
  count _ hr := TypedArray.read_replicate cells 0 hr
  xorIdx _ hr := TypedArray.read_replicate cells 0 hr

theorem of_perm (h : Tallies cells s held) (hperm : ∀ r < cells, (held r).Perm (held' r)) : Tallies cells s held' where
  count_length := h.count_length
  xorIdx_length := h.xorIdx_length
  count r hr := (h.count r hr).trans (hperm r hr).length_eq
  xorIdx r hr := (h.xorIdx r hr).trans (Nat.isXor.foldr_perm (hperm r hr))

theorem write (h : Tallies cells s held) (hr : r < cells) {count xor : ℕ}
    (hcount : count = (held' r).length) (hxor : xor = (held' r).foldr (· ^^^ ·) 0)
    (hother : ∀ r' < cells, r' ≠ r → (held r').Perm (held' r')) :
    Tallies cells ⟨s.count.write r count, s.xorIdx.write r xor⟩ held' where
  count_length := (TypedArray.length_write ..).trans h.count_length
  xorIdx_length := (TypedArray.length_write ..).trans h.xorIdx_length
  count r' hr' := by
    simp only
    rw [TypedArray.read_write (h.count_length.symm ▸ hr)]
    split_ifs with heq
    · rw [heq, hcount]
    · exact (h.count r' hr').trans (hother r' hr' heq).length_eq
  xorIdx r' hr' := by
    simp only
    rw [TypedArray.read_write (h.xorIdx_length.symm ▸ hr)]
    split_ifs with heq
    · rw [heq, hxor]
    · exact (h.xorIdx r' hr').trans (Nat.isXor.foldr_perm (hother r' hr' heq))

theorem read_of_singleton (h : Tallies cells s held) (hr : r < cells) (hone : held r = [i]) : s.xorIdx.read r = i := by
  rw [h.xorIdx r hr, hone]
  exact Nat.xor_zero i

theorem count3 {cap : ℕ} {touched : List ℕ} {s' : Scratch} (h : Tallies cells s held)
    (hnodup : touched.Nodup) (hlt : ∀ r ∈ touched, r < cells)
    (hcount : s.count3 cap i touched = some s') :
    Tallies cells s' fun r => if r ∈ touched then i :: held r else held r := by
  unfold Scratch.count3 at hcount
  split_ifs at hcount with hcap
  cases hcount
  clear hcap
  induction touched generalizing s held with
  | nil => simpa using h
  | cons r touched ih =>
    obtain ⟨hr, hnodup'⟩ := List.nodup_cons.mp hnodup
    have hrlt := hlt r List.mem_cons_self
    rw [List.foldl_cons]
    have hstep : Tallies cells
        ⟨s.count.write r (s.count.read r + 1), s.xorIdx.write r (s.xorIdx.read r ^^^ i)⟩
        fun r' => if r' = r then i :: held r else held r' := by
      refine h.write hrlt ?_ ?_ fun r' _ hne => by rw [if_neg hne]
      · rw [if_pos rfl, List.length_cons, h.count r hrlt]
      · rw [if_pos rfl, List.foldr_cons, h.xorIdx r hrlt, Nat.xor_comm]
    refine (ih hstep hnodup' fun r' hr' => hlt r' (List.mem_cons_of_mem r hr')).of_perm
      fun r' _ => ?_
    by_cases heq : r' = r
    · subst heq
      simp [hr]
    · simp [heq]

theorem foldl_leave {touched : List ℕ} {own : ℕ} (queue : List ℕ) (h : Tallies cells s held)
    (hnodup : touched.Nodup) (hlt : ∀ r ∈ touched, r < cells)
    (hleft : ∀ r ∈ touched, r ≠ own → (held r).Perm (i :: held' r))
    (hother : ∀ r < cells, (r ∈ touched → r = own) → (held r).Perm (held' r)) :
    Tallies cells (touched.foldl (Scratch.leave own i) (s, queue)).1 held' ∧
      (touched.foldl (Scratch.leave own i) (s, queue)).2 =
        queue ++ touched.filter fun r => r ≠ own ∧ (held' r).length = 1 := by
  induction touched generalizing s queue held with
  | nil => exact ⟨h.of_perm fun r hr => hother r hr (fun hmem => nomatch hmem), by simp⟩
  | cons r touched ih =>
    obtain ⟨hr, hnodup'⟩ := List.nodup_cons.mp hnodup
    have hrlt := hlt r List.mem_cons_self
    have hlt' := fun r' hr' => hlt r' (List.mem_cons_of_mem r hr')
    rw [List.foldl_cons]
    by_cases hown : r = own
    · -- Its own cell keeps the key.
      rw [Scratch.leave, if_pos hown]
      have hfilter : (r :: touched).filter (fun r => r ≠ own ∧ (held' r).length = 1) =
          touched.filter fun r => r ≠ own ∧ (held' r).length = 1 :=
        List.filter_cons_of_neg (by simp [hown])
      rw [hfilter]
      refine ih queue h hnodup' hlt' (fun r' hr' => hleft r' (List.mem_cons_of_mem r hr'))
        fun r' hr' hmem => hother r' hr' fun hin => ?_
      rcases List.mem_cons.mp hin with heq | hin
      · exact heq.trans hown
      · exact hmem hin
    · have hperm := hleft r List.mem_cons_self hown
      have hcount : s.count.read r - 1 = (held' r).length := by
        rw [h.count r hrlt, hperm.length_eq, List.length_cons, Nat.add_sub_cancel]
      have hxor : s.xorIdx.read r ^^^ i = (held' r).foldr (· ^^^ ·) 0 := by
        rw [h.xorIdx r hrlt, Nat.isXor.foldr_perm hperm]
        exact Nat.isXor.op_foldr_cons i _
      rw [Scratch.leave, if_neg hown]
      simp only
      have hstep : Tallies cells
          ⟨s.count.write r (s.count.read r - 1), s.xorIdx.write r (s.xorIdx.read r ^^^ i)⟩
          fun r' => if r' = r then held' r else held r' := by
        refine h.write hrlt ?_ ?_ fun r' _ hne => by rw [if_neg hne]
        · rw [if_pos rfl, hcount]
        · rw [if_pos rfl, hxor]
      have hrest := ih (if s.count.read r - 1 = 1 then queue ++ [r] else queue) hstep hnodup' hlt'
        (fun r' hr' hne => ?_) fun r' hr' hmem => ?_
      · refine ⟨hrest.1, hrest.2.trans ?_⟩
        rw [hcount]
        by_cases hone : (held' r).length = 1
        · rw [if_pos hone, List.filter_cons_of_pos (by simp [hown, hone]), List.append_assoc]
          rfl
        · rw [if_neg hone, List.filter_cons_of_neg (by simp [hone])]
      · have hne' : r' ≠ r := ne_of_mem_of_not_mem hr' hr
        rw [if_neg hne']
        exact hleft r' (List.mem_cons_of_mem r hr') hne
      · split_ifs with heq
        · rw [heq]
        · refine hother r' hr' fun hin => ?_
          exact hmem ((List.mem_cons.mp hin).resolve_left heq)

end Tallies

/-! ## The queue -/

section Peel

variable {slots : ℕ → List ℕ} {cells n : ℕ} {s : Scratch} {popped pending left : List ℕ}
  {placed : List (ℕ × ℕ)} {slot i : ℕ}

/-- The keys in a cell: those not peeled that touch it, and the one it was given to. -/
def heldBy (slots : ℕ → List ℕ) (left : List ℕ) (placed : List (ℕ × ℕ)) (r : ℕ) : List ℕ :=
  left.filter (r ∈ slots ·) ++ (placed.filter (·.1 = r)).map (·.2)

/-- Peeling under way: the keys `left`, and those `placed` in a cell of their own, the
last first. No key left touches a cell that was given away, and a queued cell has at
most one key in it. -/
structure Peeling (slots : ℕ → List ℕ) (cells n : ℕ) (s : Scratch) (popped pending : List ℕ)
    (placed : List (ℕ × ℕ)) (left : List ℕ) : Prop where
  tallies : Tallies cells s (heldBy slots left placed)
  keys : (placed.map (·.2) ++ left).Perm (List.range n)
  popped : popped.filter (· ≠ SKIPPED) = placed.map (·.1)
  pending_nodup : pending.Nodup
  pending_lt : ∀ r ∈ pending, r < cells
  pending_light : ∀ r ∈ pending, (heldBy slots left placed r).length ≤ 1
  pending_free : ∀ e ∈ placed, e.1 ∉ pending
  own_free : ∀ e ∈ placed, ∀ i ∈ left, e.1 ∉ slots i
  own_nodup : (placed.map (·.1)).Nodup
  peels : XorCells.Peels slots placed

namespace Peeling

theorem left_nodup (h : Peeling slots cells n s popped pending placed left) : left.Nodup :=
  (List.nodup_append.mp (h.keys.nodup_iff.mpr List.nodup_range)).2.1

theorem lt_of_left (h : Peeling slots cells n s popped pending placed left) (hi : i ∈ left) : i < n :=
  List.mem_range.mp (h.keys.subset (List.mem_append_right _ hi))

theorem placed_filter (h : ∀ e ∈ placed, e.1 ≠ slot) : placed.filter (·.1 = slot) = [] :=
  List.filter_eq_nil_iff.mpr fun e he => by simpa using h e he

theorem skip (h : Peeling slots cells n s popped (slot :: pending) placed left) :
    Peeling slots cells n s (SKIPPED :: popped) pending placed left where
  tallies := h.tallies
  keys := h.keys
  popped := by
    rw [List.filter_cons_of_neg (by simp)]
    exact h.popped
  pending_nodup := (List.nodup_cons.mp h.pending_nodup).2
  pending_lt r hr := h.pending_lt r (List.mem_cons_of_mem slot hr)
  pending_light r hr := h.pending_light r (List.mem_cons_of_mem slot hr)
  pending_free e he hr := h.pending_free e he (List.mem_cons_of_mem slot hr)
  own_free := h.own_free
  own_nodup := h.own_nodup
  peels := h.peels

/-- A popped cell with a count of one holds one key still to be peeled: the one its
index names, and no other key left touches it. -/
theorem lone (h : Peeling slots cells n s popped (slot :: pending) placed left)
    (hcount : s.count.read slot = 1) :
    left.filter (slot ∈ slots ·) = [s.xorIdx.read slot] := by
  have hlt := h.pending_lt slot List.mem_cons_self
  have hfree : ∀ e ∈ placed, e.1 ≠ slot := fun e he heq =>
    h.pending_free e he (heq ▸ List.mem_cons_self)
  have hheld : heldBy slots left placed slot = left.filter (slot ∈ slots ·) := by
    rw [heldBy, placed_filter hfree, List.map_nil, List.append_nil]
  obtain ⟨i, hi⟩ := List.length_eq_one_iff.mp ((h.tallies.count slot hlt).symm.trans hcount)
  rw [← hheld, hi, h.tallies.read_of_singleton hlt hi]

/-- What its cells hold of the keys once `i` is given `slot`. -/
theorem heldBy_placed (placed : List (ℕ × ℕ)) (hi : i ∈ left) (hslot : slot ∈ slots i) (r : ℕ) :
    (r ∈ slots i → r ≠ slot → (heldBy slots left placed r).Perm
      (i :: heldBy slots (left.erase i) ((slot, i) :: placed) r)) ∧
    ((r ∈ slots i → r = slot) → (heldBy slots left placed r).Perm
      (heldBy slots (left.erase i) ((slot, i) :: placed) r)) := by
  have hleft : (left.filter (r ∈ slots ·)).Perm ((i :: left.erase i).filter (r ∈ slots ·)) :=
    (List.perm_cons_erase hi).filter _
  refine ⟨fun hr hne => ?_, fun hr => ?_⟩
  · have hplaced : ((slot, i) :: placed).filter (·.1 = r) = placed.filter (·.1 = r) :=
      List.filter_cons_of_neg (by simpa using Ne.symm hne)
    rw [List.filter_cons_of_pos (by simpa using hr)] at hleft
    rw [heldBy, heldBy, hplaced]
    exact hleft.append_right _
  · by_cases heq : r = slot
    · subst heq
      have hplaced : ((r, i) :: placed).filter (·.1 = r) = (r, i) :: placed.filter (·.1 = r) :=
        List.filter_cons_of_pos (by simp)
      rw [List.filter_cons_of_pos (by simpa using hslot)] at hleft
      rw [heldBy, heldBy, hplaced, List.map_cons]
      exact (hleft.append_right _).trans List.perm_middle.symm
    · have hplaced : ((slot, i) :: placed).filter (·.1 = r) = placed.filter (·.1 = r) :=
        List.filter_cons_of_neg (by simpa using Ne.symm heq)
      rw [List.filter_cons_of_neg (by simpa using fun hmem => heq (hr hmem))] at hleft
      rw [heldBy, heldBy, hplaced]
      exact hleft.append_right _

theorem place (hnodup : ∀ i < n, (slots i).Nodup) (hlt : ∀ i < n, ∀ r ∈ slots i, r < cells)
    (hcells : cells ≤ SKIPPED)
    (h : Peeling slots cells n s popped (slot :: pending) placed left)
    (hcount : s.count.read slot = 1) (hi : s.xorIdx.read slot = i) :
    Peeling slots cells n ((slots i).foldl (Scratch.leave slot i) (s, [])).1 (slot :: popped)
      (pending ++ ((slots i).foldl (Scratch.leave slot i) (s, [])).2) ((slot, i) :: placed)
      (left.erase i) := by
  have hlone := h.lone hcount
  rw [hi] at hlone
  obtain ⟨hmem, hslot⟩ : i ∈ left ∧ slot ∈ slots i := by
    have hfilter : i ∈ left.filter (slot ∈ slots ·) := hlone ▸ List.mem_singleton_self i
    simpa using hfilter
  have hin := h.lt_of_left hmem
  obtain ⟨hslotfresh, hpending⟩ := List.nodup_cons.mp h.pending_nodup
  obtain ⟨htallies, hqueue⟩ := h.tallies.foldl_leave [] (hnodup i hin) (hlt i hin)
    (fun r hr hne => (heldBy_placed placed hmem hslot r).1 hr hne)
    (fun r _ hr => (heldBy_placed placed hmem hslot r).2 hr)
  -- A cell queued now had two keys in it; one queued before, at most one.
  have hpushed : ∀ r ∈ ((slots i).foldl (Scratch.leave slot i) (s, [])).2, r ∈ slots i ∧ r ≠ slot ∧
      (heldBy slots (left.erase i) ((slot, i) :: placed) r).length = 1 := by
    intro r hr
    rw [hqueue] at hr
    simpa using hr
  refine ⟨htallies, ?_, ?_, ?_, ?_, ?_, ?_, ?_, ?_, ?_⟩
  · refine List.Perm.trans ?_ h.keys
    exact List.perm_middle.symm.trans ((List.perm_cons_erase hmem).symm.append_left _)
  · have hne : slot ≠ SKIPPED := by
      have := h.pending_lt slot List.mem_cons_self
      omega
    rw [List.filter_cons_of_pos (by simpa using hne), h.popped, List.map_cons]
  · refine List.nodup_append.mpr ⟨hpending, ?_, fun r hr r' hr' heq => ?_⟩
    · rw [hqueue]
      exact (hnodup i hin).filter _
    · subst heq
      obtain ⟨hrslots, hne, hone⟩ := hpushed r hr'
      have htwo := ((heldBy_placed placed hmem hslot r).1 hrslots hne).length_eq
      have hlight := h.pending_light r (List.mem_cons_of_mem slot hr)
      rw [List.length_cons] at htwo
      omega
  · intro r hr
    rcases List.mem_append.mp hr with hr | hr
    · exact h.pending_lt r (List.mem_cons_of_mem slot hr)
    · exact hlt i hin r (hpushed r hr).1
  · intro r hr
    rcases List.mem_append.mp hr with hr | hr
    · have hlight := h.pending_light r (List.mem_cons_of_mem slot hr)
      have hheld := heldBy_placed placed hmem hslot r
      by_cases hrslots : r ∈ slots i ∧ r ≠ slot
      · have hlen := (hheld.1 hrslots.1 hrslots.2).length_eq
        rw [List.length_cons] at hlen
        omega
      · have hlen := (hheld.2 fun hr => by
          by_contra hne
          exact hrslots ⟨hr, hne⟩).length_eq
        omega
    · exact (hpushed r hr).2.2.le
  · intro e he hr
    rcases List.mem_cons.mp he with rfl | he
    · rcases List.mem_append.mp hr with hr | hr
      · exact hslotfresh hr
      · exact (hpushed _ hr).2.1 rfl
    · rcases List.mem_append.mp hr with hr | hr
      · exact h.pending_free e he (List.mem_cons_of_mem slot hr)
      · exact h.own_free e he i hmem (hpushed _ hr).1
  · intro e he j hj
    have hjleft : j ∈ left := List.mem_of_mem_erase hj
    rcases List.mem_cons.mp he with rfl | he
    · intro htouch
      have hfilter : j ∈ left.filter (slot ∈ slots ·) := by simpa using ⟨hjleft, htouch⟩
      rw [hlone, List.mem_singleton] at hfilter
      exact (h.left_nodup.mem_erase_iff.mp hj).1 hfilter
    · exact h.own_free e he j hjleft
  · refine List.nodup_cons.mpr ⟨fun hmap => ?_, h.own_nodup⟩
    obtain ⟨e, he, heq⟩ := List.mem_map.mp hmap
    exact h.pending_free e he (heq ▸ List.mem_cons_self)
  · refine ⟨fun e he => ?_, List.pairwise_cons.mpr ⟨fun e he => ?_, h.peels.disjoint⟩⟩
    · rcases List.mem_cons.mp he with rfl | he
      · exact hslot
      · exact h.peels.own_mem e he
    · exact h.own_free e he i hmem

end Peeling

section Run

variable (hnodup : ∀ i < n, (slots i).Nodup) (hlt : ∀ i < n, ∀ r ∈ slots i, r < cells)
include hnodup hlt

theorem peelLoop_spec (hcells : cells ≤ SKIPPED) (s : Scratch) (peeled : ℕ)
    (popped pending : List ℕ) (h : Peeling slots cells n s popped pending placed left)
    (hpeeled : peeled = placed.length) :
    ∃ placed' left', Peeling slots cells n (peelLoop slots s peeled popped pending).1
        (peelLoop slots s peeled popped pending).2.2 [] placed' left' ∧
      (peelLoop slots s peeled popped pending).2.1 = placed'.length := by
  induction s, peeled, popped, pending using peelLoop.induct slots generalizing placed left with
  | case1 s peeled popped =>
    rw [peelLoop]
    exact ⟨placed, left, h, hpeeled⟩
  | case2 s peeled popped slot pending hcount ih =>
    rw [peelLoop, if_pos hcount]
    exact ih h.skip hpeeled
  | case3 s peeled popped slot pending hcount i =>
    rename_i left' ih
    rw [peelLoop, if_neg hcount]
    refine ih (h.place hnodup hlt hcells (not_not.mp hcount) rfl) ?_
    rw [List.length_cons, hpeeled]

theorem count_spec {cap m : ℕ} (hm : m ≤ n)
    (h : (List.range m).foldlM (fun s i => Scratch.count3 cap s i (slots i))
      ⟨List.replicate cells 0, List.replicate cells 0⟩ = some s) :
    Tallies cells s (heldBy slots (List.range m) []) := by
  induction m generalizing s with
  | zero =>
    cases h
    exact Tallies.zeros
  | succ m ih =>
    rw [List.range_succ, List.foldlM_append] at h
    obtain ⟨s', hs', hlast⟩ := Option.bind_eq_some_iff.mp h
    have hcounted : s'.count3 cap m (slots m) = some s := by simpa using hlast
    refine ((ih (by omega) hs').count3 (hnodup m (by omega)) (hlt m (by omega)) hcounted).of_perm
      fun r _ => ?_
    simp only [heldBy, List.filter_nil, List.map_nil, List.append_nil, List.range_succ, List.filter_append]
    split_ifs with hr
    · rw [List.filter_cons_of_pos (by simpa using hr)]
      exact (List.perm_append_singleton _ _).symm
    · rw [List.filter_cons_of_neg (by simpa using hr), List.filter_nil, List.append_nil]

/-- **A peeled queue is a peeling order of all the keys**: read from its end, each
cell's key is the one its index names. -/
theorem peel_spec {cap : ℕ} {queue xorIdx : List ℕ} (hcells : cells ≤ SKIPPED)
    (h : peel slots n cells cap = .peeled queue xorIdx) :
    ∃ placed, XorCells.Peels slots placed ∧ queue.filter (· ≠ SKIPPED) = placed.map (·.1) ∧
      (placed.map (·.2)).Perm (List.range n) ∧
      ∀ e ∈ placed, e.1 < cells ∧ TypedArray.read xorIdx e.1 = e.2 := by
  unfold peel at h
  simp only at h
  split at h
  · cases h
  · rename_i s hcount
    have htallies := count_spec hnodup hlt le_rfl hcount
    have hstart : Peeling slots cells n s []
        ((List.range cells).filter fun slot => s.count.read slot = 1) [] (List.range n) :=
      { tallies := htallies
        keys := List.Perm.refl _
        popped := rfl
        pending_nodup := List.nodup_range.filter _
        pending_lt := fun r hr => List.mem_range.mp (List.mem_filter.mp hr).1
        pending_light := fun r hr => by
          obtain ⟨hr, hone⟩ := List.mem_filter.mp hr
          rw [← htallies.count r (List.mem_range.mp hr)]
          exact (of_decide_eq_true hone).le
        pending_free := fun _ he => nomatch he
        own_free := fun _ he => nomatch he
        own_nodup := List.nodup_nil
        peels := ⟨(fun _ he => nomatch he), List.Pairwise.nil⟩ }
    obtain ⟨placed, left, hend, hlength⟩ := peelLoop_spec hnodup hlt hcells s 0 [] _ hstart rfl
    split_ifs at h with hall
    cases h
    -- As many keys were placed as there are, so none is left.
    have hleft : left = [] := by
      have hlen := hend.keys.length_eq
      rw [List.length_append, List.length_map, List.length_range] at hlen
      exact List.eq_nil_of_length_eq_zero (by omega)
    subst hleft
    have hkeys : (placed.map (·.2)).Perm (List.range n) := by simpa using hend.keys
    refine ⟨placed, hend.peels, hend.popped, hkeys, fun e he => ?_⟩
    have hin : e.2 < n := List.mem_range.mp (hkeys.subset (List.mem_map_of_mem he))
    have hecells := hlt e.2 hin e.1 (hend.peels.own_mem e he)
    refine ⟨hecells, hend.tallies.read_of_singleton hecells ?_⟩
    have hown : placed.filter (·.1 = e.1) = [e] := by
      obtain ⟨before, after, rfl⟩ := List.append_of_mem he
      have hfree := hend.own_nodup
      rw [List.map_append, List.map_cons, List.nodup_append] at hfree
      obtain ⟨-, hafter, hbefore⟩ := hfree
      have hnone : ∀ e' ∈ before, e'.1 ≠ e.1 := fun e' he' =>
        hbefore _ (List.mem_map_of_mem he') _ List.mem_cons_self
      have hnone' : ∀ e' ∈ after, e'.1 ≠ e.1 := fun e' he' heq =>
        (List.nodup_cons.mp hafter).1 (heq ▸ List.mem_map_of_mem he')
      rw [List.filter_append, Peeling.placed_filter hnone, List.nil_append,
        List.filter_cons_of_pos (by simp), Peeling.placed_filter hnone']
    rw [heldBy, hown]
    rfl

end Run

end Peel

end RoutingFilter
