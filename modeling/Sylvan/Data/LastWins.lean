-- SUMMARY: Lists where a later entry of a key supersedes the earlier ones: the entries left, as a list, an overwritten map and winning positions.
import Sylvan.Data.JsMap

/-!
# Last entry wins

Of the entries a list has under one key the last one counts. The entries that count are a
sublist; a map overwritten entry by entry ends with them, in the order the keys were first
seen; and they are the entries at the last positions of their keys.
-/

namespace LastWins

variable {α κ β : Type*} [DecidableEq κ] (key : α → κ)

def last : List α → List α
  | [] => []
  | a :: l => if l.any (key · = key a) then last l else a :: last l

variable {key}

theorem last_cons (a : α) (l : List α) : last key (a :: l) = if l.any (key · = key a) then last key l else a :: last key l :=
  rfl

/-! ## A map overwritten entry by entry -/

variable (key) in
/-- Each entry's value set at its key. -/
def overwrite (value : α → β) (m : JsMap κ β) (l : List α) : JsMap κ β :=
  l.foldl (fun m a => m.set (key a) (value a)) m

variable {value : α → β} {l : List α}

theorem get_overwrite_of_notMem {k : κ} (h : k ∉ l.map key) (m : JsMap κ β) : (overwrite key value m l).get k = m.get k := by
  induction l generalizing m with
  | nil => rfl
  | cons a l ih =>
    rw [List.map_cons, List.mem_cons, not_or] at h
    exact (ih h.2 _).trans ((JsMap.get_set ..).trans (if_neg (Ne.symm h.1)))

theorem entries_overwrite_of_nodup (hnodup : (l.map key).Nodup) (m : JsMap κ β) (hnew : ∀ a ∈ l, m.get (key a) = none) :
    (overwrite key value m l).entries = m.entries ++ l.map fun a => (key a, value a) := by
  induction l generalizing m with
  | nil => exact (List.append_nil _).symm
  | cons a l ih =>
    rw [List.map_cons, List.nodup_cons] at hnodup
    have hset : (m.set (key a) (value a)).entries = m.entries ++ [(key a, value a)] :=
      JsMap.insertAt_of_lookup_eq_none (hnew a (by simp))
    have hrest : ∀ b ∈ l, (m.set (key a) (value a)).get (key b) = none := by
      intro b hb
      have hne : key a ≠ key b := fun h => hnodup.1 (h ▸ List.mem_map_of_mem hb)
      rw [JsMap.get_set, if_neg hne]
      exact hnew b (by simp [hb])
    refine (ih hnodup.2 _ hrest).trans ?_
    rw [hset, List.append_assoc, List.map_cons, List.singleton_append]

/-! ## The entries left -/

theorem last_sublist (l : List α) : (last key l).Sublist l := by
  induction l with
  | nil => exact .slnil
  | cons a l ih =>
    rw [last_cons]
    split
    · exact ih.cons a
    · exact ih.cons_cons a

theorem nodup_last (l : List α) : ((last key l).map key).Nodup := by
  induction l with
  | nil => exact .nil
  | cons a l ih =>
    rw [last_cons]
    split
    · exact ih
    · rename_i hany
      refine List.nodup_cons.mpr ⟨fun hmem => hany ?_, ih⟩
      obtain ⟨b, hb, hkey⟩ := List.mem_map.mp hmem
      exact List.any_eq_true.mpr ⟨b, (last_sublist l).subset hb, decide_eq_true hkey⟩

theorem last_of_nodup (h : (l.map key).Nodup) : last key l = l := by
  induction l with
  | nil => rfl
  | cons a l ih =>
    rw [List.map_cons, List.nodup_cons] at h
    rw [last_cons, if_neg, ih h.2]
    intro hany
    obtain ⟨b, hb, hkey⟩ := List.any_eq_true.mp hany
    exact h.1 (of_decide_eq_true hkey ▸ List.mem_map_of_mem hb)

theorem last_map {γ : Type*} (f : γ → α) (l : List γ) : last key (l.map f) = (last (fun c => key (f c)) l).map f := by
  induction l with
  | nil => rfl
  | cons c l ih =>
    rw [List.map_cons, last_cons, last_cons, List.any_map, ih, apply_ite (List.map f)]
    rfl

theorem mem_last_iff {a : α} : a ∈ last key l ↔ ∃ before after, l = before ++ a :: after ∧ key a ∉ after.map key := by
  induction l with
  | nil => simp [show last key [] = [] from rfl]
  | cons b l ih =>
    have hany : l.any (key · = key b) = true ↔ key b ∈ l.map key := by simp
    constructor
    · intro hmem
      rw [last_cons] at hmem
      split at hmem
      · obtain ⟨before, after, rfl, hafter⟩ := ih.mp hmem
        exact ⟨b :: before, after, rfl, hafter⟩
      · rename_i hnone
        rcases List.mem_cons.mp hmem with rfl | hmem
        · exact ⟨[], l, rfl, fun h => hnone (hany.mpr h)⟩
        · obtain ⟨before, after, rfl, hafter⟩ := ih.mp hmem
          exact ⟨b :: before, after, rfl, hafter⟩
    · rintro ⟨before, after, hl, hafter⟩
      rw [last_cons]
      cases before with
      | nil =>
        obtain ⟨rfl, rfl⟩ := List.cons.inj hl
        rw [if_neg (mt hany.mp hafter)]
        exact List.mem_cons_self
      | cons c before =>
        obtain ⟨rfl, rfl⟩ := List.cons.inj hl
        have hin := ih.mpr ⟨before, after, rfl, hafter⟩
        split
        · exact hin
        · exact List.mem_cons_of_mem _ hin

/-! ## Winning positions -/

variable (key) in
/-- The last position of each key. -/
def positions (m : JsMap κ ℕ) (l : List (α × ℕ)) : JsMap κ ℕ := overwrite (fun e : α × ℕ => key e.1) Prod.snd m l

theorem exists_get_positions {k : κ} (h : k ∈ l.map key) (m : JsMap κ ℕ) (n : ℕ) :
    ∃ pos, n ≤ pos ∧ (positions key m (l.zipIdx n)).get k = some pos := by
  induction l generalizing m n with
  | nil => cases h
  | cons a l ih =>
    by_cases hl : k ∈ l.map key
    · obtain ⟨pos, hpos, hget⟩ := ih hl (m.set (key a) n) (n + 1)
      exact ⟨pos, by omega, hget⟩
    · obtain rfl : k = key a := (List.mem_cons.mp h).resolve_right hl
      have hnone : key a ∉ (l.zipIdx (n + 1)).map fun e => key e.1 := by
        rwa [show (fun e : α × ℕ => key e.1) = key ∘ Prod.fst from rfl, ← List.map_map, List.zipIdx_map_fst]
      exact ⟨n, le_rfl, (get_overwrite_of_notMem hnone _).trans ((JsMap.get_set ..).trans (if_pos rfl))⟩

/-- **The entries at the last positions of their keys are those left.** -/
theorem filter_positions (m : JsMap κ ℕ) (l : List α) (n : ℕ) :
    ((l.zipIdx n).filter fun e => (positions key m (l.zipIdx n)).get (key e.1) = some e.2).map Prod.fst = last key l := by
  induction l generalizing m n with
  | nil => rfl
  | cons a l ih =>
    have hrest := ih (m.set (key a) n) (n + 1)
    rw [List.zipIdx_cons, last_cons, show positions key m ((a, n) :: l.zipIdx (n + 1)) =
      positions key (m.set (key a) n) (l.zipIdx (n + 1)) from rfl]
    by_cases hl : key a ∈ l.map key
    · obtain ⟨pos, hpos, hget⟩ := exists_get_positions hl (m.set (key a) n) (n + 1)
      rw [List.filter_cons_of_neg (by simp [hget]; omega), if_pos (by simpa using hl)]
      exact hrest
    · have hnone : key a ∉ (l.zipIdx (n + 1)).map fun e => key e.1 := by
        rwa [show (fun e : α × ℕ => key e.1) = key ∘ Prod.fst from rfl, ← List.map_map, List.zipIdx_map_fst]
      have hget : (positions key (m.set (key a) n) (l.zipIdx (n + 1))).get (key a) = some n :=
        (get_overwrite_of_notMem hnone _).trans ((JsMap.get_set ..).trans (if_pos rfl))
      rw [List.filter_cons_of_pos (by simp [hget]), if_neg (by simpa using hl), List.map_cons, hrest]

end LastWins
