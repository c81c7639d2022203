-- SUMMARY: Observations folded into sets and maps: what they hold under a key, and when it depends on the observations alone.
import Mathlib.Data.List.Perm.Basic
import Sylvan.Data.JsMap

/-!
# Gathering

A pass over many rows puts each row's part under the row's key. What a key holds at the
end is the fold of the parts put under it; where the order and the repeats of those parts
do not matter, it is a function of which parts were seen.
-/

namespace Gathered

variable {α σ κ β : Type*}

/-! ## Folds -/

theorem foldl_absorb {step : σ → α → σ} {l : List α} {a : α} (ha : a ∈ l)
    (hcomm : ∀ b ∈ l, ∀ s, step (step s a) b = step (step s b) a) (hidem : ∀ s, step (step s a) a = step s a) (s : σ) :
    l.foldl step (step s a) = l.foldl step s := by
  induction l generalizing s with
  | nil => cases ha
  | cons b l ih =>
    rw [List.foldl_cons, List.foldl_cons]
    rcases List.mem_cons.mp ha with rfl | ha
    · rw [hidem]
    · rw [hcomm b (by simp)]
      exact ih ha (fun c hc => hcomm c (by simp [hc])) (step s b)

theorem foldl_same {step : σ → α → σ} {l l' : List α} (hsame : ∀ a, a ∈ l ↔ a ∈ l')
    (hcomm : ∀ a ∈ l, ∀ b ∈ l, ∀ s, step (step s a) b = step (step s b) a)
    (hidem : ∀ a ∈ l, ∀ s, step (step s a) a = step s a) (s : σ) : l.foldl step s = l'.foldl step s := by
  have hadd : ∀ (more whole : List α), (∀ a ∈ more, a ∈ whole) → (∀ a ∈ whole, a ∈ l) → ∀ s,
      (more ++ whole).foldl step s = whole.foldl step s := by
    intro more whole hmore hwhole
    induction more with
    | nil => exact fun s => rfl
    | cons a more ih =>
      intro s
      have hain : a ∈ whole := hmore a (by simp)
      rw [List.cons_append, List.foldl_cons, ih fun b hb => hmore b (by simp [hb])]
      exact foldl_absorb hain (fun b hb => hcomm a (hwhole a hain) b (hwhole b hb)) (hidem a (hwhole a hain)) s
  have hperm : (l' ++ l).foldl step s = (l ++ l').foldl step s := by
    apply List.Perm.foldl_eq' List.perm_append_comm
    intro a ha b hb s
    have hin : ∀ c ∈ l' ++ l, c ∈ l := by
      intro c hc
      rcases List.mem_append.mp hc with hc | hc
      · exact (hsame c).mpr hc
      · exact hc
    exact (hcomm a (hin a ha) b (hin b hb) s)
  calc
    l.foldl step s = (l' ++ l).foldl step s := (hadd l' l (fun a ha => (hsame a).mpr ha) (fun a ha => ha) s).symm
    _ = (l ++ l').foldl step s := hperm
    _ = l'.foldl step s := hadd l l' (fun a ha => (hsame a).mp ha) (fun a ha => (hsame a).mpr ha) s

/-! ## Sets -/

section

variable [DecidableEq κ] (key : α → Option κ)

def collect (s : JsSet κ) (l : List α) : JsSet κ :=
  l.foldl (fun s a => match key a with
    | some k => s.add k
    | none => s) s

variable {key} in
theorem mem_collect {s : JsSet κ} {l : List α} {k : κ} : k ∈ collect key s l ↔ k ∈ s ∨ ∃ a ∈ l, key a = some k := by
  induction l generalizing s with
  | nil => simp [collect]
  | cons a l ih =>
    rw [show collect key s (a :: l) = collect key (match key a with
      | some k => s.add k
      | none => s) l from rfl, ih]
    cases hkey : key a with
    | none => simp [hkey]
    | some k' => simp [hkey, JsSet.mem_add, or_assoc, eq_comm (a := k)]

/-! ## Maps -/

variable (put : Option β → α → β)

def gather (m : JsMap κ β) (l : List α) : JsMap κ β :=
  l.foldl (fun m a => match key a with
    | some k => m.update k fun held => put held a
    | none => m) m

theorem get_gather (m : JsMap κ β) (l : List α) (k : κ) : (gather key put m l).get k =
      (l.filter fun a => key a = some k).foldl (fun held a => some (put held a)) (m.get k) := by
  induction l generalizing m with
  | nil => rfl
  | cons a l ih =>
    rw [show gather key put m (a :: l) = gather key put (match key a with
      | some k => m.update k fun held => put held a
      | none => m) l from rfl, ih]
    cases hkey : key a with
    | none => rw [List.filter_cons_of_neg (by simp [hkey])]
    | some k' =>
      by_cases hk : k' = k
      · subst hk
        rw [List.filter_cons_of_pos (by simp [hkey]), List.foldl_cons, JsMap.get_update, if_pos rfl]
      · rw [List.filter_cons_of_neg (by simpa [hkey] using hk), JsMap.get_update, if_neg hk]

variable {key put}

/-- Rows whose order and repeats do not matter: what a key holds is decided by which rows there are under it. -/
theorem get_gather_same {l l' : List α} {k : κ} (hsame : ∀ a, key a = some k → (a ∈ l ↔ a ∈ l'))
    (hcomm : ∀ a ∈ l, ∀ b ∈ l, key a = some k → key b = some k → ∀ held,
      put (some (put held a)) b = put (some (put held b)) a)
    (hidem : ∀ a ∈ l, key a = some k → ∀ held, put (some (put held a)) a = put held a) :
    (gather key put .empty l).get k = (gather key put .empty l').get k := by
  rw [get_gather, get_gather]
  refine foldl_same ?_ ?_ ?_ _
  · intro a
    simp only [List.mem_filter, decide_eq_true_eq]
    constructor
    · rintro ⟨ha, hkey⟩
      exact ⟨(hsame a hkey).mp ha, hkey⟩
    · rintro ⟨ha, hkey⟩
      exact ⟨(hsame a hkey).mpr ha, hkey⟩
  · intro a ha b hb held
    simp only [List.mem_filter, decide_eq_true_eq] at ha hb
    rw [hcomm a ha.1 b hb.1 ha.2 hb.2]
  · intro a ha held
    simp only [List.mem_filter, decide_eq_true_eq] at ha
    rw [hidem a ha.1 ha.2]

end

/-! ## Least -/

section Least

variable [Min α]

/-- The lesser of what is held and another. -/
def least (held : Option α) (a : α) : α := held.elim a (min · a)

theorem foldl_least (l : List α) : l.foldl (fun held a => some (least held a)) none = l.min? := by
  cases l with
  | nil => rfl
  | cons a l =>
    have hrun : ∀ a, l.foldl (fun held b => some (least held b)) (some a) = some (l.foldl min a) := by
      induction l with
      | nil => exact fun _ => rfl
      | cons b l ih => exact fun a => ih (min a b)
    exact hrun a

end Least

/-! ## Counts -/

def tally (held : Option ℕ) (_ : α) : ℕ := held.getD 0 + 1

end Gathered
