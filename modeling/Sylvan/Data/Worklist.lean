-- SUMMARY: A depth-first walk of a finite graph by a stack and a visited set, and that it meets what is reachable.
import Mathlib.Data.Finset.Card
import Mathlib.Data.Finset.Dedup
import Mathlib.Logic.Relation

/-!
# Walking a graph

The walk pops a node, skips it when it was visited, and otherwise pushes those of its
successors that were not. It ends because every edge ends in a finite list of nodes.
-/

namespace Worklist

variable {α : Type*} [DecidableEq α]

/-- A graph whose edges end in a finite list of nodes. -/
structure Graph (α : Type*) where
  next : α → List α
  ends : List α
  mem_ends : ∀ a b, b ∈ next a → b ∈ ends

namespace Graph

variable (g : Graph α)

def unmet (visited stack : List α) : Finset α := (g.ends.toFinset ∪ stack.toFinset) \ visited.toFinset

theorem unmet_skip (visited stack : List α) (a : α) : (g.unmet visited stack).card ≤ (g.unmet visited (a :: stack)).card := by
  apply Finset.card_le_card
  intro b hb
  simp only [unmet, Finset.mem_sdiff, Finset.mem_union, List.mem_toFinset, List.mem_cons] at hb ⊢
  tauto

theorem unmet_visit {visited stack pushed : List α} {a : α} (ha : a ∉ visited) (hpushed : ∀ b ∈ pushed, b ∈ g.next a) :
    (g.unmet (a :: visited) (pushed ++ stack)).card < (g.unmet visited (a :: stack)).card := by
  apply Finset.card_lt_card
  refine Finset.ssubset_iff_subset_ne.mpr ⟨?_, ?_⟩
  · intro b hb
    have hends : b ∈ pushed → b ∈ g.ends := fun hb => g.mem_ends a b (hpushed b hb)
    simp only [unmet, Finset.mem_sdiff, Finset.mem_union, List.mem_toFinset, List.mem_cons, List.mem_append] at hb ⊢
    tauto
  · intro heq
    have hmem : a ∈ g.unmet visited (a :: stack) := by simp [unmet, ha]
    rw [← heq] at hmem
    simp [unmet] at hmem

def pushed (visited : List α) (a : α) : List α := ((g.next a).filter (· ∉ visited)).reverse

theorem mem_pushed {visited : List α} {a b : α} : b ∈ g.pushed visited a ↔ b ∈ g.next a ∧ b ∉ visited := by
  rw [pushed, List.mem_reverse, List.mem_filter, decide_eq_true_eq]

def walk (visited : List α) : List α → List α
  | [] => []
  | current :: stack =>
    if _h : current ∈ visited then walk visited stack
    else current :: walk (current :: visited) (g.pushed (current :: visited) current ++ stack)
termination_by stack => ((g.unmet visited stack).card, stack.length)
decreasing_by
  · rcases Nat.lt_or_eq_of_le (g.unmet_skip visited stack current) with hlt | heq
    · exact Prod.Lex.left _ _ hlt
    · rw [heq]
      exact Prod.Lex.right _ (Nat.lt_succ_self _)
  · apply Prod.Lex.left
    apply g.unmet_visit _h
    intro b hb
    exact (g.mem_pushed.mp hb).1

def Edge (a b : α) : Prop := b ∈ g.next a

/-- The walk meets only what the stack reaches. Induction on the walk. -/
theorem walk_sound {visited stack : List α} {b : α} (h : b ∈ g.walk visited stack) :
    ∃ a ∈ stack, Relation.ReflTransGen g.Edge a b := by
  induction visited, stack using walk.induct g with
  | case1 visited =>
    rw [walk] at h
    cases h
  | case2 visited current stack hmem ih =>
    rw [walk, dif_pos hmem] at h
    obtain ⟨a, ha, hreach⟩ := ih h
    exact ⟨a, List.mem_cons_of_mem _ ha, hreach⟩
  | case3 visited current stack hmem ih =>
    rw [walk, dif_neg hmem] at h
    rcases List.mem_cons.mp h with rfl | h
    · exact ⟨b, by simp, .refl⟩
    · obtain ⟨a, ha, hreach⟩ := ih h
      rcases List.mem_append.mp ha with ha | ha
      · have hedge : g.Edge current a := (g.mem_pushed.mp ha).1
        exact ⟨current, by simp, hreach.head hedge⟩
      · exact ⟨a, List.mem_cons_of_mem _ ha, hreach⟩

/-- Successors of what was visited are visited or on the stack. -/
def Pending (visited stack : List α) : Prop := ∀ a ∈ visited, ∀ b ∈ g.next a, b ∈ visited ∨ b ∈ stack

/-- What was visited before or in the walk has the stack in it and is closed under edges.
Induction on the walk; `Pending` is the invariant. -/
theorem walk_closed {visited stack : List α} (h : g.Pending visited stack) :
    (∀ a ∈ stack, a ∈ visited ∨ a ∈ g.walk visited stack) ∧
      ∀ a, a ∈ visited ∨ a ∈ g.walk visited stack → ∀ b ∈ g.next a, b ∈ visited ∨ b ∈ g.walk visited stack := by
  induction visited, stack using walk.induct g with
  | case1 visited =>
    rw [walk]
    refine ⟨by simp, ?_⟩
    intro a ha b hb
    rcases ha with ha | ha
    · exact h a ha b hb
    · cases ha
  | case2 visited current stack hmem ih =>
    rw [walk, dif_pos hmem]
    have hpending : g.Pending visited stack := by
      intro a ha b hb
      rcases h a ha b hb with hvisited | hstack
      · exact .inl hvisited
      · rcases List.mem_cons.mp hstack with rfl | hstack
        · exact .inl hmem
        · exact .inr hstack
    obtain ⟨hall, hclosed⟩ := ih hpending
    refine ⟨?_, hclosed⟩
    intro a ha
    rcases List.mem_cons.mp ha with rfl | ha
    · exact .inl hmem
    · exact hall a ha
  | case3 visited current stack hmem ih =>
    rw [walk, dif_neg hmem]
    have hpush : ∀ b ∈ g.next current, b ∈ current :: visited ∨ b ∈ g.pushed (current :: visited) current ++ stack := by
      intro b hb
      by_cases hvisited : b ∈ current :: visited
      · exact .inl hvisited
      · exact .inr (List.mem_append.mpr (.inl (g.mem_pushed.mpr ⟨hb, hvisited⟩)))
    have hpending : g.Pending (current :: visited)
        (g.pushed (current :: visited) current ++ stack) := by
      intro a ha b hb
      rcases List.mem_cons.mp ha with rfl | ha
      · exact hpush b hb
      · rcases h a ha b hb with hvisited | hstack
        · exact .inl (List.mem_cons_of_mem _ hvisited)
        · rcases List.mem_cons.mp hstack with rfl | hstack
          · exact .inl (by simp)
          · exact .inr (List.mem_append.mpr (.inr hstack))
    obtain ⟨hall, hclosed⟩ := ih hpending
    -- visiting a node moves it from one side to the other
    have hmove : ∀ a, (a ∈ current :: visited ∨
        a ∈ g.walk (current :: visited) (g.pushed (current :: visited) current ++ stack)) ↔ (a ∈ visited ∨ a ∈ current ::
            g.walk (current :: visited) (g.pushed (current :: visited) current ++ stack)) := by
      intro a
      simp only [List.mem_cons]
      tauto
    refine ⟨?_, ?_⟩
    · intro a ha
      rw [← hmove]
      rcases List.mem_cons.mp ha with rfl | ha
      · exact .inl (by simp)
      · exact hall a (List.mem_append.mpr (.inr ha))
    · intro a ha b hb
      rw [← hmove] at ha ⊢
      exact hclosed a ha b hb

/-- **A walk from a node's successors meets, with the node, what the node reaches.** -/
theorem mem_walk_iff (a b : α) : (b = a ∨ b ∈ g.walk [a] (g.next a).reverse) ↔ Relation.ReflTransGen g.Edge a b := by
  constructor
  · rintro (rfl | h)
    · exact .refl
    · obtain ⟨c, hc, hreach⟩ := g.walk_sound h
      exact hreach.head (List.mem_reverse.mp hc)
  · intro hreach
    have hpending : g.Pending [a] (g.next a).reverse := by
      intro c hc b hb
      rw [List.mem_singleton.mp hc] at hb
      exact .inr (List.mem_reverse.mpr hb)
    obtain ⟨-, hclosed⟩ := g.walk_closed hpending
    have hall : ∀ b, Relation.ReflTransGen g.Edge a b → b ∈ [a] ∨ b ∈ g.walk [a] (g.next a).reverse := by
      intro b hreach
      induction hreach with
      | refl => exact .inl (by simp)
      | tail _ hedge ih => exact hclosed _ ih _ hedge
    exact (hall b hreach).imp_left List.mem_singleton.mp

end Graph

end Worklist
