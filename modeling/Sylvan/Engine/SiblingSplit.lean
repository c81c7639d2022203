-- SUMMARY: A cold gather's grouped sibling calls: planned by partition, and answered as the ungrouped calls would be.
import Mathlib.Data.List.Nodup
import Sylvan.Data.JsMap

/-!
# Split gathers

The first asks of the grouped partitions are sent as one call. What that call does not answer
is asked of the partition's own client.
-/

namespace SiblingSplit

open JsMap

/-! ## The plan -/

structure SplitPlan where
  direct : List ℕ
  grouped : List ℕ
  waking : ℕ
deriving DecidableEq

def siblings (width : ℕ) (own : Option ℕ) : List ℕ := (List.range width).filter fun p => some p ≠ own

def planSplit (width : ℕ) (own : Option ℕ) (mayBeWaking : ℕ → Bool) (limit : ℕ) : Option SplitPlan :=
  let all := siblings width own
  if own = none ∨ all.length ≤ limit ∨ limit < 2 then none
  else
    let waking := all.countP mayBeWaking
    if waking ≤ limit then none
    else some { direct := all.take (limit - 1), grouped := all.drop (limit - 1), waking }

theorem planSplit_covers {width limit : ℕ} {own : Option ℕ} {mayBeWaking : ℕ → Bool} {plan : SplitPlan}
    (h : planSplit width own mayBeWaking limit = some plan) :
    (plan.direct ++ plan.grouped).Nodup ∧ ∀ p, p ∈ plan.direct ++ plan.grouped ↔ p < width ∧ some p ≠ own := by
  have hall : plan.direct ++ plan.grouped = siblings width own := by
    unfold planSplit at h
    dsimp only at h
    split_ifs at h
    obtain rfl := Option.some.inj h
    exact List.take_append_drop _ _
  rw [hall]
  exact ⟨List.nodup_range.filter _, fun p => by simp [siblings]⟩

/-! ## The calls -/

section

-- What `searchKeys` is asked with, compared by identity; what it answers, and the errors it throws.
variable {A R E : Type} [DecidableEq A]

structure GroupedKeys (R E : Type) where
  partition : ℕ
  outcome : Except E R

-- What each partition's own client answers.
variable (client : ℕ → A → Except E R)

/-- The second invocation asks each of the partitions; its call to one may be lost. -/
def searchKeysGroup (lost : ℕ → Option E) (partitions : List ℕ) (args : A) : List (GroupedKeys R E) :=
  partitions.map fun partition =>
    { partition, outcome := match lost partition with | some error => .error error | none => client partition args }

/-- What the clients of one gather share. -/
structure Split (A R E : Type) where
  /-- The group's arguments, and its calls unless the call to it failed. -/
  group : Option (A × Option (List (GroupedKeys R E)))
  spent : JsSet ℕ
  heard : List (GroupedKeys R E)
  /-- The arguments of every call to the group. -/
  sent : List A

def Split.start : Split A R E := ⟨none, [], [], []⟩

-- The partitions of the group, and what befalls the call to it: it fails, or loses some of its calls.
variable (grouped : List ℕ) (fate : Option (ℕ → Option E))

def sendGroup (args : A) : Option (List (GroupedKeys R E)) :=
  fate.map fun lost => searchKeysGroup client lost grouped args

def Split.ask (s : Split A R E) (partition : ℕ) (args : A) : Split A R E :=
  let s := { s with spent := s.spent.add partition }
  match s.group with
  | none => { s with group := some (args, sendGroup client grouped fate args), sent := s.sent ++ [args] }
  | some _ => s

/-- `searchKeys` of the client `splitClients` gives for a partition. -/
def searchKeys (s : Split A R E) (partition : ℕ) (args : A) : Split A R E × Except E R :=
  if partition ∉ grouped then (s, client partition args)
  else if partition ∈ s.spent then (s, client partition args)
  else
    let s := s.ask client grouped fate partition args
    match s.group with
    | none => (s, client partition args)
    | some (asked, answered) =>
      if asked ≠ args then (s, client partition args)
      else
        match (answered.getD []).find? fun entry => entry.partition = partition with
        | none => (s, client partition args)
        | some entry =>
          let s := { s with heard := s.heard ++ [entry] }
          match entry.outcome with
          | .ok reply => (s, .ok reply)
          | .error _ => (s, client partition args)

def searchAll (s : Split A R E) : List (ℕ × A) → Split A R E × List (Except E R)
  | [] => (s, [])
  | (partition, args) :: asks =>
    let (s, reply) := searchKeys client grouped fate s partition args
    let (s, replies) := searchAll s asks
    (s, reply :: replies)

/-- The group was sent at most once, and what came of it is what it answers. -/
def Sound (s : Split A R E) : Prop :=
  (s.group = none ∧ s.spent = [] ∧ s.sent = []) ∨
    ∃ args, s.group = some (args, sendGroup client grouped fate args) ∧ s.sent = [args]

variable {client grouped fate}

omit [DecidableEq A] in
theorem Sound.ask {s : Split A R E} (h : Sound client grouped fate s) (partition : ℕ) (args : A) :
    ∃ asked, (s.ask client grouped fate partition args).group = some (asked, sendGroup client grouped fate asked) ∧
      (s.ask client grouped fate partition args).sent = [asked] := by
  rcases h with ⟨hgroup, -, hsent⟩ | ⟨asked, hgroup, hsent⟩
  · exact ⟨args, by simp [Split.ask, hgroup, hsent]⟩
  · exact ⟨asked, by simp [Split.ask, hgroup, hsent]⟩

omit [DecidableEq A] in
theorem outcome_of_find {partition : ℕ} {args : A} {entry : GroupedKeys R E} {reply : R}
    (hfind : ((sendGroup client grouped fate args).getD []).find? (fun entry => entry.partition = partition) = some entry)
    (hreply : entry.outcome = .ok reply) : client partition args = .ok reply := by
  have hpartition := List.find?_some hfind
  have hmem := List.mem_of_find?_eq_some hfind
  cases fate with
  | none => cases hmem
  | some lost =>
    obtain ⟨p, -, rfl⟩ := List.mem_map.mp hmem
    obtain rfl := of_decide_eq_true hpartition
    dsimp only at hreply
    split at hreply
    · cases hreply
    · exact hreply

/-- One call gives what the ungrouped client gives, and a grouped partition's sees to it that the group is sent. -/
theorem Sound.searchKeys {s : Split A R E} (h : Sound client grouped fate s) (partition : ℕ) (args : A) :
    (searchKeys client grouped fate s partition args).2 = client partition args ∧
      Sound client grouped fate (searchKeys client grouped fate s partition args).1 ∧
      ((searchKeys client grouped fate s partition args).1.sent = [] ↔ s.sent = [] ∧ partition ∉ grouped) := by
  unfold SiblingSplit.searchKeys
  by_cases hin : partition ∉ grouped
  · rw [if_pos hin]
    exact ⟨rfl, h, by simp [hin]⟩
  rw [if_neg hin]
  by_cases hspent : partition ∈ s.spent
  · rw [if_pos hspent]
    refine ⟨rfl, h, ?_⟩
    rcases h with ⟨-, hnone, -⟩ | ⟨asked, -, hsent⟩
    · rw [hnone] at hspent
      cases hspent
    · simp [hsent]
  rw [if_neg hspent]
  obtain ⟨asked, hgroup, hsent⟩ := h.ask partition args
  generalize s.ask client grouped fate partition args = s' at hgroup hsent ⊢
  have hsound : Sound client grouped fate s' := .inr ⟨asked, hgroup, hsent⟩
  simp only [hgroup]
  split_ifs with hargs
  · exact ⟨rfl, hsound, by simp [hsent, hin]⟩
  · obtain rfl : asked = args := not_not.mp hargs
    cases hfind : ((sendGroup client grouped fate asked).getD []).find? (fun entry => entry.partition = partition) with
    | none => exact ⟨rfl, hsound, by simp [hsent, hin]⟩
    | some entry =>
      dsimp only
      cases houtcome : entry.outcome with
      | error error => exact ⟨rfl, .inr ⟨asked, rfl, hsent⟩, by simp [hsent, hin]⟩
      | ok reply => exact ⟨(outcome_of_find hfind houtcome).symm, .inr ⟨asked, rfl, hsent⟩, by simp [hsent, hin]⟩

theorem Sound.searchAll {asks : List (ℕ × A)} {s : Split A R E} (h : Sound client grouped fate s) :
    (searchAll client grouped fate s asks).2 = asks.map (fun ask => client ask.1 ask.2) ∧
      Sound client grouped fate (searchAll client grouped fate s asks).1 ∧
      ((searchAll client grouped fate s asks).1.sent = [] ↔ s.sent = [] ∧ ∀ ask ∈ asks, ask.1 ∉ grouped) := by
  induction asks generalizing s with
  | nil => exact ⟨rfl, h, by simp [SiblingSplit.searchAll]⟩
  | cons ask asks ih =>
    obtain ⟨hreply, hsound, hsent⟩ := h.searchKeys ask.1 ask.2
    obtain ⟨hreplies, hsound', hsent'⟩ := ih hsound
    refine ⟨congrArg₂ List.cons hreply hreplies, hsound', hsent'.trans ?_⟩
    rw [hsent, List.forall_mem_cons, and_assoc]

/-- **Split calls are transparent**: whatever befalls the group, every ask gets what its own client gives; the
    plan asks every sibling once; and the group is sent once, if any of its partitions is asked. -/
theorem split_transparent {width limit : ℕ} {own : Option ℕ} {mayBeWaking : ℕ → Bool} {plan : SplitPlan}
    (h : planSplit width own mayBeWaking limit = some plan) (client : ℕ → A → Except E R)
    (fate : Option (ℕ → Option E)) (asks : List (ℕ × A)) :
    (searchAll client plan.grouped fate .start asks).2 = asks.map (fun ask => client ask.1 ask.2) ∧
      (plan.direct ++ plan.grouped).Nodup ∧ (∀ p, p ∈ plan.direct ++ plan.grouped ↔ p < width ∧ some p ≠ own) ∧
      (searchAll client plan.grouped fate .start asks).1.sent.length =
        if ∃ ask ∈ asks, ask.1 ∈ plan.grouped then 1 else 0 := by
  obtain ⟨hnodup, hcovers⟩ := planSplit_covers h
  obtain ⟨hreplies, hsound, hsent⟩ := @Sound.searchAll A R E _ client plan.grouped fate asks .start (.inl ⟨rfl, rfl, rfl⟩)
  refine ⟨hreplies, hnodup, hcovers, ?_⟩
  split_ifs with hasked
  · rcases hsound with ⟨-, -, hnone⟩ | ⟨args, -, hone⟩
    · obtain ⟨ask, hask, hin⟩ := hasked
      exact absurd hin ((hsent.mp hnone).2 ask hask)
    · rw [hone]
      rfl
  · rw [hsent.mpr ⟨rfl, fun ask hask hin => hasked ⟨ask, hask, hin⟩⟩]
    rfl

end

/-- Twelve partitions, the fifth asking: its siblings from the sixth on are grouped, and the group's call to
    the last one is lost. -/
theorem split_twelve : ∃ plan, planSplit 12 (some 5) (fun _ => true) 6 = some plan ∧
    (searchAll (fun p (_ : Unit) => (.ok p : Except String ℕ)) plan.grouped (some fun p => if p = 11 then some "reset" else none)
      .start [(0, ()), (7, ()), (11, ()), (7, ())]).2 = [.ok 0, .ok 7, .ok 11, .ok 7] := by
  obtain ⟨plan, hplan⟩ := Option.isSome_iff_exists.mp
    (show (planSplit 12 (some 5) (fun _ => true) 6).isSome = true by decide +kernel)
  exact ⟨plan, hplan, (split_transparent hplan _ _ _).1⟩

end SiblingSplit
