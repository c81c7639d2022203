-- SUMMARY: Ranks of name replies, their merge, and when the one reply of a routed name is final.
import Mathlib.Data.Rat.Defs
import Mathlib.Algebra.Order.Ring.Unbundled.Rat
import Sylvan.Data.Text
import Sylvan.Engine.RoutingFilter

/-!
# Name replies

A name several cards answer to is held by several partitions. Each answers with
its own best candidate and that candidate's rank, and the best rank of all wins.
A routing filter can name the partition to ask first: its reply is enough when no
other partition's can beat it.
-/

/-! ## Ranks -/

/-- A name lookup's rank on the wire, `[tier, name, served, tie, score]`. -/
structure NameRank where
  tier : ℕ
  name : String
  served : ℕ
  tie : String
  score : ℚ
  deriving DecidableEq

/-- Element by element: of two numbers the higher wins, of two strings the lower. -/
def NameRank.beats (a b : NameRank) : Bool :=
  if a.tier ≠ b.tier then b.tier < a.tier
  else if a.name ≠ b.name then Text.before a.name b.name
  else if a.served ≠ b.served then b.served < a.served
  else if a.tie ≠ b.tie then Text.before a.tie b.tie
  else if a.score ≠ b.score then b.score < a.score
  else false

/-- Whether exact-name rank `a` beats `b`, no rank losing to any. -/
def beatsExactRank (a : NameRank) : Option NameRank → Bool
  | none => true
  | some b => a.beats b

theorem NameRank.beats_asymm {a b : NameRank} (h : a.beats b = true) : b.beats a = false := by
  unfold NameRank.beats at h ⊢
  by_cases htier : a.tier = b.tier
  · by_cases hname : a.name = b.name
    · by_cases hserved : a.served = b.served
      · by_cases htie : a.tie = b.tie
        · simp [htier, hname, hserved, htie] at h ⊢
          exact fun _ => h.2.le
        · simp only [htier, hname, hserved, htie, ne_eq, not_true_eq_false, not_false_eq_true,
            if_false, if_true, Ne.symm htie] at h ⊢
          exact Text.before_asymm h
      · simp only [htier, hname, hserved, ne_eq, not_true_eq_false, not_false_eq_true,
          if_false, if_true, Ne.symm hserved, decide_eq_true_eq, decide_eq_false_iff_not] at h ⊢
        omega
    · simp only [htier, hname, ne_eq, not_true_eq_false, not_false_eq_true, if_false, if_true, Ne.symm hname] at h ⊢
      exact Text.before_asymm h
  · simp only [htier, ne_eq, not_false_eq_true, if_true, Ne.symm htier, decide_eq_true_eq, decide_eq_false_iff_not] at h ⊢
    omega

theorem NameRank.beats_of_tier {a b : NameRank} (h : b.tier < a.tier) : a.beats b = true := by
  rw [NameRank.beats, if_pos h.ne']
  exact decide_eq_true h

/-! ## Merging replies -/

/-- A reply to a name: the rank of the candidate it picked, and that candidate's card. -/
structure NamePick (Card : Type) where
  rank : Option NameRank
  card : Option Card
  deriving DecidableEq

namespace NamePick

variable {Card : Type}

def nothing : NamePick Card := { rank := none, card := none }

/-- The pick so far, or the next reply where that is strictly better: a tie keeps
the earlier one. -/
def offer (best reply : NamePick Card) : NamePick Card :=
  match reply.rank with
  | some rank => if beatsExactRank rank best.rank then reply else best
  | none => best

def best (replies : List (NamePick Card)) : NamePick Card := replies.foldl offer nothing

theorem offer_of_unranked {best reply : NamePick Card} (h : reply.rank = none) : best.offer reply = best := by
  rw [offer, h]

theorem offer_of_beats {best reply : NamePick Card} {rank : NameRank} (h : reply.rank = some rank)
    (hbeats : beatsExactRank rank best.rank = true) : best.offer reply = reply := by
  simp only [offer, h, hbeats, if_true]

theorem offer_of_beaten {best reply : NamePick Card} {rank rank' : NameRank}
    (hbest : best.rank = some rank) (h : reply.rank = some rank') (hbeats : rank.beats rank' = true) :
    best.offer reply = best := by
  have hnot : beatsExactRank rank' best.rank = false := by
    rw [hbest]
    exact NameRank.beats_asymm hbeats
  simp only [offer, h, hnot, Bool.false_eq_true, if_false]

section Merge

variable {α : Type} {f : α → NamePick Card}

theorem best_filter {keep : α → Bool} {l : List α}
    (h : ∀ x ∈ l, keep x = false → (f x).rank = none) :
    best ((l.filter keep).map f) = best (l.map f) := by
  unfold best
  generalize nothing = start
  induction l generalizing start with
  | nil => rfl
  | cons x l ih =>
    have ih' := ih fun y hy => h y (List.mem_cons_of_mem x hy)
    cases hx : keep x with
    | true =>
      rw [List.filter_cons_of_pos hx, List.map_cons, List.map_cons, List.foldl_cons, List.foldl_cons]
      exact ih' _
    | false =>
      rw [List.filter_cons_of_neg (by simp [hx]), List.map_cons, List.foldl_cons,
        offer_of_unranked (h x List.mem_cons_self hx)]
      exact ih' _

theorem foldl_of_beats {s : α} {rank : NameRank} (hs : (f s).rank = some rank) {l : List α}
    (h : ∀ x ∈ l, x ≠ s → ∀ r, (f x).rank = some r → rank.beats r = true) :
    (l.map f).foldl offer (f s) = f s := by
  induction l with
  | nil => rfl
  | cons x l ih =>
    rw [List.map_cons, List.foldl_cons]
    have hkeep : (f s).offer (f x) = f s := by
      by_cases hx : x = s
      · subst hx
        unfold offer
        split
        · exact ite_self _
        · rfl
      · cases hrank : (f x).rank with
        | none => exact offer_of_unranked hrank
        | some r => exact offer_of_beaten hs hrank (h x List.mem_cons_self hx r hrank)
    rw [hkeep]
    exact ih fun y hy => h y (List.mem_cons_of_mem x hy)

theorem best_of_beats {s : α} {rank : NameRank} (hs : (f s).rank = some rank) {l : List α}
    (hmem : s ∈ l) (h : ∀ x ∈ l, x ≠ s → ∀ r, (f x).rank = some r → rank.beats r = true) :
    best (l.map f) = f s := by
  -- Before `s` comes, the pick is a reply it beats, or none.
  suffices hstart : ∀ start : NamePick Card, beatsExactRank rank start.rank = true →
      (l.map f).foldl offer start = f s from hstart nothing rfl
  induction l with
  | nil => cases hmem
  | cons x l ih =>
    intro start hstart
    rw [List.map_cons, List.foldl_cons]
    have htail : ∀ y ∈ l, y ≠ s → ∀ r, (f y).rank = some r → rank.beats r = true :=
      fun y hy => h y (List.mem_cons_of_mem x hy)
    by_cases hx : x = s
    · subst hx
      rw [offer_of_beats hs hstart]
      exact foldl_of_beats hs htail
    · refine ih ((List.mem_cons.mp hmem).resolve_left (Ne.symm hx)) htail _ ?_
      unfold offer
      split
      · rename_i r hrank
        split
        · rw [hrank]
          exact h x List.mem_cons_self hx r hrank
        · exact hstart
      · exact hstart

end Merge

end NamePick

/-! ## Routes -/

def hintPartition : NameHint → ℤ
  | .sole sole => sole
  | .served served _ _ => served

def soleHint : Option NameHint → Option ℤ
  | some (.sole sole) => some sole
  | _ => none

def NAME_TIER_WHOLE : ℕ := 3

/-- Whether the one reply a routed name got, from the partition its hint names, is
the whole store's answer. -/
def nameReplySettles (hint : NameHint) (rank : Option NameRank) (present : Bool) : Bool :=
  match hint with
  | .sole _ => rank.isSome || present
  | .served _ rival needle =>
    match rank with
    | none => false
    | some rank =>
      match rival with
      -- a filter from before the builders spelled tiers
      | none => rank.served = 1
      | some rival =>
        if rival < rank.tier then true
        else rank.tier = rival && rank.tier = NAME_TIER_WHOLE && rank.served = 1 &&
          needle = some rank.name

/-- What a routing filter is read for, by any route. -/
structure Routing where
  lookup : String → Option ℕ
  hasNameKeys : Bool
  lookupName : String → Option NameHint

def RoutingFilter.Filter.routing (filter : RoutingFilter.Filter) : Routing where
  lookup := filter.lookup
  hasNameKeys := filter.hasNameKeys
  lookupName := filter.lookupName

def NAME_PREFIX : String := "nm:"

def DROPPED_TYPOGRAPHY : List Char := ['‘', '’', '“', '”', '–', '—']

def isAsciiAlnum (c : Char) : Bool :=
  Text.isDigit c || Text.isLower c || ('A' ≤ c && c ≤ 'Z')

/-- The collated form a folded name is keyed by, where it must be routed at all. -/
def collatedName (folded : String) : Option String :=
  let stripped := folded.toList.filter fun c => !(DROPPED_TYPOGRAPHY.contains c)
  if !(stripped.all fun c => c.toNat ≤ 0x7f) then none
  else
    let collated := stripped.filter isAsciiAlnum
    if collated.isEmpty then none else some (String.ofList collated)

def nameKey (folded : String) : Option String :=
  (collatedName folded).map fun collated => NAME_PREFIX ++ collated

/-- The filter's word on a folded name; a served route carries the needle its
whole-name reply must be named. -/
def nameHintOf (routing : Option Routing) (folded : String) : Option NameHint :=
  match routing, collatedName folded with
  | some routing, some collated =>
    if !routing.hasNameKeys then none
    else match routing.lookupName (NAME_PREFIX ++ collated) with
      | some (.served served rival _) => some (.served served rival (some collated))
      | hint => hint
  | _, _ => none

/-- What a served hint says of another partition's reply: only an extra, on the
rival tier at most, and no whole name before the needle. -/
structure RivalOf (rival : Option ℕ) (needle : Option String) (rank : NameRank) : Prop where
  extra : rank.served = 0
  tier : ∀ t, rival = some t → rank.tier ≤ t
  name : ∀ name, needle = some name → rank.tier = NAME_TIER_WHOLE → rank.name = name ∨ Text.before name rank.name = true

theorem nameReplySettles_beats {served : ℤ} {t : ℕ} {needle : Option String} {rank r : NameRank}
    {present : Bool} (h : nameReplySettles (.served served (some t) needle) (some rank) present = true)
    (hrival : RivalOf (some t) needle r) : rank.beats r = true := by
  have htier : r.tier ≤ t := hrival.tier t rfl
  simp only [nameReplySettles] at h
  split at h
  · exact NameRank.beats_of_tier (by omega)
  · simp only [Bool.and_eq_true, decide_eq_true_eq] at h
    obtain ⟨⟨⟨hrank, hwhole⟩, hserved⟩, hneedle⟩ := h
    by_cases hlow : r.tier = rank.tier
    · -- Both whole names: the needle comes first, and of one name the served card.
      rcases hrival.name rank.name hneedle (hlow.trans hwhole) with hname | hname
      · have hextra := hrival.extra
        simp [NameRank.beats, hlow, hname, hserved, hextra]
      · have hne : rank.name ≠ r.name := by
          intro heq
          rw [← heq, Text.before_irrefl] at hname
          cases hname
        simp [NameRank.beats, hlow, hne, hname]
    · exact NameRank.beats_of_tier (by omega)
