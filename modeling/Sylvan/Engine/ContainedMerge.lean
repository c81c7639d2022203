-- SUMMARY: When the containment merge over partitions tells what one store holding every card tells.
import Sylvan.Data.Tiers
import Sylvan.Engine.NamedFuzzy

/-!
# Containment over a split corpus

A store ranks the cards whose names carry every word: English names before printed ones,
and within each a name that is the whole query alone. It answers from its highest tier, and
the caller reads only how many distinct names came back. The merge ranks the partitions'
answers again, after keeping one answer of each name.
-/

namespace NamedFuzzy

open Tiers

/-! ## Tiers -/

/-- Where a card whose names carry the words stands, lowest first. -/
inductive ContainmentTier where
  | printed
  | printedWhole
  | english
  | englishWhole
deriving DecidableEq, Repr

namespace ContainmentTier

def rank : ContainmentTier → ℕ
  | printed => 0
  | printedWhole => 1
  | english => 2
  | englishWhole => 3

instance : LinearOrder ContainmentTier :=
  LinearOrder.lift' rank fun a b h => by cases a <;> cases b <;> first | rfl | cases h

def whole : ContainmentTier → Bool
  | printedWhole | englishWhole => true
  | printed | english => false

end ContainmentTier

variable {Card : Type}

section

variable (unseparated : String → String) (names : Card → CardNames) (words : List String)

def nameOf (card : Card) : String := (names card).name.getD ""

def needlesOf : List String := (words.map unseparated).filter (· ≠ "")

/-- The oracle and flavor names alone carry every word. -/
def isEnglish (card : Card) : Bool :=
  let pool := [(names card).name, flavorKeyOf (names card)].map fun n => (n.map unseparated).getD ""
  (needlesOf unseparated words).all fun w => pool.any fun n => Text.includes n.toList w.toList

def equalsWhole (pool : List (Option String)) : Bool :=
  pool.any fun n => n.map unseparated = some (String.join (words.map unseparated))

def tierOf (card : Card) : ContainmentTier :=
  if isEnglish unseparated names words card then
    if equalsWhole unseparated words [(names card).name, flavorKeyOf (names card)] then .englishWhole else .english
  else if equalsWhole unseparated words [(names card).name, (names card).printed_name] then .printedWhole
  else .printed

end

/-! ## What one store answers -/

section

variable (name : Card → String) (tier : Card → ContainmentTier)

/-- What the caller reads off a containment answer. -/
inductive Told where
  | nothing
  | one (name : String)
  | several
deriving DecidableEq, Repr

def tell : List Card → Told
  | [] => .nothing
  | [card] => .one (name card)
  | _ :: _ :: _ => .several

/-- What one store may answer of the cards it found: a name that is the whole query alone, else distinct
    names of its highest tier, all of them or as many as the limit. -/
inductive StoreAnswer (limit : ℕ) (found : List Card) : List Card → Prop where
  | nothing (h : found = []) : StoreAnswer limit found []
  | whole (card : Card) (h : card ∈ best tier found) (hwhole : (tier card).whole) :
      StoreAnswer limit found [card]
  | names (answer : List Card) (hfound : found ≠ [])
      (hplain : ∀ card ∈ best tier found, (tier card).whole = false)
      (hbest : ∀ card ∈ answer, card ∈ best tier found) (hnodup : (answer.map name).Nodup)
      (hlimit : answer.length ≤ limit)
      (hall : answer.length = limit ∨ ∀ card ∈ best tier found, name card ∈ answer.map name) :
      StoreAnswer limit found answer

/-- The highest tier holds several names, and none of them is the query. -/
def Several (found : List Card) : Prop :=
  ∃ c ∈ best tier found, ∃ d ∈ best tier found, (tier c).whole = false ∧ name c ≠ name d

def Tells (found : List Card) : Told → Prop
  | .nothing => found = []
  | .one n => (∃ c ∈ best tier found, name c = n) ∧ ¬ Several name tier found
  | .several => Several name tier found

def pick (limit : ℕ) (cards : List Card) : List Card :=
  match best tier cards with
  | [] => []
  | card :: rest => if (tier card).whole then [card] else (card :: rest).take limit

variable {name : Card → String} {tier : Card → ContainmentTier} {limit : ℕ} {found answer : List Card}

theorem not_several_of_whole {card : Card} (h : card ∈ best tier found) (hwhole : (tier card).whole) :
    ¬ Several name tier found := by
  rintro ⟨c, hc, d, hd, hplain, -⟩
  rw [tier_eq_of_mem_best hc h, hwhole] at hplain
  cases hplain

theorem StoreAnswer.tells (hlimit : 2 ≤ limit) (h : StoreAnswer name tier limit found answer) :
    Tells name tier found (tell name answer) := by
  cases h with
  | nothing h => exact h
  | whole card h hwhole => exact ⟨⟨card, h, rfl⟩, not_several_of_whole h hwhole⟩
  | names answer hfound hplain hbest hnodup hlimit' hall =>
    cases answer with
    | nil =>
      have hsome : ∃ card, card ∈ best tier found := exists_mem_best hfound
      obtain ⟨card, hcard⟩ := hsome
      rcases hall with hall | hall
      · simp only [List.length_nil] at hall
        omega
      · exact absurd (hall card hcard) (by simp)
    | cons card rest =>
      cases rest with
      | nil =>
        have hall : ∀ c ∈ best tier found, name c = name card := by
          rcases hall with hall | hall
          · simp only [List.length_singleton] at hall
            omega
          · simpa using hall
        refine ⟨⟨card, hbest card List.mem_cons_self, rfl⟩, ?_⟩
        rintro ⟨c, hc, d, hd, -, hne⟩
        exact hne ((hall c hc).trans (hall d hd).symm)
      | cons card' rest =>
        have hmem := hbest card List.mem_cons_self
        have hmem' := hbest card' (List.mem_cons_of_mem card List.mem_cons_self)
        refine ⟨card, hmem, card', hmem', hplain card hmem, fun heq => ?_⟩
        simp [heq] at hnodup

theorem Tells.exists_storeAnswer (hlimit : 2 ≤ limit) {told : Told} (h : Tells name tier found told) :
    ∃ answer, StoreAnswer name tier limit found answer ∧ tell name answer = told := by
  cases told with
  | nothing => exact ⟨[], .nothing h, rfl⟩
  | one n =>
    obtain ⟨⟨card, hcard, rfl⟩, hsame⟩ := h
    refine ⟨[card], ?_, rfl⟩
    cases hwhole : (tier card).whole with
    | true => exact .whole card hcard hwhole
    | false =>
      have hplain : ∀ c ∈ best tier found, (tier c).whole = false := fun c hc =>
        tier_eq_of_mem_best hcard hc ▸ hwhole
      refine .names [card] (List.ne_nil_of_mem (mem_of_mem_best hcard)) hplain (by simpa using hcard)
        (by simp) (by simp; omega) (.inr fun c hc => ?_)
      by_contra hne
      exact hsame ⟨c, hc, card, hcard, hplain c hc, by simpa using hne⟩
  | several =>
    have hanswer : StoreAnswer name tier limit found ((firsts name (best tier found)).take limit) := by
      obtain ⟨c, hc, d, hd, hplain, hne⟩ := h
      refine .names _ (List.ne_nil_of_mem (mem_of_mem_best hc)) (fun e he =>
        tier_eq_of_mem_best hc he ▸ hplain) (fun e he => mem_of_mem_firsts (List.mem_of_mem_take he))
        ((nodup_firsts _).sublist ((List.take_sublist _ _).map name)) (List.length_take_le _ _) ?_
      rw [List.length_take]
      rcases Nat.lt_or_ge (firsts name (best tier found)).length limit with hlt | hge
      · refine .inr fun e he => ?_
        rw [List.take_of_length_le hlt.le]
        exact List.mem_map.mpr (exists_mem_firsts he)
      · exact .inl (Nat.min_eq_left hge)
    refine ⟨_, hanswer, ?_⟩
    have htells := hanswer.tells hlimit
    cases htold : tell name ((firsts name (best tier found)).take limit) with
    | nothing =>
      rw [htold] at htells
      obtain ⟨c, hc, -⟩ := h
      exact absurd htells (List.ne_nil_of_mem (mem_of_mem_best hc))
    | one n =>
      rw [htold] at htells
      exact absurd h htells.2
    | several => rfl

theorem exists_storeAnswer_iff (hlimit : 2 ≤ limit) {told : Told} :
    (∃ answer, StoreAnswer name tier limit found answer ∧ tell name answer = told) ↔ Tells name tier found told := by
  constructor
  · rintro ⟨answer, hanswer, rfl⟩
    exact hanswer.tells hlimit
  · exact Tells.exists_storeAnswer hlimit

theorem storeAnswer_pick (hnodup : (found.map name).Nodup) : StoreAnswer name tier limit found (pick tier limit found) := by
  unfold pick
  split
  · rename_i hnil
    exact .nothing (best_eq_nil.mp hnil)
  · rename_i card rest hbest
    have hcard : card ∈ best tier found := hbest ▸ List.mem_cons_self
    split
    · rename_i hwhole
      exact .whole card hcard hwhole
    · rename_i hplain
      rw [← hbest]
      refine .names _ (List.ne_nil_of_mem (mem_of_mem_best hcard)) (fun c hc => ?_)
        (fun c hc => List.mem_of_mem_take hc) ?_ (List.length_take_le _ _) ?_
      · rw [tier_eq_of_mem_best hc hcard]
        simpa using hplain
      · exact hnodup.sublist (((List.take_sublist _ _).trans List.filter_sublist).map name)
      · rw [List.length_take]
        rcases Nat.lt_or_ge (best tier found).length limit with hlt | hge
        · refine .inr fun c hc => ?_
          rw [List.take_of_length_le hlt.le]
          exact List.mem_map_of_mem hc
        · exact .inl (Nat.min_eq_left hge)

theorem StoreAnswer.mem_best (h : StoreAnswer name tier limit found answer) {card : Card} (hcard : card ∈ answer) :
    card ∈ best tier found := by
  cases h with
  | nothing => cases hcard
  | whole card' h _ => rwa [List.mem_singleton.mp hcard]
  | names _ _ _ hbest _ _ _ => exact hbest card hcard

end

/-! ## The merge -/

section

variable (name : Card → String) (tier : Card → ContainmentTier)

/-- When the cards `first` of each name tell what all the cards `found` tell. Either the highest tier found still
    stands among the first cards, under two names where it holds several; or none of it does, and the first cards
    happen to tell the same. -/
def ToldAlike (found first : List Card) : Prop :=
  found = [] ∨
  ((∃ c ∈ first, c ∈ best tier found) ∧ (Several name tier found →
      ∃ c ∈ first, ∃ d ∈ first, c ∈ best tier found ∧ d ∈ best tier found ∧ name c ≠ name d)) ∨
  ((∀ c ∈ first, c ∉ best tier found) ∧ (Several name tier found ∧ Several name tier first ∨
      ¬ Several name tier found ∧ ¬ Several name tier first ∧
        ∃ c, (best tier first).head? = some c ∧ ∃ d ∈ best tier found, name d = name c))

variable {name tier} {limit : ℕ} {found first : List Card}

theorem head_of_tell_pick {n : String} (hlimit : 2 ≤ limit) (h : tell name (pick tier limit first) = .one n) :
    ∃ card, (best tier first).head? = some card ∧ name card = n := by
  unfold pick at h
  split at h
  · cases h
  · rename_i card rest hbest
    refine ⟨card, by rw [hbest]; rfl, ?_⟩
    split at h
    · exact Told.one.inj h
    · obtain ⟨limit, rfl⟩ := Nat.exists_eq_add_of_le' hlimit
      cases rest with
      | nil => exact Told.one.inj h
      | cons => cases h

theorem best_of_clear (hsub : ∀ c ∈ first, c ∈ found) {card : Card} (hcard : card ∈ first)
    (hclear : card ∈ best tier found) {c : Card} :
    c ∈ best tier first ↔ c ∈ first ∧ c ∈ best tier found := by
  constructor
  · intro h
    refine ⟨mem_of_mem_best h, mem_best.mpr ⟨hsub c (mem_of_mem_best h), fun d hd => ?_⟩⟩
    exact (tier_le_of_mem_best hclear hd).trans (tier_le_of_mem_best h hcard)
  · rintro ⟨hmem, hbest⟩
    exact mem_best.mpr ⟨hmem, fun d hd => tier_le_of_mem_best hbest (hsub d hd)⟩

theorem several_of_clear (hsub : ∀ c ∈ first, c ∈ found) {card : Card} (hcard : card ∈ first)
    (hclear : card ∈ best tier found) :
    Several name tier first ↔ Several name tier found ∧
      ∃ c ∈ first, ∃ d ∈ first, c ∈ best tier found ∧ d ∈ best tier found ∧ name c ≠ name d := by
  constructor
  · rintro ⟨c, hc, d, hd, hplain, hne⟩
    obtain ⟨hc, hc'⟩ := (best_of_clear hsub hcard hclear).mp hc
    obtain ⟨hd, hd'⟩ := (best_of_clear hsub hcard hclear).mp hd
    exact ⟨⟨c, hc', d, hd', hplain, hne⟩, c, hc, d, hd, hc', hd', hne⟩
  · rintro ⟨⟨e, he, -, -, hplain, -⟩, c, hc, d, hd, hc', hd', hne⟩
    refine ⟨c, (best_of_clear hsub hcard hclear).mpr ⟨hc, hc'⟩, d, (best_of_clear hsub hcard hclear).mpr ⟨hd, hd'⟩, ?_, hne⟩
    rwa [tier_eq_of_mem_best hc' he]

/-- The merge's rule on the first card of each name tells what a store of all the cards may tell exactly when
    `ToldAlike` holds. -/
theorem tells_pick_iff (hlimit : 2 ≤ limit) (hsub : ∀ c ∈ first, c ∈ found) (hnodup : (first.map name).Nodup) :
    Tells name tier found (tell name (pick tier limit first)) ↔ ToldAlike name tier found first := by
  have hanswer : StoreAnswer name tier limit first (pick tier limit first) := storeAnswer_pick hnodup
  have hfirst := hanswer.tells hlimit
  cases htold : tell name (pick tier limit first) with
  | nothing =>
    rw [htold] at hfirst
    obtain rfl : first = [] := hfirst
    constructor
    · exact .inl
    · rintro (h | ⟨⟨c, hc, -⟩, -⟩ | ⟨-, ⟨-, c, hc, -⟩ | ⟨-, -, c, hc, -⟩⟩)
      · exact h
      all_goals cases hc
  | one n =>
    rw [htold] at hfirst
    obtain ⟨⟨e, he, -⟩, hone⟩ := hfirst
    obtain ⟨card, hhead, hname⟩ := head_of_tell_pick hlimit htold
    have hmem := mem_of_mem_best (List.mem_of_head? hhead)
    constructor
    · rintro ⟨⟨d, hd, hdn⟩, hsingle⟩
      by_cases hclear : ∃ c ∈ first, c ∈ best tier found
      · exact .inr (.inl ⟨hclear, fun h => absurd h hsingle⟩)
      · refine .inr (.inr ⟨fun c hc hc' => hclear ⟨c, hc, hc'⟩, .inr ⟨hsingle, hone, card, hhead, d, hd, ?_⟩⟩)
        rw [hdn, hname]
    · rintro (rfl | ⟨⟨c, hc, hc'⟩, htwo⟩ | ⟨-, ⟨-, h⟩ | ⟨hsingle, -, c, hc, d, hd, hdn⟩⟩)
      · exact absurd (hsub card hmem) (by simp)
      · refine ⟨⟨card, ((best_of_clear hsub hc hc').mp (List.mem_of_head? hhead)).2, hname⟩, fun h => hone ?_⟩
        exact (several_of_clear hsub hc hc').mpr ⟨h, htwo h⟩
      · exact absurd h hone
      · obtain rfl := Option.some.inj (hhead.symm.trans hc)
        exact ⟨⟨d, hd, hdn.trans hname⟩, hsingle⟩
  | several =>
    rw [htold] at hfirst
    constructor
    · intro h
      by_cases hclear : ∃ c ∈ first, c ∈ best tier found
      · obtain ⟨c, hc, hc'⟩ := hclear
        exact .inr (.inl ⟨⟨c, hc, hc'⟩, fun _ => ((several_of_clear hsub hc hc').mp hfirst).2⟩)
      · exact .inr (.inr ⟨fun c hc hc' => hclear ⟨c, hc, hc'⟩, .inl ⟨h, hfirst⟩⟩)
    · rintro (rfl | ⟨⟨c, hc, hc'⟩, -⟩ | ⟨-, ⟨h, -⟩ | ⟨-, h, -⟩⟩)
      · obtain ⟨c, hc, -⟩ := hfirst
        exact absurd (hsub c (mem_of_mem_best hc)) (by simp)
      · exact ((several_of_clear hsub hc hc').mp hfirst).1
      · exact h
      · exact absurd hfirst h

end

/-- The cards found, dealt to the partitions `p < n`, each of which answers for its own. -/
structure Split (name : Card → String) (tier : Card → ContainmentTier) (limit n : ℕ) (found : List Card)
    (parts answers : ℕ → List Card) : Prop where
  mem_found : ∀ c, c ∈ found ↔ ∃ p < n, c ∈ parts p
  answer : ∀ p < n, StoreAnswer name tier limit (parts p) (answers p)

section

variable {name : Card → String} {tier : Card → ContainmentTier} {limit n : ℕ} {found : List Card}
  {parts answers : ℕ → List Card}

theorem Split.found_of_answered (h : Split name tier limit n found parts answers) {p : ℕ} (hp : p < n) {card : Card}
    (hcard : card ∈ answers p) : card ∈ found :=
  (h.mem_found card).mpr ⟨p, hp, mem_of_mem_best ((h.answer p hp).mem_best hcard)⟩

end

/-! ## The code's merge -/

section

variable {unseparated : String → String} {names : Card → CardNames} {words : List String} {limit : ℕ}

/-- Cards standing at `t` in a list of tier `t` at most. -/
theorem best_eq_of_top {tier : Card → ContainmentTier} {cards : List Card} {t : ContainmentTier}
    (hle : ∀ c ∈ cards, tier c ≤ t) (htop : cards.filter (fun c => tier c = t) ≠ []) :
    best tier cards = cards.filter fun c => tier c = t := by
  obtain ⟨c, hc⟩ := List.exists_mem_of_ne_nil _ htop
  obtain ⟨hmem, rfl⟩ : c ∈ cards ∧ tier c = t := by simpa using hc
  exact best_eq_filter (mem_best.mpr ⟨hmem, hle⟩)

theorem pick_of_top {tier : Card → ContainmentTier} {cards : List Card} {t : ContainmentTier}
    (hle : ∀ c ∈ cards, tier c ≤ t) (htop : cards.filter (fun c => tier c = t) ≠ []) :
    pick tier limit cards = (cards.filter fun c => tier c = t).take (if t.whole then 1 else limit) := by
  rw [pick, best_eq_of_top hle htop]
  cases hcards : cards.filter fun c => tier c = t with
  | nil => exact absurd hcards htop
  | cons c rest =>
    have hc : tier c = t := by
      have hmem : c ∈ cards.filter fun c => tier c = t := hcards ▸ List.mem_cons_self
      simpa using (List.mem_filter.mp hmem).2
    simp only [hc]
    split <;> rfl

theorem pick_of_ranked {tier : Card → ContainmentTier} {cards ranked : List Card} {t t' : ContainmentTier}
    (ht : t.whole = true) (ht' : t'.whole = false)
    (hle : ∀ c ∈ cards, tier c ≤ t ∧ (tier c ≠ t → tier c ≤ t'))
    (hranked : ranked = cards.filter fun c => tier c = t ∨ tier c = t') (hne : ranked ≠ []) :
    pick tier limit cards = if ranked.filter (fun c => tier c = t) ≠ [] then (ranked.filter fun c => tier c = t).take 1
      else ranked.take limit := by
  have hnamed : ranked.filter (fun c => tier c = t) = cards.filter fun c => tier c = t := by
    rw [hranked, List.filter_filter]
    refine List.filter_congr fun c _ => ?_
    by_cases hc : tier c = t <;> simp [hc]
  rw [hnamed]
  by_cases hwhole : cards.filter (fun c => tier c = t) = []
  · have hnot : ∀ c ∈ cards, tier c ≠ t := by simpa using hwhole
    have hplain : ranked = cards.filter fun c => tier c = t' := by
      rw [hranked]
      exact List.filter_congr fun c hc => by simp [hnot c hc]
    rw [pick_of_top (fun c hc => (hle c hc).2 (hnot c hc)) (hplain ▸ hne), if_neg (not_not.mpr hwhole), hplain, ht']
    rfl
  · rw [pick_of_top (fun c hc => (hle c hc).1) hwhole, if_pos hwhole, ht]
    rfl

/-- The code's merge is `pick` on the first card of each name. -/
theorem mergeContained_eq_pick (perPartition : List (List Card)) :
    mergeContained unseparated names perPartition words limit =
      pick (tierOf unseparated names words) limit (firsts (nameOf names) perPartition.flatten) := by
  have hcards : (perPartition.flatten.foldl (fun (byName : JsMap String Card) card =>
      if (byName.get ((names card).name.getD "")).isSome then byName
      else byName.set ((names card).name.getD "") card) .empty).entries.map Prod.snd =
        firsts (nameOf names) perPartition.flatten := by
    have h := congrArg (List.map Prod.snd) (entries_fold_first (nameOf names) perPartition.flatten)
    rw [List.map_map] at h
    exact h.trans (List.map_id _)
  unfold mergeContained
  simp only
  rw [hcards]
  generalize firsts (nameOf names) perPartition.flatten = cards
  change (let english := cards.filter (isEnglish unseparated names words)
    let tier := if english ≠ [] then english else cards
    let named := tier.filter fun card => equalsWhole unseparated words
      (if english ≠ [] then [(names card).name, flavorKeyOf (names card)]
        else [(names card).name, (names card).printed_name])
    if named ≠ [] then named.take 1 else tier.take limit) = _
  have htier : ∀ c, tierOf unseparated names words c = if isEnglish unseparated names words c then
        if equalsWhole unseparated words [(names c).name, flavorKeyOf (names c)] then .englishWhole else .english
      else if equalsWhole unseparated words [(names c).name, (names c).printed_name] then .printedWhole
      else .printed := fun _ => rfl
  by_cases henglish : cards.filter (isEnglish unseparated names words) = []
  · -- No English name: the printed ones answer.
    have hprinted : ∀ c ∈ cards, isEnglish unseparated names words c = false := by simpa using henglish
    have hwhole : ∀ c ∈ cards, equalsWhole unseparated words [(names c).name, (names c).printed_name] =
        decide (tierOf unseparated names words c = .printedWhole) := by
      intro c hc
      rw [htier, hprinted c hc]
      cases equalsWhole unseparated words [(names c).name, (names c).printed_name] <;> rfl
    have hlow : ∀ c ∈ cards, tierOf unseparated names words c = .printedWhole ∨
        tierOf unseparated names words c = .printed := by
      intro c hc
      rw [htier, hprinted c hc]
      cases equalsWhole unseparated words [(names c).name, (names c).printed_name] <;> simp
    simp only [henglish, ne_eq, not_true_eq_false, if_false]
    rw [List.filter_congr hwhole]
    by_cases hnil : cards = []
    · subst hnil
      simp [pick, best]
    · symm
      refine pick_of_ranked rfl (show ContainmentTier.printed.whole = false from rfl) (fun c hc => ?_) ?_ hnil
      · obtain h | h := hlow c hc <;> rw [h] <;> decide
      · exact (List.filter_eq_self.mpr fun c hc => by simpa using hlow c hc).symm
  · have hwhole : ∀ c ∈ cards.filter (isEnglish unseparated names words),
        equalsWhole unseparated words [(names c).name, flavorKeyOf (names c)] =
          decide (tierOf unseparated names words c = .englishWhole) := by
      intro c hc
      rw [htier, (List.mem_filter.mp hc).2]
      cases equalsWhole unseparated words [(names c).name, flavorKeyOf (names c)] <;> rfl
    simp only [ne_eq, henglish, not_false_eq_true, if_true]
    rw [List.filter_congr hwhole]
    symm
    refine pick_of_ranked rfl (show ContainmentTier.english.whole = false from rfl) (fun c _ => ?_) (List.filter_congr fun c _ => ?_) henglish
    · cases tierOf unseparated names words c <;> decide
    · rw [htier]
      split_ifs with h <;> simp [h]

end

section

variable (unseparated : String → String) (names : Card → CardNames) (words : List String)

/-- The cards a store finds: its English names, and those `printed` says a printed name completes. -/
def foundBy (printed : Card → Bool) (cards : List Card) : List Card :=
  if needlesOf unseparated words = [] then []
  else cards.filter fun card => isEnglish unseparated names words card || printed card

/-- What one store may answer of the cards it holds. -/
abbrev storeAnswers (printed : Card → Bool) (limit : ℕ) (cards answer : List Card) : Prop :=
  StoreAnswer (nameOf names) (tierOf unseparated names words) limit (foundBy unseparated names words printed cards)
    answer

variable {unseparated} {names} {words}
variable {printed : Card → Bool} {limit n : ℕ} {corpus : List Card} {parts answers : ℕ → List Card}

theorem mem_foundBy {cards : List Card} {card : Card} : card ∈ foundBy unseparated names words printed cards ↔
    needlesOf unseparated words ≠ [] ∧ card ∈ cards ∧ (isEnglish unseparated names words card || printed card) := by
  unfold foundBy
  split_ifs with h
  · simp [h]
  · rw [List.mem_filter]
    exact ⟨fun hmem => ⟨h, hmem⟩, fun hmem => hmem.2⟩

theorem split_of_answers (hsplit : corpus.Perm ((List.range n).flatMap parts))
    (hanswers : ∀ p < n, storeAnswers unseparated names words printed limit (parts p) (answers p)) :
    Split (nameOf names) (tierOf unseparated names words) limit n (foundBy unseparated names words printed corpus)
      (fun p => foundBy unseparated names words printed (parts p)) answers where
  mem_found c := by
    simp only [mem_foundBy, hsplit.mem_iff, List.mem_flatMap, List.mem_range]
    constructor
    · rintro ⟨hneedles, ⟨p, hp, hc⟩, hmatch⟩
      exact ⟨p, hp, hneedles, hc, hmatch⟩
    · rintro ⟨p, hp, hneedles, hc, hmatch⟩
      exact ⟨hneedles, ⟨p, hp, hc⟩, hmatch⟩
  answer := hanswers

end

/-! ## A shadowed name -/

/-- `unseparated` on plain letters: lower case, without what is no letter or digit. -/
def letters (value : String) : String :=
  String.ofList ((value.toList.filter Char.isAlphanum).map Char.toLower)

/-- A printed name and the oracle name carry every word. -/
def printedCarries (words : List String) (card : CardNames) : Bool :=
  (words.map letters).all fun w =>
    [card.name, card.printed_name].any fun n => Text.includes ((n.map letters).getD "").toList w.toList

def balistaAssaultron : CardNames := ⟨some "Walking Ballista", some "Balista assaultron", none, none⟩
def assaultronInvader : CardNames := ⟨some "Walking Ballista", none, some "Assaultron Invader", none⟩
def assaultronDominator : CardNames := ⟨some "Assaultron Dominator", none, none, none⟩

/-- One printing of a card in the first partition, another in the second, and a second card in the third. -/
def assaultrons : ℕ → List CardNames
  | 0 => [balistaAssaultron]
  | 1 => [assaultronInvader]
  | 2 => [assaultronDominator]
  | _ => []

theorem storeAnswer_singleton {name : Card → String} {tier : Card → ContainmentTier} {limit : ℕ} {card : Card}
    (hplain : (tier card).whole = false) (hlimit : 1 ≤ limit) : StoreAnswer name tier limit [card] [card] := by
  have hbest : best tier [card] = [card] := by simp [best]
  refine .names [card] (by simp) ?_ ?_ (by simp) (by simpa using hlimit) (.inr ?_)
  · simpa [hbest] using hplain
  · simp [hbest]
  · simp [hbest]

theorem assaultrons_answer : ∀ p < 3, storeAnswers letters id ["assaultron"] (printedCarries ["assaultron"]) 2
    (assaultrons p) (assaultrons p) := by
  intro p hp
  have hfound : ∀ p < 3, foundBy letters id ["assaultron"] (printedCarries ["assaultron"]) (assaultrons p) =
      assaultrons p := by decide +kernel
  rw [storeAnswers, hfound p hp]
  match p, hp with
  | 0, _ => exact storeAnswer_singleton (by decide +kernel) (by decide)
  | 1, _ => exact storeAnswer_singleton (by decide +kernel) (by decide)
  | 2, _ => exact storeAnswer_singleton (by decide +kernel) (by decide)

end NamedFuzzy
