-- SUMMARY: The value a routing filter seals for a name key, and why it does not depend on the order of the key's entries.
import Mathlib.Data.Finset.Card
import Mathlib.Tactic.Linarith

/-!
# Name runs

A name can be held by several partitions, served by some and as an extra by
others. A name key's value says what a router needs of that in one byte: the one
partition holding it, the one or two serving it, or that every partition must be
asked. The entries of a key are folded in the order its hash left them, which says
nothing of the order they were added in.
-/

/-! ## Flags -/

def FLAG_NAME : ℕ := 1
def FLAG_SERVED : ℕ := 2

def FLAG_EXTRA_TIER (t : ℕ) : ℕ := [0, 4, 8, 16].getD t 0

/-- The flags of a name key's spelling `n?:`, by its second character; 0 for a key
of no name. -/
def nameFlags : Char → ℕ
  | 's' => FLAG_NAME ||| FLAG_SERVED
  | 'w' => FLAG_NAME ||| FLAG_EXTRA_TIER 3
  | 'm' => FLAG_NAME ||| FLAG_EXTRA_TIER 2
  | 'f' => FLAG_NAME ||| FLAG_EXTRA_TIER 1
  | 'a' => FLAG_NAME
  | _ => 0

/-! ## Values -/

def NAME_AMBIGUOUS : ℤ := 255

def NAME_RIVALS : ℕ := 4

def pairBase (partitionCount : ℕ) : ℕ := partitionCount + NAME_RIVALS * partitionCount

/-- Whether every pair of `partitionCount` partitions is spelled below 255. -/
def servedPairsFit (partitionCount : ℕ) : Bool :=
  2 ≤ partitionCount ∧ pairBase partitionCount + partitionCount * (partitionCount - 1) / 2 < NAME_AMBIGUOUS

/-- The index of `a < b` among the pairs of `[0, n)` in lexicographic order. -/
def servedPairIndex (a b : ℤ) (n : ℕ) : ℤ := a * n - a * (a + 1) / 2 + (b - a - 1)

/-- The first partition seen, and the count 2 once a second one differed. -/
structure Owner where
  first : ℤ := -1
  count : ℕ := 0
deriving DecidableEq

def Owner.note (o : Owner) (partition : ℤ) : Owner :=
  if o.count = 0 then ⟨partition, 1⟩
  else if partition ≠ o.first then { o with count := 2 }
  else o

/-- The first two distinct served partitions, with 3 for three or more. -/
structure ServedOwners where
  served : ℤ := -1
  served2 : ℤ := -1
  serveds : ℕ := 0
deriving DecidableEq

def ServedOwners.note (o : ServedOwners) (partition : ℤ) : ServedOwners :=
  if o.serveds = 0 then { o with served := partition, serveds := 1 }
  else if o.serveds = 1 then
    if partition ≠ o.served then { o with served2 := partition, serveds := 2 } else o
  else if o.serveds = 2 ∧ partition ≠ o.served ∧ partition ≠ o.served2 then
    { o with serveds := 3 }
  else o

/-- What the entries of one name key add up to: who holds it, who serves it, and who
holds it as an extra on each tier. -/
structure NameRun where
  owner : Owner := {}
  served : ServedOwners := {}
  tierOwner : ℕ → Owner := fun _ => {}

namespace NameRun

def note (r : NameRun) (partition : ℤ) (flags : ℕ) : NameRun where
  owner := r.owner.note partition
  served := if flags &&& FLAG_SERVED ≠ 0 then r.served.note partition else r.served
  tierOwner t :=
    if flags &&& FLAG_EXTRA_TIER t ≠ 0 then (r.tierOwner t).note partition else r.tierOwner t

/-- Whether a partition other than `s` holds the name as an extra of tier `t`. -/
def rivalOn (r : NameRun) (s : ℤ) (t : ℕ) : Bool :=
  (r.tierOwner t).count = 2 ∨ ((r.tierOwner t).count = 1 ∧ (r.tierOwner t).first ≠ s)

/-- The highest tier a rival of `s` holds the name on, 0 when none does. -/
def rival (r : NameRun) (s : ℤ) : ℕ := ([3, 2, 1].find? (r.rivalOn s)).getD 0

def capped (value : ℤ) : ℤ := if value < NAME_AMBIGUOUS then value else NAME_AMBIGUOUS

def value (r : NameRun) (partitionCount : ℕ) (tiers pairs : Bool) : ℤ :=
  if r.owner.count = 1 then r.owner.first
  else if r.served.serveds = 2 ∧ pairs ∧ tiers then
    let a := min r.served.served r.served.served2
    let b := max r.served.served r.served.served2
    capped (pairBase partitionCount + servedPairIndex a b partitionCount)
  else if r.served.serveds ≠ 1 then NAME_AMBIGUOUS
  else if !tiers then capped (partitionCount + r.served.served)
  else capped (partitionCount + NAME_RIVALS * r.served.served + r.rival r.served.served)

def of (entries : List (ℤ × ℕ)) : NameRun :=
  entries.foldl (fun r e => r.note e.1 e.2) {}

end NameRun

/-! ## What a run has seen -/

/-- The partitions of the entries whose flags satisfy `p`. -/
def holders (p : ℕ → Bool) (entries : List (ℤ × ℕ)) : Finset ℤ :=
  ((entries.filter (fun e => p e.2)).map Prod.fst).toFinset

theorem mem_holders {p : ℕ → Bool} {entries : List (ℤ × ℕ)} {q : ℤ} :
    q ∈ holders p entries ↔ ∃ e ∈ entries, p e.2 = true ∧ e.1 = q := by
  simp [holders, and_assoc]

theorem holders_append (p : ℕ → Bool) (entries : List (ℤ × ℕ)) (e : ℤ × ℕ) : holders p (entries ++ [e]) =
      if p e.2 then insert e.1 (holders p entries) else holders p entries := by
  ext q
  split_ifs with h
  · simp only [Finset.mem_insert, mem_holders, List.mem_append, List.mem_singleton]
    constructor
    · rintro ⟨e', he' | rfl, hp, rfl⟩
      · exact Or.inr ⟨e', he', hp, rfl⟩
      · exact Or.inl rfl
    · rintro (rfl | ⟨e', he', hp, rfl⟩)
      · exact ⟨e, Or.inr rfl, h, rfl⟩
      · exact ⟨e', Or.inl he', hp, rfl⟩
  · simp only [mem_holders, List.mem_append, List.mem_singleton]
    constructor
    · rintro ⟨e', he' | rfl, hp, rfl⟩
      · exact ⟨e', he', hp, rfl⟩
      · exact absurd hp h
    · rintro ⟨e', he', hp, rfl⟩
      exact ⟨e', Or.inl he', hp, rfl⟩

theorem holders_perm (p : ℕ → Bool) {entries entries' : List (ℤ × ℕ)}
    (h : entries.Perm entries') : holders p entries = holders p entries' :=
  List.toFinset_eq_of_perm _ _ ((h.filter _).map _)

def isServed (flags : ℕ) : Bool := flags &&& FLAG_SERVED ≠ 0

def isExtraOn (t : ℕ) (flags : ℕ) : Bool := flags &&& FLAG_EXTRA_TIER t ≠ 0

/-- `o` has counted the partitions `S`, up to two. -/
structure Owner.Sees (o : Owner) (S : Finset ℤ) : Prop where
  count : o.count = min 2 S.card
  first : 0 < o.count → o.first ∈ S

variable {S : Finset ℤ}

theorem Owner.Sees.note {o : Owner} (h : o.Sees S) (p : ℤ) : (o.note p).Sees (insert p S) := by
  have hcount := h.count
  rw [Owner.note]
  split_ifs with h0 hne
  · have hS : S = ∅ := Finset.card_eq_zero.mp (by omega)
    subst hS
    exact ⟨by simp, by simp⟩
  · have hfirst := h.first (by omega)
    refine ⟨?_, fun _ => Finset.mem_insert_of_mem hfirst⟩
    have htwo : ({p, o.first} : Finset ℤ) ⊆ insert p S := by
      intro q hq
      simp only [Finset.mem_insert, Finset.mem_singleton] at hq ⊢
      rcases hq with rfl | rfl
      · exact Or.inl rfl
      · exact Or.inr hfirst
    have hcard := Finset.card_le_card htwo
    rw [Finset.card_pair hne] at hcard
    exact (min_eq_left hcard).symm
  · have hp : p = o.first := not_not.mp hne
    have hmem : p ∈ S := hp ▸ h.first (by omega)
    rw [Finset.insert_eq_of_mem hmem]
    exact h

theorem Owner.Sees.rival_iff {o : Owner} (h : o.Sees S) (s : ℤ) :
    (o.count = 2 ∨ (o.count = 1 ∧ o.first ≠ s)) ↔ ∃ q ∈ S, q ≠ s := by
  have hcount := h.count
  constructor
  · rintro (h2 | ⟨h1, hne⟩)
    · obtain ⟨a, ha, b, hb, hab⟩ := Finset.one_lt_card.mp (show 1 < S.card by omega)
      by_cases has : a = s
      · exact ⟨b, hb, fun hbs => hab (has.trans hbs.symm)⟩
      · exact ⟨a, ha, has⟩
    · exact ⟨o.first, h.first (by omega), hne⟩
  · rintro ⟨q, hq, hne⟩
    have hpos : 0 < S.card := Finset.card_pos.mpr ⟨q, hq⟩
    by_cases h2 : o.count = 2
    · exact Or.inl h2
    · have hone : S.card ≤ 1 := by omega
      have hfirst := h.first (by omega)
      refine Or.inr ⟨by omega, fun hs => hne ?_⟩
      rw [← hs]
      exact Finset.card_le_one.mp hone q hq o.first hfirst

/-- `o` has counted the served partitions `S`, up to three. -/
structure ServedOwners.Sees (o : ServedOwners) (S : Finset ℤ) : Prop where
  serveds : o.serveds = min 3 S.card
  served : 0 < o.serveds → o.served ∈ S
  served2 : 1 < o.serveds → o.served2 ∈ S ∧ o.served2 ≠ o.served


theorem ServedOwners.Sees.note {o : ServedOwners} (h : o.Sees S) (p : ℤ) : (o.note p).Sees (insert p S) := by
  have hcount := h.serveds
  by_cases hmem : p ∈ S
  · -- A partition seen before changes no count short of the cap.
    rw [Finset.insert_eq_of_mem hmem]
    have hpos : 0 < S.card := Finset.card_pos.mpr ⟨p, hmem⟩
    have hserved := h.served (by omega)
    rw [ServedOwners.note, if_neg (by omega)]
    split_ifs with h1 hne h2
    · exact absurd (Finset.card_le_one.mp (by omega) p hmem o.served hserved) hne
    · exact h
    · obtain ⟨hserved2, hdiff⟩ := h.served2 (by omega)
      have hthree := Finset.card_le_card (s := {p, o.served, o.served2}) (t := S)
        (by simp [Finset.insert_subset_iff, hmem, hserved, hserved2])
      rw [Finset.card_insert_of_notMem (by simp [h2.2.1, h2.2.2]), Finset.card_pair (Ne.symm hdiff)] at hthree
      omega
    · exact h
  · have hcard := Finset.card_insert_of_notMem hmem
    rw [ServedOwners.note]
    split_ifs with h0 h1 hne h2
    · refine ⟨?_, fun _ => Finset.mem_insert_self _ _, fun h => absurd h (by simp)⟩
      simp only [hcard]
      omega
    · refine ⟨?_, fun _ => Finset.mem_insert_of_mem (h.served (by omega)), fun _ => ⟨Finset.mem_insert_self _ _, hne⟩⟩
      simp only [hcard]
      omega
    · exact absurd (not_not.mp hne ▸ h.served (by omega)) hmem
    · obtain ⟨hserved2, hdiff⟩ := h.served2 (by omega)
      refine ⟨?_, fun _ => Finset.mem_insert_of_mem (h.served (by omega)),
        fun _ => ⟨Finset.mem_insert_of_mem hserved2, hdiff⟩⟩
      simp only [hcard]
      omega
    · have hthree : o.serveds = 3 := by
        by_contra hlt
        have htwo : o.serveds = 2 := by omega
        obtain ⟨hserved2, -⟩ := h.served2 (by omega)
        exact h2 ⟨htwo, fun heq => hmem (heq ▸ h.served (by omega)), fun heq => hmem (heq ▸ hserved2)⟩
      refine ⟨by omega, fun hpos => Finset.mem_insert_of_mem (h.served hpos), fun hpos => ?_⟩
      exact ⟨Finset.mem_insert_of_mem (h.served2 hpos).1, (h.served2 hpos).2⟩

theorem ServedOwners.Sees.eq_singleton {o : ServedOwners} (h : o.Sees S)
    (h1 : o.serveds = 1) : S = {o.served} := by
  have hcount := h.serveds
  obtain ⟨s, rfl⟩ := Finset.card_eq_one.mp (show S.card = 1 by omega)
  rw [Finset.mem_singleton.mp (h.served (by omega))]

theorem ServedOwners.Sees.eq_pair {o : ServedOwners} (h : o.Sees S)
    (h2 : o.serveds = 2) :
    S = {min o.served o.served2, max o.served o.served2} ∧ min o.served o.served2 < max o.served o.served2 := by
  have hcount := h.serveds
  obtain ⟨hserved2, hdiff⟩ := h.served2 (by omega)
  have hS : S = {o.served, o.served2} := by
    refine (Finset.eq_of_subset_of_card_le ?_ ?_).symm
    · simp [Finset.insert_subset_iff, h.served (by omega), hserved2]
    · rw [Finset.card_pair (Ne.symm hdiff)]
      omega
  rcases lt_or_gt_of_ne hdiff with hlt | hlt
  · rw [min_eq_right hlt.le, max_eq_left hlt.le, hS]
    exact ⟨Finset.pair_comm _ _, hlt⟩
  · rw [min_eq_left hlt.le, max_eq_right hlt.le, hS]
    exact ⟨rfl, hlt⟩

theorem pair_eq_of_lt {a b c d : ℤ} (hab : a < b) (hcd : c < d)
    (h : ({a, b} : Finset ℤ) = {c, d}) : a = c ∧ b = d := by
  have ha : a ∈ ({c, d} : Finset ℤ) := h ▸ Finset.mem_insert_self _ _
  have hb : b ∈ ({c, d} : Finset ℤ) := h ▸ by simp
  have hc : c ∈ ({a, b} : Finset ℤ) := h ▸ Finset.mem_insert_self _ _
  simp only [Finset.mem_insert, Finset.mem_singleton] at ha hb hc
  omega

namespace NameRun

variable {entries entries' : List (ℤ × ℕ)}

/-- `r` has seen exactly `entries`. -/
structure Sees (r : NameRun) (entries : List (ℤ × ℕ)) : Prop where
  owner : r.owner.Sees (holders (fun _ => true) entries)
  served : r.served.Sees (holders isServed entries)
  tierOwner : ∀ t, (r.tierOwner t).Sees (holders (isExtraOn t) entries)

theorem Sees.note {r : NameRun} (h : r.Sees entries) (partition : ℤ) (flags : ℕ) :
    (r.note partition flags).Sees (entries ++ [(partition, flags)]) := by
  refine ⟨?_, ?_, fun t => ?_⟩
  · rw [holders_append, if_pos rfl]
    exact h.owner.note partition
  · rw [holders_append]
    by_cases hs : flags &&& FLAG_SERVED = 0
    · simpa only [NameRun.note, isServed, hs, ne_eq, not_true_eq_false, decide_false, if_false,
        Bool.false_eq_true] using h.served
    · simpa only [NameRun.note, isServed, hs, ne_eq, not_false_eq_true, decide_true, if_true]
        using h.served.note partition
  · rw [holders_append]
    by_cases ht : flags &&& FLAG_EXTRA_TIER t = 0
    · simpa only [NameRun.note, isExtraOn, ht, ne_eq, not_true_eq_false, decide_false, if_false,
        Bool.false_eq_true] using h.tierOwner t
    · simpa only [NameRun.note, isExtraOn, ht, ne_eq, not_false_eq_true, decide_true, if_true]
        using (h.tierOwner t).note partition

theorem of_append (entries : List (ℤ × ℕ)) (e : ℤ × ℕ) : of (entries ++ [e]) = (of entries).note e.1 e.2 := by
  simp [of]

theorem of_sees (entries : List (ℤ × ℕ)) : (of entries).Sees entries := by
  induction entries using List.reverseRecOn with
  | nil => exact ⟨⟨rfl, by simp [of]⟩, ⟨rfl, by simp [of], by simp [of]⟩, fun t => ⟨rfl, by simp [of]⟩⟩
  | append_singleton entries e ih =>
    rw [of_append]
    exact ih.note e.1 e.2

theorem rivalOn_iff (s : ℤ) (t : ℕ) : (of entries).rivalOn s t = true ↔ ∃ q ∈ holders (isExtraOn t) entries, q ≠ s := by
  rw [rivalOn, decide_eq_true_iff]
  exact ((of_sees entries).tierOwner t).rival_iff s

/-- **A name's value is the same in whatever order its entries are folded.** -/
theorem value_perm (h : entries.Perm entries') (partitionCount : ℕ) (tiers pairs : Bool) :
    (of entries).value partitionCount tiers pairs = (of entries').value partitionCount tiers pairs := by
  have hs := of_sees entries
  have hs' : (of entries').Sees entries := by
    have := of_sees entries'
    exact ⟨holders_perm _ h ▸ this.owner, holders_perm _ h ▸ this.served, fun t => holders_perm _ h ▸ this.tierOwner t⟩
  have howner : (of entries).owner.count = (of entries').owner.count :=
    hs.owner.count.trans hs'.owner.count.symm
  have hserved : (of entries).served.serveds = (of entries').served.serveds :=
    hs.served.serveds.trans hs'.served.serveds.symm
  have hrival : ∀ s, (of entries).rival s = (of entries').rival s := by
    intro s
    have hon : (of entries).rivalOn s = (of entries').rivalOn s := by
      funext t
      rw [Bool.eq_iff_iff, rivalOn_iff, rivalOn_iff, holders_perm _ h]
    rw [rival, rival, hon]
  rw [value, value, ← howner, ← hserved]
  split_ifs with h1 h2 h3 h4
  · have hcount := hs.owner.count
    exact Finset.card_le_one.mp (by omega) _ (hs.owner.first (by omega)) _
      (hs'.owner.first (by omega))
  · obtain ⟨hpair, hlt⟩ := hs.served.eq_pair h2.1
    obtain ⟨hpair', hlt'⟩ := hs'.served.eq_pair (hserved ▸ h2.1)
    obtain ⟨hmin, hmax⟩ := pair_eq_of_lt hlt hlt' (hpair ▸ hpair')
    rw [hmin, hmax]
  · rfl
  · have heq := (hs.served.eq_singleton (by omega)).symm.trans (hs'.served.eq_singleton (by omega))
    rw [Finset.singleton_inj.mp heq]
  · have heq := (hs.served.eq_singleton (by omega)).symm.trans (hs'.served.eq_singleton (by omega))
    rw [Finset.singleton_inj.mp heq, hrival]

/-! ### What a value says -/

/-- `s` is the one partition serving the name. -/
def OnlyServed (entries : List (ℤ × ℕ)) (s : ℤ) : Prop :=
  (∃ e ∈ entries, e.1 = s) ∧ ∀ e ∈ entries, isServed e.2 = true → e.1 = s

/-- No partition but `s` holds the name as an extra above tier `t`. -/
def RivalsUpTo (entries : List (ℤ × ℕ)) (s : ℤ) (t : ℕ) : Prop :=
  ∀ e ∈ entries, e.1 ≠ s → ∀ t', 1 ≤ t' → t' ≤ 3 → isExtraOn t' e.2 = true → t' ≤ t

theorem rival_lt (entries : List (ℤ × ℕ)) (s : ℤ) : (of entries).rival s < NAME_RIVALS := by
  rw [rival]
  simp only [List.find?]
  cases (of entries).rivalOn s 3 <;> cases (of entries).rivalOn s 2 <;>
    cases (of entries).rivalOn s 1 <;> decide

theorem rivals_upTo (entries : List (ℤ × ℕ)) (s : ℤ) : RivalsUpTo entries s ((of entries).rival s) := by
  intro e he hne t hpos hle ht
  have hon : (of entries).rivalOn s t = true :=
    (rivalOn_iff s t).mpr ⟨e.1, mem_holders.mpr ⟨e, he, ht, rfl⟩, hne⟩
  rw [rival]
  simp only [List.find?]
  have hcases : t = 1 ∨ t = 2 ∨ t = 3 := by omega
  rcases hcases with rfl | rfl | rfl
  · rw [hon]
    cases (of entries).rivalOn s 3 <;> cases (of entries).rivalOn s 2 <;> simp
  · rw [hon]
    cases (of entries).rivalOn s 3 <;> simp
  · rw [hon]
    simp

theorem onlyServed_of_serveds (h : (of entries).served.serveds = 1) : OnlyServed entries (of entries).served.served := by
  have heq := (of_sees entries).served.eq_singleton h
  refine ⟨?_, fun e he hserved => ?_⟩
  · have hmem := heq ▸ Finset.mem_singleton_self (of entries).served.served
    obtain ⟨e, he, -, hes⟩ := mem_holders.mp hmem
    exact ⟨e, he, hes⟩
  · have hmem : e.1 ∈ holders isServed entries := mem_holders.mpr ⟨e, he, hserved, rfl⟩
    rw [heq] at hmem
    exact Finset.mem_singleton.mp hmem

/-- What the value of a name held by partitions of `[0, n)` can be, and what it says
of who holds the name. -/
inductive Says (entries : List (ℤ × ℕ)) (n : ℕ) (tiers : Bool) : ℤ → Prop
  | sole {p : ℤ} (hrange : 0 ≤ p ∧ p < n) (honly : ∀ e ∈ entries, e.1 = p) : Says entries n tiers p
  | pair {v : ℤ} (htiers : tiers = true) (hv : pairBase n ≤ v) : Says entries n tiers v
  | ambiguous : Says entries n tiers NAME_AMBIGUOUS
  | untiered {s : ℤ} (htiers : tiers = false) (hrange : 0 ≤ s ∧ s < n)
      (honly : OnlyServed entries s) : Says entries n tiers (n + s)
  | tiered {s : ℤ} {t : ℕ} (htiers : tiers = true) (hrange : 0 ≤ s ∧ s < n) (ht : t < NAME_RIVALS)
      (honly : OnlyServed entries s) (hrivals : RivalsUpTo entries s t) :
      Says entries n tiers (n + NAME_RIVALS * s + t)

theorem Says.capped {n : ℕ} {tiers : Bool} {v : ℤ} (h : Says entries n tiers v) : Says entries n tiers (capped v) := by
  unfold NameRun.capped
  split
  · exact h
  · exact .ambiguous

theorem servedPairIndex_nonneg {a b : ℤ} {n : ℕ} (ha : 0 ≤ a) (hab : a < b) (hb : b < n) : 0 ≤ servedPairIndex a b n := by
  have hhalf : a * (a + 1) / 2 ≤ a * (a + 1) :=
    Int.ediv_le_self _ (mul_nonneg ha (by omega))
  have hfull : a * (a + 1) ≤ a * n := mul_le_mul_of_nonneg_left (by omega) ha
  rw [servedPairIndex]
  omega

/-- **A name's value tells the truth.** A partition's own number says it alone holds
the name; a served value, that it alone serves it and no other holds it above the
tier spelled. -/
theorem value_says {n : ℕ} (hrange : ∀ e ∈ entries, 0 ≤ e.1 ∧ e.1 < n) (tiers pairs : Bool) :
    Says entries n tiers ((of entries).value n tiers pairs) := by
  have hsees := of_sees entries
  rw [value]
  split_ifs with howner hpair hserved htiers
  · -- One holder: every entry is its.
    have hmem := hsees.owner.first (by omega)
    obtain ⟨e, he, -, hep⟩ := mem_holders.mp hmem
    refine .sole (hep ▸ hrange e he) fun e' he' => ?_
    have hcard := hsees.owner.count
    exact Finset.card_le_one.mp (by omega) _ (mem_holders.mpr ⟨e', he', rfl, rfl⟩) _ hmem
  · obtain ⟨hholders, hlt⟩ := hsees.served.eq_pair hpair.1
    have hheld : ∀ q ∈ holders isServed entries, 0 ≤ q ∧ q < n := by
      intro q hq
      obtain ⟨e, he, -, rfl⟩ := mem_holders.mp hq
      exact hrange e he
    have ha := hheld _ (hholders ▸ Finset.mem_insert_self _ _)
    have hb := hheld _ (hholders ▸ Finset.mem_insert_of_mem (Finset.mem_singleton_self _))
    have hindex := servedPairIndex_nonneg ha.1 hlt hb.2
    exact (Says.pair hpair.2.2 (by omega)).capped
  · exact .ambiguous
  · have honly := onlyServed_of_serveds (not_not.mp hserved)
    obtain ⟨e, he, hes⟩ := honly.1
    exact (Says.untiered (by simpa using htiers) (hes ▸ hrange e he) honly).capped
  · have honly := onlyServed_of_serveds (not_not.mp hserved)
    obtain ⟨e, he, hes⟩ := honly.1
    exact (Says.tiered (by simpa using htiers) (hes ▸ hrange e he) (rival_lt entries _) honly
      (rivals_upTo entries _)).capped

theorem capped_le (v : ℤ) : capped v ≤ NAME_AMBIGUOUS := by
  unfold capped
  split_ifs with h
  · exact h.le
  · exact le_rfl

theorem value_range {n : ℕ} (hn : (n : ℤ) ≤ NAME_AMBIGUOUS)
    (hrange : ∀ e ∈ entries, 0 ≤ e.1 ∧ e.1 < n) (tiers pairs : Bool) :
    0 ≤ (of entries).value n tiers pairs ∧ (of entries).value n tiers pairs ≤ NAME_AMBIGUOUS := by
  constructor
  · have hsays := value_says hrange tiers pairs
    generalize (of entries).value n tiers pairs = v at hsays
    cases hsays with
    | sole hp => exact hp.1
    | pair _ hv => exact (Int.natCast_nonneg _).trans hv
    | ambiguous => decide
    | untiered _ hs => omega
    | tiered _ hs =>
      rw [NAME_RIVALS]
      omega
  · rw [value]
    split_ifs with howner
    · obtain ⟨e, he, -, hep⟩ := mem_holders.mp ((of_sees entries).owner.first (by omega))
      have hlt := (hrange e he).2
      omega
    · exact capped_le _
    · exact le_rfl
    · exact capped_le _
    · exact capped_le _

/-! ### The rule of a name's partitions -/

/-- The highest tier a partition other than `s` holds the name on, 0 when none does. -/
def TopRival (extras : ℕ → Finset ℤ) (s : ℤ) (t : ℕ) : Prop :=
  IsGreatest {t | t = 0 ∨ 1 ≤ t ∧ t < NAME_RIVALS ∧ ∃ q ∈ extras t, q ≠ s} t

/-- What a name seals to, by the sets of its holders: all of them, those serving it, and
those holding it as an extra on each tier. -/
inductive Rule (holding serving : Finset ℤ) (extras : ℕ → Finset ℤ) (n : ℕ) (tiers pairs : Bool) : ℤ → Prop
  | sole {p : ℤ} (honly : holding = {p}) : Rule holding serving extras n tiers pairs p
  | pair {a b : ℤ} (hseveral : 1 < holding.card) (htwo : serving = {a, b}) (hlt : a < b)
      (hpairs : pairs = true) (htiers : tiers = true) :
      Rule holding serving extras n tiers pairs (capped (pairBase n + servedPairIndex a b n))
  | untiered {s : ℤ} (hseveral : 1 < holding.card) (hone : serving = {s}) (htiers : tiers = false) :
      Rule holding serving extras n tiers pairs (capped (n + s))
  | tiered {s : ℤ} {t : ℕ} (hseveral : 1 < holding.card) (hone : serving = {s}) (htiers : tiers = true)
      (hrival : TopRival extras s t) :
      Rule holding serving extras n tiers pairs (capped (n + NAME_RIVALS * s + t))
  | ambiguous (hseveral : 1 < holding.card) (hnotOne : serving.card ≠ 1)
      (hnotTwo : serving.card = 2 → ¬(pairs = true ∧ tiers = true)) :
      Rule holding serving extras n tiers pairs NAME_AMBIGUOUS

theorem rival_top (entries : List (ℤ × ℕ)) (s : ℤ) :
    TopRival (fun t => holders (isExtraOn t) entries) s ((of entries).rival s) := by
  refine ⟨?_, ?_⟩
  · have hfind : ∀ t ∈ [3, 2, 1], (of entries).rivalOn s t = true →
        1 ≤ t ∧ t < NAME_RIVALS ∧ ∃ q ∈ holders (isExtraOn t) entries, q ≠ s := by
      intro t ht hon
      have hrange : ∀ t ∈ [3, 2, 1], 1 ≤ t ∧ t < NAME_RIVALS := by decide
      exact ⟨(hrange t ht).1, (hrange t ht).2, (rivalOn_iff s t).mp hon⟩
    rw [rival]
    cases hsome : [3, 2, 1].find? ((of entries).rivalOn s) with
    | none => exact .inl rfl
    | some t => exact .inr (hfind t (List.mem_of_find?_eq_some hsome) (List.find?_some hsome))
  · rintro t (rfl | ⟨hpos, hlt, q, hq, hne⟩)
    · exact Nat.zero_le _
    · obtain ⟨e, he, hextra, rfl⟩ := mem_holders.mp hq
      exact rivals_upTo entries s e he hne t hpos (by rw [NAME_RIVALS] at hlt; omega) hextra

/-- **The streamed value is the rule's**, of the sets of partitions that hold the name. -/
theorem value_rule (hne : entries ≠ []) (n : ℕ) (tiers pairs : Bool) :
    Rule (holders (fun _ => true) entries) (holders isServed entries) (fun t => holders (isExtraOn t) entries)
      n tiers pairs ((of entries).value n tiers pairs) := by
  have hsees := of_sees entries
  have hcount := hsees.owner.count
  have hserveds := hsees.served.serveds
  have hpos : 0 < (holders (fun _ => true) entries).card := by
    obtain ⟨e, he⟩ := List.exists_mem_of_ne_nil entries hne
    exact Finset.card_pos.mpr ⟨e.1, mem_holders.mpr ⟨e, he, rfl, rfl⟩⟩
  rw [value]
  split_ifs with howner hpair hserved htiers
  · obtain ⟨p, hp⟩ := Finset.card_eq_one.mp (show (holders (fun _ => true) entries).card = 1 by omega)
    have hfirst := hsees.owner.first (by omega)
    rw [hp, Finset.mem_singleton] at hfirst
    rw [hfirst]
    exact .sole hp
  · obtain ⟨htwo, hlt⟩ := hsees.served.eq_pair hpair.1
    exact .pair (by omega) htwo hlt hpair.2.1 hpair.2.2
  · refine .ambiguous (by omega) (by omega) fun htwo hand => hpair ⟨by omega, hand⟩
  · exact .untiered (by omega) (hsees.served.eq_singleton (by omega)) (by simpa using htiers)
  · exact .tiered (by omega) (hsees.served.eq_singleton (by omega)) (by simpa using htiers) (rival_top entries _)

end NameRun
