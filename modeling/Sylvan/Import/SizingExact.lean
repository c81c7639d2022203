-- SUMMARY: The nightly coordinator and the native builder choose one partition count: the smallest whose largest partition fits.
import Mathlib.Algebra.BigOperators.Group.Finset.Piecewise
import Mathlib.Algebra.BigOperators.Ring.Finset
import Mathlib.Algebra.Order.BigOperators.Group.Finset
import Mathlib.Data.Finset.Card
import Mathlib.Data.List.GetD
import Mathlib.Order.Bounds.Basic
import Sylvan.Import.Sizing

/-!
# One partition count

Both builders project the same partitions, whatever order the drafts came in. The
projections of `n` partitions sum to at least the whole corpus's, so a count below the
one the search starts at has a partition that does not fit: starting there skips no
answer, although the largest projection does not fall steadily as `n` grows.
-/

namespace Sizing

open SortedRuns (gathered group grouped_group join pairwise_sortBy perm_sortBy)
open UInt64 (toNat)

/-! ## Sums over a corpus's parts -/

theorem projection_eq (drafts : List Draft) : projection drafts = scaled drafts / STORE_PER_DRAFT_BYTE_DEN := by
  simp only [projection, scaled, STORE_PER_DRAFT_BYTE_DEN]
  push_cast
  ring

theorem projection_le_iff (drafts : List Draft) (ceiling : ℕ) :
    projection drafts ≤ ceiling ↔ scaled drafts ≤ ceiling * STORE_PER_DRAFT_BYTE_DEN := by
  rw [projection_eq, div_le_iff₀ (by norm_num [STORE_PER_DRAFT_BYTE_DEN])]
  exact_mod_cast Iff.rfl

/-- The drafts of each of `n` partitions are all the drafts. -/
theorem sum_framedBytes_share (drafts : List Draft) {n : ℕ} (hn : 0 < n) :
    ∑ k ∈ Finset.range n, framedBytes (share drafts n k) = framedBytes drafts := by
  induction drafts with
  | nil => simp [share, framedBytes]
  | cons d drafts ih =>
    have hcons : ∀ k, framedBytes (share (d :: drafts) n k) =
        (if d.card % n = k then framed d else 0) + framedBytes (share drafts n k) := by
      intro k
      by_cases h : d.card % n = k <;> simp [share, framedBytes, h]
    simp only [hcons, Finset.sum_add_distrib, ih, Finset.sum_ite_eq, Finset.mem_range, Nat.mod_lt _ hn, if_true]
    simp [framedBytes]

theorem sum_cards_share (drafts : List Draft) {n : ℕ} (hn : 0 < n) :
    ∑ k ∈ Finset.range n, cards (share drafts n k) = cards drafts := by
  have hmaps : ∀ h ∈ (drafts.map Draft.card).toFinset, h % n ∈ Finset.range n := by
    intro h _
    exact Finset.mem_range.mpr (Nat.mod_lt _ hn)
  rw [cards, Finset.card_eq_sum_card_fiberwise hmaps]
  apply Finset.sum_congr rfl
  intro k _
  rw [cards]
  congr 1
  ext h
  simp only [share, List.mem_toFinset, List.mem_map, List.mem_filter, Finset.mem_filter, decide_eq_true_eq]
  constructor
  · rintro ⟨d, ⟨hd, hk⟩, rfl⟩
    exact ⟨⟨d, hd, rfl⟩, hk⟩
  · rintro ⟨⟨d, hd, rfl⟩, hk⟩
    exact ⟨d, ⟨hd, hk⟩, rfl⟩

theorem scaled_le_sum (drafts : List Draft) {n : ℕ} (hn : 0 < n) :
    scaled drafts ≤ ∑ k ∈ Finset.range n, scaled (share drafts n k) := by
  have hcards := sum_cards_share drafts hn
  have hframed := sum_framedBytes_share drafts hn
  have hparts : ∑ k ∈ Finset.range n, scaled (share drafts n k) =
      (n * STORE_BYTES_PER_PARTITION + STORE_BYTES_PER_CARD * cards drafts) * STORE_PER_DRAFT_BYTE_DEN +
        STORE_PER_DRAFT_BYTE_NUM * framedBytes drafts := by
    simp only [scaled]
    rw [Finset.sum_add_distrib, ← Finset.sum_mul, Finset.sum_add_distrib, ← Finset.mul_sum, ← Finset.mul_sum, hcards,
      hframed]
    simp
  have hone : STORE_BYTES_PER_PARTITION ≤ n * STORE_BYTES_PER_PARTITION := Nat.le_mul_of_pos_left _ hn
  rw [hparts, scaled]
  gcongr

variable {drafts : List Draft}

/-- **A count whose partitions all fit has the whole corpus under its ceilings.** -/
theorem Fits.scaled_le {ceiling n : ℕ} (h : Fits drafts ceiling n) (hn : 0 < n) :
    scaled drafts ≤ n * (ceiling * STORE_PER_DRAFT_BYTE_DEN) := by
  have hparts : ∀ k ∈ Finset.range n, scaled (share drafts n k) ≤ ceiling * STORE_PER_DRAFT_BYTE_DEN := by
    intro k hk
    exact (projection_le_iff _ _).mp (h k (Finset.mem_range.mp hk))
  calc scaled drafts ≤ ∑ k ∈ Finset.range n, scaled (share drafts n k) := scaled_le_sum drafts hn
    _ ≤ ∑ _k ∈ Finset.range n, ceiling * STORE_PER_DRAFT_BYTE_DEN := Finset.sum_le_sum hparts
    _ = n * (ceiling * STORE_PER_DRAFT_BYTE_DEN) := by simp

theorem framedBytes_share_le (drafts : List Draft) (n k : ℕ) : framedBytes (share drafts n k) ≤ framedBytes drafts :=
  ((List.filter_sublist).map framed).sum_le_sum fun _ _ => Nat.zero_le _

theorem cards_share_le (drafts : List Draft) (n k : ℕ) : cards (share drafts n k) ≤ cards drafts := by
  apply Finset.card_le_card
  intro h
  simp only [share, List.mem_toFinset, List.mem_map, List.mem_filter]
  rintro ⟨d, ⟨hd, -⟩, rfl⟩
  exact ⟨d, hd, rfl⟩

theorem scaled_share_le (drafts : List Draft) (n k : ℕ) : scaled (share drafts n k) ≤ scaled drafts := by
  have hcards := cards_share_le drafts n k
  have hframed := framedBytes_share_le drafts n k
  rw [scaled, scaled]
  gcongr

/-! ## A corpus's rows -/

section Rows

variable {α κ : Type} {A : Arith α} {value : κ → ℕ} {partOf : κ → ℕ → ℕ}

/-- The rows hold the drafts: each card once, with the bytes of its drafts. -/
structure Holds (A : Arith α) (value : κ → ℕ) (drafts : List Draft) (corpus : CardBytes κ α) : Prop where
  nodup : (corpus.rows.map fun row => value row.1).Nodup
  cards : ∀ h, h ∈ (corpus.rows.map fun row => value row.1) ↔ h ∈ drafts.map Draft.card
  bytes : ∀ row ∈ corpus.rows, row.2 = A.nat (framedBytes (drafts.filter fun d => d.card = value row.1))
  count : corpus.drafts = A.nat drafts.length
  total : corpus.framedBytes = A.nat (framedBytes drafts)

variable {corpus : CardBytes κ α}

theorem Holds.length_filter (h : Holds A value drafts corpus)
    (p : ℕ → Bool) :
    (corpus.rows.filter fun row => p (value row.1)).length = Sizing.cards (drafts.filter fun d => p d.card) := by
  have hmap : ((corpus.rows.filter fun row => p (value row.1)).map fun row => value row.1) =
      (corpus.rows.map fun row => value row.1).filter p := by
    rw [List.filter_map]
    rfl
  have hnodup := hmap ▸ h.nodup.filter p
  rw [← List.length_map (fun row => value row.1), ← List.toFinset_card_of_nodup hnodup, Sizing.cards]
  congr 1
  ext x
  rw [List.mem_toFinset, List.mem_toFinset, hmap, List.mem_filter, h.cards]
  simp only [List.mem_map, List.mem_filter]
  constructor
  · rintro ⟨⟨d, hd, rfl⟩, hp⟩
    exact ⟨d, ⟨hd, hp⟩, rfl⟩
  · rintro ⟨d, ⟨hd, hp⟩, rfl⟩
    exact ⟨⟨d, hd, rfl⟩, hp⟩

theorem sum_rows (hs : List ℕ) (hnodup : hs.Nodup) (p : ℕ → Bool) (drafts : List Draft)
    (hmem : ∀ d ∈ drafts, d.card ∈ hs) :
    ((hs.filter p).map fun h => framedBytes (drafts.filter fun d => d.card = h)).sum =
      framedBytes (drafts.filter fun d => p d.card) := by
  induction drafts with
  | nil => simp [framedBytes]
  | cons d drafts ih =>
    have hcons : ∀ h, framedBytes ((d :: drafts).filter fun d => d.card = h) =
        (if d.card = h then framed d else 0) + framedBytes (drafts.filter fun d => d.card = h) := by
      intro h
      by_cases hd : d.card = h <;> simp [framedBytes, hd]
    have hpart : ((hs.filter p).map fun h => if d.card = h then framed d else 0).sum = if p d.card then framed d else 0 := by
      rw [← List.sum_toFinset _ (hnodup.filter p), Finset.sum_ite_eq]
      simp [hmem d (by simp)]
    simp only [hcons, List.sum_map_add, hpart, ih fun d' hd' => hmem d' (by simp [hd'])]
    by_cases hp : p d.card <;> simp [framedBytes, hp]

theorem Holds.sum_bytes (h : Holds A value drafts corpus) (p : ℕ → Bool) :
    ((corpus.rows.filter fun row => p (value row.1)).map fun row =>
      Sizing.framedBytes (drafts.filter fun d => d.card = value row.1)).sum =
        Sizing.framedBytes (drafts.filter fun d => p d.card) := by
  rw [← sum_rows _ h.nodup p drafts fun d hd => (h.cards _).mpr (List.mem_map_of_mem hd), List.filter_map, List.map_map]
  rfl

theorem scaledProjection_eq {c f : ℕ}
    (h : (STORE_BYTES_PER_PARTITION + STORE_BYTES_PER_CARD * c) * STORE_PER_DRAFT_BYTE_DEN +
      STORE_PER_DRAFT_BYTE_NUM * f < A.bound) :
    scaledProjection A (A.nat c) (A.nat f) =
      A.nat ((STORE_BYTES_PER_PARTITION + STORE_BYTES_PER_CARD * c) * STORE_PER_DRAFT_BYTE_DEN +
        STORE_PER_DRAFT_BYTE_NUM * f) := by
  have hden : 0 < STORE_PER_DRAFT_BYTE_DEN := by decide
  unfold scaledProjection
  generalize STORE_BYTES_PER_PARTITION = p, STORE_BYTES_PER_CARD = q, STORE_PER_DRAFT_BYTE_DEN = d,
    STORE_PER_DRAFT_BYTE_NUM = m at h hden ⊢
  have hsum : p + q * c ≤ (p + q * c) * d := Nat.le_mul_of_pos_right _ hden
  have hcards : A.mul (A.nat q) (A.nat c) = A.nat (q * c) := A.mul_nat (by omega)
  have hframed : A.mul (A.nat m) (A.nat f) = A.nat (m * f) := A.mul_nat (by omega)
  have hfirst : A.add (A.nat p) (A.nat (q * c)) = A.nat (p + q * c) := A.add_nat (by omega)
  have hunits : A.mul (A.nat (p + q * c)) (A.nat d) = A.nat ((p + q * c) * d) := A.mul_nat (by omega)
  rw [hcards, hfirst, hunits, hframed, A.add_nat h]

theorem framedBytes_le_scaled (drafts : List Draft) : framedBytes drafts ≤ scaled drafts := by
  simp only [scaled, STORE_PER_DRAFT_BYTE_NUM]
  omega

theorem cards_le_scaled (drafts : List Draft) : cards drafts ≤ scaled drafts := by
  simp only [scaled, STORE_BYTES_PER_CARD, STORE_PER_DRAFT_BYTE_DEN]
  omega

/-- **A corpus in range is projected exactly, partition by partition.** -/
theorem Holds.scaledAt_eq (h : Holds A value drafts corpus) {n : ℕ}
    (hpart : ∀ row ∈ corpus.rows, partOf row.1 n = value row.1 % n) (hbound : scaled drafts < A.bound) :
    scaledAt A partOf corpus n = (List.range n).map fun k => A.nat (scaled (share drafts n k)) := by
  have hfilter : ∀ k, (corpus.rows.filter fun row => partOf row.1 n = k) =
      corpus.rows.filter fun row => decide (value row.1 % n = k) := by
    intro k
    apply List.filter_congr
    intro row hrow
    rw [hpart row hrow]
  have hbytes : A.spread (fun row => partOf row.1 n) Prod.snd n corpus.rows =
      (List.range n).map fun k => A.nat (Sizing.framedBytes (share drafts n k)) := by
    have hsum := h.sum_bytes fun _ => true
    rw [List.filter_true, List.filter_true] at hsum
    rw [A.spread_eq n h.bytes (by rw [hsum]; exact (framedBytes_le_scaled drafts).trans_lt hbound)]
    apply List.map_congr_left
    intro k _
    rw [hfilter, h.sum_bytes fun x => decide (x % n = k)]
    rfl
  have hcards : A.spread (fun row => partOf row.1 n) (fun _ => A.nat 1) n corpus.rows =
      (List.range n).map fun k => A.nat (Sizing.cards (share drafts n k)) := by
    have hsum := h.length_filter fun _ => true
    rw [List.filter_true, List.filter_true] at hsum
    rw [A.spread_eq (w := fun _ => 1) n (fun _ _ => rfl)
      (by simpa [hsum] using (cards_le_scaled drafts).trans_lt hbound)]
    apply List.map_congr_left
    intro k _
    rw [hfilter, List.map_const', List.sum_replicate, h.length_filter fun x => decide (x % n = k)]
    simp [share]
  rw [scaledAt, hbytes, hcards, List.zipWith_map, List.zipWith_self]
  apply List.map_congr_left
  intro k _
  exact scaledProjection_eq ((scaled_share_le drafts n k).trans_lt hbound)

theorem Holds.cards_eq (h : Holds A value drafts corpus) : corpus.cards = Sizing.cards drafts := by
  have hall := h.length_filter fun _ => true
  rwa [List.filter_true, List.filter_true] at hall

/-! ## One count's choice -/

def largestIndex (vs : List ℕ) : ℕ :=
  (List.range' 1 (vs.length - 1)).foldl (fun best k => if vs.getD best 0 < vs.getD k 0 then k else best) 0

theorem getD_lt {vs : List ℕ} {b : ℕ} (hvs : ∀ v ∈ vs, v < b) (hb : 0 < b) (k : ℕ) : vs.getD k 0 < b := by
  rw [List.getD_eq_getElem?_getD]
  cases hget : vs[k]? with
  | none => exact hb
  | some v => exact hvs v (List.mem_of_getElem? hget)

theorem largestAt_eq {vs : List ℕ} (hvs : ∀ v ∈ vs, v < A.bound) (hb : 0 < A.bound) :
    largestAt A (vs.map A.nat) = largestIndex vs := by
  have hstep : ∀ best k, A.lt ((vs.map A.nat).getD best (A.nat 0)) ((vs.map A.nat).getD k (A.nat 0)) =
      decide (vs.getD best 0 < vs.getD k 0) := by
    intro best k
    rw [List.getD_map, List.getD_map, A.lt_nat (getD_lt hvs hb best) (getD_lt hvs hb k)]
  simp only [largestAt, largestIndex, List.length_map, hstep, decide_eq_true_eq]

theorem largestIndex_spec {vs : List ℕ} (hne : vs ≠ []) :
    largestIndex vs < vs.length ∧ ∀ k < vs.length, vs.getD k 0 ≤ vs.getD (largestIndex vs) 0 := by
  have hscan : ∀ m, ((List.range' 1 m).foldl (fun best k => if vs.getD best 0 < vs.getD k 0 then k else best) 0) ≤ m ∧
      ∀ k ≤ m, vs.getD k 0 ≤ vs.getD
        ((List.range' 1 m).foldl (fun best k => if vs.getD best 0 < vs.getD k 0 then k else best) 0) 0 := by
    intro m
    induction m with
    | zero => simp
    | succ m ih =>
      rw [List.range'_1_concat, List.foldl_append, List.foldl_cons, List.foldl_nil]
      generalize ((List.range' 1 m).foldl (fun best k => if vs.getD best 0 < vs.getD k 0 then k else best) 0) = best
        at ih ⊢
      obtain ⟨hle, hmax⟩ := ih
      by_cases hlt : vs.getD best 0 < vs.getD (1 + m) 0
      · rw [if_pos hlt]
        refine ⟨by omega, ?_⟩
        intro k hk
        rcases Nat.lt_or_eq_of_le hk with hk | rfl
        · exact (hmax k (by omega)).trans hlt.le
        · rw [Nat.add_comm]
      · rw [if_neg hlt]
        refine ⟨by omega, ?_⟩
        intro k hk
        rcases Nat.lt_or_eq_of_le hk with hk | rfl
        · exact hmax k (by omega)
        · rw [Nat.add_comm]
          exact not_lt.mp hlt
  have hlen : 0 < vs.length := List.length_pos_of_ne_nil hne
  obtain ⟨hle, hmax⟩ := hscan (vs.length - 1)
  exact ⟨by rw [largestIndex]; omega, fun k hk => hmax k (by omega)⟩

/-- What each partition of `n` projects to. -/
def scaledShares (drafts : List Draft) (n : ℕ) : List ℕ := (List.range n).map fun k => scaled (share drafts n k)

/-- The choice of `n`, in natural numbers. -/
def choiceAt (drafts : List Draft) (ceiling n : ℕ) : SizingChoice ℕ :=
  let vs := scaledShares drafts n
  let top := vs.getD (largestIndex vs) 0
  { n := n
    projected := vs.map fun v => v / STORE_PER_DRAFT_BYTE_DEN
    largest := top / STORE_PER_DRAFT_BYTE_DEN
    largestAt := largestIndex vs
    cards := Sizing.cards drafts
    framedBytes := Sizing.framedBytes drafts
    drafts := drafts.length
    ceiling := ceiling
    clamped := ceiling * STORE_PER_DRAFT_BYTE_DEN < top }

def SizingChoice.map {β : Type} (f : α → β) (c : SizingChoice α) : SizingChoice β :=
  { n := c.n, projected := c.projected.map f, largest := f c.largest, largestAt := c.largestAt, cards := f c.cards,
    framedBytes := f c.framedBytes, drafts := f c.drafts, ceiling := f c.ceiling, clamped := c.clamped }

theorem scaledShares_lt {b : ℕ} (h : scaled drafts < b) (n : ℕ) : ∀ v ∈ scaledShares drafts n, v < b := by
  intro v hv
  obtain ⟨k, -, rfl⟩ := List.mem_map.mp hv
  exact (scaled_share_le drafts n k).trans_lt h

/-- **Each language's choice of a count is the one in natural numbers.** -/
theorem Holds.project_eq (h : Holds A value drafts corpus) {n : ℕ}
    (hpart : ∀ row ∈ corpus.rows, partOf row.1 n = value row.1 % n) (hbound : scaled drafts < A.bound)
    {ceiling : ℕ} {scaledCeiling : α}
    (hclamp : ∀ v < A.bound, A.lt scaledCeiling (A.nat v) = decide (ceiling * STORE_PER_DRAFT_BYTE_DEN < v)) :
    project A partOf corpus (A.nat ceiling) scaledCeiling n = (choiceAt drafts ceiling n).map A.nat := by
  have hb : 0 < A.bound := Nat.zero_lt_of_lt hbound
  have hlt := scaledShares_lt hbound n
  have hscaled : scaledAt A partOf corpus n = (scaledShares drafts n).map A.nat := by
    rw [h.scaledAt_eq hpart hbound, scaledShares, List.map_map]
    rfl
  have hdiv : ∀ v ∈ scaledShares drafts n, A.div (A.nat v) (A.nat STORE_PER_DRAFT_BYTE_DEN) =
      A.nat (v / STORE_PER_DRAFT_BYTE_DEN) := fun v hv => A.div_nat (hlt v hv) (by decide)
  have htop := getD_lt hlt hb (largestIndex (scaledShares drafts n))
  simp only [project, hscaled, largestAt_eq hlt hb, List.getD_map, hclamp _ htop, A.div_nat htop (by decide : 0 < STORE_PER_DRAFT_BYTE_DEN),
    choiceAt, SizingChoice.map, h.cards_eq, h.count, h.total, List.map_map]
  congr 1
  exact List.map_congr_left hdiv

theorem clamped_iff (drafts : List Draft) (ceiling : ℕ) {n : ℕ} (hn : 0 < n) :
    (choiceAt drafts ceiling n).clamped = true ↔ ¬ Fits drafts ceiling n := by
  have hget : ∀ k < n, (scaledShares drafts n).getD k 0 = scaled (share drafts n k) := by
    intro k hk
    simp [scaledShares, List.getD_eq_getElem?_getD, hk]
  have hlen : (scaledShares drafts n).length = n := by simp [scaledShares]
  have hne : scaledShares drafts n ≠ [] := List.ne_nil_of_length_pos (by omega)
  obtain ⟨hin, hmax⟩ := largestIndex_spec hne
  rw [hlen] at hin hmax
  simp only [choiceAt, decide_eq_true_eq]
  constructor
  · intro hover hfits
    have hle := (projection_le_iff _ _).mp (hfits _ hin)
    rw [← hget _ hin] at hle
    omega
  · intro hfits
    by_contra hover
    apply hfits
    intro k hk
    rw [projection_le_iff, ← hget k hk]
    exact (hmax k hk).trans (not_lt.mp hover)

/-! ## The walk -/

theorem walk_spec (choice : ℕ → SizingChoice α) {start : ℕ} (hstart : start ≤ MAX_PARTITION_COUNT) :
    ∃ n, start ≤ n ∧ n ≤ MAX_PARTITION_COUNT ∧ walk choice start = choice n ∧
      ((choice n).clamped = false ∨ n = MAX_PARTITION_COUNT) ∧ ∀ m, start ≤ m → m < n → (choice m).clamped = true := by
  unfold walk
  obtain ⟨len, hlen⟩ := Nat.le.dest hstart
  rw [show MAX_PARTITION_COUNT - start = len by omega]
  induction len generalizing start with
  | zero => exact ⟨MAX_PARTITION_COUNT, hstart, le_rfl, rfl, .inr rfl, fun m hm hlt => by omega⟩
  | succ len ih =>
    rw [List.range'_succ, List.map_cons, List.find?_cons]
    cases hc : (choice start).clamped with
    | false => exact ⟨start, le_rfl, hstart, by simp, .inl hc, fun m hm hlt => by omega⟩
    | true =>
      have hnext : start + 1 ≤ MAX_PARTITION_COUNT := by omega
      obtain ⟨n, hn, hmax, hwalk, hend, hskip⟩ := ih hnext (by omega)
      refine ⟨n, by omega, hmax, by simpa using hwalk, hend, ?_⟩
      intro m hm hlt
      rcases Nat.lt_or_eq_of_le hm with hm | rfl
      · exact hskip m hm hlt
      · exact hc

/-- **The walk from a count below which nothing fits finds the least admissible.** -/
theorem walk_least {ceiling start : ℕ} {choice : ℕ → SizingChoice α}
    (hchoice : ∀ n, MIN_PARTITION_COUNT ≤ n → (choice n).clamped = (choiceAt drafts ceiling n).clamped)
    (hmin : MIN_PARTITION_COUNT ≤ start) (hmax : start ≤ MAX_PARTITION_COUNT)
    (hskip : ∀ n, MIN_PARTITION_COUNT ≤ n → n < start → ¬ Fits drafts ceiling n) :
    ∃ n, IsLeast (Admissible drafts ceiling) n ∧ walk choice start = choice n := by
  have hclamped : ∀ n, MIN_PARTITION_COUNT ≤ n → ((choice n).clamped = true ↔ ¬ Fits drafts ceiling n) := by
    intro n hn
    have hpos : 0 < n := lt_of_lt_of_le (by decide) hn
    rw [hchoice n hn, clamped_iff drafts ceiling hpos]
  obtain ⟨n, hn, hle, hwalk, hend, hover⟩ := walk_spec choice hmax
  refine ⟨n, ⟨⟨hmin.trans hn, hle, ?_⟩, ?_⟩, hwalk⟩
  · rcases hend with hfree | hlast
    · left
      by_contra hfits
      rw [(hclamped n (hmin.trans hn)).mpr hfits] at hfree
      cases hfree
    · exact .inr hlast
  · rintro m ⟨hm, hmle, hfits⟩
    by_contra hlt
    have hnot : ¬ Fits drafts ceiling m := by
      by_cases hbefore : m < start
      · exact hskip m hm hbefore
      · exact (hclamped m hm).mp (hover m (by omega) (by omega))
    rcases hfits with hfits | rfl
    · exact hnot hfits
    · omega

end Rows

theorem length_le_framedBytes (drafts : List Draft) : drafts.length ≤ framedBytes drafts := by
  induction drafts with
  | nil => simp
  | cons d drafts ih =>
    simp only [framedBytes, List.map_cons, List.sum_cons, List.length_cons, framed, DRAFT_FRAME_BYTES] at ih ⊢
    omega

theorem framedBytes_concat (drafts : List Draft) (d : Draft) :
    framedBytes (drafts ++ [d]) = framedBytes drafts + framed d := by
  simp [framedBytes]

theorem framedBytes_perm {l l' : List Draft} (h : l.Perm l') : framedBytes l = framedBytes l' := (h.map framed).sum_eq

/-! ## The nightly coordinator -/

namespace Nightly

open Arith

def Halves.value (h : Halves) : ℕ := h.hi.toNat * 2 ^ 32 + h.lo.toNat

theorem value_halves (h : UInt64) : (halves h).value = h.toNat := by
  have hlt := h.toNat_lt
  have hshift : (32 : UInt64).toNat % 64 = 32 := by decide
  simp only [halves, Halves.value, UInt64.toNat_toUInt32, UInt64.toNat_shiftRight, hshift, Nat.shiftRight_eq_div_pow]
  omega

theorem Halves.value_inj {m h : Halves} : m.value = h.value ↔ m = h := by
  have hm := m.lo.toNat_lt
  have hh := h.lo.toNat_lt
  constructor
  · intro heq
    simp only [Halves.value] at heq
    cases m
    cases h
    simp only at heq hm hh
    rw [Halves.mk.injEq]
    exact ⟨UInt32.toNat_inj.mp (by omega), UInt32.toNat_inj.mp (by omega)⟩
  · rintro rfl
    rfl

theorem Halves.below_iff {m h : Halves} : m.below h = true ↔ m.value < h.value := by
  have hm := m.lo.toNat_lt
  have hh := h.lo.toNat_lt
  simp only [Halves.below, Halves.value, Bool.or_eq_true, Bool.and_eq_true, beq_iff_eq, decide_eq_true_eq,
    UInt32.lt_iff_toNat_lt, ← UInt32.toNat_inj]
  omega

/-- **The two halves' remainder is the hash's.** -/
theorem modHalves_eq (h : Halves) (n : ℕ) : modHalves h n = h.value % n := by
  have htwo : TWO_32 = 2 ^ 32 := by decide
  rw [modHalves, Halves.value, htwo, Nat.add_mod (h.hi.toNat * 2 ^ 32), Nat.mul_mod h.hi.toNat, Nat.add_mod (_ * _),
    Nat.mod_mod]

theorem pack_concat (l : List UInt64) (h : UInt64) :
    pack (l ++ [h]) = if (pack l).getLast? = some h then pack l else pack l ++ [h] := by
  rw [pack, List.foldl_append]
  rfl

theorem pack_eq (l : List UInt64) : (pack l).map toNat = (group toNat (fun _ _ => ()) l).map Prod.fst := by
  induction l using List.reverseRecOn with
  | nil => rfl
  | append_singleton l h ih =>
    have hgroup : group toNat (fun _ _ => ()) (l ++ [h]) = join toNat (fun _ _ => ()) (group toNat (fun _ _ => ()) l) h := by
      simp [group]
    rw [hgroup, pack_concat]
    generalize group toNat (fun _ _ => ()) l = rows at ih
    have hlast : ((pack l).getLast?).map toNat = (rows.getLast?).map Prod.fst := by
      rw [← List.getLast?_map, ← List.getLast?_map, ih]
    unfold join
    cases hrow : rows.getLast? with
    | none =>
      rw [hrow] at hlast
      have hnone : (pack l).getLast? = none := by simpa using hlast
      simp [hnone, ih]
    | some row =>
      rw [hrow] at hlast
      obtain ⟨g, hg, hkey⟩ := Option.map_eq_some_iff.mp hlast
      have hsplit : rows = rows.dropLast ++ [row] := (List.dropLast_append_getLast? row hrow).symm
      simp only [hg, Option.some.injEq, ← UInt64.toNat_inj, hkey]
      by_cases heq : row.1 = h.toNat
      · rw [if_pos heq, if_pos heq, ih]
        -- the row holds nothing but its key
        conv_lhs => rw [hsplit]
      · rw [if_neg heq, if_neg heq]
        simp [ih]

theorem search_eq {rows : List (Halves × ℚ)} (hsorted : rows.Pairwise fun r r' => r.1.value < r'.1.value) {h : Halves}
    {i : ℕ} {row : Halves × ℚ} (hrow : rows[i]? = some row) (hkey : row.1 = h) {a e : ℕ} (ha : a ≤ i) (hi : i < e)
    (he : e ≤ rows.length) : search rows h a e = some i := by
  have hat : ∀ j r, rows[j]? = some r → (r.1.value < h.value ↔ j < i) ∧ (r.1 = h → j = i) := by
    intro j r hr
    obtain ⟨hj, rfl⟩ := List.getElem?_eq_some_iff.mp hr
    obtain ⟨hi', rfl⟩ := List.getElem?_eq_some_iff.mp hrow
    have hordered := List.pairwise_iff_getElem.mp hsorted
    rcases lt_trichotomy j i with hlt | rfl | hgt
    · have hv := hordered j i hj hi' hlt
      rw [hkey] at hv
      refine ⟨⟨fun _ => hlt, fun _ => hv⟩, fun heq => ?_⟩
      rw [heq] at hv
      exact absurd hv (lt_irrefl _)
    · rw [hkey]
      exact ⟨⟨fun hv => absurd hv (lt_irrefl _), fun hv => absurd hv (lt_irrefl _)⟩, fun _ => rfl⟩
    · have hv := hordered i j hi' hj hgt
      rw [hkey] at hv
      refine ⟨⟨fun hv' => absurd (hv.trans hv') (lt_irrefl _), fun hlt => by omega⟩, fun heq => ?_⟩
      rw [heq] at hv
      exact absurd hv (lt_irrefl _)
  fun_induction search rows h a e with
  | case1 a e hlt mid r hr heq => rw [(hat mid r hr).2 heq]
  | case2 a e hlt mid r hr hne hbelow ih =>
    have hmid : mid < i := (hat mid r hr).1.mp (Halves.below_iff.mp hbelow)
    exact ih (by omega) hi he
  | case3 a e hlt mid r hr hne hbelow ih =>
    have hmid : ¬ mid < i := fun hlt => hbelow (Halves.below_iff.mpr ((hat mid r hr).1.mpr hlt))
    have hne' : mid ≠ i := by
      rintro rfl
      rw [hr] at hrow
      cases hrow
      exact hne hkey
    exact ih ha (by omega) (by omega)
  | case4 a e hlt mid hnone =>
    rw [List.getElem?_eq_none_iff] at hnone
    omega
  | case5 a e hle => omega

/-- A row for each card of `all`, filled from the drafts `done`. -/
structure Filled (all done : List Draft) (corpus : CardBytes Halves ℚ) : Prop where
  sorted : corpus.rows.Pairwise fun r r' => r.1.value < r'.1.value
  cards : ∀ h, h ∈ (corpus.rows.map fun row => row.1.value) ↔ h ∈ all.map Draft.card
  bytes : ∀ row ∈ corpus.rows, row.2 = double.nat (framedBytes (done.filter fun d => d.card = row.1.value))
  count : corpus.drafts = double.nat done.length
  total : corpus.framedBytes = double.nat (framedBytes done)

theorem Filled.holds {corpus : CardBytes Halves ℚ} (h : Filled drafts drafts corpus) :
    Holds double Halves.value drafts corpus where
  nodup := List.pairwise_map.mpr (h.sorted.imp fun hlt => hlt.ne)
  cards := h.cards
  bytes := h.bytes
  count := h.count
  total := h.total

theorem filled_distinct (drafts : List Draft) : Filled drafts [] (distinct (drafts.map Draft.hash)) := by
  set sorted := SortedRuns.sortBy toNat (drafts.map Draft.hash)
  have hperm : sorted.Perm (drafts.map Draft.hash) := perm_sortBy _ _
  have hgrouped : SortedRuns.Grouped toNat (fun _ _ => ()) sorted
      (group toNat (fun _ _ => ()) sorted) :=
    grouped_group _ (pairwise_sortBy _ _)
  have hrows : (distinct (drafts.map Draft.hash)).rows = (pack sorted).map fun h => (halves h, 0) := rfl
  have hvalues : ((pack sorted).map fun h => (halves h).value) = (pack sorted).map toNat :=
    List.map_congr_left fun h _ => value_halves h
  constructor
  · rw [hrows, List.pairwise_map]
    have hpairs : ((pack sorted).map toNat).Pairwise (· < ·) := by
      rw [pack_eq]
      exact List.pairwise_map.mpr hgrouped.sorted
    exact (List.pairwise_map.mp hpairs).imp fun hlt => by simpa only [value_halves] using hlt
  · intro h
    rw [hrows, List.map_map, show ((fun row : Halves × ℚ => row.1.value) ∘ fun h => (halves h, (0 : ℚ))) =
      fun h => (halves h).value from rfl, hvalues, pack_eq, hgrouped.keys, (hperm.map _).mem_iff, List.map_map]
    rfl
  · intro row hrow
    rw [hrows] at hrow
    obtain ⟨h, -, rfl⟩ := List.mem_map.mp hrow
    simp [double, framedBytes]
  · simp [distinct, double]
  · simp [distinct, double, framedBytes]

theorem Filled.add {all done : List Draft} {corpus : CardBytes Halves ℚ} (h : Filled all done corpus) {d : Draft}
    (hd : d ∈ all) (hbound : framedBytes (done ++ [d]) < 2 ^ 53) :
    ∃ corpus', add corpus d.hash d.length.toNat = .ok corpus' ∧ Filled all (done ++ [d]) corpus' := by
  obtain ⟨row, hrow, hvalue⟩ := List.mem_map.mp ((h.cards d.card).mpr (List.mem_map_of_mem hd))
  obtain ⟨i, hi⟩ := List.mem_iff_getElem?.mp hrow
  obtain ⟨hlen, -⟩ := List.getElem?_eq_some_iff.mp hi
  have hkey : row.1 = halves d.hash := Halves.value_inj.mp (hvalue.trans (value_halves d.hash).symm)
  have hsearch := search_eq h.sorted hi hkey (Nat.zero_le i) hlen le_rfl
  have hlength : done.length + 1 < 2 ^ 53 := by
    have hle := length_le_framedBytes (done ++ [d])
    rw [List.length_append, List.length_singleton] at hle
    omega
  rw [framedBytes_concat] at hbound
  have hframed : double.add (double.nat DRAFT_FRAME_BYTES) (double.nat d.length.toNat) = double.nat (framed d) := by
    rw [framed] at hbound
    exact double.add_nat (by change _ < 2 ^ 53; omega)
  refine ⟨_, by rw [Nightly.add, hsearch], ?_⟩
  simp only [hframed]
  have hget : ∀ j r, (corpus.rows.modify i fun row => (row.1, double.add row.2 (double.nat (framed d))))[j]? = some r →
      ∃ r', corpus.rows[j]? = some r' ∧ r = if i = j then (r'.1, double.add r'.2 (double.nat (framed d))) else r' := by
    intro j r hr
    rw [List.getElem?_modify] at hr
    obtain ⟨r', hr', rfl⟩ := Option.map_eq_some_iff.mp hr
    exact ⟨r', hr', by split <;> rfl⟩
  have hvalues : (corpus.rows.modify i fun row => (row.1, double.add row.2 (double.nat (framed d)))).map Prod.fst =
      corpus.rows.map Prod.fst := by
    apply List.ext_getElem?
    intro j
    rw [List.getElem?_map, List.getElem?_map, List.getElem?_modify]
    cases corpus.rows[j]? with
    | none => rfl
    | some r => by_cases hij : i = j <;> simp [hij]
  constructor
  · have hsorted : (corpus.rows.map Prod.fst).Pairwise fun m h => m.value < h.value := List.pairwise_map.mpr h.sorted
    rw [← hvalues] at hsorted
    exact List.Pairwise.of_map Prod.fst (fun _ _ hlt => hlt) hsorted
  · intro x
    have hmap : ∀ rows : List (Halves × ℚ), (rows.map fun row => row.1.value) = (rows.map Prod.fst).map Halves.value := by
      intro rows
      rw [List.map_map]
      rfl
    rw [hmap, hvalues, ← hmap]
    exact h.cards x
  · intro r hr
    obtain ⟨j, hj⟩ := List.mem_iff_getElem?.mp hr
    obtain ⟨r', hr', rfl⟩ := hget j r hj
    have hbytes := h.bytes r' (List.mem_of_getElem? hr')
    by_cases hij : i = j
    · subst hij
      rw [hi] at hr'
      cases hr'
      have hle : framedBytes (done.filter fun d => d.card = row.1.value) ≤ framedBytes done :=
        ((List.filter_sublist).map framed).sum_le_sum fun _ _ => Nat.zero_le _
      rw [if_pos rfl, hbytes, double.add_nat (by change _ < 2 ^ 53; omega), List.filter_append, List.filter_singleton]
      simp [hvalue, framedBytes]
    · have hne : d.card ≠ r'.1.value := by
        intro heq
        obtain ⟨hj', hr''⟩ := List.getElem?_eq_some_iff.mp hr'
        obtain ⟨hi', hrow'⟩ := List.getElem?_eq_some_iff.mp hi
        have hordered := List.pairwise_iff_getElem.mp h.sorted
        rcases Nat.lt_or_gt_of_ne hij with hlt | hlt
        · have hv := hordered i j hi' hj' hlt
          rw [hr'', hrow'] at hv
          omega
        · have hv := hordered j i hj' hi' hlt
          rw [hr'', hrow'] at hv
          omega
      rw [if_neg hij, hbytes, List.filter_append, List.filter_singleton]
      simp [hne]
  · rw [h.count, List.length_append, List.length_singleton]
    have hone : (1 : ℚ) = double.nat 1 := by simp [double]
    rw [hone]
    exact double.add_nat hlength
  · rw [h.total, framedBytes_concat]
    exact double.add_nat hbound

/-- **Every draft is counted.** -/
theorem foldlM_add {all : List Draft} (hbound : framedBytes all < 2 ^ 53) :
    ∀ {rest done : List Draft} {corpus : CardBytes Halves ℚ}, done ++ rest = all → Filled all done corpus →
      ∃ corpus', ((rest.map Draft.hash).zip (rest.map fun d => d.length)).foldlM
          (fun corpus draft => Nightly.add corpus draft.1 draft.2.toNat) corpus = .ok corpus' ∧ Filled all all corpus' := by
  intro rest
  induction rest with
  | nil =>
    rintro done corpus rfl h
    rw [List.append_nil] at h ⊢
    exact ⟨corpus, rfl, h⟩
  | cons d rest ih =>
    intro done corpus hall h
    have hprefix : framedBytes (done ++ [d]) ≤ framedBytes all := by
      rw [← hall]
      simp only [framedBytes, List.map_append, List.sum_append, List.map_cons, List.sum_cons, List.map_nil, List.sum_nil]
      omega
    obtain ⟨corpus', hadd, h'⟩ := h.add (d := d) (by rw [← hall]; simp) (by omega)
    obtain ⟨final, hfold, hfilled⟩ := ih (by rw [← hall]; simp) h'
    refine ⟨final, ?_, hfilled⟩
    rw [List.map_cons, List.map_cons, List.zip_cons_cons, List.foldlM_cons, hadd]
    exact hfold

theorem ceiling_le_or (ceiling : ℕ) :
    double.mul (ceiling : ℤ) (double.nat STORE_PER_DRAFT_BYTE_DEN) = (ceiling * STORE_PER_DRAFT_BYTE_DEN : ℕ) ∨
      2 ^ 53 ≤ ceiling * STORE_PER_DRAFT_BYTE_DEN ∧
        (2 : ℚ) ^ 53 ≤ double.mul (ceiling : ℤ) (double.nat STORE_PER_DRAFT_BYTE_DEN) := by
  by_cases h : ceiling * STORE_PER_DRAFT_BYTE_DEN < 2 ^ 53
  · exact .inl (double.mul_nat h)
  · refine .inr ⟨not_lt.mp h, ?_⟩
    apply Float64.pow_le_nearest
    have hle : (2 : ℚ) ^ 53 ≤ (ceiling * STORE_PER_DRAFT_BYTE_DEN : ℕ) := by exact_mod_cast not_lt.mp h
    simpa [double] using hle

theorem clamp (ceiling : ℕ) {v : ℕ} (hv : v < double.bound) :
    double.lt (double.mul (ceiling : ℤ) (double.nat STORE_PER_DRAFT_BYTE_DEN)) (double.nat v) =
      decide (ceiling * STORE_PER_DRAFT_BYTE_DEN < v) := by
  have hv' : (v : ℚ) < 2 ^ 53 := by exact_mod_cast hv
  change decide (_ < (v : ℚ)) = _
  rcases ceiling_le_or ceiling with heq | ⟨hle, hle'⟩
  · rw [heq]
    exact decide_eq_decide.mpr Nat.cast_lt
  · have hv'' : v < 2 ^ 53 := hv
    rw [decide_eq_false (not_lt.mpr (hv'.le.trans hle')), decide_eq_false (by omega)]

theorem skipped {ceiling n : ℕ} (hbound : scaled drafts < 2 ^ 53) (hpos : 0 < ceiling)
    (hn : MIN_PARTITION_COUNT ≤ n)
    (hlt : n < start (scaled drafts) (double.mul (ceiling : ℤ) (double.nat STORE_PER_DRAFT_BYTE_DEN))) :
    ¬ Fits drafts ceiling n := by
  intro hfits
  have hn0 : 0 < n := lt_of_lt_of_le (by decide) hn
  have htotal := hfits.scaled_le hn0
  have hor := ceiling_le_or ceiling
  generalize double.mul (ceiling : ℤ) (double.nat STORE_PER_DRAFT_BYTE_DEN) = scaledCeiling at hor hlt
  have hceiling : 0 < scaledCeiling := by
    rcases hor with heq | ⟨-, hle⟩
    · rw [heq]
      exact_mod_cast Nat.mul_pos hpos (by decide)
    · exact lt_of_lt_of_le (by norm_num) hle
  have htimes : (scaled drafts : ℚ) ≤ n * scaledCeiling := by
    rcases hor with heq | ⟨-, hle⟩
    · rw [heq]
      exact_mod_cast htotal
    · have hone : (1 : ℚ) ≤ n := by exact_mod_cast hn0
      have hsmall : (scaled drafts : ℚ) < 2 ^ 53 := by exact_mod_cast hbound
      exact (hsmall.le.trans hle).trans (le_mul_of_one_le_left hceiling.le hone)
  have hmax : n < MAX_PARTITION_COUNT := lt_of_lt_of_le hlt (min_le_left _ _)
  have hround : Float64.nearest ((scaled drafts : ℚ) / scaledCeiling) ≤ n := by
    apply Float64.nearest_le_nat (by positivity)
    · simp only [MAX_PARTITION_COUNT] at hmax
      omega
    · rwa [div_le_iff₀ hceiling]
  have hceil : ⌈Float64.nearest ((scaled drafts : ℚ) / scaledCeiling)⌉ ≤ (n : ℤ) :=
    Int.ceil_le.mpr (by exact_mod_cast hround)
  simp only [start] at hlt
  omega

/-- **The nightly coordinator's choice is the least admissible count's.** -/
theorem choosePartitionCount_eq {ceiling : ℕ} (hbound : scaled drafts < 2 ^ 53)
    (hpos : 0 < ceiling) :
    ∃ n, IsLeast (Admissible drafts ceiling) n ∧
      choosePartitionCount (drafts.map Draft.hash) (drafts.map fun d => d.length) ceiling =
        .ok ((choiceAt drafts ceiling n).map double.nat) := by
  obtain ⟨corpus, hfold, hfilled⟩ := foldlM_add ((framedBytes_le_scaled drafts).trans_lt hbound)
    (List.nil_append drafts) (filled_distinct drafts)
  have hholds := hfilled.holds
  have hproject : ∀ n, project double modHalves corpus (ceiling : ℤ)
      (double.mul (ceiling : ℤ) (double.nat STORE_PER_DRAFT_BYTE_DEN)) n = (choiceAt drafts ceiling n).map double.nat := by
    intro n
    have hcast : ((ceiling : ℤ) : ℚ) = double.nat ceiling := by simp [double]
    have hclamp := fun v (hv : v < double.bound) => clamp ceiling hv
    rw [hcast] at hclamp ⊢
    exact hholds.project_eq (fun row _ => modHalves_eq row.1 n) hbound hclamp
  have htotal : scaledProjection double (double.nat corpus.cards) corpus.framedBytes = (scaled drafts : ℚ) := by
    rw [hfilled.total, hholds.cards_eq]
    exact scaledProjection_eq hbound
  have hclamped : ∀ n, MIN_PARTITION_COUNT ≤ n → (project double modHalves corpus (ceiling : ℤ)
      (double.mul (ceiling : ℤ) (double.nat STORE_PER_DRAFT_BYTE_DEN)) n).clamped = (choiceAt drafts ceiling n).clamped := by
    intro n _
    rw [hproject n]
    rfl
  obtain ⟨n, hleast, hwalk⟩ := walk_least hclamped (le_min (by decide) (le_max_left _ _)) (min_le_left _ _)
    (fun n hn hlt => skipped hbound hpos hn hlt)
  refine ⟨n, hleast, ?_⟩
  rw [choosePartitionCount, if_neg (by simp), hfold]
  change choosePartitionCountFor corpus ceiling = _
  rw [choosePartitionCountFor, if_neg (by omega), htotal]
  exact congrArg Except.ok (hwalk.trans (hproject n))

end Nightly

/-! ## The native builder -/

namespace Native

open Arith

theorem framed_eq (d : Draft) : framed d = Sizing.framed d := by
  have hlt := d.length.toNat_lt
  exact word.add_nat (by change _ < 2 ^ 64; simp only [DRAFT_FRAME_BYTES]; omega)

theorem foldl_framed (l : List Draft) (h : framedBytes l < 2 ^ 64) :
    l.foldl (fun sum draft => word.add sum (framed draft)) 0 = framedBytes l := by
  induction l using List.reverseRecOn with
  | nil => rfl
  | append_singleton l d ih =>
    rw [framedBytes_concat] at h ⊢
    rw [List.foldl_append, List.foldl_cons, List.foldl_nil, ih (by omega), framed_eq]
    exact word.add_nat h

def putBytes (bytes : Option ℕ) (draft : Draft) : ℕ :=
  match bytes with
  | some bytes => word.add bytes (framed draft)
  | none => framed draft

theorem foldl_putBytes (l : List Draft) (h : framedBytes l < 2 ^ 64) :
    l.foldl (fun held d => some (putBytes held d)) none = if l = [] then none else some (framedBytes l) := by
  induction l using List.reverseRecOn with
  | nil => rfl
  | append_singleton l d ih =>
    rw [framedBytes_concat] at h
    have hne : l ++ [d] ≠ [] := by simp
    rw [List.foldl_append, List.foldl_cons, List.foldl_nil, ih (by omega), if_neg hne, framedBytes_concat]
    by_cases hl : l = []
    · subst hl
      rw [if_pos rfl, putBytes, framed_eq, framedBytes, List.map_nil, List.sum_nil, Nat.zero_add]
    · rw [if_neg hl, putBytes, framed_eq]
      exact congrArg some (word.add_nat h)

theorem holds_of (hbound : framedBytes drafts < 2 ^ 64) : Holds word id drafts (CardBytes.of drafts) := by
  have hperm : (SortedRuns.sortBy Draft.card drafts).Perm drafts := perm_sortBy _ _
  have hgrouped : SortedRuns.Grouped Draft.card putBytes (SortedRuns.sortBy Draft.card drafts) (CardBytes.of drafts).rows :=
    grouped_group _ (pairwise_sortBy _ _)
  constructor
  · exact hgrouped.sorted.nodup_keys
  · intro h
    exact (hgrouped.keys h).trans (hperm.map _).mem_iff
  · intro row hrow
    have hvalue := hgrouped.values row hrow
    have hsame := framedBytes_perm (hperm.filter fun d => d.card = row.1)
    have hle : framedBytes ((SortedRuns.sortBy Draft.card drafts).filter fun d => d.card = row.1) ≤ framedBytes drafts := by
      rw [hsame]
      exact ((List.filter_sublist).map Sizing.framed).sum_le_sum fun _ _ => Nat.zero_le _
    rw [gathered, foldl_putBytes _ (by omega)] at hvalue
    split at hvalue
    · cases hvalue
    · rw [Option.some.injEq, hsame] at hvalue
      exact hvalue.symm
  · rfl
  · have hsame := framedBytes_perm hperm
    simp only [CardBytes.of]
    rw [foldl_framed _ (by omega), hsame]
    rfl

theorem skipped {ceiling n : ℕ} (hpos : 0 < ceiling) (hn : MIN_PARTITION_COUNT ≤ n)
    (hlt : n < start (scaled drafts) (ceiling * STORE_PER_DRAFT_BYTE_DEN)) : ¬ Fits drafts ceiling n := by
  intro hfits
  have hn0 : 0 < n := lt_of_lt_of_le (by decide) hn
  have htotal := hfits.scaled_le hn0
  have hceiling : 0 < ceiling * STORE_PER_DRAFT_BYTE_DEN := Nat.mul_pos hpos (by decide)
  generalize ceiling * STORE_PER_DRAFT_BYTE_DEN = most at htotal hceiling hlt
  have hceil : (scaled drafts + most - 1) / most ≤ n := by
    have hcomm : n * most = most * n := Nat.mul_comm _ _
    rw [← Nat.lt_succ_iff, Nat.div_lt_iff_lt_mul hceiling, Nat.succ_mul]
    omega
  simp only [start, Nat.max_eq_left hceiling] at hlt
  omega

/-- **The native builder's choice is the least admissible count's.** -/
theorem choose_partition_count_eq {ceiling : ℕ} (hbound : scaled drafts < 2 ^ 64)
    (hpos : 0 < ceiling) (hceiling : ceiling * STORE_PER_DRAFT_BYTE_DEN < 2 ^ 64) :
    ∃ n, IsLeast (Admissible drafts ceiling) n ∧
      choose_partition_count drafts ceiling = (choiceAt drafts ceiling n).map word.nat := by
  have hholds := holds_of ((framedBytes_le_scaled drafts).trans_lt hbound)
  have hscaled : word.mul ceiling (word.nat STORE_PER_DRAFT_BYTE_DEN) = ceiling * STORE_PER_DRAFT_BYTE_DEN :=
    word.mul_nat hceiling
  have hproject : ∀ n, project word part_of (CardBytes.of drafts) ceiling (ceiling * STORE_PER_DRAFT_BYTE_DEN) n =
      (choiceAt drafts ceiling n).map word.nat := by
    intro n
    exact hholds.project_eq (fun row _ => rfl) hbound fun v _ => rfl
  have htotal : scaledProjection word (word.nat (CardBytes.of drafts).cards) (CardBytes.of drafts).framedBytes =
      scaled drafts := by
    rw [hholds.total, hholds.cards_eq]
    exact scaledProjection_eq hbound
  have hclamped : ∀ n, MIN_PARTITION_COUNT ≤ n → (project word part_of (CardBytes.of drafts) ceiling
      (ceiling * STORE_PER_DRAFT_BYTE_DEN) n).clamped = (choiceAt drafts ceiling n).clamped := by
    intro n _
    rw [hproject n]
    rfl
  obtain ⟨n, hleast, hwalk⟩ := walk_least hclamped (le_min (le_max_right _ _) (by decide)) (min_le_right _ _)
    (fun n hn hlt => skipped hpos hn hlt)
  refine ⟨n, hleast, ?_⟩
  rw [choose_partition_count, choose_partition_count_for, hscaled, htotal]
  exact hwalk.trans (hproject n)

end Native

/-- **Both builders choose one count, the smallest whose largest partition fits.** The
projection's integers are those of doubles, below 2^53, and the scaled ceiling fits a
64-bit word. -/
theorem counts_agree (drafts : List Draft) (ceiling : ℕ) (hpos : 0 < ceiling) (hbound : scaled drafts < 2 ^ 53)
    (hceiling : ceiling * STORE_PER_DRAFT_BYTE_DEN < 2 ^ 64) :
    ∃ choice : SizingChoice ℚ,
      Nightly.choosePartitionCount (drafts.map Draft.hash) (drafts.map fun d => d.length) ceiling = .ok choice ∧
        (Native.choose_partition_count drafts ceiling).n = choice.n ∧
          IsLeast (Admissible drafts ceiling) choice.n := by
  obtain ⟨n, hleast, hnightly⟩ := Nightly.choosePartitionCount_eq hbound hpos
  have hword : scaled drafts < 2 ^ 64 := by omega
  obtain ⟨m, hleast', hnative⟩ := Native.choose_partition_count_eq hword hpos hceiling
  refine ⟨_, hnightly, ?_, hleast⟩
  rw [hnative]
  exact hleast'.unique hleast

/-- Three drafts of two cards under the ceiling in force. -/
theorem counts_agree_two_cards :
    ∃ choice : SizingChoice ℚ,
      Nightly.choosePartitionCount [5, 7, 5] [100, 3, 20] PARTITION_CEILING_BYTES = .ok choice ∧
        (Native.choose_partition_count [⟨5, 100⟩, ⟨7, 3⟩, ⟨5, 20⟩] PARTITION_CEILING_BYTES).n = choice.n ∧
          IsLeast (Admissible [⟨5, 100⟩, ⟨7, 3⟩, ⟨5, 20⟩] PARTITION_CEILING_BYTES) choice.n :=
  counts_agree [⟨5, 100⟩, ⟨7, 3⟩, ⟨5, 20⟩] PARTITION_CEILING_BYTES (by decide) (by decide) (by decide)

end Sizing
