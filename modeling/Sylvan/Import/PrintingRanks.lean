-- SUMMARY: The pass that ranks a card's printings: rows observed one at a time, the order sealed once, and the ranks against the keys they come from.
import Mathlib.Data.Int.ConditionallyCompleteOrder
import Mathlib.Data.List.MinMax
import Sylvan.Data.HeadSort
import Sylvan.Import.CardFacts

/-!
# Printing ranks

The pass observes rows into hash maps, and the seal orders every card's entries and keeps
for each printing the best rank of each of its halves. The maps' orders are a parameter.
A printing may stand in several slots, one a date: its rank is that of the best of them.
-/

namespace Ranks

open Corpus JsMap

/-! ## The pass -/

/-- The orders the hash maps of a seal are iterated in. -/
structure SealOrder where
  cards : List (Text × JsMap SlotKey Slot) → List (Text × JsMap SlotKey Slot)
  /-- The slots of one card. -/
  slots : Text → List (SlotKey × Slot) → List (SlotKey × Slot)
  /-- The ranked printings of one card. -/
  printings : Text → List ((Text × Text) × RowRanks) → List ((Text × Text) × RowRanks)
  cards_perm : ∀ es, (cards es).Perm es
  slots_perm : ∀ id es, (slots id es).Perm es
  printings_perm : ∀ id es, (printings id es).Perm es

structure PrintingRanks where
  slots : JsMap Text (JsMap SlotKey Slot) := .empty
  ranks : JsMap PinKey RowRanks := .empty
  sealed : Bool := false

def halfOf (r : Observed) : Half := if r.rawLangEn then .english else if r.isExtra then .extra else .served

namespace PrintingRanks

def observe (table : PrintingRanks) (r : Observed) : PrintingRanks :=
  match slotKey r with
  | none => table
  | some (oracleId, key) =>
    { table with
      slots := table.slots.update oracleId fun card => (card.getD .empty).update key (Slot.take · r) }

def ofRows (rows : List Observed) : PrintingRanks := rows.foldl observe {}

variable (engine : CardEngine)

def sealCard (order : SealOrder) (pins : PinnedPrintings) (ranks : JsMap PinKey RowRanks)
    (card : Text × JsMap SlotKey Slot) : JsMap PinKey RowRanks :=
  (order.printings card.1 (rankTable engine pins card.1 (order.slots card.1 card.2.entries)).entries).foldl
    (fun ranks e => ranks.set (card.1, e.1) e.2) ranks

def sealRanks (order : SealOrder) (pins : PinnedPrintings) (table : PrintingRanks) : PrintingRanks :=
  if table.sealed then table
  else
    { slots := .empty
      ranks := (order.cards table.slots.entries).foldl (sealCard engine order pins) table.ranks
      sealed := true }

def rankOf (table : PrintingRanks) (r : Observed) : ℕ :=
  ((pinKey r).bind table.ranks.get).elim RANK_SPAN fun row => row.of (halfOf r)

end PrintingRanks

/-! ## The keys -/

section Keys

variable (engine : CardEngine)

def classOf (slot : Slot) : Half → Option ℕ
  | .english => slot.english
  | .served => slot.served
  | .extra => slot.extra

/-- The entry a row is ranked by: its slot's, of the English row where it shares its class. -/
def entryOf (rows : List Observed) (r : Observed) : Option Ranked := do
  let key ← slotKey r
  let slot ← (rows.foldl Slots.observe empty).get key
  let rankClass ← classOf slot (halfOf r)
  return ⟨key.2, slot, rankClass, if slot.english = some rankClass then .english else halfOf r⟩

/-- A row's key: pinned, class, newest first, latest batch first, set, number, half. -/
def keyOf (pins : PinnedPrintings) (rows : List Observed) (r : Observed) : Option RankKey :=
  (entryOf rows r).map (rankKey engine pins r.oracleId)

/-- The least key of the rows of a row's printing and half, whatever their dates. -/
noncomputable def bestKey (pins : PinnedPrintings) (rows : List Observed) (r : Observed) : WithTop RankKey :=
  ((rows.filter fun a => pinKey a = pinKey r ∧ halfOf a = halfOf r).filterMap (keyOf engine pins rows)).minimum

end Keys

/-! ## The slots observed -/

section Observing

variable {rows : List Observed} {oracleId : Text} {key : SlotKey}

theorem slots_ofRows (rows : List Observed) (oracleId : Text) (key : SlotKey) :
    (((PrintingRanks.ofRows rows).slots.get oracleId).getD .empty).get key =
      (rows.foldl Slots.observe empty).get (oracleId, key) := by
  have hrun : ∀ (table : PrintingRanks) (slots : Slots),
      (∀ id k, ((table.slots.get id).getD .empty).get k = slots.get (id, k)) →
      ∀ id k, (((rows.foldl PrintingRanks.observe table).slots.get id).getD .empty).get k =
        (rows.foldl Slots.observe slots).get (id, k) := by
    induction rows with
    | nil => exact fun _ _ h => h
    | cons r rows ih =>
      intro table slots h
      apply ih
      intro id k
      unfold PrintingRanks.observe Slots.observe
      cases hslot : slotKey r with
      | none => exact h id k
      | some at_ =>
        obtain ⟨card, at_⟩ := at_
        simp only [get_update]
        by_cases hcard : card = id
        · subst hcard
          rw [if_pos rfl, Option.getD_some, get_update, h]
          by_cases hkey : at_ = k
          · rw [if_pos hkey, if_pos (by rw [hkey])]
          · rw [if_neg hkey, if_neg (by simp [hkey]), h]
        · rw [if_neg hcard, if_neg (by simp [hcard]), h]
  exact hrun {} .empty (fun _ _ => rfl) oracleId key

theorem ofRows_fresh (rows : List Observed) :
    (PrintingRanks.ofRows rows).ranks = .empty ∧ (PrintingRanks.ofRows rows).sealed = false := by
  have hrun : ∀ table : PrintingRanks, (rows.foldl PrintingRanks.observe table).ranks = table.ranks ∧
      (rows.foldl PrintingRanks.observe table).sealed = table.sealed := by
    induction rows with
    | nil => exact fun _ => ⟨rfl, rfl⟩
    | cons r rows ih =>
      intro table
      have hstep : (table.observe r).ranks = table.ranks ∧ (table.observe r).sealed = table.sealed := by
        unfold PrintingRanks.observe
        split <;> exact ⟨rfl, rfl⟩
      rw [List.foldl_cons, (ih _).1, (ih _).2]
      exact hstep
  exact hrun {}

theorem classOf_take (held : Option Slot) (r : Observed) (half : Half) : classOf (Slot.take held r) half =
      if halfOf r = half then leastClass (held.bind fun slot => classOf slot half) r.rankClass
      else held.bind fun slot => classOf slot half := by
  cases held <;> cases half <;> cases hen : r.rawLangEn <;> cases hextra : r.isExtra <;>
    simp [Slot.take, classOf, halfOf, hen, hextra]

theorem leastClass_min (classes : List ℕ) : classes.foldl leastClass none = classes.min? :=
  Gathered.foldl_least classes

theorem classOf_slot (half : Half) : ((rows.foldl Slots.observe empty).get (oracleId, key)).bind (classOf · half) =
    ((rows.filter fun a => slotKey a = some (oracleId, key) ∧ halfOf a = half).map Observed.rankClass).min? := by
  have hrun : ∀ (l : List Observed) (held : Option Slot),
      (l.foldl (fun held a => some (Slot.take held a)) held).bind (classOf · half) =
        ((l.filter fun a => halfOf a = half).map Observed.rankClass).foldl leastClass (held.bind (classOf · half)) := by
    intro l
    induction l with
    | nil => exact fun _ => rfl
    | cons a l ih =>
      intro held
      rw [List.foldl_cons, ih, Option.bind_some, classOf_take]
      by_cases hhalf : halfOf a = half
      · rw [if_pos hhalf, List.filter_cons_of_pos (by simpa using hhalf), List.map_cons, List.foldl_cons]
      · rw [if_neg hhalf, List.filter_cons_of_neg (by simpa using hhalf)]
  rw [slots_eq_gather, Gathered.get_gather, hrun, List.filter_filter, get_empty, Option.bind_none, leastClass_min]
  congr 3
  funext a
  simp [Bool.and_comm]

theorem exists_class_iff (half : Half) :
    (∃ slot c, (rows.foldl Slots.observe empty).get (oracleId, key) = some slot ∧ classOf slot half = some c) ↔
      ∃ a ∈ rows, slotKey a = some (oracleId, key) ∧ halfOf a = half := by
  have hmin := @classOf_slot rows oracleId key half
  constructor
  · rintro ⟨slot, c, hslot, hc⟩
    rw [hslot, Option.bind_some, hc] at hmin
    obtain ⟨a, ha, -⟩ := List.mem_map.mp (List.min?_mem hmin.symm)
    obtain ⟨ha, hkey⟩ := List.mem_filter.mp ha
    exact ⟨a, ha, by simpa using hkey⟩
  · rintro ⟨a, ha, hkey, hhalf⟩
    cases hc : ((rows.foldl Slots.observe empty).get (oracleId, key)).bind (classOf · half) with
    | some c =>
      obtain ⟨slot, hslot, hclass⟩ := Option.bind_eq_some_iff.mp hc
      exact ⟨slot, c, hslot, hclass⟩
    | none =>
      rw [hc, eq_comm, List.min?_eq_none_iff, List.map_eq_nil_iff, List.filter_eq_nil_iff] at hmin
      exact absurd (by simp [hkey, hhalf]) (hmin a ha)

end Observing

/-! ## The sealed ranks -/

section Sealing

variable (engine : CardEngine) {order : SealOrder} {pins : PinnedPrintings} {rows : List Observed}

open PrintingRanks

theorem get_sealCard (ranks : JsMap PinKey RowRanks) (card : Text × JsMap SlotKey Slot) (oracleId : Text) (p : Text × Text) :
    (sealCard engine order pins ranks card).get (oracleId, p) = if card.1 = oracleId then
        ((rankTable engine pins card.1 (order.slots card.1 card.2.entries)).get p).or (ranks.get (oracleId, p))
      else ranks.get (oracleId, p) := by
  have hperm := order.printings_perm card.1 (rankTable engine pins card.1 (order.slots card.1 card.2.entries)).entries
  have hmap : sealCard engine order pins ranks card =
      ((order.printings card.1 (rankTable engine pins card.1 (order.slots card.1 card.2.entries)).entries).map
        fun e => ((card.1, e.1), e.2)).foldl (fun m e => m.set e.1 e.2) ranks := by
    rw [List.foldl_map]
    rfl
  have hkeys : ∀ es : List ((Text × Text) × RowRanks), (es.map fun e => ((card.1, e.1), e.2)).map Prod.fst =
      (es.map Prod.fst).map (Prod.mk card.1) := by
    intro es
    simp [List.map_map, Function.comp_def]
  rw [hmap]
  by_cases hcard : card.1 = oracleId
  · subst hcard
    rw [if_pos rfl]
    cases hget : (rankTable engine pins card.1 (order.slots card.1 card.2.entries)).get p with
    | some row =>
      apply get_foldl_set
      · rw [hkeys]
        apply List.Nodup.map (fun a b h => (Prod.mk.inj h).2)
        exact (hperm.map Prod.fst).nodup_iff.mpr (rankTable engine pins card.1 _).nodup
      · exact List.mem_map.mpr ⟨(p, row), hperm.mem_iff.mpr (mem_entries.mpr hget), rfl⟩
    | none =>
      rw [get_foldl_set_of_notMem]
      · rfl
      · intro hmem
        rw [hkeys] at hmem
        obtain ⟨p', hp', heq⟩ := List.mem_map.mp hmem
        obtain rfl := (Prod.mk.inj heq).2
        obtain ⟨⟨p, row⟩, he, rfl⟩ := List.mem_map.mp hp'
        rw [hperm.mem_iff, mem_entries, hget] at he
        cases he
  · rw [if_neg hcard]
    apply get_foldl_set_of_notMem
    intro hmem
    rw [hkeys] at hmem
    obtain ⟨p', -, heq⟩ := List.mem_map.mp hmem
    exact hcard (Prod.mk.inj heq).1

theorem get_sealCards_of_notMem {cards : List (Text × JsMap SlotKey Slot)} {oracleId : Text}
    (h : oracleId ∉ cards.map Prod.fst) (ranks : JsMap PinKey RowRanks) (p : Text × Text) :
    (cards.foldl (sealCard engine order pins) ranks).get (oracleId, p) = ranks.get (oracleId, p) := by
  induction cards generalizing ranks with
  | nil => rfl
  | cons card cards ih =>
    rw [List.map_cons, List.mem_cons, not_or] at h
    rw [List.foldl_cons, ih h.2, get_sealCard, if_neg (Ne.symm h.1)]

theorem get_sealCards {cards : List (Text × JsMap SlotKey Slot)} (hnodup : (cards.map Prod.fst).Nodup)
    {card : Text × JsMap SlotKey Slot} (hcard : card ∈ cards) (p : Text × Text) :
    (cards.foldl (sealCard engine order pins) .empty).get (card.1, p) =
      (rankTable engine pins card.1 (order.slots card.1 card.2.entries)).get p := by
  obtain ⟨before, after, rfl⟩ := List.append_of_mem hcard
  rw [List.map_append, List.map_cons, List.nodup_append, List.nodup_cons] at hnodup
  have hbefore : card.1 ∉ before.map Prod.fst := fun h => hnodup.2.2 _ h _ (by simp) rfl
  rw [List.foldl_append, List.foldl_cons, get_sealCards_of_notMem engine hnodup.2.1.1, get_sealCard, if_pos rfl,
    get_sealCards_of_notMem engine hbefore, get_empty, Option.or_none]

abbrev slotsOf (rows : List Observed) (oracleId : Text) : List (SlotKey × Slot) :=
  (rows.foldl Slots.observe empty).ofCard oracleId

theorem slots_perm_ofCard {oracleId : Text} {card : JsMap SlotKey Slot}
    (hcard : (ofRows rows).slots.get oracleId = some card) :
    (order.slots oracleId card.entries).Perm (slotsOf rows oracleId) := by
  refine (order.slots_perm oracleId card.entries).trans ?_
  rw [List.perm_ext_iff_of_nodup (List.Nodup.of_map _ card.nodup) (List.Nodup.of_map _ (nodup_ofCard _))]
  rintro ⟨key, slot⟩
  have hget := slots_ofRows rows oracleId key
  rw [hcard, Option.getD_some] at hget
  rw [mem_entries, mem_ofCard, hget]

/-- **The sealed table answers as the order of each card's slots does, whatever the maps' orders.** -/
theorem rankOf_sealed (order : SealOrder) (pins : PinnedPrintings) (rows : List Observed) (r : Observed) :
    ((ofRows rows).sealRanks engine order pins).rankOf r =
      Corpus.PrintingRanks.rankOf engine ⟨pins, rows.foldl Slots.observe .empty⟩ r := by
  have hget : ∀ key : PinKey, ((ofRows rows).sealRanks engine order pins).ranks.get key =
      Corpus.PrintingRanks.get engine ⟨pins, rows.foldl Slots.observe .empty⟩ key := by
    rintro ⟨oracleId, p⟩
    have hseal : ((ofRows rows).sealRanks engine order pins).ranks =
        (order.cards (ofRows rows).slots.entries).foldl (sealCard engine order pins) .empty := by
      rw [sealRanks, (ofRows_fresh rows).1, (ofRows_fresh rows).2]
      rfl
    have hperm := order.cards_perm (ofRows rows).slots.entries
    rw [hseal, Corpus.PrintingRanks.get]
    cases hcard : (ofRows rows).slots.get oracleId with
    | some card =>
      rw [get_sealCards engine ((hperm.map Prod.fst).nodup_iff.mpr (ofRows rows).slots.nodup)
        (hperm.mem_iff.mpr (mem_entries.mpr hcard))]
      have hslots := @slots_perm_ofCard order rows oracleId card hcard
      rw [rankTable, rankTable, orderedSlots_same engine (fun _ _ => .rfl) hslots
        ((hslots.map Prod.fst).nodup_iff.mpr (nodup_ofCard _))]
    | none =>
      have hnone : (rows.foldl Slots.observe empty).ofCard oracleId = [] := by
        rw [List.eq_nil_iff_forall_not_mem]
        rintro ⟨key, slot⟩ hmem
        have hflat := slots_ofRows rows oracleId key
        rw [hcard, mem_ofCard.mp hmem] at hflat
        cases hflat
      rw [get_sealCards_of_notMem, hnone]
      · rfl
      · rw [(hperm.map Prod.fst).mem_iff]
        intro hmem
        obtain ⟨⟨id, card⟩, he, rfl⟩ := List.mem_map.mp hmem
        rw [mem_entries, hcard] at he
        cases he
  unfold PrintingRanks.rankOf Corpus.PrintingRanks.rankOf
  have hfun : ((ofRows rows).sealRanks engine order pins).ranks.get =
      Corpus.PrintingRanks.get engine ⟨pins, rows.foldl Slots.observe .empty⟩ := funext hget
  rw [hfun]
  rfl

theorem sealRanks_again (order order' : SealOrder) (pins pins' : PinnedPrintings) (table : PrintingRanks) :
    (table.sealRanks engine order pins).sealRanks engine order' pins' = table.sealRanks engine order pins := by
  have hsealed : (table.sealRanks engine order pins).sealed = true := by
    unfold sealRanks
    split
    · assumption
    · rfl
  rw [sealRanks, if_pos hsealed]

end Sealing

/-! ## The order -/

section Order

variable (engine : CardEngine) {pins : PinnedPrintings} {rows : List Observed} {oracleId : Text}

/-- The entry's rows of a half are ranked by it: they are its own, or its English row's class. -/
def shares (half : Half) (e : Ranked) : Bool :=
  e.half = half || (e.half = .english && classOf e.slot half = some e.rankClass)

def holds (p : Text × Text) (half : Half) (e : Ranked) : Bool := e.key.2 = p && shares half e

def bestOf (ranks : HalfRanks) : Half → Option ℕ
  | .english => ranks.english
  | .served => ranks.served
  | .extra => ranks.extra

theorem shares_english {key : SlotKey} {slot : Slot} {c : ℕ} {half : Half} :
    shares half ⟨key, slot, c, .english⟩ = true ↔ half = .english ∨ classOf slot half = some c := by
  rw [shares, Bool.or_eq_true, decide_eq_true_eq, Bool.and_eq_true, decide_eq_true_eq, decide_eq_true_eq]
  simp [eq_comm]

theorem bestOf_take (held : Option HalfRanks) (e : Ranked × ℕ) (half : Half) : bestOf (HalfRanks.take held e) half =
      (held.bind (bestOf · half)).or (if shares half e.1 then some e.2 else none) := by
  have hheld : bestOf (held.getD {}) half = held.bind (bestOf · half) := by
    cases held with
    | none => cases half <;> rfl
    | some ranks => rfl
  obtain ⟨⟨key, slot, c, h⟩, i⟩ := e
  rw [← hheld]
  cases h with
  | english =>
    cases half with
    | english => rfl
    | served =>
      have hshares := @shares_english key slot c .served
      by_cases hc : classOf slot .served = some c
      · rw [if_pos (hshares.mpr (.inr hc))]
        exact if_pos hc
      · rw [if_neg fun h => hc ((hshares.mp h).resolve_left (by decide)), Option.or_none]
        exact if_neg hc
    | extra =>
      have hshares := @shares_english key slot c .extra
      by_cases hc : classOf slot .extra = some c
      · rw [if_pos (hshares.mpr (.inr hc))]
        exact if_pos hc
      · rw [if_neg fun h => hc ((hshares.mp h).resolve_left (by decide)), Option.or_none]
        exact if_neg hc
  | served => cases half <;> simp [HalfRanks.take, bestOf, shares]
  | extra => cases half <;> simp [HalfRanks.take, bestOf, shares]

/-- Best first, so the first entry that ranks a half is its best. Induction on the entries. -/
theorem bestOf_run (es : List (Ranked × ℕ)) (held : Option HalfRanks) (half : Half) :
    (es.foldl (fun held e => some (HalfRanks.take held e)) held).bind (bestOf · half) =
      (held.bind (bestOf · half)).or ((es.find? fun e => shares half e.1).map Prod.snd) := by
  induction es generalizing held with
  | nil => simp
  | cons e es ih =>
    rw [List.foldl_cons, ih, Option.bind_some, bestOf_take, List.find?_cons, Option.or_assoc]
    cases shares half e.1 <;> simp

theorem of_row {ranks : HalfRanks} {half : Half} {i : ℕ} (h : bestOf ranks half = some i) : (HalfRanks.row ranks).of half = i := by
  cases half <;> simp_all [bestOf, HalfRanks.row, RowRanks.of]

theorem rankTable_first {slots : List (SlotKey × Slot)} {p : Text × Text} {half : Half} {i : ℕ}
    (h : (orderedSlots engine pins oracleId slots).findIdx? (holds p half) = some i) :
    ∃ row, (rankTable engine pins oracleId slots).get p = some row ∧ row.of half = i := by
  have hfold : (orderedSlots engine pins oracleId slots).zipIdx.foldl
      (fun (ranks : JsMap (Text × Text) HalfRanks) e => ranks.update e.1.key.2 (HalfRanks.take · e)) .empty =
      Gathered.gather (fun e => some e.1.key.2) HalfRanks.take .empty (orderedSlots engine pins oracleId slots).zipIdx := rfl
  rw [rankTable, get_mapValues, hfold, Gathered.get_gather]
  have hbest := bestOf_run ((orderedSlots engine pins oracleId slots).zipIdx.filter fun e => some e.1.key.2 = some p)
    none half
  rw [List.find?_filter] at hbest
  have hsame : (fun e : Ranked × ℕ => decide (decide (some e.1.key.2 = some p) = true ∧ shares half e.1 = true)) =
      fun e => holds p half e.1 := by
    funext e
    simp [holds]
  rw [hsame, Option.bind_none, Option.none_or, ← List.findIdx?_eq_fst_find?_zipIdx, h] at hbest
  obtain ⟨ranks, hranks, hi⟩ := Option.bind_eq_some_iff.mp hbest
  refine ⟨HalfRanks.row ranks, ?_, of_row hi⟩
  rw [get_empty, hranks]
  rfl

theorem mem_rankedOf_iff {key : SlotKey} {slot : Slot} {e : Ranked} : e ∈ rankedOf (key, slot) ↔
    ∃ half c, classOf slot half = some c ∧ (half = .english ∨ slot.english ≠ some c) ∧ e = ⟨key, slot, c, half⟩ := by
  simp only [rankedOf, List.mem_append, Option.mem_toList, Option.map_eq_some_iff, Option.filter_eq_some_iff,
    decide_eq_true_eq]
  constructor
  · rintro ((⟨c, hc, rfl⟩ | ⟨c, ⟨hc, hne⟩, rfl⟩) | ⟨c, ⟨hc, hne⟩, rfl⟩)
    · exact ⟨.english, c, hc, .inl rfl, rfl⟩
    · exact ⟨.served, c, hc, .inr hne, rfl⟩
    · exact ⟨.extra, c, hc, .inr hne, rfl⟩
  · rintro ⟨half, c, hc, hne, rfl⟩
    cases half with
    | english => exact .inl (.inl ⟨c, hc, rfl⟩)
    | served => exact .inl (.inr ⟨c, ⟨hc, hne.resolve_left (by decide)⟩, rfl⟩)
    | extra => exact .inr ⟨c, ⟨hc, hne.resolve_left (by decide)⟩, rfl⟩

theorem slotKey_iff {r : Observed} {key : SlotKey} :
    slotKey r = some (oracleId, key) ↔ pinKey r = some (oracleId, key.2) ∧ r.releasedAt = key.1 := by
  obtain ⟨releasedAt, p⟩ := key
  unfold slotKey pinKey
  cases r.cardSetCode with
  | none => simp
  | some set =>
    cases r.collectorNumber with
    | none => simp
    | some number =>
      simp only [Option.bind_eq_bind, Option.bind_some, Option.pure_def, Option.some.injEq, Prod.mk.injEq]
      tauto

theorem orderedSlots_sorted (slots : List (SlotKey × Slot)) : (orderedSlots engine pins oracleId slots).Pairwise
    fun a b => rankKey engine pins oracleId a ≤ rankKey engine pins oracleId b :=
  HeadSort.pairwise_insertionSort (fun _ _ _ _ => le_total _ _) fun _ _ _ _ _ _ => le_trans

theorem mem_orderedSlots {e : Ranked} : e ∈ orderedSlots engine pins oracleId (slotsOf rows oracleId) ↔
      ∃ key slot, (rows.foldl Slots.observe empty).get (oracleId, key) = some slot ∧ e ∈ rankedOf (key, slot) := by
  rw [orderedSlots, (List.perm_insertionSort _ _).mem_iff, List.mem_flatMap]
  constructor
  · rintro ⟨⟨key, slot⟩, hslot, he⟩
    exact ⟨key, slot, mem_ofCard.mp hslot, he⟩
  · rintro ⟨key, slot, hslot, he⟩
    exact ⟨(key, slot), mem_ofCard.mpr hslot, he⟩

theorem entryOf_eq {a : Observed} {key : SlotKey} {slot : Slot} {c : ℕ} (hkey : slotKey a = some (oracleId, key))
    (hslot : (rows.foldl Slots.observe empty).get (oracleId, key) = some slot)
    (hc : classOf slot (halfOf a) = some c) :
    entryOf rows a = some ⟨key, slot, c, if slot.english = some c then .english else halfOf a⟩ := by
  simp [entryOf, hkey, hslot, hc]

theorem holds_iff {p : Text × Text} {half : Half} {e : Ranked} :
    (e ∈ orderedSlots engine pins oracleId (slotsOf rows oracleId) ∧ holds p half e = true) ↔
      ∃ a ∈ rows, pinKey a = some (oracleId, p) ∧ halfOf a = half ∧ entryOf rows a = some e := by
  rw [mem_orderedSlots]
  constructor
  · rintro ⟨⟨key, slot, hslot, he⟩, hholds⟩
    obtain ⟨h, c, hc, hne, rfl⟩ := mem_rankedOf_iff.mp he
    simp only [holds, shares, Bool.and_eq_true, Bool.or_eq_true, decide_eq_true_eq] at hholds
    obtain ⟨rfl, hshares⟩ := hholds
    -- the half has the entry's class, as its own or the English row's
    have hclass : classOf slot half = some c := by
      rcases hshares with rfl | ⟨-, hclass⟩
      · exact hc
      · exact hclass
    obtain ⟨a, ha, hkey, hhalf⟩ := (@exists_class_iff rows oracleId key half).mp ⟨slot, c, hslot, hclass⟩
    refine ⟨a, ha, (slotKey_iff.mp hkey).1, hhalf, ?_⟩
    rw [entryOf_eq hkey hslot (by rw [hhalf]; exact hclass), hhalf]
    rcases hne with rfl | hne
    · rw [if_pos (show slot.english = some c from hc)]
    · have hh : h ≠ .english := by
        rintro rfl
        exact hne hc
      rw [if_neg hne, hshares.resolve_right fun h => hh h.1]
  · rintro ⟨a, ha, hpin, rfl, hentry⟩
    have hkey : slotKey a = some (oracleId, (a.releasedAt, p)) := slotKey_iff.mpr ⟨hpin, rfl⟩
    obtain ⟨slot, c, hslot, hc⟩ := exists_class_iff (halfOf a) |>.mpr ⟨a, ha, hkey, rfl⟩
    rw [entryOf_eq hkey hslot hc] at hentry
    obtain rfl := Option.some.inj hentry
    refine ⟨⟨_, slot, hslot, mem_rankedOf_iff.mpr ?_⟩, ?_⟩
    · by_cases henglish : slot.english = some c
      · exact ⟨.english, c, henglish, .inl rfl, by rw [if_pos henglish]⟩
      · exact ⟨halfOf a, c, hc, .inr henglish, by rw [if_neg henglish]⟩
    · by_cases henglish : slot.english = some c
      · simp [holds, shares, henglish, hc]
      · simp [holds, shares, henglish]

theorem first_lt_iff {p p' : Text × Text} {half half' : Half} {i j : ℕ} {e e' : Ranked}
    (hi : (orderedSlots engine pins oracleId (slotsOf rows oracleId)).findIdx?
      (holds p half) = some i)
    (hj : (orderedSlots engine pins oracleId (slotsOf rows oracleId)).findIdx?
      (holds p' half') = some j)
    (he : (orderedSlots engine pins oracleId (slotsOf rows oracleId))[i]? = some e)
    (he' : (orderedSlots engine pins oracleId (slotsOf rows oracleId))[j]? = some e') :
    i < j ↔ rankKey engine pins oracleId e < rankKey engine pins oracleId e' := by
  generalize hl : orderedSlots engine pins oracleId (slotsOf rows oracleId) = l at *
  have hsorted := @orderedSlots_sorted engine pins oracleId (slotsOf rows oracleId)
  rw [hl] at hsorted
  have hmem : ∀ {a : Ranked}, a ∈ l → a ∈ (slotsOf rows oracleId).flatMap rankedOf := by
    intro a ha
    rw [← hl] at ha
    exact (List.perm_insertionSort _ _).mem_iff.mp ha
  obtain ⟨hlt, hholds, -⟩ := List.findIdx?_eq_some_iff_getElem.mp hi
  obtain ⟨hlt', hholds', hfirst'⟩ := List.findIdx?_eq_some_iff_getElem.mp hj
  rw [List.getElem?_eq_getElem hlt, Option.some.injEq] at he
  rw [List.getElem?_eq_getElem hlt', Option.some.injEq] at he'
  subst he he'
  constructor
  · intro hij
    refine lt_of_le_of_ne (List.pairwise_iff_getElem.mp hsorted i j hlt hlt' hij) ?_
    -- one key is one entry, and the later half's first entry would not be its first
    intro heq
    have hsame := rankKey_inj engine (nodup_ofCard _) (hmem (List.getElem_mem hlt)) (hmem (List.getElem_mem hlt')) heq
    rw [← hsame] at hholds'
    exact hfirst' i hij hholds'
  · intro hkeys
    by_contra hij
    rcases Nat.lt_or_eq_of_le (Nat.le_of_not_lt hij) with hji | rfl
    · exact absurd (List.pairwise_iff_getElem.mp hsorted j i hlt' hlt hji) (not_le_of_gt hkeys)
    · exact absurd hkeys (lt_irrefl _)

theorem rankOf_first {r : Observed} (hr : r ∈ rows) {p : Text × Text} (hpin : pinKey r = some (oracleId, p)) :
    ∃ i e, (orderedSlots engine pins oracleId (slotsOf rows oracleId)).findIdx?
        (holds p (halfOf r)) = some i ∧
      (orderedSlots engine pins oracleId (slotsOf rows oracleId))[i]? = some e ∧
      bestKey engine pins rows r = (rankKey engine pins oracleId e : WithTop RankKey) ∧
      Corpus.PrintingRanks.rankOf engine ⟨pins, rows.foldl Slots.observe .empty⟩ r = i := by
  obtain ⟨slot, c, hslot, hc⟩ := (exists_class_iff (halfOf r)).mpr
    ⟨r, hr, (@slotKey_iff oracleId r (r.releasedAt, p)).mpr ⟨hpin, rfl⟩, rfl⟩
  have hown := entryOf_eq (slotKey_iff.mpr ⟨hpin, rfl⟩) hslot hc
  obtain ⟨hmem, hholds⟩ := (@holds_iff engine pins rows oracleId p (halfOf r) _).mpr ⟨r, hr, hpin, rfl, hown⟩
  have hall := @holds_iff engine pins rows oracleId p (halfOf r)
  generalize hl : orderedSlots engine pins oracleId (slotsOf rows oracleId) = l at *
  have hfound : ∃ i, l.findIdx? (holds p (halfOf r)) = some i := by
    apply Option.isSome_iff_exists.mp
    rw [List.findIdx?_isSome, List.any_eq_true]
    exact ⟨_, hmem, hholds⟩
  obtain ⟨i, hi⟩ := hfound
  obtain ⟨hlt, hfirst, hbefore⟩ := List.findIdx?_eq_some_iff_getElem.mp hi
  have hsorted := @orderedSlots_sorted engine pins oracleId (slotsOf rows oracleId)
  rw [hl] at hsorted
  refine ⟨i, l[i], hi, List.getElem?_eq_getElem hlt, ?_, ?_⟩
  · have hkeys : ∀ k : RankKey, k ∈ ((rows.filter fun a => pinKey a = pinKey r ∧ halfOf a = halfOf r).filterMap
        (keyOf engine pins rows)) ↔ ∃ e ∈ l, holds p (halfOf r) e = true ∧ rankKey engine pins oracleId e = k := by
      intro k
      simp only [List.mem_filterMap, List.mem_filter, decide_eq_true_eq, keyOf, Option.map_eq_some_iff, hpin]
      constructor
      · rintro ⟨a, ⟨ha, hpa, hhalf⟩, e, hentry, rfl⟩
        obtain ⟨he, hholds⟩ := hall.mpr ⟨a, ha, hpa, hhalf, hentry⟩
        exact ⟨e, he, hholds, by rw [← pinKey_oracleId hpa]⟩
      · rintro ⟨e, he, hholds, rfl⟩
        obtain ⟨a, ha, hpa, hhalf, hentry⟩ := hall.mp ⟨he, hholds⟩
        exact ⟨a, ⟨ha, hpa, hhalf⟩, e, hentry, by rw [← pinKey_oracleId hpa]⟩
    refine List.minimum_eq_coe_iff.mpr ⟨(hkeys _).mpr ⟨l[i], List.getElem_mem hlt, hfirst, rfl⟩, ?_⟩
    intro k hk
    obtain ⟨e, he, hholds, rfl⟩ := (hkeys k).mp hk
    obtain ⟨j, hj, rfl⟩ := List.getElem_of_mem he
    rcases Nat.lt_trichotomy i j with hij | rfl | hji
    · exact List.pairwise_iff_getElem.mp hsorted i j hlt hj hij
    · exact le_refl _
    · exact absurd hholds (hbefore j hji)
  · rw [← hl] at hi
    obtain ⟨row, hrow, hrank⟩ := rankTable_first engine hi
    rw [Corpus.PrintingRanks.rankOf, hpin, Option.bind_some, Corpus.PrintingRanks.get]
    simp only [hrow, Option.elim_some]
    exact hrank

end Order

/-! ## The collation key -/

section Collation

/-- The character classes the key reads. -/
structure CharTables where
  isAlphabetic : Char → Bool
  toLowercase : Char → List Char
  /-- A letter's lower case holds none of the key's own marks. -/
  lowercase_unmarked : ∀ c, isAlphabetic c = true → ∀ d ∈ toLowercase c, 4 < d.toNat

variable (tables : CharTables)

def collated (c : Char) : Text :=
  if Text.isDigit c then [Char.ofNat 3, c]
  else if tables.isAlphabetic c then Char.ofNat 4 :: tables.toLowercase c
  else [Char.ofNat 2, c]

def collectorCollationKey (cn : Text) : Text := cn.flatMap (collated tables) ++ Char.ofNat 1 :: cn

theorem collated_cases (c : Char) : (∃ m, (m = Char.ofNat 2 ∨ m = Char.ofNat 3) ∧ collated tables c = [m, c]) ∨
    ∃ l, collated tables c = Char.ofNat 4 :: l ∧ ∀ d ∈ l, 4 < d.toNat := by
  unfold collated
  by_cases hdigit : Text.isDigit c = true
  · rw [if_pos hdigit]
    exact .inl ⟨_, .inr rfl, rfl⟩
  · rw [if_neg hdigit]
    by_cases hletter : tables.isAlphabetic c = true
    · rw [if_pos hletter]
      exact .inr ⟨_, rfl, tables.lowercase_unmarked c hletter⟩
    · rw [if_neg hletter]
      exact .inl ⟨_, .inl rfl, rfl⟩

theorem marked (cn rest : Text) :
    ∃ m tail, cn.flatMap (collated tables) ++ Char.ofNat 1 :: rest = m :: tail ∧ ¬ 4 < m.toNat := by
  cases cn with
  | nil => exact ⟨_, _, rfl, by decide⟩
  | cons c cn =>
    rw [List.flatMap_cons]
    rcases collated_cases tables c with ⟨m, hm, hc⟩ | ⟨l, hc, -⟩
    · rw [hc]
      refine ⟨m, _, rfl, ?_⟩
      rcases hm with rfl | rfl <;> decide
    · rw [hc]
      exact ⟨_, _, rfl, by decide⟩

theorem unmarked_cancel {l l' rest rest' : Text} (hl : ∀ d ∈ l, 4 < d.toNat) (hl' : ∀ d ∈ l', 4 < d.toNat)
    (hrest : ∃ m tail, rest = m :: tail ∧ ¬ 4 < m.toNat) (hrest' : ∃ m tail, rest' = m :: tail ∧ ¬ 4 < m.toNat)
    (h : l ++ rest = l' ++ rest') : rest = rest' := by
  have hdrop : ∀ {l rest : Text}, (∀ d ∈ l, 4 < d.toNat) → (∃ m tail, rest = m :: tail ∧ ¬ 4 < m.toNat) →
      (l ++ rest).dropWhile (fun d => decide (4 < d.toNat)) = rest := by
    rintro l _ hl ⟨m, tail, rfl, hm⟩
    rw [List.dropWhile_append_of_pos (by simpa using hl), List.dropWhile_cons_of_neg (by simpa using hm)]
  rw [← hdrop hl hrest, h, hdrop hl' hrest']

/-- The collated part is read one character at a time, so its end is told. Induction on the numbers. -/
theorem collated_cancel {a b x y : Text}
    (h : a.flatMap (collated tables) ++ Char.ofNat 1 :: x = b.flatMap (collated tables) ++ Char.ofNat 1 :: y) : x = y := by
  -- no collated character starts as the end does
  have hend : ∀ (c : Char) (rest x : Text), collated tables c ++ rest ≠ Char.ofNat 1 :: x := by
    intro c rest x heq
    rcases collated_cases tables c with ⟨m, rfl | rfl, hc⟩ | ⟨l, hc, -⟩
    · rw [hc] at heq
      exact absurd (List.cons.inj heq).1 (by decide)
    · rw [hc] at heq
      exact absurd (List.cons.inj heq).1 (by decide)
    · rw [hc] at heq
      exact absurd (List.cons.inj heq).1 (by decide)
  induction a generalizing b with
  | nil =>
    cases b with
    | nil => exact (List.cons.inj h).2
    | cons d b =>
      rw [List.flatMap_cons, List.append_assoc] at h
      exact absurd h.symm (hend d _ x)
  | cons c a ih =>
    cases b with
    | nil =>
      rw [List.flatMap_cons, List.append_assoc] at h
      exact absurd h (hend c _ y)
    | cons d b =>
      rw [List.flatMap_cons, List.flatMap_cons, List.append_assoc, List.append_assoc] at h
      apply @ih b
      rcases collated_cases tables c with ⟨m, hm, hc⟩ | ⟨l, hc, hl⟩
      · rcases collated_cases tables d with ⟨m', -, hd⟩ | ⟨l', hd, -⟩
        · rw [hc, hd] at h
          exact (List.cons.inj (List.cons.inj h).2).2
        · rw [hc, hd] at h
          have hmark := (List.cons.inj h).1
          rcases hm with rfl | rfl <;> exact absurd hmark (by decide)
      · rcases collated_cases tables d with ⟨m', hm', hd⟩ | ⟨l', hd, hl'⟩
        · rw [hc, hd] at h
          have hmark := (List.cons.inj h).1
          rcases hm' with rfl | rfl <;> exact absurd hmark (by decide)
        · rw [hc, hd] at h
          exact unmarked_cancel hl hl' (marked tables a x) (marked tables b y) (List.cons.inj h).2

theorem collectorCollationKey_injective : Function.Injective (collectorCollationKey tables) :=
  fun _ _ h => collated_cancel tables h

end Collation

/-! ## The ranks and the keys -/

section

variable (engine : CardEngine)

open PrintingRanks

/-- **Two observed rows of a card rank as the best keys of their printings' halves compare: their
own keys where a half has one date. The rank is the same for every order of observation and of
the maps, and a sealed table stays as it is.** -/
theorem ranks_follow_keys (order : SealOrder) (pins : PinnedPrintings) (rows : List Observed) :
    (∀ r ∈ rows, ∀ r' ∈ rows, r.oracleId = r'.oracleId → (pinKey r).isSome → (pinKey r').isSome →
      (((ofRows rows).sealRanks engine order pins).rankOf r < ((ofRows rows).sealRanks engine order pins).rankOf r' ↔
        bestKey engine pins rows r < bestKey engine pins rows r')) ∧
    (∀ r ∈ rows, (pinKey r).isSome →
      (∀ a ∈ rows, pinKey a = pinKey r → halfOf a = halfOf r → a.releasedAt = r.releasedAt) →
      ∃ k : RankKey, keyOf engine pins rows r = some k ∧ bestKey engine pins rows r = (k : WithTop RankKey)) ∧
    (∀ rows' : List Observed, (∀ a, a ∈ rows ↔ a ∈ rows') → ∀ order' r,
      ((ofRows rows').sealRanks engine order' pins).rankOf r = ((ofRows rows).sealRanks engine order pins).rankOf r) ∧
    ∀ order' pins', ((ofRows rows).sealRanks engine order pins).sealRanks engine order' pins' =
      (ofRows rows).sealRanks engine order pins := by
  refine ⟨?_, ?_, ?_, fun order' pins' => sealRanks_again engine order order' pins pins' _⟩
  · intro r hr r' hr' hcard hslot hslot'
    obtain ⟨⟨id, p⟩, hpin⟩ := Option.isSome_iff_exists.mp hslot
    obtain ⟨⟨id', p'⟩, hpin'⟩ := Option.isSome_iff_exists.mp hslot'
    have hsame : id' = id := ((pinKey_oracleId hpin').trans hcard.symm).trans (pinKey_oracleId hpin).symm
    subst hsame
    obtain ⟨i, e, hi, he, hbest, hrank⟩ := @rankOf_first engine pins rows id' r hr p hpin
    obtain ⟨j, e', hj, he', hbest', hrank'⟩ := @rankOf_first engine pins rows id' r' hr' p' hpin'
    rw [rankOf_sealed, rankOf_sealed, hrank, hrank', hbest, hbest', first_lt_iff engine hi hj he he', WithTop.coe_lt_coe]
  · intro r hr hslot hdates
    obtain ⟨⟨id, p⟩, hpin⟩ := Option.isSome_iff_exists.mp hslot
    -- the rows of the half are all in the row's own slot
    have hkey : ∀ a ∈ rows, pinKey a = pinKey r → halfOf a = halfOf r → keyOf engine pins rows a = keyOf engine pins rows r := by
      intro a ha hpa hhalf
      have hcard : a.oracleId = r.oracleId := by
        rw [hpin] at hpa
        exact (pinKey_oracleId hpa).symm.trans (pinKey_oracleId hpin)
      have hslotKey : slotKey a = slotKey r := by
        rw [hpin] at hpa
        rw [(@slotKey_iff id a (a.releasedAt, p)).mpr ⟨hpa, rfl⟩, (@slotKey_iff id r (r.releasedAt, p)).mpr ⟨hpin, rfl⟩,
          hdates a ha (hpa.trans hpin.symm) hhalf]
      rw [keyOf, keyOf, entryOf, entryOf, hslotKey, hhalf, hcard]
    obtain ⟨i, e, -, -, hbest, -⟩ := @rankOf_first engine pins rows id r hr p hpin
    refine ⟨rankKey engine pins id e, ?_, hbest⟩
    obtain ⟨hmem, -⟩ := List.minimum_eq_coe_iff.mp hbest
    obtain ⟨a, ha, hka⟩ := List.mem_filterMap.mp hmem
    obtain ⟨ha, hsame⟩ := List.mem_filter.mp ha
    rw [decide_eq_true_eq] at hsame
    rw [← hkey a ha hsame.1 hsame.2, hka]
  · intro rows' hsame order' r
    have hslots : ∀ key, (rows'.foldl Slots.observe empty).get (r.oracleId, key) =
        (rows.foldl Slots.observe empty).get (r.oracleId, key) :=
      slots_same fun a _ => (hsame a).symm
    rw [rankOf_sealed, rankOf_sealed, Corpus.PrintingRanks.rankOf, Corpus.PrintingRanks.rankOf]
    cases hkey : pinKey r with
    | none => rfl
    | some key =>
      have hordered := @orderedSlots_same r.oracleId engine pins pins _ _ (fun _ _ => .rfl) (ofCard_perm hslots) (nodup_ofCard _)
      simp only [Option.bind_some, Corpus.PrintingRanks.get, rankTable, pinKey_oracleId hkey, hordered]

end

/-! ## A printing of two dates -/

def inOrder : SealOrder where
  cards es := es
  slots _ es := es
  printings _ es := es
  cards_perm _ := .refl _
  slots_perm _ _ := .refl _
  printings_perm _ _ := .refl _

def plain : CardEngine where
  releaseBatch _ _ := 0
  collectorCollationKey number := number
  collation_injective _ _ h := h
  newOrderKey _ _ _ _ _ := (0, 0, false, false, 0, false, 0)

/-- A row of card `o`, set `s` and number `4` that is not English. -/
def foreign (scryfallId releasedAt : Text) : Observed where
  scryfallId := scryfallId
  oracleId := ['o']
  cardName := ['n']
  cardSetCode := some ['s']
  collectorNumber := some ['4']
  illustrationId := none
  faceIllustrations := []
  releasedAt := releasedAt
  rawLangEn := false
  isCanonical := false
  rawSetType := none
  variation := false
  allParts := false
  isTokenLayout := false
  cardIsTags := []
  rankClass := 2

/-- One printing's rows in two languages, of two dates. -/
def twoDates : List Observed := [foreign ['1'] ['2', '3'], foreign ['2'] ['2', '2']]

theorem two_dates_share_a_rank :
    (∃ k k', keyOf plain [] twoDates (foreign ['1'] ['2', '3']) = some k ∧
      keyOf plain [] twoDates (foreign ['2'] ['2', '2']) = some k' ∧ k < k') ∧
    ((PrintingRanks.ofRows twoDates).sealRanks plain inOrder []).rankOf (foreign ['1'] ['2', '3']) =
      ((PrintingRanks.ofRows twoDates).sealRanks plain inOrder []).rankOf (foreign ['2'] ['2', '2']) := by
  refine ⟨⟨_, _, rfl, rfl, by decide +kernel⟩, by decide +kernel⟩

end Ranks
