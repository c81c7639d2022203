-- SUMMARY: Facts a row takes from its card's other printings: pins, funny and related cards, and the order of a card's printings.
import Mathlib.Data.Char
import Mathlib.Data.Int.ConditionallyCompleteOrder
import Mathlib.Data.List.Sort
import Mathlib.Data.Prod.Lex
import Mathlib.Order.ConditionallyCompleteLattice.Basic
import Mathlib.Order.WithBot
import Sylvan.Data.Gathered
import Sylvan.Import.RowDraft

/-!
# Facts of a card

Four passes gather what one card's printings say of each other. Each gathers under the
card's oracle id, so what a row is told is decided by which drafts of its own card were
observed: not by their order, nor by repeats, nor by any other card's drafts.
-/

namespace Corpus

variable {ρ : Type}

/-! ## Pins -/

abbrev PinnedPrintings : Type := JsSet PinKey

def PinnedPrintings.observe (labels : JsSet Text) (pins : PinnedPrintings) (r : Observed) : PinnedPrintings :=
  if r.scryfallId ∈ labels then
    match pinKey r with
    | some key => pins.add key
    | none => pins
  else pins

def PinnedPrintings.contains (pins : PinnedPrintings) (r : Observed) : Bool := (pinKey r).any (· ∈ pins)

def isPinned (r : Observed) (labels : JsSet Text) (pins : PinnedPrintings) : Bool :=
  r.scryfallId ∈ labels || pins.contains r

theorem pinKey_oracleId {r : Observed} {key : PinKey} (h : pinKey r = some key) : key.1 = r.oracleId := by
  unfold pinKey at h
  cases hset : r.cardSetCode with
  | none =>
    rw [hset] at h
    cases h
  | some set =>
    cases hnumber : r.collectorNumber with
    | none =>
      rw [hset, hnumber] at h
      cases h
    | some number =>
      rw [hset, hnumber] at h
      obtain rfl := Option.some.inj h
      rfl

/-! ## Funny and related cards -/

abbrev FunnyCards : Type := JsSet Text

def FunnyCards.observe (funny : FunnyCards) (r : Observed) : FunnyCards :=
  if r.hasIsTag FUNNY_IS_TAG && !(r.isTokenLayout && r.hasIsTag REPRINT_IS_TAG) then funny.add r.oracleId else funny

def TOKEN_SET_TYPE : Text := "token".toList

def FunnyCards.isFunny (funny : FunnyCards) (r : RowDraft ρ) : Bool :=
  if !r.isTokenLayout && r.hasIsTag FUNNY_IS_TAG then true
  else r.oracleId ∈ funny && r.noFormatAllows && (r.isTokenLayout || r.rawSetType ≠ some TOKEN_SET_TYPE)

abbrev RelatedCards : Type := JsSet Text

def RelatedCards.observe (related : RelatedCards) (r : Observed) : RelatedCards :=
  if r.allParts then related.add r.oracleId else related

/-- Write a row's `is:related` verdict onto it: the table's where it has one, else its card's. -/
def RelatedCards.tag (related : RelatedCards) (r : RowDraft ρ) : RowDraft ρ :=
  if r.relatedVerdict.getD (r.oracleId ∈ related) then
    { r with toObserved := r.setRoles [RELATED_IS_TAG] }
  else r

/-! ## The order of a card's printings -/

def RANK_SPAN : ℕ := 2048

abbrev SlotKey : Type := Text × Text × Text

/-- What the order needs to know about one slot's rows. -/
structure Slot where
  /-- The class of its English row. -/
  english : Option ℕ
  /-- The classes of its rows in other languages: those served, and the extras. -/
  served : Option ℕ
  extra : Option ℕ
  collectorNumberInt : Option ℤ
deriving DecidableEq

/-- Which rows of a slot an entry of the order ranks. -/
inductive Half where
  | english
  | served
  | extra
deriving DecidableEq

def Half.index : Half → ℕ
  | .english => 0
  | .served => 1
  | .extra => 2

structure RowRanks where
  english : ℕ
  served : ℕ
  extra : ℕ
deriving DecidableEq

def RowRanks.of (ranks : RowRanks) : Half → ℕ
  | .english => ranks.english
  | .served => ranks.served
  | .extra => ranks.extra

/-- A row's slot, under its card; none without a set code or a number. -/
def slotKey (r : Observed) : Option (Text × SlotKey) := do
  let set ← r.cardSetCode
  let number ← r.collectorNumber
  return (r.oracleId, r.releasedAt, set, number)

def leastClass (seen : Option ℕ) (rankClass : ℕ) : Option ℕ := some (seen.elim rankClass (min · rankClass))

def Slot.take (held : Option Slot) (r : Observed) : Slot :=
  let slot := held.getD { english := none, served := none, extra := none, collectorNumberInt := none }
  { english := if r.rawLangEn then leastClass slot.english r.rankClass else slot.english
    served := if !r.rawLangEn && !r.isExtra then leastClass slot.served r.rankClass else slot.served
    extra := if !r.rawLangEn && r.isExtra then leastClass slot.extra r.rankClass else slot.extra
    collectorNumberInt := r.collectorNumberInt }

abbrev Slots : Type := JsMap (Text × SlotKey) Slot

def Slots.observe (slots : Slots) (r : Observed) : Slots :=
  match slotKey r with
  | some key => slots.update key (Slot.take · r)
  | none => slots

def Slots.ofCard (slots : Slots) (oracleId : Text) : List (SlotKey × Slot) :=
  slots.entries.filterMap fun e => if e.1.1 = oracleId then some (e.1.2, e.2) else none

/-- One rank of the order: a slot, its rows, their class and which of them. -/
structure Ranked where
  key : SlotKey
  slot : Slot
  rankClass : ℕ
  half : Half

/-- A slot's entries: its English row, and each kind of its other languages of another class. -/
def rankedOf (e : SlotKey × Slot) : List Ranked :=
  (e.2.english.map fun c => Ranked.mk e.1 e.2 c .english).toList ++
    ((e.2.served.filter fun c => e.2.english ≠ some c).map fun c => Ranked.mk e.1 e.2 c .served).toList ++
    ((e.2.extra.filter fun c => e.2.english ≠ some c).map fun c => Ranked.mk e.1 e.2 c .extra).toList

section

variable (engine : CardEngine)

/-- What the order compares: the pinned slot, the class, newest first, the latest batch first, the set, the number. -/
abbrev RankKey : Type :=
  ℕ ×ₗ ℕ ×ₗ Textᵒᵈ ×ₗ ℕᵒᵈ ×ₗ Text ×ₗ (WithBot ℤ) ×ₗ Text ×ₗ ℕ

def rankKey (pins : PinnedPrintings) (oracleId : Text) (e : Ranked) : RankKey :=
  let (releasedAt, set, number) := e.key
  -- The label names one printing, and it is the English one wherever a slot has one.
  let pinned := (oracleId, set, number) ∈ pins ∧ (e.half = .english ∨ e.slot.english = none)
  toLex (if pinned then 0 else 1, toLex (e.rankClass, toLex (OrderDual.toDual releasedAt,
    toLex (OrderDual.toDual (engine.releaseBatch ((dateOf releasedAt).getD 0) set), toLex (set,
      toLex ((e.slot.collectorNumberInt : WithBot ℤ), toLex (engine.collectorCollationKey number, e.half.index)))))))

/-- The best ranks seen for each half of a printing. -/
structure HalfRanks where
  english : Option ℕ := none
  served : Option ℕ := none
  extra : Option ℕ := none

def HalfRanks.take (held : Option HalfRanks) (e : Ranked × ℕ) : HalfRanks :=
  let ranks := held.getD {}
  match e.1.half with
  | .english =>
    -- Its other languages share the rank where they share its class.
    { english := ranks.english.or (some e.2)
      served := if e.1.slot.served = some e.1.rankClass then ranks.served.or (some e.2) else ranks.served
      extra := if e.1.slot.extra = some e.1.rankClass then ranks.extra.or (some e.2) else ranks.extra }
  | .served => { ranks with served := ranks.served.or (some e.2) }
  | .extra => { ranks with extra := ranks.extra.or (some e.2) }

def HalfRanks.row (ranks : HalfRanks) : RowRanks :=
  { english := ((ranks.english.or ranks.served).or ranks.extra).getD RANK_SPAN
    served := ((ranks.served.or ranks.extra).or ranks.english).getD RANK_SPAN
    extra := ((ranks.extra.or ranks.served).or ranks.english).getD RANK_SPAN }

def orderedSlots (pins : PinnedPrintings) (oracleId : Text) (slots : List (SlotKey × Slot)) : List Ranked :=
  (slots.flatMap rankedOf).insertionSort fun a b => rankKey engine pins oracleId a ≤ rankKey engine pins oracleId b

def rankTable (pins : PinnedPrintings) (oracleId : Text) (slots : List (SlotKey × Slot)) : JsMap (Text × Text) RowRanks :=
  let best : JsMap (Text × Text) HalfRanks := (orderedSlots engine pins oracleId slots).zipIdx.foldl
    (fun ranks e => ranks.update e.1.key.2 (HalfRanks.take · e)) .empty
  best.mapValues HalfRanks.row

/-- Where each printing sits in its card's order, once sealed against the pins. -/
structure PrintingRanks where
  pins : PinnedPrintings
  slots : Slots

def PrintingRanks.get (ranks : PrintingRanks) (key : PinKey) : Option RowRanks :=
  (rankTable engine ranks.pins key.1 (ranks.slots.ofCard key.1)).get key.2

def PrintingRanks.rankOf (ranks : PrintingRanks) (r : Observed) : ℕ :=
  let half := if r.rawLangEn then Half.english else if r.isExtra then .extra else .served
  ((pinKey r).bind (ranks.get engine)).elim RANK_SPAN fun row => row.of half

end

/-! ## What a card is told

Two passes that observed the same drafts of a card tell its rows the same. -/

def SameCard (oracleId : Text) (l l' : List Observed) : Prop := ∀ a : Observed, a.oracleId = oracleId → (a ∈ l ↔ a ∈ l')

variable {oracleId : Text} {l l' : List Observed}

/-! ### Pins, funny and related cards -/

theorem gathered_same {κ : Type} [DecidableEq κ] {observe : JsSet κ → Observed → JsSet κ} (key : Observed → Option κ)
    (hobserve : ∀ s r, observe s r = match key r with
      | some k => s.add k
      | none => s)
    (h : SameCard oracleId l l') {k : κ} (hcard : ∀ r, key r = some k → r.oracleId = oracleId) :
    k ∈ l.foldl observe [] ↔ k ∈ l'.foldl observe [] := by
  obtain rfl : observe = _ := funext fun s => funext (hobserve s)
  refine Gathered.mem_collect.trans (.trans ?_ Gathered.mem_collect.symm)
  apply or_congr_right
  constructor
  · rintro ⟨r, hr, hkey⟩
    exact ⟨r, (h r (hcard r hkey)).mp hr, hkey⟩
  · rintro ⟨r, hr, hkey⟩
    exact ⟨r, (h r (hcard r hkey)).mpr hr, hkey⟩

theorem pins_same (h : SameCard oracleId l l') (labels : JsSet Text) {key : PinKey} (hkey : key.1 = oracleId) :
    key ∈ l.foldl (PinnedPrintings.observe labels) [] ↔ key ∈ l'.foldl (PinnedPrintings.observe labels) [] := by
  apply gathered_same (fun r => if r.scryfallId ∈ labels then pinKey r else none) _ h
  · intro r hr
    split at hr
    · exact (pinKey_oracleId hr).symm.trans hkey
    · cases hr
  · intro pins r
    unfold PinnedPrintings.observe
    split
    · cases pinKey r <;> rfl
    · rfl

theorem funny_same (h : SameCard oracleId l l') :
    oracleId ∈ l.foldl FunnyCards.observe [] ↔ oracleId ∈ l'.foldl FunnyCards.observe [] := by
  apply gathered_same (fun r => if r.hasIsTag FUNNY_IS_TAG && !(r.isTokenLayout && r.hasIsTag REPRINT_IS_TAG)
    then some r.oracleId else none) _ h
  · simp
  · intro funny r
    unfold FunnyCards.observe
    split <;> rfl

theorem related_same (h : SameCard oracleId l l') :
    oracleId ∈ l.foldl RelatedCards.observe [] ↔ oracleId ∈ l'.foldl RelatedCards.observe [] := by
  apply gathered_same (fun r => if r.allParts then some r.oracleId else none) _ h
  · simp
  · intro related r
    unfold RelatedCards.observe
    split <;> rfl

/-! ### Ranks -/

theorem leastClass_comm (seen : Option ℕ) (a b : ℕ) : leastClass (leastClass seen a) b = leastClass (leastClass seen b) a := by
  cases seen with
  | none => simp [leastClass, min_comm]
  | some c => simp [leastClass, min_assoc, min_comm a b]

theorem leastClass_idem (seen : Option ℕ) (a : ℕ) : leastClass (leastClass seen a) a = leastClass seen a := by
  cases seen with
  | none => simp [leastClass]
  | some c => simp [leastClass]

theorem slotKey_number {a b : Observed} {key : Text × SlotKey} (ha : slotKey a = some key) (hb : slotKey b = some key) :
    a.collectorNumberInt = b.collectorNumberInt := by
  have hnumber : ∀ r : Observed, slotKey r = some key → r.collectorNumber = some key.2.2.2 := by
    intro r hr
    unfold slotKey at hr
    cases hset : r.cardSetCode with
    | none =>
      rw [hset] at hr
      cases hr
    | some set =>
      cases hn : r.collectorNumber with
      | none =>
        rw [hset, hn] at hr
        cases hr
      | some number =>
        rw [hset, hn] at hr
        obtain rfl := Option.some.inj hr
        rfl
  rw [Observed.collectorNumberInt, Observed.collectorNumberInt, hnumber a ha, hnumber b hb]

theorem slotKey_oracleId {a : Observed} {key : Text × SlotKey} (h : slotKey a = some key) : a.oracleId = key.1 := by
  unfold slotKey at h
  cases hset : a.cardSetCode with
  | none =>
    rw [hset] at h
    cases h
  | some set =>
    cases hn : a.collectorNumber with
    | none =>
      rw [hset, hn] at h
      cases h
    | some number =>
      rw [hset, hn] at h
      obtain rfl := Option.some.inj h
      rfl

theorem Slot.take_comm (held : Option Slot) {a b : Observed} (h : a.collectorNumberInt = b.collectorNumberInt) :
    Slot.take (some (Slot.take held a)) b = Slot.take (some (Slot.take held b)) a := by
  simp only [Slot.take, Option.getD_some, h, Slot.mk.injEq, and_true]
  refine ⟨?_, ?_, ?_⟩
  · cases a.rawLangEn <;> cases b.rawLangEn <;> simp [leastClass_comm]
  · cases a.rawLangEn <;> cases b.rawLangEn <;> cases a.isExtra <;> cases b.isExtra <;> simp [leastClass_comm]
  · cases a.rawLangEn <;> cases b.rawLangEn <;> cases a.isExtra <;> cases b.isExtra <;> simp [leastClass_comm]

theorem Slot.take_idem (held : Option Slot) (a : Observed) : Slot.take (some (Slot.take held a)) a = Slot.take held a := by
  simp only [Slot.take, Option.getD_some, Slot.mk.injEq, and_true]
  cases a.rawLangEn <;> cases a.isExtra <;> simp [leastClass_idem]

theorem slots_eq_gather (l : List Observed) :
    l.foldl Slots.observe JsMap.empty = Gathered.gather slotKey Slot.take .empty l := by
  unfold Gathered.gather
  congr 1
  funext slots r
  unfold Slots.observe
  cases slotKey r <;> rfl

theorem slots_same (h : SameCard oracleId l l') (key : SlotKey) :
    (l.foldl Slots.observe JsMap.empty).get (oracleId, key) = (l'.foldl Slots.observe JsMap.empty).get (oracleId, key) := by
  rw [slots_eq_gather, slots_eq_gather]
  apply Gathered.get_gather_same
  · intro a ha
    exact h a (slotKey_oracleId ha)
  · intro a _ b _ ha hb held
    exact Slot.take_comm held (slotKey_number ha hb)
  · intro a _ _ held
    exact Slot.take_idem held a

theorem mem_ofCard {slots : Slots} {e : SlotKey × Slot} : e ∈ slots.ofCard oracleId ↔ slots.get (oracleId, e.1) = some e.2 := by
  rw [← JsMap.mem_entries, Slots.ofCard, List.mem_filterMap]
  constructor
  · rintro ⟨⟨⟨id, key⟩, slot⟩, hmem, hsome⟩
    split at hsome
    · rename_i hid
      obtain rfl := Option.some.inj hsome
      obtain rfl : id = oracleId := hid
      exact hmem
    · cases hsome
  · intro hmem
    exact ⟨_, hmem, if_pos rfl⟩

theorem nodup_ofCard (slots : Slots) : ((slots.ofCard oracleId).map Prod.fst).Nodup := by
  have hkeys : (slots.ofCard oracleId).map Prod.fst =
      slots.keys.filterMap fun k => if k.1 = oracleId then some k.2 else none := by
    rw [Slots.ofCard, JsMap.keys, List.map_filterMap, List.filterMap_map]
    congr 1
    funext e
    by_cases hid : e.1.1 = oracleId <;> simp [hid]
  rw [hkeys]
  apply List.Nodup.filterMap _ slots.nodup
  intro k k' key hk hk'
  by_cases hid : k.1 = oracleId
  · by_cases hid' : k'.1 = oracleId
    · simp only [hid, hid', if_true, Option.mem_some] at hk hk'
      exact Prod.ext (hid.trans hid'.symm) (hk.trans hk'.symm)
    · simp [hid'] at hk'
  · simp [hid] at hk

theorem ofCard_perm {slots slots' : Slots} (h : ∀ key, slots.get (oracleId, key) = slots'.get (oracleId, key)) :
    (slots.ofCard oracleId).Perm (slots'.ofCard oracleId) := by
  rw [List.perm_ext_iff_of_nodup (List.Nodup.of_map _ (nodup_ofCard slots)) (List.Nodup.of_map _ (nodup_ofCard slots'))]
  intro e
  rw [mem_ofCard, mem_ofCard, h]

section

variable (engine : CardEngine)

theorem mem_rankedOf {e : SlotKey × Slot} {a : Ranked} (h : a ∈ rankedOf e) : a.key = e.1 ∧ a.slot = e.2 := by
  simp only [rankedOf, List.mem_append, Option.mem_toList, Option.map_eq_some_iff] at h
  rcases h with (⟨c, -, rfl⟩ | ⟨c, -, rfl⟩) | ⟨c, -, rfl⟩ <;> exact ⟨rfl, rfl⟩

theorem Half.index_inj {a b : Half} (h : a.index = b.index) : a = b := by
  cases a <;> cases b <;> first | rfl | cases h

theorem rankKey_inj {pins : PinnedPrintings} {slots : List (SlotKey × Slot)} (hnodup : (slots.map Prod.fst).Nodup)
    {a b : Ranked} (ha : a ∈ slots.flatMap rankedOf) (hb : b ∈ slots.flatMap rankedOf)
    (h : rankKey engine pins oracleId a = rankKey engine pins oracleId b) : a = b := by
  obtain ⟨e, he, hae⟩ := List.mem_flatMap.mp ha
  obtain ⟨f, hf, hbf⟩ := List.mem_flatMap.mp hb
  obtain ⟨hakey, haslot⟩ := mem_rankedOf hae
  obtain ⟨hbkey, hbslot⟩ := mem_rankedOf hbf
  obtain ⟨⟨ra, sa, na⟩, slota, ca, halfa⟩ := a
  obtain ⟨⟨rb, sb, nb⟩, slotb, cb, halfb⟩ := b
  simp only [rankKey, toLex_inj, Prod.mk.injEq, OrderDual.toDual_inj] at h
  obtain ⟨-, rfl, rfl, -, rfl, hnumber⟩ := h
  obtain ⟨hcollation, hhalf⟩ := Prod.mk.inj (toLex_inj.mp (Prod.mk.inj hnumber).2)
  obtain rfl := engine.collation_injective hcollation
  obtain rfl := Half.index_inj hhalf
  have hef : e = f := by
    apply List.inj_on_of_nodup_map hnodup he hf
    exact hakey.symm.trans hbkey
  subst hef
  obtain rfl : slota = slotb := haslot.trans hbslot.symm
  rfl

theorem orderedSlots_same {pins pins' : PinnedPrintings} {slots slots' : List (SlotKey × Slot)}
    (hpins : ∀ key : PinKey, key.1 = oracleId → (key ∈ pins ↔ key ∈ pins')) (hperm : slots.Perm slots')
    (hnodup : (slots.map Prod.fst).Nodup) :
    orderedSlots engine pins oracleId slots = orderedSlots engine pins' oracleId slots' := by
  have hkey : ∀ e : Ranked, rankKey engine pins oracleId e = rankKey engine pins' oracleId e := by
    intro e
    have hsame := hpins (oracleId, e.key.2.1, e.key.2.2) rfl
    simp only [rankKey, hsame]
  have htotal : Std.Total fun a b : Ranked => rankKey engine pins' oracleId a ≤ rankKey engine pins' oracleId b :=
    ⟨fun a b => le_total _ _⟩
  have htrans : IsTrans Ranked fun a b : Ranked => rankKey engine pins' oracleId a ≤ rankKey engine pins' oracleId b :=
    ⟨fun a b c => le_trans⟩
  unfold orderedSlots
  simp only [hkey]
  have hall : ((slots.flatMap rankedOf).insertionSort fun a b =>
      rankKey engine pins' oracleId a ≤ rankKey engine pins' oracleId b).Perm
      ((slots'.flatMap rankedOf).insertionSort fun a b =>
        rankKey engine pins' oracleId a ≤ rankKey engine pins' oracleId b) :=
    (List.perm_insertionSort _ _).trans ((hperm.flatMap_right rankedOf).trans (List.perm_insertionSort _ _).symm)
  refine List.Perm.eq_of_pairwise ?_ (List.pairwise_insertionSort _ _) (List.pairwise_insertionSort _ _) hall
  intro a b ha hb hab hba
  have hb : b ∈ slots.flatMap rankedOf := by
    have hb := hall.mem_iff.mpr hb
    exact (List.perm_insertionSort _ _).mem_iff.mp hb
  exact rankKey_inj engine hnodup ((List.perm_insertionSort _ _).mem_iff.mp ha) hb (le_antisymm hab hba)

theorem rank_same (labels : JsSet Text) {r : Observed} (h : SameCard r.oracleId l l') :
    PrintingRanks.rankOf engine ⟨l.foldl (PinnedPrintings.observe labels) [], l.foldl Slots.observe .empty⟩ r =
      PrintingRanks.rankOf engine ⟨l'.foldl (PinnedPrintings.observe labels) [], l'.foldl Slots.observe .empty⟩ r := by
  unfold PrintingRanks.rankOf
  dsimp only
  congr 1
  cases hkey : pinKey r with
  | none => rfl
  | some key =>
    have hid := pinKey_oracleId hkey
    rw [Option.bind_some, Option.bind_some, PrintingRanks.get, PrintingRanks.get, hid, rankTable, rankTable,
      orderedSlots_same engine (fun _ hcard => pins_same h labels hcard) (ofCard_perm (slots_same h)) (nodup_ofCard _)]

end

end Corpus
