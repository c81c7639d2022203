-- SUMMARY: What the sealed art table tells a printing: whether it is its artwork's first, of the first's day, or of an artwork two cards share.
import Sylvan.Import.PartitionTables
import Sylvan.Import.PrintingRanks

/-!
# New art

The table folds the least order of each illustration's printings under each card name, and
at the seal every name is given its illustration's least. It folds the cards of each
artwork into one card or a mark that there are two. What it tells a printing is what the
whole corpus says, and a partition's share of it tells the partition's printings the same.
-/

namespace Arts

open Corpus

/-! ## The order of new printings -/

/-- The tables of the order, each outside the pass. -/
structure OrderTables where
  releaseBatch : ℕ → Text → ℕ
  parseUuidOrHash : Text → ℕ
  chars : Ranks.CharTables

def COLLECTOR_INT_MAX : ℕ := 0xfffffffe

def collectorIntFromI64 (n : ℤ) : Option ℕ := if n < 0 then none else some (min n.toNat COLLECTOR_INT_MAX)

def NEW_ORDER_LEADS : List ℕ := [0xbc9c39d11e104cd3a4b1b6eb7c1a0b65]

def NEW_TIE_LEADS : List ℕ := [0x646ff18e9d6a4a55838c0bd88b8c9fae, 0x770ea04630084d4eb316e6c5e80422d3]

def NO_DATE : ℕ := 0xffffffff

def newOrderKeyOf (date : Option ℕ) (batch : ℕ) (collector : Option ℕ) (variation : Bool) (id : ℕ) :
    ℕ × ℕ × Bool × Bool × ℕ × Bool × ℕ :=
  (date.getD NO_DATE, batch, id ∉ NEW_ORDER_LEADS, variation, collector.getD 0, id ∉ NEW_TIE_LEADS, id)

def newOrderKey (tables : OrderTables) (releasedYyyymmdd : Option ℕ) (set : Text) (collectorNumberInt : Option ℤ)
    (variation : Bool) (scryfallId : Text) : ℕ × ℕ × Bool × Bool × ℕ × Bool × ℕ :=
  let batch := (releasedYyyymmdd.map (tables.releaseBatch · set)).getD 0
  newOrderKeyOf releasedYyyymmdd batch (collectorNumberInt.bind collectorIntFromI64) variation
    (tables.parseUuidOrHash scryfallId)

def engineOf (tables : OrderTables) : CardEngine where
  releaseBatch := tables.releaseBatch
  collectorCollationKey := Ranks.collectorCollationKey tables.chars
  collation_injective := Ranks.collectorCollationKey_injective tables.chars
  newOrderKey := newOrderKey tables

/-! ## The pass -/

def isNew (engine : CardEngine) (newArt : NewArt) (r : Observed) : Bool :=
  newArt.sealed && r.eligible && (newArt.leads.get r.group).any (· = r.order engine)

/-- A row's illustration; the rows without one are one illustration's. -/
def illustrationOf (r : Observed) : Text := r.illustrationId.getD []

/-- A partition's share of the table: the entries of its names, the shared artworks whole. -/
def restricted (names : JsSet Text) (newArt : NewArt) : NewArt :=
  { newArt with leads := filteredMapBy (.keys names) illustKeyName newArt.leads }

/-- The ids of a printing's faces, or its own where it has no faces; none where one is absent. -/
def artworkIds (r : Observed) : Option (List Text) :=
  (if r.faceIllustrations.isEmpty then [r.illustrationId] else r.faceIllustrations).mapM fun slot =>
    slot.filter fun id => !id.isEmpty

/-- A printing's artwork, as two printings share it. -/
def artworkTuple (r : Observed) : Option (List Text) := (artworkIds r).map fun ids => ids.map toAsciiLowercase

/-- The hashes tell apart what they are taken of, over some rows. -/
structure NoCollisions (rows : List Observed) : Prop where
  artworks : ∀ a ∈ rows, ∀ b ∈ rows, artworkTuple a ≠ none → artworkKey a = artworkKey b → artworkTuple a = artworkTuple b
  cards : ∀ a ∈ rows, ∀ b ∈ rows, cardHash a.oracleId = cardHash b.oracleId → a.oracleId = b.oracleId

/-! ## The leads -/

section Leads

variable {engine : CardEngine} {rows : List Observed}

theorem leading_eq (held : Option Text) (order : Text) : leading held order = Gathered.least held order := by
  cases held with
  | none => rfl
  | some lead => exact leading_some lead order

theorem foldl_leading {α : Type} (order : α → Text) (l : List α) :
    l.foldl (fun held a => some (leading held (order a))) none = (l.map order).min? := by
  rw [← Gathered.foldl_least, List.foldl_map]
  congr 1
  funext held a
  rw [leading_eq]

theorem lead_observed (key : Text) : (rows.foldl (NewArt.see engine) .empty).leads.get key =
    ((rows.filter fun a => (if a.eligible then some a.group else none) = some key).map (Observed.order engine)).min? := by
  rw [leads_see, Gathered.get_gather, ← foldl_leading]
  rfl

theorem best_observed (leads : JsMap Text Text) (illustration : Text) : (NewArt.best leads).get illustration =
    ((leads.entries.filter fun e => some (illustKeyIllustration e.1) = some illustration).map Prod.snd).min? := by
  have hgather : NewArt.best leads =
      Gathered.gather (fun e : Text × Text => some (illustKeyIllustration e.1)) (fun held e => leading held e.2)
        .empty leads.entries := rfl
  rw [hgather, Gathered.get_gather, ← foldl_leading]
  rfl

theorem illustKeyIllustration_group {r : Observed} (h : SEP ∉ illustrationOf r) :
    illustKeyIllustration r.group = illustrationOf r := by
  rw [illustKeyIllustration, if_pos (by simp [Observed.group, illustGroupKey]), Observed.group, illustGroupKey,
    List.takeWhile_append_of_pos]
  · simp [illustrationOf]
  · intro c hc
    simp only [ne_eq, decide_eq_true_eq]
    rintro rfl
    exact h hc

theorem group_iff {a r : Observed} (ha : SEP ∉ illustrationOf a) (hr : SEP ∉ illustrationOf r) :
    a.group = r.group ↔ illustrationOf a = illustrationOf r ∧ a.cardName = r.cardName := by
  constructor
  · exact illustGroupKey_inj ha hr
  · rintro ⟨hill, hname⟩
    change illustGroupKey (illustrationOf a) a.cardName = illustGroupKey (illustrationOf r) r.cardName
    rw [hill, hname]

def Leads (engine : CardEngine) (rows : List Observed) (a : Observed) : Prop :=
  a ∈ rows ∧ a.eligible = true ∧
    ∀ b ∈ rows, b.eligible = true → illustrationOf b = illustrationOf a → a.order engine ≤ b.order engine

theorem best_leads (hsep : ∀ a ∈ rows, SEP ∉ illustrationOf a) {illustration lead : Text}
    (h : (NewArt.best (rows.foldl (NewArt.see engine) .empty).leads).get illustration = some lead) :
    ∃ a, Leads engine rows a ∧ illustrationOf a = illustration ∧ a.order engine = lead := by
  rw [best_observed] at h
  obtain ⟨hmem, hleast⟩ := List.min?_eq_some_iff.mp h
  -- an entry's order is its own rows' least, so it is a row's and no row's is less
  have hentry : ∀ key order, (key, order) ∈ (rows.foldl (NewArt.see engine) .empty).leads.entries →
      (∃ a ∈ rows, a.eligible = true ∧ a.group = key ∧ a.order engine = order) ∧
        ∀ b ∈ rows, b.eligible = true → b.group = key → order ≤ b.order engine := by
    intro key order hkey
    rw [JsMap.mem_entries, lead_observed] at hkey
    obtain ⟨hmem, hleast⟩ := List.min?_eq_some_iff.mp hkey
    constructor
    · obtain ⟨a, ha, rfl⟩ := List.mem_map.mp hmem
      obtain ⟨ha, hgroup⟩ := List.mem_filter.mp ha
      by_cases heligible : a.eligible = true
      · exact ⟨a, ha, heligible, by simpa [heligible] using hgroup, rfl⟩
      · simp [heligible] at hgroup
    · intro b hb heligible hgroup
      exact hleast _ (List.mem_map.mpr ⟨b, List.mem_filter.mpr ⟨hb, by simp [heligible, hgroup]⟩, rfl⟩)
  obtain ⟨⟨key, order⟩, he, rfl⟩ := List.mem_map.mp hmem
  obtain ⟨he, hill⟩ := List.mem_filter.mp he
  obtain ⟨⟨a, ha, heligible, rfl, horder⟩, -⟩ := hentry key order he
  have hilla : illustrationOf a = illustration := by
    rw [← illustKeyIllustration_group (hsep a ha)]
    simpa using hill
  refine ⟨a, ⟨ha, heligible, ?_⟩, hilla, horder⟩
  intro b hb heligibleb hillb
  -- the row's own entry is one of the illustration's
  cases hlead : (rows.foldl (NewArt.see engine) .empty).leads.get b.group with
  | none =>
    rw [lead_observed, List.min?_eq_none_iff, List.map_eq_nil_iff, List.filter_eq_nil_iff] at hlead
    exact absurd (by simp [heligibleb]) (hlead b hb)
  | some orderb =>
    have hb' := (hentry b.group orderb (JsMap.mem_entries.mpr hlead)).2 b hb heligibleb rfl
    have hle : order ≤ orderb := by
      apply hleast
      refine List.mem_map.mpr ⟨(b.group, orderb), List.mem_filter.mpr ⟨JsMap.mem_entries.mpr hlead, ?_⟩, rfl⟩
      simp [illustKeyIllustration_group (hsep b hb), hillb, hilla]
    rw [horder]
    exact hle.trans hb'

theorem lead_sealed (hsep : ∀ a ∈ rows, SEP ∉ illustrationOf a) {r : Observed} (hr : r ∈ rows) :
    (∃ a ∈ rows, a.eligible = true ∧ illustrationOf a = illustrationOf r ∧ a.cardName = r.cardName) →
      ∃ a, Leads engine rows a ∧ illustrationOf a = illustrationOf r ∧
        (artOf engine rows).leads.get r.group = some (a.order engine) := by
  rintro ⟨a, ha, heligible, hill, hname⟩
  have hgroup : a.group = r.group := (group_iff (hsep a ha) (hsep r hr)).mpr ⟨hill, hname⟩
  cases hlead : (rows.foldl (NewArt.see engine) .empty).leads.get r.group with
  | none =>
    rw [lead_observed, List.min?_eq_none_iff, List.map_eq_nil_iff, List.filter_eq_nil_iff] at hlead
    exact absurd (by simp [heligible, hgroup]) (hlead a ha)
  | some order =>
    cases hbest : (NewArt.best (rows.foldl (NewArt.see engine) .empty).leads).get (illustrationOf r) with
    | none =>
      rw [best_observed, List.min?_eq_none_iff, List.map_eq_nil_iff, List.filter_eq_nil_iff] at hbest
      refine absurd ?_ (hbest (r.group, order) (JsMap.mem_entries.mpr hlead))
      simp [illustKeyIllustration_group (hsep r hr)]
    | some lead =>
      obtain ⟨b, hb, hillb, rfl⟩ := best_leads hsep hbest
      refine ⟨b, hb, hillb, ?_⟩
      rw [get_leads_artOf, hlead, illustKeyIllustration_group (hsep r hr), hbest]
      rfl

theorem sealed_artOf : (artOf engine rows).sealed = true := by
  rw [artOf, NewArt.seal, show (rows.foldl (NewArt.see engine) .empty).sealed = false from sealed_see engine .empty rows]
  rfl

end Leads

/-! ## The day of a row -/

section Days

variable {tables : OrderTables}

theorem dateOf_lt (r : Observed) : (dateOf r.releasedAt).getD NO_DATE < 16 ^ DAY := by
  unfold dateOf parseU32
  extract_lets digits
  split
  · decide
  · split
    · assumption
    · decide

theorem take_order (r : Observed) :
    (r.order (engineOf tables)).take DAY = Fnv.hex DAY ((dateOf r.releasedAt).getD NO_DATE) := by
  have horder : ∃ rest, r.order (engineOf tables) = Fnv.hex DAY ((dateOf r.releasedAt).getD NO_DATE) ++ rest := by
    simp only [Observed.order, engineOf, newOrderKey, newOrderKeyOf, List.append_assoc]
    exact ⟨_, rfl⟩
  obtain ⟨rest, hrest⟩ := horder
  rw [hrest, List.take_left' (Fnv.length_hex _ _)]

theorem take_order_eq {a r : Observed} : (a.order (engineOf tables)).take DAY = (r.order (engineOf tables)).take DAY ↔
    (dateOf a.releasedAt).getD NO_DATE = (dateOf r.releasedAt).getD NO_DATE := by
  rw [take_order, take_order]
  constructor
  · exact Fnv.hex_inj (dateOf_lt a) (dateOf_lt r)
  · exact fun h => by rw [h]

theorem dateOf_eq {a r : Observed} (hdate : (dateOf r.releasedAt).getD NO_DATE ≠ NO_DATE)
    (h : (dateOf a.releasedAt).getD NO_DATE = (dateOf r.releasedAt).getD NO_DATE) :
    dateOf a.releasedAt = dateOf r.releasedAt := by
  cases hr : dateOf r.releasedAt with
  | none => exact absurd (by rw [hr]; rfl) hdate
  | some date =>
    cases ha : dateOf a.releasedAt with
    | none =>
      rw [ha, Option.getD_none] at h
      exact absurd h.symm hdate
    | some date' =>
      rw [ha, hr, Option.getD_some, Option.getD_some] at h
      rw [h]

theorem take_order_none {r : Observed} : (r.order (engineOf tables)).take DAY = List.replicate DAY 'f' ↔
    (dateOf r.releasedAt).getD NO_DATE = NO_DATE := by
  have hnone : List.replicate DAY 'f' = Fnv.hex DAY NO_DATE := by decide
  rw [take_order, hnone]
  constructor
  · exact Fnv.hex_inj (dateOf_lt r) (by decide)
  · exact fun h => by rw [h]

end Days

/-! ## The shared artworks -/

section Sharing

variable {engine : CardEngine} {rows : List Observed}

/-- The mark stands once two cards were seen. Induction on the cards, from what is held. -/
theorem carried_run {cards : List Text} (hcards : ∀ c ∈ cards, c ≠ SHARED) :
    cards.foldl (fun held c => some (carried held c)) none = some SHARED ↔ ∃ c ∈ cards, ∃ d ∈ cards, c ≠ d := by
  have hstays : ∀ l : List Text, l.foldl (fun held c => some (carried held c)) (some SHARED) = some SHARED := by
    intro l
    induction l with
    | nil => rfl
    | cons c l ih =>
      have hstep : carried (some SHARED) c = SHARED := by simp [carried]
      rw [List.foldl_cons, hstep, ih]
  have hrun : ∀ (l : List Text) (seen : Text), seen ≠ SHARED →
      (l.foldl (fun held c => some (carried held c)) (some seen) = some SHARED ↔ ∃ c ∈ l, c ≠ seen) := by
    intro l
    induction l with
    | nil =>
      intro seen hseen
      simpa using hseen
    | cons c l ih =>
      intro seen hseen
      rw [List.foldl_cons]
      by_cases hc : seen = c
      · have hstep : carried (some seen) c = seen := by simp [carried, hc]
        rw [hstep, ih seen hseen]
        simp [hc]
      · have hstep : carried (some seen) c = SHARED := by simp [carried, hc, hseen]
        rw [hstep, hstays]
        exact iff_of_true rfl ⟨c, List.mem_cons_self, Ne.symm hc⟩
  cases cards with
  | nil => simp
  | cons c cards =>
    rw [List.foldl_cons, show carried none c = c from rfl, hrun cards c (hcards c List.mem_cons_self)]
    constructor
    · rintro ⟨d, hd, hne⟩
      exact ⟨d, List.mem_cons_of_mem _ hd, c, List.mem_cons_self, hne⟩
    · rintro ⟨d, hd, e, he, hne⟩
      by_cases hdc : d = c
      · subst hdc
        exact ⟨e, (List.mem_cons.mp he).resolve_left (Ne.symm hne), Ne.symm hne⟩
      · exact ⟨d, (List.mem_cons.mp hd).resolve_left hdc, hdc⟩

theorem artworkKey_eq (r : Observed) : artworkKey r = (artworkTuple r).map fun ids =>
    Fnv.hex 12 (Fnv.word (ids.flatMap fun id => RustStr.utf8 (id ++ ['+'])) / 0x10000) := by
  have hbytes : ∀ ids : List Text, artworkBytes ids =
      (ids.map toAsciiLowercase).flatMap fun id => RustStr.utf8 (id ++ ['+']) := by
    intro ids
    rw [artworkBytes, List.flatMap_map]
  have hkey : artworkKey r = (artworkIds r).map fun ids => Fnv.hex 12 (Fnv.word (artworkBytes ids) / 0x10000) := by
    rw [Option.map_eq_bind]
    rfl
  rw [hkey, artworkTuple, Option.map_map]
  congr 1
  funext ids
  rw [hbytes]
  rfl

theorem isShared_iff {key : Text} : (artOf engine rows).isShared (some key) = true ↔
    ∃ a ∈ rows, ∃ b ∈ rows, artworkOf a = some key ∧ artworkOf b = some key ∧ cardHash a.oracleId ≠ cardHash b.oracleId := by
  have hartworks : (artOf engine rows).artworks =
      (rows.foldl (NewArt.see engine) .empty).artworks.filter fun _ card => card = SHARED := by
    rw [artOf, NewArt.seal, show (rows.foldl (NewArt.see engine) .empty).sealed = false from sealed_see engine .empty rows]
    rfl
  have hfold : (rows.foldl (NewArt.see engine) .empty).artworks.get key =
      ((rows.filter fun a => artworkOf a = some key).map fun a => cardHash a.oracleId).foldl
        (fun held c => some (carried held c)) none := by
    rw [artworks_see, Gathered.get_gather, List.foldl_map]
    rfl
  have hrun := @carried_run ((rows.filter fun a => artworkOf a = some key).map fun a => cardHash a.oracleId) (by
    intro c hc
    obtain ⟨a, -, rfl⟩ := List.mem_map.mp hc
    exact cardHash_ne_shared _)
  have hmarked : (artOf engine rows).isShared (some key) = true ↔
      (rows.foldl (NewArt.see engine) .empty).artworks.get key = some SHARED := by
    rw [NewArt.isShared, sealed_artOf, hartworks, Bool.true_and, Option.any_some, decide_eq_true_eq, JsMap.get_filter]
    simp [Option.filter_eq_some_iff]
  rw [hmarked, hfold, hrun]
  constructor
  · rintro ⟨c, hc, d, hd, hne⟩
    obtain ⟨a, ha, rfl⟩ := List.mem_map.mp hc
    obtain ⟨b, hb, rfl⟩ := List.mem_map.mp hd
    obtain ⟨ha, hakey⟩ := List.mem_filter.mp ha
    obtain ⟨hb, hbkey⟩ := List.mem_filter.mp hb
    exact ⟨a, ha, b, hb, by simpa using hakey, by simpa using hbkey, hne⟩
  · rintro ⟨a, ha, b, hb, hakey, hbkey, hne⟩
    exact ⟨_, List.mem_map.mpr ⟨a, List.mem_filter.mpr ⟨ha, by simpa using hakey⟩, rfl⟩,
      _, List.mem_map.mpr ⟨b, List.mem_filter.mpr ⟨hb, by simpa using hbkey⟩, rfl⟩, hne⟩

end Sharing

/-! ## What a printing is told -/

section Told

variable {engine : CardEngine} {rows : List Observed}

theorem standing_first {newArt : NewArt} {r : Observed} : newArt.standing engine r = .first ↔ isNew engine newArt r = true := by
  unfold NewArt.standing isNew
  dsimp only
  cases newArt.leads.get r.group with
  | none => simp
  | some lead =>
    cases hsealed : newArt.sealed with
    | false => simp
    | true =>
      cases heligible : r.eligible with
      | false =>
        simp only [Option.filter_some, if_true, Bool.false_and, Bool.true_and, Bool.false_eq_true, if_false, iff_false]
        split <;> simp
      | true =>
        by_cases hlead : lead = r.order engine
        · simp [hlead, Option.filter_some]
        · simp only [Option.filter_some, if_true, Bool.true_and, hlead, decide_false, Bool.false_eq_true, if_false,
            Option.any_some, iff_false]
          split <;> simp

theorem standing_debut {newArt : NewArt} {r : Observed} : newArt.standing engine r = .debut ↔
    isNew engine newArt r = false ∧ newArt.sealed = true ∧ r.illustrationId.isSome = true ∧
      (r.order engine).take DAY ≠ List.replicate DAY 'f' ∧
      ∃ lead, newArt.leads.get r.group = some lead ∧ lead.take DAY = (r.order engine).take DAY := by
  unfold NewArt.standing isNew
  dsimp only
  cases newArt.leads.get r.group with
  | none => simp
  | some lead =>
    cases hsealed : newArt.sealed with
    | false => simp
    | true =>
      by_cases hfirst : (r.eligible && decide (lead = r.order engine)) = true
      · rw [Option.filter_some, if_pos rfl]
        simp only [hfirst, if_true]
        simp_all
      · rw [Option.filter_some, if_pos rfl]
        simp only [hfirst]
        by_cases hday : (r.illustrationId.isSome && decide (lead.take DAY = (r.order engine).take DAY) &&
            decide ((r.order engine).take DAY ≠ List.replicate DAY 'f')) = true
        · simp_all
        · simp_all
          intro hill hdate hlead
          exact hdate (hday hill hlead)

theorem isNew_iff (hsep : ∀ a ∈ rows, SEP ∉ illustrationOf a) {r : Observed} (hr : r ∈ rows) :
    isNew engine (artOf engine rows) r = true ↔ Leads engine rows r := by
  rw [isNew, sealed_artOf, Bool.true_and, Bool.and_eq_true]
  constructor
  · rintro ⟨heligible, hlead⟩
    obtain ⟨a, ⟨-, -, hleast⟩, hill, hget⟩ := @lead_sealed engine rows hsep r hr ⟨r, hr, heligible, rfl, rfl⟩
    rw [hget, Option.any_some, decide_eq_true_eq] at hlead
    refine ⟨hr, heligible, ?_⟩
    intro b hb heligibleb hillb
    rw [← hlead]
    exact hleast b hb heligibleb (hillb.trans hill.symm)
  · rintro ⟨-, heligible, hleast⟩
    obtain ⟨a, ⟨ha, heligiblea, hleasta⟩, hill, hget⟩ := @lead_sealed engine rows hsep r hr ⟨r, hr, heligible, rfl, rfl⟩
    refine ⟨heligible, ?_⟩
    rw [hget, Option.any_some, decide_eq_true_eq]
    exact le_antisymm (hleasta r hr heligible hill.symm) (hleast a ha heligiblea hill)

theorem leads_order {a b : Observed} (ha : Leads engine rows a) (hb : Leads engine rows b)
    (h : illustrationOf a = illustrationOf b) : a.order engine = b.order engine :=
  le_antisymm (ha.2.2 b hb.1 hb.2.1 h.symm) (hb.2.2 a ha.1 ha.2.1 h)

theorem artworkKey_none {r : Observed} : artworkKey r = none ↔ artworkTuple r = none := by
  rw [artworkKey_eq, Option.map_eq_none_iff]

theorem shared_iff (hcollisions : NoCollisions rows) {r : Observed} (hr : r ∈ rows) :
    (artOf engine rows).isShared (artworkKey r) = true ↔
      ∃ a ∈ rows, ∃ b ∈ rows, artworkTuple r ≠ none ∧ artworkTuple a = artworkTuple r ∧ artworkTuple b = artworkTuple r ∧
        a.oracleId ≠ [] ∧ b.oracleId ≠ [] ∧ a.oracleId ≠ b.oracleId := by
  cases hkey : artworkKey r with
  | none =>
    have htuple := artworkKey_none.mp hkey
    simp [NewArt.isShared, htuple]
  | some key =>
    have htuple : artworkTuple r ≠ none := fun h => by simp [artworkKey_none.mpr h] at hkey
    -- a row recorded under the key is one of the artwork, of a card
    have hof : ∀ a ∈ rows, artworkOf a = some key ↔ artworkTuple a = artworkTuple r ∧ a.oracleId ≠ [] := by
      intro a ha
      rw [artworkOf]
      by_cases hid : a.oracleId = []
      · simp [hid]
      · rw [if_neg hid]
        constructor
        · intro h
          exact ⟨(hcollisions.artworks r hr a ha htuple (hkey.trans h.symm)).symm, hid⟩
        · rintro ⟨h, -⟩
          rw [← hkey, artworkKey_eq, artworkKey_eq, h]
    rw [isShared_iff]
    constructor
    · rintro ⟨a, ha, b, hb, hakey, hbkey, hne⟩
      obtain ⟨hatuple, haid⟩ := (hof a ha).mp hakey
      obtain ⟨hbtuple, hbid⟩ := (hof b hb).mp hbkey
      exact ⟨a, ha, b, hb, htuple, hatuple, hbtuple, haid, hbid, fun h => hne (by rw [h])⟩
    · rintro ⟨a, ha, b, hb, -, hatuple, hbtuple, haid, hbid, hne⟩
      exact ⟨a, ha, b, hb, (hof a ha).mpr ⟨hatuple, haid⟩, (hof b hb).mpr ⟨hbtuple, hbid⟩,
        fun h => hne (hcollisions.cards a ha b hb h)⟩

theorem restricted_told {names : JsSet Text} {newArt : NewArt} {r : Observed} (hname : r.cardName ∈ names)
    (hsep : SEP ∉ illustrationOf r) :
    isNew engine (restricted names newArt) r = isNew engine newArt r ∧
      (restricted names newArt).standing engine r = newArt.standing engine r := by
  have hget : (restricted names newArt).leads.get r.group = newArt.leads.get r.group := by
    apply get_filteredMapBy
    have hkey : illustKeyName r.group = r.cardName := illustKeyName_groupKey hsep r.cardName
    rw [hkey]
    exact decide_eq_true hname
  constructor
  · unfold isNew
    rw [hget]
    rfl
  · unfold NewArt.standing
    rw [hget]
    rfl

end Told

/-- **What the sealed table tells every printing, whatever the order of observing.** -/
theorem new_art_standing (tables : OrderTables) (rows : List Observed) (hsep : ∀ a ∈ rows, SEP ∉ illustrationOf a) :
    (∀ r ∈ rows, isNew (engineOf tables) (artOf (engineOf tables) rows) r = true ↔
      r.eligible = true ∧ ∀ a ∈ rows, a.eligible = true → illustrationOf a = illustrationOf r →
        r.order (engineOf tables) ≤ a.order (engineOf tables)) ∧
    (∀ r ∈ rows,
      ((artOf (engineOf tables) rows).standing (engineOf tables) r = .first ↔
        isNew (engineOf tables) (artOf (engineOf tables) rows) r = true) ∧
      ((artOf (engineOf tables) rows).standing (engineOf tables) r = .debut →
        r.illustrationId.isSome = true ∧ (dateOf r.releasedAt).getD NO_DATE ≠ NO_DATE) ∧
      (isNew (engineOf tables) (artOf (engineOf tables) rows) r = false → r.illustrationId.isSome = true →
        (dateOf r.releasedAt).getD NO_DATE ≠ NO_DATE →
        (∃ a ∈ rows, a.eligible = true ∧ illustrationOf a = illustrationOf r ∧ a.cardName = r.cardName) →
        ((artOf (engineOf tables) rows).standing (engineOf tables) r = .debut ↔
          ∃ a, Leads (engineOf tables) rows a ∧ illustrationOf a = illustrationOf r ∧ dateOf a.releasedAt = dateOf r.releasedAt))) ∧
    (NoCollisions rows → ∀ r ∈ rows, ((artOf (engineOf tables) rows).isShared (artworkKey r) = true ↔
      ∃ a ∈ rows, ∃ b ∈ rows, artworkTuple r ≠ none ∧ artworkTuple a = artworkTuple r ∧ artworkTuple b = artworkTuple r ∧
        a.oracleId ≠ [] ∧ b.oracleId ≠ [] ∧ a.oracleId ≠ b.oracleId)) ∧
    ∀ names : JsSet Text, ∀ r ∈ rows, r.cardName ∈ names →
      isNew (engineOf tables) (restricted names (artOf (engineOf tables) rows)) r =
        isNew (engineOf tables) (artOf (engineOf tables) rows) r ∧
      (restricted names (artOf (engineOf tables) rows)).standing (engineOf tables) r =
        (artOf (engineOf tables) rows).standing (engineOf tables) r ∧
      ∀ artwork, (restricted names (artOf (engineOf tables) rows)).isShared artwork =
        (artOf (engineOf tables) rows).isShared artwork := by
  refine ⟨?_, ?_, ?_, ?_⟩
  · intro r hr
    rw [isNew_iff hsep hr]
    exact ⟨fun h => h.2, fun h => ⟨hr, h⟩⟩
  · intro r hr
    refine ⟨standing_first, ?_, ?_⟩
    · intro hdebut
      obtain ⟨-, -, hill, hdate, -⟩ := standing_debut.mp hdebut
      exact ⟨hill, fun h => hdate (take_order_none.mpr h)⟩
    · intro hnew hill hdate hname
      obtain ⟨a, hlead, hillr, hget⟩ := @lead_sealed (engineOf tables) rows hsep r hr hname
      rw [standing_debut]
      constructor
      · rintro ⟨-, -, -, -, lead, hlead', hday⟩
        rw [hget] at hlead'
        obtain rfl := Option.some.inj hlead'
        exact ⟨a, hlead, hillr, dateOf_eq hdate (take_order_eq.mp hday)⟩
      · rintro ⟨b, hleadb, hillb, hday⟩
        refine ⟨hnew, sealed_artOf, hill, fun h => hdate (take_order_none.mp h), _, hget, ?_⟩
        rw [leads_order hlead hleadb (hillr.trans hillb.symm), take_order_eq, hday]
  · intro hcollisions r hr
    rw [shared_iff hcollisions hr]
  · intro names r hr hname
    obtain ⟨hisNew, hstanding⟩ := restricted_told hname (hsep r hr)
    exact ⟨hisNew, hstanding, fun _ => rfl⟩

/-! ## Rows outside the rule -/

/-- No batches, an id read as its length in its leading half, and no letters. -/
def plainTables : OrderTables where
  releaseBatch _ _ := 0
  parseUuidOrHash id := id.length * 0x10000000000000000
  chars :=
    { isAlphabetic := fun _ => false
      toLowercase := fun c => [c]
      lowercase_unmarked := fun _ h => absurd h (by decide) }

def printing (scryfallId : Text) (illustrationId : Option Text) (cardName releasedAt : Text) : Observed where
  scryfallId := scryfallId
  oracleId := cardName
  cardName := cardName
  cardSetCode := some ['s']
  collectorNumber := some ['4']
  illustrationId := illustrationId
  faceIllustrations := []
  releasedAt := releasedAt
  rawLangEn := true
  isCanonical := true
  rawSetType := none
  variation := false
  allParts := false
  isTokenLayout := false
  cardIsTags := []
  rankClass := 0

/-- The first printing of an artwork and another of its day, by another card. -/
def sameDay (illustrationId : Option Text) : List Observed :=
  [printing ['1'] illustrationId ['m'] ['2'], printing ['1', '1'] illustrationId ['n'] ['2']]

theorem new_art_standing_sameDay :
    (∀ a ∈ sameDay (some ['i']), SEP ∉ illustrationOf a) ∧
      ((artOf (engineOf plainTables) (sameDay (some ['i']))).standing (engineOf plainTables)
          (printing ['1'] (some ['i']) ['m'] ['2']) = .first ↔
        isNew (engineOf plainTables) (artOf (engineOf plainTables) (sameDay (some ['i'])))
          (printing ['1'] (some ['i']) ['m'] ['2']) = true) :=
  ⟨by decide, ((new_art_standing plainTables (sameDay (some ['i'])) (by decide)).2.1 _ List.mem_cons_self).1⟩

/-- An id with the separator, whose first part is another's, and an earlier printing of the other. -/
def twoParts : List Observed :=
  [printing ['1'] (some ['i', SEP, 'j']) ['m'] ['2'], printing ['1', '1'] (some ['i']) ['n'] ['1']]

/-- The first printing is of its own day and no debut; without an illustration, nor is the next of
that day; and an id with the separator is answered with another's first printing. -/
theorem same_day_without_debut :
    (artOf (engineOf plainTables) (sameDay (some ['i']))).standing (engineOf plainTables)
        (printing ['1'] (some ['i']) ['m'] ['2']) = .first ∧
      (artOf (engineOf plainTables) (sameDay none)).standing (engineOf plainTables) (printing ['1', '1'] none ['n'] ['2']) =
        .later ∧
      isNew (engineOf plainTables) (artOf (engineOf plainTables) twoParts)
        (printing ['1'] (some ['i', SEP, 'j']) ['m'] ['2']) = false := by
  refine ⟨by decide +kernel, by decide +kernel, by decide +kernel⟩

end Arts
