-- SUMMARY: The two-phase gather serves exactly the page of all partitions' rows.
import Sylvan.Engine.GatherTells

/-!
# The gather is exact

A fleet is a list of clients, each the face of one partition of a build. Whatever
the partitions carry inline and in whatever of the shapes they know, the gather
serves the page of all their rows and of the rows kept apart.
-/

namespace Gather

open SortedRuns Throws

/-! ## The fleet -/

/-- The partitions of one build, their rows in distinct places of one order, and a
client for each. -/
structure Fleet (W R : Type) where
  opts : EngineSearchOptions
  codec : RowCodec R
  shaping : GatherShaping R
  build : Build
  members : List (PartitionClient W × Partition R)
  nonempty : members ≠ []
  lawful : codec.Lawful
  honest : ∀ m ∈ members, Honest codec shaping build opts m.1 m.2
  builtAt : ∀ m ∈ members, builtAtOfStoreKey m.2.storeKey = .ok build.builtAt
  sorted : ∀ m ∈ members, SortedBy (byteOrder ∘ KeyEntry.key) m.2.entries
  distinct : ((rowsWith (members.map fun m => m.2.entries)
    (apartRows (members.map fun m => m.2.artless) (members.map fun m => m.2.shared))).map
      Placed.order).Nodup

namespace Fleet

variable {W R : Type} (fleet : Fleet W R)

def clients : List (PartitionClient W) := fleet.members.map Prod.fst

def apart : List Chosen :=
  apartRows (fleet.members.map fun m => m.2.artless) (fleet.members.map fun m => m.2.shared)

def rows : List Placed := rowsWith (fleet.members.map fun m => m.2.entries) fleet.apart

def slot (owner : ℕ × ℕ) : Bytes :=
  match fleet.members[owner.1]? with
  | some m => fleet.shaping.spell fleet.codec (m.2.row owner.2)
  | none => []

structure Exact (page : GatheredPage) : Prop where
  slots : page.slots = (pageOf fleet.rows fleet.opts.offset fleet.opts.limit).map fun row => fleet.slot row.owner
  total : page.total = (fleet.members.map fun m => m.2.entries.length).sum + fleet.apart.length
  widened : page.widened = fleet.build.widened
  builtAt : page.builtAt = fleet.build.builtAt

end Fleet

/-! ## Exactness -/

namespace Fleet

variable {W R : Type} (fleet : Fleet W R)

def parts : List (Partition R) := fleet.members.map Prod.snd

def release : Release R := { build := fleet.build, parts := fleet.parts }

theorem getElem?_parts {m : (PartitionClient W × Partition R) × ℕ} (hm : m ∈ fleet.members.zipIdx) :
    fleet.release.parts[m.2]? = some m.1.2 := by
  have hat : fleet.members[m.2]? = some m.1 := List.mem_zipIdx_iff_getElem?.mp hm
  change (fleet.members.map Prod.snd)[m.2]? = _
  rw [List.getElem?_map, hat]
  rfl

/-- The fleet's clients as a crew that always answers. -/
def crew : Crew W R where
  strict := True
  opts := fleet.opts
  codec := fleet.codec
  shaping := fleet.shaping
  releases := {fleet.release}
  members := fleet.members.zipIdx.map fun m => (m.1.1, m.2)
  nonempty := by simpa using fleet.nonempty
  lawful := fleet.lawful
  truthful m hm := by
    obtain ⟨m, hmem, rfl⟩ := List.mem_map.mp hm
    have hhonest := fleet.honest m.1 (List.mem_of_getElem? (List.mem_zipIdx_iff_getElem?.mp hmem))
    have hpart := fleet.getElem?_parts hmem
    refine ⟨fun bound inlineRows asked hasked => ?_, ?_⟩
    · intro w
      have hanswers : AnswersIn True _ asked.shape _ :=
        (hhonest.keys bound inlineRows asked hasked).answersIn
      rcases hanswers w with ⟨reply, w', hrun, packet, hgood⟩ | herror
      · exact .inl ⟨reply, w', hrun, fleet.release, rfl, m.1.2, packet, hpart, hgood⟩
      · exact .inr herror
    · rintro r rfl part hpart' vpids fields hlimit howned asked hasked
      obtain rfl := Option.some.inj (hpart.symm.trans hpart')
      exact (hhonest.rows vpids fields hlimit howned asked hasked).answersIn
  stamped := by
    rintro r rfl part hpart
    obtain ⟨m, hm, rfl⟩ := List.mem_map.mp hpart
    exact fleet.builtAt m hm
  unique := by
    rintro r rfl r' rfl _
    rfl
  alone := by
    rintro _ r rfl r' rfl
    rfl

theorem clients_crew : fleet.crew.members.map Prod.fst = fleet.clients := by
  change (fleet.members.zipIdx.map fun m => (m.1.1, m.2)).map Prod.fst = fleet.members.map Prod.fst
  conv_rhs => rw [← List.zipIdx_map_fst 0 fleet.members, List.map_map]
  rw [List.map_map]
  rfl

theorem partsOf_crew : fleet.crew.partsOf fleet.release = fleet.parts := by
  have hall : (fleet.members.zipIdx.map fun m => (m.1.1, m.2)).filterMap
      (fun m => fleet.release.parts[m.2]?) = fleet.members.zipIdx.filterMap
        (some ∘ fun m => m.1.2) := by
    rw [List.filterMap_map]
    exact List.filterMap_congr fun m hm => fleet.getElem?_parts hm
  change (fleet.members.zipIdx.map fun m => (m.1.1, m.2)).filterMap
    (fun m => fleet.release.parts[m.2]?) = _
  rw [hall, List.filterMap_eq_map, parts]
  conv_rhs => rw [← List.zipIdx_map_fst 0 fleet.members, List.map_map]
  rfl

theorem apartOf_parts : apartOf fleet.parts = fleet.apart := by
  simp only [apartOf, apart, parts, List.map_map]
  rfl

theorem slotOf_parts (owner : ℕ × ℕ) : slotOf fleet.codec fleet.shaping fleet.parts owner = fleet.slot owner := by
  simp only [slotOf, slot, parts, List.getElem?_map]
  cases fleet.members[owner.1]? <;> rfl

section Page

variable {fleet} {bound : ℕ}

def sent (fleet : Fleet W R) (bound : ℕ) : Streams :=
  (fleet.members.map fun m => m.2.entries).map (List.take bound)

theorem sorted_entries : ∀ s ∈ fleet.members.map (fun m => m.2.entries), SortedBy (byteOrder ∘ KeyEntry.key) s := by
  intro s hs
  obtain ⟨m, hm, rfl⟩ := List.mem_map.mp hs
  exact fleet.sorted m hm

theorem sorted_sent : ∀ s ∈ fleet.sent bound, SortedBy (byteOrder ∘ KeyEntry.key) s := by
  intro s hs
  obtain ⟨whole, hwhole, rfl⟩ := List.mem_map.mp hs
  exact (fleet.sorted_entries whole hwhole).sublist (List.take_sublist _ _)

theorem distinct_sent : ((rowsWith (fleet.sent bound) fleet.apart).map Placed.order).Nodup :=
  fleet.distinct.sublist ((rowsWith_take_sublist _ _ _).map _)

theorem page_owner {offset limit : ℕ}
    (hbound : offset + limit ≤ bound ∨ ∀ m ∈ fleet.members, m.2.entries.length ≤ bound) :
    (((mergedOf fleet.parts bound).drop offset).take limit).map MergedRef.owner =
      (pageOf fleet.rows offset limit).map Placed.owner := by
  have hsent : mergedOf fleet.parts bound = (mergeApart (fleet.sent bound)
      (fleet.members.map fun m => m.2.artless) (fleet.members.map fun m => m.2.shared)).1 := by
    simp only [mergedOf, parts, sent, List.map_map]
    rfl
  have hmerged : (mergedOf fleet.parts bound).map MergedRef.owner =
      (sortBy Placed.order (rowsWith (fleet.sent bound) fleet.apart)).map Placed.owner := by
    rw [hsent]
    exact map_owner_mergeApart fleet.sorted_sent fleet.distinct_sent
  have hbest : (sortBy Placed.order (rowsWith (fleet.sent bound) fleet.apart)).take
      (offset + limit) = (sortBy Placed.order fleet.rows).take (offset + limit) := by
    refine take_sortBy_best fleet.sorted_entries fleet.distinct ?_
    refine hbound.imp_right fun hall s hs => ?_
    obtain ⟨m, hm, rfl⟩ := List.mem_map.mp hs
    exact hall m hm
  rw [pageOf, List.take_drop, List.take_drop, List.map_drop, List.map_take, hmerged, ← List.map_take, hbest, List.map_drop]

end Page

theorem exact_of_tells {page : GatheredPage}
    (h : Tells fleet.codec fleet.shaping fleet.opts fleet.build fleet.parts page)
    (hlong : ∀ m ∈ fleet.members, m.2.entries.length ≤ 0xffffffff) : fleet.Exact page := by
  have howner : (cutOf fleet.parts fleet.opts).map MergedRef.owner =
      (pageOf fleet.rows fleet.opts.offset fleet.opts.limit).map Placed.owner := by
    refine page_owner ?_
    -- the clamp is past every total
    by_cases hclamp : fleet.opts.offset + fleet.opts.limit ≤ 0xffffffff
    · left
      rw [EngineSearchOptions.bound, Nat.min_eq_left hclamp]
    · right
      intro m hm
      rw [EngineSearchOptions.bound, Nat.min_eq_right (by omega)]
      exact hlong m hm
  refine { slots := ?_, total := ?_, widened := h.widened, builtAt := h.builtAt }
  · have hslots := congrArg (List.map fleet.slot) howner
    rw [List.map_map, List.map_map] at hslots
    rw [h.slots]
    simp only [slotOf_parts]
    exact hslots
  · rw [h.total, totalOf, apartOf_parts, parts, List.map_map]
    rfl

theorem length_entries_le (w : W) : ∀ m ∈ fleet.members, m.2.entries.length ≤ 0xffffffff := by
  intro m hm
  rcases (fleet.honest m hm).keys 0 0 ROWS_SHAPING (by simp) w with
    ⟨reply, _, -, packet, hgood⟩ | ⟨hrows, -⟩
  · have htotal : packet.total < 2 ^ 32 := (decodeKeyPacket_bounds hgood.decodes).1
    have hsame : packet.total = m.2.entries.length := hgood.total
    omega
  · exact (hrows rfl).elim

/-- **The gather serves the page of all rows.** Whatever the partitions carry
inline, and whether they know the shape or not, the slots are rows
`[offset, offset + limit)` of all rows in key order, and the total counts them. -/
theorem runTwoPhase_exact (slack : ℕ → ℕ → ℕ) (sleep : ℕ → W → W) :
    Act.Serves (runTwoPhase fleet.codec slack sleep fleet.clients fleet.opts fleet.shaping)
      fun page => fleet.Exact page ∧
        KeptApart (fleet.members.map fun m => m.2.artless) (fleet.members.map fun m => m.2.shared)
          fleet.apart := by
  have hruns := Act.yields_true.mp (fleet.crew.yields_runTwoPhase slack sleep)
  rw [clients_crew] at hruns
  intro w
  obtain ⟨page, w', hrun, r, hr, -, htells⟩ := hruns w
  obtain rfl : r = fleet.release := hr
  rw [partsOf_crew] at htells
  exact ⟨page, w', hrun, fleet.exact_of_tells htells (fleet.length_entries_le w),
    keptApart_apartRows _ _⟩

end Fleet

/-! ## A fleet of two -/

section Sample

def bitCodec : RowCodec Bool where
  parse bytes :=
    if bytes = [0x30] then .ok false else if bytes = [0x31] then .ok true else .error "SyntaxError"
  parseAll bytes := .ok ((bytes.filter fun b => b = 0x30 ∨ b = 0x31).map fun b => b = 0x31)
  stringify row := if row then [0x31] else [0x30]

def bitShaping : GatherShaping Bool where
  shape := .columns
  baseUrl := ""
  reshape row := [0x5b] ++ bitCodec.stringify row ++ [0x5d]

theorem bitCodec_lawful : bitCodec.Lawful where
  parse_stringify row := by cases row <;> rfl
  parseAll_join rows := by
    have hdigits : ∀ rows : List Bool, (List.intercalate [0x2c] (rows.map bitCodec.stringify)).filter
          (fun b => b = 0x30 ∨ b = 0x31) = rows.map fun row => if row then 0x31 else 0x30 := by
      intro rows
      induction rows with
      | nil => rfl
      | cons row rows ih =>
        cases rows with
        | nil => cases row <;> rfl
        | cons next rows =>
          rw [List.map_cons, List.map_cons, List.intercalate_cons_cons, ← List.map_cons,
            List.filter_append, ih, List.filter_append, List.map_cons]
          cases row <;> rfl
    simp only [bitCodec, joinJsonArray, List.filter_append]
    have hrows := hdigits rows
    simp only [bitCodec] at hrows
    have hback : rows.map ((fun b : UInt8 => decide (b = 0x31)) ∘
        fun row => if row then 0x31 else 0x30) = rows.map id :=
      List.map_congr_left fun row _ => by cases row <;> rfl
    rw [hrows, List.map_append, List.map_append, List.map_map, hback, List.map_id]
    simp

/-- The packet of a partition that carries at most one row inline. -/
def bitPacket (part : Partition Bool) (shape : RowShape) (bound : ℕ) : KeyPacket where
  total := part.entries.length
  entries := part.entries.take bound
  inlineRows := ((part.entries.take bound).take 1).map fun entry =>
    spelled bitCodec bitShaping (some shape) (part.row entry.vpid)
  widened := false
  artless := part.artless
  shared := part.shared

def bitReply (part : Partition Bool) (shape : RowShape) (packed : Bytes) : SearchKeysReply where
  packed := packed
  storeKey := part.storeKey
  sortKeyVersion := 1
  shape := some shape
  acquireMs := none

def bitFrames (part : Partition Bool) (shape : RowShape) (vpids : List ℕ) : FetchRowsReply where
  rowsBytes := encodeRowPacket (vpids.map fun vpid =>
    spelled bitCodec bitShaping (some shape) (part.row vpid))
  shape := some shape

def bitRefusal : String := "unknown row shape \"columns\": expected \"rows\" or \"cards\""

/-- A client of `part`, on a build that knows columns or on one that refuses them. -/
def bitClient (part : Partition Bool) (knows : Bool) : PartitionClient Unit where
  searchKeys opts _ asked := fun w =>
    if knows ∨ asked.shape = .rows then
      match encodeKeyPacket (bitPacket part asked.shape opts.limit) with
      | .ok packed => (.ok (bitReply part asked.shape packed), w)
      | .error e => (.error e, w)
    else (.error bitRefusal, w)
  fetchRows vpids _ _ asked := fun w =>
    if knows ∨ asked.shape = .rows then (.ok (bitFrames part asked.shape vpids), w)
    else (.error bitRefusal, w)
  refresh := none

def bitBuild : Build := { builtAt := "5", sortKeyVersion := 1, widened := false }

def bitOpts : EngineSearchOptions where
  filterTreeJson := "null"
  unique := "art"
  prefer := "default"
  orderby := "name"
  direction := "asc"
  limit := 3
  offset := 1
  fields := []
  includeMultilingual := false

def ReadsBack (packet : KeyPacket) : Prop :=
  ∃ packed, encodeKeyPacket packet = .ok packed ∧ decodeKeyPacket packed = .ok packet

theorem length_spelled_le (shape : Option RowShape) (row : Bool) : (spelled bitCodec bitShaping shape row).length ≤ 3 := by
  cases row <;> rcases shape with _ | _ | _ | _ <;> decide

theorem bitClient_honest {part : Partition Bool} (knows : Bool)
    (hreads : ∀ shape ∈ [RowShape.columns, .rows], ∀ bound, ReadsBack (bitPacket part shape bound)) :
    Honest bitCodec bitShaping bitBuild bitOpts (bitClient part knows) part where
  keys bound inlineRows asked hasked w := by
    have hshape : asked.shape = .columns ∨ asked.shape = .rows := by
      rcases List.mem_cons.mp hasked with rfl | hasked
      · exact .inl rfl
      · exact .inr (by rw [List.mem_singleton.mp hasked]; rfl)
    by_cases hknows : knows = true ∨ asked.shape = .rows
    · left
      obtain ⟨packed, hencode, hdecode⟩ := hreads asked.shape (by simpa using hshape) bound
      refine ⟨bitReply part asked.shape packed, w, ?_, bitPacket part asked.shape bound, ?_⟩
      · simp only [bitClient, if_pos hknows, hencode]
      · exact {
          decodes := hdecode
          total := rfl
          entries := rfl
          inlineRows := ⟨1, rfl⟩
          artless := rfl
          shared := rfl
          widened := rfl
          shape := .inr rfl
          storeKey := rfl
          version := rfl }
    · right
      rw [not_or] at hknows
      have hcolumns : asked.shape = .columns := hshape.resolve_right hknows.2
      refine ⟨hknows.2, bitRefusal, w, by simp only [bitClient, if_neg (not_or.mpr hknows)], ?_⟩
      rw [hcolumns]
      decide +kernel
  rows vpids fields hlimit howned asked hasked w := by
    have hshape : asked.shape = .columns ∨ asked.shape = .rows := by
      rcases List.mem_cons.mp hasked with rfl | hasked
      · exact .inl rfl
      · exact .inr (by rw [List.mem_singleton.mp hasked]; rfl)
    by_cases hknows : knows = true ∨ asked.shape = .rows
    · left
      refine ⟨bitFrames part asked.shape vpids, w, by simp only [bitClient, if_pos hknows], rfl, ?_⟩
      refine decode_encodeRowPacket ?_ ?_
      · have hthree : vpids.length ≤ 3 := hlimit
        rw [List.length_map]
        omega
      · intro row hrow
        obtain ⟨vpid, -, rfl⟩ := List.mem_map.mp hrow
        have hlen := length_spelled_le (some asked.shape) (part.row vpid)
        omega
    · right
      rw [not_or] at hknows
      have hcolumns : asked.shape = .columns := hshape.resolve_right hknows.2
      refine ⟨hknows.2, bitRefusal, w, by simp only [bitClient, if_neg (not_or.mpr hknows)], ?_⟩
      rw [hcolumns]
      decide +kernel

def bitPart0 : Partition Bool where
  entries := [{ key := [1], vpid := 7 }, { key := [3], vpid := 8 }]
  artless := none
  shared := some [{ rank := [9], key := [5], vpid := 4, art := List.replicate 16 0 }]
  row vpid := vpid = 8
  storeKey := "cards-v1-5-p0.store"

def bitPart1 : Partition Bool where
  entries := [{ key := [2], vpid := 5 }]
  artless := some { rank := [8], key := [4], vpid := 6 }
  shared := none
  row vpid := vpid = 5
  storeKey := "cards-v1-5-p1.store"

theorem bitPacket_min (part : Partition Bool) (shape : RowShape) (bound : ℕ) :
    bitPacket part shape bound = bitPacket part shape (min bound part.entries.length) := by
  simp only [bitPacket, ← List.take_eq_take_min]

theorem bitPart0_reads : ∀ shape ∈ [RowShape.columns, .rows], ∀ bound, ReadsBack (bitPacket bitPart0 shape bound) := by
  intro shape hshape bound
  rw [bitPacket_min]
  have hmin : min bound bitPart0.entries.length ≤ 2 := Nat.min_le_right _ _
  generalize min bound bitPart0.entries.length = k at hmin
  simp only [List.mem_cons, List.not_mem_nil, or_false] at hshape
  have hk : k = 0 ∨ k = 1 ∨ k = 2 := by omega
  rcases hshape with rfl | rfl <;> rcases hk with rfl | rfl | rfl <;> exact ⟨_, rfl, rfl⟩

theorem bitPart1_reads : ∀ shape ∈ [RowShape.columns, .rows], ∀ bound, ReadsBack (bitPacket bitPart1 shape bound) := by
  intro shape hshape bound
  rw [bitPacket_min]
  have hmin : min bound bitPart1.entries.length ≤ 1 := Nat.min_le_right _ _
  generalize min bound bitPart1.entries.length = k at hmin
  simp only [List.mem_cons, List.not_mem_nil, or_false] at hshape
  have hk : k = 0 ∨ k = 1 := by omega
  rcases hshape with rfl | rfl <;> rcases hk with rfl | rfl <;> exact ⟨_, rfl, rfl⟩

/-- Two partitions, the second on a build that refuses columns. -/
def bitFleet : Fleet Unit Bool where
  opts := bitOpts
  codec := bitCodec
  shaping := bitShaping
  build := bitBuild
  members := [(bitClient bitPart0 true, bitPart0), (bitClient bitPart1 false, bitPart1)]
  nonempty := by simp
  lawful := bitCodec_lawful
  honest m hm := by
    simp only [List.mem_cons, List.not_mem_nil, or_false] at hm
    rcases hm with rfl | rfl
    · exact bitClient_honest true bitPart0_reads
    · exact bitClient_honest false bitPart1_reads
  builtAt m hm := by
    simp only [List.mem_cons, List.not_mem_nil, or_false] at hm
    rcases hm with rfl | rfl <;> decide +kernel
  sorted m hm := by
    simp only [List.mem_cons, List.not_mem_nil, or_false] at hm
    rcases hm with rfl | rfl <;> decide
  distinct := by decide

/-- Rows 1, 2 and 3 of five, one of them art-less, of two partitions. -/
theorem runTwoPhase_bits :
    Act.Serves (runTwoPhase bitCodec (fun _ _ => 4) (fun _ w => w) bitFleet.clients bitOpts
      bitShaping) fun page => page.total = 5 ∧ page.slots = [[0x5b, 0x31, 0x5d], [0x5b, 0x31, 0x5d],
        [0x5b, 0x30, 0x5d]] := by
  refine (Fleet.runTwoPhase_exact bitFleet (fun _ _ => 4) fun _ w => w).imp ?_
  rintro page ⟨hexact, -⟩
  refine ⟨hexact.total.trans ?_, hexact.slots.trans ?_⟩
  · decide +kernel
  · decide +kernel

end Sample

end Gather
