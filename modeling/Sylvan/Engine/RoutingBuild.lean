-- SUMMARY: Built filters: the bytes of a build are accepted under its identity, and every sealed key reads its value.
import Sylvan.Data.Throws
import Sylvan.Engine.RoutingPeel

/-!
# Built filters

The cells of a peeled build hold, for every sealed key, cells that xor to its value.
Its header is read back as it was written, so the reader computes the same cells.
-/

namespace RoutingFilter

open Bytes Utf8

/-! ## Cells of a key -/

theorem slotsOf_lt {blockLength : ℕ} (h : 0 < blockLength) (lo hi seed : UInt32) :
    ∀ r ∈ slotsOf lo hi seed blockLength, r < blockLength * 3 := by
  intro r hr
  simp only [slotsOf, List.mem_cons, List.not_mem_nil, or_false] at hr
  rcases hr with rfl | rfl | rfl
  · exact (Nat.mod_lt _ h).trans_le (by omega)
  · have hlt := Nat.mod_lt (mix32 (hi ^^^ scaled seed 0x9e3779b9)).toNat h
    omega
  · have hlt := Nat.mod_lt (mix32 (lo ^^^ hi ^^^ scaled seed 0x85ebca6b)).toNat h
    omega

theorem slotsOf_nodup {blockLength : ℕ} (h : 0 < blockLength) (lo hi seed : UInt32) :
    (slotsOf lo hi seed blockLength).Nodup := by
  have h0 := Nat.mod_lt (mix32 (lo ^^^ seed)).toNat h
  have h1 := Nat.mod_lt (mix32 (hi ^^^ scaled seed 0x9e3779b9)).toNat h
  simp only [slotsOf, List.nodup_cons, List.mem_cons, List.not_mem_nil, or_false, not_or,
    not_false_eq_true, List.nodup_nil, and_true]
  omega

theorem blockLengthOf_pos (n : ℕ) : 0 < blockLengthOf n :=
  (show 0 < 4 by decide).trans_le (le_max_left _ _)

/-! ## Cells of a build -/

section Cells

variable {slots : ℕ → List ℕ} {xorIdx : TypedArray ℕ} {keys : List SealedKey}
  {placed : List (ℕ × ℕ)}

theorem foldl_assignCell {queue : List ℕ}
    (hqueue : queue.filter (· ≠ SKIPPED) = placed.map (·.1))
    (hread : ∀ e ∈ placed, xorIdx.read e.1 = e.2) (cells : TypedArray UInt8) :
    queue.foldl (assignCell slots xorIdx keys) cells =
      XorCells.assign slots (fun i => (keys.getD i default).value) placed cells := by
  induction queue generalizing placed cells with
  | nil =>
    have hnil : placed = [] := List.map_eq_nil_iff.mp hqueue.symm
    subst hnil
    rfl
  | cons own queue ih =>
    rw [List.foldl_cons]
    by_cases hskip : own = SKIPPED
    · rw [List.filter_cons_of_neg (by simp [hskip])] at hqueue
      rw [assignCell, if_pos hskip]
      exact ih hqueue hread cells
    · rw [List.filter_cons_of_pos (by simp [hskip])] at hqueue
      cases placed with
      | nil => cases hqueue
      | cons e placed =>
        rw [List.map_cons, List.cons.injEq] at hqueue
        obtain ⟨rfl, hqueue⟩ := hqueue
        rw [assignCell, if_neg hskip, hread e List.mem_cons_self]
        exact ih hqueue (fun e' he' => hread e' (List.mem_cons_of_mem e he')) _

theorem trySeeds_spec {host : Host} {blockLength cap : ℕ} {attempts : List ℕ} {seed : UInt32}
    {queue : List ℕ} (h : trySeeds host keys blockLength cap attempts = .ok (seed, queue, xorIdx)) :
    ∃ cap, peel (keySlots keys seed blockLength) keys.length (blockLength * 3) cap = .peeled queue xorIdx := by
  induction attempts generalizing cap with
  | nil => cases h
  | cons attempt rest ih =>
    rw [trySeeds] at h
    split at h
    · rename_i hpeel
      cases h
      exact ⟨cap, hpeel⟩
    · exact ih h
    · obtain ⟨-, -, h⟩ := Throws.ok_of_bind h
      split at h
      · rename_i hpeel
        cases h
        exact ⟨_, hpeel⟩
      · exact ih h

theorem assigned_reads {blockLength cap : ℕ} {seed : UInt32} {queue : List ℕ}
    (hblock : 0 < blockLength) (hcells : blockLength * 3 ≤ SKIPPED)
    (h : peel (keySlots keys seed blockLength) keys.length (blockLength * 3) cap = .peeled queue xorIdx) :
    ∀ key ∈ keys, XorCells.xorAt
      (queue.foldl (assignCell (keySlots keys seed blockLength) xorIdx keys)
        (List.replicate (blockLength * 3) 0))
      (slotsOf key.lo key.hi seed blockLength) = key.value := by
  have hnodup : ∀ i, (keySlots keys seed blockLength i).Nodup := fun i => slotsOf_nodup hblock _ _ _
  have hlt : ∀ i, ∀ r ∈ keySlots keys seed blockLength i, r < blockLength * 3 :=
    fun i => slotsOf_lt hblock _ _ _
  obtain ⟨placed, hpeels, hqueue, hkeys, hplaced⟩ :=
    peel_spec (fun i _ => hnodup i) (fun i _ => hlt i) hcells h
  intro key hkey
  obtain ⟨i, hi, rfl⟩ := List.mem_iff_getElem.mp hkey
  have hmem : i ∈ placed.map (·.2) := hkeys.symm.subset (List.mem_range.mpr hi)
  obtain ⟨e, he, rfl⟩ := List.mem_map.mp hmem
  rw [foldl_assignCell hqueue fun e he => (hplaced e he).2]
  have hkey : keys.getD e.2 default = keys[e.2] := by simp [hi]
  have hread : XorCells.xorAt (XorCells.assign (keySlots keys seed blockLength)
        (fun i => (keys.getD i default).value) placed (List.replicate (blockLength * 3) 0))
      (keySlots keys seed blockLength e.2) = (keys.getD e.2 default).value :=
    XorCells.xorAt_assign hpeels (fun e _ => hnodup e.2) (fun e he => by
      rw [List.length_replicate]
      exact (hplaced e he).1) e he
  rw [hkey, keySlots, hkey] at hread
  exact hread

theorem length_foldl_assignCell (slots : ℕ → List ℕ) (queue : List ℕ) (cells : TypedArray UInt8) :
    (queue.foldl (assignCell slots xorIdx keys) cells).length = cells.length := by
  induction queue generalizing cells with
  | nil => rfl
  | cons own queue ih =>
    rw [List.foldl_cons, ih, assignCell]
    split_ifs
    · rfl
    · exact TypedArray.length_write ..

end Cells

/-! ## The header -/

def headerWords (seed blockLength keyCount hashLength builtAtLength features : ℕ)
    (identity : RoutingFilterIdentity) : List ℕ :=
  [0x32465253, seed, blockLength, keyCount, identity.partitionCount, hashLength, builtAtLength, features, 0, 0]

theorem header_eq (seed blockLength keyCount hashLength builtAtLength features : ℕ)
    (identity : RoutingFilterIdentity) :
    header seed blockLength keyCount hashLength builtAtLength features identity =
      (headerWords seed blockLength keyCount hashLength builtAtLength features identity).flatMap
        (ofNatLE 4) := by
  have hmagic : (ofNatLE 4 ROUTING_FILTER_MAGIC).reverse = ofNatLE 4 0x32465253 := by
    decide
  have hreserved : List.replicate 8 0 = ofNatLE 4 0 ++ ofNatLE 4 0 := by decide
  simp only [header, headerWords, hmagic, hreserved, List.flatMap_cons, List.flatMap_nil, List.append_nil, List.append_assoc]

theorem length_header (seed blockLength keyCount hashLength builtAtLength features : ℕ)
    (identity : RoutingFilterIdentity) :
    (header seed blockLength keyCount hashLength builtAtLength features identity).length = HEADER_BYTES := by
  simp [header, HEADER_BYTES]

theorem subarray_words {words : List ℕ} {i w : ℕ} (h : words[i]? = some w) (rest : Bytes) :
    subarray (words.flatMap (ofNatLE 4) ++ rest) (4 * i) (4 * i + 4) = ofNatLE 4 w := by
  induction words generalizing i with
  | nil => cases h
  | cons word words ih =>
    rw [List.flatMap_cons, List.append_assoc]
    cases i with
    | zero =>
      cases h
      simp [subarray]
    | succ i =>
      have hdrop : List.drop (4 * (i + 1)) (ofNatLE 4 word ++ (words.flatMap (ofNatLE 4) ++ rest)) =
          List.drop (4 * i) (words.flatMap (ofNatLE 4) ++ rest) := by
        have hlength : 4 * (i + 1) = (ofNatLE 4 word).length + 4 * i := by
          rw [length_ofNatLE]
          omega
        rw [hlength, List.drop_length_add_append]
      have hword := ih h
      rw [subarray, Nat.add_sub_cancel_left] at hword ⊢
      rw [hdrop]
      exact hword

theorem subarray_append {front field rest : Bytes} {start stop : ℕ} (hstart : front.length = start)
    (hstop : start + field.length = stop) :
    subarray (front ++ (field ++ rest)) start stop = field := by
  subst hstart hstop
  simp [subarray]

/-! ## Reading a build back -/

section Build

variable {host : Host} {keys : List SealedKey} {identity : RoutingFilterIdentity}
  {features : ℕ} {bytes : Bytes}

/-- The bytes of a build under `seed` that ends in the cells `values`. -/
def layout (keys : List SealedKey) (identity : RoutingFilterIdentity) (features : ℕ)
    (seed : UInt32) (values : TypedArray UInt8) : Bytes :=
  header seed.toNat (blockLengthOf keys.length) keys.length
      (encode identity.partitionHash).length (encode identity.builtAt).length features
      identity ++
    (encode identity.partitionHash ++ (encode identity.builtAt ++ values))

def cellsAtOf (identity : RoutingFilterIdentity) : ℕ :=
  HEADER_BYTES + (encode identity.partitionHash).length + (encode identity.builtAt).length

theorem alloc_ok {n : ℕ} {u : Unit} (h : host.alloc n = .ok u) : n < 2 ^ 32 := by
  unfold Host.alloc at h
  split_ifs at h with hfits
  exact hfits.trans_lt host.maxBytes_lt

theorem build_spec (h : buildRoutingFilterFromHashes host keys identity features = .ok bytes) :
    ∃ seed values, bytes = layout keys identity features seed values ∧ identity.partitionCount ≤ VALUE_MASK ∧
      values.length = blockLengthOf keys.length * 3 ∧
      cellsAtOf identity + blockLengthOf keys.length * 3 < 2 ^ 32 ∧
      ∀ key ∈ keys, XorCells.xorAt values
        (slotsOf key.lo key.hi seed (blockLengthOf keys.length)) = key.value := by
  unfold buildRoutingFilterFromHashes at h
  simp only at h
  split_ifs at h with hmask
  · cases h
  obtain ⟨u, hout, h⟩ := Throws.ok_of_bind h
  obtain ⟨u', hscratch, h⟩ := Throws.ok_of_bind h
  obtain ⟨⟨seed, queue, xorIdx⟩, htried, h⟩ := Throws.ok_of_bind h
  cases h
  have hbytes := alloc_ok hout
  have hcells := alloc_ok hscratch
  obtain ⟨cap, hpeel⟩ := trySeeds_spec htried
  refine ⟨seed, _, ?_, ?_, ?_, hbytes, assigned_reads (blockLengthOf_pos _) ?_ hpeel⟩
  · rw [layout, List.append_assoc, List.append_assoc]
  · exact Nat.not_lt.mp hmask
  · rw [length_foldl_assignCell, List.length_replicate]
  · rw [SKIPPED]
    omega

theorem parse_layout {seed : UInt32} {values : TypedArray UInt8}
    (hmask : identity.partitionCount ≤ VALUE_MASK)
    (hvalues : values.length = blockLengthOf keys.length * 3)
    (hfits : cellsAtOf identity + blockLengthOf keys.length * 3 < 2 ^ 32) :
    parse (layout keys identity features seed values) identity = .ok
      { cells := layout keys identity features seed values
        cellsAt := cellsAtOf identity
        seed := seed
        blockLength := blockLengthOf keys.length
        keyCount := keys.length % 2 ^ 32
        partitionCount := identity.partitionCount
        nibbles := false
        features := features % 2 ^ 32 } := by
  have hwords : ∀ {i w : ℕ}, (headerWords seed.toNat (blockLengthOf keys.length) keys.length
        (encode identity.partitionHash).length (encode identity.builtAt).length features
        identity)[i]? = some w →
      subarray (layout keys identity features seed values) (4 * i) (4 * i + 4) = ofNatLE 4 w := by
    intro i w hw
    rw [layout, header_eq]
    exact subarray_words hw _
  have hword : ∀ {i w : ℕ}, (headerWords seed.toNat (blockLengthOf keys.length) keys.length
        (encode identity.partitionHash).length (encode identity.builtAt).length features
        identity)[i]? = some w →
      toNatLE (subarray (layout keys identity features seed values) (4 * i) (4 * i + 4)) = w % 2 ^ 32 := by
    intro i w hw
    rw [hwords hw, toNatLE_ofNatLE]
    rfl
  have hlength : (layout keys identity features seed values).length =
      cellsAtOf identity + blockLengthOf keys.length * 3 := by
    simp only [layout, List.length_append, length_header, hvalues, cellsAtOf]
    omega
  have hhash : subarray (layout keys identity features seed values) HEADER_BYTES
      (HEADER_BYTES + (encode identity.partitionHash).length) =
      encode identity.partitionHash := subarray_append (length_header ..) rfl
  have hbuiltAt : subarray (layout keys identity features seed values)
      (HEADER_BYTES + (encode identity.partitionHash).length) (cellsAtOf identity) =
      encode identity.builtAt := by
    rw [layout, ← List.append_assoc]
    exact subarray_append (by rw [List.length_append, length_header]) rfl
  have hmagic : toNatLE (subarray (layout keys identity features seed values) 0 4).reverse = ROUTING_FILTER_MAGIC := by
    rw [hwords (i := 0) rfl]
    decide
  have hseed : toNatLE (subarray (layout keys identity features seed values) 4 (4 + 4)) =
      seed.toNat := (hword (i := 1) rfl).trans (Nat.mod_eq_of_lt seed.toNat_lt)
  have hblock : toNatLE (subarray (layout keys identity features seed values) 8 (8 + 4)) =
      blockLengthOf keys.length := (hword (i := 2) rfl).trans (Nat.mod_eq_of_lt (by omega))
  have hkeys : toNatLE (subarray (layout keys identity features seed values) 12 (12 + 4)) =
      keys.length % 2 ^ 32 := hword (i := 3) rfl
  have hpartitions : toNatLE (subarray (layout keys identity features seed values) 16
      (16 + 4)) = identity.partitionCount := by
    rw [VALUE_MASK] at hmask
    exact (hword (i := 4) rfl).trans (Nat.mod_eq_of_lt (by omega))
  have hfits' := hfits
  rw [cellsAtOf] at hfits'
  have hhashLength : toNatLE (subarray (layout keys identity features seed values) 20
      (20 + 4)) = (encode identity.partitionHash).length :=
    (hword (i := 5) rfl).trans (Nat.mod_eq_of_lt (by omega))
  have hbuiltLength : toNatLE (subarray (layout keys identity features seed values) 24
      (24 + 4)) = (encode identity.builtAt).length :=
    (hword (i := 6) rfl).trans (Nat.mod_eq_of_lt (by omega))
  have hfeatures : toNatLE (subarray (layout keys identity features seed values) 28
      (28 + 4)) = features % 2 ^ 32 := hword (i := 7) rfl
  have hshort : ¬ cellsAtOf identity + blockLengthOf keys.length * 3 < HEADER_BYTES := by
    rw [cellsAtOf]
    omega
  have hcellsAt : HEADER_BYTES + (encode identity.partitionHash).length +
      (encode identity.builtAt).length = cellsAtOf identity := rfl
  have hpacked : ((cellsAtOf identity + blockLengthOf keys.length * 3 : ℕ) : ℤ) =
      cellsAtOf identity + blockLengthOf keys.length * 3 := by
    push_cast
    rfl
  have hnibbles : ROUTING_FILTER_MAGIC ≠ ROUTING_FILTER_MAGIC_V1 := by decide
  unfold parse
  simp only [hmagic, hseed, hblock, hkeys, hpartitions, hhashLength, hbuiltLength, hfeatures,
    hcellsAt, hhash, hbuiltAt, hnibbles, decode_encode identity.partitionHash_plain,
    decode_encode identity.builtAt_plain, hlength, hshort, hpacked, ne_eq, not_true_eq_false,
    false_and, if_false, UInt32.ofNat_toNat]
  rfl

/-- **A built filter is accepted under its identity, and every sealed key reads its
value.** -/
theorem exists_filter_of_build (h : buildRoutingFilterFromHashes host keys identity features = .ok bytes) :
    ∃ filter, parse bytes identity = .ok filter ∧
      filter.partitionCount = identity.partitionCount ∧ identity.partitionCount ≤ VALUE_MASK ∧
      filter.features = features % 2 ^ 32 ∧
      ∀ key : String, ∀ row ∈ keys, routingHash key = (row.lo, row.hi) → filter.valueOf key = row.value.toNat := by
  obtain ⟨seed, values, rfl, hmask, hvalues, hfits, hreads⟩ := build_spec h
  refine ⟨_, parse_layout hmask hvalues hfits, rfl, hmask, rfl, fun key row hrow hhash => ?_⟩
  have hcell : ∀ slot, TypedArray.read (layout keys identity features seed values)
      (cellsAtOf identity + slot) = TypedArray.read values slot := by
    intro slot
    have hfront : layout keys identity features seed values = (header seed.toNat (blockLengthOf keys.length) keys.length
            (encode identity.partitionHash).length (encode identity.builtAt).length features
            identity ++ encode identity.partitionHash ++ encode identity.builtAt) ++ values := by
      rw [layout, List.append_assoc, List.append_assoc]
    have hlength : cellsAtOf identity = (header seed.toNat (blockLengthOf keys.length) keys.length
        (encode identity.partitionHash).length (encode identity.builtAt).length features
        identity ++ encode identity.partitionHash ++ encode identity.builtAt).length := by
      rw [List.length_append, List.length_append, length_header, cellsAtOf]
    rw [hfront, hlength, TypedArray.read, TypedArray.read, List.getD_eq_getElem?_getD,
      List.getElem?_append_right (Nat.le_add_right _ _), Nat.add_sub_cancel_left,
      List.getD_eq_getElem?_getD]
  rw [← hreads row hrow, Filter.valueOf, hhash, XorCells.xorAt]
  refine congrArg UInt8.toNat (congrArg (List.foldr (· ^^^ ·) 0) (List.map_congr_left fun slot _ => ?_))
  exact hcell slot

end Build

end RoutingFilter