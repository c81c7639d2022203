-- SUMMARY: The routing filter: hashing keys, sealing them, building the xor-cell structure, and reading it back.
import Sylvan.Data.Float64
import Sylvan.Data.Utf8
import Sylvan.Data.XorCells
import Sylvan.Engine.HashSort
import Sylvan.Engine.NameRun
import Sylvan.Engine.Partition

/-!
# The routing filter

A 3-wise xor retrieval filter from routing keys to a byte: each key touches one cell
of each of three blocks, and its value is the xor of them. It is addressed by two
32-bit hashes of the key, and kept in one value whose header pins it to a build.
-/

namespace RoutingFilter

def ROUTING_FILTER_MAGIC : ℕ := 0x53524632
def ROUTING_FILTER_MAGIC_V1 : ℕ := 0x53524631
def HEADER_BYTES : ℕ := 40
def CELLS_PER_KEY : ℚ := Float64.nearest (123 / 100)
def MAX_SEEDS : ℕ := 10
def CELL_FLOOR : ℚ := 32
def VALUE_MASK : ℕ := 0xff

def ROUTING_FEATURE_NAME_KEYS : ℕ := 1
def ROUTING_FEATURE_NAME_TIERS : ℕ := 2
def ROUTING_FEATURE_NAME_SERVED_PAIRS : ℕ := 4

/-- What the header pins a filter to. The stamp is a number's digits and the hash one
of the names the code knows, so neither opens with a byte-order mark. -/
structure RoutingFilterIdentity where
  builtAt : String
  partitionCount : ℕ
  partitionHash : String
  builtAt_plain : builtAt.toList.head? ≠ some Utf8.BOM
  partitionHash_plain : partitionHash.toList.head? ≠ some Utf8.BOM

/-- The isolate a filter is built in: how large a buffer it can hold, never 4 GiB. -/
structure Host where
  maxBytes : ℕ
  maxBytes_lt : maxBytes < 2 ^ 32

def Host.alloc (host : Host) (bytes : ℕ) : Except String Unit :=
  if bytes ≤ host.maxBytes then .ok () else .error "RangeError: Array buffer allocation failed"

/-! ## Hashing -/

def rotl (k : UInt32) (n : UInt32) : UInt32 := (k <<< n) ||| (k >>> (32 - n))

def scramble (k : UInt32) : UInt32 := rotl (k * 0xcc9e2d51) 15 * 0x1b873593

/-- The whole blocks of four bytes, and the tail after them. -/
def murmurBlocks (h : UInt32) : Bytes → UInt32 × Bytes
  | b0 :: b1 :: b2 :: b3 :: rest =>
    let k := b0.toUInt32 ||| (b1.toUInt32 <<< 8) ||| (b2.toUInt32 <<< 16) ||| (b3.toUInt32 <<< 24)
    murmurBlocks (rotl (h ^^^ scramble k) 13 * 5 + 0xe6546b64) rest
  | tail => (h, tail)

/-- The tail's bytes, in the order its cases fall through. -/
def murmurTail (h : UInt32) : Bytes → UInt32
  | [b0] => h ^^^ scramble b0.toUInt32
  | [b0, b1] => h ^^^ scramble ((b1.toUInt32 <<< 8) ^^^ b0.toUInt32)
  | [b0, b1, b2] =>
    h ^^^ scramble ((b2.toUInt32 <<< 16) ^^^ (b1.toUInt32 <<< 8) ^^^ b0.toUInt32)
  | _ => h

def mix32 (x : UInt32) : UInt32 :=
  let h := x ^^^ (x >>> 16)
  let h := h * 0x85ebca6b
  let h := h ^^^ (h >>> 13)
  let h := h * 0xc2b2ae35
  h ^^^ (h >>> 16)

def murmur32 (bytes : Bytes) (seed : UInt32) : UInt32 :=
  let (h, tail) := murmurBlocks seed bytes
  mix32 (murmurTail h tail ^^^ UInt32.ofNat bytes.length)

def routingHash (key : String) : UInt32 × UInt32 :=
  let bytes := Utf8.encode key
  (murmur32 bytes 0x9747b28c, murmur32 bytes 0x1b873593)

def scaled (seed : UInt32) (factor : ℚ) : UInt32 :=
  Float64.toInt32 (Float64.nearest (Float64.signed seed * factor))

def slotsOf (lo hi seed : UInt32) (blockLength : ℕ) : List ℕ :=
  let r0 := (mix32 (lo ^^^ seed)).toNat % blockLength
  let r1 := (mix32 (hi ^^^ scaled seed 0x9e3779b9)).toNat % blockLength
  let r2 := (mix32 (lo ^^^ hi ^^^ scaled seed 0x85ebca6b)).toNat % blockLength
  [r0, blockLength + r1, 2 * blockLength + r2]

/-! ## Accumulating keys -/

/-- The flags of a key spelled `n?:`, 0 for any other. -/
def keyFlags (key : String) : ℕ :=
  match key.toList with
  | 'n' :: second :: ':' :: _ => nameFlags second
  | _ => 0

/-- The spelling that is hashed: every name spelling hashes as `nm:`. -/
def hashedKey (key : String) : String :=
  match key.toList with
  | 'n' :: second :: ':' :: name =>
    if nameFlags second ≠ 0 ∧ second ≠ 'm' then String.ofList ('n' :: 'm' :: ':' :: name) else key
  | _ => key

structure RoutingKeyAccumulator where
  rows : TypedArray HashedEntry := []
  isSealed : Bool := false

namespace RoutingKeyAccumulator

def addHashed (acc : RoutingKeyAccumulator) (row : HashedEntry) : Except String RoutingKeyAccumulator :=
  if acc.isSealed then .error "routing filter: the accumulator is sealed"
  else .ok { acc with rows := acc.rows ++ [row] }

def rowOf (key : String) (partition : ℕ) : HashedEntry :=
  let hash := routingHash (hashedKey key)
  { lo := hash.1, hi := hash.2, value := UInt8.ofNat partition, flags := keyFlags key }

def add (acc : RoutingKeyAccumulator) (key : String) (partition : ℕ) : Except String RoutingKeyAccumulator :=
  acc.addHashed (rowOf key partition)

end RoutingKeyAccumulator

/-! ## Sealing -/

/-- A distinct key of the sealed columns. -/
structure SealedKey where
  lo : UInt32
  hi : UInt32
  value : UInt8
deriving DecidableEq, Inhabited

structure SealedRoutingKeys where
  keys : List SealedKey
  nameKeys : ℕ

structure SealOptions where
  partitionCount : Option ℕ
  tiers : Bool := false
  pairs : Bool := false

/-- The rows compacted so far, the run being folded apart from them. -/
structure Sealing where
  closed : List SealedKey := []
  current : Option SealedKey := none
  runName : Bool := false
  run : NameRun := {}
  nameKeys : ℕ := 0

def isNameFlag (flags : ℕ) : Bool := flags &&& FLAG_NAME ≠ 0

def Sealing.closeRun (s : Sealing) (options : SealOptions) : Except String Sealing :=
  match s.current with
  | none => .ok s
  | some row =>
    if s.runName then
      match options.partitionCount with
      | none => .error "routing filter: name keys need the partition count to seal"
      | some n =>
        let value := UInt8.ofInt (s.run.value n options.tiers options.pairs)
        .ok { s with
          closed := s.closed ++ [{ row with value := value }]
          current := none
          nameKeys := s.nameKeys + 1 }
    else .ok { s with closed := s.closed ++ [row], current := none }

def Sealing.fold (options : SealOptions) (s : Sealing) (e : HashedEntry) : Except String Sealing :=
  let opened : Except String Sealing := do
    let s ← s.closeRun options
    return { s with
      current := some ⟨e.lo, e.hi, e.value⟩
      runName := isNameFlag e.flags
      run := NameRun.note {} e.value.toNat e.flags }
  match s.current with
  | none => opened
  | some row =>
    if row.lo = e.lo ∧ row.hi = e.hi then
      .ok { s with
        current := some (if e.value < row.value then { row with value := e.value } else row)
        runName := s.runName || isNameFlag e.flags
        run := s.run.note e.value.toNat e.flags }
    else opened

def RoutingKeyAccumulator.seal (acc : RoutingKeyAccumulator) (host : Host) (options : SealOptions) :
    Except String (SealedRoutingKeys × RoutingKeyAccumulator) := do
  if acc.isSealed then throw "routing filter: the accumulator is already sealed"
  if options.pairs ∧ (!options.tiers ∨ !(options.partitionCount.any servedPairsFit)) then
    throw ("routing filter: served pairs need a tiered seal at a partition count they fit (got " ++
      (options.partitionCount.map toString).getD "undefined" ++ ", tiers " ++
      toString options.tiers ++ ")")
  let sorted := HashSort.sortByHash acc.rows acc.rows.length
  let folded ← sorted.foldlM (Sealing.fold options) {}
  let folded ← folded.closeRun options
  host.alloc (folded.closed.length * 4)
  return (⟨folded.closed, folded.nameKeys⟩, ⟨[], true⟩)

/-! ## Peeling -/

/-- For each cell, how many keys it holds and the xor of their indices. -/
structure Scratch where
  count : TypedArray ℕ
  xorIdx : TypedArray ℕ

def SKIPPED : ℕ := 0xffffffff

/-- Count key `i` into its cells; `none` when a cell's counter is at its cap. -/
def Scratch.count3 (cap : ℕ) (s : Scratch) (i : ℕ) (touched : List ℕ) : Option Scratch :=
  if touched.any fun r => s.count.read r = cap then none
  else
    some (touched.foldl (fun s r =>
      { count := s.count.write r (s.count.read r + 1)
        xorIdx := s.xorIdx.write r (s.xorIdx.read r ^^^ i) }) s)

/-- Take key `i` out of its cell `r` unless that is its own, queueing the cell if one
key is left in it. -/
def Scratch.leave (own i : ℕ) (s : Scratch × List ℕ) (r : ℕ) : Scratch × List ℕ :=
  if r = own then s
  else
    let c := s.1.count.read r - 1
    ({ count := s.1.count.write r c, xorIdx := s.1.xorIdx.write r (s.1.xorIdx.read r ^^^ i) },
      if c = 1 then s.2 ++ [r] else s.2)

theorem Scratch.leave_size (own i : ℕ) (s : Scratch × List ℕ) (r : ℕ) :
    (Scratch.leave own i s r).1.count.sum + (Scratch.leave own i s r).2.length ≤ s.1.count.sum + s.2.length := by
  rw [Scratch.leave]
  split_ifs with hown
  · exact le_rfl
  · by_cases hr : r < s.1.count.length
    · have hsum := TypedArray.sum_write s.1.count hr (s.1.count.read r - 1)
      simp only
      split_ifs with hone
      · rw [List.length_append, List.length_singleton]
        omega
      · omega
    · have hzero : s.1.count.read r = 0 := TypedArray.read_of_le (Nat.le_of_not_lt hr)
      simp [hzero, TypedArray.write_of_le (Nat.le_of_not_lt hr)]

theorem Scratch.foldl_leave_size (own i : ℕ) (touched : List ℕ) (s : Scratch × List ℕ) :
    (touched.foldl (Scratch.leave own i) s).1.count.sum +
      (touched.foldl (Scratch.leave own i) s).2.length ≤ s.1.count.sum + s.2.length := by
  induction touched generalizing s with
  | nil => exact le_rfl
  | cons r touched ih => exact (ih _).trans (Scratch.leave_size own i s r)

/-- Pop the queue to its end. `popped` is the queue's entries so far, the last first:
a peeled key's own cell, or SKIPPED. -/
def peelLoop (slots : ℕ → List ℕ) (s : Scratch) (peeled : ℕ) (popped : List ℕ) : List ℕ → Scratch × ℕ × List ℕ
  | [] => (s, peeled, popped)
  | slot :: pending =>
    if s.count.read slot ≠ 1 then peelLoop slots s peeled (SKIPPED :: popped) pending
    else
      let i := s.xorIdx.read slot
      let left := (slots i).foldl (Scratch.leave slot i) (s, [])
      peelLoop slots left.1 (peeled + 1) (slot :: popped) (pending ++ left.2)
termination_by pending => s.count.sum + pending.length
decreasing_by
  · rw [List.length_cons]
    omega
  · have hsize := Scratch.foldl_leave_size slot (s.xorIdx.read slot)
      (slots (s.xorIdx.read slot)) (s, [])
    rw [List.length_cons, List.length_append]
    simp only [List.length_nil] at hsize
    omega

inductive Peeled where
  | overflow
  | failed
  | peeled (queue : List ℕ) (xorIdx : TypedArray ℕ)

/-- One peeling attempt: `n` keys, `cells` cells, counters that hold up to `cap`. -/
def peel (slots : ℕ → List ℕ) (n cells cap : ℕ) : Peeled :=
  let zeros : Scratch := ⟨List.replicate cells 0, List.replicate cells 0⟩
  match (List.range n).foldlM (fun s i => s.count3 cap i (slots i)) zeros with
  | none => .overflow
  | some s =>
    let queue := (List.range cells).filter fun slot => s.count.read slot = 1
    let run := peelLoop slots s 0 [] queue
    if run.2.1 = n then .peeled run.2.2 run.1.xorIdx else .failed

/-! ## Building -/

/-- `(0x9e3779b9 + attempt * 0x7feb352d) | 0`. -/
def seedOf (attempt : ℕ) : UInt32 := UInt32.ofNat (0x9e3779b9 + attempt * 0x7feb352d)

/-- The cells of one block. The floor is what makes small key sets peelable. -/
def blockLengthOf (n : ℕ) : ℕ :=
  let perBlock := Float64.nearest
    (Float64.nearest (Float64.nearest (CELLS_PER_KEY * n) + CELL_FLOOR) / 3)
  max 4 ⌈perBlock⌉.toNat

/-- The cells of key `i` under `seed`. -/
def keySlots (keys : List SealedKey) (seed : UInt32) (blockLength i : ℕ) : List ℕ :=
  let key := keys.getD i default
  slotsOf key.lo key.hi seed blockLength

/-- Try the seeds in turn. A counter that overflowed is a wide one from then on. -/
def trySeeds (host : Host) (keys : List SealedKey) (blockLength cap : ℕ) :
    List ℕ → Except String (UInt32 × List ℕ × TypedArray ℕ)
  | [] => .error ("routing filter: 3-wise peeling failed for " ++ toString keys.length ++
      " keys under " ++ toString MAX_SEEDS ++ " seeds")
  | attempt :: rest =>
    let seed := seedOf attempt
    let slots := keySlots keys seed blockLength
    let cells := blockLength * 3
    match peel slots keys.length cells cap with
    | .peeled queue xorIdx => .ok (seed, queue, xorIdx)
    | .failed => trySeeds host keys blockLength cap rest
    | .overflow => do
      host.alloc (4 * cells)
      match peel slots keys.length cells 0xffffffff with
      | .peeled queue xorIdx => return (seed, queue, xorIdx)
      | _ => trySeeds host keys blockLength 0xffffffff rest

/-- Replay one queue entry: the key's own cell absorbs the xor of its other two. -/
def assignCell (slots : ℕ → List ℕ) (xorIdx : TypedArray ℕ) (keys : List SealedKey)
    (cells : TypedArray UInt8) (own : ℕ) : TypedArray UInt8 :=
  if own = SKIPPED then cells
  else
    let i := xorIdx.read own
    cells.write own (XorCells.absorbed cells (slots i) own (keys.getD i default).value)

def header (seed blockLength keyCount hashLength builtAtLength features : ℕ)
    (identity : RoutingFilterIdentity) : Bytes :=
  (Bytes.ofNatLE 4 ROUTING_FILTER_MAGIC).reverse ++ Bytes.ofNatLE 4 seed ++
    Bytes.ofNatLE 4 blockLength ++ Bytes.ofNatLE 4 keyCount ++
    Bytes.ofNatLE 4 identity.partitionCount ++ Bytes.ofNatLE 4 hashLength ++
    Bytes.ofNatLE 4 builtAtLength ++ Bytes.ofNatLE 4 features ++ List.replicate 8 0

/-- Build the filter from sealed keys. It throws when no seed peels: no filter is
published rather than a broken one. -/
def buildRoutingFilterFromHashes (host : Host) (keys : List SealedKey)
    (identity : RoutingFilterIdentity) (features : ℕ) : Except String Bytes := do
  if VALUE_MASK < identity.partitionCount then
    throw ("routing filter: partition_count " ++ toString identity.partitionCount ++
      " does not fit " ++ toString VALUE_MASK ++ " distinct 8-bit values")
  let n := keys.length
  let blockLength := blockLengthOf n
  let cells := blockLength * 3
  let hashBytes := Utf8.encode identity.partitionHash
  let builtAtBytes := Utf8.encode identity.builtAt
  host.alloc (HEADER_BYTES + hashBytes.length + builtAtBytes.length + cells)
  host.alloc (4 * cells)
  let (seed, queue, xorIdx) ← trySeeds host keys blockLength 0xff (List.range MAX_SEEDS)
  let values := queue.foldl (assignCell (keySlots keys seed blockLength) xorIdx keys)
    (List.replicate cells 0)
  return header seed.toNat blockLength n hashBytes.length builtAtBytes.length features identity ++
    hashBytes ++ builtAtBytes ++ values

/-! ## Reading -/

structure Filter where
  cells : Bytes
  cellsAt : ℕ
  seed : UInt32
  blockLength : ℕ
  keyCount : ℕ
  partitionCount : ℕ
  nibbles : Bool
  features : ℕ

/-- `n >> 1`, of 32 bits. -/
def halved (n : ℕ) : ℤ := Float64.signed (UInt32.ofNat n) / 2

def parse (bytes : Bytes) (expect : RoutingFilterIdentity) : Except String Filter := do
  if bytes.length < HEADER_BYTES then throw ("only " ++ toString bytes.length ++ " bytes")
  let u32 := fun pos => Bytes.toNatLE (bytes.subarray pos (pos + 4))
  let magic := Bytes.toNatLE (bytes.subarray 0 4).reverse
  if magic ≠ ROUTING_FILTER_MAGIC ∧ magic ≠ ROUTING_FILTER_MAGIC_V1 then throw "bad magic"
  let nibbles := magic = ROUTING_FILTER_MAGIC_V1
  let blockLength := u32 8
  let partitionCount := u32 16
  let hashLen := u32 20
  let builtAtLen := u32 24
  let cellsAt := HEADER_BYTES + hashLen + builtAtLen
  let packedCells : ℤ := if nibbles then halved (blockLength * 3 + 1) else blockLength * 3
  if (bytes.length : ℤ) ≠ cellsAt + packedCells then
    throw ("length " ++ toString bytes.length ++ " != header " ++ toString cellsAt ++ " + cells " ++ toString packedCells)
  let partitionHash := Utf8.decode (bytes.subarray HEADER_BYTES (HEADER_BYTES + hashLen))
  let builtAt := Utf8.decode (bytes.subarray (HEADER_BYTES + hashLen) cellsAt)
  if partitionCount ≠ expect.partitionCount then
    throw ("partition_count " ++ toString partitionCount ++ " != manifest " ++ toString expect.partitionCount)
  if partitionHash ≠ expect.partitionHash then
    throw ("partition_hash " ++ partitionHash ++ " != manifest " ++ expect.partitionHash)
  if builtAt ≠ expect.builtAt then
    throw ("built_at " ++ builtAt ++ " != manifest " ++ expect.builtAt)
  return {
    cells := bytes
    cellsAt := cellsAt
    seed := UInt32.ofNat (u32 4)
    blockLength := blockLength
    keyCount := u32 12
    partitionCount := partitionCount
    nibbles := nibbles
    features := if nibbles then 0 else u32 28 }

namespace Filter

def cellAt (filter : Filter) (slot : ℕ) : UInt8 :=
  if !filter.nibbles then TypedArray.read filter.cells (filter.cellsAt + slot)
  else
    let index := filter.cellsAt + halved slot
    let byte := if index < 0 then 0 else TypedArray.read filter.cells index.toNat
    if slot &&& 1 = 0 then byte &&& 0xf else (byte >>> 4) &&& 0xf

def valueOf (filter : Filter) (key : String) : ℕ :=
  let hash := routingHash key
  let slots := slotsOf hash.1 hash.2 filter.seed filter.blockLength
  ((slots.map filter.cellAt).foldr (· ^^^ ·) 0).toNat

def lookup (filter : Filter) (key : String) : Option ℕ :=
  let value := filter.valueOf key
  if value < filter.partitionCount then some value else none

def hasNameKeys (filter : Filter) : Bool := filter.features &&& ROUTING_FEATURE_NAME_KEYS ≠ 0

/-- The pair at `index` among the pairs of `[0, n)`, from the pairs of `a` on. -/
def servedPairFrom (n : ℕ) : ℕ → ℕ → ℕ → Option (ℤ × ℤ)
  | 0, _, _ => none
  | left + 1, a, index =>
    let span := n - 1 - a
    if index < span then some (a, a + 1 + index) else servedPairFrom n left (a + 1) (index - span)

def servedPairAt (index n : ℕ) : Option (ℤ × ℤ) := servedPairFrom n (n - 1) 0 index

/-- What the filter says of a name, a name served in exactly two partitions too. -/
def lookupNamePlacement (filter : Filter) (key : String) : Option NamePlacement :=
  if !filter.hasNameKeys then none
  else
    let value := filter.valueOf key
    let n := filter.partitionCount
    if value < n then some (.hint (.sole value))
    else if value = NAME_AMBIGUOUS then none
    else if filter.features &&& ROUTING_FEATURE_NAME_TIERS ≠ 0 then
      if pairBase n ≤ value then
        if filter.features &&& ROUTING_FEATURE_NAME_SERVED_PAIRS = 0 ∨ !servedPairsFit n then none
        else (servedPairAt (value - pairBase n) n).map fun pair => .servedPair pair.1 pair.2
      else
        let at' := value - n
        some (.hint (.served ↑(at' / NAME_RIVALS) (some (at' % NAME_RIVALS)) none))
    else if value < 2 * n then some (.hint (.served ↑(value - n) none none))
    else none

def lookupName (filter : Filter) (key : String) : Option NameHint :=
  match filter.lookupNamePlacement key with
  | some (.hint hint) => some hint
  | _ => none

end Filter

end RoutingFilter
