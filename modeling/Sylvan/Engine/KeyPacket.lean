-- SUMMARY: The phase-1 key packet and the phase-2 row packet of the gather, and their decoders.
import Sylvan.Data.Bytes
import Sylvan.Data.Throws

/-!
# Gather packets

A partition answers phase 1 with a packet of sort keys, the rows of a prefix of
them, and its candidates for the rows a `unique=art` answer keeps apart. The
decoders read a packet front to back; where the source holds a cursor into the
packet, these hold what is left of it.
-/

namespace Gather

open Throws

/-- One phase-1 entry: an opaque sort key and the virtual printing id owning it. -/
structure KeyEntry where
  key : Bytes
  vpid : ℕ
  deriving DecidableEq

def KEY_PACKET_VERSION : ℕ := 3
def KEY_PACKET_FLAG_WIDENED : ℕ := 1
def KEY_PACKET_FLAG_ARTLESS : ℕ := 2
def KEY_PACKET_FLAG_SHARED : ℕ := 4

/-- A candidate for the one row every art-less printing collapses into. -/
structure ArtlessCandidate where
  rank : Bytes
  key : Bytes
  vpid : ℕ
  deriving DecidableEq

/-- A candidate for the one row of an artwork several cards share. -/
structure SharedCandidate extends ArtlessCandidate where
  art : Bytes
  deriving DecidableEq

/-- A partition's phase-1 reply, decoded. -/
structure KeyPacket where
  total : ℕ
  entries : List KeyEntry
  inlineRows : List Bytes
  widened : Bool
  artless : Option ArtlessCandidate
  shared : Option (List SharedCandidate)
  deriving DecidableEq

/-- The `k`-byte little-endian integer in front of `rest`. -/
def headLE (k : ℕ) (rest : Bytes) : ℕ := Bytes.toNatLE (rest.take k)

theorem headLE_lt (k : ℕ) (rest : Bytes) : headLE k rest < 256 ^ k :=
  Nat.lt_of_lt_of_le (Bytes.toNatLE_lt _)
    (Nat.pow_le_pow_right (by omega) (List.length_take_le _ _))

/-- `n` entries, the first of them number `i`. -/
def readEntries : (n i : ℕ) → Bytes → Except String (List KeyEntry × Bytes)
  | 0, _, rest => .ok ([], rest)
  | n + 1, i, rest =>
    if rest.length < 2 then .error s!"key packet truncated in entry {i} header"
    else
      let keylen := headLE 2 rest
      let rest := rest.drop 2
      if rest.length < keylen + 4 then .error s!"key packet truncated in entry {i} body"
      else
        match readEntries n (i + 1) (rest.drop (keylen + 4)) with
        | .error e => .error e
        | .ok (entries, left) =>
          .ok ({ key := rest.take keylen, vpid := headLE 4 (rest.drop keylen) } :: entries, left)

/-- `n` framed rows, the first of them number `i` of what `truncated` names. -/
def readRows (truncated : String) : (n i : ℕ) → Bytes → Except String (List Bytes × Bytes)
  | 0, _, rest => .ok ([], rest)
  | n + 1, i, rest =>
    if rest.length < 4 then .error s!"{truncated} {i} header"
    else
      let rowlen := headLE 4 rest
      let rest := rest.drop 4
      if rest.length < rowlen then .error s!"{truncated} {i} body"
      else
        match readRows truncated n (i + 1) (rest.drop rowlen) with
        | .error e => .error e
        | .ok (rows, left) => .ok (rest.take rowlen :: rows, left)

def readBytes (group what : String) (rest : Bytes) : Except String (Bytes × Bytes) :=
  if rest.length < 2 then .error s!"key packet truncated in the {group} {what} length"
  else
    let len := headLE 2 rest
    let rest := rest.drop 2
    if rest.length < len then .error s!"key packet truncated in the {group} {what}"
    else .ok (rest.take len, rest.drop len)

/-- One candidate's `ranklen, rank, keylen, key, vpid`. -/
def readCandidate (group : String) (rest : Bytes) : Except String (ArtlessCandidate × Bytes) := do
  let (rank, rest) ← readBytes group "rank" rest
  let (key, rest) ← readBytes group "key" rest
  if rest.length < 4 then .error s!"key packet truncated in the {group} vpid"
  else .ok ({ rank, key, vpid := headLE 4 rest }, rest.drop 4)

def readShared : (n i : ℕ) → Bytes → Except String (List SharedCandidate × Bytes)
  | 0, _, rest => .ok ([], rest)
  | n + 1, i, rest => do
    if rest.length < 16 then
      .error s!"key packet truncated in shared artwork {i}'s identity"
    else
      let (candidate, left) ← readCandidate s!"shared artwork {i}'s" (rest.drop 16)
      let (shared, left) ← readShared n (i + 1) left
      .ok ({ candidate with art := rest.take 16 } :: shared, left)

/-- The shared-artwork trailer: a count and that many candidates. -/
def readSharedTrailer (rest : Bytes) : Except String (List SharedCandidate × Bytes) :=
  if rest.length < 2 then .error "key packet truncated in the shared-artwork count"
  else if headLE 2 rest = 0 then
    .error "key packet flags a shared-artwork trailer and counts no candidate"
  else readShared (headLE 2 rest) 0 (rest.drop 2)

def readIf {α : Type} (flagged : Bool) (read : Bytes → Except String (α × Bytes)) (rest : Bytes) :
    Except String (Option α × Bytes) :=
  if flagged then
    match read rest with
    | .error e => .error e
    | .ok (a, rest) => .ok (some a, rest)
  else .ok (none, rest)

def readVersion (packed : Bytes) : Except String Unit :=
  if packed.length < 20 then
    let length := packed.length
    .error s!"key packet too short: {length} bytes"
  else
    let version := headLE 4 packed
    if version ≠ KEY_PACKET_VERSION then
      .error s!"key packet version {version}, expected {KEY_PACKET_VERSION}; refusing to read it"
    else .ok ()

/-- What follows the entries; `n` is their number, `inlineCount` and `flags` the header's. -/
def readTrailers (n inlineCount flags : ℕ) (rest : Bytes) :
    Except String (List Bytes × Option ArtlessCandidate × Option (List SharedCandidate)) := do
  if inlineCount > n then
    .error s!"key packet claims {inlineCount} inline rows for {n} entries"
  else
    let (inlineRows, rest) ← readRows "key packet truncated in inline row" inlineCount 0 rest
    let (artless, rest) ←
      readIf (flags &&& KEY_PACKET_FLAG_ARTLESS ≠ 0) (readCandidate "art-less") rest
    let (shared, rest) ← readIf (flags &&& KEY_PACKET_FLAG_SHARED ≠ 0) readSharedTrailer rest
    if rest.length ≠ 0 then
      let trailing := rest.length
      .error s!"key packet has {trailing} trailing bytes"
    else .ok (inlineRows, artless, shared)

def decodeKeyPacket (packed : Bytes) : Except String KeyPacket := do
  readVersion packed
  let total := headLE 4 (packed.drop 4)
  let n := headLE 4 (packed.drop 8)
  let inlineCount := headLE 4 (packed.drop 12)
  let flags := headLE 4 (packed.drop 16)
  let (entries, rest) ← readEntries n 0 (packed.drop 20)
  let (inlineRows, artless, shared) ← readTrailers n inlineCount flags rest
  return {
    total
    entries
    inlineRows
    widened := flags &&& KEY_PACKET_FLAG_WIDENED ≠ 0
    artless
    shared }

def decodeRowPacket (packed : Bytes) : Except String (List Bytes) :=
  if packed.length < 4 then
    let length := packed.length
    .error s!"row packet too short: {length} bytes"
  else
    match readRows "row packet truncated in row" (headLE 4 packed) 0 (packed.drop 4) with
    | .error e => .error e
    | .ok (rows, rest) =>
      if rest.length ≠ 0 then
        let trailing := rest.length
        .error s!"row packet has {trailing} trailing bytes"
      else .ok rows

/-! ## Encoding -/

def putBytes (bytes : Bytes) : Bytes := Bytes.ofNatLE 2 bytes.length ++ bytes

def putCandidate (c : ArtlessCandidate) : Bytes :=
  putBytes c.rank ++ putBytes c.key ++ Bytes.ofNatLE 4 c.vpid

def putEntry (entry : KeyEntry) : Bytes := putBytes entry.key ++ Bytes.ofNatLE 4 entry.vpid

def putRow (row : Bytes) : Bytes := Bytes.ofNatLE 4 row.length ++ row

def putShared (c : SharedCandidate) : Except String Bytes :=
  if c.art.length ≠ 16 then
    let length := c.art.length
    .error s!"a shared artwork's identity is 16 bytes, not {length}"
  else .ok (c.art ++ putCandidate c.toArtlessCandidate)

def encodeKeyPacket (packet : KeyPacket) : Except String Bytes := do
  let shared := packet.shared.getD []
  let flags := (if packet.widened then KEY_PACKET_FLAG_WIDENED else 0) |||
    (if packet.artless.isSome then KEY_PACKET_FLAG_ARTLESS else 0) |||
    (if shared.length > 0 then KEY_PACKET_FLAG_SHARED else 0)
  let header := [KEY_PACKET_VERSION, packet.total, packet.entries.length,
    packet.inlineRows.length, flags].flatMap (Bytes.ofNatLE 4)
  let candidates ← shared.mapM putShared
  return header ++ packet.entries.flatMap putEntry ++ packet.inlineRows.flatMap putRow ++
    (packet.artless.map putCandidate).getD [] ++
    (if shared.length > 0 then Bytes.ofNatLE 2 shared.length ++ candidates.flatten else [])

def encodeRowPacket (rows : List Bytes) : Bytes :=
  Bytes.ofNatLE 4 rows.length ++ rows.flatMap putRow

theorem headLE_ofNatLE {k n : ℕ} (h : n < 256 ^ k) (rest : Bytes) : headLE k (Bytes.ofNatLE k n ++ rest) = n := by
  rw [headLE, List.take_left' (Bytes.length_ofNatLE k n), Bytes.toNatLE_ofNatLE, Nat.mod_eq_of_lt h]

theorem drop_ofNatLE (k n : ℕ) (rest : Bytes) : (Bytes.ofNatLE k n ++ rest).drop k = rest :=
  List.drop_left' (Bytes.length_ofNatLE k n)

theorem readRows_flatMap (truncated : String) (i : ℕ) {rows : List Bytes}
    (h : ∀ row ∈ rows, row.length < 2 ^ 32) :
    readRows truncated rows.length i (rows.flatMap putRow) = .ok (rows, []) := by
  induction rows generalizing i with
  | nil => rfl
  | cons row rows ih =>
    have hrow : row.length < 256 ^ 4 := h row (by simp)
    have hrest := ih (i + 1) fun r hr => h r (List.mem_cons_of_mem _ hr)
    rw [List.length_cons, List.flatMap_cons, putRow, List.append_assoc, readRows]
    simp only [headLE_ofNatLE hrow, drop_ofNatLE, List.length_append, Bytes.length_ofNatLE,
      List.drop_left, List.take_left, hrest]
    rw [if_neg (by omega), if_neg (by omega)]

theorem decode_encodeRowPacket {rows : List Bytes} (hcount : rows.length < 2 ^ 32)
    (h : ∀ row ∈ rows, row.length < 2 ^ 32) : decodeRowPacket (encodeRowPacket rows) = .ok rows := by
  have hcount : rows.length < 256 ^ 4 := hcount
  unfold decodeRowPacket encodeRowPacket
  simp only [headLE_ofNatLE hcount, drop_ofNatLE, readRows_flatMap _ _ h]
  rw [if_neg (by simp)]
  simp

/-! ## What a decoded packet can hold -/

theorem length_readEntries {n i : ℕ} {rest left : Bytes} {entries : List KeyEntry}
    (h : readEntries n i rest = .ok (entries, left)) : entries.length = n := by
  induction n generalizing i rest entries with
  | zero =>
    cases h
    rfl
  | succ n ih =>
    rw [readEntries] at h
    split at h
    · cases h
    dsimp only at h
    split at h
    · cases h
    split at h
    · cases h
    · rename_i hrest
      cases h
      simp [ih hrest]

theorem length_readRows {truncated : String} {n i : ℕ} {rest left : Bytes} {rows : List Bytes}
    (h : readRows truncated n i rest = .ok (rows, left)) : rows.length = n := by
  induction n generalizing i rest rows with
  | zero =>
    cases h
    rfl
  | succ n ih =>
    rw [readRows] at h
    split at h
    · cases h
    dsimp only at h
    split at h
    · cases h
    split at h
    · cases h
    · rename_i hrest
      cases h
      simp [ih hrest]

theorem decodeKeyPacket_bounds {packed : Bytes} {packet : KeyPacket}
    (h : decodeKeyPacket packed = .ok packet) :
    packet.total < 2 ^ 32 ∧ packet.inlineRows.length ≤ packet.entries.length := by
  obtain ⟨-, -, h⟩ := ok_of_bind h
  dsimp only at h
  obtain ⟨⟨entries, rest⟩, hentries, h⟩ := ok_of_bind h
  obtain ⟨⟨inlineRows, artless, shared⟩, htrailers, h⟩ := ok_of_bind h
  cases h
  refine ⟨by simpa using headLE_lt 4 (packed.drop 4), ?_⟩
  rw [length_readEntries hentries]
  unfold readTrailers at htrailers
  split at htrailers
  · cases htrailers
  · rename_i hcount
    obtain ⟨⟨rows, rest'⟩, hrows, h⟩ := ok_of_bind htrailers
    obtain ⟨⟨_, _⟩, -, h⟩ := ok_of_bind h
    obtain ⟨⟨_, _⟩, -, h⟩ := ok_of_bind h
    dsimp only at h
    split at h
    · cases h
    · cases h
      simp only [length_readRows hrows]
      omega

end Gather
