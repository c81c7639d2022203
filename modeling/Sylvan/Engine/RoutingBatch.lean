-- SUMMARY: A staged batch read where its bytes lie, and that it adds what its decoded lines add one by one.
import Mathlib.Data.List.GetD
import Sylvan.Data.Search
import Sylvan.Engine.RoutingSound

/-!
# Staged batches

A batch is text of lines `<partition>\t<key>`, in UTF-8. Its keys are hashed in place,
as ranges of its bytes. No byte of a character's encoding but its own is a line end, a
tab or a digit, so the bytes fall into lines and fields as the text does.
-/

namespace RoutingFilter

open RustStr Search Utf8
open RoutingKeyAccumulator (add rowOf)

/-! ## Hashing a range -/

def byteAt (bytes : Bytes) (i : ℕ) : UInt8 := bytes.getD i 0

/-- The whole blocks of `bytes[i, blocks)`. -/
def rangeBlocks (bytes : Bytes) (i blocks : ℕ) (h : UInt32) : UInt32 :=
  if i < blocks then
    let k := (byteAt bytes i).toUInt32 ||| ((byteAt bytes (i + 1)).toUInt32 <<< 8) |||
      ((byteAt bytes (i + 2)).toUInt32 <<< 16) ||| ((byteAt bytes (i + 3)).toUInt32 <<< 24)
    rangeBlocks bytes (i + 4) blocks (rotl (h ^^^ scramble k) 13 * 5 + 0xe6546b64)
  else h
termination_by blocks - i

/-- `murmur32` over `bytes[start, stop)`. -/
def murmur32Range (bytes : Bytes) (start stop : ℕ) (seed : UInt32) : UInt32 :=
  let n := stop - start
  let blocks := start + n / 4 * 4
  let h := rangeBlocks bytes start blocks seed
  -- the tail's cases fall through: 3 into 2 into 1
  let k : UInt32 := if n % 4 = 3 then (0 : UInt32) ^^^ ((byteAt bytes (blocks + 2)).toUInt32 <<< 16) else 0
  let k : UInt32 := if 2 ≤ n % 4 then k ^^^ ((byteAt bytes (blocks + 1)).toUInt32 <<< 8) else k
  let h := if 1 ≤ n % 4 then h ^^^ scramble (k ^^^ (byteAt bytes blocks).toUInt32) else h
  mix32 (h ^^^ UInt32.ofNat n)

/-! ## Reading a batch -/

def NAME_KEYS_STAMP : List Char := "#nm1".toList
def NAME_TIERS_STAMP : List Char := "#nm2".toList

def STAMP_LINE : Bytes := utf8 (NAME_KEYS_STAMP ++ ['\n'])
def TIERS_STAMP_LINE : Bytes := utf8 (NAME_TIERS_STAMP ++ ['\n'])

/-- Whether `text` opens with `line`. -/
def opensWith (text line : Bytes) : Bool := line.isPrefixOf text

structure RoutingBatchRead where
  keys : ℕ
  stamped : Bool
  tiered : Bool
deriving DecidableEq

def decimal (digits : List Char) : ℕ := digits.foldl (fun v c => v * 10 + (c.toNat - 48)) 0

def isDecimal (c : Char) : Bool := 48 ≤ c.toNat && c.toNat ≤ 57

/-- The byte that storing `Number(s)` leaves. Digits have their value, as a double; what
else `Number` reads is `other`'s to say. A byte-order mark is white space, which it trims. -/
def storedNumber (other : List Char → UInt8) (s : List Char) : UInt8 :=
  let s := s.dropWhile (· = BOM)
  if s.all isDecimal then UInt8.ofInt ⌊Float64.nearest (decimal s)⌋ else other s

/-- A partition field read byte by byte: up to nine digits here, anything else as text. -/
def partitionLoop (other : List Char → UInt8) (field : Bytes) (v : ℕ) : Bytes → UInt8
  | [] => UInt8.ofNat v
  | c :: rest =>
    if c < 48 ∨ 57 < c ∨ 9 < field.length then storedNumber other (decode field).toList
    else partitionLoop other field (v * 10 + (c.toNat - 48)) rest

def partitionField (other : List Char → UInt8) (field : Bytes) : UInt8 := partitionLoop other field 0 field

/-- A builder with its scratch for spelling a key again. -/
structure BatchBuilder where
  acc : RoutingKeyAccumulator := {}
  respell : Bytes := List.replicate 256 0

/-- The scratch, grown to hold the key, with the key spelled `nm:` at its front. -/
def respelled (respell key : Bytes) : Bytes :=
  let scratch := if respell.length < key.length then List.replicate (key.length * 2) 0 else respell
  (key ++ scratch.drop key.length).set 1 109

/-- `add` for a key lying in `bytes[start, stop)`. -/
def addKeyBytes (b : BatchBuilder) (bytes : Bytes) (start stop : ℕ) (partition : UInt8) : Except String BatchBuilder :=
  let second := byteAt bytes (start + 1)
  let flags :=
    if 3 ≤ stop - start ∧ byteAt bytes start = 110 ∧ byteAt bytes (start + 2) = 58 then
      nameFlags (Char.ofNat second.toNat)
    else 0
  if flags ≠ 0 ∧ second ≠ 109 then do
    let respell := respelled b.respell (bytes.subarray start stop)
    let n := stop - start
    let acc ← b.acc.addHashed
      { lo := murmur32Range respell 0 n 0x9747b28c, hi := murmur32Range respell 0 n 0x1b873593, value := partition
        flags := flags }
    return ⟨acc, respell⟩
  else do
    let acc ← b.acc.addHashed
      { lo := murmur32Range bytes start stop 0x9747b28c, hi := murmur32Range bytes start stop 0x1b873593
        value := partition, flags := flags }
    return ⟨acc, b.respell⟩

/-- Where the line that begins at `at_` ends. -/
def lineEnd (text : Bytes) (at_ : ℕ) : ℕ := (text.indexOf 10 at_).getD text.length

theorem le_lineEnd {text : Bytes} {at_ : ℕ} (h : at_ < text.length) : at_ ≤ lineEnd text at_ := by
  unfold lineEnd
  cases hnl : text.indexOf 10 at_ with
  | none => exact h.le
  | some nl => exact (Bytes.lt_length_of_indexOf hnl).1

/-- The lines from `at_` on. A line without a tab before its end is no key. -/
def addBatchFrom (other : List Char → UInt8) (text : Bytes) (b : BatchBuilder) (keys at_ : ℕ) :
    Except String (BatchBuilder × ℕ) :=
  if _h : at_ < text.length then
    let stop := lineEnd text at_
    if at_ < stop ∧ byteAt text at_ ≠ 35 then
      match text.indexOf 9 at_ with
      | some tab =>
        if tab < stop then
          match addKeyBytes b text (tab + 1) stop (partitionField other (text.subarray at_ tab)) with
          | .ok b => addBatchFrom other text b (keys + 1) (stop + 1)
          | .error e => .error e
        else addBatchFrom other text b keys (stop + 1)
      | none => addBatchFrom other text b keys (stop + 1)
    else addBatchFrom other text b keys (stop + 1)
  else .ok (b, keys)
termination_by text.length - at_
decreasing_by
  all_goals
    have hle := le_lineEnd _h
    omega

def addBatch (other : List Char → UInt8) (b : BatchBuilder) (text : Bytes) :
    Except String (BatchBuilder × RoutingBatchRead) := do
  let tiered := opensWith text TIERS_STAMP_LINE
  let stamped := tiered || opensWith text STAMP_LINE
  let (b, keys) ← addBatchFrom other text b 0 0
  return (b, { keys := keys, stamped := stamped, tiered := tiered })

/-! ## The lines of the text -/

/-- The partition field and the key of a line, if it is a key's. -/
def keyLine (line : List Char) : Option (List Char × List Char) :=
  if line.head? = some '#' then none
  else if '\t' ∈ line then some (line.takeWhile (· ≠ '\t'), (line.dropWhile (· ≠ '\t')).tail)
  else none

def addLine (other : List Char → UInt8) (acc : RoutingKeyAccumulator) (line : List Char) :
    Except String RoutingKeyAccumulator :=
  match keyLine line with
  | some (field, key) => acc.add (String.ofList key) (storedNumber other field).toNat
  | none => .ok acc

def addLines (other : List Char → UInt8) (acc : RoutingKeyAccumulator) (text : List Char) :
    Except String (RoutingKeyAccumulator × RoutingBatchRead) := do
  let acc ← (text.splitOn '\n').foldlM (addLine other) acc
  return (acc,
    { keys := ((text.splitOn '\n').filterMap keyLine).length
      stamped := (NAME_TIERS_STAMP ++ ['\n']).isPrefixOf text || (NAME_KEYS_STAMP ++ ['\n']).isPrefixOf text
      tiered := (NAME_TIERS_STAMP ++ ['\n']).isPrefixOf text })

/-! ## Hashing in place -/

theorem byteAt_middle {front mid back : Bytes} {i : ℕ} (h : i < mid.length) :
    byteAt (front ++ mid ++ back) (front.length + i) = byteAt mid i := by
  rw [byteAt, byteAt, List.append_assoc, List.getD_append_right _ _ _ _ (Nat.le_add_right _ _), Nat.add_sub_cancel_left,
    List.getD_append _ _ _ _ h]

theorem murmurBlocks_short {key : Bytes} (hlen : key.length < 4) (h : UInt32) : murmurBlocks h key = (h, key) := by
  unfold murmurBlocks
  split
  · simp only [List.length_cons] at hlen
    omega
  · rfl

theorem rangeBlocks_short {key : Bytes} (hlen : key.length < 4) (front back : Bytes) (h : UInt32) :
    rangeBlocks (front ++ key ++ back) front.length (front.length + key.length / 4 * 4) h = (murmurBlocks h key).1 ∧
      (murmurBlocks h key).2 = key.drop (key.length / 4 * 4) := by
  have hzero : key.length / 4 * 4 = 0 := by omega
  rw [hzero, rangeBlocks, if_neg (by omega), murmurBlocks_short hlen]
  exact ⟨rfl, rfl⟩

-- unfolding the block's constants passes the default depth
set_option maxRecDepth 4000 in
theorem murmurBlocks_block (h : UInt32) (b0 b1 b2 b3 : UInt8) (rest : Bytes) :
    murmurBlocks h (b0 :: b1 :: b2 :: b3 :: rest) =
      murmurBlocks (rotl (h ^^^ scramble (b0.toUInt32 ||| (b1.toUInt32 <<< 8) ||| (b2.toUInt32 <<< 16) |||
        (b3.toUInt32 <<< 24))) 13 * 5 + 0xe6546b64) rest := by
  conv_lhs => unfold murmurBlocks

theorem rangeBlocks_eq : ∀ (key front back : Bytes) (h : UInt32),
    rangeBlocks (front ++ key ++ back) front.length (front.length + key.length / 4 * 4) h = (murmurBlocks h key).1 ∧
      (murmurBlocks h key).2 = key.drop (key.length / 4 * 4)
  | [], front, back, h => rangeBlocks_short (by simp) front back h
  | [_], front, back, h => rangeBlocks_short (by simp) front back h
  | [_, _], front, back, h => rangeBlocks_short (by simp) front back h
  | [_, _, _], front, back, h => rangeBlocks_short (by simp) front back h
  | b0 :: b1 :: b2 :: b3 :: rest, front, back, h => by
      have hlen : (b0 :: b1 :: b2 :: b3 :: rest).length / 4 * 4 = rest.length / 4 * 4 + 4 := by
        simp only [List.length_cons]
        omega
      have hsplit : front ++ (b0 :: b1 :: b2 :: b3 :: rest) ++ back = front ++ [b0, b1, b2, b3] ++ rest ++ back := by simp
      have hbyte : ∀ i < 4, byteAt (front ++ (b0 :: b1 :: b2 :: b3 :: rest) ++ back) (front.length + i) =
          byteAt (b0 :: b1 :: b2 :: b3 :: rest) i := by
        intro i hi
        apply byteAt_middle
        simp only [List.length_cons]
        omega
      have h0 := hbyte 0 (by omega)
      have h1 := hbyte 1 (by omega)
      have h2 := hbyte 2 (by omega)
      have h3 := hbyte 3 (by omega)
      rw [Nat.add_zero] at h0
      rw [rangeBlocks, if_pos (by omega), h0, h1, h2, h3, murmurBlocks_block, hlen, hsplit]
      have hnext : (front ++ [b0, b1, b2, b3]).length = front.length + 4 := by simp
      have ih := rangeBlocks_eq rest (front ++ [b0, b1, b2, b3]) back
      rw [hnext, Nat.add_assoc, Nat.add_comm 4] at ih
      exact ih _

/-- **A range hashes as its bytes do.** -/
theorem murmur32Range_append (front key back : Bytes) (seed : UInt32) :
    murmur32Range (front ++ key ++ back) front.length (front.length + key.length) seed = murmur32 key seed := by
  obtain ⟨hblocks, htail⟩ := rangeBlocks_eq key front back seed
  have htailLen : (key.drop (key.length / 4 * 4)).length = key.length % 4 := by
    rw [List.length_drop]
    omega
  have hbyte : ∀ i, i < key.length % 4 → byteAt (front ++ key ++ back) (front.length + key.length / 4 * 4 + i) =
      byteAt (key.drop (key.length / 4 * 4)) i := by
    intro i hi
    rw [Nat.add_assoc, byteAt_middle (by omega), byteAt, byteAt, List.getD_eq_getElem?_getD, List.getD_eq_getElem?_getD,
      List.getElem?_drop]
  rw [murmur32Range, murmur32, Nat.add_sub_cancel_left, hblocks]
  simp only
  congr 2
  rw [htail]
  generalize hrest : key.drop (key.length / 4 * 4) = tail at htailLen hbyte
  generalize (murmurBlocks seed key).1 = h
  have hzero := hbyte 0
  rw [Nat.add_zero] at hzero
  match tail, htailLen with
  | [], hlen =>
    have hmod : key.length % 4 = 0 := by simpa using hlen.symm
    simp [hmod, murmurTail]
  | [b0], hlen =>
    have hmod : key.length % 4 = 1 := by simpa using hlen.symm
    rw [hzero (by omega)]
    simp [hmod, murmurTail, byteAt]
  | [b0, b1], hlen =>
    have hmod : key.length % 4 = 2 := by simpa using hlen.symm
    rw [hzero (by omega), hbyte 1 (by omega)]
    simp [hmod, murmurTail, byteAt]
  | [b0, b1, b2], hlen =>
    have hmod : key.length % 4 = 3 := by simpa using hlen.symm
    rw [hzero (by omega), hbyte 1 (by omega), hbyte 2 (by omega)]
    simp [hmod, murmurTail, byteAt]
  | _ :: _ :: _ :: _ :: _, hlen =>
    simp only [List.length_cons] at hlen
    omega

/-! ## Keys lying in bytes -/

variable {c : Char}

theorem encodeChar_ascii (h : c.toNat < 0x80) : encodeChar c = [UInt8.ofNat c.toNat] := by
  simp [encodeChar, h]

theorem encodeChar_wide (h : ¬ c.toNat < 0x80) :
    ∃ b b' rest, encodeChar c = b :: b' :: rest ∧ 0xc0 ≤ b.toNat ∧ 0x80 ≤ b'.toNat := by
  obtain ⟨b, rest, hlead, hb, hrest⟩ := encodeChar_lead c
  have hlen : 2 ≤ (encodeChar c).length := by
    simp only [encodeChar]
    split_ifs <;> simp
  cases rest with
  | nil => simp [hlead] at hlen
  | cons b' rest => exact ⟨b, b', rest, hlead, hb.resolve_left fun hascii => h hascii.1, (hrest b' (by simp)).1⟩

theorem toNat_ofNat_ascii (h : c.toNat < 0x80) : (UInt8.ofNat c.toNat).toNat = c.toNat :=
  toNat_ofNat_of_lt (by omega)

theorem lead_eq {a : Char} (ha : a.toNat < 0x80) {s : List Char} (hne : s ≠ [])
    (h : byteAt (utf8 s) 0 = UInt8.ofNat a.toNat) : ∃ rest, s = a :: rest := by
  cases s with
  | nil => exact absurd rfl hne
  | cons c rest =>
    by_cases hc : c.toNat < 0x80
    · rw [utf8_cons, encodeChar_ascii hc] at h
      have hvalue := congrArg UInt8.toNat h
      simp only [byteAt, List.cons_append, List.getD_cons_zero] at hvalue
      rw [toNat_ofNat_ascii hc, toNat_ofNat_ascii ha] at hvalue
      exact ⟨rest, by rw [Char.toNat_inj.mp hvalue]⟩
    · obtain ⟨b, b', more, hlead, hb, -⟩ := encodeChar_wide hc
      rw [utf8_cons, hlead] at h
      have hvalue := congrArg UInt8.toNat h
      simp only [byteAt, List.cons_append, List.getD_cons_zero] at hvalue
      rw [toNat_ofNat_ascii ha] at hvalue
      omega

theorem spelled_iff (key : List Char) : (3 ≤ (utf8 key).length ∧ byteAt (utf8 key) 0 = 110 ∧ byteAt (utf8 key) 2 = 58) ↔
      ∃ second name, second.toNat < 0x80 ∧ key = 'n' :: second :: ':' :: name := by
  constructor
  · rintro ⟨hlen, hfirst, hthird⟩
    have hne : key ≠ [] := by
      rintro rfl
      simp [utf8] at hlen
    obtain ⟨rest, rfl⟩ := lead_eq (by decide : ('n' : Char).toNat < 0x80) hne hfirst
    rw [utf8_cons, encodeChar_ascii (by decide : 'n'.toNat < 0x80)] at hlen hthird
    cases rest with
    | nil => simp [utf8] at hlen
    | cons second rest =>
      by_cases hsecond : second.toNat < 0x80
      · rw [utf8_cons, encodeChar_ascii hsecond] at hlen hthird
        have hne : rest ≠ [] := by
          rintro rfl
          simp [utf8] at hlen
        obtain ⟨name, rfl⟩ := lead_eq (by decide : (':' : Char).toNat < 0x80) hne hthird
        exact ⟨second, name, hsecond, rfl⟩
      · -- the second byte of a wide character is no colon
        obtain ⟨b, b', more, hlead, -, hb'⟩ := encodeChar_wide hsecond
        rw [utf8_cons, hlead] at hthird
        have hvalue : b' = 58 := hthird
        rw [hvalue] at hb'
        exact absurd hb' (by decide)
  · rintro ⟨second, name, hsecond, rfl⟩
    rw [utf8_cons, utf8_cons, utf8_cons, encodeChar_ascii hsecond, encodeChar_ascii (by decide : 'n'.toNat < 0x80),
      encodeChar_ascii (by decide : ':'.toNat < 0x80)]
    exact ⟨by simp, rfl, rfl⟩

theorem encode_ofList (s : List Char) : encode (String.ofList s) = utf8 s := by
  rw [encode, String.toList_ofList]
  rfl

theorem nameFlags_wide (h : ¬ c.toNat < 0x80) : nameFlags c = 0 := by
  unfold nameFlags
  split
  · exact absurd (by decide) h
  · exact absurd (by decide) h
  · exact absurd (by decide) h
  · exact absurd (by decide) h
  · exact absurd (by decide) h
  · rfl

theorem subarray_middle (front mid back : Bytes) :
    (front ++ mid ++ back).subarray front.length (front.length + mid.length) = mid := by
  simp [Bytes.subarray]

theorem respelled_eq (respell : Bytes) {second : Char} (hsecond : second.toNat < 0x80) (name : List Char) :
    ∃ back, respelled respell (utf8 ('n' :: second :: ':' :: name)) = [] ++ utf8 ('n' :: 'm' :: ':' :: name) ++ back ∧
      (utf8 ('n' :: 'm' :: ':' :: name)).length = (utf8 ('n' :: second :: ':' :: name)).length := by
  have hm : ('m' : Char).toNat < 0x80 := by decide
  simp only [respelled, utf8_cons, encodeChar_ascii hsecond, encodeChar_ascii hm,
    encodeChar_ascii (by decide : 'n'.toNat < 0x80), encodeChar_ascii (by decide : ':'.toNat < 0x80)]
  exact ⟨_, rfl, by simp⟩

/-- **A key lying in bytes is added as its text is.** -/
theorem addKeyBytes_eq (b : BatchBuilder) (front : Bytes) (key : List Char) (back : Bytes) (partition : UInt8) :
    (addKeyBytes b (front ++ utf8 key ++ back) front.length (front.length + (utf8 key).length) partition).map
      BatchBuilder.acc = b.acc.add (String.ofList key) partition.toNat := by
  have hvalue : UInt8.ofNat partition.toNat = partition := UInt8.ofNat_toNat
  have hbyte : ∀ i, 3 ≤ (utf8 key).length → i < 3 →
      byteAt (front ++ utf8 key ++ back) (front.length + i) = byteAt (utf8 key) i :=
    fun i hlen hi => byteAt_middle (by omega)
  have hplain : ∀ flags, flags = keyFlags (String.ofList key) → hashedKey (String.ofList key) = String.ofList key → ((do
        let acc ← b.acc.addHashed
          { lo := murmur32Range (front ++ utf8 key ++ back) front.length (front.length + (utf8 key).length) 0x9747b28c
            hi := murmur32Range (front ++ utf8 key ++ back) front.length (front.length + (utf8 key).length) 0x1b873593
            value := partition, flags := flags }
        return ⟨acc, b.respell⟩ : Except String BatchBuilder).map BatchBuilder.acc) =
          b.acc.add (String.ofList key) partition.toNat := by
    rintro flags rfl hashed
    rw [murmur32Range_append, murmur32Range_append, add, rowOf, hashed, routingHash, encode_ofList, hvalue]
    cases b.acc.addHashed _ <;> rfl
  unfold addKeyBytes
  simp only [Nat.add_sub_cancel_left]
  by_cases hspelled : 3 ≤ (utf8 key).length ∧ byteAt (utf8 key) 0 = 110 ∧ byteAt (utf8 key) 2 = 58
  · obtain ⟨second, name, hsecond, rfl⟩ := (spelled_iff key).mp hspelled
    have hzero := hbyte 0 hspelled.1 (by omega)
    rw [Nat.add_zero] at hzero
    rw [hzero, hbyte 1 hspelled.1 (by omega), hbyte 2 hspelled.1 (by omega), if_pos hspelled]
    have hone : byteAt (utf8 ('n' :: second :: ':' :: name)) 1 = UInt8.ofNat second.toNat := by
      rw [utf8_cons, utf8_cons, encodeChar_ascii hsecond]
      rfl
    have hchar : Char.ofNat (UInt8.ofNat second.toNat).toNat = second := by
      rw [toNat_ofNat_ascii hsecond, Char.ofNat_toNat]
    have hm : (UInt8.ofNat second.toNat ≠ 109) ↔ second ≠ 'm' := by
      rw [not_iff_not]
      constructor
      · intro heq
        have hvalue := congrArg UInt8.toNat heq
        rw [toNat_ofNat_ascii hsecond] at hvalue
        exact Char.toNat_inj.mp hvalue
      · rintro rfl
        rfl
    have hflags : keyFlags (String.ofList ('n' :: second :: ':' :: name)) = nameFlags second := by
      rw [keyFlags, String.toList_ofList]
      rfl
    have hhashed : hashedKey (String.ofList ('n' :: second :: ':' :: name)) =
        if nameFlags second ≠ 0 ∧ second ≠ 'm' then String.ofList ('n' :: 'm' :: ':' :: name)
        else String.ofList ('n' :: second :: ':' :: name) := by
      rw [hashedKey, String.toList_ofList]
      rfl
    rw [hone, hchar]
    by_cases hname : nameFlags second ≠ 0 ∧ second ≠ 'm'
    · rw [if_pos ⟨hname.1, hm.mpr hname.2⟩, subarray_middle]
      rw [if_pos hname] at hhashed
      obtain ⟨rest, hscratch, hlength⟩ := respelled_eq b.respell hsecond name
      have hrange : ∀ seed, murmur32Range (respelled b.respell (utf8 ('n' :: second :: ':' :: name))) 0
          (utf8 ('n' :: second :: ':' :: name)).length seed = murmur32 (utf8 ('n' :: 'm' :: ':' :: name)) seed := by
        intro seed
        rw [hscratch, ← hlength, ← murmur32Range_append [] (utf8 ('n' :: 'm' :: ':' :: name)) rest seed]
        congr 1
        simp
      rw [hrange, hrange, add, rowOf, hhashed, routingHash, encode_ofList, hvalue, hflags]
      cases b.acc.addHashed _ <;> rfl
    · rw [if_neg fun hand => hname ⟨hand.1, hm.mp hand.2⟩]
      rw [if_neg hname] at hhashed
      exact hplain _ hflags.symm hhashed
  · have hnot : ¬(3 ≤ (utf8 key).length ∧ byteAt (front ++ utf8 key ++ back) front.length = 110 ∧
        byteAt (front ++ utf8 key ++ back) (front.length + 2) = 58) := by
      rintro ⟨hlen, hfirst, hthird⟩
      have hzero := hbyte 0 hlen (by omega)
      rw [Nat.add_zero] at hzero
      rw [hzero] at hfirst
      rw [hbyte 2 hlen (by omega)] at hthird
      exact hspelled ⟨hlen, hfirst, hthird⟩
    have hflags : keyFlags (String.ofList key) = 0 := by
      rw [keyFlags, String.toList_ofList]
      split
      · rename_i second name
        by_cases hsecond : second.toNat < 0x80
        · exact absurd ((spelled_iff _).mpr ⟨second, name, hsecond, rfl⟩) hspelled
        · exact nameFlags_wide hsecond
      · rfl
    rw [if_neg hnot, if_neg fun hand => hand.1 rfl]
    exact hplain 0 hflags.symm (hashedKey_of_flags hflags)

/-! ## Partition fields -/

section Fields

variable {other : List Char → UInt8}

theorem partitionLoop_digits {field : Bytes} (hlen : field.length ≤ 9) :
    ∀ {rest : Bytes} (v : ℕ), (∀ c ∈ rest, 48 ≤ c.toNat ∧ c.toNat ≤ 57) →
      partitionLoop other field v rest = UInt8.ofNat (rest.foldl (fun v c => v * 10 + (c.toNat - 48)) v) := by
  intro rest
  induction rest with
  | nil => exact fun v _ => rfl
  | cons c rest ih =>
    intro v hdigits
    have hc := hdigits c (by simp)
    have hgo : ¬(c < 48 ∨ 57 < c ∨ 9 < field.length) := by
      simp only [UInt8.lt_iff_toNat_lt, show (48 : UInt8).toNat = 48 from rfl, show (57 : UInt8).toNat = 57 from rfl]
      omega
    rw [partitionLoop, if_neg hgo]
    exact ih _ fun c hc => hdigits c (by simp [hc])

theorem partitionLoop_text {field rest : Bytes} (v : ℕ)
    (h : (∃ c ∈ rest, c.toNat < 48 ∨ 57 < c.toNat) ∨ rest ≠ [] ∧ 9 < field.length) :
    partitionLoop other field v rest = storedNumber other (decode field).toList := by
  induction rest generalizing v with
  | nil =>
    rcases h with ⟨c, hc, -⟩ | ⟨hne, -⟩
    · cases hc
    · exact absurd rfl hne
  | cons c rest ih =>
    rw [partitionLoop]
    by_cases hstop : c < 48 ∨ 57 < c ∨ 9 < field.length
    · rw [if_pos hstop]
    · rw [if_neg hstop]
      simp only [UInt8.lt_iff_toNat_lt, show (48 : UInt8).toNat = 48 from rfl,
        show (57 : UInt8).toNat = 57 from rfl] at hstop
      apply ih
      rcases h with ⟨d, hd, hbad⟩ | ⟨-, hlong⟩
      · rcases List.mem_cons.mp hd with rfl | hd
        · omega
        · exact .inl ⟨d, hd, hbad⟩
      · omega

/-- A leading byte-order mark, which the decoder drops, is one `Number` trims. -/
theorem storedNumber_decode (s : List Char) : storedNumber other (decode (utf8 s)).toList = storedNumber other s := by
  have htext : decodeFrom ready (utf8 s) = s := by
    induction s with
    | nil => rfl
    | cons c s ih => rw [utf8_cons, decodeFrom_encodeChar, ih]
  rw [decode, htext, String.toList_ofList]
  by_cases hbom : s.head? = some BOM
  · rw [if_pos hbom]
    cases s with
    | nil => rfl
    | cons c s =>
      obtain rfl : c = BOM := by simpa using hbom
      simp [storedNumber]
  · rw [if_neg hbom]

theorem decimal_lt (s : List Char) (hdigits : ∀ c ∈ s, isDecimal c = true) : decimal s < 10 ^ s.length := by
  induction s using List.reverseRecOn with
  | nil => simp [decimal]
  | append_singleton s c ih =>
    have hs := ih fun d hd => hdigits d (by simp [hd])
    have hc := hdigits c (by simp)
    simp only [isDecimal, Bool.and_eq_true, decide_eq_true_eq] at hc
    have hstep : decimal (s ++ [c]) = decimal s * 10 + (c.toNat - 48) := by simp [decimal]
    rw [hstep, List.length_append, List.length_singleton, pow_succ]
    omega

theorem utf8_digits {s : List Char} (hdigits : ∀ c ∈ s, isDecimal c = true) :
    utf8 s = s.map fun c => UInt8.ofNat c.toNat := by
  induction s with
  | nil => rfl
  | cons c s ih =>
    have hc := hdigits c (by simp)
    simp only [isDecimal, Bool.and_eq_true, decide_eq_true_eq] at hc
    rw [utf8_cons, encodeChar_ascii (by omega), ih fun d hd => hdigits d (by simp [hd])]
    rfl

theorem digit_byte (hc : isDecimal c = true) : (UInt8.ofNat c.toNat).toNat = c.toNat := by
  simp only [isDecimal, Bool.and_eq_true, decide_eq_true_eq] at hc
  exact toNat_ofNat_ascii (by omega)

/-- **A field's bytes are read as the number its text is.** -/
theorem partitionField_utf8 (s : List Char) : partitionField other (utf8 s) = storedNumber other s := by
  by_cases hdigits : ∀ c ∈ s, isDecimal c = true
  · have hbytes := utf8_digits hdigits
    by_cases hlong : 9 < s.length
    · rw [partitionField, partitionLoop_text, storedNumber_decode]
      refine .inr ⟨?_, by rw [hbytes, List.length_map]; exact hlong⟩
      intro hnil
      rw [hbytes, List.map_eq_nil_iff] at hnil
      simp [hnil] at hlong
    · have hvalue : (utf8 s).foldl (fun v c => v * 10 + (c.toNat - 48)) 0 = decimal s := by
        rw [hbytes, List.foldl_map, decimal]
        refine List.foldl_ext _ _ _ fun v c hc => ?_
        rw [digit_byte (hdigits c hc)]
      have hbom : s.dropWhile (· = BOM) = s := by
        cases s with
        | nil => rfl
        | cons c s =>
          have hne : c ≠ BOM := by
            rintro rfl
            exact absurd (hdigits BOM (by simp)) (by decide)
          simp [hne]
      have hsmall : decimal s < 2 ^ 53 := by
        have hlt := decimal_lt s hdigits
        have hpow : 10 ^ s.length ≤ 10 ^ 9 := Nat.pow_le_pow_right (by omega) (by omega)
        omega
      have hall : s.all isDecimal = true := List.all_eq_true.mpr hdigits
      rw [partitionField, partitionLoop_digits, hvalue, storedNumber]
      · simp only [hbom, hall, if_true]
        rw [Float64.nearest_nat hsmall, Int.floor_natCast, ← UInt8.toNat_inj, UInt8.ofInt, UInt8.toNat_ofNat',
          UInt8.toNat_ofNat']
        omega
      · rw [hbytes, List.length_map]
        omega
      · rw [hbytes]
        intro b hb
        obtain ⟨c, hc, rfl⟩ := List.mem_map.mp hb
        have hdigit := hdigits c hc
        rw [digit_byte hdigit]
        simpa only [isDecimal, Bool.and_eq_true, decide_eq_true_eq] using hdigit
  · rw [partitionField, partitionLoop_text, storedNumber_decode]
    -- the lead byte of a character that is no digit is none
    push Not at hdigits
    obtain ⟨c, hc, hbad⟩ := hdigits
    left
    have hmem : ∀ b ∈ encodeChar c, b ∈ utf8 s := fun b hb => List.mem_flatMap.mpr ⟨c, hc, hb⟩
    by_cases hascii : c.toNat < 0x80
    · refine ⟨UInt8.ofNat c.toNat, hmem _ (by rw [encodeChar_ascii hascii]; simp), ?_⟩
      rw [toNat_ofNat_ascii hascii]
      simp only [isDecimal, Bool.and_eq_true, decide_eq_true_eq, ne_eq] at hbad
      omega
    · obtain ⟨b, b', more, hlead, hb, -⟩ := encodeChar_wide hascii
      refine ⟨b, hmem _ (by rw [hlead]; simp), ?_⟩
      omega

end Fields

/-! ## Lines -/

section Lines

variable {front mid back : Bytes} {byte : UInt8}

theorem drop_front (front mid back : Bytes) : (front ++ mid ++ back).drop front.length = mid ++ back := by
  rw [List.append_assoc, List.drop_left]

/-- A byte not before `mid`'s end is found there or later. -/
theorem le_indexOf (hmid : byte ∉ mid) {i : ℕ} (h : (front ++ mid ++ back).indexOf byte front.length = some i) :
    front.length + mid.length ≤ i := by
  obtain ⟨hle, -, hsplit⟩ := Bytes.indexOf_eq_some h
  by_contra hlt
  have hlen := (Bytes.lt_length_of_indexOf h).2
  have hsub : ((front ++ mid ++ back).subarray front.length i).length = i - front.length := by
    rw [Bytes.subarray, List.length_take, List.length_drop]
    omega
  rw [drop_front] at hsplit
  have hget := congrArg (fun l => l[i - front.length]?) hsplit
  rw [List.getElem?_append_left (by omega), List.getElem?_append_right (by omega), hsub, Nat.sub_self,
    List.getElem?_cons_zero] at hget
  exact hmid (List.mem_of_getElem? hget)

theorem indexOf_found (hmid : byte ∉ mid) :
    (front ++ mid ++ byte :: back).indexOf byte front.length = some (front.length + mid.length) := by
  cases h : (front ++ mid ++ byte :: back).indexOf byte front.length with
  | none =>
    refine absurd ?_ (Bytes.indexOf_eq_none h)
    rw [drop_front]
    simp
  | some i =>
    obtain ⟨-, hnone, hsplit⟩ := Bytes.indexOf_eq_some h
    have hle := le_indexOf hmid h
    congr 1
    by_contra hne
    -- past its place it would have been met before
    apply hnone
    have hlt : mid.length < i - front.length := by omega
    rw [Bytes.subarray, drop_front]
    refine List.mem_take_iff_getElem.mpr ⟨mid.length, ?_, ?_⟩
    · rw [List.length_append, List.length_cons]
      omega
    · simp

theorem lineEnd_eq {line : Bytes} (hline : 10 ∉ line) (hback : ∀ b, back.head? = some b → b = 10) :
    lineEnd (front ++ line ++ back) front.length = front.length + line.length := by
  cases back with
  | nil =>
    have hnone : (front ++ line ++ []).indexOf 10 front.length = none := by
      cases h : (front ++ line ++ []).indexOf 10 front.length with
      | none => rfl
      | some i =>
        have hle := le_indexOf hline h
        have hlt := (Bytes.lt_length_of_indexOf h).2
        simp only [List.length_append, List.length_nil] at hlt
        omega
    rw [lineEnd, hnone]
    simp
  | cons b back =>
    rw [hback b rfl, lineEnd, indexOf_found hline]
    rfl

variable {other : List Char → UInt8}

variable {line : List Char}

theorem newline_not_mem (h : '\n' ∉ line) : (10 : UInt8) ∉ utf8 line :=
  fun hmem => h (mem_of_byte_mem_utf8 (by decide) hmem)

theorem tab_not_mem (h : '\t' ∉ line) : (9 : UInt8) ∉ utf8 line :=
  fun hmem => h (mem_of_byte_mem_utf8 (by decide) hmem)

theorem tab_split (htab : '\t' ∈ line) : line = line.takeWhile (· ≠ '\t') ++ '\t' :: (line.dropWhile (· ≠ '\t')).tail := by
  have hdrop : line.dropWhile (· ≠ '\t') ≠ [] := by
    rw [Ne, List.dropWhile_eq_nil_iff]
    intro hall
    simpa using hall _ htab
  have hhead : (line.dropWhile (· ≠ '\t')).head hdrop = '\t' := by
    have hnot := List.head_dropWhile_not (· ≠ '\t') hdrop
    simpa using hnot
  have hcons : '\t' :: (line.dropWhile (· ≠ '\t')).tail = line.dropWhile (· ≠ '\t') := by
    have heta := List.cons_head_tail hdrop
    rwa [hhead] at heta
  rw [hcons, List.takeWhile_append_dropWhile]

theorem addBatchFrom_line (hline : '\n' ∉ line) (hback : ∀ b, back.head? = some b → b = 10)
    (b : BatchBuilder) (keys : ℕ) (hmore : front.length < (front ++ utf8 line ++ back).length) :
    addBatchFrom other (front ++ utf8 line ++ back) b keys front.length = match keyLine line with
      | some (field, _) =>
        match addKeyBytes b (front ++ utf8 line ++ back) (front.length + (utf8 field).length + 1)
          (front.length + (utf8 line).length) (storedNumber other field) with
        | .ok b => addBatchFrom other (front ++ utf8 line ++ back) b (keys + 1) (front.length + (utf8 line).length + 1)
        | .error e => .error e
      | none => addBatchFrom other (front ++ utf8 line ++ back) b keys (front.length + (utf8 line).length + 1) := by
  rw [addBatchFrom, dif_pos hmore]
  simp only [lineEnd_eq (newline_not_mem hline) hback]
  cases line with
  | nil => simp [utf8, keyLine]
  | cons c line =>
    have hne : (c :: line) ≠ [] := List.cons_ne_nil c line
    have hpos : front.length < front.length + (utf8 (c :: line)).length := by
      obtain ⟨b, rest, hlead, -⟩ := encodeChar_lead c
      rw [utf8_cons, hlead]
      simp
    have hfirst : byteAt (front ++ utf8 (c :: line) ++ back) front.length = byteAt (utf8 (c :: line)) 0 := by
      have hmiddle := @byteAt_middle front (utf8 (c :: line)) back 0 (by omega)
      rwa [Nat.add_zero] at hmiddle
    by_cases hcomment : c = '#'
    · subst hcomment
      have hbyte : byteAt (utf8 ('#' :: line)) 0 = 35 := rfl
      rw [hfirst, hbyte, if_neg fun hand => hand.2 rfl]
      simp [keyLine]
    · have hbyte : byteAt (utf8 (c :: line)) 0 ≠ 35 := by
        intro heq
        obtain ⟨rest, hrest⟩ := lead_eq (by decide : ('#' : Char).toNat < 0x80) hne heq
        exact hcomment (List.cons.inj hrest).1
      rw [hfirst, if_pos ⟨hpos, hbyte⟩]
      by_cases htab : '\t' ∈ c :: line
      · have hkey : keyLine (c :: line) =
            some ((c :: line).takeWhile (· ≠ '\t'), ((c :: line).dropWhile (· ≠ '\t')).tail) := by
          rw [keyLine, if_neg (by simpa using hcomment), if_pos htab]
        rw [hkey]
        simp only
        -- the line is its field, a tab and its key
        generalize c :: line = line at htab hpos
        have hsplit := tab_split htab
        generalize hfield : line.takeWhile (· ≠ '\t') = field at hsplit ⊢
        generalize (line.dropWhile (· ≠ '\t')).tail = key at hsplit
        have hfieldTab : '\t' ∉ field := by
          rw [← hfield]
          intro hmem
          simpa using List.mem_takeWhile_imp hmem
        have hbytes : utf8 line = utf8 field ++ 9 :: utf8 key := by
          rw [hsplit, utf8_append, utf8_cons]
          rfl
        have hindex : (front ++ utf8 line ++ back).indexOf 9 front.length = some (front.length + (utf8 field).length) := by
          rw [hbytes, ← List.append_assoc, List.append_assoc (front ++ utf8 field), List.cons_append]
          exact indexOf_found (tab_not_mem hfieldTab)
        have hwithin : front.length + (utf8 field).length < front.length + (utf8 line).length := by
          rw [hbytes, List.length_append, List.length_cons]
          omega
        have hsub : (front ++ utf8 line ++ back).subarray front.length (front.length + (utf8 field).length) =
            utf8 field := by
          rw [hbytes, ← List.append_assoc, List.append_assoc (front ++ utf8 field)]
          exact subarray_middle front (utf8 field) _
        rw [hindex]
        simp only
        rw [if_pos hwithin, hsub, partitionField_utf8]
      · have hkey : keyLine (c :: line) = none := by
          rw [keyLine, if_neg (by simpa using hcomment), if_neg htab]
        rw [hkey]
        simp only
        cases hindex : (front ++ utf8 (c :: line) ++ back).indexOf 9 front.length with
        | none => rfl
        | some tab =>
          have hle := le_indexOf (tab_not_mem htab) hindex
          simp only
          rw [if_neg (by omega)]

def left (r : BatchBuilder × ℕ) : RoutingKeyAccumulator × ℕ := (r.1.acc, r.2)

theorem keyLine_split {line field key : List Char} (h : keyLine line = some (field, key)) : line = field ++ '\t' :: key := by
  unfold keyLine at h
  split at h
  · cases h
  · split at h
    next htab =>
      cases h
      exact tab_split htab
    next => cases h

theorem addBatchFrom_step (hline : '\n' ∉ line) (hback : ∀ b, back.head? = some b → b = 10)
    {after : RoutingKeyAccumulator → ℕ → Except String (RoutingKeyAccumulator × ℕ)}
    (hafter : ∀ b keys, (addBatchFrom other (front ++ utf8 line ++ back) b keys
      (front.length + (utf8 line).length + 1)).map left = after b.acc keys)
    (b : BatchBuilder) (keys : ℕ) (hmore : front.length < (front ++ utf8 line ++ back).length) :
    (addBatchFrom other (front ++ utf8 line ++ back) b keys front.length).map left =
      addLine other b.acc line >>= fun acc => after acc (keys + (keyLine line).toList.length) := by
  rw [addBatchFrom_line hline hback b keys hmore, addLine]
  cases hkey : keyLine line with
  | none => exact hafter b keys
  | some pair =>
    obtain ⟨field, key⟩ := pair
    have hbytes : utf8 line = utf8 field ++ 9 :: utf8 key := by
      rw [keyLine_split hkey, utf8_append, utf8_cons]
      rfl
    have htext : front ++ utf8 line ++ back = (front ++ utf8 field ++ [9]) ++ utf8 key ++ back := by
      rw [hbytes]
      simp
    have hstart : front.length + (utf8 field).length + 1 = (front ++ utf8 field ++ [9]).length := by
      simp only [List.length_append, List.length_cons, List.length_nil]
    have hstop : front.length + (utf8 line).length = (front ++ utf8 field ++ [9]).length + (utf8 key).length := by
      rw [hbytes]
      simp only [List.length_append, List.length_cons, List.length_nil]
      omega
    have hadd := addKeyBytes_eq b (front ++ utf8 field ++ [9]) key back (storedNumber other field)
    rw [← htext, ← hstop, ← hstart] at hadd
    simp only
    rw [← hadd]
    cases addKeyBytes b (front ++ utf8 line ++ back) (front.length + (utf8 field).length + 1)
      (front.length + (utf8 line).length) (storedNumber other field) with
    | error e => rfl
    | ok b' => exact hafter b' (keys + 1)

/-- Lines added one by one, on top of `keys` counted before. -/
def addedLines (other : List Char → UInt8) (lines : List (List Char)) (acc : RoutingKeyAccumulator) (keys : ℕ) :
    Except String (RoutingKeyAccumulator × ℕ) :=
  (lines.foldlM (addLine other) acc).map (·, keys + (lines.filterMap keyLine).length)

theorem addedLines_cons (line : List Char) (lines : List (List Char)) (acc : RoutingKeyAccumulator) (keys : ℕ) :
    addedLines other (line :: lines) acc keys =
      addLine other acc line >>= fun acc => addedLines other lines acc (keys + (keyLine line).toList.length) := by
  have hcount : keys + ((line :: lines).filterMap keyLine).length =
      keys + (keyLine line).toList.length + (lines.filterMap keyLine).length := by
    cases hkey : keyLine line with
    | none => rw [List.filterMap_cons_none hkey]; rfl
    | some pair =>
      rw [List.filterMap_cons_some hkey, List.length_cons, Option.toList_some, List.length_singleton]
      omega
  rw [addedLines, List.foldlM_cons, hcount]
  cases addLine other acc line with
  | error e => rfl
  | ok acc => rfl

/-- What is left to read adds as its lines do. Induction on the text, a line at a time. -/
theorem addBatchFrom_eq (rest : List Char) (done : Bytes) (b : BatchBuilder) (keys : ℕ) :
    (addBatchFrom other (done ++ utf8 rest) b keys done.length).map left =
      addedLines other (rest.splitOn '\n') b.acc keys := by
  induction hn : rest.length using Nat.strong_induction_on generalizing rest done b keys with
  | _ n ih =>
  by_cases hnewline : '\n' ∈ rest
  · -- a line, its end and what follows
    obtain ⟨line, rest', hrest, hline⟩ := List.eq_append_cons_of_mem hnewline
    have htext : done ++ utf8 rest = done ++ utf8 line ++ 10 :: utf8 rest' := by
      rw [hrest, utf8_append, utf8_cons, List.append_assoc]
      rfl
    have hnext : done ++ utf8 line ++ 10 :: utf8 rest' = (done ++ utf8 line ++ [10]) ++ utf8 rest' := by simp
    have hshorter : rest'.length < n := by
      rw [← hn, hrest, List.length_append, List.length_cons]
      omega
    have hplace : done.length + (utf8 line).length + 1 = (done ++ utf8 line ++ [10]).length := by
      simp only [List.length_append, List.length_cons, List.length_nil]
    have hafter : ∀ b keys, (addBatchFrom other (done ++ utf8 line ++ 10 :: utf8 rest') b keys
        (done.length + (utf8 line).length + 1)).map left = addedLines other (rest'.splitOn '\n') b.acc keys := by
      intro b keys
      rw [hnext, hplace]
      exact ih _ hshorter rest' (done ++ utf8 line ++ [10]) b keys rfl
    have hmore : done.length < (done ++ utf8 line ++ 10 :: utf8 rest').length := by
      simp only [List.length_append, List.length_cons]
      omega
    rw [htext, addBatchFrom_step hline (by simp) hafter b keys hmore, hrest,
      List.splitOn_append_cons_self_of_not_mem hline, addedLines_cons]
  · -- the last line, which nothing follows
    have htext : done ++ utf8 rest = done ++ utf8 rest ++ [] := by simp
    have hafter : ∀ b keys, (addBatchFrom other (done ++ utf8 rest ++ []) b keys
        (done.length + (utf8 rest).length + 1)).map left = addedLines other [] b.acc keys := by
      intro b keys
      rw [addBatchFrom, dif_neg (by simp)]
      rfl
    rw [List.splitOn_eq_singleton hnewline, addedLines_cons]
    by_cases hempty : rest = []
    · subst hempty
      rw [addBatchFrom, dif_neg (by simp [utf8])]
      rfl
    · have hmore : done.length < (done ++ utf8 rest ++ []).length := by
        obtain ⟨c, line, rfl⟩ := List.exists_cons_of_ne_nil hempty
        obtain ⟨b, tail, hlead, -⟩ := encodeChar_lead c
        rw [utf8_cons, hlead]
        simp
      rw [htext, addBatchFrom_step hnewline (by simp) hafter b keys hmore]

theorem opensWith_utf8 (text line : List Char) : opensWith (utf8 text) (utf8 line) = line.isPrefixOf text := by
  rw [opensWith, Bool.eq_iff_iff, List.isPrefixOf_iff_prefix, List.isPrefixOf_iff_prefix]
  constructor
  · exact prefix_of_utf8
  · rintro ⟨more, rfl⟩
    exact ⟨utf8 more, (utf8_append _ _).symm⟩

/-- **Batched adds equal single adds**: a batch in UTF-8 leaves what its lines leave when
each is added on its own, counts the same keys, and a range hashes as its bytes do. -/
theorem batch_adds_lines (other : List Char → UInt8) (b : BatchBuilder) (text : List Char) :
    (addBatch other b (utf8 text)).map (fun r => (r.1.acc, r.2)) = addLines other b.acc text ∧
      ∀ (front : Bytes) (key : List Char) (back : Bytes) (seed : UInt32),
        murmur32Range (front ++ utf8 key ++ back) front.length (front.length + (utf8 key).length) seed =
          murmur32 (utf8 key) seed := by
  refine ⟨?_, fun front key back seed => murmur32Range_append front (utf8 key) back seed⟩
  have hwalk := @addBatchFrom_eq other text [] b 0
  rw [List.nil_append, List.length_nil] at hwalk
  have hread : ((addBatchFrom other (utf8 text) b 0 0).map left) =
      ((text.splitOn '\n').foldlM (addLine other) b.acc).map
        (·, ((text.splitOn '\n').filterMap keyLine).length) := by
    rw [hwalk, addedLines, Nat.zero_add]
  rw [addBatch, addLines, STAMP_LINE, TIERS_STAMP_LINE, opensWith_utf8, opensWith_utf8]
  cases hrun : addBatchFrom other (utf8 text) b 0 0 with
  | error e =>
    rw [hrun] at hread
    cases hfold : (text.splitOn '\n').foldlM (addLine other) b.acc with
    | error e' =>
      rw [hfold] at hread
      cases hread
      rfl
    | ok acc =>
      rw [hfold] at hread
      cases hread
  | ok r =>
    rw [hrun] at hread
    cases hfold : (text.splitOn '\n').foldlM (addLine other) b.acc with
    | error e' =>
      rw [hfold] at hread
      cases hread
    | ok acc =>
      obtain ⟨b', keys⟩ := r
      rw [hfold] at hread
      cases hread
      rfl

end Lines

end RoutingFilter
