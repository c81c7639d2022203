-- SUMMARY: The keyed blob answers each of its keys with its JSON: sorting, padding and offsets read back.
import Mathlib.Data.List.DropRight
import Mathlib.Data.List.Induction
import Sylvan.Engine.KeyedBlob

/-!
# Reading a blob back

The encoder's order of padded keys is the reader's order of bytes where the keys are ASCII,
and padding takes no two keys to one where none ends in a space. The header has two digits
for the width of a key.
-/

namespace KeyedBlob

open Text RustStr Throws Buffers

/-! ## ASCII -/

def Ascii (s : List Char) : Prop := ∀ c ∈ s, c.toNat ≤ 0x7f

theorem ascii_append {s t : List Char} : Ascii (s ++ t) ↔ Ascii s ∧ Ascii t := List.forall_mem_append

theorem ascii_spaces (n : ℕ) : Ascii (List.replicate n ' ') := by
  intro c hc
  rw [List.eq_of_mem_replicate hc]
  decide

theorem units_of_ascii {s : List Char} (h : Ascii s) : s.flatMap units = s.map Char.toNat := by
  induction s with
  | nil => rfl
  | cons c s ih =>
    have hc := h c List.mem_cons_self
    rw [List.flatMap_cons, ih fun d hd => h d (List.mem_cons_of_mem c hd), units, if_pos (by omega)]
    rfl

theorem order_utf8 {s : List Char} (h : Ascii s) : Probe.order (utf8 s) = s.flatMap units := by
  rw [units_of_ascii h]
  induction s with
  | nil => rfl
  | cons c s ih =>
    have hc := h c List.mem_cons_self
    have hrest := ih fun d hd => h d (List.mem_cons_of_mem c hd)
    have hbyte : Utf8.encodeChar c = [UInt8.ofNat c.toNat] := by
      unfold Utf8.encodeChar
      exact if_pos (by omega)
    have hvalue : (UInt8.ofNat c.toNat).toNat = c.toNat := by
      rw [UInt8.toNat_ofNat']
      omega
    simp only [utf8, Probe.order, List.flatMap_cons, hbyte, List.map_append, List.map_cons, List.map_nil, hvalue] at hrest ⊢
    rw [hrest]
    rfl

theorem length_utf8 {s : List Char} (h : Ascii s) : (utf8 s).length = unitLength s := by
  rw [unitLength, ← order_utf8 h, Probe.order, List.length_map]

theorem units_injective {s t : List Char} (hs : Ascii s) (ht : Ascii t) (h : s.flatMap units = t.flatMap units) : s = t := by
  rw [units_of_ascii hs, units_of_ascii ht] at h
  exact List.map_injective_iff.mpr (fun a b hab => Char.ext (UInt32.toNat_inj.mp hab)) h

/-! ## Padding -/

def Unspaced (key : List Char) : Prop := key.getLast? ≠ some ' '

theorem trim_padded {key : List Char} (h : Unspaced key) (n : ℕ) :
    (key ++ List.replicate n ' ').rdropWhile (· == ' ') = key := by
  induction n with
  | zero =>
    rw [List.replicate_zero, List.append_nil]
    rcases List.eq_nil_or_concat' key with rfl | ⟨front, c, rfl⟩
    · rfl
    · rw [Unspaced, List.getLast?_concat] at h
      exact List.rdropWhile_concat_neg _ _ _ (by simpa using h)
  | succ n ih =>
    rw [List.replicate_succ', ← List.append_assoc, List.rdropWhile_concat_pos _ _ _ (by simp), ih]

variable {w : ℕ}

theorem padKey_ok {key padded : List Char} : padKey key w = .ok padded ↔
    unitLength key ≤ w ∧ padded = key ++ List.replicate (w - unitLength key) ' ' := by
  unfold padKey
  split
  · rename_i hlong
    refine ⟨fun h => ?_, fun h => absurd h.1 (by omega)⟩
    cases h
  · rename_i hfits
    rw [Except.ok.injEq, eq_comm, and_iff_right (by omega)]

theorem padKey_ascii {key padded : List Char} (h : padKey key w = .ok padded) (hkey : Ascii key) :
    Ascii padded ∧ unitLength padded = w := by
  obtain ⟨hlen, rfl⟩ := padKey_ok.mp h
  have hpadded : Ascii (key ++ List.replicate (w - unitLength key) ' ') := ascii_append.mpr ⟨hkey, ascii_spaces _⟩
  refine ⟨hpadded, ?_⟩
  have hlength : unitLength key = key.length := by rw [unitLength, units_of_ascii hkey, List.length_map]
  rw [unitLength, units_of_ascii hpadded, List.length_map, List.length_append, List.length_replicate, hlength]
  omega

theorem padKey_injective {key key' padded : List Char} (hkey : Unspaced key) (hkey' : Unspaced key')
    (h : padKey key w = .ok padded) (h' : padKey key' w = .ok padded) : key = key' := by
  rw [← trim_padded hkey (w - unitLength key), ← trim_padded hkey' (w - unitLength key'), ← (padKey_ok.mp h).2,
    ← (padKey_ok.mp h').2]

/-! ## Digits -/

theorem hexDigit_digitChar {n : ℕ} (h : n < 16) : Utf8.encodeChar (Nat.digitChar n) = [UInt8.ofNat (Nat.digitChar n).toNat] ∧
      hexDigit (UInt8.ofNat (Nat.digitChar n).toNat) = some n := by
  have hall : ∀ d : Fin 16, Utf8.encodeChar (Nat.digitChar d) = [UInt8.ofNat (Nat.digitChar d).toNat] ∧
      hexDigit (UInt8.ofNat (Nat.digitChar d).toNat) = some d.val := by decide
  exact hall ⟨n, h⟩

theorem utf8_append (s t : List Char) : utf8 (s ++ t) = utf8 s ++ utf8 t := List.flatMap_append

theorem utf8_hex_succ (width n : ℕ) : utf8 (Fnv.hex (width + 1) n) =
    utf8 (Fnv.hex width (n / 16)) ++ [UInt8.ofNat (Nat.digitChar (n % 16)).toNat] := by
  rw [Fnv.hex, utf8_append]
  congr 1
  rw [utf8, List.flatMap_cons, (hexDigit_digitChar (Nat.mod_lt n (by omega))).1]
  rfl

theorem length_utf8_hex (width n : ℕ) : (utf8 (Fnv.hex width n)).length = width := by
  induction width generalizing n with
  | zero => rfl
  | succ width ih => rw [utf8_hex_succ, List.length_append, ih, List.length_singleton]

theorem readHex_hex {width n : ℕ} (h : n < 16 ^ width) (front back : Bytes) :
    readHex (front ++ (utf8 (Fnv.hex width n) ++ back)) front.length width = some n := by
  induction width generalizing n back with
  | zero =>
    obtain rfl : n = 0 := by simpa using h
    rfl
  | succ width ih =>
    have hdigit := hexDigit_digitChar (Nat.mod_lt n (show 16 > 0 by omega))
    have hhigh := @ih (n / 16) (by rw [pow_succ] at h; omega)
      ([UInt8.ofNat (Nat.digitChar (n % 16)).toNat] ++ back)
    rw [← List.append_assoc (utf8 _), ← utf8_hex_succ] at hhigh
    have hlast : (front ++ (utf8 (Fnv.hex (width + 1) n) ++ back))[front.length + width]? =
        some (UInt8.ofNat (Nat.digitChar (n % 16)).toNat) := by
      rw [List.getElem?_append_right (by omega), utf8_hex_succ, Nat.add_sub_cancel_left, List.append_assoc,
        List.getElem?_append_right (by rw [length_utf8_hex]), length_utf8_hex, Nat.sub_self]
      rfl
    rw [readHex, List.range_succ, List.foldlM_append]
    rw [readHex] at hhigh
    rw [hhigh]
    simp only [List.foldlM_cons, List.foldlM_nil, Option.bind_eq_bind, Option.bind_some, hlast, hdigit.2, Option.map_some]
    rw [show n / 16 * 16 + n % 16 = n by omega]
    rfl

theorem readHex_two {bytes : Bytes} {at_ n : ℕ} (h : readHex bytes at_ 2 = some n) : n ≤ 255 := by
  have hdigit : ∀ (i d : ℕ), (∃ code, bytes[at_ + i]? = some code ∧ hexDigit code = some d) → d ≤ 15 := by
    rintro i d ⟨code, _, hcode⟩
    unfold hexDigit at hcode
    split at hcode
    · obtain rfl := Option.some.inj hcode
      omega
    · split at hcode
      · obtain rfl := Option.some.inj hcode
        omega
      · cases hcode
  rw [readHex, show List.range 2 = [0, 1] from rfl] at h
  simp only [List.foldlM_cons, List.foldlM_nil, Option.bind_eq_bind, Option.bind_eq_some_iff, Option.map_eq_some_iff] at h
  obtain ⟨high, ⟨a, ha, rfl⟩, low, ⟨b, hb, rfl⟩, hn⟩ := h
  obtain rfl := Option.some.inj hn
  have hhigh := hdigit 0 a ha
  have hlow := hdigit 1 b hb
  omega

/-! ## The payloads -/

/-- Every range is where its JSON stands. -/
structure Laid (payload : Payload) : Prop where
  total : payload.payloadBytes = payload.payloads.flatten.length
  range : ∀ {json range}, payload.rangeOf.get json = some range →
    ∃ x y, payload.payloads.flatten = x ++ (utf8 json ++ y) ∧ range = (x.length, (utf8 json).length)

theorem Laid.add {payload : Payload} (h : Laid payload) (e : Padded) : Laid (payload.add e) := by
  unfold Payload.add
  split
  · exact h
  · constructor
    · dsimp only
      rw [List.flatten_append, List.flatten_singleton, List.length_append, h.total]
    · intro json range hget
      dsimp only at hget ⊢
      rw [JsMap.get_set] at hget
      rw [List.flatten_append, List.flatten_singleton]
      split at hget
      · rename_i heq
        obtain rfl := Option.some.inj hget
        exact ⟨payload.payloads.flatten, [], by rw [heq, List.append_nil], by rw [heq, h.total]⟩
      · obtain ⟨x, y, hflat, hrange⟩ := h.range hget
        exact ⟨x, y ++ utf8 e.json, by rw [hflat]; simp only [List.append_assoc], hrange⟩

theorem rangeOf_add (payload : Payload) (e : Padded) {json : List Char}
    (h : (payload.rangeOf.get json).isSome ∨ e.json = json) : ((payload.add e).rangeOf.get json).isSome := by
  unfold Payload.add
  split
  · rename_i hseen
    exact h.elim id fun heq => heq ▸ hseen
  · dsimp only
    rw [JsMap.get_set]
    split
    · rfl
    · rename_i hne
      exact h.resolve_right hne

theorem laid_payloadOf (sorted : List Padded) : Laid (payloadOf sorted) ∧
    ∀ e ∈ sorted, ((payloadOf sorted).rangeOf.get e.json).isSome := by
  unfold payloadOf
  induction sorted using List.reverseRecOn with
  | nil => exact ⟨⟨rfl, nofun⟩, nofun⟩
  | append_singleton sorted e ih =>
    rw [List.foldl_append, List.foldl_cons, List.foldl_nil]
    refine ⟨ih.1.add e, ?_⟩
    intro other hother
    rcases List.mem_append.mp hother with hold | hnew
    · exact rangeOf_add _ _ (.inl (ih.2 other hold))
    · exact rangeOf_add _ _ (.inr (congrArg Padded.json (List.mem_singleton.mp hnew).symm))

/-! ## The layout -/

def Fitting (w : ℕ) (sorted : List Padded) : Prop := ∀ e ∈ sorted, Ascii e.padded ∧ unitLength e.padded = w

theorem hex_eq {value width : ℕ} (hwidth : 0 < width) (h : value < 16 ^ width) : hex value width = Fnv.hex width value :=
  Fnv.leftpad_toDigits hwidth h

theorem headerOf_eq {w count : ℕ} (hw : w ≤ 255) (hcount : count < 2 ^ 32) : headerOf w count =
    utf8 MAGIC ++ (utf8 (Fnv.hex 2 1) ++ (utf8 (Fnv.hex 2 w) ++ (utf8 (Fnv.hex 8 count) ++ utf8 ['\n']))) := by
  rw [headerOf, hex_eq (by omega) (by norm_num), hex_eq (by omega) (by omega), hex_eq (by omega) (by omega)]
  simp only [utf8_append, List.append_assoc]

theorem length_headerOf {w count : ℕ} (hw : w ≤ 255) (hcount : count < 2 ^ 32) : (headerOf w count).length = HEADER_BYTES := by
  rw [headerOf_eq hw hcount]
  simp only [List.length_append, length_utf8_hex]
  rfl

variable {sorted : List Padded}

theorem indexEntry_eq {e : Padded} (he : e ∈ sorted)
    (hsize : (payloadOf sorted).payloadBytes < 2 ^ 32) : ∃ x y, (payloadOf sorted).payloads.flatten = x ++ (utf8 e.json ++ y) ∧
      indexEntry (payloadOf sorted) e =
        utf8 e.padded ++ (utf8 (Fnv.hex 8 x.length) ++ utf8 (Fnv.hex 8 (utf8 e.json).length)) ∧
      x.length < 16 ^ 8 ∧ (utf8 e.json).length < 16 ^ 8 := by
  obtain ⟨hlaid, hseen⟩ := laid_payloadOf sorted
  obtain ⟨range, hrange⟩ := Option.isSome_iff_exists.mp (hseen e he)
  obtain ⟨x, y, hflat, rfl⟩ := hlaid.range hrange
  have htotal := hlaid.total
  rw [hflat] at htotal
  simp only [List.length_append] at htotal
  have hx : x.length < 16 ^ 8 := by omega
  have hlength : (utf8 e.json).length < 16 ^ 8 := by omega
  refine ⟨x, y, hflat, ?_, hx, hlength⟩
  rw [indexEntry, hrange]
  dsimp only [Option.getD_some]
  rw [OFFSET_HEX_BYTES, hex_eq (by omega) hx, hex_eq (by omega) hlength, utf8_append, utf8_append, List.append_assoc]

theorem length_indexEntry {e : Padded} (hfit : Fitting w sorted) (he : e ∈ sorted)
    (hsize : (payloadOf sorted).payloadBytes < 2 ^ 32) :
    (indexEntry (payloadOf sorted) e).length = w + 2 * OFFSET_HEX_BYTES := by
  obtain ⟨x, y, _, hentry, _, _⟩ := indexEntry_eq he hsize
  obtain ⟨hascii, hwidth⟩ := hfit e he
  rw [hentry, List.length_append, List.length_append, length_utf8_hex, length_utf8_hex, length_utf8 hascii, hwidth]
  rfl

/-- A blob whose numbers fit their digits. -/
structure Layout (w : ℕ) (sorted : List Padded) (blob : Bytes) : Prop where
  width : w ≤ 255
  fitting : Fitting w sorted
  size : HEADER_BYTES + sorted.length * (w + 2 * OFFSET_HEX_BYTES) + (payloadOf sorted).payloadBytes < 2 ^ 32
  bytes : blob = headerOf w sorted.length ++
    (sorted.flatMap (indexEntry (payloadOf sorted)) ++ (payloadOf sorted).payloads.flatten)

variable {blob : Bytes}

theorem Layout.count_lt (h : Layout w sorted blob) : sorted.length < 2 ^ 32 := by
  have hsize := h.size
  have hle : sorted.length ≤ sorted.length * (w + 2 * OFFSET_HEX_BYTES) :=
    Nat.le_mul_of_pos_right _ (by rw [OFFSET_HEX_BYTES]; omega)
  omega

theorem length_flatMap_entries {sorted entries : List Padded} (hentries : ∀ e ∈ entries, e ∈ sorted)
    (hfit : Fitting w sorted) (hsize : (payloadOf sorted).payloadBytes < 2 ^ 32) :
    (entries.flatMap (indexEntry (payloadOf sorted))).length = entries.length * (w + 2 * OFFSET_HEX_BYTES) := by
  induction entries with
  | nil => simp
  | cons e entries ih =>
    rw [List.flatMap_cons, List.length_append, length_indexEntry hfit (hentries e List.mem_cons_self) hsize,
      ih fun e he => hentries e (List.mem_cons_of_mem _ he), List.length_cons, Nat.add_mul, Nat.one_mul, Nat.add_comm]

variable {isolate : Isolate} {entries : List KeyedEntry}

theorem encode_layout (hsorted : sortedOf entries w = .ok sorted) (hw : w ≤ 255) (hfit : Fitting w sorted)
    (h : encodeKeyedBlob isolate entries w = .ok blob) : Layout w sorted blob := by
  have hmax := isolate.maxBytes_lt
  unfold encodeKeyedBlob at h
  rw [bind_ok hsorted] at h
  dsimp only at h
  obtain ⟨zeros, halloc, h⟩ := ok_of_bind h
  unfold alloc at halloc
  split at halloc
  · rename_i hroom
    obtain rfl := Except.ok.inj halloc
    have hcount : sorted.length < 2 ^ 32 := by
      have hle : sorted.length ≤ sorted.length * (w + 2 * OFFSET_HEX_BYTES) :=
        Nat.le_mul_of_pos_right _ (by rw [OFFSET_HEX_BYTES]; omega)
      omega
    have hsize : (payloadOf sorted).payloadBytes < 2 ^ 32 := by omega
    have hheader := length_headerOf hw hcount
    have htotal := (laid_payloadOf sorted).1.total
    have hentry : ∀ e ∈ sorted, (indexEntry (payloadOf sorted) e).length = w + 2 * OFFSET_HEX_BYTES :=
      fun e he => length_indexEntry hfit he hsize
    -- The buffer's zeros are the header's, the index's and the payload's.
    rw [List.replicate_add, List.replicate_add, List.append_assoc] at h
    have hwrite := @write_append _ Thrown.range (headerOf w sorted.length) (List.replicate HEADER_BYTES 0)
      (by rw [List.length_replicate, hheader]) []
      (List.replicate (sorted.length * (w + 2 * OFFSET_HEX_BYTES)) 0 ++ List.replicate (payloadOf sorted).payloadBytes 0)
    rw [List.nil_append, List.nil_append, List.length_nil] at hwrite
    rw [bind_ok hwrite] at h
    rw [bind_ok (writeEach_append hentry hheader List.length_replicate _), ← List.append_assoc] at h
    have hat : HEADER_BYTES + sorted.length * (w + 2 * OFFSET_HEX_BYTES) =
        (headerOf w sorted.length ++ sorted.flatMap (indexEntry (payloadOf sorted))).length := by
      rw [List.length_append, hheader, length_flatMap_entries (fun _ he => he) hfit hsize]
    have hlast := @writeAll_append _ Thrown.range (payloadOf sorted).payloads
      (headerOf w sorted.length ++ sorted.flatMap (indexEntry (payloadOf sorted)))
      (List.replicate (payloadOf sorted).payloadBytes 0) (by rw [List.length_replicate, htotal]) []
    rw [List.append_nil, List.append_nil, ← hat] at hlast
    rw [bind_ok hlast] at h
    obtain rfl := Except.ok.inj h
    exact ⟨hw, hfit, by omega, by rw [List.append_assoc]⟩
  · cases halloc

/-! ## The lookup -/

namespace Layout

variable {w : ℕ} {sorted : List Padded} {blob : Bytes}

theorem lookup_eq (h : Layout w sorted blob) (key : List Char) : keyedBlobLookup blob key =
    if w < unitLength key then .ok none else searchIndex blob key w sorted.length := by
  have hcount := h.count_lt
  have hblob := h.bytes
  generalize sorted.flatMap (indexEntry (payloadOf sorted)) ++ (payloadOf sorted).payloads.flatten = rest at hblob
  have hlong : ¬ blob.length < HEADER_BYTES := by
    rw [hblob, List.length_append, length_headerOf h.width hcount]
    omega
  rw [headerOf_eq h.width hcount] at hblob
  simp only [List.append_assoc] at hblob
  have hmagic : (utf8 MAGIC).length = 4 := rfl
  have htake : blob.take MAGIC.length = utf8 MAGIC := by
    rw [hblob, show MAGIC.length = (utf8 MAGIC).length from rfl, List.take_left]
  have hversion : readHex blob 4 2 = some 1 := by
    have hread := readHex_hex (show 1 < 16 ^ 2 by norm_num) (utf8 MAGIC)
      (utf8 (Fnv.hex 2 w) ++ (utf8 (Fnv.hex 8 sorted.length) ++ (utf8 ['\n'] ++ rest)))
    rwa [hmagic, ← hblob] at hread
  have hwidth : readHex blob 6 2 = some w := by
    have hread := readHex_hex (show w < 16 ^ 2 by have := h.width; omega) (utf8 MAGIC ++ utf8 (Fnv.hex 2 1))
      (utf8 (Fnv.hex 8 sorted.length) ++ (utf8 ['\n'] ++ rest))
    rwa [List.append_assoc, ← hblob, List.length_append, length_utf8_hex, hmagic] at hread
  have hnumber : readHex blob 8 8 = some sorted.length := by
    have hread := readHex_hex (show sorted.length < 16 ^ 8 by omega)
      (utf8 MAGIC ++ (utf8 (Fnv.hex 2 1) ++ utf8 (Fnv.hex 2 w))) (utf8 ['\n'] ++ rest)
    simp only [List.append_assoc] at hread
    rwa [← hblob, List.length_append, List.length_append, length_utf8_hex, length_utf8_hex, hmagic] at hread
  rw [keyedBlobLookup, if_neg hlong, if_neg (not_not.mpr htake), if_neg (not_not.mpr hversion), hwidth, hnumber]

theorem payload_size (h : Layout w sorted blob) : (payloadOf sorted).payloadBytes < 2 ^ 32 := by
  have hsize := h.size
  omega

theorem length_front (h : Layout w sorted blob) :
    (headerOf w sorted.length ++ sorted.flatMap (indexEntry (payloadOf sorted))).length =
      HEADER_BYTES + sorted.length * (w + 2 * OFFSET_HEX_BYTES) := by
  rw [List.length_append, length_headerOf h.width h.count_lt, length_flatMap_entries (fun _ he => he) h.fitting h.payload_size]

theorem entry_at (h : Layout w sorted blob) {before after : List Padded} {e : Padded} (hsplit : sorted = before ++ e :: after) :
    ((blob.drop (HEADER_BYTES + before.length * (w + 2 * OFFSET_HEX_BYTES))).take w = utf8 e.padded) ∧
    answer blob (HEADER_BYTES + sorted.length * (w + 2 * OFFSET_HEX_BYTES))
      (HEADER_BYTES + before.length * (w + 2 * OFFSET_HEX_BYTES)) w = .ok (some (utf8 e.json)) := by
  have he : e ∈ sorted := by
    rw [hsplit]
    exact List.mem_append_right _ List.mem_cons_self
  obtain ⟨hascii, hunits⟩ := h.fitting e he
  have hpadded : (utf8 e.padded).length = w := by rw [length_utf8 hascii, hunits]
  obtain ⟨x, y, hflat, hentry, hx, hlength⟩ := indexEntry_eq he h.payload_size
  have hbefore : ∀ other ∈ before, other ∈ sorted := fun other hother => by
    rw [hsplit]
    exact List.mem_append_left _ hother
  have hfront := length_flatMap_entries hbefore h.fitting h.payload_size
  -- The blob around the entry, and around its JSON.
  have haround : ∃ front rest, blob = front ++ (utf8 e.padded ++ (utf8 (Fnv.hex 8 x.length) ++
      (utf8 (Fnv.hex 8 (utf8 e.json).length) ++ rest))) ∧
      front.length = HEADER_BYTES + before.length * (w + 2 * OFFSET_HEX_BYTES) := by
    refine ⟨headerOf w sorted.length ++ before.flatMap (indexEntry (payloadOf sorted)),
      after.flatMap (indexEntry (payloadOf sorted)) ++ (payloadOf sorted).payloads.flatten, ?_, ?_⟩
    · have hindex : sorted.flatMap (indexEntry (payloadOf sorted)) = before.flatMap (indexEntry (payloadOf sorted)) ++
          (indexEntry (payloadOf sorted) e ++ after.flatMap (indexEntry (payloadOf sorted))) := by
        conv_lhs => rw [hsplit]
        rw [List.flatMap_append, List.flatMap_cons, ← hsplit]
      rw [h.bytes, hindex, hentry]
      simp only [List.append_assoc]
    · rw [List.length_append, length_headerOf h.width h.count_lt, hfront]
  have hpayload := h.length_front
  have hwhole : blob = (headerOf w sorted.length ++ sorted.flatMap (indexEntry (payloadOf sorted))) ++
      (x ++ (utf8 e.json ++ y)) := by rw [h.bytes, hflat, List.append_assoc]
  obtain ⟨front, rest, hblob, hat⟩ := haround
  rw [← hat, ← hpayload]
  generalize headerOf w sorted.length ++ sorted.flatMap (indexEntry (payloadOf sorted)) = all at hwhole
  constructor
  · rw [hblob, List.drop_left, ← hpadded, List.take_left]
  · have hoffset : readHex blob (front.length + w) OFFSET_HEX_BYTES = some x.length := by
      have hread := readHex_hex hx (front ++ utf8 e.padded) (utf8 (Fnv.hex 8 (utf8 e.json).length) ++ rest)
      rwa [List.append_assoc, ← hblob, List.length_append, hpadded] at hread
    have hlen : readHex blob (front.length + w + OFFSET_HEX_BYTES) OFFSET_HEX_BYTES = some (utf8 e.json).length := by
      have hread := readHex_hex hlength (front ++ (utf8 e.padded ++ utf8 (Fnv.hex 8 x.length))) rest
      simp only [List.append_assoc] at hread
      rwa [← hblob, List.length_append, List.length_append, length_utf8_hex, hpadded, ← Nat.add_assoc] at hread
    have hfits : ¬ blob.length < all.length + x.length + (utf8 e.json).length := by
      rw [hwhole]
      simp only [List.length_append]
      omega
    have hslice : blob.subarray (all.length + x.length) (all.length + x.length + (utf8 e.json).length) = utf8 e.json := by
      rw [Bytes.subarray, hwhole, ← List.append_assoc, ← List.length_append, List.drop_left, Nat.add_sub_cancel_left,
        List.take_left]
    rw [answer, hoffset, hlen]
    dsimp only
    rw [if_neg hfits, hslice]

theorem search_eq (h : Layout w sorted blob) (hsorted : (sorted.map Padded.order).Pairwise (· < ·)) {key padded : List Char}
    (hkey : Ascii key) (hpad : padKey key w = .ok padded) :
    (∀ e ∈ sorted, e.padded = padded → searchIndex blob key w sorted.length = .ok (some (utf8 e.json))) ∧
    ((∀ e ∈ sorted, e.padded ≠ padded) → searchIndex blob key w sorted.length = .ok none) := by
  obtain ⟨hascii, hunits⟩ := padKey_ascii hpad hkey
  have hroom : ¬ blob.length < HEADER_BYTES + sorted.length * (w + 2 * OFFSET_HEX_BYTES) := by
    rw [← h.length_front, h.bytes, ← List.append_assoc, List.length_append]
    omega
  have hcompares : Probe.Compares (fun mid => Probe.compareBytes
      ((blob.drop (HEADER_BYTES + mid * (w + 2 * OFFSET_HEX_BYTES))).take w) (utf8 padded))
      (sorted.map Padded.order) (padded.flatMap units) := by
    have hall : ∀ i (hi : i < (sorted.map Padded.order).length), ∃ e, (sorted.map Padded.order)[i] = Probe.order (utf8 e) ∧
        (blob.drop (HEADER_BYTES + i * (w + 2 * OFFSET_HEX_BYTES))).take w = utf8 e ∧ (utf8 e).length = (utf8 padded).length := by
      intro i hi
      rw [List.length_map] at hi
      have hsplit : sorted = sorted.take i ++ sorted[i] :: sorted.drop (i + 1) := by
        rw [List.getElem_cons_drop, List.take_append_drop]
      have hat := (h.entry_at hsplit).1
      rw [List.length_take, Nat.min_eq_left hi.le] at hat
      obtain ⟨he, hwidth⟩ := h.fitting _ (List.getElem_mem hi)
      exact ⟨sorted[i].padded, by rw [List.getElem_map, order_utf8 he]; rfl, hat,
        by rw [length_utf8 he, length_utf8 hascii, hwidth, hunits]⟩
    rw [← order_utf8 hascii]
    constructor
    all_goals
      intro i hi
      obtain ⟨e, hkey, hat, hlength⟩ := hall i hi
      have hspec := Probe.compareBytes_spec hlength
      rw [hkey, hat]
    · exact hspec.1
    · exact hspec.2.1
    · exact hspec.2.2
  have hrun : searchIndex blob key w sorted.length = answerAt blob w sorted.length
      (Probe.search (fun mid => Probe.compareBytes
        ((blob.drop (HEADER_BYTES + mid * (w + 2 * OFFSET_HEX_BYTES))).take w) (utf8 padded)) 0 sorted.length) := by
    rw [searchIndex]
    dsimp only
    rw [if_neg hroom, bind_ok hpad]
  have hlength : sorted.length = (sorted.map Padded.order).length := by rw [List.length_map]
  constructor
  · intro e he heq
    obtain ⟨before, after, hsplit⟩ := List.append_of_mem he
    have hfound := (Probe.search_eq_some hcompares hsorted (i := before.length)).mpr (by
      rw [hsplit, List.map_append, List.map_cons, ← List.length_map Padded.order, List.getElem?_append_right (Nat.le_refl _),
        Nat.sub_self]
      rw [← heq]
      rfl)
    rw [← hlength] at hfound
    rw [hrun, hfound]
    exact (h.entry_at hsplit).2
  · intro hnone
    have hmissed := (Probe.search_eq_none hcompares hsorted).mpr (by
      intro hmem
      obtain ⟨e, he, horder⟩ := List.mem_map.mp hmem
      exact hnone e he (units_injective (h.fitting e he).1 hascii horder))
    rw [← hlength] at hmissed
    rw [hrun, hmissed, answerAt]

end Layout

/-! ## Keys and their JSON -/

theorem byKey_get {byKey : JsMap (List Char) (List Char)}
    (h : entries.foldlM keepKey .empty = .ok byKey) (key json : List Char) :
    byKey.get key = some json ↔ ⟨key, json⟩ ∈ entries := by
  induction entries using List.reverseRecOn generalizing byKey with
  | nil =>
    obtain rfl := Except.ok.inj h
    simp
  | append_singleton entries e ih =>
    rw [List.foldlM_append] at h
    obtain ⟨before, hbefore, h⟩ := ok_of_bind h
    have hset : byKey = before.set e.key e.json ∧ ∀ other, before.get e.key = some other → other = e.json := by
      obtain ⟨after, hafter, hlast⟩ := ok_of_bind h
      obtain rfl := Except.ok.inj hlast
      unfold keepKey at hafter
      split at hafter
      · rename_i existing hexisting
        split at hafter
        · cases hafter
        · rename_i hsame
          refine ⟨(Except.ok.inj hafter).symm, fun other hother => ?_⟩
          rw [hexisting] at hother
          rw [← Option.some.inj hother]
          exact not_not.mp hsame
      · rename_i hnone
        refine ⟨(Except.ok.inj hafter).symm, fun other hother => ?_⟩
        rw [hnone] at hother
        cases hother
    rw [hset.1, JsMap.get_set, List.mem_append, List.mem_singleton, ← ih hbefore]
    split
    · rename_i heq
      subst heq
      constructor
      · rintro hjson
        exact .inr (by rw [Option.some.inj hjson.symm])
      · rintro (hold | hnew)
        · exact congrArg some (hset.2 json hold).symm
        · rw [← congrArg KeyedEntry.json hnew]
    · rename_i hne
      exact ⟨.inl, fun hmem => hmem.resolve_right fun hnew => hne (congrArg KeyedEntry.key hnew).symm⟩

theorem sortedOf_spec (h : sortedOf entries w = .ok sorted)
    (hkeys : ∀ e ∈ entries, Ascii e.key ∧ Unspaced e.key) :
    (∀ e ∈ sorted, ∃ key, ⟨key, e.json⟩ ∈ entries ∧ padKey key w = .ok e.padded) ∧
    (∀ e ∈ entries, ∃ padded, padKey e.key w = .ok padded ∧ ⟨padded, e.json⟩ ∈ sorted) ∧
    (sorted.map Padded.order).Pairwise (· < ·) := by
  unfold sortedOf at h
  obtain ⟨byKey, hbyKey, h⟩ := ok_of_bind h
  obtain ⟨padded, hpadded, h⟩ := ok_of_bind h
  obtain rfl := Except.ok.inj h
  have hget := byKey_get hbyKey
  have hpair : ∀ pair ∈ byKey.entries, ⟨pair.1, pair.2⟩ ∈ entries :=
    fun pair hp => (hget pair.1 pair.2).mp (JsMap.mem_entries.mp hp)
  have hpad : ∀ pair ∈ byKey.entries, padKey pair.1 w = .ok (pair.1 ++ List.replicate (w - unitLength pair.1) ' ') := by
    intro pair hp
    obtain ⟨_, hstep⟩ := ok_of_mem_mapM hpadded hp
    obtain ⟨padded, hpad, _⟩ := ok_of_bind hstep
    rw [hpad, (padKey_ok.mp hpad).2]
  have hmap : padded = byKey.entries.map fun pair =>
      (⟨pair.1 ++ List.replicate (w - unitLength pair.1) ' ', pair.2⟩ : Padded) := by
    refine (Except.ok.inj ((mapM_ok ?_).symm.trans hpadded)).symm
    intro pair hp
    rw [padEntry, bind_ok (hpad pair hp)]
    rfl
  have hperm := SortedRuns.perm_sortBy Padded.order padded
  refine ⟨?_, ?_, ?_⟩
  · intro e he
    have hmem := hperm.mem_iff.mp he
    rw [hmap] at hmem
    obtain ⟨pair, hp, rfl⟩ := List.mem_map.mp hmem
    exact ⟨pair.1, hpair pair hp, hpad pair hp⟩
  · intro e he
    have hp : (e.key, e.json) ∈ byKey.entries := JsMap.mem_entries.mpr ((hget e.key e.json).mpr he)
    refine ⟨_, hpad _ hp, hperm.mem_iff.mpr ?_⟩
    rw [hmap]
    exact List.mem_map_of_mem hp
  · have hnodup : (padded.map Padded.order).Nodup := by
      rw [hmap, List.map_map]
      refine List.Nodup.map_on ?_ (List.Nodup.of_map _ byKey.nodup)
      intro a ha b hb hab
      obtain ⟨hascii, hunspaced⟩ := hkeys _ (hpair a ha)
      obtain ⟨hascii', hunspaced'⟩ := hkeys _ (hpair b hb)
      have hsame := units_injective (padKey_ascii (hpad a ha) hascii).1 (padKey_ascii (hpad b hb) hascii').1 hab
      have hb' := hpad b hb
      rw [← hsame] at hb'
      have hkey : a.1 = b.1 := padKey_injective hunspaced hunspaced' (hpad a ha) hb'
      have hbyA := JsMap.mem_entries.mp ha
      rw [hkey, JsMap.mem_entries.mp hb] at hbyA
      exact Prod.ext hkey (Option.some.inj hbyA).symm
    exact List.pairwise_map.mpr (SortedRuns.sortedBy_sortBy hnodup)

theorem lookup_encoded (hw : w ≤ 255)
    (hkeys : ∀ e ∈ entries, Ascii e.key ∧ Unspaced e.key) (h : encodeKeyedBlob isolate entries w = .ok blob)
    {key : List Char} (hascii : Ascii key) (hunspaced : Unspaced key) :
    (∀ json, ⟨key, json⟩ ∈ entries → keyedBlobLookup blob key = .ok (some (utf8 json))) ∧
    ((∀ e ∈ entries, e.key ≠ key) → keyedBlobLookup blob key = .ok none) := by
  obtain ⟨sorted, hsorted, _⟩ := ok_of_bind h
  obtain ⟨hfrom, hinto, hordered⟩ := sortedOf_spec hsorted hkeys
  have hfit : Fitting w sorted := by
    intro e he
    obtain ⟨key, hmem, hpad⟩ := hfrom e he
    exact padKey_ascii hpad (hkeys _ hmem).1
  have hlayout := encode_layout hsorted hw hfit h
  rw [hlayout.lookup_eq key]
  split
  · rename_i hlong
    refine ⟨fun json hmem => ?_, fun _ => rfl⟩
    obtain ⟨padded, hpad, _⟩ := hinto _ hmem
    exact absurd (padKey_ok.mp hpad).1 (by dsimp only; omega)
  · rename_i hshort
    have hpad : padKey key w = .ok (key ++ List.replicate (w - unitLength key) ' ') := padKey_ok.mpr ⟨by omega, rfl⟩
    obtain ⟨hfound, hmissed⟩ := hlayout.search_eq hordered hascii hpad
    constructor
    · intro json hmem
      obtain ⟨padded, hpad', hin⟩ := hinto _ hmem
      rw [hpad] at hpad'
      exact hfound _ hin (Except.ok.inj hpad').symm
    · intro hnone
      refine hmissed fun e he heq => ?_
      obtain ⟨key', hmem, hpad'⟩ := hfrom e he
      rw [heq] at hpad'
      exact hnone _ hmem (padKey_injective (hkeys _ hmem).2 hunspaced hpad' hpad)

/-! ## Wider keys -/

theorem unitLength_of_lookup {key : List Char} {json : Bytes} (h : keyedBlobLookup blob key = .ok (some json)) :
    unitLength key ≤ 255 := by
  unfold keyedBlobLookup at h
  split at h
  · cases h
  · split at h
    · cases h
    · split at h
      · cases h
      · split at h
        · rename_i keyWidth count hwidth hcount
          have hbound := readHex_two hwidth
          split at h
          · cases h
          · omega
        · cases h

theorem length_headerOf_wide {w count : ℕ} (hw : 255 < w) (hcount : count < 2 ^ 32) :
    HEADER_BYTES < (headerOf w count).length ∧ (headerOf w count).length ≤ w + HEADER_BYTES := by
  have hmany : ¬ (Nat.toDigits 16 w).length ≤ 2 := by
    rw [Nat.length_toDigits_le_iff (by omega) (by omega)]
    omega
  have hfew : (Nat.toDigits 16 w).length ≤ w := by
    rw [Nat.length_toDigits_le_iff (by omega) (by omega)]
    exact Nat.lt_pow_self (by omega)
  have hlt : w < 16 ^ (Nat.toDigits 16 w).length := (Nat.length_toDigits_le_iff (by omega) (by omega)).mp (Nat.le_refl _)
  have hdigits : hex w 2 = Fnv.hex (Nat.toDigits 16 w).length w := by
    rw [← Fnv.leftpad_toDigits (by omega) hlt, hex, List.leftpad, List.leftpad, show 2 - (Nat.toDigits 16 w).length = 0 by omega,
      Nat.sub_self]
  have hlength : (headerOf w count).length = 15 + (Nat.toDigits 16 w).length := by
    rw [headerOf, hex_eq (by omega) (by omega), hdigits, hex_eq (by omega) (by omega)]
    simp only [utf8_append, List.length_append, length_utf8_hex]
    rw [show (utf8 MAGIC).length = 4 from rfl, show (utf8 ['\n']).length = 1 from rfl]
    omega
  rw [hlength, HEADER_BYTES]
  omega

/-- Whether lookups in the blobs of a width return what was stored. -/
def Answers (isolate : Isolate) (w : ℕ) : Prop :=
  ∀ entries blob, (entries.map KeyedEntry.key).Nodup → (∀ e ∈ entries, Ascii e.key ∧ Unspaced e.key) →
    encodeKeyedBlob isolate entries w = .ok blob → ∀ key, Ascii key → Unspaced key →
      keyedBlobLookup blob key = .ok ((entries.find? (·.key = key)).map fun e => utf8 e.json)

theorem answers_narrow (isolate : Isolate) (hw : w ≤ 255) : Answers isolate w := by
  intro entries blob _ hkeys hencode key hascii hunspaced
  obtain ⟨hfound, hmissed⟩ := lookup_encoded hw hkeys hencode hascii hunspaced
  cases hfind : entries.find? (·.key = key) with
  | none =>
    refine hmissed fun e he heq => ?_
    have hno := List.find?_eq_none.mp hfind e he
    simp [heq] at hno
  | some e =>
    have hkey : e.key = key := by simpa using List.find?_some hfind
    have hmem := List.mem_of_find?_eq_some hfind
    rw [← hkey] at hfound ⊢
    exact hfound e.json hmem

theorem room_of_encoded (hw : 255 < w)
    (h : encodeKeyedBlob isolate entries w = .ok blob) : w + 33 ≤ isolate.maxBytes := by
  obtain ⟨sorted, _, h⟩ := ok_of_bind h
  obtain ⟨zeros, halloc, h⟩ := ok_of_bind h
  obtain ⟨headed, hheaded, _⟩ := ok_of_bind h
  unfold alloc at halloc
  split at halloc
  · rename_i hroom
    obtain rfl := Except.ok.inj halloc
    cases sorted with
    | nil =>
      have hwide := (length_headerOf_wide hw (show 0 < 2 ^ 32 by omega)).1
      unfold write at hheaded
      split at hheaded
      · rename_i hfits
        rw [List.length_replicate, Nat.zero_add] at hfits
        simp only [List.length_nil, Nat.zero_mul, Nat.add_zero, payloadOf, List.foldl_nil] at hfits
        omega
      · cases hheaded
    | cons e rest =>
      rw [List.length_cons, Nat.add_mul, Nat.one_mul, HEADER_BYTES, OFFSET_HEX_BYTES] at hroom
      omega
  · cases halloc

def longKey (w : ℕ) : List Char := List.replicate w 'a'

theorem longKey_plain (w : ℕ) : Ascii (longKey w) ∧ Unspaced (longKey w) ∧ unitLength (longKey w) = w := by
  have hascii : Ascii (longKey w) := by
    intro c hc
    rw [List.eq_of_mem_replicate hc]
    decide
  refine ⟨hascii, ?_, ?_⟩
  · intro hlast
    have hmem := List.mem_of_getLast? hlast
    exact absurd (List.eq_of_mem_replicate hmem) (by decide)
  · rw [unitLength, units_of_ascii hascii, List.length_map, longKey, List.length_replicate]

theorem encode_longKey (hw : 255 < w) (hroom : w + 33 ≤ isolate.maxBytes) :
    ∃ blob, encodeKeyedBlob isolate [⟨longKey w, []⟩] w = .ok blob := by
  obtain ⟨hascii, _, hunits⟩ := longKey_plain w
  have hpad : padKey (longKey w) w = .ok (longKey w) := padKey_ok.mpr ⟨hunits.le, by rw [hunits, Nat.sub_self]; simp⟩
  have hsorted : sortedOf [⟨longKey w, []⟩] w = .ok [⟨longKey w, []⟩] := by
    have hbyKey : [(⟨longKey w, []⟩ : KeyedEntry)].foldlM keepKey .empty = .ok (JsMap.empty.set (longKey w) []) := rfl
    rw [sortedOf, bind_ok hbyKey]
    have hentries : (JsMap.empty.set (longKey w) ([] : List Char)).entries = [(longKey w, [])] := rfl
    have hone : padEntry w (longKey w, []) = .ok ⟨longKey w, []⟩ := by
      rw [padEntry, bind_ok hpad]
      rfl
    have hpadded : [(longKey w, ([] : List Char))].mapM (padEntry w) = .ok [⟨longKey w, []⟩] := by
      rw [List.mapM_cons, bind_ok hone]
      rfl
    rw [hentries, bind_ok hpadded]
    rfl
  have hpayload : payloadOf [⟨longKey w, []⟩] = ⟨JsMap.empty.set [] (0, 0), [[]], 0⟩ := rfl
  have hentry : (indexEntry ⟨JsMap.empty.set [] (0, 0), [[]], 0⟩ ⟨longKey w, []⟩).length = w + 16 := by
    have hrange : (JsMap.empty.set ([] : List Char) ((0, 0) : ℕ × ℕ)).get [] = some (0, 0) := rfl
    rw [indexEntry, hrange]
    dsimp only [Option.getD_some]
    rw [OFFSET_HEX_BYTES, hex_eq (by omega) (by omega), utf8_append, utf8_append, List.length_append, List.length_append,
      length_utf8_hex, length_utf8 hascii, hunits]
  obtain ⟨_, hheader⟩ := length_headerOf_wide hw (show 1 < 2 ^ 32 by omega)
  have hwrite : ∀ {bytes source : Bytes} {at_ : ℕ}, at_ + source.length ≤ bytes.length →
      ∃ bytes', write Thrown.range bytes source at_ = .ok bytes' ∧ bytes'.length = bytes.length := by
    intro bytes source at_ hfits
    have hok : write Thrown.range bytes source at_ = .ok _ := if_pos hfits
    exact ⟨_, hok, length_write hok⟩
  unfold encodeKeyedBlob
  rw [bind_ok hsorted]
  dsimp only
  rw [hpayload]
  have halloc : alloc Thrown.range isolate (HEADER_BYTES + 1 * (w + 2 * OFFSET_HEX_BYTES) + 0) =
      .ok (List.replicate (HEADER_BYTES + 1 * (w + 2 * OFFSET_HEX_BYTES) + 0) 0) :=
    if_pos (by rw [HEADER_BYTES, OFFSET_HEX_BYTES]; omega)
  simp only [List.length_singleton]
  rw [bind_ok halloc]
  generalize hzeros : List.replicate (HEADER_BYTES + 1 * (w + 2 * OFFSET_HEX_BYTES) + 0) (0 : UInt8) = zeros
  have hroomy : zeros.length = w + 33 := by
    rw [← hzeros, List.length_replicate, HEADER_BYTES, OFFSET_HEX_BYTES]
    omega
  obtain ⟨headed, hheaded, hlen⟩ := @hwrite zeros (headerOf w 1) 0 (by rw [hroomy]; rw [HEADER_BYTES] at hheader; omega)
  obtain ⟨indexed, hindexed, hlen'⟩ := @hwrite headed (indexEntry ⟨JsMap.empty.set [] (0, 0), [[]], 0⟩ ⟨longKey w, []⟩)
    (HEADER_BYTES + 0 * (w + 2 * OFFSET_HEX_BYTES)) (by rw [hentry, hlen, hroomy, HEADER_BYTES]; omega)
  obtain ⟨blob, hblob, _⟩ := @hwrite indexed [] (HEADER_BYTES + 1 * (w + 2 * OFFSET_HEX_BYTES)) (by
    rw [hlen', hlen, hroomy, HEADER_BYTES, OFFSET_HEX_BYTES, List.length_nil]
    omega)
  have heach : writeEach Thrown.range (indexEntry ⟨JsMap.empty.set [] (0, 0), [[]], 0⟩) HEADER_BYTES
      (w + 2 * OFFSET_HEX_BYTES) headed [⟨longKey w, []⟩] = .ok indexed := by
    rw [writeEach, List.zipIdx_singleton, List.foldlM_cons, bind_ok hindexed]
    rfl
  have hall : writeAll Thrown.range (HEADER_BYTES + 1 * (w + 2 * OFFSET_HEX_BYTES)) indexed [[]] =
      .ok (blob, HEADER_BYTES + 1 * (w + 2 * OFFSET_HEX_BYTES) + 0) := by
    rw [writeAll, List.foldlM_cons, bind_ok hblob]
    rfl
  refine ⟨blob, ?_⟩
  rw [bind_ok hheaded, bind_ok heach, bind_ok hall]
  rfl

theorem not_answers_wide (hw : 255 < w) (hroom : w + 33 ≤ isolate.maxBytes) : ¬ Answers isolate w := by
  intro h
  obtain ⟨blob, hblob⟩ := encode_longKey hw hroom
  obtain ⟨hascii, hunspaced, hunits⟩ := longKey_plain w
  have hfound := h _ blob (by simp) (by simpa using ⟨hascii, hunspaced⟩) hblob (longKey w) hascii hunspaced
  have hbound := unitLength_of_lookup (hfound.trans (by simp; rfl))
  omega

end KeyedBlob
