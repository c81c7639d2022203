-- SUMMARY: A format-2 list's format 3 parses, and holds the same tables.
import Sylvan.Engine.NamesBlobEncode

/-!
# The format upgrade

The parser of format 3 reads an entry's part of each section from where the part of the
entry before it ends, and lays its spans out anew. What is read through the new spans is
what the encoder read through the old.
-/

namespace NamesBlob

open RustStr Throws

variable {host : Host} {s x w y : List Char}

/-! ## Lines and slices -/

theorem toNat_ofNat {n : ℕ} (h : n < 2 ^ 32) : (UInt32.ofNat n).toNat = n :=
  UInt32.toNat_ofNat_of_lt' h

theorem sliceAt_eq (h : len (x ++ w) < 2 ^ 32) (y : List Char) :
    sliceAt (x ++ (w ++ y)) (UInt32.ofNat (len x), UInt32.ofNat (len x + len w)) = .ok w := by
  rw [len_append] at h
  rw [sliceAt, toNat_ofNat (by omega), toNat_ofNat h, slice_eq_some.mpr ⟨x, y, rfl, rfl, rfl⟩]
  rfl

theorem sliceAt_push (h : len (x ++ w) < 2 ^ 32) (y : List Char) : sliceAt (x ++ (w ++ y)) (push x w).2 = .ok w := by
  have hpush : (push x w).2 = (UInt32.ofNat (len x), UInt32.ofNat (len x + len w)) := by
    rw [push, len_append]
  rw [hpush]
  exact sliceAt_eq h y

theorem sliceAt_append_right {span : Span} (h : sliceAt s span = .ok w) (t : List Char) : sliceAt (s ++ t) span = .ok w := by
  rw [sliceAt] at h ⊢
  rw [slice_append_right (orPanic_ok h)]
  rfl

theorem nextLine_eq (hbreak : '\n' ∉ w) (x y : List Char) (what : String) : nextLine (x ++ (w ++ '\n' :: y)) (len x) what =
      .ok ((UInt32.ofNat (len x), UInt32.ofNat (len x + len w)), len x + len w + 1) := by
  have htake : (w ++ '\n' :: y).takeWhile (· != '\n') = w := by
    rw [List.takeWhile_append_of_pos fun c hc => ?_]
    · simp
    · simp only [bne_iff_ne, ne_eq]
      rintro rfl
      exact hbreak hc
  rw [nextLine, sliceFrom_append]
  simp [htake]

/-! ## Flavor keys -/

/-- Where the keys of an entry stand, one line each from `start`. -/
def keySpans (start : ℕ) : List (List Char × UInt8) → List (UInt32 × UInt32 × UInt8)
  | [] => []
  | (key, bits) :: keys =>
    (UInt32.ofNat start, UInt32.ofNat (start + len key), bits) :: keySpans (start + len key + 1) keys

theorem length_keySpans (start : ℕ) (flavor : List (List Char × UInt8)) :
    (keySpans start flavor).length = flavor.length := by
  induction flavor generalizing start with
  | nil => rfl
  | cons key flavor ih => simp [keySpans, ih]

theorem len_line (w : List Char) : len (w ++ ['\n']) = len w + 1 := by
  rw [len_append, len_newline]

theorem len_keysOf_cons (key : List Char) (bits : UInt8) (flavor : List (List Char × UInt8)) :
    len (keysOf ((key, bits) :: flavor)) = len key + 1 + len (keysOf flavor) := by
  rw [keysOf, List.flatMap_cons, len_append, len_line]
  rfl

theorem readKeys_eq {flavor : List (List Char × UInt8)} {keyBits after : List UInt8}
    (before : List UInt8) (spans : List (UInt32 × UInt32 × UInt8))
    (hbreak : ∀ k ∈ flavor, '\n' ∉ k.1)
    (hbits : keyBits = before ++ (flavor.map (·.2) ++ after)) (hspans : spans.length = before.length)
    (x y : List Char) :
    readKeys (x ++ (keysOf flavor ++ y)) keyBits flavor.length (len x, spans) =
      .ok (len x + len (keysOf flavor), spans ++ keySpans (len x) flavor) := by
  induction flavor generalizing before spans x with
  | nil => simp [readKeys, keysOf, keySpans]
  | cons key flavor ih =>
    obtain ⟨key, bits⟩ := key
    have hget : keyBits[spans.length]? = some bits := by
      rw [hbits, hspans]
      simp
    have hline := nextLine_eq (hbreak _ List.mem_cons_self) x (keysOf flavor ++ y) "flavor key"
    have hsplit : keysOf ((key, bits) :: flavor) ++ y = key ++ '\n' :: (keysOf flavor ++ y) := by
      simp [keysOf]
    have hone : readKey (x ++ (keysOf ((key, bits) :: flavor) ++ y)) keyBits (len x, spans) =
        .ok (len (x ++ (key ++ ['\n'])), spans ++ [(UInt32.ofNat (len x), UInt32.ofNat (len x + len key), bits)]) := by
      rw [readKey]
      simp only [hget]
      rw [hsplit, bind_ok hline, len_append, len_line]
      rfl
    have hrest := ih (before ++ [bits])
      (spans ++ [(UInt32.ofNat (len x), UInt32.ofNat (len x + len key), bits)])
      (fun k hk => hbreak k (List.mem_cons_of_mem _ hk)) (by simpa using hbits)
      (by simp [hspans]) (x ++ (key ++ ['\n']))
    rw [List.length_cons, readKeys, bind_ok hone]
    have hall : x ++ (keysOf ((key, bits) :: flavor) ++ y) = x ++ (key ++ ['\n']) ++ (keysOf flavor ++ y) := by simp [keysOf]
    rw [hall, hrest, len_keysOf_cons]
    simp only [keySpans, len_append, len_newline, List.append_assoc, List.singleton_append, Nat.add_assoc]

theorem mapM_keySpans {flavor : List (List Char × UInt8)} (x y : List Char)
    (h : len (x ++ keysOf flavor) < 2 ^ 32) :
    (keySpans (len x) flavor).mapM (fun (s, t, bits) => do
      let key ← sliceAt (x ++ (keysOf flavor ++ y)) (s, t)
      pure (key, bits)) = .ok flavor := by
  induction flavor generalizing x with
  | nil => rfl
  | cons key flavor ih =>
    obtain ⟨key, bits⟩ := key
    have hall : x ++ (keysOf ((key, bits) :: flavor) ++ y) = x ++ (key ++ ['\n']) ++ (keysOf flavor ++ y) := by simp [keysOf]
    have hlen : len (x ++ key) < 2 ^ 32 := by
      simp only [keysOf, List.flatMap_cons, len_append] at h ⊢
      omega
    have hkey := sliceAt_eq hlen ('\n' :: (keysOf flavor ++ y))
    have hone : x ++ (keysOf ((key, bits) :: flavor) ++ y) = x ++ (key ++ '\n' :: (keysOf flavor ++ y)) := by simp [keysOf]
    have hrest := ih (x ++ (key ++ ['\n'])) (by simpa [keysOf] using h)
    rw [← hall, len_append, len_line, ← Nat.add_assoc] at hrest
    rw [keySpans, List.mapM_cons]
    simp only [hone] at hrest ⊢
    rw [bind_ok hkey, hrest]
    rfl

/-! ## Derived names -/

def foldedPart (r : Read) : List Char := if r.folded = r.lower then [] else r.folded

def derivedAll (items : List Item) : List Char :=
  items.flatMap fun i => i.read.lower ++ foldedPart i.read

theorem shape_lower (r : Read) : shapeOf host r &&& SHAPE_LOWER_IS_PRINTED_LOWERCASED ≠ 0 ↔
    r.lower = host.toLowercase r.printed := by
  unfold shapeOf
  split_ifs with hlower hfolded hfolded <;> simp only [hlower, iff_true, iff_false] <;> decide

theorem shape_folded (r : Read) : shapeOf host r &&& SHAPE_FOLDED_IS_LOWER ≠ 0 ↔ r.folded = r.lower := by
  unfold shapeOf
  split_ifs with hlower hfolded hfolded <;> simp only [hfolded, iff_true, iff_false] <;> decide

theorem readLower_eq {text : List Char} {r : Read} {printed : Span} (hwritable : Writable host r)
    (hprinted : sliceAt text printed = .ok r.printed) (hlen : len (x ++ lowerOf host r) < 2 ^ 32)
    (y : List Char) :
    readLower host text (x ++ (lowerOf host r ++ y)) (shapeOf host r) printed (len x) =
      .ok (r.lower, len x + len (lowerOf host r)) := by
  rw [readLower]
  by_cases hlower : r.lower = host.toLowercase r.printed
  · rw [if_pos ((shape_lower r).mpr hlower), bind_ok hprinted, lowerOf, if_pos hlower, ← hlower]
    rfl
  · have hbreak := hwritable.lower.resolve_left hlower
    have hof : lowerOf host r = r.lower ++ ['\n'] := if_neg hlower
    have hsplit : x ++ (lowerOf host r ++ y) = x ++ (r.lower ++ '\n' :: y) := by simp [hof]
    have hslice := sliceAt_eq (x := x) (w := r.lower) (by
      rw [hof] at hlen
      simp only [len_append] at hlen ⊢
      omega) ('\n' :: y)
    rw [if_neg fun h => hlower ((shape_lower r).mp h), hsplit, bind_ok (nextLine_eq hbreak x y _)]
    dsimp only
    rw [bind_ok hslice, hof, len_line]
    rfl

theorem readFolded_eq {r : Read} (derived : List Char) (lower : Span)
    (hwritable : Writable host r) (hlen : len (x ++ foldedOf r) < 2 ^ 32) (y : List Char) :
    readFolded (x ++ (foldedOf r ++ y)) (shapeOf host r) derived lower (len x) = .ok ((derived ++ foldedPart r,
        if r.folded = r.lower then lower else (push derived r.folded).2),
        len x + len (foldedOf r)) := by
  rw [readFolded]
  by_cases hfolded : r.folded = r.lower
  · rw [if_pos ((shape_folded r).mpr hfolded), foldedOf, foldedPart, if_pos hfolded, if_pos hfolded,
      if_pos hfolded, List.append_nil]
    rfl
  · have hbreak := hwritable.folded.resolve_left hfolded
    have hof : foldedOf r = r.folded ++ ['\n'] := if_neg hfolded
    have hsplit : x ++ (foldedOf r ++ y) = x ++ (r.folded ++ '\n' :: y) := by simp [hof]
    have hslice := sliceAt_eq (x := x) (w := r.folded) (by
      rw [hof] at hlen
      simp only [len_append] at hlen ⊢
      omega) ('\n' :: y)
    rw [if_neg fun h => hfolded ((shape_folded r).mp h), hsplit, bind_ok (nextLine_eq hbreak x y _)]
    dsimp only
    rw [bind_ok hslice, hof, len_line, foldedPart, if_neg hfolded, if_neg hfolded]
    rfl

/-- The place of a folded name behind the derived names and its lower name. -/
def foldedSpan (derived : List Char) (r : Read) : Span :=
  if r.folded = r.lower then (push derived r.lower).2
  else (push (push derived r.lower).1 r.folded).2

theorem sliceAt_folded {derived : List Char} {r : Read}
    (hlen : len (derived ++ (r.lower ++ foldedPart r)) < 2 ^ 32) :
    sliceAt ((push derived r.lower).1 ++ foldedPart r) (foldedSpan derived r) = .ok r.folded := by
  have hpush : (push derived r.lower).1 = derived ++ r.lower := rfl
  by_cases hfolded : r.folded = r.lower
  · have hpart : foldedPart r = [] := if_pos hfolded
    have hspan : foldedSpan derived r = (push derived r.lower).2 := if_pos hfolded
    rw [hpart, List.append_nil] at hlen
    rw [hspan, hpart, hpush, List.append_assoc, sliceAt_push hlen, hfolded]
  · have hpart : foldedPart r = r.folded := if_neg hfolded
    have hspan : foldedSpan derived r = (push (push derived r.lower).1 r.folded).2 := if_neg hfolded
    have hslice := sliceAt_push (x := derived ++ r.lower) (w := r.folded)
      (by rw [hpart] at hlen; simpa using hlen) []
    rw [List.append_nil] at hslice
    rw [hspan, hpart, hpush, hslice]

/-! ## Reading from a list that grows -/

theorem read_append {a b : NameList host.Bits} {e : Entry} {r : Read}
    {d : List Char} {f : List (UInt32 × UInt32 × UInt8)} (htext : b.text = a.text)
    (hcollated : b.collated = a.collated) (hderived : b.derived = a.derived ++ d)
    (hflavor : b.flavor = a.flavor ++ f) (h : a.read e = .ok r) : b.read e = .ok r := by
  obtain ⟨hname, hprinted, hlower, hfolded, hkeys, hrest⟩ := read_ok.mp h
  refine read_ok.mpr ⟨?_, ?_, ?_, ?_, ?_, hrest⟩
  · rwa [NameList.atCollated, hcollated]
  · rwa [NameList.atText, htext]
  · rw [NameList.atDerived, hderived]
    exact sliceAt_append_right hlower d
  · rw [NameList.atDerived, hderived]
    exact sliceAt_append_right hfolded d
  · rw [NameList.flavorOf] at hkeys ⊢
    split at hkeys
    · next hbounds =>
        have hle : e.flavorFrom.toNat ≤ (e.flavorFrom + e.flavorLen).toNat :=
          UInt32.le_iff_toNat_le.mp hbounds.1
        have hgrown : (e.flavorFrom + e.flavorLen).toNat ≤ b.flavor.length := by
          rw [hflavor, List.length_append]
          omega
        have htake : (b.flavor.drop e.flavorFrom.toNat).take
            ((e.flavorFrom + e.flavorLen).toNat - e.flavorFrom.toNat) =
            (a.flavor.drop e.flavorFrom.toNat).take
              ((e.flavorFrom + e.flavorLen).toNat - e.flavorFrom.toNat) := by
          rw [hflavor, List.drop_append_of_le_length (by omega),
            List.take_append_of_le_length (by rw [List.length_drop]; omega)]
        rw [if_pos ⟨hbounds.1, hgrown⟩, htake]
        simp only [NameList.atText, htext] at hkeys ⊢
        exact hkeys
    · cases hkeys

/-! ## One entry -/

def listOf (host : Host) (items : List Item) (reading : Reading host.Bits) : NameList host.Bits where
  format := 3
  text := textAll items
  derived := reading.derived
  entries := reading.entries
  flavor := reading.flavor
  trigramCounts := reading.trigramCounts
  collated := collatedAll items
  collatedStarts := reading.collatedStarts
  signatures := reading.signatures

/-- The items `done` of a blob of `items` are read. -/
structure Placed (host : Host) (items done : List Item) (reading : Reading host.Bits) : Prop where
  atCollated : reading.atCollated = len (collatedAll done)
  atText : reading.atText = len (textAll done)
  atStored : reading.atStored = len (storedAll host done)
  derived : reading.derived = derivedAll done
  flavor : reading.flavor.length = (keyBitsAll done).length
  starts : reading.collatedStarts = startsFrom 0 (done.map (·.read.collated))
  counts : reading.trigramCounts = done.map (·.count.toUInt32)
  signatures : reading.signatures = done.map fun i => host.signature i.read.folded
  reads : List.Forall₂ (fun e i => (listOf host items reading).read e = .ok i.read)
    reading.entries done

theorem startsFrom_concat (start : ℕ) (names : List (List Char)) (name : List Char) : startsFrom start (names ++ [name]) =
      startsFrom start names ++ [UInt32.ofNat (start + len (names.flatMap (· ++ ['\n'])))] := by
  induction names generalizing start with
  | nil => simp [startsFrom]
  | cons first names ih =>
    simp only [List.cons_append, startsFrom, ih, List.flatMap_cons, len_append, len_newline, Nat.add_assoc]

/-- The sections are within what an offset addresses. -/
structure Addressed (host : Host) (items : List Item) : Prop where
  collated : len (collatedAll items) < 2 ^ 32
  text : len (textAll items) < 2 ^ 32
  stored : len (storedAll host items) < 2 ^ 32
  derived : len (derivedAll items) < 2 ^ 32
  keys : (keyBitsAll items).length < 2 ^ 32

theorem flavorOf_append {list : NameList host.Bits} {e : Entry}
    {before : List (UInt32 × UInt32 × UInt8)} {flavor : List (List Char × UInt8)}
    (htext : list.text = x ++ (keysOf flavor ++ y)) (hlen : len (x ++ keysOf flavor) < 2 ^ 32)
    (hflavor : list.flavor = before ++ keySpans (len x) flavor)
    (hkeys : list.flavor.length < 2 ^ 32)
    (hfrom : e.flavorFrom = UInt32.ofNat before.length)
    (hcount : e.flavorLen = UInt32.ofNat list.flavor.length - UInt32.ofNat before.length) :
    list.flavorOf e = .ok flavor := by
  have hsum : UInt32.ofNat before.length + (UInt32.ofNat list.flavor.length - UInt32.ofNat before.length) =
      UInt32.ofNat list.flavor.length := by
    rw [UInt32.add_comm, UInt32.sub_add_cancel]
  have hle : before.length ≤ list.flavor.length := by
    rw [hflavor, List.length_append]
    exact Nat.le_add_right _ _
  have hbounds : UInt32.ofNat before.length ≤ UInt32.ofNat list.flavor.length := by
    rw [UInt32.le_iff_toNat_le, toNat_ofNat hkeys, toNat_ofNat (by omega)]
    exact hle
  rw [NameList.flavorOf, hfrom, hcount, hsum, toNat_ofNat hkeys, if_pos ⟨hbounds, Nat.le_refl _⟩, toNat_ofNat (by omega)]
  have htake : (list.flavor.drop before.length).take (list.flavor.length - before.length) = keySpans (len x) flavor := by
    rw [List.take_of_length_le (by simp), hflavor, List.drop_left]
  rw [htake]
  simp only [NameList.atText, htext]
  exact mapM_keySpans x y hlen

theorem sub_sub_self (a b : UInt16) : a - (a - b) = b := by
  apply UInt16.toNat_inj.mp
  have hb := b.toNat_lt
  simp only [UInt16.toNat_sub]
  omega

theorem xor_xor_self (a b : UInt16) : a ^^^ b ^^^ b = a := by
  rw [UInt16.xor_assoc, UInt16.xor_self, UInt16.xor_zero]

/-- What is read once an item behind `done` is. -/
def Reading.put (host : Host) (done : List Item) (reading : Reading host.Bits) (item : Item) : Reading host.Bits :=
  let r := item.read
  let flavor := reading.flavor ++ keySpans (len (textAll done ++ (r.printed ++ ['\n']))) r.flavor
  { atCollated := len (collatedAll done) + len r.collated + 1
    atText := len (textAll done ++ (r.printed ++ ['\n'])) + len (keysOf r.flavor)
    atStored := reading.atStored + len (lowerOf host r) + len (foldedOf r)
    derived := (push reading.derived r.lower).1 ++ foldedPart r
    entries := reading.entries ++ [{
      collated := (push (collatedAll done) r.collated).2, printed := (push (textAll done) r.printed).2,
      lower := (push reading.derived r.lower).2, folded := foldedSpan reading.derived r,
      partition := r.partition, classes := r.classes, best := r.best,
      flavorFrom := UInt32.ofNat reading.flavor.length,
      flavorLen := UInt32.ofNat flavor.length - UInt32.ofNat reading.flavor.length }]
    flavor := flavor
    collatedStarts := reading.collatedStarts ++ [(push (collatedAll done) r.collated).2.1]
    trigramCounts := reading.trigramCounts ++ [item.count.toUInt32]
    signatures := reading.signatures ++ [host.signature r.folded] }

theorem readRow_ok {items done rest : List Item} {item : Item} {reading : Reading host.Bits}
    (hbits : ∀ name, (host.signature name).bits = host.signatureBits name)
    (hitems : items = done ++ item :: rest) (haddressed : Addressed host items)
    (hwritable : Writable host item.read) (hplaced : Placed host items done reading) :
    readRow host (collatedAll items) (textAll items) (storedAll host items) (keyBitsAll items)
      reading (rowOf host item) = .ok (reading.put host done item) := by
  obtain ⟨r, count⟩ := item
  have hcollated : collatedAll items = collatedAll done ++ (r.collated ++ '\n' :: collatedAll rest) := by
    simp [hitems, collatedAll, collatedOf]
  have htext : textAll items = textAll done ++ (r.printed ++ '\n' :: (keysOf r.flavor ++ textAll rest)) := by
    simp [hitems, textAll, textOf]
  have hkeys : textAll items = (textAll done ++ (r.printed ++ ['\n'])) ++ (keysOf r.flavor ++ textAll rest) := by
    simp [htext]
  have hlower : storedAll host items = storedAll host done ++ (lowerOf host r ++ (foldedOf r ++ storedAll host rest)) := by
    simp [hitems, storedAll]
  have hfolded : storedAll host items = (storedAll host done ++ lowerOf host r) ++ (foldedOf r ++ storedAll host rest) := by
    simp [hlower]
  have hkeyBits : keyBitsAll items = keyBitsAll done ++ (r.flavor.map (·.2) ++ keyBitsAll rest) := by
    simp [hitems, keyBitsAll]
  have hderived : derivedAll items = derivedAll done ++ (r.lower ++ (foldedPart r ++ derivedAll rest)) := by
    simp [hitems, derivedAll]
  obtain ⟨hcollatedLen, htextLen, hstoredLen, hderivedLen, hkeysLen⟩ := haddressed
  -- the strings of the entry, each where the sections hold it
  have hname : nextLine (collatedAll items) reading.atCollated "collated name" =
      .ok ((push (collatedAll done) r.collated).2, len (collatedAll done) + len r.collated + 1) := by
    rw [hcollated, hplaced.atCollated, nextLine_eq hwritable.collated, push, len_append]
  have hnameText : sliceAt (collatedAll items) (push (collatedAll done) r.collated).2 = .ok r.collated := by
    rw [hcollated] at hcollatedLen ⊢
    exact sliceAt_push (by simp only [len_append] at hcollatedLen ⊢; omega) _
  have hprinted : nextLine (textAll items) reading.atText "printed name" =
      .ok ((push (textAll done) r.printed).2, len (textAll done ++ (r.printed ++ ['\n']))) := by
    rw [htext, hplaced.atText, nextLine_eq hwritable.printed, push, len_append, len_append, len_line, Nat.add_assoc]
  have hprintedText : sliceAt (textAll items) (push (textAll done) r.printed).2 = .ok r.printed := by
    rw [htext] at htextLen ⊢
    exact sliceAt_push (by simp only [len_append] at htextLen ⊢; omega) _
  have hcount : (rowOf host ⟨r, count⟩).keys.toNat = r.flavor.length :=
    UInt16.toNat_ofNat_of_lt' hwritable.flavor
  have hreadKeys := readKeys_eq (keyBitsAll done) reading.flavor hwritable.keys hkeyBits
    hplaced.flavor (textAll done ++ (r.printed ++ ['\n'])) (textAll rest)
  rw [← hkeys, ← hcount] at hreadKeys
  have hreadLower := readLower_eq (x := storedAll host done) hwritable hprintedText
    (by rw [hlower] at hstoredLen; simp only [len_append] at hstoredLen ⊢; omega)
    (foldedOf r ++ storedAll host rest)
  rw [← hlower, ← hplaced.atStored] at hreadLower
  have hreadFolded := readFolded_eq (x := storedAll host done ++ lowerOf host r)
    (push reading.derived r.lower).1 (push reading.derived r.lower).2 hwritable
    (by rw [hfolded] at hstoredLen; simp only [len_append] at hstoredLen ⊢; omega)
    (storedAll host rest)
  rw [← hfolded, len_append, ← hplaced.atStored] at hreadFolded
  have hderivedPart : len (reading.derived ++ (r.lower ++ foldedPart r)) < 2 ^ 32 := by
    rw [hderived, ← hplaced.derived] at hderivedLen
    simp only [len_append] at hderivedLen ⊢
    omega
  have hfoldedText := sliceAt_folded hderivedPart
  have hsignature : host.signature r.folded =
      { trigrams := (host.signature r.folded).trigrams, bits := host.signatureBits r.folded } := by
    rw [← hbits]
  rw [readRow, bind_ok hname]
  dsimp only
  rw [bind_ok hnameText, bind_ok hprinted]
  dsimp only
  rw [bind_ok hreadKeys]
  dsimp only
  rw [rowOf, bind_ok hreadLower]
  dsimp only
  rw [bind_ok hreadFolded]
  dsimp only
  rw [← foldedSpan, bind_ok hfoldedText, sub_sub_self, xor_xor_self, ← hsignature]
  rfl

theorem placed_put {items done rest : List Item} {item : Item} {reading : Reading host.Bits}
    (hitems : items = done ++ item :: rest) (haddressed : Addressed host items)
    (hplaced : Placed host items done reading) :
    Placed host items (done ++ [item]) (reading.put host done item) := by
  obtain ⟨r, count⟩ := item
  obtain ⟨hcollatedLen, htextLen, -, hderivedLen, hkeysLen⟩ := haddressed
  have hcollated : collatedAll items = collatedAll done ++ (r.collated ++ '\n' :: collatedAll rest) := by
    simp [hitems, collatedAll, collatedOf]
  have htext : textAll items = textAll done ++ (r.printed ++ '\n' :: (keysOf r.flavor ++ textAll rest)) := by
    simp [hitems, textAll, textOf]
  have hkeys : textAll items = (textAll done ++ (r.printed ++ ['\n'])) ++ (keysOf r.flavor ++ textAll rest) := by
    simp [htext]
  have hderived : len (reading.derived ++ (r.lower ++ foldedPart r)) < 2 ^ 32 := by
    have hall : derivedAll items = reading.derived ++ (r.lower ++ (foldedPart r ++ derivedAll rest)) := by
      simp [hitems, derivedAll, hplaced.derived]
    rw [hall] at hderivedLen
    simp only [len_append] at hderivedLen ⊢
    omega
  have hpush : (push reading.derived r.lower).1 ++ foldedPart r = reading.derived ++ (r.lower ++ foldedPart r) := by
    rw [push, List.append_assoc]
  have hflavor : (reading.put host done ⟨r, count⟩).flavor.length = (keyBitsAll (done ++ [⟨r, count⟩])).length := by
    simp [Reading.put, length_keySpans, hplaced.flavor, keyBitsAll]
  refine ⟨?_, ?_, ?_, ?_, hflavor, ?_, ?_, ?_, ?_⟩
  · simp only [Reading.put, collatedAll, collatedOf, List.flatMap_append, List.flatMap_singleton,
      len_append, len_newline, Nat.add_assoc]
  · simp only [Reading.put, textAll, textOf, List.flatMap_append, List.flatMap_singleton, len_append, Nat.add_assoc]
  · simp only [Reading.put, hplaced.atStored, storedAll, List.flatMap_append,
      List.flatMap_singleton, len_append, Nat.add_assoc]
  · simp [Reading.put, push, derivedAll, hplaced.derived]
  · have hnames : done.flatMap (fun i => i.read.collated ++ ['\n']) = collatedAll done := rfl
    rw [List.map_append, List.map_singleton, startsFrom_concat, List.flatMap_map, hnames, Nat.zero_add]
    simp [Reading.put, push, hplaced.starts]
  · simp [Reading.put, hplaced.counts]
  · simp [Reading.put, hplaced.signatures]
  · have hold : List.Forall₂ (fun e i =>
        (listOf host items (reading.put host done ⟨r, count⟩)).read e = .ok i.read)
        reading.entries done :=
      hplaced.reads.imp fun e i h => read_append (a := listOf host items reading)
        (b := listOf host items (reading.put host done ⟨r, count⟩)) rfl rfl hpush rfl h
    refine List.rel_append hold (.cons (read_ok.mpr ⟨?_, ?_, ?_, ?_, ?_, rfl, rfl, rfl⟩) .nil)
    · show sliceAt (collatedAll items) _ = _
      rw [hcollated] at hcollatedLen ⊢
      exact sliceAt_push (by simp only [len_append] at hcollatedLen ⊢; omega) _
    · show sliceAt (textAll items) _ = _
      rw [htext] at htextLen ⊢
      exact sliceAt_push (by simp only [len_append] at htextLen ⊢; omega) _
    · show sliceAt ((push reading.derived r.lower).1 ++ foldedPart r) _ = _
      rw [hpush]
      exact sliceAt_push (by simp only [len_append] at hderived ⊢; omega) _
    · exact sliceAt_folded hderived
    · have htextPart : len ((textAll done ++ (r.printed ++ ['\n'])) ++ keysOf r.flavor) < 2 ^ 32 := by
        rw [hkeys] at htextLen
        simp only [len_append] at htextLen ⊢
        omega
      have hkeysPart : (reading.put host done ⟨r, count⟩).flavor.length < 2 ^ 32 := by
        rw [hflavor]
        have hsplit : keyBitsAll items = keyBitsAll (done ++ [⟨r, count⟩]) ++ keyBitsAll rest := by
          simp [hitems, keyBitsAll]
        rw [hsplit, List.length_append] at hkeysLen
        omega
      exact flavorOf_append (x := textAll done ++ (r.printed ++ ['\n'])) hkeys htextPart rfl
        hkeysPart rfl rfl

theorem placed_nil (items : List Item) : Placed host items [] ⟨0, 0, 0, [], [], [], [], [], []⟩ :=
  ⟨rfl, rfl, rfl, rfl, rfl, rfl, rfl, rfl, .nil⟩

/-- **The rows of every item are read.** -/
theorem readRows_ok {items : List Item}
    (hbits : ∀ name, (host.signature name).bits = host.signatureBits name)
    (haddressed : Addressed host items) (hwritable : ∀ i ∈ items, Writable host i.read)
    {done rest : List Item} {reading : Reading host.Bits} (hitems : items = done ++ rest)
    (hplaced : Placed host items done reading) :
    ∃ reading', (rest.map (rowOf host)).foldlM (readRow host (collatedAll items) (textAll items)
        (storedAll host items) (keyBitsAll items)) reading = .ok reading' ∧
      Placed host items items reading' := by
  induction rest generalizing done reading with
  | nil =>
    obtain rfl : items = done := by simpa using hitems
    exact ⟨reading, rfl, hplaced⟩
  | cons item rest ih =>
    have hone := hwritable item (by simp [hitems])
    obtain ⟨reading', hread, hall⟩ := ih (by simp [hitems]) (placed_put hitems haddressed hplaced)
    refine ⟨reading', ?_, hall⟩
    rw [List.map_cons, List.foldlM_cons, bind_ok (readRow_ok hbits hitems haddressed hone hplaced)]
    exact hread

/-! ## The columns -/

theorem takeBytes_append {n : ℕ} {b : Bytes} (hb : b.length = n) (rest : Bytes) (what : String) :
    takeBytes n what (b ++ rest) = .ok (b, rest) := by
  subst hb
  rw [takeBytes, if_pos (by simp), List.take_left, List.drop_left]

theorem takeU32_append {n : ℕ} (hn : n < 2 ^ 32) (rest : Bytes) (what : String) :
    takeU32 what (Bytes.ofNatLE 4 n ++ rest) = .ok (n, rest) := by
  rw [takeU32, bind_ok (takeBytes_append (Bytes.length_ofNatLE 4 n) rest what)]
  dsimp only
  rw [Bytes.toNatLE_ofNatLE, Nat.mod_eq_of_lt (by simpa using hn)]
  rfl

theorem takeString_append (s : List Char) (rest : Bytes) (what : String) :
    takeString host (len s) what (utf8 s ++ rest) = .ok (s, rest) := by
  have hlen : (utf8 s).length = len s := rfl
  rw [takeString, bind_ok (takeBytes_append hlen rest what)]
  simp only [fromUtf8_utf8]
  rfl

theorem u16s_putU16s (column : List UInt16) : u16s (putU16s column) = column := by
  induction column with
  | nil => rfl
  | cons v column ih =>
    have hv := v.toNat_lt
    have hbytes : putU16s (v :: column) = UInt8.ofNat v.toNat :: UInt8.ofNat (v.toNat / 256) :: putU16s column := rfl
    have hpair : Bytes.toNatLE [UInt8.ofNat v.toNat, UInt8.ofNat (v.toNat / 256)] = v.toNat := by
      have := Bytes.toNatLE_ofNatLE 2 v.toNat
      rw [Nat.mod_eq_of_lt (by simpa using hv)] at this
      exact this
    rw [hbytes, u16s, ih, hpair, UInt16.ofNat_toNat]

theorem length_putU16s (column : List UInt16) : (putU16s column).length = column.length * 2 := by
  induction column with
  | nil => rfl
  | cons v column ih =>
    have hbytes : putU16s (v :: column) = Bytes.ofNatLE 2 v.toNat ++ putU16s column := rfl
    rw [hbytes, List.length_append, ih, Bytes.length_ofNatLE, List.length_cons]
    omega

theorem takeU16s_append {n : ℕ} {column : List UInt16} (hn : column.length = n) (rest : Bytes)
    (what : String) : takeU16s n what (putU16s column ++ rest) = .ok (column, rest) := by
  rw [takeU16s, bind_ok (takeBytes_append (by rw [length_putU16s, hn]) rest what)]
  dsimp only
  rw [u16s_putU16s]
  rfl

theorem rows_map (items : List Item) :
    rows (items.map fun i => (rowOf host i).partition) (items.map fun i => (rowOf host i).classes)
      (items.map fun i => (rowOf host i).best) (items.map fun i => (rowOf host i).shape)
      (items.map fun i => (rowOf host i).keys) (items.map fun i => (rowOf host i).trigramSlack)
      (items.map fun i => (rowOf host i).signatureSlack) = items.map (rowOf host) := by
  induction items with
  | nil => rfl
  | cons item items ih => exact congrArg (rowOf host item :: ·) ih

theorem derived_follow {list : NameList host.Bits} {entries : List Entry} {items : List Item}
    {start stop : UInt32}
    (hreads : List.Forall₂ (fun e i => list.read e = .ok i.read ∧ Writable host i.read)
      entries items)
    (h : Follow DerivedStep start entries stop) :
    start.toNat + len (derivedAll items) ≤ stop.toNat := by
  induction hreads generalizing start with
  | nil =>
    obtain rfl : start = stop := h
    simp [derivedAll]
  | @cons e i entries items hread _ ih =>
    obtain ⟨next, ⟨rfl, hfolded⟩, hrest⟩ := h
    have hall := ih hrest
    obtain ⟨-, -, hlowerRead, hfoldedRead, -⟩ := read_ok.mp hread.1
    obtain ⟨-, -, -, -, hlower⟩ := slice_eq_some.mp (orPanic_ok hlowerRead)
    have hsplit : len (derivedAll (i :: items)) = len i.read.lower + len (foldedPart i.read) + len (derivedAll items) := by
      rw [derivedAll, List.flatMap_cons, len_append, len_append]
      rfl
    rcases hfolded with ⟨hsame, rfl⟩ | ⟨hfrom, rfl⟩
    · have hempty : foldedPart i.read = [] := by
        rw [hsame, hlowerRead] at hfoldedRead
        exact if_pos (Except.ok.inj hfoldedRead).symm
      rw [hsplit, hempty, len_nil]
      omega
    · obtain ⟨-, -, -, -, hfoldedLen⟩ := slice_eq_some.mp (orPanic_ok hfoldedRead)
      have hpart : len (foldedPart i.read) ≤ len i.read.folded := by
        rw [foldedPart]
        split
        · exact Nat.zero_le _
        · exact Nat.le_refl _
      rw [hfrom] at hfoldedLen
      rw [hsplit]
      omega

theorem refuse_of_not {c : Prop} [Decidable c] {message : String} (h : ¬ c) : refuse c message = .ok () := if_neg h

theorem parseV3_encoded {items : List Item}
    (hbits : ∀ name, (host.signature name).bits = host.signatureBits name)
    (hcount : items.length < 2 ^ 32) (haddressed : Addressed host items)
    (hwritable : ∀ i ∈ items, Writable host i.read) :
    ∃ reading, parseV3 host (encoded host items) = .ok (listOf host items reading) ∧ Placed host items items reading := by
  obtain ⟨reading, hread, hplaced⟩ := readRows_ok hbits haddressed hwritable
    (List.nil_append items).symm (placed_nil items)
  refine ⟨reading, ?_, hplaced⟩
  have hlast {n : ℕ} {column : List UInt16} (hn : column.length = n) (what : String) :
      takeU16s n what (putU16s column) = .ok (column, []) := by
    have := takeU16s_append hn [] what
    rwa [List.append_nil] at this
  have hlen {β : Type} (f : Item → β) : (items.map f).length = items.length := List.length_map f
  rw [parseV3, encoded, List.drop_left]
  simp only [List.flatten_cons, List.flatten_nil, List.append_nil]
  refine (bind_ok (takeU32_append hcount _ _)).trans ?_
  refine (bind_ok (takeU32_append haddressed.keys _ _)).trans ?_
  refine (bind_ok (takeU32_append haddressed.collated _ _)).trans ?_
  refine (bind_ok (takeU32_append haddressed.text _ _)).trans ?_
  refine (bind_ok (takeU32_append haddressed.stored _ _)).trans ?_
  refine (bind_ok (takeString_append _ _ _)).trans ?_
  refine (bind_ok (takeString_append _ _ _)).trans ?_
  refine (bind_ok (takeString_append _ _ _)).trans ?_
  refine (bind_ok (takeU16s_append (hlen _) _ _)).trans ?_
  refine (bind_ok (takeBytes_append (hlen _) _ _)).trans ?_
  refine (bind_ok (takeBytes_append (hlen _) _ _)).trans ?_
  refine (bind_ok (takeBytes_append (hlen _) _ _)).trans ?_
  refine (bind_ok (takeU16s_append (hlen _) _ _)).trans ?_
  refine (bind_ok (takeBytes_append rfl _ _)).trans ?_
  refine (bind_ok (takeU16s_append (hlen _) _ _)).trans ?_
  refine (bind_ok (hlast (hlen _) _)).trans ?_
  have hsections : ¬ (reading.atCollated ≠ len (collatedAll items) ∨
      reading.atText ≠ len (textAll items) ∨ reading.atStored ≠ len (storedAll host items) ∨
      reading.flavor.length ≠ (keyBitsAll items).length) := by
    simp [hplaced.atCollated, hplaced.atText, hplaced.atStored, hplaced.flavor]
  have hderived : ¬ 2 ^ 32 ≤ len reading.derived := by
    rw [hplaced.derived]
    exact Nat.not_le.mpr haddressed.derived
  dsimp only
  rw [bind_ok (refuse_of_not fun h => h rfl), rows_map, bind_ok hread,
    bind_ok (refuse_of_not hsections), bind_ok (refuse_of_not hderived)]
  rfl

theorem sameTables_ok {a b : NameList host.Bits} (rs : List Read)
    (hcollated : a.collated = b.collated)
    (hstarts : a.collatedStarts = b.collatedStarts) (hcounts : a.trigramCounts = b.trigramCounts)
    (hsignatures : a.signatures = b.signatures)
    (ha : List.Forall₂ (fun e r => a.read e = .ok r) a.entries rs)
    (hb : List.Forall₂ (fun e r => b.read e = .ok r) b.entries rs) :
    sameTables host a b = .ok () := by
  have hlength : a.entries.length = b.entries.length := ha.length_eq.trans hb.length_eq.symm
  rw [sameTables, bind_ok (refuse_of_not fun h => h hlength), bind_ok (refuse_of_not (by simp [hcollated, hstarts])),
    bind_ok (refuse_of_not fun h => h hcounts), bind_ok (refuse_of_not fun h => h hsignatures)]
  clear hlength
  generalize a.entries = as at ha
  generalize b.entries = bs at hb
  generalize 0 = start
  induction ha generalizing bs start with
  | nil => rfl
  | @cons x r as rs hx _ ih =>
    cases hb with
    | @cons y _ bs _ hy hb =>
      rw [List.zip_cons_cons, List.zipIdx_cons, List.forM]
      dsimp only
      rw [bind_ok hx, bind_ok hy, bind_ok (refuse_of_not fun h => h rfl)]
      exact ih bs hb (start + 1)

/-- **A format-2 list that the encoder takes becomes a format-3 list of the same tables.** -/
theorem encodeV3_parses {raw out : Bytes} {list : NameList host.Bits}
    (hbits : ∀ name, (host.signature name).bits = host.signatureBits name)
    (hparse : parse host raw = .ok list) (hformat : list.format = 2)
    (hencode : encodeV3 host list = .ok out) :
    ∃ upgraded, parse host out = .ok upgraded ∧ upgraded.format = 3 ∧
      sameTables host list upgraded = .ok () := by
  have hlaid := parse_laid hparse hformat
  obtain ⟨items, hreads, rfl, hcount, hkeys, hcollated, hcollatedLen, htextLen, hstoredLen⟩ :=
    encodeV3_ok hlaid hencode
  have hderived : len (derivedAll items) < 2 ^ 32 := by
    have hle := derived_follow hreads.reads hlaid.derived
    have hlt := (UInt32.ofNat (len list.derived)).toNat_lt
    omega
  have hwritable : ∀ i ∈ items, Writable host i.read := by
    intro i hi
    obtain ⟨n, hn, rfl⟩ := List.getElem_of_mem hi
    have hentry : n < list.entries.length := by rw [hreads.reads.length_eq]; exact hn
    exact ((List.forall₂_iff_get.mp hreads.reads).2 n hentry hn).2
  obtain ⟨reading, hparsed, hplaced⟩ := parseV3_encoded hbits hcount
    ⟨hcollatedLen, htextLen, hstoredLen, hderived, hkeys⟩ hwritable
  refine ⟨listOf host items reading, ?_, rfl, sameTables_ok (items.map (·.read)) ?_ ?_ ?_ ?_ ?_ ?_⟩
  · have hheader : utf8 NAMES_BLOB_HEADER_V3 <+: encoded host items := List.prefix_append _ _
    rw [parse, if_pos hheader]
    exact hparsed
  · exact hcollated
  · rw [hreads.starts]
    exact hplaced.starts.symm
  · rw [hreads.counts]
    exact hplaced.counts.symm
  · rw [hreads.signatures]
    exact hplaced.signatures.symm
  · exact (List.forall₂_map_right_iff.mpr (hreads.reads.imp fun e i h => h.1))
  · exact List.forall₂_map_right_iff.mpr hplaced.reads

/-- ASCII names, and a signature of windows and length. -/
def plainHost : Host where
  toLowercase s := s.map Char.toLower
  Bits := ℕ
  decEqBits := inferInstance
  signature s := { trigrams := UInt16.ofNat (windowCount s), bits := s.length }
  signatureBits s := s.length
  debug s := (String.ofList s).quote
  debugRead r := (String.ofList r.printed).quote
  utf8Error _ := "invalid utf-8"
  CLASS_EXTRA_GATE := 1

/-- Of two cards, one with names that are derived, one with names and keys of its own. -/
theorem encodeV3_parses_two : ∃ list out upgraded, parse plainHost (utf8 (NAMES_BLOB_HEADER_V2 ++
      "3\t1f0\tfireball\tFireball\t\t\t\n0\t0a1\tpyre\tPyre\tpyre x\tpyre\talt:3,b:ff\n".toList)) =
        .ok list ∧ encodeV3 plainHost list = .ok out ∧ parse plainHost out = .ok upgraded ∧
      upgraded.format = 3 ∧ sameTables plainHost list upgraded = .ok () := by
  have hruns : ((parse plainHost (utf8 (NAMES_BLOB_HEADER_V2 ++
      "3\t1f0\tfireball\tFireball\t\t\t\n0\t0a1\tpyre\tPyre\tpyre x\tpyre\talt:3,b:ff\n".toList))).bind
      fun list => (encodeV3 plainHost list).map fun _ => decide (list.format = 2)).toOption =
        some true := by
    decide +kernel
  cases hparse : parse plainHost (utf8 (NAMES_BLOB_HEADER_V2 ++
      "3\t1f0\tfireball\tFireball\t\t\t\n0\t0a1\tpyre\tPyre\tpyre x\tpyre\talt:3,b:ff\n".toList)) with
  | error fault =>
    rw [hparse] at hruns
    cases hruns
  | ok list =>
    rw [hparse] at hruns
    cases hencode : encodeV3 plainHost list with
    | error fault =>
      simp only [Except.bind, hencode] at hruns
      cases hruns
    | ok out =>
      simp only [Except.bind, hencode, Except.map, Except.toOption] at hruns
      obtain ⟨upgraded, hupgraded⟩ := encodeV3_parses (fun _ => rfl) hparse
        (by simpa using hruns) hencode
      exact ⟨list, out, upgraded, rfl, hencode, hupgraded⟩

end NamesBlob
