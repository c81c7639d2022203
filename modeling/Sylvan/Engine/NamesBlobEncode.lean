-- SUMMARY: What format 3's encoder writes, entry by entry.
import Sylvan.Engine.NamesBlobTables

/-!
# What the encoder writes

The encoder writes what the list's spans read, and nothing else. An entry's part of
each section and its row of the columns are functions of what is read of it.
-/

namespace NamesBlob

open RustStr Throws

/-- An entry as it is read, and its window count. -/
structure Item where
  read : Read
  count : UInt16

/-! ## An entry's part -/

variable (host : Host)

def collatedOf (r : Read) : List Char := r.collated ++ ['\n']

def keysOf (flavor : List (List Char × UInt8)) : List Char := flavor.flatMap fun k => k.1 ++ ['\n']

def textOf (r : Read) : List Char := r.printed ++ ['\n'] ++ keysOf r.flavor

def lowerOf (r : Read) : List Char :=
  if r.lower = host.toLowercase r.printed then [] else r.lower ++ ['\n']

def foldedOf (r : Read) : List Char := if r.folded = r.lower then [] else r.folded ++ ['\n']

def shapeOf (r : Read) : UInt8 :=
  (if r.lower = host.toLowercase r.printed then SHAPE_LOWER_IS_PRINTED_LOWERCASED else 0) |||
    (if r.folded = r.lower then SHAPE_FOLDED_IS_LOWER else 0)

def rowOf (item : Item) : Row where
  partition := item.read.partition
  classes := item.read.classes
  best := item.read.best
  shape := shapeOf host item.read
  keys := UInt16.ofNat item.read.flavor.length
  trigramSlack := slackBase item.read.collated - item.count
  signatureSlack := (host.signature item.read.folded).trigrams ^^^ item.count

/-- No string of the entry that is written out holds a line break. -/
structure Writable (r : Read) : Prop where
  collated : '\n' ∉ r.collated
  printed : '\n' ∉ r.printed
  keys : ∀ k ∈ r.flavor, '\n' ∉ k.1
  lower : r.lower = host.toLowercase r.printed ∨ '\n' ∉ r.lower
  folded : r.folded = r.lower ∨ '\n' ∉ r.folded
  flavor : r.flavor.length < 2 ^ 16

def collatedAll (items : List Item) : List Char := items.flatMap fun i => collatedOf i.read

def textAll (items : List Item) : List Char := items.flatMap fun i => textOf i.read

def storedAll (items : List Item) : List Char :=
  items.flatMap fun i => lowerOf host i.read ++ foldedOf i.read

def keyBitsAll (items : List Item) : List UInt8 := items.flatMap fun i => i.read.flavor.map (·.2)

def encoded (items : List Item) : Bytes :=
  utf8 NAMES_BLOB_HEADER_V3 ++ List.flatten [Bytes.ofNatLE 4 items.length, Bytes.ofNatLE 4 (keyBitsAll items).length,
    Bytes.ofNatLE 4 (len (collatedAll items)), Bytes.ofNatLE 4 (len (textAll items)),
    Bytes.ofNatLE 4 (len (storedAll host items)),
    utf8 (collatedAll items), utf8 (textAll items), utf8 (storedAll host items),
    putU16s (items.map fun i => (rowOf host i).partition),
    items.map fun i => (rowOf host i).classes,
    items.map fun i => (rowOf host i).best,
    items.map fun i => (rowOf host i).shape,
    putU16s (items.map fun i => (rowOf host i).keys),
    keyBitsAll items,
    putU16s (items.map fun i => (rowOf host i).trigramSlack),
    putU16s (items.map fun i => (rowOf host i).signatureSlack)]

/-! ## The sections -/

variable {host} {list : NameList host.Bits}

theorem putLine_ok {out out' s : List Char} {what : String}
    (h : putLine host out s what = .ok out') : '\n' ∉ s ∧ out' = out ++ (s ++ ['\n']) := by
  rw [putLine] at h
  split at h
  · cases h
  · next hbreak =>
      obtain rfl := Except.ok.inj h
      exact ⟨by simpa using hbreak, by simp⟩

theorem putUnless_ok {elided : Prop} [Decidable elided] {out out' s : List Char} {what : String}
    (h : putUnless host elided out s what = .ok out') :
    (elided ∨ '\n' ∉ s) ∧ out' = out ++ (if elided then [] else s ++ ['\n']) := by
  rw [putUnless] at h
  split at h
  · next helided =>
      obtain rfl := Except.ok.inj h
      exact ⟨.inl helided, by simp [helided]⟩
  · next helided =>
      obtain ⟨hbreak, rfl⟩ := putLine_ok h
      exact ⟨.inr hbreak, by simp [helided]⟩

theorem encodeKeys_ok {flavor : List (List Char × UInt8)} {sections sections' : Sections}
    (h : flavor.foldlM (encodeKey host) sections = .ok sections') :
    (∀ k ∈ flavor, '\n' ∉ k.1) ∧ sections' = { sections with
      text := sections.text ++ keysOf flavor
      keyBits := sections.keyBits ++ flavor.map (·.2) } := by
  induction flavor generalizing sections with
  | nil =>
    obtain rfl := Except.ok.inj h
    simp [keysOf]
  | cons key flavor ih =>
    rw [List.foldlM_cons] at h
    obtain ⟨next, hnext, hrest⟩ := ok_of_bind h
    obtain ⟨text, htext, hnext⟩ := ok_of_bind hnext
    obtain ⟨hbreak, rfl⟩ := putLine_ok htext
    obtain rfl := Except.ok.inj hnext
    obtain ⟨hkeys, rfl⟩ := ih hrest
    refine ⟨by simpa [hbreak] using hkeys, ?_⟩
    simp [keysOf]

def Sections.put (host : Host) (sections : Sections) (r : Read) : Sections where
  text := sections.text ++ textOf r
  derived := sections.derived ++ (lowerOf host r ++ foldedOf r)
  shape := sections.shape ++ [shapeOf host r]
  keys := sections.keys ++ [UInt16.ofNat r.flavor.length]
  keyBits := sections.keyBits ++ r.flavor.map (·.2)

theorem encodeEntry_ok {e : Entry} {name : List Char} {sections sections' : Sections}
    (hname : list.atCollated e.collated = .ok name) (hbreak : '\n' ∉ name)
    (h : encodeEntry host list sections e = .ok sections') :
    ∃ r, list.read e = .ok r ∧ r.collated = name ∧ Writable host r ∧ sections' = sections.put host r := by
  obtain ⟨printed, hprinted, h⟩ := ok_of_bind h
  obtain ⟨text, htext, h⟩ := ok_of_bind h
  obtain ⟨flavor, hflavor, h⟩ := ok_of_bind h
  obtain ⟨_, hlength, h⟩ := ok_of_bind h
  obtain ⟨next, hnext, h⟩ := ok_of_bind h
  obtain ⟨lower, hlower, h⟩ := ok_of_bind h
  obtain ⟨folded, hfolded, h⟩ := ok_of_bind h
  obtain ⟨derived, hderived, h⟩ := ok_of_bind h
  obtain ⟨derived', hderived', h⟩ := ok_of_bind h
  obtain rfl := Except.ok.inj h
  obtain ⟨hprintedBreak, rfl⟩ := putLine_ok htext
  obtain ⟨hkeys, rfl⟩ := encodeKeys_ok hnext
  obtain ⟨hlowerBreak, rfl⟩ := putUnless_ok hderived
  obtain ⟨hfoldedBreak, rfl⟩ := putUnless_ok hderived'
  refine ⟨⟨name, printed, lower, folded, e.partition, e.classes, e.best, flavor⟩, ?_, rfl,
    ⟨hbreak, hprintedBreak, hkeys, hlowerBreak, hfoldedBreak, by simpa using refuse_ok hlength⟩, ?_⟩
  · rw [NameList.read, bind_ok hname, bind_ok hprinted, bind_ok hlower, bind_ok hfolded, bind_ok hflavor]
    rfl
  · simp [Sections.put, textOf, lowerOf, foldedOf, shapeOf]

/-! ## The list behind the items -/

/-- Where names stand, each on a line of its own from `start`. -/
def startsFrom (start : ℕ) : List (List Char) → List UInt32
  | [] => []
  | name :: names => UInt32.ofNat start :: startsFrom (start + len name + 1) names

/-- The items a list's entries are read as. -/
structure ReadsAs (list : NameList host.Bits) (items : List Item) : Prop where
  reads : List.Forall₂ (fun e i => list.read e = .ok i.read ∧ Writable host i.read)
    list.entries items
  starts : list.collatedStarts = startsFrom 0 (items.map (·.read.collated))
  counts : list.trigramCounts = items.map (·.count.toUInt32)
  signatures : list.signatures = items.map fun i => host.signature i.read.folded

theorem collated_follow {entries : List Entry} {front : List Char}
    (h : Follow CollatedStep front entries list.collated) (hlen : len list.collated < 2 ^ 32) :
    ∃ names : List (List Char), List.Forall₂ (fun e name => '\n' ∉ name ∧
        list.atCollated e.collated = .ok name) entries names ∧
      entries.map (·.collated.1) = startsFrom (len front) names ∧
      list.collated = front ++ names.flatMap (· ++ ['\n']) := by
  induction entries generalizing front with
  | nil =>
    have h : front = list.collated := h
    exact ⟨[], .nil, rfl, by simp [h]⟩
  | cons e entries ih =>
    obtain ⟨next, ⟨name, hbreak, hspan, rfl⟩, hrest⟩ := h
    obtain ⟨names, hnames, hstarts, hall⟩ := ih hrest
    have hnext : len (front ++ name ++ ['\n']) = len front + len name + 1 := by
      simp only [len_append, len_newline]
    rw [hnext] at hstarts
    refine ⟨name :: names, .cons ⟨hbreak, ?_⟩ hnames, ?_, by simpa using hall⟩
    swap
    · rw [List.map_cons, hstarts, startsFrom, hspan]
      rfl
    have hlen' := hlen
    rw [hall] at hlen'
    simp only [len_append] at hlen'
    have hslice : slice list.collated (len front) (len front + len name) = some name :=
      slice_eq_some.mpr ⟨front, '\n' :: names.flatMap (· ++ ['\n']), by simpa using hall, rfl, rfl⟩
    have hstart : (UInt32.ofNat (len front)).toNat = len front :=
      UInt32.toNat_ofNat_of_lt' (by show _ < 2 ^ 32; omega)
    have hstop : (UInt32.ofNat (len (front ++ name))).toNat = len front + len name := by
      rw [len_append]
      exact UInt32.toNat_ofNat_of_lt' (by show _ < 2 ^ 32; omega)
    rw [NameList.atCollated, sliceAt, hspan, push]
    simp only
    rw [hstart, hstop, hslice]
    rfl

theorem read_ok {list : NameList host.Bits} {e : Entry} {r : Read} :
    list.read e = .ok r ↔ list.atCollated e.collated = .ok r.collated ∧
      list.atText e.printed = .ok r.printed ∧ list.atDerived e.lower = .ok r.lower ∧
      list.atDerived e.folded = .ok r.folded ∧ list.flavorOf e = .ok r.flavor ∧
      e.partition = r.partition ∧ e.classes = r.classes ∧ e.best = r.best := by
  constructor
  · intro h
    obtain ⟨name, hname, h⟩ := ok_of_bind h
    obtain ⟨printed, hprinted, h⟩ := ok_of_bind h
    obtain ⟨lower, hlower, h⟩ := ok_of_bind h
    obtain ⟨folded, hfolded, h⟩ := ok_of_bind h
    obtain ⟨flavor, hflavor, h⟩ := ok_of_bind h
    obtain rfl := Except.ok.inj h
    exact ⟨hname, hprinted, hlower, hfolded, hflavor, rfl, rfl, rfl⟩
  · rintro ⟨hname, hprinted, hlower, hfolded, hflavor, hpartition, hclasses, hbest⟩
    rw [NameList.read, bind_ok hname, bind_ok hprinted, bind_ok hlower, bind_ok hfolded,
      bind_ok hflavor, hpartition, hclasses, hbest]
    rfl

theorem encodeEntries_ok {entries : List Entry} {names : List (List Char)}
    {sections sections' : Sections}
    (hnames : List.Forall₂ (fun e name => '\n' ∉ name ∧ list.atCollated e.collated = .ok name)
      entries names)
    (h : entries.foldlM (encodeEntry host list) sections = .ok sections') :
    ∃ rs : List Read, List.Forall₂ (fun e r => list.read e = .ok r ∧ Writable host r) entries rs ∧
      rs.map (·.collated) = names ∧ sections' = rs.foldl (Sections.put host) sections := by
  induction hnames generalizing sections with
  | nil =>
    obtain rfl := Except.ok.inj h
    exact ⟨[], .nil, rfl, rfl⟩
  | cons hname _ ih =>
    rw [List.foldlM_cons] at h
    obtain ⟨next, hnext, hrest⟩ := ok_of_bind h
    obtain ⟨r, hread, rfl, hwritable, rfl⟩ := encodeEntry_ok hname.2 hname.1 hnext
    obtain ⟨rs, hrs, rfl, rfl⟩ := ih hrest
    exact ⟨r :: rs, .cons ⟨hread, hwritable⟩ hrs, rfl, rfl⟩

theorem foldl_put (rs : List Read) (sections : Sections) : rs.foldl (Sections.put host) sections = {
      text := sections.text ++ rs.flatMap textOf
      derived := sections.derived ++ rs.flatMap fun r => lowerOf host r ++ foldedOf r
      shape := sections.shape ++ rs.map (shapeOf host)
      keys := sections.keys ++ rs.map fun r => UInt16.ofNat r.flavor.length
      keyBits := sections.keyBits ++ rs.flatMap fun r => r.flavor.map (·.2) } := by
  induction rs generalizing sections with
  | nil => simp
  | cons r rs ih => simp [ih, Sections.put]

theorem flavor_follow {entries : List Entry} {rs : List Read} {start : ℕ}
    (hreads : List.Forall₂ (fun e r => list.read e = .ok r ∧ Writable host r) entries rs)
    (h : Follow FlavorStep start entries list.flavor.length)
    (hlen : list.flavor.length < 2 ^ 32) :
    start + (rs.flatMap fun r => r.flavor.map (·.2)).length = list.flavor.length := by
  induction hreads generalizing start with
  | nil =>
    have h : start = list.flavor.length := h
    simpa using h
  | @cons e r entries rs hread _ ih =>
    obtain ⟨stop, ⟨hle, hfrom, hcount⟩, hrest⟩ := h
    have hall := ih hrest
    have hflavor := (read_ok.mp hread.1).2.2.2.2.1
    have hstartNat : (UInt32.ofNat start).toNat = start :=
      UInt32.toNat_ofNat_of_lt' (by show _ < 2 ^ 32; omega)
    have hstopNat : (UInt32.ofNat stop).toNat = stop :=
      UInt32.toNat_ofNat_of_lt' (by show _ < 2 ^ 32; omega)
    have hsum : UInt32.ofNat start + (UInt32.ofNat stop - UInt32.ofNat start) = UInt32.ofNat stop := by
      rw [UInt32.add_comm, UInt32.sub_add_cancel]
    rw [NameList.flavorOf, hfrom, hcount, hsum, hstartNat, hstopNat] at hflavor
    split at hflavor
    · have hlength := (forall₂_of_mapM hflavor).length_eq
      simp only [List.length_take, List.length_drop] at hlength
      simp only [List.flatMap_cons, List.length_append, List.length_map]
      omega
    · cases hflavor

theorem putLen_ok {n : ℕ} {what : String} {bytes : Bytes} (h : putLen n what = .ok bytes) :
    n < 2 ^ 32 ∧ bytes = Bytes.ofNatLE 4 n := by
  rw [putLen] at h
  split at h
  · next hlt =>
      obtain rfl := Except.ok.inj h
      exact ⟨hlt, rfl⟩
  · cases h

theorem orPanic_some {α : Type} {x : Option α} {a : α} (h : x = some a) : orPanic x = .ok a := by
  rw [h]
  rfl

theorem slacks_ok {i : ℕ} {r : Read} {e : Entry} {count : UInt32}
    {signature : FuzzySignature host.Bits} {p : UInt16 × UInt16}
    (he : list.entries[i]? = some e) (hcount : list.trigramCounts[i]? = some count)
    (hsignature : list.signatures[i]? = some signature) (hread : list.read e = .ok r)
    (h : slacks list i = .ok p) :
    count.toUInt16.toUInt32 = count ∧
      p = (slackBase r.collated - count.toUInt16, signature.trigrams ^^^ count.toUInt16) := by
  rw [slacks, bind_ok (orPanic_some hcount)] at h
  obtain ⟨_, hlimit, h⟩ := ok_of_bind h
  have hlimit := refuse_ok hlimit
  rw [bind_ok (orPanic_some he), bind_ok (read_ok.mp hread).1, bind_ok (read_ok.mp hread).2.1,
    bind_ok (orPanic_some hsignature)] at h
  obtain rfl := Except.ok.inj h
  refine ⟨UInt32.toNat_inj.mp ?_, rfl⟩
  simp only [UInt16.toNat_toUInt32, UInt32.toNat_toUInt16]
  exact Nat.mod_eq_of_lt (by omega)

theorem signatures_ok {rs : List Read} (hlaid : Laid host list)
    (hreads : List.Forall₂ (fun e r => list.read e = .ok r ∧ Writable host r) list.entries rs) :
    list.signatures = rs.map fun r => host.signature r.folded := by
  have h := hlaid.signatures
  rw [signaturesOf, if_pos rfl] at h
  have hall := forall₂_of_mapM h
  generalize list.signatures = signatures at hall
  clear h hlaid
  generalize list.entries = entries at hreads hall
  induction hreads generalizing signatures with
  | nil =>
    cases hall
    rfl
  | cons hread _ ih =>
    cases hall with
    | cons hone hall =>
      have hfolded := (read_ok.mp hread.1).2.2.2.1
      rw [NameList.atDerived] at hfolded
      rw [bind_ok hfolded] at hone
      obtain rfl := Except.ok.inj hone
      rw [ih _ hall]
      rfl

theorem slacks_follow {rs : List Read} {slack : List (UInt16 × UInt16)} (hlaid : Laid host list)
    (hreads : List.Forall₂ (fun e r => list.read e = .ok r ∧ Writable host r) list.entries rs)
    (h : (List.range list.entries.length).mapM (slacks list) = .ok slack) :
    ∃ items : List Item, items.map (·.read) = rs ∧ list.trigramCounts = items.map (·.count.toUInt32) ∧
      slack = items.map fun i => ((rowOf host i).trigramSlack, (rowOf host i).signatureSlack) := by
  have hsignatures := signatures_ok hlaid hreads
  have hslack := forall₂_of_mapM h
  have hn : slack.length = rs.length := by
    rw [← hslack.length_eq, List.length_range, hreads.length_eq]
  have hcounts : list.trigramCounts.length = rs.length := by
    rw [hlaid.counts, hreads.length_eq]
  refine ⟨(rs.zip list.trigramCounts).map fun p => ⟨p.1, p.2.toUInt16⟩, ?_, ?_, ?_⟩
  · rw [List.map_map]
    exact List.map_fst_zip (Nat.le_of_eq hcounts.symm)
  all_goals
    refine List.ext_getElem (by simp [hn, hcounts]) fun i hi hi' => ?_
    have hi : i < rs.length := by omega
    have hentry : i < list.entries.length := by rw [hreads.length_eq]; exact hi
    have hread := (List.forall₂_iff_get.mp hreads).2 i hentry hi
    have hp := (List.forall₂_iff_get.mp hslack).2 i (by simpa using hentry) (by omega)
    have hsignature : list.signatures[i]? = some (host.signature rs[i].folded) := by
      rw [hsignatures]
      simp [hi]
    have hone := slacks_ok (List.getElem?_eq_getElem hentry)
      (List.getElem?_eq_getElem (by omega)) hsignature hread.1 (by simpa using hp)
  · simpa using hone.1.symm
  · simpa [rowOf] using hone.2

theorem map_eq_map {α β γ : Type} {R : α → β → Prop} {as : List α} {bs : List β}
    {f : α → γ} {g : β → γ} (h : List.Forall₂ R as bs) (hfg : ∀ {a b}, R a b → f a = g b) :
    as.map f = bs.map g := by
  induction h with
  | nil => rfl
  | cons hab _ ih => rw [List.map_cons, List.map_cons, hfg hab, ih]

/-- **The encoder writes the items that the list's entries are read as.** -/
theorem encodeV3_ok {out : Bytes} (hlaid : Laid host list) (h : encodeV3 host list = .ok out) :
    ∃ items, ReadsAs list items ∧ out = encoded host items ∧ items.length < 2 ^ 32 ∧
      (keyBitsAll items).length < 2 ^ 32 ∧ list.collated = collatedAll items ∧
      len (collatedAll items) < 2 ^ 32 ∧ len (textAll items) < 2 ^ 32 ∧
      len (storedAll host items) < 2 ^ 32 := by
  obtain ⟨_, -, h⟩ := ok_of_bind h
  obtain ⟨sections, hsections, h⟩ := ok_of_bind h
  obtain ⟨slack, hslack, h⟩ := ok_of_bind h
  obtain ⟨_, hentries, h⟩ := ok_of_bind h
  obtain ⟨_, hkeys, h⟩ := ok_of_bind h
  obtain ⟨_, hcollated, h⟩ := ok_of_bind h
  obtain ⟨_, htext, h⟩ := ok_of_bind h
  obtain ⟨_, hderived, h⟩ := ok_of_bind h
  obtain rfl := Except.ok.inj h
  obtain ⟨hentryCount, rfl⟩ := putLen_ok hentries
  obtain ⟨hkeyCount, rfl⟩ := putLen_ok hkeys
  obtain ⟨hcollatedLen, rfl⟩ := putLen_ok hcollated
  obtain ⟨htextLen, rfl⟩ := putLen_ok htext
  obtain ⟨hderivedLen, rfl⟩ := putLen_ok hderived
  obtain ⟨names, hnames, hstarts, hhaystack⟩ := collated_follow hlaid.collated hcollatedLen
  obtain ⟨rs, hreads, rfl, rfl⟩ := encodeEntries_ok hnames hsections
  obtain ⟨items, rfl, hcounts, rfl⟩ := slacks_follow hlaid hreads hslack
  have hflavor := flavor_follow hreads hlaid.flavor hkeyCount
  have hcollatedAll : list.collated = collatedAll items := by
    simpa [collatedAll, collatedOf, List.flatMap_map] using hhaystack
  have hkeyBits : (keyBitsAll items).length = list.flavor.length := by
    simpa [keyBitsAll, List.flatMap_map] using hflavor
  have hlength : list.entries.length = items.length := by simpa using hreads.length_eq
  have hpartition : list.entries.map (·.partition) = items.map fun i => (rowOf host i).partition := by
    rw [map_eq_map hreads fun h => (read_ok.mp h.1).2.2.2.2.2.1, List.map_map]
    rfl
  have hclasses : list.entries.map (·.classes) = items.map fun i => (rowOf host i).classes := by
    rw [map_eq_map hreads fun h => (read_ok.mp h.1).2.2.2.2.2.2.1, List.map_map]
    rfl
  have hbest : list.entries.map (·.best) = items.map fun i => (rowOf host i).best := by
    rw [map_eq_map hreads fun h => (read_ok.mp h.1).2.2.2.2.2.2.2, List.map_map]
    rfl
  rw [foldl_put] at htextLen hderivedLen
  refine ⟨items, ⟨?_, ?_, hcounts, ?_⟩, ?_, by omega, by omega, hcollatedAll, ?_, ?_, ?_⟩
  · exact List.forall₂_map_right_iff.mp hreads
  · rw [hlaid.starts, hstarts, List.map_map]
    rfl
  · rw [signatures_ok hlaid hreads, List.map_map]
    rfl
  · rw [foldl_put, hpartition, hclasses, hbest, hcollatedAll, hlength, ← hkeyBits]
    simp [encoded, textAll, storedAll, keyBitsAll, rowOf, List.flatMap_map, Function.comp_def]
  · rwa [← hcollatedAll]
  · simpa [textAll, List.flatMap_map] using htextLen
  · simpa [storedAll, List.flatMap_map] using hderivedLen

end NamesBlob
