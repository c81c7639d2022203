-- SUMMARY: A key packet decodes to what was encoded, and neither a shorter one nor a longer one decodes at all.
import Sylvan.Data.Framed
import Sylvan.Engine.KeyPacket

/-!
# The key packet codec

Every part of a packet is framed for its decoder, so a packet whose fields fit their
widths is framed for the packet decoder, which takes the whole of its input.
-/

namespace Gather

open Framed Bytes

/-! ## Readers as steps -/

theorem readBytes_eq (group what : String) : readBytes group what =
    andThen (take 2 fun _ => s!"key packet truncated in the {group} {what} length") fun head =>
      take (toNatLE head) fun _ => s!"key packet truncated in the {group} {what}" := by
  funext rest
  rw [readBytes, andThen_take]
  rfl

theorem readCandidate_eq (group : String) : readCandidate group =
    andThen (readBytes group "rank") fun rank => andThen (readBytes group "key") fun key =>
      andThen (take 4 fun _ => s!"key packet truncated in the {group} vpid") fun vpid =>
        done { rank := rank, key := key, vpid := toNatLE vpid } := by
  funext rest
  simp only [readCandidate, andThen_eq_bind (readBytes _ _), andThen_take]
  rfl

theorem readEntries_succ (n i : ℕ) : readEntries (n + 1) i =
    andThen (take 2 fun _ => s!"key packet truncated in entry {i} header") fun head =>
      andThen (take (toNatLE head + 4) fun _ => s!"key packet truncated in entry {i} body") fun body =>
        andThen (readEntries n (i + 1)) fun entries =>
          done ({ key := body.take (toNatLE head), vpid := toNatLE (body.drop (toNatLE head)) } :: entries) := by
  funext rest
  have hhead : toNatLE (rest.take 2) = headLE 2 rest := rfl
  rw [readEntries, andThen_take]
  split
  · rfl
  · simp only [andThen_take, hhead, List.take_take, List.drop_take, Nat.min_eq_left (Nat.le_add_right _ 4),
      Nat.add_sub_cancel_left]
    by_cases hshort : (rest.drop 2).length < headLE 2 rest + 4
    · rw [if_pos hshort, if_pos hshort]
    · rw [if_neg hshort, if_neg hshort, andThen]
      cases readEntries n (i + 1) ((rest.drop 2).drop (headLE 2 rest + 4)) with
      | error e => rfl
      | ok r => rfl

theorem readRows_succ (truncated : String) (n i : ℕ) : readRows truncated (n + 1) i =
    andThen (take 4 fun _ => s!"{truncated} {i} header") fun head =>
      andThen (take (toNatLE head) fun _ => s!"{truncated} {i} body") fun row =>
        andThen (readRows truncated n (i + 1)) fun rows => done (row :: rows) := by
  funext rest
  have hhead : toNatLE (rest.take 4) = headLE 4 rest := rfl
  rw [readRows, andThen_take]
  split
  · rfl
  · simp only [andThen_take, hhead]
    by_cases hshort : (rest.drop 4).length < headLE 4 rest
    · rw [if_pos hshort, if_pos hshort]
    · rw [if_neg hshort, if_neg hshort, andThen]
      cases readRows truncated n (i + 1) ((rest.drop 4).drop (headLE 4 rest)) with
      | error e => rfl
      | ok r => rfl

theorem readShared_succ (n i : ℕ) : readShared (n + 1) i =
    andThen (take 16 fun _ => s!"key packet truncated in shared artwork {i}'s identity") fun art =>
      andThen (readCandidate s!"shared artwork {i}'s") fun candidate =>
        andThen (readShared n (i + 1)) fun shared => done ({ candidate with art := art } :: shared) := by
  funext rest
  rw [readShared, andThen_take]
  simp only [andThen_eq_bind]
  rfl

theorem readSharedTrailer_eq : readSharedTrailer =
    andThen (take 2 fun _ => "key packet truncated in the shared-artwork count") fun head =>
      if toNatLE head = 0 then
        fun _ => .error "key packet flags a shared-artwork trailer and counts no candidate"
      else readShared (toNatLE head) 0 := by
  funext rest
  rw [readSharedTrailer, andThen_take, headLE]
  by_cases hzero : toNatLE (rest.take 2) = 0
  · rw [if_pos hzero, if_pos hzero]
  · rw [if_neg hzero, if_neg hzero]

theorem readIf_eq {α : Type} (flagged : Bool) (read : Bytes → Except String (α × Bytes)) : readIf flagged read =
    if flagged then andThen read fun a => done (some a) else done none := by
  funext rest
  cases flagged with
  | false => rfl
  | true =>
    rw [readIf, if_pos rfl, if_pos rfl, andThen]
    cases read rest with
    | error e => rfl
    | ok r => rfl

/-! ## Framed parts -/

/-- The fields of a candidate fit the packet's widths. -/
def ArtlessCandidate.Fits (c : ArtlessCandidate) : Prop :=
  c.rank.length < 2 ^ 16 ∧ c.key.length < 2 ^ 16 ∧ c.vpid < 2 ^ 32

theorem toNatLE_ofNatLE_of_lt {k n : ℕ} (h : n < 256 ^ k) : toNatLE (ofNatLE k n) = n := by
  rw [toNatLE_ofNatLE, Nat.mod_eq_of_lt h]

theorem frames_readBytes (group what : String) {bytes : Bytes} (h : bytes.length < 2 ^ 16) :
    Frames (readBytes group what) (putBytes bytes) bytes := by
  rw [readBytes_eq, putBytes]
  apply (Frames.take (length_ofNatLE 2 bytes.length)).andThen
  rw [toNatLE_ofNatLE_of_lt h]
  exact Frames.take rfl

theorem frames_vpid {α : Type} (message : String) {vpid : ℕ} (h : vpid < 2 ^ 32) (f : ℕ → α) :
    Frames (andThen (take 4 fun _ : Bytes => message) fun bytes => done (f (toNatLE bytes)))
      (ofNatLE 4 vpid) (f vpid) := by
  have hread := (Frames.take (e := fun _ : Bytes => message) (length_ofNatLE 4 vpid)).map
    fun bytes => f (toNatLE bytes)
  rwa [toNatLE_ofNatLE_of_lt h] at hread

theorem frames_readCandidate (group : String) {c : ArtlessCandidate} (h : c.Fits) :
    Frames (readCandidate group) (putCandidate c) c := by
  rw [readCandidate_eq, putCandidate, List.append_assoc]
  apply (frames_readBytes group "rank" h.1).andThen
  apply (frames_readBytes group "key" h.2.1).andThen
  exact frames_vpid _ h.2.2 fun vpid => ({ rank := c.rank, key := c.key, vpid := vpid } : ArtlessCandidate)

theorem frames_readEntries {entries : List KeyEntry} (h : ∀ e ∈ entries, e.key.length < 2 ^ 16 ∧ e.vpid < 2 ^ 32)
    (i : ℕ) : Frames (readEntries entries.length i) (entries.flatMap putEntry) entries := by
  induction entries generalizing i with
  | nil => exact Frames.done []
  | cons entry entries ih =>
    obtain ⟨hkey, hvpid⟩ := h entry (by simp)
    have hrest := ih (fun e he => h e (List.mem_cons_of_mem _ he)) (i + 1)
    have hbody : (entry.key ++ ofNatLE 4 entry.vpid).length = entry.key.length + 4 := by
      rw [List.length_append, length_ofNatLE]
    rw [List.length_cons, readEntries_succ, List.flatMap_cons, putEntry, putBytes, List.append_assoc, List.append_assoc]
    apply (Frames.take (length_ofNatLE 2 entry.key.length)).andThen
    rw [toNatLE_ofNatLE_of_lt hkey, ← List.append_assoc]
    apply (Frames.take hbody).andThen
    have hread := hrest.map fun entries => entry :: entries
    rwa [List.take_left, List.drop_left, toNatLE_ofNatLE_of_lt hvpid]

theorem frames_readRows (truncated : String) {rows : List Bytes} (h : ∀ row ∈ rows, row.length < 2 ^ 32) (i : ℕ) :
    Frames (readRows truncated rows.length i) (rows.flatMap putRow) rows := by
  induction rows generalizing i with
  | nil => exact Frames.done []
  | cons row rows ih =>
    have hrest := ih (fun r hr => h r (List.mem_cons_of_mem _ hr)) (i + 1)
    rw [List.length_cons, readRows_succ, List.flatMap_cons, putRow, List.append_assoc]
    apply (Frames.take (length_ofNatLE 4 row.length)).andThen
    rw [toNatLE_ofNatLE_of_lt (h row (by simp))]
    apply (Frames.take rfl).andThen
    exact hrest.map fun rows => row :: rows

theorem frames_readShared {shared : List SharedCandidate} (h : ∀ c ∈ shared, c.art.length = 16 ∧ c.toArtlessCandidate.Fits)
    (i : ℕ) : Frames (readShared shared.length i) (shared.flatMap fun c => c.art ++ putCandidate c.toArtlessCandidate)
      shared := by
  induction shared generalizing i with
  | nil => exact Frames.done []
  | cons c shared ih =>
    obtain ⟨hart, hfits⟩ := h c (by simp)
    have hrest := ih (fun c hc => h c (List.mem_cons_of_mem _ hc)) (i + 1)
    rw [List.length_cons, readShared_succ, List.flatMap_cons, List.append_assoc]
    apply (Frames.take hart).andThen
    apply (frames_readCandidate _ hfits).andThen
    exact hrest.map fun shared => c :: shared

/-! ## The whole packet -/

/-- The fields of a packet fit the widths they are written in. -/
structure KeyPacket.Fits (p : KeyPacket) : Prop where
  total : p.total < 2 ^ 32
  entryCount : p.entries.length < 2 ^ 32
  entries : ∀ e ∈ p.entries, e.key.length < 2 ^ 16 ∧ e.vpid < 2 ^ 32
  rowCount : p.inlineRows.length < 2 ^ 32
  rows : ∀ row ∈ p.inlineRows, row.length < 2 ^ 32
  artless : ∀ c, p.artless = some c → c.Fits
  sharedCount : (p.shared.getD []).length < 2 ^ 16
  shared : ∀ c ∈ p.shared.getD [], c.art.length = 16 ∧ c.toArtlessCandidate.Fits

namespace KeyPacket

def flags (p : KeyPacket) : ℕ :=
  (if p.widened then KEY_PACKET_FLAG_WIDENED else 0) ||| (if p.artless.isSome then KEY_PACKET_FLAG_ARTLESS else 0) |||
    (if (p.shared.getD []).length > 0 then KEY_PACKET_FLAG_SHARED else 0)

/-- The trailer of shared artworks, when there are any. -/
def sharedTrailer (shared : List SharedCandidate) : Bytes :=
  if shared.length > 0 then
    ofNatLE 2 shared.length ++ shared.flatMap fun c => c.art ++ putCandidate c.toArtlessCandidate
  else []

def header (p : KeyPacket) : Bytes :=
  [KEY_PACKET_VERSION, p.total, p.entries.length, p.inlineRows.length, p.flags].flatMap (ofNatLE 4)

def trailers (p : KeyPacket) : Bytes :=
  p.inlineRows.flatMap putRow ++ ((p.artless.map putCandidate).getD [] ++ sharedTrailer (p.shared.getD []))

def sent (p : KeyPacket) : KeyPacket := { p with shared := if p.shared = some [] then none else p.shared }

end KeyPacket

variable {p : KeyPacket}

theorem encodeKeyPacket_eq (h : p.Fits) :
    encodeKeyPacket p = .ok (p.header ++ (p.entries.flatMap putEntry ++ p.trailers)) := by
  have hput : (p.shared.getD []).mapM putShared =
      .ok ((p.shared.getD []).map fun c => c.art ++ putCandidate c.toArtlessCandidate) :=
    Throws.mapM_ok fun c hc => if_neg fun hne => hne (h.shared c hc).1
  rw [encodeKeyPacket, Throws.bind_ok hput, KeyPacket.header, KeyPacket.trailers, KeyPacket.sharedTrailer, List.flatMap]
  simp only [List.append_assoc]
  rfl

def flagBits (widened artless shared : Bool) : ℕ :=
  (if widened then KEY_PACKET_FLAG_WIDENED else 0) ||| (if artless then KEY_PACKET_FLAG_ARTLESS else 0) |||
    (if shared then KEY_PACKET_FLAG_SHARED else 0)

theorem flagBits_tests (widened artless shared : Bool) : flagBits widened artless shared < 2 ^ 32 ∧
      decide (flagBits widened artless shared &&& KEY_PACKET_FLAG_WIDENED ≠ 0) = widened ∧
      decide (flagBits widened artless shared &&& KEY_PACKET_FLAG_ARTLESS ≠ 0) = artless ∧
      decide (flagBits widened artless shared &&& KEY_PACKET_FLAG_SHARED ≠ 0) = shared := by
  cases widened <;> cases artless <;> cases shared <;> decide

theorem flags_eq (p : KeyPacket) :
    p.flags = flagBits p.widened p.artless.isSome (decide ((p.shared.getD []).length > 0)) := by
  simp only [KeyPacket.flags, flagBits, decide_eq_true_eq]

theorem flags_lt (p : KeyPacket) : p.flags < 2 ^ 32 := by
  rw [flags_eq]
  exact (flagBits_tests _ _ _).1

theorem flags_widened (p : KeyPacket) : decide (p.flags &&& KEY_PACKET_FLAG_WIDENED ≠ 0) = p.widened := by
  rw [flags_eq]
  exact (flagBits_tests _ _ _).2.1

theorem flags_artless (p : KeyPacket) : decide (p.flags &&& KEY_PACKET_FLAG_ARTLESS ≠ 0) = p.artless.isSome := by
  rw [flags_eq]
  exact (flagBits_tests _ _ _).2.2.1

theorem flags_shared (p : KeyPacket) :
    decide (p.flags &&& KEY_PACKET_FLAG_SHARED ≠ 0) = decide ((p.shared.getD []).length > 0) := by
  rw [flags_eq]
  exact (flagBits_tests _ _ _).2.2.2

theorem frames_artless (h : p.Fits) : Frames (readIf (p.flags &&& KEY_PACKET_FLAG_ARTLESS ≠ 0) (readCandidate "art-less"))
      ((p.artless.map putCandidate).getD []) p.artless := by
  rw [flags_artless, readIf_eq]
  cases hartless : p.artless with
  | none => exact Frames.done none
  | some c => exact (frames_readCandidate "art-less" (h.artless c hartless)).map some

theorem frames_shared (h : p.Fits) : Frames (readIf (p.flags &&& KEY_PACKET_FLAG_SHARED ≠ 0) readSharedTrailer)
      (KeyPacket.sharedTrailer (p.shared.getD [])) p.sent.shared := by
  rw [flags_shared, readIf_eq]
  have hcount := h.sharedCount
  have hfits := h.shared
  unfold KeyPacket.sent
  generalize p.shared = given at hcount hfits
  cases given with
  | none => exact Frames.done none
  | some shared =>
    cases shared with
    | nil => exact Frames.done none
    | cons c shared =>
      have hread : Frames readSharedTrailer (KeyPacket.sharedTrailer (c :: shared)) (c :: shared) := by
        have hsome : (c :: shared).length > 0 := Nat.succ_pos shared.length
        rw [readSharedTrailer_eq, KeyPacket.sharedTrailer, if_pos hsome]
        apply (Frames.take (length_ofNatLE 2 _)).andThen
        rw [toNatLE_ofNatLE_of_lt hcount, if_neg (Nat.pos_iff_ne_zero.mp hsome)]
        exact frames_readShared hfits 0
      exact hread.map some

/-- What is read behind the entries, when there are no more inline rows than entries. -/
def readAfter (inlineCount flags : ℕ) :
    Reader String UInt8 (List Bytes × Option ArtlessCandidate × Option (List SharedCandidate)) :=
  andThen (readRows "key packet truncated in inline row" inlineCount 0) fun rows =>
    andThen (readIf (flags &&& KEY_PACKET_FLAG_ARTLESS ≠ 0) (readCandidate "art-less")) fun artless =>
      andThen (readIf (flags &&& KEY_PACKET_FLAG_SHARED ≠ 0) readSharedTrailer) fun shared =>
        done (rows, artless, shared)

theorem frames_readAfter (h : p.Fits) : Frames (readAfter p.inlineRows.length p.flags) p.trailers
    (p.inlineRows, p.artless, p.sent.shared) := by
  apply (frames_readRows _ h.rows 0).andThen
  apply (frames_artless h).andThen
  exact (frames_shared h).map fun shared => (p.inlineRows, p.artless, shared)

def trailing (rest : Bytes) : String :=
  let trailing := rest.length
  s!"key packet has {trailing} trailing bytes"

theorem readTrailers_eq {n inlineCount : ℕ} (h : inlineCount ≤ n) (flags : ℕ) (rest : Bytes) :
    readTrailers n inlineCount flags rest = exactly (readAfter inlineCount flags) trailing rest := by
  rw [readTrailers, if_neg (by omega), exactly_eq_bind, readAfter]
  simp only [andThen_eq_bind, bind_assoc]
  rfl

def packetOf (total flags : ℕ) (entries : List KeyEntry)
    (after : List Bytes × Option ArtlessCandidate × Option (List SharedCandidate)) : KeyPacket :=
  { total := total, entries := entries, inlineRows := after.1, widened := flags &&& KEY_PACKET_FLAG_WIDENED ≠ 0
    artless := after.2.1, shared := after.2.2 }

def readBody (total n inlineCount flags : ℕ) : Reader String UInt8 KeyPacket :=
  andThen (readEntries n 0) fun entries => andThen (readAfter inlineCount flags) fun after =>
    done (packetOf total flags entries after)

theorem frames_readBody (h : p.Fits) : Frames (readBody p.total p.entries.length p.inlineRows.length p.flags)
      (p.entries.flatMap putEntry ++ p.trailers) p.sent := by
  have hpacket : packetOf p.total p.flags p.entries (p.inlineRows, p.artless, p.sent.shared) = p.sent := by
    rw [packetOf, flags_widened]
    rfl
  apply (frames_readEntries h.entries 0).andThen
  rw [← hpacket]
  exact (frames_readAfter h).map (packetOf p.total p.flags p.entries)

theorem length_header (p : KeyPacket) : p.header.length = 20 := by
  simp only [KeyPacket.header, List.flatMap_cons, List.flatMap_nil, List.length_append, length_ofNatLE, List.length_nil]

theorem header_words (h : p.Fits) (rest : Bytes) :
    headLE 4 (p.header ++ rest) = KEY_PACKET_VERSION ∧ headLE 4 ((p.header ++ rest).drop 4) = p.total ∧
      headLE 4 ((p.header ++ rest).drop 8) = p.entries.length ∧
      headLE 4 ((p.header ++ rest).drop 12) = p.inlineRows.length ∧
      headLE 4 ((p.header ++ rest).drop 16) = p.flags ∧ (p.header ++ rest).drop 20 = rest := by
  have hversion : KEY_PACKET_VERSION < 256 ^ 4 := by decide
  have htotal : p.total < 256 ^ 4 := h.total
  have hentries : p.entries.length < 256 ^ 4 := h.entryCount
  have hrows : p.inlineRows.length < 256 ^ 4 := h.rowCount
  have hflags : p.flags < 256 ^ 4 := flags_lt p
  have hwords : p.header ++ rest = ofNatLE 4 KEY_PACKET_VERSION ++ (ofNatLE 4 p.total ++
      (ofNatLE 4 p.entries.length ++ (ofNatLE 4 p.inlineRows.length ++ (ofNatLE 4 p.flags ++ rest)))) := by
    simp only [KeyPacket.header, List.flatMap_cons, List.flatMap_nil, List.append_assoc, List.append_nil]
  have hdrop4 : (p.header ++ rest).drop 4 = ofNatLE 4 p.total ++ (ofNatLE 4 p.entries.length ++
      (ofNatLE 4 p.inlineRows.length ++ (ofNatLE 4 p.flags ++ rest))) := by
    rw [hwords, drop_ofNatLE]
  have hdrop8 : (p.header ++ rest).drop 8 = ofNatLE 4 p.entries.length ++
      (ofNatLE 4 p.inlineRows.length ++ (ofNatLE 4 p.flags ++ rest)) := by
    rw [← @List.drop_drop _ 4 4, hdrop4, drop_ofNatLE]
  have hdrop12 : (p.header ++ rest).drop 12 = ofNatLE 4 p.inlineRows.length ++ (ofNatLE 4 p.flags ++ rest) := by
    rw [← @List.drop_drop _ 4 8, hdrop8, drop_ofNatLE]
  have hdrop16 : (p.header ++ rest).drop 16 = ofNatLE 4 p.flags ++ rest := by
    rw [← @List.drop_drop _ 4 12, hdrop12, drop_ofNatLE]
  refine ⟨?_, ?_, ?_, ?_, ?_, ?_⟩
  · rw [hwords, headLE_ofNatLE hversion]
  · rw [hdrop4, headLE_ofNatLE htotal]
  · rw [hdrop8, headLE_ofNatLE hentries]
  · rw [hdrop12, headLE_ofNatLE hrows]
  · rw [hdrop16, headLE_ofNatLE hflags]
  · rw [← length_header p, List.drop_left]

theorem decodeKeyPacket_header (h : p.Fits) (rest : Bytes) : decodeKeyPacket (p.header ++ rest) =
      readEntries p.entries.length 0 rest >>= fun r =>
        readTrailers p.entries.length p.inlineRows.length p.flags r.2 >>= fun after =>
          .ok (packetOf p.total p.flags r.1 after) := by
  obtain ⟨hversion, htotal, hentries, hrows, hflags, hbody⟩ := header_words h rest
  have hread : readVersion (p.header ++ rest) = .ok () := by
    have hlen : ¬ (p.header ++ rest).length < 20 := by
      rw [List.length_append, length_header]
      omega
    rw [readVersion, if_neg hlen, hversion]
    exact if_neg fun hne => hne rfl
  rw [decodeKeyPacket, Throws.bind_ok hread, htotal, hentries, hrows, hflags, hbody]
  rfl

theorem decodeKeyPacket_short {packed : Bytes} (h : packed.length < 20) : ∃ e, decodeKeyPacket packed = .error e := by
  rw [decodeKeyPacket, readVersion, if_pos h]
  exact ⟨_, rfl⟩

theorem decodeKeyPacket_eq (h : p.Fits) (hrows : p.inlineRows.length ≤ p.entries.length) (rest : Bytes) :
    decodeKeyPacket (p.header ++ rest) =
      exactly (readBody p.total p.entries.length p.inlineRows.length p.flags) trailing rest := by
  rw [decodeKeyPacket_header h, exactly_eq_bind, readBody]
  simp only [readTrailers_eq hrows, exactly_eq_bind, andThen_eq_bind, bind_assoc]
  refine bind_congr fun r => bind_congr fun after => ?_
  by_cases hmore : after.2.length ≠ 0
  · rw [if_pos hmore]
    exact (if_pos hmore).symm
  · rw [if_neg hmore]
    exact (if_neg hmore).symm

theorem decodeKeyPacket_overfull (h : p.Fits) (hrows : p.entries.length < p.inlineRows.length) (rest : Bytes) :
    ∃ e, decodeKeyPacket (p.header ++ rest) = .error e := by
  rw [decodeKeyPacket_header h]
  cases readEntries p.entries.length 0 rest with
  | error e => exact ⟨e, rfl⟩
  | ok r =>
    rw [Throws.bind_ok rfl, readTrailers, if_pos hrows]
    exact ⟨_, rfl⟩

/-! ## What a decoder makes of a packet, cut or not -/

def KeyPacket.packed (p : KeyPacket) : Bytes := p.header ++ (p.entries.flatMap putEntry ++ p.trailers)

theorem decode_encodeKeyPacket (h : p.Fits) (hrows : p.inlineRows.length ≤ p.entries.length) :
    decodeKeyPacket p.packed = .ok p.sent := by
  rw [KeyPacket.packed, decodeKeyPacket_eq h hrows]
  exact (frames_readBody h).exactly

theorem decodeKeyPacket_cut (h : p.Fits) {front : Bytes} (hpre : front <+: p.packed) (hne : front ≠ p.packed) :
    ∃ e, decodeKeyPacket front = .error e := by
  rw [KeyPacket.packed] at hpre hne
  rcases prefix_append_cases hpre with ⟨hhead, hcut⟩ | ⟨front', rfl, hpre'⟩
  · apply decodeKeyPacket_short
    rw [← length_header p]
    exact Nat.lt_of_le_of_ne hhead.length_le fun heq => hcut (hhead.eq_of_length heq)
  · by_cases hrows : p.inlineRows.length ≤ p.entries.length
    · rw [decodeKeyPacket_eq h hrows]
      exact (frames_readBody h).exactly_cut hpre' fun heq => hne (by rw [heq])
    · exact decodeKeyPacket_overfull h (by omega) front'

theorem decodeKeyPacket_trailing (h : p.Fits) {more : Bytes} (hne : more ≠ []) :
    ∃ e, decodeKeyPacket (p.packed ++ more) = .error e := by
  rw [KeyPacket.packed, List.append_assoc]
  by_cases hrows : p.inlineRows.length ≤ p.entries.length
  · rw [decodeKeyPacket_eq h hrows]
    exact (frames_readBody h).exactly_trailing hne
  · exact decodeKeyPacket_overfull h (by omega) _

/-- **The key packet codec**: a packet whose fields fit encodes; with no more inline rows
than entries it decodes to what was sent; and no shorter front of it, nor it with bytes
behind it, decodes. -/
theorem key_packet_codec (h : p.Fits) :
    ∃ packed, encodeKeyPacket p = .ok packed ∧
      (p.inlineRows.length ≤ p.entries.length →
        decodeKeyPacket packed = .ok { p with shared := if p.shared = some [] then none else p.shared }) ∧
      (∀ front, front <+: packed → front ≠ packed → ∃ e, decodeKeyPacket front = .error e) ∧
      ∀ more, more ≠ [] → ∃ e, decodeKeyPacket (packed ++ more) = .error e :=
  ⟨p.packed, encodeKeyPacket_eq h, decode_encodeKeyPacket h, fun _ => decodeKeyPacket_cut h,
    fun _ => decodeKeyPacket_trailing h⟩

def overfull : KeyPacket :=
  { total := 1, entries := [], inlineRows := [[123, 125]], widened := false, artless := none, shared := none }

theorem overfull_fits : overfull.Fits := by
  constructor <;> simp [overfull]

/-- **A row too many is not read back**: the encoder writes it, the decoder refuses it. -/
theorem key_packet_overfull :
    overfull.Fits ∧ ∃ packed, encodeKeyPacket overfull = .ok packed ∧
      decodeKeyPacket packed = .error "key packet claims 1 inline rows for 0 entries" :=
  ⟨overfull_fits, overfull.packed, encodeKeyPacket_eq overfull_fits, by decide +kernel⟩

def sample : KeyPacket :=
  { total := 2, entries := [{ key := [7, 8], vpid := 9 }], inlineRows := [[123, 125]], widened := true
    artless := some { rank := [1], key := [2, 3], vpid := 4 }
    shared := some [{ rank := [1], key := [2], vpid := 5, art := List.replicate 16 6 }] }

theorem key_packet_codec_sample : sample.Fits ∧
    ∃ packed, encodeKeyPacket sample = .ok packed ∧ decodeKeyPacket packed = .ok sample ∧
      ∃ e, decodeKeyPacket (packed ++ [0]) = .error e := by
  have hfits : sample.Fits := by
    constructor <;> simp [sample, ArtlessCandidate.Fits]
  obtain ⟨packed, hencode, hdecode, -, htrailing⟩ := key_packet_codec hfits
  exact ⟨hfits, packed, hencode, hdecode (by decide), htrailing [0] (by decide)⟩

end Gather
