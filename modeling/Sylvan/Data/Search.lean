-- SUMMARY: Substring search: the first occurrence in a list, occurrences inside a window, and UTF-8's substrings by bytes.
import Mathlib.Data.List.Infix
import Mathlib.Data.List.TakeWhile
import Sylvan.Data.RustStr

/-!
# Substring search

A search finds the least offset a needle stands at. UTF-8 is self-synchronizing, so a search
of bytes finds what a search of characters does.
-/

namespace Search

section

variable {α : Type*}

/-- The needle stands at offset `n`. -/
def At (needle hay : List α) (n : ℕ) : Prop := needle <+: hay.drop n

theorem infix_iff_at {needle hay : List α} : needle <:+: hay ↔ ∃ n, At needle hay n := by
  constructor
  · rintro ⟨front, back, rfl⟩
    exact ⟨front.length, by simp [At]⟩
  · rintro ⟨n, hn⟩
    exact hn.isInfix.trans (List.drop_suffix n hay).isInfix

theorem At.length_le {needle hay : List α} {n : ℕ} (h : At needle hay n) (hne : needle ≠ []) :
    n + needle.length ≤ hay.length := by
  have hlen : needle.length ≤ (hay.drop n).length := List.IsPrefix.length_le h
  have hpos := List.length_pos_of_ne_nil hne
  rw [List.length_drop] at hlen
  omega

theorem infix_window_iff {needle hay : List α} {start len : ℕ} (hfits : start + len ≤ hay.length) (hne : needle ≠ []) :
    needle <:+: (hay.drop start).take len ↔ ∃ n, start ≤ n ∧ n + needle.length ≤ start + len ∧ At needle hay n := by
  have hlen : ((hay.drop start).take len).length = len := by
    rw [List.length_take, List.length_drop]
    omega
  rw [infix_iff_at]
  constructor
  · rintro ⟨n, hn⟩
    have hbound := hn.length_le hne
    refine ⟨start + n, Nat.le_add_right _ _, by omega, ?_⟩
    unfold At at hn ⊢
    rw [← List.drop_drop]
    exact hn.trans (by rw [List.drop_take]; exact List.take_prefix _ _)
  · rintro ⟨n, hstart, hstop, hn⟩
    refine ⟨n - start, ?_⟩
    unfold At at hn ⊢
    rw [List.drop_take, List.drop_drop, Nat.add_sub_cancel' hstart, List.prefix_take_iff]
    exact ⟨hn, by omega⟩

variable [DecidableEq α]

def find (needle : List α) : List α → Option ℕ
  | [] => if needle = [] then some 0 else none
  | a :: hay => if needle <+: a :: hay then some 0 else (find needle hay).map (· + 1)

variable {needle hay : List α}

theorem find_eq_some {n : ℕ} (h : find needle hay = some n) : At needle hay n ∧ ∀ m < n, ¬ At needle hay m := by
  induction hay generalizing n with
  | nil =>
    rw [find] at h
    split_ifs at h with hnil
    obtain rfl := Option.some.inj h
    exact ⟨by simp [At, hnil], fun m hm => absurd hm (Nat.not_lt_zero m)⟩
  | cons a hay ih =>
    rw [find] at h
    split_ifs at h with hhere
    · obtain rfl := Option.some.inj h
      exact ⟨hhere, fun m hm => absurd hm (Nat.not_lt_zero m)⟩
    · obtain ⟨k, hk, rfl⟩ := Option.map_eq_some_iff.mp h
      obtain ⟨hat, hfirst⟩ := ih hk
      refine ⟨hat, fun m hm => ?_⟩
      cases m with
      | zero => exact hhere
      | succ m => exact hfirst m (Nat.lt_of_succ_lt_succ hm)

theorem find_eq_none (h : find needle hay = none) (n : ℕ) : ¬ At needle hay n := by
  induction hay generalizing n with
  | nil =>
    rw [find] at h
    split_ifs at h with hnil
    simpa [At] using hnil
  | cons a hay ih =>
    rw [find] at h
    split_ifs at h with hhere
    cases n with
    | zero => exact hhere
    | succ n => exact ih (Option.map_eq_none_iff.mp h) n

theorem find_of_first {n : ℕ} (hat : At needle hay n) (hfirst : ∀ m < n, ¬ At needle hay m) : find needle hay = some n := by
  cases h : find needle hay with
  | none => exact absurd hat (find_eq_none h n)
  | some m =>
    obtain ⟨hm, hbefore⟩ := find_eq_some h
    rcases Nat.lt_trichotomy m n with hlt | rfl | hlt
    · exact absurd hm (hfirst m hlt)
    · rfl
    · exact absurd hat (hbefore n hlt)

/-! ## Every occurrence -/

/-- Where the needle stands, each occurrence searched for behind the one before; `at_` is where the list stands, and the
    next `skip` places lie in the last occurrence. -/
def findIterFrom (needle : List α) : (skip at_ : ℕ) → List α → List ℕ
  | _, _, [] => []
  | skip + 1, at_, _ :: hay => findIterFrom needle skip (at_ + 1) hay
  | 0, at_, a :: hay =>
    if needle <+: a :: hay then at_ :: findIterFrom needle (needle.length - 1) (at_ + 1) hay
    else findIterFrom needle 0 (at_ + 1) hay

/-- The occurrences one search of a list finds, none overlapping another. -/
def findIter (needle hay : List α) : List ℕ := findIterFrom needle 0 0 hay

omit [DecidableEq α] in
theorem prefix_of_prefix_line {sep : α} {rest : List α} (line : List α) (hsep : sep ∉ needle) (h : needle <+: line ++ sep :: rest) :
    needle <+: line := by
  induction needle generalizing line with
  | nil => exact List.nil_prefix
  | cons b needle ih =>
    cases line with
    | nil =>
      rw [List.nil_append, List.cons_prefix_cons] at h
      exact absurd (by simp [h.1]) hsep
    | cons a line =>
      rw [List.cons_append, List.cons_prefix_cons] at h
      exact List.cons_prefix_cons.mpr ⟨h.1, ih line (fun hin => hsep (List.mem_cons_of_mem _ hin)) h.2⟩

theorem findIterFrom_line {sep : α} (hsep : sep ∉ needle) (hne : needle ≠ []) (line rest : List α) {skip at_ : ℕ}
    (hskip : skip ≤ line.length) :
    findIterFrom needle skip at_ (line ++ sep :: rest) =
      findIterFrom needle skip at_ line ++ findIterFrom needle 0 (at_ + line.length + 1) rest := by
  induction line generalizing skip at_ with
  | nil =>
    obtain rfl := Nat.le_zero.mp hskip
    have hnot : ¬ needle <+: sep :: rest := by
      intro h
      exact hne (List.prefix_nil.mp (prefix_of_prefix_line [] hsep h))
    have hstep : findIterFrom needle 0 at_ (sep :: rest) = findIterFrom needle 0 (at_ + 1) rest := by
      rw [findIterFrom, if_neg hnot]
    rw [List.nil_append, hstep]
    rfl
  | cons a line ih =>
    have hat : at_ + 1 + line.length + 1 = at_ + (a :: line).length + 1 := by
      rw [List.length_cons]
      omega
    cases skip with
    | succ skip =>
      rw [List.cons_append, findIterFrom, findIterFrom, ih (Nat.le_of_succ_le_succ hskip), hat]
    | zero =>
      rw [List.cons_append, findIterFrom, findIterFrom]
      by_cases hhere : needle <+: a :: line
      · have hlen := hhere.length_le
        rw [List.length_cons] at hlen
        have hlonger : needle <+: a :: (line ++ sep :: rest) := hhere.trans (List.prefix_append (a :: line) _)
        rw [if_pos hlonger, if_pos hhere, ih (by omega), hat, List.cons_append]
      · have hnot : ¬ needle <+: a :: (line ++ sep :: rest) :=
          fun h => hhere (prefix_of_prefix_line (a :: line) hsep h)
        rw [if_neg hnot, if_neg hhere, ih (Nat.zero_le _), hat]

theorem findIterFrom_within {skip at_ p : ℕ} (h : p ∈ findIterFrom needle skip at_ hay) :
    at_ ≤ p ∧ p + needle.length ≤ at_ + hay.length := by
  induction hay generalizing skip at_ with
  | nil =>
    cases skip <;> simp [findIterFrom] at h
  | cons a hay ih =>
    rw [List.length_cons]
    cases skip with
    | succ skip =>
      rw [findIterFrom] at h
      have := ih h
      omega
    | zero =>
      rw [findIterFrom] at h
      split_ifs at h with hhere
      · have hlen := hhere.length_le
        rw [List.length_cons] at hlen
        rcases List.mem_cons.mp h with rfl | hlater
        · omega
        · have := ih hlater
          omega
      · have := ih h
        omega

theorem findIterFrom_eq_nil (hne : needle ≠ []) (at_ : ℕ) : findIterFrom needle 0 at_ hay = [] ↔ ¬ needle <:+: hay := by
  induction hay generalizing at_ with
  | nil => simpa [findIterFrom] using hne
  | cons a hay ih =>
    rw [findIterFrom, List.infix_cons_iff]
    by_cases hhere : needle <+: a :: hay
    · simp [hhere]
    · rw [if_neg hhere, ih]
      simp [hhere]

/-! ## Where a list of increasing values passes a bound -/

/-- `partition_point`: how many values come before the first that fails. -/
def partitionPoint (p : α → Bool) (l : List α) : ℕ := (l.takeWhile p).length

omit [DecidableEq α] in
theorem partitionPoint_append {p : α → Bool} {front : List α} (back : List α) (hfront : ∀ a ∈ front, p a = true)
    (hback : ∀ a ∈ back.head?, p a = false) : partitionPoint p (front ++ back) = front.length := by
  rw [partitionPoint, List.takeWhile_append_of_pos hfront]
  cases back with
  | nil => simp
  | cons b back =>
    have hb : p b = false := hback b rfl
    simp [hb]

end

/-! ## Strings -/

open RustStr

theorem encodeChar_lead (c : Char) :
    ∃ b rest, Utf8.encodeChar c = b :: rest ∧ (c.toNat < 0x80 ∧ b.toNat < 0x80 ∨ 0xc0 ≤ b.toNat) ∧
      ∀ d ∈ rest, 0x80 ≤ d.toNat ∧ d.toNat < 0xc0 := by
  have hvalid : c.toNat < 0x110000 := by
    rcases c.valid with hlow | hhigh
    · exact lt_trans hlow (by decide)
    · exact hhigh.2
  unfold Utf8.encodeChar
  simp only
  generalize c.toNat = v at hvalid
  split_ifs with h1 h2 h3
  · exact ⟨_, _, rfl, .inl ⟨h1, by rw [Utf8.toNat_ofNat_of_lt (by omega)]; exact h1⟩, by simp⟩
  · refine ⟨_, _, rfl, .inr (by rw [Utf8.toNat_ofNat_of_lt (by omega)]; omega), fun d hd => ?_⟩
    simp only [List.mem_singleton] at hd
    rw [hd, Utf8.toNat_ofNat_of_lt (by omega)]
    omega
  · refine ⟨_, _, rfl, .inr (by rw [Utf8.toNat_ofNat_of_lt (by omega)]; omega), fun d hd => ?_⟩
    simp only [List.mem_cons, List.not_mem_nil, or_false] at hd
    rcases hd with rfl | rfl <;> rw [Utf8.toNat_ofNat_of_lt (by omega)] <;> omega
  · refine ⟨_, _, rfl, .inr (by rw [Utf8.toNat_ofNat_of_lt (by omega)]; omega), fun d hd => ?_⟩
    simp only [List.mem_cons, List.not_mem_nil, or_false] at hd
    rcases hd with rfl | rfl | rfl <;> rw [Utf8.toNat_ofNat_of_lt (by omega)] <;> omega

theorem utf8_cons (c : Char) (s : List Char) : utf8 (c :: s) = Utf8.encodeChar c ++ utf8 s := List.flatMap_cons

theorem utf8_append (s t : List Char) : utf8 (s ++ t) = utf8 s ++ utf8 t := List.flatMap_append

theorem mem_of_byte_mem_utf8 {c : Char} {s : List Char} (hc : c.toNat < 0x80) (h : UInt8.ofNat c.toNat ∈ utf8 s) : c ∈ s := by
  obtain ⟨d, hd, hin⟩ := List.mem_flatMap.mp h
  obtain ⟨b, rest, hlead, hb, hrest⟩ := encodeChar_lead d
  have hbyte : (UInt8.ofNat c.toNat).toNat = c.toNat := Utf8.toNat_ofNat_of_lt (by omega)
  rw [hlead] at hin
  rcases List.mem_cons.mp hin with hsame | hlater
  · rw [← hsame, hbyte] at hb
    obtain ⟨hascii, -⟩ := hb.resolve_right (by omega)
    have hone : Utf8.encodeChar d = [UInt8.ofNat d.toNat] := by simp [Utf8.encodeChar, hascii]
    rw [hone] at hlead
    have hvalue : (UInt8.ofNat d.toNat).toNat = (UInt8.ofNat c.toNat).toNat := by
      rw [(List.cons.inj hlead).1, hsame]
    rw [hbyte, Utf8.toNat_ofNat_of_lt (by omega)] at hvalue
    rwa [← Char.toNat_inj.mp hvalue]
  · have := hrest _ hlater
    rw [hbyte] at this
    omega

theorem prefix_of_utf8 {needle s : List Char} (h : utf8 needle <+: utf8 s) : needle <+: s := by
  induction needle generalizing s with
  | nil => exact List.nil_prefix
  | cons c needle ih =>
    obtain ⟨t, ht⟩ := h
    cases s with
    | nil =>
      rw [utf8_cons, List.append_assoc] at ht
      exact absurd (List.append_eq_nil_iff.mp ht).1 (encodeChar_ne_nil c)
    | cons d s =>
      rw [utf8_cons, utf8_cons, List.append_assoc] at ht
      have hdecoded := congrArg (Utf8.decodeFrom Utf8.ready) ht
      rw [Utf8.decodeFrom_encodeChar, Utf8.decodeFrom_encodeChar] at hdecoded
      obtain rfl := (List.cons.inj hdecoded).1
      have hrest := List.append_cancel_left ht
      exact List.cons_prefix_cons.mpr ⟨rfl, ih ⟨t, hrest⟩⟩

/-- **A substring by bytes is a substring.** -/
theorem infix_utf8_iff {needle s : List Char} : utf8 needle <:+: utf8 s ↔ needle <:+: s := by
  constructor
  · intro h
    cases needle with
    | nil => exact List.nil_infix
    | cons c needle =>
      obtain ⟨n, hn⟩ := infix_iff_at.mp h
      obtain ⟨b, rest, hlead, hb, -⟩ := encodeChar_lead c
      induction s generalizing n with
      | nil =>
        rw [At, show utf8 [] = [] from rfl, List.drop_nil, List.prefix_nil, utf8_cons, hlead] at hn
        cases hn
      | cons d s ih =>
        obtain ⟨b', rest', hlead', -, hrest⟩ := encodeChar_lead d
        cases n with
        | zero => exact (prefix_of_utf8 hn).isInfix
        | succ n =>
          by_cases hinside : n < rest'.length
          · -- Inside the bytes of one character no other begins.
            obtain ⟨t, ht⟩ := hn
            rw [utf8_cons, utf8_cons, hlead, hlead', List.cons_append, List.cons_append,
              List.cons_append, List.drop_succ_cons,
              List.drop_append_of_le_length hinside.le, List.drop_eq_getElem_cons hinside] at ht
            have hsame : b = rest'[n] := (List.cons.inj ht).1
            have hgoes := hrest _ (List.getElem_mem hinside)
            rw [← hsame] at hgoes
            omega
          · have hlater : At (utf8 (c :: needle)) (utf8 s) (n - rest'.length) := by
              rw [At, utf8_cons d, hlead', List.cons_append, List.drop_succ_cons, List.drop_append,
                List.drop_eq_nil_of_le (Nat.not_lt.mp hinside), List.nil_append] at hn
              exact hn
            exact (ih (infix_iff_at.mpr ⟨_, hlater⟩) _ hlater).trans (List.suffix_cons d s).isInfix
  · rintro ⟨front, back, rfl⟩
    exact ⟨utf8 front, utf8 back, by rw [utf8_append, utf8_append]⟩

end Search
